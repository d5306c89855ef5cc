import FlexPlan.CfgAlgos
import FlexPlan.TransitionRuns
import Mathlib.Data.DFinsupp.WellFounded

/-!
# Chaotic iteration

`WorklistAlgo` keeps a value for every node it has met and a set of nodes whose outgoing edges have
to be followed again. Its result is the least solution of the inequalities of the transfer function.
-/
namespace WorklistAlgo

open FlowGraph CfgAlgos TransitionRuns List Function

inductive EdgeType where
  | normal
  | call
  | ret
  | callToReturn
  | goto
  | unknown
  deriving DecidableEq

def edgeType (label : ℤ) : EdgeType :=
  if 0 ≤ label then .normal
  else if label = -1 then .call
  else if label = -2 then .ret
  else if label = -3 then .callToReturn
  else if label = -4 then .goto
  else .unknown

variable {ν L : Type}

/-- The template arguments and the graph. `isEnd` says which nodes have type `END`,
`callNode` gives a node the type `CALL`, and `xferReturn` is the transfer along a return. -/
structure Analysis (ν L : Type) where
  current : EdgeHolder ν
  isEnd : ν → Bool
  callNode : ν → ν
  xfer : ν → ν × ℤ → L → L
  xferReturn : ν → ν × ℤ → L → L → L
  factory : L
  discipline : ν → ν → Bool

structure State (ν L : Type) where
  result : ν → Option L
  worklist : List ν

def emplace (less : ν → ν → Bool) (n : ν) : List ν → List ν
  | [] => [n]
  | m :: ms =>
    if less n m then n :: m :: ms
    else if less m n then m :: emplace less n ms
    else m :: ms

theorem mem_emplace {less : ν → ν → Bool}
    (htotal : ∀ m ∈ ms, m ≠ n → less n m = true ∨ less m n = true) :
    u ∈ emplace less n ms ↔ u = n ∨ u ∈ ms := by
  induction ms with
  | nil => simp [emplace]
  | cons m ms ih =>
    obtain ⟨hm, hms⟩ := forall_mem_cons.mp htotal
    simp only [emplace]
    split_ifs with hnm hmn
    · simp
    · simp only [mem_cons, ih hms]
      tauto
    · -- only an element that is there already is not inserted
      obtain rfl : m = n := by
        by_contra hne
        rcases hm hne with h | h
        · exact hnm h
        · exact hmn h
      simp

section Algorithm

variable [DecidableEq ν] [SemilatticeSup L] [DecidableEq L] (A : Analysis ν L)

/-- The value an edge transports when the node it leaves has the value `val`. -/
def transported (result : ν → Option L) (nowat : ν) (e : ν × ℤ) (val : L) : L :=
  if A.isEnd nowat = true ∧ edgeType e.2 = .ret then
    match result (A.callNode e.1) with
    | some atCall => A.xferReturn nowat e atCall val
    | none => A.factory
  else A.xfer nowat e val

def relax (nowat : ν) (s : State ν L) (e : ν × ℤ) : State ν L :=
  match s.result nowat with
  | none => s
  | some val =>
    let nxtval := transported A s.result nowat e val
    match s.result e.1 with
    | some old =>
      let merged := old ⊔ nxtval
      if merged ≠ old then
        ⟨update s.result e.1 (some merged), emplace A.discipline e.1 s.worklist⟩
      else s
    | none => ⟨update s.result e.1 (some nxtval), emplace A.discipline e.1 s.worklist⟩

def body (s : State ν L) : Option (State ν L) :=
  match s.worklist with
  | [] => none
  | nowat :: rest =>
    match s.result nowat with
    | none => some { s with worklist := rest }
    | some _ => some ((A.current.neighbors nowat).foldl (relax A nowat) { s with worklist := rest })

def initial (start : ν) (value : L) : State ν L :=
  ⟨fun n => if n = start then some value else none, [start]⟩

end Algorithm

section Solutions

variable (A : Analysis ν L)

def NoReturns : Prop := ∀ n, ∀ e ∈ A.current.neighbors n, edgeType e.2 ≠ .ret

/-- No return edge leaves an end node, so that only the one-argument transfer is used. -/
def NoReturnsFromEnds : Prop :=
  ∀ n, ∀ e ∈ A.current.neighbors n, A.isEnd n = true → edgeType e.2 ≠ .ret

def TransferMonotone [LE L] : Prop := ∀ n e x y, x ≤ y → A.xfer n e x ≤ A.xfer n e y

/-- Any two nodes that can be reached are ordered by the discipline. -/
def DisciplineTotal (start : ν) : Prop := ∀ m n, Reach A.current.succs start m →
  Reach A.current.succs start n → m ≠ n → A.discipline m n = true ∨ A.discipline n m = true

/-- An assignment on the nodes of `reached` above the initial value and closed under the
transfer function. -/
structure Solves [LE L] (start : ν) (value : L) (reached : ν → Prop) (a : ν → L) : Prop where
  initial : value ≤ a start
  closed : ∀ n, reached n → ∀ e ∈ A.current.neighbors n, A.xfer n e (a n) ≤ a e.1

end Solutions

variable {A : Analysis ν L} {start : ν} {value : L}

theorem NoReturns.fromEnds (h : NoReturns A) : NoReturnsFromEnds A := fun n e he _ => h n e he

theorem edge_of_neighbor (he : e ∈ A.current.neighbors n) : Edge A.current.succs n e.1 :=
  mem_map_of_mem he

section Discipline

variable [DecidableEq ν]

def priority (sorted : List ν) (n : ν) : ℕ := sorted.length - sorted.idxOf n

def defaultDiscipline (graph : EdgeHolder ν) (start : ν) (l r : ν) : Bool :=
  priority (topoSort graph start) l < priority (topoSort graph start) r

theorem defaultDiscipline_total (h : A.discipline = defaultDiscipline A.current start) :
    DisciplineTotal A start := by
  intro m n hm hn hne
  have hindex : ∀ u, Reach A.current.succs start u →
      (topoSort A.current start).idxOf u < (topoSort A.current start).length :=
    fun u hu => idxOf_lt_length_iff.mpr (mem_topoSort_iff.mpr hu)
  have hdiffer : (topoSort A.current start).idxOf m ≠ (topoSort A.current start).idxOf n :=
    fun heq => hne ((idxOf_inj (mem_topoSort_iff.mpr hm)).mp heq)
  have hless : ∀ l r, A.discipline l r = true ↔
      priority (topoSort A.current start) l < priority (topoSort A.current start) r := by
    intro l r
    rw [h]
    exact decide_eq_true_iff
  have hm := hindex m hm
  have hn := hindex n hn
  rw [hless, hless]
  unfold priority
  omega

end Discipline

variable [SemilatticeSup L]

/-- The value of the target of an edge is above what the edge transports. -/
def Below (A : Analysis ν L) (result : ν → Option L) (n : ν) (e : ν × ℤ) : Prop :=
  ∀ x, result n = some x → ∃ y, result e.1 = some y ∧ A.xfer n e x ≤ y

def Grows (r t : ν → Option L) : Prop := ∀ n x, r n = some x → ∃ y, t n = some y ∧ x ≤ y

theorem Below.grows (h : Below A r n e) (hgrows : Grows r t) (hsame : t n = r n) :
    Below A t n e := by
  intro x hx
  obtain ⟨y, hy, hxy⟩ := h x (hsame ▸ hx)
  obtain ⟨z, hz, hyz⟩ := hgrows e.1 y hy
  exact ⟨z, hz, hxy.trans hyz⟩

section Steps

variable [DecidableEq ν] [DecidableEq L] {s : State ν L} {nowat : ν} {e : ν × ℤ} {x : L}

/-- An edge changes nothing, or the value of its target becomes the join of what it was
and what is transported, and the target is listed. -/
theorem relax_transported (hx : s.result nowat = some x) :
    (relax A nowat s e = s ∧ ∃ old, s.result e.1 = some old ∧
      transported A s.result nowat e x ≤ old) ∨
    ∃ y, (relax A nowat s e).result = update s.result e.1 (some y) ∧
      (relax A nowat s e).worklist = emplace A.discipline e.1 s.worklist ∧
      transported A s.result nowat e x ≤ y ∧ (∀ old, s.result e.1 = some old → old < y) ∧
      ∀ b, transported A s.result nowat e x ≤ b →
        (∀ old, s.result e.1 = some old → old ≤ b) → y ≤ b := by
  cases hold : s.result e.1 with
  | none =>
    refine Or.inr ⟨transported A s.result nowat e x, ?_, ?_, le_rfl, by simp, fun b hb _ => hb⟩
    · simp only [relax, hx, hold]
    · simp only [relax, hx, hold]
  | some old =>
    by_cases hmerged : old ⊔ transported A s.result nowat e x = old
    · refine Or.inl ⟨?_, old, rfl, sup_eq_left.mp hmerged⟩
      simp only [relax, hx, hold, hmerged, ne_eq, not_true_eq_false, if_false]
    · refine Or.inr ⟨old ⊔ transported A s.result nowat e x, ?_, ?_, le_sup_right, ?_, ?_⟩
      · simp only [relax, hx, hold, ne_eq, hmerged, not_false_eq_true, if_true]
      · simp only [relax, hx, hold, ne_eq, hmerged, not_false_eq_true, if_true]
      · rintro _ ⟨⟩
        exact lt_of_le_of_ne le_sup_left (Ne.symm hmerged)
      · exact fun b hb hle => sup_le (hle old rfl) hb

theorem relax_cases (hret : A.isEnd nowat = true → edgeType e.2 ≠ .ret)
    (hx : s.result nowat = some x) :
    (relax A nowat s e = s ∧ ∃ old, s.result e.1 = some old ∧ A.xfer nowat e x ≤ old) ∨
    ∃ y, (relax A nowat s e).result = update s.result e.1 (some y) ∧
      (relax A nowat s e).worklist = emplace A.discipline e.1 s.worklist ∧
      A.xfer nowat e x ≤ y ∧ (∀ old, s.result e.1 = some old → old < y) ∧
      ∀ b, A.xfer nowat e x ≤ b → (∀ old, s.result e.1 = some old → old ≤ b) → y ≤ b := by
  have hval : transported A s.result nowat e x = A.xfer nowat e x := if_neg fun h => hret h.1 h.2
  rw [← hval]
  exact relax_transported hx

omit [DecidableEq L] in
theorem grows_update {r : ν → Option L} (h : ∀ old, r m = some old → old < y) :
    Grows r (update r m (some y)) := by
  intro n x hx
  by_cases hn : n = m
  · subst hn
    exact ⟨y, update_self _ _ _, (h x hx).le⟩
  · exact ⟨x, by rw [update_of_ne hn, hx], le_rfl⟩

theorem relax_grows (hx : s.result nowat = some x) : Grows s.result (relax A nowat s e).result := by
  rcases relax_transported (A := A) (e := e) hx with ⟨hsame, -⟩ | ⟨y, hresult, -, -, hless, -⟩
  · rw [hsame]
    exact fun n x hx => ⟨x, hx, le_rfl⟩
  · rw [hresult]
    exact grows_update hless

theorem relax_target (hx : s.result nowat = some x) :
    ∃ y, (relax A nowat s e).result e.1 = some y ∧ transported A s.result nowat e x ≤ y := by
  rcases relax_transported hx with ⟨hsame, old, hold, hle⟩ | ⟨y, hresult, -, hle, -⟩
  · exact ⟨old, by rw [hsame, hold], hle⟩
  · exact ⟨y, by rw [hresult, update_self], hle⟩

theorem relax_isSome (hx : s.result nowat = some x) :
    ∃ z, (relax A nowat s e).result nowat = some z := by
  obtain ⟨z, hz, -⟩ := relax_grows hx nowat x hx
  exact ⟨z, hz⟩

/-- Values stand only at reachable nodes, and every listed node has one. -/
structure Located (A : Analysis ν L) (start : ν) (s : State ν L) : Prop where
  origin : ∀ n x, s.result n = some x → Reach A.current.succs start n
  listed : ∀ n ∈ s.worklist, ∃ x, s.result n = some x

omit [SemilatticeSup L] [DecidableEq ν] [DecidableEq L] in
theorem Located.mem_emplace (h : Located A start s) (htotal : DisciplineTotal A start)
    (hm : Reach A.current.succs start m) :
    u ∈ emplace A.discipline m s.worklist ↔ u = m ∨ u ∈ s.worklist := by
  refine WorklistAlgo.mem_emplace fun n hn hne => ?_
  obtain ⟨z, hz⟩ := h.listed n hn
  exact htotal m n hm (h.origin n z hz) (Ne.symm hne)

section

variable (h : Located A start s) (htotal : DisciplineTotal A start)
  (he : e ∈ A.current.neighbors nowat)
  (hx : s.result nowat = some x)

include h htotal he hx

theorem Located.relax : Located A start (WorklistAlgo.relax A nowat s e) := by
  have hreach : Reach A.current.succs start e.1 := (h.origin nowat x hx).tail (edge_of_neighbor he)
  rcases relax_transported hx with ⟨hsame, -⟩ | ⟨y, hresult, hlist, -, hless, -⟩
  · rw [hsame]
    exact h
  · refine ⟨fun n z hz => ?_, fun n hn => ?_⟩
    · by_cases hn : n = e.1
      · rw [hn]
        exact hreach
      · rw [hresult, update_of_ne hn] at hz
        exact h.origin n z hz
    · rw [hlist, h.mem_emplace htotal hreach] at hn
      rw [hresult]
      rcases hn with rfl | hn
      · exact ⟨y, update_self _ _ _⟩
      · obtain ⟨z, hz⟩ := h.listed n hn
        obtain ⟨w, hw, -⟩ := grows_update hless n z hz
        exact ⟨w, hw⟩

/-- A node that is not listed behind an edge was not listed before it and has kept its value. -/
theorem Located.unlisted (hn : n ∉ (WorklistAlgo.relax A nowat s e).worklist) :
    n ∉ s.worklist ∧ (WorklistAlgo.relax A nowat s e).result n = s.result n := by
  rcases relax_transported (A := A) (e := e) hx with ⟨hsame, -⟩ | ⟨y, hresult, hlist, -⟩
  · rw [hsame] at hn ⊢
    exact ⟨hn, rfl⟩
  · rw [hlist, h.mem_emplace htotal ((h.origin nowat x hx).tail (edge_of_neighbor he)),
      not_or] at hn
    exact ⟨hn.2, by rw [hresult, update_of_ne hn.1]⟩

end

omit [SemilatticeSup L] [DecidableEq L] in
theorem located_initial : Located A start (initial start value) where
  origin n x hx := by
    by_cases hn : n = start
    · rw [hn]
    · simp [initial, hn] at hx
  listed n hn := ⟨value, by simp [initial, mem_singleton.mp hn]⟩

/-- The edges in `pending` are still to be followed; every other edge of a node that is not
listed has its inequality. -/
structure Progress (A : Analysis ν L) (start : ν) (value : L) (pending : ν → ν × ℤ → Prop)
    (s : State ν L) : Prop where
  origin : ∀ n x, s.result n = some x → Reach A.current.succs start n
  listed : ∀ n ∈ s.worklist, ∃ x, s.result n = some x
  atStart : ∃ x, s.result start = some x ∧ value ≤ x
  solved : ∀ n, n ∉ s.worklist → ∀ e ∈ A.current.neighbors n, ¬pending n e → Below A s.result n e

theorem Progress.relax {pending pending' : ν → ν × ℤ → Prop} (h : Progress A start value pending s)
    (hreturns : NoReturnsFromEnds A) (htotal : DisciplineTotal A start)
    (he : e ∈ A.current.neighbors nowat)
    (hx : s.result nowat = some x)
    (hpending : ∀ n d, pending n d → pending' n d ∨ (n = nowat ∧ d = e)) :
    Progress A start value pending' (relax A nowat s e) := by
  have hlocated : Located A start s := ⟨h.origin, h.listed⟩
  have hgrows : Grows s.result (WorklistAlgo.relax A nowat s e).result := relax_grows hx
  obtain ⟨horigin, hlisted⟩ := hlocated.relax htotal he hx
  refine ⟨horigin, hlisted, ?_, fun n hn d hd hnot => ?_⟩
  · obtain ⟨z, hz, hvalue⟩ := h.atStart
    obtain ⟨w, hw, hzw⟩ := hgrows start z hz
    exact ⟨w, hw, hvalue.trans hzw⟩
  · obtain ⟨hold, hsame⟩ := hlocated.unlisted htotal he hx hn
    by_cases hp : pending n d
    · -- the edge itself is covered by what it transports, every other edge by the invariant
      obtain ⟨rfl, rfl⟩ := (hpending n d hp).resolve_left hnot
      obtain ⟨y, hy, hle⟩ := relax_target (A := A) (e := d) hx
      rw [transported, if_neg fun hret => hreturns n d he hret.1 hret.2] at hle
      intro z hz
      obtain rfl : x = z := Option.some.inj (hx.symm.trans (hsame ▸ hz))
      exact ⟨y, hy, hle⟩
    · exact (h.solved n hold d hd hp).grows hgrows hsame

omit [DecidableEq ν] in
theorem pending_cons (n : ν) (d : ν × ℤ) (h : n = nowat ∧ d ∈ e :: es) :
    (n = nowat ∧ d ∈ es) ∨ (n = nowat ∧ d = e) := by
  rcases mem_cons.mp h.2 with rfl | hd
  · exact Or.inr ⟨h.1, rfl⟩
  · exact Or.inl ⟨h.1, hd⟩

theorem worklist_of_body (h : body A s = none) : s.worklist = [] := by
  cases hlist : s.worklist with
  | nil => rfl
  | cons nowat rest => cases hx : s.result nowat <;> simp [body, hlist, hx] at h

omit [DecidableEq ν] [DecidableEq L] in
theorem Grows.refl (r : ν → Option L) : Grows r r := fun _ x hx => ⟨x, hx, le_rfl⟩

omit [DecidableEq ν] [DecidableEq L] in
theorem Grows.trans {r u v : ν → Option L} (h : Grows r u) (h' : Grows u v) : Grows r v := by
  intro n x hx
  obtain ⟨y, hy, hxy⟩ := h n x hx
  obtain ⟨z, hz, hyz⟩ := h' n y hy
  exact ⟨z, hz, hxy.trans hyz⟩

omit [DecidableEq ν] [DecidableEq L] in
theorem Grows.between {r u v : ν → Option L} (h : Grows r u) (h' : Grows u v)
    (hr : r n = some c) (hv : v n = some c) : u n = some c := by
  obtain ⟨y, hy, hcy⟩ := h n c hr
  obtain ⟨z, hz, hyz⟩ := h' n y hy
  cases hz.symm.trans hv
  rw [hy, le_antisymm hyz hcy]

/-- What every edge of a node keeps, the round of the node keeps. -/
theorem foldl_rule {P : State ν L → Prop} {es : List (ν × ℤ)}
    (hes : ∀ e ∈ es, e ∈ A.current.neighbors nowat)
    (step : ∀ s x, ∀ e ∈ A.current.neighbors nowat, s.result nowat = some x → P s →
      P (relax A nowat s e)) (hx : ∃ x, s.result nowat = some x) (h : P s) :
    P (es.foldl (relax A nowat) s) ∧ ∃ x, (es.foldl (relax A nowat) s).result nowat = some x := by
  induction es generalizing s with
  | nil => exact ⟨h, hx⟩
  | cons e es ih =>
    obtain ⟨he, hes⟩ := forall_mem_cons.mp hes
    obtain ⟨x, hx⟩ := hx
    exact ih hes (relax_isSome hx) (step s x e he hx h)

theorem grows_foldl {es : List (ν × ℤ)} (hes : ∀ e ∈ es, e ∈ A.current.neighbors nowat)
    (hx : ∃ x, s.result nowat = some x) : Grows s.result (es.foldl (relax A nowat) s).result :=
  (foldl_rule (P := fun u => Grows s.result u.result) hes
    (fun _ _ _ _ hx hu => hu.trans (relax_grows hx)) hx (Grows.refl _)).1

/-- A round drops a node without a value, or follows the edges of one. -/
theorem body_cases (h : body A s = some t) : ∃ nowat rest, s.worklist = nowat :: rest ∧
    ((s.result nowat = none ∧ t = { s with worklist := rest }) ∨
      (∃ x, s.result nowat = some x) ∧
        t = (A.current.neighbors nowat).foldl (relax A nowat) { s with worklist := rest }) := by
  cases hlist : s.worklist with
  | nil => simp [body, hlist] at h
  | cons nowat rest =>
    refine ⟨nowat, rest, rfl, ?_⟩
    cases hx : s.result nowat with
    | none =>
      simp only [body, hlist, hx, Option.some.injEq] at h
      exact Or.inl ⟨rfl, h.symm⟩
    | some x =>
      simp only [body, hlist, hx, Option.some.injEq] at h
      exact Or.inr ⟨⟨x, rfl⟩, h.symm⟩

theorem grows_body (h : body A s = some t) : Grows s.result t.result := by
  obtain ⟨nowat, rest, -, ⟨-, rfl⟩ | ⟨hx, rfl⟩⟩ := body_cases h
  · exact Grows.refl _
  · exact grows_foldl (s := { s with worklist := rest }) (fun _ he => he) hx

theorem grows_visits (h : Visits (body A) s t) : Grows s.result t.result := by
  induction h with
  | refl => exact Grows.refl _
  | tail _ hbody ih => exact ih.trans (grows_body hbody)

theorem Located.foldl {es : List (ν × ℤ)} (h : Located A start s)
    (htotal : DisciplineTotal A start) (hes : ∀ e ∈ es, e ∈ A.current.neighbors nowat)
    (hx : ∃ x, s.result nowat = some x) :
    Located A start (es.foldl (WorklistAlgo.relax A nowat) s) :=
  (foldl_rule hes (fun _ _ _ he hx hu => hu.relax htotal he hx) hx h).1

omit [DecidableEq ν] [SemilatticeSup L] [DecidableEq L] in
theorem Located.tail (h : Located A start s) (hlist : s.worklist = nowat :: rest) :
    Located A start { s with worklist := rest } :=
  ⟨h.origin, fun n hn => h.listed n (by rw [hlist]; exact mem_cons_of_mem _ hn)⟩

theorem Located.body (h : Located A start s) (htotal : DisciplineTotal A start)
    (hbody : WorklistAlgo.body A s = some t) : Located A start t := by
  obtain ⟨nowat, rest, hlist, ⟨-, rfl⟩ | ⟨hx, rfl⟩⟩ := body_cases hbody
  · exact h.tail hlist
  · exact Located.foldl (h.tail hlist) htotal (fun _ he => he) hx

theorem located_visits (htotal : DisciplineTotal A start)
    (h : Visits (WorklistAlgo.body A) (initial start value) s) : Located A start s := by
  induction h with
  | refl => exact located_initial
  | tail _ hbody ih => exact Located.body ih htotal hbody

def Kept (A : Analysis ν L) (start : ν) (K : (ν → Option L) → Prop) : Prop :=
  ∀ s nowat e x, Reach A.current.succs start nowat → e ∈ A.current.neighbors nowat →
    s.result nowat = some x → K s.result → K (relax A nowat s e).result

def Least (A : Analysis ν L) (start : ν) (value : L) (result : ν → Option L) : Prop :=
  ∀ a, Solves A start value (Reach A.current.succs start) a → ∀ n x, result n = some x → x ≤ a n

theorem kept_least (hreturns : NoReturnsFromEnds A) (hmono : TransferMonotone A) :
    Kept A start (Least A start value) := by
  intro s nowat e x hreach he hx h
  rcases relax_cases (hreturns nowat e he) hx with ⟨hsame, -⟩ | ⟨y, hresult, -, -, -, hsup⟩
  · rw [hsame]
    exact h
  · intro a ha n z hz
    by_cases hn : n = e.1
    · subst hn
      rw [hresult, update_self] at hz
      obtain rfl : y = z := Option.some.inj hz
      refine hsup _ ?_ (fun old hold => h a ha _ old hold)
      exact (hmono nowat e x (a nowat) (h a ha nowat x hx)).trans (ha.closed nowat hreach e he)
    · rw [hresult, update_of_ne hn] at hz
      exact h a ha n z hz

theorem Progress.foldl {K : (ν → Option L) → Prop} {es : List (ν × ℤ)}
    (hreturns : NoReturnsFromEnds A)
    (hkept : Kept A start K) (htotal : DisciplineTotal A start)
    (hes : ∀ e ∈ es, e ∈ A.current.neighbors nowat) (hx : ∃ x, s.result nowat = some x)
    (h : Progress A start value (fun n d => n = nowat ∧ d ∈ es) s) (hK : K s.result) :
    Progress A start value (fun _ _ => False) (es.foldl (WorklistAlgo.relax A nowat) s) ∧
      K (es.foldl (WorklistAlgo.relax A nowat) s).result := by
  induction es generalizing s with
  | nil => exact ⟨{ h with solved := fun n hn d hd _ => h.solved n hn d hd (by simp) }, hK⟩
  | cons e es ih =>
    obtain ⟨he, hes⟩ := forall_mem_cons.mp hes
    obtain ⟨x, hx⟩ := hx
    refine ih hes (relax_isSome hx)
      (h.relax hreturns htotal he hx pending_cons)
      (hkept s nowat e x (h.origin nowat x hx) he hx hK)

theorem Progress.body {K : (ν → Option L) → Prop} {t : State ν L}
    (h : Progress A start value (fun _ _ => False) s) (hK : K s.result)
    (hreturns : NoReturnsFromEnds A)
    (hkept : Kept A start K) (htotal : DisciplineTotal A start) (hbody : body A s = some t) :
    Progress A start value (fun _ _ => False) t ∧ K t.result := by
  cases hlist : s.worklist with
  | nil => simp [WorklistAlgo.body, hlist] at hbody
  | cons nowat rest =>
    obtain ⟨x, hx⟩ := h.listed nowat (by rw [hlist]; exact mem_cons_self)
    simp only [WorklistAlgo.body, hlist, hx, Option.some.injEq] at hbody
    rw [← hbody]
    refine Progress.foldl hreturns hkept htotal (fun e he => he) ⟨x, hx⟩ { h with
      listed := fun n hn => h.listed n (by rw [hlist]; exact mem_cons_of_mem _ hn)
      solved := fun n hn d hd hnot => ?_ } hK
    refine h.solved n (fun hmem => ?_) d hd (fun hf => hf)
    rw [hlist] at hmem
    rcases mem_cons.mp hmem with rfl | hmem
    · exact hnot ⟨rfl, hd⟩
    · exact hn hmem

omit [DecidableEq L] in
theorem progress_initial :
    Progress A start value (fun _ _ => False) (initial start value) where
  origin := located_initial.origin
  listed := (located_initial (A := A)).listed
  atStart := ⟨value, by simp [initial], le_rfl⟩
  solved n hn e _ _ x hx := by
    have hne : n ≠ start := fun h => hn (by simp [initial, h])
    simp [initial, hne] at hx

omit [DecidableEq L] in
theorem least_initial : Least A start value (initial start value).result := by
  intro a ha n x hx
  by_cases hn : n = start
  · subst hn
    obtain rfl : value = x := by simpa [initial] using hx
    exact ha.initial
  · simp [initial, hn] at hx

section Termination

/-- The values at the nodes of the graph, an absent one below all others. -/
def values (A : Analysis ν L) (start : ν) (s : State ν L) : A.current.nodes start → WithBot L :=
  fun n => s.result n

def Advances (A : Analysis ν L) (start : ν) (s t : State ν L) : Prop :=
  values A start s < values A start t ∨ t = s

omit [DecidableEq L] in
theorem Advances.trans (hst : Advances A start s t) (htu : Advances A start t u) :
    Advances A start s u := by
  rcases hst with hst | rfl
  · rcases htu with htu | rfl
    · exact Or.inl (hst.trans htu)
    · exact Or.inl hst
  · exact htu

theorem relax_advances (he : e ∈ A.current.neighbors nowat)
    (hreturns : A.isEnd nowat = true → edgeType e.2 ≠ .ret)
    (hx : s.result nowat = some x) : Advances A start s (relax A nowat s e) := by
  rcases relax_cases hreturns hx with ⟨hsame, -⟩ | ⟨y, hresult, -, -, hless, -⟩
  · exact Or.inr hsame
  · refine Or.inl (Pi.lt_def.mpr ⟨fun n => ?_,
      ⟨e.1, EdgeHolder.target_mem_nodes (edge_of_neighbor he)⟩, ?_⟩)
    · by_cases hn : n.1 = e.1
      · cases hold : s.result n.1 with
        | none => simp only [values, hold]; exact bot_le
        | some old =>
          simp only [values, hresult, hn, update_self]
          rw [← hn, hold]
          exact WithBot.coe_le_coe.mpr (hless old (hn ▸ hold)).le
      · simp only [values, hresult, update_of_ne hn]
        exact le_rfl
    · simp only [values, hresult, update_self]
      cases hold : s.result e.1 with
      | none => exact WithBot.bot_lt_coe y
      | some old => exact WithBot.coe_lt_coe.mpr (hless old hold)

theorem foldl_advances {es : List (ν × ℤ)} (hreturns : NoReturnsFromEnds A)
    (hes : ∀ e ∈ es, e ∈ A.current.neighbors nowat) (hx : ∃ x, s.result nowat = some x) :
    Advances A start s (es.foldl (relax A nowat) s) := by
  induction es generalizing s with
  | nil => exact Or.inr rfl
  | cons e es ih =>
    obtain ⟨he, hes⟩ := forall_mem_cons.mp hes
    obtain ⟨x, hx⟩ := hx
    have hret := hreturns nowat e he
    exact (relax_advances he hret hx).trans (ih hes (relax_isSome hx))

theorem body_descends (hreturns : NoReturnsFromEnds A) (hbody : body A s = some t) :
    Prod.Lex (· > ·) (· < ·) (values A start t, t.worklist.length)
      (values A start s, s.worklist.length) := by
  cases hlist : s.worklist with
  | nil => simp [body, hlist] at hbody
  | cons nowat rest =>
    cases hx : s.result nowat with
    | none =>
      simp only [body, hlist, hx, Option.some.injEq] at hbody
      rw [← hbody]
      exact Prod.Lex.right _ (Nat.lt_succ_self _)
    | some x =>
      simp only [body, hlist, hx, Option.some.injEq] at hbody
      rw [← hbody]
      have hadvances : Advances A start { s with worklist := rest }
          ((A.current.neighbors nowat).foldl (relax A nowat) { s with worklist := rest }) :=
        foldl_advances hreturns (fun e he => he) ⟨x, hx⟩
      rcases hadvances with hless | hsame
      · exact Prod.Lex.left _ _ hless
      · rw [hsame]
        exact Prod.Lex.right _ (Nat.lt_succ_self _)

end Termination

end Steps

/-- The iteration ends, with a value at exactly the nodes that can be reached; the values
solve the inequalities of the transfer function. -/
theorem worklistAlgo_solves [DecidableEq ν] [DecidableEq L] [WellFoundedGT L]
    (hreturns : NoReturnsFromEnds A)
    (htotal : DisciplineTotal A start) (hkept : Kept A start K)
    (hK : K (initial start value).result) :
    ∃ r : ν → Option L, Halts (body A) (initial start value) ⟨r, []⟩ ∧
      (∀ n, (∃ x, r n = some x) ↔ Reach A.current.succs start n) ∧
      (∀ n x, r n = some x → ∀ e ∈ A.current.neighbors n,
        ∃ y, r e.1 = some y ∧ A.xfer n e x ≤ y) ∧
      (∃ x, r start = some x ∧ value ≤ x) ∧ K r := by
  -- finitely many nodes with values that cannot rise for ever
  have hvalues : WellFounded fun a b : A.current.nodes start → WithBot L => a > b :=
    (Function.wellFoundedLT (α := (WithBot L)ᵒᵈ)).wf
  have hwf : WellFounded (Prod.Lex (fun a b : A.current.nodes start → WithBot L => a > b)
      (fun a b : ℕ => a < b)) := WellFounded.prod_lex hvalues wellFounded_lt
  have hround : ∀ s t, (Progress A start value (fun _ _ => False) s ∧ K s.result) →
      body A s = some t → (Progress A start value (fun _ _ => False) t ∧ K t.result) ∧
        Prod.Lex (· > ·) (· < ·) (values A start t, t.worklist.length)
          (values A start s, s.worklist.length) :=
    fun s t h hbody => ⟨h.1.body h.2 hreturns hkept htotal hbody, body_descends hreturns hbody⟩
  obtain ⟨t, hhalts, ⟨hinv, hkeeps⟩, hend⟩ := exists_halts hwf
    (fun s => (values A start s, s.worklist.length)) hround ⟨progress_initial, hK⟩
  have hempty := worklist_of_body hend
  have hsolved : ∀ n x, t.result n = some x → ∀ e ∈ A.current.neighbors n,
      ∃ y, t.result e.1 = some y ∧ A.xfer n e x ≤ y := by
    intro n x hx e he
    exact hinv.solved n (by simp [hempty]) e he (fun hf => hf) x hx
  have hreached : ∀ n, (∃ x, t.result n = some x) ↔ Reach A.current.succs start n := by
    intro n
    constructor
    · rintro ⟨x, hx⟩
      exact hinv.origin n x hx
    · intro hn
      induction hn with
      | refl =>
        obtain ⟨x, hx, -⟩ := hinv.atStart
        exact ⟨x, hx⟩
      | tail _ hstep ih =>
        obtain ⟨x, hx⟩ := ih
        obtain ⟨e, he, rfl⟩ := mem_map.mp hstep
        obtain ⟨y, hy, -⟩ := hsolved _ x hx e he
        exact ⟨y, hy⟩
  exact ⟨t.result, hempty ▸ hhalts, hreached, hsolved, hinv.atStart, hkeeps⟩

/-- With a monotone transfer function the values are below every other solution. -/
theorem worklistAlgo_least [DecidableEq ν] [DecidableEq L] [WellFoundedGT L]
    (A : Analysis ν L) (start : ν)
    (value : L) (hreturns : NoReturns A) (hmono : TransferMonotone A)
    (htotal : DisciplineTotal A start) :
    ∃ r : ν → Option L, Halts (body A) (initial start value) ⟨r, []⟩ ∧
      (∀ n, (∃ x, r n = some x) ↔ Reach A.current.succs start n) ∧
      (∀ n x, r n = some x → ∀ e ∈ A.current.neighbors n,
        ∃ y, r e.1 = some y ∧ A.xfer n e x ≤ y) ∧
      (∃ x, r start = some x ∧ value ≤ x) ∧
      ∀ a, Solves A start value (fun n => ∃ x, r n = some x) a → ∀ n x, r n = some x → x ≤ a n := by
  obtain ⟨r, hhalts, hreached, hsolved, hstart, hleast⟩ :=
    worklistAlgo_solves hreturns.fromEnds htotal (kept_least hreturns.fromEnds hmono) least_initial
  refine ⟨r, hhalts, hreached, hsolved, hstart, fun a ha => ?_⟩
  exact hleast a ⟨ha.initial, fun n hn => ha.closed n ((hreached n).mpr hn)⟩

namespace Counting

/-- A loop between the last two nodes, in the default order. -/
def graph : EdgeHolder ℕ where
  keys := [0, 1, 2]
  neighbors := fun
    | 0 => [(1, 0), (2, 1)]
    | 1 => [(2, 0)]
    | 2 => [(1, 0)]
    | _ => []
  outside n h := by
    match n with
    | 0 | 1 | 2 => simp at h
    | _ + 3 => rfl

def analysis : Analysis ℕ (Fin 4) where
  current := graph
  isEnd n := n == 2
  callNode n := n
  xfer _ _ x := if x = 3 then 3 else x + 1
  xferReturn _ _ x _ := x
  factory := 0
  discipline := defaultDiscipline graph 0

theorem noReturns : NoReturns analysis := by
  have hkeys : ∀ n ∈ graph.keys, ∀ e ∈ graph.neighbors n, edgeType e.2 ≠ .ret := by decide
  exact fun n e he => hkeys n (EdgeHolder.source_mem_keys (edge_of_neighbor he)) e he

theorem monotone : TransferMonotone analysis := by
  have hsucc : ∀ x y : Fin 4, x ≤ y →
      (if x = 3 then 3 else x + 1) ≤ if y = 3 then 3 else y + 1 := by decide
  exact fun _ _ => hsucc

theorem discipline_total : DisciplineTotal analysis 0 :=
  defaultDiscipline_total (A := analysis) rfl

end Counting

theorem counting_least : ∃ r : ℕ → Option (Fin 4),
    Halts (body Counting.analysis) (initial 0 0) ⟨r, []⟩ ∧
      (∀ n, (∃ x, r n = some x) ↔ Reach Counting.analysis.current.succs 0 n) ∧
      (∀ n x, r n = some x → ∀ e ∈ Counting.analysis.current.neighbors n,
        ∃ y, r e.1 = some y ∧ Counting.analysis.xfer n e x ≤ y) ∧
      (∃ x, r 0 = some x ∧ 0 ≤ x) ∧
      ∀ a, Solves Counting.analysis 0 0 (fun n => ∃ x, r n = some x) a →
        ∀ n x, r n = some x → x ≤ a n :=
  worklistAlgo_least Counting.analysis 0 0 Counting.noReturns Counting.monotone
    Counting.discipline_total

end WorklistAlgo
