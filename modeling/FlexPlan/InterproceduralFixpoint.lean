import FlexPlan.WorklistAlgo
import Mathlib.Data.Fintype.Order

/-!
# Values at return nodes

The value that a return edge transports depends on the end of the callee and on the call node. The
worklist holds the end of the callee when its own value has grown, but not when the value of the
call node has. What the edge owes to the last growth of the call node is there if the end of the
callee is taken again after it.
-/
namespace InterproceduralFixpoint

open FlowGraph CfgAlgos TransitionRuns WorklistAlgo List

variable {ν L : Type}

section Specification

/-- An edge from the end of a callee back to its caller. -/
structure ReturnEdge (A : Analysis ν L) (callee : ν) (e : ν × ℤ) : Prop where
  edge : e ∈ A.current.neighbors callee
  isEnd : A.isEnd callee = true
  isReturn : edgeType e.2 = .ret

/-- The value of the return node is above what the edge transports now. -/
def ReturnBelow [LE L] (A : Analysis ν L) (result : ν → Option L) (callee : ν) (e : ν × ℤ) : Prop :=
  ∀ x c, result callee = some x → result (A.callNode e.1) = some c →
    ∃ y, result e.1 = some y ∧ A.xferReturn callee e c x ≤ y

/-- The edge is the only one into its node, which is not the start. -/
structure Sole (A : Analysis ν L) (start callee : ν) (d : ν × ℤ) : Prop where
  target : d.1 ≠ start
  only : ∀ n, ∀ e ∈ A.current.neighbors n, e.1 = d.1 → n = callee ∧ e = d

/-- No smaller value of the call node, nor the value for none, makes up for this one. -/
structure Shows [Preorder L] (A : Analysis ν L) (callee : ν) (d : ν × ℤ) (c x : L) : Prop where
  call : ∀ c' < c, ¬A.xferReturn callee d c x ≤ A.xferReturn callee d c' x
  absent : ¬A.xferReturn callee d c x ≤ A.factory

def ReturnMonotone [LE L] (A : Analysis ν L) : Prop := ∀ n e c c' x x', c ≤ c' → x ≤ x' →
  A.xferReturn n e c x ≤ A.xferReturn n e c' x'

variable [DecidableEq ν] [SemilatticeSup L] [DecidableEq L]

/-- The callee is taken, and its return edge followed, when the call node has the value. -/
def Follows (A : Analysis ν L) (start : ν) (value : L) (callee : ν) (d : ν × ℤ) (c : L) : Prop :=
  ∃ s rest before after, Visits (body A) (initial start value) s ∧ s.worklist = callee :: rest ∧
    A.current.neighbors callee = before ++ d :: after ∧
    (before.foldl (relax A callee) { s with worklist := rest }).result (A.callNode d.1) = some c

/-- The end of the callee is taken again after the last growth of its call node. -/
def TakenAgain (A : Analysis ν L) (start : ν) (value : L) (result : ν → Option L) (callee : ν)
    (d : ν × ℤ) : Prop :=
  ∀ x c, result callee = some x → result (A.callNode d.1) = some c →
    Follows A start value callee d c

end Specification

variable [DecidableEq ν] [SemilatticeSup L] [DecidableEq L]
variable {A : Analysis ν L} {start nowat callee : ν} {value x c : L} {s t : State ν L} {e d : ν × ℤ}
  {es before : List (ν × ℤ)} {rest : List ν}

section Covered

/-- The call node has its last value, and the return node covers the edge unless the callee is
listed or the edge is still to be followed in this round. -/
structure Covered (A : Analysis ν L) (start callee : ν) (d : ν × ℤ) (c : L) (pending : Prop)
    (s : State ν L) : Prop where
  located : Located A start s
  call : s.result (A.callNode d.1) = some c
  below : callee ∉ s.worklist → ¬pending → ∀ x, s.result callee = some x →
    ∃ y, s.result d.1 = some y ∧ A.xferReturn callee d c x ≤ y

omit [DecidableEq ν] [SemilatticeSup L] [DecidableEq L] in
theorem transported_return (h : ReturnEdge A nowat e) (hc : r (A.callNode e.1) = some c) :
    transported A r nowat e x = A.xferReturn nowat e c x := by
  rw [transported, if_pos ⟨h.isEnd, h.isReturn⟩, hc]

section

variable (htotal : DisciplineTotal A start) (hd : ReturnEdge A callee d)

include htotal hd

theorem Covered.relax {pending pending' : Prop} (h : Covered A start callee d c pending s)
    (he : e ∈ A.current.neighbors nowat) (hx : s.result nowat = some x)
    (hcall : (relax A nowat s e).result (A.callNode d.1) = some c)
    (hpending : pending → pending' ∨ (nowat = callee ∧ e = d)) :
    Covered A start callee d c pending' (relax A nowat s e) := by
  refine ⟨h.located.relax htotal he hx, hcall, fun hcallee hnot z hz => ?_⟩
  obtain ⟨hold, hsame⟩ := h.located.unlisted htotal he hx hcallee
  rw [hsame] at hz
  by_cases hp : pending
  · obtain ⟨rfl, rfl⟩ := (hpending hp).resolve_left hnot
    obtain ⟨y, hy, hle⟩ := relax_target (A := A) (e := e) hx
    cases hx.symm.trans hz
    rw [transported_return hd h.call] at hle
    exact ⟨y, hy, hle⟩
  · obtain ⟨w, hw, hle⟩ := h.below hold hp z hz
    obtain ⟨v, hv, hwv⟩ := relax_grows hx d.1 w hw
    exact ⟨v, hv, hle.trans hwv⟩

/-- The edge is followed in a round of the callee, with the value the call node keeps. -/
theorem Covered.foldl (hes : ∀ e ∈ es, e ∈ A.current.neighbors nowat)
    (hx : ∃ x, s.result nowat = some x)
    (hcall : (es.foldl (WorklistAlgo.relax A nowat) s).result (A.callNode d.1) = some c)
    (h : Covered A start callee d c (nowat = callee ∧ d ∈ es) s) :
    Covered A start callee d c False (es.foldl (WorklistAlgo.relax A nowat) s) := by
  induction es generalizing s with
  | nil =>
    refine ⟨h.located, h.call, fun hcallee _ => h.below hcallee ?_⟩
    exact fun hp => not_mem_nil hp.2
  | cons e es ih =>
    obtain ⟨he, hes⟩ := forall_mem_cons.mp hes
    obtain ⟨x, hx⟩ := hx
    have hnext := relax_isSome (A := A) (e := e) hx
    have hcall' := (relax_grows hx).between (grows_foldl hes hnext) h.call hcall
    refine ih hes hnext hcall (h.relax htotal hd he hx hcall' fun ⟨hnowat, hmem⟩ => ?_)
    rcases mem_cons.mp hmem with rfl | hmem
    · exact Or.inr ⟨hnowat, rfl⟩
    · exact Or.inl ⟨hnowat, hmem⟩

theorem Covered.body (h : Covered A start callee d c False s) (hbody : body A s = some t)
    (hcall : t.result (A.callNode d.1) = some c) : Covered A start callee d c False t := by
  obtain ⟨nowat, rest, hlist, ⟨hnone, rfl⟩ | ⟨hx, rfl⟩⟩ := body_cases hbody
  · obtain ⟨x, hx⟩ := h.located.listed nowat (by rw [hlist]; exact mem_cons_self)
    cases hnone.symm.trans hx
  · refine Covered.foldl htotal hd (fun _ he => he) hx hcall
      ⟨h.located.tail hlist, h.call, fun hcallee hnot => h.below (fun hmem => ?_) id⟩
    rw [hlist] at hmem
    rcases mem_cons.mp hmem with rfl | hmem
    · exact hnot ⟨rfl, hd.edge⟩
    · exact hcallee hmem

theorem returnBelow_of_follows (hhalts : Halts (body A) (initial start value) t)
    (hc : t.result (A.callNode d.1) = some c) (h : Follows A start value callee d c)
    (hx : t.result callee = some x) :
    ∃ y, t.result d.1 = some y ∧ A.xferReturn callee d c x ≤ y := by
  obtain ⟨s, rest, before, after, hs, hlist, hsplit, hcall⟩ := h
  have hlocated := located_visits htotal hs
  have hvalue : ∃ x, ({ s with worklist := rest } : State ν L).result callee = some x :=
    hlocated.listed callee (by rw [hlist]; exact mem_cons_self)
  have hbefore : ∀ e ∈ before, e ∈ A.current.neighbors callee :=
    fun e he => by rw [hsplit]; exact mem_append_left _ he
  have hafter : ∀ e ∈ d :: after, e ∈ A.current.neighbors callee :=
    fun e he => by rw [hsplit]; exact mem_append_right _ he
  obtain ⟨hmiddle, hvalue'⟩ := foldl_rule hbefore
    (fun _ _ _ he hx hu => Located.relax hu htotal he hx) hvalue (hlocated.tail hlist)
  -- the round of the callee that follows the edge
  obtain ⟨u, hbody, hu⟩ : ∃ u, body A s = some u ∧
      u = (d :: after).foldl (relax A callee)
        (before.foldl (relax A callee) { s with worklist := rest }) := by
    obtain ⟨z, hz⟩ := hvalue
    refine ⟨_, ?_, rfl⟩
    rw [← foldl_append, ← hsplit]
    simp only [body, hlist, show s.result callee = some z from hz]
  have hlast : ∀ v, Visits (body A) u v → v.result (A.callNode d.1) = some c := by
    intro v hv
    have hend := Visits.halts ((hs.tail hbody).trans hv) hhalts
    have hfrom : Grows _ u.result := hu ▸ grows_foldl hafter hvalue'
    exact (hfrom.trans (grows_visits hv)).between (grows_visits hend.visits) hcall hc
  have hcovered : Covered A start callee d c False u := by
    rw [hu]
    refine Covered.foldl htotal hd hafter hvalue' (hu ▸ hlast u .refl) ⟨hmiddle, hcall, ?_⟩
    exact fun _ hnot => absurd ⟨rfl, mem_cons_self⟩ hnot
  obtain ⟨hend, hempty⟩ := (Visits.halts (hs.tail hbody) hhalts).preserves hcovered
    fun _ w hv hcovered hbody => hcovered.body htotal hd hbody (hlast w (hv.tail hbody))
  exact hend.below (by rw [worklist_of_body hempty]; exact not_mem_nil) id x hx

end

end Covered

section Bounded

/-- The return node has only what the edge has transported so far. -/
def Bounded (A : Analysis ν L) (start : ν) (value : L) (callee : ν) (d : ν × ℤ) (s : State ν L) :
    Prop :=
  ∀ y, s.result d.1 = some y → y ≤ A.factory ∨ ∃ c c' x, Follows A start value callee d c ∧
    s.result (A.callNode d.1) = some c' ∧ c ≤ c' ∧ s.result callee = some x ∧
    y ≤ A.xferReturn callee d c x

theorem relax_other (hx : s.result nowat = some x) (hu : u ≠ e.1) :
    (relax A nowat s e).result u = s.result u := by
  rcases relax_transported (A := A) (e := e) hx with ⟨hsame, -⟩ | ⟨y, hresult, -⟩
  · rw [hsame]
  · rw [hresult, Function.update_of_ne hu]

section

variable (hmono : ReturnMonotone A)

include hmono

theorem Bounded.grows (h : Bounded A start value callee d s) (hgrows : Grows s.result t.result)
    (hsame : t.result d.1 = s.result d.1) : Bounded A start value callee d t := by
  intro y hy
  rw [hsame] at hy
  rcases h y hy with hle | ⟨c, c', x, hfollows, hc', hcc', hx, hle⟩
  · exact Or.inl hle
  · obtain ⟨c'', hc'', hle'⟩ := hgrows _ c' hc'
    obtain ⟨x', hx', hxx'⟩ := hgrows _ x hx
    exact Or.inr ⟨c, c'', x', hfollows, hc'', hcc'.trans hle', hx',
      hle.trans (hmono callee d c c x x' le_rfl hxx')⟩

variable (hd : ReturnEdge A callee d) (hfactory : ∀ x, A.factory ≤ x)

include hd hfactory

/-- What the edge transports now is above all that it has transported. -/
theorem Bounded.follow (h : Bounded A start value callee d s) (hx : s.result callee = some x)
    (hfollows : ∀ c, s.result (A.callNode d.1) = some c → Follows A start value callee d c) :
    Bounded A start value callee d (relax A callee s d) := by
  rcases relax_transported (A := A) (e := d) hx with ⟨hsame, -⟩ | ⟨z, hresult, -, -, -, hleast⟩
  · rw [hsame]
    exact h
  · intro y hy
    rw [hresult, Function.update_self] at hy
    cases hy
    cases hc : s.result (A.callNode d.1) with
    | none =>
      refine Or.inl (hleast _ ?_ fun old hold => ?_)
      · rw [transported, if_pos ⟨hd.isEnd, hd.isReturn⟩, hc]
      · rcases h old hold with hle | ⟨c, c', -, -, hc', -⟩
        · exact hle
        · cases hc.symm.trans hc'
    | some c =>
      have hgrows : Grows s.result (relax A callee s d).result := relax_grows hx
      obtain ⟨c', hc', hcc'⟩ := hgrows _ c hc
      obtain ⟨x', hx', hxx'⟩ := hgrows callee x hx
      refine Or.inr ⟨c, c', x', hfollows c hc, hc', hcc', hx', ?_⟩
      refine (hleast (A.xferReturn callee d c x) ?_ fun old hold => ?_).trans
        (hmono callee d c c x x' le_rfl hxx')
      · rw [transported_return hd hc]
      · rcases h old hold with hle | ⟨c₀, c₁, x₀, -, hc₁, hle, hx₀, hold⟩
        · exact hle.trans (hfactory _)
        · cases hc.symm.trans hc₁
          cases hx.symm.trans hx₀
          exact hold.trans (hmono callee d c₀ c x x hle le_rfl)

theorem Bounded.foldl (hsole : Sole A start callee d) (hs : Visits (body A) (initial start value) s)
    (hlist : s.worklist = nowat :: rest) (hsplit : A.current.neighbors nowat = before ++ es)
    (hx : ∃ x, (before.foldl (relax A nowat) { s with worklist := rest }).result nowat = some x)
    (h : Bounded A start value callee d
      (before.foldl (relax A nowat) { s with worklist := rest })) :
    Bounded A start value callee d
      ((A.current.neighbors nowat).foldl (relax A nowat) { s with worklist := rest }) := by
  induction es generalizing before with
  | nil =>
    rw [hsplit, append_nil]
    exact h
  | cons e es ih =>
    obtain ⟨x, hx⟩ := hx
    have he : e ∈ A.current.neighbors nowat := by
      rw [hsplit]
      exact mem_append_right _ mem_cons_self
    have hfold : (before ++ [e]).foldl (relax A nowat) { s with worklist := rest } =
        relax A nowat (before.foldl (relax A nowat) { s with worklist := rest }) e :=
          foldl_concat ..
    refine ih (hsplit.trans (append_cons before e es)) ?_ ?_
    · rw [hfold]
      exact relax_isSome hx
    · rw [hfold]
      by_cases htarget : e.1 = d.1
      · obtain ⟨rfl, rfl⟩ := hsole.only nowat e he htarget
        exact h.follow hmono hd hfactory hx fun c hc =>
          ⟨s, rest, before, es, hs, hlist, hsplit, hc⟩
      · exact h.grows hmono (relax_grows hx) (relax_other hx (Ne.symm htarget))

theorem bounded_visits (hsole : Sole A start callee d)
    (hs : Visits (body A) (initial start value) s) : Bounded A start value callee d s := by
  induction hs with
  | refl =>
    intro y hy
    simp [initial, hsole.target] at hy
  | @tail u v hu hbody ih =>
    obtain ⟨nowat, rest, hlist, ⟨-, rfl⟩ | ⟨hx, rfl⟩⟩ := body_cases hbody
    · exact ih
    · exact Bounded.foldl hmono hd hfactory hsole hu hlist (nil_append _).symm hx ih

end

end Bounded

/-- An edge has its inequality if the end of the callee is taken again after the last growth of the
call node. If the edge is the only one into the return node and the transfer shows the growth, it
has its inequality only then. -/
theorem return_below_of_taken_again (htotal : DisciplineTotal A start)
    (hhalts : Halts (body A) (initial start value) t) (hd : ReturnEdge A callee d) :
    (TakenAgain A start value t.result callee d → ReturnBelow A t.result callee d) ∧
    (ReturnMonotone A → (∀ x, A.factory ≤ x) → Sole A start callee d →
      (∀ x c, t.result callee = some x → t.result (A.callNode d.1) = some c →
        Shows A callee d c x) →
      ReturnBelow A t.result callee d → TakenAgain A start value t.result callee d) := by
  constructor
  · intro htaken x c hx hc
    exact returnBelow_of_follows htotal hd hhalts hc (htaken x c hx hc) hx
  · intro hmono hfactory hsole hshows hbelow x c hx hc
    obtain ⟨y, hy, hle⟩ := hbelow x c hx hc
    rcases bounded_visits hmono hd hfactory hsole hhalts.visits y hy with
      habove | ⟨c₀, c₁, x₀, hfollows, hc₁, hcc₁, hx₀, habove⟩
    · exact absurd (hle.trans habove) (hshows x c hx hc).absent
    · cases hc.symm.trans hc₁
      cases hx.symm.trans hx₀
      rcases hcc₁.lt_or_eq with hlt | rfl
      · exact absurd (hle.trans habove) ((hshows x c hx hc).call c₀ hlt)
      · exact hfollows

namespace OneCall

/-- A call node 1 with its callee 2 and its return node 3; `back` leads from the return node to the
call. -/
def graph (back : List (ℕ × ℤ)) : EdgeHolder ℕ where
  keys := [0, 1, 2, 3]
  neighbors := fun
    | 0 => [(1, 0)]
    | 1 => [(2, -1)]
    | 2 => [(3, -2)]
    | 3 => back
    | _ => []
  outside n h := by
    match n with
    | 0 | 1 | 2 | 3 => simp at h
    | _ + 4 => rfl

/-- Only the edge from the return node transports a value; the return joins both values. -/
def analysis (back : List (ℕ × ℤ)) : Analysis ℕ Bool where
  current := graph back
  isEnd n := n == 2
  callNode n := if n = 3 then 1 else n + 4
  xfer n _ _ := n == 3
  xferReturn _ _ c x := c || x
  factory := false
  discipline l r := l < r

theorem total (back : List (ℕ × ℤ)) : DisciplineTotal (analysis back) 0 := by
  intro m n _ _ hne
  rcases Nat.lt_or_gt_of_ne hne with h | h
  · exact Or.inl (decide_eq_true h)
  · exact Or.inr (decide_eq_true h)

/-- The call hands its value on, so that the callee grows with it. -/
def passing : Analysis ℕ Bool := { analysis [(1, 0)] with xfer := fun n _ x => n == 3 || x }

theorem passing_takenAgain {t : State ℕ Bool} (h : t.result 1 = some true) :
    TakenAgain passing 0 false t.result 2 (3, -2) := by
  intro x c _ hc
  cases h.symm.trans hc
  -- the fifth round has raised the call node, the sixth takes the callee
  have hrun : (rounds (body passing) 5 (initial 0 false)).map (fun s => (s.worklist, s.result 1)) =
      some ([2], some true) := by decide +kernel
  obtain ⟨s, hs, hvalues⟩ := Option.map_eq_some_iff.mp hrun
  obtain ⟨hlist, hcall⟩ := Prod.mk.inj hvalues
  exact ⟨s, [], [], [], visits_of_rounds hs, hlist, rfl, hcall⟩

end OneCall

/-- The growth of the call node reaches the callee, which is listed again. -/
theorem call_passes_on : ∃ t, Halts (body OneCall.passing) (initial 0 false) t ∧
    t.result 1 = some true ∧ TakenAgain OneCall.passing 0 false t.result 2 (3, -2) ∧
    ReturnBelow OneCall.passing t.result 2 (3, -2) := by
  have hrun : (loop (body OneCall.passing) 10 (initial 0 false)).map (fun s => s.result 1) =
      some (some true) := by decide +kernel
  obtain ⟨t, ht, hcall⟩ := Option.map_eq_some_iff.mp hrun
  have htotal : DisciplineTotal OneCall.passing 0 := OneCall.total [(1, 0)]
  have hd : ReturnEdge OneCall.passing 2 (3, -2) := ⟨mem_cons_self, rfl, by decide⟩
  have htaken := OneCall.passing_takenAgain hcall
  exact ⟨t, ⟨10, ht⟩, hcall, htaken, (return_below_of_taken_again htotal ⟨10, ht⟩ hd).1 htaken⟩

/-- The way back raises the value of the call node, the callee has the same value as before, and
the return node is never looked at again. -/
theorem call_in_loop :
    DisciplineTotal (OneCall.analysis [(1, 0)]) 0 ∧ TransferMonotone (OneCall.analysis [(1, 0)]) ∧
    (∀ n e c c' x x', c ≤ c' → x ≤ x' →
      (OneCall.analysis [(1, 0)]).xferReturn n e c x ≤
        (OneCall.analysis [(1, 0)]).xferReturn n e c' x') ∧
    ∃ t, Halts (body (OneCall.analysis [(1, 0)])) (initial 0 false) t ∧
      ReturnEdge (OneCall.analysis [(1, 0)]) 2 (3, -2) ∧
      ¬ReturnBelow (OneCall.analysis [(1, 0)]) t.result 2 (3, -2) := by
  have hmono : ∀ c c' x x' : Bool, c ≤ c' → x ≤ x' → (c || x) ≤ (c' || x') := by decide
  have hrun : (loop (body (OneCall.analysis [(1, 0)])) 10 (initial 0 false)).map
      (fun s => (s.result 1, s.result 2, s.result 3)) =
        some (some true, some false, some false) := by
    decide +kernel
  obtain ⟨t, ht, hvalues⟩ := Option.map_eq_some_iff.mp hrun
  simp only [Prod.mk.injEq] at hvalues
  refine ⟨OneCall.total _, fun _ _ _ _ _ => le_rfl, fun _ _ => hmono, t, ⟨10, ht⟩,
    ⟨mem_cons_self, rfl, by decide⟩, fun hbelow => ?_⟩
  obtain ⟨y, hy, hle⟩ := hbelow false true hvalues.2.1 hvalues.1
  cases hvalues.2.2.symm.trans hy
  exact absurd hle (by decide)

end InterproceduralFixpoint
