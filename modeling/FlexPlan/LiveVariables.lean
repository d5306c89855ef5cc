import FlexPlan.CfgAlgos
import FlexPlan.TransitionRuns
import Mathlib.Data.Finset.SDiff

/-!
# Live variables

`LiveVariables` summarises every basic block by the locations it defines and uses, and sweeps over
the blocks in postorder until no entry set changes. What the sweeps end in is exactly the set of
locations that some path reads before it writes them.
-/
namespace LiveVariables

open FlowGraph CfgAlgos TransitionRuns List Function

variable {ν ι Loc : Type}

/-- A graph of basic blocks with the locations its instructions read and write. -/
structure BlockGraph (ν ι Loc : Type) where
  g : EdgeHolder ν
  instructions : ν → List ι
  rs : ι → Finset Loc
  ws : ι → Finset Loc

section Specification

variable (P : BlockGraph ν ι Loc)

/-- An instruction reads the location and none before it writes it. -/
def ReadFirst (instrs : List ι) (x : Loc) : Prop :=
  ∃ before i after, instrs = before ++ i :: after ∧ x ∈ P.rs i ∧ ∀ j ∈ before, x ∉ P.ws j

/-- Some path from the entry of the block reads the location before it writes it. -/
def LiveAt (n : ν) (x : Loc) : Prop :=
  ∃ path, IsPath P.g.succs (n :: path) ∧ ReadFirst P ((n :: path).flatMap P.instructions) x

variable {P} {x : Loc}

theorem not_readFirst_nil : ¬ReadFirst P [] x := by
  rintro ⟨before, i, after, heq, -⟩
  exact append_ne_nil_of_right_ne_nil before (cons_ne_nil i after) heq.symm

theorem readFirst_cons {instrs : List ι} :
    ReadFirst P (i :: instrs) x ↔ x ∈ P.rs i ∨ x ∉ P.ws i ∧ ReadFirst P instrs x := by
  constructor
  · rintro ⟨before, j, after, heq, hread, hbefore⟩
    cases before with
    | nil =>
      cases heq
      exact Or.inl hread
    | cons k before =>
      cases heq
      refine Or.inr ⟨hbefore _ mem_cons_self, before, j, after, rfl, hread, ?_⟩
      exact fun l hl => hbefore l (mem_cons_of_mem _ hl)
  · rintro (hread | ⟨hwrite, before, j, after, rfl, hread, hbefore⟩)
    · exact ⟨[], i, instrs, rfl, hread, fun _ h => absurd h not_mem_nil⟩
    · exact ⟨i :: before, j, after, rfl, hread, forall_mem_cons.mpr ⟨hwrite, hbefore⟩⟩

theorem readFirst_append {first second : List ι} :
    ReadFirst P (first ++ second) x ↔
      ReadFirst P first x ∨ (∀ i ∈ first, x ∉ P.ws i) ∧ ReadFirst P second x := by
  induction first with
  | nil => simp [not_readFirst_nil]
  | cons i first ih =>
    rw [cons_append, readFirst_cons, ih, readFirst_cons, forall_mem_cons]
    tauto

theorem liveAt_iff : LiveAt P n x ↔ ReadFirst P (P.instructions n) x ∨
    (∀ i ∈ P.instructions n, x ∉ P.ws i) ∧ ∃ m, Edge P.g.succs n m ∧ LiveAt P m x := by
  constructor
  · rintro ⟨path, hpath, hread⟩
    rcases readFirst_append.mp hread with hread | ⟨hfree, hread⟩
    · exact Or.inl hread
    · cases path with
      | nil => exact absurd hread not_readFirst_nil
      | cons m path =>
        obtain ⟨hedge, hrest⟩ := isChain_cons_cons.mp hpath
        exact Or.inr ⟨hfree, m, hedge, path, hrest, hread⟩
  · rintro (hread | ⟨hfree, m, hedge, path, hpath, hread⟩)
    · exact ⟨[], isChain_singleton n, readFirst_append.mpr (Or.inl hread)⟩
    · exact ⟨m :: path, isChain_cons_cons.mpr ⟨hedge, hpath⟩,
        readFirst_append.mpr (Or.inr ⟨hfree, hread⟩)⟩

end Specification

section Model

variable [DecidableEq Loc]

def unionOver {α : Type} (f : α → Finset Loc) (keys : List α) : Finset Loc :=
  keys.foldl (fun acc a => acc ∪ f a) ∅

theorem mem_unionOver {α : Type} {f : α → Finset Loc} {keys : List α} :
    x ∈ unionOver f keys ↔ ∃ a ∈ keys, x ∈ f a := by
  have hacc : ∀ acc, x ∈ keys.foldl (fun acc a => acc ∪ f a) acc ↔
      x ∈ acc ∨ ∃ a ∈ keys, x ∈ f a := by
    induction keys with
    | nil => simp
    | cons a keys ih => simp [ih, or_assoc]
  rw [unionOver, hacc]
  simp

/-- What `buildIndex` collects over the instructions of a block. -/
structure Summary (Loc : Type) where
  defs : Finset Loc
  use : Finset Loc
  shallPreclude : Finset Loc

/-- The entry and exit sets of the blocks, and whether the sweep changed an entry set. -/
structure State (ν Loc : Type) where
  inn : ν → Finset Loc
  out : ν → Finset Loc
  change : Bool

variable (P : BlockGraph ν ι Loc)

def summarize (s : Summary Loc) (instr : ι) : Summary Loc where
  defs := s.defs ∪ P.ws instr
  use := s.use ∪ (P.rs instr \ s.shallPreclude)
  shallPreclude := s.shallPreclude ∪ (s.defs ∪ P.ws instr)

def summary (n : ν) : Summary Loc := (P.instructions n).foldl (summarize P) ⟨∅, ∅, ∅⟩

variable [DecidableEq ν]

def indices (start : ν) : Finset Loc :=
  unionOver (fun i => P.rs i ∪ P.ws i) ((topoSort P.g start).flatMap P.instructions)

/-- The exit set of a block; a block without an entry in the graph keeps the one it has. -/
def outN (s : State ν Loc) (n : ν) : Finset Loc :=
  if n ∈ P.g.keys then unionOver s.inn (P.g.succs n) else s.out n

def inN (s : State ν Loc) (n : ν) : Finset Loc :=
  (summary P n).use ∪ (outN P s n \ (summary P n).defs)

def visit (s : State ν Loc) (n : ν) : State ν Loc where
  inn := update s.inn n (inN P s n)
  out := update s.out n (outN P s n)
  change := s.change || decide (s.inn n ≠ inN P s n)

def sweep (start : ν) (s : State ν Loc) : State ν Loc :=
  (topoSort P.g start).foldl (visit P) { s with change := false }

/-- One round of `while (change)`. -/
def body (start : ν) (s : State ν Loc) : Option (State ν Loc) :=
  if s.change then some (sweep P start s) else none

def initial : State ν Loc := ⟨fun _ => ∅, fun _ => ∅, true⟩

def live (start : ν) (s : State ν Loc) (n : ν) (x : Loc) : Option Bool :=
  if n ∈ topoSort P.g start then
    if x ∈ indices P start then some (decide (x ∈ s.inn n)) else none
  else some false

end Model

section Summaries

variable [DecidableEq Loc] {P : BlockGraph ν ι Loc} {x : Loc}

theorem summarize_spec (instrs : List ι) (hs : s = instrs.foldl (summarize P) ⟨∅, ∅, ∅⟩) :
    s.shallPreclude = s.defs ∧ (x ∈ s.defs ↔ ∃ i ∈ instrs, x ∈ P.ws i) ∧
    (x ∈ s.use ↔ ReadFirst P instrs x) := by
  -- The newest instruction is the last one of the list.
  induction instrs using List.reverseRecOn generalizing s with
  | nil =>
    subst hs
    simp [not_readFirst_nil]
  | append_singleton instrs i ih =>
    obtain ⟨hpreclude, hdefs, huse⟩ := ih rfl
    rw [foldl_append] at hs
    subst hs
    refine ⟨?_, ?_, ?_⟩
    · simp only [foldl_cons, foldl_nil, summarize, hpreclude]
      exact Finset.union_eq_right.mpr Finset.subset_union_left
    · simp [summarize, hdefs, or_and_right, exists_or]
    · have hfree : (∀ j ∈ instrs, x ∉ P.ws j) ↔ ¬∃ j ∈ instrs, x ∈ P.ws j := by
        push Not
        rfl
      simp only [foldl_cons, foldl_nil, summarize, Finset.mem_union, Finset.mem_sdiff,
        hpreclude, hdefs,
        huse, readFirst_append, readFirst_cons, not_readFirst_nil, hfree]
      tauto

theorem mem_defs : x ∈ (summary P n).defs ↔ ∃ i ∈ P.instructions n, x ∈ P.ws i :=
  (summarize_spec (P.instructions n) rfl).2.1

theorem mem_use : x ∈ (summary P n).use ↔ ReadFirst P (P.instructions n) x :=
  (summarize_spec (P.instructions n) rfl).2.2

end Summaries

section Equations

variable {P : BlockGraph ν ι Loc}

/-- What the equation of a block gives for the entry sets of its successors. -/
def Flows (P : BlockGraph ν ι Loc) (inn : ν → Finset Loc) (n : ν) (x : Loc) : Prop :=
  ReadFirst P (P.instructions n) x ∨ (∀ i ∈ P.instructions n, x ∉ P.ws i) ∧
    ∃ m, Edge P.g.succs n m ∧ x ∈ inn m

theorem Flows.mono {inn inn' : ν → Finset Loc} (hle : ∀ n, inn n ⊆ inn' n) (h : Flows P inn n x) :
    Flows P inn' n x := by
  rcases h with h | ⟨hfree, m, hedge, hx⟩
  · exact Or.inl h
  · exact Or.inr ⟨hfree, m, hedge, hle m hx⟩

variable [DecidableEq ν] {start : ν}

theorem mem_of_liveAt {inn : ν → Finset Loc}
    (hstable : ∀ n ∈ topoSort P.g start, ∀ x, x ∈ inn n ↔ Flows P inn n x)
    (hn : n ∈ topoSort P.g start)
    (h : LiveAt P n x) : x ∈ inn n := by
  obtain ⟨path, hpath, hread⟩ := h
  induction path generalizing n with
  | nil =>
    apply (hstable n hn x).mpr
    exact Or.inl (by simpa using hread)
  | cons m path ih =>
    obtain ⟨hedge, hrest⟩ := isChain_cons_cons.mp hpath
    have hm : m ∈ topoSort P.g start := mem_topoSort_iff.mpr ((mem_topoSort_iff.mp hn).tail hedge)
    apply (hstable n hn x).mpr
    rcases readFirst_append.mp hread with hread | ⟨hfree, hread⟩
    · exact Or.inl hread
    · exact Or.inr ⟨hfree, m, hedge, ih hm hrest hread⟩

end Equations

section Sweeps

variable [DecidableEq ν] [DecidableEq Loc] {P : BlockGraph ν ι Loc} {start : ν} {s t : State ν Loc}

/-- The entry sets are sound, stay below what their equations give, and hold indexed locations
only. -/
structure Growing (P : BlockGraph ν ι Loc) (start : ν) (s : State ν Loc) : Prop where
  out : ∀ n, n ∉ P.g.keys → s.out n = ∅
  sound : ∀ n, ∀ x ∈ s.inn n, LiveAt P n x
  below : ∀ n, ∀ x ∈ s.inn n, Flows P s.inn n x
  indexed : ∀ n, s.inn n ⊆ indices P start

variable {n : ν}

theorem Growing.mem_inN (h : Growing P start s) : x ∈ inN P s n ↔ Flows P s.inn n x := by
  have hout : x ∈ outN P s n ↔ ∃ m, Edge P.g.succs n m ∧ x ∈ s.inn m := by
    by_cases hkey : n ∈ P.g.keys
    · rw [outN, if_pos hkey, mem_unionOver]
      rfl
    · simp [outN, if_neg hkey, h.out n hkey, Edge, EdgeHolder.succs, P.g.outside n hkey]
  have hdefs : x ∉ (summary P n).defs ↔ ∀ i ∈ P.instructions n, x ∉ P.ws i := by
    rw [mem_defs]
    push Not
    rfl
  rw [inN, Finset.mem_union, mem_use, Finset.mem_sdiff, hout, hdefs, and_comm, Flows]

theorem Growing.subset_inN (h : Growing P start s) (n : ν) : s.inn n ⊆ inN P s n :=
  fun x hx => h.mem_inN.mpr (h.below n x hx)

theorem Growing.subset_visit (h : Growing P start s) (n m : ν) : s.inn m ⊆ (visit P s n).inn m := by
  show s.inn m ⊆ update s.inn n (inN P s n) m
  by_cases hm : m = n
  · rw [hm, update_self]
    exact h.subset_inN n
  · rw [update_of_ne hm]

theorem mem_indices (hn : n ∈ topoSort P.g start) (hi : i ∈ P.instructions n) :
    P.rs i ∪ P.ws i ⊆ indices P start :=
  fun _ hx => mem_unionOver.mpr ⟨i, mem_flatMap.mpr ⟨n, hn, hi⟩, hx⟩

theorem Growing.visit (h : Growing P start s) (hn : n ∈ topoSort P.g start) :
    Growing P start (visit P s n) where
  out m hm := by
    show update s.out n (outN P s n) m = ∅
    by_cases heq : m = n
    · rw [heq, update_self, outN, if_neg (heq ▸ hm), h.out n (heq ▸ hm)]
    · rw [update_of_ne heq, h.out m hm]
  sound m x hx := by
    change x ∈ update s.inn n (inN P s n) m at hx
    by_cases heq : m = n
    · subst heq
      rw [update_self, h.mem_inN] at hx
      apply liveAt_iff.mpr
      rcases hx with hx | ⟨hfree, m, hedge, hx⟩
      · exact Or.inl hx
      · exact Or.inr ⟨hfree, m, hedge, h.sound m x hx⟩
    · rw [update_of_ne heq] at hx
      exact h.sound m x hx
  below m x hx := by
    change x ∈ update s.inn n (inN P s n) m at hx
    refine Flows.mono (h.subset_visit n) ?_
    by_cases heq : m = n
    · subst heq
      rwa [update_self, h.mem_inN] at hx
    · rw [update_of_ne heq] at hx
      exact h.below m x hx
  indexed m x hx := by
    change x ∈ update s.inn n (inN P s n) m at hx
    by_cases heq : m = n
    · subst heq
      rw [update_self, h.mem_inN] at hx
      rcases hx with ⟨before, i, after, hinstrs, hread, -⟩ | ⟨-, k, -, hx⟩
      · refine mem_indices hn ?_ (Finset.mem_union_left _ hread)
        rw [hinstrs]
        exact mem_append_right _ mem_cons_self
      · exact h.indexed k hx
    · rw [update_of_ne heq] at hx
      exact h.indexed m hx

/-- A part of a sweep grows the entry sets; if it reports no change its blocks meet their
equations. -/
structure Swept (P : BlockGraph ν ι Loc) (start : ν) (done : List ν)
    (s t : State ν Loc) : Prop where
  growing : Growing P start t
  grows : ∀ n, s.inn n ⊆ t.inn n
  unchanged : t.change = false → t.inn = s.inn ∧ ∀ n ∈ done, ∀ x, x ∈ s.inn n ↔ Flows P s.inn n x
  changed : t.change = true → ∃ n ∈ done, s.inn n ⊂ t.inn n

theorem Swept.visit {done : List ν} (h : Swept P start done s t) (hn : n ∈ topoSort P.g start) :
    Swept P start (done ++ [n]) s (visit P t n) where
  growing := h.growing.visit hn
  grows m := (h.grows m).trans (h.growing.subset_visit n m)
  unchanged hchange := by
    obtain ⟨hbefore, hsame⟩ := Bool.or_eq_false_iff.mp hchange
    have hsame : t.inn n = inN P t n := by simpa using hsame
    obtain ⟨hinn, hdone⟩ := h.unchanged hbefore
    refine ⟨?_, ?_⟩
    · show update t.inn n (inN P t n) = s.inn
      rw [← hsame, update_eq_self, hinn]
    · intro m hm x
      rcases mem_append.mp hm with hm | hm
      · exact hdone m hm x
      · rw [mem_singleton.mp hm, ← hinn, ← h.growing.mem_inN, ← hsame]
  changed hchange := by
    rcases Bool.or_eq_true_iff.mp hchange with hbefore | hdiffers
    · obtain ⟨m, hm, hless⟩ := h.changed hbefore
      exact ⟨m, mem_append_left _ hm, hless.trans_subset (h.growing.subset_visit n m)⟩
    · have hless : t.inn n ⊂ inN P t n :=
        (h.growing.subset_inN n).ssubset_of_ne (of_decide_eq_true hdiffers)
      refine ⟨n, mem_append_right _ (mem_singleton_self n), ?_⟩
      show s.inn n ⊂ update t.inn n (inN P t n) n
      rw [update_self]
      exact (h.grows n).trans_ssubset hless

theorem Swept.foldl {done rest : List ν} (h : Swept P start done s t)
    (hrest : ∀ n ∈ rest, n ∈ topoSort P.g start) :
    Swept P start (done ++ rest) s (rest.foldl (LiveVariables.visit P) t) := by
  induction rest generalizing done t with
  | nil => simpa using h
  | cons n rest ih =>
    obtain ⟨hn, hrest⟩ := forall_mem_cons.mp hrest
    simpa using ih (h.visit hn) hrest

theorem Growing.sweep (h : Growing P start s) :
    Swept P start (topoSort P.g start) { s with change := false } (sweep P start s) := by
  have hstart : Swept P start [] { s with change := false } { s with change := false } :=
    ⟨⟨h.out, h.sound, h.below, h.indexed⟩, fun _ => subset_rfl, fun _ => ⟨rfl, by simp⟩, nofun⟩
  exact hstart.foldl fun _ hn => hn

theorem growing_initial : Growing P start initial where
  out _ _ := rfl
  sound _ _ hx := absurd hx (Finset.notMem_empty _)
  below _ _ hx := absurd hx (Finset.notMem_empty _)
  indexed _ := Finset.empty_subset _

/-- The states between two sweeps. -/
structure Between (P : BlockGraph ν ι Loc) (start : ν) (s : State ν Loc) : Prop where
  growing : Growing P start s
  stable : s.change = false → ∀ n ∈ topoSort P.g start, ∀ x, x ∈ s.inn n ↔ Flows P s.inn n x

/-- The indexed locations that are still missing from the entry sets. -/
def missing (P : BlockGraph ν ι Loc) (start : ν) (s : State ν Loc) : ℕ :=
  ∑ n ∈ (topoSort P.g start).toFinset, ((indices P start).card - (s.inn n).card)

def remaining (P : BlockGraph ν ι Loc) (start : ν) (s : State ν Loc) : ℕ :=
  2 * missing P start s + s.change.toNat

theorem Swept.missing_lt (h : Swept P start (topoSort P.g start) s t) (hchange : t.change = true) :
    missing P start t < missing P start s := by
  obtain ⟨n, hn, hless⟩ := h.changed hchange
  refine Finset.sum_lt_sum (fun m _ => ?_) ⟨n, mem_toFinset.mpr hn, ?_⟩
  · have := Finset.card_le_card (h.grows m)
    omega
  · have := Finset.card_lt_card hless
    have := Finset.card_le_card (h.growing.indexed n)
    omega

theorem Between.body (h : Between P start s) (hbody : body P start s = some t) :
    Between P start t ∧ remaining P start t < remaining P start s := by
  rw [LiveVariables.body] at hbody
  split at hbody
  case isFalse => cases hbody
  case isTrue hs =>
    cases hbody
    have hswept := h.growing.sweep
    cases hchange : (LiveVariables.sweep P start s).change with
    | false =>
      obtain ⟨hinn, hmeets⟩ := hswept.unchanged hchange
      refine ⟨⟨hswept.growing, fun _ => hinn ▸ hmeets⟩, ?_⟩
      rw [remaining, missing, hinn, hchange, remaining, missing, hs]
      exact Nat.lt_succ_self _
    | true =>
      have hless := hswept.missing_lt hchange
      refine ⟨⟨hswept.growing, fun hfalse => absurd (hchange.symm.trans hfalse) Bool.noConfusion⟩,
        ?_⟩
      rw [remaining, remaining, hchange, hs]
      change missing P start (LiveVariables.sweep P start s) < missing P start s at hless
      omega

end Sweeps

/-- A location is reported live where some path reads it before it writes it; the lookup raises only
for locations that no instruction mentions. -/
theorem live_exact [DecidableEq ν] [DecidableEq Loc] (P : BlockGraph ν ι Loc) (start : ν) :
    ∃ s, Halts (body P start) initial s ∧ ∀ n, Reach P.g.succs start n → ∀ x,
      (live P start s n x = some true ↔ LiveAt P n x) ∧
      (live P start s n x = none ↔ ∀ m, Reach P.g.succs start m →
        ∀ i ∈ P.instructions m, x ∉ P.rs i ∪ P.ws i) := by
  obtain ⟨s, hhalts, hbetween, hend⟩ := exists_halts Nat.lt_wfRel.wf (remaining P start)
    (fun s t hs hbody => Between.body hs hbody) (s := initial) ⟨growing_initial, nofun⟩
  have hchange : s.change = false := by
    by_contra hchange
    rw [body, if_pos (by simpa using hchange)] at hend
    cases hend
  refine ⟨s, hhalts, fun n hn x => ?_⟩
  have hn := mem_topoSort_iff.mpr hn
  have hlive : x ∈ s.inn n ↔ LiveAt P n x :=
    ⟨hbetween.growing.sound n x, mem_of_liveAt (hbetween.stable hchange) hn⟩
  have hindex : x ∉ indices P start ↔
      ∀ m, Reach P.g.succs start m → ∀ i ∈ P.instructions m, x ∉ P.rs i ∪ P.ws i := by
    rw [indices, mem_unionOver]
    simp only [mem_flatMap, mem_topoSort_iff]
    constructor
    · exact fun h m hm i hi hx => h ⟨i, ⟨m, hm, hi⟩, hx⟩
    · rintro h ⟨i, ⟨m, hm, hi⟩, hx⟩
      exact h m hm i hi hx
  rw [live, if_pos hn, ← hlive, ← hindex]
  by_cases hx : x ∈ indices P start
  · simp [hx]
  · have hfree : x ∉ s.inn n := fun h => hx (hbetween.growing.indexed n h)
    simp [hx, hfree]

end LiveVariables
