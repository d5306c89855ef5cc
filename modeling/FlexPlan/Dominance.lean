import FlexPlan.FlowGraph
import Mathlib.Data.Finset.Max

/-!
# Dominance

The dominators of a node are ordered by dominance, the deepest strict one is immediate. In a graph
without cycles they can be kept as pointers to numbers that only grow; two chains of pointers are
intersected by advancing the one that is behind.
-/
namespace Dominance

open FlowGraph List

variable {ν : Type}

section Paths

variable (succs : ν → List ν) (start : ν)

/-- The nodes of a path from the start, the last one first. -/
inductive Path : ν → List ν → Prop where
  | start : Path start [start]
  | step {u v : ν} {nodes : List ν} (h : Path u nodes) (hedge : Edge succs u v) : Path v
    (v :: nodes)

def Dominates (n m : ν) : Prop := ∀ nodes, Path succs start m nodes → n ∈ nodes

def StrictlyDominates (n m : ν) : Prop := Dominates succs start n m ∧ n ≠ m

/-- The strict dominator that all strict dominators dominate. -/
def ImmediatelyDominates (n m : ν) : Prop :=
  StrictlyDominates succs start n m ∧ ∀ k, StrictlyDominates succs start k m →
    Dominates succs start k n

def InFrontier (n m : ν) : Prop :=
  (∃ p, Edge succs p m ∧ Dominates succs start n p) ∧ ¬StrictlyDominates succs start n m

variable {succs start} {nodes : List ν}

theorem Path.head_mem (h : Path succs start m nodes) : m ∈ nodes := by
  cases h with
  | start | step _ _ => exact mem_cons_self

theorem dominates_refl (n : ν) : Dominates succs start n n := fun _ h => h.head_mem

theorem dominates_of_start (n : ν) : Dominates succs start start n := by
  intro nodes hnodes
  induction hnodes with
  | start => exact mem_singleton_self start
  | step _ _ ih => exact mem_cons_of_mem _ ih

theorem exists_path (h : Reach succs start n) : ∃ nodes, Path succs start n nodes := by
  induction h with
  | refl => exact ⟨_, .start⟩
  | tail _ hedge ih =>
    obtain ⟨nodes, hnodes⟩ := ih
    exact ⟨_, .step hnodes hedge⟩

theorem Path.reach (h : Path succs start m nodes) : ∀ n ∈ nodes, Reach succs n m := by
  induction h with
  | start =>
    intro n hn
    rw [mem_singleton.mp hn]
  | step _ hedge ih =>
    intro n hn
    rcases mem_cons.mp hn with rfl | hn
    · exact .refl
    · exact (ih n hn).tail hedge

variable {n m : ν}

theorem Dominates.reach (h : Dominates succs start n m) (hm : Reach succs start m) :
    Reach succs n m := by
  obtain ⟨nodes, hnodes⟩ := exists_path hm
  exact hnodes.reach n (h nodes hnodes)

theorem dominates_start_iff : Dominates succs start n start ↔ n = start := by
  constructor
  · exact fun h => mem_singleton.mp (h _ .start)
  · rintro rfl
    exact dominates_refl n

theorem dominates_iff (hm : m ≠ start) :
    Dominates succs start n m ↔ n = m ∨ ∀ p, Edge succs p m → Dominates succs start n p := by
  constructor
  · intro h
    by_cases hn : n = m
    · exact Or.inl hn
    · refine Or.inr fun p hp nodes hnodes => ?_
      exact (mem_cons.mp (h _ (.step hnodes hp))).resolve_left hn
  · rintro (rfl | h) nodes hnodes
    · exact hnodes.head_mem
    · cases hnodes with
      | start => exact absurd rfl hm
      | step hpath hedge => exact mem_cons_of_mem _ (h _ hedge _ hpath)

theorem Path.exists_to (h : Path succs start m nodes) (hp : p ∈ nodes) :
    ∃ front, Path succs start p front ∧ front <:+ nodes := by
  induction h with
  | start =>
    rw [mem_singleton.mp hp]
    exact ⟨_, .start, suffix_refl _⟩
  | step hpath hedge ih =>
    rcases mem_cons.mp hp with rfl | hp
    · exact ⟨_, .step hpath hedge, suffix_refl _⟩
    · obtain ⟨front, hfront, hsuffix⟩ := ih hp
      exact ⟨front, hfront, hsuffix.trans (suffix_cons _ _)⟩

/-- What follows the last visit of a node can follow any path to it. -/
theorem Path.exists_from (h : Path succs start m nodes) (hp : p ∈ nodes) :
    ∃ later, later <+: nodes ∧ p ∉ later ∧
      ∀ front, Path succs start p front → Path succs start m (later ++ front) := by
  induction h with
  | start =>
    rw [mem_singleton.mp hp]
    exact ⟨[], nil_prefix, not_mem_nil, fun _ hfront => hfront⟩
  | @step u v nodes hpath hedge ih =>
    by_cases hv : p = v
    · subst hv
      exact ⟨[], nil_prefix, not_mem_nil, fun _ hfront => hfront⟩
    · obtain ⟨later, hlater, hnot, hreplace⟩ := ih ((mem_cons.mp hp).resolve_left hv)
      refine ⟨v :: later, cons_prefix_cons.mpr ⟨rfl, hlater⟩, ?_, fun front hfront => ?_⟩
      · exact not_mem_cons_of_ne_of_not_mem hv hnot
      · exact .step (hreplace front hfront) hedge

theorem Dominates.trans (hnm : Dominates succs start n m) (hmk : Dominates succs start m k) :
    Dominates succs start n k := by
  intro nodes hnodes
  obtain ⟨front, hfront, hsuffix⟩ := hnodes.exists_to (hmk nodes hnodes)
  exact hsuffix.subset (hnm front hfront)

theorem Dominates.reach_start (h : Dominates succs start n m) (hm : Reach succs start m) :
    Reach succs start n := by
  obtain ⟨nodes, hnodes⟩ := exists_path hm
  obtain ⟨front, hfront, -⟩ := hnodes.exists_to (h nodes hnodes)
  exact hfront.reach start (dominates_of_start n front hfront)

theorem ImmediatelyDominates.dominates_iff (h : ImmediatelyDominates succs start p n) :
    Dominates succs start x n ↔ x = n ∨ Dominates succs start x p := by
  constructor
  · intro hx
    by_cases hne : x = n
    · exact Or.inl hne
    · exact Or.inr (h.2 x ⟨hx, hne⟩)
  · rintro (rfl | hx)
    · exact dominates_refl x
    · exact hx.trans h.1.1

theorem Path.eq_cons (h : Path succs start m nodes) : ∃ rest, nodes = m :: rest := by
  cases h with
  | start | step _ _ => exact ⟨_, rfl⟩

theorem dominates_antisymm (hnm : Dominates succs start n m) (hmn : Dominates succs start m n)
    (hm : Reach succs start m) : n = m := by
  by_contra hne
  obtain ⟨nodes, hnodes⟩ := exists_path hm
  -- a path to one of them holds a shorter path to the other, and that one a path to the first
  induction hlength : nodes.length using Nat.strong_induction_on generalizing nodes with
  | _ length ih =>
    obtain ⟨front, hfront, hsuffix⟩ := hnodes.exists_to (hnm nodes hnodes)
    obtain ⟨before, hbefore, hsuffix'⟩ := hfront.exists_to (hmn front hfront)
    have hshorter : front.length < nodes.length := by
      refine lt_of_le_of_ne hsuffix.length_le fun heq => hne ?_
      obtain ⟨rest, rfl⟩ := hnodes.eq_cons
      obtain ⟨rest', rfl⟩ := hfront.eq_cons
      exact (cons.inj (hsuffix.eq_of_length heq)).1
    exact ih before.length (hlength ▸ hsuffix'.length_le.trans_lt hshorter) before hbefore rfl

theorem dominates_total (hn : Dominates succs start n m) (hk : Dominates succs start k m)
    (hm : Reach succs start m) : Dominates succs start n k ∨ Dominates succs start k n := by
  by_contra hnot
  obtain ⟨hnk, hkn⟩ := not_or.mp hnot
  obtain ⟨frontK, hfrontK, havoidsN⟩ := not_forall₂.mp hnk
  obtain ⟨frontN, hfrontN, havoidsK⟩ := not_forall₂.mp hkn
  obtain ⟨nodes, hnodes⟩ := exists_path hm
  obtain ⟨laterN, hlaterN, hnotN, hreplaceN⟩ := hnodes.exists_from (hn nodes hnodes)
  obtain ⟨laterK, hlaterK, hnotK, hreplaceK⟩ := hnodes.exists_from (hk nodes hnodes)
  -- the one that is left last is reached again by a path that avoids the other
  rcases prefix_or_prefix_of_prefix hlaterN hlaterK with hle | hle
  · rcases mem_append.mp (hk _ (hreplaceN frontN hfrontN)) with hmem | hmem
    · exact hnotK (hle.subset hmem)
    · exact havoidsK hmem
  · rcases mem_append.mp (hn _ (hreplaceK frontK hfrontK)) with hmem | hmem
    · exact hnotN (hle.subset hmem)
    · exact havoidsN hmem

section Depth

open Classical in
/-- The number of dominators among the nodes. -/
noncomputable def depth (succs : ν → List ν) (start : ν) (nodes : Finset ν) (n : ν) : ℕ :=
  (nodes.filter fun k => Dominates succs start k n).card

variable {nodes : Finset ν}

theorem depth_le (n : ν) : depth succs start nodes n ≤ nodes.card := by
  classical
  exact Finset.card_filter_le _ _

theorem depth_pos (hn : n ∈ nodes) : 0 < depth succs start nodes n := by
  classical
  exact Finset.card_pos.mpr ⟨n, Finset.mem_filter.mpr ⟨hn, dominates_refl n⟩⟩

theorem depth_lt (hm : m ∈ nodes) (hreach : Reach succs start m)
    (h : StrictlyDominates succs start n m) :
    depth succs start nodes n < depth succs start nodes m := by
  classical
  refine Finset.card_lt_card (Finset.ssubset_iff_of_subset (fun k hk => ?_) |>.mpr ⟨m, ?_, ?_⟩)
  · obtain ⟨hkin, hk⟩ := Finset.mem_filter.mp hk
    exact Finset.mem_filter.mpr ⟨hkin, hk.trans h.1⟩
  · exact Finset.mem_filter.mpr ⟨hm, dominates_refl m⟩
  · exact fun hk => h.2 (dominates_antisymm h.1 (Finset.mem_filter.mp hk).2 hreach)

/-- The deepest strict dominator is the immediate one. -/
theorem exists_immediate (hnodes : ∀ k, Dominates succs start k m → k ∈ nodes)
    (hreach : Reach succs start m) (hne : m ≠ start) :
    ∃ n, ImmediatelyDominates succs start n m := by
  classical
  have hstart : start ∈ nodes.filter fun k => StrictlyDominates succs start k m :=
    Finset.mem_filter.mpr ⟨hnodes _ (dominates_of_start m), dominates_of_start m, hne.symm⟩
  obtain ⟨n, hn, hmax⟩ := Finset.exists_max_image _ (depth succs start nodes) ⟨start, hstart⟩
  obtain ⟨hnin, hn⟩ := Finset.mem_filter.mp hn
  refine ⟨n, hn, fun k hk => ?_⟩
  rcases dominates_total hn.1 hk.1 hreach with hnk | hkn
  · by_cases heq : n = k
    · exact heq ▸ dominates_refl n
    · have hkin := hnodes k hk.1
      have hlt := depth_lt hkin (hk.1.reach_start hreach) ⟨hnk, heq⟩
      have hle := hmax k (Finset.mem_filter.mpr ⟨hkin, hk⟩)
      omega
  · exact hkn

end Depth

theorem strictlyDominates_iff (hacyclic : Acyclic succs) (hm : m ≠ start)
    (hreach : Reach succs start m)
    (hpreds : ∀ p, Edge succs p m → Reach succs start p) :
    StrictlyDominates succs start n m ↔ ∀ p, Edge succs p m → Dominates succs start n p := by
  constructor
  · rintro ⟨hdom, hne⟩
    exact ((dominates_iff hm).mp hdom).resolve_left hne
  · intro h
    refine ⟨(dominates_iff hm).mpr (Or.inr h), ?_⟩
    rintro rfl
    cases Relation.ReflTransGen.cases_tail hreach with
    | inl heq => exact hm heq
    | inr hlast =>
      obtain ⟨p, hp, hedge⟩ := hlast
      exact hacyclic.not_edge_of_reach ((h p hedge).reach (hpreds p hedge)) hedge

end Paths

section Pointers

abbrev Above (pointers : List ℕ) : ℕ → ℕ → Prop :=
  Relation.ReflTransGen fun x y => pointers[x]? = some y

/-- From the bound on pointers lead to greater numbers, up to the top. -/
structure Climbs (pointers : List ℕ) (bound top : ℕ) : Prop where
  climb : ∀ x, bound ≤ x → x < top → ∃ y, pointers[x]? = some y ∧ x < y ∧ y ≤ top
  top : pointers[top]? = some top

variable {pointers : List ℕ} {bound top x y z : ℕ}

theorem Climbs.weaken (h : Climbs pointers bound top) {bound' : ℕ} (hle : bound ≤ bound') :
    Climbs pointers bound' top :=
  ⟨fun x hx => h.climb x (hle.trans hx), h.top⟩

theorem Climbs.next_cases (h : Climbs pointers bound top) (hx : bound ≤ x) (hxtop : x ≤ top)
    (hy : pointers[x]? = some y) : (x < y ∧ y ≤ top) ∨ (x = top ∧ y = top) := by
  rcases Nat.lt_or_eq_of_le hxtop with hlt | rfl
  · obtain ⟨y', hy', hbounds⟩ := h.climb x hx hlt
    cases hy.symm.trans hy'
    exact Or.inl hbounds
  · cases hy.symm.trans h.top
    exact Or.inr ⟨rfl, rfl⟩

theorem Climbs.le_of_above (h : Climbs pointers bound top) (hx : bound ≤ x) (hxtop : x ≤ top)
    (habove : Above pointers x z) : x ≤ z ∧ z ≤ top := by
  induction habove with
  | refl => exact ⟨Nat.le_refl x, hxtop⟩
  | tail _ hstep ih =>
    rcases h.next_cases (hx.trans ih.1) ih.2 hstep with hnext | hnext
    · omega
    · omega

theorem above_iff (hy : pointers[x]? = some y) :
    Above pointers x z ↔ z = x ∨ Above pointers y z := by
  constructor
  · intro h
    rcases Relation.ReflTransGen.cases_head h with heq | ⟨w, hw, hwz⟩
    · exact Or.inl heq.symm
    · cases hy.symm.trans hw
      exact Or.inr hwz
  · rintro (rfl | hyz)
    · exact .refl
    · exact hyz.head hy

theorem Climbs.eq_of_above_iff (h : Climbs pointers bound top) (hx : bound ≤ x) (hxtop : x ≤ top)
    (hy : bound ≤ y) (hytop : y ≤ top)
    (heq : ∀ z, Above pointers x z ↔ Above pointers y z) : x = y := by
  have hxy := h.le_of_above hx hxtop ((heq y).mpr .refl)
  have hyx := h.le_of_above hy hytop ((heq x).mp .refl)
  omega

theorem Climbs.above_set (h : Climbs pointers (bound + 1) top) (v : ℕ) (hx : bound < x)
    (hxtop : x ≤ top) :
    Above (pointers.set bound v) x z ↔ Above pointers x z := by
  have hsame : ∀ w, bound < w → (pointers.set bound v)[w]? = pointers[w]? :=
    fun w hw => getElem?_set_ne (by omega)
  constructor
  · intro habove
    have hboth : Above pointers x z ∧ x ≤ z ∧ z ≤ top := by
      induction habove with
      | refl => exact ⟨.refl, Nat.le_refl x, hxtop⟩
      | tail _ hstep ih =>
        obtain ⟨hchain, hlow, hhigh⟩ := ih
        rw [hsame _ (by omega)] at hstep
        exact ⟨hchain.tail hstep, h.le_of_above hx hxtop (hchain.tail hstep)⟩
    exact hboth.1
  · intro habove
    induction habove with
    | refl => exact .refl
    | tail hchain hstep ih =>
      have hlow := h.le_of_above hx hxtop hchain
      refine ih.tail ?_
      rw [hsame _ (by omega)]
      exact hstep

theorem Climbs.set (h : Climbs pointers (bound + 1) top) (hbound : bound < top) (hv : bound < v)
    (hvtop : v ≤ top) : Climbs (pointers.set bound v) bound top := by
  have hlength : top < pointers.length := (List.getElem?_eq_some_iff.mp h.top).1
  refine ⟨fun x hx hxtop => ?_, ?_⟩
  · rcases Nat.lt_or_eq_of_le hx with hlt | rfl
    · rw [getElem?_set_ne (by omega)]
      exact h.climb x hlt hxtop
    · refine ⟨v, ?_, hv, hvtop⟩
      rw [getElem?_set_self (by omega)]
  · rw [getElem?_set_ne (by omega)]
    exact h.top

/-- Advances the number that is behind until both are the same. -/
def intersect (pointers : List ℕ) : ℕ → ℕ → ℕ → Option ℕ
  | 0, _, _ => none
  | fuel + 1, finger1, finger2 =>
    if finger1 = finger2 then some finger1
    else if finger1 < finger2 then pointers[finger1]?.bind fun f =>
      intersect pointers fuel f finger2
    else pointers[finger2]?.bind fun f => intersect pointers fuel finger1 f

theorem Climbs.intersect_spec (h : Climbs pointers bound top) (hx : bound ≤ x) (hxtop : x ≤ top)
    (hy : bound ≤ y) (hytop : y ≤ top) (hfuel : (top - x) + (top - y) < fuel) :
    ∃ w, intersect pointers fuel x y = some w ∧ x ≤ w ∧ y ≤ w ∧ w ≤ top ∧
      ∀ z, Above pointers w z ↔ Above pointers x z ∧ Above pointers y z := by
  induction fuel generalizing x y with
  | zero => omega
  | succ fuel ih =>
    rw [intersect]
    rcases Nat.lt_trichotomy x y with hlt | rfl | hgt
    · -- a common number is not the smaller one
      obtain ⟨x', hx', hbelow, htop⟩ := h.climb x hx (by omega)
      obtain ⟨w, hw, hxw, hyw, hwtop, hchain⟩ := ih (x := x') (by omega) htop hy hytop (by omega)
      rw [if_neg (by omega), if_pos hlt, hx', Option.bind_some]
      refine ⟨w, hw, by omega, hyw, hwtop, fun z => ?_⟩
      rw [hchain z, above_iff hx']
      constructor
      · rintro ⟨hxz, hyz⟩
        exact ⟨Or.inr hxz, hyz⟩
      · rintro ⟨hxz | hxz, hyz⟩
        · have hle := h.le_of_above hy hytop hyz
          omega
        · exact ⟨hxz, hyz⟩
    · rw [if_pos rfl]
      exact ⟨x, rfl, Nat.le_refl x, Nat.le_refl x, hxtop, fun z => (and_self_iff).symm⟩
    · obtain ⟨y', hy', hbelow, htop⟩ := h.climb y hy (by omega)
      obtain ⟨w, hw, hxw, hyw, hwtop, hchain⟩ := ih (y := y') hx hxtop (by omega) htop (by omega)
      rw [if_neg (by omega), if_neg (by omega), hy', Option.bind_some]
      refine ⟨w, hw, hxw, by omega, hwtop, fun z => ?_⟩
      rw [hchain z, above_iff hy']
      constructor
      · rintro ⟨hxz, hyz⟩
        exact ⟨hxz, Or.inr hyz⟩
      · rintro ⟨hxz, hyz | hyz⟩
        · have hle := h.le_of_above hx hxtop hxz
          omega
        · exact ⟨hxz, hyz⟩

end Pointers

end Dominance
