import FlexPlan.CfgAlgos

/-!
# Forming basic blocks

`basic_blocks` walks a graph depth first. A block grows while its last node has one successor and
that successor has no other predecessor. On a graph without critical edges only the top of the
stack can be a join, so no node is pushed twice.
-/
namespace BlockFormation

open FlowGraph CfgAlgos List Function EdgeHolder

variable {ν ι : Type} [DecidableEq ν]

section Model

abbrev Resolved (ν : Type) := ν → Option ℕ

/-- What the inner loop leaves: the new entries, the block, and what is pushed behind it. -/
structure Grown (ν : Type) where
  resolved : Resolved ν
  block : List ν
  pushed : List ν

/-- The inner loop, with the last node of the block apart; `none` when a node is processed twice
or the rounds are used up. -/
def grow (g r : EdgeHolder ν) (index : ℕ) : ℕ → Resolved ν → List ν → ν → Option (Grown ν)
  | 0, _, _, _ => none
  | fuel + 1, resolved, front, last =>
    if (resolved last).isSome then none
    else
      let resolved := update resolved last (some index)
      let crt := front ++ [last]
      match g.neighbors last with
      | [(succ, _)] =>
        if (r.neighbors succ).length ≤ 1 then grow g r index fuel resolved crt succ
        else some ⟨resolved, crt, [succ].filter fun n => (resolved n).isNone⟩
      | edges => some ⟨resolved, crt, (edges.map Prod.fst).filter fun n => (resolved n).isNone⟩

/-- The stack holds blocks of one node, the last pushed first. -/
structure Walk (ν : Type) where
  resolved : Resolved ν
  blocks : List (List ν)
  stack : List ν

def walk (g r : EdgeHolder ν) (rounds : ℕ) : ℕ → Walk ν → Option (Walk ν)
  | fuel, w =>
    match w.stack with
    | [] => some w
    | n :: rest =>
      match fuel with
      | 0 => none
      | fuel + 1 =>
        (grow g r w.blocks.length rounds w.resolved [] n).bind fun grown =>
          walk g r rounds fuel ⟨grown.resolved, w.blocks ++ [grown.block],
            grown.pushed.reverse ++ rest⟩

def blockGraph (h : EdgeHolder ν) (resolved : Resolved ν) (ends : List (Option ν)) : EdgeHolder ℕ :=
  let neighbors := fun i => (ends[i]?.join.elim [] h.neighbors).map fun e =>
    ((resolved e.1).getD 0, e.2)
  { keys := (List.range ends.length).filter fun i => neighbors i ≠ []
    neighbors := neighbors
    outside := fun i hi => by
      by_contra hne
      refine hi (mem_filter.mpr ⟨mem_range.mpr ?_, decide_eq_true hne⟩)
      by_contra hlength
      apply hne
      have hnone : ends[i]? = none := getElem?_eq_none (by omega)
      simp only [neighbors, hnone]
      rfl }

structure Blocks (ν : Type) where
  blocks : List (List ν)
  basicBlockGraph : EdgeHolder ℕ
  rBasicBlockGraph : EdgeHolder ℕ
  basicBlockStart : ℕ

def basicBlocks (g r : EdgeHolder ν) (start : ν) : Option (Blocks ν) :=
  let rounds := (g.nodes start).card
  (walk g r rounds rounds ⟨fun _ => none, [], [start]⟩).map fun w =>
    { blocks := w.blocks
      basicBlockGraph := blockGraph g w.resolved (w.blocks.map List.getLast?)
      rBasicBlockGraph := blockGraph r w.resolved (w.blocks.map List.head?)
      basicBlockStart := (w.resolved start).getD 0 }

end Model

section Specification

/-- The graphs the function is meant for. -/
structure IsInput (g r : EdgeHolder ν) (start : ν) : Prop where
  acyclic : Acyclic g.succs
  reached : ∀ n ∈ g.nodes start, Reach g.succs start n
  uncritical : g.NoCriticalEdges
  converse : g.Converse r

def Blocks.word (out : Blocks ν) (instr : ν → ι) (i : ℕ) : List ι :=
  (out.blocks[i]?.getD []).map instr

structure Formed (g : EdgeHolder ν) (start : ν) (out : Blocks ν) : Prop where
  covered : ∀ n, n ∈ out.blocks.flatten ↔ n ∈ g.nodes start
  once : out.blocks.flatten.Nodup
  words : ∀ (ι : Type) (instr : ν → ι),
    Words out.basicBlockGraph.succs (out.word instr) out.basicBlockStart =
      Words g.succs (fun n => [instr n]) start
  converse : out.basicBlockGraph.Converse out.rBasicBlockGraph

end Specification

section Predecessors

variable {g r : EdgeHolder ν} {start : ν}

theorem IsInput.not_edge_start (h : IsInput g r start) (u : ν) : ¬Edge g.succs u start := by
  intro hedge
  exact h.acyclic.not_edge_of_reach (h.reached u (source_mem_nodes hedge)) hedge

theorem mem_reverse_of_edge (h : IsInput g r start) (he : Edge g.succs u v) :
    ∃ l, (u, l) ∈ r.neighbors v := by
  obtain ⟨⟨v, l⟩, hmem, rfl⟩ := mem_map.mp he
  exact ⟨l, h.converse.mem.mpr hmem⟩

theorem IsInput.pred_unique (h : IsInput g r start) (hv : (r.neighbors v).length ≤ 1)
    (hu : Edge g.succs u v) (hw : Edge g.succs w v) : u = w := by
  obtain ⟨l, hl⟩ := mem_reverse_of_edge h hu
  obtain ⟨l', hl'⟩ := mem_reverse_of_edge h hw
  match hlist : r.neighbors v, hv with
  | [], _ =>
    rw [hlist] at hl
    cases hl
  | [e], _ =>
    rw [hlist, mem_singleton] at hl hl'
    exact congrArg Prod.fst (hl.trans hl'.symm)

theorem IsInput.single_of_fork (h : IsInput g r start) (hu : 1 < (g.neighbors u).length)
    (hv : Edge g.succs u v) : (r.neighbors v).length ≤ 1 := by
  obtain ⟨hcount, honly⟩ := h.uncritical u v hu hv
  have hperm : (r.neighbors v).Perm
      (((g.neighbors u).filter fun e => e.1 = v).map fun e => (u, e.2)) := by
    refine perm_iff_count.mpr fun ⟨w, l⟩ => ?_
    rw [h.converse w v l]
    by_cases hw : w = u
    · subst hw
      exact (count_turned _ _ _ _).symm
    · rw [count_eq_zero_of_not_mem, count_eq_zero_of_not_mem]
      · rintro hmem
        obtain ⟨e, -, heq⟩ := mem_map.mp hmem
        exact hw (congrArg Prod.fst heq).symm
      · exact fun hmem => hw (honly w (mem_map_of_mem hmem))
  rw [hperm.length_eq, length_map, ← hcount, EdgeHolder.succs, count_eq_countP,
    countP_map, countP_eq_length_filter]
  exact Nat.le_of_eq (congrArg List.length (filter_congr fun e _ => (beq_eq_decide e.1 v).symm))

theorem IsInput.nodup_of_fork (h : IsInput g r start) (hu : 1 < (g.neighbors u).length) :
    (g.succs u).Nodup := by
  refine nodup_iff_count_le_one.mpr fun v => ?_
  by_cases hv : v ∈ g.succs u
  · exact Nat.le_of_eq (h.uncritical u v hu hv).1
  · rw [count_eq_zero_of_not_mem hv]
    exact Nat.zero_le 1

end Predecessors

section Walks

/-- The one edge of a node leads to a node without other incoming edges. -/
def Joined (g r : EdgeHolder ν) (u v : ν) : Prop :=
  (∃ l, g.neighbors u = [(v, l)]) ∧ (r.neighbors v).length ≤ 1

omit [DecidableEq ν] in
theorem Joined.edge (h : Joined g r u v) : Edge g.succs u v := by
  obtain ⟨⟨l, hl⟩, -⟩ := h
  rw [Edge, EdgeHolder.succs, hl]
  exact mem_cons_self

/-- What holds whenever the walk looks at the stack. All waiting nodes but the top have one
predecessor, which is in a block. -/
structure Walking (g r : EdgeHolder ν) (start : ν) (resolved : Resolved ν) (blocks : List (List ν))
    (stack : List ν) : Prop where
  index : ∀ n i, resolved n = some i ↔ ∃ blk, blocks[i]? = some blk ∧ n ∈ blk
  nodup : (blocks.flatten ++ stack).Nodup
  origin : ∀ n ∈ blocks.flatten ++ stack, n = start ∨ ∃ u ∈ blocks.flatten, Edge g.succs u n
  closed : ∀ u ∈ blocks.flatten, ∀ v ∈ g.succs u, v ∈ blocks.flatten ++ stack
  chains : ∀ blk ∈ blocks, blk.IsChain (Joined g r)
  single : ∀ n ∈ stack.tail, (r.neighbors n).length ≤ 1
  start_mem : start ∈ blocks.flatten ++ stack

variable {g r : EdgeHolder ν} {start last : ν} {resolved : Resolved ν} {blocks : List (List ν)}
  {front rest stack : List ν}

omit [DecidableEq ν] in
theorem isSome_iff_of_index
    (h : ∀ n i, resolved n = some i ↔ ∃ blk, blocks[i]? = some blk ∧ n ∈ blk) (n : ν) :
    (resolved n).isSome = true ↔ n ∈ blocks.flatten := by
  rw [Option.isSome_iff_exists, mem_flatten]
  constructor
  · rintro ⟨i, hi⟩
    obtain ⟨blk, hblk, hn⟩ := (h n i).mp hi
    exact ⟨blk, mem_of_getElem? hblk, hn⟩
  · rintro ⟨blk, hblk, hn⟩
    obtain ⟨i, hi⟩ := mem_iff_getElem?.mp hblk
    exact ⟨i, (h n i).mpr ⟨blk, hi, hn⟩⟩

theorem Walking.mem_nodes (h : Walking g r start resolved blocks stack)
    (hn : n ∈ blocks.flatten ++ stack) : n ∈ g.nodes start := by
  rcases h.origin n hn with rfl | ⟨u, -, hedge⟩
  · exact start_mem_nodes n
  · exact target_mem_nodes hedge

section

omit [DecidableEq ν]

theorem exists_block_append (blocks : List (List ν)) (blk : List ν) (n : ν) (i : ℕ) :
    (∃ b, (blocks ++ [blk])[i]? = some b ∧ n ∈ b) ↔
      (∃ b, blocks[i]? = some b ∧ n ∈ b) ∨ (i = blocks.length ∧ n ∈ blk) := by
  rcases Nat.lt_trichotomy i blocks.length with hlt | rfl | hgt
  · rw [getElem?_append_left hlt]
    constructor
    · exact Or.inl
    · rintro (h | ⟨rfl, -⟩)
      · exact h
      · omega
  · rw [getElem?_append_right (Nat.le_refl _), Nat.sub_self, getElem?_eq_none (Nat.le_refl _)]
    simp
  · have hnone : (blocks ++ [blk])[i]? = none := by
      rw [getElem?_eq_none_iff, length_append, length_singleton]
      omega
    rw [hnone, getElem?_eq_none (by omega)]
    constructor
    · rintro ⟨b, hb, -⟩
      cases hb
    · rintro (⟨b, hb, -⟩ | ⟨rfl, -⟩)
      · cases hb
      · omega

theorem Walking.begin (h : Walking g r start resolved blocks stack) :
    Walking g r start resolved (blocks ++ [[]]) stack := by
  have hflatten : (blocks ++ [[]]).flatten = blocks.flatten := by
    rw [flatten_append, flatten_singleton, append_nil]
  refine ⟨fun n i => ?_, ?_, ?_, ?_, ?_, h.single, ?_⟩
  · rw [h.index n i, exists_block_append]
    simp
  · rw [hflatten]
    exact h.nodup
  · rw [hflatten]
    exact h.origin
  · rw [hflatten]
    exact h.closed
  · intro blk hblk
    rcases mem_append.mp hblk with hblk | hblk
    · exact h.chains blk hblk
    · rw [mem_singleton.mp hblk]
      exact .nil
  · rw [hflatten]
    exact h.start_mem

theorem flatten_grown (blocks : List (List ν)) (front : List ν) (last : ν) :
    (blocks ++ [front ++ [last]]).flatten = (blocks ++ [front]).flatten ++ [last] := by
  simp only [flatten_append, flatten_singleton, append_assoc]

end

theorem index_grown (h : Walking g r start resolved (blocks ++ [front]) (last :: rest))
    (n : ν) (i : ℕ) :
    update resolved last (some blocks.length) n = some i ↔
      ∃ blk, (blocks ++ [front ++ [last]])[i]? = some blk ∧ n ∈ blk := by
  have hfresh : last ∉ (blocks ++ [front]).flatten := fun hmem =>
    (nodup_append.mp h.nodup).2.2 last hmem last mem_cons_self rfl
  rw [exists_block_append]
  by_cases hn : n = last
  · subst hn
    rw [update_self, Option.some.injEq]
    constructor
    · rintro rfl
      exact Or.inr ⟨rfl, mem_append_right _ mem_cons_self⟩
    · rintro (⟨blk, hblk, hmem⟩ | ⟨rfl, -⟩)
      · refine absurd ?_ hfresh
        rw [flatten_append]
        exact mem_append_left _ (mem_flatten.mpr ⟨blk, mem_of_getElem? hblk, hmem⟩)
      · rfl
  · rw [update_of_ne hn, h.index n i, exists_block_append, mem_append, mem_singleton]
    simp only [hn, or_false]

theorem Walking.resolve (h : Walking g r start resolved (blocks ++ [front]) (last :: rest))
    (hjoined : ∀ x ∈ front.getLast?, Joined g r x last) {pushed : List ν}
    (hnodup : (pushed ++ rest).Nodup) (hedges : ∀ n ∈ pushed, Edge g.succs last n)
    (hnew : ∀ n ∈ pushed, n ∉ (blocks ++ [front ++ [last]]).flatten)
    (hsuccs : ∀ v ∈ g.succs last, v ∈ (blocks ++ [front ++ [last]]).flatten ++ pushed)
    (hsingle : ∀ n ∈ (pushed ++ rest).tail, (r.neighbors n).length ≤ 1) :
    Walking g r start (update resolved last (some blocks.length))
      (blocks ++ [front ++ [last]]) (pushed ++ rest) := by
  have hold : ∀ n, n ∈ (blocks ++ [front]).flatten ++ last :: rest ↔
      n ∈ (blocks ++ [front ++ [last]]).flatten ++ rest := by
    intro n
    rw [flatten_grown, append_assoc]
    rfl
  have hgrown : ∀ n, n ∈ (blocks ++ [front]).flatten →
      n ∈ (blocks ++ [front ++ [last]]).flatten := by
    intro n hn
    rw [flatten_grown]
    exact mem_append_left _ hn
  have hlast : last ∈ (blocks ++ [front ++ [last]]).flatten := by
    rw [flatten_grown]
    exact mem_append_right _ mem_cons_self
  have hkeep : ∀ n, n ∈ (blocks ++ [front ++ [last]]).flatten ++ rest →
      n ∈ (blocks ++ [front ++ [last]]).flatten ++ (pushed ++ rest) := by
    intro n hn
    rcases mem_append.mp hn with hn | hn
    · exact mem_append_left _ hn
    · exact mem_append_right _ (mem_append_right _ hn)
  refine ⟨index_grown h, ?_, ?_, ?_, ?_, hsingle, ?_⟩
  · have hbefore : ((blocks ++ [front ++ [last]]).flatten ++ rest).Nodup := by
      rw [flatten_grown, append_assoc]
      exact h.nodup
    obtain ⟨hflat, -, hrest⟩ := nodup_append.mp hbefore
    refine nodup_append.mpr ⟨hflat, hnodup, fun a ha b hb heq => ?_⟩
    subst heq
    rcases mem_append.mp hb with hb | hb
    · exact hnew a hb ha
    · exact hrest a ha a hb rfl
  · intro n hn
    rw [mem_append, mem_append] at hn
    rcases hn with hn | hn | hn
    · rcases h.origin n ((hold n).mpr (mem_append_left _ hn)) with hstart | ⟨u, hu, hedge⟩
      · exact Or.inl hstart
      · exact Or.inr ⟨u, hgrown u hu, hedge⟩
    · exact Or.inr ⟨last, hlast, hedges n hn⟩
    · rcases h.origin n ((hold n).mpr (mem_append_right _ hn)) with hstart | ⟨u, hu, hedge⟩
      · exact Or.inl hstart
      · exact Or.inr ⟨u, hgrown u hu, hedge⟩
  · intro u hu v hv
    rw [flatten_grown] at hu
    rcases mem_append.mp hu with hu | hu
    · exact hkeep v ((hold v).mp (h.closed u hu v hv))
    · rw [mem_singleton.mp hu] at hv
      rcases mem_append.mp (hsuccs v hv) with hv | hv
      · exact mem_append_left _ hv
      · exact mem_append_right _ (mem_append_left _ hv)
  · intro blk hblk
    rcases mem_append.mp hblk with hblk | hblk
    · exact h.chains blk (mem_append_left _ hblk)
    · rw [mem_singleton.mp hblk]
      have hfront := h.chains front (mem_append_right _ mem_cons_self)
      refine isChain_append.mpr ⟨hfront, .singleton last, fun x hx y hy => ?_⟩
      rw [head?_cons, Option.mem_some_iff] at hy
      exact hy ▸ hjoined x hx
  · exact hkeep start ((hold start).mp h.start_mem)

def unresolved (g : EdgeHolder ν) (start : ν) (resolved : Resolved ν) : ℕ :=
  ((g.nodes start).filter fun n => (resolved n).isNone).card

theorem unresolved_update (hn : n ∈ g.nodes start) (hnone : resolved n = none) (i : ℕ) :
    unresolved g start (update resolved n (some i)) < unresolved g start resolved := by
  refine Finset.card_lt_card (Finset.ssubset_iff_of_subset ?_ |>.mpr ⟨n, ?_, ?_⟩)
  · intro m hm
    obtain ⟨hmem, hm⟩ := Finset.mem_filter.mp hm
    refine Finset.mem_filter.mpr ⟨hmem, ?_⟩
    by_cases heq : m = n
    · rw [heq, hnone]
      rfl
    · rwa [update_of_ne heq] at hm
  · rw [Finset.mem_filter, hnone]
    exact ⟨hn, rfl⟩
  · rw [Finset.mem_filter, update_self]
    exact fun hm => Bool.false_ne_true hm.2

section Growing

variable (h : IsInput g r start)
  (hwalk : Walking g r start resolved (blocks ++ [front]) (last :: rest))

omit [DecidableEq ν] in
include hwalk in
theorem last_unresolved : resolved last = none := by
  rw [← Option.not_isSome_iff_eq_none, isSome_iff_of_index hwalk.index]
  exact fun hmem => (nodup_append.mp hwalk.nodup).2.2 last hmem last mem_cons_self rfl

include h hwalk in
theorem fresh_of_single (hedge : Edge g.succs last n) (hsingle : (r.neighbors n).length ≤ 1) :
    n ∉ (blocks ++ [front ++ [last]]).flatten ∧ n ∉ rest := by
  have hfresh : last ∉ (blocks ++ [front]).flatten := fun hmem =>
    (nodup_append.mp hwalk.nodup).2.2 last hmem last mem_cons_self rfl
  have hself : n ≠ last := by
    rintro rfl
    exact h.acyclic n (.single hedge)
  -- otherwise its predecessor were in a block before
  have hold : n ∉ (blocks ++ [front]).flatten ++ last :: rest := by
    intro hmem
    rcases hwalk.origin n hmem with rfl | ⟨u, hu, hedge'⟩
    · exact h.not_edge_start last hedge
    · exact hfresh (h.pred_unique hsingle hedge' hedge ▸ hu)
  rw [mem_append, not_or, mem_cons, not_or] at hold
  rw [flatten_grown, mem_append, mem_singleton, not_or]
  exact ⟨⟨hold.1, hself⟩, hold.2.2⟩

/-- The nodes of a list that are in no block, with the last node resolved. -/
abbrev waiting (resolved : Resolved ν) (index : ℕ) (last : ν) (succs : List ν) : List ν :=
  succs.filter fun n => (update resolved last (some index) n).isNone

include hwalk in
theorem mem_waiting {succs : List ν} : n ∈ waiting resolved blocks.length last succs ↔
    n ∈ succs ∧ n ∉ (blocks ++ [front ++ [last]]).flatten := by
  rw [waiting, mem_filter, Option.isNone_iff_eq_none, ← Option.not_isSome_iff_eq_none,
    isSome_iff_of_index (index_grown hwalk)]

include hwalk in
theorem walking_of_stop (hjoined : ∀ x ∈ front.getLast?, Joined g r x last) {succs : List ν}
    (hnodup : succs.Nodup) (hsuccs : ∀ n, n ∈ g.succs last ↔ n ∈ succs)
    (hrest : ∀ n ∈ succs, n ∉ rest)
    (hsingle : ∀ n ∈ ((waiting resolved blocks.length last succs).reverse ++ rest).tail,
      (r.neighbors n).length ≤ 1) :
    Walking g r start (update resolved last (some blocks.length)) (blocks ++ [front ++ [last]])
      ((waiting resolved blocks.length last succs).reverse ++ rest) := by
  have hrestNodup : rest.Nodup := (nodup_append.mp hwalk.nodup).2.1.of_cons
  refine hwalk.resolve hjoined ?_ ?_ ?_ ?_ hsingle
  · refine nodup_append.mpr ⟨nodup_reverse.mpr (hnodup.filter _), hrestNodup, ?_⟩
    rintro a ha b hb rfl
    exact hrest a ((mem_waiting hwalk).mp (mem_reverse.mp ha)).1 hb
  · intro n hn
    exact (hsuccs n).mpr ((mem_waiting hwalk).mp (mem_reverse.mp hn)).1
  · intro n hn
    exact ((mem_waiting hwalk).mp (mem_reverse.mp hn)).2
  · intro v hv
    by_cases hdone : v ∈ (blocks ++ [front ++ [last]]).flatten
    · exact mem_append_left _ hdone
    · refine mem_append_right _ (mem_reverse.mpr ?_)
      exact (mem_waiting hwalk).mpr ⟨(hsuccs v).mp hv, hdone⟩

end Growing

theorem grow_spec (h : IsInput g r start)
    (hwalk : Walking g r start resolved (blocks ++ [front]) (last :: rest))
    (hjoined : ∀ x ∈ front.getLast?, Joined g r x last)
    (hfuel : unresolved g start resolved ≤ fuel) :
    ∃ out, grow g r blocks.length fuel resolved front last = some out ∧
      Walking g r start out.resolved (blocks ++ [out.block]) (out.pushed.reverse ++ rest) ∧
      unresolved g start out.resolved < unresolved g start resolved := by
  induction fuel generalizing resolved front last with
  | zero =>
    have hnode := hwalk.mem_nodes (mem_append_right _ mem_cons_self)
    have hless := unresolved_update hnode (last_unresolved hwalk) 0
    omega
  | succ fuel ih =>
    have hnode := hwalk.mem_nodes (mem_append_right _ mem_cons_self)
    have hnone := last_unresolved hwalk
    have hless := unresolved_update hnode hnone blocks.length
    have hrest : ∀ n ∈ rest, (r.neighbors n).length ≤ 1 := hwalk.single
    rw [grow, hnone]
    simp only [Option.isSome_none, Bool.false_eq_true, if_false]
    match hedges : g.neighbors last with
    | [] =>
      have hsuccs : g.succs last = [] := by rw [EdgeHolder.succs, hedges, map_nil]
      refine ⟨_, rfl, walking_of_stop hwalk hjoined nodup_nil ?_ ?_ ?_, hless⟩
      · intro n
        rw [hsuccs]
        exact Iff.rfl
      · intro n hn
        cases hn
      · intro n hn
        exact hrest n (mem_of_mem_tail hn)
    | [(succ, l)] =>
      have hsuccs : g.succs last = [succ] := by rw [EdgeHolder.succs, hedges]; rfl
      have hedge : Edge g.succs last succ := edge_of_succs hsuccs
      by_cases hsingle : (r.neighbors succ).length ≤ 1
      · -- the block goes on with the successor
        obtain ⟨hfresh, hnotrest⟩ := fresh_of_single h hwalk hedge hsingle
        have hnodup : ([succ] ++ rest).Nodup :=
          nodup_cons.mpr ⟨hnotrest, (nodup_append.mp hwalk.nodup).2.1.of_cons⟩
        have hwalk' := hwalk.resolve hjoined hnodup
          (fun n hn => mem_singleton.mp hn ▸ hedge) (fun n hn => mem_singleton.mp hn ▸ hfresh)
          (fun v hv => mem_append_right _ (hsuccs ▸ hv)) hrest
        have hjoined' : ∀ x ∈ (front ++ [last]).getLast?, Joined g r x succ := by
          intro x hx
          rw [getLast?_append, getLast?_singleton, Option.some_or, Option.mem_some_iff] at hx
          exact hx ▸ ⟨⟨l, hedges⟩, hsingle⟩
        obtain ⟨out, hout, hwalking, hmeasure⟩ := ih hwalk' hjoined' (by omega)
        simp only [if_pos hsingle]
        exact ⟨out, hout, hwalking, hmeasure.trans hless⟩
      · -- a join is not on the stack, where all nodes below the top have one predecessor
        simp only [if_neg hsingle]
        refine ⟨_, rfl, walking_of_stop hwalk hjoined (nodup_singleton succ) ?_ ?_ ?_, hless⟩
        · intro n
          rw [hsuccs]
        · intro n hn hmem
          rw [mem_singleton.mp hn] at hmem
          exact hsingle (hrest succ hmem)
        · intro n hn
          apply hrest
          rw [waiting, filter_cons] at hn
          split at hn
          · exact hn
          · exact mem_of_mem_tail hn
    | e :: e' :: edges =>
      have hfork : 1 < (g.neighbors last).length := by
        rw [hedges, length_cons, length_cons]
        omega
      have hsuccs : g.succs last = (e :: e' :: edges).map Prod.fst := by
        rw [EdgeHolder.succs, hedges]
      refine ⟨_, rfl, walking_of_stop hwalk hjoined (hsuccs ▸ h.nodup_of_fork hfork) ?_ ?_ ?_,
        hless⟩
      · intro n
        rw [hsuccs]
      · intro n hn
        have hedge : Edge g.succs last n := by
          rw [Edge, hsuccs]
          exact hn
        exact (fresh_of_single h hwalk hedge (h.single_of_fork hfork hedge)).2
      · intro n hn
        rcases mem_append.mp (mem_of_mem_tail hn) with hn | hn
        · have hedge : Edge g.succs last n := by
            rw [Edge, hsuccs]
            exact ((mem_waiting hwalk).mp (mem_reverse.mp hn)).1
          exact h.single_of_fork hfork hedge
        · exact hrest n hn

theorem walk_spec (h : IsInput g r start) {fuel rounds : ℕ}
    (hwalk : Walking g r start w.resolved w.blocks w.stack)
    (hfuel : unresolved g start w.resolved ≤ fuel)
    (hrounds : unresolved g start w.resolved ≤ rounds) :
    ∃ out, walk g r rounds fuel w = some out ∧ Walking g r start out.resolved out.blocks [] := by
  induction fuel generalizing w with
  | zero =>
    rw [walk]
    match hstack : w.stack with
    | [] => exact ⟨w, rfl, hstack ▸ hwalk⟩
    | n :: rest =>
      rw [hstack] at hwalk
      have hnode := hwalk.mem_nodes (mem_append_right _ mem_cons_self)
      have hless := unresolved_update hnode (last_unresolved hwalk.begin) 0
      omega
  | succ fuel ih =>
    rw [walk]
    match hstack : w.stack with
    | [] => exact ⟨w, rfl, hstack ▸ hwalk⟩
    | n :: rest =>
      rw [hstack] at hwalk
      obtain ⟨out, hout, hwalking, hless⟩ :=
        grow_spec h hwalk.begin (fun x hx => by cases hx) hrounds
      simp only [hout, Option.bind_some]
      refine ih hwalking ?_ ?_
      · show unresolved g start out.resolved ≤ fuel
        omega
      · show unresolved g start out.resolved ≤ rounds
        omega

end Walks

section Result

variable {g r : EdgeHolder ν} {start : ν} {resolved : Resolved ν} {blocks : List (List ν)}

abbrev firstOf (blocks : List (List ν)) (i : ℕ) : Option ν := (blocks.map List.head?)[i]?.join

abbrev lastOf (blocks : List (List ν)) (i : ℕ) : Option ν := (blocks.map List.getLast?)[i]?.join

omit [DecidableEq ν] in
theorem firstOf_eq_some : firstOf blocks i = some n ↔ ∃ rest, blocks[i]? = some (n :: rest) := by
  rw [firstOf, getElem?_map]
  cases blocks[i]? with
  | none => simp
  | some blk =>
    cases blk with
    | nil => simp
    | cons m rest => simp [eq_comm]

omit [DecidableEq ν] in
theorem lastOf_eq_some : lastOf blocks i = some n ↔ ∃ front, blocks[i]? = some (front ++ [n]) := by
  rw [lastOf, getElem?_map]
  cases blocks[i]? with
  | none => simp
  | some blk =>
    rw [Option.map_some, Option.join_some]
    constructor
    · intro hlast
      obtain ⟨front, rfl⟩ := getLast?_eq_some_iff.mp hlast
      exact ⟨front, rfl⟩
    · rintro ⟨front, hblk⟩
      rw [Option.some.inj hblk, getLast?_append, getLast?_singleton, Option.some_or]

variable (h : IsInput g r start) (hwalk : Walking g r start resolved blocks [])

include h hwalk in
theorem mem_blocks_iff (n : ν) : n ∈ blocks.flatten ↔ n ∈ g.nodes start := by
  constructor
  · intro hn
    exact hwalk.mem_nodes (mem_append_left _ hn)
  · intro hn
    have hclosed : ∀ u ∈ blocks.flatten, ∀ v ∈ g.succs u, v ∈ blocks.flatten := by
      intro u hu v hv
      simpa using hwalk.closed u hu v hv
    have hstart : start ∈ blocks.flatten := by simpa using hwalk.start_mem
    induction h.reached n hn with
    | refl => exact hstart
    | tail hreach hstep ih => exact hclosed _ (ih (source_mem_nodes hstep)) _ hstep

section

omit [DecidableEq ν]

include hwalk

theorem nodup_block {blk : List ν} (hblk : blk ∈ blocks) : blk.Nodup :=
  (nodup_flatten.mp (nodup_append.mp hwalk.nodup).1).1 blk hblk

theorem joined_of_block {i : ℕ} {front rest : List ν} {u v : ν}
    (hblk : blocks[i]? = some (front ++ u :: v :: rest)) : Joined g r u v := by
  have hchain := hwalk.chains _ (mem_of_getElem? hblk)
  exact (isChain_cons_cons.mp (isChain_append.mp hchain).2.1).1

theorem resolved_of_mem {blk : List ν} (hblk : blocks[i]? = some blk) (hn : n ∈ blk) :
    resolved n = some i :=
  (hwalk.index n i).mpr ⟨blk, hblk, hn⟩

end

include h hwalk in
theorem exists_block (hn : n ∈ g.nodes start) :
    ∃ i front rest, resolved n = some i ∧ blocks[i]? = some (front ++ n :: rest) := by
  obtain ⟨blk, hblk, hmem⟩ := mem_flatten.mp ((mem_blocks_iff h hwalk n).mpr hn)
  obtain ⟨i, hi⟩ := mem_iff_getElem?.mp hblk
  obtain ⟨front, rest, rfl⟩ := mem_iff_append.mp hmem
  exact ⟨i, front, rest, resolved_of_mem hwalk hi hmem, hi⟩

include h hwalk in
theorem first_of_succ (hu : lastOf blocks i = some u) (hedge : Edge g.succs u v) :
    ∃ k, resolved v = some k ∧ firstOf blocks k = some v := by
  obtain ⟨k, front, rest, hk, hblk⟩ := exists_block h hwalk (target_mem_nodes hedge)
  refine ⟨k, hk, ?_⟩
  rcases eq_nil_or_concat front with rfl | ⟨front, p, rfl⟩
  · exact firstOf_eq_some.mpr ⟨rest, hblk⟩
  · -- the node in front of it would be the last node of the block of `u`
    rw [concat_eq_append, append_assoc, singleton_append] at hblk
    have hjoined := joined_of_block hwalk hblk
    have hpu := h.pred_unique hjoined.2 hjoined.edge hedge
    subst hpu
    obtain ⟨front', hlast⟩ := lastOf_eq_some.mp hu
    have hi := resolved_of_mem hwalk hlast (mem_append_right _ mem_cons_self)
    have hk' := resolved_of_mem hwalk hblk (mem_append_right _ mem_cons_self)
    cases hi.symm.trans hk'
    have heq := Option.some.inj (hlast.symm.trans hblk)
    have hnodup := nodup_block hwalk (mem_of_getElem? hblk)
    have hmem : p ∈ v :: rest := by
      have hgetLast := congrArg List.getLast? heq
      rw [getLast?_append, getLast?_singleton, Option.some_or, getLast?_append,
        getLast?_cons_cons] at hgetLast
      cases hlast' : (v :: rest).getLast? with
      | none => simp at hlast'
      | some q =>
        rw [hlast', Option.some_or] at hgetLast
        cases hgetLast
        exact mem_of_getLast? hlast'
    exact absurd hmem (nodup_cons.mp (nodup_append.mp hnodup).2.1).1

include h hwalk in
theorem last_of_pred {k : ℕ} {u v : ν} (hv : firstOf blocks k = some v) (hedge : Edge g.succs u v) :
    ∃ i, resolved u = some i ∧ lastOf blocks i = some u := by
  obtain ⟨i, front, rest, hi, hblk⟩ := exists_block h hwalk (source_mem_nodes hedge)
  refine ⟨i, hi, ?_⟩
  cases rest with
  | nil => exact lastOf_eq_some.mpr ⟨front, hblk⟩
  | cons q rest =>
    -- the node behind it is `v`, which begins the block
    obtain ⟨⟨l, hl⟩, -⟩ := joined_of_block hwalk hblk
    rw [Edge, EdgeHolder.succs, hl] at hedge
    cases mem_singleton.mp hedge
    obtain ⟨rest', hfirst⟩ := firstOf_eq_some.mp hv
    have hk := resolved_of_mem hwalk hfirst mem_cons_self
    have hmem : q ∈ front ++ u :: q :: rest := mem_append_right _ (mem_cons_of_mem _ mem_cons_self)
    cases hk.symm.trans (resolved_of_mem hwalk hblk hmem)
    have heq := Option.some.inj (hfirst.symm.trans hblk)
    have hnodup := nodup_block hwalk (mem_of_getElem? hfirst)
    have htail : q ∈ rest' := by
      cases front with
      | nil =>
        cases heq
        exact mem_cons_self
      | cons x front =>
        cases heq
        exact mem_append_right _ (mem_cons_of_mem _ mem_cons_self)
    exact absurd htail (nodup_cons.mp hnodup).1

theorem count_led {ends : ℕ → Option ν} {edges : List (ν × ℤ)}
    (hedges : ∀ e ∈ edges, ∃ k, resolved e.1 = some k ∧ ends k = some e.1)
    (hends : ∀ k v, ends k = some v → resolved v = some k) (k : ℕ) (l : ℤ) :
    (edges.map fun e => ((resolved e.1).getD 0, e.2)).count (k, l) =
      (ends k).elim 0 fun v => edges.count (v, l) := by
  rw [count_eq_countP, countP_map]
  cases hk : ends k with
  | none =>
    refine countP_eq_zero.mpr fun e he heq => ?_
    obtain ⟨k', hk', hend⟩ := hedges e he
    simp only [Function.comp, hk', Option.getD_some, beq_iff_eq, Prod.mk.injEq] at heq
    rw [heq.1, hk] at hend
    cases hend
  | some v =>
    rw [Option.elim_some, count_eq_countP]
    refine countP_congr fun e he => ?_
    obtain ⟨k', hk', hend⟩ := hedges e he
    simp only [Function.comp, hk', Option.getD_some, beq_iff_eq]
    constructor
    · intro heq
      cases heq
      rw [Option.some.inj (hk.symm.trans hend)]
    · rintro rfl
      rw [Option.some.inj (hk'.symm.trans (hends k v hk))]

omit [DecidableEq ν] in
include hwalk in
theorem resolved_of_first (hv : firstOf blocks k = some v) : resolved v = some k := by
  obtain ⟨rest, hblk⟩ := firstOf_eq_some.mp hv
  exact resolved_of_mem hwalk hblk mem_cons_self

omit [DecidableEq ν] in
include hwalk in
theorem resolved_of_last (hu : lastOf blocks i = some u) : resolved u = some i := by
  obtain ⟨front, hblk⟩ := lastOf_eq_some.mp hu
  exact resolved_of_mem hwalk hblk (mem_append_right _ mem_cons_self)

include h hwalk in
theorem converse_blockGraph : (blockGraph g resolved (blocks.map List.getLast?)).Converse
    (blockGraph r resolved (blocks.map List.head?)) := by
  intro i k l
  have hforward : ∀ u, lastOf blocks i = some u → ∀ e ∈ g.neighbors u,
      ∃ k, resolved e.1 = some k ∧ firstOf blocks k = some e.1 :=
    fun u hu e he => first_of_succ h hwalk hu (mem_map_of_mem he)
  have hbackward : ∀ v, firstOf blocks k = some v → ∀ e ∈ r.neighbors v,
      ∃ i, resolved e.1 = some i ∧ lastOf blocks i = some e.1 :=
    fun v hv e he => last_of_pred h hwalk hv (mem_map_of_mem (h.converse.mem.mp he))
  have hfirst := fun k v (hv : firstOf blocks k = some v) => resolved_of_first hwalk hv
  have hlast := fun i u (hu : lastOf blocks i = some u) => resolved_of_last hwalk hu
  show (((firstOf blocks k).elim [] r.neighbors).map _).count (i, l) =
    (((lastOf blocks i).elim [] g.neighbors).map _).count (k, l)
  cases hu : lastOf blocks i with
  | none =>
    cases hv : firstOf blocks k with
    | none => rfl
    | some v =>
      rw [Option.elim_some, count_led (hbackward v hv) hlast, hu]
      rfl
  | some u =>
    rw [Option.elim_some, count_led (hforward u hu) hfirst]
    cases hv : firstOf blocks k with
    | none => rfl
    | some v =>
      rw [Option.elim_some, count_led (hbackward v hv) hlast, hu]
      exact h.converse u v l

section Words

variable (instr : ν → ι)

omit [DecidableEq ν] in
theorem words_along {chain : List ν} (hchain : (n :: chain).IsChain (Joined g r))
    (hlast : (n :: chain).getLast? = some u) :
    (g.succs u = [] → (n :: chain).map instr ∈ Words g.succs (fun n => [instr n]) n) ∧
      ∀ v s, Edge g.succs u v → s ∈ Words g.succs (fun n => [instr n]) v →
        (n :: chain).map instr ++ s ∈ Words g.succs (fun n => [instr n]) n := by
  induction chain generalizing n with
  | nil =>
    have hu : n = u := Option.some.inj hlast
    subst hu
    constructor
    · intro hstop
      rw [words_of_stop hstop]
      rfl
    · intro v s hedge hs
      have hword : [instr n] ++ s ∈ Words g.succs (fun n => [instr n]) n :=
        mem_words_of_step hedge hs
      exact hword
  | cons m chain ih =>
    obtain ⟨hjoined, hrest⟩ := isChain_cons_cons.mp hchain
    rw [getLast?_cons_cons] at hlast
    obtain ⟨hstop, hstep⟩ := ih hrest hlast
    constructor
    · intro hnil
      have hword : [instr n] ++ (m :: chain).map instr ∈ Words g.succs (fun n => [instr n]) n :=
        mem_words_of_step hjoined.edge (hstop hnil)
      exact hword
    · intro v s hedge hs
      have hword : [instr n] ++ ((m :: chain).map instr ++ s) ∈
          Words g.succs (fun n => [instr n]) n :=
        mem_words_of_step hjoined.edge (hstep v s hedge hs)
      exact hword

omit [DecidableEq ν] in
theorem succs_blockGraph (hu : lastOf blocks i = some u) :
    (blockGraph g resolved (blocks.map List.getLast?)).succs i =
      (g.succs u).map fun v => (resolved v).getD 0 := by
  have hneighbors : (blockGraph g resolved (blocks.map List.getLast?)).neighbors i =
      (g.neighbors u).map fun e => ((resolved e.1).getD 0, e.2) := by
    show ((lastOf blocks i).elim [] g.neighbors).map _ = _
    rw [hu]
    rfl
  rw [EdgeHolder.succs, hneighbors, EdgeHolder.succs, map_map, map_map]
  rfl

abbrev wordOf (blocks : List (List ν)) (i : ℕ) : List ι := (blocks[i]?.getD []).map instr

omit [DecidableEq ν] in
theorem exists_last {rest : List ν} (hblk : blocks[i]? = some (n :: rest)) :
    ∃ u, (n :: rest).getLast? = some u ∧ lastOf blocks i = some u := by
  refine ⟨(n :: rest).getLast (cons_ne_nil _ _), getLast?_eq_some_getLast _, ?_⟩
  rw [lastOf, getElem?_map, hblk, Option.map_some, getLast?_eq_some_getLast, Option.join_some]

include h hwalk in
theorem words_of_blocks (hn : firstOf blocks i = some n)
    (hs : s ∈ Words (blockGraph g resolved (blocks.map List.getLast?)).succs
      (wordOf instr blocks) i) :
    s ∈ Words g.succs (fun n => [instr n]) n := by
  refine words_of_relation (R := fun i n => firstOf blocks i = some n) ?_ ?_ hn hs
  · intro i n hn hstop
    obtain ⟨rest, hblk⟩ := firstOf_eq_some.mp hn
    obtain ⟨u, hlast, hu⟩ := exists_last hblk
    rw [succs_blockGraph hu, map_eq_nil_iff] at hstop
    have hword := (words_along instr (hwalk.chains _ (mem_of_getElem? hblk)) hlast).1 hstop
    rw [wordOf, hblk]
    exact hword
  · intro i n k s hn hedge ih
    obtain ⟨rest, hblk⟩ := firstOf_eq_some.mp hn
    obtain ⟨u, hlast, hu⟩ := exists_last hblk
    rw [Edge, succs_blockGraph hu] at hedge
    obtain ⟨v, hv, rfl⟩ := mem_map.mp hedge
    obtain ⟨k, hk, hfirst⟩ := first_of_succ h hwalk hu hv
    rw [hk, Option.getD_some] at ih
    have hword := (words_along instr (hwalk.chains _ (mem_of_getElem? hblk)) hlast).2 v s hv
      (ih v hfirst)
    rw [wordOf, hblk]
    exact hword

include h hwalk in
theorem blocks_of_words {n w : ν} {s : List ι}
    (hs : Reads g.succs (fun n => [instr n]) n s w) {i : ℕ}
    {front rest : List ν} (hblk : blocks[i]? = some (front ++ n :: rest)) :
    front.map instr ++ s ∈
      Words (blockGraph g resolved (blocks.map List.getLast?)).succs (wordOf instr blocks) i := by
  have hword : wordOf instr blocks i = (front ++ n :: rest).map instr := by
    rw [wordOf, hblk]
    rfl
  induction hs generalizing i front rest with
  | @stop n hstop =>
    cases rest with
    | cons q rest =>
      have hedge := (joined_of_block hwalk hblk).edge
      rw [Edge, hstop] at hedge
      cases hedge
    | nil =>
      have hu : lastOf blocks i = some n := lastOf_eq_some.mpr ⟨front, hblk⟩
      rw [words_of_stop (by rw [succs_blockGraph hu, hstop, map_nil]), hword, map_append]
      rfl
  | @step n v w s hedge hread ih =>
    cases rest with
    | cons q rest =>
      obtain ⟨⟨l, hl⟩, -⟩ := joined_of_block hwalk hblk
      rw [Edge, EdgeHolder.succs, hl] at hedge
      cases mem_singleton.mp hedge
      have hnext : blocks[i]? = some ((front ++ [n]) ++ q :: rest) := by
        rw [append_assoc]
        exact hblk
      have hrest := ih hnext (by rw [hword, append_assoc]; rfl)
      rw [map_append, append_assoc] at hrest
      exact hrest
    | nil =>
      have hu : lastOf blocks i = some n := lastOf_eq_some.mpr ⟨front, hblk⟩
      obtain ⟨k, hk, hfirst⟩ := first_of_succ h hwalk hu hedge
      obtain ⟨rest, hnext⟩ := firstOf_eq_some.mp hfirst
      have hrest : s ∈ _ := ih (show blocks[k]? = some ([] ++ v :: rest) from hnext)
        (by rw [wordOf, hnext]; rfl)
      have hstep : Edge (blockGraph g resolved (blocks.map List.getLast?)).succs i k := by
        rw [Edge, succs_blockGraph hu]
        exact mem_map.mpr ⟨v, hedge, by rw [hk, Option.getD_some]⟩
      have hall := mem_words_of_step hstep hrest
      rw [hword, map_append, append_assoc] at hall
      exact hall

end Words

include h hwalk in
theorem first_start : ∃ i, resolved start = some i ∧ firstOf blocks i = some start := by
  obtain ⟨i, front, rest, hi, hblk⟩ := exists_block h hwalk (start_mem_nodes start)
  refine ⟨i, hi, ?_⟩
  rcases eq_nil_or_concat front with rfl | ⟨front, p, rfl⟩
  · exact firstOf_eq_some.mpr ⟨rest, hblk⟩
  · rw [concat_eq_append, append_assoc, singleton_append] at hblk
    exact absurd (joined_of_block hwalk hblk).edge (h.not_edge_start p)

end Result

omit [DecidableEq ν] in
theorem walking_start (g r : EdgeHolder ν) (start : ν) :
    Walking g r start (fun _ => none) [] [start] where
  index n i := by simp
  nodup := nodup_singleton start
  origin n hn := Or.inl (mem_singleton.mp hn)
  closed u hu := by cases hu
  chains blk hblk := by cases hblk
  single n hn := by cases hn
  start_mem := mem_cons_self

/-- Every node is in exactly one block, no node is processed twice, the words along the paths
from the start stay, and the second graph is the converse of the first. -/
theorem basicBlocks_formed (g r : EdgeHolder ν) (start : ν) (h : IsInput g r start) :
    ∃ out, basicBlocks g r start = some out ∧ Formed g start out := by
  have hall : unresolved g start (fun _ => none) ≤ (g.nodes start).card := Finset.card_filter_le _ _
  obtain ⟨w, hw, hwalk⟩ :=
    walk_spec (w := ⟨fun _ => none, [], [start]⟩) h (walking_start g r start) hall hall
  refine ⟨_, by rw [basicBlocks, hw, Option.map_some], ?_⟩
  obtain ⟨i, hi, hfirst⟩ := first_start h hwalk
  refine ⟨mem_blocks_iff h hwalk, (nodup_append.mp hwalk.nodup).1, fun ι instr => ?_,
    converse_blockGraph h hwalk⟩
  show Words (blockGraph g w.resolved _).succs (wordOf instr w.blocks)
    ((w.resolved start).getD 0) = _
  rw [hi, Option.getD_some]
  refine Set.Subset.antisymm (fun s hs => words_of_blocks h hwalk instr hfirst hs) ?_
  rintro s ⟨v, hs⟩
  obtain ⟨rest, hblk⟩ := firstOf_eq_some.mp hfirst
  exact blocks_of_words h hwalk instr hs (show w.blocks[i]? = some ([] ++ start :: rest) from hblk)

namespace Diamond

def holder : EdgeHolder ℕ where
  keys := [0, 1, 2, 3]
  neighbors := fun
    | 0 => [(1, 1), (2, 0)]
    | 1 | 2 => [(3, 1)]
    | 3 => [(4, 0)]
    | _ => []
  outside n h := by
    match n with
    | 0 | 1 | 2 | 3 => simp at h
    | _ + 4 => rfl

theorem isInput : IsInput holder holder.reverse 0 where
  acyclic := acyclic_of_lt (EdgeHolder.forall_edge (by decide))
  reached := forall_reach (by decide)
  uncritical u v hmany hv := by
    have hkeys : ∀ u ∈ holder.keys, ∀ v ∈ holder.succs u, 1 < (holder.neighbors u).length →
        (holder.succs u).count v = 1 ∧ ∀ w ∈ holder.keys, v ∈ holder.succs w → w = u := by decide
    obtain ⟨hcount, honly⟩ := EdgeHolder.forall_edge hkeys u v hv hmany
    exact ⟨hcount, fun w hw => honly w (EdgeHolder.source_mem_keys hw) hw⟩
  converse := converse_reverse (by decide)

end Diamond

theorem diamond_formed : IsInput Diamond.holder Diamond.holder.reverse 0 ∧
    ∃ out, basicBlocks Diamond.holder Diamond.holder.reverse 0 = some out ∧
      Formed Diamond.holder 0 out :=
  ⟨Diamond.isInput, basicBlocks_formed Diamond.holder Diamond.holder.reverse 0 Diamond.isInput⟩

end BlockFormation
