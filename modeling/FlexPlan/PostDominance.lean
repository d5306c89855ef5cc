import FlexPlan.DomFrontier

/-!
# Post-dominance with a temporary end

`pdom_frontier` adds a node behind all nodes without successors to both graphs, computes dominance
frontiers of the reversed graph from there, and takes the node out again.
-/
namespace PostDominance

open FlowGraph CfgAlgos Dominance DomFrontier List Function EdgeHolder

variable {ν : Type}

section Exits

variable (succs : ν → List ν) (last : ν)

/-- The nodes of a path to the last node, which follows the nodes without successors. -/
inductive Exit : ν → List ν → Prop where
  | last : Exit last [last]
  | stop {u : ν} (hu : u ≠ last) (h : succs u = []) : Exit u [u, last]
  | step {u v : ν} {nodes : List ν} (hedge : Edge succs u v) (h : Exit v nodes) : Exit u
    (u :: nodes)

def PostDominates (n m : ν) : Prop := ∀ nodes, Exit succs last m nodes → n ∈ nodes

def StrictlyPostDominates (n m : ν) : Prop := PostDominates succs last n m ∧ n ≠ m

def ImmediatelyPostDominates (n m : ν) : Prop :=
  StrictlyPostDominates succs last n m ∧
    ∀ k, StrictlyPostDominates succs last k m → PostDominates succs last k n

def Follows (m s : ν) : Prop := Edge succs m s ∨ (m ≠ last ∧ succs m = [] ∧ s = last)

def InPostFrontier (n m : ν) : Prop :=
  (∃ s, Follows succs last m s ∧ PostDominates succs last n s) ∧
    ¬StrictlyPostDominates succs last n m

end Exits

section Order

variable {succs : ν → List ν} {last n m k x s : ν} {nodes : List ν}

theorem Exit.head_mem (h : Exit succs last m nodes) : m ∈ nodes := by
  cases h with
  | last | stop _ _ | step _ _ => exact mem_cons_self

theorem Exit.last_mem (h : Exit succs last m nodes) : last ∈ nodes := by
  induction h with
  | last => exact mem_cons_self
  | stop _ _ => exact mem_cons_of_mem _ mem_cons_self
  | step _ _ ih => exact mem_cons_of_mem _ ih

theorem postDominates_refl : PostDominates succs last n n := fun _ h => h.head_mem

theorem postDominates_last : PostDominates succs last last n := fun _ h => h.last_mem

theorem Exit.exists_from (h : Exit succs last m nodes) (hn : n ∈ nodes) :
    ∃ rest, Exit succs last n rest ∧ rest ⊆ nodes := by
  induction h with
  | last =>
    rw [mem_singleton.mp hn]
    exact ⟨_, .last, fun _ hx => hx⟩
  | stop hu hsuccs =>
    rcases mem_cons.mp hn with rfl | hn
    · exact ⟨_, .stop hu hsuccs, fun _ hx => hx⟩
    · rw [mem_singleton.mp hn]
      exact ⟨_, .last, fun _ hx => mem_cons_of_mem _ hx⟩
  | step hedge hexit ih =>
    rcases mem_cons.mp hn with rfl | hn
    · exact ⟨_, .step hedge hexit, fun _ hx => hx⟩
    · obtain ⟨rest, hrest, hsub⟩ := ih hn
      exact ⟨rest, hrest, fun _ hx => mem_cons_of_mem _ (hsub hx)⟩

theorem PostDominates.trans (hnm : PostDominates succs last n m)
    (hmk : PostDominates succs last m k) :
    PostDominates succs last n k := by
  intro nodes hnodes
  obtain ⟨rest, hrest, hsub⟩ := hnodes.exists_from (hmk nodes hnodes)
  exact hsub (hnm rest hrest)

theorem PostDominates.edge (h : PostDominates succs last n m) (hne : n ≠ m)
    (hedge : Edge succs m s) :
    PostDominates succs last n s :=
  fun _ hexit => (mem_cons.mp (h _ (.step hedge hexit))).resolve_left hne

theorem postDominates_of_edges (hm : m ≠ last) (hsome : succs m ≠ [])
    (h : ∀ s, Edge succs m s → PostDominates succs last n s) : PostDominates succs last n m := by
  intro nodes hexit
  cases hexit with
  | last => exact absurd rfl hm
  | stop _ hsuccs => exact absurd hsuccs hsome
  | step hedge hexit => exact mem_cons_of_mem _ (h _ hedge _ hexit)

theorem PostDominates.total (hexit : Exit succs last x nodes) (hn : PostDominates succs last n x)
    (hk : PostDominates succs last k x) :
    PostDominates succs last n k ∨ PostDominates succs last k n := by
  induction hexit with
  | last =>
    rw [mem_singleton.mp (hn _ .last)]
    exact Or.inl postDominates_last
  | stop hu hsuccs =>
    rcases mem_cons.mp (hn _ (.stop hu hsuccs)) with rfl | hn
    · exact Or.inr hk
    · rw [mem_singleton.mp hn]
      exact Or.inl postDominates_last
  | @step u v nodes hedge _ ih =>
    by_cases hnu : n = u
    · rw [hnu]
      exact Or.inr hk
    · by_cases hku : k = u
      · rw [hku]
        exact Or.inl hn
      · exact ih (PostDominates.edge hn hnu hedge) (PostDominates.edge hk hku hedge)

theorem Exit.reach (h : Exit succs last m nodes) (hn : n ∈ nodes) (hne : n ≠ last) :
    Reach succs m n := by
  induction h with
  | last => exact absurd (mem_singleton.mp hn) hne
  | stop _ _ =>
    rcases mem_cons.mp hn with rfl | hn
    · exact .refl
    · exact absurd (mem_singleton.mp hn) hne
  | step hedge _ ih =>
    rcases mem_cons.mp hn with rfl | hn
    · exact .refl
    · exact (ih hn).head hedge

end Order

section Model

/-- The order in which a set is iterated. -/
structure Iteration (ν : Type) where
  arrange : List ν → List ν
  perm : ∀ l, (arrange l).Perm l

variable [DecidableEq ν]

/-- `graph.erase(n)`. -/
def erase (g : EdgeHolder ν) (n : ν) : EdgeHolder ν where
  keys := g.keys.filter (· ≠ n)
  neighbors := update g.neighbors n []
  outside m hm := by
    by_cases heq : m = n
    · rw [heq, update_self]
    · rw [update_of_ne heq]
      exact g.outside m fun hkey => hm (List.mem_filter.mpr ⟨hkey, decide_eq_true heq⟩)

def ends (order : Iteration ν) (g : EdgeHolder ν) (start : ν) : List ν :=
  order.arrange ((traverseDf g start).filter fun n => (g.neighbors n).isEmpty).dedup

def makeArtificialEnd (order : Iteration ν) (g r : EdgeHolder ν) (start artificial : ν) :
    EdgeHolder ν × EdgeHolder ν :=
  ((ends order g start).foldl (fun g e => g.push e (artificial, 0)) g,
    (ends order g start).foldl (fun r e => r.push artificial (e, 0)) r)

def dropEnd (artificial : ν) (g : EdgeHolder ν) (x : ν × ℤ) : EdgeHolder ν :=
  let rest := (g.neighbors x.1).filter fun y => y.1 ≠ artificial
  if rest = [] then erase g x.1 else g.assign x.1 rest

/-- The destructor of `WithArtificialEnd`. -/
def restore (artificial : ν) (g r : EdgeHolder ν) : EdgeHolder ν × EdgeHolder ν :=
  ((r.neighbors artificial).foldl (dropEnd artificial) g, erase r artificial)

def pdomFrontier (order : Iteration ν) (g r : EdgeHolder ν) (start artificial : ν) :
    Option (Output ν × EdgeHolder ν × EdgeHolder ν) :=
  let extended := makeArtificialEnd order g r start artificial
  (domFrontier extended.2 extended.1 artificial).map fun out =>
    (out, restore artificial extended.1 extended.2)

end Model

section Specification

variable [DecidableEq ν]

/-- The graphs the function is meant for, and a new node. -/
structure IsInput (g r : EdgeHolder ν) (start artificial : ν) : Prop where
  acyclic : Acyclic g.succs
  reached : ∀ n ∈ g.nodes start, Reach g.succs start n
  converse : g.Converse r
  rkeys : ∀ n ∈ r.keys, n ∈ g.nodes start
  fresh : artificial ∉ g.nodes start

structure IsPostFrontier (g : EdgeHolder ν) (start artificial : ν) (out : Output ν) : Prop where
  children : ∀ n m, m ∈ out.children n ↔
    m ∈ g.nodes start ∧ ImmediatelyPostDominates g.succs artificial n m
  once : ∀ n, (out.children n).Nodup
  domf : ∀ n m, m ∈ out.domf.succs n ↔ InPostFrontier g.succs artificial n m

end Specification

section Editing

variable [DecidableEq ν]

theorem neighbors_foldl_dropEnd (artificial : ν) (xs : List (ν × ℤ)) (g : EdgeHolder ν) (n : ν) :
    (xs.foldl (dropEnd artificial) g).neighbors n =
      if n ∈ xs.map Prod.fst then (g.neighbors n).filter
        (fun y => y.1 ≠ artificial) else g.neighbors n := by
  induction xs generalizing g with
  | nil => simp
  | cons x xs ih =>
    have hdrop : (dropEnd artificial g x).neighbors =
        update g.neighbors x.1 ((g.neighbors x.1).filter fun y => y.1 ≠ artificial) := by
      by_cases hnil : (g.neighbors x.1).filter (fun y => y.1 ≠ artificial) = []
      · rw [dropEnd, if_pos hnil, hnil]
        rfl
      · rw [dropEnd, if_neg hnil]
        rfl
    rw [foldl_cons, ih, hdrop, map_cons]
    by_cases hn : n = x.1
    · subst hn
      simp [filter_filter]
    · simp only [update_of_ne hn, mem_cons, hn, false_or]

variable {order : Iteration ν} {g r : EdgeHolder ν} {start artificial : ν}

theorem keys_foldl_enter (es : List ν) (r : EdgeHolder ν) :
    n ∈ (es.foldl (fun r e => r.push artificial (e, 0)) r).keys ↔
      n ∈ r.keys ∨ (es ≠ [] ∧ n = artificial) := by
  induction es generalizing r with
  | nil => simp
  | cons e es ih =>
    have hpush : n ∈ (r.push artificial (e, 0)).keys ↔ n = artificial ∨ n ∈ r.keys :=
      mem_keys_touch r
    rw [foldl_cons, ih, hpush]
    simp only [ne_eq, cons_ne_nil, not_false_eq_true, true_and]
    tauto

end Editing

section Extended

variable [DecidableEq ν] {order : Iteration ν} {g r : EdgeHolder ν} {start artificial : ν}

theorem mem_ends : n ∈ ends order g start ↔ Reach g.succs start n ∧ g.neighbors n = [] := by
  rw [ends, (order.perm _).mem_iff, List.mem_dedup, List.mem_filter, mem_traverseDf_iff,
    List.isEmpty_iff]

theorem nodup_ends : (ends order g start).Nodup := by
  rw [ends, (order.perm _).nodup_iff]
  exact nodup_dedup _

variable (h : IsInput g r start artificial)

include h

theorem IsInput.not_source (n : ν) : ¬Edge g.succs artificial n :=
  fun hedge => h.fresh (source_mem_nodes hedge)

theorem IsInput.not_target (n : ν) : ¬Edge g.succs n artificial :=
  fun hedge => h.fresh (target_mem_nodes hedge)

theorem IsInput.start_ne : start ≠ artificial := by
  rintro rfl
  exact h.fresh (start_mem_nodes start)

theorem IsInput.reverse_fresh : r.neighbors artificial = [] :=
  r.outside artificial fun hkey => h.fresh (h.rkeys artificial hkey)

theorem IsInput.artificial_not_end : artificial ∉ ends order g start := by
  intro hmem
  rcases Relation.ReflTransGen.cases_tail (mem_ends.mp hmem).1 with heq | ⟨u, -, hedge⟩
  · exact h.start_ne heq.symm
  · exact h.not_target u hedge

abbrev extended (order : Iteration ν) (g r : EdgeHolder ν) (start artificial : ν) :
    EdgeHolder ν × EdgeHolder ν :=
  makeArtificialEnd order g r start artificial

omit h in
theorem neighbors_extended (n : ν) : (extended order g r start artificial).1.neighbors n =
    if n ∈ ends order g start then [(artificial, 0)] else g.neighbors n := by
  refine (neighbors_foldl_push _ g n).trans ?_
  have hfilter : ((ends order g start).filter fun e => e = n) = replicate (count n _) n :=
    filter_beq n
  rw [hfilter]
  split_ifs with hmem
  · rw [(mem_ends.mp hmem).2, nil_append, count_eq_one_of_mem nodup_ends hmem]
    rfl
  · rw [count_eq_zero_of_not_mem hmem, replicate_zero, map_nil, append_nil]

theorem neighbors_reversed (n : ν) : (extended order g r start artificial).2.neighbors n =
    if n = artificial then (ends order g start).map (fun e => (e, 0)) else r.neighbors n := by
  refine (neighbors_foldl_push _ r n).trans ?_
  split_ifs with hn
  · simp [hn, h.reverse_fresh]
  · simp [Ne.symm hn]

theorem edge_reversed : Edge (extended order g r start artificial).2.succs u v ↔
    (u = artificial ∧ v ∈ ends order g start) ∨ Edge g.succs v u := by
  rw [Edge, EdgeHolder.succs, neighbors_reversed h]
  by_cases hu : u = artificial
  · subst hu
    rw [if_pos rfl, map_map]
    constructor
    · intro hmem
      obtain ⟨e, he, rfl⟩ := mem_map.mp hmem
      exact Or.inl ⟨rfl, he⟩
    · rintro (⟨-, hv⟩ | hedge)
      · exact mem_map.mpr ⟨v, hv, rfl⟩
      · exact absurd hedge (h.not_target v)
  · rw [if_neg hu]
    constructor
    · intro hmem
      obtain ⟨⟨v, l⟩, he, rfl⟩ := mem_map.mp hmem
      exact Or.inr (mem_map_of_mem (h.converse.mem.mp he))
    · rintro (⟨heq, -⟩ | hedge)
      · exact absurd heq hu
      · obtain ⟨⟨u, l⟩, he, rfl⟩ := mem_map.mp hedge
        exact mem_map_of_mem (f := Prod.fst) (h.converse.mem.mpr he)

theorem not_edge_artificial (u : ν) :
    ¬Edge (extended order g r start artificial).2.succs u artificial := by
  rw [edge_reversed h]
  rintro (⟨-, hmem⟩ | hedge)
  · exact h.artificial_not_end hmem
  · exact h.not_source u hedge

theorem converse_extended :
    (extended order g r start artificial).2.Converse (extended order g r start artificial).1 := by
  intro u v l
  rw [neighbors_extended, neighbors_reversed h]
  by_cases hu : u = artificial
  · subst hu
    rw [if_pos rfl]
    have hfresh : (g.neighbors v).count (u, l) = 0 :=
      count_eq_zero_of_not_mem fun hmem => h.not_target v (mem_map_of_mem hmem)
    have hcount : ((ends order g start).map fun e => (e, (0 : ℤ))).count (v, l) =
        if v ∈ ends order g start ∧ l = 0 then 1 else 0 := by
      have hnodup : ((ends order g start).map fun e => (e, (0 : ℤ))).Nodup :=
        nodup_ends.map fun a b heq => congrArg Prod.fst heq
      split
      · rename_i hcase
        exact count_eq_one_of_mem hnodup (mem_map.mpr ⟨v, hcase.1, by rw [hcase.2]⟩)
      · rename_i hcase
        refine count_eq_zero_of_not_mem fun hmem => hcase ?_
        obtain ⟨e, he, heq⟩ := mem_map.mp hmem
        cases heq
        exact ⟨he, rfl⟩
    rw [hcount]
    by_cases hv : v ∈ ends order g start
    · by_cases hl : l = 0
      · simp [hv, hl]
      · have hne : ((u, 0) : ν × ℤ) ≠ (u, l) := fun heq => hl (congrArg Prod.snd heq).symm
        simp [hv, hl, hne]
    · simp [hv, hfresh]
  · rw [if_neg hu]
    by_cases hv : v ∈ ends order g start
    · have hne : ((artificial, 0) : ν × ℤ) ≠ (u, l) := fun heq => hu (congrArg Prod.fst heq).symm
      have hnil := (mem_ends.mp hv).2
      rw [if_pos hv, count_cons_of_ne hne, count_nil, h.converse v u l, hnil, count_nil]
    · rw [if_neg hv, h.converse v u l]

theorem acyclic_extended : Acyclic (extended order g r start artificial).2.succs := by
  have hback : ∀ {u v}, Relation.TransGen (Edge (extended order g r start artificial).2.succs) u v →
      u ≠ artificial → v ≠ artificial ∧ Relation.TransGen (Edge g.succs) v u := by
    intro u v huv hu
    induction huv with
    | single hedge =>
      refine ⟨fun heq => not_edge_artificial h u (heq ▸ hedge), .single ?_⟩
      exact ((edge_reversed h).mp hedge).resolve_left fun hc => hu hc.1
    | tail _ hedge ih =>
      refine ⟨fun heq => not_edge_artificial h _ (heq ▸ hedge), .head ?_ ih.2⟩
      exact ((edge_reversed h).mp hedge).resolve_left fun hc => ih.1 hc.1
  intro u hcycle
  by_cases hu : u = artificial
  · subst hu
    obtain ⟨w, -, hedge⟩ := Relation.TransGen.tail'_iff.mp hcycle
    exact not_edge_artificial h w hedge
  · exact h.acyclic u (hback hcycle hu).2

theorem reach_extended (hn : n ∈ g.nodes start) :
    Reach (extended order g r start artificial).2.succs artificial n := by
  refine h.acyclic.induction (closed_nodes start)
    (P := fun n => Reach (extended order g r start artificial).2.succs artificial n) ?_ n hn
  intro u hu ih
  cases hsuccs : g.succs u with
  | nil =>
    have hend : u ∈ ends order g start := mem_ends.mpr ⟨h.reached u hu, map_eq_nil_iff.mp hsuccs⟩
    exact .single ((edge_reversed h).mpr (Or.inl ⟨rfl, hend⟩))
  | cons v vs =>
    have hedge : Edge g.succs u v := edge_of_succs hsuccs
    exact (ih v hedge).tail ((edge_reversed h).mpr (Or.inr hedge))

theorem mem_nodes_extended : n ∈ (extended order g r start artificial).2.nodes artificial ↔
    n = artificial ∨ n ∈ g.nodes start := by
  constructor
  · intro hn
    rcases Finset.mem_insert.mp hn with heq | hn
    · exact Or.inl heq
    rcases mem_append.mp (mem_toFinset.mp hn) with hkey | htarget
    · rcases (keys_foldl_enter _ r).mp hkey with hkey | ⟨-, heq⟩
      · exact Or.inr (h.rkeys n hkey)
      · exact Or.inl heq
    · obtain ⟨u, -, hedge⟩ := mem_flatMap.mp htarget
      rcases (edge_reversed h).mp hedge with ⟨-, hend⟩ | hedge
      · rcases Relation.ReflTransGen.cases_tail (mem_ends.mp hend).1 with rfl | ⟨w, -, hw⟩
        · exact Or.inr (start_mem_nodes _)
        · exact Or.inr (target_mem_nodes hw)
      · exact Or.inr (source_mem_nodes hedge)
  · rintro (rfl | hn)
    · exact start_mem_nodes _
    · have hreach : Reach (extended order g r start artificial).2.succs artificial n :=
        reach_extended h hn
      rcases Relation.ReflTransGen.cases_tail hreach with rfl | ⟨w, -, hw⟩
      · exact start_mem_nodes _
      · exact target_mem_nodes hw

theorem artificial_mem_keys : artificial ∈ (extended order g r start artificial).2.keys := by
  have hstart : Reach (extended order g r start artificial).2.succs artificial start :=
    reach_extended h (start_mem_nodes start)
  rcases Relation.ReflTransGen.cases_head hstart with heq | ⟨v, hedge, -⟩
  · exact absurd heq.symm h.start_ne
  · exact source_mem_keys hedge

theorem isInput_extended : DomFrontier.IsInput (extended order g r start artificial).2
    (extended order g r start artificial).1 artificial where
  acyclic := acyclic_extended h
  reached n hn := by
    rcases (mem_nodes_extended h).mp hn with rfl | hn
    · exact .refl
    · exact reach_extended h hn
  converse := converse_extended h

section

variable {m : ν} (hm : m = artificial ∨ m ∈ g.nodes start)

include hm

theorem path_iff_exit {nodes : List ν} :
    Path (extended order g r start artificial).2.succs artificial m nodes ↔
      Exit g.succs artificial m nodes := by
  constructor
  · intro hpath
    clear hm
    induction hpath with
    | start => exact .last
    | @step u v nodes hpath hedge ih =>
      rcases (edge_reversed h).mp hedge with ⟨rfl, hend⟩ | hedge'
      · -- nothing leads back to the artificial end
        have hnodes : nodes = [u] := by
          cases hpath with
          | start => rfl
          | step _ hlast => exact absurd hlast (not_edge_artificial h _)
        have hne : v ≠ u := fun heq => h.artificial_not_end (heq ▸ hend)
        rw [hnodes]
        exact .stop hne (map_eq_nil_iff.mpr (mem_ends.mp hend).2)
      · exact .step hedge' ih
  · intro hexit
    induction hexit with
    | last => exact .start
    | @stop u hu hstop =>
      have hend : u ∈ ends order g start :=
        mem_ends.mpr ⟨h.reached u (hm.resolve_left hu), map_eq_nil_iff.mp hstop⟩
      exact .step .start ((edge_reversed h).mpr (Or.inl ⟨rfl, hend⟩))
    | @step u v nodes hedge _ ih =>
      exact .step (ih (Or.inr (target_mem_nodes hedge))) ((edge_reversed h).mpr (Or.inr hedge))

theorem dominates_iff_post :
    Dominates (extended order g r start artificial).2.succs artificial n m ↔
      PostDominates g.succs artificial n m :=
  forall_congr' fun _ => imp_congr_left (path_iff_exit h hm)

theorem strictly_iff_post :
    StrictlyDominates (extended order g r start artificial).2.succs artificial n m ↔
      StrictlyPostDominates g.succs artificial n m :=
  and_congr_left' (dominates_iff_post h hm)

theorem mem_of_dominates
    (hdom : Dominates (extended order g r start artificial).2.succs artificial n m) :
    n = artificial ∨ n ∈ g.nodes start :=
  (mem_nodes_extended h).mp
    (mem_nodes_of_dominates (isInput_extended h) ((mem_nodes_extended h).mpr hm) hdom)

theorem immediately_iff_post :
    ImmediatelyDominates (extended order g r start artificial).2.succs artificial n m ↔
      ImmediatelyPostDominates g.succs artificial n m := by
  rw [ImmediatelyDominates, ImmediatelyPostDominates, strictly_iff_post h hm]
  refine and_congr_right fun hstrict => forall_congr' fun k => ?_
  have hdom : Dominates (extended order g r start artificial).2.succs artificial n m :=
    (dominates_iff_post h hm).mpr hstrict.1
  have hn := mem_of_dominates h hm hdom
  rw [strictly_iff_post h hm, dominates_iff_post h hn]

theorem edge_iff_follows :
    Edge (extended order g r start artificial).2.succs s m ↔ Follows g.succs artificial m s := by
  rw [edge_reversed h, Follows, or_comm]
  refine or_congr_right ⟨?_, ?_⟩
  · rintro ⟨rfl, hend⟩
    refine ⟨?_, map_eq_nil_iff.mpr (mem_ends.mp hend).2, rfl⟩
    rintro rfl
    exact h.artificial_not_end hend
  · rintro ⟨hne, hstop, rfl⟩
    exact ⟨rfl, mem_ends.mpr ⟨h.reached m (hm.resolve_left hne), map_eq_nil_iff.mp hstop⟩⟩

theorem frontier_iff_post :
    InFrontier (extended order g r start artificial).2.succs artificial n m ↔
      InPostFrontier g.succs artificial n m := by
  rw [InFrontier, InPostFrontier, strictly_iff_post h hm]
  refine and_congr_left' (exists_congr fun s => ?_)
  rw [edge_iff_follows h hm]
  refine and_congr_right fun hfollows => dominates_iff_post h ?_
  rcases hfollows with hedge | ⟨-, -, rfl⟩
  · exact Or.inr (target_mem_nodes hedge)
  · exact Or.inl rfl

end

theorem restore_extended : (restore artificial (extended order g r start artificial).1
    (extended order g r start artificial).2).1.neighbors = g.neighbors ∧
    (restore artificial (extended order g r start artificial).1
      (extended order g r start artificial).2).2.neighbors = r.neighbors := by
  constructor
  · funext n
    refine (neighbors_foldl_dropEnd artificial _ _ n).trans ?_
    rw [neighbors_reversed h, if_pos rfl, map_map, neighbors_extended]
    have hmem : n ∈ (ends order g start).map (Prod.fst ∘ fun e => (e, (0 : ℤ))) ↔
        n ∈ ends order g start := by
      simp
    by_cases hn : n ∈ ends order g start
    · rw [if_pos (hmem.mpr hn), if_pos hn, (mem_ends.mp hn).2]
      simp
    · rw [if_neg fun hc => hn (hmem.mp hc), if_neg hn]
  · funext n
    show update (extended order g r start artificial).2.neighbors artificial [] n = _
    by_cases hn : n = artificial
    · subst hn
      rw [update_self, h.reverse_fresh]
    · rw [update_of_ne hn, neighbors_reversed h, if_neg hn]

end Extended

section Branches

variable [DecidableEq ν] {order : Iteration ν} {g r g' r' : EdgeHolder ν}
  {start artificial n m : ν} {out : Output ν}

variable (h : pdomFrontier order g r start artificial = some (out, g', r'))

include h

theorem branches_of_pdomf (hm : m ∈ out.domf.succs n) : 1 < (g.neighbors m).length := by
  obtain ⟨out', hout, heq⟩ := Option.map_eq_some_iff.mp h
  cases heq
  have hmany := joins_of_domf hout hm
  rw [neighbors_extended] at hmany
  split at hmany
  · exact absurd hmany (Nat.lt_irrefl 1)
  · exact hmany

theorem sublist_restored (n : ν) : (g'.neighbors n).Sublist (g.neighbors n) := by
  obtain ⟨out', -, heq⟩ := Option.map_eq_some_iff.mp h
  cases heq
  show ((((extended order g r start artificial).2.neighbors artificial).foldl (dropEnd artificial)
    (extended order g r start artificial).1).neighbors n).Sublist _
  rw [neighbors_foldl_dropEnd, neighbors_extended]
  by_cases hn : n ∈ ends order g start
  · have hback : n ∈ ((extended order g r start artificial).2.neighbors artificial).map
        Prod.fst := by
      refine mem_map.mpr ⟨(n, 0), ?_, rfl⟩
      rw [extended, makeArtificialEnd, neighbors_foldl_push]
      simpa using Or.inr hn
    rw [if_pos hback, if_pos hn]
    simp
  · rw [if_neg hn]
    split_ifs
    · exact filter_sublist
    · exact .refl _

end Branches

section Result

variable [DecidableEq ν]

theorem mem_of_inPostFrontier {g : EdgeHolder ν} {start artificial n m : ν}
    (h : InPostFrontier g.succs artificial n m) : m ∈ g.nodes start := by
  obtain ⟨⟨s, hfollows, hdom⟩, hnot⟩ := h
  rcases hfollows with hedge | ⟨hne, -, rfl⟩
  · exact source_mem_nodes hedge
  · have hn : n = s := mem_singleton.mp (hdom _ .last)
    subst hn
    exact absurd ⟨fun _ hexit => hexit.last_mem, hne.symm⟩ hnot

/-- The tree and the frontiers of post-dominance are returned, and the graphs have their edges
again. -/
theorem pdomFrontier_spec (order : Iteration ν) (g r : EdgeHolder ν) (start artificial : ν)
    (h : IsInput g r start artificial) :
    ∃ out g' r', pdomFrontier order g r start artificial = some (out, g', r') ∧
      IsPostFrontier g start artificial out ∧ g'.neighbors = g.neighbors ∧
        r'.neighbors = r.neighbors := by
  have hinput : DomFrontier.IsInput (extended order g r start artificial).2
      (extended order g r start artificial).1 artificial := isInput_extended h
  obtain ⟨out, hout, hfrontier⟩ := exists_isFrontier hinput (artificial_mem_keys h)
  obtain ⟨hgraph, hreverse⟩ := @restore_extended ν _ order g r start artificial h
  refine ⟨out, _, _, ?_, ⟨fun n m => ?_, hfrontier.once, fun n m => ?_⟩, hgraph, hreverse⟩
  · rw [pdomFrontier, hout, Option.map_some]
  · rw [hfrontier.children n m, mem_nodes_extended h]
    constructor
    · rintro ⟨hm, himmediate⟩
      have hpost := (immediately_iff_post h hm).mp himmediate
      refine ⟨hm.resolve_left ?_, hpost⟩
      rintro rfl
      -- only the artificial end post-dominates itself
      exact hpost.1.2 (mem_singleton.mp (hpost.1.1 _ .last))
    · rintro ⟨hm, hpost⟩
      exact ⟨Or.inr hm, (immediately_iff_post h (Or.inr hm)).mpr hpost⟩
  · rw [hfrontier.domf n m]
    constructor
    · intro hin
      obtain ⟨⟨p, hedge, -⟩, -⟩ := id hin
      have hm := (mem_nodes_extended h).mp (target_mem_nodes hedge)
      exact (frontier_iff_post h hm).mp hin
    · intro hin
      exact (frontier_iff_post h (Or.inr (mem_of_inPostFrontier hin))).mpr hin

end Result

/-- The diamond with a new node 5. -/
theorem diamond_pdomFrontier :
    IsInput BlockFormation.Diamond.holder BlockFormation.Diamond.holder.reverse 0 5 ∧
    ∃ out g' r', pdomFrontier ⟨fun l => l, fun _ => .refl _⟩ BlockFormation.Diamond.holder
      BlockFormation.Diamond.holder.reverse 0 5 = some (out, g', r') ∧
      IsPostFrontier BlockFormation.Diamond.holder 0 5 out ∧
      g'.neighbors = BlockFormation.Diamond.holder.neighbors ∧
      r'.neighbors = BlockFormation.Diamond.holder.reverse.neighbors := by
  have hdiamond := BlockFormation.Diamond.isInput
  have hkeys : ∀ n ∈ BlockFormation.Diamond.holder.reverse.keys,
      n ∈ BlockFormation.Diamond.holder.nodes 0 := by
    decide
  have h : IsInput BlockFormation.Diamond.holder BlockFormation.Diamond.holder.reverse 0 5 :=
    ⟨hdiamond.acyclic, hdiamond.reached, hdiamond.converse, hkeys, by decide⟩
  exact ⟨h, pdomFrontier_spec _ _ _ 0 5 h⟩

end PostDominance
