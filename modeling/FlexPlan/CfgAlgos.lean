import FlexPlan.FlowGraph
import Mathlib.Algebra.Order.BigOperators.Group.Finset

/-!
# The graph algorithms of the analysis backend

An `EdgeHolder` maps a node to its outgoing edges. `topo_sort` and `traverse_df` meet exactly the
nodes that can be reached from the start.
-/
namespace CfgAlgos

open FlowGraph List

variable {ν : Type}

/-- A map from nodes to labelled edges, with its keys in the order of the map. -/
structure EdgeHolder (ν : Type) where
  keys : List ν
  neighbors : ν → List (ν × ℤ)
  outside : ∀ n, n ∉ keys → neighbors n = []

namespace EdgeHolder

variable (g : EdgeHolder ν)

def succs (n : ν) : List ν := (g.neighbors n).map Prod.fst

variable [DecidableEq ν]

def nodes (start : ν) : Finset ν := insert start (g.keys ++ g.keys.flatMap g.succs).toFinset

variable {g}

omit [DecidableEq ν] in
theorem source_mem_keys {u v : ν} (h : Edge g.succs u v) : u ∈ g.keys := by
  by_contra hkey
  rw [Edge, succs, g.outside u hkey] at h
  cases h

omit [DecidableEq ν] in
theorem forall_edge {P : ν → ν → Prop} (h : ∀ u ∈ g.keys, ∀ v ∈ g.succs u, P u v) (u v : ν)
    (hedge : Edge g.succs u v) : P u v := h u (source_mem_keys hedge) v hedge

theorem target_mem_nodes {start u v : ν} (h : Edge g.succs u v) : v ∈ g.nodes start := by
  refine Finset.mem_insert_of_mem (mem_toFinset.mpr (mem_append_right _ ?_))
  exact mem_flatMap.mpr ⟨u, source_mem_keys h, h⟩

variable (start : ν)

theorem closed_nodes : Closed g.succs (g.nodes start) := fun _ _ _ hv => target_mem_nodes hv

theorem start_mem_nodes : start ∈ g.nodes start := Finset.mem_insert_self _ _

theorem key_mem_nodes {start n : ν} (h : n ∈ g.keys) : n ∈ g.nodes start :=
  Finset.mem_insert_of_mem (mem_toFinset.mpr (mem_append_left _ h))

theorem source_mem_nodes {start u v : ν} (h : Edge g.succs u v) : u ∈ g.nodes start :=
  key_mem_nodes (source_mem_keys h)

theorem exists_reached : ∃ reached ⊆ g.nodes start, Closed g.succs reached ∧
    start ∈ reached ∧ ∀ n ∈ reached, Reach g.succs start n := by
  classical
  refine ⟨(g.nodes start).filter fun n => Reach g.succs start n, Finset.filter_subset _ _, ?_, ?_,
    fun n hn => (Finset.mem_filter.mp hn).2⟩
  · intro u hu v hv
    have hu := (Finset.mem_filter.mp hu).2
    exact Finset.mem_filter.mpr ⟨target_mem_nodes hv, hu.tail hv⟩
  · exact Finset.mem_filter.mpr ⟨start_mem_nodes start, .refl⟩

end EdgeHolder

section Postorder

/-- Visited nodes are sorted or on the stack, and a sorted node has its successors in
front of it unless they lead back to it. -/
structure SortInvariant (succs : ν → List ν) (nodes : Finset ν) (gray visited sorted : List ν) :
    Prop where
  origin : ∀ n ∈ visited, n ∈ nodes
  visited_iff : ∀ n, n ∈ visited ↔ n ∈ sorted ∨ n ∈ gray
  nodup : (gray ++ sorted).Nodup
  stack : gray.IsChain fun v u => Edge succs u v
  ordered : ∀ before u after, sorted = before ++ u :: after →
    ∀ w ∈ succs u, w ∈ before ∨ (w ∈ visited ∧ Reach succs w u)

variable {succs : ν → List ν} {nodes : Finset ν} {v : ν} {gray visited sorted : List ν}

theorem reach_of_stack (h : (v :: gray).IsChain fun v u => Edge succs u v) :
    ∀ w ∈ v :: gray, Reach succs w v := by
  induction gray generalizing v with
  | nil =>
    intro w hw
    rw [mem_singleton.mp hw]
  | cons u gray ih =>
    obtain ⟨hstep, hrest⟩ := isChain_cons_cons.mp h
    intro w hw
    rcases mem_cons.mp hw with rfl | hw
    · exact .refl
    · exact (ih hrest w hw).tail hstep

theorem SortInvariant.enter (h : SortInvariant succs nodes gray visited sorted) (hnode : v ∈ nodes)
    (hv : v ∉ visited) (hedge : ∀ u ∈ gray.head?, Edge succs u v) :
    SortInvariant succs nodes (v :: gray) (v :: visited) sorted where
  origin := forall_mem_cons.mpr ⟨hnode, h.origin⟩
  visited_iff n := by
    rw [mem_cons, mem_cons, h.visited_iff n]
    tauto
  nodup := by
    refine nodup_cons.mpr ⟨fun hmem => hv ?_, h.nodup⟩
    rw [h.visited_iff]
    exact (mem_append.mp hmem).symm
  stack := isChain_cons.mpr ⟨hedge, h.stack⟩
  ordered before u after heq w hw := by
    rcases h.ordered before u after heq w hw with hbefore | ⟨hvis, hreach⟩
    · exact Or.inl hbefore
    · exact Or.inr ⟨mem_cons_of_mem _ hvis, hreach⟩

theorem SortInvariant.leave (h : SortInvariant succs nodes (v :: gray) visited sorted)
    (hall : ∀ w ∈ succs v, w ∈ visited) :
    SortInvariant succs nodes gray visited (sorted ++ [v]) where
  origin := h.origin
  visited_iff n := by
    rw [h.visited_iff n, mem_append, mem_singleton, mem_cons]
    tauto
  nodup := by
    have hperm : (v :: gray ++ sorted).Perm (gray ++ (sorted ++ [v])) := by
      rw [← append_assoc]
      exact (perm_append_singleton v (gray ++ sorted)).symm
    exact hperm.nodup_iff.mp h.nodup
  stack := h.stack.tail
  ordered before u after heq w hw := by
    rcases eq_nil_or_concat after with rfl | ⟨after, x, rfl⟩
    · -- the node just left: what is not sorted yet is on the stack
      obtain ⟨rfl, rfl⟩ : sorted = before ∧ v = u := by
        simpa using append_inj' heq rfl
      have hvis := hall w hw
      rcases (h.visited_iff w).mp hvis with hsorted | hgray
      · exact Or.inl hsorted
      · exact Or.inr ⟨hvis, reach_of_stack h.stack w hgray⟩
    · rw [concat_eq_append, ← cons_append, ← append_assoc] at heq
      exact h.ordered before u after (append_inj' heq rfl).1 w hw

theorem sortInvariant_nil : SortInvariant succs nodes [] [] [] where
  origin := by simp
  visited_iff := by simp
  nodup := nodup_nil
  stack := .nil
  ordered before u after h := by simp at h

theorem SortInvariant.closed (h : SortInvariant succs nodes [] visited sorted) {u w : ν}
    (hu : u ∈ sorted) (hw : Edge succs u w) : w ∈ sorted := by
  obtain ⟨before, after, rfl⟩ := append_of_mem hu
  rcases h.ordered before u after rfl w hw with hbefore | ⟨hvis, -⟩
  · exact mem_append_left _ hbefore
  · exact ((h.visited_iff w).mp hvis).resolve_right (by simp)

end Postorder

variable [DecidableEq ν] (g : EdgeHolder ν)

section TopoSort

abbrev Sorting (ν : Type) := List ν × List ν

def topoSortUtil (fuel : ℕ) (v : ν) (s : Sorting ν) : Sorting ν :=
  search g.succs (fun _ sorted => sorted) (fun v sorted => sorted ++ [v]) fuel v s

def topoSort (start : ν) : List ν := (topoSortUtil g (g.nodes start).card start ([], [])).2

variable {g} {nodes : Finset ν}

theorem topoSortUtil_invariant {visited sorted : List ν}
    (h : SortInvariant g.succs nodes [] visited sorted) (hv : v ∉ visited)
    (hclosed : Closed g.succs nodes)
    (hnode : v ∈ nodes) (hfuel : nodes.card ≤ fuel) :
    let r := topoSortUtil g fuel v (visited, sorted)
    SortInvariant g.succs nodes [] r.1 r.2 ∧ v ∈ r.1 ∧ visited ⊆ r.1 := by
  refine search_rule (I := SortInvariant g.succs nodes) hclosed
    (fun v gray visited sorted h hnode hv hedge => h.enter hnode hv hedge)
    (fun v gray visited sorted h hall => h.leave hall) h hv hnode (by simp) ?_
  exact (Finset.card_le_card Finset.sdiff_subset).trans hfuel

theorem topoSort_invariant {start : ν} (hclosed : Closed g.succs nodes) (hnode : start ∈ nodes)
    (hsub : nodes ⊆ g.nodes start) :
    (∀ n ∈ topoSort g start, n ∈ nodes) ∧ start ∈ topoSort g start ∧
    (topoSort g start).Nodup ∧
      (∀ u ∈ topoSort g start, ∀ w, Edge g.succs u w → w ∈ topoSort g start) ∧
    ∀ before u after, topoSort g start = before ++ u :: after →
      ∀ w ∈ g.succs u, w ∈ before ∨ Reach g.succs w u := by
  obtain ⟨hinv, hstart, -⟩ :=
    topoSortUtil_invariant (g := g) (v := start) sortInvariant_nil (by simp)
    hclosed hnode (Finset.card_le_card hsub)
  have hmem : ∀ n, n ∈ topoSort g start ↔
      n ∈ (topoSortUtil g (g.nodes start).card start ([], [])).1 := by
    intro n
    rw [hinv.visited_iff n]
    simp [topoSort]
  refine ⟨fun n hn => hinv.origin n ((hmem n).mp hn), (hmem start).mpr hstart, hinv.nodup,
    fun u hu w hw => hinv.closed hu hw, fun before u after heq w hw => ?_⟩
  exact (hinv.ordered before u after heq w hw).imp_right And.right

theorem mem_topoSort_iff {start n : ν} : n ∈ topoSort g start ↔ Reach g.succs start n := by
  obtain ⟨reached, hsub, hclosed, hstart, hreach⟩ := EdgeHolder.exists_reached (g := g) start
  obtain ⟨hnodes, hmem, -, hsucc, -⟩ := topoSort_invariant hclosed hstart hsub
  constructor
  · exact fun hn => hreach n (hnodes n hn)
  · intro hn
    induction hn with
    | refl => exact hmem
    | tail _ hstep ih => exact hsucc _ ih _ hstep

theorem forall_reach {nodes : Finset ν} {u v : ν → ν} (h : ∀ n ∈ nodes, v n ∈ topoSort g (u n)) :
    ∀ n ∈ nodes, Reach g.succs (u n) (v n) :=
  fun n hn => mem_topoSort_iff.mp (h n hn)

def topoSortKeys (g : EdgeHolder ν) : List ν :=
  (g.keys.foldl (fun s p => if p ∈ s.1 then s
    else topoSortUtil g (g.keys ++ g.keys.flatMap g.succs).toFinset.card p s) ([], [])).2

theorem mem_nodes_of_key {start n : ν} (hstart : start ∈ g.keys) :
    n ∈ g.nodes start ↔ n ∈ (g.keys ++ g.keys.flatMap g.succs).toFinset := by
  rw [EdgeHolder.nodes, Finset.mem_insert]
  constructor
  · rintro (rfl | hn)
    · exact mem_toFinset.mpr (mem_append_left _ hstart)
    · exact hn
  · exact Or.inr

theorem foldl_topoSort (hclosed : Closed g.succs nodes) {fuel : ℕ} (hfuel : nodes.card ≤ fuel)
    {keys : List ν}
    (hkeys : ∀ n ∈ keys, n ∈ nodes) {s : Sorting ν} (h : SortInvariant g.succs nodes [] s.1 s.2) :
    let r := keys.foldl (fun s p => if p ∈ s.1 then s else topoSortUtil g fuel p s) s
    SortInvariant g.succs nodes [] r.1 r.2 ∧ (∀ n ∈ keys, n ∈ r.1) ∧ s.1 ⊆ r.1 := by
  induction keys generalizing s with
  | nil => exact ⟨h, fun n hn => absurd hn not_mem_nil, fun n hn => hn⟩
  | cons p keys ih =>
    obtain ⟨hp, hkeys⟩ := forall_mem_cons.mp hkeys
    rw [foldl_cons]
    by_cases hvisited : p ∈ s.1
    · rw [if_pos hvisited]
      obtain ⟨hinv, hall, hsub⟩ := ih hkeys h
      exact ⟨hinv, forall_mem_cons.mpr ⟨hsub hvisited, hall⟩, hsub⟩
    · rw [if_neg hvisited]
      obtain ⟨hinv', hmem, hsub'⟩ := topoSortUtil_invariant h hvisited hclosed hp hfuel
      obtain ⟨hinv, hall, hsub⟩ := ih hkeys hinv'
      exact ⟨hinv, forall_mem_cons.mpr ⟨hsub hmem, hall⟩, fun n hn => hsub (hsub' hn)⟩

theorem topoSortKeys_spec {start : ν} (hstart : start ∈ g.keys) (hacyclic : Acyclic g.succs) :
    (topoSortKeys g).Nodup ∧ (∀ n, n ∈ topoSortKeys g ↔ n ∈ g.nodes start) ∧
      ∀ before u after, topoSortKeys g = before ++ u :: after → ∀ w ∈ g.succs u, w ∈ before := by
  obtain ⟨hinv, hkeys, -⟩ := foldl_topoSort (g := g) (EdgeHolder.closed_nodes start)
    (Finset.card_le_card fun n hn => (mem_nodes_of_key hstart).mp hn)
    (fun n hn => EdgeHolder.key_mem_nodes hn) (s := ([], [])) sortInvariant_nil
  have hmem : ∀ n ∈ g.keys, n ∈ topoSortKeys g := by
    intro n hn
    exact ((hinv.visited_iff n).mp (hkeys n hn)).resolve_right not_mem_nil
  refine ⟨hinv.nodup, fun n => ⟨fun hn => ?_, fun hn => ?_⟩, fun before u after heq w hw => ?_⟩
  · exact hinv.origin n ((hinv.visited_iff n).mpr (Or.inl hn))
  · rcases mem_append.mp (mem_toFinset.mp ((mem_nodes_of_key hstart).mp hn)) with hn | hn
    · exact hmem n hn
    · obtain ⟨u, hu, hedge⟩ := mem_flatMap.mp hn
      exact hinv.closed (hmem u hu) hedge
  · rcases hinv.ordered before u after heq w hw with hbefore | ⟨-, hreach⟩
    · exact hbefore
    · exact absurd hw (hacyclic.not_edge_of_reach hreach)

end TopoSort

section Traverse

/-- The loop of `traverse_df`, with the top of the stack first and the processed nodes in
the order in which they are processed. -/
def traverseDfGo : ℕ → List ν → List ν → List ν
  | 0, _, visited => visited
  | _, [], visited => visited
  | k + 1, n :: stack, visited =>
    if n ∈ visited then traverseDfGo k stack visited
    else traverseDfGo k ((g.succs n).reverse ++ stack) (visited ++ [n])

def pushes (start : ν) : ℕ := 1 + ∑ n ∈ g.nodes start, (g.succs n).length

def traverseDf (start : ν) : List ν := traverseDfGo g (pushes g start) [start] []

variable {g}

theorem traverseDfGo_spec {start : ν} {nodes : Finset ν} (hnodes : nodes ⊆ g.nodes start)
    (hclosed : Closed g.succs nodes) (k : ℕ) (stack visited : List ν)
    (hfuel : stack.length + ∑ n ∈ g.nodes start \ visited.toFinset, (g.succs n).length ≤ k)
    (horigin : ∀ n ∈ stack ++ visited, n ∈ nodes)
    (hsucc : ∀ u ∈ visited, ∀ w, Edge g.succs u w → w ∈ stack ++ visited) :
    let r := traverseDfGo g k stack visited
    (∀ n ∈ r, n ∈ nodes) ∧ (∀ n ∈ stack ++ visited, n ∈ r) ∧
      ∀ u ∈ r, ∀ w, Edge g.succs u w → w ∈ r := by
  induction k generalizing stack visited with
  | zero =>
    obtain rfl : stack = [] := length_eq_zero_iff.mp (by omega)
    exact ⟨by simpa [traverseDfGo] using horigin, by simp [traverseDfGo],
      by simpa [traverseDfGo] using hsucc⟩
  | succ k ih =>
    cases stack with
    | nil =>
      exact ⟨by simpa [traverseDfGo] using horigin, by simp [traverseDfGo],
        by simpa [traverseDfGo] using hsucc⟩
    | cons n stack =>
      rw [length_cons] at hfuel
      simp only [traverseDfGo]
      by_cases hseen : n ∈ visited
      · rw [if_pos hseen]
        have hsame : ∀ w, w ∈ n :: stack ++ visited ↔ w ∈ stack ++ visited := by
          intro w
          rw [cons_append, mem_cons, or_iff_right_of_imp]
          rintro rfl
          exact mem_append_right _ hseen
        obtain ⟨h1, h2, h3⟩ := ih stack visited (by omega)
          (fun w hw => horigin w ((hsame w).mpr hw))
          (fun u hu w hw => (hsame w).mp (hsucc u hu w hw))
        exact ⟨h1, fun w hw => h2 w ((hsame w).mp hw), h3⟩
      · rw [if_neg hseen]
        have hn : n ∈ nodes := horigin n (by simp)
        have hsum : ∑ m ∈ g.nodes start \ visited.toFinset, (g.succs m).length =
            (g.succs n).length + ∑ m ∈ g.nodes start \ (visited ++ [n]).toFinset,
              (g.succs m).length := by
          have herase : g.nodes start \ (visited ++ [n]).toFinset =
              (g.nodes start \ visited.toFinset).erase n := by
            ext m
            simp only [Finset.mem_sdiff, mem_toFinset, mem_append, mem_singleton, Finset.mem_erase]
            tauto
          rw [herase]
          refine (Finset.add_sum_erase _ _ ?_).symm
          simp [hnodes hn, hseen]
        have hmem : ∀ w, w ∈ (g.succs n).reverse ++ stack ++ (visited ++ [n]) ↔
            Edge g.succs n w ∨ w ∈ n :: stack ++ visited := by
          intro w
          simp only [mem_append, mem_reverse, mem_cons, Edge]
          tauto
        obtain ⟨h1, h2, h3⟩ := ih ((g.succs n).reverse ++ stack) (visited ++ [n])
          (by rw [length_append, length_reverse]; omega)
          (fun w hw => ((hmem w).mp hw).elim (hclosed n hn w) (horigin w))
          (by
            intro u hu w hw
            rw [hmem]
            rcases mem_append.mp hu with hu | hu
            · exact Or.inr (hsucc u hu w hw)
            · rw [mem_singleton.mp hu] at hw
              exact Or.inl hw)
        exact ⟨h1, fun w hw => h2 w ((hmem w).mpr (Or.inr hw)), h3⟩

theorem nodup_traverseDfGo (k : ℕ) (stack visited : List ν) (h : visited.Nodup) :
    (traverseDfGo g k stack visited).Nodup := by
  induction k generalizing stack visited with
  | zero => simpa [traverseDfGo] using h
  | succ k ih =>
    cases stack with
    | nil => simpa [traverseDfGo] using h
    | cons n stack =>
      simp only [traverseDfGo]
      by_cases hseen : n ∈ visited
      · rw [if_pos hseen]
        exact ih stack visited h
      · rw [if_neg hseen, ← concat_eq_append]
        exact ih _ _ (h.concat hseen)

theorem nodup_traverseDf {start : ν} : (traverseDf g start).Nodup :=
  nodup_traverseDfGo _ _ _ nodup_nil

theorem mem_traverseDf_iff {start n : ν} : n ∈ traverseDf g start ↔ Reach g.succs start n := by
  obtain ⟨reached, hsub, hclosed, hstart, hreach⟩ := EdgeHolder.exists_reached (g := g) start
  obtain ⟨hnodes, hmem, hsucc⟩ := traverseDfGo_spec hsub hclosed (pushes g start) [start] []
    (by simp [pushes]) (by simpa using hstart) (by simp)
  constructor
  · exact fun hn => hreach n (hnodes n hn)
  · intro hn
    induction hn with
    | refl => exact hmem start (by simp)
    | tail _ hstep ih => exact hsucc _ ih _ hstep

end Traverse

section Editing

namespace EdgeHolder

def empty : EdgeHolder ν := ⟨[], fun _ => [], fun _ _ => rfl⟩

/-- `(*holder)[n]`, which creates a missing entry. New keys come last. -/
def touch (n : ν) : EdgeHolder ν where
  keys := if n ∈ g.keys then g.keys else g.keys ++ [n]
  neighbors := g.neighbors
  outside m hm := by
    refine g.outside m fun hmem => hm ?_
    split_ifs
    · exact hmem
    · exact mem_append_left _ hmem

theorem mem_keys_touch : m ∈ (g.touch n).keys ↔ m = n ∨ m ∈ g.keys := by
  simp only [touch]
  split_ifs with hn
  · constructor
    · exact Or.inr
    · rintro (rfl | h)
      · exact hn
      · exact h
  · rw [mem_append, mem_singleton]
    exact Or.comm

theorem nodup_touch (h : g.keys.Nodup) (n : ν) : (g.touch n).keys.Nodup := by
  simp only [touch]
  split_ifs with hn
  · exact h
  · rw [nodup_append]
    refine ⟨h, nodup_singleton n, ?_⟩
    rintro a ha b hb rfl
    exact hn (mem_singleton.mp hb ▸ ha)

def assign (n : ν) (edges : List (ν × ℤ)) : EdgeHolder ν where
  keys := (g.touch n).keys
  neighbors := Function.update g.neighbors n edges
  outside m hm := by
    have hne : m ≠ n := fun heq => hm (heq ▸ (g.mem_keys_touch).mpr (Or.inl rfl))
    rw [Function.update_of_ne hne]
    exact g.outside m fun hmem => hm ((g.mem_keys_touch).mpr (Or.inr hmem))

def push (n : ν) (edge : ν × ℤ) : EdgeHolder ν := g.assign n (g.neighbors n ++ [edge])

def reverse : EdgeHolder ν :=
  (g.keys.flatMap fun p => (g.neighbors p).map fun e => (p, e)).foldl
    (fun bw x => bw.push x.2.1 (x.1, x.2.2)) empty

def subgraph (filter : ν → Bool) : EdgeHolder ν where
  keys := g.keys.filter filter
  neighbors n := if filter n then (g.neighbors n).filter fun e => filter e.1 else []
  outside n hn := by
    split_ifs with hfilter
    · have hout : n ∉ g.keys := fun hmem => hn (mem_filter.mpr ⟨hmem, hfilter⟩)
      rw [g.outside n hout, filter_nil]
    · rfl

def removeDeadNodes (start : ν) (dead : ν → Bool) : EdgeHolder ν :=
  g.subgraph fun n => n ∈ traverseDf g start && !dead n

variable {g}

theorem neighbors_foldl_push {α : Type} {src : α → ν} {dst : α → ν × ℤ} (l : List α)
    (g : EdgeHolder ν) (n : ν) : (l.foldl (fun g a => g.push (src a) (dst a)) g).neighbors n =
      g.neighbors n ++ (l.filter fun a => src a = n).map dst := by
  induction l generalizing g with
  | nil => simp
  | cons a l ih =>
    rw [foldl_cons, ih]
    by_cases ha : src a = n
    · subst ha
      simp [push, assign]
    · simp [push, assign, Function.update_of_ne (Ne.symm ha), ha]

/-- The entries of the one graph are those of the other, turned around. -/
def Converse (g r : EdgeHolder ν) : Prop :=
  ∀ u v l, (r.neighbors v).count (u, l) = (g.neighbors u).count (v, l)

theorem count_turned (edges : List (ν × ℤ)) (u v : ν) (l : ℤ) :
    (((edges.filter fun e => e.1 = v).map fun e => (u, e.2)).count (u, l)) =
      edges.count (v, l) := by
  induction edges with
  | nil => rfl
  | cons e edges ih =>
    obtain ⟨w, m⟩ := e
    by_cases hw : w = v
    · subst hw
      simpa [count_cons] using ih
    · simpa [count_cons, hw] using ih

theorem converse_reverse (hkeys : g.keys.Nodup) : Converse g g.reverse := by
  intro u v l
  have hcount : ∀ ps : List ν, ps.Nodup →
      (((ps.flatMap fun p => (g.neighbors p).map fun e => (p, e)).filter fun x => x.2.1 = v).map
        fun x => (x.1, x.2.2)).count (u, l) =
        if u ∈ ps then (g.neighbors u).count (v, l) else 0 := by
    intro ps
    induction ps with
    | nil => simp
    | cons p ps ih =>
      intro hnodup
      obtain ⟨hp, hps⟩ := nodup_cons.mp hnodup
      have hone : ((((g.neighbors p).map fun e => (p, e)).filter fun x => x.2.1 = v).map
          fun x => (x.1, x.2.2)).count (u, l) =
          if p = u then (g.neighbors p).count (v, l) else 0 := by
        rw [filter_map, map_map]
        split_ifs with hpu
        · exact hpu ▸ count_turned _ _ _ _
        · refine count_eq_zero.mpr fun hmem => hpu ?_
          obtain ⟨e, -, he⟩ := mem_map.mp hmem
          exact congrArg Prod.fst he
      rw [flatMap_cons, filter_append, map_append, count_append, hone, ih hps]
      by_cases hpu : p = u
      · subst hpu
        simp [hp]
      · simp [hpu, Ne.symm hpu]
  rw [reverse, neighbors_foldl_push, empty, nil_append, hcount _ hkeys]
  split_ifs with hu
  · rfl
  · rw [g.outside u hu, count_nil]

theorem Converse.mem (h : Converse g r) : (u, l) ∈ r.neighbors v ↔ (v, l) ∈ g.neighbors u := by
  rw [← count_pos_iff, ← count_pos_iff, h u v l]

theorem Converse.symm (h : Converse g r) : Converse r g := fun u v l => (h v u l).symm

theorem Converse.edge_iff (h : Converse g r) : Edge r.succs v u ↔ Edge g.succs u v := by
  constructor
  · intro hedge
    obtain ⟨⟨u, l⟩, hmem, rfl⟩ := mem_map.mp hedge
    exact mem_map_of_mem (h.mem.mp hmem)
  · intro hedge
    obtain ⟨⟨v, l⟩, hmem, rfl⟩ := mem_map.mp hedge
    exact mem_map_of_mem (f := Prod.fst) (h.mem.mpr hmem)

theorem Converse.reach_iff (h : Converse g r) : Reach r.succs v u ↔ Reach g.succs u v := by
  constructor
  · intro hreach
    induction hreach with
    | refl => exact .refl
    | tail _ hedge ih => exact ih.head (h.edge_iff.mp hedge)
  · intro hreach
    induction hreach with
    | refl => exact .refl
    | tail _ hedge ih => exact ih.head (h.edge_iff.mpr hedge)

/-- A successor of a node with several edges is entered by one edge only. -/
def NoCriticalEdges (g : EdgeHolder ν) : Prop :=
  ∀ u v, 1 < (g.neighbors u).length → v ∈ g.succs u →
    (g.succs u).count v = 1 ∧ ∀ w, v ∈ g.succs w → w = u

section

omit [DecidableEq ν]

theorem succs_subgraph {filter : ν → Bool} (h : filter n = true) :
    (g.subgraph filter).succs n = (g.succs n).filter filter := by
  simp only [succs, subgraph, if_pos h, filter_map]
  rfl

theorem edge_subgraph {filter : ν → Bool} :
    Edge (g.subgraph filter).succs u v ↔ filter u = true ∧ filter v = true ∧ Edge g.succs u v := by
  by_cases hu : filter u = true
  · rw [Edge, succs_subgraph hu, mem_filter, Edge]
    tauto
  · have hnone : (g.subgraph filter).succs u = [] := by
      simp only [succs, subgraph, if_neg hu, map_nil]
    rw [Edge, hnone]
    simp [hu]

end

theorem nodup_assign (h : g.keys.Nodup) (n : ν) (edges : List (ν × ℤ)) :
    (g.assign n edges).keys.Nodup := g.nodup_touch h n

theorem edge_push {edge : ν × ℤ} : Edge (g.push n edge).succs u v ↔ Edge g.succs u v ∨
    (u = n ∧ v = edge.1) := by
  by_cases hu : u = n
  · subst hu
    simp [Edge, succs, push, assign]
  · simp [Edge, succs, push, assign, hu]

theorem edge_foldl_push {α : Type} {src : α → ν} {dst : α → ν × ℤ} {l : List α} {g : EdgeHolder ν}
    {u v : ν} : Edge (l.foldl (fun g a => g.push (src a) (dst a)) g).succs u v ↔
      Edge g.succs u v ∨ ∃ a ∈ l, u = src a ∧ v = (dst a).1 := by
  induction l generalizing g with
  | nil => simp
  | cons a l ih =>
    rw [foldl_cons, ih, edge_push, exists_mem_cons_iff, or_assoc]

end EdgeHolder

end Editing

end CfgAlgos
