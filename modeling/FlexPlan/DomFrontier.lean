import FlexPlan.BlockFormation
import FlexPlan.Dominance
import FlexPlan.PythonText
import Mathlib.Data.List.Sort

/-!
# Dominance frontiers

`dom_frontier` numbers the nodes in postorder and computes immediate dominators by intersecting the
chains of the predecessors, until nothing changes. On an acyclic graph one round is enough. The
frontier is filled by walking up from the predecessors of joins.
-/
namespace DomFrontier

open FlowGraph CfgAlgos Dominance PythonText List Function EdgeHolder

variable {ν : Type} [DecidableEq ν]

section Model

/-- `reverseSorted[n]`, which is zero for a missing entry. -/
def reverseSorted (sorted : List ν) (n : ν) : ℕ := (sorted.idxOf? n).getD 0

def newidom (ddoms : List ℕ) (size : ℕ) (first : ℕ) (preds : List ℕ) : Option ℕ :=
  preds.foldlM (fun newidom p => do
    let d ← ddoms[p]?
    if d ≠ size then intersect ddoms (2 * size) p newidom else some newidom) first

/-- One round of the inner loop; the flag tells whether something changed. -/
def visit (sorted : List ν) (r : EdgeHolder ν) (s : List ℕ × Bool) (i : ℕ) :
    Option (List ℕ × Bool) := do
  let b ← sorted[i]?
  match (r.neighbors b).map fun e => reverseSorted sorted e.1 with
  | [] => some s
  | first :: preds =>
    let new ← newidom s.1 sorted.length first preds
    let old ← s.1[i]?
    if old ≠ new then some (s.1.set i new, true) else some s

def pass (sorted : List ν) (r : EdgeHolder ν) (ddoms : List ℕ) : Option (List ℕ × Bool) :=
  (List.range (sorted.length - 1)).reverse.foldlM (visit sorted r) (ddoms, false)

def computeDdoms (sorted : List ν) (r : EdgeHolder ν) : ℕ → List ℕ → Option (List ℕ)
  | 0, _ => none
  | fuel + 1, ddoms =>
    (pass sorted r ddoms).bind fun s => if s.2 then computeDdoms sorted r fuel s.1 else some s.1

def emplace (e : ℕ × ℤ) (l : List (ℕ × ℤ)) : List (ℕ × ℤ) :=
  if e ∈ l then l else l.orderedInsert (fun a b => a.1 < b.1 ∨ (a.1 = b.1 ∧ a.2 ≤ b.2)) e

abbrev Frontier := ℕ → List (ℕ × ℤ)

/-- Enters a node on the way from a predecessor to its immediate dominator. -/
def climb (ddoms : List ℕ) (stop : ℕ) (e : ℕ × ℤ) : ℕ → ℕ → Frontier → Option Frontier
  | 0, _, _ => none
  | fuel + 1, runner, df =>
    if runner = stop then some df
    else ddoms[runner]?.bind fun next =>
      climb ddoms stop e fuel next (update df runner (emplace e (df runner)))

def enterJoin (sorted : List ν) (r : EdgeHolder ν) (ddoms : List ℕ) (df : Frontier) (i : ℕ) :
    Option Frontier := do
  let b ← sorted[i]?
  if (r.neighbors b).length > 1 then
    let stop ← ddoms[i]?
    (r.neighbors b).foldlM (fun df pp =>
      climb ddoms stop (i, pp.2) (sorted.length + 1) (reverseSorted sorted pp.1) df) df
  else some df

def addChild (sorted : List ν) (ddoms : List ℕ) (children : ν → List ν) (i : ℕ) :
    Option (ν → List ν) := do
  let p ← ddoms[i]?
  let parent ← sorted[p]?
  let n ← sorted[i]?
  return update children parent (children parent ++ [n])

structure Output (ν : Type) where
  children : ν → List ν
  domf : EdgeHolder ν

def frontiers (sorted : List ν) (df : Frontier) : EdgeHolder ν where
  keys := sorted
  neighbors n := ((sorted.idxOf? n).elim [] df).filterMap fun e =>
    sorted[e.1]?.map fun m => (m, e.2)
  outside n hn := by
    rw [idxOf?_eq_none_iff.mpr hn]
    rfl

def domFrontier (g r : EdgeHolder ν) (start : ν) : Option (Output ν) :=
  let sorted := topoSortKeys g
  let size := sorted.length
  if sorted.getLast? ≠ some start then none
  else do
    let ddoms ← computeDdoms sorted r (size + 1)
      ((List.replicate size size).set (size - 1) (size - 1))
    let df ← (List.range size).foldlM (enterJoin sorted r ddoms) fun _ => []
    let children ← (List.range (size - 1)).reverse.foldlM (addChild sorted ddoms) fun _ => []
    return ⟨children, frontiers sorted df⟩

end Model

section Specification

/-- The graphs the function is meant for. A graph of one node may have no entry in the map. -/
structure IsInput (g r : EdgeHolder ν) (start : ν) : Prop where
  acyclic : Acyclic g.succs
  reached : ∀ n ∈ g.nodes start, Reach g.succs start n
  converse : g.Converse r

/-- The children are those of the tree of immediate dominators, and the frontiers are right. -/
structure IsFrontier (g : EdgeHolder ν) (start : ν) (out : Output ν) : Prop where
  children : ∀ n m, m ∈ out.children n ↔ m ∈ g.nodes start ∧ ImmediatelyDominates g.succs start n m
  once : ∀ n, (out.children n).Nodup
  domf : ∀ n m, m ∈ out.domf.succs n ↔ InFrontier g.succs start n m

end Specification

section Numbers

/-- The postorder as a numbering: the start has the greatest number and edges lead down. -/
structure Numbering (g : EdgeHolder ν) (start : ν) (sorted : List ν) (top : ℕ) : Prop where
  length : sorted.length = top + 1
  nodup : sorted.Nodup
  mem : ∀ n, n ∈ sorted ↔ n ∈ g.nodes start
  last : sorted[top]? = some start
  down : ∀ {u v : ν} {i j : ℕ}, Edge g.succs u v → sorted[i]? = some u → sorted[j]? = some v → j < i

variable {g r : EdgeHolder ν} {start : ν} {sorted : List ν} {top : ℕ}

omit [DecidableEq ν] in
theorem eq_of_getElem? {i j : ℕ} (hnodup : sorted.Nodup) (hi : sorted[i]? = some n)
    (hj : sorted[j]? = some n) : i = j := by
  obtain ⟨hi', hni⟩ := List.getElem?_eq_some_iff.mp hi
  obtain ⟨hj', hnj⟩ := List.getElem?_eq_some_iff.mp hj
  exact (List.Nodup.getElem_inj_iff hnodup).mp (hni.trans hnj.symm)

theorem idxOf?_of_getElem? (hnodup : sorted.Nodup) (hi : sorted[i]? = some n) :
    sorted.idxOf? n = some i := by
  cases hfind : sorted.idxOf? n with
  | none => exact absurd (mem_of_getElem? hi) (idxOf?_eq_none_iff.mp hfind)
  | some j =>
    obtain ⟨hj, heq, -⟩ := findIdx?_eq_some_iff_getElem.mp hfind
    have hsame : sorted[j] = n := by simpa using heq
    have hj' : sorted[j]? = some n := by rw [getElem?_eq_getElem hj, hsame]
    rw [eq_of_getElem? hnodup hi hj']

theorem reverseSorted_of_getElem? (hnodup : sorted.Nodup) (hi : sorted[i]? = some n) :
    reverseSorted sorted n = i := by
  rw [reverseSorted, idxOf?_of_getElem? hnodup hi, Option.getD_some]

section

variable (h : Numbering g start sorted top)

include h

theorem Numbering.exists_number (hn : n ∈ g.nodes start) : ∃ i ≤ top, sorted[i]? = some n := by
  obtain ⟨i, hi⟩ := mem_iff_getElem?.mp ((h.mem n).mpr hn)
  obtain ⟨hlt, -⟩ := List.getElem?_eq_some_iff.mp hi
  exact ⟨i, by have := h.length; omega, hi⟩

theorem Numbering.le_top (hi : sorted[i]? = some n) : i ≤ top := by
  obtain ⟨hlt, -⟩ := List.getElem?_eq_some_iff.mp hi
  have hlength := h.length
  omega

theorem Numbering.exists_node (hi : i ≤ top) : ∃ n, sorted[i]? = some n ∧ n ∈ g.nodes start := by
  have hlt : i < sorted.length := by
    have hlength := h.length
    omega
  exact ⟨sorted[i], getElem?_eq_getElem hlt, (h.mem _).mp (getElem_mem hlt)⟩

end

theorem number_of_reach {i : ℕ}
    (hdown : ∀ {u v : ν} {i j : ℕ}, Edge g.succs u v → sorted[i]? = some u →
      sorted[j]? = some v → j < i)
    (hmem : ∀ n, n ∈ sorted ↔ n ∈ g.nodes start) (hstart : sorted[i]? = some start)
    (hreach : Reach g.succs start n) : ∃ j ≤ i, sorted[j]? = some n := by
  induction hreach with
  | refl => exact ⟨i, Nat.le_refl i, hstart⟩
  | @tail u v _ hedge ih =>
    obtain ⟨k, hk, hu⟩ := ih
    obtain ⟨j, hj⟩ := mem_iff_getElem?.mp ((hmem v).mpr (target_mem_nodes hedge))
    have hlt := hdown hedge hu hj
    exact ⟨j, by omega, hj⟩

theorem numbering_topoSortKeys (h : IsInput g r start) (hentry : start ∈ g.keys) :
    ∃ top, Numbering g start (topoSortKeys g) top := by
  obtain ⟨hnodup, hmem, hordered⟩ := topoSortKeys_spec hentry h.acyclic
  have hdown : ∀ {u v : ν} {i j : ℕ}, Edge g.succs u v → (topoSortKeys g)[i]? = some u →
      (topoSortKeys g)[j]? = some v → j < i := by
    intro u v i j hedge hi hj
    obtain ⟨hlt, hu⟩ := List.getElem?_eq_some_iff.mp hi
    have hsplit : topoSortKeys g = (topoSortKeys g).take i ++ u ::
        (topoSortKeys g).drop (i + 1) := by
      rw [← hu, ← drop_eq_getElem_cons hlt, take_append_drop]
    obtain ⟨k, hk, hv⟩ := mem_take_iff_getElem.mp (hordered _ u _ hsplit v hedge)
    have hv' : (topoSortKeys g)[k]? = some v := by rw [getElem?_eq_getElem (by omega), hv]
    rw [eq_of_getElem? hnodup hj hv']
    omega
  have hstart := (hmem start).mpr (start_mem_nodes start)
  obtain ⟨i, hi⟩ := mem_iff_getElem?.mp hstart
  have hlength := (List.getElem?_eq_some_iff.mp hi).1
  refine ⟨(topoSortKeys g).length - 1, by omega, hnodup, hmem, ?_, hdown⟩
  -- whatever comes last can be reached from the start, so it does not come behind the start
  have hlast : (topoSortKeys g).length - 1 < (topoSortKeys g).length := by omega
  have hreach := h.reached _ ((hmem _).mp (getElem_mem hlast))
  obtain ⟨j, hj, hnode⟩ := number_of_reach hdown hmem hi hreach
  have heq := eq_of_getElem? hnodup hnode (getElem?_eq_getElem hlast)
  have hsame : i = (topoSortKeys g).length - 1 := by omega
  rw [← hsame]
  exact hi

end Numbers

section Rounds

variable {g r : EdgeHolder ν} {start : ν} {sorted : List ν} {top : ℕ} {ddoms : List ℕ}

/-- From the bound on the chains are the dominators. -/
structure Computed (g : EdgeHolder ν) (start : ν) (sorted : List ν) (top : ℕ) (ddoms : List ℕ)
    (bound : ℕ) : Prop where
  climbs : Climbs ddoms bound top
  chains : ∀ {i z : ℕ} {n m : ν}, bound ≤ i → sorted[i]? = some n → sorted[z]? = some m →
    (Above ddoms i z ↔ Dominates g.succs start m n)

omit [DecidableEq ν] in
theorem Computed.weaken {bound bound' : ℕ} (h : Computed g start sorted top ddoms bound)
    (hle : bound ≤ bound') : Computed g start sorted top ddoms bound' :=
  ⟨h.climbs.weaken hle, fun hi => h.chains (hle.trans hi)⟩

theorem newidom_spec {bound first : ℕ} (h : Climbs ddoms bound top) (hfirst : bound ≤ first)
    (hfirst' : first ≤ top) {preds : List ℕ} (hpreds : ∀ p ∈ preds, bound ≤ p ∧ p ≤ top) :
    ∃ w, newidom ddoms (top + 1) first preds = some w ∧ bound ≤ w ∧ w ≤ top ∧
      ∀ z, Above ddoms w z ↔ Above ddoms first z ∧ ∀ p ∈ preds, Above ddoms p z := by
  induction preds generalizing first with
  | nil =>
    refine ⟨first, rfl, hfirst, hfirst', fun z => ?_⟩
    simp
  | cons p preds ih =>
    obtain ⟨⟨hp, hptop⟩, hpreds⟩ := forall_mem_cons.mp hpreds
    have hentry : ∃ d, ddoms[p]? = some d ∧ d ≤ top := by
      rcases Nat.lt_or_eq_of_le hptop with hlt | rfl
      · obtain ⟨d, hd, -, hdtop⟩ := h.climb p hp hlt
        exact ⟨d, hd, hdtop⟩
      · exact ⟨p, h.top, Nat.le_refl p⟩
    obtain ⟨d, hd, hdtop⟩ := hentry
    have hset : d ≠ top + 1 := by omega
    obtain ⟨w, hw, hpw, hfw, hwtop, hchain⟩ :=
      h.intersect_spec hp hptop hfirst hfirst'
        (show (top - p) + (top - first) < 2 * (top + 1) by omega)
    obtain ⟨w', hw', hbound, htop, hchain'⟩ := ih (show bound ≤ w by omega) hwtop hpreds
    refine ⟨w', ?_, hbound, htop, fun z => ?_⟩
    · rw [newidom, foldlM_cons, hd]
      simp only [Option.bind_eq_bind, Option.bind_some, if_pos hset, hw]
      exact hw'
    · rw [hchain' z, hchain z, forall_mem_cons]
      tauto

abbrev preds (sorted : List ν) (r : EdgeHolder ν) (b : ν) : List ℕ :=
  (r.neighbors b).map fun e => reverseSorted sorted e.1

variable (h : IsInput g r start) (hnum : Numbering g start sorted top)

include h hnum

theorem mem_preds : p ∈ preds sorted r b ↔ ∃ u, Edge g.succs u b ∧ sorted[p]? = some u := by
  rw [mem_map]
  constructor
  · rintro ⟨⟨u, l⟩, hmem, rfl⟩
    have hedge : Edge g.succs u b := mem_map_of_mem (h.converse.mem.mp hmem)
    obtain ⟨i, -, hi⟩ := hnum.exists_number (source_mem_nodes hedge)
    exact ⟨u, hedge, by rw [reverseSorted_of_getElem? hnum.nodup hi]; exact hi⟩
  · rintro ⟨u, hedge, hp⟩
    obtain ⟨⟨b, l⟩, hmem, rfl⟩ := mem_map.mp hedge
    exact ⟨(u, l), h.converse.mem.mpr hmem, reverseSorted_of_getElem? hnum.nodup hp⟩

theorem preds_bounds (hb : sorted[i]? = some b) : ∀ p ∈ preds sorted r b, i < p ∧ p ≤ top := by
  intro p hp
  obtain ⟨u, hedge, hu⟩ := (mem_preds h hnum).mp hp
  exact ⟨hnum.down hedge hu hb, hnum.le_top hu⟩

omit h hnum in
include hnum in
theorem ne_start_of_lt {i : ℕ} (hb : sorted[i]? = some b) (hi : i < top) : b ≠ start := by
  rintro rfl
  have heq := eq_of_getElem? hnum.nodup hb hnum.last
  omega

theorem reach_of_number {i : ℕ} (hb : sorted[i]? = some b) : Reach g.succs start b :=
  h.reached b ((hnum.mem b).mp (mem_of_getElem? hb))

theorem preds_ne_nil {i : ℕ} (hb : sorted[i]? = some b) (hi : i < top) : preds sorted r b ≠ [] := by
  rcases Relation.ReflTransGen.cases_tail (reach_of_number h hnum hb) with heq | ⟨u, hu, hedge⟩
  · exact absurd heq (ne_start_of_lt hnum hb hi)
  · obtain ⟨⟨b, l⟩, hmem, rfl⟩ := mem_map.mp hedge
    exact ne_nil_of_mem (mem_map_of_mem (h.converse.mem.mpr hmem))

theorem strict_of_preds {i z : ℕ} (hb : sorted[i]? = some b) (hi : i < top)
    (hm : sorted[z]? = some m) (hcomputed : Computed g start sorted top ddoms (i + 1)) :
    (∀ p ∈ preds sorted r b, Above ddoms p z) ↔ StrictlyDominates g.succs start m b := by
  have hreach : ∀ u, Edge g.succs u b → ∃ p, sorted[p]? = some u ∧ p ∈ preds sorted r b := by
    intro u hedge
    obtain ⟨⟨b, l⟩, hmem, rfl⟩ := mem_map.mp hedge
    have hp : reverseSorted sorted u ∈ preds sorted r b := mem_map_of_mem (h.converse.mem.mpr hmem)
    obtain ⟨j, -, hj⟩ := hnum.exists_number (source_mem_nodes hedge)
    rw [reverseSorted_of_getElem? hnum.nodup hj] at hp
    exact ⟨j, hj, hp⟩
  rw [strictlyDominates_iff h.acyclic (ne_start_of_lt hnum hb hi) (reach_of_number h hnum hb)]
  · constructor
    · intro hall u hedge
      obtain ⟨p, hu, hp⟩ := hreach u hedge
      exact (hcomputed.chains (preds_bounds h hnum hb p hp).1 hu hm).mp (hall p hp)
    · intro hall p hp
      obtain ⟨u, hedge, hu⟩ := (mem_preds h hnum).mp hp
      exact (hcomputed.chains (preds_bounds h hnum hb p hp).1 hu hm).mpr (hall u hedge)
  · intro u hedge
    obtain ⟨p, hu, -⟩ := hreach u hedge
    exact reach_of_number h hnum hu

theorem visit_spec (hb : sorted[i]? = some b) (hi : i < top)
    (hcomputed : Computed g start sorted top ddoms (i + 1)) : ∃ new, i < new ∧ new ≤ top ∧
      (∀ {z : ℕ} {m : ν}, sorted[z]? = some m →
        (Above ddoms new z ↔ StrictlyDominates g.succs start m b)) ∧
      ∀ c old, ddoms[i]? = some old →
        visit sorted r (ddoms, c) i = some (ddoms.set i new, c || decide (old ≠ new)) := by
  have hbounds := preds_bounds h hnum hb
  have hstrict := fun {z : ℕ} {m : ν} (hm : sorted[z]? = some m) =>
    strict_of_preds h hnum hb hi hm hcomputed
  cases hpreds : preds sorted r b with
  | nil => exact absurd hpreds (preds_ne_nil h hnum hb hi)
  | cons first rest =>
    rw [hpreds] at hbounds hstrict
    obtain ⟨hfirst, hrest⟩ := forall_mem_cons.mp hbounds
    obtain ⟨new, hnew, hlow, hhigh, hchain⟩ := newidom_spec hcomputed.climbs hfirst.1 hfirst.2 hrest
    refine ⟨new, hlow, hhigh, fun {z m} hm => ?_, fun c old hold => ?_⟩
    · rw [hchain z, ← hstrict hm, forall_mem_cons]
    · have hvisit : visit sorted r (ddoms, c) i =
          if old ≠ new then some (ddoms.set i new, true) else some (ddoms, c) := by
        have hmap : (r.neighbors b).map (fun e => reverseSorted sorted e.1) = first :: rest :=
          hpreds
        simp only [visit, hb, Option.bind_eq_bind, Option.bind_some]
        rw [hmap, hnum.length]
        simp only [hnew, hold, Option.bind_some]
      rw [hvisit]
      by_cases heq : old = new
      · obtain ⟨hlt, hget⟩ := List.getElem?_eq_some_iff.mp hold
        have hsame : ddoms.set i new = ddoms := by
          rw [← heq, ← hget, List.set_getElem_self]
        rw [if_neg (not_not_intro heq), hsame, decide_eq_false (not_not_intro heq), Bool.or_false]
      · rw [if_pos heq, decide_eq_true heq, Bool.or_true]

omit h hnum in
include hnum in
theorem Computed.set {i new : ℕ} (hb : sorted[i]? = some b) (hi : i < top)
    (hcomputed : Computed g start sorted top ddoms (i + 1)) (hlow : i < new) (hhigh : new ≤ top)
    (hnew : ∀ {z : ℕ} {m : ν}, sorted[z]? = some m →
      (Above ddoms new z ↔ StrictlyDominates g.succs start m b)) :
    Computed g start sorted top (ddoms.set i new) i := by
  have hlength : top < ddoms.length := (List.getElem?_eq_some_iff.mp hcomputed.climbs.top).1
  refine ⟨hcomputed.climbs.set hi hlow hhigh, fun {j z n m} hj hn hm => ?_⟩
  rcases Nat.lt_or_eq_of_le hj with hlt | rfl
  · rw [hcomputed.climbs.above_set new hlt (hnum.le_top hn)]
    exact hcomputed.chains hlt hn hm
  · cases hb.symm.trans hn
    have hpointer : (ddoms.set i new)[i]? = some new := getElem?_set_self (by omega)
    rw [above_iff hpointer, hcomputed.climbs.above_set new hlow hhigh, hnew hm]
    constructor
    · rintro (rfl | hstrict)
      · cases hb.symm.trans hm
        exact dominates_refl b
      · exact hstrict.1
    · intro hdom
      by_cases hne : m = b
      · subst hne
        exact Or.inl (eq_of_getElem? hnum.nodup hm hb)
      · exact Or.inr ⟨hdom, hne⟩

omit h hnum in
include hnum in
theorem Computed.pointer (hb : sorted[i]? = some b) (hi : i < top)
    (hcomputed : Computed g start sorted top ddoms i) (hd : ddoms[i]? = some d)
    (hm : sorted[z]? = some m) :
    Above ddoms d z ↔ StrictlyDominates g.succs start m b := by
  obtain ⟨d', hd', hlow, hhigh⟩ := hcomputed.climbs.climb i (Nat.le_refl i) hi
  cases hd.symm.trans hd'
  have hchain := hcomputed.chains (Nat.le_refl i) hb hm
  rw [above_iff hd] at hchain
  rw [StrictlyDominates, ← hchain]
  constructor
  · intro habove
    have hle := hcomputed.climbs.le_of_above (Nat.le_of_lt hlow) hhigh habove
    refine ⟨Or.inr habove, ?_⟩
    rintro rfl
    have heq := eq_of_getElem? hnum.nodup hm hb
    omega
  · rintro ⟨rfl | habove, hne⟩
    · cases hb.symm.trans hm
      exact absurd rfl hne
    · exact habove

omit h hnum in
include hnum in
theorem Computed.pointer_unique {i d new : ℕ} (hb : sorted[i]? = some b) (hi : i < top)
    (hcomputed : Computed g start sorted top ddoms i) (hd : ddoms[i]? = some d) (hlow : i < new)
    (hhigh : new ≤ top) (hnew : ∀ {z : ℕ} {m : ν}, sorted[z]? = some m →
      (Above ddoms new z ↔ StrictlyDominates g.succs start m b)) : d = new := by
  obtain ⟨d', hd', hdlow, hdhigh⟩ := hcomputed.climbs.climb i (Nat.le_refl i) hi
  cases hd.symm.trans hd'
  refine hcomputed.climbs.eq_of_above_iff (Nat.le_of_lt hdlow) hdhigh
    (Nat.le_of_lt hlow) hhigh fun z => ?_
  by_cases hz : z ≤ top
  · obtain ⟨m, hm, -⟩ := hnum.exists_node hz
    rw [hcomputed.pointer hnum hb hi hd hm, hnew hm]
  · constructor
    · intro habove
      exact absurd (hcomputed.climbs.le_of_above (Nat.le_of_lt hdlow) hdhigh habove).2 hz
    · intro habove
      exact absurd (hcomputed.climbs.le_of_above (Nat.le_of_lt hlow) hhigh habove).2 hz

omit h hnum in
theorem range_succ_reverse (k : ℕ) :
    (List.range (k + 1)).reverse = k :: (List.range k).reverse := by
  rw [range_succ, reverse_append, reverse_singleton, singleton_append]

theorem foldlM_visit (hk : k ≤ top) (hlength : ddoms.length = top + 1)
    (hcomputed : Computed g start sorted top ddoms k) (c : Bool) :
    ∃ out c', (List.range k).reverse.foldlM (visit sorted r) (ddoms, c) = some (out, c') ∧
      Computed g start sorted top out 0 := by
  induction k generalizing ddoms c with
  | zero => exact ⟨ddoms, c, rfl, hcomputed⟩
  | succ i ih =>
    obtain ⟨b, hb, -⟩ := hnum.exists_node (i := i) (by omega)
    obtain ⟨new, hlow, hhigh, hnew, hvisit⟩ := visit_spec h hnum hb (by omega) hcomputed
    have hold : ddoms[i]? = some (ddoms.get ⟨i, by omega⟩) := getElem?_eq_getElem (by omega)
    have hset := Computed.set hnum hb (by omega) hcomputed hlow hhigh hnew
    rw [range_succ_reverse, foldlM_cons, hvisit c _ hold, Option.bind_eq_bind, Option.bind_some]
    exact ih (by omega) (by rw [length_set, hlength]) hset _

theorem foldlM_visit_again (hk : k ≤ top) (hcomputed : Computed g start sorted top ddoms 0) :
    (List.range k).reverse.foldlM (visit sorted r) (ddoms, false) = some (ddoms, false) := by
  induction k with
  | zero => rfl
  | succ i ih =>
    obtain ⟨b, hb, -⟩ := hnum.exists_node (i := i) (by omega)
    obtain ⟨new, hlow, hhigh, hnew, hvisit⟩ :=
      visit_spec h hnum hb (by omega) (hcomputed.weaken (Nat.zero_le (i + 1)))
    obtain ⟨d, hd, -, -⟩ := hcomputed.climbs.climb i (Nat.zero_le i) (by omega)
    have heq := (hcomputed.weaken (Nat.zero_le i)).pointer_unique hnum hb
      (by omega) hd hlow hhigh hnew
    obtain ⟨hlt, hget⟩ := List.getElem?_eq_some_iff.mp hd
    have hsame : ddoms.set i new = ddoms := by rw [← heq, ← hget, List.set_getElem_self]
    rw [range_succ_reverse, foldlM_cons, hvisit false d hd, hsame,
      decide_eq_false (not_not_intro heq), Bool.or_false, Option.bind_eq_bind, Option.bind_some]
    exact ih (by omega)

omit h hnum in
include hnum in
theorem computed_initial :
    Computed g start sorted top ((List.replicate (top + 1) (top + 1)).set top top) top := by
  have htop : ((List.replicate (top + 1) (top + 1)).set top top)[top]? = some top :=
    getElem?_set_self (by rw [length_replicate]; omega)
  have hclimbs : Climbs ((List.replicate (top + 1) (top + 1)).set top top) top top :=
    ⟨fun x hx hxtop => by omega, htop⟩
  refine ⟨hclimbs, fun {i z n m} hi hn hm => ?_⟩
  have hitop : i = top := Nat.le_antisymm (hnum.le_top hn) hi
  subst hitop
  cases hnum.last.symm.trans hn
  rw [dominates_start_iff]
  constructor
  · intro habove
    have hle := hclimbs.le_of_above (Nat.le_refl i) (Nat.le_refl i) habove
    have hz : z = i := by omega
    subst hz
    exact Option.some.inj (hm.symm.trans hn)
  · rintro rfl
    rw [eq_of_getElem? hnum.nodup hm hn]

theorem computeDdoms_spec : ∃ ddoms, computeDdoms sorted r (top + 2)
    ((List.replicate (top + 1) (top + 1)).set top top) = some ddoms ∧
      Computed g start sorted top ddoms 0 := by
  have hrounds : sorted.length - 1 = top := by
    rw [hnum.length]
    omega
  obtain ⟨ddoms, c, hfirst, hcomputed⟩ := foldlM_visit h hnum (Nat.le_refl top)
    (by rw [length_set, length_replicate]) (computed_initial hnum) false
  refine ⟨ddoms, ?_, hcomputed⟩
  rw [computeDdoms, pass, hrounds, hfirst, Option.bind_some]
  cases c with
  | false => rfl
  | true =>
    rw [if_pos rfl, computeDdoms, pass, hrounds,
      foldlM_visit_again h hnum (Nat.le_refl top) hcomputed,
      Option.bind_some]
    rfl

end Rounds

section Frontiers

theorem foldlM_collect {α β σ : Type} {f : σ → α → Option σ} {M : σ → β → Prop} {P : α → β → Prop}
    {l : List α} (step : ∀ a ∈ l, ∀ s, ∃ t, f s a = some t ∧ ∀ x, M t x ↔ M s x ∨ P a x) (s : σ) :
    ∃ t, l.foldlM f s = some t ∧ ∀ x, M t x ↔ M s x ∨ ∃ a ∈ l, P a x := by
  induction l generalizing s with
  | nil => exact ⟨s, rfl, fun x => by simp⟩
  | cons a l ih =>
    obtain ⟨ha, hl⟩ := forall_mem_cons.mp step
    obtain ⟨t, ht, htmem⟩ := ha s
    obtain ⟨u, hu, humem⟩ := ih hl t
    refine ⟨u, by rw [foldlM_cons, ht]; exact hu, fun x => ?_⟩
    rw [humem x, htmem x, exists_mem_cons_iff]
    tauto

theorem mem_emplace : e' ∈ emplace e l ↔ e' ∈ l ∨ e' = e := by
  rw [emplace]
  split
  · constructor
    · exact Or.inl
    · rintro (hmem | rfl)
      · exact hmem
      · assumption
  · rw [mem_orderedInsert]
    exact Or.comm

variable {g r : EdgeHolder ν} {start : ν} {sorted : List ν} {top : ℕ} {ddoms : List ℕ}

theorem climb_spec (h : Climbs ddoms 0 top) {x stop : ℕ} (hx : x ≤ top) (hstop : Above ddoms x stop)
    (e : ℕ × ℤ) (hfuel : top - x < fuel) (df : Frontier) :
    ∃ out, climb ddoms stop e fuel x df = some out ∧
      ∀ y e', e' ∈ out y ↔ e' ∈ df y ∨ (e' = e ∧ Above ddoms x y ∧ ¬Above ddoms stop y) := by
  induction fuel generalizing x df with
  | zero => omega
  | succ fuel ih =>
    rw [climb]
    by_cases heq : x = stop
    · subst heq
      rw [if_pos rfl]
      exact ⟨df, rfl, fun y e' => by tauto⟩
    · obtain ⟨hle, hstoptop⟩ := h.le_of_above (Nat.zero_le x) hx hstop
      obtain ⟨x', hx', hlow, hhigh⟩ := h.climb x (Nat.zero_le x) (by omega)
      have hrest : Above ddoms x' stop :=
        ((above_iff hx').mp hstop).resolve_left fun hs => heq hs.symm
      obtain ⟨out, hout, hmem⟩ := ih hhigh hrest (by omega) (update df x (emplace e (df x)))
      rw [if_neg heq, hx', Option.bind_some]
      refine ⟨out, hout, fun y e' => ?_⟩
      rw [hmem y e', above_iff hx']
      by_cases hy : y = x
      · subst hy
        have hbelow : ¬Above ddoms stop y := fun habove => by
          have hback := h.le_of_above (Nat.zero_le stop) hstoptop habove
          omega
        rw [update_self, mem_emplace]
        tauto
      · rw [update_of_ne hy]
        tauto

variable (h : IsInput g r start) (hnum : Numbering g start sorted top)
  (hcomputed : Computed g start sorted top ddoms 0)

def Enters (sorted : List ν) (r : EdgeHolder ν) (ddoms : List ℕ) (i : ℕ) (x : ℕ × ℕ × ℤ) : Prop :=
  x.2.1 = i ∧ ∃ b d, sorted[i]? = some b ∧ ddoms[i]? = some d ∧ 1 < (r.neighbors b).length ∧
    ∃ e ∈ r.neighbors b, e.2 = x.2.2 ∧ Above ddoms (reverseSorted sorted e.1) x.1 ∧
      ¬Above ddoms d x.1

include h hnum hcomputed

theorem enterJoin_spec {i : ℕ} (hi : i ≤ top) (df : Frontier) :
    ∃ out, enterJoin sorted r ddoms df i = some out ∧
      ∀ x : ℕ × ℕ × ℤ, x.2 ∈ out x.1 ↔ x.2 ∈ df x.1 ∨ Enters sorted r ddoms i x := by
  obtain ⟨b, hb, -⟩ := hnum.exists_node hi
  rw [enterJoin, hb]
  simp only [Option.bind_eq_bind, Option.bind_some]
  by_cases hmany : (r.neighbors b).length > 1
  · have hlt : i < top := by
      -- a predecessor has a greater number
      obtain ⟨e, he⟩ := exists_mem_of_length_pos (Nat.lt_trans Nat.zero_lt_one hmany)
      have hbounds := preds_bounds h hnum hb _ (mem_map_of_mem he)
      omega
    obtain ⟨d, hd, -, -⟩ := hcomputed.climbs.climb i (Nat.zero_le i) hlt
    rw [if_pos hmany, hd, Option.bind_some]
    have hstep : ∀ e ∈ r.neighbors b, ∀ df : Frontier, ∃ out,
        climb ddoms d (i, e.2) (sorted.length + 1) (reverseSorted sorted e.1) df = some out ∧
        ∀ x : ℕ × ℕ × ℤ, x.2 ∈ out x.1 ↔ x.2 ∈ df x.1 ∨
          (x.2 = (i, e.2) ∧ Above ddoms (reverseSorted sorted e.1) x.1 ∧ ¬Above ddoms d x.1) := by
      intro e he df
      have hmem : reverseSorted sorted e.1 ∈ preds sorted r b := mem_map_of_mem he
      obtain ⟨hlow, hhigh⟩ := preds_bounds h hnum hb _ hmem
      obtain ⟨m, hm, -⟩ :=
        hnum.exists_node (hcomputed.climbs.next_cases (Nat.zero_le i) hi hd |>.elim
        (fun hc => hc.2) (fun hc => hc.2.le))
      have hstrict := (hcomputed.weaken (Nat.zero_le i)).pointer hnum hb hlt hd hm
      have habove := (strict_of_preds h hnum hb hlt hm (hcomputed.weaken (Nat.zero_le _))).mpr
        (hstrict.mp .refl) _ hmem
      have hfuel : top - reverseSorted sorted e.1 < sorted.length + 1 := by
        rw [hnum.length]
        omega
      obtain ⟨out, hout, hspec⟩ := climb_spec hcomputed.climbs hhigh habove (i, e.2) hfuel df
      exact ⟨out, hout, fun x => hspec x.1 x.2⟩
    obtain ⟨out, hout, hspec⟩ :=
      foldlM_collect (M := fun (df : Frontier) (x : ℕ × ℕ × ℤ) => x.2 ∈ df x.1) hstep df
    refine ⟨out, hout, fun x => ?_⟩
    rw [hspec x]
    refine or_congr_right ⟨?_, ?_⟩
    · rintro ⟨e, he, heq, habove, hnot⟩
      exact ⟨congrArg Prod.fst heq, b, d, hb, hd, hmany, e, he, (congrArg Prod.snd heq).symm,
        habove, hnot⟩
    · rintro ⟨hfst, b', d', hb', hd', -, e, he, hsnd, habove, hnot⟩
      cases hb.symm.trans hb'
      cases hd.symm.trans hd'
      exact ⟨e, he, Prod.ext hfst hsnd.symm, habove, hnot⟩
  · rw [if_neg hmany]
    refine ⟨df, rfl, fun x => ?_⟩
    rw [iff_self_or]
    rintro ⟨-, b', -, hb', -, hmany', -⟩
    cases hb.symm.trans hb'
    exact absurd hmany' hmany

theorem enters_iff (hn : sorted[y]? = some n) (hm : sorted[i]? = some m) :
    (∃ l, Enters sorted r ddoms i (y, i, l)) ↔ InFrontier g.succs start n m := by
  constructor
  · rintro ⟨l, -, b, d, hb, hd, -, e, he, -, habove, hnot⟩
    cases hm.symm.trans hb
    have hmem : reverseSorted sorted e.1 ∈ preds sorted r m := mem_map_of_mem he
    obtain ⟨u, hedge, hu⟩ := (mem_preds h hnum).mp hmem
    have hbounds := preds_bounds h hnum hb _ hmem
    refine ⟨⟨u, hedge, (hcomputed.chains (Nat.zero_le _) hu hn).mp habove⟩, ?_⟩
    rwa [← (hcomputed.weaken (Nat.zero_le i)).pointer hnum hb (by omega) hd hn]
  · rintro ⟨⟨u, hedge, hdom⟩, hnot⟩
    obtain ⟨⟨m, l⟩, hmem, rfl⟩ := mem_map.mp hedge
    have he := h.converse.mem.mpr hmem
    obtain ⟨p, -, hu⟩ := hnum.exists_number (source_mem_nodes hedge)
    have hlt := hnum.down hedge hu hm
    have hi : i < top := Nat.lt_of_lt_of_le hlt (hnum.le_top hu)
    obtain ⟨d, hd, -, -⟩ := hcomputed.climbs.climb i (Nat.zero_le i) hi
    have hposition := reverseSorted_of_getElem? hnum.nodup hu
    have habove := (hcomputed.chains (Nat.zero_le _) hu hn).mpr hdom
    refine ⟨l, rfl, m, d, hm, hd, ?_, (u, l), he, rfl, by rwa [hposition], ?_⟩
    · -- with one incoming edge the predecessor would be a strict dominator
      by_contra hone
      apply hnot
      rw [← strict_of_preds h hnum hm hi hn (hcomputed.weaken (Nat.zero_le _))]
      intro q hq
      obtain ⟨e, he', rfl⟩ := mem_map.mp hq
      have hsame : e = (u, l) := by
        match hlist : r.neighbors m, hone with
        | [], _ =>
          rw [hlist] at he
          cases he
        | [x], _ =>
          rw [hlist, mem_singleton] at he he'
          exact he'.trans he.symm
        | _ :: _ :: _, hone => simp at hone
      rw [hsame, hposition]
      exact habove
    · rwa [(hcomputed.weaken (Nat.zero_le i)).pointer hnum hm hi hd hn]

omit h hnum hcomputed in
include h in
theorem mem_nodes_of_dominates (hm : m ∈ g.nodes start) (hdom : Dominates g.succs start n m) :
    n ∈ g.nodes start := by
  rcases Relation.ReflTransGen.cases_head (hdom.reach (h.reached m hm)) with rfl | ⟨u, hedge, -⟩
  · exact hm
  · exact source_mem_nodes hedge

theorem exists_frontiers :
    ∃ df, (List.range (top + 1)).foldlM (enterJoin sorted r ddoms) (fun _ => []) = some df ∧
    ∀ n m, m ∈ (frontiers sorted df).succs n ↔ InFrontier g.succs start n m := by
  have hstep : ∀ i ∈ List.range (top + 1), ∀ df : Frontier, ∃ out,
      enterJoin sorted r ddoms df i = some out ∧
        ∀ x : ℕ × ℕ × ℤ, x.2 ∈ out x.1 ↔ x.2 ∈ df x.1 ∨ Enters sorted r ddoms i x :=
    fun i hi => enterJoin_spec h hnum hcomputed (Nat.lt_succ_iff.mp (mem_range.mp hi))
  obtain ⟨df, hdf, hspec⟩ :=
    foldlM_collect (M := fun (df : Frontier) (x : ℕ × ℕ × ℤ) => x.2 ∈ df x.1) hstep fun _ => []
  refine ⟨df, hdf, fun n m => ?_⟩
  have hentry : ∀ y i l, (i, l) ∈ df y ↔ Enters sorted r ddoms i (y, i, l) := by
    intro y i l
    rw [hspec (y, i, l), mem_nil_iff, false_or]
    constructor
    · rintro ⟨k, -, hk⟩
      have hik : i = k := hk.1
      rwa [hik] at hk ⊢
    · intro henters
      obtain ⟨-, b, -, hb, -⟩ := id henters
      exact ⟨i, mem_range.mpr (Nat.lt_succ_iff.mpr (hnum.le_top hb)), henters⟩
  constructor
  · intro hm
    obtain ⟨⟨m, l⟩, hmem, rfl⟩ := mem_map.mp hm
    obtain ⟨⟨i, l'⟩, he, heq⟩ := mem_filterMap.mp hmem
    obtain ⟨m', hm', heq⟩ := Option.map_eq_some_iff.mp heq
    cases heq
    cases hidx : sorted.idxOf? n with
    | none =>
      rw [hidx] at he
      cases he
    | some y =>
      rw [hidx, Option.elim_some] at he
      obtain ⟨hy, hfound, -⟩ := findIdx?_eq_some_iff_getElem.mp hidx
      have hn : sorted[y]? = some n := by
        rw [getElem?_eq_getElem hy]
        exact congrArg some (by simpa using hfound)
      exact (enters_iff h hnum hcomputed hn hm').mp ⟨l', (hentry y i l').mp he⟩
  · intro hfrontier
    obtain ⟨⟨p, hedge, hdom⟩, -⟩ := id hfrontier
    have hnode := mem_nodes_of_dominates h (source_mem_nodes hedge) hdom
    obtain ⟨y, -, hn⟩ := hnum.exists_number hnode
    obtain ⟨i, -, hm⟩ := hnum.exists_number (target_mem_nodes hedge)
    obtain ⟨l, hl⟩ := (enters_iff h hnum hcomputed hn hm).mpr hfrontier
    refine mem_map.mpr ⟨(m, l), mem_filterMap.mpr ⟨(i, l), ?_, ?_⟩, rfl⟩
    · rw [idxOf?_of_getElem? hnum.nodup hn, Option.elim_some]
      exact (hentry y i l).mpr hl
    · rw [hm, Option.map_some]

end Frontiers

section Children

variable {g r : EdgeHolder ν} {start : ν} {sorted : List ν} {top : ℕ} {ddoms : List ℕ}

/-- The node with a number, if it belongs under `n`. -/
def childOf (sorted : List ν) (ddoms : List ℕ) (n : ν) (i : ℕ) : Option ν :=
  if (ddoms[i]?.bind fun p => sorted[p]?) = some n then sorted[i]? else none

theorem foldlM_addChild {l : List ℕ} (hl : ∀ i ∈ l, ∃ p parent n, ddoms[i]? = some p ∧
    sorted[p]? = some parent ∧ sorted[i]? = some n) (children : ν → List ν) :
    l.foldlM (addChild sorted ddoms) children =
      some fun n => children n ++ l.filterMap (childOf sorted ddoms n) := by
  induction l generalizing children with
  | nil =>
    simp only [filterMap_nil, append_nil]
    rfl
  | cons i l ih =>
    obtain ⟨⟨p, parent, m, hp, hparent, hm⟩, hl⟩ := forall_mem_cons.mp hl
    have hadd : addChild sorted ddoms children i =
        some (update children parent (children parent ++ [m])) := by
      simp only [addChild, hp, hparent, hm, Option.bind_eq_bind, Option.bind_some]
      rfl
    rw [foldlM_cons, hadd, Option.bind_eq_bind, Option.bind_some, ih hl]
    congr 1
    funext n
    by_cases hn : n = parent
    · subst hn
      have hchild : childOf sorted ddoms n i = some m := by
        rw [childOf, hp, Option.bind_some, if_pos hparent, hm]
      rw [update_self, filterMap_cons_some hchild, append_assoc]
      rfl
    · have hchild : childOf sorted ddoms n i = none := by
        rw [childOf, hp, Option.bind_some, hparent, if_neg fun heq => hn (Option.some.inj heq).symm]
      rw [update_of_ne hn, filterMap_cons_none hchild]

variable (h : IsInput g r start) (hnum : Numbering g start sorted top)
  (hcomputed : Computed g start sorted top ddoms 0)

include hnum hcomputed in
theorem exists_parent (hi : i < top) : ∃ p parent n, ddoms[i]? = some p ∧
    sorted[p]? = some parent ∧ sorted[i]? = some n := by
  obtain ⟨p, hp, -, hptop⟩ := hcomputed.climbs.climb i (Nat.zero_le i) hi
  obtain ⟨parent, hparent, -⟩ := hnum.exists_node hptop
  obtain ⟨n, hn, -⟩ := hnum.exists_node (Nat.le_of_lt hi)
  exact ⟨p, parent, n, hp, hparent, hn⟩

include h in
theorem immediate_unique (hm : m ∈ g.nodes start)
    (hn : ImmediatelyDominates g.succs start n m) (hn' : ImmediatelyDominates g.succs start n' m) :
    n = n' := by
  have hreach := fun {k : ν} (hk : Dominates g.succs start k m) =>
    h.reached k (mem_nodes_of_dominates h hm hk)
  exact dominates_antisymm (hn'.2 n hn.1) (hn.2 n' hn'.1) (hreach hn'.1.1)

include h hnum hcomputed in
theorem immediate_iff {n m parent : ν} (hi : i < top) (hm : sorted[i]? = some m)
    (hp : ddoms[i]? = some p)
    (hparent : sorted[p]? = some parent) : ImmediatelyDominates g.succs start n m ↔ n = parent := by
  have hpointer := fun {z : ℕ} {k : ν} (hk : sorted[z]? = some k) =>
    (hcomputed.weaken (Nat.zero_le i)).pointer hnum hm hi hp hk
  have hnode : m ∈ g.nodes start := (hnum.mem m).mp (mem_of_getElem? hm)
  have hstrict : StrictlyDominates g.succs start parent m := (hpointer hparent).mp .refl
  have hall : ∀ k, StrictlyDominates g.succs start k m → Dominates g.succs start k parent := by
    intro k hk
    obtain ⟨z, -, hz⟩ := hnum.exists_number (mem_nodes_of_dominates h hnode hk.1)
    exact (hcomputed.chains (Nat.zero_le p) hparent hz).mp ((hpointer hz).mpr hk)
  constructor
  · exact fun hn => immediate_unique h hnode hn ⟨hstrict, hall⟩
  · rintro rfl
    exact ⟨hstrict, hall⟩

include h hnum hcomputed in
theorem exists_children :
    ∃ children, (List.range top).reverse.foldlM (addChild sorted ddoms) (fun _ => []) =
    some children ∧ (∀ n m, m ∈ children n ↔
      m ∈ g.nodes start ∧ ImmediatelyDominates g.succs start n m) ∧
      ∀ n, (children n).Nodup := by
  refine ⟨_, foldlM_addChild (fun i hi => exists_parent hnum hcomputed
    (mem_range.mp (mem_reverse.mp hi))) _, fun n m => ?_, fun n => ?_⟩
  · rw [nil_append, mem_filterMap]
    constructor
    · rintro ⟨i, hi, hchild⟩
      have hi := mem_range.mp (mem_reverse.mp hi)
      obtain ⟨p, parent, m', hp, hparent, hm'⟩ := exists_parent hnum hcomputed hi
      rw [childOf, hp, Option.bind_some, hparent, hm'] at hchild
      split at hchild
      · rename_i heq
        cases hchild
        refine ⟨(hnum.mem m).mp (mem_of_getElem? hm'), ?_⟩
        exact (immediate_iff h hnum hcomputed hi hm' hp hparent).mpr (Option.some.inj heq).symm
      · cases hchild
    · rintro ⟨hnode, himmediate⟩
      obtain ⟨i, hitop, hm⟩ := hnum.exists_number hnode
      have hi : i < top := by
        refine Nat.lt_of_le_of_ne hitop ?_
        rintro rfl
        -- nothing dominates the start strictly
        cases hm.symm.trans hnum.last
        exact himmediate.1.2 (dominates_start_iff.mp himmediate.1.1)
      obtain ⟨p, parent, m', hp, hparent, hm'⟩ := exists_parent hnum hcomputed hi
      have hn := (immediate_iff h hnum hcomputed hi hm hp hparent).mp himmediate
      refine ⟨i, mem_reverse.mpr (mem_range.mpr hi), ?_⟩
      rw [childOf, hp, Option.bind_some, hparent, if_pos (by rw [hn]), hm]
  · rw [nil_append]
    refine List.Nodup.filterMap ?_ (nodup_reverse.mpr nodup_range)
    intro i j m hi hj
    have hnumber : ∀ k, m ∈ childOf sorted ddoms n k → sorted[k]? = some m := by
      intro k hk
      rw [childOf] at hk
      split at hk
      · exact hk
      · cases hk
    exact eq_of_getElem? hnum.nodup (hnumber i hi) (hnumber j hj)

end Children

section Branches

theorem foldlM_keeps {α σ : Type} {f : σ → α → Option σ} {I : σ → Prop} {l : List α} {s t : σ}
    (step : ∀ a s t, I s → f s a = some t → I t) (hs : I s) (h : l.foldlM f s = some t) : I t := by
  induction l generalizing s with
  | nil => exact Option.some.inj h ▸ hs
  | cons a l ih =>
    obtain ⟨u, hu, hrest⟩ := Option.bind_eq_some_iff.mp h
    exact ih (step a s u hs hu) hrest

theorem mem_climb {ddoms : List ℕ} {stop fuel runner x : ℕ} {e d : ℕ × ℤ} {df out : Frontier}
    (h : climb ddoms stop e fuel runner df = some out) (hd : d ∈ out x) : d ∈ df x ∨ d = e := by
  induction fuel generalizing runner df with
  | zero => cases h
  | succ fuel ih =>
    rw [climb] at h
    split at h
    · cases h
      exact Or.inl hd
    · obtain ⟨next, -, hrest⟩ := Option.bind_eq_some_iff.mp h
      rcases ih hrest with hmem | heq
      · by_cases hx : x = runner
        · subst hx
          rwa [update_self, mem_emplace] at hmem
        · rw [update_of_ne hx] at hmem
          exact Or.inl hmem
      · exact Or.inr heq

variable {g r : EdgeHolder ν} {start n m : ν} {out : Output ν}

/-- The frontiers hold no other nodes than those with several predecessors. -/
theorem joins_of_domf (h : domFrontier g r start = some out) (hm : m ∈ out.domf.succs n) :
    1 < (r.neighbors m).length := by
  let Joins : ℕ × ℤ → Prop := fun e =>
    ∃ b, (topoSortKeys g)[e.1]? = some b ∧ 1 < (r.neighbors b).length
  simp only [domFrontier] at h
  split at h
  · cases h
  obtain ⟨ddoms, -, h⟩ := Option.bind_eq_some_iff.mp h
  obtain ⟨df, hdf, h⟩ := Option.bind_eq_some_iff.mp h
  obtain ⟨children, -, hout⟩ := Option.bind_eq_some_iff.mp h
  have hjoins : ∀ x, ∀ e ∈ df x, Joins e := by
    refine foldlM_keeps (I := fun df : Frontier => ∀ x, ∀ e ∈ df x, Joins e)
      (fun i s t hs ht => ?_) (fun x e he => absurd he not_mem_nil) hdf
    obtain ⟨b, hb, ht⟩ := Option.bind_eq_some_iff.mp ht
    split at ht
    · rename_i hmany
      obtain ⟨stop, -, ht⟩ := Option.bind_eq_some_iff.mp ht
      refine foldlM_keeps (I := fun df : Frontier => ∀ x, ∀ e ∈ df x, Joins e)
        (fun pp s t hs ht x e he => ?_) hs ht
      rcases mem_climb ht he with hmem | rfl
      · exact hs x e hmem
      · exact ⟨b, hb, hmany⟩
    · exact Option.some.inj ht ▸ hs
  cases hout
  obtain ⟨⟨m, l⟩, hmem, rfl⟩ := mem_map.mp hm
  obtain ⟨e, he, hentry⟩ := mem_filterMap.mp hmem
  obtain ⟨b, hb, hpair⟩ := Option.map_eq_some_iff.mp hentry
  cases hpair
  cases hidx : (topoSortKeys g).idxOf? n with
  | none =>
    rw [hidx] at he
    cases he
  | some i =>
    rw [hidx] at he
    obtain ⟨b', hb', hmany⟩ := hjoins i e he
    cases hb.symm.trans hb'
    exact hmany

end Branches

section Result

variable {g r : EdgeHolder ν} {start : ν}

/-- The loops end, the children are those of the tree of immediate dominators and the frontiers
are right. -/
theorem exists_isFrontier (h : IsInput g r start) (hentry : start ∈ g.keys) :
    ∃ out, domFrontier g r start = some out ∧ IsFrontier g start out := by
  obtain ⟨top, hnum⟩ := numbering_topoSortKeys h hentry
  obtain ⟨ddoms, hddoms, hcomputed⟩ := computeDdoms_spec h hnum
  obtain ⟨df, hdf, hfrontier⟩ := exists_frontiers h hnum hcomputed
  obtain ⟨children, hchildren, himmediate, hnodup⟩ := exists_children h hnum hcomputed
  have hlast : (topoSortKeys g).getLast? = some start := by
    rw [getLast?_eq_getElem?, hnum.length]
    exact hnum.last
  refine ⟨⟨children, frontiers (topoSortKeys g) df⟩, ?_, himmediate, hnodup, hfrontier⟩
  rw [domFrontier]
  simp only [hlast, ne_eq, not_true_eq_false, if_false, hnum.length, Nat.add_sub_cancel,
    hddoms, hdf,
    hchildren, Option.bind_eq_bind, Option.bind_some]
  rfl

/-- Without an entry for the start the map is empty, and the last of no nodes is read. -/
theorem domFrontier_eq_none (h : IsInput g r start) (hentry : start ∉ g.keys) :
    domFrontier g r start = none := by
  have hkeys : g.keys = [] := by
    refine eq_nil_iff_forall_not_mem.mpr fun k hk => ?_
    have hreach := h.reached k (by simp [EdgeHolder.nodes, hk])
    rcases Relation.ReflTransGen.cases_head hreach with rfl | ⟨m, hedge, -⟩
    · exact hentry hk
    · exact hentry (source_mem_keys hedge)
  rw [domFrontier, topoSortKeys, hkeys]
  exact if_pos (Option.some_ne_none start).symm

/-- The tree and the frontiers are returned exactly if the start has an entry in the map. -/
theorem domFrontier_isFrontier_iff (g r : EdgeHolder ν) (start : ν) (h : IsInput g r start) :
    (∃ out, domFrontier g r start = some out ∧ IsFrontier g start out) ↔ start ∈ g.keys := by
  constructor
  · rintro ⟨out, hout, -⟩
    by_contra hentry
    rw [domFrontier_eq_none h hentry] at hout
    cases hout
  · exact exists_isFrontier h

end Result

open BlockFormation in
theorem diamond_isFrontier : IsInput Diamond.holder Diamond.holder.reverse 0 ∧
    ∃ out, domFrontier Diamond.holder Diamond.holder.reverse 0 = some out ∧
      IsFrontier Diamond.holder 0 out := by
  have h : DomFrontier.IsInput Diamond.holder Diamond.holder.reverse 0 :=
    ⟨Diamond.isInput.acyclic, Diamond.isInput.reached, Diamond.isInput.converse⟩
  exact ⟨h, (domFrontier_isFrontier_iff _ _ 0 h).mpr mem_cons_self⟩

namespace OneBlock

/-- The map that `basic_blocks` fills for a program of one block. -/
def holder : EdgeHolder ℕ := ⟨[], fun _ => [], fun _ _ => rfl⟩

end OneBlock

theorem one_block_fails : IsInput OneBlock.holder OneBlock.holder.reverse 0 ∧
    domFrontier OneBlock.holder OneBlock.holder.reverse 0 = none := by
  have h : IsInput OneBlock.holder OneBlock.holder.reverse 0 := by
    refine ⟨fun n hn => ?_, fun n hn => ?_, EdgeHolder.converse_reverse nodup_nil⟩
    · obtain ⟨x, hx, -⟩ := Relation.TransGen.head'_iff.mp hn
      cases hx
    · have hstart : n = 0 := by simpa [EdgeHolder.nodes, OneBlock.holder] using hn
      rw [hstart]
  exact ⟨h, domFrontier_eq_none h not_mem_nil⟩

end DomFrontier
