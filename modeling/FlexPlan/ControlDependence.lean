import FlexPlan.DomFrontier
import FlexPlan.PythonText
import FlexPlan.TransitionRuns
import Mathlib.Algebra.BigOperators.Group.List.Basic
import Mathlib.Algebra.GroupWithZero.Nat
import Mathlib.Algebra.Group.Action.Defs

/-!
# Control dependence

`compute_dominators` works on sets until its worklist is empty, and `compute_cdg` follows the
ancestors of the two ends of an edge in the tree of immediate post-dominators. A predecessor without
a set that stands behind one with a set empties the intersection. What is lost so comes back unless
a loop hands the loss on to itself.
-/
namespace ControlDependence

open FlowGraph CfgAlgos Dominance DomFrontier TransitionRuns List Function EdgeHolder

variable {ν : Type} [DecidableEq ν]

section Model

abbrev Dominators (ν : Type) := ν → Option (Finset ν)

/-- The loop over the predecessors: whether none had a set so far, and the intersection. -/
def meetPreds (dominators : Dominators ν) : List ν → Bool × Finset ν → Bool × Finset ν
  | [], s => s
  | pred :: preds, (all, newSet) =>
    if !all && newSet = ∅ then (all, newSet)
    else
      match dominators pred with
      | some d => meetPreds dominators preds (false, if all then d else d ∩ newSet)
      | none => meetPreds dominators preds (all, ∅)

def newSet (bw : EdgeHolder ν) (dominators : Dominators ν) (last : ν) : Option (Finset ν) :=
  let s := if bw.succs last = [] then (false, ∅) else meetPreds dominators (bw.succs last) (true, ∅)
  if s.1 then none else some (insert last s.2)

structure State (ν : Type) where
  dominators : Dominators ν
  worklist : List ν

/-- One round; successors are pushed if the entry of the node was made, changed or erased. -/
def dominatorRound (g bw : EdgeHolder ν) (s : State ν) : Option (State ν) :=
  match s.worklist with
  | [] => none
  | last :: rest =>
    let new := newSet bw s.dominators last
    some ⟨update s.dominators last new,
      if new ≠ s.dominators last then (g.succs last).reverse ++ rest else rest⟩

def initial (start : ν) : State ν := ⟨fun _ => none, [start]⟩

/-- `compute_dominators` returns these sets. -/
def ComputeDominators (g bw : EdgeHolder ν) (start : ν) (dominators : Dominators ν) : Prop :=
  Halts (dominatorRound g bw) (initial start) ⟨dominators, []⟩

/-- Whether a dominator of a node is dominated by all its strict dominators. -/
def isIdom (dominators : Dominators ν) (m n : ν) : Bool :=
  match dominators n with
  | none => false
  | some d => m ∈ d && m ≠ n &&
      decide (∀ p ∈ d, p ≠ n → ∃ e ∈ dominators m, p ∈ e)

/-- `tree_parents`; the nodes are listed in the order of the map, a later entry replaces an earlier
one. -/
def treeParents (order : List ν) (dominators : Dominators ν) (n : ν) : Option ν :=
  (order.filter fun m => isIdom dominators m n).getLast?

/-- The loop that looks for `b` among the ancestors. -/
def isAncestor (parents : ν → Option ν) (b : ν) : ℕ → ν → Option Bool
  | 0, _ => none
  | fuel + 1, crt =>
    if crt = b then some true
    else
      match parents crt with
      | some p => isAncestor parents b fuel p
      | none => some false

def computeAncestors (parents : ν → Option ν) : ℕ → ν → Option (List ν)
  | 0, _ => none
  | fuel + 1, crt =>
    match parents crt with
    | some p => (computeAncestors parents fuel p).map (crt :: ·)
    | none => some []

/-- What is left of the second list where the lists differ; a read behind an end gives none. -/
def diverge : List ν → List ν → Option (List ν)
  | a :: as, b :: bs => if a = b then diverge as bs else some (b :: bs)
  | _, _ => none

abbrev Dependency (ν : Type) := ν → Finset ν

def addDependence (parents : ν → Option ν) (fuel : ℕ) (dependency : Dependency ν) (e : ν × ν × ℤ) :
    Option (Dependency ν) := do
  let as ← computeAncestors parents fuel e.1
  let bs ← computeAncestors parents fuel e.2.1
  let rest ← diverge as.reverse bs.reverse
  let includesA := rest.head? = some e.1
  return update dependency e.1
    (dependency e.1 ∪ (rest.filter fun x => x ≠ e.1 ∨ includesA).toFinset)

def findStartNode (g : EdgeHolder ν) : Option ν :=
  (g.keys.filter fun n => n ∉ g.keys.flatMap g.succs).head?

def crossing (parents : ν → Option ν) (fuel : ℕ) (edges : List (ν × ν × ℤ)) :
    Option (List (ν × ν × ℤ)) :=
  edges.foldlM
    (fun s e => (isAncestor parents e.2.1 fuel e.1).map fun b => if b then s else s ++ [e]) []

def edges (g : EdgeHolder ν) : List (ν × ν × ℤ) :=
  g.keys.flatMap fun a => (g.neighbors a).map fun e => (a, e)

/-- `compute_cdg` with the post-dominators it computes. -/
def cdgOf (order : List ν) (g : EdgeHolder ν) (postdoms : Dominators ν) :
    Option (Dependency ν) := do
  let parents := treeParents order postdoms
  let s ← crossing parents (order.length + 1) (edges g)
  s.foldlM (addDependence parents (order.length + 1)) fun _ => ∅

def ComputeCdg (order : List ν) (g bw : EdgeHolder ν) (dependency : Dependency ν) : Prop :=
  ∃ start postdoms, findStartNode bw = some start ∧ ComputeDominators bw g start postdoms ∧
    cdgOf order g postdoms = some dependency

end Model

section Specification

/-- Graphs with one start and one end. The order lists the nodes. -/
structure IsInput (order : List ν) (g bw : EdgeHolder ν) (start finish : ν) : Prop where
  reached : ∀ n ∈ g.nodes start, Reach g.succs start n
  finishes : ∀ n ∈ g.nodes start, Reach g.succs n finish
  converse : g.Converse bw
  keys : ∀ n ∈ bw.keys, n ∈ g.nodes start
  listed : ∀ n ∈ g.nodes start, n ∈ order

def AreDominators (g : EdgeHolder ν) (start : ν) (dominators : Dominators ν) : Prop :=
  ∀ n ∈ g.nodes start, ∃ d, dominators n = some d ∧ ∀ m, m ∈ d ↔ Dominates g.succs start m n

/-- `m` post-dominates a successor of `n` but not `n` strictly. -/
def ControlDependent (g bw : EdgeHolder ν) (finish n m : ν) : Prop :=
  (∃ s, Edge g.succs n s ∧ Dominates bw.succs finish m s) ∧ ¬StrictlyDominates bw.succs finish m n

structure Correct (order : List ν) (g bw : EdgeHolder ν) (start finish : ν) : Prop where
  dominators : ∃ d, ComputeDominators g bw start d ∧ AreDominators g start d
  dependency : ∃ d, ComputeCdg order g bw d ∧ ∀ n m, m ∈ d n ↔ ControlDependent g bw finish n m

/-- Nodes behind `d` whose sets lack it, each with a predecessor among them to lose it from
again. -/
structure Circulates (g : EdgeHolder ν) (start : ν) (dominators : Dominators ν) (d : ν)
    (lost : Finset ν) : Prop where
  nonempty : lost.Nonempty
  behind : ∀ n ∈ lost, StrictlyDominates g.succs start d n
  lacks : ∀ n ∈ lost, ∃ s ∈ dominators n, d ∉ s
  supported : ∀ n ∈ lost, ∃ p ∈ lost, Edge g.succs p n

/-- The start and the end are such in the graph, both worklists run empty, no round lets a loss
circulate (where the tree is built, no loss of an immediate post-dominator), and no branch is taken
away from a node that follows it on every way to the end. -/
structure Keeps (g bw : EdgeHolder ν) (start finish : ν) : Prop where
  source : ∀ n, ¬Edge g.succs n start
  sink : ∀ n, ¬Edge g.succs finish n
  exit : finish ∈ bw.keys
  ends : ∃ d, ComputeDominators g bw start d
  kept : ∀ s, Visits (dominatorRound g bw) (initial start) s → ∀ d lost,
    ¬Circulates g start s.dominators d lost
  endsBack : ∃ d, ComputeDominators bw g finish d
  keptBack : ∀ s, Visits (dominatorRound bw g) (initial finish) s → ∀ d lost,
    Circulates bw finish s.dominators d lost → ∀ n ∈ lost,
      ¬ImmediatelyDominates bw.succs finish d n
  oneWay : ∀ a b, Edge g.succs a b → ¬Dominates bw.succs finish a b

end Specification

section Intersection

variable {dominators d : Dominators ν} {bw : EdgeHolder ν} {n : ν}

/-- The predecessors that count: from the first one with a set on. -/
def known (dominators : Dominators ν) (preds : List ν) : List ν :=
  preds.dropWhile fun p => (dominators p).isNone

omit [DecidableEq ν] in
theorem mem_known {preds : List ν} (hp : p ∈ preds) (hsome : dominators p ≠ none) :
    p ∈ known dominators preds := by
  rw [← takeWhile_append_dropWhile (p := fun p => (dominators p).isNone) (l := preds)] at hp
  refine (mem_append.mp hp).resolve_left fun htake => hsome (Option.isNone_iff_eq_none.mp ?_)
  exact mem_takeWhile_imp (p := fun p => (dominators p).isNone) htake

omit [DecidableEq ν] in
theorem known_of_some {preds : List ν} (h : ∀ p ∈ preds, dominators p ≠ none) :
    known dominators preds = preds := by
  cases preds with
  | nil => rfl
  | cons p preds =>
    have hp : ¬(dominators p).isNone = true :=
      mt Option.isNone_iff_eq_none.mp (h p mem_cons_self)
    rw [known, dropWhile_cons, if_neg hp]

theorem meetPreds_false (preds : List ν) (s : Finset ν) :
    ∃ t, meetPreds dominators preds (false, s) = (false, t) ∧
      ∀ m, m ∈ t ↔ m ∈ s ∧ ∀ p ∈ preds, ∃ e ∈ dominators p, m ∈ e := by
  induction preds generalizing s with
  | nil => exact ⟨s, rfl, fun m => by simp⟩
  | cons p preds ih =>
    by_cases hs : s = ∅
    · refine ⟨s, by simp [meetPreds, hs], fun m => ?_⟩
      simp [hs]
    · cases hp : dominators p with
      | none =>
        obtain ⟨t, ht, hmem⟩ := ih ∅
        refine ⟨t, by simpa [meetPreds, hs, hp] using ht, fun m => ?_⟩
        rw [hmem m]
        simp [hp]
      | some e =>
        obtain ⟨t, ht, hmem⟩ := ih (e ∩ s)
        refine ⟨t, by simpa [meetPreds, hs, hp] using ht, fun m => ?_⟩
        rw [hmem m, Finset.mem_inter, forall_mem_cons, hp]
        simp only [Option.mem_some_iff, exists_eq_left']
        tauto

theorem meetPreds_of_known {preds : List ν} (h : ∃ p ∈ preds, dominators p ≠ none) :
    ∃ t, meetPreds dominators preds (true, ∅) = (false, t) ∧
      ∀ m, m ∈ t ↔ ∀ p ∈ known dominators preds, ∃ e ∈ dominators p, m ∈ e := by
  induction preds with
  | nil =>
    obtain ⟨p, hp, -⟩ := h
    cases hp
  | cons p preds ih =>
    cases hp : dominators p with
    | none =>
      -- a predecessor without a set before the first one with a set is passed over
      obtain ⟨t, ht, hmem⟩ := ih (by
        obtain ⟨q, hq, hsome⟩ := h
        rcases mem_cons.mp hq with rfl | hq
        · exact absurd hp hsome
        · exact ⟨q, hq, hsome⟩)
      refine ⟨t, by simpa [meetPreds, hp] using ht, fun m => ?_⟩
      rw [hmem m, known, known, dropWhile_cons, hp, Option.isNone_none, if_pos rfl]
    | some e =>
      obtain ⟨t, ht, hmem⟩ := meetPreds_false preds e
      refine ⟨t, by simpa [meetPreds, hp] using ht, fun m => ?_⟩
      rw [hmem m, known, dropWhile_cons, hp, Option.isNone_some, if_neg Bool.false_ne_true,
        forall_mem_cons, hp]
      simp

theorem newSet_of_known (h : ∃ p ∈ bw.succs n, dominators p ≠ none) :
    ∃ t, newSet bw dominators n = some t ∧ ∀ m, m ∈ t ↔ m = n ∨
      ∀ p ∈ known dominators (bw.succs n), ∃ e ∈ dominators p, m ∈ e := by
  obtain ⟨t, ht, hmem⟩ := meetPreds_of_known h
  obtain ⟨p, hp, -⟩ := h
  refine ⟨insert n t, ?_, fun m => ?_⟩
  · simp only [newSet, if_neg (ne_nil_of_mem hp), ht, Bool.false_eq_true, if_false]
  · rw [Finset.mem_insert, hmem m]

theorem newSet_of_source (h : bw.succs n = []) : newSet bw dominators n = some {n} := by
  simp only [newSet, h, if_true, Bool.false_eq_true, if_false]
  rfl

theorem meetPreds_of_none {preds : List ν} (h : ∀ p ∈ preds, dominators p = none) :
    meetPreds dominators preds (true, ∅) = (true, ∅) := by
  induction preds with
  | nil => rfl
  | cons p preds ih =>
    obtain ⟨hp, hpreds⟩ := forall_mem_cons.mp h
    simp only [meetPreds, Bool.not_true, Bool.false_and, Bool.false_eq_true, if_false, hp]
    exact ih hpreds

theorem newSet_of_none (hne : bw.succs n ≠ [])
    (h : ∀ p ∈ bw.succs n, dominators p = none) : newSet bw dominators n = none := by
  simp only [newSet, if_neg hne, meetPreds_of_none h, if_true]

theorem newSet_cases (h : newSet bw dominators n = some t) : t = {n} ∨
    ∀ m, m ∈ t ↔ m = n ∨ ∀ p ∈ known dominators (bw.succs n), ∃ e ∈ dominators p, m ∈ e := by
  by_cases hsource : bw.succs n = []
  · exact Or.inl (Option.some.inj (h.symm.trans (newSet_of_source hsource)))
  · by_cases hknown : ∃ p ∈ bw.succs n, dominators p ≠ none
    · obtain ⟨t', ht', hmem⟩ := newSet_of_known hknown
      cases h.symm.trans ht'
      exact Or.inr hmem
    · have hnone : ∀ p ∈ bw.succs n, dominators p = none :=
        fun p hp => not_not.mp fun hsome => hknown ⟨p, hp, hsome⟩
      cases h.symm.trans (newSet_of_none hsource hnone)

theorem meetPreds_congr {preds : List ν} (h : ∀ p ∈ preds, dominators p = d p)
    (s : Bool × Finset ν) : meetPreds dominators preds s = meetPreds d preds s := by
  induction preds generalizing s with
  | nil => rfl
  | cons p preds ih =>
    obtain ⟨hp, hpreds⟩ := forall_mem_cons.mp h
    obtain ⟨all, newSet⟩ := s
    simp only [meetPreds, hp, ih hpreds]

theorem newSet_congr (h : ∀ p ∈ bw.succs n, dominators p = d p) :
    newSet bw dominators n = newSet bw d n := by
  simp only [newSet, meetPreds_congr h]

end Intersection

section Rounds

variable {g bw : EdgeHolder ν} {start : ν}

/-- Every node is reached from the start, and the second map has the edges the other way round. -/
structure Rooted (g bw : EdgeHolder ν) (start : ν) : Prop where
  reached : ∀ n ∈ g.nodes start, Reach g.succs start n
  converse : g.Converse bw

/-- The worklist holds nodes, and the other nodes have the set they would get now. -/
structure Settling (g bw : EdgeHolder ν) (start : ν) (s : State ν) : Prop where
  nodes : ∀ n ∈ s.worklist, n ∈ g.nodes start
  settled : ∀ n ∈ g.nodes start, n ∈ s.worklist ∨ s.dominators n = newSet bw s.dominators n

/-- A set holds its node, and with a node all that lie between the two. -/
structure Segmented (g : EdgeHolder ν) (start : ν) (dominators : Dominators ν) : Prop where
  own : ∀ n, ∀ s ∈ dominators n, n ∈ s
  between : ∀ n ∈ g.nodes start, ∀ s ∈ dominators n, ∀ p ∈ s, ∀ i,
    StrictlyDominates g.succs start p i → StrictlyDominates g.succs start i n → i ∈ s

theorem dominatorRound_cases (h : dominatorRound g bw s = some t) : ∃ last rest,
    s.worklist = last :: rest ∧
      t.dominators = update s.dominators last (newSet bw s.dominators last) := by
  obtain ⟨dominators, worklist⟩ := s
  cases worklist with
  | nil => cases h
  | cons last rest =>
    cases h
    exact ⟨last, rest, rfl, rfl⟩

/-- A loss that circulates is handed on by every round. -/
theorem Circulates.round (hconverse : g.Converse bw) (h : Circulates g start s.dominators d lost)
    (hround : dominatorRound g bw s = some t) : Circulates g start t.dominators d lost := by
  obtain ⟨last, rest, -, ht⟩ := dominatorRound_cases hround
  refine ⟨h.nonempty, h.behind, fun n hn => ?_, h.supported⟩
  rw [ht]
  by_cases hlast : n = last
  · subst hlast
    obtain ⟨p, hp, hedge⟩ := h.supported n hn
    obtain ⟨e, he, hnot⟩ := h.lacks p hp
    have hpred := hconverse.edge_iff.mpr hedge
    have hsome : s.dominators p ≠ none := Option.ne_none_iff_exists'.mpr ⟨e, he⟩
    obtain ⟨new, hnew, hmem⟩ := newSet_of_known ⟨p, hpred, hsome⟩
    rw [update_self]
    refine ⟨new, hnew, fun hd => ?_⟩
    rcases (hmem d).mp hd with heq | hall
    · exact (h.behind n hn).2 heq
    · obtain ⟨e', he', hd'⟩ := hall p (mem_known hpred hsome)
      cases he.symm.trans he'
      exact hnot hd'
  · rw [update_of_ne hlast]
    exact h.lacks n hn

theorem Circulates.halts (hconverse : g.Converse bw) (h : Circulates g start s.dominators d lost)
    (hhalts : Halts (dominatorRound g bw) s t) : Circulates g start t.dominators d lost :=
  (hhalts.preserves (I := fun u => Circulates g start u.dominators d lost) h
    fun _ _ _ hu hround => hu.round hconverse hround).1

section

variable (h : Rooted g bw start)

include h

theorem Rooted.mem_nodes (hm : m ∈ g.nodes start) (hdom : Dominates g.succs start n m) :
    n ∈ g.nodes start :=
  (closed_nodes start).reach (start_mem_nodes start) (hdom.reach_start (h.reached m hm))

theorem exists_pred (hn : n ∈ g.nodes start) (hne : n ≠ start) : bw.succs n ≠ [] := by
  rcases Relation.ReflTransGen.cases_tail (h.reached n hn) with heq | ⟨u, -, hedge⟩
  · exact absurd heq hne
  · exact ne_nil_of_mem (h.converse.edge_iff.mpr hedge)

theorem settling_initial : Settling g bw start (initial start) := by
  refine ⟨fun n hn => ?_, fun n hn => ?_⟩
  · rw [mem_singleton.mp hn]
    exact start_mem_nodes start
  · by_cases hne : n = start
    · exact Or.inl (mem_singleton.mpr hne)
    · exact Or.inr (newSet_of_none (exists_pred h hn hne) fun _ _ => rfl).symm

theorem settling_round (hs : Settling g bw start s)
    (hround : dominatorRound g bw s = some t) : Settling g bw start t := by
  obtain ⟨dominators, worklist⟩ := s
  cases worklist with
  | nil => cases hround
  | cons last rest =>
    cases hround
    obtain ⟨hlast, hrest⟩ := forall_mem_cons.mp hs.nodes
    by_cases hsame : newSet bw dominators last = dominators last
    · -- the entry stays, and the node has its set
      have hupdate : update dominators last (newSet bw dominators last) = dominators := by
        rw [hsame, update_eq_self]
      simp only [hupdate, if_neg (not_not_intro hsame)]
      refine ⟨hrest, fun n hn => ?_⟩
      rcases hs.settled n hn with hmem | hset
      · rcases mem_cons.mp hmem with rfl | hmem
        · exact Or.inr hsame.symm
        · exact Or.inl hmem
      · exact Or.inr hset
    · simp only [ne_eq, hsame, not_false_eq_true, if_true]
      refine ⟨fun n hn => ?_, fun n hn => ?_⟩
      · rcases mem_append.mp hn with hn | hn
        · exact target_mem_nodes (u := last) (mem_reverse.mp hn)
        · exact hrest n hn
      · by_cases hsucc : n ∈ g.succs last
        · exact Or.inl (mem_append_left _ (mem_reverse.mpr hsucc))
        · -- the set of a node that is no successor does not depend on the entry
          have hpreds : ∀ p ∈ bw.succs n,
              update dominators last (newSet bw dominators last) p = dominators p := by
            intro p hp
            refine update_of_ne ?_ _ _
            rintro rfl
            exact hsucc (h.converse.edge_iff.mp hp)
          rw [newSet_congr hpreds]
          by_cases hn' : n = last
          · subst hn'
            exact Or.inr (update_self ..)
          · rcases hs.settled n hn with hmem | hset
            · exact Or.inl (mem_append_right _ ((mem_cons.mp hmem).resolve_left hn'))
            · exact Or.inr ((update_of_ne hn' _ _).trans hset)

theorem segmented_round (hs : Settling g bw start s) (hseg : Segmented g start s.dominators)
    (hround : dominatorRound g bw s = some t) : Segmented g start t.dominators := by
  obtain ⟨last, rest, hlist, ht⟩ := dominatorRound_cases hround
  have hlast : last ∈ g.nodes start := hs.nodes last (hlist ▸ mem_cons_self)
  rw [ht]
  refine ⟨fun n s' hs' => ?_, fun n hn s' hs' p hp i hpi hin => ?_⟩
  · by_cases hne : n = last
    · subst hne
      rw [update_self] at hs'
      rcases newSet_cases hs' with rfl | hmem
      · exact Finset.mem_singleton_self n
      · exact (hmem n).mpr (Or.inl rfl)
    · rw [update_of_ne hne] at hs'
      exact hseg.own n s' hs'
  · by_cases hne : n = last
    · subst hne
      rw [update_self] at hs'
      have hpn : p ≠ n := by
        rintro rfl
        exact hin.2 (dominates_antisymm hin.1 hpi.1 (h.reached p hn))
      rcases newSet_cases hs' with rfl | hmem
      · exact absurd (Finset.mem_singleton.mp hp) hpn
      · refine (hmem i).mpr (Or.inr fun u hu => ?_)
        -- the node between dominates every predecessor, or is one
        obtain ⟨e, he, hpe⟩ := ((hmem p).mp hp).resolve_left hpn u hu
        refine ⟨e, he, ?_⟩
        have hedge := h.converse.edge_iff.mp ((dropWhile_sublist _).subset hu)
        have hstart : n ≠ start := by
          rintro rfl
          exact hin.2 (dominates_start_iff.mp hin.1)
        have hiu := ((dominates_iff hstart).mp hin.1).resolve_left hin.2 u hedge
        by_cases heq : i = u
        · exact heq ▸ hseg.own u e he
        · exact hseg.between u (source_mem_nodes hedge) e he p hpe i hpi ⟨hiu, heq⟩
    · rw [update_of_ne hne] at hs'
      exact hseg.between n hn s' hs' p hp i hpi hin

/-- When the worklist is empty every node has the set it would get. -/
theorem settled_of_computeDominators (hd : ComputeDominators g bw start d) :
    (∀ n ∈ g.nodes start, d n = newSet bw d n) ∧ Segmented g start d := by
  have hinitial : Segmented g start (initial start).dominators :=
    ⟨fun n s hs => (nomatch hs), fun n _ s hs => (nomatch hs)⟩
  obtain ⟨⟨hsettling, hsegmented⟩, -⟩ := hd.preserves
    (I := fun s => Settling g bw start s ∧ Segmented g start s.dominators)
    ⟨settling_initial h, hinitial⟩ fun _ _ _ hs hround =>
      ⟨settling_round h hs.1 hround, segmented_round h hs.1 hs.2 hround⟩
  exact ⟨fun n hn => (hsettling.settled n hn).resolve_left not_mem_nil, hsegmented⟩

end

end Rounds

section Solutions

variable {g bw : EdgeHolder ν} {start : ν} {dominators : Dominators ν} {nodes : List ν}

/-- Every node has a set, which solves its equation. -/
def Fixed (g : EdgeHolder ν) (start : ν) (dominators : Dominators ν) : Prop :=
  ∀ n ∈ g.nodes start, ∃ s, dominators n = some s ∧ ∀ m, m ∈ s ↔ m = n ∨
    n ≠ start ∧ ∀ p, Edge g.succs p n → ∃ e ∈ dominators p, m ∈ e

theorem fixed_of_settled (h : Rooted g bw start) (hsource : ∀ n, ¬Edge g.succs n start)
    (hset : ∀ n ∈ g.nodes start, dominators n = newSet bw dominators n) :
    Fixed g start dominators := by
  have hnil : bw.succs start = [] :=
    eq_nil_iff_forall_not_mem.mpr fun p hp => hsource p (h.converse.edge_iff.mp hp)
  have hstart : dominators start = some {start} :=
    (hset start (start_mem_nodes start)).trans (newSet_of_source hnil)
  have hsome : ∀ n, Reach g.succs start n → dominators n ≠ none := by
    intro n hn
    induction hn with
    | refl => exact Option.ne_none_iff_exists'.mpr ⟨_, hstart⟩
    | @tail u v _ hedge ih =>
      obtain ⟨t, ht, -⟩ := newSet_of_known ⟨u, h.converse.edge_iff.mpr hedge, ih⟩
      exact Option.ne_none_iff_exists'.mpr ⟨t, (hset v (target_mem_nodes hedge)).trans ht⟩
  intro n hn
  by_cases hne : n = start
  · subst hne
    exact ⟨{n}, hstart, fun m => by simp⟩
  · have hpreds : ∀ p ∈ bw.succs n, dominators p ≠ none :=
      fun p hp => hsome p (h.reached p (source_mem_nodes (h.converse.edge_iff.mp hp)))
    obtain ⟨p, hp⟩ := exists_mem_of_ne_nil _ (exists_pred h hn hne)
    obtain ⟨t, ht, hmem⟩ := newSet_of_known ⟨p, hp, hpreds p hp⟩
    refine ⟨t, (hset n hn).trans ht, fun m => ?_⟩
    rw [hmem m, known_of_some hpreds, and_iff_right hne]
    exact or_congr_right ⟨fun hall q hq => hall q (h.converse.edge_iff.mpr hq),
      fun hall q hq => hall q (h.converse.edge_iff.mp hq)⟩

theorem Fixed.mem_of_path (h : Fixed g start dominators) (hpath : Path g.succs start n nodes) :
    ∀ s ∈ dominators n, ∀ m ∈ s, m ∈ nodes := by
  induction hpath with
  | start =>
    intro s hs m hm
    obtain ⟨s', hs', hmem⟩ := h start (start_mem_nodes start)
    cases hs.symm.trans hs'
    rcases (hmem m).mp hm with rfl | hother
    · exact mem_singleton_self m
    · exact absurd rfl hother.1
  | @step u v nodes _ hedge ih =>
    intro s hs m hm
    obtain ⟨s', hs', hmem⟩ := h v (target_mem_nodes hedge)
    cases hs.symm.trans hs'
    rcases (hmem m).mp hm with rfl | ⟨-, hall⟩
    · exact mem_cons_self
    · obtain ⟨e, he, hme⟩ := hall u hedge
      exact mem_cons_of_mem _ (ih e he m hme)

theorem Fixed.sound (h : Fixed g start dominators) (hs : dominators n = some s) (hm : m ∈ s) :
    Dominates g.succs start m n :=
  fun _ hpath => h.mem_of_path hpath s hs m hm

/-- What a solution lacks circulates in it. -/
theorem Fixed.exists_circulates (h : Fixed g start dominators) (hn : n ∈ g.nodes start)
    (hs : dominators n = some s) (hdom : Dominates g.succs start d n) (hnot : d ∉ s) :
    ∃ lost, Circulates g start dominators d lost ∧ n ∈ lost := by
  classical
  have hmem : ∀ v, v ∈ (g.nodes start).filter (fun v => StrictlyDominates g.succs start d v ∧
      ∃ s ∈ dominators v, d ∉ s) ↔ v ∈ g.nodes start ∧ StrictlyDominates g.succs start d v ∧
      ∃ s ∈ dominators v, d ∉ s := fun v => Finset.mem_filter
  have hstrict : StrictlyDominates g.succs start d n := by
    refine ⟨hdom, ?_⟩
    rintro rfl
    obtain ⟨s', hs', hequation⟩ := h d hn
    cases hs.symm.trans hs'
    exact hnot ((hequation d).mpr (Or.inl rfl))
  have hin := (hmem n).mpr ⟨hn, hstrict, s, hs, hnot⟩
  refine ⟨_, ⟨⟨n, hin⟩, fun v hv => ((hmem v).mp hv).2.1, fun v hv => ((hmem v).mp hv).2.2,
    fun v hv => ?_⟩, hin⟩
  obtain ⟨hv, hdv, s, hs, hnot⟩ := (hmem v).mp hv
  obtain ⟨s', hs', hequation⟩ := h v hv
  cases hs.symm.trans hs'
  have hstart : v ≠ start := by
    rintro rfl
    exact hdv.2 (dominates_start_iff.mp hdv.1)
  have hpred : ∃ p, Edge g.succs p v ∧ ¬∃ e ∈ dominators p, d ∈ e := by
    by_contra hall
    push Not at hall
    exact hnot ((hequation d).mpr (Or.inr ⟨hstart, hall⟩))
  obtain ⟨p, hedge, hlacks⟩ := hpred
  have hp : p ∈ g.nodes start := source_mem_nodes hedge
  obtain ⟨e, he, hequation'⟩ := h p hp
  have hdp := ((dominates_iff hstart).mp hdv.1).resolve_left hdv.2 p hedge
  refine ⟨p, (hmem p).mpr ⟨hp, ⟨hdp, ?_⟩, e, he, fun hde => hlacks ⟨e, he, hde⟩⟩, hedge⟩
  rintro rfl
  exact hlacks ⟨e, he, (hequation' d).mpr (Or.inl rfl)⟩

theorem Fixed.areDominators_iff (h : Fixed g start dominators) :
    AreDominators g start dominators ↔ ∀ d lost, ¬Circulates g start dominators d lost := by
  constructor
  · intro hall d lost hlost
    obtain ⟨n, hn⟩ := hlost.nonempty
    obtain ⟨p, -, hedge⟩ := hlost.supported n hn
    obtain ⟨s, hs, hmem⟩ := hall n (target_mem_nodes hedge)
    obtain ⟨s', hs', hnot⟩ := hlost.lacks n hn
    cases hs.symm.trans hs'
    exact hnot ((hmem d).mpr (hlost.behind n hn).1)
  · intro hnone n hn
    obtain ⟨s, hs, -⟩ := h n hn
    refine ⟨s, hs, fun m => ⟨h.sound hs, fun hdom => ?_⟩⟩
    by_contra hnot
    obtain ⟨lost, hlost, -⟩ := h.exists_circulates hn hs hdom hnot
    exact hnone m lost hlost

theorem fixed_of_computeDominators (h : Rooted g bw start) (hsource : ∀ n, ¬Edge g.succs n start)
    (hd : ComputeDominators g bw start d) : Fixed g start d ∧ Segmented g start d := by
  obtain ⟨hsettled, hsegmented⟩ := settled_of_computeDominators h hd
  exact ⟨fixed_of_settled h hsource hsettled, hsegmented⟩

/-- A start with a predecessor gets no set in the first round, which is then the last. -/
theorem not_edge_start (h : Rooted g bw start) (hd : ComputeDominators g bw start d)
    (hset : d start ≠ none) (n : ν) : ¬Edge g.succs n start := by
  intro hedge
  have hne : bw.succs start ≠ [] := ne_nil_of_mem (h.converse.edge_iff.mpr hedge)
  have hround : dominatorRound g bw (initial start) = some ⟨fun _ => none, []⟩ := by
    have hnone : newSet bw (fun _ => none) start = none := newSet_of_none hne fun _ _ => rfl
    simp only [dominatorRound, initial, hnone, ne_eq, not_true_eq_false, if_false,
      update_eq_self_iff.mpr]
  cases Halts.unique hd (.next hround (.done rfl))
  exact hset rfl

theorem dominators_correct_iff (h : Rooted g bw start) :
    (∃ d, ComputeDominators g bw start d ∧ AreDominators g start d) ↔
      (∀ n, ¬Edge g.succs n start) ∧ (∃ d, ComputeDominators g bw start d) ∧
      ∀ s, Visits (dominatorRound g bw) (initial start) s → ∀ d lost,
        ¬Circulates g start s.dominators d lost := by
  constructor
  · rintro ⟨d, hd, hall⟩
    obtain ⟨s, hs, -⟩ := hall start (start_mem_nodes start)
    have hsource := not_edge_start h hd (Option.ne_none_iff_exists'.mpr ⟨s, hs⟩)
    obtain ⟨hfixed, -⟩ := fixed_of_computeDominators h hsource hd
    refine ⟨hsource, ⟨d, hd⟩, fun u hu k lost hlost => ?_⟩
    exact hfixed.areDominators_iff.mp hall k lost (hlost.halts h.converse (hu.halts hd))
  · rintro ⟨hsource, ⟨d, hd⟩, hkept⟩
    obtain ⟨hfixed, -⟩ := fixed_of_computeDominators h hsource hd
    exact ⟨d, hd, hfixed.areDominators_iff.mpr (hkept _ hd.visits)⟩

end Solutions

section Trees

/-- The ancestors of a node in a tree, without the root. -/
inductive Chain (parents : ν → Option ν) : ν → List ν → Prop where
  | root {n : ν} (h : parents n = none) : Chain parents n []
  | step {n p : ν} {l : List ν} (h : parents n = some p) (hl : Chain parents p l) :
    Chain parents n (n :: l)

variable {parents : ν → Option ν} {n : ν} {l l' : List ν}

section

omit [DecidableEq ν]

theorem Chain.unique (h : Chain parents n l) (h' : Chain parents n l') : l = l' := by
  induction h generalizing l' with
  | root hroot =>
    cases h' with
    | root _ => rfl
    | step hstep _ => cases hroot.symm.trans hstep
  | step hstep _ ih =>
    cases h' with
    | root hroot => cases hroot.symm.trans hstep
    | step hstep' hl' =>
      cases hstep.symm.trans hstep'
      rw [ih hl']

theorem Chain.exists_suffix (h : Chain parents n l) (hx : x ∈ l) :
    ∃ rest, Chain parents x rest ∧ x ∈ rest ∧ rest <:+ l := by
  induction h with
  | root _ => cases hx
  | step hstep hl ih =>
    rcases mem_cons.mp hx with rfl | hx
    · exact ⟨_, .step hstep hl, mem_cons_self, suffix_refl _⟩
    · obtain ⟨rest, hrest, hmem, hsuffix⟩ := ih hx
      exact ⟨rest, hrest, hmem, hsuffix.trans (suffix_cons _ _)⟩

theorem chain_of_computeAncestors (h : computeAncestors parents fuel n = some l) :
    Chain parents n l := by
  induction fuel generalizing n l with
  | zero => cases h
  | succ fuel ih =>
    rw [computeAncestors] at h
    cases hp : parents n with
    | none =>
      rw [hp] at h
      cases h
      exact .root hp
    | some p =>
      rw [hp] at h
      obtain ⟨rest, hrest, rfl⟩ := Option.map_eq_some_iff.mp h
      exact .step hp (ih hrest)

end

theorem exists_of_diverge {as bs : List ν} (h : diverge as bs = some rest) :
    ∃ common a as' b bs', as = common ++ a :: as' ∧ bs = common ++ b :: bs' ∧ a ≠ b ∧
      rest = b :: bs' := by
  induction as generalizing bs with
  | nil => cases h
  | cons a as ih =>
    cases bs with
    | nil => cases h
    | cons b bs =>
      rw [diverge] at h
      by_cases heq : a = b
      · subst heq
        rw [if_pos rfl] at h
        obtain ⟨common, a', as', b', bs', rfl, rfl, hne, hrest⟩ := ih h
        exact ⟨a :: common, a', as', b', bs', rfl, rfl, hne, hrest⟩
      · rw [if_neg heq] at h
        exact ⟨[], a, as, b, bs, rfl, rfl, heq, (Option.some.inj h).symm⟩

theorem exists_diverge {as bs : List ν} (has : ¬as <+: bs) (hbs : ¬bs <+: as) :
    ∃ rest, diverge as bs = some rest := by
  induction as generalizing bs with
  | nil => exact absurd nil_prefix has
  | cons a as ih =>
    cases bs with
    | nil => exact absurd nil_prefix hbs
    | cons b bs =>
      rw [diverge]
      by_cases heq : a = b
      · subst heq
        rw [if_pos rfl]
        exact ih (fun hp => has (cons_prefix_cons.mpr ⟨rfl, hp⟩))
          (fun hp => hbs (cons_prefix_cons.mpr ⟨rfl, hp⟩))
      · rw [if_neg heq]
        exact ⟨_, rfl⟩

omit [DecidableEq ν] in
theorem prefix_common {common as' bs' begin : List ν} (hne : a ≠ b)
    (has : begin <+: common ++ a :: as') (hbs : begin <+: common ++ b :: bs') :
    begin <+: common := by
  induction common generalizing begin with
  | nil =>
    cases begin with
    | nil => exact nil_prefix
    | cons x begin =>
      have hxa := (cons_prefix_cons.mp has).1
      have hxb := (cons_prefix_cons.mp hbs).1
      exact absurd (hxa.symm.trans hxb) hne
  | cons c common ih =>
    cases begin with
    | nil => exact nil_prefix
    | cons x begin =>
      obtain ⟨hxc, has⟩ := cons_prefix_cons.mp has
      obtain ⟨-, hbs⟩ := cons_prefix_cons.mp hbs
      exact cons_prefix_cons.mpr ⟨hxc, ih has hbs⟩

theorem diverge_of_prefix {as bs : List ν} (h : as <+: bs) : diverge as bs = none := by
  cases hdiverge : diverge as bs with
  | none => rfl
  | some rest =>
    obtain ⟨common, a, as', b, bs', rfl, rfl, hne, -⟩ := exists_of_diverge hdiverge
    have hle := (prefix_common hne (prefix_refl _) h).length_le
    rw [length_append, length_cons] at hle
    omega

theorem mem_of_diverge {as bs : List ν} (ha : Chain parents a as) (hb : Chain parents b bs)
    (hnodup : bs.Nodup) (h : diverge as.reverse bs.reverse = some rest) :
    ∀ x, x ∈ rest ↔ x ∈ bs ∧ x ∉ as := by
  obtain ⟨common, a', as', b', bs', hsplit, hsplit', hne, rfl⟩ := exists_of_diverge h
  have hmem : ∀ x, x ∈ bs ↔ x ∈ common ++ b' :: bs' := fun x => by rw [← hsplit', mem_reverse]
  have hdisjoint : List.Disjoint common (b' :: bs') := by
    have hreverse := nodup_reverse.mpr hnodup
    rw [hsplit'] at hreverse
    exact disjoint_of_nodup_append hreverse
  refine fun x => ⟨fun hx => ?_, fun ⟨hxb, hxa⟩ => ?_⟩
  · have hxb := (hmem x).mpr (mem_append_right _ hx)
    refine ⟨hxb, fun hxa => ?_⟩
    obtain ⟨rest, hrest, hxrest, hsuffix⟩ := ha.exists_suffix hxa
    obtain ⟨rest', hrest', -, hsuffix'⟩ := hb.exists_suffix hxb
    cases hrest.unique hrest'
    have hbegin := prefix_common hne (hsplit ▸ reverse_prefix.mpr hsuffix)
      (hsplit' ▸ reverse_prefix.mpr hsuffix')
    exact hdisjoint (hbegin.subset (mem_reverse.mpr hxrest)) hx
  · refine (mem_append.mp ((hmem x).mp hxb)).resolve_left fun hcommon => hxa ?_
    rw [← mem_reverse, hsplit]
    exact mem_append_left _ hcommon

end Trees

section ImmediateDominators

variable {order : List ν} {g r : EdgeHolder ν} {start : ν} {d : Dominators ν} {n : ν}

structure IsTree (g : EdgeHolder ν) (start : ν) (parents : ν → Option ν) : Prop where
  root : parents start = none
  parent : ∀ n ∈ g.nodes start, n ≠ start → ∃ p, parents n = some p ∧
    ImmediatelyDominates g.succs start p n

def KeepsImmediate (g : EdgeHolder ν) (start : ν) (dominators : Dominators ν) : Prop :=
  ∀ n ∈ g.nodes start, ∀ s ∈ dominators n, ∀ i, ImmediatelyDominates g.succs start i n → i ∈ s

theorem Fixed.mem_above (h : Fixed g start d) {nodes : List ν} (hpath : Path g.succs start n nodes)
    (hpi : StrictlyDominates g.succs start p i) :
    (i = n ∨ StrictlyDominates g.succs start i n) → ∀ s ∈ d n, p ∈ s → ∃ e ∈ d i, p ∈ e := by
  induction hpath with
  | start =>
    rintro (rfl | hi) s hs hp
    · exact ⟨s, hs, hp⟩
    · exact absurd (dominates_start_iff.mp hi.1) hi.2
  | @step u v nodes hpath hedge ih =>
    rintro (rfl | hi) s hs hp
    · exact ⟨s, hs, hp⟩
    · obtain ⟨s', hs', hmem⟩ := h v (target_mem_nodes hedge)
      cases hs.symm.trans hs'
      rcases (hmem p).mp hp with rfl | ⟨hstart, hall⟩
      · have hreach : Reach g.succs start p :=
          (Path.step hpath hedge).reach start (dominates_of_start p _ (.step hpath hedge))
        exact absurd (dominates_antisymm hi.1 hpi.1 hreach) hi.2
      · -- a step back from behind the node does not pass it
        obtain ⟨e, he, hpe⟩ := hall u hedge
        have hiu := ((dominates_iff hstart).mp hi.1).resolve_left hi.2 u hedge
        exact ih ((eq_or_ne i u).imp_right fun hne => ⟨hiu, hne⟩) e he hpe

section

variable (h : Rooted g r start) (hd : Fixed g start d) (hkeep : KeepsImmediate g start d)

include h hd hkeep

theorem isIdom_iff (hn : n ∈ g.nodes start) :
    isIdom d m n = true ↔ ImmediatelyDominates g.succs start m n := by
  obtain ⟨s, hs, -⟩ := hd n hn
  have hreach := h.reached n hn
  simp only [isIdom, hs, Bool.and_eq_true, decide_eq_true_eq]
  constructor
  · rintro ⟨⟨hm, hne⟩, hall⟩
    have hmn := hd.sound hs hm
    have hstart : n ≠ start := by
      rintro rfl
      exact hne (dominates_start_iff.mp hmn)
    obtain ⟨i, hi⟩ := exists_immediate (fun _ hk => h.mem_nodes hn hk) hreach hstart
    -- the immediate dominator is in the set, so it dominates the node found as well
    obtain ⟨e, he, hie⟩ := hall i (hkeep n hn s hs i hi) hi.1.2
    have heq := dominates_antisymm (hd.sound he hie) (hi.2 m ⟨hmn, hne⟩) (hmn.reach_start hreach)
    exact heq ▸ hi
  · intro hi
    refine ⟨⟨hkeep n hn s hs m hi, hi.1.2⟩, fun p hp hne => ?_⟩
    have hpm := hi.2 p ⟨hd.sound hs hp, hne⟩
    by_cases heq : p = m
    · subst heq
      obtain ⟨e, he, hmem⟩ := hd p (h.mem_nodes hn hi.1.1)
      exact ⟨e, he, (hmem p).mpr (Or.inl rfl)⟩
    · obtain ⟨nodes, hpath⟩ := exists_path hreach
      exact hd.mem_above hpath ⟨hpm, heq⟩ (Or.inr hi.1) s hs hp

theorem isTree_treeParents (hlisted : ∀ n ∈ g.nodes start, n ∈ order) :
    IsTree g start (treeParents order d) := by
  refine ⟨?_, fun n hn hne => ?_⟩
  · rw [treeParents, getLast?_eq_none_iff, filter_eq_nil_iff]
    intro m _ hidom
    have hstrict := ((isIdom_iff h hd hkeep (start_mem_nodes start)).mp hidom).1
    exact hstrict.2 (dominates_start_iff.mp hstrict.1)
  · obtain ⟨p, hp⟩ := exists_immediate (fun _ hk => h.mem_nodes hn hk) (h.reached n hn) hne
    have hin : p ∈ order.filter fun m => isIdom d m n :=
      mem_filter.mpr ⟨hlisted p (h.mem_nodes hn hp.1.1), (isIdom_iff h hd hkeep hn).mpr hp⟩
    cases hlast : treeParents order d n with
    | none => exact absurd hin (by rw [getLast?_eq_none_iff.mp hlast]; exact not_mem_nil)
    | some q =>
      exact ⟨q, rfl, (isIdom_iff h hd hkeep hn).mp (mem_filter.mp (mem_of_getLast? hlast)).2⟩

end

/-- Without the immediate dominator a set holds its node only, which gets no parent. -/
theorem treeParents_of_lost (hd : Fixed g start d) (hseg : Segmented g start d)
    (hn : n ∈ g.nodes start) (hs : d n = some s) (hi : ImmediatelyDominates g.succs start i n)
    (hnot : i ∉ s) : treeParents order d n = none := by
  rw [treeParents, getLast?_eq_none_iff, filter_eq_nil_iff]
  intro m _ hidom
  simp only [isIdom, hs, Bool.and_eq_true, decide_eq_true_eq] at hidom
  obtain ⟨⟨hm, hne⟩, -⟩ := hidom
  have hmi := hi.2 m ⟨hd.sound hs hm, hne⟩
  have hmne : m ≠ i := fun heq => hnot (heq ▸ hm)
  exact hnot (hseg.between n hn s hs m hm i ⟨hmi, hmne⟩ hi.1)

variable {parents : ν → Option ν} (h : Rooted g r start) (htree : IsTree g start parents)

include h htree

theorem computeAncestors_spec (hn : n ∈ g.nodes start)
    (hfuel : depth g.succs start (g.nodes start) n ≤ fuel) :
    ∃ l, computeAncestors parents fuel n = some l ∧ l.Nodup ∧
      ∀ x, x ∈ l ↔ Dominates g.succs start x n ∧ x ≠ start := by
  induction fuel generalizing n with
  | zero =>
    have hpos : 0 < depth g.succs start (g.nodes start) n := depth_pos hn
    omega
  | succ fuel ih =>
    rw [computeAncestors]
    by_cases hne : n = start
    · subst hne
      rw [htree.root]
      refine ⟨[], rfl, nodup_nil, fun x => ?_⟩
      rw [dominates_start_iff]
      simp
    · obtain ⟨p, hparent, hp⟩ := htree.parent n hn hne
      have hlt := depth_lt hn (h.reached n hn) hp.1
      obtain ⟨l, hl, hnodup, hmem⟩ := ih (h.mem_nodes hn hp.1.1) (by omega)
      refine ⟨n :: l, by rw [hparent]; exact congrArg (Option.map (n :: ·)) hl,
        nodup_cons.mpr ⟨fun hnl => ?_, hnodup⟩, fun x => ?_⟩
      · -- a node that dominates its own parent is the parent
        exact hp.1.2 (dominates_antisymm hp.1.1 ((hmem n).mp hnl).1 (h.reached n hn))
      · rw [mem_cons, hmem x, hp.dominates_iff]
        constructor
        · rintro (rfl | ⟨hx, hxne⟩)
          · exact ⟨Or.inl rfl, hne⟩
          · exact ⟨Or.inr hx, hxne⟩
        · rintro ⟨hx | hx, hxne⟩
          · exact Or.inl hx
          · exact Or.inr ⟨hx, hxne⟩

theorem isAncestor_spec (hn : n ∈ g.nodes start)
    (hfuel : depth g.succs start (g.nodes start) n ≤ fuel) (b : ν) :
    ∃ v, isAncestor parents b fuel n = some v ∧ (v = true ↔ Dominates g.succs start b n) := by
  induction fuel generalizing n with
  | zero =>
    have hpos : 0 < depth g.succs start (g.nodes start) n := depth_pos hn
    omega
  | succ fuel ih =>
    rw [isAncestor]
    by_cases hb : n = b
    · rw [if_pos hb]
      exact ⟨true, rfl, iff_of_true rfl (hb ▸ dominates_refl n)⟩
    · rw [if_neg hb]
      by_cases hne : n = start
      · subst hne
        rw [htree.root]
        refine ⟨false, rfl, iff_of_false Bool.false_ne_true fun hdom => ?_⟩
        exact hb (dominates_start_iff.mp hdom).symm
      · obtain ⟨p, hparent, hp⟩ := htree.parent n hn hne
        have hlt := depth_lt hn (h.reached n hn) hp.1
        obtain ⟨v, hv, hiff⟩ := ih (h.mem_nodes hn hp.1.1) (by omega)
        refine ⟨v, by rw [hparent]; exact hv, hiff.trans ?_⟩
        rw [hp.dominates_iff]
        exact (or_iff_right (Ne.symm hb)).symm

end ImmediateDominators

section Dependences

variable {order : List ν} {g r : EdgeHolder ν} {start : ν} {parents : ν → Option ν} {l : ℤ}

theorem depth_le_fuel (hlisted : ∀ n ∈ g.nodes start, n ∈ order) (n : ν) :
    depth g.succs start (g.nodes start) n ≤ order.length + 1 := by
  have hsub : g.nodes start ⊆ order.toFinset := fun n hn => mem_toFinset.mpr (hlisted n hn)
  calc depth g.succs start (g.nodes start) n
      ≤ (g.nodes start).card := depth_le n
    _ ≤ order.toFinset.card := Finset.card_le_card hsub
    _ ≤ order.length := toFinset_card_le order
    _ ≤ order.length + 1 := Nat.le_succ _

theorem addDependence_of_root (hroot : parents a = none) (fuel : ℕ) (dependency : Dependency ν) :
    addDependence parents (fuel + 1) dependency (a, b, l) = none := by
  rw [addDependence, computeAncestors, hroot]
  cases computeAncestors parents (fuel + 1) b with
  | none => rfl
  | some bs => rfl

section

variable (h : Rooted g r start) (htree : IsTree g start parents)
  (hlisted : ∀ n ∈ g.nodes start, n ∈ order)

include h htree hlisted

/-- An edge against the direction of the tree, neither end above the other, adds the dominators
of its target that its source does not have. -/
theorem addDependence_spec (ha : a ∈ g.nodes start) (hb : b ∈ g.nodes start)
    (hab : ¬Dominates g.succs start a b) (hba : ¬Dominates g.succs start b a)
    (dependency : Dependency ν) :
    ∃ t, addDependence parents (order.length + 1) dependency (a, b, l) = some t ∧
      ∀ x : ν × ν, x.2 ∈ t x.1 ↔ x.2 ∈ dependency x.1 ∨
        x.1 = a ∧ Dominates g.succs start x.2 b ∧ ¬Dominates g.succs start x.2 a := by
  obtain ⟨as, has, -, hmemA⟩ := computeAncestors_spec h htree ha (depth_le_fuel hlisted a)
  obtain ⟨bs, hbs, hnodup, hmemB⟩ := computeAncestors_spec h htree hb (depth_le_fuel hlisted b)
  have hain : a ∈ as :=
    (hmemA a).mpr ⟨dominates_refl a, fun heq => hab (heq ▸ dominates_of_start b)⟩
  have hbin : b ∈ bs :=
    (hmemB b).mpr ⟨dominates_refl b, fun heq => hba (heq ▸ dominates_of_start a)⟩
  have hnota : a ∉ bs := fun hin => hab ((hmemB a).mp hin).1
  obtain ⟨rest, hrest⟩ := exists_diverge
    (fun hp => hnota (( reverse_prefix.mp hp).subset hain))
    (fun hp => hba ((hmemA b).mp (( reverse_prefix.mp hp).subset hbin)).1)
  have hmem := mem_of_diverge (chain_of_computeAncestors has) (chain_of_computeAncestors hbs)
    hnodup hrest
  have hfilter : (rest.filter fun x => x ≠ a ∨ rest.head? = some a) = rest := by
    refine filter_eq_self.mpr fun x hx => decide_eq_true (Or.inl ?_)
    rintro rfl
    exact hnota ((hmem x).mp hx).1
  refine ⟨update dependency a (dependency a ∪ rest.toFinset), ?_, fun ⟨n, m⟩ => ?_⟩
  · simp only [addDependence, has, hbs, hrest, Option.bind_eq_bind, Option.bind_some, hfilter]
    rfl
  · have hm : m ∈ rest ↔ Dominates g.succs start m b ∧ ¬Dominates g.succs start m a := by
      rw [hmem m, hmemA m, hmemB m]
      constructor
      · exact fun ⟨⟨hmb, hne⟩, hma⟩ => ⟨hmb, fun hdom => hma ⟨hdom, hne⟩⟩
      · refine fun ⟨hmb, hma⟩ => ⟨⟨hmb, ?_⟩, fun hin => hma hin.1⟩
        rintro rfl
        exact hma (dominates_of_start a)
    by_cases hna : n = a
    · subst hna
      rw [update_self, Finset.mem_union, mem_toFinset, hm]
      simp
    · rw [update_of_ne hna]
      simp [hna]

/-- The ancestors of an end above the other run out before the lists differ. -/
theorem addDependence_of_dominates (ha : a ∈ g.nodes start) (hb : b ∈ g.nodes start)
    (hab : Dominates g.succs start a b) (dependency : Dependency ν) :
    addDependence parents (order.length + 1) dependency (a, b, l) = none := by
  obtain ⟨as, has, -, hmemA⟩ := computeAncestors_spec h htree ha (depth_le_fuel hlisted a)
  obtain ⟨bs, hbs, -, hmemB⟩ := computeAncestors_spec h htree hb (depth_le_fuel hlisted b)
  have hsuffix : as <:+ bs := by
    by_cases hstart : a = start
    · have hnil : as = [] := eq_nil_iff_forall_not_mem.mpr fun x hx => by
        obtain ⟨hdom, hne⟩ := (hmemA x).mp hx
        exact hne (dominates_start_iff.mp (hstart ▸ hdom))
      exact hnil ▸ nil_suffix
    · obtain ⟨rest, hrest, -, hsuffix⟩ :=
        (chain_of_computeAncestors hbs).exists_suffix ((hmemB a).mpr ⟨hab, hstart⟩)
      exact (chain_of_computeAncestors has).unique hrest ▸ hsuffix
  have hnone := diverge_of_prefix ( reverse_prefix.mpr hsuffix)
  simp only [addDependence, has, hbs, hnone, Option.bind_eq_bind, Option.bind_some,
    Option.bind_none]

theorem crossing_spec (hes : ∀ e ∈ es, e.1 ∈ g.nodes start) :
    ∃ s, crossing parents (order.length + 1) es = some s ∧
      ∀ e, e ∈ s ↔ e ∈ es ∧ ¬Dominates g.succs start e.2.1 e.1 := by
  obtain ⟨s, hs, hmem⟩ := foldlM_collect (M := fun s e => e ∈ s)
    (P := fun a e => e = a ∧ ¬Dominates g.succs start a.2.1 a.1) (l := es)
    (f := fun s e => (isAncestor parents e.2.1 (order.length + 1) e.1).map
      fun b => if b then s else s ++ [e])
    (fun e he s => by
      obtain ⟨v, hv, hiff⟩ := isAncestor_spec h htree (hes e he) (depth_le_fuel hlisted e.1) e.2.1
      refine ⟨_, by rw [hv]; rfl, fun x => ?_⟩
      cases v with
      | true => simp [hiff.mp rfl]
      | false =>
        have hnot : ¬Dominates g.succs start e.2.1 e.1 :=
          fun hdom => Bool.false_ne_true (hiff.mpr hdom)
        simp [hnot]) []
  refine ⟨s, hs, fun e => ?_⟩
  rw [hmem e]
  constructor
  · rintro (hnil | ⟨a, ha, rfl, hnot⟩)
    · cases hnil
    · exact ⟨ha, hnot⟩
  · exact fun ⟨he, hnot⟩ => Or.inr ⟨e, he, rfl, hnot⟩

end

theorem mem_of_crossing {es s : List (ν × ν × ℤ)} (h : crossing parents fuel es = some s)
    (he : e ∈ es) (hnot : isAncestor parents e.2.1 fuel e.1 = some false) : e ∈ s := by
  induction es using List.reverseRecOn generalizing s with
  | nil => cases he
  | append_singleton es c ih =>
    rw [crossing, foldlM_append] at h
    obtain ⟨rest, hrest, h⟩ := Option.bind_eq_some_iff.mp h
    rw [foldlM_cons] at h
    obtain ⟨next, hnext, h⟩ := Option.bind_eq_some_iff.mp h
    obtain ⟨v, hv, rfl⟩ := Option.map_eq_some_iff.mp hnext
    cases h
    rcases mem_append.mp he with he | he
    · have hin := ih hrest he
      split_ifs
      · exact hin
      · exact mem_append_left _ hin
    · cases mem_singleton.mp he
      cases hv.symm.trans hnot
      exact mem_append_right _ (mem_singleton_self e)

omit [DecidableEq ν] in
theorem mem_edges : e ∈ edges g ↔ e.2 ∈ g.neighbors e.1 := by
  obtain ⟨a, e⟩ := e
  rw [edges, mem_flatMap]
  constructor
  · rintro ⟨a', -, hmem⟩
    obtain ⟨e', he', heq⟩ := mem_map.mp hmem
    cases heq
    exact he'
  · intro hmem
    exact ⟨a, source_mem_keys (mem_map_of_mem hmem), mem_map_of_mem hmem⟩

end Dependences

section Correctness

variable {order : List ν} {g bw : EdgeHolder ν} {start finish : ν} {d : Dominators ν}

section

variable (h : IsInput order g bw start finish)

include h

theorem IsInput.mem_nodes_iff : n ∈ bw.nodes finish ↔ n ∈ g.nodes start := by
  constructor
  · intro hn
    rcases Finset.mem_insert.mp hn with rfl | hn
    · exact (closed_nodes start).reach (start_mem_nodes start)
        (h.finishes start (start_mem_nodes start))
    · rcases mem_append.mp (mem_toFinset.mp hn) with hkey | htarget
      · exact h.keys n hkey
      · obtain ⟨u, -, hu⟩ := mem_flatMap.mp htarget
        exact source_mem_nodes (h.converse.edge_iff.mp hu)
  · intro hn
    exact (closed_nodes finish).reach (start_mem_nodes finish)
      (h.converse.reach_iff.mpr (h.finishes n hn))

theorem IsInput.forward : Rooted g bw start := ⟨h.reached, h.converse⟩

theorem IsInput.backward : Rooted bw g finish :=
  ⟨fun n hn => h.converse.reach_iff.mpr (h.finishes n (h.mem_nodes_iff.mp hn)), h.converse.symm⟩

theorem IsInput.mem_filter_iff : n ∈ bw.keys.filter (fun n => n ∉ bw.keys.flatMap bw.succs) ↔
    n = finish ∧ finish ∈ bw.keys ∧ ∀ s, ¬Edge g.succs finish s := by
  have hsource : n ∈ bw.keys.flatMap bw.succs ↔ ∃ s, Edge g.succs n s := by
    rw [mem_flatMap]
    constructor
    · exact fun ⟨s, _, hs⟩ => ⟨s, h.converse.edge_iff.mp hs⟩
    · rintro ⟨s, hs⟩
      have hedge := h.converse.edge_iff.mpr hs
      exact ⟨s, source_mem_keys hedge, hedge⟩
  rw [mem_filter, decide_eq_true_eq, hsource, not_exists]
  constructor
  · rintro ⟨hkey, hnone⟩
    rcases Relation.ReflTransGen.cases_head (h.finishes n (h.keys n hkey)) with rfl | ⟨s, hs, -⟩
    · exact ⟨rfl, hkey, hnone⟩
    · exact absurd hs (hnone s)
  · rintro ⟨rfl, hkey, hnone⟩
    exact ⟨hkey, hnone⟩

theorem IsInput.findStartNode_iff : findStartNode bw = some n ↔
    n = finish ∧ finish ∈ bw.keys ∧ ∀ s, ¬Edge g.succs finish s := by
  rw [findStartNode]
  cases hlist : bw.keys.filter fun n => n ∉ bw.keys.flatMap bw.succs with
  | nil =>
    rw [← h.mem_filter_iff, hlist]
    simp
  | cons m rest =>
    have hm := h.mem_filter_iff.mp (hlist ▸ mem_cons_self (a := m) (l := rest))
    rw [head?_cons, Option.some.injEq]
    constructor
    · rintro rfl
      exact hm
    · exact fun hn => hm.1.trans hn.1.symm

/-- What `compute_cdg` records with the right tree. -/
theorem IsInput.cdgOf_spec (htree : IsTree bw finish (treeParents order d))
    (hone : ∀ a b, Edge g.succs a b → a ≠ b → ¬Dominates bw.succs finish a b) :
    ∃ t, cdgOf order g d = some t ∧ ∀ n m, m ∈ t n ↔ ∃ s, Edge g.succs n s ∧
      ¬Dominates bw.succs finish s n ∧ Dominates bw.succs finish m s ∧
      ¬Dominates bw.succs finish m n := by
  have hlisted : ∀ n ∈ bw.nodes finish, n ∈ order :=
    fun n hn => h.listed n (h.mem_nodes_iff.mp hn)
  have hedge : ∀ e ∈ edges g, Edge g.succs e.1 e.2.1 := fun e he => mem_map_of_mem (mem_edges.mp he)
  obtain ⟨s, hs, hmem⟩ := crossing_spec h.backward htree hlisted
    (fun e he => h.mem_nodes_iff.mpr (source_mem_nodes (hedge e he)))
  have hstep : ∀ e ∈ s, ∀ dependency : Dependency ν, ∃ t,
      addDependence (treeParents order d) (order.length + 1) dependency e = some t ∧
      ∀ x : ν × ν, x.2 ∈ t x.1 ↔ x.2 ∈ dependency x.1 ∨
        x.1 = e.1 ∧ Dominates bw.succs finish x.2 e.2.1 ∧ ¬Dominates bw.succs finish x.2 e.1 := by
    intro e he dependency
    obtain ⟨hin, hnot⟩ := (hmem e).mp he
    refine addDependence_spec h.backward htree hlisted
      (h.mem_nodes_iff.mpr (source_mem_nodes (hedge e hin)))
      (h.mem_nodes_iff.mpr (target_mem_nodes (hedge e hin))) (hone _ _ (hedge e hin) ?_) hnot
      dependency
    intro heq
    exact hnot (heq ▸ dominates_refl e.1)
  obtain ⟨t, ht, hspec⟩ :=
    foldlM_collect (M := fun (t : Dependency ν) (x : ν × ν) => x.2 ∈ t x.1) hstep fun _ => ∅
  refine ⟨t, by rw [cdgOf, hs]; exact ht, fun n m => ?_⟩
  rw [hspec (n, m)]
  constructor
  · rintro (hempty | ⟨e, he, rfl, hdom, hnot⟩)
    · cases Finset.notMem_empty m hempty
    · obtain ⟨hin, hcross⟩ := (hmem e).mp he
      exact ⟨e.2.1, hedge e hin, hcross, hdom, hnot⟩
  · rintro ⟨b, hb, hcross, hdom, hnot⟩
    obtain ⟨⟨b, l⟩, hl, rfl⟩ := mem_map.mp hb
    exact Or.inr ⟨(n, b, l), (hmem _).mpr ⟨mem_edges.mpr hl, hcross⟩, rfl, hdom, hnot⟩

/-- A branch away from a node that post-dominates its target is read past the end. -/
theorem IsInput.cdgOf_eq_none (htree : IsTree bw finish (treeParents order d))
    (hedge : Edge g.succs a b) (hne : a ≠ b) (hdom : Dominates bw.succs finish a b) :
    cdgOf order g d = none := by
  have hlisted : ∀ n ∈ bw.nodes finish, n ∈ order :=
    fun n hn => h.listed n (h.mem_nodes_iff.mp hn)
  have hb : b ∈ bw.nodes finish := h.mem_nodes_iff.mpr (target_mem_nodes hedge)
  obtain ⟨s, hs, hmem⟩ := crossing_spec h.backward htree hlisted
    (fun e he => h.mem_nodes_iff.mpr (source_mem_nodes (mem_map_of_mem (mem_edges.mp he))))
  obtain ⟨⟨b, l⟩, hl, rfl⟩ := mem_map.mp hedge
  have hin : (a, b, l) ∈ s := (hmem _).mpr
    ⟨mem_edges.mpr hl, fun hba => hne (dominates_antisymm hdom hba (h.backward.reached b hb))⟩
  rw [cdgOf, hs]
  exact PythonText.foldlM_eq_none ⟨_, hin, addDependence_of_dominates h.backward htree hlisted
    (h.mem_nodes_iff.mpr (source_mem_nodes hedge)) hb hdom⟩ _

omit h in
theorem exists_other_succ (h : Reach g.succs n finish) (hne : n ≠ finish) :
    ∃ b, Edge g.succs n b ∧ n ≠ b := by
  induction h using Relation.ReflTransGen.head_induction_on with
  | refl => exact absurd rfl hne
  | @head a c hedge _ ih =>
    by_cases heq : a = c
    · exact heq ▸ ih (heq ▸ hne)
    · exact ⟨c, hedge, heq⟩

/-- Where a set lost its immediate dominator, the node has no ancestors to compare. -/
theorem IsInput.cdgOf_of_lost (hfixed : Fixed bw finish d) (hseg : Segmented bw finish d)
    (hn : n ∈ bw.nodes finish) (hs : d n = some s)
    (hi : ImmediatelyDominates bw.succs finish i n) (hnot : i ∉ s) : cdgOf order g d = none := by
  have hroot : treeParents order d n = none := treeParents_of_lost hfixed hseg hn hs hi hnot
  have hne : n ≠ finish := by
    rintro rfl
    exact hi.1.2 (dominates_start_iff.mp hi.1.1)
  obtain ⟨b, hedge, hother⟩ := exists_other_succ (h.finishes n (h.mem_nodes_iff.mp hn)) hne
  obtain ⟨⟨b, l⟩, hl, rfl⟩ := mem_map.mp hedge
  rw [cdgOf]
  cases hcross : crossing (treeParents order d) (order.length + 1) (edges g) with
  | none => rfl
  | some es =>
    have hin : (n, b, l) ∈ es := mem_of_crossing hcross (mem_edges.mpr hl) (by
      rw [isAncestor, if_neg hother, hroot])
    exact PythonText.foldlM_eq_none ⟨_, hin, addDependence_of_root hroot _⟩ _

omit h in
theorem controlDependent_iff
    (hone : ∀ a b, Edge g.succs a b → ¬Dominates bw.succs finish a b) :
    ControlDependent g bw finish n m ↔ ∃ s, Edge g.succs n s ∧ ¬Dominates bw.succs finish s n ∧
      Dominates bw.succs finish m s ∧ ¬Dominates bw.succs finish m n := by
  constructor
  · rintro ⟨⟨s, hs, hdom⟩, hnot⟩
    have hmn : ¬Dominates bw.succs finish m n := by
      intro hmn
      by_cases heq : m = n
      · exact hone n s hs (heq ▸ hdom)
      · exact hnot ⟨hmn, heq⟩
    exact ⟨s, hs, fun hsn => hmn (hdom.trans hsn), hdom, hmn⟩
  · rintro ⟨s, hs, -, hdom, hnot⟩
    exact ⟨⟨s, hs, hdom⟩, fun hstrict => hnot hstrict.1⟩

theorem IsInput.isTree (hfixed : Fixed bw finish d) (hkeep : KeepsImmediate bw finish d) :
    IsTree bw finish (treeParents order d) :=
  isTree_treeParents h.backward hfixed hkeep fun n hn => h.listed n (h.mem_nodes_iff.mp hn)

theorem IsInput.not_edge_back (hsink : ∀ s, ¬Edge g.succs finish s) (n : ν) :
    ¬Edge bw.succs n finish := fun hedge => hsink n (h.converse.edge_iff.mp hedge)

theorem IsInput.dependency_of_keeps (hkeeps : Keeps g bw start finish) :
    ∃ t, ComputeCdg order g bw t ∧ ∀ n m, m ∈ t n ↔ ControlDependent g bw finish n m := by
  obtain ⟨d, hd⟩ := hkeeps.endsBack
  obtain ⟨hfixed, -⟩ := fixed_of_computeDominators h.backward (h.not_edge_back hkeeps.sink) hd
  have hkeep : KeepsImmediate bw finish d := by
    intro n hn s hs i hi
    by_contra hnot
    obtain ⟨lost, hlost, hin⟩ := hfixed.exists_circulates hn hs hi.1.1 hnot
    exact hkeeps.keptBack _ hd.visits i lost hlost n hin hi
  obtain ⟨t, ht, hspec⟩ := h.cdgOf_spec (h.isTree hfixed hkeep) fun a b hedge _ =>
    hkeeps.oneWay a b hedge
  have hfind := h.findStartNode_iff.mpr ⟨rfl, hkeeps.exit, hkeeps.sink⟩
  refine ⟨t, ⟨finish, d, hfind, hd, ht⟩, fun n m => ?_⟩
  rw [hspec n m, controlDependent_iff hkeeps.oneWay]

theorem IsInput.keepsImmediate (hfixed : Fixed bw finish d) (hseg : Segmented bw finish d)
    (ht : cdgOf order g d = some t) : KeepsImmediate bw finish d := by
  intro n hn s hs i hi
  by_contra hnot
  cases ht.symm.trans (h.cdgOf_of_lost hfixed hseg hn hs hi hnot)

/-- A branch of a node to itself makes it depend on itself, which is not recorded. -/
theorem IsInput.oneWay_of_dependency (htree : IsTree bw finish (treeParents order d))
    (ht : cdgOf order g d = some t) (hspec : ∀ n m, m ∈ t n ↔ ControlDependent g bw finish n m)
    (hedge : Edge g.succs a b) : ¬Dominates bw.succs finish a b := by
  have hone : ∀ a b, Edge g.succs a b → a ≠ b → ¬Dominates bw.succs finish a b := by
    intro a b hedge hne hdom
    cases ht.symm.trans (h.cdgOf_eq_none htree hedge hne hdom)
  by_cases heq : a = b
  · subst heq
    obtain ⟨t', ht', hrecorded⟩ := h.cdgOf_spec htree hone
    cases ht.symm.trans ht'
    have hself : ControlDependent g bw finish a a :=
      ⟨⟨a, hedge, dominates_refl a⟩, fun hstrict => hstrict.2 rfl⟩
    obtain ⟨-, -, -, -, hnot⟩ := (hrecorded a a).mp ((hspec a a).mpr hself)
    exact absurd (dominates_refl a) hnot
  · exact hone a b hedge heq

end

end Correctness

section Runs

variable {g bw : EdgeHolder ν} {start : ν}

theorem exists_of_loop
    (h : (loop (dominatorRound g bw) k (initial start)).map (·.worklist) = some []) :
    ∃ d, ComputeDominators g bw start d := by
  obtain ⟨⟨d, worklist⟩, hrun, hlist⟩ := Option.map_eq_some_iff.mp h
  cases hlist
  exact ⟨d, k, hrun⟩

omit [DecidableEq ν] in
theorem forall_path {before : ν → List ν} {nodes : Finset ν}
    (h : ∀ n ∈ nodes, (n :: before n).IsChain (fun v u => Edge g.succs u v) ∧
      (n :: before n).getLast? = some start) :
    ∀ n ∈ nodes, Path g.succs start n (n :: before n) := by
  intro n hn
  obtain ⟨hchain, hlast⟩ := h n hn
  clear hn
  generalize before n = l at hchain hlast
  induction l generalizing n with
  | nil =>
    cases hlast
    exact .start
  | cons u l ih =>
    obtain ⟨hedge, hchain⟩ := isChain_cons_cons.mp hchain
    exact .step (ih u hchain hlast) hedge

/-- With a path to each node: nothing circulates where no set ever lacks a node of the path. -/
theorem not_circulates_of_holdsAlong {before : ν → List ν}
    (hpath : ∀ n ∈ g.nodes start, Path g.succs start n (n :: before n))
    (h : holdsAlong (dominatorRound g bw)
      (fun s => decide (∀ n ∈ g.nodes start, ∀ e ∈ s.dominators n, ∀ d ∈ before n, d ∈ e))
      k (initial start) = true)
    (hs : Visits (dominatorRound g bw) (initial start) s) :
    ¬Circulates g start s.dominators d lost := by
  intro hlost
  obtain ⟨n, hn⟩ := hlost.nonempty
  obtain ⟨p, -, hedge⟩ := hlost.supported n hn
  obtain ⟨e, he, hnot⟩ := hlost.lacks n hn
  have hnode : n ∈ g.nodes start := target_mem_nodes hedge
  obtain ⟨hdom, hne⟩ := hlost.behind n hn
  have hbefore := (mem_cons.mp (hdom _ (hpath n hnode))).resolve_left hne
  have htest := test_of_visits h hs
  exact hnot (of_decide_eq_true htest n hnode e he d hbefore)

end Runs

namespace TwoExits

/-- A loop that is left from both of its nodes. -/
def holder : EdgeHolder ℕ where
  keys := [2, 1, 0]
  neighbors := fun
    | 0 => [(1, 0)]
    | 1 => [(2, 1), (3, 0)]
    | 2 => [(1, 1), (3, 0)]
    | _ => []
  outside n h := by
    match n with
    | 0 | 1 | 2 => simp at h
    | _ + 3 => rfl

theorem isInput : ControlDependence.IsInput [0, 1, 2, 3] holder holder.reverse 0 3 where
  reached := forall_reach (by decide)
  finishes := forall_reach (by decide)
  converse := converse_reverse (by decide)
  keys := by decide
  listed := by decide

def before : ℕ → List ℕ
  | 1 => [0]
  | 2 | 3 => [1, 0]
  | _ => []

def after : ℕ → List ℕ
  | 0 => [1, 3]
  | 1 | 2 => [3]
  | _ => []

theorem path_before : ∀ n ∈ holder.nodes 0, Path holder.succs 0 n (n :: before n) :=
  forall_path (by unfold Edge; decide)

theorem path_after :
    ∀ n ∈ holder.reverse.nodes 3, Path holder.reverse.succs 3 n (n :: after n) :=
  forall_path (by unfold Edge; decide)

theorem keeps : Keeps holder holder.reverse 0 3 where
  source n hedge := forall_edge (P := fun _ v => v ≠ 0) (by decide) n 0 hedge rfl
  sink _ hedge := nomatch hedge
  exit := by decide
  ends := exists_of_loop (k := 20) (by decide +kernel)
  kept _ hs _ _ := not_circulates_of_holdsAlong (k := 20) path_before (by decide +kernel) hs
  endsBack := exists_of_loop (k := 20) (by decide +kernel)
  keptBack _ hs _ _ hlost := absurd hlost
    (not_circulates_of_holdsAlong (k := 20) path_after (by decide +kernel) hs)
  oneWay a b hedge hdom := by
    have havoids := forall_edge (P := fun a b => a ∉ b :: after b) (by decide) a b hedge
    exact havoids (hdom _ (path_after b (isInput.mem_nodes_iff.mpr (target_mem_nodes hedge))))

end TwoExits

namespace WhileLoop

def holder : EdgeHolder ℕ where
  keys := [0, 1, 2]
  neighbors := fun
    | 0 => [(1, 0)]
    | 1 => [(2, 1), (3, 0)]
    | 2 => [(1, 0)]
    | _ => []
  outside n h := by
    match n with
    | 0 | 1 | 2 => simp at h
    | _ + 3 => rfl

theorem isInput : ControlDependence.IsInput [0, 1, 2, 3] holder holder.reverse 0 3 where
  reached := forall_reach (by decide)
  finishes := forall_reach (by decide)
  converse := converse_reverse (by decide)
  keys := by decide
  listed := by decide

theorem loses_start (h : ComputeDominators holder holder.reverse 0 d) : d 1 = some {1} := by
  have hrun : (loop (dominatorRound holder holder.reverse) 10 (initial 0)).map
      (fun s => s.dominators 1) = some (some {1}) := by decide +kernel
  obtain ⟨s, hs, hset⟩ := Option.map_eq_some_iff.mp hrun
  cases Halts.unique h ⟨10, hs⟩
  exact hset

end WhileLoop

end ControlDependence
