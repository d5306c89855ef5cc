import FlexPlan.Footprint
import FlexPlan.PythonText

/-!
# Moving a block of tables

`table_dependency_analysis` decides whether a block may be moved behind the nodes that follow it, by
the in-sets and out-sets collected from keys and actions.
-/
namespace TableDependency

open PythonText Footprint

section Program

inductive Node where
  | condition (elements : List Str)
  | table (name : Str)

/-- The tables that are collected from the program; sets are listed. -/
structure Tables where
  nodes : Dict ℕ Node
  tableKeys : Dict Str (List Str)
  tableActions : Dict Str (List Str)
  actionsIn : Dict Str (List Str)
  actionsOut : Dict Str (List Str)
  controlDependencies : Dict ℕ (List ℕ)
  dataDependencies : Dict ℕ (List ℕ)

variable (p : Tables)

def entries {α β : Type} [DecidableEq α] (d : Dict α (List β)) (k : α) : List β :=
  (d.get? k).getD []

-- The recursion follows the dependencies, which come from the lines of a program.
def calculateSubblocks : ℕ → ℕ → Bool → Option (List ℕ)
  | 0, _, _ => none
  | fuel + 1, node, lead => do
    let control ← (entries p.controlDependencies node).mapM fun key =>
      calculateSubblocks fuel key true
    let data ← if lead then
        (entries p.dataDependencies node).mapM fun key => calculateSubblocks fuel key true
      else some []
    some (node :: (control.flatten ++ data.flatten))

def dfsSearchSingleTableMove (stop : ℕ) : ℕ → ℕ → Option (List ℕ)
  | 0, _ => none
  | fuel + 1, start =>
    if start = stop then some []
    else do
      let related ← (entries p.dataDependencies start).mapM fun next =>
        (dfsSearchSingleTableMove stop fuel next).map (next :: ·)
      some related.flatten

def subblocks (fuel : ℕ) : Option (Dict ℕ (List ℕ)) :=
  p.nodes.mapM fun e => (calculateSubblocks p fuel e.1 false).map (e.1, ·)

/-- A line that is no node has no entry and raises. -/
def getActualNodes (blocks : Dict ℕ (List ℕ)) (related : List ℕ) : Option (List ℕ) :=
  (related.mapM blocks.get?).map List.flatten

def getInDependency (node : ℕ) : List Str :=
  match p.nodes.get? node with
  | none => []
  | some (.condition elements) => elements
  | some (.table name) =>
    entries p.tableKeys name ++ (entries p.tableActions name).flatMap fun act =>
      entries p.actionsIn act

def getOutDependency (node : ℕ) : List Str :=
  match p.nodes.get? node with
  | none | some (.condition _) => []
  | some (.table name) => (entries p.tableActions name).flatMap fun act => entries p.actionsOut act

inductive Verdict where
  | noConflict
  | nodesBelowDepend (names : List Str)
  | movedNodeDepends (names : List Str)
  deriving DecidableEq

def verdict (passedNodes testedNodes : List ℕ) : Verdict :=
  let passedIn := passedNodes.flatMap (getInDependency p)
  let testedOut := testedNodes.flatMap (getOutDependency p)
  let passedOut := passedNodes.flatMap (getOutDependency p)
  let testedIn := testedNodes.flatMap (getInDependency p)
  let below := passedIn.filter (· ∈ testedOut)
  let above := passedOut.filter (· ∈ testedIn)
  if below = [] ∧ above = [] then .noConflict
  else if below ≠ [] then .nodesBelowDepend below
  else .movedNodeDepends above

def analyse (fuel startNode endNode : ℕ) : Option Verdict := do
  let blocks ← subblocks p fuel
  let related ← dfsSearchSingleTableMove p endNode fuel startNode
  let passedNodes ← getActualNodes blocks related
  let testedNodes ← getActualNodes blocks [startNode]
  some (verdict p passedNodes testedNodes)

end Program

section Safety

variable (p : Tables)

def reads (node : ℕ) : Set Str := {x | x ∈ getInDependency p node}

def writes (node : ℕ) : Set Str := {x | x ∈ getOutDependency p node}

/-- An effect for every node that keeps to the in-set and the out-set of the node. -/
abbrev Effects (V : Type) := (node : ℕ) → Effect V (reads p node) (writes p node)

/-- A sequence of nodes that is split into the moved block and the nodes it moves behind. -/
structure Move where
  passed : List ℕ
  tested : List ℕ
  apart : ∀ n ∈ passed, n ∉ tested

def Move.Safe (m : Move) (V : Type) : Prop :=
  ∀ (e : Effects p V) (s : Str → V), runAll e (m.passed ++ m.tested) s =
    runAll e (m.tested ++ m.passed) s

def Move.WritesApart (m : Move) : Prop :=
  ∀ n ∈ m.passed, ∀ k ∈ m.tested, ∀ x ∈ getOutDependency p n, x ∉ getOutDependency p k

instance (m : Move) : Decidable (m.WritesApart p) :=
  inferInstanceAs (Decidable (∀ n ∈ m.passed, ∀ k ∈ m.tested, ∀ x ∈ _, _))

variable {p} {V : Type}

theorem disjoint_of_noConflict {passed tested : List ℕ} (h : verdict p passed tested = .noConflict)
    (hn : n ∈ passed) (hk : k ∈ tested) :
    Disjoint (writes p n) (reads p k) ∧ Disjoint (writes p k) (reads p n) := by
  unfold verdict at h
  dsimp only at h
  split_ifs at h with hempty
  obtain ⟨hbelow, habove⟩ := hempty
  rw [List.filter_eq_nil_iff] at hbelow habove
  constructor
  · refine Set.disjoint_left.mpr fun x hx hread => ?_
    refine habove x (List.mem_flatMap.mpr ⟨n, hn, hx⟩) ?_
    exact decide_eq_true (List.mem_flatMap.mpr ⟨k, hk, hread⟩)
  · refine Set.disjoint_left.mpr fun x hx hread => ?_
    refine hbelow x (List.mem_flatMap.mpr ⟨n, hn, hread⟩) ?_
    exact decide_eq_true (List.mem_flatMap.mpr ⟨k, hk, hx⟩)

theorem Move.safe_of_writesApart {m : Move} (h : verdict p m.passed m.tested = .noConflict)
    (hwrites : m.WritesApart p) : m.Safe p V := by
  intro e s
  refine runAll_append_comm (fun n hn k hk s => ?_) s
  obtain ⟨hread, hread'⟩ := disjoint_of_noConflict h hn hk
  have hwrite : Disjoint (writes p n) (writes p k) := Set.disjoint_left.mpr (hwrites n hn k hk)
  exact Effect.run_comm _ _ hread hread' hwrite s

/-- Every node that may write a location writes a constant there, one constant on each side. -/
def opposing (p : Tables) (m : Move) (x : Str) (a b : V) : Effects p V := fun n =>
  if h : x ∈ getOutDependency p n then
    Effect.store (show x ∈ writes p n from h) (if n ∈ m.tested then a else b)
  else Effect.skip

theorem opposing_run (m : Move) (a b : V) (hx : x ∈ getOutDependency p n) (s : Str → V) :
    (opposing p m x a b n).run s x = if n ∈ m.tested then a else b := by
  rw [opposing, dif_pos hx]
  exact Effect.run_store _ _ s

theorem opposing_keep (m : Move) (a b : V) (n : ℕ) (s : Str → V) :
    (opposing p m x a b n).run s x = (if n ∈ m.tested then a else b) ∨
      (opposing p m x a b n).run s x = s x := by
  by_cases hx : x ∈ getOutDependency p n
  · exact Or.inl (opposing_run m a b hx s)
  · right
    rw [opposing, dif_neg hx, Effect.run_skip]

theorem runAll_opposing (m : Move) (a b : V) (hside : ∀ n ∈ ns, (if n ∈ m.tested then a else b) = v)
    (hwrite : ∃ n ∈ ns, x ∈ getOutDependency p n) (s : Str → V) :
    runAll (opposing p m x a b) ns s x = v := by
  refine runAll_eq_of_write (fun n hn s => ?_) (Or.inr ?_)
  · rw [← hside n hn]
    exact opposing_keep m a b n s
  · obtain ⟨n, hn, hx⟩ := hwrite
    refine ⟨n, hn, fun s => ?_⟩
    rw [opposing_run m a b hx, hside n hn]

theorem Move.writesApart_of_safe [Nontrivial V] {m : Move} (h : m.Safe p V) : m.WritesApart p := by
  intro n hn k hk x hx hx'
  obtain ⟨a, b, hab⟩ := exists_pair_ne V
  have htested : ∀ j ∈ m.tested, (if j ∈ m.tested then a else b) = a := fun j hj => if_pos hj
  have hpassed : ∀ j ∈ m.passed, (if j ∈ m.tested then a else b) = b :=
    fun j hj => if_neg (m.apart j hj)
  have hsame := congrFun (h (opposing p m x a b) fun _ => a) x
  rw [runAll_append, runAll_append, runAll_opposing m a b htested ⟨k, hk, hx'⟩,
    runAll_opposing m a b hpassed ⟨n, hn, hx⟩] at hsame
  exact hab hsame

/-- A move without a detected conflict is safe exactly if no location is written on both
sides, which is not checked. -/
theorem noConflict_safe_iff [Nontrivial V] (m : Move)
    (h : verdict p m.passed m.tested = .noConflict) :
    m.Safe p V ↔ m.WritesApart p :=
  ⟨Move.writesApart_of_safe, Move.safe_of_writesApart h⟩

end Safety

namespace TwoTables

def tables (first second : Str) : Tables where
  nodes := [(1, .table "acl".toList), (2, .table "route".toList)]
  tableKeys := [("acl".toList, ["hdr.ip.src".toList]), ("route".toList, ["hdr.ip.dst".toList])]
  tableActions := [("acl".toList, ["deny".toList]), ("route".toList, ["forward".toList])]
  actionsIn := []
  actionsOut := [("deny".toList, [first]), ("forward".toList, [second])]
  controlDependencies := []
  dataDependencies := [(1, [2])]

def move : Move := ⟨[2], [1], by decide⟩

def samePort : Tables := tables "meta.port".toList "meta.port".toList

def otherPort : Tables := tables "meta.drop".toList "meta.port".toList

end TwoTables

open TwoTables

/-- Both tables set the port: the one that is applied last decides. -/
theorem same_port_not_safe : analyse samePort 3 1 2 = some .noConflict ∧ ¬move.Safe samePort ℕ :=
  ⟨by decide +kernel, fun h => absurd (Move.writesApart_of_safe h) (by decide +kernel)⟩

theorem other_port_safe : analyse otherPort 3 1 2 = some .noConflict ∧ move.Safe otherPort ℕ :=
  ⟨by decide +kernel, (noConflict_safe_iff move (by decide +kernel)).mpr (by decide +kernel)⟩

end TableDependency
