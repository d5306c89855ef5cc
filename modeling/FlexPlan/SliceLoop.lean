import FlexPlan.ComputeDT

/-!
# The slicing loop

`mkslice` starts from the branches that a bug depends on and repeats: the locations that their
conditions read, and the branches that decide between the writes of such a location. Every branch of
a round lies strictly in front of one of the round before.
-/
namespace SliceLoop

open FlowGraph CfgAlgos TransitionRuns ComputeDT List EdgeHolder

variable {ν ι Loc : Type}

section Model

variable [DecidableEq ν] [DecidableEq Loc]

/-- The blocks, and what `mkslice` looks at in their instructions. -/
structure Program (ν ι Loc : Type) extends Blocks ν ι where
  reads : ι → List Loc
  isControl : ι → Bool

/-- The further arguments, the nodes that are cut off because they do not lead to the bug, and the
copies that stand for them. -/
structure Arguments (ν ι Loc : Type) where
  bugs : ν → Bool
  alldead : ν → Bool
  boundary : List (ν × ν)
  relax : Bool
  writes : Loc → List ι
  depends : Loc → List ν

variable (p : Program ν ι Loc) (a : Arguments ν ι Loc)

def hcopy : EdgeHolder ν :=
  a.boundary.foldl (fun g e => g.push e.1 (e.2, 0))
    ((p.basicBlocks.removeDeadNodes p.start a.bugs).removeDeadNodes p.start a.alldead)

def ifs (nodes : List ν) : List ι :=
  nodes.flatMap fun b => ((hcopy p a).succs b).flatMap fun x => (p.instructions x).filter p.isIf

def allReads (instrs : List ι) : List Loc := (instrs.flatMap p.reads).dedup

/-- The locations found so far and those to explore, the last one first. -/
abbrev Exploring (Loc : Type) := List Loc × List Loc

def emplace (s : Exploring Loc) (r : Loc) : Exploring Loc :=
  if r ∈ s.1 then s else (s.1 ++ [r], r :: s.2)

def dustarBody : Exploring Loc → Option (Exploring Loc)
  | (_, []) => none
  | (rs, rd :: explore) =>
    some ((((a.writes rd).filter fun i => !p.isControl i || !a.relax).flatMap p.reads).foldl emplace
      (rs, explore))

def locations : List Loc :=
  ((topoSort p.basicBlocks p.start).flatMap p.instructions).flatMap p.reads

def dustar (rs : List Loc) : Option (List Loc) :=
  (loop (dustarBody p a) (rs.length + (locations p).length + 1) (rs, rs.reverse)).map Prod.fst

/-- One round of `while (!B.empty())`. -/
def body : List ν → Option (List ν)
  | [] => none
  | b :: B => (dustar p a (allReads p (ifs p a (b :: B)))).map fun R1 => R1.flatMap a.depends

end Model

section Specification

variable [DecidableEq ν] (p : Program ν ι Loc) (a : Arguments ν ι Loc)

/-- A reachable block with an instruction that reads the location. -/
def ReadIn (m : Loc) (z : ν) : Prop :=
  Reach p.basicBlocks.succs p.start z ∧ ∃ i ∈ p.instructions z, m ∈ p.reads i

/-- What the loop needs of the nodes collected for a location: those it looks at are branches in
front of a join behind which the location is read. -/
def Collects (m : Loc) (nodes : List ν) : Prop :=
  ∀ d ∈ nodes, (hcopy p a).succs d ≠ [] → ∃ join,
    (∃ u v, u ≠ v ∧ Edge p.basicBlocks.succs u join ∧ Edge p.basicBlocks.succs v join) ∧
    (∀ z, ReadIn p m z → Reach p.basicBlocks.succs join z) ∧
    1 < (p.basicBlocks.neighbors d).length ∧
    Relation.TransGen (Edge p.basicBlocks.succs) d join

/-- The arguments of `computeDT` for the program; instructions and the new node are no blocks. -/
structure Surrounds (S : Source ν ι) : Prop where
  blocks : S.toBlocks = p.toBlocks
  converse : p.basicBlocks.Converse S.rBasicBlocks
  injective : S.node.Injective
  node : ∀ i, S.node i ∉ p.basicBlocks.nodes p.start
  fresh : S.fresh ∉ p.basicBlocks.nodes p.start

/-- An acyclic graph in single-assignment form, the writes of its locations and what `computeDT`
collects for them. -/
structure IsInput : Prop where
  acyclic : Acyclic p.basicBlocks.succs
  uncritical : p.basicBlocks.NoCriticalEdges
  writes : ∀ m, ∀ j ∈ a.writes m, ∃ w ∈ topoSort p.basicBlocks p.start, j ∈ p.instructions w
  before : ∀ m, ∀ j ∈ a.writes m, ∀ w, j ∈ p.instructions w → ∀ z, ReadIn p m z →
    Reach p.basicBlocks.succs w z
  apart : ∀ m, (a.writes m).Pairwise fun i j => ∀ w, i ∈ p.instructions w → j ∉ p.instructions w
  depends : ∃ S, Surrounds p S ∧ ∀ m, computeDT S (a.writes m) = some (a.depends m)
  boundary : ∀ e ∈ a.boundary, Reach p.basicBlocks.succs p.start e.1 ∧
    ∃ y ∈ p.basicBlocks.succs e.1, p.instructions e.2 ⊆ p.instructions y

end Specification

section Rounds

variable [DecidableEq ν] {p : Program ν ι Loc} {a : Arguments ν ι Loc}

theorem IsInput.edge_hcopy (h : IsInput p a) {b x : ν} (hedge : Edge (hcopy p a).succs b x) :
    Reach p.basicBlocks.succs p.start b ∧
      ∃ y, Edge p.basicBlocks.succs b y ∧ p.instructions x ⊆ p.instructions y := by
  rcases edge_foldl_push.mp hedge with hedge | ⟨e, he, rfl, rfl⟩
  · obtain ⟨-, -, hedge⟩ := edge_subgraph.mp hedge
    obtain ⟨hkept, -, hedge⟩ := edge_subgraph.mp hedge
    have hreached : b ∈ traverseDf p.basicBlocks p.start := by
      rw [Bool.and_eq_true, decide_eq_true_eq] at hkept
      exact hkept.1
    exact ⟨mem_traverseDf_iff.mp hreached, x, hedge, fun _ hi => hi⟩
  · exact h.boundary e he

theorem IsInput.mem_ifs (h : IsInput p a) {nodes : List ν} {i : ι} (hi : i ∈ ifs p a nodes) :
    ∃ b ∈ nodes, (hcopy p a).succs b ≠ [] ∧ Reach p.basicBlocks.succs p.start b ∧
      ∃ y, Edge p.basicBlocks.succs b y ∧ i ∈ p.instructions y := by
  obtain ⟨b, hb, hi⟩ := mem_flatMap.mp hi
  obtain ⟨x, hx, hi⟩ := mem_flatMap.mp hi
  obtain ⟨hreached, y, hy, hsub⟩ := h.edge_hcopy hx
  exact ⟨b, hb, ne_nil_of_mem hx, hreached, y, hy, hsub (mem_filter.mp hi).1⟩

/-- The predecessors of a join lead nowhere else, so that what two of them reach is behind it. -/
theorem IsInput.reach_join (h : IsInput p a) {u v join z : ν} (hne : u ≠ v)
    (hu : Edge p.basicBlocks.succs u join) (hv : Edge p.basicBlocks.succs v join)
    (huz : Reach p.basicBlocks.succs u z) (hvz : Reach p.basicBlocks.succs v z) :
    Reach p.basicBlocks.succs join z := by
  have hone : ∀ {u v x}, u ≠ v → Edge p.basicBlocks.succs u join →
      Edge p.basicBlocks.succs v join → Edge p.basicBlocks.succs u x → x = join := by
    intro u v x hne hu hv hx
    by_contra hother
    have hmany := DecisionTree.one_lt_length hx hu hother
    rw [EdgeHolder.succs, length_map] at hmany
    exact hne ((h.uncritical u join hmany hu).2 v hv).symm
  rcases Relation.ReflTransGen.cases_head huz with rfl | ⟨x, hx, hxz⟩
  · rcases Relation.ReflTransGen.cases_head hvz with heq | ⟨x, hx, hxu⟩
    · exact absurd heq.symm hne
    · exact hone hne.symm hv hu hx ▸ hxu
  · exact hone hne hu hv hx ▸ hxz

theorem Surrounds.mem_block {S : Source ν ι} (hS : Surrounds p S) {i : ι} {b : ν}
    (hb : blockOf S i = some b) : i ∈ p.instructions b := by
  have hmem := find?_some hb
  obtain ⟨j, hj, heq⟩ := mem_map.mp (of_decide_eq_true hmem)
  rw [← hS.injective heq, ← hS.blocks]
  exact hj

theorem IsInput.collects (h : IsInput p a) (m : Loc) : Collects p a m (a.depends m) := by
  obtain ⟨S, hS, hcompute⟩ := h.depends
  intro d hd hsuccs
  obtain ⟨x, hx⟩ := exists_mem_of_ne_nil _ hsuccs
  have hnode : d ∈ p.basicBlocks.nodes p.start :=
    (closed_nodes p.start).reach (start_mem_nodes p.start) (h.edge_hcopy hx).1
  have hspec := computeDT_spec (by rw [hS.blocks]; exact h.acyclic)
    (by rw [hS.blocks]; exact hS.converse) (hcompute m) hd
  rw [hS.blocks] at hspec
  rcases hspec with rfl | hin | ⟨join, hbranch, hmany, hblocks⟩
  · exact absurd hnode hS.fresh
  · obtain ⟨i, -, rfl⟩ := mem_map.mp hin
    exact absurd hnode (hS.node i)
  · match hwrites : a.writes m, hmany with
    | i :: j :: rest, _ =>
      have hi : i ∈ a.writes m := hwrites ▸ mem_cons_self
      have hj : j ∈ a.writes m := hwrites ▸ mem_cons_of_mem _ mem_cons_self
      obtain ⟨u, hu, huj⟩ := hblocks i hi
      obtain ⟨v, hv, hvj⟩ := hblocks j hj
      have hiu := hS.mem_block hu
      have hjv := hS.mem_block hv
      have hne : u ≠ v := by
        rintro rfl
        have hapart := h.apart m
        rw [hwrites] at hapart
        exact rel_of_pairwise_cons hapart mem_cons_self u hiu hjv
      refine ⟨join, ⟨u, v, hne, huj, hvj⟩, fun z hz => ?_, ?_, ?_⟩
      · exact h.reach_join hne huj hvj (h.before m i hi u hiu z hz) (h.before m j hj v hjv z hz)
      · exact hS.blocks ▸ hbranch.several
      · exact hS.blocks ▸ hbranch.front

theorem IsInput.reach_branch (h : IsInput p a) {b y join : ν}
    (hb : 1 < (p.basicBlocks.neighbors b).length)
    (hy : Edge p.basicBlocks.succs b y)
    (hjoin : ∃ u v, u ≠ v ∧ Edge p.basicBlocks.succs u join ∧ Edge p.basicBlocks.succs v join)
    (hreach : Reach p.basicBlocks.succs join y) : Reach p.basicBlocks.succs join b := by
  have hone := (h.uncritical b y hb hy).2
  rcases Relation.ReflTransGen.cases_tail hreach with rfl | ⟨w, hw, hedge⟩
  · obtain ⟨u, v, hne, hu, hv⟩ := hjoin
    exact absurd ((hone u hu).trans (hone v hv).symm) hne
  · exact hone w hedge ▸ hw

open Classical in
noncomputable def ahead (p : Program ν ι Loc) (b : ν) : ℕ :=
  ((p.basicBlocks.nodes p.start).filter fun n =>
    Relation.TransGen (Edge p.basicBlocks.succs) n b).card

open Classical in
theorem ahead_le (b : ν) : ahead p b ≤ (p.basicBlocks.nodes p.start).card :=
  Finset.card_filter_le _ _

open Classical in
theorem IsInput.ahead_lt (h : IsInput p a) (hd : Relation.TransGen (Edge p.basicBlocks.succs) d b) :
    ahead p d < ahead p b := by
  have hnode : d ∈ p.basicBlocks.nodes p.start := by
    obtain ⟨x, hx, -⟩ := Relation.TransGen.head'_iff.mp hd
    exact source_mem_nodes hx
  refine Finset.card_lt_card ⟨fun n hn => ?_, fun hsub => ?_⟩
  · obtain ⟨hmem, hn⟩ := Finset.mem_filter.mp hn
    exact Finset.mem_filter.mpr ⟨hmem, hn.trans hd⟩
  · exact h.acyclic d (Finset.mem_filter.mp (hsub (Finset.mem_filter.mpr ⟨hnode, hd⟩))).2

variable [DecidableEq Loc]

def work (p : Program ν ι Loc) (s : Exploring Loc) : ℕ :=
  s.2.length + ((locations p).filter fun m => m ∉ s.1).length

theorem work_emplace (hr : r ∈ locations p) : work p (emplace s r) ≤ work p s := by
  by_cases hin : r ∈ s.1
  · have hsame : emplace s r = s := if_pos hin
    rw [hsame]
  · have hnew : emplace s r = (s.1 ++ [r], r :: s.2) := if_neg hin
    have hless : ((locations p).filter fun m => m ∉ s.1 ++ [r]).length <
        ((locations p).filter fun m => m ∉ s.1).length :=
      DecisionTree.length_filter_lt (fun m => by simp) hr hin
    rw [hnew, work, work, length_cons]
    dsimp only
    omega

theorem IsInput.dustar (h : IsInput p a) {Q : Loc → Prop}
    (hQ : ∀ m, Q m → ∀ j ∈ a.writes m, ∀ r ∈ p.reads j, Q r) (hrs : ∀ m ∈ rs, Q m) :
    ∃ R, dustar p a rs = some R ∧ ∀ m ∈ R, Q m := by
  let I : Exploring Loc → Prop := fun s => (∀ m ∈ s.1, Q m) ∧ s.2 ⊆ s.1
  have hemplace : ∀ (reads : List Loc) (s : Exploring Loc),
      (∀ r ∈ reads, Q r ∧ r ∈ locations p) → I s →
      I (reads.foldl emplace s) ∧ work p (reads.foldl emplace s) ≤ work p s := by
    intro reads
    induction reads with
    | nil => exact fun s _ hs => ⟨hs, le_rfl⟩
    | cons r reads ih =>
      intro s hreads hs
      obtain ⟨⟨hr, hmem⟩, hreads⟩ := forall_mem_cons.mp hreads
      have hI : I (emplace s r) := by
        unfold emplace
        split_ifs
        · exact hs
        · refine ⟨forall_mem_append.mpr ⟨hs.1, by simpa using hr⟩, cons_subset.mpr ⟨by simp, ?_⟩⟩
          exact fun m hm => mem_append_left _ (hs.2 hm)
      obtain ⟨hkept, hwork⟩ := ih (emplace s r) hreads hI
      exact ⟨hkept, hwork.trans (work_emplace hmem)⟩
  have hround : ∀ s t, I s → dustarBody p a s = some t → I t ∧ work p t < work p s := by
    rintro ⟨rs, explore⟩ t hs hbody
    cases explore with
    | nil => cases hbody
    | cons rd explore =>
      cases hbody
      have hrd : Q rd := hs.1 rd (hs.2 mem_cons_self)
      have hI : I (rs, explore) := ⟨hs.1, fun m hm => hs.2 (mem_cons_of_mem _ hm)⟩
      have hreads : ∀ r ∈ ((a.writes rd).filter fun i => !p.isControl i ||
        !a.relax).flatMap p.reads,
          Q r ∧ r ∈ locations p := by
        intro r hr
        obtain ⟨j, hj, hr⟩ := mem_flatMap.mp hr
        have hj := (mem_filter.mp hj).1
        obtain ⟨w, hw, hjw⟩ := h.writes rd j hj
        exact ⟨hQ rd hrd j hj r hr, mem_flatMap.mpr ⟨j, mem_flatMap.mpr ⟨w, hw, hjw⟩, hr⟩⟩
      obtain ⟨hkept, hwork⟩ := hemplace _ (rs, explore) hreads hI
      refine ⟨hkept, hwork.trans_lt ?_⟩
      rw [work, work, length_cons]
      dsimp only
      omega
  have hbound : work p (rs, rs.reverse) < rs.length + (locations p).length + 1 := by
    have hfilter := (locations p).length_filter_le fun m => m ∉ rs
    rw [work, length_reverse]
    dsimp only
    omega
  obtain ⟨t, ht, hI, -⟩ :=
    loop_of_measure hround (show I (rs, rs.reverse) from ⟨hrs, by simp⟩) hbound
  exact ⟨t.1, by rw [SliceLoop.dustar, ht, Option.map_some], hI.1⟩

theorem IsInput.round (h : IsInput p a) (hB : B ≠ []) :
    ∃ B', body p a B = some B' ∧ ∀ d ∈ B', ∃ b ∈ B, (hcopy p a).succs b ≠ [] ∧
      ((hcopy p a).succs d ≠ [] →
      1 < (p.basicBlocks.neighbors d).length ∧
        (1 < (p.basicBlocks.neighbors b).length →
          Relation.TransGen (Edge p.basicBlocks.succs) d b)) := by
  -- every location of the round is read in front of a condition behind a branch
  let Q : Loc → Prop := fun m => ∃ b ∈ B, (hcopy p a).succs b ≠ [] ∧
    ∃ y, Edge p.basicBlocks.succs b y ∧ ∃ z, ReadIn p m z ∧ Reach p.basicBlocks.succs z y
  have hfirst : ∀ m ∈ allReads p (ifs p a B), Q m := by
    intro m hm
    obtain ⟨i, hi, hread⟩ := mem_flatMap.mp (mem_dedup.mp hm)
    obtain ⟨b, hb, hactive, hreached, y, hy, hiy⟩ := h.mem_ifs hi
    exact ⟨b, hb, hactive, y, hy, y, ⟨hreached.tail hy, i, hiy, hread⟩, .refl⟩
  have hclosed : ∀ m, Q m → ∀ j ∈ a.writes m, ∀ r ∈ p.reads j, Q r := by
    rintro m ⟨b, hb, hactive, y, hy, z, hz, hzy⟩ j hj r hr
    obtain ⟨w, hw, hjw⟩ := h.writes m j hj
    have hbefore := h.before m j hj w hjw z hz
    exact ⟨b, hb, hactive, y, hy, w, ⟨mem_topoSort_iff.mp hw, j, hjw, hr⟩, hbefore.trans hzy⟩
  obtain ⟨R1, hR1, hfound⟩ := h.dustar hclosed hfirst
  obtain ⟨b₀, B, rfl⟩ := exists_cons_of_ne_nil hB
  refine ⟨R1.flatMap a.depends, by rw [body, hR1, Option.map_some], fun d hd => ?_⟩
  obtain ⟨m, hm, hd⟩ := mem_flatMap.mp hd
  obtain ⟨b, hb, hactive, y, hy, z, hz, hzy⟩ := hfound m hm
  refine ⟨b, hb, hactive, fun hsuccs => ?_⟩
  obtain ⟨join, hjoin, hbehind, hbranch, hfront⟩ := h.collects m d hd hsuccs
  refine ⟨hbranch, fun hmany => ?_⟩
  have hreach := h.reach_branch hmany hy hjoin ((hbehind z hz).trans hzy)
  exact hfront.trans_left hreach

theorem IsInput.halts_of_ahead (h : IsInput p a) (k : ℕ)
    (hB : ∀ b ∈ B, (hcopy p a).succs b ≠ [] →
      1 < (p.basicBlocks.neighbors b).length ∧ ahead p b < k) :
    Halts (body p a) B [] := by
  induction k using Nat.strong_induction_on generalizing B with
  | _ k ih =>
    by_cases hempty : B = []
    · rw [hempty]
      exact Halts.done rfl
    · obtain ⟨B', hround, hfront⟩ := h.round hempty
      refine Halts.next hround ?_
      by_cases hnone : B' = []
      · rw [hnone]
        exact Halts.done rfl
      · obtain ⟨d, hd⟩ := exists_mem_of_ne_nil _ hnone
        obtain ⟨b, hb, hactive, -⟩ := hfront d hd
        have hpos := (hB b hb hactive).2
        refine ih (k - 1) (by omega) fun d hd hsuccs => ?_
        obtain ⟨b, hb, hactive, hstep⟩ := hfront d hd
        obtain ⟨hmany, hahead⟩ := hB b hb hactive
        obtain ⟨hbranch, htrans⟩ := hstep hsuccs
        have hless := h.ahead_lt (htrans hmany)
        exact ⟨hbranch, by omega⟩

/-- The slicing loop ends, from whatever nodes it starts. -/
theorem mkslice_terminates (h : IsInput p a) (B : List ν) : Halts (body p a) B [] := by
  by_cases hempty : B = []
  · rw [hempty]
    exact Halts.done rfl
  · obtain ⟨B', hround, hfront⟩ := h.round hempty
    refine Halts.next hround
      (h.halts_of_ahead ((p.basicBlocks.nodes p.start).card + 1) fun d hd hsuccs => ?_)
    obtain ⟨b, -, -, hstep⟩ := hfront d hd
    exact ⟨(hstep hsuccs).1, Nat.lt_succ_of_le (ahead_le d)⟩

end Rounds

namespace Diamond

def node (k : ℕ) : Fin 16 := ⟨k % 16, Nat.mod_lt k (Nat.succ_pos 15)⟩

/-- A diamond in front of a block that reads what the two sides write. -/
def blocks : EdgeHolder (Fin 16) where
  keys := [node 0, node 1, node 2, node 3]
  neighbors n :=
    if n.val = 0 then [(node 1, 0), (node 2, 1)]
    else if n.val < 3 then [(node 3, 0)]
    else if n.val = 3 then [(node 4, 0)]
    else []
  outside n hn := by
    revert n
    decide

/-- On both sides a condition stands before the assignment. -/
def block : Fin 7 → Fin 16
  | 0 => node 0
  | 1 | 3 => node 1
  | 2 | 4 => node 2
  | 5 => node 3
  | 6 => node 4

def program : Program (Fin 16) (Fin 7) Bool where
  basicBlocks := blocks
  start := node 0
  instructions b := (finRange 7).filter fun i => block i = b
  isIf i := i ∈ [1, 2, 6]
  reads i := [i = 6]
  isControl _ := false

def arguments : Arguments (Fin 16) (Fin 7) Bool :=
  ⟨fun _ => false, fun _ => false, [], false, fun m => if m then [3, 4] else [],
    fun m => if m then [node 0] else []⟩

/-- The instructions are the nodes from 5 on, and they write themselves. -/
def source : Source (Fin 16) (Fin 7) where
  toBlocks := program.toBlocks
  rBasicBlocks := blocks.reverse
  node i := node (i.val + 5)
  canon i := some (node (i.val + 5))
  order := DecisionTree.inserted
  artificial := node 12
  fresh := node 13

theorem eq_block {i : Fin 7} {b : Fin 16} (h : i ∈ program.instructions b) : block i = b :=
  of_decide_eq_true (mem_filter.mp h).2

theorem readIn_true (h : ReadIn program true z) : z = node 4 := by
  obtain ⟨-, i, hi, hread⟩ := h
  obtain rfl : i = 6 := of_decide_eq_true (mem_singleton.mp hread).symm
  exact (eq_block hi).symm

theorem isInput : IsInput program arguments where
  acyclic := acyclic_of_lt (by unfold Edge; decide +kernel)
  uncritical := by
    unfold EdgeHolder.NoCriticalEdges
    decide +kernel
  writes := by decide +kernel
  before m j hj w hw z hz := by
    cases m with
    | false => cases hj
    | true =>
      have hjoin : ∀ j ∈ arguments.writes true, node 3 ∈ blocks.succs (block j) := by decide
      rw [readIn_true hz, ← eq_block hw]
      exact .tail (.single (hjoin j hj)) (show node 4 ∈ blocks.succs (node 3) by decide)
  apart m := by
    cases m with
    | false => exact .nil
    | true =>
      refine pairwise_pair.mpr fun w hi hj => ?_
      exact absurd ((eq_block hi).trans (eq_block hj).symm) (by decide)
  depends := by
    refine ⟨source, ⟨rfl, converse_reverse (by decide), ?_, by decide +kernel, by decide +kernel⟩,
      by decide +kernel⟩
    decide +kernel
  boundary e he := absurd he not_mem_nil

end Diamond

theorem diamond_terminates : IsInput Diamond.program Diamond.arguments ∧
    Halts (body Diamond.program Diamond.arguments) [3] [] :=
  ⟨Diamond.isInput, mkslice_terminates Diamond.isInput [3]⟩

end SliceLoop
