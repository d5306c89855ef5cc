import FlexPlan.LiveVariables
import FlexPlan.WorklistAlgo
import Mathlib.Data.Finset.Lattice.Basic
import Mathlib.Data.Fintype.Sets
import Mathlib.Data.Fintype.Powerset
import Mathlib.Order.Preorder.Finite

/-!
# Reaching definitions

`compute_reverse` numbers the pairs of a location and an instruction that writes it. A block passes
its entry set through its instructions, and the worklist merges the sets over the edges. The result
is the set of last writers over all paths.
-/
namespace ReachingDefinitions

open FlowGraph CfgAlgos TransitionRuns LiveVariables WorklistAlgo List

variable {ν ι Loc : Type}

section Specification

variable (P : BlockGraph ν ι Loc)

/-- A path leads from just after the instruction to the entry of the block, and nothing on it writes
the location. -/
def ReachesEntry (d : ι) (x : Loc) (b : ν) : Prop :=
  ∃ c before after between, P.instructions c = before ++ d :: after ∧
    IsPath P.g.succs (c :: (between ++ [b])) ∧
      ∀ j ∈ after ++ between.flatMap P.instructions, x ∉ P.ws j

/-- No instruction stands in two blocks, or twice in one. -/
structure InstructionsOnce (start : ν) : Prop where
  inBlock : ∀ n, Reach P.g.succs start n → (P.instructions n).Nodup
  apart : ∀ m n, Reach P.g.succs start m → Reach P.g.succs start n → m ≠ n →
    ∀ i ∈ P.instructions m, i ∉ P.instructions n

end Specification

section Model

variable [DecidableEq ν] [DecidableEq ι] [DecidableEq Loc] (P : BlockGraph ν ι Loc) (start : ν)

def reverseWrites (x : Loc) : List ι :=
  ((traverseDf P.g start).flatMap P.instructions).filter fun i => x ∈ P.ws i

/-- The keys of `reverse_writes`. -/
def memPaths : Finset Loc :=
  unionOver (fun i => P.rs i ∪ P.ws i) ((traverseDf P.g start).flatMap P.instructions)

/-- The pairs with an index; no instruction stands for the value before the program. -/
def mainIndex : Finset (Loc × Option ι) :=
  (memPaths P start).biUnion fun x =>
    (none :: (reverseWrites P start x).map some).toFinset.image (Prod.mk x)

/-- The check raises for an instruction that writes a location twice. -/
def computeReverse : Option (Finset (Loc × Option ι)) :=
  if ∀ x ∈ memPaths P start, (reverseWrites P start x).Nodup then some (mainIndex P start) else none

abbrev Lattice (index : Finset (Loc × Option ι)) := Finset index

variable (index : Finset (Loc × Option ι))

def undefined : Lattice index := Finset.univ.filter fun d => d.1.2 = none

variable {index}

/-- The instruction sets its own bit and resets the others, for every location that it writes. -/
def transfer (l : Lattice index) (n : ι) : Lattice index :=
  (l.filter fun d => ¬(d.1.1 ∈ P.ws n ∧ d.1.2 ≠ some n)) ∪
    Finset.univ.filter fun d => d.1.1 ∈ P.ws n ∧ d.1.2 = some n

variable (index)

/-- No basic block has type `END`, so that the transfer along a return, which raises, is not
used. -/
def analysis : Analysis ν (Lattice index) where
  current := P.g
  isEnd _ := false
  callNode n := n
  xfer n _ l := (P.instructions n).foldl (transfer P) l
  xferReturn _ _ atCall _ := atCall
  factory := undefined index
  discipline := defaultDiscipline P.g start

variable {index}

def reported (l : Lattice index) (d : ι) (x : Loc) : Prop := (x, some d) ∈ l.image Subtype.val

end Model

section Transfer

variable [DecidableEq ι] [DecidableEq Loc] {P : BlockGraph ν ι Loc} {start : ν}
variable {index : Finset (Loc × Option ι)} {l l' : Lattice index} {d : index}

theorem mem_transfer :
    d ∈ transfer P l i ↔ (d.1.1 ∈ P.ws i ∧ d.1.2 = some i) ∨ (d.1.1 ∉ P.ws i ∧ d ∈ l) := by
  simp only [transfer, Finset.mem_union, Finset.mem_filter, Finset.mem_univ, true_and]
  tauto

theorem mem_foldl_transfer {instrs : List ι} : d ∈ instrs.foldl (transfer P) l ↔
    (∃ before i after, instrs = before ++ i :: after ∧ d.1.2 = some i ∧ d.1.1 ∈ P.ws i ∧
      ∀ j ∈ after, d.1.1 ∉ P.ws j) ∨ ((∀ j ∈ instrs, d.1.1 ∉ P.ws j) ∧ d ∈ l) := by
  induction instrs generalizing l with
  | nil => simp
  | cons k instrs ih =>
    rw [foldl_cons, ih, mem_transfer, forall_mem_cons]
    constructor
    · rintro (⟨before, i, after, rfl, hd, hw, hafter⟩ | ⟨hfree, ⟨hw, hd⟩ | ⟨hw, hd⟩⟩)
      · exact Or.inl ⟨k :: before, i, after, rfl, hd, hw, hafter⟩
      · exact Or.inl ⟨[], k, instrs, rfl, hd, hw, hfree⟩
      · exact Or.inr ⟨⟨hw, hfree⟩, hd⟩
    · rintro (⟨before, i, after, heq, hd, hw, hafter⟩ | ⟨⟨hw, hfree⟩, hd⟩)
      · cases before with
        | nil =>
          cases heq
          exact Or.inr ⟨hafter, Or.inl ⟨hw, hd⟩⟩
        | cons _ before =>
          cases heq
          exact Or.inl ⟨before, i, after, rfl, hd, hw, hafter⟩
      · exact Or.inr ⟨hfree, Or.inr ⟨hw, hd⟩⟩

variable [DecidableEq ν]

theorem transfer_monotone : TransferMonotone (analysis P start index) := by
  intro n e l l' hle d hd
  rcases mem_foldl_transfer.mp hd with hlast | ⟨hfree, hl⟩
  · exact mem_foldl_transfer.mpr (Or.inl hlast)
  · exact mem_foldl_transfer.mpr (Or.inr ⟨hfree, hle hl⟩)

theorem noReturnsFromEnds : NoReturnsFromEnds (analysis P start index) := nofun

end Transfer

section Solution

variable {P : BlockGraph ν ι Loc} {start : ν} {index : Finset (Loc × Option ι)}

theorem ReachesEntry.through (h : ReachesEntry P d x n)
    (hfree : ∀ j ∈ P.instructions n, x ∉ P.ws j) (hedge : Edge P.g.succs n m) :
    ReachesEntry P d x m := by
  obtain ⟨c, before, after, between, hc, hpath, hbetween⟩ := h
  refine ⟨c, before, after, between ++ [n], hc, ?_, ?_⟩
  · have hlast : (c :: (between ++ [n])).getLast? = some n := getLast?_concat (l := c :: between)
    have happend := isChain_append.mpr ⟨hpath, isChain_singleton m, by simpa [hlast] using hedge⟩
    simpa using happend
  · intro j hj
    rw [flatMap_append, ← append_assoc] at hj
    rcases mem_append.mp hj with hj | hj
    · exact hbetween j hj
    · exact hfree j (by simpa using hj)

open Classical in
/-- The definitions that reach a block, and every value from before the program. -/
noncomputable def lastWriters (P : BlockGraph ν ι Loc) (index : Finset (Loc × Option ι)) (n : ν) :
    Lattice index :=
  Finset.univ.filter fun d => ∀ i, d.1.2 = some i → ReachesEntry P i d.1.1 n

theorem mem_lastWriters :
    d ∈ lastWriters P index n ↔ ∀ i, d.1.2 = some i → ReachesEntry P i d.1.1 n := by
  simp [lastWriters]

variable [DecidableEq ι] [DecidableEq Loc]

theorem mem_of_path {r : ν → Option (Lattice index)}
    (hsolved : ∀ n l, r n = some l → ∀ e ∈ P.g.neighbors n,
      ∃ l', r e.1 = some l' ∧ (P.instructions n).foldl (transfer P) l ≤ l') {between : List ν}
    (hpath : IsPath P.g.succs (c :: (between ++ [b]))) (hc : r c = some l)
    (hd : d ∈ (P.instructions c).foldl (transfer P) l)
    (hfree : ∀ j ∈ between.flatMap P.instructions, d.1.1 ∉ P.ws j) :
    ∃ l', r b = some l' ∧ d ∈ l' := by
  induction between generalizing c l with
  | nil =>
    obtain ⟨e, he, rfl⟩ := mem_map.mp (isChain_cons_cons.mp hpath).1
    obtain ⟨l', hl', hle⟩ := hsolved c l hc e he
    exact ⟨l', hl', hle hd⟩
  | cons m between ih =>
    obtain ⟨hedge, hrest⟩ := isChain_cons_cons.mp hpath
    obtain ⟨e, he, rfl⟩ := mem_map.mp hedge
    obtain ⟨l', hl', hle⟩ := hsolved c l hc e he
    rw [flatMap_cons, forall_mem_append] at hfree
    exact ih hrest hl' (mem_foldl_transfer.mpr (Or.inr ⟨hfree.1, hle hd⟩)) hfree.2

variable [DecidableEq ν]

theorem lastWriters_solves :
    Solves (analysis P start index) start (undefined index) (Reach P.g.succs start)
      (lastWriters P index) where
  initial d hd := by
    have hnone : d.1.2 = none := by simpa [undefined] using hd
    exact mem_lastWriters.mpr fun i hi => absurd (hnone.symm.trans hi) nofun
  closed n _ e he d hd := by
    have hedge : Edge P.g.succs n e.1 := mem_map_of_mem he
    refine mem_lastWriters.mpr fun i hi => ?_
    rcases mem_foldl_transfer.mp hd with ⟨before, k, after, hn, hk, -, hafter⟩ | ⟨hfree, hd⟩
    · cases hi.symm.trans hk
      refine ⟨n, before, after, [], hn, ?_, by simpa using hafter⟩
      exact isChain_cons_cons.mpr ⟨hedge, isChain_singleton _⟩
    · exact (mem_lastWriters.mp hd i hi).through hfree hedge

theorem mem_mainIndex (hn : Reach P.g.succs start n) (hi : i ∈ P.instructions n)
    (hx : x ∈ P.ws i) : (x, some i) ∈ mainIndex P start := by
  have hinstr : i ∈ (traverseDf P.g start).flatMap P.instructions :=
    mem_flatMap.mpr ⟨n, mem_traverseDf_iff.mpr hn, hi⟩
  refine Finset.mem_biUnion.mpr ⟨x, mem_unionOver.mpr ⟨i, hinstr, Finset.mem_union_right _ hx⟩, ?_⟩
  refine Finset.mem_image_of_mem _ (mem_toFinset.mpr (mem_cons_of_mem _ (mem_map_of_mem ?_)))
  exact mem_filter.mpr ⟨hinstr, by simpa using hx⟩

theorem InstructionsOnce.computeReverse (h : InstructionsOnce P start) :
    computeReverse P start = some (mainIndex P start) := by
  refine if_pos fun x _ => List.Nodup.filter _ ?_
  refine nodup_flatMap.mpr ⟨fun n hn => h.inBlock n (mem_traverseDf_iff.mp hn), ?_⟩
  refine (show (traverseDf P.g start).Nodup from nodup_traverseDf).imp_of_mem ?_
  intro m n hm hn hne i him hin
  exact h.apart m n (mem_traverseDf_iff.mp hm) (mem_traverseDf_iff.mp hn) hne i him hin

end Solution

/-- The worklist ends, and an instruction is reported at the entry of a block exactly if what it
wrote may still be there. -/
theorem reachingDefinitions_exact [DecidableEq ν] [DecidableEq ι] [DecidableEq Loc]
    (P : BlockGraph ν ι Loc)
    (start : ν) (hreach : ∀ n ∈ P.g.nodes start, Reach P.g.succs start n)
    (honce : InstructionsOnce P start) :
    ∃ index, computeReverse P start = some index ∧ ∃ r,
      Halts (body (analysis P start index)) (initial start (undefined index)) ⟨r, []⟩ ∧
      ∀ b ∈ P.g.nodes start, ∃ l, r b = some l ∧
        ∀ d x, x ∈ P.ws d → (reported l d x ↔ ReachesEntry P d x b) := by
  refine ⟨mainIndex P start, honce.computeReverse, ?_⟩
  obtain ⟨r, hhalts, hreached, hsolved, -, hleast⟩ := worklistAlgo_solves
    (A := analysis P start (mainIndex P start)) noReturnsFromEnds (defaultDiscipline_total rfl)
    (kept_least noReturnsFromEnds transfer_monotone)
      (@least_initial _ _ _ start (undefined (mainIndex P start)) _ _)
  refine ⟨r, hhalts, fun b hb => ?_⟩
  obtain ⟨l, hl⟩ := (hreached b).mpr (hreach b hb)
  refine ⟨l, hl, fun d x hx => ?_⟩
  constructor
  · intro hd
    obtain ⟨p, hp, hval⟩ := Finset.mem_image.mp hd
    have hmem := mem_lastWriters.mp (hleast (lastWriters P _) lastWriters_solves b l hl hp) d
    rw [hval] at hmem
    exact hmem rfl
  · rintro ⟨c, before, after, between, hc, hpath, hfree⟩
    obtain ⟨hafter, hbetween⟩ := forall_mem_append.mp hfree
    obtain ⟨m, hedge⟩ : ∃ m, Edge P.g.succs c m := by
      cases between with
      | nil => exact ⟨b, (isChain_cons_cons.mp hpath).1⟩
      | cons m _ => exact ⟨m, (isChain_cons_cons.mp hpath).1⟩
    have hcreach : Reach P.g.succs start c := hreach c (EdgeHolder.source_mem_nodes hedge)
    obtain ⟨k, hk⟩ := (hreached c).mpr hcreach
    have hindex : (x, some d) ∈ mainIndex P start := mem_mainIndex hcreach (by rw [hc]; simp) hx
    obtain ⟨l', hl', hd⟩ := mem_of_path (d := ⟨(x, some d), hindex⟩) hsolved hpath hk
      (mem_foldl_transfer.mpr (Or.inl ⟨before, d, after, hc, rfl, hx, hafter⟩)) hbetween
    cases hl.symm.trans hl'
    exact Finset.mem_image.mpr ⟨_, hd, rfl⟩

namespace Loop

def graph : EdgeHolder ℕ where
  keys := [0, 1]
  neighbors := fun
    | 0 => [(1, 0)]
    | 1 => [(0, 0)]
    | _ => []
  outside n h := by
    match n with
    | 0 | 1 => simp at h
    | _ + 2 => rfl

def program : BlockGraph ℕ ℕ ℕ := ⟨graph, fun n => [n], fun _ => ∅, fun _ => {0}⟩

theorem reached : ∀ n ∈ graph.nodes 0, Reach graph.succs 0 n := forall_reach (by decide)

theorem once : InstructionsOnce program 0 where
  inBlock n _ := nodup_singleton n
  apart _ _ _ _ hne _ hm hn := hne ((mem_singleton.mp hm).symm.trans (mem_singleton.mp hn))

end Loop

theorem loop_exact : ∃ index, computeReverse Loop.program 0 = some index ∧ ∃ r,
    Halts (body (analysis Loop.program 0 index)) (initial 0 (undefined index)) ⟨r, []⟩ ∧
    ∀ b ∈ Loop.graph.nodes 0, ∃ l, r b = some l ∧
      ∀ d x, x ∈ Loop.program.ws d → (reported l d x ↔ ReachesEntry Loop.program d x b) :=
  reachingDefinitions_exact Loop.program 0 Loop.reached Loop.once

end ReachingDefinitions
