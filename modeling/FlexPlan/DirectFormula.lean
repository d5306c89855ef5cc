import FlexPlan.BlockPrograms
import FlexPlan.CfgAlgos

/-!
# The formula written to `direct.smt`

`buildSolver` gives every basic block a label that implies the formula of the block and the label
of a successor; `avoidAll` forbids the terminals that are no bugs. All blocks speak about one
valuation, so a model may set labels off its path.
-/
namespace DirectFormula

open FlowGraph CfgAlgos BlockPrograms List

variable {ν χ υ : Type}

/-- An instruction of a basic block. An assignment is split by `MultiAssignment`. -/
inductive Instr (χ υ : Type) where
  | assume (c : Term χ υ Bool)
  | assign (asgs : List (χ × Term χ υ υ))
  | bug
  | skip

def Instr.ops : Instr χ υ → List (Op χ υ)
  | .assume c => [.assume c]
  | .assign asgs => asgs.map fun a => .set a.1 a.2
  | .bug | .skip => []

structure Program (ν χ υ : Type) where
  basicBlocks : EdgeHolder ν
  basicBlockStart : ν
  instructions : ν → List (Instr χ υ)

section Formulas

inductive Formula (ν χ υ : Type) where
  | truth
  | label (n : ν)
  | holds (c : Term χ υ Bool)
  | equal (x : χ) (e : Term χ υ υ)
  | not (f : Formula ν χ υ)
  | implies (f g : Formula ν χ υ)
  | and (fs : List (Formula ν χ υ))
  | or (fs : List (Formula ν χ υ))

variable [DecidableEq υ] (labels : ν → Bool) (σ : χ → υ)

mutual

def Formula.eval : Formula ν χ υ → Bool
  | .truth => true
  | .label n => labels n
  | .holds c => c.eval σ
  | .equal x e => σ x == e.eval σ
  | .not f => !f.eval
  | .implies f g => !f.eval || g.eval
  | .and fs => evalAll fs
  | .or fs => evalAny fs

def evalAll : List (Formula ν χ υ) → Bool
  | [] => true
  | f :: fs => f.eval && evalAll fs

def evalAny : List (Formula ν χ υ) → Bool
  | [] => false
  | f :: fs => f.eval || evalAny fs

end

def Satisfiable (fs : List (Formula ν χ υ)) : Prop :=
  ∃ (labels : ν → Bool) (σ : χ → υ), ∀ f ∈ fs, f.eval labels σ = true

variable {labels σ}

@[simp] theorem evalAll_iff : evalAll labels σ fs = true ↔ ∀ f ∈ fs, f.eval labels σ = true := by
  induction fs with
  | nil => simp [evalAll]
  | cons f fs ih => simp [evalAll, ih]

@[simp] theorem evalAny_iff : evalAny labels σ fs = true ↔ ∃ f ∈ fs, f.eval labels σ = true := by
  induction fs with
  | nil => simp [evalAny]
  | cons f fs ih => simp [evalAny, ih]

theorem implies_label_iff :
    (Formula.implies (.label n) f).eval labels σ = true ↔
      (labels n = true → f.eval labels σ = true) := by
  cases h : labels n <;> simp [Formula.eval, h]

end Formulas

section Encoding

variable (p : Program ν χ υ)

/-- `EdgeFormulas::mkFormula` for an instruction. -/
def Instr.formula : Instr χ υ → Formula ν χ υ
  | .assume c => .holds c
  | .assign [(x, e)] => .equal x e
  | .assign asgs => .and (asgs.map fun a => .equal a.1 a.2)
  | .bug | .skip => .truth

/-- `EdgeFormulas::mkFormula` for a basic block. -/
def mkFormula (block : List (Instr χ υ)) : Formula ν χ υ :=
  if block.isEmpty then .truth else .and (block.map Instr.formula)

def endsInBug (n : ν) : Bool :=
  match (p.instructions n).getLast? with
  | some .bug => true
  | _ => false

def endsInTerminal (n : ν) : Bool :=
  if !endsInBug p n then (p.basicBlocks.succs n).isEmpty else false

def buildSolver (sorted : List ν) : List (Formula ν χ υ) :=
  sorted.reverse.flatMap (fun n =>
    .implies (.label n) (mkFormula (p.instructions n)) ::
      (if (p.basicBlocks.succs n).isEmpty then []
        else [.implies (.label n) (.or ((p.basicBlocks.succs n).map .label))])) ++
    [.label p.basicBlockStart]

variable [DecidableEq ν]

def avoidAll (filter : ν → Bool) : List (Formula ν χ υ) :=
  ((traverseDf p.basicBlocks p.basicBlockStart).filter filter).map fun n => .not (.label n)

def direct : List (Formula ν χ υ) :=
  buildSolver p (topoSort p.basicBlocks p.basicBlockStart) ++ avoidAll p (endsInTerminal p)

end Encoding

section Execution

variable (p : Program ν χ υ)

def pathOps (path : List ν) : List (Op χ υ) :=
  path.flatMap fun n => (p.instructions n).flatMap Instr.ops

/-- A path from the start whose last block has no successor. -/
structure Complete (path : List ν) (last : ν) : Prop where
  starts : path.head? = some p.basicBlockStart
  ends : path.getLast? = some last
  connected : IsPath p.basicBlocks.succs path
  final : p.basicBlocks.succs last = []

/-- Some initial store passes every assumption on the way to a bug. -/
def BugReached [DecidableEq χ] : Prop :=
  ∃ path last, Complete p path last ∧ endsInBug p last = true ∧
    ∃ σ τ : χ → υ, Op.run (pathOps p path) σ = some τ

/-- On every path each variable is assigned at most once and not read before that. -/
def PathSsa : Prop :=
  ∀ path : List ν, path.head? = some p.basicBlockStart → IsPath p.basicBlocks.succs path →
    Op.SingleAssignment (pathOps p path)

variable {p}

theorem mem_pathOps {path : List ν} {op : Op χ υ} :
    op ∈ pathOps p path ↔ ∃ n ∈ path, ∃ i ∈ p.instructions n, op ∈ i.ops := by
  simp [pathOps]

theorem last_or_next {succs : ν → List ν} {path : List ν} (hpath : IsPath succs path)
    (hn : n ∈ path) : path.getLast? = some n ∨ ∃ m ∈ path, Edge succs n m := by
  obtain ⟨before, after, rfl⟩ := append_of_mem hn
  cases after with
  | nil => exact Or.inl (by simp)
  | cons m after =>
    refine Or.inr ⟨m, by simp, ?_⟩
    exact (isChain_cons_cons.mp (isChain_append.mp hpath).2.1).1

end Execution

section Correctness

variable {p : Program ν χ υ} {labels : ν → Bool} {σ : χ → υ}

/-- What the formulas say about the labels of the blocks that can be reached. -/
structure Encodes (p : Program ν χ υ) (labels : ν → Bool) (σ : χ → υ) : Prop where
  start : labels p.basicBlockStart = true
  block : ∀ n, Reach p.basicBlocks.succs p.basicBlockStart n → labels n = true →
    ∀ i ∈ p.instructions n, ∀ op ∈ i.ops, op.Constraint σ
  next : ∀ n, Reach p.basicBlocks.succs p.basicBlockStart n → labels n = true →
    p.basicBlocks.succs n ≠ [] → ∃ m, Edge p.basicBlocks.succs n m ∧ labels m = true
  avoided : ∀ n, Reach p.basicBlocks.succs p.basicBlockStart n → labels n = true →
    p.basicBlocks.succs n = [] → endsInBug p n = true

theorem endsInTerminal_iff : endsInTerminal p n = true ↔ endsInBug p n = false ∧
    p.basicBlocks.succs n = [] := by
  cases h : endsInBug p n <;> simp [endsInTerminal, h]

section Models

variable [DecidableEq ν]

theorem Encodes.exists_path (h : Encodes p labels σ) (hacyclic : Acyclic p.basicBlocks.succs) :
    ∀ u ∈ p.basicBlocks.nodes p.basicBlockStart,
      Reach p.basicBlocks.succs p.basicBlockStart u → labels u = true →
      ∃ rest last, IsPath p.basicBlocks.succs (u :: rest) ∧ (∀ n ∈ u :: rest, labels n = true) ∧
        (u :: rest).getLast? = some last ∧ p.basicBlocks.succs last = [] ∧
        endsInBug p last = true := by
  refine hacyclic.induction (EdgeHolder.closed_nodes _) fun u _ ih hreach hlabel => ?_
  by_cases hfinal : p.basicBlocks.succs u = []
  · exact ⟨[], u, .singleton u, by simpa using hlabel, rfl, hfinal,
      h.avoided u hreach hlabel hfinal⟩
  · obtain ⟨m, hedge, hm⟩ := h.next u hreach hlabel hfinal
    obtain ⟨rest, last, hpath, hlabels, hlast, hsink, hbug⟩ := ih m hedge (hreach.tail hedge) hm
    refine ⟨m :: rest, last, isChain_cons_cons.mpr ⟨hedge, hpath⟩, ?_, ?_, hsink, hbug⟩
    · exact forall_mem_cons.mpr ⟨hlabel, hlabels⟩
    · rw [getLast?_cons_cons]
      exact hlast

variable [DecidableEq χ]

theorem Encodes.bug_reached (h : Encodes p labels σ) (hacyclic : Acyclic p.basicBlocks.succs) :
    BugReached p := by
  obtain ⟨rest, last, hpath, hlabels, hlast, hsink, hbug⟩ :=
    h.exists_path hacyclic p.basicBlockStart (EdgeHolder.start_mem_nodes _) .refl h.start
  refine ⟨p.basicBlockStart :: rest, last, ⟨rfl, hlast, hpath, hsink⟩, hbug, σ, σ, ?_⟩
  refine Op.run_of_constraints fun op hop => ?_
  obtain ⟨n, hn, i, hi, hop⟩ := mem_pathOps.mp hop
  exact h.block n (reach_of_isPath hpath n hn) (hlabels n hn) i hi op hop

theorem encodes_of_run {path : List ν} {last : ν} (hcomplete : Complete p path last)
    (hbug : endsInBug p last = true) (hssa : PathSsa p)
    (hrun : Op.run (pathOps p path) σ = some τ) :
    Encodes p (fun n => decide (n ∈ path)) τ where
  start := decide_eq_true (mem_of_mem_head? hcomplete.starts)
  block := by
    intro n _ hlabel i hi op hop
    refine Op.constraints_of_run (hssa path hcomplete.starts hcomplete.connected) hrun op ?_
    exact mem_pathOps.mpr ⟨n, of_decide_eq_true hlabel, i, hi, hop⟩
  next := by
    intro n _ hlabel hsuccs
    rcases last_or_next hcomplete.connected (of_decide_eq_true hlabel) with hlast | ⟨m, hm, hedge⟩
    · rw [hcomplete.ends] at hlast
      rw [← Option.some.inj hlast] at hsuccs
      exact absurd hcomplete.final hsuccs
    · exact ⟨m, hedge, decide_eq_true hm⟩
  avoided := by
    intro n _ hlabel hfinal
    rcases last_or_next hcomplete.connected (of_decide_eq_true hlabel) with hlast | ⟨m, -, hedge⟩
    · rw [hcomplete.ends] at hlast
      rw [← Option.some.inj hlast]
      exact hbug
    · rw [Edge, hfinal] at hedge
      cases hedge

end Models

section Reading

variable [DecidableEq υ]

theorem Instr.formula_iff (i : Instr χ υ) :
    (i.formula : Formula ν χ υ).eval labels σ = true ↔ ∀ op ∈ i.ops, op.Constraint σ := by
  have hall : ∀ asgs : List (χ × Term χ υ υ),
      (Formula.and (asgs.map fun a => .equal a.1 a.2) : Formula ν χ υ).eval labels σ = true ↔
        ∀ op ∈ (Instr.assign asgs).ops, op.Constraint σ := by
    intro asgs
    rw [Formula.eval, evalAll_iff, Instr.ops, forall_mem_map, forall_mem_map]
    simp only [Formula.eval, beq_iff_eq, Op.Constraint]
  cases i with
  | assume c => simp [Instr.formula, Formula.eval, Instr.ops, Op.Constraint]
  | assign asgs =>
    rcases asgs with _ | ⟨a, _ | ⟨b, asgs⟩⟩
    · exact hall []
    · simp [Instr.formula, Formula.eval, Instr.ops, Op.Constraint]
    · exact hall (a :: b :: asgs)
  | bug | skip => simp [Instr.formula, Formula.eval, Instr.ops]

theorem mkFormula_iff (block : List (Instr χ υ)) :
    (mkFormula block : Formula ν χ υ).eval labels σ = true ↔
    ∀ i ∈ block, ∀ op ∈ i.ops, op.Constraint σ := by
  rw [mkFormula]
  split_ifs with hempty
  · rw [isEmpty_iff.mp hempty]
    simp [Formula.eval]
  · rw [Formula.eval, evalAll_iff, forall_mem_map]
    simp only [Instr.formula_iff]

variable [DecidableEq ν]

theorem avoidAll_iff :
    (∀ f ∈ avoidAll p (endsInTerminal p), f.eval labels σ = true) ↔
      ∀ n, Reach p.basicBlocks.succs p.basicBlockStart n → labels n = true →
        p.basicBlocks.succs n = [] → endsInBug p n = true := by
  simp only [avoidAll, forall_mem_map, mem_filter, mem_traverseDf_iff,
    endsInTerminal_iff, Formula.eval, Bool.not_eq_true']
  constructor
  · intro h n hreach hlabel hfinal
    by_contra hbug
    have hfalse := h n ⟨hreach, Bool.eq_false_of_not_eq_true hbug, hfinal⟩
    rw [hlabel] at hfalse
    cases hfalse
  · rintro h n ⟨hreach, hbug, hfinal⟩
    by_contra hlabel
    rw [h n hreach (Bool.eq_true_of_not_eq_false hlabel) hfinal] at hbug
    cases hbug

theorem direct_iff_encodes : (∀ f ∈ direct p, f.eval labels σ = true) ↔ Encodes p labels σ := by
  have hsucc : ∀ n, (∀ f ∈ (if (p.basicBlocks.succs n).isEmpty then []
      else [Formula.implies (.label n) (.or ((p.basicBlocks.succs n).map .label))]),
        f.eval labels σ = true) ↔
      (labels n = true → p.basicBlocks.succs n ≠ [] →
        ∃ m, Edge p.basicBlocks.succs n m ∧ labels m = true) := by
    intro n
    by_cases hempty : p.basicBlocks.succs n = []
    · simp [hempty]
    · rw [if_neg (by simpa using hempty), forall_mem_singleton, implies_label_iff]
      simp [Formula.eval, hempty, Edge]
  simp only [direct, buildSolver, forall_mem_append, forall_mem_flatMap, mem_reverse,
    mem_topoSort_iff, forall_mem_cons, implies_label_iff, mkFormula_iff, hsucc, avoidAll_iff]
  constructor
  · rintro ⟨⟨hblocks, hstart, -⟩, havoid⟩
    exact ⟨hstart, fun n hn => (hblocks n hn).1, fun n hn => (hblocks n hn).2, havoid⟩
  · rintro ⟨hstart, hblock, hnext, havoid⟩
    exact ⟨⟨fun n hn => ⟨hblock n hn, hnext n hn⟩, hstart, by simp⟩, havoid⟩

end Reading

/-- The formula of `direct.smt` is satisfiable if and only if an execution ends in a bug. -/
theorem direct_sat_iff_bug_reached [DecidableEq ν] [DecidableEq χ] [DecidableEq υ]
    (hacyclic : Acyclic p.basicBlocks.succs) (hssa : PathSsa p) :
    Satisfiable (direct p) ↔ BugReached p := by
  constructor
  · rintro ⟨labels, σ, h⟩
    exact (direct_iff_encodes.mp h).bug_reached hacyclic
  · rintro ⟨path, last, hcomplete, hbug, σ, τ, hrun⟩
    exact ⟨_, τ, direct_iff_encodes.mpr (encodes_of_run hcomplete hbug hssa hrun)⟩

end Correctness

namespace BranchVersions

inductive Var where
  | x
  | z1
  deriving DecidableEq

def constant (v : ℕ) : Term Var ℕ ℕ := ⟨[], fun _ => v, fun _ _ _ => rfl⟩

def test (y : Var) (f : ℕ → Bool) : Term Var ℕ Bool :=
  ⟨[y], fun σ => f (σ y), fun _ _ h => congrArg f (h y mem_cons_self)⟩

/-- Both branches assign the same version; the bug needs the second one. -/
def program : Program ℕ Var ℕ where
  basicBlocks :=
    { keys := [0, 1, 2, 3]
      neighbors := fun
        | 0 => [(1, 0), (2, 0)]
        | 1 | 2 => [(3, 0)]
        | 3 => [(4, 0), (5, 0)]
        | _ => []
      outside := by
        intro n hn
        match n with
        | 0 | 1 | 2 | 3 => simp at hn
        | _ + 4 => rfl }
  basicBlockStart := 0
  instructions := fun
    | 1 => [.assume (test .x (· == 0)), .assign [(.z1, constant 1)]]
    | 2 => [.assume (test .x (· != 0)), .assign [(.z1, constant 2)]]
    | 4 => [.assume (test .z1 (· == 2)), .bug]
    | 5 => [.assume (test .z1 (· != 2))]
    | _ => []

theorem edge_iff : Edge program.basicBlocks.succs u v ↔
    (u = 0 ∧ (v = 1 ∨ v = 2)) ∨ ((u = 1 ∨ u = 2) ∧ v = 3) ∨ (u = 3 ∧ (v = 4 ∨ v = 5)) := by
  match u with
  | 0 | 1 | 2 | 3 => simp [Edge, EdgeHolder.succs, program]
  | _ + 4 => simp [Edge, EdgeHolder.succs, program]

theorem acyclic : Acyclic program.basicBlocks.succs :=
  acyclic_of_lt (EdgeHolder.forall_edge (by decide))

theorem paths {path : List ℕ} (hstart : path.head? = some 0)
    (hpath : IsPath program.basicBlocks.succs path) :
    path ∈ [[0], [0, 1], [0, 2], [0, 1, 3], [0, 2, 3], [0, 1, 3, 4], [0, 1, 3, 5], [0, 2, 3, 4],
      [0, 2, 3, 5]] := by
  rcases path with _ | ⟨a, _ | ⟨b, _ | ⟨c, _ | ⟨d, _ | ⟨e, path⟩⟩⟩⟩⟩ <;>
    simp [edge_iff] at hstart hpath ⊢ <;> grind

theorem pathSsa : PathSsa program := by
  intro path hstart hpath
  have hall : ∀ path ∈ [[0], [0, 1], [0, 2], [0, 1, 3], [0, 2, 3], [0, 1, 3, 4], [0, 1, 3, 5],
      [0, 2, 3, 4], [0, 2, 3, 5]], Op.SingleAssignment (pathOps program path) := by decide
  exact hall path (paths hstart hpath)

end BranchVersions

open BranchVersions in
theorem second_branch_satisfies : Satisfiable (direct program) := by
  refine (direct_sat_iff_bug_reached acyclic pathSsa).mpr ⟨[0, 2, 3, 4], 4, ?_, rfl, ?_⟩
  · exact ⟨rfl, rfl, by simp [Edge, EdgeHolder.succs, program], rfl⟩
  · exact ⟨fun _ => 1, Function.update (fun _ => 1) .z1 2, rfl⟩

end DirectFormula
