import FlexPlan.CegisRound
import FlexPlan.SharedFile

/-!
# The file `result` under two writers

Both the round and the background learner write a file called `result` in the same directory. Each
open, write, removal and read is atomic; everything else may interleave.
-/
namespace ResultFileRace

open PythonText SolverOutput CegisRound SharedFile TransitionRuns List

/-- The operations of a round on `result`, in program order. -/
inductive Op where
  | truncate
  | write (text : Str)
  | remove
  | touch
  | testUnsat
  | testSat
  deriving DecidableEq, Repr

def Op.rewrites : Op → Bool
  | .truncate | .remove => true
  | _ => false

def Op.tests : Op → Bool
  | .testUnsat | .testSat => true
  | _ => false

def writeOps (texts : List Str) : List Op := texts.flatMap fun t => [.truncate, .write t]

/-- `extract_plan` writes first, then the file is removed and every call of
`extract_simple` writes it again before the two final reads. -/
def roundOps (planText : Str) (texts : List Str) : List Op :=
  writeOps [planText] ++ [.remove] ++ writeOps texts ++ [.touch, .testUnsat, .testSat]

structure State where
  file : File
  descriptor : Option ℕ
  pending : List Op
  background : Option ℕ
  branch : Option Branch

inductive Event where
  | round
  | truncate
  | write (lines : List Bool)
  deriving DecidableEq, Repr

/-- The verdict lines of `distill_example`: one per line of the solver's output. -/
def verdictLines (lines : List Bool) : Str :=
  lines.flatMap fun b => if b then "UNSAT\n".toList else "SAT\n".toList

def execute (s : State) (ops : List Op) : Op → State
  | .truncate => { s with
      file := s.file.truncate, descriptor := some s.file.descriptor, pending := ops }
  | .write text =>
      match s.descriptor with
      | some i => { s with file := s.file.write i text, descriptor := none, pending := ops }
      | none => { s with pending := [], branch := some .crash }
  | .remove => { s with file := s.file.remove, pending := ops }
  | .touch => { s with file := s.file.touch, pending := ops }
  | .testUnsat =>
      if findInFile s.file.text "UNSAT".toList then { s with pending := [], branch := some .accept }
      else { s with pending := ops }
  | .testSat => { s with
      pending := []
      branch := some (if findInFile s.file.text "SAT".toList then .counterexample else .nothing) }

inductive Step : State → Event → State → Prop where
  | round (s op ops) (hp : s.pending = op :: ops) : Step s .round (execute s ops op)
  | truncate (s) (hb : s.background = none) :
      Step s .truncate { s with
        file := s.file.truncate, background := some s.file.descriptor }
  | write (s i lines) (hb : s.background = some i) :
      Step s (.write lines) { s with
        file := s.file.write i (verdictLines lines), background := none }

def initial (file : File) (background : Option ℕ) (planText : Str) (texts : List Str) : State :=
  ⟨file, none, roundOps planText texts, background, none⟩

/-- The branch of the remaining operations when nobody else touches the file. -/
def expected : List Op → Str → Branch
  | [], _ => .crash
  | .truncate :: ops, _ => expected ops []
  | .write text :: ops, current => expected ops (overwrite current text)
  | .remove :: ops, _ => expected ops []
  | .touch :: ops, current => expected ops current
  | .testUnsat :: ops, current =>
    if findInFile current "UNSAT".toList then .accept else expected ops current
  | .testSat :: _, current =>
    if findInFile current "SAT".toList then .counterexample else .nothing

/-- Conditions on the learner: while the round is undecided and will not replace the
file itself any more, the learner neither empties a nonempty `result` nor writes
into the file that carries the name. -/
def Harmless (s : State) : Event → Prop
  | .round => True
  | .truncate => s.branch ≠ none ∨ (∃ op ∈ s.pending, op.rewrites = true) ∨ s.file.text = []
  | .write _ => s.branch ≠ none ∨ (∃ op ∈ s.pending, op.rewrites = true) ∨
      s.background ≠ s.file.entry

/-- All replacements of the file come before the reads that decide, and a write
follows the open that truncates. -/
def Ordered : List Op → Prop
  | [] => True
  | op :: ops => (op.tests = true → ∀ o ∈ ops, o.rewrites = false) ∧
      (op ≠ .truncate → ∀ text os, ops ≠ .write text :: os) ∧ Ordered ops

theorem expected_rewritten {ops : List Op} (ho : Ordered ops)
    (h : ∃ op ∈ ops, op.rewrites = true) (a b : Str) : expected ops a = expected ops b := by
  induction ops generalizing a b with
  | nil => obtain ⟨_, hm, _⟩ := h; cases hm
  | cons op ops ih =>
    obtain ⟨htests, _, hops⟩ := ho
    have hrest : op.rewrites = false → ∃ o ∈ ops, o.rewrites = true := by
      intro hop
      obtain ⟨o, hm, hr⟩ := h
      rcases mem_cons.mp hm with rfl | hm
      · exact absurd hr (by simp [hop])
      · exact ⟨o, hm, hr⟩
    have hclash : op.rewrites = false → op.tests = true → False := by
      intro hop ht
      obtain ⟨o, hm, hr⟩ := hrest hop
      exact absurd hr (by simp [htests ht o hm])
    cases op with
    | truncate | remove => rfl
    | write text | touch => exact ih hops (hrest rfl) _ _
    | testUnsat | testSat => exact (hclash rfl rfl).elim

structure Tracks (target : Branch) (s : State) : Prop where
  ordered : Ordered s.pending
  live : ∀ text ops, s.pending = .write text :: ops →
    ∃ i, s.descriptor = some i ∧ s.file.entry = some i
  ends : s.branch = none → s.pending.getLast? = some .testSat
  undecided : s.branch = none → expected s.pending s.file.text = target
  decided : ∀ b, s.branch = some b → s.pending = [] ∧ b = target

variable {target : Branch}

private theorem tracks_undecided (h : Tracks target s) {op ops} (hp : s.pending = op :: ops) :
    s.branch = none := by
  cases hb : s.branch with
  | none => rfl
  | some b =>
    have hnil := (h.decided b hb).1
    rw [hp] at hnil
    cases hnil

theorem round_preserves_tracks (h : Tracks target s) {op ops} (hp : s.pending = op :: ops) :
    Tracks target (execute s ops op) := by
  have hb := tracks_undecided h hp
  have hexp := h.undecided hb
  have hord := h.ordered
  have hend := h.ends hb
  rw [hp] at hexp hord hend
  obtain ⟨-, hnext, hops⟩ := hord
  have hlast : op ≠ .testSat → ops.getLast? = some .testSat := by
    intro hne
    cases ops with
    | nil => exact absurd (Option.some.inj hend) hne
    | cons o os => rwa [getLast?_cons_cons] at hend
  cases op with
  | truncate =>
    refine ⟨hops, fun _ _ _ => ⟨_, rfl, by simp [execute]⟩, fun _ => hlast (by simp), ?_, ?_⟩
    · intro _; simpa [execute, expected] using hexp
    · intro b hb'; simp [execute, hb] at hb'
  | write text =>
    obtain ⟨i, hd, he⟩ := h.live text ops hp
    simp only [execute, hd]
    refine ⟨hops, fun t os ht => (hnext (by simp) t os ht).elim, fun _ => hlast (by simp), ?_, ?_⟩
    · intro _; rw [write_text_live he]; exact hexp
    · intro b hb'; simp [hb] at hb'
  | remove | touch =>
    refine ⟨hops, fun t os ht => (hnext (by simp) t os ht).elim, fun _ => hlast (by simp), ?_, ?_⟩
    · intro _; simpa [execute, expected] using hexp
    · intro b hb'; simp [execute, hb] at hb'
  | testUnsat =>
    simp only [expected] at hexp
    simp only [execute]
    split_ifs at hexp ⊢ with hu
    · refine ⟨trivial, fun _ _ ht => by simp at ht, fun hn => by simp at hn,
        fun hn => by simp at hn, ?_⟩
      intro b hb'; cases hb'; exact ⟨rfl, hexp⟩
    · refine ⟨hops, fun t os ht => (hnext (by simp) t os ht).elim, fun _ => hlast (by simp),
        fun _ => hexp, ?_⟩
      intro b hb'; simp [hb] at hb'
  | testSat =>
    refine ⟨trivial, fun _ _ ht => by simp [execute] at ht, fun hn => by simp [execute] at hn,
      fun hn => by simp [execute] at hn, ?_⟩
    intro b hb'
    cases hb'
    exact ⟨rfl, hexp⟩

theorem step_preserves_tracks (h : Tracks target s) (hs : Restrict Step Harmless s e t) :
    Tracks target t := by
  obtain ⟨hs, hc⟩ := hs
  cases hs with
  | round op ops hp => exact round_preserves_tracks h hp
  | truncate hbg =>
    refine ⟨h.ordered, ?_, h.ends, ?_, h.decided⟩
    · intro text ops hp
      obtain ⟨i, hd, he⟩ := h.live text ops hp
      exact ⟨i, hd, by simp [File.descriptor, he]⟩
    · intro hb
      rw [truncate_text, ← h.undecided hb]
      rcases hc with hc | hc | hc
      · exact absurd hb hc
      · exact expected_rewritten h.ordered hc _ _
      · rw [hc]
  | write i lines hbg =>
    refine ⟨h.ordered, h.live, h.ends, ?_, h.decided⟩
    intro hb
    rw [← h.undecided hb]
    rcases hc with hc | hc | hc
    · exact absurd hb hc
    · exact expected_rewritten h.ordered hc _ _
    · rw [write_text_unlinked (hbg ▸ hc)]

theorem expected_writeOps (texts : List Str) (tail : List Op) (current : Str) :
    expected (writeOps texts ++ tail) current = expected tail (texts.getLast?.getD current) := by
  induction texts generalizing current with
  | nil => rfl
  | cons t ts ih =>
    have hc := ih (overwrite [] t)
    cases ts with
    | nil => simp [writeOps, expected, overwrite]
    | cons u us =>
      simpa [writeOps, expected, getLast?_cons] using hc

theorem ordered_writeOps (texts : List Str) {tail : List Op} (ht : Ordered tail)
    (hw : ∀ text os, tail ≠ .write text :: os) : Ordered (writeOps texts ++ tail) := by
  induction texts with
  | nil => exact ht
  | cons t ts ih =>
    refine ⟨by simp [Op.tests], by simp, by simp [Op.tests], ?_, ih⟩
    intro _ text os he
    cases ts with
    | nil => exact hw text os he
    | cons u us => simp at he

theorem initial_tracks (file : File) (background : Option ℕ) (planText : Str) (texts : List Str) :
    Tracks (decideResult texts.getLast?) (initial file background planText texts) := by
  have hend : Ordered [.touch, .testUnsat, .testSat] := by
    simp [Ordered, Op.tests, Op.rewrites]
  have hrest : Ordered (.remove :: (writeOps texts ++ [.touch, .testUnsat, .testSat])) := by
    refine ⟨by simp [Op.tests], ?_, ordered_writeOps texts hend (by simp)⟩
    intro _ text os he
    cases texts <;> simp [writeOps] at he
  constructor
  · simpa [initial, roundOps] using ordered_writeOps [planText] hrest (by simp)
  · intro text ops he
    simp [initial, roundOps, writeOps] at he
  · intro _
    simp [initial, roundOps, getLast?_cons]
  · intro _
    simp only [initial, roundOps, append_assoc, expected_writeOps, cons_append,
      nil_append, expected]
    rfl
  · intro b hb
    cases hb

private theorem execute_pending_le (s : State) (ops : List Op) (op : Op) :
    (execute s ops op).pending.length ≤ ops.length := by
  cases op with
  | write text =>
    cases hd : s.descriptor <;> simp [execute, hd]
  | testUnsat =>
    simp only [execute]
    split_ifs <;> simp
  | _ => simp [execute]

theorem solo_decides (s : State) (h : Tracks target s) :
    ∃ es t, (∀ e ∈ es, e = .round) ∧ Run Step s es t ∧ t.branch = some target := by
  induction hn : s.pending.length using Nat.strong_induction_on generalizing s with
  | h n ih =>
    cases hb : s.branch with
    | some b => exact ⟨[], s, by simp, .nil s, by rw [hb, (h.decided b hb).2]⟩
    | none =>
      cases hp : s.pending with
      | nil =>
        have hend := h.ends hb
        rw [hp] at hend
        cases hend
      | cons op ops =>
        have hlen := execute_pending_le s ops op
        obtain ⟨es, t, hes, hrun, ht⟩ := ih _
          (by rw [hp, length_cons] at hn; omega) _ (round_preserves_tracks h hp) rfl
        exact ⟨.round :: es, t, forall_mem_cons.mpr ⟨rfl, hes⟩, .cons (.round s op ops hp) hrun, ht⟩

/-- Texts that the verification loop makes `extract_simple` write, in order. -/
def loopWrites {α : Type} (refuted violated : α → Bool) (report : α → Option Str) :
    List α → Option (List Str)
  | [] => some []
  | o :: os =>
    if refuted o then
      (loopWrites refuted violated report os).map ("UNSAT\n".toList :: ·)
    else if violated o then (report o).map ([·])
    else some []

def resultWrites (f : RoundFiles) (m : ℕ) : Option (List Str) :=
  if findInFile f.outputFin "FIN".toList then
    if findInFile f.outputReady "READY".toList || f.freeVar = "off".toList || f.freeCommands then
      some ["UNSAT\n".toList]
    else none
  else if findInFile f.outputOr "NOP".toList then
    loopWrites (findInFile · "unsat".toList) (findInFile · "sat".toList)
      (fun o => extractCounterexample f.mapping .normal o []) ((List.range m).map f.simple)
  else if findInFile f.outputOr "OR".toList then
    loopWrites (fun o => findInFile o.1 "unsat".toList || findInFile o.2 "unsat".toList)
      (fun o => findInFile o.1 "sat".toList && findInFile o.2 "sat".toList)
      (fun o => extractCounterexample f.mapping .programConsistency o.1 o.2)
      ((List.range m).map fun k => (f.old k, f.new k))
  else some []

theorem verifyLoop_writes {α : Type} (refuted violated : α → Bool) (report : α → Option Str)
    (outs : List α) (result : Option Str) :
    verifyLoop refuted violated report outs result =
      (loopWrites refuted violated report outs).map fun texts => texts.getLast?.or result := by
  induction outs generalizing result with
  | nil => rfl
  | cons o os ih =>
    simp only [verifyLoop, loopWrites]
    by_cases hr : refuted o = true
    · rw [if_pos hr, if_pos hr, ih, Option.map_map]
      congr 1
      funext texts
      cases texts with
      | nil => rfl
      | cons t ts => simp [getLast?_cons]
    · rw [if_neg hr, if_neg hr]
      by_cases hv : violated o = true
      · rw [if_pos hv, if_pos hv, Option.map_map]
        rfl
      · rw [if_neg hv, if_neg hv]
        rfl

theorem afterPlan_writes (h : resultWrites f m = some texts) :
    afterPlan f m = decideResult texts.getLast? := by
  unfold resultWrites at h
  unfold afterPlan
  split_ifs at h ⊢ with hfin hskip hn ho
  · cases h
    exact if_pos hskip
  · rw [verificationPhase, verifyResult, if_pos hn, verifySimple, verifyLoop_writes, h]
    simp [loopBranch]
  · rw [verificationPhase, verifyResult, if_neg hn, if_pos ho, verifyPairs, verifyLoop_writes, h]
    simp [loopBranch]
  · cases h
    rw [verificationPhase, verifyResult, if_neg hn, if_neg ho]
    rfl

/-- Beside a harmless learner every decision is the undisturbed one, and the round can
always reach it. -/
theorem harmless_learner_keeps_decision (f : RoundFiles) (m : ℕ) (file : File)
    (background : Option ℕ)
    (planText : Str) (texts : List Str) (hw : resultWrites f m = some texts)
    {es : List Event} {s : State}
    (hrun : Run (Restrict Step Harmless) (initial file background planText texts) es s) :
    (∀ b, s.branch = some b → b = afterPlan f m) ∧
    ∃ es' t, (∀ e ∈ es', e = .round) ∧ Run Step s es' t ∧ t.branch = some (afterPlan f m) := by
  have hs : Tracks (afterPlan f m) s := by
    rw [afterPlan_writes hw]
    exact hrun.preserves (fun _ _ _ h hstep => step_preserves_tracks h hstep)
      (initial_tracks file background planText texts)
  exact ⟨fun b hb => (hs.decided b hb).2, solo_decides s hs⟩

namespace Counterexample

def files : RoundFiles :=
  ⟨[], "NOP".toList, [], "off".toList, true, some [], fun _ => "sat\n".toList, fun _ => [],
    fun _ => []⟩

def start : State := initial ⟨none, fun _ => [], 0⟩ none [] ["SAT\n".toList]

/-- The learner opens `result` between the report of the violation and its reading. -/
def schedule : List Event :=
  [.round, .round, .round, .round, .round, .truncate, .round, .round, .round]

theorem schedule_runs : ∃ s, Run Step start schedule s ∧ s.branch = some .nothing :=
  ⟨_, .cons (.round _ _ _ rfl) <| .cons (.round _ _ _ rfl) <| .cons (.round _ _ _ rfl) <|
    .cons (.round _ _ _ rfl) <| .cons (.round _ _ _ rfl) <| .cons (.truncate _ rfl) <|
    .cons (.round _ _ _ rfl) <| .cons (.round _ _ _ rfl) <| .cons (.round _ _ _ rfl) <|
    .nil _, rfl⟩

end Counterexample

/-- The violation was written, the learner's open erased it, and the plan is accepted. -/
theorem erased_counterexample_accepts :
    resultWrites Counterexample.files 1 = some ["SAT\n".toList] ∧
    afterPlan Counterexample.files 1 = .counterexample ∧
    ∃ es s, Run Step Counterexample.start es s ∧ s.branch = some .nothing ∧
      Branch.nothing.completes :=
  ⟨by decide, by decide, Counterexample.schedule,
    Counterexample.schedule_runs.imp fun _ h => ⟨h.1, h.2, by decide⟩⟩

/-- The learner opened the file before the round removed the name: its late write lands
in the removed file and the violation is still reported. -/
theorem early_learner_keeps_counterexample :
    ∃ es s b, Run Step Counterexample.start es s ∧ .write [true] ∈ es ∧ s.branch = some b ∧
      b = afterPlan Counterexample.files 1 := by
  have hrun : Run (Restrict Step Harmless) Counterexample.start
      [.truncate, .round, .round, .round, .round, .write [true], .round, .round, .round,
        .round] _ :=
    .cons ⟨.truncate _ rfl, Or.inr (Or.inr rfl)⟩ <|
    .cons ⟨.round _ _ _ rfl, trivial⟩ <| .cons ⟨.round _ _ _ rfl, trivial⟩ <|
    .cons ⟨.round _ _ _ rfl, trivial⟩ <| .cons ⟨.round _ _ _ rfl, trivial⟩ <|
    .cons ⟨.write _ 0 _ rfl, Or.inr (Or.inr (show some 0 ≠ some 1 by decide))⟩ <|
    .cons ⟨.round _ _ _ rfl, trivial⟩ <| .cons ⟨.round _ _ _ rfl, trivial⟩ <|
    .cons ⟨.round _ _ _ rfl, trivial⟩ <| .cons ⟨.round _ _ _ rfl, trivial⟩ <| .nil _
  exact ⟨_, _, .counterexample, hrun.of_restrict, by simp, rfl,
    (harmless_learner_keeps_decision Counterexample.files 1 _ _ _ _ (by decide) hrun).1 _ rfl⟩

end ResultFileRace
