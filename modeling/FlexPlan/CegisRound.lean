import FlexPlan.ParallelSolverRunner
import FlexPlan.PlanExtraction

/-!
# One round of the main loop

A round turns the synthesis output into a plan, verifies the snapshots of the plan and decides by
the contents of the file `result`. A failing command ends the whole program.
-/
namespace CegisRound

open PythonText SolverOutput ParallelSolverRunner PlanExtraction TransitionRuns List Option

inductive Command where
  | terminationFail
  | terminationComplete
  | interpret
  deriving DecidableEq, Repr

inductive Branch where
  | fail
  | accept
  | counterexample
  | nothing
  | crash
  deriving DecidableEq, Repr

def Branch.commands : Branch → List Command
  | .fail => [.terminationFail]
  | .accept | .nothing => [.terminationComplete, .interpret]
  | .counterexample | .crash => []

/-- The round ends as a success: the plan is stored and `output-plan` overwritten. -/
def Branch.completes (b : Branch) : Prop := .terminationComplete ∈ b.commands

instance (b : Branch) : Decidable b.completes :=
  inferInstanceAs (Decidable (_ ∈ b.commands))

/-- The test on `result`, which is created empty when nobody wrote it. -/
def decideResult (result : Option Str) : Branch :=
  let text := result.getD []
  if findInFile text "UNSAT".toList then .accept
  else if findInFile text "SAT".toList then .counterexample
  else .nothing

/-- Files and command outcomes a round depends on besides the synthesis output.
Output `k` is the one of the `k`-th formula, counted from zero. -/
structure RoundFiles where
  outputFin : Str
  outputOr : Str
  outputReady : Str
  freeVar : Str
  freeCommands : Bool
  mapping : Option (Dict Str Str)
  simple : ℕ → Str
  old : ℕ → Str
  new : ℕ → Str

def extractCounterexample (mapping : Option (Dict Str Str)) (type : ExtractType)
    (output1 output2 : Str) : Option Str :=
  mapping.bind fun m => extractSimple type m output1 output2

/-- The verification loop over the outputs of the formulas. It stops without touching
`result` at the first output that is neither refuted nor a violation. -/
def verifyLoop {α : Type} (refuted violated : α → Bool) (report : α → Option Str) :
    List α → Option Str → Option (Option Str)
  | [], result => some result
  | o :: os, result =>
    if refuted o then verifyLoop refuted violated report os (some "UNSAT\n".toList)
    else if violated o then (report o).map some
    else some result

def verifySimple (mapping : Option (Dict Str Str)) :
    List Str → Option Str → Option (Option Str) :=
  verifyLoop (findInFile · "unsat".toList) (findInFile · "sat".toList)
    fun o => extractCounterexample mapping .normal o []

/-- With two definitions one refuted definition verifies the state. -/
def verifyPairs (mapping : Option (Dict Str Str)) :
    List (Str × Str) → Option Str → Option (Option Str) :=
  verifyLoop (fun o => findInFile o.1 "unsat".toList || findInFile o.2 "unsat".toList)
    (fun o => findInFile o.1 "sat".toList && findInFile o.2 "sat".toList)
    fun o => extractCounterexample mapping .programConsistency o.1 o.2

def verifyResult (f : RoundFiles) (m : ℕ) : Option (Option Str) :=
  if findInFile f.outputOr "NOP".toList then
    verifySimple f.mapping ((List.range m).map f.simple) none
  else if findInFile f.outputOr "OR".toList then
    verifyPairs f.mapping ((List.range m).map fun k => (f.old k, f.new k)) none
  else some none

def loopBranch : Option (Option Str) → Branch
  | none => .crash
  | some result => decideResult result

def verificationPhase (f : RoundFiles) (m : ℕ) : Branch := loopBranch (verifyResult f m)

/-- Skipping verification still runs the free-variable commands unless they were run
before or are switched off. -/
def skipPhase (f : RoundFiles) : Branch :=
  if findInFile f.outputReady "READY".toList || f.freeVar = "off".toList || f.freeCommands then
    decideResult (some "UNSAT\n".toList)
  else .crash

def afterPlan (f : RoundFiles) (m : ℕ) : Branch :=
  if findInFile f.outputFin "FIN".toList then skipPhase f else verificationPhase f m

def cegisRound (outputSyn : Str) (f : RoundFiles) : Branch :=
  if findInFile outputSyn "unsat".toList then .fail
  else
    match (extractPlan outputSyn).bind transitionStates with
    | none => .crash
    | some states => afterPlan f states.length

/-- The written counterexample is the entry `SAT`, or writing it aborts the round. -/
def Reported (written : Option Str) : Prop := ∀ r, written = some r → r = "SAT\n".toList

instance (written : Option Str) : Decidable (Reported written) :=
  match written with
  | none => isTrue (fun _ h => by cases h)
  | some r => if h : r = "SAT\n".toList then isTrue (fun _ hr => Option.some.inj hr ▸ h)
    else isFalse (fun hr => h (hr r rfl))

theorem extractSimple_range {type : ExtractType} (h : extractSimple type m a b = some r) :
    r = "UNSAT\n".toList ∨ r = "SAT\n".toList ∨ r = [] := by
  cases type with
  | normal =>
    obtain ⟨x, _, rfl⟩ := map_eq_some_iff.mp h
    split_ifs <;> simp
  | programConsistency =>
    obtain ⟨x, _, h⟩ := bind_eq_some_iff.mp h
    obtain ⟨y, _, h⟩ := bind_eq_some_iff.mp h
    cases h
    split_ifs <;> simp
  | correct => exact Or.inl (Option.some.inj h).symm

theorem report_branch {type : ExtractType} :
    ¬(loopBranch ((extractCounterexample mapping type a b).map some)).completes ↔
      Reported (extractCounterexample mapping type a b) := by
  cases hw : extractCounterexample mapping type a b with
  | none => simp [loopBranch, Branch.completes, Branch.commands, Reported]
  | some r =>
    obtain ⟨m, _, hr⟩ := bind_eq_some_iff.mp hw
    rcases extractSimple_range hr with rfl | rfl | rfl <;> decide

/-- In file order, the first output that is not refuted is reported as a violation. -/
def FirstViolation {α : Type} (refuted violated : α → Bool) (report : α → Option Str)
    (outs : List α) : Prop :=
  ∃ pre o post, outs = pre ++ o :: post ∧ (∀ x ∈ pre, refuted x = true) ∧
    refuted o = false ∧ violated o = true ∧ Reported (report o)

theorem firstViolation_cons {α : Type} {refuted violated : α → Bool} {report : α → Option Str}
    {o : α} {os : List α} :
    FirstViolation refuted violated report (o :: os) ↔
      (refuted o = true ∧ FirstViolation refuted violated report os) ∨
      (refuted o = false ∧ violated o = true ∧ Reported (report o)) := by
  constructor
  · rintro ⟨_ | ⟨x, pre⟩, y, post, he, hpre, hy⟩
    · obtain ⟨rfl, rfl⟩ := List.cons.inj he
      exact Or.inr hy
    · obtain ⟨rfl, rfl⟩ := List.cons.inj he
      exact Or.inl ⟨hpre _ mem_cons_self, pre, y, post, rfl,
        fun z hz => hpre z (mem_cons_of_mem _ hz), hy⟩
  · rintro (⟨ho, pre, y, post, rfl, hpre, hy⟩ | hy)
    · exact ⟨o :: pre, y, post, rfl, forall_mem_cons.mpr ⟨ho, hpre⟩, hy⟩
    · exact ⟨[], o, os, rfl, by simp, hy⟩

theorem verifyLoop_branch {α : Type} {refuted violated : α → Bool} {report : α → Option Str}
    (hreport : ∀ o, ¬(loopBranch ((report o).map some)).completes ↔ Reported (report o))
    (outs : List α) {result : Option Str} (hresult : (decideResult result).completes) :
    ¬(loopBranch (verifyLoop refuted violated report outs result)).completes ↔
      FirstViolation refuted violated report outs := by
  induction outs generalizing result with
  | nil =>
    refine iff_of_false (fun h => h hresult) ?_
    rintro ⟨pre, o, post, he, _⟩
    simp at he
  | cons o os ih =>
    rw [firstViolation_cons, verifyLoop]
    by_cases hr : refuted o = true
    · rw [if_pos hr, ih (by decide)]
      simp [hr]
    · by_cases hv : violated o = true
      · rw [if_neg hr, if_pos hv, hreport]
        simp [hr, hv]
      · rw [if_neg hr, if_neg hv]
        simp [loopBranch, hresult, hr, hv]

def Rejects (f : RoundFiles) (m : ℕ) : Prop :=
  if findInFile f.outputOr "NOP".toList then
    FirstViolation (findInFile · "unsat".toList) (findInFile · "sat".toList)
      (fun o => extractCounterexample f.mapping .normal o []) ((List.range m).map f.simple)
  else if findInFile f.outputOr "OR".toList then
    FirstViolation (fun o => findInFile o.1 "unsat".toList || findInFile o.2 "unsat".toList)
      (fun o => findInFile o.1 "sat".toList && findInFile o.2 "sat".toList)
      (fun o => extractCounterexample f.mapping .programConsistency o.1 o.2)
      ((List.range m).map fun k => (f.old k, f.new k))
  else False

variable (f : RoundFiles)

theorem verificationPhase_rejects (m : ℕ) : ¬(verificationPhase f m).completes ↔ Rejects f m := by
  unfold verificationPhase verifyResult Rejects
  by_cases hn : findInFile f.outputOr "NOP".toList = true
  · rw [if_pos hn, if_pos hn]
    exact verifyLoop_branch (fun _ => report_branch) _ (by decide)
  · rw [if_neg hn, if_neg hn]
    by_cases ho : findInFile f.outputOr "OR".toList = true
    · rw [if_pos ho, if_pos ho]
      exact verifyLoop_branch (fun _ => report_branch) _ (by decide)
    · rw [if_neg ho, if_neg ho]
      decide

/-- Outputs of the formulas as the parallel runner leaves them. -/
def RoundFiles.afterRunner (f : RoundFiles) (ps : List Process) (s : State) : RoundFiles :=
  { f with simple := fun k => ((outputs ps s)[k]?).getD [] }

theorem afterRunner_outputs (ps : List Process) (s : State) :
    (List.range ps.length).map (f.afterRunner ps s).simple = outputs ps s := by
  apply ext_getElem
  · simp
  · intro k hk hk'
    simp [RoundFiles.afterRunner, getElem?_eq_getElem hk']

/-- The `k`-th process has ended with a `sat` that is read as one, and every process
before it has ended with `unsat` in its output. -/
structure CleanViolation (mapping : Option (Dict Str Str)) (ps : List Process) (s : State)
    (k : ℕ) (p : Process) : Prop where
  process : ps[k]? = some p
  finished : k ∈ s.finished
  notUnsat : findInFile p.answer.text "unsat".toList = false
  sat : findInFile p.answer.text "sat".toList = true
  reported : Reported (extractCounterexample mapping .normal p.answer.text [])
  before : ∀ j q, j < k → ps[j]? = some q →
    j ∈ s.finished ∧ findInFile q.answer.text "unsat".toList = true

theorem outputs_getElem? (ps : List Process) (s : State) (k : ℕ) :
    (outputs ps s)[k]? = (ps[k]?).map fun p =>
      if k ∈ s.finished then p.answer.text else p.flushed := by
  simp [outputs]

theorem finished_of_sat {s : State} {k : ℕ} {p : Process}
    (h : findInFile (if k ∈ s.finished then p.answer.text else p.flushed) "sat".toList = true) :
    k ∈ s.finished := by
  by_contra hn
  rw [if_neg hn, p.silent] at h
  exact Bool.false_ne_true h

theorem firstViolation_outputs {mapping : Option (Dict Str Str)} {ps : List Process} {s : State} :
    FirstViolation (findInFile · "unsat".toList) (findInFile · "sat".toList)
      (fun o => extractCounterexample mapping .normal o []) (outputs ps s) ↔
      ∃ k p, CleanViolation mapping ps s k p := by
  constructor
  · rintro ⟨pre, o, post, he, hpre, hu, hs, hr⟩
    have hk : (outputs ps s)[pre.length]? = some o := by simp [he]
    rw [outputs_getElem?] at hk
    obtain ⟨p, hp, rfl⟩ := map_eq_some_iff.mp hk
    have hf := finished_of_sat hs
    rw [if_pos hf] at hu hs hr
    refine ⟨pre.length, p, hp, hf, hu, hs, hr, ?_⟩
    intro j q hj hq
    have hget := outputs_getElem? ps s j
    rw [hq, map_some, he, getElem?_append_left hj] at hget
    have hj' := hpre _ (mem_of_getElem? hget)
    have hjf := finished_of_sat (sat_of_unsat hj')
    rw [if_pos hjf] at hj'
    exact ⟨hjf, hj'⟩
  · rintro ⟨k, p, h⟩
    have hk : (outputs ps s)[k]? = some p.answer.text := by
      rw [outputs_getElem?, h.process, map_some, if_pos h.finished]
    obtain ⟨hlt, hget⟩ := List.getElem?_eq_some_iff.mp hk
    refine ⟨(outputs ps s).take k, p.answer.text, (outputs ps s).drop (k + 1), ?_, ?_,
      h.notUnsat, h.sat, h.reported⟩
    · rw [← hget, getElem_cons_drop, take_append_drop]
    · intro x hx
      obtain ⟨j, hj, hjx⟩ := getElem_of_mem hx
      have hjk : j < k := by simp at hj; omega
      have hjx' : (outputs ps s)[j]? = some x := by
        rw [← hjx, getElem_take, getElem?_eq_getElem]
      rw [outputs_getElem?] at hjx'
      obtain ⟨q, hq, rfl⟩ := map_eq_some_iff.mp hjx'
      obtain ⟨hjf, hju⟩ := h.before j q hjk hq
      rw [if_pos hjf]
      exact hju

/-- A run of the parallel runner up to the point where it has ended. -/
structure CompletedRun (ps : List Process) where
  events : List Event
  final : State
  run : Run (Step ps) (initial ps) events final
  stopped : final.stopped = true

/-- Exactly when is an accepted plan one that the solver verified completely? Either
nothing else was answered, or the violation stands in front of every missing verdict. -/
theorem verification_phase_sound_iff (f : RoundFiles) (ps : List Process) (r : CompletedRun ps)
    (hfin : findInFile f.outputFin "FIN".toList = false)
    (hor : findInFile f.outputOr "NOP".toList = true) :
    ((afterPlan (f.afterRunner ps r.final) ps.length).completes →
      ∀ p ∈ ps, p.answer.verdict = .unsat) ↔
    ((∀ p ∈ ps, p.answer.verdict = .unsat) ∨ ∃ k p, CleanViolation f.mapping ps r.final k p) := by
  have hskip : afterPlan (f.afterRunner ps r.final) ps.length =
      verificationPhase (f.afterRunner ps r.final) ps.length :=
    if_neg (Bool.eq_false_iff.mp hfin)
  have hrej := verificationPhase_rejects (f.afterRunner ps r.final) ps.length
  rw [Rejects, if_pos (by exact hor), afterRunner_outputs, firstViolation_outputs] at hrej
  rw [hskip, imp_iff_not_or, hrej, or_comm]
  rfl

namespace Counterexample

def refuted : Process := ⟨⟨.unsat, []⟩, [], by decide⟩
def violated : Process := ⟨⟨.sat, []⟩, [], by decide⟩
def processes : List Process := [refuted, violated, violated]
def orderedProcesses : List Process := [refuted, violated]
def files : RoundFiles :=
  ⟨[], "NOP".toList, [], "off".toList, true, some [], fun _ => [], fun _ => [], fun _ => []⟩

/-- The third formula is answered before the second, which is terminated. -/
def interrupted : CompletedRun processes where
  events := [.finish 0, .finish 2, .get, .get]
  final := ⟨insert 2 (insert 0 ∅), [], 1, true⟩
  run := by
    refine .cons (.finish _ 0 refuted rfl (by decide) rfl) ?_
    refine .cons (.finish _ 2 violated rfl (by decide) rfl) ?_
    refine .cons (.proceed _ .unsat [.sat] (by decide) rfl (by decide) (by decide)) ?_
    refine .cons (.terminate _ .sat [] rfl rfl (Or.inl rfl)) ?_
    exact .nil _
  stopped := rfl

def ordered : CompletedRun orderedProcesses where
  events := [.finish 0, .finish 1, .get, .get]
  final := ⟨insert 1 (insert 0 ∅), [], 0, true⟩
  run := by
    refine .cons (.finish _ 0 refuted rfl (by decide) rfl) ?_
    refine .cons (.finish _ 1 violated rfl (by decide) rfl) ?_
    refine .cons (.proceed _ .unsat [.sat] (by decide) rfl (by decide) (by decide)) ?_
    refine .cons (.terminate _ .sat [] rfl rfl (Or.inl rfl)) ?_
    exact .nil _
  stopped := rfl

theorem ordered_violation :
    CleanViolation files.mapping orderedProcesses ordered.final 1 violated := by
  refine ⟨rfl, by decide, by decide, by decide, by decide, ?_⟩
  intro j q hj hq
  obtain rfl : j = 0 := by omega
  cases hq
  decide

end Counterexample

theorem ordered_verification_sound :
    Counterexample.violated ∈ Counterexample.orderedProcesses ∧
    ((afterPlan (Counterexample.files.afterRunner Counterexample.orderedProcesses
      Counterexample.ordered.final) 2).completes →
      ∀ p ∈ Counterexample.orderedProcesses, p.answer.verdict = .unsat) :=
  ⟨mem_cons_of_mem _ (mem_singleton_self _),
    (verification_phase_sound_iff Counterexample.files Counterexample.orderedProcesses
      Counterexample.ordered (by decide) (by decide)).mpr
      (Or.inr ⟨1, Counterexample.violated, Counterexample.ordered_violation⟩)⟩

/-- The plan is accepted although two of its three states violate the specification. -/
theorem interrupted_verification_accepts :
    (afterPlan (Counterexample.files.afterRunner Counterexample.processes
      Counterexample.interrupted.final) Counterexample.processes.length).completes ∧
    ¬∀ p ∈ Counterexample.processes, p.answer.verdict = .unsat := by
  decide

/-- How a round escapes a success: the text says `unsat` somewhere, a command fails, or
the states of whatever plan the text contains are verified and one is rejected. -/
def Spared (outputSyn : Str) (f : RoundFiles) : Prop :=
  findInFile outputSyn "unsat".toList = true ∨
  (extractPlan outputSyn).bind transitionStates = none ∨
  ∃ states, (extractPlan outputSyn).bind transitionStates = some states ∧
    if findInFile f.outputFin "FIN".toList then
      findInFile f.outputReady "READY".toList = false ∧ f.freeVar ≠ "off".toList ∧
        f.freeCommands = false
    else Rejects f states.length

theorem skipPhase_completes :
    ¬(skipPhase f).completes ↔ findInFile f.outputReady "READY".toList = false ∧
      f.freeVar ≠ "off".toList ∧ f.freeCommands = false := by
  have hacc : (decideResult (some "UNSAT\n".toList)).completes := by decide
  have hcrash : ¬Branch.crash.completes := by decide
  unfold skipPhase
  split
  · rename_i h
    simp only [Bool.or_eq_true, decide_eq_true_eq] at h
    refine iff_of_false (fun hn => hn hacc) ?_
    rintro ⟨hr, hv, hc⟩
    rcases h with (h | h) | h
    · exact Bool.false_ne_true (hr.symm.trans h)
    · exact hv h
    · exact Bool.false_ne_true (hc.symm.trans h)
  · rename_i h
    simp only [Bool.or_eq_true, decide_eq_true_eq, not_or, Bool.not_eq_true] at h
    exact iff_of_true hcrash ⟨h.1.1, h.1.2, h.2⟩

theorem cegisRound_spared (outputSyn : Str) (f : RoundFiles) :
    ¬(cegisRound outputSyn f).completes ↔ Spared outputSyn f := by
  unfold cegisRound Spared
  by_cases hu : findInFile outputSyn "unsat".toList = true
  · rw [if_pos hu]
    exact iff_of_true (by decide) (Or.inl hu)
  · rw [if_neg hu]
    cases hp : (extractPlan outputSyn).bind transitionStates with
    | none => exact iff_of_true (show ¬Branch.crash.completes by decide) (Or.inr (Or.inl rfl))
    | some states =>
      simp only [hu, reduceCtorEq, Option.some.injEq, exists_eq_left', false_or, afterPlan]
      by_cases hf : findInFile f.outputFin "FIN".toList = true
      · rw [if_pos hf, if_pos hf, skipPhase_completes]
      · rw [if_neg hf, if_neg hf, verificationPhase_rejects]

theorem rejects_zero : ¬Rejects f 0 := by
  have hnil : ∀ {α : Type} (r v : α → Bool) (w : α → Option Str), ¬FirstViolation r v w [] := by
    rintro α r v w ⟨pre, o, post, he, _⟩
    simp at he
  unfold Rejects
  split_ifs
  · exact hnil _ _ _
  · exact hnil _ _ _
  · exact id

end CegisRound
