import FlexPlan.CoreLearning

/-!
# Skipping verification while cores are still being learned

The background learner dumps every new core to `unsat_lists.pickle` and ends with `FIN` in
`output-fin`. A round reads the first file before it calls the solver and the second one afterwards.
-/
namespace FinFlagRace

open PythonText TransitionRuns CoreLearning

variable {Comp : Type}

inductive Round (Comp : Type) where
  | idle
  | solving (formula : List (Core Comp))
  | candidate (formula : List (Core Comp))
  | verifying (formula : List (Core Comp))
  | skipped (formula atFin : List (Core Comp))

/-- The cores in the formula of a round that has not tested `output-fin` yet. -/
def Round.open? : Round Comp → Option (List (Core Comp))
  | .solving formula | .candidate formula => some formula
  | _ => none

structure State (Comp : Type) where
  learner : Loop Comp
  unsatLists : List (Core Comp)
  outputFin : Option (List (Core Comp))
  round : Round Comp

inductive Event (Comp : Type) where
  | learn (a : Answer Comp)
  | dump
  | concat
  | solve (found : Bool)
  | testFin
  | next

def records (filename : Str) (s : Loop Comp) : Answer Comp → Bool
  | .check (.sat _ core) => s.flagSat < 20 && !core.isEmpty && !dropsCore filename core
  | _ => false

/-- An iteration of the learner with its writes to the two shared files. -/
def learn (filename : Str) (s : State Comp) (a : Answer Comp) : State Comp :=
  let t := iterate filename s.learner a
  { s with
    learner := t
    unsatLists := if records filename s.learner a then t.unsatLists else s.unsatLists
    outputFin := if t.stop = some .exhausted then some t.unsatLists else s.outputFin }

def testFin (s : State Comp) (formula : List (Core Comp)) : State Comp :=
  match s.outputFin with
  | some atFin => { s with round := .skipped formula atFin }
  | none => { s with round := .verifying formula }

inductive Step (Legal : Loop Comp → Answer Comp → Prop) (filename : Str) :
    State Comp → Event Comp → State Comp → Prop where
  | learn (s a) (running : s.learner.stop = none) (legal : Legal s.learner a) :
      Step Legal filename s (.learn a) (learn filename s a)
  | dump (s) (ended : s.learner.stop ≠ none) (hl : s.learner.unsatLists ≠ []) :
      Step Legal filename s .dump { s with unsatLists := s.learner.unsatLists }
  | concat (s) (hr : s.round = .idle) :
      Step Legal filename s .concat { s with round := .solving s.unsatLists }
  | solved (s formula) (hr : s.round = .solving formula) :
      Step Legal filename s (.solve true) { s with round := .candidate formula }
  | unsolvable (s formula) (hr : s.round = .solving formula) :
      Step Legal filename s (.solve false) { s with round := .idle }
  | testFin (s formula) (hr : s.round = .candidate formula) :
      Step Legal filename s .testFin (testFin s formula)
  | next (s formula) (hr : s.round = .verifying formula) :
      Step Legal filename s .next { s with round := .idle }

/-- The background process starts from the files of the foreground run, which may have
written `FIN` already. -/
def initial (results lists : List (Core Comp)) (fin : Bool) : State Comp :=
  ⟨start results lists, lists, if fin then some lists else none, .idle⟩

/-- `FIN` is not written while a round works with fewer cores than are recorded. -/
def Timely (filename : Str) (s : State Comp) : Event Comp → Prop
  | .learn a => (iterate filename s.learner a).stop = some .exhausted →
      ∀ formula, s.round.open? = some formula → (iterate filename s.learner a).unsatLists ⊆ formula
  | _ => True

structure Invariant (s : State Comp) : Prop where
  dumped : s.unsatLists = s.learner.unsatLists
  fin_dumped : ∀ atFin, s.outputFin = some atFin → atFin ⊆ s.unsatLists
  fin_open : ∀ atFin formula, s.outputFin = some atFin → s.round.open? = some formula →
    atFin ⊆ formula
  skipped_safe : ∀ formula atFin, s.round = .skipped formula atFin → atFin ⊆ formula

theorem initial_invariant (results lists : List (Core Comp)) (fin : Bool) :
    Invariant (initial results lists fin) := by
  refine ⟨rfl, ?_, fun _ _ _ hr => (nomatch hr), fun _ _ hr => (nomatch hr)⟩
  intro atFin hf
  cases fin with
  | false => cases hf
  | true =>
    cases hf
    exact List.Subset.refl _

variable {filename : Str}

theorem iterate_unrecorded (h : records filename s a = false) :
    (iterate filename s a).unsatLists = s.unsatLists := by
  cases a with
  | late => rfl
  | check c =>
    by_cases hf : s.flagSat ≥ 20
    · rw [iterate, if_pos hf]
    · rw [iterate, if_neg hf]
      cases c with
      | unsat | unknown => rfl
      | sat v core =>
        by_cases he : core.isEmpty = true
        · rw [examine, if_pos he]
          rfl
        · by_cases hd : dropsCore filename core = true
          · rw [examine, if_neg he, if_pos hd]
            rfl
          · have hlt : s.flagSat < 20 := by omega
            simp [records, hlt, he, hd] at h

variable {s : State Comp}

theorem learn_dumped (filename : Str) (a : Answer Comp) (h : s.unsatLists = s.learner.unsatLists) :
    (learn filename s a).unsatLists = (iterate filename s.learner a).unsatLists := by
  by_cases hr : records filename s.learner a = true
  · simp only [learn, if_pos hr]
  · simp only [learn, if_neg hr]
    rw [h, iterate_unrecorded (Bool.eq_false_iff.mpr hr)]

theorem iterate_keeps_lists (filename : Str) (s : Loop Comp) (a : Answer Comp) :
    s.unsatLists ⊆ (iterate filename s a).unsatLists := by
  have h := iterate_effect filename s a
  generalize iterate filename s a = t at h
  cases h with
  | stopped r | blocked v core n => exact List.Subset.refl _
  | recorded v core hc => exact List.subset_append_left _ _

theorem learn_preserves_invariant (h : Invariant s) (htimely : Timely filename s (.learn a)) :
    Invariant (learn filename s a) := by
  have hdump := learn_dumped filename a h.dumped
  by_cases hfin : (iterate filename s.learner a).stop = some .exhausted
  · have hflag : (learn filename s a).outputFin = some (iterate filename s.learner a).unsatLists :=
      if_pos hfin
    refine ⟨hdump, ?_, ?_, h.skipped_safe⟩
    · intro atFin hf
      rw [hflag] at hf
      rw [hdump, ← Option.some.inj hf]
      exact List.Subset.refl _
    · intro atFin formula hf hr
      rw [hflag] at hf
      rw [← Option.some.inj hf]
      exact htimely hfin formula hr
  · have hflag : (learn filename s a).outputFin = s.outputFin := if_neg hfin
    refine ⟨hdump, ?_, ?_, h.skipped_safe⟩
    · intro atFin hf
      rw [hflag] at hf
      rw [hdump]
      refine List.Subset.trans (h.fin_dumped atFin hf) ?_
      rw [h.dumped]
      exact iterate_keeps_lists filename s.learner a
    · intro atFin formula hf hr
      rw [hflag] at hf
      exact h.fin_open atFin formula hf hr

theorem closed_round_invariant (h : Invariant s) (hopen : r.open? = none)
    (hskip : ∀ formula atFin, r ≠ .skipped formula atFin) : Invariant { s with round := r } := by
  refine ⟨h.dumped, h.fin_dumped, ?_, fun formula atFin hr => (hskip formula atFin hr).elim⟩
  intro atFin formula _ hr
  rw [hopen] at hr
  cases hr

theorem step_preserves_invariant {Legal : Loop Comp → Answer Comp → Prop}
    (h : Invariant s) (hstep : Restrict (Step Legal filename) (Timely filename) s e t) :
    Invariant t := by
  obtain ⟨hstep, htimely⟩ := hstep
  cases hstep with
  | learn a running legal => exact learn_preserves_invariant h htimely
  | dump ended hl =>
    refine ⟨rfl, ?_, h.fin_open, h.skipped_safe⟩
    intro atFin hf
    have hsub := h.fin_dumped atFin hf
    rwa [h.dumped] at hsub
  | concat hr =>
    refine ⟨h.dumped, h.fin_dumped, ?_, fun _ _ hr => (nomatch hr)⟩
    intro atFin formula hf hopen
    cases hopen
    exact h.fin_dumped atFin hf
  | solved formula hr =>
    refine ⟨h.dumped, h.fin_dumped, ?_, fun _ _ hr => (nomatch hr)⟩
    intro atFin formula' hf hopen
    cases hopen
    exact h.fin_open atFin formula hf (by rw [hr]; rfl)
  | unsolvable formula hr =>
    exact closed_round_invariant h rfl (by simp)
  | testFin formula hr =>
    unfold testFin
    split
    · rename_i atFin hf
      refine ⟨h.dumped, h.fin_dumped, fun _ _ _ hr => (nomatch hr), ?_⟩
      intro formula' atFin' hround
      cases hround
      exact h.fin_open atFin formula hf (by rw [hr]; rfl)
    · exact closed_round_invariant h rfl (by simp)
  | next formula hr =>
    exact closed_round_invariant h rfl (by simp)

/-- In every run in which `FIN` comes timely, a round that skips verification used all
cores recorded when `FIN` was written. -/
theorem timely_fin_skips_safely {Legal : Loop Comp → Answer Comp → Prop} {filename : Str}
    {results lists : List (Core Comp)} {fin : Bool} {es : List (Event Comp)} {s : State Comp}
    (hrun : Run (Restrict (Step Legal filename) (Timely filename)) (initial results lists fin) es s)
    {formula atFin : List (Core Comp)} (hskip : s.round = .skipped formula atFin) :
    ∀ core ∈ atFin, core ∈ formula :=
  (hrun.preserves (fun _ _ _ h hstep => step_preserves_invariant h hstep)
    (initial_invariant results lists fin)).skipped_safe formula atFin hskip

namespace Counterexample

open CoreLearning.Counterexample

/-- A round between its two reads while the learner finds its only core and ends. -/
def schedule : List (Event Unit) :=
  [.concat, .learn (.check (.sat allNew core)), .learn (.check .unsat), .solve true, .testFin]

theorem schedule_runs : ∃ s, Run (Step (Answers {allNew}) formula) (initial [] [] false)
    schedule s ∧ s.round = .skipped [] [core] :=
  ⟨_, .cons (.concat _ rfl) <| .cons (.learn _ _ rfl learned_step.legal) <|
    .cons (.learn _ _ rfl learned_exhausted) <| .cons (.solved _ [] rfl) <|
    .cons (.testFin _ [] rfl) <| .nil _, rfl⟩

end Counterexample

/-- The plan comes from a formula without any core, yet its verification is skipped
because the learner has recorded one and finished. -/
theorem late_fin_skips_unsafely :
    ∃ es s formula atFin, Run (Step (Answers {CoreLearning.Counterexample.allNew})
        CoreLearning.Counterexample.formula) (initial [] [] false) es s ∧
      s.round = .skipped formula atFin ∧ ¬∀ core ∈ atFin, core ∈ formula := by
  obtain ⟨s, hrun, hround⟩ := Counterexample.schedule_runs
  refine ⟨_, s, _, _, hrun, hround, ?_⟩
  intro hall
  exact List.not_mem_nil (hall _ (List.mem_singleton_self _))

/-- A round that reads the cores after `FIN` has them all. -/
theorem early_fin_skips_safely :
    ∃ es s formula atFin, Run (Step (Answers {CoreLearning.Counterexample.allNew})
        CoreLearning.Counterexample.formula) (initial [] [] false) es s ∧
      s.round = .skipped formula atFin ∧ atFin ≠ [] ∧ ∀ core ∈ atFin, core ∈ formula := by
  have hrun : Run (Restrict (Step (Answers {CoreLearning.Counterexample.allNew})
        CoreLearning.Counterexample.formula) (Timely CoreLearning.Counterexample.formula))
      (initial [] [] false)
      [.learn (.check (.sat CoreLearning.Counterexample.allNew CoreLearning.Counterexample.core)),
        .learn (.check .unsat), .concat, .solve true, .testFin] _ :=
    .cons ⟨.learn _ _ rfl CoreLearning.Counterexample.learned_step.legal,
      fun _ _ ho => (nomatch ho)⟩ <|
    .cons ⟨.learn _ _ rfl CoreLearning.Counterexample.learned_exhausted,
      fun _ _ ho => (nomatch ho)⟩ <|
    .cons ⟨.concat _ rfl, trivial⟩ <|
    .cons ⟨.solved _ [CoreLearning.Counterexample.core] rfl, trivial⟩ <|
    .cons ⟨.testFin _ [CoreLearning.Counterexample.core] rfl, trivial⟩ <| .nil _
  exact ⟨_, _, [CoreLearning.Counterexample.core], [CoreLearning.Counterexample.core],
    hrun.of_restrict, rfl, List.cons_ne_nil _ _, timely_fin_skips_safely hrun rfl⟩

end FinFlagRace
