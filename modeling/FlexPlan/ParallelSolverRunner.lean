import FlexPlan.SolverOutput
import FlexPlan.TransitionRuns
import Mathlib.Data.Finset.Card
import Mathlib.Data.Finset.Range

/-!
# Solving verification formulas in parallel

One process per formula runs the solver and reports on a shared queue. The parent terminates
everybody at the first `sat` or after as many messages as there are processes. Finishing and reading
are separate events.
-/
namespace ParallelSolverRunner

open PythonText SolverOutput TransitionRuns List

/-- `flushed` is what a terminated process leaves in its file: never a verdict. -/
structure Process where
  answer : Answer
  flushed : Str
  silent : findInFile flushed "sat".toList = false

structure State where
  finished : Finset ℕ
  queue : List Message
  count : ℕ
  stopped : Bool
  deriving DecidableEq

inductive Event where
  | finish (i : ℕ)
  | get
  deriving DecidableEq, Repr

def initial (ps : List Process) : State := ⟨∅, [], ps.length, ps.length == 0⟩

inductive Step (ps : List Process) : State → Event → State → Prop where
  | finish (s i p) (hp : ps[i]? = some p) (hi : i ∉ s.finished) (hs : s.stopped = false) :
      Step ps s (.finish i) { s with
        finished := insert i s.finished
        queue := s.queue ++ [checkCall p.answer.text] }
  | proceed (s r q) (hq : s.queue = r :: q) (hs : s.stopped = false)
      (hr : r ≠ .sat) (hc : s.count - 1 ≠ 0) :
      Step ps s .get { s with queue := q, count := s.count - 1 }
  | terminate (s r q) (hq : s.queue = r :: q) (hs : s.stopped = false)
      (hr : r = .sat ∨ s.count - 1 = 0) :
      Step ps s .get { s with queue := q, count := s.count - 1, stopped := true }

/-- The output files once the runner has ended, in the order of the formulas. -/
def outputs (ps : List Process) (s : State) : List Str :=
  ps.mapIdx fun i p => if i ∈ s.finished then p.answer.text else p.flushed

@[simp] theorem outputs_length (ps : List Process) (s : State) :
    (outputs ps s).length = ps.length := by simp [outputs]

def ReportsSat (ps : List Process) (s : State) : Prop :=
  ∃ i ∈ s.finished, ∃ p, ps[i]? = some p ∧ checkCall p.answer.text = .sat

structure Invariant (ps : List Process) (s : State) : Prop where
  range : ∀ i ∈ s.finished, i < ps.length
  pending : s.finished.card + s.count = ps.length + s.queue.length
  queued : .sat ∈ s.queue → ReportsSat ps s
  stopped : s.stopped = true → ReportsSat ps s ∨ s.count = 0

variable {ps : List Process}

private theorem reports_insert (h : ReportsSat ps s) (i : ℕ) (q : List Message) :
    ReportsSat ps { s with finished := insert i s.finished, queue := q } := by
  obtain ⟨j, hj, p, hp, hm⟩ := h
  exact ⟨j, Finset.mem_insert_of_mem hj, p, hp, hm⟩

theorem initial_invariant (ps : List Process) : Invariant ps (initial ps) := by
  constructor
  · intro i hi; simp [initial] at hi
  · simp [initial]
  · intro h; simp [initial] at h
  · intro h; exact Or.inr (by simpa [initial] using h)

theorem step_preserves_invariant (hs : Invariant ps s) (h : Step ps s e t) : Invariant ps t := by
  obtain ⟨hr, hp, hq, ht⟩ := hs
  cases h with
  | finish i p hget hi hrun =>
    obtain ⟨hlt, _⟩ := List.getElem?_eq_some_iff.mp hget
    constructor
    · intro j hj
      rcases Finset.mem_insert.mp hj with rfl | hj
      · exact hlt
      · exact hr j hj
    · simp only [Finset.card_insert_of_notMem hi, length_append, length_singleton]
      omega
    · intro hm
      rcases mem_append.mp hm with hm | hm
      · exact reports_insert (hq hm) i _
      · exact ⟨i, Finset.mem_insert_self _ _, p, hget, (mem_singleton.mp hm).symm⟩
    · intro h; simp [hrun] at h
  | proceed r q hqueue hrun hne hc =>
    refine ⟨hr, ?_, ?_, ?_⟩
    · simp only [hqueue, length_cons] at hp ⊢
      omega
    · intro hm; exact hq (hqueue ▸ mem_cons_of_mem r hm)
    · intro h; simp [hrun] at h
  | terminate r q hqueue hrun hstop =>
    by_cases hz : s.count = 0
    · -- no process was ever started, so nothing can be on the queue
      have hcard : s.finished.card ≤ ps.length := by
        have hsub : s.finished ⊆ Finset.range ps.length :=
          fun i hi => Finset.mem_range.mpr (hr i hi)
        simpa using Finset.card_le_card hsub
      simp only [hqueue, length_cons] at hp
      omega
    refine ⟨hr, ?_, ?_, ?_⟩
    · simp only [hqueue, length_cons] at hp ⊢
      omega
    · intro hm; exact hq (hqueue ▸ mem_cons_of_mem r hm)
    · intro _
      rcases hstop with rfl | hc
      · exact Or.inl (hq (hqueue ▸ mem_cons_self))
      · exact Or.inr hc

theorem run_invariant (h : Run (Step ps) (initial ps) es s) : Invariant ps s :=
  h.preserves (fun _ _ _ => step_preserves_invariant) (initial_invariant ps)

theorem unfinished_needs_sat (h : Run (Step ps) (initial ps) es s)
    (hs : s.stopped = true) (hi : i < ps.length) (hn : i ∉ s.finished) : ReportsSat ps s := by
  have hinv := run_invariant h
  rcases hinv.stopped hs with hr | hc
  · exact hr
  · have hsub : s.finished ⊆ (Finset.range ps.length).erase i := by
      intro j hj
      refine Finset.mem_erase.mpr ⟨fun he => hn (he ▸ hj), Finset.mem_range.mpr (hinv.range j hj)⟩
    have hcard := Finset.card_le_card hsub
    rw [Finset.card_erase_of_mem (Finset.mem_range.mpr hi), Finset.card_range] at hcard
    have hp := hinv.pending
    omega

theorem first_sat_stops :
    let p (v : Verdict) : Process := ⟨⟨v, []⟩, [], by decide⟩
    let ps := [p .sat, p .unsat]
    ReportsSat ps ⟨{0}, [], 1, true⟩ := by
  intro p ps
  have hrun : Run (Step ps) (initial ps) [.finish 0, .get] ⟨{0}, [], 1, true⟩ :=
    .cons (.finish _ 0 (p .sat) rfl (by decide) rfl) <|
      .cons (.terminate _ .sat [] (by decide) rfl (Or.inl rfl)) (.nil _)
  exact unfinished_needs_sat hrun rfl (i := 1) (by decide) (by decide)

end ParallelSolverRunner
