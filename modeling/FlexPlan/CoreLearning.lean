import FlexPlan.PythonText
import FlexPlan.TransitionRuns
import Mathlib.Data.Set.Basic

/-!
# Learning unsat cores

`find_unsat_cores` asks for a version assignment with a violating packet, extracts a core from it
and excludes everything the core covers. An assignment without a usable core is excluded by a
clause that only lives until the file is written again.
-/
namespace CoreLearning

open PythonText TransitionRuns List

abbrev Assignment (Comp : Type) := Comp → Bool
abbrev Core (Comp : Type) := List (Comp × Bool)

variable {Comp : Type}

def allOld : Assignment Comp := fun _ => false

def Extends (v : Assignment Comp) (core : Core Comp) : Prop := ∀ l ∈ core, v l.1 = l.2

def Covered (cores : List (Core Comp)) (v : Assignment Comp) : Prop :=
  ∃ core ∈ cores, Extends v core

/-- The four ways out of the loop; only `exhausted` writes `FIN`. -/
inductive Stop where
  | exhausted
  | period
  | coreSize
  | timeout
  deriving DecidableEq, Repr

/-- The variables of the loop, with `result` and `solve-distill.smt` reduced to their
blocking clauses. -/
structure Loop (Comp : Type) where
  result : List (Core Comp)
  unsatResults : List (Core Comp)
  unsatLists : List (Core Comp)
  written : List (Core Comp)
  blocked : Option (Assignment Comp)
  flagSat : ℕ
  stop : Option Stop

/-- The first `solve-distill.smt` is written before the earlier clauses are loaded. -/
def start (results lists : List (Core Comp)) : Loop Comp :=
  ⟨results, results, lists, [], none, 0, none⟩

/-- Outcome of the check; the core is empty when `output-uc` shows none. -/
inductive Check (Comp : Type) where
  | unsat
  | unknown
  | sat (v : Assignment Comp) (core : Core Comp)

inductive Answer (Comp : Type) where
  | late
  | check (c : Check Comp)

def dropsCore (filename : Str) (core : Core Comp) : Bool :=
  (isIn "new".toList filename && core.any (·.2)) ||
  (isIn "old".toList filename && core.any (!·.2)) ||
  (!core.any (·.2) && !core.any (!·.2))

def block (s : Loop Comp) (v : Assignment Comp) : Loop Comp :=
  { s with written := s.result, blocked := some v }

def record (s : Loop Comp) (core : Core Comp) : Loop Comp :=
  { s with
    result := s.result ++ [core]
    unsatResults := s.unsatResults ++ [core]
    unsatLists := s.unsatLists ++ [core]
    written := s.result ++ [core]
    blocked := none
    flagSat := if core.length ≥ 5 ∨ core.length ≤ 0 then s.flagSat + 2 else s.flagSat }

def examine (filename : Str) (s : Loop Comp) : Check Comp → Loop Comp
  | .unsat => { s with stop := some .exhausted }
  | .unknown => { s with stop := some .timeout }
  | .sat v core =>
    if core.isEmpty then block { s with flagSat := s.flagSat + 1 } v
    else if dropsCore filename core then block s v
    else record s core

def iterate (filename : Str) (s : Loop Comp) : Answer Comp → Loop Comp
  | .late => { s with stop := some .period }
  | .check c =>
    if s.flagSat ≥ 20 then { s with stop := some .coreSize } else examine filename s c

def loop (filename : Str) (s : Loop Comp) : List (Answer Comp) → Loop Comp
  | [] => s
  | a :: as => if s.stop.isSome then s else loop filename (iterate filename s a) as

def findUnsatCores (filename : Str) (answers : List (Answer Comp))
    (results lists : List (Core Comp)) : Loop Comp :=
  loop filename (start results lists) answers

/-- What one iteration can do to the loop. -/
inductive Effect (s : Loop Comp) : Answer Comp → Loop Comp → Prop where
  | stopped (a r) : Effect s a { s with stop := some r }
  | blocked (v core n) : Effect s (.check (.sat v core)) { block s v with flagSat := n }
  | recorded (v core) (hc : core ≠ []) : Effect s (.check (.sat v core)) (record s core)

theorem iterate_effect (filename : Str) (s : Loop Comp) (a : Answer Comp) :
    Effect s a (iterate filename s a) := by
  cases a with
  | late => exact .stopped _ _
  | check c =>
    by_cases hf : s.flagSat ≥ 20
    · rw [iterate, if_pos hf]
      exact .stopped _ _
    · rw [iterate, if_neg hf]
      cases c with
      | unsat | unknown => exact .stopped _ _
      | sat v core =>
        by_cases he : core.isEmpty = true
        · rw [examine, if_pos he]
          exact .blocked _ _ _
        · by_cases hd : dropsCore filename core = true
          · rw [examine, if_neg he, if_pos hd]
            exact .blocked _ _ _
          · rw [examine, if_neg he, if_neg hd]
            exact .recorded _ _ (by simpa using he)

/-- The assignment is excluded by the clauses of `solve-distill.smt`. -/
def Excluded (s : Loop Comp) (w : Assignment Comp) : Prop :=
  Covered s.written w ∨ s.blocked = some w

/-- One iteration of the running loop under answers that the solver may give. -/
structure Step (Legal : Loop Comp → Answer Comp → Prop) (filename : Str)
    (s : Loop Comp) (a : Answer Comp) (t : Loop Comp) : Prop where
  running : s.stop = none
  legal : Legal s a
  next : t = iterate filename s a

theorem Step.effect {Legal : Loop Comp → Answer Comp → Prop} {filename : Str}
    (h : Step Legal filename s a t) :
    Effect s a t := by
  rw [h.next]
  exact iterate_effect filename s a

section Completeness

variable {V : Set (Assignment Comp)} {filename : Str} {results lists : List (Core Comp)}

/-- A correct check over the assignments `V` that have a violating packet. -/
def Answers (V : Set (Assignment Comp)) (s : Loop Comp) : Answer Comp → Prop
  | .late | .check .unknown => True
  | .check .unsat => ∀ v ∈ V, Excluded s v
  | .check (.sat v core) => v ∈ V ∧ ¬Excluded s v ∧ Extends v core

structure Invariant (V : Set (Assignment Comp)) (results : List (Core Comp))
    (s : Loop Comp) : Prop where
  written_accumulated : ∀ c ∈ s.written, c ∈ s.result
  accumulated_known : ∀ c ∈ s.result, c ∈ results ∨ c ∈ s.unsatLists
  blocked_violating : ∀ v, s.blocked = some v → v ∈ V

theorem start_invariant : Invariant V results (start results lists) := by
  constructor
  · intro c hc
    cases hc
  · intro c hc
    exact Or.inl hc
  · intro v hv
    cases hv

theorem step_preserves_invariant (h : Invariant V results s)
    (hstep : Step (Answers V) filename s a t) :
    Invariant V results t := by
  have hlegal := hstep.legal
  cases hstep.effect with
  | stopped a r => exact ⟨h.written_accumulated, h.accumulated_known, h.blocked_violating⟩
  | blocked v core n =>
    refine ⟨fun c hc => hc, h.accumulated_known, ?_⟩
    intro w hw
    cases hw
    exact hlegal.1
  | recorded v core hc =>
    refine ⟨fun c hc => hc, ?_, fun w hw => by cases hw⟩
    intro c hc
    rcases mem_append.mp hc with hc | hc
    · rcases h.accumulated_known c hc with hr | hl
      · exact Or.inl hr
      · exact Or.inr (mem_append_left _ hl)
    · exact Or.inr (mem_append_right _ hc)

theorem run_invariant (hrun : Run (Step (Answers V) filename) (start results lists) es s) :
    Invariant V results s :=
  hrun.preserves (fun _ _ _ h hstep => step_preserves_invariant h hstep) start_invariant

/-- What `FIN` says about the recorded cores: they cover every violating assignment
exactly if they cover the one the file excludes temporarily and those that the loaded
clauses exclude. -/
theorem fin_covers_iff {es : List (Answer Comp)} {s t : Loop Comp}
    (hrun : Run (Step (Answers V) filename) (start results lists) es s)
    (hstep : Step (Answers V) filename s (.check .unsat) t) (hfin : t.stop = some .exhausted) :
    (∀ v ∈ V, Covered t.unsatLists v) ↔
      (∀ v, s.blocked = some v → Covered s.unsatLists v) ∧
      ∀ v ∈ V, Covered results v → Covered s.unsatLists v := by
  have hinv := run_invariant hrun
  obtain ⟨-, hunsat, rfl⟩ := hstep
  have hsame : (iterate filename s (.check .unsat)).unsatLists = s.unsatLists := by
    unfold iterate examine
    split_ifs <;> rfl
  rw [hsame]
  constructor
  · intro hall
    exact ⟨fun v hv => hall v (hinv.blocked_violating v hv), fun v hv _ => hall v hv⟩
  · rintro ⟨hblocked, hloaded⟩ v hv
    rcases hunsat v hv with ⟨c, hc, he⟩ | hb
    · rcases hinv.accumulated_known c (hinv.written_accumulated c hc) with hr | hl
      · exact hloaded v hv ⟨c, hr, he⟩
      · exact ⟨c, hl, he⟩
    · exact hblocked v hb

namespace Counterexample

def formula : Str := "./direct-l2l3-dis-merge.smt".toList

def allNew : Assignment Unit := fun _ => true

def core : Core Unit := [((), true)]

def missed : Loop Unit := iterate formula (start [] []) (.check (.sat allNew []))

def learned : Loop Unit := iterate formula (start [] []) (.check (.sat allNew core))

theorem fresh_not_excluded (w : Assignment Comp) : ¬Excluded (start [] []) w := by
  rintro (⟨c, hc, -⟩ | hb)
  · cases hc
  · cases hb

theorem missed_step : Step (Answers {allNew}) formula (start [] []) (.check (.sat allNew []))
    missed :=
  ⟨rfl, ⟨rfl, fresh_not_excluded _, by simp [Extends]⟩, rfl⟩

theorem missed_exhausted : Answers {allNew} missed (.check .unsat) := by
  rintro v rfl
  exact Or.inr rfl

theorem learned_step : Step (Answers {allNew}) formula (start [] []) (.check (.sat allNew core))
    learned :=
  ⟨rfl, ⟨rfl, fresh_not_excluded _, by simp [Extends, core, allNew]⟩, rfl⟩

theorem learned_exhausted : Answers {allNew} learned (.check .unsat) := by
  rintro v rfl
  exact Or.inl ⟨core, mem_singleton_self core, by simp [Extends, core, allNew]⟩

end Counterexample

/-- The loop ends with `FIN` and without any core although an assignment violates. -/
theorem temporary_block_exhausts :
    ∃ es s t, Run (Step (Answers {Counterexample.allNew}) Counterexample.formula)
        (start [] []) es s ∧
      Step (Answers {Counterexample.allNew}) Counterexample.formula s (.check .unsat) t ∧
      t.stop = some .exhausted ∧ t.unsatLists = [] ∧
      ¬∀ v ∈ ({Counterexample.allNew} : Set (Assignment Unit)), Covered t.unsatLists v := by
  refine ⟨_, _, _, .cons Counterexample.missed_step (.nil _),
    ⟨rfl, Counterexample.missed_exhausted, rfl⟩, rfl, rfl, ?_⟩
  intro hall
  obtain ⟨c, hc, -⟩ := hall Counterexample.allNew rfl
  cases hc

/-- With the core found, `FIN` means coverage. -/
theorem learned_core_covers : ∃ t : Loop Unit, t.stop = some .exhausted ∧
    ∀ v ∈ ({Counterexample.allNew} : Set (Assignment Unit)), Covered t.unsatLists v :=
  ⟨_, rfl, (fin_covers_iff (.cons Counterexample.learned_step (.nil _))
    ⟨rfl, Counterexample.learned_exhausted, rfl⟩ rfl).mpr
    ⟨fun _ hv => (Option.some_ne_none _ hv.symm).elim,
      fun _ _ hr => hr.elim fun _ hc => (not_mem_nil hc.1).elim⟩⟩

end Completeness

section Soundness

variable {Packet : Type} {filename : Str}

/-- What the two formulas of an assignment and a packet can reach: the violation, or
the specification check without a violation. -/
structure Specification (Comp Packet : Type) where
  violates : Assignment Comp → Packet → Prop
  passes : Assignment Comp → Packet → Prop
  reached : ∀ v p, v ≠ allOld → violates v p ∨ passes v p
  old_silent : ∀ p, ¬violates allOld p ∧ ¬passes allOld p

variable (spec : Specification Comp Packet)

def Specification.violating : Set (Assignment Comp) := { v | ∃ p, spec.violates v p }

/-- A correct solver: the check as before, and a core that refutes the negated violation
for the fixed packet together with the clauses of the file. -/
def Extracts (s : Loop Comp) (a : Answer Comp) : Prop :=
  Answers spec.violating s a ∧
  ∀ v core, a = .check (.sat v core) → core ≠ [] →
    ∃ p, spec.violates v p ∧ ∀ w, Extends w core → ¬Excluded s w → ¬spec.passes w p

/-- States of the loop over any number of runs, each of which may load the clauses and
the cores that earlier runs left. -/
inductive Reachable (filename : Str) : Loop Comp → Prop where
  | fresh : Reachable filename (start [] [])
  | step {s a t} : Reachable filename s → Step (Extracts spec) filename s a t →
      Reachable filename t
  | rerun {s s'} : Reachable filename s → Reachable filename s' →
      Reachable filename (start s.unsatResults s'.unsatLists)

def CoreSound (core : Core Comp) : Prop :=
  ∀ w, w ≠ allOld → Extends w core → ∃ p, spec.violates w p

structure SoundState (s : Loop Comp) : Prop where
  result : ∀ c ∈ s.result, CoreSound spec c
  results : ∀ c ∈ s.unsatResults, CoreSound spec c
  lists : ∀ c ∈ s.unsatLists, CoreSound spec c
  written : ∀ c ∈ s.written, CoreSound spec c
  blocked : ∀ v, s.blocked = some v → ∃ p, spec.violates v p

variable {spec} {s : Loop Comp}

theorem excluded_violates (h : SoundState spec s) (hw : w ≠ allOld) (he : Excluded s w) :
    ∃ p, spec.violates w p := by
  rcases he with ⟨c, hc, hext⟩ | hb
  · exact h.written c hc w hw hext
  · exact h.blocked w hb

theorem extracted_core_sound (h : SoundState spec s) {core : Core Comp} (hc : core ≠ [])
    (hlegal : Extracts spec s (.check (.sat v core))) : CoreSound spec core := by
  obtain ⟨p, -, hcore⟩ := hlegal.2 v core rfl hc
  intro w hw hext
  by_cases he : Excluded s w
  · exact excluded_violates h hw he
  · rcases spec.reached w p hw with hv | hp
    · exact ⟨p, hv⟩
    · exact absurd hp (hcore w hext he)

theorem start_sound {results lists : List (Core Comp)} (hr : ∀ c ∈ results, CoreSound spec c)
    (hl : ∀ c ∈ lists, CoreSound spec c) : SoundState spec (start results lists) :=
  ⟨hr, hr, hl, fun _ hc => (not_mem_nil hc).elim, fun _ hv => by cases hv⟩

theorem step_preserves_sound (h : SoundState spec s)
    (hstep : Step (Extracts spec) filename s a t) : SoundState spec t := by
  have hlegal := hstep.legal
  cases hstep.effect with
  | stopped a r => exact ⟨h.result, h.results, h.lists, h.written, h.blocked⟩
  | blocked v core n =>
    refine ⟨h.result, h.results, h.lists, h.result, ?_⟩
    intro w hw
    cases hw
    exact hlegal.1.1
  | recorded v core hc =>
    have hcore := extracted_core_sound h hc hlegal
    have hsnoc : ∀ cores : List (Core Comp), (∀ c ∈ cores, CoreSound spec c) →
        ∀ c ∈ cores ++ [core], CoreSound spec c := by
      intro cores hall c hm
      rcases mem_append.mp hm with hm | hm
      · exact hall c hm
      · rw [mem_singleton.mp hm]
        exact hcore
    exact ⟨hsnoc _ h.result, hsnoc _ h.results, hsnoc _ h.lists, hsnoc _ h.result,
      fun w hw => by cases hw⟩

theorem reachable_sound (h : Reachable spec filename s) : SoundState spec s := by
  induction h with
  | fresh => exact start_sound (by simp) (by simp)
  | step _ hstep ih => exact step_preserves_sound ih hstep
  | rerun _ _ ih ih' => exact start_sound ih.results ih'.lists

/-- Every assignment that a recorded core covers violates the specification. -/
theorem recorded_core_violates {s : Loop Comp} (h : Reachable spec filename s)
    {core : Core Comp} (hc : core ∈ s.unsatLists) {w : Assignment Comp} (hw : w ≠ allOld)
    (he : Extends w core) : ∃ p, spec.violates w p :=
  (reachable_sound h).lists core hc w hw he

namespace Example

open Counterexample

inductive Part where
  | acl
  | nat

def assign (acl nat : Bool) : Assignment Part
  | .acl => acl
  | .nat => nat

/-- One of the two packets does not show the violation of both parts together. -/
def anyNew : Specification Part Bool where
  violates v p := (v .acl = true ∨ v .nat = true) ∧ ¬(p = true ∧ v .acl = true ∧ v .nat = true)
  passes v p := p = true ∧ v .acl = true ∧ v .nat = true
  reached v p hv := by
    have hnew : v .acl = true ∨ v .nat = true := by
      by_contra hn
      obtain ⟨hacl, hnat⟩ := not_or.mp hn
      refine hv (funext fun c => ?_)
      cases c with
      | acl => exact Bool.eq_false_of_not_eq_true hacl
      | nat => exact Bool.eq_false_of_not_eq_true hnat
    by_cases hp : p = true ∧ v .acl = true ∧ v .nat = true
    · exact Or.inr hp
    · exact Or.inl ⟨hnew, hp⟩
  old_silent p := ⟨fun h => by simp [allOld] at h, fun h => Bool.noConfusion h.2.1⟩

def aclCore : Core Part := [(.acl, true), (.nat, false)]

def natCore : Core Part := [(.nat, true)]

def afterAcl : Loop Part :=
  iterate formula (start [] []) (.check (.sat (assign true false) aclCore))

/-- The file holds the first core and the clause against both parts. -/
def afterBlock : Loop Part := iterate formula afterAcl (.check (.sat (assign true true) []))

def afterNat : Loop Part := iterate formula afterBlock (.check (.sat (assign false true) natCore))

theorem acl_step : Step (Extracts anyNew) formula (start [] [])
    (.check (.sat (assign true false) aclCore)) afterAcl := by
  refine ⟨rfl, ⟨⟨⟨false, by simp [anyNew, assign]⟩, fresh_not_excluded _, ?_⟩, ?_⟩, rfl⟩
  · simp [Extends, aclCore, assign]
  · rintro v core ⟨⟩ -
    exact ⟨false, by simp [anyNew, assign], fun w _ _ h => Bool.noConfusion h.1⟩

theorem block_step : Step (Extracts anyNew) formula afterAcl
    (.check (.sat (assign true true) [])) afterBlock := by
  refine ⟨rfl, ⟨⟨⟨false, by simp [anyNew, assign]⟩, ?_, by simp [Extends]⟩, ?_⟩, rfl⟩
  · rintro (⟨core, hcore, he⟩ | hb)
    · rw [mem_singleton.mp hcore] at he
      exact Bool.noConfusion (he (.nat, false) (by simp [aclCore]))
    · cases hb
  · rintro v core ⟨⟩ hne
    exact absurd rfl hne

/-- The core covers both parts together only because the clause of the file excludes them. -/
theorem nat_step : Step (Extracts anyNew) formula afterBlock
    (.check (.sat (assign false true) natCore)) afterNat := by
  refine ⟨rfl, ⟨⟨⟨true, by simp [anyNew, assign]⟩, ?_, ?_⟩, ?_⟩, rfl⟩
  · rintro (⟨core, hcore, he⟩ | hb)
    · rw [mem_singleton.mp hcore] at he
      exact Bool.noConfusion (he (.acl, true) (by simp [aclCore]))
    · exact Bool.noConfusion (congrFun (Option.some.inj hb) .acl)
  · simp [Extends, natCore, assign]
  · rintro v core ⟨⟩ -
    refine ⟨true, by simp [anyNew, assign], fun w _ hw h => hw (Or.inr (congrArg some ?_))⟩
    funext c
    cases c with
    | acl => exact h.2.1.symm
    | nat => exact h.2.2.symm

end Example

theorem learned_core_violates :
    Example.afterNat.unsatLists = [Example.aclCore, Example.natCore] ∧
    ∃ p, Example.anyNew.violates (Example.assign true true) p := by
  have hreach : Reachable Example.anyNew Counterexample.formula Example.afterNat :=
    .step (.step (.step .fresh Example.acl_step) Example.block_step) Example.nat_step
  have hcore : Example.natCore ∈ Example.afterNat.unsatLists := by
    exact mem_cons_of_mem Example.aclCore (mem_singleton_self _)
  refine ⟨rfl, recorded_core_violates hreach hcore ?_ ?_⟩
  · exact fun h => Bool.noConfusion (congrFun h .acl)
  · simp [Extends, Example.natCore, Example.assign]

end Soundness

end CoreLearning
