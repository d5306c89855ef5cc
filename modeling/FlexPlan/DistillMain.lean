import FlexPlan.CoreLearning
import FlexPlan.SolverOutput

/-!
# The flag of two learning loops

`distill_uc.main` runs the learning loop once for every formula in the directory. All loops write
the same `output-fin`, and nothing ever clears it.
-/
namespace DistillMain

open PythonText SolverOutput CoreLearning Function

variable {Comp : Type}

inductive Define where
  | old
  | new
  | single
  deriving DecidableEq, Repr

def define (filename : Str) : Define :=
  if isIn "old".toList filename then .old
  else if isIn "new".toList filename then .new
  else .single

/-- The files `main` shares with later runs and with the rounds. -/
structure Dir (Comp : Type) where
  lists : Define → Option (List (Core Comp))
  results : Define → Option (List (Core Comp))
  outputFin : Str

structure Vars (Comp : Type) where
  dir : Dir Comp
  unsatLists : List (Core Comp)
  unsatResults : Option (List (Core Comp))
  collected : Define → List (Core Comp)

/-- A directory entry with the answers its learning loop receives. -/
abbrev Entry (Comp : Type) := Str × List (Answer Comp)

def selected (id : Str) (e : Entry Comp) : Bool :=
  isIn id e.1 && isIn "-dis-".toList e.1 && isIn ".smt".toList e.1

/-- The learning loop of an entry. Whatever the definition, the clauses are loaded from
`unsat_results.pickle`. -/
def learned (dir : Dir Comp) (e : Entry Comp) : Loop Comp :=
  findUnsatCores ("./".toList ++ e.1) e.2 ((dir.results .single).getD [])
    ((dir.lists (define e.1)).getD [])

def analyse (v : Vars Comp) (e : Entry Comp) : Vars Comp :=
  let t := learned v.dir e
  { dir := { v.dir with
      lists :=
        if t.unsatLists.length = ((v.dir.lists (define e.1)).getD []).length then v.dir.lists
        else update v.dir.lists (define e.1) (some t.unsatLists)
      outputFin := if t.stop = some .exhausted then "FIN".toList else v.dir.outputFin }
    unsatLists := t.unsatLists
    unsatResults := some t.unsatResults
    collected := update v.collected (define e.1) (v.collected (define e.1) ++ t.unsatLists) }

def visit (id : Str) (v : Vars Comp) (e : Entry Comp) : Vars Comp :=
  if selected id e then analyse v e else v

def dump (v : Vars Comp) (k : Define) (tested : List (Core Comp)) (dir : Dir Comp) : Dir Comp :=
  if tested.isEmpty then dir
  else { dir with
    lists := update dir.lists k (some (v.collected k))
    results := update dir.results k v.unsatResults }

def finish (v : Vars Comp) : Dir Comp :=
  dump v .new (v.collected .new) <| dump v .old (v.collected .old) <|
    dump v .single v.unsatLists v.dir

def main (id : Str) (dir : Dir Comp) (listing : List (Entry Comp)) : Dir Comp :=
  finish (listing.foldl (visit id) ⟨dir, [], none, fun _ => []⟩)

variable (v : Vars Comp)

theorem finish_outputFin : (finish v).outputFin = v.dir.outputFin := by
  have hdump : ∀ k tested (dir : Dir Comp), (dump v k tested dir).outputFin = dir.outputFin := by
    intro k tested dir
    unfold dump
    split_ifs <;> rfl
  rw [finish, hdump, hdump, hdump]

theorem visit_selected (id : Str) (v : Vars Comp) (listing : List (Entry Comp)) :
    listing.foldl (visit id) v = (listing.filter (selected id)).foldl analyse v :=
  List.foldl_filter.symm

theorem learned_analyse (h : define e'.1 ≠ define e.1) :
    learned (analyse v e).dir e' = learned v.dir e' := by
  have hlists : (analyse v e).dir.lists (define e'.1) = v.dir.lists (define e'.1) := by
    simp only [analyse]
    split_ifs
    · rfl
    · exact update_of_ne h _ _
  unfold learned
  rw [hlists]
  rfl

theorem analyse_fin (e : Entry Comp) :
    findInFile (analyse v e).dir.outputFin "FIN".toList = true ↔
      (learned v.dir e).stop = some .exhausted ∨
      findInFile v.dir.outputFin "FIN".toList = true := by
  by_cases h : (learned v.dir e).stop = some .exhausted
  · have hfin : (analyse v e).dir.outputFin = "FIN".toList := if_pos h
    rw [hfin]
    exact iff_of_true (by decide) (Or.inl h)
  · have hfin : (analyse v e).dir.outputFin = v.dir.outputFin := if_neg h
    rw [hfin]
    exact (or_iff_right h).symm

theorem main_fin_iff (id : Str) (dir : Dir Comp) (listing : List (Entry Comp))
    (hsel : listing.filter (selected id) = [e, e'])
    (hne : define e'.1 ≠ define e.1) :
    findInFile (main id dir listing).outputFin "FIN".toList = true ↔
      (learned dir e').stop = some .exhausted ∨ (learned dir e).stop = some .exhausted ∨
      findInFile dir.outputFin "FIN".toList = true := by
  rw [main, finish_outputFin, visit_selected, hsel, List.foldl_cons, List.foldl_cons,
    List.foldl_nil, analyse_fin, analyse_fin, learned_analyse _ hne]

/-- When can `FIN` be trusted to speak for both definitions? If both loops were exhausted,
or neither was and the flag was not set before. -/
theorem fin_means_both_iff (id : Str) (dir : Dir Comp) (listing : List (Entry Comp))
    {e e' : Entry Comp} (hsel : listing.filter (selected id) = [e, e'])
    (hkinds : (define e.1 = .old ∧ define e'.1 = .new) ∨ (define e.1 = .new ∧ define e'.1 = .old))
    {r r' : Stop} (hr : (learned dir e).stop = some r) (hr' : (learned dir e').stop = some r') :
    (findInFile (main id dir listing).outputFin "FIN".toList = true →
      r = .exhausted ∧ r' = .exhausted) ↔
    (r = .exhausted ∧ r' = .exhausted) ∨
      (r ≠ .exhausted ∧ r' ≠ .exhausted ∧ findInFile dir.outputFin "FIN".toList = false) := by
  have hne : define e'.1 ≠ define e.1 := by
    rcases hkinds with ⟨h, h'⟩ | ⟨h, h'⟩ <;> rw [h, h'] <;> decide
  rw [main_fin_iff id dir listing hsel hne, hr, hr', Option.some.injEq, Option.some.injEq]
  generalize findInFile dir.outputFin "FIN".toList = before
  by_cases h : r = .exhausted <;> by_cases h' : r' = .exhausted <;> simp [h, h']

namespace Counterexample

def empty : Dir Unit := ⟨fun _ => none, fun _ => none, []⟩

def oldEntry (answers : List (Answer Unit)) : Entry Unit :=
  ("direct-l2l3-dis-old-merge.smt".toList, answers)

def newEntry (answers : List (Answer Unit)) : Entry Unit :=
  ("direct-l2l3-dis-new-merge.smt".toList, answers)

/-- The old definition is exhausted, the solver gives up on the new one. -/
def listing : List (Entry Unit) :=
  [oldEntry [.check .unsat], ("result".toList, []), newEntry [.check .unknown]]

end Counterexample

theorem one_loop_writes_fin :
    (learned Counterexample.empty (Counterexample.oldEntry [.check .unsat])).stop =
      some .exhausted ∧
    (learned Counterexample.empty (Counterexample.newEntry [.check .unknown])).stop =
      some .timeout ∧
    findInFile (main "l2l3".toList Counterexample.empty Counterexample.listing).outputFin
      "FIN".toList = true := by
  decide

/-- Both loops give up: no flag. -/
theorem two_timeouts_leave_no_fin :
    findInFile (main "l2l3".toList Counterexample.empty
        [Counterexample.newEntry [.check .unknown], Counterexample.oldEntry [.late]]).outputFin
      "FIN".toList = false := by
  have h := (fin_means_both_iff "l2l3".toList Counterexample.empty
    [Counterexample.newEntry [.check .unknown], Counterexample.oldEntry [.late]]
    rfl (Or.inr ⟨by decide, by decide⟩) (show _ = some Stop.timeout from rfl)
    (show _ = some Stop.period from rfl)).mpr (Or.inr ⟨by decide, by decide, by decide⟩)
  refine Bool.eq_false_iff.mpr fun hfin => ?_
  exact absurd (h hfin).1 (by decide)

end DistillMain
