import FlexPlan.SolverOutput
import Mathlib.Data.List.Sort

/-!
# From solver output to the states that need verification

`extract_plan` reads the version bits of a candidate plan out of the solver output, and
`incremental_verify` picks the snapshots in which some component is old and some is new.
-/
namespace PlanExtraction

open PythonText SynthesizerUtils SolverOutput

/-- The current line of an open file; the empty line marks its end. -/
structure Reader where
  line : Str
  rest : List Str
  deriving DecidableEq, Repr

def Reader.ofLines : List Str → Reader
  | [] => ⟨[], []⟩
  | l :: ls => ⟨l, ls⟩

def Reader.next (r : Reader) : Reader := Reader.ofLines r.rest

structure PlanScan where
  result : Str := []
  assignments : Dict Str Str := []
  usages : Dict Str (List (ℤ × Str)) := []
  track : Dict Str (List (ℤ × Str)) := []
  deriving DecidableEq, Repr

/-- A line without a visible character raises, because the start is never set. -/
def findSize (line : Str) : Option Str :=
  (firstNonBlank line).map fun start => slice line start (find ")".toList line)

def findName (line needle : Str) : Str :=
  slice line (find ".".toList line) (find needle line + needle.length)

def labelOf (line : Str) : Option ℤ := do
  let a ← findNth line "_".toList (-5)
  let b ← findNth line "_".toList (-4)
  int? (slice line (a + 1) b)

def PlanScan.verdictLine (s : PlanScan) (line : Str) : PlanScan :=
  if isIn "unsat".toList line then { s with result := s.result ++ "UNSAT\n".toList }
  else if isIn "sat".toList line then { s with result := s.result ++ "SAT\n".toList }
  else s

abbrev Scanner := Reader × PlanScan → Option (Reader × PlanScan)

/-- A declaration line is recognised by a test; its value stands on the next line,
which then is the current one for the tests that follow. -/
def consume (isMatch : Str → Bool) (store : PlanScan → Str → Str → Option PlanScan) : Scanner :=
  fun x =>
    if isMatch x.1.line then
      (store x.2 x.1.line x.1.next.line).map fun s => (x.1.next, s)
    else some x

def versionLine : Scanner :=
  consume (fun line => isIn "PSAImpl_ingress_start".toList line &&
      isIn "version.version".toList line && isIn "___0".toList line)
    fun s line value => do
      let size ← findSize value
      some { s with assignments := s.assignments.set (findName line "___0".toList) size }

/-- Resource counters are keyed by their name and the suffix of the transition state. -/
def usageLine (counter : Str) : Scanner :=
  consume (fun line => isIn ("meta_".toList ++ counter) line && isIn "___0".toList line) fun s
    line value => do
      let name := findName line counter ++
        slice line (find "99000".toList line) (find "___0".toList line)
      let size ← findSize value
      let label ← labelOf line
      some { s with usages := s.usages.push name (label, size) }

def trackLine (ghost : Str) : Scanner :=
  consume (fun line => isIn ("version.".toList ++ ghost) line && isIn "___0".toList line) fun s
    line value => do
      let size ← findSize value
      let label ← labelOf line
      some { s with track := s.track.push (findName line ghost) (label, size) }

def objectiveLine : Scanner :=
  consume (isIn "Objective".toList) fun s _ value => (findSize value).map fun _ => s

def planBody (r : Reader) (s : PlanScan) : Option (Reader × PlanScan) := do
  let x ← versionLine (r, s.verdictLine r.line)
  let x ← usageLine "REAL".toList x
  let x ← usageLine "DIFF".toList x
  let x ← trackLine "VERSION".toList x
  let x ← trackLine "LENGTH".toList x
  let x ← trackLine "sawOld".toList x
  let x ← trackLine "sawNew".toList x
  let x ← objectiveLine x
  some (x.1.next, x.2)

def planLoop : ℕ → Reader → PlanScan → Option PlanScan
  | 0, _, s => some s
  | n + 1, r, s => if r.line = [] then some s else (planBody r s).bind fun x => planLoop n x.1 x.2

/-- The entry that a sort of the recorded pairs would put last. -/
def lastEntry : List (ℤ × Str) → Option (ℤ × Str)
  | [] => none
  | e :: es =>
    match lastEntry es with
    | none => some e
    | some f => if f.1 < e.1 || (f.1 = e.1 && !strLe e.2 f.2) then some e else some f

def PlanScan.plan (s : PlanScan) : Dict Str Str :=
  s.track.foldl (fun acc entry =>
    match lastEntry entry.2 with
    | some (label, size) => acc.set (entry.1 ++ "_".toList ++ ofInt label ++ "___0".toList) size
    | none => acc) s.assignments

/-- The assignments stored in `plan.pickle`, or `none` when the script raises. -/
def extractPlan (outputSyn : Str) : Option (Dict Str Str) :=
  let lines := readLines outputSyn
  (planLoop (lines.length + 1) (Reader.ofLines lines) {}).map PlanScan.plan

/-- Version bits grouped by transition state: the copy and the suffix of the name. -/
def groupStates (assignments : Dict Str Str) : Option (Dict (Str × Str) (List Str)) :=
  assignments.foldlM (fun acc entry =>
    if isIn "version.version".toList entry.1 then do
      let a ← findNth entry.1 "_".toList 1
      let b ← findNth entry.1 "_start".toList 1
      some (acc.push (slice entry.1 a b, sliceFrom entry.1 (find "99000".toList entry.1)) entry.2)
    else some acc) []

/-- A snapshot in which some components are new and some are old. -/
def isTransition (bits : List Str) : Bool :=
  let count1 := bits.count "#b1".toList
  bits.length ≠ count1 && count1 ≠ 0

/-- The snapshots for which `incremental_verify` writes formulas, in file order. -/
def transitionStates (assignments : Dict Str Str) : Option (List (Str × Str)) :=
  (groupStates assignments).map fun groups =>
    ((groups.filter fun g => isTransition g.2).map Prod.fst).insertionSort
      fun x y => (x.1 ≠ y.1 && strLe x.1 y.1) || (x.1 = y.1 && strLe x.2 y.2)

end PlanExtraction
