import FlexPlan.SynthesizerUtils

/-!
# Reading solver output files

The scripts never parse the output: each of them searches its lines for short words, and each does
so in its own way.
-/
namespace SolverOutput

open PythonText SynthesizerUtils

inductive Verdict where
  | sat
  | unsat
  | unknown
  | timeout
  | error
  deriving DecidableEq, Repr

def Verdict.opening : Verdict → Str
  | .sat => "sat\n".toList
  | .unsat => "unsat\n".toList
  | .unknown => "unknown\n".toList
  | .timeout => "timeout\n".toList
  | .error => "(error ".toList

/-- One solver answer: the verdict and whatever the solver prints behind it. -/
structure Answer where
  verdict : Verdict
  body : Str
  deriving DecidableEq, Repr

def Answer.text (a : Answer) : Str := a.verdict.opening ++ a.body

/-- The loop's `find_in_file`: some line contains the needle. -/
def findInFile (file needle : Str) : Bool := (readLines file).any (isIn needle)

theorem findInFile_of_infix {file a b : Str} (hab : a <:+: b) (h : findInFile file b = true) :
    findInFile file a = true := by
  obtain ⟨line, hl, hb⟩ := List.any_eq_true.mp h
  exact List.any_eq_true.mpr ⟨line, hl, isIn_iff.mpr (hab.trans (isIn_iff.mp hb))⟩

theorem sat_of_unsat {file : Str} (h : findInFile file "unsat".toList = true) :
    findInFile file "sat".toList = true :=
  findInFile_of_infix ⟨['u', 'n'], [], by decide⟩ h

/-- Messages a solver process puts on the queue of the parallel runner. -/
inductive Message where
  | sat
  | unsat
  | error
  deriving DecidableEq, Repr

-- The first line with a verdict word decides, whatever that line is.
def checkCallLines : List Str → Message
  | [] => .error
  | line :: rest =>
    if isIn "sat".toList line && !isIn "unsat".toList line then .sat
    else if isIn "unsat".toList line then .unsat
    else checkCallLines rest

def checkCall (log : Str) : Message := checkCallLines (readLines log)

-- The verdict `unsat` stops the scan, the verdict `sat` does not.
def solveFlagLines : ℕ → List Str → ℕ
  | flag, [] => flag
  | flag, line :: rest =>
    if isIn "unsat".toList line then 1
    else if isIn "sat".toList line then solveFlagLines 0 rest
    else solveFlagLines flag rest

/-- The flag `find_unsat_cores` reads from `output-solve`: one without a further
counterexample, zero with one, two without an answer. -/
def solveFlag (log : Str) : ℕ := solveFlagLines 2 (readLines log)

/-- State of the scan in `extract_simple`. The start of the last value read survives
from one variable to the next, as the local variable of the code does. -/
structure Scan where
  result : Str := []
  sizeStart : Option ℕ := none
  rawassigns : Dict Str Str := []
  vardict : Dict Str (List ℤ) := []
  deriving DecidableEq, Repr

def Scan.verdictLine (s : Scan) (line : Str) : Scan :=
  if isIn "unsat".toList line then { s with result := s.result ++ "UNSAT".toList }
  else if isIn "sat".toList line then { s with result := s.result ++ "SAT".toList }
  else s

def isPacketLine (line : Str) : Bool :=
  (isIn ".hdr_ParserImpl_".toList line || isIn "metas__parse_and_run".toList line) &&
    !isIn "version.version".toList line

def firstNonBlank (line : Str) : Option ℕ := line.findIdx? (· ≠ ' ')

def Scan.variableLine (s : Scan) (line value : Str) : Option Scan := do
  let nameEnd ← if isIn "elements".toList line then findNth line "|".toList (-1)
    else some (find " ()".toList line)
  let name := slice line (find ".".toList line) nameEnd
  let sizeStart ← (firstNonBlank value).or s.sizeStart
  let size := slice value sizeStart (find ")".toList value)
  let cut ← findNth name "_".toList (-1)
  let label ← int? (sliceFrom name (cut + 1))
  some { s with
    sizeStart := some sizeStart
    rawassigns := s.rawassigns.set name size
    vardict := s.vardict.push (slice name 0 cut) label }

def scanLines : List Str → Scan → Option Scan
  | [], s => some s
  | [line], s =>
    -- a variable on the last line is followed by the empty read at the end of the file
    if isPacketLine line then (s.verdictLine line).variableLine line [] else some
      (s.verdictLine line)
  | line :: value :: rest, s =>
    if isPacketLine line then
      ((s.verdictLine line).variableLine line value).bind (scanLines rest)
    else scanLines (value :: rest) (s.verdictLine line)

def lastLabel (labels : List ℤ) : ℤ := labels.foldl max (labels.headD 0)

def Scan.assignments (s : Scan) (mapping : Dict Str Str) : Dict Str Str :=
  s.vardict.foldl (fun acc entry =>
    let realkey := entry.1 ++ "_".toList ++ ofInt (lastLabel entry.2)
    match mapping.get? realkey, s.rawassigns.get? realkey with
    | some target, some value => acc.set target value
    | _, _ => acc) []

/-- The verdict string and the counterexample read from one output file. -/
def processOutput (mapping : Dict Str Str) (file : Str) : Option (Str × Dict Str Str) :=
  (scanLines (readLines file) {}).map fun s => (s.result, s.assignments mapping)

inductive ExtractType where
  | normal
  | programConsistency
  | correct
  deriving DecidableEq, Repr

/-- What `extract_simple` leaves in the file `result`; `none` when it raises. -/
def extractSimple (type : ExtractType) (mapping : Dict Str Str) (output1 output2 : Str) :
    Option Str :=
  match type with
  | .normal => (processOutput mapping output1).map fun r =>
      if r.1 = "UNSAT".toList then "UNSAT\n".toList
      else if r.1 = "SAT".toList then "SAT\n".toList else []
  | .programConsistency => do
      let r₁ ← processOutput mapping output1
      let r₂ ← processOutput mapping output2
      some (if r₁.1 = "UNSAT".toList ∨ r₂.1 = "UNSAT".toList then "UNSAT\n".toList
        else if r₁.1 = "SAT".toList ∧ r₂.1 = "SAT".toList then "SAT\n".toList else [])
  | .correct => some "UNSAT\n".toList

example : extractSimple .normal [] "sat\n".toList [] = some "SAT\n".toList := by decide

end SolverOutput
