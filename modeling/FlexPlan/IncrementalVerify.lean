import FlexPlan.PlanExtraction

/-!
# Formulas for the states of a candidate plan

`incremental_verify` writes three formulas for every mixed state of a plan: the base formula pinned
to the state, and two more with the violation of one define each. The extra constraints are
collected in one pass over the plan, in the order in which the solver printed it.
-/
namespace IncrementalVerify

open PythonText PlanExtraction List

def isVersionDeclaration (line : Str) : Bool :=
  isIn ".hdrs_0_PSAImpl_ingress_start".toList line && isIn "declare-fun".toList line &&
    (isIn "version.version".toList line || isIn "version.VERSION".toList line)

def readVersionNum (versionNum : Str) (lines : List Str) : Str :=
  lines.foldl (fun v line => if isVersionDeclaration line
    then slice line (find ".".toList line) (find ".version.".toList line) else v) versionNum

def fieldName (versionNum key : Str) : Str :=
  versionNum ++ slice key (find ".version".toList key) (find "___0".toList key)

def assertEqual (name value : Str) : Str :=
  "(assert (= ".toList ++ (name ++ " ".toList ++ value ++ "))\n".toList)

def assertDifferent (name value : Str) : Str :=
  "(assert (not (= ".toList ++ (name ++ " ".toList ++ value ++ ")))\n".toList)

/-- The local variables of the pass over the plan. -/
structure Pass where
  result : Str
  length : Str := []
  version : Str := []
  resultOld : Str := []
  resultNew : Str := []
  deriving DecidableEq

section Steps

variable (versionNum ele : Str) (entry : Str × Str)

def isPin : Bool :=
  isIn ele entry.1 && !isIn "VERSION".toList entry.1 && !isIn "LENGTH".toList entry.1 &&
    isIn "version.version".toList entry.1

def isVersion : Bool := isIn ele entry.1 && isIn "VERSION".toList entry.1

def isLength : Bool := isIn ele entry.1 && isIn "LENGTH".toList entry.1

def isSaw : Bool :=
  isIn ele entry.1 && (isIn "sawOld".toList entry.1 || isIn "sawNew".toList entry.1)

def pinStep (p : Pass) : Pass :=
  if isPin ele entry then
    { p with result := p.result ++ assertEqual (fieldName versionNum entry.1) entry.2 }
  else p

def versionStep (p : Pass) : Pass :=
  if isVersion ele entry then
    { p with
      resultOld := assertDifferent (fieldName versionNum entry.1) "#x00".toList
      resultNew := if p.length ≠ [] then assertDifferent (fieldName versionNum entry.1) p.length
        else p.resultNew
      version := fieldName versionNum entry.1 }
  else p

def lengthStep (p : Pass) : Pass :=
  if isLength ele entry then
    { p with
      resultNew := if p.version ≠ [] then assertDifferent (fieldName versionNum entry.1) p.version
        else p.resultNew
      length := fieldName versionNum entry.1 }
  else p

-- Both ghost fields go to the same variable.
def sawStep (p : Pass) : Pass :=
  if isSaw ele entry then
    { p with resultOld := assertEqual (fieldName versionNum entry.1) "#b1".toList }
  else p

end Steps

def passStep (versionNum ele : Str) (p : Pass) (entry : Str × Str) : Pass :=
  sawStep versionNum ele entry (lengthStep versionNum ele entry
    (versionStep versionNum ele entry (pinStep versionNum ele entry p)))

def ending : Str := "(check-sat)\n(get-model)\n".toList

structure Files where
  simple : Str
  old : Str
  new : Str
  deriving DecidableEq

def writeFiles (p : Pass) : Files where
  simple := p.result ++ ending
  old := p.result ++ p.resultOld ++ ending
  new := p.result ++ p.resultNew ++ ending

/-- The base formula is read again for every state, and its prefix survives. -/
def writeStates (src : Str) (assignments : Dict Str Str) : Str → List (Str × Str) → List Files
  | _, [] => []
  | versionNum, key :: keys =>
    let versionNum := readVersionNum versionNum (readLines src)
    writeFiles (assignments.foldl (passStep versionNum key.1) { result := src }) ::
      writeStates src assignments versionNum keys

/-- The files `verify-simple`, `verify-old` and `verify-new`, in the order of their index. -/
def incrementalVerify (src : Str) (assignments : Dict Str Str) : Option (List Files) :=
  (transitionStates assignments).map (writeStates src assignments [])

section Specification

variable (src : Str) (assignments : Dict Str Str)

def prefixOf : Str := readVersionNum [] (readLines src)

def pinned (ele : Str) : Str :=
  src ++ (assignments.filter (isPin ele)).flatMap fun e =>
    assertEqual (fieldName (prefixOf src) e.1) e.2

/-- The formula that a state violates the define that forbids a ghost field. -/
def violation (ele : Str) (entry : Str × Str) : Str :=
  pinned src assignments ele ++ assertEqual
    (fieldName (prefixOf src) entry.1) "#b1".toList ++ ending

def ghosts (field ele : Str) : Dict Str Str :=
  assignments.filter fun e => isIn ele e.1 && isIn field e.1

/-- What the loop calls verified: one of the two formulas has no model. -/
def Verified (satisfiable : Str → Prop) (f : Files) : Prop :=
  ¬satisfiable f.old ∨ ¬satisfiable f.new

/-- The first define forbids `sawNew`, the second one `sawOld`. -/
structure AsSpecified (ele : Str) (f : Files) : Prop where
  old : ∀ e ∈ ghosts assignments "sawNew".toList ele, f.old = violation src assignments ele e
  new : ∀ e ∈ ghosts assignments "sawOld".toList ele, f.new = violation src assignments ele e
  verified : ∀ satisfiable : Str → Prop, Verified satisfiable f →
    (∀ e ∈ ghosts assignments "sawNew".toList ele, ¬satisfiable (violation src assignments ele e)) ∨
    ∀ e ∈ ghosts assignments "sawOld".toList ele, ¬satisfiable (violation src assignments ele e)

end Specification

variable {src versionNum ele : Str} {assignments : Dict Str Str} {entry : Str × Str} {p : Pass}

theorem readVersionNum_again (versionNum : Str) (lines : List Str) :
    readVersionNum (readVersionNum versionNum lines) lines = readVersionNum versionNum lines := by
  -- the last declaration decides, whatever the prefix was before
  simp only [readVersionNum, foldl_last]
  cases lines.reverse.find? isVersionDeclaration <;> rfl

theorem writeStates_eq (keys : List (Str × Str))
    (h : readVersionNum versionNum (readLines src) = prefixOf src) :
    writeStates src assignments versionNum keys = keys.map fun key =>
      writeFiles (assignments.foldl (passStep (prefixOf src) key.1) { result := src }) := by
  induction keys generalizing versionNum with
  | nil => rfl
  | cons key keys ih =>
    have hagain : readVersionNum (prefixOf src) (readLines src) = prefixOf src :=
      readVersionNum_again [] (readLines src)
    rw [map_cons, writeStates, h, ih hagain]

theorem passStep_result : (passStep versionNum ele p entry).result =
    p.result ++ if isPin ele entry then assertEqual
      (fieldName versionNum entry.1) entry.2 else [] := by
  unfold passStep sawStep lengthStep versionStep pinStep
  split_ifs <;> simp

theorem foldl_result : (assignments.foldl (passStep versionNum ele) p).result =
    p.result ++ (assignments.filter (isPin ele)).flatMap fun e =>
      assertEqual (fieldName versionNum e.1) e.2 := by
  induction assignments generalizing p with
  | nil => simp
  | cons e es ih =>
    rw [foldl_cons, ih, passStep_result, append_assoc]
    by_cases hpin : isPin ele e = true
    · rw [if_pos hpin, filter_cons_of_pos hpin, flatMap_cons]
    · rw [if_neg hpin, filter_cons_of_neg hpin, nil_append]

/-- The constraint of `verify-new` is missing or a difference of two fields. -/
def Differs (s : Str) : Prop := s = [] ∨ ∃ name value, s = assertDifferent name value

theorem versionStep_differs (h : Differs p.resultNew) :
    Differs (versionStep versionNum ele entry p).resultNew := by
  unfold versionStep
  by_cases hversion : isVersion ele entry = true
  · rw [if_pos hversion]
    dsimp only
    split_ifs
    · exact Or.inr ⟨_, _, rfl⟩
    · exact h
  · rwa [if_neg hversion]

theorem lengthStep_differs (h : Differs p.resultNew) :
    Differs (lengthStep versionNum ele entry p).resultNew := by
  unfold lengthStep
  by_cases hlength : isLength ele entry = true
  · rw [if_pos hlength]
    dsimp only
    split_ifs
    · exact Or.inr ⟨_, _, rfl⟩
    · exact h
  · rwa [if_neg hlength]

theorem pinStep_new : (pinStep versionNum ele entry p).resultNew = p.resultNew := by
  unfold pinStep
  split_ifs <;> rfl

theorem sawStep_new : (sawStep versionNum ele entry p).resultNew = p.resultNew := by
  unfold sawStep
  split_ifs <;> rfl

theorem passStep_differs (h : Differs p.resultNew) :
    Differs (passStep versionNum ele p entry).resultNew := by
  unfold passStep
  rw [sawStep_new]
  apply lengthStep_differs
  apply versionStep_differs
  rwa [pinStep_new]

theorem foldl_differs (h : Differs p.resultNew) :
    Differs (assignments.foldl (passStep versionNum ele) p).resultNew := by
  induction assignments generalizing p with
  | nil => exact h
  | cons e es ih => exact ih (passStep_differs h)

theorem assertEqual_ne_nil (name value : Str) : assertEqual name value ≠ [] := cons_ne_nil _ _

theorem assertDifferent_ne (name value name' value' s t : Str) :
    assertDifferent name value ++ s ≠ assertEqual name' value' ++ t := by
  intro h
  have hletter := congrArg (fun u => (u.drop 9).head?) h
  exact absurd hletter (by
    change ¬some 'n' = some '='
    decide)

theorem pinned_eq : (assignments.foldl (passStep (prefixOf src) ele) { result := src }).result =
    pinned src assignments ele := foldl_result

theorem new_ne_violation (e : Str × Str) :
    (writeFiles (assignments.foldl (passStep (prefixOf src) ele) { result := src })).new ≠
      violation src assignments ele e := by
  have hdiffers : Differs
      (assignments.foldl (passStep (prefixOf src) ele) { result := src }).resultNew :=
    foldl_differs (Or.inl rfl)
  unfold writeFiles violation
  generalize ending = rest
  dsimp only
  rw [pinned_eq, append_assoc, append_assoc]
  intro h
  have h := append_cancel_left h
  rcases hdiffers with hnone | ⟨name, value, heq⟩
  · rw [hnone, nil_append, self_eq_append_left] at h
    exact assertEqual_ne_nil _ _ h
  · rw [heq] at h
    exact assertDifferent_ne _ _ _ _ _ _ h

/-! ## A plan with one mixed state -/
namespace MixedPlan

def base : Str :=
  "(declare-fun .hdrs_0_PSAImpl_ingress_start.version.version_a () (_ BitVec 1))\n".toList

def key (field : Str) : Str :=
  ".hdrs_1_PSAImpl_ingress_start.version.".toList ++ field ++ "___0".toList

/-- The first component is new at the only state; the bit of the second one is a parameter. -/
def plan (second : Str) : Dict Str Str :=
  [(key "version_a".toList, "#b1".toList), (key "version_b".toList, second),
    (key "sawOld_7".toList, "#b0".toList), (key "sawNew_8".toList, "#b0".toList),
    (key "VERSION_9".toList, "#x01".toList)]

def files : Files :=
  writeFiles ((plan "#b0".toList).foldl (passStep (prefixOf base) "_1_PSAImpl_ingress".toList)
    { result := base })

def satisfiable (text : Str) : Prop := isIn "(not (= ".toList text = false

end MixedPlan

end IncrementalVerify
