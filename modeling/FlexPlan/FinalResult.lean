import FlexPlan.SnapshotVerify
import FlexPlan.StableSort
import Mathlib.Data.List.Dedup

/-!
# The final report of an update plan

`interpret` prints the version bits of the intermediate states, and `final_result` reads them back
and tells which components change in which transition. The report pairs states and components by
their position.
-/
namespace FinalResult

open PythonText SynthesizerUtils VersionNames SnapshotVerify StableSort List

/-- One element of the list that is sorted: the copy, the name and the value. -/
abbrev Row := ℤ × Str × Str

def interpretEntry (entry : Str × Str) : Option Row := do
  let stop ← findNth entry.1 "_".toList 2
  let value ← int? (slice entry.1 (find "_".toList entry.1 + 1) stop)
  some (value, entry.1, entry.2)

def rowLe (a b : Row) : Bool :=
  a.1 < b.1 || (a.1 = b.1 &&
    ((a.2.1 ≠ b.2.1 && strLe a.2.1 b.2.1) || (a.2.1 = b.2.1 && strLe a.2.2 b.2.2)))

def suffixOf (key : Str) : Str := sliceFrom key (find mark key)

def suffixLe (a b : Row) : Bool := strLe (suffixOf a.2.1) (suffixOf b.2.1)

def printRow (row : Row) : Str := row.2.1 ++ "  ".toList ++ row.2.2 ++ "\n".toList

/-- The text of `output-plan`. The two copies with the largest numbers are left out. -/
def interpret (assignments : Dict Str Str) : Option Str := do
  let tempList ← (assignments.filter fun e => isIn "version.version".toList e.1).mapM interpretEntry
  let values := ((tempList.map Prod.fst).dedup).insertionSort (· ≤ ·)
  let valueList := values.take (values.length - 2)
  let tempList := (tempList.insertionSort fun a b => rowLe a b).insertionSort fun a b =>
    suffixLe a b
  some ((tempList.filter fun row => row.1 ∈ valueList).flatMap printRow)

def readLine (line : Str) : Option (ℤ × Str × ℤ) := do
  let indexStart ← findNth line ".hdrs_".toList 1
  let indexEnd ← findNth line "_".toList 2
  let index ← int? (slice line (indexStart + ".hdrs_".toList.length) indexEnd)
  let nameStart ← findNth line ".version__".toList 1
  let nameEnd ← findNth line "_299000".toList 1
  let valueStart ← findNth line "#b".toList 1
  let valueEnd ← findNth line "\n".toList 1
  let value ← int? (slice line (valueStart + "#b".toList.length) valueEnd)
  some (index, slice line (nameStart + ".version__".toList.length) nameEnd, value)

abbrev States := Dict ℤ (List (Str × ℤ))

def readStates (outputPlan : Str) : Option States :=
  (readLines outputPlan).foldlM
    (fun states line => (readLine line).map fun e => states.push e.1 e.2) []

def States.at (states : States) (index : ℤ) : List (Str × ℤ) := (states.get? index).getD []

/-- What is 1 in a state and 0 at the same position of the state before. -/
def newlySet : List (Str × ℤ) → List (Str × ℤ) → Option (List Str)
  | [], _ => some []
  | x :: xs, [] => if x.2 = 1 then none else newlySet xs []
  | x :: xs, y :: ys =>
    (newlySet xs ys).map fun names => if x.2 = 1 ∧ y.2 = 0 then x.1 :: names else names

def betweenStates (states : States) : ℕ → List ℤ → Option (List (ℕ × List Str))
  | number, a :: b :: ids => do
    let names ← newlySet (states.at b) (states.at a)
    let rest ← betweenStates states (number + 1) (b :: ids)
    some ((number, names) :: rest)
  | _, _ => some []

def stillOld : ℕ → List (Str × ℤ) → Option (List Str)
  | 0, _ => some []
  | _ + 1, [] => none
  | n + 1, x :: xs => (stillOld n xs).map fun names => if x.2 = 0 then x.1 :: names else names

-- The last loop runs over the state whose number is the last position.
def transitions (states : States) : Option (List (ℕ × List Str)) := do
  let tempList := (states.map Prod.fst).insertionSort (· ≤ ·)
  let first ← tempList.head?
  let last ← tempList.getLast?
  let middle ← betweenStates states 2 tempList
  let rest ← stillOld (states.at (tempList.length - 1)).length (states.at last)
  some ((1, ((states.at first).filter fun x => x.2 = 1).map Prod.fst) :: middle ++
    [(tempList.length + 1, rest)])

/-- What is printed for one transition: the components with their old and new usage. -/
structure Section where
  number : ℕ
  items : List (Str × Str × Str)
  deriving DecidableEq

def describe (resources : Dict Str (List Str)) (item : Str) : Option (Str × Str × Str) := do
  let usage ← resources.get? ("version__".toList ++ item)
  let old ← usage[0]?
  let new ← usage[1]?
  some (item, old, new)

def section? (resources : Dict Str (List Str)) (t : ℕ × List Str) : Option Section :=
  (t.2.mapM (describe resources)).map fun items => ⟨t.1, items⟩

/-- The printed report; `none` when the script raises. -/
def finalResult (resources : Dict Str (List Str)) (outputPlan : Str) : Option (List Section) := do
  let states ← readStates outputPlan
  let listed ← transitions states
  (listed.filter fun t => t.2 ≠ []).mapM (section? resources)

section Specification

variable (p : Plan)

/-- The intermediate states in the order of the numbers of their copies. -/
def steps : List Copy :=
  (p.copies.insertionSort fun i j => i.id ≤ j.id).take (p.copies.length - 2)

/-- The first state in which a component is new; one more than there are states if there is
none. -/
def transitionOf (c : Str) : ℕ := (steps p).findIdx (fun i => p.bit i c) + 1

def due (number : ℕ) : List Str := p.components.filter fun c => transitionOf p c = number

/-- A plan that never takes a component back. -/
structure Progressing : Prop where
  number : p.tail.number = 2
  components : p.components ≠ []
  named : ∀ c ∈ p.components, c ≠ []
  enough : 3 ≤ p.copies.length
  monotone : (steps p).Pairwise fun i j => ∀ c ∈ p.components, p.bit i c = true → p.bit j c = true

/-- Every transition with something to do is reported, with its components. -/
def Reports (resources : Dict Str (List Str)) : Prop :=
  ∃ sections, (interpret p.assignments).bind (finalResult resources) = some sections ∧
    sections.map Section.number = (List.range' 1 ((steps p).length + 1)).filter
      (fun k => due p k ≠ []) ∧
    ∀ s ∈ sections, (s.items.map Prod.fst).Perm (due p s.number)

/-- The components in the order in which a copy prints them. -/
def ranked (i : Copy) : List Str :=
  p.components.insertionSort (Then (fun c d => strLe (p.suffix i c) (p.suffix i d) = true)
    fun c d => strLe (planKey p.tail i c) (planKey p.tail i d) = true)

/-- When the report is right. -/
structure Legible : Prop where
  components : ∀ c ∈ p.components, isIn "_299000".toList ('_' :: c) = false
  copies : ∀ k i, (steps p)[k]? = some i → due p (k + 1) ≠ [] →
    isIn "_299000".toList i.front = false
  final : due p ((steps p).length + 1) ≠ [] →
    ∀ i ∈ (steps p).getLast?, isIn "_299000".toList i.front = false
  aligned : ∀ x ∈ (steps p).zip (steps p).tail, ∀ y ∈ (ranked p x.2).zip (ranked p x.1),
    p.bit x.2 y.1 = true → p.bit x.1 y.2 = p.bit x.1 y.1
  numbered : due p ((steps p).length + 1) ≠ [] → ∃ i ∈ steps p, i.id + 1 = (steps p).length

end Specification

section Names

variable {t : Tail} (ht : t.number = 2) (i : Copy) (c r : Str)

include ht in
theorem tail_text : t.text = "_299000".toList ++ ofNat t.transition := by
  rw [Tail.text, ht]
  rfl

theorem versionName_eq : versionName t i c ++ r =
    (i.front ++ ".version.version_".toList) ++ '_' :: (c ++ (t.text ++ r)) := by
  have hword : ".version.version__".toList = ".version.version_".toList ++ ['_'] := by decide
  have hfield : field t c = (".version.version_".toList ++ ['_']) ++ (c ++ t.text) :=
    congrArg (· ++ (c ++ t.text)) hword
  rw [versionName, hfield]
  simp only [append_assoc, cons_append, nil_append]

theorem find_name : find ".version__".toList (versionName t i c ++ r) =
    (i.front.length + 8 : ℕ) := by
  have hneedle : ".version__".toList = '.' :: 'v' :: "ersion__".toList := by decide
  have hword : "version__".toList = 'v' :: "ersion__".toList := by decide
  have hindex := index?_front i (a := []) (w := "ersion__".toList) not_mem_nil
    ("version".toList ++ '.' :: ("version__".toList ++ (c ++ t.text)) ++ r)
  have hprefix : ¬('v' :: "ersion__".toList).isPrefixOf
      ("version".toList ++ '.' :: ("version__".toList ++ (c ++ t.text)) ++ r) = true := by
    have hlong : 'v' :: "ersion__".toList = "version".toList ++ '_' :: ['_'] := by decide
    rw [hlong, List.isPrefixOf_iff_prefix, append_assoc, prefix_append_right_inj, cons_append,
      cons_prefix_cons]
    rintro ⟨h, -⟩
    exact absurd h (by decide)
  have hrest := index?_append (c := '.') (t := 'v' :: "ersion__".toList)
    (show '.' ∉ "version".toList by decide) (c ++ t.text ++ r)
  rw [if_neg hprefix, nil_append] at hindex
  have htext : "version".toList ++ '.' :: ("version__".toList ++ (c ++ t.text)) ++ r =
      "version".toList ++ '.' :: 'v' :: "ersion__".toList ++ (c ++ t.text ++ r) := by
    rw [hword]
    simp only [append_assoc, cons_append]
  rw [htext, hrest] at hindex
  have hlength : "version".toList.length = 7 := by decide
  have hkey : versionName t i c ++ r =
      i.front ++ '.' :: ("version".toList ++ '.' :: 'v' :: "ersion__".toList ++
        (c ++ t.text ++ r)) := by
    rw [← htext, versionName, field_eq, append_assoc, cons_append]
  rw [hkey, hneedle, find_of_index? hindex, hlength]
  beta_reduce
  omega

def readName (line : Str) : Str :=
  slice line (find ".version__".toList line + ".version__".toList.length)
    (find "_299000".toList line)

include ht in
theorem readName_of_not_isIn (h : isIn "_299000".toList i.front = false) :
    ∃ m, index? "_299000".toList ('_' :: (c ++ (t.text ++ r))) = some m ∧
      readName (versionName t i c ++ r) = (('_' :: (c ++ (t.text ++ r))).take m).drop 1 := by
  cases hm : index? "_299000".toList ('_' :: (c ++ (t.text ++ r))) with
  | none =>
    have hin : isIn "_299000".toList ('_' :: (c ++ (t.text ++ r))) = true := by
      rw [tail_text ht]
      exact isIn_append_right ('_' :: c) (isIn_append_left (isIn_append_left (by decide) _) _)
    rw [index?_eq_none_iff.mp hm] at hin
    cases hin
  | some m =>
    refine ⟨m, rfl, ?_⟩
    have hneedle : "_299000".toList = '_' :: "299000".toList := by decide
    have hword : ".version.version_".toList = '.' ::
      ("version.version".toList ++ ['_']) := by decide
    have hskip : index? "_299000".toList
        (".version.version_".toList ++ '_' :: (c ++ (t.text ++ r))) =
        some (m + 17) := by
      have hno : ¬"299000".toList.isPrefixOf ('_' :: (c ++ (t.text ++ r))) = true := by
        rw [List.isPrefixOf_iff_prefix]
        intro hp
        have hsplit : "299000".toList = '2' :: "99000".toList := by decide
        rw [hsplit, cons_prefix_cons] at hp
        exact absurd hp.1 (by decide)
      have htext : ".version.version_".toList ++ '_' :: (c ++ (t.text ++ r)) =
          ".version.version".toList ++ '_' :: ('_' :: (c ++ (t.text ++ r))) := by
        have hsplit : ".version.version_".toList = ".version.version".toList ++ ['_'] := by decide
        rw [hsplit]
        simp only [append_assoc, cons_append, nil_append]
      rw [htext, hneedle, index?_from (by decide), if_neg hno, ← hneedle, hm]
      rfl
    have hindex : index? "_299000".toList (versionName t i c ++ r) =
        some (m + 17 + i.front.length) := by
      rw [versionName_eq, append_assoc, hword, cons_append, index?_skip (by decide) h,
        ← cons_append, ← hword, hskip]
      rfl
    have hlength : (i.front ++ ".version.version_".toList).length = i.front.length + 17 := by
      rw [length_append]
      rfl
    have hstart : find ".version__".toList (versionName t i c ++ r) +
        (".version__".toList.length : ℤ) =
        ((i.front ++ ".version.version_".toList).length + 1 : ℕ) := by
      have hten : ".version__".toList.length = 10 := by decide
      rw [find_name, hlength, hten]
      omega
    have hend : (m + 17 + i.front.length) = (i.front ++ ".version.version_".toList).length + m := by
      rw [hlength]
      omega
    rw [readName, hstart, find_of_index? hindex, hend, versionName_eq]
    exact slice_append _ _ _ _

theorem readName_of_isIn (h : isIn "_299000".toList i.front = true) :
    readName (versionName t i c ++ r) = [] := by
  obtain ⟨k, hk, hindex⟩ := index?_of_isIn (by decide) h (field t c ++ r)
  have htext : versionName t i c ++ r = i.front ++ (field t c ++ r) := by
    rw [versionName, append_assoc]
  have hstart : find ".version__".toList (versionName t i c ++ r) +
      (".version__".toList.length : ℤ) =
      (i.front.length + 18 : ℕ) := by
    have hten : ".version__".toList.length = 10 := by decide
    rw [find_name, hten]
    omega
  have hend : find "_299000".toList (versionName t i c ++ r) = k := by
    rw [htext]
    exact find_of_index? hindex
  rw [readName, hstart, hend]
  exact slice_nil (by omega)

theorem not_isIn_overlap (h : isIn "_299000".toList s = false) :
    isIn "_299000".toList (s ++ "_299000".toList.dropLast) = false := by
  rw [Bool.eq_false_iff, Ne, isIn_iff] at h ⊢
  intro hin
  rcases infix_append_iff_ne_nil.mp hin with hin | hin | ⟨l, m, hl, hm, hneedle, -, hp⟩
  · exact h hin
  · exact absurd (isIn_iff.mpr hin) (by decide)
  · obtain ⟨x, l, rfl⟩ := exists_cons_of_ne_nil hl
    obtain ⟨y, m, rfl⟩ := exists_cons_of_ne_nil hm
    have hdrop : "_299000".toList.dropLast = '_' :: "29900".toList := by decide
    have hsplit : "_299000".toList = '_' :: "299000".toList := by decide
    rw [hdrop, cons_prefix_cons] at hp
    rw [hsplit, cons_append, List.cons.injEq] at hneedle
    have hmem : '_' ∈ "299000".toList := by
      rw [hneedle.2, ← hp.1]
      exact mem_append_right l mem_cons_self
    exact absurd hmem (by decide)

include ht in
theorem readName_eq (h : isIn "_299000".toList i.front = false)
    (hc : isIn "_299000".toList ('_' :: c) = false) : readName (versionName t i c ++ r) = c := by
  obtain ⟨m, hm, hname⟩ := readName_of_not_isIn ht i c r h
  have hfirst := index?_first (not_isIn_overlap hc) (ofNat t.transition ++ r)
  have htext : '_' :: (c ++ (t.text ++ r)) = ('_' :: c) ++ "_299000".toList ++
      (ofNat t.transition ++ r) := by
    rw [tail_text ht]
    simp only [append_assoc, cons_append]
  rw [htext] at hm hname
  rw [hfirst] at hm
  rw [hname, ← Option.some.inj hm, append_assoc, take_left]
  rfl

include ht in
theorem not_isIn_readName :
    isIn "_299000".toList ('_' :: readName (versionName t i c ++ r)) = false := by
  by_cases h : isIn "_299000".toList i.front = true
  · rw [readName_of_isIn i c r h]
    decide
  · obtain ⟨m, hm, hname⟩ := readName_of_not_isIn ht i c r (Bool.not_eq_true _ ▸ h)
    rw [hname]
    cases m with
    | zero =>
      rw [take_zero, drop_nil]
      decide
    | succ m =>
      have hnot := not_isIn_take (by decide) hm
      rw [take_succ_cons] at hnot ⊢
      exact hnot

end Names

section Lines

variable (p : Plan)

def bitValue (b : Bool) : ℤ := if b then 1 else 0

def row (x : Copy × Str) : Row := (x.1.id, planKey p.tail x.1 x.2, bitText (p.bit x.1 x.2))

def nameOf (x : Copy × Str) : Str := readName (printRow (row p x))

theorem int?_id (i : Copy) (r : Str) :
    int? (slice (i.front ++ r) 6 (6 + (ofNat i.id).length)) = some (i.id : ℤ) := by
  rw [slice_id, int?_ofNat]

theorem interpretEntry_eq (x : Copy × Str) : interpretEntry (p.entry x) = some (row p x) := by
  have hkey : planKey p.tail x.1 x.2 = x.1.front ++ (field p.tail x.2 ++ "___0".toList) := by
    rw [planKey, versionName, append_assoc]
  unfold interpretEntry Plan.entry
  dsimp only
  rw [hkey, find_second, find_underscore]
  have hid := int?_id x.1 (field p.tail x.2 ++ "___0".toList)
  have hsix : (5 + 1 : ℤ) = 6 := rfl
  rw [Option.bind_eq_bind, Option.bind_some, hsix, hid, ← hkey]
  rfl

theorem read_value (hhash : '#' ∉ a) (hline : '\n' ∉ a) (b : Bool) :
    int? (slice (a ++ bitText b ++ "\n".toList)
      (find "#b".toList (a ++ bitText b ++ "\n".toList) + "#b".toList.length)
      (find "\n".toList (a ++ bitText b ++ "\n".toList))) = some (bitValue b) := by
  obtain ⟨d, htext, hd, hvalue⟩ : ∃ d : Str, bitText b = "#b".toList ++ d ∧ '\n' ∉ d ∧
      int? d = some (bitValue b) := by
    cases b
    · exact ⟨"0".toList, by decide, by decide, by decide⟩
    · exact ⟨"1".toList, by decide, by decide, by decide⟩
  have hsplit : a ++ bitText b ++ "\n".toList = (a ++ "#b".toList) ++ d ++ "\n".toList := by
    rw [htext]
    simp only [append_assoc]
  have hstart : find "#b".toList (a ++ bitText b ++ "\n".toList) = a.length := by
    have h := index?_append (c := '#') (t := "b".toList) hhash (d ++ "\n".toList)
    rw [hsplit, append_assoc (a ++ "#b".toList)]
    exact find_of_index? h
  have hend : find "\n".toList (a ++ bitText b ++ "\n".toList) =
      ((a ++ "#b".toList) ++ d).length := by
    have hnot : '\n' ∉ (a ++ "#b".toList) ++ d := by
      rw [mem_append, mem_append, not_or, not_or]
      exact ⟨⟨hline, by decide⟩, hd⟩
    have h := index?_append (t := []) hnot []
    rw [append_nil] at h
    rw [hsplit]
    exact find_of_index? h
  have hlength : (a.length : ℤ) + ("#b".toList.length : ℤ) = ((a ++ "#b".toList).length : ℤ) := by
    rw [length_append, Int.natCast_add]
  rw [hstart, hend, hlength, hsplit, slice_middle, hvalue]

theorem readLine_printRow (hx : x.2 ∈ p.components) :
    readLine (printRow (row p x)) = some ((x.1.id : ℤ), nameOf p x, bitValue (p.bit x.1 x.2)) := by
  have hline : printRow (row p x) =
      x.1.front ++ (field p.tail x.2 ++ "___0".toList ++ "  ".toList ++ bitText (p.bit x.1 x.2) ++
        "\n".toList) := by
    unfold printRow row planKey versionName
    simp only [append_assoc]
  have hvalue := read_value (a := planKey p.tail x.1 x.2 ++ "  ".toList) (by
      rw [mem_append, not_or]
      exact ⟨notMem_planKey _ _ (p.identifiers _ hx) (by decide) (by decide) (by decide),
        by decide⟩) (by
      rw [mem_append, not_or]
      exact ⟨notMem_planKey _ _ (p.identifiers _ hx) (by decide) (by decide) (by decide),
        by decide⟩) (p.bit x.1 x.2)
  have hhdrs : find ".hdrs_".toList (printRow (row p x)) = 0 := by
    rw [hline]
    exact find_hdrs _ _
  have hsecond : findNth (printRow (row p x)) "_".toList 2 =
      some (6 + (ofNat x.1.id).length : ℤ) := by
    rw [hline]
    exact find_second _ _
  have hid : int? (slice (printRow (row p x)) (0 + ".hdrs_".toList.length)
      (6 + (ofNat x.1.id).length)) =
      some (x.1.id : ℤ) := by
    rw [hline]
    exact int?_id _ _
  have hvalue' : int? (slice (printRow (row p x)) (find "#b".toList (printRow (row p x)) +
      "#b".toList.length) (find "\n".toList (printRow (row p x)))) =
      some (bitValue (p.bit x.1 x.2)) := hvalue
  unfold readLine nameOf readName
  generalize printRow (row p x) = line at *
  simp only [findNth_one, hhdrs, hsecond, hid, hvalue', Option.bind_eq_bind, Option.bind_some]

end Lines

section Printing

variable (p : Plan)

def printOrder : List (Copy × Str) :=
  (p.order.insertionSort fun x y => rowLe (row p x) (row p y) = true).insertionSort
    fun x y => suffixLe (row p x) (row p y) = true

theorem printOrder_perm : (printOrder p).Perm p.order :=
  (perm_insertionSort _ _).trans (perm_insertionSort _ _)

theorem rowLe_iff : rowLe a b = true ↔ Then (fun a b : Row => a.1 ≤ b.1)
    (Then (fun a b => strLe a.2.1 b.2.1 = true) fun a b => strLe a.2.2 b.2.2 = true) a b := by
  have hstr := strLe_then_iff (a := a.2.1) (b := b.2.1) (q := strLe a.2.2 b.2.2)
  rw [rowLe, Then, Then, ← hstr]
  rcases lt_trichotomy a.1 b.1 with h | h | h
  · simp [h, h.le, not_le.mpr h]
  · simp [h]
  · simp [h.not_gt, h.ne', not_le.mpr h]

theorem rowLe_trans (hab : rowLe a b = true) (hbc : rowLe b c = true) : rowLe a c = true := by
  rw [rowLe_iff] at hab hbc ⊢
  refine Then.trans ?_ ?_ hab hbc
  · exact fun _ _ _ => Int.le_trans
  · intro a b c hab hbc
    refine Then.trans ?_ ?_ hab hbc
    · exact fun _ _ _ => strLe_trans
    · exact fun _ _ _ => strLe_trans

theorem rowLe_total (a b : Row) : rowLe a b = true ∨ rowLe b a = true := by
  rw [rowLe_iff, rowLe_iff]
  refine Then.total (fun _ _ => Int.le_total _ _) (fun a b => ?_) a b
  exact Then.total (fun _ _ => strLe_total _ _) (fun _ _ => strLe_total _ _) a b

theorem pairwise_printOrder : (printOrder p).Pairwise (Then
    (fun x y => suffixLe (row p x) (row p y) = true) fun x y =>
      rowLe (row p x) (row p y) = true) := by
  have hrows : (p.order.insertionSort fun x y => rowLe (row p x) (row p y) = true).Pairwise
      fun x y => rowLe (row p x) (row p y) = true := by
    refine pairwise_insertionSort ?_ ?_ _
    · exact fun _ _ _ => rowLe_trans
    · exact fun _ _ => rowLe_total _ _
  refine pairwise_insertionSort_then ?_ ?_ hrows
  · exact fun _ _ _ => strLe_trans
  · exact fun x y => strLe_total (suffixOf (row p x).2.1) (suffixOf (row p y).2.1)

theorem ranked_perm (i : Copy) : (ranked p i).Perm p.components := perm_insertionSort _ _

theorem ranked_nodup (i : Copy) : (ranked p i).Nodup := (ranked_perm p i).nodup_iff.mpr p.once

theorem pairwise_ranked (i : Copy) : (ranked p i).Pairwise
    (Then (fun c d => strLe (p.suffix i c) (p.suffix i d) = true)
      fun c d => strLe (planKey p.tail i c) (planKey p.tail i d) = true) := by
  refine pairwise_insertionSort ?_ ?_ _
  · intro a b c hab hbc
    refine Then.trans ?_ ?_ hab hbc
    · exact fun _ _ _ => strLe_trans
    · exact fun _ _ _ => strLe_trans
  · intro a b
    refine Then.total ?_ ?_ a b
    · exact fun c d => strLe_total (p.suffix i c) (p.suffix i d)
    · exact fun c d => strLe_total (planKey p.tail i c) (planKey p.tail i d)

theorem planKey_injective (t : Tail) (i : Copy) : Function.Injective (planKey t i) := by
  intro c d h
  rw [planKey, planKey, versionName, versionName] at h
  generalize "___0".toList = rest at h
  exact field_injective t (append_cancel_left (append_cancel_right h))

theorem filter_printOrder (hi : i ∈ p.copies) :
    ((printOrder p).filter fun x => x.1 = i) = (ranked p i).map (Prod.mk i) := by
  have hmem : ∀ {x}, x ∈ (printOrder p).filter (fun x => x.1 = i) ↔
      x.1 = i ∧ x.2 ∈ p.components := by
    intro x
    rw [mem_filter, decide_eq_true_iff, (printOrder_perm p).mem_iff, p.mem_order]
    constructor
    · exact fun h => ⟨h.2, h.1.2⟩
    · exact fun h => ⟨⟨h.1 ▸ hi, h.2⟩, h.1⟩
  have hmem' : ∀ {x}, x ∈ (ranked p i).map (Prod.mk i) ↔ x.1 = i ∧ x.2 ∈ p.components := by
    intro x
    rw [mem_map]
    constructor
    · rintro ⟨c, hc, rfl⟩
      exact ⟨rfl, (ranked_perm p i).mem_iff.mp hc⟩
    · exact fun h => ⟨x.2, (ranked_perm p i).mem_iff.mpr h.2, Prod.ext h.1.symm rfl⟩
  refine @List.Perm.eq_of_pairwise (Copy × Str) (fun x y => Then
    (fun c d => strLe (p.suffix i c) (p.suffix i d) = true)
    (fun c d => strLe (planKey p.tail i c) (planKey p.tail i d) = true) x.2 y.2) _ _ ?_ ?_ ?_ ?_
  · intro x y hx hy hxy hyx
    refine Prod.ext ((hmem.mp hx).1.trans (hmem'.mp hy).1.symm) (planKey_injective p.tail i ?_)
    exact strLe_antisymm (hxy.2 hyx.1) (hyx.2 hxy.1)
  · refine ((pairwise_printOrder p).filter _).imp_of_mem fun {x y} hx hy hxy => ?_
    obtain ⟨j, c⟩ := x
    obtain ⟨k, d⟩ := y
    obtain rfl : j = i := (hmem.mp hx).1
    obtain rfl : k = j := (hmem.mp hy).1
    exact ⟨hxy.1, fun h => ((rowLe_iff.mp (hxy.2 h)).2 le_rfl).1⟩
  · rw [pairwise_map]
    exact pairwise_ranked p i
  · rw [perm_ext_iff_of_nodup]
    · intro x
      rw [hmem, hmem']
    · exact ((printOrder_perm p).nodup_iff.mpr p.order_nodup).filter _
    · exact (ranked_nodup p i).map fun _ _ h => (Prod.mk.inj h).2

theorem filter_version : (p.assignments.filter fun e => isIn "version.version".toList e.1) =
    p.order.map p.entry := p.versions

theorem values_eq (h : p.components ≠ []) :
    ((((p.order.map (row p)).map Prod.fst).dedup).insertionSort
    (· ≤ ·)).take ((((p.order.map (row p)).map Prod.fst).dedup).length - 2) =
      (steps p).map fun i => (i.id : ℤ) := by
  obtain ⟨c, hc⟩ := exists_mem_of_ne_nil _ h
  have hperm : (((p.order.map (row p)).map Prod.fst).dedup).Perm
      (p.copies.map fun i => (i.id : ℤ)) := by
    refine (perm_ext_iff_of_nodup (nodup_dedup _) ?_).mpr fun v => ?_
    · have hinj := p.distinct.map (f := fun n : ℕ => (n : ℤ)) fun _ _ h => Int.ofNat.inj h
      rwa [map_map] at hinj
    · rw [mem_dedup, map_map, mem_map, mem_map]
      constructor
      · rintro ⟨x, hx, rfl⟩
        exact ⟨x.1, (p.mem_order.mp hx).1, rfl⟩
      · rintro ⟨i, hi, rfl⟩
        exact ⟨(i, c), p.mem_order.mpr ⟨hi, hc⟩, rfl⟩
  have hsort : (((p.order.map (row p)).map Prod.fst).dedup).insertionSort (· ≤ ·) =
      (p.copies.insertionSort fun i j => i.id ≤ j.id).map fun i => (i.id : ℤ) := by
    have hmap : (p.copies.insertionSort fun i j => i.id ≤ j.id).map (fun i => (i.id : ℤ)) =
        (p.copies.map fun i => (i.id : ℤ)).insertionSort (· ≤ ·) :=
      map_insertionSort _ _ _ _ fun i _ j _ => Int.ofNat_le.symm
    rw [hmap]
    refine List.Perm.eq_of_pairwise' (pairwise_insertionSort (· ≤ ·) _)
      (pairwise_insertionSort (· ≤ ·) _) ?_
    exact (perm_insertionSort _ _).trans (hperm.trans (perm_insertionSort _ _).symm)
  rw [hsort, hperm.length_eq, length_map, steps, map_take]

theorem interpret_eq (h : p.components ≠ []) : interpret p.assignments =
    some (((printOrder p).filter fun x => x.1 ∈ steps p).map fun x =>
      printRow (row p x)).flatten := by
  have hrows : (p.order.map p.entry).mapM interpretEntry = some (p.order.map (row p)) := by
    rw [mapM_map]
    exact mapM_eq_some fun x _ => interpretEntry_eq p x
  have hsort : ((p.order.map (row p)).insertionSort fun a b => rowLe a b = true).insertionSort
      (fun a b => suffixLe a b = true) = (printOrder p).map (row p) := by
    rw [printOrder, map_insertionSort _ (fun a b => suffixLe a b = true) _ _ fun _ _ _ _ => Iff.rfl,
      map_insertionSort _ (fun a b => rowLe a b = true) _ _ fun _ _ _ _ => Iff.rfl]
  have hsteps : ∀ x ∈ printOrder p, ((row p x).1 ∈ (steps p).map fun i => (i.id : ℤ)) ↔
      x.1 ∈ steps p := by
    intro x hx
    have hcopy := (p.mem_order.mp ((printOrder_perm p).mem_iff.mp hx)).1
    rw [mem_map]
    constructor
    · rintro ⟨i, hi, hid⟩
      have hi' : i ∈ p.copies := (mem_insertionSort _).mp (mem_of_mem_take hi)
      rwa [← p.copy_eq hi' hcopy (Int.ofNat.inj hid)]
    · exact fun hx => ⟨x.1, hx, rfl⟩
  unfold interpret
  rw [filter_version, hrows]
  simp only [Option.bind_eq_bind, Option.bind_some, length_insertionSort]
  rw [values_eq p h, hsort, filter_map, flatMap_map, flatMap_def]
  refine congrArg some (congrArg (fun l => (List.map _ l).flatten) (filter_congr fun x hx => ?_))
  exact decide_eq_decide.mpr (hsteps x hx)

end Printing

section Reading

variable (p : Plan)

theorem mem_copies (hi : i ∈ steps p) : i ∈ p.copies :=
  (mem_insertionSort _).mp (mem_of_mem_take hi)

theorem steps_nodup : (steps p).Nodup :=
  (((perm_insertionSort _ _).nodup_iff.mpr (List.Nodup.of_map _ p.distinct)).sublist
    (take_sublist _ _))

theorem steps_sorted : (steps p).Pairwise fun i j => i.id ≤ j.id := by
  have hall : (p.copies.insertionSort fun i j => i.id ≤ j.id).Pairwise fun i j => i.id ≤ j.id := by
    refine pairwise_insertionSort ?_ ?_ _
    · exact fun _ _ _ => le_trans
    · exact fun _ _ => le_total _ _
  exact hall.sublist (take_sublist _ _)

def reading (x : Copy × Str) : ℤ × Str × ℤ := ((x.1.id : ℤ), nameOf p x, bitValue (p.bit x.1 x.2))

def printedStates : States :=
  (((printOrder p).filter fun x => x.1 ∈ steps p).map (reading p)).foldl
    (fun d e => Dict.push d e.1 e.2) []

theorem printRow_isLine (hx : x.2 ∈ p.components) : IsLine (printRow (row p x)) := by
  have hline : IsLine (bitText (p.bit x.1 x.2) ++ "\n".toList) := by
    cases p.bit x.1 x.2 <;> decide
  have hkey : '\n' ∉ planKey p.tail x.1 x.2 ++ "  ".toList := by
    rw [mem_append, not_or]
    exact ⟨notMem_planKey _ _ (p.identifiers _ hx) (by decide) (by decide) (by decide), by decide⟩
  have h := hline.append hkey
  rw [← append_assoc] at h
  exact h

theorem readStates_eq (h : p.components ≠ []) :
    (interpret p.assignments).bind readStates = some (printedStates p) := by
  have hcomponent : ∀ x ∈ (printOrder p).filter (fun x => x.1 ∈ steps p), x.2 ∈ p.components :=
    fun x hx => (p.mem_order.mp ((printOrder_perm p).mem_iff.mp (mem_filter.mp hx).1)).2
  have hlines : readLines (((printOrder p).filter fun x => x.1 ∈ steps p).map
      fun x => printRow (row p x)).flatten = _ := readLines_flatten fun l hl => by
    obtain ⟨x, hx, rfl⟩ := mem_map.mp hl
    exact printRow_isLine p (hcomponent x hx)
  rw [interpret_eq p h, Option.bind_some, readStates, hlines, foldlM_map, printedStates, foldl_map]
  refine foldlM_eq_some (fun x hx d => ?_) _
  rw [readLine_printRow p (hcomponent x hx)]
  rfl

theorem printedStates_keys (h : p.components ≠ []) :
    ((printedStates p).map Prod.fst).insertionSort (· ≤ ·) = (steps p).map fun i => (i.id : ℤ) := by
  obtain ⟨c, hc⟩ := exists_mem_of_ne_nil _ h
  have hids : ((steps p).map fun i => (i.id : ℤ)).Nodup := by
    refine (steps_nodup p).map_on fun i hi j hj hij => ?_
    exact p.copy_eq (mem_copies p hi) (mem_copies p hj) (Int.ofNat.inj hij)
  have hsorted : ((steps p).map fun i => (i.id : ℤ)).Pairwise (· ≤ ·) := by
    rw [pairwise_map]
    exact (steps_sorted p).imp fun h => Int.ofNat_le.mpr h
  refine List.Perm.eq_of_pairwise' (pairwise_insertionSort (· ≤ ·) _) hsorted ?_
  have hkeys : ((printedStates p).map Prod.fst).Nodup :=
    Dict.nodup_keys_foldl_push _ (d := []) nodup_nil
  refine (perm_insertionSort _ _).trans ((perm_ext_iff_of_nodup hkeys hids).mpr fun v => ?_)
  rw [printedStates, Dict.mem_keys_foldl_push, map_map, mem_map (l := steps p), map_nil]
  constructor
  · rintro (hv | hv)
    · exact absurd hv not_mem_nil
    · obtain ⟨x, hx, rfl⟩ := mem_map.mp hv
      exact ⟨x.1, of_decide_eq_true (mem_filter.mp hx).2, rfl⟩
  · rintro ⟨i, hi, rfl⟩
    refine Or.inr (mem_map.mpr ⟨(i, c), mem_filter.mpr ⟨?_, decide_eq_true hi⟩, rfl⟩)
    exact (printOrder_perm p).mem_iff.mpr (p.mem_order.mpr ⟨mem_copies p hi, hc⟩)

theorem printedStates_at (hi : i ∈ steps p) : (printedStates p).at i.id =
    (ranked p i).map fun c => (nameOf p (i, c), bitValue (p.bit i c)) := by
  have hfilter : (((printOrder p).filter fun x => x.1 ∈ steps p).filter fun x =>
      (reading p x).1 = i.id) =
      (printOrder p).filter fun x => x.1 = i := by
    rw [filter_filter]
    refine filter_congr fun x hx => ?_
    have hcopy := (p.mem_order.mp ((printOrder_perm p).mem_iff.mp hx)).1
    rw [← Bool.decide_and, decide_eq_decide]
    constructor
    · rintro ⟨hid, -⟩
      exact p.copy_eq hcopy (mem_copies p hi) (Int.ofNat.inj hid)
    · rintro rfl
      exact ⟨rfl, hi⟩
  rw [States.at, printedStates, Dict.get?_foldl_push, filter_map]
  refine (congrArg (fun l => (l.map (reading p)).map Prod.snd) hfilter).trans ?_
  rw [filter_printOrder p (mem_copies p hi), map_map, map_map]
  rfl

theorem printedStates_at_other (hk : ∀ i ∈ steps p, (i.id : ℤ) ≠ k) :
    (printedStates p).at k = [] := by
  rw [States.at, printedStates, Dict.get?_foldl_push, filter_eq_nil_iff.mpr]
  · rfl
  · intro e he
    obtain ⟨x, hx, rfl⟩ := mem_map.mp he
    rw [decide_eq_true_iff]
    exact hk x.1 (of_decide_eq_true (mem_filter.mp hx).2)

end Reading

section Listing

variable (p : Plan)

theorem newlySet_map {l m : List Str} {f : Str → Str} {a b : Str → Bool} (h : l.length = m.length)
    {g : Str → Str} : newlySet (l.map fun c => (f c, bitValue (a c)))
    (m.map fun c => (g c, bitValue (b c))) =
      some ((((l.zip m).filter fun y => a y.1 && !b y.2).map Prod.fst).map f) := by
  induction l generalizing m with
  | nil => rfl
  | cons c l ih =>
    cases m with
    | nil => cases h
    | cons d m =>
      rw [map_cons, map_cons, newlySet, ih (Nat.succ.inj h), Option.map_some, zip_cons_cons]
      cases ha : a c <;> cases hb : b d <;> simp [ha, hb, bitValue]

theorem stillOld_map {l : List Str} {f : Str → Str} {a : Str → Bool} :
    stillOld l.length (l.map fun c => (f c, bitValue (a c))) =
      some ((l.filter fun c => !a c).map f) := by
  induction l with
  | nil => rfl
  | cons c l ih =>
    rw [length_cons, map_cons, stillOld, ih, Option.map_some]
    cases ha : a c <;> simp [ha, bitValue]

/-- The components that the script lists between two states. -/
def changed (x : Copy × Copy) : List Str :=
  (((ranked p x.2).zip (ranked p x.1)).filter fun y => p.bit x.2 y.1 && !p.bit x.1 y.2).map Prod.fst

def remaining (i : Copy) : List Str :=
  if ∃ j ∈ steps p, j.id + 1 = (steps p).length then (ranked p i).filter fun c => !p.bit i c else []

/-- A transition, the copy from which the names are taken, and what is listed. -/
def listing : List (ℕ × Copy × List Str) :=
  (steps p).head?.toList.map (fun i => (1, i, (ranked p i).filter (p.bit i))) ++
    (((steps p).zip (steps p).tail).zipIdx 2).map (fun x => (x.2, x.1.2, changed p x.1)) ++
    (steps p).getLast?.toList.map fun i => ((steps p).length + 1, i, remaining p i)

def names (x : ℕ × Copy × List Str) : ℕ × List Str := (x.1, x.2.2.map fun c => nameOf p (x.2.1, c))

theorem ranked_length (i : Copy) : (ranked p i).length = p.components.length :=
  (ranked_perm p i).length_eq

theorem betweenStates_eq {l : List Copy} (hl : ∀ i ∈ l, i ∈ steps p) (number : ℕ) :
    betweenStates (printedStates p) number (l.map fun i => (i.id : ℤ)) =
      some (((l.zip l.tail).zipIdx number).map fun x => names p (x.2, x.1.2, changed p x.1)) := by
  induction l generalizing number with
  | nil => rfl
  | cons i l ih =>
    cases l with
    | nil => rfl
    | cons j l =>
      obtain ⟨hi, hl⟩ := forall_mem_cons.mp hl
      have hj := hl j mem_cons_self
      have hlength : (ranked p j).length = (ranked p i).length := by
        rw [ranked_length, ranked_length]
      have hrest := ih hl (number + 1)
      rw [map_cons] at hrest
      rw [map_cons, map_cons, betweenStates, printedStates_at p hi, printedStates_at p hj,
        newlySet_map hlength, hrest]
      rfl

theorem transitions_eq (h : p.components ≠ []) (hsteps : steps p ≠ []) :
    transitions (printedStates p) = some ((listing p).map (names p)) := by
  obtain ⟨i, l, hl⟩ := exists_cons_of_ne_nil hsteps
  have hfirst : (steps p).head? = some i := by rw [hl, head?_cons]
  obtain ⟨k, hlast⟩ : ∃ k, (steps p).getLast? = some k := by
    rw [hl]
    exact ⟨_, getLast?_cons⟩
  have hi : i ∈ steps p := mem_of_head? hfirst
  have hk : k ∈ steps p := mem_of_getLast? hlast
  have hrest : stillOld ((printedStates p).at ((steps p).length - 1)).length
      ((printedStates p).at k.id) = some ((remaining p k).map fun c => nameOf p (k, c)) := by
    by_cases hid : ∃ j ∈ steps p, j.id + 1 = (steps p).length
    · obtain ⟨j, hj, hnumber⟩ := hid
      have hindex : ((steps p).length : ℤ) - 1 = j.id := by omega
      have hlength : (ranked p j).length = (ranked p k).length := by
        rw [ranked_length, ranked_length]
      rw [hindex, printedStates_at p hj, printedStates_at p hk, length_map, hlength, stillOld_map,
        remaining, if_pos ⟨j, hj, hnumber⟩]
    · rw [printedStates_at_other, remaining, if_neg hid]
      · rfl
      · intro j hj hindex
        exact hid ⟨j, hj, by omega⟩
  have hstart : (((printedStates p).at i.id).filter fun x => x.2 = 1).map Prod.fst =
      ((ranked p i).filter (p.bit i)).map fun c => nameOf p (i, c) := by
    rw [printedStates_at p hi, filter_map, map_map]
    refine congrArg (List.map _) (filter_congr fun c _ => ?_)
    cases hbit : p.bit i c <;> simp [hbit, bitValue]
  unfold transitions
  rw [printedStates_keys p h]
  simp only [head?_map, getLast?_map, hfirst, hlast, Option.map_some, Option.bind_eq_bind,
    Option.bind_some, betweenStates_eq p (fun _ h => h), hstart, length_map, hrest]
  simp only [listing, hfirst, hlast, map_append, map_map]
  rfl

variable {resources : Dict Str (List Str)}

theorem describe_name {name : Str} (h : describe resources name = some x) : x.1 = name := by
  unfold describe at h
  obtain ⟨usage, -, h⟩ := Option.bind_eq_some_iff.mp h
  obtain ⟨old, -, h⟩ := Option.bind_eq_some_iff.mp h
  obtain ⟨new, -, h⟩ := Option.bind_eq_some_iff.mp h
  rw [← Option.some.inj h]

theorem section?_spec (h : section? resources t = some u) :
    u.number = t.1 ∧ u.items.map Prod.fst = t.2 := by
  obtain ⟨items, hitems, rfl⟩ := Option.map_eq_some_iff.mp h
  refine ⟨rfl, ?_⟩
  have hall := (mapM_inv hitems).imp fun _ _ h => (describe_name h).symm
  rw [← forall₂_eq_eq_eq, forall₂_map_left_iff]
  exact hall.flip.imp fun _ _ h => h.symm

variable {p} in
theorem sections_iff {listed : List (ℕ × List Str)} (hnodup : (listed.map Prod.fst).Nodup)
    (hresources : ∀ c ∈ p.components, ∃ old new rest,
      resources.get? ("version__".toList ++ c) = some (old :: new :: rest)) :
    (∃ sections, (listed.filter fun t => t.2 ≠ []).mapM (section? resources) = some sections ∧
      sections.map Section.number = (listed.map Prod.fst).filter (fun k => due p k ≠ []) ∧
      ∀ u ∈ sections, (u.items.map Prod.fst).Perm (due p u.number)) ↔
    ∀ t ∈ listed, t.2.Perm (due p t.1) := by
  constructor
  · rintro ⟨sections, hsections, hnumbers, hperm⟩ t ht
    obtain ⟨hright, hleft⟩ :=
      exists_of_forall₂ ((mapM_inv hsections).imp fun _ _ h => section?_spec h)
    by_cases hnil : t.2 = []
    · -- a transition without components has no section
      have hdue : due p t.1 = [] := by
        by_contra hdue
        have hmem : t.1 ∈ sections.map Section.number := by
          rw [hnumbers]
          exact mem_filter.mpr ⟨mem_map_of_mem ht, decide_eq_true hdue⟩
        obtain ⟨u, hu, hnumber⟩ := mem_map.mp hmem
        obtain ⟨t', ht', hspec⟩ := hright u hu
        obtain ⟨ht', hne⟩ := mem_filter.mp ht'
        have hsame := inj_on_of_nodup_map hnodup ht' ht (hspec.1.symm.trans hnumber)
        exact of_decide_eq_true hne (hsame ▸ hnil)
      rw [hnil, hdue]
    · obtain ⟨u, hu, hspec⟩ := hleft t (mem_filter.mpr ⟨ht, decide_eq_true hnil⟩)
      have h := hperm u hu
      rwa [hspec.1, hspec.2] at h
  · intro hperm
    have hdescribe : ∀ c ∈ p.components, describe resources c =
        some ((describe resources c).getD ([], [], [])) := by
      intro c hc
      obtain ⟨old, new, rest, hget⟩ := hresources c hc
      rw [describe, hget]
      rfl
    have hsection : ∀ t ∈ listed.filter (fun t => t.2 ≠ []), section? resources t =
        some ⟨t.1, t.2.map fun c => (describe resources c).getD ([], [], [])⟩ := by
      intro t ht
      rw [section?, mapM_eq_some fun c hc => ?_]
      · rfl
      · have hdue := (hperm t (mem_filter.mp ht).1).mem_iff.mp hc
        exact hdescribe c (mem_filter.mp hdue).1
    refine ⟨_, mapM_eq_some hsection, ?_, fun u hu => ?_⟩
    · rw [map_map, filter_map]
      refine congrArg (List.map _) (filter_congr fun t ht => ?_)
      rw [Function.comp_apply, decide_eq_decide, Ne, Ne, ← perm_nil, ← perm_nil]
      exact not_congr ⟨fun h => (hperm t ht).symm.trans h, fun h => (hperm t ht).trans h⟩
    · obtain ⟨t, ht, rfl⟩ := mem_map.mp hu
      have hspec := section?_spec (hsection t ht)
      rw [hspec.2]
      exact hperm t (mem_filter.mp ht).1

end Listing

section Correctness

variable {p : Plan}

theorem Progressing.steps_ne_nil (h : Progressing p) : steps p ≠ [] := by
  have henough := h.enough
  rw [← length_pos_iff_ne_nil, steps, length_take, length_insertionSort]
  omega

theorem listing_numbers (h : steps p ≠ []) :
    (listing p).map Prod.fst = List.range' 1 ((steps p).length + 1) := by
  obtain ⟨i, l, hl⟩ := exists_cons_of_ne_nil h
  have hlast : ∃ k, (steps p).getLast? = some k := by
    rw [hl]
    exact ⟨_, getLast?_cons⟩
  obtain ⟨k, hlast⟩ := hlast
  have hmiddle : ((((steps p).zip (steps p).tail).zipIdx 2).map
      fun x => (x.2, x.1.2, changed p x.1)).map Prod.fst = List.range' 2 l.length := by
    have hzip : ((steps p).zip (steps p).tail).length = l.length := by
      rw [hl, length_zip, tail_cons, length_cons, Nat.min_eq_right (Nat.le_succ _)]
    rw [map_map, ← hzip]
    exact zipIdx_map_snd 2 _
  have hhead : (steps p).head? = some i := by rw [hl, head?_cons]
  rw [listing, map_append, map_append, hmiddle, hhead, hlast, hl, length_cons, range'_succ,
    range'_concat]
  have hend : 1 + 1 + 1 * l.length = l.length + 1 + 1 := by omega
  rw [hend]
  rfl

theorem reports_iff_listed (h : Progressing p) {resources : Dict Str (List Str)}
    (hresources : ∀ c ∈ p.components, ∃ old new rest,
      resources.get? ("version__".toList ++ c) = some (old :: new :: rest)) :
    Reports p resources ↔ ∀ x ∈ listing p, (names p x).2.Perm (due p x.1) := by
  have hnumbers : ((listing p).map (names p)).map Prod.fst =
      List.range' 1 ((steps p).length + 1) := by
    rw [map_map]
    exact listing_numbers h.steps_ne_nil
  have hnodup : (((listing p).map (names p)).map Prod.fst).Nodup := by
    rw [hnumbers]
    exact nodup_range'
  have hreport : (interpret p.assignments).bind (finalResult resources) =
      (((listing p).map (names p)).filter fun t => t.2 ≠ []).mapM (section? resources) := by
    have hstates := readStates_eq p h.components
    have hsplit : (interpret p.assignments).bind (finalResult resources) =
        ((interpret p.assignments).bind readStates).bind fun states => (transitions states).bind
          fun listed => (listed.filter fun t => t.2 ≠ []).mapM (section? resources) := by
      rw [Option.bind_assoc]
      rfl
    rw [hsplit, hstates, Option.bind_some, transitions_eq p h.components h.steps_ne_nil,
      Option.bind_some]
  have hsections := sections_iff (p := p) hnodup hresources
  rw [hnumbers] at hsections
  rw [Reports, hreport, hsections, forall_mem_map]
  rfl

theorem Progressing.bit_last (h : Progressing p) (hj : (steps p).getLast? = some j)
    (hi : i ∈ steps p) (hc : c ∈ p.components) (hbit : p.bit i c = true) : p.bit j c = true := by
  obtain ⟨l, hl⟩ := getLast?_eq_some_iff.mp hj
  have hmono := h.monotone
  rw [hl, pairwise_append] at hmono
  rw [hl, mem_append, mem_singleton] at hi
  rcases hi with hi | rfl
  · exact hmono.2.2 i hi j (mem_singleton_self j) c hc hbit
  · exact hbit

variable {i : Copy}

theorem due_first (hi : (steps p).head? = some i) : due p 1 = p.components.filter (p.bit i) := by
  obtain ⟨l, hl⟩ := head?_eq_some_iff.mp hi
  refine filter_congr fun c _ => ?_
  rw [transitionOf, hl, findIdx_cons]
  cases p.bit i c <;> simp

theorem due_middle (h : Progressing p) (hi : (steps p)[k]? = some i)
    (hj : (steps p)[k + 1]? = some j) :
    due p (k + 2) = p.components.filter fun c => p.bit j c && !p.bit i c := by
  obtain ⟨hk, rfl⟩ := List.getElem?_eq_some_iff.mp hi
  obtain ⟨hk', rfl⟩ := List.getElem?_eq_some_iff.mp hj
  refine filter_congr fun c hc => ?_
  have hfirst : transitionOf p c = k + 2 ↔ (steps p).findIdx (fun i => p.bit i c) = k + 1 := by
    rw [transitionOf]
    omega
  rw [Bool.eq_iff_iff, decide_eq_true_iff, hfirst, findIdx_eq hk', Bool.and_eq_true,
    Bool.not_eq_true']
  refine and_congr_right fun _ => ⟨fun hall => hall k (Nat.lt_succ_self k), fun hzero m hm => ?_⟩
  by_cases hmk : m = k
  · subst hmk
    exact hzero
  · by_contra hone
    rw [Bool.not_eq_false] at hone
    have hlt : m < k := by omega
    have hmono := pairwise_iff_getElem.mp h.monotone m k (by omega) hk hlt c hc hone
    rw [hzero] at hmono
    cases hmono

theorem due_last (h : Progressing p) (hi : (steps p).getLast? = some i) :
    due p ((steps p).length + 1) = p.components.filter fun c => !p.bit i c := by
  refine filter_congr fun c hc => ?_
  rw [Bool.eq_iff_iff, decide_eq_true_iff, transitionOf, Nat.add_right_cancel_iff,
    findIdx_eq_length,
    Bool.not_eq_true']
  constructor
  · exact fun hall => hall i (mem_of_getLast? hi)
  · intro hzero j hj
    by_contra hone
    rw [h.bit_last hi hj hc (Bool.not_eq_false _ ▸ hone)] at hzero
    cases hzero

theorem nameOf_eq (x : Copy × Str) : nameOf p x = readName (versionName p.tail x.1 x.2 ++
    ("___0".toList ++ "  ".toList ++ bitText (p.bit x.1 x.2) ++ "\n".toList)) := by
  unfold nameOf printRow row planKey
  simp only [append_assoc]

theorem names_perm_iff (h : Progressing p)
    (hok : ∀ c ∈ p.components, isIn "_299000".toList ('_' :: c) = false)
    (hl : l ⊆ p.components) (hd : d ⊆ p.components) : (l.map fun c => nameOf p (i, c)).Perm d ↔
      l.Perm d ∧ (d ≠ [] → isIn "_299000".toList i.front = false) := by
  by_cases hfront : isIn "_299000".toList i.front = true
  · have hempty : (l.map fun c => nameOf p (i, c)) = l.map fun _ => [] :=
      map_congr_left fun c _ => by rw [nameOf_eq, readName_of_isIn _ _ _ hfront]
    rw [hempty]
    constructor
    · intro hperm
      have hnil : d = [] := by
        refine eq_nil_iff_forall_not_mem.mpr fun c hc => ?_
        obtain ⟨_, -, hname⟩ := mem_map.mp (hperm.mem_iff.mpr hc)
        exact h.named c (hd hc) hname.symm
      subst hnil
      rw [perm_nil, map_eq_nil_iff] at hperm
      rw [hperm]
      exact ⟨.refl _, fun hne => absurd rfl hne⟩
    · rintro ⟨hperm, hnone⟩
      by_cases hnil : d = []
      · subst hnil
        rw [perm_nil.mp hperm]
        exact .refl _
      · rw [hnone hnil] at hfront
        cases hfront
  · rw [Bool.not_eq_true] at hfront
    have hsame : (l.map fun c => nameOf p (i, c)) = l := by
      refine (map_congr_left fun c hc => ?_).trans (map_id l)
      rw [nameOf_eq, readName_eq h.number _ _ _ hfront (hok c (hl hc))]
      rfl
    rw [hsame]
    exact ⟨fun hperm => ⟨hperm, fun _ => hfront⟩, fun hboth => hboth.1⟩

theorem filter_fst_perm_iff {α β : Type} {z : List (α × β)} {l : List α}
    (hz : (z.map Prod.fst).Perm l)
    (hl : l.Nodup) {q : α × β → Bool} {r : α → Bool} :
    ((z.filter q).map Prod.fst).Perm (l.filter r) ↔ ∀ x ∈ z, q x = r x.1 := by
  constructor
  · intro hperm x hx
    rw [Bool.eq_iff_iff]
    constructor
    · intro hq
      have hmem := hperm.mem_iff.mp (mem_map_of_mem (mem_filter.mpr ⟨hx, hq⟩))
      exact (mem_filter.mp hmem).2
    · intro hr
      have hmem := hperm.mem_iff.mpr (mem_filter.mpr ⟨hz.mem_iff.mp (mem_map_of_mem hx), hr⟩)
      obtain ⟨y, hy, hxy⟩ := mem_map.mp hmem
      obtain ⟨hy, hq⟩ := mem_filter.mp hy
      rwa [← inj_on_of_nodup_map (hz.nodup_iff.mpr hl) hy hx hxy]
  · intro hall
    have hsame : (z.filter q).map Prod.fst = (z.map Prod.fst).filter r := by
      rw [filter_map]
      exact congrArg (List.map _) (filter_congr fun x hx => hall x hx)
    rw [hsame]
    exact hz.filter _

theorem changed_perm_iff (x : Copy × Copy) :
    (changed p x).Perm (p.components.filter fun c => p.bit x.2 c && !p.bit x.1 c) ↔
      ∀ y ∈ (ranked p x.2).zip (ranked p x.1), p.bit x.2 y.1 = true →
        p.bit x.1 y.2 = p.bit x.1 y.1 := by
  have hlength : (ranked p x.2).length = (ranked p x.1).length := by
    rw [ranked_length, ranked_length]
  have hfst : (((ranked p x.2).zip (ranked p x.1)).map Prod.fst).Perm p.components := by
    rw [map_fst_zip hlength.le]
    exact ranked_perm p x.2
  rw [changed, filter_fst_perm_iff hfst p.once]
  refine forall₂_congr fun y _ => ?_
  cases p.bit x.2 y.1 <;> cases p.bit x.1 y.2 <;> cases p.bit x.1 y.1 <;> simp

theorem remaining_perm_iff (hd : d = p.components.filter fun c => !p.bit i c) :
    (remaining p i).Perm d ↔ (d ≠ [] → ∃ j ∈ steps p, j.id + 1 = (steps p).length) := by
  by_cases hid : ∃ j ∈ steps p, j.id + 1 = (steps p).length
  · rw [remaining, if_pos hid, hd]
    exact ⟨fun _ _ => hid, fun _ => (ranked_perm p i).filter _⟩
  · rw [remaining, if_neg hid, nil_perm]
    exact ⟨fun hnil hne => absurd hnil hne, fun h => by_contra fun hne => hid (h hne)⟩

theorem mem_listing : x ∈ listing p ↔
    (∃ i, (steps p).head? = some i ∧ x = (1, i, (ranked p i).filter (p.bit i))) ∨
    (∃ k i j, (steps p)[k]? = some i ∧ (steps p)[k + 1]? = some j ∧
      x = (k + 2, j, changed p (i, j))) ∨
    ∃ i, (steps p).getLast? = some i ∧ x = ((steps p).length + 1, i, remaining p i) := by
  rw [listing, mem_append, mem_append, or_assoc]
  refine or_congr ?_ (or_congr ?_ ?_)
  · rw [mem_map]
    refine exists_congr fun i => ?_
    rw [Option.mem_toList, eq_comm (a := x)]
  · rw [mem_map]
    constructor
    · rintro ⟨⟨⟨i, j⟩, m⟩, hm, rfl⟩
      obtain ⟨hle, hget⟩ := mk_mem_zipIdx_iff_le_and_getElem?_sub.mp hm
      obtain ⟨hi, hj⟩ := getElem?_zip_eq_some.mp hget
      rw [getElem?_tail] at hj
      refine ⟨m - 2, i, j, hi, hj, ?_⟩
      rw [Nat.sub_add_cancel hle]
    · rintro ⟨k, i, j, hi, hj, rfl⟩
      refine ⟨((i, j), k + 2), mk_mem_zipIdx_iff_le_and_getElem?_sub.mpr ⟨by omega, ?_⟩, rfl⟩
      rw [Nat.add_sub_cancel, getElem?_zip_eq_some, getElem?_tail]
      exact ⟨hi, hj⟩
  · rw [mem_map]
    refine exists_congr fun i => ?_
    rw [Option.mem_toList, eq_comm (a := x)]

theorem due_subset (k : ℕ) : due p k ⊆ p.components := fun _ hc => (mem_filter.mp hc).1

theorem listed_subset (hx : x ∈ listing p) : x.2.2 ⊆ p.components := by
  have hranked : ∀ i, ranked p i ⊆ p.components := fun i => (ranked_perm p i).subset
  rcases mem_listing.mp hx with ⟨i, -, rfl⟩ | ⟨k, i, j, -, -, rfl⟩ | ⟨i, -, rfl⟩
  · exact fun c hc => hranked i (mem_filter.mp hc).1
  · intro c hc
    obtain ⟨y, hy, rfl⟩ := mem_map.mp hc
    exact hranked j (of_mem_zip (mem_filter.mp hy).1).1
  · intro c hc
    dsimp only [remaining] at hc
    split_ifs at hc
    · exact hranked i (mem_filter.mp hc).1
    · exact absurd hc not_mem_nil

theorem plain_of_listed (h : Progressing p) (hall : ∀ x ∈ listing p, (names p x).2.Perm (due p x.1))
    (hc : c ∈ p.components) : isIn "_299000".toList ('_' :: c) = false := by
  have hnumber : transitionOf p c ∈ (listing p).map Prod.fst := by
    have hle : (steps p).findIdx (fun i => p.bit i c) ≤ (steps p).length := findIdx_le_length
    rw [listing_numbers h.steps_ne_nil, mem_range'_1, transitionOf]
    omega
  obtain ⟨x, hx, hnumber⟩ := mem_map.mp hnumber
  have hdue : c ∈ due p x.1 := mem_filter.mpr ⟨hc, decide_eq_true hnumber.symm⟩
  obtain ⟨d, -, hname⟩ := mem_map.mp ((hall x hx).mem_iff.mpr hdue)
  have hnot := not_isIn_readName h.number x.2.1 d
    ("___0".toList ++ "  ".toList ++ bitText (p.bit x.2.1 d) ++ "\n".toList)
  rw [← nameOf_eq (p := p) (x.2.1, d), hname] at hnot
  exact hnot

/-- The report lists every component in its transition if and only if names are read as
they are written, states list the components in the same order wherever it matters, and
the last position is the number of a state. -/
theorem report_iff (h : Progressing p) {resources : Dict Str (List Str)}
    (hresources : ∀ c ∈ p.components, ∃ old new rest,
      resources.get? ("version__".toList ++ c) = some (old :: new :: rest)) :
    Reports p resources ↔ Legible p := by
  rw [reports_iff_listed h hresources]
  constructor
  · intro hall
    have hok : ∀ c ∈ p.components, isIn "_299000".toList ('_' :: c) = false :=
      fun c hc => plain_of_listed h hall hc
    have hperm : ∀ x ∈ listing p, x.2.2.Perm (due p x.1) ∧
        (due p x.1 ≠ [] → isIn "_299000".toList x.2.1.front = false) :=
      fun x hx => (names_perm_iff h hok (listed_subset hx) (due_subset _)).mp (hall x hx)
    refine ⟨hok, fun k i hi hdue => ?_, fun hdue i hi => ?_, fun x hx => ?_, fun hdue => ?_⟩
    · cases k with
      | zero =>
        have hhead : (steps p).head? = some i := by rwa [head?_eq_getElem?]
        exact (hperm _ (mem_listing.mpr (Or.inl ⟨i, hhead, rfl⟩))).2 hdue
      | succ k =>
        have hlt : k + 1 < (steps p).length := (List.getElem?_eq_some_iff.mp hi).1
        have hprevious := List.getElem?_eq_getElem (Nat.lt_of_succ_lt hlt)
        exact (hperm _ (mem_listing.mpr (Or.inr (Or.inl ⟨k, _, i, hprevious, hi, rfl⟩)))).2 hdue
    · exact (hperm _ (mem_listing.mpr (Or.inr (Or.inr ⟨i, hi, rfl⟩)))).2 hdue
    · obtain ⟨k, hget⟩ := mem_iff_getElem?.mp hx
      obtain ⟨hi, hj⟩ := getElem?_zip_eq_some.mp hget
      rw [getElem?_tail] at hj
      have hboth := (hperm _ (mem_listing.mpr (Or.inr (Or.inl ⟨k, _, _, hi, hj, rfl⟩)))).1
      rw [due_middle h hi hj] at hboth
      exact (changed_perm_iff x).mp hboth
    · obtain ⟨i, hi⟩ : ∃ i, (steps p).getLast? = some i :=
        ⟨_, getLast?_eq_some_getLast h.steps_ne_nil⟩
      have hboth := (hperm _ (mem_listing.mpr (Or.inr (Or.inr ⟨i, hi, rfl⟩)))).1
      exact (remaining_perm_iff (due_last h hi)).mp hboth hdue
  · intro hlegible x hx
    refine (names_perm_iff h hlegible.components (listed_subset hx) (due_subset _)).mpr ?_
    rcases mem_listing.mp hx with ⟨i, hi, rfl⟩ | ⟨k, i, j, hi, hj, rfl⟩ | ⟨i, hi, rfl⟩
    · refine ⟨?_, hlegible.copies 0 i (by rwa [← head?_eq_getElem?])⟩
      dsimp only
      rw [due_first hi]
      exact (ranked_perm p i).filter _
    · refine ⟨?_, hlegible.copies (k + 1) j hj⟩
      dsimp only
      rw [due_middle h hi hj]
      refine (changed_perm_iff (i, j)).mpr (hlegible.aligned (i, j) ?_)
      refine mem_iff_getElem?.mpr ⟨k, getElem?_zip_eq_some.mpr ⟨hi, ?_⟩⟩
      rwa [getElem?_tail]
    · refine ⟨?_, fun hdue => hlegible.final hdue i hi⟩
      exact (remaining_perm_iff (due_last h hi)).mpr hlegible.numbered

end Correctness

namespace OneState

def copy (id : ℕ) : Copy := ⟨id, "_0".toList, zero_label_plain, zero_label_short⟩

def components : List Str := ["acl".toList, "route".toList]

/-- One intermediate state, in which the first of two components is new. -/
def plan (first : ℕ) : Plan where
  tail := ⟨2, 1⟩
  copies := [copy first, copy (first + 1), copy (first + 2)]
  components := components
  bit := fun i c => c = "acl".toList ∨ first < i.id
  order := [copy first, copy (first + 1), copy (first + 2)].product components
  assignments := ([copy first, copy (first + 1), copy (first + 2)].product components).map fun x =>
    (planKey ⟨2, 1⟩ x.1 x.2, bitText (x.2 = "acl".toList ∨ first < x.1.id))
  distinct := by simp [copy]
  identifiers := by
    intro c hc
    rcases mem_pair.mp hc with rfl | rfl
    · exact forall_chars (by decide)
    · exact forall_chars (by decide)
  once := by decide
  complete := .refl _
  versions := by
    refine filter_eq_self.mpr fun e he => ?_
    obtain ⟨x, -, rfl⟩ := mem_map.mp he
    exact isIn_version _ _ _

def resources : Dict Str (List Str) :=
  [("version__acl".toList, ["4".toList, "2".toList]),
    ("version__route".toList, ["8".toList, "8".toList])]

theorem resources_complete (first : ℕ) : ∀ c ∈ (plan first).components, ∃ old new rest,
    resources.get? ("version__".toList ++ c) = some (old :: new :: rest) := by
  intro c hc
  rcases mem_pair.mp hc with rfl | rfl
  · exact ⟨_, _, _, rfl⟩
  · exact ⟨_, _, _, rfl⟩

end OneState

open OneState

/-- With one state that is not numbered 0, the report leaves out the last transition. -/
theorem last_transition_missing : Progressing (plan 1) ∧ due (plan 1) 2 = ["route".toList] ∧
    ¬Reports (plan 1) resources ∧
    (interpret (plan 1).assignments).bind (finalResult resources) =
      some [⟨1, [("acl".toList, "4".toList, "2".toList)]⟩] := by
  have hreport : (interpret (plan 1).assignments).bind (finalResult resources) =
      some [⟨1, [("acl".toList, "4".toList, "2".toList)]⟩] := by decide +kernel
  have hsteps : steps (plan 1) = [copy 1] := by decide +kernel
  have hdue : due (plan 1) 2 = ["route".toList] := by decide +kernel
  refine ⟨⟨rfl, by decide, ?_, by decide, ?_⟩, hdue, ?_, hreport⟩
  · intro c hc
    rcases mem_pair.mp hc with rfl | rfl <;> decide
  · rw [hsteps]
    exact pairwise_singleton _ _
  · rintro ⟨sections, hsections, hnumbers, -⟩
    rw [hreport] at hsections
    rw [← Option.some.inj hsections, hsteps] at hnumbers
    have hin : 2 ∈ (List.range' 1 ([copy 1].length + 1)).filter (fun k => due (plan 1) k ≠ []) :=
      mem_filter.mpr ⟨by decide, decide_eq_true (by rw [hdue]; exact cons_ne_nil _ _)⟩
    rw [← hnumbers] at hin
    exact absurd hin (by decide)

theorem state_zero_reported : Progressing (plan 0) ∧ Reports (plan 0) resources := by
  have hsteps : steps (plan 0) = [copy 0] := by decide +kernel
  have hprogress : Progressing (plan 0) := by
    refine ⟨rfl, by decide, ?_, by decide, ?_⟩
    · intro c hc
      rcases mem_pair.mp hc with rfl | rfl <;> decide
    · rw [hsteps]
      exact pairwise_singleton _ _
  refine ⟨hprogress, (report_iff hprogress (resources_complete 0)).mpr ?_⟩
  have hfront : isIn "_299000".toList (copy 0).front = false := by decide +kernel
  refine ⟨?_, fun k i hi _ => ?_, fun _ i hi => ?_, fun x hx => ?_, fun _ => ⟨copy 0, ?_, ?_⟩⟩
  · intro c hc
    rcases mem_pair.mp hc with rfl | rfl <;> decide
  · rw [hsteps] at hi
    obtain rfl := mem_singleton.mp (mem_of_getElem? hi)
    exact hfront
  · rw [hsteps] at hi
    obtain rfl := mem_singleton.mp (mem_of_getLast? hi)
    exact hfront
  · rw [hsteps] at hx
    exact absurd hx not_mem_nil
  · rw [hsteps]
    exact mem_singleton_self _
  · rw [hsteps]
    rfl

end FinalResult
