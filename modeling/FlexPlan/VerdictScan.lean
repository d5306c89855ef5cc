import FlexPlan.SolverOutput

/-!
# Verdicts and the names in a model

The scripts look for the verdict in every line of the answer, so the spelling of a variable takes
part in its classification.
-/
namespace VerdictScan

open PythonText SynthesizerUtils SolverOutput List

/-- A symbol of the formula, without the bars that may stand around it. -/
structure Name where
  text : Str
  clean : ∀ c ∈ text, c ∉ " ()|\n".toList

inductive Value where
  | bool (b : Bool)
  | binary (digits : List Bool)
  | hex (digits : List (Fin 16))
  deriving DecidableEq, Repr

def Value.text : Value → Str
  | .bool b => if b then "true".toList else "false".toList
  | .binary digits => "#b".toList ++ digits.map fun d => if d then '1' else '0'
  | .hex digits => "#x".toList ++ digits.map fun d => Nat.digitChar d.val

def Value.sort : Value → Str
  | .bool _ => "Bool".toList
  | .binary digits => "(_ BitVec ".toList ++ ofNat digits.length ++ ")".toList
  | .hex digits => "(_ BitVec ".toList ++ ofNat (4 * digits.length) ++ ")".toList

structure Entry where
  name : Name
  quoted : Bool
  value : Value

namespace Entry

def symbol (e : Entry) : Str :=
  if e.quoted then "|".toList ++ e.name.text ++ "|".toList else e.name.text

def defineLine (e : Entry) : Str :=
  "  (define-fun".toList ++ ' ' ::
    (e.symbol ++ ' ' :: ("() ".toList ++ e.value.sort ++ "\n".toList))

def valueLine (e : Entry) : Str := "    ".toList ++ e.value.text ++ ")\n".toList

def lines (e : Entry) : List Str := [e.defineLine, e.valueLine]

end Entry

/-- What the solver prints. Older versions put a word in front of the entries. -/
inductive Output where
  | sat (older : Bool) (entries : List Entry)
  | unsat

namespace Output

def header (older : Bool) : Str := if older then "(model \n".toList else "(\n".toList

def lines : Output → List Str
  | .sat older entries =>
    "sat\n".toList :: header older :: (entries.flatMap Entry.lines ++ [")\n".toList])
  | .unsat => ["unsat\n".toList]

def text (o : Output) : Str := o.lines.flatten

def message : Output → Message
  | .sat _ _ => .sat
  | .unsat => .unsat

def flag : Output → ℕ
  | .sat _ _ => 0
  | .unsat => 1

def recorded : Output → Str
  | .sat _ _ => "SAT".toList
  | .unsat => "UNSAT".toList

end Output

/-- All scripts take the answer for what its first line says. -/
structure Classified (mapping : Dict Str Str) (o : Output) : Prop where
  loop : findInFile o.text "unsat".toList = decide (o.message = .unsat) ∧
    findInFile o.text "sat".toList = true
  runner : checkCall o.text = o.message
  learner : solveFlag o.text = o.flag
  extraction : (processOutput mapping o.text).map Prod.fst = some o.recorded
  result : extractSimple .normal mapping o.text [] = some (o.recorded ++ "\n".toList)

def dotted (s : Str) : Str := s.dropWhile (· ≠ '.')

def ordinal (s : Str) : Str := (s.reverse.takeWhile (· ≠ '_')).reverse

/-- A packet variable is versioned, and it is quoted when it belongs to a header stack. -/
def Entry.Readable (e : Entry) : Prop :=
  e.quoted = isIn "elements".toList e.name.text ∧
    '_' ∈ dotted e.name.text ∧ (int? (ordinal (dotted e.name.text))).isSome = true

def Entry.Clear (e : Entry) : Prop :=
  isIn "sat".toList e.name.text = false ∧ (isPacketLine e.name.text = true → e.Readable)

def Output.Clear : Output → Prop
  | .sat _ entries => ∀ e ∈ entries, e.Clear
  | .unsat => True

variable {e : Entry} {t : Str} {c : Char}

theorem Entry.notMem_name (h : c ∈ " ()|\n".toList) : c ∉ e.name.text :=
  fun hc => e.name.clean c hc h

theorem Entry.notMem_symbol (h : c ∈ " ()\n".toList) : c ∉ e.symbol := by
  have hall : ∀ c ∈ " ()\n".toList, c ∈ " ()|\n".toList ∧ c ∉ "|".toList := forall_chars (by decide)
  obtain ⟨hclean, hbar⟩ := hall c h
  have hname : c ∉ e.name.text := e.notMem_name hclean
  unfold Entry.symbol
  split_ifs
  · simp only [mem_append, not_or]
    exact ⟨⟨hbar, hname⟩, hbar⟩
  · exact hname

theorem Value.notMem_sort {v : Value} (hc : c.isDigit = false) (hbool : c ∉ "Bool".toList)
    (hbits : c ∉ "(_ BitVec )".toList) : c ∉ v.sort := by
  have hbits' : ∀ n : ℕ, c ∉ "(_ BitVec ".toList ++ ofNat n ++ ")".toList := by
    intro n hmem
    rw [mem_append, mem_append] at hmem
    rcases hmem with (hmem | hmem) | hmem
    · exact hbits (mem_append_left [')'] hmem)
    · exact notMem_ofNat hc n hmem
    · exact hbits (mem_append_right "(_ BitVec ".toList hmem)
  cases v with
  | bool b => exact hbool
  | binary digits | hex digits => exact hbits' _

theorem Value.sort_last (v : Value) :
    ∃ pre c, v.sort = pre ++ [c] ∧ c.isDigit = false ∧ c ∉ "_-+ \n\t\r".toList := by
  cases v with
  | bool b => exact ⟨"Boo".toList, 'l', rfl, by decide, by decide⟩
  | binary digits | hex digits => exact ⟨_, ')', rfl, by decide, by decide⟩

theorem isIn_middle {a b c : Str} (hne : t ≠ []) (hblank : ' ' ∉ t) (ha : isIn t a = false)
    (hc : isIn t c = false) : isIn t (a ++ ' ' :: (b ++ ' ' :: c)) = isIn t b := by
  rw [isIn_append_cons hblank hne, isIn_append_cons hblank hne, ha, hc, Bool.false_or,
    Bool.or_false]

theorem Entry.isIn_defineLine (hs : 's' ∈ t) (hblank : ' ' ∉ t) (hbar : '|' ∉ t) :
    isIn t e.defineLine = isIn t e.name.text := by
  have hne : t ≠ [] := ne_nil_of_mem hs
  have hhead : isIn t "  (define-fun".toList = false := not_isIn_of_notMem hs (by decide)
  have hsort : 's' ∉ e.value.sort := Value.notMem_sort (by decide) (by decide) (by decide)
  have htail : isIn t ("() ".toList ++ e.value.sort ++ "\n".toList) = false := by
    refine not_isIn_of_notMem hs ?_
    simp only [mem_append, not_or]
    exact ⟨⟨by decide, hsort⟩, by decide⟩
  have hsymbol : isIn t e.symbol = isIn t e.name.text := by
    unfold Entry.symbol
    split_ifs
    · apply isIn_pad hne
      · intro c hc
        rwa [mem_singleton.mp hc]
      · intro c hc
        rwa [mem_singleton.mp hc]
    · rfl
  exact (isIn_middle hne hblank hhead htail).trans hsymbol

theorem Value.mem_text {v : Value} (h : c ∈ v.text) :
    c ∈ "truefals#bx0123456789acd".toList ∧ (c = 's' → v = .bool false) := by
  have hdigit : ∀ d : Fin 16, Nat.digitChar d.val ∈ "truefals#bx0123456789acd".toList ∧
      Nat.digitChar d.val ≠ 's' := by decide
  cases v with
  | bool b =>
    cases b with
    | true =>
      have hall : ∀ c ∈ "true".toList, c ∈ "truefals#bx0123456789acd".toList ∧ c ≠ 's' :=
        forall_chars (by decide)
      exact ⟨(hall c h).1, fun hc => absurd hc (hall c h).2⟩
    | false =>
      have hall : ∀ c ∈ "false".toList, c ∈ "truefals#bx0123456789acd".toList :=
        forall_chars (by decide)
      exact ⟨hall c h, fun _ => rfl⟩
  | binary digits =>
    rcases mem_append.mp h with h | h
    · have hall : ∀ c ∈ "#b".toList, c ∈ "truefals#bx0123456789acd".toList ∧ c ≠ 's' :=
        forall_chars (by decide)
      exact ⟨(hall c h).1, fun hc => absurd hc (hall c h).2⟩
    · obtain ⟨d, -, rfl⟩ := mem_map.mp h
      cases d with
      | true | false => exact ⟨by decide, fun hc => absurd hc (by decide)⟩
  | hex digits =>
    rcases mem_append.mp h with h | h
    · have hall : ∀ c ∈ "#x".toList, c ∈ "truefals#bx0123456789acd".toList ∧ c ≠ 's' :=
        forall_chars (by decide)
      exact ⟨(hall c h).1, fun hc => absurd hc (hall c h).2⟩
    · obtain ⟨d, -, rfl⟩ := mem_map.mp h
      exact ⟨(hdigit d).1, fun hc => absurd hc (hdigit d).2⟩

theorem Entry.notMem_valueLine (h : c ∉ "    truefals#bx0123456789acd)\n".toList) :
    c ∉ e.valueLine := by
  intro hc
  simp only [Entry.valueLine, mem_append] at hc
  rcases hc with (hc | hc) | hc
  · exact h (mem_append_left _ hc)
  · exact h (mem_append_right "    ".toList (mem_append_left ")\n".toList (Value.mem_text hc).1))
  · exact h (mem_append_right "    truefals#bx0123456789acd".toList hc)

theorem Entry.isIn_valueLine : isIn "sat".toList e.valueLine = false := by
  by_cases hfalse : e.value = .bool false
  · rw [Entry.valueLine, hfalse]
    decide
  · refine not_isIn_of_notMem (c := 's') (by decide) ?_
    intro hs
    simp only [Entry.valueLine, mem_append] at hs
    rcases hs with (hs | hs) | hs
    · exact absurd hs (by decide)
    · exact hfalse ((Value.mem_text hs).2 rfl)
    · exact absurd hs (by decide)

variable {line : Str}

theorem not_isPacketLine (h : '_' ∉ line) : isPacketLine line = false := by
  rw [isPacketLine, not_isIn_of_notMem (c := '_') (by decide) h,
    not_isIn_of_notMem (c := '_') (by decide) h]
  rfl

theorem Entry.isPacketLine_defineLine : isPacketLine e.defineLine = isPacketLine e.name.text := by
  simp only [isPacketLine]
  rw [e.isIn_defineLine (by decide) (by decide) (by decide),
    e.isIn_defineLine (by decide) (by decide) (by decide),
    e.isIn_defineLine (by decide) (by decide) (by decide)]

theorem Entry.isPacketLine_valueLine : isPacketLine e.valueLine = false :=
  not_isPacketLine (e.notMem_valueLine (by decide))

def Terminated (l : Str) : Prop := l.getLast? = some '\n' ∧ '\n' ∉ l.dropLast

theorem Terminated.append (ha : '\n' ∉ a) (h : Terminated l) : Terminated (a ++ l) := by
  have hne : l ≠ [] := by
    rintro rfl
    cases h.1
  constructor
  · rw [getLast?_append_of_ne_nil _ hne]
    exact h.1
  · rw [dropLast_append_of_ne_nil hne, mem_append, not_or]
    exact ⟨ha, h.2⟩

theorem terminated_break : Terminated "\n".toList := ⟨rfl, by decide⟩

theorem Entry.terminated_lines : ∀ l ∈ e.lines, Terminated l := by
  have hsymbol : '\n' ∉ e.symbol := e.notMem_symbol (by decide)
  have hsort : '\n' ∉ "() ".toList ++ e.value.sort := by
    rw [mem_append, not_or]
    exact ⟨by decide, Value.notMem_sort (by decide) (by decide) (by decide)⟩
  have hvalue : '\n' ∉ "    ".toList ++ e.value.text := by
    rw [mem_append, not_or]
    exact ⟨by decide, fun h => absurd (Value.mem_text h).1 (by decide)⟩
  intro l hl
  rcases mem_cons.mp hl with rfl | hl
  · apply Terminated.append (by decide)
    apply Terminated.append (a := [' ']) (by decide)
    apply Terminated.append hsymbol
    apply Terminated.append (a := [' ']) (by decide)
    exact Terminated.append hsort terminated_break
  · rw [mem_singleton.mp hl]
    apply Terminated.append hvalue
    exact Terminated.append (a := ")".toList) (by decide) terminated_break

theorem Output.readLines_text (o : Output) : readLines o.text = o.lines := by
  apply readLines_flatten
  change ∀ l ∈ o.lines, Terminated l
  intro l hl
  cases o with
  | unsat =>
    rw [mem_singleton.mp hl]
    exact Terminated.append (a := "unsat".toList) (by decide) terminated_break
  | sat older entries =>
    rcases mem_cons.mp hl with rfl | hl
    · exact Terminated.append (a := "sat".toList) (by decide) terminated_break
    rcases mem_cons.mp hl with rfl | hl
    · cases older with
      | true => exact Terminated.append (a := "(model ".toList) (by decide) terminated_break
      | false => exact Terminated.append (a := "(".toList) (by decide) terminated_break
    rcases mem_append.mp hl with hl | hl
    · obtain ⟨e, -, hl⟩ := mem_flatMap.mp hl
      exact e.terminated_lines l hl
    · rw [mem_singleton.mp hl]
      exact Terminated.append (a := ")".toList) (by decide) terminated_break

/-- The version `process_output` takes from a name; `none` when it raises. -/
def readLabel (name : Str) : Option ℤ :=
  (findNth name "_".toList (-1)).bind fun cut => int? (sliceFrom name (cut + 1))

theorem readLabel_append (hb : '_' ∉ b) : readLabel (a ++ '_' :: b) = int? b := by
  have hfind : findNth (a ++ '_' :: b) "_".toList (-1) = some (a.length : ℤ) := findNth_last hb
  have hcut : (a.length : ℤ) + 1 = ((a ++ ['_']).length : ℤ) := by simp
  have hsplit : a ++ '_' :: b = (a ++ ['_']) ++ b := by simp
  rw [readLabel, hfind, Option.bind_some, hcut, hsplit, sliceFrom_right]

theorem readLabel_of_notMem {name : Str} (h : '_' ∉ name) : readLabel name = none := by
  have hfind : findNth name "_".toList (-1) = some (name.length : ℤ) := findNth_absent h
  have hcut : sliceFrom name ((name.length : ℤ) + 1) = [] := by
    rw [sliceFrom, drop_eq_nil_iff, clampIndex, if_neg (by omega)]
    omega
  rw [readLabel, hfind, Option.bind_some, hcut]
  rfl

theorem last_underscore (h : '_' ∈ s) : ∃ a b, s = a ++ '_' :: b ∧ '_' ∉ b := by
  obtain ⟨a, b, heq, ha⟩ := eq_append_cons_of_mem (mem_reverse.mpr h)
  refine ⟨b.reverse, a.reverse, ?_, by simpa using ha⟩
  rw [← reverse_reverse s, heq]
  simp

theorem readLabel_raises {a b : Str} (hb : '_' ∉ b) (hdigit : c.isDigit = false)
    (hc : c ∉ "_-+ \n\t\r".toList) : readLabel (a ++ c :: b) = none := by
  have hrest : '_' ∉ c :: b := by
    rw [mem_cons, not_or]
    exact ⟨fun heq => hc (heq ▸ mem_cons_self), hb⟩
  by_cases ha : '_' ∈ a
  · obtain ⟨x, y, rfl, hy⟩ := last_underscore ha
    have hlast : '_' ∉ y ++ c :: b := by
      rw [mem_append, not_or]
      exact ⟨hy, hrest⟩
    rw [append_assoc, cons_append, readLabel_append hlast]
    exact int?_of_mem (mem_append_right y mem_cons_self) hdigit hc
  · apply readLabel_of_notMem
    rw [mem_append, not_or]
    exact ⟨ha, hrest⟩

theorem readLabel_eq {name : Str} :
    (readLabel name).isSome = true ↔ '_' ∈ name ∧ (int? (ordinal name)).isSome = true := by
  by_cases h : '_' ∈ name
  · obtain ⟨a, b, rfl, hb⟩ := last_underscore h
    have hall : ∀ c ∈ b.reverse, decide (c ≠ '_') = true := by
      intro c hc
      rw [decide_eq_true_iff]
      rintro rfl
      exact hb (mem_reverse.mp hc)
    have hordinal : ordinal (a ++ '_' :: b) = b := by
      rw [ordinal, reverse_append, reverse_cons, append_assoc,
        takeWhile_append_of_pos hall]
      simp
    rw [readLabel_append hb, hordinal, and_iff_right h]
  · simp [readLabel_of_notMem h, h]

theorem variableLine_result {s : Scan} {line value name : Str} {nameEnd : ℤ} {k : ℕ}
    (hend : (if isIn "elements".toList line then findNth line "|".toList (-1)
      else some (find " ()".toList line)) = some nameEnd)
    (hname : slice line (find ".".toList line) nameEnd = name)
    (hvalue : firstNonBlank value = some k) :
    (s.variableLine line value).map Scan.result = (readLabel name).map fun _ => s.result := by
  have hbody : s.variableLine line value = (findNth name "_".toList (-1)).bind fun cut =>
      (int? (sliceFrom name (cut + 1))).bind fun label => some { s with
        sizeStart := some k
        rawassigns := s.rawassigns.set name (slice value k (find ")".toList value))
        vardict := s.vardict.push (slice name 0 cut) label } := by
    unfold Scan.variableLine
    by_cases h : isIn "elements".toList line = true
    · rw [if_pos h] at hend
      simp only [if_pos h, hend, hvalue, Option.bind_eq_bind, Option.bind_some,
        Option.some_or, hname]
    · rw [if_neg h] at hend
      simp only [if_neg h, hend, hvalue, Option.bind_eq_bind, Option.bind_some,
        Option.some_or, hname]
  rw [hbody, readLabel]
  cases findNth name "_".toList (-1) with
  | none => rfl
  | some cut =>
    simp only [Option.bind_some]
    cases int? (sliceFrom name (cut + 1)) with
    | none | some label => rfl

namespace Entry

def bar (e : Entry) : Str := if e.quoted then ['|'] else []

def front (e : Entry) : Str := "  (define-fun ".toList ++ e.bar

def ending (e : Entry) : Str := " ".toList ++ e.value.sort ++ "\n".toList

theorem defineLine_eq :
    e.defineLine = e.front ++ e.name.text ++ (e.bar ++ (" ()".toList ++ e.ending)) := by
  have hsymbol : e.symbol = e.bar ++ e.name.text ++ e.bar := by
    unfold Entry.symbol Entry.bar
    split_ifs
    · rfl
    · rw [nil_append, append_nil]
  have hgroup : ∀ a b c d : Str, a ++ ' ' :: ((b ++ c ++ b) ++ d) = (a ++ [' '] ++ b) ++ c ++
      (b ++ d) := by
    intro a b c d
    simp only [append_assoc, cons_append, nil_append]
  unfold Entry.defineLine
  rw [hsymbol]
  exact hgroup _ _ _ _

theorem notMem_front (h : c ∉ "  (define-fun |".toList) : c ∉ e.front := by
  have hall : e.bar <+: ['|'] := by
    unfold Entry.bar
    split_ifs
    · exact prefix_rfl
    · exact nil_prefix
  intro hc
  exact h (((prefix_append_right_inj "  (define-fun ".toList).mpr hall).mem hc)

theorem notMem_bar (h : c ≠ '|') : c ∉ e.bar := by
  unfold Entry.bar
  split_ifs
  · exact fun hc => h (mem_singleton.mp hc)
  · exact not_mem_nil

theorem notMem_ending {c : Char} (hc : c.isDigit = false) (hbool : c ∉ " Bool\n".toList)
    (hbits : c ∉ "(_ BitVec )".toList) : c ∉ e.ending := by
  have hsort : c ∉ e.value.sort := by
    refine Value.notMem_sort hc (fun h => hbool ?_) hbits
    exact mem_cons_of_mem _ (mem_append_left ['\n'] h)
  unfold Entry.ending
  simp only [mem_append, not_or]
  refine ⟨⟨fun h => hbool ?_, hsort⟩, fun h => hbool ?_⟩
  · exact mem_append_left "Bool\n".toList h
  · exact mem_append_right " Bool".toList h

theorem find_arguments :
    find " ()".toList e.defineLine = ((e.front ++ e.name.text ++ e.bar).length : ℤ) := by
  have hclose : ')' ∉ e.front ++ e.name.text ++ e.bar ++ " (".toList := by
    simp only [mem_append, not_or]
    exact ⟨⟨⟨e.notMem_front (by decide), e.notMem_name (by decide)⟩, e.notMem_bar (by decide)⟩,
      by decide⟩
  have hindex : index? " ()".toList (e.front ++ e.name.text ++ e.bar ++ " ()".toList ++ e.ending) =
      some (e.front ++ e.name.text ++ e.bar).length :=
    index?_first (not_isIn_of_notMem (c := ')') (by decide) hclose) _
  have hline : e.defineLine = e.front ++ e.name.text ++ e.bar ++ " ()".toList ++ e.ending := by
    rw [defineLine_eq]
    simp only [append_assoc]
  rw [find, hline, hindex]

theorem find_bar (h : e.quoted = true) :
    findNth e.defineLine "|".toList (-1) = some ((e.front ++ e.name.text).length : ℤ) := by
  have hbar : e.bar = ['|'] := if_pos h
  have hbehind : '|' ∉ " ()".toList ++ e.ending := by
    rw [mem_append, not_or]
    exact ⟨by decide, e.notMem_ending (by decide) (by decide) (by decide)⟩
  rw [defineLine_eq, hbar]
  exact findNth_last hbehind

theorem find_bar_absent (h : e.quoted = false) :
    findNth e.defineLine "|".toList (-1) = some (e.defineLine.length : ℤ) := by
  refine findNth_absent ?_
  unfold Entry.defineLine Entry.symbol
  rw [h, if_neg Bool.false_ne_true]
  simp only [mem_append, mem_cons, not_or]
  exact ⟨by decide, by decide, e.notMem_name (by decide), by decide,
    ⟨by decide, Value.notMem_sort (by decide) (by decide) (by decide)⟩, by decide⟩

theorem find_dot {a b : Str} (h : e.name.text = a ++ '.' :: b) (ha : '.' ∉ a) :
    find ".".toList e.defineLine = ((e.front ++ a).length : ℤ) := by
  have hfront : '.' ∉ e.front ++ a := by
    rw [mem_append, not_or]
    exact ⟨e.notMem_front (by decide), ha⟩
  have hline : e.defineLine = (e.front ++ a) ++ ['.'] ++
      (b ++ (e.bar ++ (" ()".toList ++ e.ending))) := by
    rw [defineLine_eq, h]
    simp only [append_assoc, cons_append, nil_append]
  have hindex : index? ".".toList
      ((e.front ++ a) ++ ['.'] ++ (b ++ (e.bar ++ (" ()".toList ++ e.ending)))) =
        some (e.front ++ a).length := index?_append hfront _
  rw [find, hline, hindex]

theorem dotted_of_notMem (h : '.' ∉ t) : dotted t = [] := by
  rw [dotted, dropWhile_eq_nil_iff]
  intro c hc
  rw [decide_eq_true_iff]
  rintro rfl
  exact h hc

theorem dotted_append {a b : Str} (ha : '.' ∉ a) : dotted (a ++ '.' :: b) = '.' :: b := by
  have hall : ∀ c ∈ a, decide (c ≠ '.') = true := by
    intro c hc
    rw [decide_eq_true_iff]
    rintro rfl
    exact ha hc
  rw [dotted, dropWhile_append_of_pos hall]
  simp

theorem slice_between {line a b c : Str} {i j : ℤ} (h : line = a ++ b ++ c) (hi : i = a.length)
    (hj : j = (a ++ b).length) : slice line i j = b := by
  rw [h, hi, hj, slice_middle]

theorem notMem_slice_last (j : ℤ) : '_' ∉ slice (a ++ ['\n']) (-1) j := by
  intro h
  rw [slice, clampIndex_last, drop_take, drop_left] at h
  exact absurd (mem_of_mem_take h) (by decide)

theorem name_end : ∃ nameEnd : ℤ,
    (if isIn "elements".toList e.defineLine then findNth e.defineLine "|".toList (-1)
      else some (find " ()".toList e.defineLine)) = some nameEnd ∧
    (isIn "elements".toList e.name.text = true → e.quoted = true →
      nameEnd = (e.front ++ e.name.text).length) ∧
    (isIn "elements".toList e.name.text = true → e.quoted = false →
      nameEnd = e.defineLine.length) ∧
    (isIn "elements".toList e.name.text = false →
      nameEnd = (e.front ++ e.name.text ++ e.bar).length) := by
  rw [e.isIn_defineLine (by decide) (by decide) (by decide)]
  by_cases hel : isIn "elements".toList e.name.text = true
  · rw [if_pos hel]
    cases hq : e.quoted with
    | true =>
      refine ⟨_, find_bar hq, fun _ _ => rfl, ?_, ?_⟩
      · exact fun _ h => absurd h (by decide)
      · exact fun h => absurd (hel.symm.trans h) (by decide)
    | false =>
      refine ⟨_, find_bar_absent hq, ?_, fun _ _ => rfl, ?_⟩
      · exact fun _ h => absurd h (by decide)
      · exact fun h => absurd (hel.symm.trans h) (by decide)
  · rw [if_neg hel]
    refine ⟨_, rfl, ?_, ?_, fun _ => find_arguments⟩
    · exact fun h => absurd h hel
    · exact fun h => absurd h hel

theorem readable_of_dot {a b : Str} (h : e.name.text = a ++ '.' :: b) (ha : '.' ∉ a) {nameEnd : ℤ}
    (hboth : isIn "elements".toList e.name.text = true → e.quoted = true →
      nameEnd = (e.front ++ e.name.text).length)
    (hbare : isIn "elements".toList e.name.text = true → e.quoted = false →
      nameEnd = e.defineLine.length)
    (hplain : isIn "elements".toList e.name.text = false →
      nameEnd = (e.front ++ e.name.text ++ e.bar).length) :
    (readLabel (slice e.defineLine (find ".".toList e.defineLine) nameEnd)).isSome = true ↔
      e.Readable := by
  have hline : e.defineLine =
      (e.front ++ a) ++ ('.' :: b) ++ (e.bar ++ (" ()".toList ++ e.ending)) := by
    rw [defineLine_eq, h]
    simp only [append_assoc]
  have hdotted : dotted e.name.text = '.' :: b := by
    rw [h, dotted_append ha]
  have hgood : e.quoted = isIn "elements".toList e.name.text →
      nameEnd = ((e.front ++ a) ++ ('.' :: b)).length →
      ((readLabel (slice e.defineLine (find ".".toList e.defineLine) nameEnd)).isSome = true ↔
        e.Readable) := by
    intro hq hend
    rw [slice_between hline (find_dot h ha) hend, readLabel_eq, Readable, hdotted, and_iff_right hq]
  have hbad : e.quoted ≠ isIn "elements".toList e.name.text →
      readLabel (slice e.defineLine (find ".".toList e.defineLine) nameEnd) = none →
      ((readLabel (slice e.defineLine (find ".".toList e.defineLine) nameEnd)).isSome = true ↔
        e.Readable) := by
    intro hq hnone
    rw [hnone]
    exact iff_of_false (by decide) fun hr => hq hr.1
  cases hel : isIn "elements".toList e.name.text with
  | true =>
    cases hq : e.quoted with
    | true =>
      apply hgood (hq.trans hel.symm)
      rw [hboth hel hq, h, append_assoc]
    | false =>
      apply hbad (by rw [hq, hel]; decide)
      -- the whole rest of the line is taken for the name
      obtain ⟨pre, c, hsort, hdigit, hc⟩ := e.value.sort_last
      have hwhole : e.defineLine = (e.front ++ a) ++
          (('.' :: b ++ e.bar ++ " () ".toList ++ pre) ++ c :: "\n".toList) ++ [] := by
        have hending : e.ending = " ".toList ++ (pre ++ [c]) ++ "\n".toList := by
          rw [ending, hsort]
        have hgroup : ∀ x y z u v w : Str, (x ++ a) ++ y ++ (z ++ (u ++ (v ++ (pre ++ [c]) ++ w))) =
            (x ++ a) ++ ((y ++ z ++ (u ++ v) ++ pre) ++ c :: w) ++ [] := by
          intro x y z u v w
          simp only [append_assoc, cons_append, nil_append, append_nil]
        rw [hline, hending]
        exact hgroup _ _ _ _ _ _
      rw [slice_between hwhole (find_dot h ha) (by
        rw [hbare hel hq]
        nth_rewrite 1 [hwhole]
        rw [append_nil])]
      exact readLabel_raises (by decide) hdigit hc
  | false =>
    cases hq : e.quoted with
    | true =>
      apply hbad (by rw [hq, hel]; decide)
      have hbar : e.bar = ['|'] := if_pos hq
      have hquoted : e.defineLine =
          (e.front ++ a) ++ ('.' :: b ++ ['|']) ++ (" ()".toList ++ e.ending) := by
        rw [hline, hbar]
        simp only [append_assoc]
      rw [slice_between hquoted (find_dot h ha) (by
        rw [hplain hel, h, hbar]
        simp only [append_assoc])]
      exact readLabel_raises (by decide) (by decide) (by decide)
    | false =>
      apply hgood (hq.trans hel.symm)
      have hbar : e.bar = [] := if_neg (by rw [hq]; decide)
      rw [hplain hel, h, hbar, append_nil, append_assoc]

theorem read_name : ∃ nameEnd : ℤ,
    (if isIn "elements".toList e.defineLine then findNth e.defineLine "|".toList (-1)
      else some (find " ()".toList e.defineLine)) = some nameEnd ∧
    ((readLabel (slice e.defineLine (find ".".toList e.defineLine) nameEnd)).isSome = true ↔
      e.Readable) := by
  obtain ⟨nameEnd, hend, hboth, hbare, hplain⟩ := e.name_end
  refine ⟨nameEnd, hend, ?_⟩
  by_cases hdot : '.' ∈ e.name.text
  · obtain ⟨a, b, heq, ha⟩ := eq_append_cons_of_mem hdot
    exact readable_of_dot heq ha hboth hbare hplain
  · have hline : '.' ∉ e.defineLine := by
      rw [defineLine_eq]
      simp only [mem_append, not_or]
      exact ⟨⟨e.notMem_front (by decide), hdot⟩, e.notMem_bar (by decide), by decide,
        e.notMem_ending (by decide) (by decide) (by decide)⟩
    have hfind : find ".".toList e.defineLine = -1 := by
      have hindex : index? ".".toList e.defineLine = none :=
        index?_eq_none_iff.mpr (not_isIn_of_notMem (c := '.') (by decide) hline)
      rw [find, hindex]
    have hbreak : ∃ pre, e.defineLine = pre ++ ['\n'] := by
      refine ⟨e.front ++ e.name.text ++
        (e.bar ++ (" ()".toList ++ (" ".toList ++ e.value.sort))), ?_⟩
      rw [defineLine_eq, ending]
      simp only [append_assoc]
      rfl
    obtain ⟨pre, hpre⟩ := hbreak
    rw [hfind, hpre, readLabel_of_notMem (notMem_slice_last nameEnd)]
    refine iff_of_false (by decide) fun hr => ?_
    have hmem := hr.2.1
    rw [dotted_of_notMem hdot] at hmem
    cases hmem

end Entry

theorem scanLines_skip (h : isPacketLine line = false) (rest : List Str) (s : Scan) :
    scanLines (line :: rest) s = scanLines rest (s.verdictLine line) := by
  cases rest with
  | nil =>
    change (if isPacketLine line then (s.verdictLine line).variableLine line [] else _) = _
    rw [h, if_neg Bool.false_ne_true, scanLines]
  | cons value rest => rw [scanLines, h, if_neg Bool.false_ne_true]

theorem verdictLine_none (h : isIn "sat".toList line = false) (s : Scan) :
    s.verdictLine line = s := by
  have hunsat : isIn "unsat".toList line = false := by
    rw [Bool.eq_false_iff] at h ⊢
    intro hu
    exact h (isIn_iff.mpr (List.IsInfix.trans ⟨['u', 'n'], [], by decide⟩ (isIn_iff.mp hu)))
  rw [Scan.verdictLine, hunsat, if_neg Bool.false_ne_true, h, if_neg Bool.false_ne_true]

theorem verdictLine_longer (h : isIn "sat".toList line = true) (s : Scan) :
    s.result.length < (s.verdictLine line).result.length := by
  rw [Scan.verdictLine]
  split_ifs with hunsat
  · simp
  · simp

theorem Entry.firstNonBlank_valueLine : ∃ k, firstNonBlank e.valueLine = some k := by
  have hsome : (firstNonBlank e.valueLine).isSome = true := by
    rw [firstNonBlank, findIdx?_isSome, any_eq_true]
    refine ⟨')', ?_, by decide⟩
    exact mem_append_right _ mem_cons_self
  exact Option.isSome_iff_exists.mp hsome

/-- What the two lines of an entry do to the scan. -/
inductive Effect (s : Scan) (rest : List Str) (r : Option Scan) : Prop → Prop where
  | kept {clear : Prop} (t : Scan) (h : clear) (hresult : t.result = s.result)
      (hr : r = scanLines rest t) : Effect s rest r clear
  | longer {clear : Prop} (t : Scan) (h : ¬clear) (hresult : s.result.length < t.result.length)
      (hr : r = scanLines rest t) : Effect s rest r clear
  | raises {clear : Prop} (h : ¬clear) (hr : r = none) : Effect s rest r clear

theorem Entry.scan_packet (hpacket : isPacketLine e.name.text = true) (rest : List Str) (s : Scan) :
    (e.Readable ∧ ∃ t, t.result = (s.verdictLine e.defineLine).result ∧
      scanLines (e.lines ++ rest) s = scanLines rest t) ∨
    (¬e.Readable ∧ scanLines (e.lines ++ rest) s = none) := by
  obtain ⟨k, hvalue⟩ := e.firstNonBlank_valueLine
  obtain ⟨nameEnd, hend, hread⟩ := e.read_name
  have hresult := variableLine_result (s := s.verdictLine e.defineLine) hend rfl hvalue
  have hscan : scanLines (e.lines ++ rest) s =
      ((s.verdictLine e.defineLine).variableLine e.defineLine e.valueLine).bind
        (scanLines rest) := by
    change scanLines (e.defineLine :: e.valueLine :: rest) s = _
    rw [scanLines, e.isPacketLine_defineLine, hpacket, if_pos rfl]
  by_cases hreadable : e.Readable
  · obtain ⟨label, hlabel⟩ := Option.isSome_iff_exists.mp (hread.mpr hreadable)
    rw [hlabel, Option.map_some, Option.map_eq_some_iff] at hresult
    obtain ⟨t, ht, hsame⟩ := hresult
    exact Or.inl ⟨hreadable, t, hsame, by rw [hscan, ht, Option.bind_some]⟩
  · have hnone : readLabel (slice e.defineLine (find ".".toList e.defineLine) nameEnd) = none := by
      rw [← Option.not_isSome_iff_eq_none]
      exact fun h => hreadable (hread.mp h)
    rw [hnone, Option.map_none, Option.map_eq_none_iff] at hresult
    exact Or.inr ⟨hreadable, by rw [hscan, hresult, Option.bind_none]⟩

theorem Entry.scan_effect (rest : List Str) (s : Scan) :
    Effect s rest (scanLines (e.lines ++ rest) s) e.Clear := by
  have hline : isIn "sat".toList e.defineLine = isIn "sat".toList e.name.text :=
    e.isIn_defineLine (by decide) (by decide) (by decide)
  by_cases hpacket : isPacketLine e.name.text = true
  · rcases e.scan_packet hpacket rest s with ⟨hreadable, t, ht, hr⟩ | ⟨hreadable, hr⟩
    · cases hsat : isIn "sat".toList e.name.text with
      | true =>
        refine .longer t (fun h => absurd (hsat.symm.trans h.1) (by decide)) ?_ hr
        rw [ht]
        exact verdictLine_longer (hline.trans hsat) s
      | false =>
        refine .kept t ⟨hsat, fun _ => hreadable⟩ ?_ hr
        rw [ht, verdictLine_none (hline.trans hsat)]
    · exact .raises (fun h => hreadable (h.2 hpacket)) hr
  · have hscan : scanLines (e.lines ++ rest) s = scanLines rest (s.verdictLine e.defineLine) := by
      have hdefine : isPacketLine e.defineLine = false := by
        rw [e.isPacketLine_defineLine]
        exact Bool.eq_false_iff.mpr hpacket
      change scanLines (e.defineLine :: e.valueLine :: rest) s = _
      rw [scanLines_skip hdefine, scanLines_skip e.isPacketLine_valueLine,
        verdictLine_none e.isIn_valueLine]
    cases hsat : isIn "sat".toList e.name.text with
    | true =>
      refine .longer _ (fun h => absurd (hsat.symm.trans h.1) (by decide)) ?_ hscan
      exact verdictLine_longer (hline.trans hsat) s
    | false =>
      refine .kept _ ⟨hsat, fun h => absurd h hpacket⟩ ?_ hscan
      rw [verdictLine_none (hline.trans hsat)]

theorem scan_entries (entries : List Entry) (rest : List Str) (s : Scan) :
    Effect s rest (scanLines (entries.flatMap Entry.lines ++ rest) s) (∀ e ∈ entries, e.Clear) := by
  induction entries generalizing s with
  | nil => exact .kept s (by simp) rfl rfl
  | cons e entries ih =>
    rw [flatMap_cons, append_assoc]
    have hhead : ¬e.Clear → ¬∀ d ∈ e :: entries, d.Clear := fun h hall =>
      h (hall e mem_cons_self)
    have htail : (¬∀ d ∈ entries, d.Clear) → ¬∀ d ∈ e :: entries, d.Clear := fun h hall =>
      h fun d hd => hall d (mem_cons_of_mem e hd)
    cases e.scan_effect (entries.flatMap Entry.lines ++ rest) s with
    | kept t he ht hr =>
      rw [hr]
      cases ih t with
      | kept u h hu hr' => exact .kept u (forall_mem_cons.mpr ⟨he, h⟩) (hu.trans ht) hr'
      | longer u h hu hr' => exact .longer u (htail h) (ht ▸ hu) hr'
      | raises h hr' => exact .raises (htail h) hr'
    | longer t he ht hr =>
      rw [hr]
      cases ih t with
      | kept u h hu hr' => exact .longer u (hhead he) (hu ▸ ht) hr'
      | longer u h hu hr' => exact .longer u (hhead he) (ht.trans hu) hr'
      | raises h hr' => exact .raises (hhead he) hr'
    | raises he hr => exact .raises (hhead he) hr

theorem header_plain (older : Bool) : isPacketLine (Output.header older) = false ∧
    isIn "sat".toList (Output.header older) = false := by
  cases older <;> decide

theorem processOutput_sat (mapping : Dict Str Str) (older : Bool) (entries : List Entry) :
    (processOutput mapping (Output.sat older entries).text).map Prod.fst = some "SAT".toList ↔
      ∀ e ∈ entries, e.Clear := by
  have hclose : ∀ t : Scan, scanLines [")\n".toList] t = some t := by
    intro t
    rw [scanLines_skip (by decide), verdictLine_none (by decide), scanLines]
  have hfirst : ({} : Scan).verdictLine "sat\n".toList = { result := "SAT".toList } := by decide
  have hscan : (processOutput mapping (Output.sat older entries).text).map Prod.fst =
      (scanLines (entries.flatMap Entry.lines ++ [")\n".toList])
        { result := "SAT".toList }).map Scan.result := by
    rw [processOutput, Output.readLines_text, Output.lines, scanLines_skip (by decide), hfirst,
      scanLines_skip (header_plain older).1, verdictLine_none (header_plain older).2,
        Option.map_map]
    rfl
  rw [hscan]
  cases scan_entries entries [")\n".toList] { result := "SAT".toList } with
  | kept t h ht hr =>
    rw [hr, hclose, Option.map_some, ht]
    exact iff_of_true rfl h
  | longer t h ht hr =>
    rw [hr, hclose, Option.map_some]
    refine iff_of_false (fun heq => ?_) h
    rw [Option.some.inj heq] at ht
    exact absurd ht (Nat.lt_irrefl _)
  | raises h hr =>
    rw [hr]
    exact iff_of_false (by decide) h

theorem processOutput_unsat (mapping : Dict Str Str) :
    (processOutput mapping Output.unsat.text).map Prod.fst = some "UNSAT".toList := by
  have hscan : scanLines ["unsat\n".toList] {} = some { result := "UNSAT".toList } := by decide
  rw [processOutput, Output.readLines_text, Output.lines, hscan]
  rfl

theorem extractSimple_normal {file r : Str} (h : (processOutput mapping file).map Prod.fst = some r)
    (hr : r = "SAT".toList ∨ r = "UNSAT".toList) :
    extractSimple .normal mapping file [] = some (r ++ "\n".toList) := by
  obtain ⟨⟨r', assigns⟩, hout, rfl⟩ := Option.map_eq_some_iff.mp h
  rw [extractSimple, hout, Option.map_some]
  dsimp only at hr ⊢
  rcases hr with rfl | rfl
  · rw [if_neg (by decide), if_pos rfl]
    rfl
  · rw [if_pos rfl]
    rfl

theorem checkCall_text (o : Output) : checkCall o.text = o.message := by
  rw [checkCall, Output.readLines_text]
  cases o with
  | sat older entries =>
    rw [Output.lines, checkCallLines, if_pos (by decide)]
    rfl
  | unsat => decide

theorem solveFlagLines_zero {lines : List Str} (h : ∀ l ∈ lines, isIn "unsat".toList l = false) :
    solveFlagLines 0 lines = 0 := by
  induction lines with
  | nil => rfl
  | cons l lines ih =>
    obtain ⟨hl, hlines⟩ := forall_mem_cons.mp h
    rw [solveFlagLines, hl, if_neg Bool.false_ne_true, ih hlines, ite_self]

theorem not_isIn_model (older : Bool) {entries : List Entry}
    (h : ∀ e ∈ entries, isIn "sat".toList e.name.text = false) :
    ∀ l ∈ Output.header older :: (entries.flatMap Entry.lines ++ [")\n".toList]),
      isIn "sat".toList l = false := by
  intro l hl
  rcases mem_cons.mp hl with rfl | hl
  · exact (header_plain older).2
  rcases mem_append.mp hl with hl | hl
  · obtain ⟨e, he, hl⟩ := mem_flatMap.mp hl
    rcases mem_cons.mp hl with rfl | hl
    · rw [e.isIn_defineLine (by decide) (by decide) (by decide)]
      exact h e he
    · rw [mem_singleton.mp hl]
      exact e.isIn_valueLine
  · rw [mem_singleton.mp hl]
    decide

/-- Every script takes an answer for what it is exactly when no variable of the model has a
verdict word in its name and `process_output` can read the variables of the packet. -/
theorem classified_iff_clear (mapping : Dict Str Str) (o : Output) :
    Classified mapping o ↔ o.Clear := by
  cases o with
  | unsat =>
    have hout := processOutput_unsat mapping
    exact iff_of_true ⟨by decide, by decide, by decide, hout,
      extractSimple_normal hout (Or.inr rfl)⟩
      trivial
  | sat older entries =>
    constructor
    · intro h
      exact (processOutput_sat mapping older entries).mp h.extraction
    · intro h
      have hout := (processOutput_sat mapping older entries).mpr h
      have hmodel := not_isIn_model older fun e he => (h e he).1
      have hunsat : ∀ l ∈ Output.header older :: (entries.flatMap Entry.lines ++ [")\n".toList]),
          isIn "unsat".toList l = false := by
        intro l hl
        have hl := hmodel l hl
        rw [Bool.eq_false_iff] at hl ⊢
        exact fun hu =>
          hl (isIn_iff.mpr (List.IsInfix.trans ⟨['u', 'n'], [], by decide⟩ (isIn_iff.mp hu)))
      refine ⟨⟨?_, ?_⟩, checkCall_text _, ?_, hout, extractSimple_normal hout (Or.inl rfl)⟩
      · rw [findInFile, Output.readLines_text, Output.lines, any_cons,
          any_eq_false.mpr fun l hl => by rw [hunsat l hl]; decide]
        rfl
      · rw [findInFile, Output.readLines_text, Output.lines, any_cons]
        rfl
      · rw [solveFlag, Output.readLines_text, Output.lines, solveFlagLines, if_neg (by decide),
          if_pos (by decide), solveFlagLines_zero hunsat]
        rfl

/-- A model that gives a value to a field whose name contains a verdict word. -/
def unsaturated : Output :=
  .sat false [⟨⟨".meta.unsaturated_0".toList, forall_chars (by decide)⟩, false, .bool true⟩]

/-- The loop takes the model for an unsatisfiable formula and nothing is recorded. -/
theorem counterexample_not_recorded :
    unsaturated.message = .sat ∧ checkCall unsaturated.text = .sat ∧
      findInFile unsaturated.text "unsat".toList = true ∧ solveFlag unsaturated.text = 1 ∧
      (processOutput [] unsaturated.text).map Prod.fst = some "SATUNSAT".toList ∧
      extractSimple .normal [] unsaturated.text [] = some [] ∧ ¬Classified [] unsaturated := by
  refine ⟨by decide, by decide, by decide, by decide, by decide, by decide, fun h => ?_⟩
  exact absurd h.loop.1 (by decide)

end VerdictScan
