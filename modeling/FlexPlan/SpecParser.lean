import FlexPlan.SpecLanguage
import FlexPlan.SynthesizerUtils

/-!
# Parsing a `define` block

Assumption lines are kept as they are, assertion lines are negated, and a line with a bare
connective says how the negated lines are joined.
-/
namespace SpecParser

open PythonText SynthesizerUtils ConditionText SpecLanguage List

inductive Kind where
  | and
  | or
  | unary
  deriving DecidableEq, Repr

def Kind.dual : Kind → Kind
  | .and => .or
  | .or => .and
  | .unary => .unary

/-- An entry of `entity_assert`. -/
inductive Entry where
  | items (texts : List Str) (kind : Kind)
  | concat (connective : Str)
  deriving DecidableEq, Repr

structure Entity where
  name : Str
  assumes : List (List Str × Kind)
  asserts : List Entry
  deriving DecidableEq, Repr

/-- The pieces of a line with one kind of connective; mixing them raises. -/
def pieces (string : Str) : Option (List Str × Kind) :=
  if isIn "&&".toList string && isIn "||".toList string then none
  else if isIn "&&".toList string then some (split " && ".toList string, .and)
  else if isIn "||".toList string then some (split " || ".toList string, .or)
  else some ([string], .unary)

def parseAssume (line : Str) : Option (List Str × Kind) := pieces (strip " ;\n".toList line)

def parseAssert (line : Str) : Option (List Entry) :=
  if !isIn ";".toList line || isIn "\x7d".toList line then
    if isIn "||".toList line then some [.concat " && ".toList]
    else if isIn "&&".toList line then some [.concat " || ".toList]
    else some []
  else if isIn "!(".toList line then
    (pieces (slice (strip " !;\n".toList line) 1 (-1))).map fun p => [.items p.1 p.2]
  else
    (pieces (strip " ;\n".toList line)).bind fun p =>
      (reverseOp p.1).map fun reversed => [.items reversed p.2.dual]

/-- The variables of the loop; the flag is `none` before the header line. -/
structure Scan where
  entity : Entity
  behindArrow : Option Bool
  deriving DecidableEq, Repr

def parseLine (s : Scan) (line : Str) : Option Scan :=
  if isIn "\x7b".toList line && isIn "define".toList line then
    (split " ".toList (strip " =\x7b\n".toList line))[1]?.map fun name =>
      ⟨{ s.entity with name := name }, some false⟩
  else
    match s.behindArrow with
    | some false =>
      if isIn "=>".toList line then some { s with behindArrow := some true }
      else if !isIn ";".toList line then some s
      else (parseAssume line).map fun a =>
        { s with entity := { s.entity with assumes := s.entity.assumes ++ [a] } }
    | some true => (parseAssert line).map fun es =>
        { s with entity := { s.entity with asserts := s.entity.asserts ++ es } }
    | none => some s

def parseEntity (entity : List Str) : Option Entity :=
  (entity.foldlM parseLine ⟨⟨[], [], []⟩, none⟩).map Scan.entity

/-- An entry whose texts are literals. -/
inductive Part where
  | line (c : Clause)
  | connective (c : Connective)

def kind (c : Clause) : Kind :=
  if c.rest.isEmpty then .unary else
    match c.connective with
    | .and => .and
    | .or => .or

def clauseTexts (c : Clause) : List Str := c.literals.map fun l => (raw l).text

def Part.entry : Part → Entry
  | .line c => .items (clauseTexts c) (kind c)
  | .connective c => .concat c.text

/-- A parsed block whose texts are literals. -/
structure Parsed where
  name : Str
  assumes : List Clause
  parts : List Part

def Parsed.entity (p : Parsed) : Entity :=
  ⟨p.name, p.assumes.map fun c => (clauseTexts c, kind c), p.parts.map Part.entry⟩

def Part.line? : Part → Option Clause
  | .line c => some c
  | .connective _ => none

def Part.next (c : Connective) : Part → Connective
  | .line _ => c
  | .connective d => d

def Parsed.lines (p : Parsed) : List Clause := p.parts.filterMap Part.line?

def Parsed.connective (p : Parsed) : Connective := p.parts.foldl Part.next .or

def part : Item → Part
  | .assertion a => .line a.violation
  | .separator c => .connective c.dual

def parsed (b : Block) : Parsed := ⟨b.name, b.assumes, b.items.map part⟩

section Literals

theorem reverseLiteral_eq (t : Term) {text rest : Str} (h : text = t.text ++ rest) :
    reverseLiteral text =
      if isIn "!=".toList text then
        some (slice text 0 (find "!=".toList text) ++ "==".toList ++
          sliceFrom text (find "!=".toList text + 2))
      else if isIn "==".toList text then
        some (slice text 0 (find "==".toList text) ++ "!=".toList ++
          sliceFrom text (find "==".toList text + 2))
      else some ('!' :: text) := by
  obtain ⟨c, s, hs, -⟩ := t.isTerm.head
  have hbang : c ≠ '!' := by
    rintro rfl
    exact t.notMem (c := '!') (by decide) (hs ▸ mem_cons_self)
  rw [h, hs, cons_append]
  simp only [reverseLiteral]
  rw [if_neg hbang]

theorem reverseLiteral_truth (t : Term) : reverseLiteral t.text = some ('!' :: t.text) := by
  have hno : ∀ needle : Str, '=' ∈ needle → isIn needle t.text = false := fun needle h =>
    not_isIn_of_notMem h (t.notMem (by decide))
  rw [reverseLiteral_eq t (append_nil _).symm,
    if_neg (Bool.eq_false_iff.mp (hno _ (by decide))),
    if_neg (Bool.eq_false_iff.mp (hno _ (by decide)))]

theorem exchange_operator (new : Str) (ha : x ∉ a) (hx : x ≠ ' ') :
    isIn [x, y] (a ++ [' ', x, y, ' '] ++ b) = true ∧
    slice (a ++ [' ', x, y, ' '] ++ b) 0 (find [x, y] (a ++ [' ', x, y, ' '] ++ b)) ++ new ++
      sliceFrom (a ++ [' ', x, y, ' '] ++ b) (find [x, y] (a ++ [' ', x, y, ' '] ++ b) + 2) =
    a ++ (' ' :: new ++ " ".toList) ++ b := by
  have hsplit : a ++ [' ', x, y, ' '] ++ b = (a ++ [' ']) ++ [x, y] ++ (' ' :: b) := by simp
  have hmem : x ∉ a ++ [' '] := by simp [ha, hx]
  have hindex := index?_append (t := [y]) hmem (' ' :: b)
  have hfind : find [x, y] ((a ++ [' ']) ++ [x, y] ++ (' ' :: b)) = (a ++ [' ']).length := by
    rw [find, hindex]
  have hbehind : ((a ++ [' ']).length + 2 : ℤ) = ((a ++ [' '] ++ [x, y]).length : ℕ) := by
    simp only [length_append, length_cons, length_nil]
    omega
  rw [hsplit]
  constructor
  · exact isIn_append_left (isIn_append_right _ (isIn_iff.mpr (infix_refl _))) _
  · rw [hfind, hbehind, sliceFrom_right, append_assoc (a ++ [' ']), slice_left]
    simp

theorem reverseLiteral_different (a b : Term) :
    reverseLiteral (a.text ++ " != ".toList ++ b.text) =
      some (a.text ++ " == ".toList ++ b.text) := by
  obtain ⟨hin, hnew⟩ := exchange_operator (a := a.text) (b := b.text) (y := '=') "==".toList
    (a.notMem (c := '!') (by decide)) (by decide)
  rw [reverseLiteral_eq a (append_assoc _ _ _)]
  exact (if_pos hin).trans (congrArg some hnew)

theorem reverseLiteral_equal (a b : Term) :
    reverseLiteral (a.text ++ " == ".toList ++ b.text) =
      some (a.text ++ " != ".toList ++ b.text) := by
  obtain ⟨hin, hnew⟩ := exchange_operator (a := a.text) (b := b.text) (y := '=') "!=".toList
    (a.notMem (c := '=') (by decide)) (by decide)
  have hdiff : isIn "!=".toList (a.text ++ " == ".toList ++ b.text) = false := by
    refine not_isIn_of_notMem (c := '!') (by decide) fun h => ?_
    rcases mem_append.mp h with h | h
    · rcases mem_append.mp h with h | h
      · exact a.notMem (by decide) h
      · exact absurd h (by decide)
    · exact b.notMem (by decide) h
  rw [reverseLiteral_eq a (append_assoc _ _ _), if_neg (Bool.eq_false_iff.mp hdiff)]
  exact (if_pos hin).trans (congrArg some hnew)

theorem reverseLiteral_text (l : Literal Term) :
    reverseLiteral (raw l).text = some (raw l.negate).text := by
  obtain ⟨positive, shape⟩ := l
  cases shape with
  | unary t =>
    cases positive with
    | true => exact reverseLiteral_truth t
    | false => rfl
  | equal a b =>
    cases positive with
    | true => exact reverseLiteral_equal a b
    | false => exact reverseLiteral_different a b

theorem reverseOp_clause (c : Clause) :
    reverseOp (clauseTexts c) = some (clauseTexts c.negate) := by
  have hlist : ∀ ls : List (Literal Term), (ls.map fun l => (raw l).text).mapM reverseLiteral =
      some ((ls.map Literal.negate).map fun l => (raw l).text) := by
    intro ls
    induction ls with
    | nil => rfl
    | cons l ls ih =>
      rw [map_cons, mapM_cons, reverseLiteral_text, ih]
      rfl
  exact hlist c.literals

end Literals

section Lines

theorem kind_negate (c : Clause) : kind c.negate = (kind c).dual := by
  obtain ⟨first, rest, conn⟩ := c
  cases rest with
  | nil => rfl
  | cons l ls => cases conn <;> rfl

theorem isIn_word (c : Connective) : isIn c.word c.text = true := by
  cases c <;> decide

theorem pieces_text (c : Clause) : pieces c.text = some (clauseTexts c, kind c) := by
  have habsent : ∀ x ∈ "&|".toList, x ∉ c.connective.text → x ∉ c.text := by
    intro x hx hc h
    rcases c.mem_text h with h | ⟨l, -, h⟩
    · exact hc h
    · exact literal_notMem l (mem_append_left ";\x7b\x7d>\n".toList hx) h
  have hparts : ∀ x ∈ "&|".toList, ∀ p ∈ clauseTexts c, x ∉ p := by
    intro x hx p hp
    obtain ⟨l, -, rfl⟩ := mem_map.mp hp
    exact literal_notMem l (mem_append_left ";\x7b\x7d>\n".toList hx)
  obtain ⟨first, rest, conn⟩ := c
  cases rest with
  | nil =>
    have htext : Clause.text ⟨first, [], conn⟩ = (raw first).text := by
      simp [Clause.text, Clause.literals, join]
    have hand : isIn "&&".toList (raw first).text = false :=
      not_isIn_of_notMem (c := '&') (by decide) (literal_notMem first (by decide))
    have hor : isIn "||".toList (raw first).text = false :=
      not_isIn_of_notMem (c := '|') (by decide) (literal_notMem first (by decide))
    rw [htext, pieces, hand, hor]
    rfl
  | cons l ls =>
    have hword : isIn conn.word (Clause.text ⟨first, l :: ls, conn⟩) = true := by
      rw [Clause.text, Clause.literals, map_cons, map_cons, join, intercalate_cons_cons]
      exact isIn_append_left (isIn_append_right _ (isIn_word conn)) _
    have hne : clauseTexts ⟨first, l :: ls, conn⟩ ≠ [] := cons_ne_nil _ _
    cases conn with
    | and =>
      have hor : isIn "||".toList (Clause.text ⟨first, l :: ls, .and⟩) = false :=
        not_isIn_of_notMem
          (by decide) (habsent '|' (by decide) (show '|' ∉ Connective.and.text by decide))
      have hsplit := split_join (t := "& ".toList)
        (by decide : '&' ≠ ' ') hne (hparts '&' (by decide))
      rw [pieces, hor, Bool.and_false, if_neg (by decide)]
      exact (if_pos hword).trans (congrArg (fun s => some (s, Kind.and)) hsplit)
    | or =>
      have hand : isIn "&&".toList (Clause.text ⟨first, l :: ls, .or⟩) = false :=
        not_isIn_of_notMem
          (by decide) (habsent '&' (by decide) (show '&' ∉ Connective.or.text by decide))
      have hsplit := split_join (t := "| ".toList)
        (by decide : '|' ≠ ' ') hne (hparts '|' (by decide))
      rw [pieces, hand, Bool.false_and, if_neg (by decide), if_neg (by decide)]
      exact (if_pos hword).trans (congrArg (fun s => some (s, Kind.or)) hsplit)

variable (l : Layout)

theorem strip_line (pre core : Str) (hchars : ∀ c ∈ " ;\n".toList, c ∈ chars)
    (hpre : ∀ c ∈ pre, c ∈ chars)
    (hhead : ∀ c, core.head? = some c → c ∉ chars)
    (hlast : ∀ c, core.getLast? = some c → c ∉ chars) :
    strip chars (l.line (pre ++ core ++ ";".toList)) = core := by
  have hsplit : l.line (pre ++ core ++ ";".toList) =
      (blanks l.indent ++ pre) ++ core ++ (";".toList ++ (blanks l.trail ++ "\n".toList)) := by
    simp [Layout.line]
  have hblank : ∀ n, ∀ c ∈ blanks n, c ∈ chars := by
    intro n c hc
    rw [eq_of_mem_replicate hc]
    exact hchars _ (by decide)
  rw [hsplit]
  refine strip_padded ?_ ?_ hhead hlast
  · intro c hc
    rcases mem_append.mp hc with hc | hc
    · exact hblank _ c hc
    · exact hpre c hc
  · intro c hc
    rcases mem_append.mp hc with hc | hc
    · rw [mem_singleton.mp hc]
      exact hchars _ (by decide)
    · rcases mem_append.mp hc with hc | hc
      · exact hblank _ c hc
      · rw [mem_singleton.mp hc]
        exact hchars _ (by decide)

theorem strip_clause (c : Clause) :
    strip " ;\n".toList (l.line (c.text ++ ";".toList)) = c.text := by
  have hother : ∀ x, x ≠ ' ' → x ∈ c.text → x ∉ " ;\n".toList := by
    intro x hsp hx h
    have hx' : x ∉ ";\x7b\x7d>\n".toList := fun h => c.notMem h hx
    simp only [String.reduceToList, mem_cons, not_mem_nil, or_false] at h hx'
    tauto
  refine strip_line l [] c.text (fun _ h => h) (by simp) ?_ ?_
  · intro x hx
    obtain ⟨y, t, ht, hy⟩ := c.neat.head
    rw [ht] at hx
    cases hx
    refine hother _ ?_ (ht ▸ mem_cons_self)
    rintro rfl
    exact hy (by decide)
  · intro x hx
    obtain ⟨t, y, ht, hy⟩ := c.neat.last
    rw [ht, getLast?_concat] at hx
    cases hx
    exact hother _ hy (ht ▸ mem_append_right _ mem_cons_self)

theorem parseAssume_line (c : Clause) :
    parseAssume (l.line (c.text ++ ";".toList)) = some (clauseTexts c, kind c) := by
  rw [parseAssume, strip_clause, pieces_text]

theorem strip_negated (c : Clause) :
    slice (strip " !;\n".toList
      (l.line ("!(".toList ++ c.text ++ ")".toList ++ ";".toList))) 1 (-1) = c.text := by
  have hsplit : "!(".toList ++ c.text ++ ")".toList ++ ";".toList =
      ['!'] ++ ('(' :: c.text ++ [')']) ++ ";".toList := by simp
  rw [hsplit, strip_line l ['!'] _ (forall_chars (by decide)) (forall_chars (by decide)),
    slice_inner]
  · intro x hx
    cases hx
    decide
  · intro x hx
    rw [getLast?_concat] at hx
    cases hx
    decide

theorem parseAssert_line (text : Str) : parseAssert (l.line text) =
    if !isIn ";".toList text || isIn "\x7d".toList text then
      if isIn "||".toList text then some [.concat " && ".toList]
      else if isIn "&&".toList text then some [.concat " || ".toList]
      else some []
    else if isIn "!(".toList text then
      (pieces (slice (strip " !;\n".toList (l.line text)) 1 (-1))).map fun p => [.items p.1 p.2]
    else
      (pieces (strip " ;\n".toList (l.line text))).bind fun p =>
        (reverseOp p.1).map fun reversed => [.items reversed p.2.dual] := by
  have hline : ∀ needle : Str, Visible needle → isIn needle (l.line text) = isIn needle text :=
    fun _ h => l.isIn_line h text
  rw [parseAssert, hline ";".toList (by decide), hline "\x7d".toList (by decide),
    hline "||".toList (by decide), hline "&&".toList (by decide), hline "!(".toList (by decide)]

theorem assertion_notMem (a : Assertion) (hx : x ∈ "\x7b\x7d>\n".toList) :
    x ∉ a.text ++ ";".toList := by
  have hclause := a.clause.notMem (mem_cons_of_mem ';' hx)
  have hrest : x ∉ "!();".toList := by
    have hdisjoint : ∀ y ∈ "\x7b\x7d>\n".toList, y ∉ "!();".toList := forall_chars (by decide)
    exact hdisjoint x hx
  simp only [String.reduceToList, mem_cons, not_mem_nil, or_false, not_or] at hrest
  rw [Assertion.text]
  split_ifs <;> simp [hclause, hrest]

theorem parseAssert_assertion (a : Assertion) :
    parseAssert (l.line (a.text ++ ";".toList)) = some [(part (.assertion a)).entry] := by
  have hsemicolon : isIn ";".toList (a.text ++ ";".toList) = true := isIn_append_right _ (by decide)
  have hbrace : isIn "\x7d".toList (a.text ++ ";".toList) = false :=
    not_isIn_of_notMem (c := '\x7d') (by decide) (assertion_notMem a (by decide))
  rw [parseAssert_line, hsemicolon, hbrace, if_neg (by decide)]
  obtain ⟨c, negated⟩ := a
  cases negated with
  | true =>
    have hneg : isIn "!(".toList (Assertion.text ⟨c, true⟩ ++ ";".toList) = true :=
      isIn_append_left (isIn_append_left (isIn_append_left (by decide) _) _) _
    rw [if_pos hneg, Assertion.text_negated, strip_negated, pieces_text]
    rfl
  | false =>
    have hplain : isIn "!(".toList (c.text ++ ";".toList) = false := by
      have hpad : isIn "!(".toList ([] ++ c.text ++ ";".toList) = isIn "!(".toList c.text :=
        isIn_pad (by decide) (forall_chars (by decide)) (forall_chars (by decide)) c.text
      exact hpad.trans c.not_negated
    rw [Assertion.text_plain, if_neg (Bool.eq_false_iff.mp hplain), strip_clause, pieces_text,
      Option.bind_some, reverseOp_clause, Option.map_some, ← kind_negate]
    rfl

theorem parseAssert_body (i : Option Item) :
    parseAssert (l.line (bodyText i)) = some (i.toList.map fun i => (part i).entry) := by
  cases i with
  | none =>
    rw [parseAssert_line]
    rfl
  | some i =>
    cases i with
    | assertion a => exact parseAssert_assertion l a
    | separator c =>
      rw [parseAssert_line]
      cases c <;> rfl

end Lines

section Blocks

def Scan.addAssumes (s : Scan) (as : List (List Str × Kind)) : Scan :=
  { s with entity := { s.entity with assumes := s.entity.assumes ++ as } }

def Scan.addAsserts (s : Scan) (es : List Entry) : Scan :=
  { s with entity := { s.entity with asserts := s.entity.asserts ++ es } }

variable {s : Scan} {line : Str}

theorem parseLine_before (hs : s.behindArrow = some false)
    (hbrace : isIn "\x7b".toList line = false) :
    parseLine s line =
      if isIn "=>".toList line then some { s with behindArrow := some true }
      else if !isIn ";".toList line then some s
      else (parseAssume line).map fun a => s.addAssumes [a] := by
  obtain ⟨entity, behindArrow⟩ := s
  cases hs
  rw [parseLine, hbrace, Bool.false_and, if_neg (by decide)]
  rfl

theorem parseLine_behind (hs : s.behindArrow = some true)
    (hbrace : isIn "\x7b".toList line = false) :
    parseLine s line = (parseAssert line).map s.addAsserts := by
  obtain ⟨entity, behindArrow⟩ := s
  cases hs
  rw [parseLine, hbrace, Bool.false_and, if_neg (by decide)]
  rfl

theorem parseLine_header (b : Block) (s : Scan) :
    parseLine s (b.header.line ("define ".toList ++ b.name ++ " = \x7b".toList)) =
      some ⟨{ s.entity with name := b.name }, some false⟩ := by
  have hbrace : isIn "\x7b".toList
      (b.header.line ("define ".toList ++ b.name ++ " = \x7b".toList)) = true := by
    rw [b.header.isIn_line (by decide)]
    exact isIn_append_right _ (by decide)
  have hdefine : isIn "define".toList
      (b.header.line ("define ".toList ++ b.name ++ " = \x7b".toList)) = true := by
    rw [b.header.isIn_line (by decide)]
    exact isIn_append_left (isIn_append_left (by decide) _) _
  have hstrip : strip " =\x7b\n".toList
      (b.header.line ("define ".toList ++ b.name ++ " = \x7b".toList)) = "define".toList ++ ' ' ::
        b.name := by
    have hsplit : b.header.line ("define ".toList ++ b.name ++ " = \x7b".toList) =
        blanks b.header.indent ++ ("define".toList ++ ' ' :: b.name) ++
          (" = \x7b".toList ++ (blanks b.header.trail ++ "\n".toList)) := by
      simp [Layout.line]
    have hblank : ∀ n, ∀ c ∈ blanks n, c ∈ " =\x7b\n".toList := by
      intro n c hc
      rw [eq_of_mem_replicate hc]
      decide
    rw [hsplit]
    refine strip_padded (hblank _) ?_ ?_ ?_
    · intro c hc
      have hclosing : ∀ c ∈ " = \x7b".toList, c ∈ " =\x7b\n".toList := forall_chars (by decide)
      rcases mem_append.mp hc with hc | hc
      · exact hclosing c hc
      · rcases mem_append.mp hc with hc | hc
        · exact hblank _ c hc
        · rw [mem_singleton.mp hc]
          decide
    · intro c hc
      cases hc
      decide
    · intro c hc
      have hlast : ("define".toList ++ ' ' :: b.name).getLast? = b.name.getLast? := by
        rw [getLast?_append_cons, getLast?_cons_of_ne_nil b.name_ne_nil]
      rw [hlast] at hc
      exact b.name_chars c (mem_of_getLast? hc)
  have hsplit : split " ".toList ("define".toList ++ ' ' :: b.name) =
      ["define".toList, b.name] := by
    have hname : ' ' ∉ b.name := fun h => b.name_chars _ h (by decide)
    rw [show " ".toList = [' '] from rfl, split_append_char, split_of_notMem hname]
    rfl
  rw [parseLine, hbrace, hdefine, hstrip, hsplit]
  rfl

theorem assumeText_notMem (c : Option Clause) (hx : x ∈ "\x7b\x7d>\n".toList) :
    x ∉ assumeText c := by
  cases c with
  | none => exact not_mem_nil
  | some c =>
    intro h
    rcases mem_append.mp h with h | h
    · exact c.notMem (mem_cons_of_mem ';' hx) h
    · have hne : ∀ y ∈ "\x7b\x7d>\n".toList, y ∉ ";".toList := forall_chars (by decide)
      exact hne x hx h

theorem parseLine_assume (hs : s.behindArrow = some false) (l : Layout) (c : Option Clause) :
    parseLine s (l.line (assumeText c)) =
      some (s.addAssumes (c.toList.map fun c => (clauseTexts c, kind c))) := by
  have hbrace : isIn "\x7b".toList (l.line (assumeText c)) = false := by
    rw [l.isIn_line (by decide)]
    exact not_isIn_of_notMem (c := '\x7b') (by decide) (assumeText_notMem c (by decide))
  have harrow : isIn "=>".toList (l.line (assumeText c)) = false := by
    rw [l.isIn_line (by decide)]
    exact not_isIn_of_notMem (c := '>') (by decide) (assumeText_notMem c (by decide))
  rw [parseLine_before hs hbrace, harrow, if_neg (by decide), l.isIn_line (by decide)]
  cases c with
  | none => simp [assumeText, isIn, Scan.addAssumes]
  | some c =>
    have hsemicolon : isIn ";".toList (assumeText (some c)) = true :=
      isIn_append_right _ (by decide)
    have hline : parseAssume (l.line (assumeText (some c))) = some (clauseTexts c, kind c) :=
      parseAssume_line l c
    rw [hsemicolon, if_neg (by decide), hline]
    rfl

theorem bodyText_notMem (i : Option Item) : '\x7b' ∉ bodyText i := by
  cases i with
  | none => exact not_mem_nil
  | some i =>
    cases i with
    | assertion a => exact assertion_notMem a (by decide)
    | separator c => cases c <;> decide

theorem parseLine_body (hs : s.behindArrow = some true) (l : Layout) (i : Option Item) :
    parseLine s (l.line (bodyText i)) =
      some (s.addAsserts (i.toList.map fun i => (part i).entry)) := by
  have hbrace : isIn "\x7b".toList (l.line (bodyText i)) = false := by
    rw [l.isIn_line (by decide)]
    exact not_isIn_of_notMem (c := '\x7b') (by decide) (bodyText_notMem i)
  rw [parseLine_behind hs hbrace, parseAssert_body, Option.map_some]

theorem parseLine_arrow (hs : s.behindArrow = some false) (l : Layout) :
    parseLine s (l.line "=>".toList) = some { s with behindArrow := some true } := by
  have harrow : isIn "=>".toList (l.line "=>".toList) = true := by
    rw [l.isIn_line (by decide)]
    decide
  have hbrace : isIn "\x7b".toList (l.line "=>".toList) = false := by
    rw [l.isIn_line (by decide)]
    decide
  rw [parseLine_before hs hbrace, if_pos harrow]

theorem parseLine_footer (hs : s.behindArrow = some true) (l : Layout) :
    parseLine s (l.line "\x7d".toList) = some s := by
  have hbrace : isIn "\x7b".toList (l.line "\x7d".toList) = false := by
    rw [l.isIn_line (by decide)]
    decide
  rw [parseLine_behind hs hbrace, parseAssert_line]
  simp [isIn, Scan.addAsserts]

theorem parse_next (h : parseLine s line = some t) (rest : List Str) :
    (line :: rest).foldlM parseLine s = rest.foldlM parseLine t := by
  rw [foldlM_cons, h]
  rfl

theorem parse_then {lines : List Str} (h : lines.foldlM parseLine s = some t)
    (rest : List Str) : (lines ++ rest).foldlM parseLine s = rest.foldlM parseLine t := by
  rw [foldlM_append, h]
  rfl

theorem parse_assumes (hs : s.behindArrow = some false) (ls : List (Layout × Option Clause)) :
    (ls.map fun l => l.1.line (assumeText l.2)).foldlM parseLine s =
      some (s.addAssumes ((ls.filterMap Prod.snd).map fun c => (clauseTexts c, kind c))) := by
  induction ls generalizing s with
  | nil => simp [Scan.addAssumes]
  | cons l ls ih =>
    rw [map_cons, parse_next (parseLine_assume hs _ _)]
    refine (ih (s := s.addAssumes _) hs).trans ?_
    cases h : l.2 <;> simp [Scan.addAssumes, h]

theorem parse_body (hs : s.behindArrow = some true) (ls : List (Layout × Option Item)) :
    (ls.map fun l => l.1.line (bodyText l.2)).foldlM parseLine s =
      some (s.addAsserts ((ls.filterMap Prod.snd).map fun i => (part i).entry)) := by
  induction ls generalizing s with
  | nil => simp [Scan.addAsserts]
  | cons l ls ih =>
    rw [map_cons, parse_next (parseLine_body hs _ _)]
    refine (ih (s := s.addAsserts _) hs).trans ?_
    cases h : l.2 <;> simp [Scan.addAsserts, h]

theorem parse_lines (b : Block) : parseEntity b.lines = some (parsed b).entity := by
  rw [parseEntity, Block.lines, parse_next (parseLine_header b _), parse_then (parse_assumes rfl _),
    parse_next (parseLine_arrow rfl _), parse_then (parse_body rfl _),
    parse_next (parseLine_footer rfl _)]
  show some _ = some _
  simp [Scan.addAssumes, Scan.addAsserts, Parsed.entity, parsed, Block.assumes, Block.items]

end Blocks

end SpecParser
