import FlexPlan.StatementText

/-!
# Expanding update annotations

`annotation_expand.py` replaces the annotations `@add(x)`, `@del(x)`, `@mod(x, old)` and
`@mod(x, new)` in front of blocks by tests of the version bit of `x`, line by line.
-/
namespace AnnotationExpand

open PythonText StatementText List

section Script

inductive Change where
  | add
  | delete
  | change
  deriving DecidableEq

def testText (version bit : Str) : Str :=
  "hdr.version.version_".toList ++ version ++ " == ".toList ++ bit

/-- One round of the loop of `expand_annotations`. -/
def expandLine (line : Str) : Str × Option (Str × Change) :=
  let tableNameStart := find "@".toList line
  let blockName := sliceFrom line (find "\x7b".toList line)
  let branch := fun version bit => List.replicate tableNameStart.toNat ' ' ++
    ("if (".toList ++ testText version bit ++ ") ".toList ++ blockName)
  if isIn "@add".toList line then
    let version := slice line (find "@add(".toList line + 5) (find ")".toList line)
    (branch version "1w1".toList, some (version, .add))
  else if isIn "@del".toList line then
    let version := slice line (find "@del(".toList line + 5) (find ")".toList line)
    (branch version "1w0".toList, some (version, .delete))
  else if isIn "@mod".toList line && isIn "old)".toList line then
    let version := slice line (find "@mod(".toList line + 5) (find ", old".toList line)
    (branch version "1w0".toList, some (version, .change))
  else if isIn "@mod".toList line && isIn "new)".toList line then
    let version := slice line (find "@mod(".toList line + 5) (find ", new".toList line)
    (branch version "1w1".toList, some (version, .change))
  else (line, none)

def record (d : Dict Str Change) : Option (Str × Change) → Dict Str Change
  | some (version, c) => d.set version c
  | none => d

/-- The text of `-clean-var.p4` and the dictionary of components. -/
def expandAnnotations (text : Str) : Str × Dict Str Change :=
  ((readLines text).flatMap fun l => (expandLine l).1,
    (readLines text).foldl (fun d l => record d (expandLine l).2) [])

def headerFields (items : List Str) : Str :=
  items.flatMap fun item => "    bit<1> version_".toList ++ item ++ ";\n".toList

def metaFields (items : List Str) : Str :=
  items.flatMap fun item => "    bit<32> version_".toList ++ item ++ ";\n".toList

def metadataFields : List Str → ℤ → Str
  | [], _ => []
  | item :: items, i => "    bit<32>   _meta_version_".toList ++ item ++ ofInt i ++ ";\n".toList ++
      metadataFields items (i + 1)

def headerStart : Str := "header version_t \x7b".toList

def metaStart : Str := "struct meta_t".toList

def metadataStart : Str := "struct metadata \x7b".toList

/-- The loop of `enforce_changes`. The first argument is the index inside
`struct metadata`; a struct that is not closed makes the loop read behind the file. -/
def enforceLines (items : List Str) : Option ℤ → List Str → Option Str
  | none, [] => some []
  | some _, [] => none
  | none, l :: ls =>
    if isIn headerStart l then
      (enforceLines items none ls).map (l ++ headerFields items ++ ·)
    else if isIn metaStart l then
      (enforceLines items none ls).map (l ++ metaFields items ++ ·)
    else if isIn metadataStart l then
      if l.head? = some '\x7d' then
        (enforceLines items none ls).map (metadataFields items (-1) ++ l ++ ·)
      else (enforceLines items (some 0) ls).map (l ++ ·)
    else (enforceLines items none ls).map (l ++ ·)
  | some i, l :: ls =>
    if l.head? = some '\x7d' then
      (enforceLines items none ls).map (metadataFields items i ++ l ++ ·)
    else (enforceLines items (some (i + 1)) ls).map (l ++ ·)

/-- The text of `-clean-chg.p4`. -/
def enforceChanges (text : Str) (d : Dict Str Change) : Option Str :=
  enforceLines (d.map Prod.fst) none (readLines text)

end Script

section Annotations

inductive Kind where
  | add
  | del
  | modOld
  | modNew
  deriving DecidableEq

namespace Kind

def opener : Kind → Str
  | add => "add(".toList
  | del => "del(".toList
  | modOld | modNew => "mod(".toList

def mark : Kind → Str
  | add | del => []
  | modOld => ", old".toList
  | modNew => ", new".toList

def isNew : Kind → Bool
  | add => true
  | del | modOld => false
  | modNew => true

def change : Kind → Change
  | add => .add
  | del => .delete
  | modOld | modNew => .change

end Kind

def separators : Str := " \t\r\n(),\x7b\x7d;@".toList

structure Ann where
  kind : Kind
  name : Str
  proper : name.all (· ∉ separators) = true
  deriving DecidableEq

namespace Ann

/-- The annotation between its sign and its closing parenthesis. -/
def inner (a : Ann) : Str := a.kind.opener ++ a.name ++ a.kind.mark

def test (a : Ann) : Str :=
  testText a.name (if a.kind.isNew then "1w1".toList else "1w0".toList)

def selected (bits : Str → Bool) (a : Ann) : Bool :=
  if a.kind.isNew then bits a.name else !bits a.name

end Ann

def named (kind : Kind) (name : Str) : Option Ann :=
  if h : name.all (· ∉ separators) = true then some ⟨kind, name, h⟩ else none

/-- The text of an annotation up to its closing parenthesis. -/
def decode (text : Str) : Option Ann :=
  let name := (text.drop 5).takeWhile (· ≠ ',')
  let mark := (text.drop 5).dropWhile (· ≠ ',')
  if text.take 5 = "@add(".toList ∧ mark = [] then named .add name
  else if text.take 5 = "@del(".toList ∧ mark = [] then named .del name
  else if text.take 5 = "@mod(".toList ∧ mark = ", old".toList then named .modOld name
  else if text.take 5 = "@mod(".toList ∧ mark = ", new".toList then named .modNew name
  else none

variable (a : Ann)

theorem Ann.name_avoids (hc : c ∈ a.name) : c ∉ separators := by
  have h := all_eq_true.mp a.proper c hc
  exact of_decide_eq_true h

theorem Ann.not_mem_name (hc : c ∈ separators) : c ∉ a.name := fun h => a.name_avoids h hc

theorem Ann.not_mem_inner (a : Ann) (hc : c ∈ ")\x7b\x7d;@\n".toList) : c ∉ a.inner := by
  have hname : c ∉ a.name := by
    refine a.not_mem_name ?_
    have hall : ∀ c ∈ ")\x7b\x7d;@\n".toList, c ∈ separators := forall_chars (by decide)
    exact hall c hc
  have hwords : ∀ k : Kind, ∀ c ∈ ")\x7b\x7d;@\n".toList, c ∉ k.opener ∧ c ∉ k.mark := by
    intro k
    cases k <;> exact forall_chars (by decide)
  obtain ⟨hopener, hmark⟩ := hwords a.kind c hc
  simp [Ann.inner, hopener, hname, hmark]

theorem Ann.span_name :
    (a.name ++ a.kind.mark).takeWhile (· ≠ ',') = a.name ∧
      (a.name ++ a.kind.mark).dropWhile (· ≠ ',') = a.kind.mark := by
  have hcomma : ∀ c ∈ a.name, decide (c ≠ ',') = true := by
    intro c hc
    refine decide_eq_true ?_
    rintro rfl
    exact a.name_avoids hc (by decide)
  rw [takeWhile_append_of_pos hcomma, dropWhile_append_of_pos hcomma]
  cases a.kind <;> simp [Kind.mark]

theorem decode_inner : decode ('@' :: a.inner) = some a := by
  have hdrop : ('@' :: a.inner).drop 5 = a.name ++ a.kind.mark := by
    rw [Ann.inner, append_assoc]
    cases a.kind <;> rfl
  have htake : ('@' :: a.inner).take 5 = '@' :: a.kind.opener := by
    rw [Ann.inner, append_assoc]
    cases a.kind <;> rfl
  rw [decode, hdrop, htake]
  simp only [a.span_name.1, a.span_name.2]
  obtain ⟨kind, name, proper⟩ := a
  have hnamed : named kind name = some ⟨kind, name, proper⟩ := dif_pos proper
  cases kind <;> simpa [Kind.opener, Kind.mark] using hnamed

end Annotations

section Source

/-- A line that begins with an annotation. The brace may stand on the next line. -/
structure Opening where
  indent : Str
  ann : Ann
  pad : Str
  core : Str
  indent_blank : indent.all (· ∈ " \t".toList) = true
  pad_blank : pad.all (· ∈ " \t".toList) = true
  core_begins : core = "\n".toList ∨ core.head? = some '\x7b'
  alone : '@' ∉ core
  ends : core.getLast? = some '\n'
  single : '\n' ∉ core.dropLast

def Opening.text (o : Opening) : Str :=
  o.indent ++ '@' :: (o.ann.inner ++ ")".toList ++ o.pad ++ o.core)

inductive Line where
  | plain (text : Str)
  | opening (o : Opening)

def Line.text : Line → Str
  | .plain t => t
  | .opening o => o.text

def bodyText (body : List Line) : Str := body.flatMap Line.text

def placed : Mode → List Line → Bool
  | _, [] => true
  | m, .plain t :: body => placed (scan decode m t).2 body
  | m, .opening o :: body => m = .boundary && placed (scan decode m o.text).2 body

/-- The sign of annotations stands in the opening lines only. -/
def Line.alone : Line → Bool
  | .plain t => '@' ∉ t
  | .opening _ => true

def Terminated (l : Str) : Prop := l.getLast? = some '\n' ∧ '\n' ∉ l.dropLast

instance (l : Str) : Decidable (Terminated l) := inferInstanceAs (Decidable (_ ∧ _))

def Unannotated (l : Str) : Prop :=
  isIn "@add".toList l = false ∧ isIn "@del".toList l = false ∧ isIn "@mod".toList l = false

instance (l : Str) : Decidable (Unannotated l) := inferInstanceAs (Decidable (_ ∧ _))

/-- Every `struct metadata` is closed. -/
def metadataClosed : Bool → List Str → Bool
  | inside, [] => !inside
  | true, l :: ls => metadataClosed (l.head? ≠ some '\x7d') ls
  | false, l :: ls =>
    if isIn headerStart l || isIn metaStart l then
      metadataClosed false ls
    else if isIn metadataStart l then metadataClosed (l.head? ≠ some '\x7d') ls
    else metadataClosed false ls

/-- A program file: type declarations with the header of the versions, a control body and
what follows. -/
structure SourceFile where
  before : List Str
  header : Str
  between : List Str
  body : List Line
  after : List Str
  terminated : ∀ l ∈ before ++ header :: between ++ body.map Line.text ++ after, Terminated l
  unannotated : ∀ l ∈ before ++ header :: between ++ after, Unannotated l
  declares : isIn headerStart header = true
  closed : metadataClosed false before = true ∧ metadataClosed false between = true ∧
    metadataClosed false after = true
  untyped : ∀ l ∈ body, isIn metadataStart l.text = false
  alone : ∀ l ∈ body, l.alone = true
  placed : placed .boundary body = true

def SourceFile.lines (f : SourceFile) : List Str :=
  f.before ++ f.header :: f.between ++ f.body.map Line.text ++ f.after

end Source

section Expansion

theorem Opening.not_mem_indent (o : Opening) (hc : c ∉ " \t".toList) : c ∉ o.indent :=
  fun h => hc (of_decide_eq_true (all_eq_true.mp o.indent_blank c h))

theorem Opening.not_mem_pad (o : Opening) (hc : c ∉ " \t".toList) : c ∉ o.pad :=
  fun h => hc (of_decide_eq_true (all_eq_true.mp o.pad_blank c h))

theorem Opening.rest_alone (o : Opening) : '@' ∉ o.ann.inner ++ ")".toList ++ o.pad ++ o.core := by
  have hinner := o.ann.not_mem_inner (c := '@') (by decide)
  have hpad := o.not_mem_pad (c := '@') (by decide)
  simp [hinner, hpad, o.alone]

theorem Opening.isIn_sign (o : Opening) (w : Str) : isIn ('@' :: w) o.text =
    w.isPrefixOf (o.ann.inner ++ ")".toList ++ o.pad ++ o.core) :=
  isIn_unique (o.not_mem_indent (by decide)) o.rest_alone

theorem Opening.find_sign (o : Opening) {w : Str}
    (hw : w <+: o.ann.inner ++ ")".toList ++ o.pad ++ o.core) :
    find ('@' :: w) o.text = o.indent.length := by
  obtain ⟨b, hb⟩ := hw
  have h := index?_append (t := w) (o.not_mem_indent (c := '@') (by decide)) b
  have htext : o.text = o.indent ++ '@' :: w ++ b := by
    rw [Opening.text, ← hb, append_assoc, cons_append]
  rw [find, htext, h]

def Opening.front (o : Opening) : Str := o.indent ++ '@' :: (o.ann.inner ++ ")".toList ++ o.pad)

section

variable (o : Opening)

include o

theorem Opening.text_eq : o.text = o.front ++ o.core := by
  simp [Opening.text, Opening.front]

theorem Opening.not_mem_front (hc : c ∈ "\x7b\x7d;\n".toList) : c ∉ o.front := by
  have hall : ∀ c ∈ "\x7b\x7d;\n".toList,
      c ∈ ")\x7b\x7d;@\n".toList ∧ c ∉ " \t".toList ∧ c ≠ '@' ∧ c ≠ ')' := forall_chars (by decide)
  obtain ⟨hinner, hblank, hsign, hclose⟩ := hall c hc
  have hindent := o.not_mem_indent hblank
  have hpad := o.not_mem_pad hblank
  have hinner := o.ann.not_mem_inner hinner
  simp [Opening.front, hindent, hpad, hinner, hsign, hclose]

theorem Opening.block : sliceFrom o.text (find "\x7b".toList o.text) = o.core := by
  have hfront := o.not_mem_front (c := '\x7b') (by decide)
  rcases o.core_begins with hcore | hcore
  · have hnone : find "\x7b".toList o.text = -1 := by
      have hnot : '\x7b' ∉ o.text := by
        rw [o.text_eq, hcore, mem_append, not_or]
        exact ⟨hfront, by decide⟩
      have hindex : index? "\x7b".toList o.text = none :=
        index?_eq_none_iff.mpr (not_isIn_of_notMem (c := '\x7b') (by decide) hnot)
      rw [find, hindex]
    rw [hnone, o.text_eq, hcore]
    exact sliceFrom_last _ _
  · obtain ⟨tail, htail⟩ := head?_eq_some_iff.mp hcore
    have hfind : find "\x7b".toList o.text = o.front.length := by
      have h := index?_append (t := []) hfront tail
      have htext : o.text = o.front ++ ['\x7b'] ++ tail := by
        rw [o.text_eq, htail, append_assoc, singleton_append]
      rw [find, htext]
      simp only [String.reduceToList, h]
    rw [hfind, o.text_eq, sliceFrom_right]

theorem Opening.isIn_words : isIn "@add".toList o.text = (o.ann.kind == .add) ∧
      isIn "@del".toList o.text = (o.ann.kind == .del) ∧
      isIn "@mod".toList o.text = (o.ann.kind == .modOld || o.ann.kind == .modNew) := by
  have hadd := o.isIn_sign "add".toList
  have hdel := o.isIn_sign "del".toList
  have hmod := o.isIn_sign "mod".toList
  simp only [String.reduceToList] at hadd hdel hmod ⊢
  rw [hadd, hdel, hmod, Ann.inner]
  cases o.ann.kind <;> exact ⟨rfl, rfl, rfl⟩

theorem Opening.find_opener : find ('@' :: o.ann.kind.opener) o.text = o.indent.length := by
  refine o.find_sign ?_
  rw [Ann.inner]
  exact ⟨o.ann.name ++ o.ann.kind.mark ++ ")".toList ++ o.pad ++ o.core, by simp⟩

theorem Opening.version (hc : c = ')' ∨ c = ',')
    (hrest : o.ann.kind.mark ++ ")".toList ++ o.pad ++ o.core = (c :: t) ++ r) :
    slice o.text (find ('@' :: o.ann.kind.opener) o.text + 5) (find (c :: t) o.text) =
      o.ann.name := by
  have hfront : (o.indent ++ '@' :: o.ann.kind.opener).length = o.indent.length + 5 := by
    cases o.ann.kind <;> simp [Kind.opener]
  have htext : o.text = o.indent ++ '@' :: o.ann.kind.opener ++ o.ann.name ++ ((c :: t) ++ r) := by
    rw [← hrest]
    simp [Opening.text, Ann.inner]
  have hnot : c ∉ o.indent ++ '@' :: o.ann.kind.opener ++ o.ann.name := by
    have hname : c ∉ o.ann.name := o.ann.not_mem_name (by rcases hc with rfl | rfl <;> decide)
    have hindent : c ∉ o.indent := o.not_mem_indent (by rcases hc with rfl | rfl <;> decide)
    have hopener : c ∉ '@' :: o.ann.kind.opener := by
      cases o.ann.kind <;> rcases hc with rfl | rfl <;> decide
    rw [mem_append, mem_append]
    tauto
  have hend : find (c :: t) o.text =
      (o.indent ++ '@' :: o.ann.kind.opener ++ o.ann.name).length := by
    rw [find, htext, ← append_assoc, index?_append hnot]
  have hbegin : (o.indent.length : ℤ) + 5 = (o.indent ++ '@' :: o.ann.kind.opener).length := by
    rw [hfront]
    rfl
  rw [hend, o.find_opener, htext, hbegin]
  exact slice_middle _ _ _

theorem Opening.isIn_mark : isIn (o.ann.kind.mark.drop 2 ++ ")".toList) o.text = true := by
  rw [isIn_iff]
  refine ⟨o.indent ++ '@' :: (o.ann.kind.opener ++ o.ann.name ++ o.ann.kind.mark.take 2),
    o.pad ++ o.core, ?_⟩
  simp only [Opening.text, Ann.inner, append_assoc, cons_append]
  rw [← append_assoc (o.ann.kind.mark.take 2), take_append_drop]

theorem Opening.isIn_old (hkind : o.ann.kind = .modNew) :
    isIn "old)".toList o.text = isIn "old)".toList (o.pad ++ o.core) := by
  have htext : o.text = (o.indent ++ '@' :: (o.ann.kind.opener ++ o.ann.name)) ++
      ',' :: (" new)".toList ++ (o.pad ++ o.core)) := by
    simp [Opening.text, Ann.inner, hkind, Kind.mark]
  have hfront : isIn "old)".toList
      (o.indent ++ '@' :: (o.ann.kind.opener ++ o.ann.name)) = false := by
    refine not_isIn_of_notMem (c := ')') (by decide) ?_
    have hname : ')' ∉ o.ann.name := o.ann.not_mem_name (by decide)
    have hindent : ')' ∉ o.indent := o.not_mem_indent (by decide)
    rw [hkind]
    simp [Kind.opener, hname, hindent]
  rw [htext, isIn_append_cons (by decide) (by decide), hfront, Bool.false_or]
  simp [isIn, List.isPrefixOf]

def Opening.expanded (o : Opening) : Str :=
  List.replicate o.indent.length ' ' ++ ("if (".toList ++ o.ann.test ++ ") ".toList ++ o.core)

def Opening.Misread (o : Opening) : Prop :=
  o.ann.kind = .modNew ∧ isIn "old)".toList (o.pad ++ o.core) = true

instance (o : Opening) : Decidable o.Misread := inferInstanceAs (Decidable (_ ∧ _))

theorem expandLine_opening (h : ¬o.Misread) :
    expandLine o.text = (o.expanded, some (o.ann.name, o.ann.kind.change)) := by
  have hstart : find "@".toList o.text = o.indent.length := o.find_sign (w := []) (by simp)
  have hblock := o.block
  obtain ⟨hadd, hdel, hmod⟩ := o.isIn_words
  have hmark := o.isIn_mark
  have hclose := fun hnone => o.version (Or.inl rfl) (t := []) (r := o.pad ++ o.core) hnone
  have hcomma := fun word => o.version (Or.inr rfl) (t := word) (r := ")".toList ++ o.pad ++ o.core)
  rw [Opening.expanded, Ann.test]
  cases hkind : o.ann.kind with
  | add =>
    have hname : slice o.text (find "@add(".toList o.text + 5) (find ")".toList o.text) =
        o.ann.name := by
      have h := hclose (by simp [hkind, Kind.mark])
      rwa [hkind] at h
    rw [expandLine, hstart, hblock, hadd, hkind, hname]
    rfl
  | del =>
    have hname : slice o.text (find "@del(".toList o.text + 5) (find ")".toList o.text) =
        o.ann.name := by
      have h := hclose (by simp [hkind, Kind.mark])
      rwa [hkind] at h
    rw [expandLine, hstart, hblock, hadd, hdel, hkind, hname]
    rfl
  | modOld =>
    have hname : slice o.text (find "@mod(".toList o.text + 5) (find ", old".toList o.text) =
        o.ann.name := by
      have h := hcomma " old".toList (by simp [hkind, Kind.mark])
      rwa [hkind] at h
    have hold : isIn "old)".toList o.text = true := by rwa [hkind] at hmark
    rw [expandLine, hstart, hblock, hadd, hdel, hmod, hold, hkind, hname]
    rfl
  | modNew =>
    have hname : slice o.text (find "@mod(".toList o.text + 5) (find ", new".toList o.text) =
        o.ann.name := by
      have h := hcomma " new".toList (by simp [hkind, Kind.mark])
      rwa [hkind] at h
    have hnew : isIn "new)".toList o.text = true := by rwa [hkind] at hmark
    have hold : isIn "old)".toList o.text = false := by
      rw [o.isIn_old hkind, Bool.eq_false_iff]
      exact fun hold => h ⟨hkind, hold⟩
    rw [expandLine, hstart, hblock, hadd, hdel, hmod, hold, hnew, hkind, hname]
    rfl

end

theorem expandLine_unannotated (h : Unannotated l) : expandLine l = (l, none) := by
  obtain ⟨hadd, hdel, hmod⟩ := h
  rw [expandLine, hadd, hdel, hmod]
  rfl

theorem unannotated_of_notMem (h : '@' ∉ l) : Unannotated l :=
  ⟨not_isIn_of_notMem (c := '@') (by decide) h, not_isIn_of_notMem (c := '@') (by decide) h,
    not_isIn_of_notMem (c := '@') (by decide) h⟩

theorem Opening.misread_version (o : Opening) (hkind : o.ann.kind = .modNew) :
    ∃ junk, slice o.text (find "@mod(".toList o.text + 5) (find ", old".toList o.text) =
      o.ann.name ++ ",".toList ++ junk := by
  have hopener : find "@mod(".toList o.text = o.indent.length := by
    have h := o.find_opener
    rwa [hkind] at h
  obtain ⟨front, hfront⟩ : ∃ front, front = o.indent ++ '@' :: Kind.modNew.opener := ⟨_, rfl⟩
  obtain ⟨rest, hrest⟩ : ∃ rest, rest = " new)".toList ++ (o.pad ++ o.core) := ⟨_, rfl⟩
  have hbegin : find "@mod(".toList o.text + 5 = front.length := by
    rw [hopener, hfront]
    simp [Kind.opener]
  have htext : o.text = front ++ (o.ann.name ++ ",".toList) ++ rest := by
    simp [hfront, hrest, Opening.text, Ann.inner, hkind, Kind.mark]
  have hcomma : ',' ∉ front ++ o.ann.name := by
    have hname : ',' ∉ o.ann.name := o.ann.not_mem_name (by decide)
    have hindent : ',' ∉ o.indent := o.not_mem_indent (by decide)
    simp [hfront, Kind.opener, hname, hindent]
  have hend : (front ++ (o.ann.name ++ ",".toList)).length ≤
      clampIndex o.text.length (find ", old".toList o.text) := by
    cases hindex : index? ", old".toList o.text with
    | none =>
      have hlength : o.text.length = (front ++ (o.ann.name ++ ",".toList)).length +
          rest.length := by
        rw [htext, length_append]
      have hnonempty : 1 ≤ rest.length := by simp [hrest]
      have hfind : find ", old".toList o.text = -1 := by rw [find, hindex]
      rw [hfind, clampIndex, if_pos (by decide), hlength]
      omega
    | some i =>
      have hpre := prefix_of_index? hindex
      simp only [String.reduceToList] at hpre
      have htext' : o.text = (front ++ o.ann.name) ++ ',' :: rest := by simp [htext]
      -- the first comma of the line is followed by `new`
      have hbehind : (front ++ o.ann.name).length < i := by
        by_contra hle
        rcases Nat.lt_or_eq_of_le (Nat.le_of_not_lt hle) with hlt | heq
        · rw [htext', drop_append_of_le_length hlt.le, drop_eq_getElem_cons hlt] at hpre
          obtain ⟨hhead, -⟩ := cons_prefix_cons.mp hpre
          rw [hhead] at hcomma
          exact hcomma (getElem_mem hlt)
        · rw [htext', heq, drop_left, hrest] at hpre
          simp [cons_prefix_cons] at hpre
      have hshort : i ≤ o.text.length := by
        by_contra hlong
        rw [drop_eq_nil_of_le (by omega), prefix_nil] at hpre
        cases hpre
      rw [find, hindex, clampIndex_natCast hshort]
      simp only [String.reduceToList, length_append, length_cons, length_nil] at hbehind ⊢
      omega
  rw [hbegin]
  rw [htext] at hend ⊢
  exact slice_extends hend

theorem expandLine_misread (o : Opening) (h : o.Misread) :
    ∃ junk, (expandLine o.text).1 = List.replicate o.indent.length ' ' ++
      ("if (".toList ++ ("hdr.version.version_".toList ++ o.ann.name) ++ ",".toList ++ junk) := by
  obtain ⟨hkind, hold⟩ := h
  have hstart : find "@".toList o.text = o.indent.length := o.find_sign (w := []) (by simp)
  obtain ⟨hadd, hdel, hmod⟩ := o.isIn_words
  obtain ⟨junk, hjunk⟩ := o.misread_version hkind
  rw [← o.isIn_old hkind] at hold
  have hline : (expandLine o.text).1 = List.replicate o.indent.length ' ' ++ ("if (".toList ++
      testText (slice o.text (find "@mod(".toList o.text + 5) (find ", old".toList o.text))
        "1w0".toList ++ ") ".toList ++ o.core) := by
    rw [expandLine, hstart, o.block, hadd, hdel, hmod, hold, hkind]
    rfl
  refine ⟨junk ++ " == ".toList ++ "1w0".toList ++ ") ".toList ++ o.core, hline.trans ?_⟩
  rw [hjunk]
  unfold testText
  simp only [append_assoc]

end Expansion

section Reading

theorem Ann.versioned_avoids (a : Ann) :
    ∀ c ∈ "hdr.version.version_".toList ++ a.name, c ∉ "(),\x7b\x7d;@\n".toList := by
  have hsep : ∀ c ∈ "(),\x7b\x7d;@\n".toList, c ∈ separators := forall_chars (by decide)
  have hfirst : ∀ c ∈ "hdr.version.version_".toList, c ∉ "(),\x7b\x7d;@\n".toList :=
    forall_chars (by decide)
  intro c hc
  rcases mem_append.mp hc with hc | hc
  · exact hfirst c hc
  · exact fun h => a.name_avoids hc (hsep c h)

theorem Ann.test_avoids (a : Ann) : ∀ c ∈ a.test, c ∉ "(),\x7b\x7d;@\n".toList := by
  have hmiddle : ∀ c ∈ " == ".toList, c ∉ "(),\x7b\x7d;@\n".toList := forall_chars (by decide)
  have hbit : ∀ b : Bool, ∀ c ∈ (if b then "1w1".toList else "1w0".toList),
      c ∉ "(),\x7b\x7d;@\n".toList := by
    intro b
    cases b <;> exact forall_chars (by decide)
  intro c hc
  unfold Ann.test testText at hc
  rcases mem_append.mp hc with hc | hc
  · rcases mem_append.mp hc with hc | hc
    · exact a.versioned_avoids c hc
    · exact hmiddle c hc
  · exact hbit _ c hc

theorem punctuation_of_avoids {s : Str} (h : ∀ c ∈ s, c ∉ "(),\x7b\x7d;@\n".toList) :
    ∀ c ∈ s, c ∉ "(),\x7b\x7d;@".toList := by
  have hall : ∀ c ∈ "(),\x7b\x7d;@".toList, c ∈ "(),\x7b\x7d;@\n".toList := forall_chars (by decide)
  exact fun c hc hmem => h c hc (hall c hmem)

theorem blanks_of_all {s : Str} (h : s.all (· ∈ " \t".toList) = true) :
    ∀ c ∈ s, blank c = true := by
  have hall : ∀ c ∈ " \t".toList, blank c = true := forall_chars (by decide)
  exact fun c hc => hall c (of_decide_eq_true (all_eq_true.mp h c hc))

theorem blank_replicate (n : ℕ) : ∀ c ∈ List.replicate n ' ', blank c = true :=
  fun _ hc => eq_of_mem_replicate hc ▸ rfl

variable (o : Opening)

theorem Opening.scan_text (t : Str) :
    scan decode .boundary (o.text ++ t) =
      (.ann o.ann :: (scan decode .boundary (o.core ++ t)).1,
        (scan decode .boundary (o.core ++ t)).2) := by
  have htext : o.text ++ t = o.indent ++
      ('@' :: o.ann.inner ++ ")".toList ++ (o.pad ++ (o.core ++ t))) := by
    simp [Opening.text]
  have hinner : ∀ c ∈ o.ann.inner, c ∉ ")\x7b\x7d;@".toList := by
    have hall : ∀ c ∈ ")\x7b\x7d;@".toList, c ∈ ")\x7b\x7d;@\n".toList := forall_chars (by decide)
    exact fun c hc h => o.ann.not_mem_inner (hall c h) hc
  rw [htext, scan_blanks (blanks_of_all o.indent_blank), scan_ann hinner (decode_inner o.ann),
    scan_blanks (blanks_of_all o.pad_blank)]

theorem Opening.scan_expanded (t : Str) :
    scan decode .boundary (o.expanded ++ t) =
      (.head o.ann.test :: (scan decode .boundary (o.core ++ t)).1,
        (scan decode .boundary (o.core ++ t)).2) := by
  have htext : o.expanded ++ t = List.replicate o.indent.length ' ' ++
      ("if (".toList ++ o.ann.test ++ ")".toList ++ (" ".toList ++ (o.core ++ t))) := by
    simp [Opening.expanded]
  rw [htext, scan_blanks (blank_replicate _), scan_test (punctuation_of_avoids o.ann.test_avoids)]
  rfl

theorem Opening.scan_misread (h : o.Misread) (t : Str) :
    scan decode .boundary ((expandLine o.text).1 ++ t) = ([], .broken) := by
  obtain ⟨junk, hjunk⟩ := expandLine_misread o h
  have htext : (expandLine o.text).1 ++ t = List.replicate o.indent.length ' ' ++
      ("if (".toList ++ ("hdr.version.version_".toList ++ o.ann.name) ++ ",".toList ++
        (junk ++ t)) := by
    rw [hjunk]
    simp only [append_assoc]
  rw [htext, scan_blanks (blank_replicate _),
    scan_comma (punctuation_of_avoids o.ann.versioned_avoids)]

def expandedText (body : List Line) : Str := body.flatMap fun l => (expandLine l.text).1

def openings (body : List Line) : List Ann :=
  body.filterMap fun
    | .plain _ => none
    | .opening o => some o.ann

variable {body : List Line} {m : Mode}

theorem placed_tail {l : Line} (h : placed m (l :: body) = true) :
    placed (scan decode m l.text).2 body = true := by
  cases l with
  | plain t => exact h
  | opening o => exact (Bool.and_eq_true_iff.mp h).2

theorem placed_head {o : Opening} (h : placed m (.opening o :: body) = true) : m = .boundary :=
  of_decide_eq_true (Bool.and_eq_true_iff.mp h).1

/-- What one line contributes to the tokens, with and without the expansion. -/
structure LineStep (m : Mode) (l : Line) : Prop where
  expanded : scan decode m (expandLine l.text).1 =
    ((scan decode m l.text).1.map (guardToken Ann.test), (scan decode m l.text).2)
  mode : (scan decode m l.text).2.inSign = false
  anns : anns (scan decode m l.text).1 = openings [l]

theorem lineStep_plain (hm : m.inSign = false) {t : Str} (ht : '@' ∉ t) :
    LineStep m (.plain t) := by
  obtain ⟨htokens, hmode⟩ := scan_plain (m := m) ht hm
  refine ⟨?_, hmode, anns_plain htokens⟩
  rw [Line.text, expandLine_unannotated (unannotated_of_notMem ht), map_guardToken htokens]

theorem lineStep_opening {o : Opening} (h : ¬o.Misread) : LineStep .boundary (.opening o) := by
  have hscan := o.scan_text []
  have hexpanded := o.scan_expanded []
  rw [append_nil, append_nil] at hscan hexpanded
  obtain ⟨htokens, hmode⟩ := scan_plain (m := .boundary) o.alone rfl
  constructor
  · rw [Line.text, expandLine_opening o h, hexpanded, hscan, map_cons, map_guardToken htokens]
    rfl
  · rw [Line.text, hscan]
    exact hmode
  · have hanns := anns_plain htokens
    rw [Line.text, hscan]
    simpa [anns, openings] using hanns

theorem lineStep {l : Line} (hm : m.inSign = false) (halone : l.alone = true)
    (hplaced : placed m (l :: body) = true) (hread : ∀ o, l = .opening o → ¬o.Misread) :
    LineStep m l := by
  cases l with
  | plain t => exact lineStep_plain hm (of_decide_eq_true halone)
  | opening o =>
    obtain rfl := placed_head hplaced
    exact lineStep_opening (hread o rfl)

theorem scan_expandedText (hm : m.inSign = false) (halone : ∀ l ∈ body, l.alone = true)
    (hplaced : placed m body = true) (hread : ∀ o, .opening o ∈ body → ¬o.Misread) :
    scan decode m (expandedText body) =
      ((scan decode m (bodyText body)).1.map (guardToken Ann.test),
        (scan decode m (bodyText body)).2) ∧
    anns (scan decode m (bodyText body)).1 = openings body := by
  induction body generalizing m with
  | nil => exact ⟨rfl, rfl⟩
  | cons l body ih =>
    obtain ⟨hl, hbody⟩ := forall_mem_cons.mp halone
    have hstep : LineStep m l := lineStep hm hl hplaced fun o ho => hread o (ho ▸ mem_cons_self)
    obtain ⟨hscan, hanns⟩ := ih hstep.mode hbody (placed_tail hplaced)
      fun o ho => hread o (mem_cons_of_mem _ ho)
    rw [bodyText] at hscan hanns
    constructor
    · rw [expandedText, flatMap_cons, scan_append, hstep.expanded, ← expandedText, hscan,
        bodyText, flatMap_cons, scan_append, map_append]
    · rw [bodyText, flatMap_cons, scan_append, anns_append, hstep.anns, hanns, openings,
        openings, openings, ← filterMap_append]
      rfl

theorem scan_expandedText_misread (hm : m.inSign = false) (halone : ∀ l ∈ body, l.alone = true)
    (hplaced : placed m body = true) (hmisread : ∃ o, .opening o ∈ body ∧ o.Misread) :
    (scan decode m (expandedText body)).2 = .broken := by
  induction body generalizing m with
  | nil => simp at hmisread
  | cons l body ih =>
    obtain ⟨hl, hbody⟩ := forall_mem_cons.mp halone
    by_cases hfirst : ∃ o, l = .opening o ∧ o.Misread
    · obtain ⟨o, rfl, ho⟩ := hfirst
      obtain rfl := placed_head hplaced
      rw [expandedText, flatMap_cons, Line.text, o.scan_misread ho]
    · have hstep : LineStep m l := lineStep hm hl hplaced fun o ho hbad => hfirst ⟨o, ho, hbad⟩
      have hrest : ∃ o, .opening o ∈ body ∧ o.Misread := by
        obtain ⟨o, ho, hbad⟩ := hmisread
        rcases mem_cons.mp ho with rfl | ho
        · exact absurd ⟨o, rfl, hbad⟩ hfirst
        · exact ⟨o, ho, hbad⟩
      rw [expandedText, flatMap_cons, scan_append, hstep.expanded]
      exact ih hstep.mode hbody (placed_tail hplaced) hrest

variable {c : Code Ann}

theorem readCode_eq_some {text : Str} :
    readCode decode text = some c ↔
      (scan decode .boundary text).2 = .boundary ∧
        parse (scan decode .boundary text).1 = some c := by
  rw [readCode]
  rcases hscan : scan decode .boundary text with ⟨ts, m⟩
  cases m <;> simp

/-- The expanded body is the body with its blocks behind their tests if and only if no line
is misread and no `else` follows an annotated block. -/
theorem readCode_expandedText_iff (halone : ∀ l ∈ body, l.alone = true)
    (hplaced : placed .boundary body = true) (hc : readCode decode (bodyText body) = some c) :
    readCode decode (expandedText body) = some (c.guarded Ann.test) ↔
      (∀ o, .opening o ∈ body → ¬o.Misread) ∧ c.Tidy := by
  obtain ⟨hmode, hparse⟩ := readCode_eq_some.mp hc
  by_cases hread : ∀ o, .opening o ∈ body → ¬o.Misread
  · obtain ⟨hscan, -⟩ := scan_expandedText (m := .boundary) rfl halone hplaced hread
    rw [readCode_eq_some, hscan, parse_guarded_iff hparse]
    exact ⟨fun h => ⟨hread, h.2⟩, fun h => ⟨hmode, h.2⟩⟩
  · constructor
    · intro h
      have hbroken := scan_expandedText_misread (m := .boundary) rfl halone hplaced
        (by simpa using hread)
      rw [readCode_eq_some, hbroken] at h
      cases h.1
    · exact fun h => absurd h.1 hread

theorem anns_body (halone : ∀ l ∈ body, l.alone = true) (hplaced : placed .boundary body = true)
    (hread : ∀ o, .opening o ∈ body → ¬o.Misread) (hc : readCode decode (bodyText body) = some c) :
    c.anns = openings body := by
  obtain ⟨-, hparse⟩ := readCode_eq_some.mp hc
  obtain ⟨-, hanns⟩ := scan_expandedText (m := .boundary) rfl halone hplaced hread
  have h := (parse_anns _ _ _ _).2 (parse_eq_some.mp hparse)
  rw [hanns] at h
  simpa [anns] using h.symm

end Reading

section Declarations

/-- The lines of the file behind `expand_annotations`. -/
def SourceFile.expandedLines (f : SourceFile) : List Str := f.lines.map fun l => (expandLine l).1

variable (f : SourceFile)

theorem SourceFile.readLines_text : readLines f.lines.flatten = f.lines :=
  readLines_flatten f.terminated

theorem metadataClosed_of_untyped (h : ∀ l ∈ ls, isIn metadataStart l = false) :
    metadataClosed false ls = true := by
  induction ls with
  | nil => rfl
  | cons l ls ih =>
    obtain ⟨hl, hls⟩ := forall_mem_cons.mp h
    simp [metadataClosed, hl, ih hls]

theorem enforceLines_closed (items : List Str) (i : Option ℤ)
    (h : metadataClosed i.isSome ls = true) :
    ∃ out, ∀ rest, enforceLines items i (ls ++ rest) =
      (enforceLines items none rest).map (out ++ ·) := by
  induction ls generalizing i with
  | nil =>
    cases i with
    | none => exact ⟨[], fun rest => by simp⟩
    | some i => cases h
  | cons l ls ih =>
    have hprepend : ∀ (j : Option ℤ) (front : Str), metadataClosed j.isSome ls = true →
        (∀ rest, enforceLines items i (l :: ls ++ rest) =
          (enforceLines items j (ls ++ rest)).map (front ++ ·)) →
        ∃ out, ∀ rest, enforceLines items i (l :: ls ++ rest) =
          (enforceLines items none rest).map (out ++ ·) := by
      intro j front hj hstep
      obtain ⟨out, hout⟩ := ih j hj
      refine ⟨front ++ out, fun rest => ?_⟩
      rw [hstep, hout, Option.map_map]
      congr 1
      funext t
      simp
    cases i with
    | none =>
      rw [Option.isSome_none, metadataClosed] at h
      by_cases hheader : isIn headerStart l = true
      · rw [hheader, Bool.true_or, if_pos rfl] at h
        exact hprepend none _ h fun rest => by rw [cons_append, enforceLines, if_pos hheader]
      by_cases hmeta : isIn metaStart l = true
      · rw [hmeta, Bool.or_true, if_pos rfl] at h
        exact hprepend none _ h fun rest => by
          rw [cons_append, enforceLines, if_neg hheader, if_pos hmeta]
      rw [if_neg (by simp [hheader, hmeta])] at h
      by_cases hmetadata : isIn metadataStart l = true
      · rw [if_pos hmetadata] at h
        by_cases hclose : l.head? = some '\x7d'
        · refine hprepend none (metadataFields items (-1) ++ l)
            (by simpa [hclose] using h) fun rest => ?_
          rw [cons_append, enforceLines, if_neg hheader, if_neg hmeta, if_pos hmetadata,
            if_pos hclose]
        · refine hprepend (some 0) l (by simpa [hclose] using h) fun rest => ?_
          rw [cons_append, enforceLines, if_neg hheader, if_neg hmeta, if_pos hmetadata,
            if_neg hclose]
      · rw [if_neg hmetadata] at h
        exact hprepend none _ h fun rest => by
          rw [cons_append, enforceLines, if_neg hheader, if_neg hmeta, if_neg hmetadata]
    | some i =>
      rw [Option.isSome_some, metadataClosed] at h
      by_cases hclose : l.head? = some '\x7d'
      · refine hprepend none (metadataFields items i ++ l)
          (by simpa [hclose] using h) fun rest => ?_
        rw [cons_append, enforceLines, if_pos hclose]
      · refine hprepend (some (i + 1)) l (by simpa [hclose] using h) fun rest => ?_
        rw [cons_append, enforceLines, if_neg hclose]

def Opening.branch (o : Opening) : Str :=
  List.replicate o.indent.length ' ' ++ ("if (".toList ++ o.ann.test)

theorem Opening.expanded_eq (o : Opening) : o.expanded = o.branch ++ ')' :: (' ' :: o.core) := by
  simp [Opening.expanded, Opening.branch]

theorem Opening.not_mem_branch (o : Opening) (hc : c ∈ "\x7b\n".toList) : c ∉ o.branch := by
  have hall : ∀ c ∈ "\x7b\n".toList,
      c ∈ "(),\x7b\x7d;@\n".toList ∧ c ≠ ' ' ∧ c ∉ "if (".toList := forall_chars (by decide)
  obtain ⟨hsep, hblank, hif⟩ := hall c hc
  have htest : c ∉ o.ann.test := fun h => o.ann.test_avoids c h hsep
  rw [Opening.branch, mem_append, mem_append, not_or, not_or]
  exact ⟨fun h => hblank (eq_of_mem_replicate h), hif, htest⟩

theorem Opening.expanded_terminated (o : Opening) : Terminated o.expanded := by
  have hcore : o.core ≠ [] := by
    intro h
    have hends := o.ends
    rw [h] at hends
    cases hends
  rw [o.expanded_eq, show ∀ t : Str, ')' :: ' ' :: t = ") ".toList ++ t from fun _ => rfl,
    ← append_assoc]
  constructor
  · rw [getLast?_append_of_ne_nil _ hcore]
    exact o.ends
  · rw [dropLast_append_of_ne_nil hcore, mem_append, mem_append, not_or, not_or]
    exact ⟨⟨o.not_mem_branch (by decide), by decide⟩, o.single⟩

theorem Opening.expanded_untyped (o : Opening) (h : isIn metadataStart o.text = false) :
    isIn metadataStart o.expanded = false := by
  have hbranch : isIn metadataStart o.branch = false :=
    not_isIn_of_notMem (c := '\x7b') (by decide) (o.not_mem_branch (by decide))
  have hcore : isIn metadataStart o.core = false := by
    rw [Bool.eq_false_iff]
    intro hcore
    rw [o.text_eq, isIn_append_right _ hcore] at h
    cases h
  have hblank : metadataStart.isPrefixOf (' ' :: o.core) = false := rfl
  rw [o.expanded_eq, isIn_append_cons (by decide) (by decide), hbranch, isIn, hblank, hcore]
  rfl

theorem SourceFile.unannotated_plain (h : .plain t ∈ f.body) : Unannotated t :=
  unannotated_of_notMem (of_decide_eq_true (f.alone _ h))

theorem SourceFile.expanded_body (hread : ∀ o, .opening o ∈ f.body → ¬o.Misread) :
    ∀ l ∈ f.body, Terminated (expandLine l.text).1 ∧
      isIn metadataStart (expandLine l.text).1 = false := by
  intro l hl
  have huntyped := f.untyped l hl
  cases l with
  | plain t =>
    rw [Line.text, expandLine_unannotated (f.unannotated_plain hl)]
    refine ⟨f.terminated t ?_, huntyped⟩
    have hmem : t ∈ f.body.map Line.text := mem_map.mpr ⟨_, hl, rfl⟩
    simp [hmem]
  | opening o =>
    rw [Line.text, expandLine_opening o (hread o hl)]
    exact ⟨o.expanded_terminated, o.expanded_untyped huntyped⟩

theorem SourceFile.expandedLines_eq :
    f.expandedLines = f.before ++ f.header :: f.between ++
      f.body.map (fun l => (expandLine l.text).1) ++ f.after := by
  have hkeep : ∀ ls : List Str, (∀ l ∈ ls, Unannotated l) →
      ls.map (fun l => (expandLine l).1) = ls := by
    intro ls hls
    have hid : ∀ l ∈ ls, (expandLine l).1 = id l := fun l hl => by
      rw [expandLine_unannotated (hls l hl)]
      rfl
    rw [map_congr_left hid, map_id]
  have htop : (f.before ++ f.header :: f.between).map (fun l => (expandLine l).1) =
      f.before ++ f.header :: f.between :=
    hkeep _ fun l hl => f.unannotated l (mem_append_left _ hl)
  have hafter : f.after.map (fun l => (expandLine l).1) = f.after :=
    hkeep _ fun l hl => f.unannotated l (mem_append_right _ hl)
  rw [SourceFile.expandedLines, SourceFile.lines, map_append, map_append, htop, hafter, map_map]
  rfl

theorem record_keys (d : Dict Str Change) (ls : List Str) (hd : (d.map Prod.fst).Nodup) :
    ((ls.foldl (fun d l => record d (expandLine l).2) d).map Prod.fst).Nodup ∧
      ∀ x, x ∈ (ls.foldl (fun d l => record d (expandLine l).2) d).map Prod.fst ↔
        x ∈ d.map Prod.fst ∨ ∃ l ∈ ls, ∃ c, (expandLine l).2 = some (x, c) := by
  induction ls generalizing d with
  | nil => exact ⟨hd, by simp⟩
  | cons l ls ih =>
    cases hl : (expandLine l).2 with
    | none =>
      obtain ⟨hnodup, hmem⟩ := ih d hd
      have hstep : record d (expandLine l).2 = d := by rw [hl, record]
      rw [foldl_cons, hstep]
      refine ⟨hnodup, fun x => ?_⟩
      rw [hmem]
      simp [hl]
    | some e =>
      obtain ⟨version, c⟩ := e
      obtain ⟨hnodup, hmem⟩ := ih (d.set version c) (Dict.nodup_keys_set hd version c)
      have hstep : record d (expandLine l).2 = d.set version c := by rw [hl, record]
      rw [foldl_cons, hstep]
      refine ⟨hnodup, fun x => ?_⟩
      rw [hmem, Dict.mem_keys_set]
      simp only [mem_cons, exists_eq_or_imp, hl, Option.some.injEq, Prod.mk.injEq]
      constructor
      · rintro ((rfl | h) | h)
        · exact Or.inr (Or.inl ⟨c, rfl, rfl⟩)
        · exact Or.inl h
        · exact Or.inr (Or.inr h)
      · rintro (h | ⟨_, rfl, _⟩ | h)
        · exact Or.inl (Or.inr h)
        · exact Or.inl (Or.inl rfl)
        · exact Or.inr h

theorem SourceFile.mem_components (hread : ∀ o, .opening o ∈ f.body → ¬o.Misread) (x : Str) :
    (∃ l ∈ f.lines, ∃ c, (expandLine l).2 = some (x, c)) ↔ ∃ a ∈ openings f.body, a.name = x := by
  have hnone : ∀ {l : Str}, Unannotated l → ∀ c, (expandLine l).2 ≠ some (x, c) := by
    intro l hl c
    rw [expandLine_unannotated hl]
    simp
  constructor
  · rintro ⟨l, hl, c, hc⟩
    have hbody : l ∈ f.body.map Line.text := by
      by_contra hnot
      refine hnone (f.unannotated l ?_) c hc
      rw [SourceFile.lines, mem_append, mem_append] at hl
      rw [mem_append]
      tauto
    obtain ⟨b, hb, rfl⟩ := mem_map.mp hbody
    cases b with
    | plain t => exact absurd hc (hnone (f.unannotated_plain hb) c)
    | opening o =>
      rw [Line.text, expandLine_opening o (hread o hb)] at hc
      refine ⟨o.ann, mem_filterMap.mpr ⟨_, hb, rfl⟩, ?_⟩
      exact (Prod.mk.inj (Option.some.inj hc)).1
  · rintro ⟨a, ha, rfl⟩
    obtain ⟨l, hl, hla⟩ := mem_filterMap.mp ha
    cases l with
    | plain t => cases hla
    | opening o =>
      obtain rfl := Option.some.inj hla
      refine ⟨o.text, ?_, o.ann.kind.change, by rw [expandLine_opening o (hread o hl)]⟩
      have hmem : o.text ∈ f.body.map Line.text := mem_map.mpr ⟨_, hl, rfl⟩
      simp [SourceFile.lines, hmem]

theorem SourceFile.declares_bits (hread : ∀ o, .opening o ∈ f.body → ¬o.Misread)
    (d : Dict Str Change) :
    ∃ front back, enforceChanges f.expandedLines.flatten d =
      some (front ++ f.header ++ headerFields (d.map Prod.fst) ++ back) := by
  have hbody := f.expanded_body hread
  have hlines : readLines f.expandedLines.flatten = f.expandedLines := by
    refine readLines_flatten fun l hl => ?_
    rw [f.expandedLines_eq, mem_append, mem_append] at hl
    rcases hl with (hl | hl) | hl
    · exact f.terminated l (mem_append_left _ (mem_append_left _ hl))
    · obtain ⟨b, hb, rfl⟩ := mem_map.mp hl
      exact (hbody b hb).1
    · exact f.terminated l (mem_append_right _ hl)
  have hclosed : metadataClosed false (f.body.map fun l => (expandLine l.text).1) = true := by
    refine metadataClosed_of_untyped fun l hl => ?_
    obtain ⟨b, hb, rfl⟩ := mem_map.mp hl
    exact (hbody b hb).2
  obtain ⟨hbefore, hbetween, hafter⟩ := f.closed
  obtain ⟨front, hfront⟩ := enforceLines_closed (d.map Prod.fst) none hbefore
  obtain ⟨b₁, hb₁⟩ := enforceLines_closed (d.map Prod.fst) none hbetween
  obtain ⟨b₂, hb₂⟩ := enforceLines_closed (d.map Prod.fst) none hclosed
  obtain ⟨b₃, hb₃⟩ := enforceLines_closed (d.map Prod.fst) none hafter
  refine ⟨front, b₁ ++ (b₂ ++ b₃), ?_⟩
  have hrest : enforceLines (d.map Prod.fst) none (f.between ++
      (f.body.map (fun l => (expandLine l.text).1) ++ (f.after ++ []))) =
      some (b₁ ++ (b₂ ++ b₃)) := by
    rw [hb₁, hb₂, hb₃]
    simp [enforceLines]
  have hsplit : f.expandedLines = f.before ++ f.header :: (f.between ++
      (f.body.map (fun l => (expandLine l.text).1) ++ (f.after ++ []))) := by
    rw [f.expandedLines_eq]
    simp
  rw [enforceChanges, hlines, hsplit, hfront, enforceLines, if_pos f.declares, hrest]
  simp

end Declarations

section Meaning

def VersionBits {σ : Type} (M : Meaning σ) (bits : Str → Bool) : Prop :=
  ∀ version x, M.holds (testText version "1w1".toList) x = bits version ∧
    M.holds (testText version "1w0".toList) x = !bits version

theorem VersionBits.test {σ : Type} {M : Meaning σ} {bits : Str → Bool} (h : VersionBits M bits)
    (a : Ann) (x : σ) : M.holds a.test x = a.selected bits := by
  obtain ⟨hnew, hold⟩ := h a.name x
  unfold Ann.test Ann.selected
  cases a.kind.isNew
  · exact hold
  · exact hnew

/-- The expanded file stands for the annotated body under every choice of version bits. -/
structure Represents (f : SourceFile) (body : Code Ann) : Prop where
  inPlace : (expandAnnotations f.lines.flatten).1 = (f.before ++ f.header :: f.between).flatten ++
    expandedText f.body ++ f.after.flatten
  guarded : readCode decode (expandedText f.body) = some (body.guarded Ann.test)
  selects : ∀ (σ : Type) (M : Meaning σ) (bits : Str → Bool), VersionBits M bits →
    run M (body.guarded Ann.test) = run M (body.select (Ann.selected bits))
  oldProgram : ∀ (σ : Type) (M : Meaning σ), VersionBits M (fun _ => false) →
    run M (body.guarded Ann.test) = run M (body.select fun a => !a.kind.isNew)
  newProgram : ∀ (σ : Type) (M : Meaning σ), VersionBits M (fun _ => true) →
    run M (body.guarded Ann.test) = run M (body.select fun a => a.kind.isNew)
  declared : ∃ front back names, enforceChanges (expandAnnotations f.lines.flatten).1
      (expandAnnotations f.lines.flatten).2 =
        some (front ++ f.header ++ headerFields names ++ back) ∧
    names.Nodup ∧ ∀ x, x ∈ names ↔ ∃ a ∈ body.anns, a.name = x

/-- The expansion represents the annotated program if and only if no line of a new block
has `old)` behind its annotation and no `else` follows an annotated block. -/
theorem expansion_represents_iff (f : SourceFile) {body : Code Ann}
    (hbody : readCode decode (bodyText f.body) = some body) :
    Represents f body ↔ (∀ o, .opening o ∈ f.body → ¬o.Misread) ∧ body.Tidy := by
  rw [← readCode_expandedText_iff f.alone f.placed hbody]
  refine ⟨fun h => h.guarded, fun h => ?_⟩
  obtain ⟨hread, -⟩ := (readCode_expandedText_iff f.alone f.placed hbody).mp h
  have hanns := anns_body f.alone f.placed hread hbody
  have hselects : ∀ (σ : Type) (M : Meaning σ) (bits : Str → Bool), VersionBits M bits →
      run M (body.guarded Ann.test) = run M (body.select (Ann.selected bits)) :=
    fun σ M bits hM => run_guarded fun a _ x => hM.test a x
  have hexpanded : (expandAnnotations f.lines.flatten).1 = f.expandedLines.flatten := by
    rw [expandAnnotations, f.readLines_text, List.flatMap, SourceFile.expandedLines]
  refine ⟨?_, h, hselects, fun σ M hM => ?_, fun σ M hM => ?_, ?_⟩
  · rw [hexpanded, f.expandedLines_eq, flatten_append, flatten_append, expandedText, List.flatMap]
  · rw [hselects σ M _ hM]
    congr 2
    funext a
    cases hnew : a.kind.isNew <;> simp [Ann.selected, hnew]
  · rw [hselects σ M _ hM]
    congr 2
    funext a
    cases hnew : a.kind.isNew <;> simp [Ann.selected, hnew]
  · obtain ⟨front, back, hout⟩ := f.declares_bits hread (expandAnnotations f.lines.flatten).2
    obtain ⟨hnodup, hmem⟩ := record_keys [] f.lines nodup_nil
    refine ⟨front, back, (expandAnnotations f.lines.flatten).2.map Prod.fst, ?_, ?_, fun x => ?_⟩
    · rw [hexpanded]
      exact hout
    · rw [expandAnnotations, f.readLines_text]
      exact hnodup
    · rw [expandAnnotations, f.readLines_text, hmem, hanns, ← f.mem_components hread x]
      simp

end Meaning

namespace MeterUpdate

def before : List Str :=
  ["struct metadata \x7b\n".toList, "    bit<8> color;\n".toList, "\x7d\n".toList]

def header : Str := "header version_t \x7b\n".toList

def between : List Str :=
  ["\x7d\n".toList, "control Ingress() \x7b\n".toList, "  apply \x7b\n".toList]

def after : List Str := ["  \x7d\n".toList, "\x7d\n".toList]

def addMeter : Opening :=
  ⟨"    ".toList, ⟨.add, "meter".toList, by decide⟩, " ".toList, "\x7b\n".toList, by decide,
    by decide, by decide,
    by decide, by decide, by decide⟩

def oldMark : Opening :=
  ⟨"        ".toList, ⟨.modOld, "qos".toList, by decide⟩, " ".toList,
    "\x7bmark.apply();\x7d\n".toList, by decide, by decide, by decide,
    by decide, by decide, by decide⟩

def newMark : Opening :=
  ⟨"        ".toList, ⟨.modNew, "qos".toList, by decide⟩, [], "\n".toList, by decide,
    by decide, by decide,
    by decide, by decide, by decide⟩

/-- A modification inside an addition, with a brace on a line of its own. -/
def nested : SourceFile :=
  ⟨before, header, between,
    [.plain "    acl.apply();\n".toList, .opening addMeter, .opening oldMark, .opening newMark,
    .plain "        \x7bremark.apply();\x7d\n".toList, .plain "    \x7d\n".toList], after,
    by decide +kernel, by decide +kernel, by decide +kernel, by decide +kernel, by decide +kernel,
    by decide +kernel, by decide +kernel⟩

def nestedBody : Code Ann :=
  .seq (.simple "acl.apply()".toList) (.seq (.block (some addMeter.ann)
    (.seq (.block (some oldMark.ann) (.seq (.simple "mark.apply()".toList) .skip))
      (.seq (.block (some newMark.ann) (.seq (.simple "remark.apply()".toList) .skip)) .skip)))
        .skip)

def newThreshold : Opening :=
  ⟨"    ".toList, ⟨.modNew, "meter".toList, by decide⟩, " ".toList,
    "\x7bupdate(threshold);\x7d\n".toList, by decide, by decide, by decide,
    by decide, by decide, by decide⟩

def threshold : SourceFile :=
  ⟨before, header, between, [.opening newThreshold], after,
    by decide +kernel, by decide +kernel, by decide +kernel, by decide +kernel, by decide +kernel,
    by decide +kernel, by decide +kernel⟩

def addOnce : Opening :=
  ⟨"      ".toList, ⟨.add, "meter".toList, by decide⟩, " ".toList,
    "\x7bmeter.apply();\x7d\n".toList, by decide, by decide, by decide,
    by decide, by decide, by decide⟩

/-- An addition as the branch of a condition that has an `else`. -/
def dangling : SourceFile :=
  ⟨before, header, between, [.plain "    if (hdr.ipv4.isValid())\n".toList, .opening addOnce,
    .plain "    else \x7bdrop.apply();\x7d\n".toList], after,
    by decide +kernel, by decide +kernel, by decide +kernel, by decide +kernel, by decide +kernel,
    by decide +kernel, by decide +kernel⟩

/-- The statements that run on a packet with an IPv4 header. -/
def statements (bits : Str → Bool) : Meaning (List Str) where
  effect t x := x ++ [t]
  holds c _ := if c = testText "meter".toList "1w1".toList then bits "meter".toList else true

end MeterUpdate

open MeterUpdate in
theorem nested_update_represented :
    readCode decode (bodyText nested.body) = some nestedBody ∧ Represents nested nestedBody := by
  have hread : readCode decode (bodyText nested.body) = some nestedBody := by decide +kernel
  refine ⟨hread, (expansion_represents_iff nested hread).mpr ⟨?_, ?_⟩⟩
  · intro o ho
    have ho : o = addMeter ∨ o = oldMark ∨ o = newMark := by simpa [nested] using ho
    rcases ho with rfl | rfl | rfl <;> decide
  · simp [nestedBody, Code.Tidy]

open MeterUpdate in
theorem threshold_line_misread :
    bodyText threshold.body = "    @mod(meter, new) \x7bupdate(threshold);\x7d\n".toList ∧
    expandedText threshold.body =
      ("    if (hdr.version.version_meter, new) \x7bupdate(threshold);\x7d" ++
      " == 1w0) \x7bupdate(threshold);\x7d\n").toList ∧
    readCode decode (expandedText threshold.body) = none ∧
    (∀ body, ¬Represents threshold body) ∧
    (readCode decode (bodyText dangling.body)).map (fun c => run (statements fun _ => false)
      (c.select (Ann.selected fun _ => false)) []) = some [] ∧
    (readCode decode (expandedText dangling.body)).map
      (fun c => run (statements fun _ => false) c []) = some ["drop.apply()".toList] := by
  have hnone : readCode decode (expandedText threshold.body) = none := by decide +kernel
  refine ⟨by decide +kernel, by decide +kernel, hnone, fun body h => ?_, by decide +kernel,
    by decide +kernel⟩
  have hguarded := h.guarded
  rw [hnone] at hguarded
  cases hguarded

end AnnotationExpand
