import FlexPlan.ConditionText

/-!
# The specification language

A `define` block has assumption lines, an arrow and assertion lines. A line is a list of literals
under one connective, an assertion line possibly negated as a whole, and bare connectives may stand
between assertion lines.
-/
namespace SpecLanguage

open PythonText ConditionText List

/-- A field, a constant or a call. -/
structure Term where
  text : Str
  isTerm : IsTerm text
  chars : ∀ c ∈ text, c ∉ ";\x7b\x7d>\n".toList
  last : ∀ c ∈ text.getLast?, c ≠ ' '

def raw (l : Literal Term) : Literal Str := l.map Term.text

inductive Connective where
  | and
  | or
  deriving DecidableEq, Repr

namespace Connective

def word : Connective → Str
  | .and => "&&".toList
  | .or => "||".toList

def text (c : Connective) : Str := ' ' :: c.word ++ " ".toList

def dual : Connective → Connective
  | .and => .or
  | .or => .and

def apply : Connective → List Bool → Bool
  | .and, vs => vs.all id
  | .or, vs => vs.any id

end Connective

structure Clause where
  first : Literal Term
  rest : List (Literal Term)
  connective : Connective

structure Assertion where
  clause : Clause
  negated : Bool

inductive Item where
  | assertion (a : Assertion)
  | separator (c : Connective)

structure Layout where
  indent : ℕ
  trail : ℕ

/-- A block; `none` stands for an empty line. -/
structure Block where
  name : Str
  name_ne_nil : name ≠ []
  name_chars : ∀ c ∈ name, c ∉ " =\x7b\n".toList
  header : Layout
  assumeLines : List (Layout × Option Clause)
  arrow : Layout
  body : List (Layout × Option Item)
  footer : Layout

section Text

def Clause.literals (c : Clause) : List (Literal Term) := c.first :: c.rest

def Clause.text (c : Clause) : Str :=
  join c.connective.text (c.literals.map fun l => (raw l).text)

def Assertion.text (a : Assertion) : Str :=
  if a.negated then "!(".toList ++ a.clause.text ++ ")".toList else a.clause.text

theorem Assertion.text_negated (c : Clause) :
    Assertion.text ⟨c, true⟩ = "!(".toList ++ c.text ++ ")".toList := rfl

theorem Assertion.text_plain (c : Clause) : Assertion.text ⟨c, false⟩ = c.text := rfl

def Item.text : Item → Str
  | .assertion a => a.text ++ ";".toList
  | .separator c => c.word

def blanks (n : ℕ) : Str := List.replicate n ' '

def Layout.line (l : Layout) (text : Str) : Str :=
  blanks l.indent ++ text ++ (blanks l.trail ++ "\n".toList)

def assumeText (c : Option Clause) : Str := (c.map fun c => c.text ++ ";".toList).getD []

def bodyText (i : Option Item) : Str := (i.map Item.text).getD []

def Block.lines (b : Block) : List Str :=
  b.header.line ("define ".toList ++ b.name ++ " = \x7b".toList) ::
    (b.assumeLines.map (fun l => l.1.line (assumeText l.2)) ++
      b.arrow.line "=>".toList ::
        (b.body.map (fun l => l.1.line (bodyText l.2)) ++ [b.footer.line "\x7d".toList]))

end Text

section Meaning

variable (τ : Atom → Bool)

def Clause.holds (c : Clause) : Bool := c.connective.apply (c.literals.map fun l => (raw l).holds τ)

def Assertion.holds (a : Assertion) : Bool := xor a.negated (a.clause.holds τ)

def Block.assumes (b : Block) : List Clause := b.assumeLines.filterMap Prod.snd

def Block.items (b : Block) : List Item := b.body.filterMap Prod.snd

def Item.assertion? : Item → Option Assertion
  | .assertion a => some a
  | .separator _ => none

def Item.separator? : Item → Option Connective
  | .assertion _ => none
  | .separator c => some c

def Block.assertions (b : Block) : List Assertion := b.items.filterMap Item.assertion?

/-- Lines under separators of one kind. -/
inductive Separated (c : Connective) : List Item → Prop where
  | last (a : Assertion) : Separated c [.assertion a]
  | next (a : Assertion) {is : List Item} (h : Separated c is) :
      Separated c (.assertion a :: .separator c :: is)

/-- The lines are separated nowhere or everywhere by the same connective. -/
def Block.Uniform (b : Block) : Prop :=
  (∀ i ∈ b.items, i.separator? = none) ∨ ∃ c, Separated c b.items

def Block.connective (b : Block) : Connective :=
  (b.items.findSome? Item.separator?).getD .and

def Block.holds (b : Block) : Bool := b.connective.apply (b.assertions.map fun a => a.holds τ)

end Meaning

theorem Connective.apply_not (c : Connective) (vs : List Bool) :
    c.dual.apply (vs.map (!·)) = !c.apply vs := by
  cases c <;> induction vs with
  | nil => rfl
  | cons v vs ih => simp_all [dual, apply]

def Clause.negate (c : Clause) : Clause :=
  ⟨c.first.negate, c.rest.map Literal.negate, c.connective.dual⟩

def Assertion.violation (a : Assertion) : Clause := if a.negated then a.clause else a.clause.negate

theorem Clause.literals_negate (c : Clause) :
    c.negate.literals = c.literals.map Literal.negate := rfl

variable (l : Literal Term)

theorem raw_negate : raw l.negate = (raw l).negate := rfl

theorem Clause.holds_negate (τ : Atom → Bool) (c : Clause) : c.negate.holds τ = !c.holds τ := by
  rw [holds, holds, ← Connective.apply_not, literals_negate, map_map, map_map]
  refine congrArg _ (map_congr_left fun l _ => ?_)
  exact Literal.holds_negate τ (raw l)

theorem Assertion.violation_holds (τ : Atom → Bool) (a : Assertion) :
    a.violation.holds τ = !a.holds τ := by
  rw [violation, holds]
  cases a.negated with
  | true => simp
  | false => simpa using a.clause.holds_negate τ

theorem terms_raw : (raw l).terms = l.terms.map Term.text := by
  obtain ⟨positive, shape⟩ := l
  cases shape <;> rfl

theorem isTerm_raw : ∀ t ∈ (raw l).terms, IsTerm t := by
  intro t ht
  rw [terms_raw] at ht
  obtain ⟨t, -, rfl⟩ := mem_map.mp ht
  exact t.isTerm

section Characters

theorem Term.notMem (t : Term) (hc : c ∈ "!=&|;\x7b\x7d>\n".toList) : c ∉ t.text := by
  intro h
  have hchars : c ∈ "!=&|".toList ∨ c ∈ ";\x7b\x7d>\n".toList := mem_append.mp hc
  rcases hchars with hc | hc
  · exact t.isTerm.chars c h hc
  · exact t.chars c h hc

theorem literal_notMem (l : Literal Term) (hc : c ∈ "&|;\x7b\x7d>\n".toList) :
    c ∉ (raw l).text := by
  intro h
  rcases Literal.mem_text h with ⟨t, ht, hct⟩ | hs
  · rw [terms_raw] at ht
    obtain ⟨t, -, rfl⟩ := mem_map.mp ht
    exact t.notMem (mem_append_right "!=".toList hc) hct
  · have hdisjoint : ∀ x ∈ marks, x ∉ "&|;\x7b\x7d>\n".toList := forall_chars (by decide)
    exact hdisjoint c hs hc

theorem Clause.mem_text {c : Clause} {x : Char} (h : x ∈ c.text) :
    x ∈ c.connective.text ∨ ∃ l ∈ c.literals, x ∈ (raw l).text := by
  rcases mem_join h with h | ⟨p, hp, hx⟩
  · exact Or.inl h
  · obtain ⟨l, hl, rfl⟩ := mem_map.mp hp
    exact Or.inr ⟨l, hl, hx⟩

theorem Clause.notMem (c : Clause) {x : Char} (hx : x ∈ ";\x7b\x7d>\n".toList) : x ∉ c.text := by
  intro h
  rcases c.mem_text h with h | ⟨l, -, h⟩
  · have hdisjoint : ∀ d : Connective, ∀ y ∈ d.text, y ∉ ";\x7b\x7d>\n".toList := by
      intro d
      cases d <;> exact forall_chars (by decide)
    exact hdisjoint _ x h hx
  · exact literal_notMem l (mem_append_right "&|".toList hx) h

end Characters

/-- A text that begins with neither a blank nor a parenthesis and does not end with a
blank. -/
structure Neat (s : Str) : Prop where
  head : ∃ c t, s = c :: t ∧ c ∉ " (".toList
  last : ∃ t c, s = t ++ [c] ∧ c ≠ ' '

theorem Neat.append (ha : Neat a) (m : Str) (hb : Neat b) : Neat (a ++ m ++ b) := by
  obtain ⟨c, t, rfl, hc⟩ := ha.head
  obtain ⟨u, d, rfl, hd⟩ := hb.last
  exact ⟨⟨c, t ++ m ++ (u ++ [d]), by simp, hc⟩, ⟨c :: t ++ m ++ u, d, by simp, hd⟩⟩

theorem Neat.join {sep p : Str} (h : ∀ q ∈ p :: ps, Neat q) : Neat (join sep (p :: ps)) := by
  induction ps generalizing p with
  | nil =>
    have hp := h p mem_cons_self
    simpa [PythonText.join] using hp
  | cons q qs ih =>
    obtain ⟨hp, hqs⟩ := forall_mem_cons.mp h
    rw [PythonText.join, intercalate_cons_cons]
    exact hp.append sep (ih hqs)

theorem Term.neat (t : Term) : Neat t.text := by
  obtain ⟨c, s, hs, hc⟩ := t.isTerm.head
  have hne : t.text ≠ [] := by
    rw [hs]
    exact cons_ne_nil _ _
  refine ⟨⟨c, s, hs, fun h => hc ?_⟩, ⟨_, _, (dropLast_append_getLast hne).symm, ?_⟩⟩
  · exact mem_append_left ")".toList h
  · exact t.last _ (getLast?_eq_some_getLast hne)

theorem neat_literal : Neat (raw l).text := by
  obtain ⟨positive, shape⟩ := l
  cases shape with
  | unary t =>
    cases positive with
    | true => exact t.neat
    | false =>
      have hbang : Neat ['!'] := ⟨⟨'!', [], rfl, by decide⟩, ⟨[], '!', rfl, by decide⟩⟩
      exact hbang.append [] t.neat
  | equal a b =>
    cases positive with
    | true | false => exact a.neat.append _ b.neat

theorem Clause.neat (c : Clause) : Neat c.text := by
  have hall : ∀ q ∈ c.literals.map fun l => (raw l).text, Neat q := by
    intro q hq
    obtain ⟨l, -, rfl⟩ := mem_map.mp hq
    exact neat_literal l
  exact Neat.join hall

theorem literal_not_negated : isIn "!(".toList (raw l).text = false := by
  obtain ⟨positive, shape⟩ := l
  have hterm : ∀ t : Term, isIn "!(".toList t.text = false := fun t =>
    not_isIn_of_notMem (c := '!') (by decide) (t.notMem (by decide))
  cases shape with
  | unary t =>
    cases positive with
    | true => exact hterm t
    | false =>
      obtain ⟨c, s, hs, hc⟩ := t.isTerm.head
      have hpar : '(' ≠ c := by
        rintro rfl
        exact hc (by decide)
      have hpre : "!(".toList.isPrefixOf ('!' :: t.text) = false := by
        rw [hs]
        simp [List.isPrefixOf, hpar]
      show isIn "!(".toList ('!' :: t.text) = false
      rw [isIn, hpre, hterm t]
      rfl
  | equal a b =>
    have hcmp : ∀ op : Str, isIn "!(".toList op = false →
        isIn "!(".toList (a.text ++ (' ' :: op ++ " ".toList) ++ b.text) = false := by
      intro op hop
      rw [isIn_spaced (by decide) (by decide), hterm a, hterm b, hop]
      rfl
    cases positive with
    | true => exact hcmp "==".toList (by decide)
    | false => exact hcmp "!=".toList (by decide)

theorem Clause.not_negated (c : Clause) : isIn "!(".toList c.text = false := by
  obtain ⟨first, rest, conn⟩ := c
  have hword : isIn "!(".toList conn.word = false := by cases conn <;> decide
  show isIn "!(".toList (join conn.text ((first :: rest).map fun l => (raw l).text)) = false
  induction rest generalizing first with
  | nil => simpa [join] using literal_not_negated first
  | cons l ls ih =>
    rw [map_cons, map_cons, join, intercalate_cons_cons, Connective.text,
      isIn_spaced (by decide) (by decide), literal_not_negated first, hword]
    exact ih l

/-- A search text that does not occur in the layout of a line. -/
abbrev Visible (needle : Str) : Prop := needle ≠ [] ∧ ' ' ∉ needle ∧ '\n' ∉ needle

theorem Layout.isIn_line {needle : Str} (h : Visible needle) (l : Layout) (text : Str) :
    isIn needle (l.line text) = isIn needle text := by
  obtain ⟨hne, hsp, hnl⟩ := h
  refine isIn_pad hne ?_ ?_ text
  · intro c hc
    rwa [eq_of_mem_replicate hc]
  · intro c hc
    rcases mem_append.mp hc with hc | hc
    · rwa [eq_of_mem_replicate hc]
    · rwa [mem_singleton.mp hc]

end SpecLanguage
