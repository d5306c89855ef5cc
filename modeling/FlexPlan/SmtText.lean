import FlexPlan.PythonText
import Mathlib.Algebra.BigOperators.Group.List.Basic
import Mathlib.Tactic.Ring

/-!
# Formulas as blank-separated text

A word is a core between opening and closing parentheses. Scripts that rename symbols work on words.
What an assertion says does not depend on how a symbol is spelled.
-/
namespace SmtText

open PythonText List

structure Word where
  opens : ℕ
  core : Str
  closes : ℕ
  deriving DecidableEq

namespace Word

def text (w : Word) : Str :=
  List.replicate w.opens '(' ++ w.core ++ List.replicate w.closes ')'

def Clean (w : Word) : Prop := ∀ c ∈ w.core, c ∉ " ()\n".toList

def depth (w : Word) : ℤ := w.opens - w.closes

def rename (f : Str → Str) (w : Word) : Word := { w with core := f w.core }

end Word

/-- Text that a line does not end in and the reader does not divide. -/
abbrev Solid (s : Str) : Prop := ∀ c ∈ s, c ∉ " ()\n".toList

theorem Solid.append (ha : Solid a) (hb : Solid b) : Solid (a ++ b) :=
  fun c hc => (mem_append.mp hc).elim (ha c) (hb c)

theorem Solid.number {mark : Str} (h : Solid mark) (n : ℕ) : Solid (mark ++ ofNat n) := by
  have hdigit : ∀ c ∈ " ()\n".toList, c.isDigit = false := forall_chars (by decide)
  exact h.append fun c hc hmem => notMem_ofNat (hdigit c hmem) n hc

def declareWord : Word := ⟨1, "declare-fun".toList, 0⟩

def assertWord : Word := ⟨1, "assert".toList, 0⟩

def equalWord : Word := ⟨1, "=".toList, 0⟩

def lineText (l : List Word) : Str := join " ".toList (l.map Word.text) ++ "\n".toList

/-- `line[:-1].split(" ")`. -/
def tokens (line : Str) : List Str := split " ".toList (slice line 0 (-1))

-- The position, the start of the core and what is left of the token.
def spanGo : ℕ → ℕ → Str → ℕ × ℕ
  | j, start, [] => (start, j)
  | j, start, c :: cs =>
    if c = '(' then spanGo (j + 1) (j + 1) cs
    else if c = ')' then (start, j)
    else spanGo (j + 1) start cs

/-- The loop that looks for the core of a token: behind the last opening and before the
first closing parenthesis. -/
def span (token : Str) : ℕ × ℕ := spanGo 0 0 token

def tokenCore (token : Str) : Str := slice token (span token).1 (span token).2

def renameToken (p : Str → Bool) (f : Str → Option Str) (token : Str) : Option Str :=
  if p (tokenCore token) then
    (f (tokenCore token)).map fun name =>
      slice token 0 (span token).1 ++ name ++ sliceFrom token (span token).2
  else some token

def renameLine (p : Str → Bool) (f : Str → Option Str) (line : Str) : Option Str :=
  ((tokens line).mapM (renameToken p f)).map fun ts => join " ".toList ts ++ sliceFrom line (-1)

def lineDepth (line : Str) : ℤ := line.count '(' - line.count ')'

/-- The lines up to the one that closes all parentheses; `none` if the text ends first. -/
def takeGroup : ℤ → List Str → Option (List Str × List Str)
  | _, [] => none
  | d, l :: ls =>
    if d + lineDepth l = 0 then some ([l], ls)
    else (takeGroup (d + lineDepth l) ls).map fun g => (l :: g.1, g.2)

section Words

theorem split_join_char {parts : List Str} (hne : parts ≠ [])
    (h : ∀ p ∈ parts, a ∉ p) : split [a] (join [a] parts) = parts := by
  induction parts with
  | nil => exact absurd rfl hne
  | cons p ps ih =>
    obtain ⟨hp, hps⟩ := forall_mem_cons.mp h
    cases ps with
    | nil => simpa [join] using split_of_notMem hp
    | cons q qs =>
      rw [join, intercalate_cons_cons, append_assoc, singleton_append, split_append_char,
        split_of_notMem hp, ← join, ih (cons_ne_nil _ _) hps]
      rfl

variable {w : Word}

theorem Word.notMem_text (h : w.Clean) (hc : c ∈ " \n".toList) : c ∉ w.text := by
  have hall : ∀ c ∈ " \n".toList, c ∈ " ()\n".toList ∧ c ≠ '(' ∧ c ≠ ')' := forall_chars (by decide)
  obtain ⟨hclean, hopen, hclose⟩ := hall c hc
  rw [Word.text, mem_append, mem_append, not_or, not_or]
  exact ⟨⟨fun h => hopen (eq_of_mem_replicate h), fun hmem => h c hmem hclean⟩,
    fun h => hclose (eq_of_mem_replicate h)⟩

theorem tokens_lineText (hne : l ≠ []) (h : ∀ w ∈ l, w.Clean) :
    tokens (lineText l) = l.map Word.text := by
  rw [tokens, lineText, show "\n".toList = ['\n'] from rfl, slice_line]
  refine split_join_char (by simpa using hne) ?_
  simp only [forall_mem_map]
  exact fun w hw => Word.notMem_text (h w hw) (by decide)

theorem spanGo_opens (n j : ℕ) (rest : Str) :
    spanGo j j (List.replicate n '(' ++ rest) = spanGo (j + n) (j + n) rest := by
  induction n generalizing j with
  | zero => rfl
  | succ n ih =>
    rw [replicate_succ, cons_append, spanGo, if_pos rfl, ih]
    congr 1 <;> omega

theorem spanGo_core {core : Str} (h : Solid core) (j start : ℕ) (rest : Str) :
    spanGo j start (core ++ rest) = spanGo (j + core.length) start rest := by
  induction core generalizing j with
  | nil => rfl
  | cons c core ih =>
    obtain ⟨hc, hcore⟩ := forall_mem_cons.mp h
    have hopen : c ≠ '(' := by
      rintro rfl
      exact hc (by decide)
    have hclose : c ≠ ')' := by
      rintro rfl
      exact hc (by decide)
    rw [cons_append, spanGo, if_neg hopen, if_neg hclose, ih hcore, length_cons]
    congr 1
    omega

theorem span_word (h : w.Clean) : span w.text = (w.opens, w.opens + w.core.length) := by
  rw [span, Word.text, append_assoc, spanGo_opens, spanGo_core h, Nat.zero_add]
  cases w.closes with
  | zero => rfl
  | succ n => simp [replicate_succ, spanGo]

theorem slice_before (h : w.Clean) :
    slice w.text 0 (span w.text).1 = List.replicate w.opens '(' := by
  have hlength : w.opens = (List.replicate w.opens '(').length := by simp
  rw [span_word h, Word.text, append_assoc, hlength]
  simpa using slice_left (List.replicate w.opens '(') (w.core ++ List.replicate w.closes ')')

theorem slice_behind (h : w.Clean) :
    sliceFrom w.text (span w.text).2 = List.replicate w.closes ')' := by
  have hlength : w.opens + w.core.length = (List.replicate w.opens '(' ++ w.core).length := by simp
  rw [span_word h, hlength, Word.text]
  exact sliceFrom_right _ _

theorem tokenCore_word (h : w.Clean) : tokenCore w.text = w.core := by
  have hlength : w.opens + w.core.length = (List.replicate w.opens '(' ++ w.core).length := by simp
  have hmiddle := slice_middle (List.replicate w.opens '(') w.core (List.replicate w.closes ')')
  rw [length_replicate] at hmiddle
  rw [tokenCore, span_word h, hlength, Word.text]
  exact hmiddle

theorem renameToken_word (h : w.Clean) (p : Str → Bool) (f : Str → Option Str) :
    renameToken p f w.text =
      if p w.core then (f w.core).map fun name => ({ w with core := name } : Word).text
      else some w.text := by
  rw [renameToken, tokenCore_word h, slice_before h, slice_behind h]
  rfl

theorem sliceFrom_lineText (l : List Word) : sliceFrom (lineText l) (-1) = "\n".toList :=
  sliceFrom_last _ _

theorem mapM_flatMap {α β γ : Type} {f : β → Option γ} {g : α → List β} {h : α → List γ}
    {l : List α}
    (hf : ∀ a ∈ l, (g a).mapM f = some (h a)) : (l.flatMap g).mapM f = some (l.flatMap h) := by
  induction l with
  | nil => rfl
  | cons a l ih =>
    obtain ⟨ha, hl⟩ := forall_mem_cons.mp hf
    rw [flatMap_cons, mapM_append, ha, ih hl]
    rfl

theorem mapM_flatMap_none {α β γ : Type} {f : β → Option γ} {g : α → List β} {l : List α}
    (h : ∃ a ∈ l, (g a).mapM f = none) : (l.flatMap g).mapM f = none := by
  obtain ⟨a, ha, hnone⟩ := h
  obtain ⟨b, hb, hf⟩ := mapM_eq_none.mp hnone
  exact mapM_eq_none.mpr ⟨b, mem_flatMap.mpr ⟨a, ha, hb⟩, hf⟩

variable {p : Str → Bool} {f : Str → Option Str} {l : List Word}

theorem renameLine_lineText (hne : l ≠ []) (h : ∀ w ∈ l, w.Clean) {g : Str → Str}
    (hf : ∀ w ∈ l, p w.core = true → f w.core = some (g w.core)) :
    renameLine p f (lineText l) = some
      (lineText (l.map (Word.rename fun c => if p c then g c else c))) := by
  have hmap : (l.map Word.text).mapM (renameToken p f) =
      some (l.map fun w => (w.rename fun c => if p c then g c else c).text) := by
    rw [mapM_map]
    refine mapM_eq_some fun w hw => ?_
    rw [Function.comp_apply, renameToken_word (h w hw)]
    by_cases hp : p w.core = true
    · rw [if_pos hp, hf w hw hp, Option.map_some, Word.rename, if_pos hp]
    · rw [if_neg hp, Word.rename, if_neg hp]
  rw [renameLine, tokens_lineText hne h, hmap, sliceFrom_lineText, Option.map_some,
    lineText, map_map]
  rfl

theorem renameLine_raises (hne : l ≠ []) (h : ∀ w ∈ l, w.Clean)
    (hf : ∃ w ∈ l, p w.core = true ∧ f w.core = none) : renameLine p f (lineText l) = none := by
  obtain ⟨w, hw, hp, hnone⟩ := hf
  have hmap : (l.map Word.text).mapM (renameToken p f) = none := by
    refine mapM_eq_none.mpr ⟨w.text, mem_map_of_mem hw, ?_⟩
    rw [renameToken_word (h w hw), if_pos hp, hnone]
    rfl
  rw [renameLine, tokens_lineText hne h, hmap]
  rfl

theorem lineText_singleton (w : Word) : lineText [w] = w.text ++ ['\n'] := by
  simp [lineText, join]

theorem lineText_cons (w u : Word) (l : List Word) :
    lineText (w :: u :: l) = w.text ++ ' ' :: lineText (u :: l) := by
  simp [lineText, join]

variable {t : Str}

theorem isIn_lineText (hne : t ≠ []) (hblank : ' ' ∉ t) (hend : '\n' ∉ t) (l : List Word) :
    isIn t (lineText l) = l.any fun w => isIn t w.text := by
  have hnil : isIn t [] = false := by simpa [isIn] using hne
  induction l with
  | nil =>
    have h := isIn_append_cons (a := []) (b := []) hend hne
    rw [hnil, Bool.or_false] at h
    exact h
  | cons w l ih =>
    cases l with
    | nil => rw [lineText_singleton, isIn_append_cons hend hne, hnil, any_cons, any_nil]
    | cons u l =>
      rw [lineText_cons, isIn_append_cons hblank hne, ih]
      rfl

theorem isIn_text (hne : t ≠ []) (hopen : '(' ∉ t) (hclose : ')' ∉ t) (w : Word) :
    isIn t w.text = isIn t w.core := by
  refine isIn_pad hne ?_ ?_ w.core
  · intro c hc
    rwa [eq_of_mem_replicate hc]
  · intro c hc
    rwa [eq_of_mem_replicate hc]

theorem isPrefixOf_lineText (hblank : ' ' ∉ t) (hend : '\n' ∉ t) (w : Word) (l : List Word) :
    t.isPrefixOf (lineText (w :: l)) = t.isPrefixOf w.text := by
  rw [Bool.eq_iff_iff, List.isPrefixOf_iff_prefix, List.isPrefixOf_iff_prefix]
  cases l with
  | nil =>
    rw [lineText_singleton]
    exact ⟨prefix_left hend, fun h => h.trans (prefix_append _ _)⟩
  | cons u l =>
    rw [lineText_cons]
    exact ⟨prefix_left hblank, fun h => h.trans (prefix_append _ _)⟩

theorem isIn_blank (hblank : ' ' ∉ t) (hend : '\n' ∉ t) (h : w.Clean) (hl : ∀ u ∈ l, u.Clean) :
    isIn (' ' :: t) (lineText (w :: l)) = l.any fun u => t.isPrefixOf u.text := by
  have hw : ' ' ∉ w.text := Word.notMem_text h (by decide)
  induction l generalizing w with
  | nil =>
    refine not_isIn_of_notMem mem_cons_self ?_
    rw [lineText_singleton, mem_append, not_or]
    exact ⟨hw, by decide⟩
  | cons u l ih =>
    obtain ⟨hu, hl⟩ := forall_mem_cons.mp hl
    rw [lineText_cons, isIn_from hw, isPrefixOf_lineText hblank hend,
      ih hu hl (Word.notMem_text hu (by decide)), any_cons]

theorem prefix_core (hne : t ≠ []) (hopen : '(' ∉ t) (hclose : ')' ∉ t) (h : t <+: w.text) :
    t <+: w.core := by
  cases ho : w.opens with
  | succ n =>
    obtain ⟨x, u, rfl⟩ := exists_cons_of_ne_nil hne
    rw [Word.text, ho, replicate_succ, cons_append, cons_append] at h
    exact absurd ((cons_prefix_cons.mp h).1 ▸ mem_cons_self) hopen
  | zero =>
    rw [Word.text, ho, replicate_zero, nil_append] at h
    cases hc : w.closes with
    | zero =>
      rw [hc, replicate_zero, append_nil] at h
      exact h
    | succ n =>
      rw [hc, replicate_succ] at h
      exact prefix_left hclose h

end Words

section Groups

def depth (l : List Word) : ℤ := (l.map Word.depth).sum

theorem lineDepth_append (a b : Str) : lineDepth (a ++ b) = lineDepth a + lineDepth b := by
  simp only [lineDepth, count_append, Nat.cast_add]
  ring

theorem lineDepth_join (ts : List Str) :
    lineDepth (join " ".toList ts) = (ts.map lineDepth).sum := by
  induction ts with
  | nil => rfl
  | cons t ts ih =>
    cases ts with
    | nil => simp [join]
    | cons u ts =>
      have hblank : lineDepth " ".toList = 0 := rfl
      rw [join, intercalate_cons_cons, lineDepth_append, lineDepth_append, hblank, ← join,
        ih, add_zero]
      simp

theorem lineDepth_text {w : Word} (h : w.Clean) : lineDepth w.text = w.depth := by
  have hopen : w.core.count '(' = 0 := count_eq_zero.mpr fun hc => h _ hc (by decide)
  have hclose : w.core.count ')' = 0 := count_eq_zero.mpr fun hc => h _ hc (by decide)
  simp [lineDepth, Word.text, Word.depth, count_append, count_replicate, hopen, hclose]

theorem lineDepth_lineText (h : ∀ w ∈ l, w.Clean) : lineDepth (lineText l) = depth l := by
  have hend : lineDepth "\n".toList = 0 := rfl
  rw [lineText, lineDepth_append, hend, add_zero, lineDepth_join, map_map, depth]
  congr 1
  exact map_congr_left fun w hw => lineDepth_text (h w hw)

/-- The parentheses are closed at the end of the last line and not before. -/
def Balanced : ℤ → List (List Word) → Prop
  | _, [] => False
  | d, [l] => d + depth l = 0
  | d, l :: ls => d + depth l ≠ 0 ∧ Balanced (d + depth l) ls

theorem takeGroup_lines (hclean : ∀ l ∈ ls, ∀ w ∈ l, w.Clean) (h : Balanced d ls)
    (rest : List Str) :
    takeGroup d (ls.map lineText ++ rest) = some (ls.map lineText, rest) := by
  induction ls generalizing d with
  | nil => exact h.elim
  | cons l ls ih =>
    obtain ⟨hl, hls⟩ := forall_mem_cons.mp hclean
    rw [map_cons, cons_append, takeGroup, lineDepth_lineText hl]
    cases ls with
    | nil =>
      have h : d + depth l = 0 := h
      rw [if_pos h]
      rfl
    | cons l' ls =>
      obtain ⟨hopen, hrest⟩ := h
      rw [if_neg hopen, ih hls hrest]
      rfl

end Groups

section Meaning

variable {V : Type}

/-- A word with its symbol replaced by the value of the symbol. -/
inductive Piece (V : Type) where
  | value (opens : ℕ) (v : V) (closes : ℕ)
  | text (opens : ℕ) (t : Str) (closes : ℕ)

def Word.piece (symbol : Str → Bool) (v : Str → V) (w : Word) : Piece V :=
  if symbol w.core then .value w.opens (v w.core) w.closes else .text w.opens w.core w.closes

/-- The arguments of `(assert (= ...))`. -/
def arguments : List Str → List Word
  | [] => []
  | [a] => [⟨0, a, 2⟩]
  | a :: as => ⟨0, a, 0⟩ :: arguments as

def equation (args : List Str) : List Word :=
  assertWord :: equalWord :: arguments args

def values : List V → List (Piece V)
  | [] => []
  | [a] => [.value 0 a 2]
  | a :: as => .value 0 a 0 :: values as

/-- What assertions say. Fixed are the equations between symbols and those of a symbol
with a literal. -/
structure Semantics (V : Type) where
  holds : List (Piece V) → Prop
  literal : Str → V
  equal : ∀ a b as, holds
    (.text 1 "assert".toList 0 :: .text 1 "=".toList 0 :: values (a :: b :: as)) ↔
    ∀ x ∈ b :: as, a = x
  isLiteral : ∀ a t, holds [.text 1 "assert".toList 0, .text 1 "=".toList 0, .value 0 a 0,
    .text 0 t 2] ↔ a = literal t

theorem values_cons (a b : V) (l : List V) :
    values (a :: b :: l) = .value 0 a 0 :: values (b :: l) := rfl

theorem values_injective (h : values l = values l') : l = l' := by
  induction l generalizing l' with
  | nil =>
    cases l' with
    | nil => rfl
    | cons a l' => cases l' <;> simp [values] at h
  | cons a l ih =>
    cases l with
    | nil => rcases l' with _ | ⟨b, _ | ⟨c, l'⟩⟩ <;> simp_all [values]
    | cons b l =>
      rcases l' with _ | ⟨c, _ | ⟨d, l'⟩⟩
      · simp [values] at h
      · simp [values] at h
      · rw [values_cons, values_cons] at h
        obtain ⟨hhead, htail⟩ := List.cons.inj h
        rw [ih htail, (Piece.value.inj hhead).2.1]

theorem mem_values (h : a ∈ l) : ∃ n, Piece.value 0 a n ∈ values l := by
  induction l with
  | nil => cases h
  | cons b l ih =>
    cases l with
    | nil =>
      rw [mem_singleton.mp h]
      exact ⟨2, mem_singleton_self _⟩
    | cons c l =>
      rw [values_cons]
      rcases mem_cons.mp h with rfl | h
      · exact ⟨0, mem_cons_self⟩
      · obtain ⟨n, hn⟩ := ih h
        exact ⟨n, mem_cons_of_mem _ hn⟩

theorem literal_not_values : [Piece.value 0 a 0, .text 0 t 2] ≠ values l := by
  rcases l with _ | ⟨b, _ | ⟨c, _ | ⟨d, l⟩⟩⟩ <;> simp [values]

def Fixed (ps : List (Piece V)) : Prop :=
  (∃ vs, ps = .text 1 "assert".toList 0 :: .text 1 "=".toList 0 :: values vs) ∨
    ∃ a t, ps = [.text 1 "assert".toList 0, .text 1 "=".toList 0, .value 0 a 0, .text 0 t 2]

def Semantics.free (accepts : List (Piece V) → Prop) (literal : Str → V) : Semantics V where
  holds ps :=
    (∀ a b as, ps = .text 1 "assert".toList 0 :: .text 1 "=".toList 0 :: values (a :: b :: as) →
      ∀ x ∈ b :: as, a = x) ∧
    (∀ a t, ps = [.text 1 "assert".toList 0, .text 1 "=".toList 0, .value 0 a 0, .text 0 t 2] →
      a = literal t) ∧ (¬Fixed ps → accepts ps)
  literal := literal
  equal := by
    intro a b as
    refine ⟨fun h => h.1 a b as rfl, fun h => ⟨?_, ?_, fun hnot => ?_⟩⟩
    · intro c d cs he
      have hlist := values_injective (List.cons.inj (List.cons.inj he).2).2
      obtain ⟨rfl, hrest⟩ := List.cons.inj hlist
      rwa [← hrest]
    · intro c t he
      exact absurd (List.cons.inj (List.cons.inj he).2).2.symm literal_not_values
    · exact absurd (Or.inl ⟨_, rfl⟩) hnot
  isLiteral := by
    intro a t
    refine ⟨fun h => h.2.1 a t rfl, fun h => ⟨?_, ?_, fun hnot => ?_⟩⟩
    · intro c d cs he
      exact absurd (List.cons.inj (List.cons.inj he).2).2 literal_not_values
    · intro c u he
      obtain ⟨hvalue, htext⟩ := List.cons.inj (List.cons.inj (List.cons.inj he).2).2
      rw [← (Piece.value.inj hvalue).2.1, h, (Piece.text.inj (List.cons.inj htext).1).2.1]
    · exact absurd (Or.inr ⟨a, t, rfl⟩) hnot

theorem free_holds {accepts : List (Piece V) → Prop} (h : ∀ n a m, Piece.value n a m ∈ ps → a = e)
    (haccepts : accepts ps) : (Semantics.free accepts fun _ => e).holds ps := by
  refine ⟨?_, ?_, fun _ => haccepts⟩
  · rintro a b as rfl x hx
    have hall : ∀ y ∈ a :: b :: as, y = e := by
      intro y hy
      obtain ⟨n, hn⟩ := mem_values hy
      exact h _ _ _ (mem_cons_of_mem _ (mem_cons_of_mem _ hn))
    rw [hall a mem_cons_self, hall x (mem_cons_of_mem _ hx)]
  · rintro a t rfl
    exact h 0 a 0 (by simp)

variable {symbol : Str → Bool} {v : Str → V}

theorem piece_rename {f : Str → Str} {w : Word} (hf : symbol (f w.core) = symbol w.core)
    (hkeep : symbol w.core = false → f w.core = w.core) :
    (w.rename f).piece symbol v = w.piece symbol (v ∘ f) := by
  rw [Word.piece, Word.piece, Word.rename, hf]
  by_cases h : symbol w.core = true
  · rw [if_pos h, if_pos h, Function.comp_apply]
  · rw [if_neg h, if_neg h, hkeep (Bool.eq_false_iff.mpr h)]

theorem pieces_arguments {args : List Str} (h : ∀ a ∈ args, symbol a = true) :
    (arguments args).map (Word.piece symbol v) = values (args.map v) := by
  induction args with
  | nil => rfl
  | cons a args ih =>
    obtain ⟨ha, hargs⟩ := forall_mem_cons.mp h
    cases args with
    | nil => simp [arguments, values, Word.piece, ha]
    | cons b args =>
      rw [arguments, map_cons, ih hargs]
      · simp [values, Word.piece, ha]
      · simp

/-- No word of the frame of an equation is a symbol. -/
structure Frame (symbol : Str → Bool) : Prop where
  assert : symbol assertWord.core = false
  equal : symbol equalWord.core = false

theorem Frame.piece_assert (h : Frame symbol) :
    assertWord.piece symbol v = .text 1 "assert".toList 0 := by
  rw [Word.piece, h.assert, if_neg Bool.false_ne_true]
  rfl

theorem Frame.piece_equal (h : Frame symbol) : equalWord.piece symbol v = .text 1 "=".toList 0 := by
  rw [Word.piece, h.equal, if_neg Bool.false_ne_true]
  rfl

theorem holds_equation (S : Semantics V) (hframe : Frame symbol) {as : List Str}
    (h : ∀ x ∈ a :: b :: as, symbol x = true) :
    S.holds ((equation (a :: b :: as)).map (Word.piece symbol v)) ↔ ∀ x ∈ b :: as, v a = v x := by
  rw [equation, map_cons, map_cons, hframe.piece_assert, hframe.piece_equal,
    pieces_arguments h, map_cons,
    map_cons, S.equal, ← map_cons, forall_mem_map]

theorem holds_literal (S : Semantics V) (hframe : Frame symbol) (ha : symbol a = true)
    (ht : symbol t = false) :
    S.holds ((equation [a, t]).map (Word.piece symbol v)) ↔ v a = S.literal t := by
  have harg : (arguments [a, t]).map (Word.piece symbol v) = [.value 0 (v a) 0, .text 0 t 2] := by
    simp [arguments, Word.piece, ha, ht]
  rw [equation, map_cons, map_cons, hframe.piece_assert, hframe.piece_equal, harg, S.isLiteral]

end Meaning

section Scripts

abbrev Command := List (List Word)

def commandLines (c : Command) : List Str := c.map lineText

def scriptText (cs : List Command) : Str := (cs.flatMap commandLines).flatten

structure Printed (c : Command) : Prop where
  balanced : Balanced 0 c
  nonempty : ∀ l ∈ c, l ≠ []
  clean : ∀ l ∈ c, ∀ w ∈ l, w.Clean

variable {c : Command} {l : List Word}

theorem Printed.tokens (hc : Printed c) (hl : l ∈ c) : tokens (lineText l) = l.map Word.text :=
  tokens_lineText (hc.nonempty l hl) (hc.clean l hl)

def isBalanced : ℤ → Command → Bool
  | _, [] => false
  | d, [l] => d + depth l = 0
  | d, l :: ls => d + depth l ≠ 0 && isBalanced (d + depth l) ls

theorem isBalanced_iff : isBalanced d c = true ↔ Balanced d c := by
  induction c generalizing d with
  | nil => simp [isBalanced, Balanced]
  | cons l c ih =>
    cases c with
    | nil => simp [isBalanced, Balanced]
    | cons l' c => simp only [isBalanced, Balanced, Bool.and_eq_true, decide_eq_true_eq, ih]

def isPrinted (c : Command) : Bool :=
  isBalanced 0 c && c.all fun l => !l.isEmpty && l.all fun w => w.core.all (· ∉ " ()\n".toList)

theorem printed_of_isPrinted (h : isPrinted c = true) : Printed c := by
  obtain ⟨hbalanced, hlines⟩ := Bool.and_eq_true_iff.mp h
  have hline := fun l hl => Bool.and_eq_true_iff.mp (all_eq_true.mp hlines l hl)
  refine ⟨isBalanced_iff.mp hbalanced, ?_, ?_⟩
  · intro l hl
    simpa using (hline l hl).1
  · exact fun l hl w hw => forall_chars (all_eq_true.mp (hline l hl).2 w hw)

def readWord (token : Str) : Word :=
  ⟨(span token).1, tokenCore token, token.length - (span token).2⟩

def readLine (line : Str) : List Word := (tokens line).map readWord

-- The depth and the lines of the command that is still open.
def readCommands : ℤ → Command → List Str → List Command
  | _, part, [] => if part = [] then [] else [part]
  | d, part, l :: ls =>
    if d + lineDepth l = 0 then (part ++ [readLine l]) :: readCommands 0 [] ls
    else readCommands (d + lineDepth l) (part ++ [readLine l]) ls

def readScript (text : Str) : List Command := readCommands 0 [] (readLines text)

theorem readWord_text (h : w.Clean) : readWord w.text = w := by
  have hlength : w.text.length - (w.opens + w.core.length) = w.closes := by
    simp [Word.text]
    omega
  rw [readWord, tokenCore_word h, span_word h, hlength]

theorem readLine_lineText (hne : l ≠ []) (h : ∀ w ∈ l, w.Clean) : readLine (lineText l) = l := by
  rw [readLine, tokens_lineText hne h, map_map]
  exact (map_congr_left fun w hw => readWord_text (h w hw)).trans (map_id l)

theorem readCommands_lines (hbalanced : Balanced d c) (hne : ∀ l ∈ c, l ≠ [])
    (hclean : ∀ l ∈ c, ∀ w ∈ l, w.Clean) (part : Command) (rest : List Str) :
    readCommands d part (commandLines c ++ rest) = (part ++ c) :: readCommands 0 [] rest := by
  induction c generalizing d part with
  | nil => exact hbalanced.elim
  | cons l c ih =>
    obtain ⟨hl, hc⟩ := forall_mem_cons.mp hclean
    obtain ⟨hlne, hcne⟩ := forall_mem_cons.mp hne
    rw [commandLines, map_cons, cons_append, readCommands, lineDepth_lineText hl,
      readLine_lineText hlne hl]
    cases c with
    | nil =>
      have hclosed : d + depth l = 0 := hbalanced
      rw [if_pos hclosed]
      rfl
    | cons l' c =>
      obtain ⟨hopen, hrest⟩ := hbalanced
      rw [if_neg hopen, ← commandLines, ih hrest hcne hc]
      simp

theorem lineText_terminated (h : ∀ w ∈ l, w.Clean) : IsLine (lineText l) := by
  refine isLine_concat fun hc => ?_
  rcases mem_join hc with hc | ⟨t, ht, hc⟩
  · exact absurd hc (by decide)
  · obtain ⟨w, hw, rfl⟩ := mem_map.mp ht
    exact Word.notMem_text (h w hw) (by decide) hc

variable {cs : List Command}

section

variable (h : ∀ c ∈ cs, Printed c)

include h

theorem readLines_scriptText : readLines (scriptText cs) = cs.flatMap commandLines := by
  refine readLines_flatten fun t ht => ?_
  obtain ⟨c, hc, ht⟩ := mem_flatMap.mp ht
  obtain ⟨l, hl, rfl⟩ := mem_map.mp ht
  exact lineText_terminated ((h c hc).clean l hl)

theorem readCommands_script (rest : List Str) :
    readCommands 0 [] (cs.flatMap commandLines ++ rest) = cs ++ readCommands 0 [] rest := by
  induction cs with
  | nil => rfl
  | cons c cs ih =>
    obtain ⟨hc, hcs⟩ := forall_mem_cons.mp h
    rw [flatMap_cons, append_assoc,
      readCommands_lines hc.balanced hc.nonempty hc.clean, ih hcs, nil_append, cons_append]

theorem readScript_append (rest : Str) :
    readScript (scriptText cs ++ rest) = cs ++ readScript rest := by
  have hlines : readLines (scriptText cs ++ rest) = cs.flatMap commandLines ++ readLines rest := by
    refine readLines_append (fun t ht => ?_) rest
    obtain ⟨c, hc, ht⟩ := mem_flatMap.mp ht
    obtain ⟨l, hl, rfl⟩ := mem_map.mp ht
    exact lineText_terminated ((h c hc).clean l hl)
  rw [readScript, hlines, readCommands_script h]
  rfl

theorem readScript_scriptText : readScript (scriptText cs) = cs := by
  have hend : readScript [] = [] := rfl
  have hread := readScript_append h []
  rwa [append_nil, hend, append_nil] at hread

end

theorem scriptText_append (cs cs' : List Command) :
    scriptText (cs ++ cs') = scriptText cs ++ scriptText cs' := by
  rw [scriptText, flatMap_append, flatten_append]
  rfl

def Command.rename (f : Str → Str) (c : Command) : Command := c.map (List.map (Word.rename f))

theorem Command.rename_congr (h : ∀ l ∈ c, ∀ w ∈ l, f w.core = g w.core) :
    Command.rename f c = Command.rename g c := by
  refine map_congr_left fun l hl => map_congr_left fun w hw => ?_
  rw [Word.rename, Word.rename, h l hl w hw]

theorem depth_rename (f : Str → Str) (l : List Word) : depth (l.map (Word.rename f)) = depth l := by
  rw [depth, depth, map_map]
  rfl

variable {f : Str → Str}

theorem balanced_rename (h : Balanced d c) : Balanced d (Command.rename f c) := by
  induction c generalizing d with
  | nil => exact h
  | cons l c ih =>
    cases c with
    | nil =>
      have h : d + depth l = 0 := h
      show d + depth (l.map (Word.rename f)) = 0
      rwa [depth_rename]
    | cons l' c =>
      obtain ⟨hopen, hrest⟩ := h
      refine ⟨?_, ?_⟩
      · rwa [depth_rename]
      · rw [depth_rename]
        exact ih hrest

theorem Printed.rename (h : Printed c) (hf : ∀ l ∈ c, ∀ w ∈ l, (w.rename f).Clean) :
    Printed (Command.rename f c) where
  balanced := balanced_rename h.balanced
  nonempty := by
    intro l hl
    obtain ⟨k, hk, rfl⟩ := mem_map.mp hl
    simpa using h.nonempty k hk
  clean := by
    intro l hl w hw
    obtain ⟨k, hk, rfl⟩ := mem_map.mp hl
    obtain ⟨u, hu, rfl⟩ := mem_map.mp hw
    exact hf k hk u hu

theorem renameLine_command {f : Str → Option Str} {g : Str → Str} (h : Printed c)
    (hf : ∀ l ∈ c, ∀ w ∈ l, p w.core = true → f w.core = some (g w.core)) :
    (commandLines c).mapM (renameLine p f) =
      some (commandLines (Command.rename (fun x => if p x then g x else x) c)) := by
  have hlines : c.mapM (renameLine p f ∘ lineText) =
      some (c.map fun l => lineText (l.map (Word.rename fun x => if p x then g x else x))) :=
    mapM_eq_some fun l hl => renameLine_lineText (h.nonempty l hl) (h.clean l hl) (hf l hl)
  rw [commandLines, mapM_map, hlines, commandLines, Command.rename, map_map]
  rfl

theorem renameLine_command_raises {f : Str → Option Str} (h : Printed c)
    (hf : ∃ l ∈ c, ∃ w ∈ l, p w.core = true ∧ f w.core = none) :
    (commandLines c).mapM (renameLine p f) = none := by
  obtain ⟨l, hl, hf⟩ := hf
  exact mapM_eq_none.mpr ⟨lineText l, mem_map_of_mem hl,
    renameLine_raises (h.nonempty l hl) (h.clean l hl) hf⟩

/-- The commands that begin at a line of the given kind. The bound is the number of lines. -/
def takeGroups (starts : Str → Bool) : ℕ → List Str → Option (List (List Str))
  | _, [] => some []
  | 0, _ :: _ => none
  | n + 1, l :: ls =>
    if starts l then
      (takeGroup 0 (l :: ls)).bind fun g => (takeGroups starts n g.2).map (g.1 :: ·)
    else takeGroups starts n ls

variable {starts : Str → Bool}

theorem takeGroups_skip (h : ∀ l ∈ ls, starts l = false) (rest : List Str) :
    takeGroups starts (ls.length + n) (ls ++ rest) = takeGroups starts n rest := by
  induction ls with
  | nil => simp
  | cons l ls ih =>
    obtain ⟨hl, hls⟩ := forall_mem_cons.mp h
    have hlength : (l :: ls).length + n = ls.length + n + 1 := by
      rw [length_cons]
      omega
    rw [hlength, cons_append, takeGroups, if_neg (by simp [hl]), ih hls]

variable {gs : List (List Str)}

theorem takeGroups_mono (hnm : n ≤ m) (h : takeGroups starts n ls = some gs) :
    takeGroups starts m ls = some gs := by
  induction n generalizing m ls gs with
  | zero =>
    cases ls with
    | nil =>
      rw [takeGroups] at h ⊢
      exact h
    | cons l ls => cases h
  | succ n ih =>
    obtain ⟨m, rfl⟩ := Nat.exists_eq_add_of_le' (show 1 ≤ m by omega)
    cases ls with
    | nil => exact h
    | cons l ls =>
      rw [takeGroups] at h ⊢
      split_ifs at h ⊢ with hl
      · obtain ⟨g, hg, h⟩ := Option.bind_eq_some_iff.mp h
        obtain ⟨gs, hgs, rfl⟩ := Option.map_eq_some_iff.mp h
        rw [hg, Option.bind_some, ih (by omega) hgs]
        rfl
      · exact ih (by omega) h

theorem takeGroups_command (hc : Printed c)
    (hstarts : ∀ l ∈ (commandLines c).head?, starts l = true)
    {rest : List Str} (h : takeGroups starts n rest = some gs) :
    takeGroups starts ((commandLines c).length + n) (commandLines c ++ rest) =
      some (commandLines c :: gs) := by
  have hgroup := takeGroup_lines hc.clean hc.balanced rest
  cases c with
  | nil => exact hc.balanced.elim
  | cons l c =>
    have hl : starts (lineText l) = true := hstarts _ rfl
    have hlength : (commandLines (l :: c)).length + n = (c.length + n) + 1 := by
      rw [commandLines, length_map, length_cons]
      omega
    rw [hlength, commandLines, map_cons, cons_append, takeGroups, if_pos hl,
      ← cons_append, ← map_cons, hgroup, Option.bind_some,
      takeGroups_mono (show n ≤ c.length + n by omega) h]
    rfl

theorem takeGroups_commands {rest : List Str} (hcs : ∀ c ∈ cs, Printed c)
    (hstarts : ∀ c ∈ cs, ∀ l ∈ (commandLines c).head?, starts l = true)
    (h : takeGroups starts n rest = some gs) :
    takeGroups starts ((cs.flatMap commandLines).length + n) (cs.flatMap commandLines ++ rest) =
      some (cs.map commandLines ++ gs) := by
  induction cs with
  | nil => simpa using h
  | cons c cs ih =>
    obtain ⟨hc, hcs⟩ := forall_mem_cons.mp hcs
    obtain ⟨hstart, hstarts⟩ := forall_mem_cons.mp hstarts
    have hlength : ((c :: cs).flatMap commandLines).length + n =
        (commandLines c).length + ((cs.flatMap commandLines).length + n) := by
      rw [flatMap_cons, length_append]
      omega
    rw [hlength, flatMap_cons, append_assoc, takeGroups_command hc hstart (ih hcs hstarts)]
    rfl

def declaredName (c : Command) : Option Str :=
  match c.flatten with
  | w :: x :: _ => if w = declareWord then some x.core else none
  | _ => none

def isAssertion (c : Command) : Bool := c.flatten.head? = some assertWord

theorem declaredName_of_isAssertion (h : isAssertion c = true) : declaredName c = none := by
  have hhead := of_decide_eq_true h
  rw [declaredName]
  rcases hc : c.flatten with _ | ⟨w, _ | ⟨x, ws⟩⟩
  · rfl
  · rfl
  · rw [hc] at hhead
    have hw : w = assertWord := Option.some.inj hhead
    have hne : w ≠ declareWord := by
      rw [hw]
      decide
    exact if_neg hne

def declared (cs : List Command) : List Str := cs.filterMap declaredName

theorem declared_append (cs cs' : List Command) :
    declared (cs ++ cs') = declared cs ++ declared cs' := filterMap_append

theorem declared_assertions (h : ∀ c ∈ cs, isAssertion c = true) : declared cs = [] := by
  rw [declared, filterMap_eq_nil_iff]
  exact fun c hc => declaredName_of_isAssertion (h c hc)

variable (symbol : Str → Bool)

def symbols (c : Command) : List Str := (c.flatten.map Word.core).filter symbol

def used (cs : List Command) : List Str := (cs.filter isAssertion).flatMap (symbols symbol)

variable {V : Type}

def holdsAt (S : Semantics V) (v : Str → V) (c : Command) : Prop :=
  S.holds (c.flatten.map (Word.piece symbol v))

variable {symbol} {S : Semantics V} {v : Str → V}

theorem holdsAt_congr (h : ∀ x ∈ symbols symbol c, u x = v x) : holdsAt symbol S u c ↔
    holdsAt symbol S v c := by
  have hpieces : c.flatten.map (Word.piece symbol u) = c.flatten.map (Word.piece symbol v) := by
    refine map_congr_left fun w hw => ?_
    rw [Word.piece, Word.piece]
    split_ifs with hs
    · rw [h w.core (mem_filter.mpr ⟨mem_map_of_mem hw, hs⟩)]
    · rfl
  rw [holdsAt, holdsAt, hpieces]

theorem holdsAt_free {accepts : List (Piece V) → Prop} (h : ∀ x ∈ symbols symbol c, v x = e)
    (haccepts : accepts (c.flatten.map (Word.piece symbol v))) :
    holdsAt symbol (Semantics.free accepts fun _ => e) v c := by
  refine free_holds (fun n a m hmem => ?_) haccepts
  obtain ⟨w, hw, hpiece⟩ := mem_map.mp hmem
  rw [Word.piece] at hpiece
  split_ifs at hpiece with hs
  rw [← (Piece.value.inj hpiece).2.1]
  exact h w.core (mem_filter.mpr ⟨mem_map_of_mem hw, hs⟩)

theorem flatten_rename (f : Str → Str) (c : Command) :
    (Command.rename f c).flatten = c.flatten.map (Word.rename f) := by
  rw [Command.rename, map_flatten]

theorem holdsAt_rename (hsymbol : ∀ x, symbol (f x) = symbol x)
    (hkeep : ∀ x, symbol x = false → f x = x) :
    holdsAt symbol S v (Command.rename f c) ↔ holdsAt symbol S (v ∘ f) c := by
  rw [holdsAt, holdsAt, flatten_rename, map_map]
  have hpieces : c.flatten.map (Word.piece symbol v ∘ Word.rename f) =
      c.flatten.map (Word.piece symbol (v ∘ f)) :=
    map_congr_left fun w _ => piece_rename (hsymbol w.core) (hkeep w.core)
  rw [hpieces]

theorem symbols_rename (hsymbol : ∀ x, symbol (f x) = symbol x) (c : Command) :
    symbols symbol (Command.rename f c) = (symbols symbol c).map f := by
  rw [symbols, symbols, flatten_rename, map_map, filter_map, filter_map, map_map]
  congr 1
  exact filter_congr fun w _ => hsymbol w.core

theorem isAssertion_rename (hkeep : ∀ x, symbol x = false → f x = x) (hframe : Frame symbol)
    (h : isAssertion c = true) : isAssertion (Command.rename f c) = true := by
  have hword : Word.rename f assertWord = assertWord := by
    rw [Word.rename, hkeep _ hframe.assert]
  refine decide_eq_true ?_
  rw [flatten_rename, head?_map, of_decide_eq_true h, Option.map_some, hword]

theorem mem_symbols : x ∈ symbols symbol c ↔ symbol x = true ∧ ∃ l ∈ c, ∃ w ∈ l, w.core = x := by
  rw [symbols, mem_filter, mem_map, and_comm]
  refine and_congr_right fun _ => ⟨?_, ?_⟩
  · rintro ⟨w, hw, rfl⟩
    obtain ⟨l, hl, hw⟩ := mem_flatten.mp hw
    exact ⟨l, hl, w, hw, rfl⟩
  · rintro ⟨l, hl, w, hw, rfl⟩
    exact ⟨w, mem_flatten.mpr ⟨l, hl, hw⟩, rfl⟩

theorem mem_used : x ∈ used symbol cs ↔ ∃ c ∈ cs, isAssertion c = true ∧ x ∈ symbols symbol c := by
  rw [used, mem_flatMap]
  constructor
  · rintro ⟨c, hc, hx⟩
    obtain ⟨hc, hassert⟩ := mem_filter.mp hc
    exact ⟨c, hc, hassert, hx⟩
  · rintro ⟨c, hc, hassert, hx⟩
    exact ⟨c, mem_filter.mpr ⟨hc, hassert⟩, hx⟩

variable (symbol)

def Satisfies (S : Semantics V) (v : Str → V) (cs : List Command) : Prop :=
  ∀ c ∈ cs, isAssertion c = true → holdsAt symbol S v c

end Scripts

section Equations

/-- `"(assert (= " + " ".join(args) + "))\n"`. -/
def equationText (args : List Str) : Str :=
  "(assert (= ".toList ++ join " ".toList args ++ "))\n".toList

theorem arguments_cons (a b : Str) (as : List Str) :
    arguments (a :: b :: as) = ⟨0, a, 0⟩ :: arguments (b :: as) := by
  rw [arguments]
  simp

variable {args : List Str}

theorem lineText_arguments (hne : args ≠ []) :
    lineText (arguments args) = join " ".toList args ++ "))\n".toList := by
  have hclose : "))\n".toList = [')', ')'] ++ ['\n'] := rfl
  induction args with
  | nil => exact absurd rfl hne
  | cons a args ih =>
    have ha : Word.text ⟨0, a, 0⟩ = a := by simp [Word.text]
    cases args with
    | nil =>
      have hlast : Word.text ⟨0, a, 2⟩ = a ++ [')', ')'] := rfl
      rw [arguments, lineText_singleton, hlast, hclose, join, intercalate_singleton, append_assoc]
    | cons b args =>
      have htail := ih (cons_ne_nil _ _)
      obtain ⟨w, ws, hws⟩ := exists_cons_of_ne_nil
        (show arguments (b :: args) ≠ [] by cases args <;> simp [arguments])
      rw [hws] at htail
      rw [arguments_cons, hws, lineText_cons, ha, htail, join, join, intercalate_cons_cons]
      simp

theorem lineText_equation (hne : args ≠ []) : lineText (equation args) = equationText args := by
  have hopen : "(assert (= ".toList = assertWord.text ++ ' ' :: (equalWord.text ++ [' ']) := rfl
  obtain ⟨w, ws, hws⟩ := exists_cons_of_ne_nil
    (show arguments args ≠ [] by rcases args with _ | ⟨a, _ | ⟨b, as⟩⟩ <;> simp_all [arguments])
  unfold equationText
  rw [equation, hws, lineText_cons, lineText_cons, ← hws, lineText_arguments hne, hopen]
  simp only [append_assoc, cons_append, nil_append]

theorem mem_arguments : (∃ w ∈ arguments args, w.core = x) ↔ x ∈ args := by
  induction args with
  | nil => simp [arguments]
  | cons a args ih =>
    cases args with
    | nil => simp [arguments, eq_comm]
    | cons b args =>
      rw [arguments_cons, mem_cons, ← ih]
      simp [eq_comm]

theorem depth_arguments (hne : args ≠ []) : depth (arguments args) = -2 := by
  induction args with
  | nil => exact absurd rfl hne
  | cons a args ih =>
    cases args with
    | nil => rfl
    | cons b args =>
      have htail := ih (cons_ne_nil _ _)
      rw [depth] at htail ⊢
      rw [arguments_cons, map_cons, sum_cons, htail]
      rfl

theorem equation_printed (hne : args ≠ []) (h : ∀ a ∈ args, Solid a) :
    Printed [equation args] where
  balanced := by
    have hdepth := depth_arguments hne
    rw [depth] at hdepth
    show (0 : ℤ) + depth (equation args) = 0
    rw [depth, equation, map_cons, map_cons, sum_cons, sum_cons, hdepth]
    rfl
  nonempty := by simp [equation]
  clean := by
    have hassert : Solid "assert".toList := forall_chars (by decide)
    have hequal : Solid "=".toList := forall_chars (by decide)
    intro l hl w hw
    rw [mem_singleton.mp hl, equation] at hw
    rcases mem_cons.mp hw with rfl | hw
    · exact hassert
    · rcases mem_cons.mp hw with rfl | hw
      · exact hequal
      · exact h _ (mem_arguments.mp ⟨w, hw, rfl⟩)

theorem isAssertion_equation (args : List Str) : isAssertion [equation args] = true := by
  simp [isAssertion, equation]

variable {symbol : Str → Bool} (hframe : Frame symbol)

include hframe

theorem mem_symbols_equation : x ∈ symbols symbol [equation args] ↔ symbol x = true ∧ x ∈ args := by
  rw [mem_symbols]
  refine and_congr_right fun hx => ?_
  rw [← mem_arguments]
  constructor
  · rintro ⟨l, hl, w, hw, rfl⟩
    rw [mem_singleton.mp hl, equation] at hw
    rcases mem_cons.mp hw with rfl | hw
    · rw [hframe.assert] at hx
      cases hx
    · rcases mem_cons.mp hw with rfl | hw
      · rw [hframe.equal] at hx
        cases hx
      · exact ⟨w, hw, rfl⟩
  · rintro ⟨w, hw, rfl⟩
    exact ⟨_, mem_singleton_self _, w, mem_cons_of_mem _ (mem_cons_of_mem _ hw), rfl⟩

variable {V : Type} {S : Semantics V} {v : Str → V}

theorem holdsAt_equation {as : List Str} (h : ∀ x ∈ a :: b :: as, symbol x = true) :
    holdsAt symbol S v [equation (a :: b :: as)] ↔ ∀ x ∈ b :: as, v a = v x := by
  rw [holdsAt, flatten_singleton, holds_equation S hframe h]

theorem holdsAt_allEqual (hlength : 2 ≤ args.length) (h : ∀ x ∈ args, symbol x = true) :
    holdsAt symbol S v [equation args] ↔ ∀ x ∈ args, ∀ y ∈ args, v x = v y := by
  rcases args with _ | ⟨a, _ | ⟨b, as⟩⟩
  · simp at hlength
  · simp at hlength
  · rw [holdsAt_equation hframe h]
    constructor
    · intro hall
      have hfirst : ∀ x ∈ a :: b :: as, v a = v x := fun x hx =>
        (mem_cons.mp hx).elim (fun he => he ▸ rfl) (hall x)
      exact fun x hx y hy => (hfirst x hx).symm.trans (hfirst y hy)
    · exact fun hall x hx => hall a mem_cons_self x (mem_cons_of_mem _ hx)

theorem holdsAt_literal (ha : symbol a = true) (ht : symbol t = false) :
    holdsAt symbol S v [equation [a, t]] ↔ v a = S.literal t := by
  rw [holdsAt, flatten_singleton, holds_literal S hframe ha ht]

end Equations

end SmtText
