import Mathlib.Data.Char
import Mathlib.Data.List.DropRight
import Mathlib.Data.List.Forall2
import Mathlib.Data.List.Infix
import Mathlib.Data.List.Lex

/-!
# Text operations of the scripting language

Matches are taken leftmost and never overlap, negative slice bounds count from the right end, and
lines keep their terminator. Nothing here depends on the program under verification.
-/
namespace PythonText

open List

abbrev Str := List Char

instance : LawfulBEq Str := inferInstance

/-- The test `needle in hay`. -/
def isIn (needle : Str) : Str → Bool
  | [] => needle.isEmpty
  | c :: cs => needle.isPrefixOf (c :: cs) || isIn needle cs

def index? (needle : Str) : Str → Option ℕ
  | [] => if needle.isEmpty then some 0 else none
  | c :: cs =>
    if needle.isPrefixOf (c :: cs) then some 0 else (index? needle cs).map (· + 1)

/-- `hay.find(needle)`: -1 stands for absence. -/
def find (needle hay : Str) : ℤ :=
  match index? needle hay with
  | some i => i
  | none => -1

/-- `hay.find(needle, start)` for a start inside or behind the text. -/
def findFrom (needle hay : Str) (start : ℕ) : ℤ :=
  if hay.length < start then -1 else
    match index? needle (hay.drop start) with
    | some i => (start + i : ℕ)
    | none => -1

def clampIndex (len : ℕ) (i : ℤ) : ℕ :=
  if i < 0 then (len + i).toNat else min i.toNat len

/-- `s[a:b]` with the usual meaning of negative bounds. -/
def slice (s : Str) (a b : ℤ) : Str :=
  (s.take (clampIndex s.length b)).drop (clampIndex s.length a)

/-- `s[a:]`. -/
def sliceFrom (s : Str) (a : ℤ) : Str := s.drop (clampIndex s.length a)

-- The counter holds how many characters of a match are still to be skipped, which
-- keeps the recursion structural on the text.
def splitGo (sep : Str) : ℕ → Str → Str → List Str
  | _, cur, [] => [cur.reverse]
  | k + 1, cur, _ :: cs => splitGo sep k cur cs
  | 0, cur, c :: cs =>
    if sep.isPrefixOf (c :: cs) then cur.reverse :: splitGo sep (sep.length - 1) [] cs
    else splitGo sep 0 (c :: cur) cs

/-- `s.split(sep)` for a nonempty separator. -/
def split (sep s : Str) : List Str := splitGo sep 0 [] s

def replaceGo (old new : Str) : ℕ → Str → Str
  | _, [] => []
  | k + 1, _ :: cs => replaceGo old new k cs
  | 0, c :: cs =>
    if old.isPrefixOf (c :: cs) then new ++ replaceGo old new (old.length - 1) cs
    else c :: replaceGo old new 0 cs

/-- `s.replace(old, new)`; an empty `old` matches between any two characters. -/
def replace (old new s : Str) : Str :=
  if old.isEmpty then new ++ s.flatMap (· :: new) else replaceGo old new 0 s

/-- `s.strip(chars)`. -/
def strip (chars s : Str) : Str := (s.dropWhile (· ∈ chars)).rdropWhile (· ∈ chars)

/-- `sep.join(parts)`. -/
def join (sep : Str) (parts : List Str) : Str := sep.intercalate parts

/-- The lines delivered by repeated `readline`, terminators included. -/
def readLines : Str → List Str
  | [] => []
  | c :: cs =>
    if c = '\n' then [c] :: readLines cs else
      match readLines cs with
      | [] => [[c]]
      | l :: ls => (c :: l) :: ls

def IsLine (l : Str) : Prop := l.getLast? = some '\n' ∧ '\n' ∉ l.dropLast

instance (l : Str) : Decidable (IsLine l) := inferInstanceAs (Decidable (_ ∧ _))

def digit? (c : Char) : Option ℕ := if c.isDigit then some (c.toNat - 48) else none

-- The flag says whether the previous character was a digit: a single underscore is
-- accepted between two digits and nowhere else.
def digitsGo : ℕ → Bool → Str → Option ℕ
  | n, last, [] => if last then some n else none
  | n, last, c :: cs =>
    if c = '_' then if last then digitsGo n false cs else none
    else (digit? c).bind fun d => digitsGo (10 * n + d) true cs

/-- `int(s)`; `none` stands for the raised error. -/
def int? (s : Str) : Option ℤ :=
  match strip [' ', '\n', '\t', '\r'] s with
  | '-' :: cs => (digitsGo 0 false cs).map fun n => -(n : ℤ)
  | '+' :: cs | cs => (digitsGo 0 false cs).map fun n => (n : ℤ)

/-- `str(n)` of an integer. -/
def ofInt (n : ℤ) : Str := (toString n).toList

/-- `str(n)` of a natural number. -/
def ofNat (n : ℕ) : Str := Nat.toDigits 10 n

def strLe : Str → Str → Bool
  | [], _ => true
  | _ :: _, [] => false
  | a :: as, b :: bs => a < b || (a = b && strLe as bs)

/-- Insertion-ordered dictionaries; assigning to a present key keeps its place. -/
abbrev Dict (α β : Type*) := List (α × β)

variable {α β : Type*} [DecidableEq α]

def Dict.get? (d : Dict α β) (k : α) : Option β := (d.find? fun e => e.1 = k).map Prod.snd

def Dict.set : Dict α β → α → β → Dict α β
  | [], k, v => [(k, v)]
  | (k', v') :: d, k, v => if k' = k then (k, v) :: d else (k', v') :: Dict.set d k v

/-- `d[k].append(v)` on a dictionary whose missing entries are empty lists. -/
def Dict.push (d : Dict α (List β)) (k : α) (v : β) : Dict α (List β) :=
  Dict.set d k ((Dict.get? d k).getD [] ++ [v])

variable {s : Str}

theorem forall_chars [DecidablePred p] (h : s.all (fun c => decide (p c)) = true) :
    ∀ c ∈ s, p c := fun c hc =>
  of_decide_eq_true (all_eq_true.mp h c hc)

theorem isIn_iff {needle hay : Str} : isIn needle hay = true ↔ needle <:+: hay := by
  induction hay with
  | nil => simp [isIn]
  | cons c cs ih =>
    rw [infix_cons_iff, ← ih, ← List.isPrefixOf_iff_prefix]
    simp [isIn]

variable {c : Char}

theorem not_isIn_of_notMem {needle hay : Str} (hc : c ∈ needle) (hn : c ∉ hay) :
    isIn needle hay = false := by
  rw [Bool.eq_false_iff]
  intro h
  exact hn ((isIn_iff.mp h).subset hc)

variable {needle a : Str}

theorem isIn_append_left (h : isIn needle a = true) (b : Str) : isIn needle (a ++ b) = true :=
  isIn_iff.mpr ((isIn_iff.mp h).trans (prefix_append a b).isInfix)

theorem isIn_append_right (a : Str) (h : isIn needle b = true) : isIn needle (a ++ b) = true :=
  isIn_iff.mpr ((isIn_iff.mp h).trans (suffix_append a b).isInfix)

theorem isIn_append_of_head (hc : c ∉ s) : isIn (c :: w) (s ++ t) = isIn (c :: w) t := by
  induction s with
  | nil => rfl
  | cons x s ih =>
    obtain ⟨hx, hs⟩ := not_or.mp (mt mem_cons.mpr hc)
    have hp : (c :: w).isPrefixOf (x :: (s ++ t)) = false := by simp [List.isPrefixOf, hx]
    rw [cons_append, isIn, hp, ih hs, Bool.false_or]

theorem isIn_from (ha : c ∉ a) :
    isIn (c :: w) (a ++ c :: b) = (w.isPrefixOf b || isIn (c :: w) b) := by
  rw [isIn_append_of_head ha]
  simp [isIn, List.isPrefixOf]

theorem prefix_left (hc : c ∉ t) (h : t <+: a ++ c :: b) : t <+: a := by
  induction t generalizing a with
  | nil => exact nil_prefix
  | cons x t ih =>
    obtain ⟨hx, ht⟩ := not_or.mp (mt mem_cons.mpr hc)
    cases a with
    | nil => exact absurd (cons_prefix_cons.mp h).1.symm hx
    | cons y a =>
      obtain ⟨rfl, hrest⟩ := cons_prefix_cons.mp h
      exact cons_prefix_cons.mpr ⟨rfl, ih ht hrest⟩

theorem isIn_unique (ha : c ∉ a) (hb : c ∉ b) : isIn (c :: w) (a ++ c :: b) = w.isPrefixOf b := by
  rw [isIn_from ha, not_isIn_of_notMem mem_cons_self hb, Bool.or_false]

theorem isIn_append_cons (hc : c ∉ needle) (hne : needle ≠ []) :
    isIn needle (a ++ c :: b) = (isIn needle a || isIn needle b) := by
  rw [Bool.eq_iff_iff, Bool.or_eq_true, isIn_iff, isIn_iff, isIn_iff]
  constructor
  · intro h
    rcases infix_append_iff_ne_nil.mp h with h | h | ⟨l₁, l₂, _, hl₂, rfl, _, hp⟩
    · exact Or.inl h
    · rcases infix_cons_iff.mp h with hp | h
      · -- a nonempty prefix of `c :: b` would have to begin with `c`
        obtain ⟨x, xs, rfl⟩ := exists_cons_of_ne_nil hne
        obtain ⟨rfl, _⟩ := cons_prefix_cons.mp hp
        exact absurd mem_cons_self hc
      · exact Or.inr h
    · obtain ⟨x, xs, rfl⟩ := exists_cons_of_ne_nil hl₂
      obtain ⟨rfl, _⟩ := cons_prefix_cons.mp hp
      exact absurd (mem_append_right l₁ mem_cons_self) hc
  · rintro (h | h)
    · exact h.trans (prefix_append a _).isInfix
    · exact h.trans ((suffix_cons c b).isInfix.trans (suffix_append a _).isInfix)

theorem isIn_pad {needle pre post : Str} (hne : needle ≠ []) (hpre : ∀ c ∈ pre, c ∉ needle)
    (hpost : ∀ c ∈ post, c ∉ needle) (s : Str) :
    isIn needle (pre ++ s ++ post) = isIn needle s := by
  have hempty : isIn needle [] = false := by simpa [isIn] using hne
  have hfalse : ∀ q : Str, (∀ c ∈ q, c ∉ needle) → isIn needle q = false := by
    intro q hq
    obtain ⟨x, xs, rfl⟩ := exists_cons_of_ne_nil hne
    exact not_isIn_of_notMem mem_cons_self fun h => hq x h mem_cons_self
  have hright : isIn needle (s ++ post) = isIn needle s := by
    cases post with
    | nil => rw [append_nil]
    | cons c post =>
      obtain ⟨hc, hpost⟩ := forall_mem_cons.mp hpost
      rw [isIn_append_cons hc hne, hfalse post hpost, Bool.or_false]
  rw [append_assoc, ← hright]
  induction pre with
  | nil => rfl
  | cons c pre ih =>
    obtain ⟨hc, hpre⟩ := forall_mem_cons.mp hpre
    have h := isIn_append_cons (a := []) (b := pre ++ (s ++ post)) hc hne
    rw [hempty, Bool.false_or, ih hpre] at h
    exact h

theorem append_cons_inj (hu : c ∉ u) (hw : c ∉ w) (h : a ++ c :: u = b ++ c :: w) :
    a = b ∧ u = w := by
  rcases append_eq_append_iff.mp h with ⟨r, rfl, hr⟩ | ⟨r, rfl, hr⟩
  · cases r with
    | nil => simpa using hr
    | cons x r =>
      have hmem : c ∈ u := by
        rw [(List.cons.inj hr).2]
        simp
      exact absurd hmem hu
  · cases r with
    | nil => simpa using hr.symm
    | cons x r =>
      have hmem : c ∈ w := by
        rw [(List.cons.inj hr).2]
        simp
      exact absurd hmem hw

theorem cons_append_inj (ha : c ∉ a) (hb : c ∉ b) (h : a ++ c :: u = b ++ c :: w) :
    a = b ∧ u = w := by
  have hreverse : u.reverse ++ c :: a.reverse = w.reverse ++ c :: b.reverse := by
    have hcongr := congrArg List.reverse h
    simpa using hcongr
  obtain ⟨hu, ha⟩ := append_cons_inj (by simpa using ha) (by simpa using hb) hreverse
  exact ⟨reverse_injective ha, reverse_injective hu⟩

theorem clampIndex_natCast {len i : ℕ} (h : i ≤ len) : clampIndex len i = i := by
  rw [clampIndex, if_neg (by omega), Int.toNat_natCast, min_eq_left h]

theorem clampIndex_last (s : Str) (c : Char) : clampIndex (s ++ [c]).length (-1) = s.length := by
  rw [clampIndex, if_pos (by decide), length_append, length_singleton]
  omega

theorem slice_left (a b : Str) : slice (a ++ b) 0 a.length = a := by
  rw [slice, clampIndex_natCast (by simp), take_left]
  rfl

theorem sliceFrom_right (a b : Str) : sliceFrom (a ++ b) a.length = b := by
  rw [sliceFrom, clampIndex_natCast (by simp), drop_left]

theorem slice_inner (a b : Char) (s : Str) : slice (a :: s ++ [b]) 1 (-1) = s := by
  have hlow : clampIndex (a :: s ++ [b]).length 1 = 1 := by simp [clampIndex]
  rw [slice, hlow, clampIndex_last (a :: s), take_left]
  rfl

theorem slice_middle (a b c : Str) : slice (a ++ b ++ c) a.length (a ++ b).length = b := by
  rw [slice, clampIndex_natCast (by simp), clampIndex_natCast (by simp), take_left, drop_left]

theorem slice_natCast (s : Str) (a b : ℕ) : slice s a b = (s.take b).drop a := by
  have hclamp : ∀ n : ℕ, clampIndex s.length n = min n s.length := by
    intro n
    rw [clampIndex, if_neg (by omega), Int.toNat_natCast]
  rw [slice, hclamp, hclamp, ← take_eq_take_min]
  by_cases h : a ≤ s.length
  · rw [Nat.min_eq_left h]
  · have htake : (s.take b).length ≤ s.length := length_take_le' _ _
    rw [Nat.min_eq_right (by omega), drop_eq_nil_of_le htake, drop_eq_nil_of_le (by omega)]

theorem slice_append (a w : Str) (x y : ℕ) :
    slice (a ++ w) (a.length + x : ℕ) (a.length + y : ℕ) = (w.take y).drop x := by
  rw [slice_natCast, take_length_add_append, drop_length_add_append]

theorem slice_nil {a b : ℕ} (h : b ≤ a) : slice s a b = [] := by
  rw [slice_natCast, drop_eq_nil_of_le]
  exact (length_take_le _ _).trans h

theorem slice_extends (h : (a ++ q).length ≤ clampIndex (a ++ q ++ r).length b) :
    ∃ junk, slice (a ++ q ++ r) a.length b = q ++ junk := by
  refine ⟨r.take (clampIndex (a ++ q ++ r).length b - (a ++ q).length), ?_⟩
  rw [slice, clampIndex_natCast (by simp), take_append, take_of_length_le h,
    append_assoc, drop_left]

theorem slice_line (s : Str) (c : Char) : slice (s ++ [c]) 0 (-1) = s := by
  rw [slice, clampIndex_last, take_left]
  rfl

theorem sliceFrom_last (s : Str) (c : Char) : sliceFrom (s ++ [c]) (-1) = [c] := by
  rw [sliceFrom, clampIndex_last, drop_left]

theorem splitGo_skip (sep : Str) (k : ℕ) (cur s : Str) :
    splitGo sep k cur s = splitGo sep 0 cur (s.drop k) := by
  induction k generalizing s with
  | zero => simp
  | succ k ih =>
    cases s with
    | nil => simp [splitGo]
    | cons c cs => simpa [splitGo] using ih cs

/-- When the second character of the separator does not occur in a part, the part
is copied whole: no match can start inside it. -/
theorem splitGo_part {a b : Char} (hb : b ∉ p) (hab : b ≠ a) (cur rest : Str) :
    splitGo (a :: b :: t) 0 cur (p ++ (a :: b :: t) ++ rest) =
      (cur.reverse ++ p) :: split (a :: b :: t) rest := by
  induction p generalizing cur with
  | nil =>
    have hp : (a :: b :: t).isPrefixOf (a :: (b :: (t ++ rest))) = true := by
      rw [List.isPrefixOf_iff_prefix]
      exact ⟨rest, by simp⟩
    simp [splitGo, hp, splitGo_skip _ (t.length + 1), split]
  | cons x p ih =>
    have hx : b ≠ x := fun h => hb (h ▸ mem_cons_self)
    have hp : (a :: b :: t).isPrefixOf (x :: (p ++ (a :: b :: t) ++ rest)) = false := by
      rw [Bool.eq_false_iff]
      intro h
      obtain ⟨_, h⟩ := cons_prefix_cons.mp (List.isPrefixOf_iff_prefix.mp h)
      cases p with
      | nil => exact hab (cons_prefix_cons.mp h).1
      | cons y p =>
        obtain ⟨rfl, _⟩ := cons_prefix_cons.mp h
        exact hb (mem_cons_of_mem _ mem_cons_self)
    simp only [cons_append, splitGo]
    rw [if_neg (Bool.eq_false_iff.mp hp), ih (fun h => hb (mem_cons_of_mem _ h))]
    simp

theorem splitGo_last {a b : Char} (hb : b ∉ p) (cur : Str) :
    splitGo (a :: b :: t) 0 cur p = [cur.reverse ++ p] := by
  induction p generalizing cur with
  | nil => simp [splitGo]
  | cons x p ih =>
    have hp : (a :: b :: t).isPrefixOf (x :: p) = false := by
      rw [Bool.eq_false_iff]
      intro h
      have hm := (List.isPrefixOf_iff_prefix.mp h).subset
        (mem_cons_of_mem a (mem_cons_self (a := b) (l := t)))
      exact hb hm
    simp only [splitGo]
    rw [if_neg (Bool.eq_false_iff.mp hp), ih (fun h => hb (mem_cons_of_mem _ h))]
    simp

theorem split_join {a b : Char} (hab : b ≠ a) {parts : List Str} (hne : parts ≠ [])
    (hb : ∀ p ∈ parts, b ∉ p) :
    split (a :: b :: t) (join (a :: b :: t) parts) = parts := by
  induction parts with
  | nil => exact absurd rfl hne
  | cons p ps ih =>
    have hp := hb p mem_cons_self
    cases ps with
    | nil => simpa [split, join] using splitGo_last (a := a) (t := t) hp []
    | cons q qs =>
      have hrec := ih (cons_ne_nil _ _) (fun r hr => hb r (mem_cons_of_mem _ hr))
      rw [join, intercalate_cons_cons]
      have hs := splitGo_part (t := t) hp hab [] (join (a :: b :: t) (q :: qs))
      rw [hrec] at hs
      simpa [split, join] using hs

theorem split_char_last {a : Char} (h : a ∉ p) (cur : Str) :
    splitGo [a] 0 cur p = [cur.reverse ++ p] := by
  induction p generalizing cur with
  | nil => simp [splitGo]
  | cons x p ih =>
    obtain ⟨hx, hp⟩ := not_or.mp (mt mem_cons.mpr h)
    rw [splitGo, if_neg (by simpa using hx), ih hp]
    simp

theorem split_of_notMem {a : Char} (h : a ∉ s) : split [a] s = [s] := by
  simpa [split] using split_char_last h []

theorem split_append_char (a : Char) (s t : Str) :
    split [a] (s ++ a :: t) = split [a] s ++ split [a] t := by
  have hgo : ∀ cur, splitGo [a] 0 cur (s ++ a :: t) = splitGo [a] 0 cur s ++ split [a] t := by
    induction s with
    | nil => intro cur; simp [splitGo, split]
    | cons x s ih =>
      intro cur
      by_cases hx : a = x
      · subst hx
        simp [splitGo, ih]
      · have hp : ∀ r : Str, ¬[a].isPrefixOf (x :: r) = true := by simp [hx]
        rw [cons_append, splitGo, if_neg (hp _), ih, splitGo, if_neg (hp _)]
  exact hgo []

theorem split_ne_nil (a : Char) (s : Str) : split [a] s ≠ [] := by
  have hgo : ∀ cur, splitGo [a] 0 cur s ≠ [] := by
    induction s with
    | nil => simp [splitGo]
    | cons x s ih =>
      intro cur
      rw [splitGo]
      split
      · exact cons_ne_nil _ _
      · exact ih _
  exact hgo []

theorem join_append {sep : Str} (hl : l ≠ []) (hm : m ≠ []) :
    join sep (l ++ m) = join sep l ++ sep ++ join sep m := by
  induction l with
  | nil => exact absurd rfl hl
  | cons x l ih =>
    cases l with
    | nil =>
      obtain ⟨y, m, rfl⟩ := exists_cons_of_ne_nil hm
      simp [join]
    | cons y l =>
      have h := ih (cons_ne_nil _ _)
      rw [join, join, cons_append] at h
      rw [join, join, cons_append, cons_append, intercalate_cons_cons, h, intercalate_cons_cons]
      simp only [append_assoc]

theorem join_split (a : Char) (s : Str) : join [a] (split [a] s) = s := by
  have hgo : ∀ cur, join [a] (splitGo [a] 0 cur s) = cur.reverse ++ s := by
    induction s with
    | nil => simp [splitGo, join]
    | cons x s ih =>
      intro cur
      by_cases hx : a = x
      · subst hx
        have hcons : join [a] ([cur.reverse] ++ split [a] s) = _ :=
          join_append (cons_ne_nil cur.reverse []) (split_ne_nil a s)
        have hrest : join [a] (split [a] s) = s := ih []
        rw [hrest, singleton_append] at hcons
        simpa [splitGo, split, join] using hcons
      · have hp : ¬[a].isPrefixOf (x :: s) = true := by simp [hx]
        rw [splitGo, if_neg hp, ih]
        simp
  exact hgo []

theorem replaceGo_skip (old new : Str) (k : ℕ) (s : Str) :
    replaceGo old new k s = replaceGo old new 0 (s.drop k) := by
  induction k generalizing s with
  | zero => simp
  | succ k ih =>
    cases s with
    | nil => simp [replaceGo]
    | cons c cs => simpa [replaceGo] using ih cs

variable {old : Str}

theorem replace_eq (hne : old ≠ []) (new s : Str) : replace old new s = replaceGo old new 0 s := by
  rw [replace, if_neg (by simpa using hne)]

theorem replace_nil (hne : old ≠ []) (new : Str) : replace old new [] = [] := by
  rw [replace_eq hne]
  rfl

theorem replace_match (hne : old ≠ []) (new rest : Str) :
    replace old new (old ++ rest) = new ++ replace old new rest := by
  rw [replace_eq hne, replace_eq hne]
  obtain ⟨o, os, rfl⟩ := exists_cons_of_ne_nil hne
  have hp : (o :: os).isPrefixOf (o :: (os ++ rest)) = true :=
    List.isPrefixOf_iff_prefix.mpr ⟨rest, rfl⟩
  simp only [cons_append, replaceGo, length_cons, Nat.add_sub_cancel]
  rw [if_pos hp, replaceGo_skip, drop_left]

theorem replace_keep (hne : old ≠ []) (new : Str) (h : ¬old <+: c :: cs) :
    replace old new (c :: cs) = c :: replace old new cs := by
  rw [replace_eq hne, replace_eq hne, replaceGo, if_neg (mt List.isPrefixOf_iff_prefix.mp h)]

theorem replace_induction {old new : Str} (hne : old ≠ []) {P : Str → Str → Prop}
    (nil : P [] []) (hit : ∀ rest r, P rest r → P (old ++ rest) (new ++ r))
    (keep : ∀ c cs r, P cs r → P (c :: cs) (c :: r)) (s : Str) : P s (replace old new s) := by
  induction hn : s.length using Nat.strong_induction_on generalizing s with
  | h n ih =>
    cases s with
    | nil =>
      rw [replace_nil hne]
      exact nil
    | cons c cs =>
      by_cases hp : old <+: c :: cs
      · obtain ⟨rest, he⟩ := hp
        have hlen : rest.length < n := by
          rw [← hn, ← he, length_append]
          have := length_pos_of_ne_nil hne
          omega
        rw [← he, replace_match hne]
        exact hit rest _ (ih _ hlen rest rfl)
      · rw [replace_keep hne new hp]
        exact keep c cs _ (ih cs.length (by rw [← hn]; simp) cs rfl)

theorem replace_append_cons (hne : old ≠ []) (hc : c ∉ old) (new a b : Str) :
    replace old new (a ++ c :: b) = replace old new a ++ c :: replace old new b := by
  -- induction on the length, because a match consumes several characters at once
  induction hn : a.length using Nat.strong_induction_on generalizing a with
  | h n ih =>
    cases a with
    | nil =>
      have hp : ¬old <+: c :: b := by
        intro hp
        obtain ⟨o, os, rfl⟩ := exists_cons_of_ne_nil hne
        obtain ⟨rfl, _⟩ := cons_prefix_cons.mp hp
        exact hc mem_cons_self
      rw [replace_nil hne, nil_append, nil_append, replace_keep hne new hp]
    | cons x a =>
      by_cases hp : old <+: x :: a
      · obtain ⟨rest, he⟩ := hp
        have hlen : rest.length < n := by
          rw [← hn, ← he, length_append]
          have := length_pos_of_ne_nil hne
          omega
        rw [← he, append_assoc, replace_match hne, replace_match hne, ih _ hlen rest rfl,
          append_assoc]
      · have hp' : ¬old <+: x :: (a ++ c :: b) := mt (prefix_left (a := x :: a) hc) hp
        rw [cons_append, replace_keep hne new hp', replace_keep hne new hp,
          ih a.length (by rw [← hn]; simp) a rfl, cons_append]

theorem replace_disjoint (hne : old ≠ []) (new : Str) (h : ∀ c ∈ s, c ∉ old) :
    replace old new s = s := by
  induction s with
  | nil => exact replace_nil hne new
  | cons c s ih =>
    obtain ⟨hc, hs⟩ := forall_mem_cons.mp h
    have hcons := replace_append_cons hne hc new [] s
    rw [replace_nil hne, ih hs] at hcons
    exact hcons

theorem replace_of_not_isIn (hne : old ≠ []) (new : Str) (h : isIn old s = false) :
    replace old new s = s := by
  induction s with
  | nil => exact replace_nil hne new
  | cons c s ih =>
    rw [isIn, Bool.or_eq_false_iff] at h
    rw [replace_keep hne new (fun hp => ?_), ih h.2]
    rw [List.isPrefixOf_iff_prefix.mpr hp] at h
    cases h.1

theorem strip_pad {chars pre post : Str} (hpre : ∀ c ∈ pre, c ∈ chars)
    (hpost : ∀ c ∈ post, c ∈ chars) (s : Str) :
    strip chars (pre ++ s ++ post) = strip chars s := by
  have hright : ∀ t : Str, (t ++ post).rdropWhile (· ∈ chars) = t.rdropWhile (· ∈ chars) := by
    intro t
    rw [List.rdropWhile, reverse_append, dropWhile_append_of_pos (by simpa using hpost),
      ← List.rdropWhile]
  rw [strip, strip, append_assoc, dropWhile_append_of_pos (by simpa using hpre)]
  by_cases hs : ∀ c ∈ s, c ∈ chars
  · have hd : ∀ t : Str, (∀ c ∈ t, c ∈ chars) → t.dropWhile (· ∈ chars) = [] :=
      fun t ht => dropWhile_eq_nil_iff.mpr (by simpa using ht)
    rw [dropWhile_append_of_pos (by simpa using hs), hd s hs, hd post hpost]
  · have hd : (s ++ post).dropWhile (· ∈ chars) = s.dropWhile (· ∈ chars) ++ post := by
      rw [dropWhile_append]
      have hne : s.dropWhile (· ∈ chars) ≠ [] := fun h =>
        hs (by simpa using dropWhile_eq_nil_iff.mp h)
      simp [hne]
    rw [hd, hright]

theorem strip_core {chars core : Str} (hhead : ∀ c, core.head? = some c → c ∉ chars)
    (hlast : ∀ c, core.getLast? = some c → c ∉ chars) : strip chars core = core := by
  cases core with
  | nil => rfl
  | cons x core =>
    have hd : (x :: core).dropWhile (· ∈ chars) = x :: core := by simp [hhead x rfl]
    rw [strip, hd, rdropWhile_eq_self_iff]
    intro hl
    simpa using hlast _ (getLast?_eq_some_getLast hl)

theorem strip_padded {chars pre core post : Str} (hpre : ∀ c ∈ pre, c ∈ chars)
    (hpost : ∀ c ∈ post, c ∈ chars)
    (hhead : ∀ c, core.head? = some c → c ∉ chars)
    (hlast : ∀ c, core.getLast? = some c → c ∉ chars) :
    strip chars (pre ++ core ++ post) = core := by
  rw [strip_pad hpre hpost, strip_core hhead hlast]

theorem index?_eq_none_iff : index? needle s = none ↔ isIn needle s = false := by
  induction s with
  | nil => cases needle <;> simp [index?, isIn]
  | cons c cs ih =>
    by_cases hp : needle.isPrefixOf (c :: cs) = true
    · simp [index?, isIn, hp]
    · simp [index?, isIn, hp, ih]

theorem index?_from (ha : c ∉ a) : index? (c :: w) (a ++ c :: b) =
      if w.isPrefixOf b then some a.length else (index? (c :: w) b).map (· + (a.length + 1)) := by
  induction a with
  | nil => simp [index?, List.isPrefixOf]
  | cons x a ih =>
    obtain ⟨hx, ha⟩ := not_or.mp (mt mem_cons.mpr ha)
    have hp : ¬(c :: w).isPrefixOf (x :: (a ++ c :: b)) = true := by simp [List.isPrefixOf, hx]
    rw [cons_append, index?, if_neg hp, ih ha]
    split_ifs
    · rfl
    · rw [Option.map_map]
      rfl

theorem index?_append (hc : c ∉ a) (b : Str) :
    index? (c :: t) (a ++ (c :: t) ++ b) = some a.length := by
  rw [append_assoc, cons_append, index?_from hc,
    if_pos (List.isPrefixOf_iff_prefix.mpr (prefix_append t b))]

theorem index?_first (h : isIn needle (a ++ needle.dropLast) = false) (b : Str) :
    index? needle (a ++ needle ++ b) = some a.length := by
  induction a with
  | nil =>
    cases needle with
    | nil => simp [isIn] at h
    | cons c t => exact index?_append not_mem_nil b
  | cons c a ih =>
    rw [cons_append, isIn, Bool.or_eq_false_iff] at h
    have hlength : needle.length ≤ (c :: (a ++ needle.dropLast)).length := by
      rw [length_cons, length_append, length_dropLast]
      omega
    have hshort : c :: (a ++ needle.dropLast) <+: c :: (a ++ needle ++ b) := by
      refine prefix_cons_inj c |>.mpr ?_
      rw [append_assoc, prefix_append_right_inj]
      exact (List.dropLast_prefix needle).trans (prefix_append needle b)
    have hstart : needle.isPrefixOf (c :: (a ++ needle ++ b)) = false := by
      rw [Bool.eq_false_iff]
      intro hp
      have hp := prefix_of_prefix_length_le (List.isPrefixOf_iff_prefix.mp hp) hshort hlength
      rw [List.isPrefixOf_iff_prefix.mpr hp] at h
      cases h.1
    rw [cons_append, cons_append, index?, hstart, ih h.2]
    rfl

theorem prefix_of_index? (h : index? needle s = some i) : needle <+: s.drop i := by
  induction s generalizing i with
  | nil =>
    rw [index?] at h
    split_ifs at h with hempty
    rw [isEmpty_iff.mp hempty]
    exact nil_prefix
  | cons c cs ih =>
    rw [index?] at h
    split_ifs at h with hp
    · rw [← Option.some.inj h]
      exact List.isPrefixOf_iff_prefix.mp hp
    · obtain ⟨j, hj, rfl⟩ := Option.map_eq_some_iff.mp h
      exact ih hj

theorem isIn_append_of_last (hlast : needle.getLast? = some c) (hc : c ∉ t) :
    isIn needle (s ++ t) = isIn needle s := by
  rw [Bool.eq_iff_iff, isIn_iff, isIn_iff]
  constructor
  · intro h
    rcases infix_append_iff_ne_nil.mp h with h | h | ⟨l, m, _, hm, rfl, _, hp⟩
    · exact h
    · exact absurd (h.subset (mem_of_getLast? hlast)) hc
    · rw [getLast?_append_of_ne_nil l hm] at hlast
      exact absurd (hp.subset (mem_of_getLast? hlast)) hc
  · exact fun h => h.trans (prefix_append s t).isInfix

theorem index?_skip (hc : c ∉ needle) (ha : isIn needle a = false) :
    index? needle (a ++ c :: b) = (index? needle (c :: b)).map (· + a.length) := by
  induction a with
  | nil => simp
  | cons x a ih =>
    rw [isIn, Bool.or_eq_false_iff] at ha
    have hp : ¬needle.isPrefixOf (x :: (a ++ c :: b)) = true := by
      intro h
      have hleft := prefix_left (a := x :: a) hc (List.isPrefixOf_iff_prefix.mp h)
      rw [List.isPrefixOf_iff_prefix.mpr hleft] at ha
      exact absurd ha.1 (by decide)
    rw [cons_append, index?, if_neg hp, ih ha.2, Option.map_map]
    rfl

theorem find_of_index? (h : index? needle s = some n) : find needle s = n := by
  rw [find, h]

theorem not_isIn_take (hne : needle ≠ []) (h : index? needle s = some n) :
    isIn needle (s.take n) = false := by
  induction s generalizing n with
  | nil =>
    rw [take_nil]
    simpa [isIn] using hne
  | cons c s ih =>
    rw [index?] at h
    split_ifs at h with hp
    · rw [← Option.some.inj h, take_zero]
      simpa [isIn] using hne
    · obtain ⟨m, hm, rfl⟩ := Option.map_eq_some_iff.mp h
      rw [take_succ_cons, isIn, ih hm, Bool.or_false, Bool.eq_false_iff]
      intro hpre
      refine hp (List.isPrefixOf_iff_prefix.mpr ((List.isPrefixOf_iff_prefix.mp hpre).trans ?_))
      exact cons_prefix_cons.mpr ⟨rfl, List.take_prefix _ _⟩

theorem index?_of_isIn (hne : needle ≠ []) (h : isIn needle a = true) (b : Str) :
    ∃ k < a.length, index? needle (a ++ b) = some k := by
  induction a with
  | nil => simp [isIn, hne] at h
  | cons x a ih =>
    by_cases hp : needle.isPrefixOf (x :: (a ++ b)) = true
    · exact ⟨0, Nat.succ_pos _, by rw [cons_append, index?, if_pos hp]⟩
    · have hp' : needle.isPrefixOf (x :: a) = false := by
        rw [Bool.eq_false_iff]
        intro h'
        exact hp (List.isPrefixOf_iff_prefix.mpr ((List.isPrefixOf_iff_prefix.mp h').trans
          (prefix_append (x :: a) b)))
      rw [isIn, hp', Bool.false_or] at h
      obtain ⟨k, hk, hindex⟩ := ih h
      exact ⟨k + 1, Nat.succ_lt_succ hk, by rw [cons_append, index?, if_neg hp, hindex]; rfl⟩

theorem readLines_line (hs : '\n' ∉ s) (t : Str) :
    readLines (s ++ '\n' :: t) = (s ++ ['\n']) :: readLines t := by
  induction s with
  | nil => simp [readLines]
  | cons c s ih =>
    obtain ⟨hc, hs⟩ := not_or.mp (mt mem_cons.mpr hs)
    rw [cons_append, readLines, if_neg (Ne.symm hc), ih hs]
    rfl

theorem readLines_last (hs : '\n' ∉ s) (hne : s ≠ []) : readLines s = [s] := by
  induction s with
  | nil => exact absurd rfl hne
  | cons c s ih =>
    obtain ⟨hc, hs⟩ := not_or.mp (mt mem_cons.mpr hs)
    rw [readLines, if_neg (Ne.symm hc)]
    by_cases h : s = []
    · rw [h]
      rfl
    · rw [ih hs h]

theorem readLines_append (h : ∀ l ∈ ls, IsLine l) (rest : Str) :
    readLines (ls.flatten ++ rest) = ls ++ readLines rest := by
  induction ls with
  | nil => rfl
  | cons l ls ih =>
    obtain ⟨⟨hlast, hinner⟩, hls⟩ := forall_mem_cons.mp h
    have hl : l.dropLast ++ ['\n'] = l := dropLast_append_getLast? _ hlast
    have hflat : (l :: ls).flatten ++ rest = l.dropLast ++ '\n' :: (ls.flatten ++ rest) := by
      rw [flatten_cons]
      nth_rewrite 1 [← hl]
      simp
    rw [hflat, readLines_line hinner, ih hls, hl, cons_append]

theorem readLines_flatten (h : ∀ l ∈ ls, IsLine l) : readLines ls.flatten = ls := by
  have hread := readLines_append h []
  rwa [append_nil, readLines, append_nil] at hread

theorem IsLine.append (h : IsLine l) (ha : '\n' ∉ a) : IsLine (a ++ l) := by
  have hne : l ≠ [] := by
    rintro rfl
    cases h.1
  refine ⟨by rw [getLast?_append_of_ne_nil a hne]; exact h.1, ?_⟩
  rw [dropLast_append_of_ne_nil hne, mem_append, not_or]
  exact ⟨ha, h.2⟩

theorem isLine_concat (h : '\n' ∉ s) : IsLine (s ++ ['\n']) :=
  ⟨getLast?_concat, by rwa [dropLast_concat]⟩

theorem IsLine.exists_eq (h : IsLine l) : ∃ t, l = t ++ ['\n'] ∧ '\n' ∉ t :=
  ⟨l.dropLast, (dropLast_append_getLast? _ h.1).symm, h.2⟩

theorem isDigit_of_mem_ofNat (h : c ∈ ofNat n) : c.isDigit = true :=
  Nat.isDigit_of_mem_toDigits (b := 10) (by decide) (by decide) h

theorem notMem_ofNat (hc : c.isDigit = false) (n : ℕ) : c ∉ ofNat n := by
  intro h
  rw [isDigit_of_mem_ofNat h] at hc
  cases hc

theorem ne_underscore (hc : c.isDigit = true) : c ≠ '_' := by
  rintro rfl
  cases hc

variable (n : ℕ)

theorem ofNat_ne_nil : ofNat n ≠ [] := Nat.toDigits_ne_nil

theorem digitsGo_digits (h : ∀ c ∈ cs, c.isDigit = true) (n : ℕ) :
    digitsGo n true cs = some (Nat.ofDigitChars 10 cs n) := by
  induction cs generalizing n with
  | nil => rfl
  | cons c cs ih =>
    obtain ⟨hc, hcs⟩ := forall_mem_cons.mp h
    rw [digitsGo, if_neg (ne_underscore hc), digit?, if_pos hc, Option.bind_some, ih hcs,
      Nat.ofDigitChars_cons]
    rfl

theorem ofDigitChars_ofNat : Nat.ofDigitChars 10 (ofNat n) 0 = n :=
  Nat.ofDigitChars_toDigits (by decide) (by decide)

theorem ofNat_injective : Function.Injective ofNat := by
  intro m n h
  rw [← ofDigitChars_ofNat m, h, ofDigitChars_ofNat]

theorem ofInt_natCast : ofInt n = ofNat n := by
  change (Nat.repr n).toList = Nat.toDigits 10 n
  rw [Nat.repr_eq_ofList_toDigits, String.toList_ofList]

theorem int?_digits (hne : s ≠ []) (h : ∀ c ∈ s, c.isDigit = true) :
    int? s = some (Nat.ofDigitChars 10 s 0 : ℤ) := by
  have hstrip : strip [' ', '\n', '\t', '\r'] s = s := by
    have hblank : ∀ c ∈ s, c ∉ [' ', '\n', '\t', '\r'] := by
      intro c hc hmem
      have hall : ∀ c ∈ [' ', '\n', '\t', '\r'], c.isDigit = false := forall_chars (by decide)
      have hdigit := h c hc
      rw [hall c hmem] at hdigit
      cases hdigit
    refine strip_core ?_ ?_
    · exact fun c hc => hblank c (mem_of_head? hc)
    · exact fun c hc => hblank c (mem_of_getLast? hc)
  rw [int?, hstrip]
  cases s with
  | nil => exact absurd rfl hne
  | cons c cs =>
    obtain ⟨hc, hrest⟩ := forall_mem_cons.mp h
    have hstart : digitsGo 0 false (c :: cs) = some (Nat.ofDigitChars 10 (c :: cs) 0) := by
      rw [digitsGo, if_neg (ne_underscore hc), digit?, if_pos hc, Option.bind_some,
        digitsGo_digits hrest,
        Nat.ofDigitChars_cons]
      rfl
    split
    · rename_i he
      cases he
      cases hc
    · rename_i he
      cases he
      cases hc
    · rw [hstart]
      rfl

theorem int?_ofNat : int? (ofNat n) = some (n : ℤ) := by
  rw [int?_digits (ofNat_ne_nil n) fun c => isDigit_of_mem_ofNat, ofDigitChars_ofNat]

theorem mem_strip (h : c ∈ s) (hc : c ∉ chars) : c ∈ strip chars s := by
  have hdrop : ∀ {t : Str}, c ∈ t → c ∈ t.dropWhile (· ∈ chars) := by
    intro t ht
    rw [← takeWhile_append_dropWhile (p := (· ∈ chars)) (l := t), mem_append] at ht
    refine ht.resolve_left fun hmem => hc ?_
    have hpass := mem_takeWhile_imp hmem
    exact of_decide_eq_true hpass
  rw [strip, List.rdropWhile, mem_reverse]
  exact hdrop (mem_reverse.mpr (hdrop h))

theorem digitsGo_of_mem (h : c ∈ s) (hdigit : c.isDigit = false) (hc : c ≠ '_') (n : ℕ)
    (last : Bool) :
    digitsGo n last s = none := by
  induction s generalizing n last with
  | nil => cases h
  | cons d s ih =>
    rw [digitsGo]
    rcases mem_cons.mp h with rfl | h
    · rw [if_neg hc, digit?, hdigit]
      rfl
    · split_ifs
      · exact ih h n false
      · rfl
      · cases digit? d with
        | none => rfl
        | some d => exact ih h _ true

theorem int?_of_mem (h : c ∈ s) (hdigit : c.isDigit = false) (hc : c ∉ "_-+ \n\t\r".toList) :
    int? s = none := by
  have hne : ∀ d ∈ "_-+ \n\t\r".toList, c ≠ d := fun d hd heq => hc (heq ▸ hd)
  have hstrip : c ∈ strip [' ', '\n', '\t', '\r'] s := by
    refine mem_strip h fun hmem => hc ?_
    revert hmem
    simp only [mem_cons, not_mem_nil, or_false]
    rintro (rfl | rfl | rfl | rfl) <;> decide
  have hdigits : ∀ {t : Str}, c ∈ t → digitsGo 0 false t = none :=
    fun ht => digitsGo_of_mem ht hdigit (hne '_' (by decide)) 0 false
  rw [int?]
  split
  · rename_i he
    rw [he] at hstrip
    rw [hdigits ((mem_cons.mp hstrip).resolve_left (hne '-' (by decide)))]
    rfl
  · rename_i he
    rw [he] at hstrip
    rw [hdigits ((mem_cons.mp hstrip).resolve_left (hne '+' (by decide)))]
    rfl
  · rw [hdigits hstrip]
    rfl

theorem strLe_iff : strLe a b = true ↔ a ≤ b := by
  rw [← not_lt]
  induction a generalizing b with
  | nil => simp [strLe]
  | cons x a ih =>
    cases b with
    | nil => simp [strLe]
    | cons y b =>
      simp only [strLe, Bool.or_eq_true, Bool.and_eq_true, decide_eq_true_eq, ih, cons_lt_cons_iff]
      rcases lt_trichotomy x y with h | rfl | h
      · simp [h, h.not_gt, h.ne']
      · simp
      · simp [h, h.not_gt, h.ne']

theorem strLe_total (a b : Str) : strLe a b = true ∨ strLe b a = true := by
  rw [strLe_iff, strLe_iff]
  exact le_total a b

theorem strLe_trans {a b c : Str} (hab : strLe a b = true) (hbc : strLe b c = true) :
    strLe a c = true :=
  strLe_iff.mpr ((strLe_iff.mp hab).trans (strLe_iff.mp hbc))

theorem strLe_antisymm (hab : strLe a b = true) (hba : strLe b a = true) : a = b :=
  (strLe_iff.mp hab).antisymm (strLe_iff.mp hba)

theorem strLe_then_iff {q : Bool} : (decide (a ≠ b) && strLe a b || decide (a = b) && q) = true ↔
    strLe a b = true ∧ (strLe b a = true → q = true) := by
  by_cases h : a = b
  · simp [h, (strLe_total b b).elim id id]
  · have hanti : strLe a b = true → ¬strLe b a = true := fun hab hba => h (strLe_antisymm hab hba)
    simp only [h, decide_false, ne_eq, not_false_eq_true, decide_true, Bool.true_and,
      Bool.false_and,
      Bool.or_false]
    exact ⟨fun hab => ⟨hab, fun hba => absurd hba (hanti hab)⟩, fun hab => hab.1⟩

theorem strLe_append (p a b : Str) : strLe (p ++ a) (p ++ b) = strLe a b := by
  induction p with
  | nil => rfl
  | cons x p ih => simp [strLe, ih]

theorem strLe_of_append (h : strLe (a ++ x) (b ++ y) = true) : strLe a b = true ∨ b <+: a := by
  induction a generalizing b with
  | nil => exact Or.inl rfl
  | cons c a ih =>
    cases b with
    | nil => exact Or.inr nil_prefix
    | cons d b =>
      simp only [cons_append, strLe, Bool.or_eq_true, Bool.and_eq_true, decide_eq_true_eq] at h ⊢
      rcases h with h | ⟨rfl, h⟩
      · exact Or.inl (Or.inl h)
      · rcases ih h with h | h
        · exact Or.inl (Or.inr ⟨rfl, h⟩)
        · exact Or.inr ((cons_prefix_cons).mpr ⟨rfl, h⟩)

theorem Dict.mem_keys_set {d : Dict α β} {k k' : α} {v : β} :
    k' ∈ (d.set k v).map Prod.fst ↔ k' = k ∨ k' ∈ d.map Prod.fst := by
  induction d with
  | nil => simp [Dict.set]
  | cons e d ih =>
    obtain ⟨k₀, v₀⟩ := e
    rw [Dict.set]
    split_ifs with hk
    · subst hk
      simp
    · rw [map_cons, mem_cons, ih, map_cons, mem_cons]
      tauto

theorem Dict.nodup_keys_set {d : Dict α β} (h : (d.map Prod.fst).Nodup) (k : α) (v : β) :
    ((d.set k v).map Prod.fst).Nodup := by
  induction d with
  | nil => simp [Dict.set]
  | cons e d ih =>
    obtain ⟨k₀, v₀⟩ := e
    obtain ⟨hnot, hd⟩ := nodup_cons.mp h
    rw [Dict.set]
    split_ifs with hk
    · subst hk
      exact h
    · refine nodup_cons.mpr ⟨?_, ih hd⟩
      rw [Dict.mem_keys_set, not_or]
      exact ⟨hk, hnot⟩

variable {k : α}

theorem Dict.set_of_notMem {d : Dict α β} (h : k ∉ d.map Prod.fst) (v : β) :
    d.set k v = d ++ [(k, v)] := by
  induction d with
  | nil => rfl
  | cons e d ih =>
    obtain ⟨hk, hd⟩ := not_or.mp (mt mem_cons.mpr h)
    rw [Dict.set, if_neg (Ne.symm hk), ih hd]
    rfl

theorem Dict.get?_of_notMem {d : Dict α β} (h : k ∉ d.map Prod.fst) : d.get? k = none := by
  rw [Dict.get?, Option.map_eq_none_iff, find?_eq_none]
  intro e he hk
  exact h (mem_map.mpr ⟨e, he, of_decide_eq_true hk⟩)

variable {d : Dict α (List β)}

theorem Dict.push_of_notMem (h : k ∉ d.map Prod.fst) (v : β) : d.push k v = d ++ [(k, [v])] := by
  rw [Dict.push, Dict.get?_of_notMem h, Dict.set_of_notMem h]
  rfl

theorem Dict.push_last (h : k ∉ d.map Prod.fst) (l : List β) (v : β) :
    (d ++ [(k, l)]).push k v = d ++ [(k, l ++ [v])] := by
  have hget : Dict.get? (d ++ [(k, l)]) k = some l := by
    have hnone : d.find? (fun e => e.1 = k) = none :=
      find?_eq_none.mpr fun e he hk => h (of_decide_eq_true hk ▸ mem_map_of_mem he)
    rw [Dict.get?, find?_append, hnone]
    simp
  rw [Dict.push, hget]
  clear hget
  induction d with
  | nil => simp [Dict.set]
  | cons e d ih =>
    obtain ⟨hne, hd⟩ := not_or.mp (mt mem_cons.mpr h)
    have hset := ih hd
    rw [cons_append, Dict.set, if_neg (Ne.symm hne), hset]
    rfl

theorem Dict.get?_set (d : Dict α β) (k k' : α) (v : β) :
    (d.set k v).get? k' = if k' = k then some v else d.get? k' := by
  induction d with
  | nil =>
    rw [Dict.set, Dict.get?, find?_cons]
    by_cases hk : k' = k
    · simp [hk]
    · simp [Ne.symm hk, hk, Dict.get?]
  | cons e d ih =>
    obtain ⟨k₀, v₀⟩ := e
    rw [Dict.set]
    by_cases h₀ : k₀ = k
    · subst h₀
      by_cases hk : k' = k₀
      · simp [Dict.get?, hk]
      · simp [Dict.get?, hk, Ne.symm hk]
    · rw [if_neg h₀]
      by_cases hk : k₀ = k'
      · subst hk
        simp [Dict.get?, h₀]
      · have hrest : ∀ d' : Dict α β, Dict.get? ((k₀, v₀) :: d') k' = Dict.get? d' k' := by
          intro d'
          simp [Dict.get?, hk]
        rw [hrest, hrest, ih]

theorem Dict.get?_push (d : Dict α (List β)) (k k' : α) (v : β) :
    ((d.push k v).get? k').getD [] = (d.get? k').getD [] ++ if k' = k then [v] else [] := by
  rw [Dict.push, Dict.get?_set]
  by_cases hk : k' = k
  · simp [hk]
  · simp [hk]

theorem Dict.get?_eq_some_iff {d : Dict α β} (h : (d.map Prod.fst).Nodup) :
    d.get? k = some v ↔ (k, v) ∈ d := by
  induction d with
  | nil => simp [Dict.get?]
  | cons e d ih =>
    obtain ⟨k₀, v₀⟩ := e
    obtain ⟨hnotMem, hnodup⟩ := nodup_cons.mp h
    by_cases hk : k₀ = k
    · subst hk
      have hrest : (k₀, v) ∉ d := fun hmem => hnotMem (mem_map.mpr ⟨(k₀, v), hmem, rfl⟩)
      simp [Dict.get?, hrest, eq_comm]
    · have hcons : Dict.get? ((k₀, v₀) :: d) k = Dict.get? d k := by simp [Dict.get?, hk]
      rw [hcons, ih hnodup, mem_cons, Prod.mk.injEq]
      exact ⟨Or.inr, fun h => h.resolve_left fun heq => hk heq.1.symm⟩

theorem Dict.get?_foldl_push (l : List (α × β)) (d : Dict α (List β)) (k : α) :
    ((l.foldl (fun d e => Dict.push d e.1 e.2) d).get? k).getD [] =
      (d.get? k).getD [] ++ (l.filter fun e => e.1 = k).map Prod.snd := by
  induction l generalizing d with
  | nil => simp
  | cons e l ih =>
    rw [foldl_cons, ih, Dict.get?_push, append_assoc]
    by_cases hk : k = e.1
    · simp [hk]
    · simp [hk, Ne.symm hk]

theorem Dict.mem_keys_foldl_push {l : List (α × β)} :
    k ∈ (l.foldl (fun d e => Dict.push d e.1 e.2) d).map Prod.fst ↔
      k ∈ d.map Prod.fst ∨ k ∈ l.map Prod.fst := by
  induction l generalizing d with
  | nil => simp
  | cons e l ih =>
    rw [foldl_cons, ih, Dict.push, Dict.mem_keys_set, map_cons, mem_cons]
    tauto

theorem Dict.nodup_keys_foldl_push (l : List (α × β)) (h : (d.map Prod.fst).Nodup) :
    ((l.foldl (fun d e => Dict.push d e.1 e.2) d).map Prod.fst).Nodup := by
  induction l generalizing d with
  | nil => exact h
  | cons e l ih =>
    rw [foldl_cons]
    exact ih (Dict.nodup_keys_set h _ _)

theorem Dict.mem_foldl_push {l : List (α × β)} {vs : List β} :
    (k, vs) ∈ l.foldl (fun d e => Dict.push d e.1 e.2) [] ↔
      vs ≠ [] ∧ vs = (l.filter fun e => e.1 = k).map Prod.snd := by
  have hnodup : ((l.foldl (fun d e => Dict.push d e.1 e.2) []).map Prod.fst).Nodup :=
    Dict.nodup_keys_foldl_push l nodup_nil
  have hvalue : ∀ ws, (k, ws) ∈ l.foldl (fun d e => Dict.push d e.1 e.2) [] →
      ws = (l.filter fun e => e.1 = k).map Prod.snd := by
    intro ws hws
    have hget := Dict.get?_foldl_push l [] k
    rw [(Dict.get?_eq_some_iff hnodup).mpr hws] at hget
    simpa [Dict.get?] using hget
  have hkeys : k ∈ (l.foldl (fun d e => Dict.push d e.1 e.2) []).map Prod.fst ↔
      (l.filter fun e => e.1 = k).map Prod.snd ≠ [] := by
    rw [Dict.mem_keys_foldl_push]
    simp [filter_eq_nil_iff]
  constructor
  · intro h
    have hvs := hvalue vs h
    exact ⟨hvs ▸ hkeys.mp (mem_map.mpr ⟨(k, vs), h, rfl⟩), hvs⟩
  · rintro ⟨hne, hvs⟩
    obtain ⟨⟨k', ws⟩, hmem, rfl⟩ := mem_map.mp (hkeys.mpr (hvs ▸ hne))
    rw [hvs, ← hvalue ws hmem]
    exact hmem

theorem Dict.get?_foldl_set (links : List (α × β)) (d : Dict α β) (x : α) :
    (links.foldl (fun m e => Dict.set m e.1 e.2) d).get? x =
      ((links.reverse.find? fun e => e.1 = x).map Prod.snd).or (d.get? x) := by
  induction links using List.reverseRecOn with
  | nil => simp
  | append_singleton links e ih =>
    rw [foldl_append, foldl_cons, foldl_nil, Dict.get?_set, ih, reverse_append,
      reverse_singleton, singleton_append]
    by_cases hx : x = e.1
    · simp [hx]
    · simp [hx, Ne.symm hx]

theorem Dict.get?_foldl_set_iff {links : List (α × β)}
    (h : ∀ x y y', (x, y) ∈ links → (x, y') ∈ links → y = y') :
    (links.foldl (fun m e => Dict.set m e.1 e.2) []).get? x = some y ↔ (x, y) ∈ links := by
  have hempty : Dict.get? ([] : Dict α β) x = none := rfl
  rw [Dict.get?_foldl_set, hempty, Option.or_none, Option.map_eq_some_iff]
  constructor
  · rintro ⟨e, hfind, rfl⟩
    have hkey : e.1 = x := by simpa using find?_some hfind
    exact hkey ▸ mem_reverse.mp (mem_of_find?_eq_some hfind)
  · intro hy
    cases hfind : links.reverse.find? (fun e => e.1 = x) with
    | none => exact absurd (find?_eq_none.mp hfind _ (mem_reverse.mpr hy)) (by simp)
    | some e =>
      have hkey : e.1 = x := by simpa using find?_some hfind
      exact ⟨e, rfl, h _ _ _ (hkey ▸ mem_reverse.mp (mem_of_find?_eq_some hfind)) hy⟩

section Loops

variable {α β : Type}

theorem mapM_eq_some {f : α → Option β} {g : α → β} {l : List α} (h : ∀ a ∈ l, f a = some (g a)) :
    l.mapM f = some (l.map g) := by
  induction l with
  | nil => rfl
  | cons a l ih =>
    obtain ⟨ha, hl⟩ := forall_mem_cons.mp h
    rw [mapM_cons, ha, ih hl]
    rfl

theorem mapM_eq_none {f : α → Option β} {l : List α} : l.mapM f = none ↔ ∃ a ∈ l, f a = none := by
  induction l with
  | nil => simp
  | cons a l ih =>
    rw [mapM_cons]
    simp only [mem_cons, exists_eq_or_imp, ← ih]
    cases f a with
    | none => simp
    | some b => cases l.mapM f <;> simp

theorem mapM_inv (h : l.mapM f = some r) : List.Forall₂ (fun a b => f a = some b) l r := by
  induction l generalizing r with
  | nil =>
    obtain rfl := Option.some.inj h
    exact .nil
  | cons a l ih =>
    rw [mapM_cons] at h
    obtain ⟨b, hb, h⟩ := Option.bind_eq_some_iff.mp h
    obtain ⟨bs, hbs, h⟩ := Option.bind_eq_some_iff.mp h
    obtain rfl := Option.some.inj h
    exact .cons hb (ih hbs)

theorem mem_join {sep : Str} {parts : List Str} (h : c ∈ join sep parts) :
    c ∈ sep ∨ ∃ p ∈ parts, c ∈ p := by
  induction parts with
  | nil => cases h
  | cons p ps ih =>
    cases ps with
    | nil => exact Or.inr ⟨p, mem_cons_self, by simpa [join] using h⟩
    | cons q qs =>
      rw [join, intercalate_cons_cons] at h
      rcases mem_append.mp h with h | h
      · rcases mem_append.mp h with h | h
        · exact Or.inr ⟨p, mem_cons_self, h⟩
        · exact Or.inl h
      · rcases ih h with h | ⟨r, hr, hc⟩
        · exact Or.inl h
        · exact Or.inr ⟨r, mem_cons_of_mem _ hr, hc⟩

theorem foldl_last {α β : Type*} {q : α → Bool} {f : α → β} (l : List α) (v : β) :
    l.foldl (fun v x => if q x then f x else v) v = ((l.reverse.find? q).map f).getD v := by
  induction l using reverseRecOn with
  | nil => rfl
  | append_singleton l x ih =>
    rw [foldl_append, foldl_cons, foldl_nil, reverse_append, reverse_singleton, singleton_append,
      find?_cons, ih]
    cases q x <;> rfl

theorem exists_of_forall₂ (h : List.Forall₂ R l m) :
    (∀ b ∈ m, ∃ a ∈ l, R a b) ∧ ∀ a ∈ l, ∃ b ∈ m, R a b := by
  induction h with
  | nil => exact ⟨fun _ h => absurd h not_mem_nil, fun _ h => absurd h not_mem_nil⟩
  | cons hab _ ih =>
    constructor
    · refine forall_mem_cons.mpr ⟨⟨_, mem_cons_self, hab⟩, fun b hb => ?_⟩
      obtain ⟨a, ha, h⟩ := ih.1 b hb
      exact ⟨a, mem_cons_of_mem _ ha, h⟩
    · refine forall_mem_cons.mpr ⟨⟨_, mem_cons_self, hab⟩, fun a ha => ?_⟩
      obtain ⟨b, hb, h⟩ := ih.2 a ha
      exact ⟨b, mem_cons_of_mem _ hb, h⟩

theorem foldlM_eq_some {f : β → α → Option β} {g : β → α → β} {l : List α}
    (h : ∀ a ∈ l, ∀ b, f b a = some (g b a)) (b : β) : l.foldlM f b = some (l.foldl g b) := by
  induction l generalizing b with
  | nil => rfl
  | cons a l ih =>
    obtain ⟨ha, hl⟩ := forall_mem_cons.mp h
    rw [foldlM_cons, ha, foldl_cons]
    exact ih hl (g b a)

theorem foldlM_eq_none {f : β → α → Option β} {l : List α}
    (h : ∃ a ∈ l, ∀ b, f b a = none) (b : β) :
    l.foldlM f b = none := by
  obtain ⟨a, ha, hnone⟩ := h
  induction l generalizing b with
  | nil => cases ha
  | cons c l ih =>
    rw [foldlM_cons]
    rcases mem_cons.mp ha with rfl | ha
    · rw [hnone]
      rfl
    · cases f b c with
      | none => rfl
      | some b' => exact ih b' ha

theorem foldlM_filter {α β : Type*} {q : α → Bool} {step : β → α → Option β} {g : β → α → β}
    {l : List α}
    (hyes : ∀ x ∈ l, q x = true → ∀ b, step b x = some (g b x))
    (hno : ∀ x ∈ l, q x = false → ∀ b, step b x = some b) (b : β) :
    l.foldlM step b = some ((l.filter q).foldl g b) := by
  induction l generalizing b with
  | nil => rfl
  | cons x l ih =>
    obtain ⟨hyes₁, hyes⟩ := forall_mem_cons.mp hyes
    obtain ⟨hno₁, hno⟩ := forall_mem_cons.mp hno
    cases hq : q x with
    | true =>
      rw [foldlM_cons, hyes₁ hq, filter_cons_of_pos hq, foldl_cons]
      exact ih hyes hno _
    | false =>
      rw [foldlM_cons, hno₁ hq, filter_cons_of_neg (by rw [hq]; decide)]
      exact ih hyes hno _

end Loops

end PythonText
