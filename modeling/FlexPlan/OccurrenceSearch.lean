import FlexPlan.SynthesizerUtils
import Mathlib.Order.Bounds.Basic

/-!
# Occurrences from both ends

`find_nth` counts occurrences that do not overlap from the left of a text, and with a negative count
from the left of the reversed text.
-/
namespace OccurrenceSearch

open SynthesizerUtils PythonText List

def OccursAt (t s : Str) (i : ℕ) : Prop := t <+: s.drop i

instance : Decidable (OccursAt t s i) := inferInstanceAs (Decidable (t <+: s.drop i))

/-- Position `i` is occurrence number `n + 1` from the left of those that start at `k` or behind. -/
def FromLeft (t s : Str) : ℕ → ℕ → ℕ → Prop
  | 0, k, i => IsLeast {i | k ≤ i ∧ OccursAt t s i} i
  | n + 1, k, i => ∃ j, IsLeast {i | k ≤ i ∧ OccursAt t s i} j ∧ FromLeft t s n (j + t.length) i

def FromRight (t s : Str) : ℕ → ℕ → ℕ → Prop
  | 0, k, i => IsGreatest {i | i + t.length ≤ k ∧ OccursAt t s i} i
  | n + 1, k, i => ∃ j, IsGreatest {i | i + t.length ≤ k ∧ OccursAt t s i} j ∧ FromRight t s n j i

/-- The answer of a search: the position, or -1 where there is none. -/
def Answers (p : ℕ → Prop) (r : ℤ) : Prop := (∃ i : ℕ, p i ∧ r = i) ∨ (∀ i, ¬p i) ∧ r = -1

section
variable {t s : Str} (ht : t ≠ [])
include ht

theorem OccursAt.le (h : OccursAt t s i) : i + t.length ≤ s.length := by
  have hlen := h.length_le
  have hpos := length_pos_iff.mpr ht
  rw [length_drop] at hlen
  omega

theorem OccursAt.index?_le (h : OccursAt t s j) : ∃ i ≤ j, index? t s = some i := by
  induction s generalizing j with
  | nil => exact absurd (h.le ht) (by simp [ht])
  | cons c s ih =>
    rw [index?]
    by_cases hp : t.isPrefixOf (c :: s) = true
    · exact ⟨0, Nat.zero_le _, if_pos hp⟩
    · rw [if_neg hp]
      cases j with
      | zero => exact absurd ( isPrefixOf_iff_prefix.mpr h) hp
      | succ j =>
        obtain ⟨i, hi, heq⟩ := ih h
        exact ⟨i + 1, Nat.succ_le_succ hi, by rw [heq]; rfl⟩

theorem answers_findFrom (k : ℕ) :
    Answers (IsLeast {i | k ≤ i ∧ OccursAt t s i}) (findFrom t s k) := by
  have hshift : ∀ i, k ≤ i → (OccursAt t s i ↔ OccursAt t (s.drop k) (i - k)) := by
    intro i hi
    rw [OccursAt, OccursAt, drop_drop, Nat.add_sub_cancel' hi]
  rw [findFrom]
  split_ifs with hk
  · right
    refine ⟨fun i hi => ?_, rfl⟩
    have := hi.1.2.le ht
    have := hi.1.1
    omega
  · cases hindex : index? t (s.drop k) with
    | none =>
      right
      refine ⟨fun i hi => ?_, rfl⟩
      obtain ⟨j, _, hj⟩ := ((hshift i hi.1.1).mp hi.1.2).index?_le ht
      rw [hindex] at hj
      cases hj
    | some i =>
      left
      refine ⟨k + i, ⟨⟨Nat.le_add_right k i, ?_⟩, fun j hj => ?_⟩, rfl⟩
      · rw [hshift _ (Nat.le_add_right k i), Nat.add_sub_cancel_left]
        exact prefix_of_index? hindex
      · obtain ⟨i', hle, hi'⟩ := ((hshift j hj.1).mp hj.2).index?_le ht
        rw [hindex] at hi'
        cases hi'
        have := hj.1
        omega

theorem answers_findNthGo (n k : ℕ) :
    Answers (FromLeft t s n k) (findNthGo s t n (findFrom t s k)) := by
  induction n generalizing k with
  | zero => exact answers_findFrom ht k
  | succ n ih =>
    rw [findNthGo]
    rcases answers_findFrom ht (s := s) k with ⟨j, hj, heq⟩ | ⟨hno, heq⟩
    · have hiff : FromLeft t s (n + 1) k = FromLeft t s n (j + t.length) := by
        funext i
        refine propext ⟨?_, fun h => ⟨j, hj, h⟩⟩
        rintro ⟨j', hj', h⟩
        rwa [hj'.unique hj] at h
      rw [heq, if_pos (Int.natCast_nonneg j), Int.toNat_natCast, hiff]
      exact ih _
    · rw [heq, if_neg (by decide)]
      exact Or.inr ⟨fun i h => h.elim fun j h => hno j h.1, rfl⟩

omit ht in
theorem OccursAt.reverse (h : OccursAt t s i) (hlen : i + j + t.length = s.length) :
    OccursAt t.reverse s.reverse j := by
  obtain ⟨b, hb⟩ := h
  have hs : s.reverse = b.reverse ++ (t.reverse ++ (s.take i).reverse) := by
    rw [← reverse_append, ← reverse_append, append_assoc, hb, take_append_drop]
  have hj : b.reverse.length = j := by
    have := congrArg length hb
    rw [length_append, length_drop] at this
    rw [length_reverse]
    omega
  rw [OccursAt, hs, ← hj, drop_left]
  exact prefix_append _ _

omit ht in
theorem occursAt_reverse (h : i + j + t.length = s.length) :
    OccursAt t s.reverse i ↔ OccursAt t.reverse s j := by
  constructor
  · intro ho
    simpa using ho.reverse (by simpa using h)
  · intro ho
    simpa using ho.reverse (i := j) (j := i) (by rw [length_reverse]; omega)

theorem isLeast_reverse (hk : k + l = s.length) (h : i + j + t.length = s.length) :
    IsLeast {i | k ≤ i ∧ OccursAt t s.reverse i} i ↔
      IsGreatest {i | i + t.reverse.length ≤ l ∧ OccursAt t.reverse s i} j := by
  have hmem : ∀ {a b}, a + b + t.length = s.length →
      (k ≤ a ∧ OccursAt t s.reverse a ↔ b + t.reverse.length ≤ l ∧ OccursAt t.reverse s b) := by
    intro a b hab
    rw [occursAt_reverse hab, length_reverse]
    exact and_congr_left' (by omega)
  refine and_congr (hmem h) ⟨fun hleast b hb => ?_, fun hgreatest a ha => ?_⟩
  · have hle := hb.2.le (by simpa using ht)
    rw [length_reverse] at hle
    have := hleast ((hmem (a := s.length - b - t.length) (b := b) (by omega)).mpr hb)
    omega
  · have hle := ha.2.le ht
    rw [length_reverse] at hle
    have := hgreatest ((hmem (a := a) (b := s.length - a - t.length) (by omega)).mp ha)
    omega

theorem FromLeft.le (h : FromLeft t s n k i) : i + t.length ≤ s.length := by
  induction n generalizing k with
  | zero => exact h.1.2.le ht
  | succ n ih => exact h.elim fun j h => ih h.2

theorem FromRight.le (h : FromRight t s n k i) : i + t.length ≤ s.length := by
  induction n generalizing k with
  | zero => exact h.1.2.le ht
  | succ n ih => exact h.elim fun j h => ih h.2

theorem fromLeft_reverse (hk : k + l = s.length) (h : i + j + t.length = s.length) :
    FromLeft t s.reverse n k i ↔ FromRight t.reverse s n l j := by
  induction n generalizing k l with
  | zero => exact isLeast_reverse ht hk h
  | succ n ih =>
    constructor
    · rintro ⟨a, ha, hrest⟩
      have hle := ha.1.2.le ht
      rw [length_reverse] at hle
      exact ⟨s.length - a - t.length, (isLeast_reverse ht hk (by omega)).mp ha,
        (ih (by omega)).mp hrest⟩
    · rintro ⟨b, hb, hrest⟩
      have hle := hb.1.2.le (by simpa using ht)
      rw [length_reverse] at hle
      exact ⟨s.length - b - t.length, (isLeast_reverse ht hk (by omega)).mpr hb,
        (ih (by omega)).mpr hrest⟩

omit ht in
theorem FromRight.unique (hi : FromRight t s n k i) (hj : FromRight t s n k j) : i = j := by
  induction n generalizing k with
  | zero => exact IsGreatest.unique hi hj
  | succ n ih =>
    obtain ⟨a, ha, hi⟩ := hi
    obtain ⟨b, hb, hj⟩ := hj
    rw [ha.unique hb] at hi
    exact ih hi hj

end

/-- From the left every occurrence is found. A negative count looks for the needle as it is in the
reversed text and takes a hit for one character, so it is right exactly where the mirrored needle
ends at the start of the wanted occurrence, and never where there are too few. -/
theorem findNth_iff (s t : Str) (ht : t ≠ []) (n : ℕ) :
    (∃ r, findNth s t (n + 1) = some r ∧ Answers (FromLeft t s n 0) r) ∧
      ((∃ r, findNth s t (-(n + 1)) = some r ∧ Answers (FromRight t s n s.length) r) ↔
        ∃ i, FromRight t.reverse s n s.length i ∧ FromRight t s n s.length (i + t.length - 1)) := by
  have hfind : ∀ u, find t u = findFrom t u 0 := fun u => by simp [find, findFrom]
  have hpos : findNth s t (n + 1) = some (findNthGo s t n (findFrom t s 0)) := by
    rw [findNth, if_pos (by omega), hfind, show ((n + 1 : ℤ)).toNat - 1 = n by omega]
  have hneg : findNth s t (-(n + 1)) =
      some (s.length - findNthGo s.reverse t n (findFrom t s.reverse 0) - 1) := by
    rw [findNth, if_neg (by omega), if_pos (by omega), ← hfind]
    rw [show (- -(n + 1 : ℤ)).toNat - 1 = n by omega]
  have hlen := length_pos_iff.mpr ht
  refine ⟨⟨_, hpos, answers_findNthGo ht n 0⟩, ?_⟩
  rw [hneg]
  rcases answers_findNthGo ht (s := s.reverse) n 0 with ⟨k, hk, heq⟩ | ⟨hno, heq⟩
  · have hle := hk.le ht
    rw [length_reverse] at hle
    have hi :=
      (fromLeft_reverse ht (Nat.zero_add _) (j := s.length - k - t.length) (by omega)).mp hk
    rw [heq]
    constructor
    · rintro ⟨_, ⟨⟩, ⟨j, hj, hr⟩ | ⟨_, hr⟩⟩
      · refine ⟨_, hi, ?_⟩
        rwa [show s.length - k - t.length + t.length - 1 = j by omega]
      · omega
    · rintro ⟨i, hi', hj⟩
      rw [hi'.unique hi] at hj
      exact ⟨_, rfl, Or.inl ⟨_, hj, by omega⟩⟩
  · rw [heq]
    constructor
    · rintro ⟨_, ⟨⟩, ⟨j, hj, hr⟩ | ⟨_, hr⟩⟩
      · have := hj.le ht
        omega
      · omega
    · rintro ⟨i, hi, _⟩
      have hle := hi.le (by simpa using ht)
      rw [length_reverse] at hle
      refine absurd ((fromLeft_reverse ht (Nat.zero_add _) ?_).mpr hi)
        (hno (s.length - i - t.length))
      omega

theorem findNth_iff_blank :
    "_".toList ≠ [] ∧ ∃ r, findNth "_".toList "_".toList (-1) = some r ∧
      Answers (FromRight "_".toList "_".toList 0 1) r := by
  have h : FromRight "_".toList "_".toList 0 1 0 := by
    refine ⟨⟨by decide, by decide⟩, fun i hi => ?_⟩
    have : i + 1 ≤ 1 := hi.1
    omega
  exact ⟨by decide, (findNth_iff "_".toList "_".toList (by decide) 0).2.mpr ⟨0, h, h⟩⟩

theorem findNth_absent_length :
    ¬∃ r, findNth "a".toList "_".toList (-1) = some r ∧
      Answers (FromRight "_".toList "a".toList 0 1) r := by
  have hr : findNth "a".toList "_".toList (-1) = some 1 := by decide
  rw [hr]
  rintro ⟨_, ⟨⟩, ⟨i, hi, hr⟩ | ⟨_, hr⟩⟩
  · have hle : i + 1 ≤ 1 := hi.le (by decide)
    omega
  · omega

end OccurrenceSearch
