import Mathlib.Algebra.BigOperators.Group.List.Basic

/-!
# Fully populated tables

`TransformPopulatedTables` drops the default action of a table whose entries can cover all values
of its keys. The number of values is counted in a machine word: the shift that gives the values of a
bit type is undefined from 64 bits on, and the product wraps. Other types of keys, such as newtypes,
trip a check.
-/
namespace PopulatedTables

open List

inductive MatchKind where
  | exact
  | other (name : String)
  deriving DecidableEq

inductive KeyType where
  | bits (size : ℕ)
  | boolean
  | enum (members : ℕ)
  | error (members : ℕ)
  | other (values : ℕ)

structure KeyElement where
  matchType : MatchKind
  type : KeyType

structure Table where
  key : Option (List KeyElement)
  size : Option UInt32

def Table.keyElements (t : Table) : List KeyElement := t.key.getD []

def Table.tableSize (t : Table) : ℕ := (t.size.map UInt32.toNat).getD 1024

section Model

-- the results of shifts by 64 and more
variable (wide : ℕ → ℕ)

/-- `ks`; none stands for the `BUG` on other types. -/
def KeyType.word : KeyType → Option ℕ
  | .bits w => some (if w < 64 then 2 ^ w else wide w % 2 ^ 64)
  | .boolean => some 2
  | .enum n | .error n => some (n % 2 ^ 64)
  | .other _ => none

def actualsize (tableSize : ℕ) : ℕ → List KeyElement → Option ℕ
  | acc, [] => some acc
  | acc, k :: ks =>
    (k.type.word wide).bind fun word =>
      if tableSize < acc * word % 2 ^ 64 then some (acc * word % 2 ^ 64)
      else actualsize tableSize (acc * word % 2 ^ 64) ks

def removesDefault (t : Table) : Bool :=
  (t.keyElements.all fun k => k.matchType = .exact) &&
    decide (∃ size ∈ actualsize wide t.tableSize 1 t.keyElements, size ≤ t.tableSize)

end Model

section Specification

def KeyType.values : KeyType → ℕ
  | .bits w => 2 ^ w
  | .boolean => 2
  | .enum n | .error n | .other n => n

def KeyType.Known : KeyType → Prop
  | .other _ => False
  | _ => True

/-- Every key value can have an entry. -/
structure CannotMiss (t : Table) : Prop where
  keyed : t.keyElements ≠ []
  exact : ∀ k ∈ t.keyElements, k.matchType = .exact
  covered : (t.keyElements.map fun k => k.type.values).prod ≤ t.tableSize

/-- The product of the first words, as the loop computes it. -/
def partialProduct (wide : ℕ → ℕ) (t : Table) (n : ℕ) : ℕ :=
  ((t.keyElements.take n).map fun k => (k.type.word wide).getD 0).prod % 2 ^ 64

end Specification

theorem KeyType.exists_word {type : KeyType} (h : type.Known) (wide : ℕ → ℕ) :
    ∃ word, type.word wide = some word := by
  cases type with
  | other n => exact h.elim
  | bits | boolean | enum | error => exact ⟨_, rfl⟩

/-- The loop ends below the size if no key trips the check and no product it computes is larger. -/
theorem actualsize_le_iff (wide : ℕ → ℕ) (size acc : ℕ) (ks : List KeyElement) :
    (∃ n ∈ actualsize wide size (acc % 2 ^ 64) ks, n ≤ size) ↔
      (∀ k ∈ ks, k.type.Known) ∧ ∀ n, 0 < n ∨ ks = [] →
        acc * ((ks.take n).map fun k => (k.type.word wide).getD 0).prod % 2 ^ 64 ≤ size := by
  induction ks generalizing acc with
  | nil => simp [actualsize]
  | cons k ks ih =>
    by_cases hknown : k.type.Known
    · obtain ⟨word, hword⟩ := KeyType.exists_word hknown wide
      have hstep : acc % 2 ^ 64 * word % 2 ^ 64 = acc * word % 2 ^ 64 := Nat.mod_mul_mod _ _ _
      rw [actualsize, hword, Option.bind_some, hstep]
      by_cases hstop : size < acc * word % 2 ^ 64
      · rw [if_pos hstop]
        refine iff_of_false (by simpa using hstop) fun h => ?_
        have hfirst := h.2 1 (Or.inl Nat.one_pos)
        simp only [take_succ_cons, take_zero, map_cons, map_nil, prod_cons, prod_nil,
          mul_one, hword,
          Option.getD_some] at hfirst
        omega
      · rw [if_neg hstop, ih, forall_mem_cons, and_iff_right hknown]
        refine and_congr_right fun _ => ?_
        constructor
        · intro h n hn
          obtain ⟨m, rfl⟩ : ∃ m, n = m + 1 :=
            Nat.exists_eq_add_one.mpr (hn.resolve_right (cons_ne_nil _ _))
          rw [take_succ_cons, map_cons, prod_cons, ← mul_assoc, hword, Option.getD_some]
          by_cases hm : 0 < m ∨ ks = []
          · exact h m hm
          · have hzero : m = 0 := by omega
            simpa [hzero] using hstop
        · intro h n _
          have hnext := h (n + 1) (Or.inl n.succ_pos)
          rwa [take_succ_cons, map_cons, prod_cons, ← mul_assoc, hword, Option.getD_some] at hnext
    · have hword : k.type.word wide = none := by
        cases htype : k.type with
        | other n => rfl
        | bits | boolean | enum | error => exact absurd (by rw [htype]; trivial) hknown
      rw [actualsize, hword]
      exact iff_of_false (by simp) fun h => hknown (h.1 k mem_cons_self)

theorem removesDefault_iff (wide : ℕ → ℕ) (t : Table) : removesDefault wide t = true ↔
    (∀ k ∈ t.keyElements, k.matchType = .exact) ∧ (∀ k ∈ t.keyElements, k.type.Known) ∧
      ∀ n, 0 < n ∨ t.keyElements = [] → partialProduct wide t n ≤ t.tableSize := by
  have hle := actualsize_le_iff wide t.tableSize 1 t.keyElements
  simp only [one_mul, Nat.one_mod_two_pow_eq_one.mpr (by decide : 0 < 64)] at hle
  rw [removesDefault, Bool.and_eq_true, decide_eq_true_iff, hle, all_eq_true]
  simp only [decide_eq_true_iff]
  rfl

/-- The default action is dropped only from tables that cannot miss, exactly if a key is not
exact or of another type, a product the loop computes exceeds the size, or the table has keys and
room for all their values. -/
theorem removesDefault_sound_iff (wide : ℕ → ℕ) (t : Table) :
    (removesDefault wide t = true → CannotMiss t) ↔
      (∃ k ∈ t.keyElements, k.matchType ≠ .exact ∨ ¬k.type.Known) ∨
      (∃ n, (0 < n ∨ t.keyElements = []) ∧ t.tableSize < partialProduct wide t n) ∨
      (t.keyElements ≠ [] ∧ (t.keyElements.map fun k => k.type.values).prod ≤ t.tableSize) := by
  constructor
  · intro h
    by_cases hkeys : ∃ k ∈ t.keyElements, k.matchType ≠ .exact ∨ ¬k.type.Known
    · exact Or.inl hkeys
    · by_cases hproduct : ∃ n, (0 < n ∨ t.keyElements = []) ∧ t.tableSize < partialProduct wide t n
      · exact Or.inr (Or.inl hproduct)
      · have hremoves : removesDefault wide t = true := by
          refine (removesDefault_iff wide t).mpr ⟨fun k hk => ?_, fun k hk => ?_, fun n hn => ?_⟩
          · exact not_not.mp fun hk' => hkeys ⟨k, hk, Or.inl hk'⟩
          · exact not_not.mp fun hk' => hkeys ⟨k, hk, Or.inr hk'⟩
          · exact Nat.not_lt.mp fun hless => hproduct ⟨n, hn, hless⟩
        exact Or.inr (Or.inr ⟨(h hremoves).keyed, (h hremoves).covered⟩)
  · intro h hremoves
    obtain ⟨hexact, hknown, hproduct⟩ := (removesDefault_iff wide t).mp hremoves
    rcases h with ⟨k, hk, hother | hother⟩ | ⟨n, hn, hless⟩ | ⟨hkeyed, hcovered⟩
    · exact absurd (hexact k hk) hother
    · exact absurd (hknown k hk) hother
    · exact absurd (hproduct n hn) (Nat.not_le.mpr hless)
    · exact ⟨hkeyed, hexact, hcovered⟩

/-- A table without keys, and one whose number of values is a multiple of `2 ^ 64`. -/
theorem keyless_and_wrapped_removed :
    (removesDefault (fun w => 2 ^ (w % 64)) ⟨none, none⟩ = true ∧ ¬CannotMiss ⟨none, none⟩) ∧
      removesDefault (fun w => 2 ^ (w % 64))
          ⟨some [⟨.exact, .boolean⟩, ⟨.exact, .bits 63⟩], none⟩ = true ∧
        ¬CannotMiss ⟨some [⟨.exact, .boolean⟩, ⟨.exact, .bits 63⟩], none⟩ := by
  refine ⟨⟨by decide, fun h => h.keyed rfl⟩, by decide, fun h => ?_⟩
  exact absurd h.covered (by decide)

end PopulatedTables
