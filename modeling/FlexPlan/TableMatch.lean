import Mathlib.Data.Nat.Bitwise
import Mathlib.Data.List.Basic

/-!
# Match conditions of table keys

`match` builds the condition under which the keys of a table match an entry. The mask of an
lpm key selects as many bits as the entry's prefix has, but the least significant ones.
-/
namespace TableMatch

open List

/-- A key of a match kind with its value and what the entry has for it. -/
inductive Key where
  | exact {w : ℕ} (key value : BitVec w)
  | exactBool (key value : Bool)
  | ternary {w : ℕ} (key value mask : BitVec w)
  | ternaryBool (key value mask : Bool)
  | lpm {w : ℕ} (key value prefmember : BitVec w) (h : prefmember.toNat ≤ w)
  | range {w : ℕ} (key mine maxe : BitVec w)

section Model

/-- `sb` -/
def lowMask {w : ℕ} (prefmember : BitVec w) : BitVec w := (1#w <<< prefmember) - 1#w

def condition : Key → Bool
  | .exact key value | .exactBool key value => key == value
  | .ternary key value mask => key &&& mask == value &&& mask
  | .ternaryBool key value mask => (key && mask) == (value && mask)
  | .lpm key value prefmember _ => key &&& lowMask prefmember == value &&& lowMask prefmember
  | .range key mine maxe => decide (key ≤ maxe) && decide (mine ≤ key)

/-- The conjunction; there is none without keys. -/
def matchCondition (keys : List Key) : Option Bool :=
  (keys.map condition).foldl (fun crt cd => some (crt.elim cd (· && cd))) none

end Model

section Specification

def IsLpm : Key → Prop
  | .lpm .. => True
  | _ => False

/-- The first bits are the most significant ones. -/
def Matches : Key → Prop
  | .exact key value | .exactBool key value => key = value
  | .ternary (w := w) key value mask =>
    ∀ i < w, mask.getLsbD i = true → key.getLsbD i = value.getLsbD i
  | .ternaryBool key value mask => mask = true → key = value
  | .lpm key value prefmember _ => ∀ i < prefmember.toNat, key.getMsbD i = value.getMsbD i
  | .range key mine maxe => mine.toNat ≤ key.toNat ∧ key.toNat ≤ maxe.toNat

/-- The least significant bits of an lpm key agree. -/
def LowBitsAgree : Key → Prop
  | .lpm key value prefmember _ => ∀ i < prefmember.toNat, key.getLsbD i = value.getLsbD i
  | _ => True

end Specification

section Masks

variable {w : ℕ}

theorem toNat_lowMask {prefmember : BitVec w} (h : prefmember.toNat ≤ w) :
    (lowMask prefmember).toNat = 2 ^ prefmember.toNat - 1 := by
  have hpos : 0 < 2 ^ prefmember.toNat := Nat.two_pow_pos _
  rw [lowMask, BitVec.toNat_sub, BitVec.shiftLeft_eq', BitVec.toNat_shiftLeft, Nat.shiftLeft_eq,
    BitVec.toNat_ofNat]
  rcases Nat.lt_or_ge prefmember.toNat w with hlt | hge
  · have hw : 1 < 2 ^ w := Nat.one_lt_two_pow (by omega)
    have hless : 2 ^ prefmember.toNat < 2 ^ w := Nat.pow_lt_pow_right (by decide) hlt
    rw [Nat.mod_eq_of_lt hw, one_mul, Nat.mod_eq_of_lt hless]
    have hsum : 2 ^ w - 1 + 2 ^ prefmember.toNat = 2 ^ w + (2 ^ prefmember.toNat - 1) := by omega
    rw [hsum, Nat.add_mod_left, Nat.mod_eq_of_lt (by omega)]
  · have heq : prefmember.toNat = w := by omega
    rw [heq, Nat.mod_mul_mod, one_mul, Nat.mod_self, add_zero]
    rcases Nat.eq_zero_or_pos w with rfl | hw
    · rfl
    · rw [Nat.mod_eq_of_lt (Nat.one_lt_two_pow hw.ne'), Nat.mod_eq_of_lt (by omega)]

theorem and_eq_and_iff {key value mask : BitVec w} :
    key &&& mask = value &&& mask ↔ ∀ i < w, mask.getLsbD i = true →
      key.getLsbD i = value.getLsbD i := by
  constructor
  · intro h i _ hmask
    have hbit := congrArg (·.getLsbD i) h
    simpa [hmask] using hbit
  · intro h
    refine BitVec.eq_of_getLsbD_eq fun i hi => ?_
    rw [BitVec.getLsbD_and, BitVec.getLsbD_and]
    cases hmask : mask.getLsbD i with
    | false => simp
    | true => rw [h i hi hmask]

end Masks

/-- The condition compares the low bits of lpm keys, and matches all others. -/
theorem condition_iff (k : Key) : condition k = true ↔ LowBitsAgree k ∧ (¬IsLpm k → Matches k) := by
  cases k with
  | exact key value | exactBool key value => simp [condition, LowBitsAgree, IsLpm, Matches]
  | ternary key value mask => simp [condition, LowBitsAgree, IsLpm, Matches, and_eq_and_iff]
  | ternaryBool key value mask => cases mask <;> simp [condition, LowBitsAgree, IsLpm, Matches]
  | range key mine maxe => simp [condition, LowBitsAgree, IsLpm, Matches, BitVec.le_def, and_comm]
  | @lpm w key value prefmember h =>
    rw [condition, beq_iff_eq, and_eq_and_iff]
    have hbit : ∀ i, (lowMask prefmember).getLsbD i = decide (i < prefmember.toNat) := fun i => by
      rw [BitVec.getLsbD, toNat_lowMask h, Nat.testBit_two_pow_sub_one]
    simp only [hbit, decide_eq_true_iff, LowBitsAgree, IsLpm, not_true_eq_false,
      false_implies, and_true]
    exact ⟨fun hall i hi => hall i (by omega) hi, fun hall i _ hi => hall i hi⟩

theorem matchCondition_cons (k : Key) (keys : List Key) :
    matchCondition (k :: keys) = some ((k :: keys).all condition) := by
  have hfold : ∀ (cs : List Bool) (b : Bool),
      cs.foldl (fun crt cd => some (crt.elim cd (· && cd))) (some b) = some (b && cs.all id) := by
    intro cs
    induction cs with
    | nil => simp
    | cons c cs ih =>
      intro b
      rw [foldl_cons, Option.elim_some, ih, all_cons, Bool.and_assoc]
      rfl
  rw [matchCondition, map_cons, foldl_cons, Option.elim_none, hfold, all_map, all_cons]
  rfl

/-- The condition says that the keys match, exactly if another key fails or the lpm keys agree
with the entry in their low bits just when they agree in their high bits. -/
theorem matchCondition_correct_iff (k : Key) (keys : List Key) :
    (matchCondition (k :: keys) = some true ↔ ∀ k' ∈ k :: keys, Matches k') ↔
      (∃ k' ∈ k :: keys, ¬IsLpm k' ∧ ¬Matches k') ∨
      ((∀ k' ∈ k :: keys, LowBitsAgree k') ↔ ∀ k' ∈ k :: keys, IsLpm k' → Matches k') := by
  rw [matchCondition_cons, Option.some_inj, all_eq_true]
  simp only [condition_iff]
  generalize k :: keys = keys
  by_cases hother : ∃ k ∈ keys, ¬IsLpm k ∧ ¬Matches k
  · obtain ⟨k, hk, hlpm, hno⟩ := hother
    refine iff_of_true (iff_of_false (fun h => hno ((h k hk).2 hlpm)) fun h => hno (h k hk)) ?_
    exact Or.inl ⟨k, hk, hlpm, hno⟩
  · have hothers : ∀ k ∈ keys, ¬IsLpm k → Matches k := fun k hk hlpm =>
      not_not.mp fun hno => hother ⟨k, hk, hlpm, hno⟩
    rw [or_iff_right hother]
    refine iff_congr ?_ ?_
    · exact forall₂_congr fun k hk => and_iff_left (hothers k hk)
    · refine forall₂_congr fun k hk => ⟨fun h _ => h, fun h => ?_⟩
      by_cases hlpm : IsLpm k
      · exact h hlpm
      · exact hothers k hk hlpm

/-- The key 128 matches the entry 0/1: their last bits agree, their first ones do not. -/
theorem low_bits_compared :
    matchCondition [.lpm 128#8 0#8 1#8 (by decide)] = some true ∧
      ¬Matches (.lpm 128#8 0#8 1#8 (by decide)) :=
  ⟨by decide, fun h => absurd (h 0 (by decide)) (by decide)⟩

end TableMatch
