import FlexPlan.ExpressionEncoding
import Mathlib.Data.Nat.Prime.Basic
import Mathlib.Tactic.Linarith

/-!
# Shifts and saturating operations

`EvaluateRVs` converts the amount of a shift to the width of the shifted value. The terms for
saturating operations test for overflow of an unsigned sum and of a signed difference, whatever the
type of the operands.
-/
namespace ExpressionEncoding

variable {χ : Ty → Type}

section Numbers

variable {n : ℕ} (x y : BitVec n) (s : Bool)

theorem num_emod : num s x % 2 ^ n = x.toNat := by
  have hlt : (x.toNat : ℤ) < 2 ^ n := by exact_mod_cast x.isLt
  cases s with
  | false => exact Int.emod_eq_of_lt (Int.natCast_nonneg _) hlt
  | true =>
    have hint := x.toInt_eq_toNat_cond
    rw [num, if_pos rfl, hint]
    split_ifs
    · exact Int.emod_eq_of_lt (Int.natCast_nonneg _) hlt
    · push_cast
      rw [Int.sub_emod_right]
      exact Int.emod_eq_of_lt (Int.natCast_nonneg _) hlt

theorem toNat_wrap (z : ℤ) : ((wrap n z).toNat : ℤ) = z % 2 ^ n := by
  rw [wrap, BitVec.toNat_ofInt]
  push_cast
  exact Int.toNat_of_nonneg (Int.emod_nonneg _ (by positivity))

theorem toNat_wrap_mul (k : ℕ) : (wrap n (num s x * k)).toNat = x.toNat * k % 2 ^ n := by
  have hlt : (x.toNat : ℤ) < 2 ^ n := by exact_mod_cast x.isLt
  have hsame : num s x * k % 2 ^ n = x.toNat * k % 2 ^ n := by
    have hx : num s x % 2 ^ n = x.toNat % 2 ^ n := by
      rw [num_emod, Int.emod_eq_of_lt (Int.natCast_nonneg _) hlt]
    rw [Int.mul_emod, hx, ← Int.mul_emod]
  have h := toNat_wrap (n := n) (num s x * k)
  rw [hsame] at h
  exact_mod_cast h

end Numbers

section Shifts

variable {n : ℕ} (x y : BitVec n) (s : Bool)

def Shift.onBits (x y : BitVec n) : Shift → BitVec n
  | .shl => x <<< y
  | .shr => x >>> y

/-- When a shift by the amount `a` has the right value if only the lowest `k` bits of the
amount are used. -/
def Shift.Exact (a k : ℕ) : Shift → Prop
  | .shl => a < 2 ^ k ∨ 2 ^ n ∣ x.toNat * 2 ^ (a % 2 ^ k)
  | .shr =>
    if s = true ∧ x.toInt < 0 then a = 0 ∨ (a % 2 ^ k = 0 ∧ x.toInt = -1)
    else a < 2 ^ k ∨ x.toNat < 2 ^ (a % 2 ^ k)

theorem mul_pow_mod_iff (hba : b < a) (X : ℕ) :
    X * 2 ^ b % 2 ^ m = X * 2 ^ a % 2 ^ m ↔ 2 ^ m ∣ X * 2 ^ b := by
  have hsplit : X * 2 ^ a = X * 2 ^ b * 2 ^ (a - b) := by
    rw [Nat.mul_assoc, ← Nat.pow_add]
    congr 2
    omega
  have hpos : 1 ≤ 2 ^ (a - b) := Nat.one_le_two_pow
  have hle : X * 2 ^ b ≤ X * 2 ^ a := Nat.mul_le_mul_left X (Nat.pow_le_pow_right (by omega) hba.le)
  have hdiff : X * 2 ^ a - X * 2 ^ b = X * 2 ^ b * (2 ^ (a - b) - 1) := by
    rw [hsplit, Nat.mul_sub, Nat.mul_one]
  have hcoprime : Nat.Coprime (2 ^ m) (2 ^ (a - b) - 1) := by
    refine Nat.Coprime.pow_left m (Nat.coprime_two_left.mpr ?_)
    have heven : 2 ∣ 2 ^ (a - b) := dvd_pow_self 2 (by omega)
    rw [Nat.odd_iff]
    omega
  constructor
  · intro h
    have hdvd : 2 ^ m ∣ X * 2 ^ a - X * 2 ^ b := (Nat.modEq_iff_dvd' hle).mp h
    rw [hdiff] at hdvd
    exact hcoprime.dvd_of_dvd_mul_right hdvd
  · intro h
    have hdvd : 2 ^ m ∣ X * 2 ^ a := hsplit ▸ h.mul_right _
    rw [Nat.mod_eq_zero_of_dvd h, Nat.mod_eq_zero_of_dvd hdvd]

theorem div_pow_iff (hba : b < a) (X : ℕ) : X / 2 ^ b = X / 2 ^ a ↔ X < 2 ^ b := by
  have hsplit : X / 2 ^ a = X / 2 ^ b / 2 ^ (a - b) := by
    rw [Nat.div_div_eq_div_mul, ← Nat.pow_add]
    congr 2
    omega
  have htwo : 2 ≤ 2 ^ (a - b) := Nat.le_self_pow (by omega) 2
  rw [hsplit]
  constructor
  · intro h
    by_contra hle
    have hpos : 0 < X / 2 ^ b := Nat.div_pos (by omega) (Nat.two_pow_pos b)
    have hlt := Nat.div_lt_self hpos htwo
    omega
  · intro h
    rw [Nat.div_eq_of_lt h, Nat.zero_div]

theorem pow_succ_cast (m : ℕ) : (2 ^ (m + 1) : ℤ) = 2 * (2 ^ m : ℕ) := by
  push_cast
  exact pow_succ' 2 m

theorem half_pow (m : ℕ) : (2 ^ (m + 1 - 1) : ℤ) = (2 ^ m : ℕ) := by
  rw [Nat.add_sub_cancel]
  push_cast
  rfl

theorem toNat_wrap_range {z : ℤ} (hlow : -(2 ^ m : ℕ) ≤ z) (hhigh : z < 2 * (2 ^ m : ℕ)) :
    ((wrap (m + 1) z).toNat : ℤ) = if z < 0 then z + 2 * (2 ^ m : ℕ) else z := by
  rw [toNat_wrap, pow_succ_cast]
  split_ifs with hneg
  · rw [← Int.add_emod_right]
    exact Int.emod_eq_of_lt (by omega) (by omega)
  · exact Int.emod_eq_of_lt (by omega) hhigh

theorem toInt_half (x : BitVec (m + 1)) :
    x.toInt = if (x.toNat : ℤ) < (2 ^ m : ℕ) then (x.toNat : ℤ) else x.toNat - 2 * (2 ^ m : ℕ) := by
  have hpow : 2 ^ (m + 1) = 2 * 2 ^ m := Nat.pow_succ'
  rw [x.toInt_eq_toNat_cond, hpow]
  split_ifs <;> omega

variable {a k : ℕ}

/-- A cut amount matters only where it is smaller. -/
theorem amount_iff {f : ℕ → ℕ} {P : ℕ → Prop} (hf : ∀ b < a, f b = f a ↔ P b) :
    f (a % 2 ^ k) = f a ↔ a < 2 ^ k ∨ P (a % 2 ^ k) := by
  by_cases hsmall : a < 2 ^ k
  · simp [Nat.mod_eq_of_lt hsmall, hsmall]
  · rw [hf _ ((Nat.mod_lt a (Nat.two_pow_pos k)).trans_le (Nat.not_lt.mp hsmall)),
      or_iff_right hsmall]

theorem shl_iff (hy : y.toNat = a % 2 ^ k) :
    x <<< y = Shift.meaning s x a .shl ↔ Shift.Exact x s a k .shl := by
  have hmeaning : (Shift.meaning s x a .shl).toNat = x.toNat * 2 ^ a % 2 ^ n := by
    have h := toNat_wrap_mul x s (2 ^ a)
    push_cast at h
    exact h
  rw [← BitVec.toNat_inj, BitVec.shiftLeft_eq', BitVec.toNat_shiftLeft, Nat.shiftLeft_eq,
    hy, hmeaning]
  exact amount_iff fun b hb => mul_pow_mod_iff hb x.toNat

theorem toNat_shr (b : ℕ) (hy : y.toNat = b) : (x >>> y).toNat = x.toNat / 2 ^ b := by
  rw [BitVec.ushiftRight_eq', BitVec.toNat_ushiftRight, Nat.shiftRight_eq_div_pow, hy]

theorem shr_nonneg_iff (hy : y.toNat = a % 2 ^ k) (hx : num s x = x.toNat) :
    x >>> y = Shift.meaning s x a .shr ↔ a < 2 ^ k ∨ x.toNat < 2 ^ (a % 2 ^ k) := by
  have hmeaning : (Shift.meaning s x a .shr).toNat = x.toNat / 2 ^ a := by
    have hlt : x.toNat / 2 ^ a < 2 ^ n := (Nat.div_le_self _ _).trans_lt x.isLt
    have h := toNat_wrap (n := n) (num s x / 2 ^ a)
    rw [hx, Int.emod_eq_of_lt (by positivity) (by exact_mod_cast hlt)] at h
    rw [Shift.meaning, hx]
    exact_mod_cast h
  rw [← BitVec.toNat_inj, toNat_shr x y _ hy, hmeaning]
  exact amount_iff fun b hb => div_pow_iff hb x.toNat

theorem ediv_neg_bounds {z : ℤ} {d : ℕ} (hz : z < 0) (hd : 0 < d) : z ≤ z / d ∧ z / d < 0 := by
  have hd' : (1 : ℤ) ≤ d := by exact_mod_cast hd
  refine ⟨(Int.le_ediv_iff_mul_le (by omega)).mpr ?_, Int.ediv_neg_of_neg_of_pos hz (by omega)⟩
  nlinarith

theorem ediv_eq_self_iff {z : ℤ} {a : ℕ} (hz : z < 0) : z / (2 ^ a : ℕ) = z ↔ a = 0 ∨ z = -1 := by
  constructor
  · intro h
    by_contra hne
    obtain ⟨hzero, hone⟩ := not_or.mp hne
    have htwo : (2 : ℤ) ≤ (2 ^ a : ℕ) := by exact_mod_cast Nat.le_self_pow hzero 2
    have hlt := Int.lt_ediv_add_one_mul_self z (show (0 : ℤ) < (2 ^ a : ℕ) by omega)
    rw [h] at hlt
    have hle : z + 1 ≤ -1 := by omega
    nlinarith
  · rintro (rfl | rfl)
    · rw [Nat.pow_zero, Int.natCast_one, Int.ediv_one]
    · obtain ⟨hlow, hhigh⟩ := ediv_neg_bounds hz (Nat.two_pow_pos a)
      omega

theorem shr_neg_iff (hy : y.toNat = a % 2 ^ k) (hx : x.toInt < 0) :
    x >>> y = Shift.meaning true x a .shr ↔ a = 0 ∨ (a % 2 ^ k = 0 ∧ x.toInt = -1) := by
  obtain ⟨m, rfl⟩ : ∃ m, n = m + 1 := by
    cases n with
    | zero => simp [BitVec.of_length_zero] at hx
    | succ m => exact ⟨m, rfl⟩
  have hlt := x.isLt
  have hpow : 2 ^ (m + 1) = 2 * 2 ^ m := Nat.pow_succ'
  obtain ⟨hge, hvalue⟩ : 2 ^ m ≤ x.toNat ∧ x.toInt = x.toNat - 2 * (2 ^ m : ℕ) := by
    have hhalf := toInt_half x
    split_ifs at hhalf
    · omega
    · exact ⟨by omega, hhalf⟩
  obtain ⟨hlow, hhigh⟩ := ediv_neg_bounds hx (Nat.two_pow_pos a)
  have hmeaning : ((Shift.meaning true x a .shr).toNat : ℤ) = x.toInt / (2 ^ a : ℕ) + 2 *
      (2 ^ m : ℕ) := by
    have hwrap := toNat_wrap_range (m := m) (z := x.toInt / (2 ^ a : ℕ)) (by omega) (by omega)
    rw [if_pos hhigh] at hwrap
    rw [Shift.meaning, num, if_pos rfl, ← hwrap]
    push_cast
    rfl
  have hcode := toNat_shr x y _ hy
  have hequal : x >>> y = Shift.meaning true x a .shr ↔
      ((x.toNat / 2 ^ (a % 2 ^ k) : ℕ) : ℤ) = x.toInt / (2 ^ a : ℕ) + 2 * (2 ^ m : ℕ) := by
    rw [← BitVec.toNat_inj, hcode, ← hmeaning, Int.natCast_inj]
  rw [hequal]
  by_cases hzero : a % 2 ^ k = 0
  · rw [hzero, Nat.pow_zero, Nat.div_one, and_iff_right rfl, ← ediv_eq_self_iff hx]
    constructor
    · intro h
      omega
    · intro h
      omega
  · have hhalf : x.toNat / 2 ^ (a % 2 ^ k) ≤ x.toNat / 2 :=
      Nat.div_le_div_left (Nat.le_self_pow hzero 2) (by omega)
    constructor
    · intro h
      omega
    · rintro (rfl | ⟨h, -⟩)
      · exact absurd (Nat.zero_mod _) hzero
      · exact absurd h hzero

theorem shift_iff (op : Shift) (hy : y.toNat = a % 2 ^ k) :
    op.onBits x y = op.meaning s x a ↔ op.Exact x s a k := by
  cases op with
  | shl => exact shl_iff x y s hy
  | shr =>
    rw [Shift.Exact]
    split_ifs with h
    · obtain ⟨rfl, hneg⟩ := h
      exact shr_neg_iff x y hy hneg
    · refine shr_nonneg_iff x y s hy ?_
      cases s with
      | false => rfl
      | true =>
        have hint := x.toInt_eq_toNat_cond
        have hnonneg : ¬x.toInt < 0 := fun hneg => h ⟨rfl, hneg⟩
        rw [num, if_pos rfl, hint]
        split_ifs at hint ⊢
        · rfl
        · have hlt : (x.toNat : ℤ) < 2 ^ n := by exact_mod_cast x.isLt
          push_cast at hint
          omega

end Shifts

section ShiftExpressions

variable {n m : ℕ} {s : Bool} (ρ : Valuation χ)

theorem Shift.eval_build (op : Shift) (a b : Term χ (.bv n)) :
    (op.build a b).eval ρ = op.onBits (a.eval ρ) (b.eval ρ) := by
  cases op <;> rfl

theorem toNat_shiftConstant (v : ℕ) :
    ((shiftConstant (v : ℤ) : Term χ (.bv n)).eval ρ).toNat = v % 2 ^ min 64 n := by
  have hvalue : (shiftConstant (v : ℤ) : Term χ (.bv n)).eval ρ = BitVec.ofNat n (v % 2 ^ 64) := by
    rw [shiftConstant, Int.natAbs_natCast, Term.eval, BitVec.ofInt_natCast]
  rw [hvalue, BitVec.toNat_ofNat]
  by_cases hn : n ≤ 64
  · rw [Nat.min_eq_right hn, Nat.mod_mod_of_dvd _ (Nat.pow_dvd_pow 2 hn)]
  · have hlt : v % 2 ^ 64 < 2 ^ n :=
      (Nat.mod_lt _ (Nat.two_pow_pos 64)).trans_le (Nat.pow_le_pow_right (by omega) (by omega))
    rw [Nat.min_eq_left (by omega), Nat.mod_eq_of_lt hlt]

def Expr.Fits (r : Expr χ (.bits false m)) : Prop := ∀ v, r.asConstant = some v → 0 ≤ v ∧ v < 2 ^ m

/-- How many bits of an amount are used to shift a value of `n` bits. -/
def Expr.amountBits (r : Expr χ (.bits false m)) (n : ℕ) : ℕ :=
  if r.asConstant.isSome then min 64 n else n

theorem eq_constant_of_asConstant {r : Expr χ (.bits s m)} (h : r.asConstant = some v) :
    r = .constant v := by
  cases r <;> cases h
  rfl

theorem agrees_shiftBy_iff {op : Shift} {l : Expr χ (.bits s n)} (hl : Agrees ρ l) (amount : ℕ) :
    Agrees ρ (.shiftBy op l amount) ↔ op.Exact (l.value ρ) s amount (min 64 n) := by
  rw [Agrees, evaluate, Shift.eval_build, hl, Expr.value]
  exact shift_iff _ _ s op (toNat_shiftConstant ρ amount)

theorem agrees_shift_iff {op : Shift} {l : Expr χ (.bits s n)} {r : Expr χ (.bits false m)}
    (hl : Agrees ρ l) (hr : Agrees ρ r) (hfits : r.Fits) :
    Agrees ρ (.shift op l r) ↔ op.Exact (l.value ρ) s (r.value ρ).toNat (r.amountBits n) := by
  cases hconstant : r.asConstant with
  | some v =>
    obtain ⟨hlow, hhigh⟩ := hfits v hconstant
    obtain rfl := eq_constant_of_asConstant hconstant
    obtain ⟨a, rfl⟩ := Int.eq_ofNat_of_zero_le hlow
    have hamount : ((Expr.constant a : Expr χ (.bits false m)).value ρ).toNat = a := by
      rw [Expr.value, wrap, BitVec.ofInt_natCast, BitVec.toNat_ofNat]
      exact Nat.mod_eq_of_lt (by exact_mod_cast hhigh)
    have hbits : (Expr.constant a : Expr χ (.bits false m)).amountBits n = min 64 n := rfl
    rw [hamount, hbits, Agrees, evaluate, hconstant, Expr.value, hamount]
    dsimp only
    rw [Shift.eval_build, hl]
    exact shift_iff _ _ s op (toNat_shiftConstant ρ a)
  | none =>
    have hbits : r.amountBits n = n := by
      rw [Expr.amountBits, hconstant]
      rfl
    rw [hbits, Agrees, evaluate, hconstant, Expr.value]
    dsimp only
    split_ifs with hn
    · rw [Shift.eval_build, hl, eval_docast, hr]
      exact shift_iff _ _ s op (BitVec.toNat_setWidth ..)
    · -- there is only one value of no bits
      obtain rfl : n = 0 := by omega
      have hexact := shift_iff (l.value ρ) (l.value ρ) s op (a := (r.value ρ).toNat) (k := 0) (by
        rw [Nat.pow_zero, Nat.mod_one, BitVec.of_length_zero (x := l.value ρ)]
        rfl)
      rw [← hexact, hl]
      exact iff_of_true (Subsingleton.elim _ _) (Subsingleton.elim _ _)

/-- The value of a shift, for a shift by an expression and by a literal. -/
theorem shift_agrees_iff (op : Shift) {l : Expr χ (.bits s n)} (hl : Agrees ρ l) :
    (∀ (m : ℕ) (r : Expr χ (.bits false m)), Agrees ρ r → r.Fits →
      (Agrees ρ (.shift op l r) ↔ op.Exact (l.value ρ) s (r.value ρ).toNat (r.amountBits n))) ∧
    ∀ amount : ℕ, Agrees ρ (.shiftBy op l amount) ↔ op.Exact (l.value ρ) s amount (min 64 n) :=
  ⟨fun _ _ hr hfits => agrees_shift_iff ρ hl hr hfits, agrees_shiftBy_iff ρ hl⟩

end ShiftExpressions

namespace Ports

inductive Location : Ty → Type where
  | port : Location (.bits false 8)
  | wide : Location (.bits false 16)
  | nibble : Location (.bits false 4)
  | offset : Location (.bits true 8)

def valuation : Valuation Location
  | _, .port => 5
  | _, .wide => 256
  | _, .nibble => 3
  | _, .offset => -4

def port : Expr Location (.bits false 8) := .versioned .port

def offset : Expr Location (.bits true 8) := .versioned .offset

def shiftedWide : Expr Location (.bits false 8) := .shift .shl port (.versioned .wide)

def shiftedOffset : Expr Location (.bits true 8) := .shiftBy .shr offset 1

def shiftedNibble : Expr Location (.bits false 8) := .shift .shl port (.versioned .nibble)

end Ports

open Ports

/-- An amount of 256 is cut to 0, and a negative number is filled with zeros. -/
theorem shifts_disagree :
    (evaluate shiftedWide).eval valuation = (5 : BitVec 8) ∧
      shiftedWide.value valuation = (0 : BitVec 8) ∧
    (evaluate shiftedOffset).eval valuation = (126 : BitVec 8) ∧
    shiftedOffset.value valuation = (254 : BitVec 8) := by
  refine ⟨?_, ?_, ?_, ?_⟩ <;> decide

theorem nibble_shift_agrees : Agrees valuation port ∧ Agrees valuation shiftedNibble := by
  have hport : Agrees valuation port := rfl
  refine ⟨hport, ((shift_agrees_iff valuation .shl hport).1 4 (.versioned .nibble) rfl ?_).mpr
    (Or.inl ?_)⟩
  · exact fun _ h => nomatch h
  · decide

section Saturation

variable {n : ℕ} (x y : BitVec n) (s : Bool)

def Saturating.onBits (x y : BitVec n) : Saturating → BitVec n
  | .addSat => if x.toNat + y.toNat < 2 ^ n then x + y else BitVec.ofInt n (2 ^ n - 1)
  | .subSat => if x.toInt - y.toInt < 2 ^ (n - 1) then x + y else 0

/-- When a saturating operation is encoded with the right value. -/
def Saturating.Exact : Saturating → Prop
  | .addSat => s = true → 1 < n → x.toNat + y.toNat < 2 ^ n ∧ x.toInt + y.toInt < 2 ^ (n - 1)
  | .subSat =>
    if s then 1 < n → y.toInt = 0 ∨ (y.toInt = -2 ^ (n - 1) ∧ x.toInt < 0)
    else y.toNat = 0 ∨ (2 * y.toNat = 2 ^ n ∧ y.toNat ≤ x.toNat) ∨
      (x.toNat < y.toNat ∧ x.toNat + y.toNat = 2 ^ n) ∨
      (2 * x.toNat < 2 ^ n ∧ 2 ^ n ≤ 2 * y.toNat ∧ 2 * y.toNat ≤ 2 * x.toNat + 2 ^ n)

variable {m : ℕ} (x y : BitVec (m + 1))

theorem toNat_sum : ((x + y).toNat : ℤ) =
    if (x.toNat : ℤ) + y.toNat < 2 * (2 ^ m : ℕ) then (x.toNat : ℤ) + y.toNat
    else x.toNat + y.toNat - 2 * (2 ^ m : ℕ) := by
  have hpow : 2 ^ (m + 1) = 2 * 2 ^ m := Nat.pow_succ'
  have hx := x.isLt
  have hy := y.isLt
  rw [BitVec.toNat_add]
  split_ifs with h
  · rw [Nat.mod_eq_of_lt (by omega)]
    omega
  · rw [Nat.mod_eq_sub_mod (by omega), Nat.mod_eq_of_lt (by omega)]
    omega

theorem toNat_greatest :
    ((BitVec.ofInt (m + 1) (2 ^ (m + 1) - 1)).toNat : ℤ) = 2 * (2 ^ m : ℕ) - 1 := by
  have hpos := Nat.two_pow_pos m
  have h := toNat_wrap_range (m := m) (z := 2 * (2 ^ m : ℕ) - 1) (by omega) (by omega)
  rw [if_neg (by omega)] at h
  rw [pow_succ_cast]
  exact h

theorem one_lt_width : 1 < m + 1 ↔ 2 ≤ 2 ^ m := by
  constructor
  · exact fun h => Nat.le_self_pow (by omega) 2
  · intro h
    by_contra hm
    obtain rfl : m = 0 := by omega
    omega

theorem toNat_clamp (s : Bool) (z : ℤ) :
    ((wrap (m + 1) (max (least s (m + 1)) (min (greatest s (m + 1)) z))).toNat : ℤ) =
      if s then
        (if z < 0 then max ((2 ^ m : ℕ) : ℤ) (z + 2 * (2 ^ m : ℕ)) else min
          (((2 ^ m : ℕ) : ℤ) - 1) z)
      else max (0 : ℤ) (min (2 * ((2 ^ m : ℕ) : ℤ) - 1) z) := by
  have hpos := Nat.two_pow_pos m
  cases s with
  | false =>
    simp only [least, greatest, Bool.false_eq_true, if_false, pow_succ_cast]
    rw [toNat_wrap_range (by omega) (by omega), if_neg (by omega)]
  | true =>
    simp only [least, greatest, if_true, half_pow]
    rw [toNat_wrap_range (by omega) (by omega)]
    split_ifs <;> omega

theorem sum_signed {X Y h x y : ℤ} (hX : 0 ≤ X ∧ X < 2 * h) (hY : 0 ≤ Y ∧ Y < 2 * h)
    (hx : x = if X < h then X else X - 2 * h) (hy : y = if Y < h then Y else Y - 2 * h) :
    (if X + Y < 2 * h then X + Y else 2 * h - 1) =
        (if x + y < 0 then max h (x + y + 2 * h) else min (h - 1) (x + y)) ↔
      (2 ≤ h → X + Y < 2 * h ∧ x + y < h) := by
  obtain ⟨hX, hX'⟩ := hX
  obtain ⟨hY, hY'⟩ := hY
  by_cases hxs : X < h
  · rw [if_pos hxs] at hx
    by_cases hys : Y < h
    · rw [if_pos hys] at hy
      rw [if_pos (by omega), if_neg (by omega)]
      omega
    · rw [if_neg hys] at hy
      split_ifs <;> omega
  · rw [if_neg hxs] at hx
    by_cases hys : Y < h
    · rw [if_pos hys] at hy
      split_ifs <;> omega
    · rw [if_neg hys] at hy
      rw [if_neg (by omega), if_pos (by omega)]
      omega

theorem toNat_bounds : 0 ≤ (x.toNat : ℤ) ∧ (x.toNat : ℤ) < 2 * (2 ^ m : ℕ) := by
  have hpow : 2 ^ (m + 1) = 2 * 2 ^ m := Nat.pow_succ'
  have hlt := x.isLt
  omega

theorem addSat_iff (s : Bool) :
    Saturating.onBits x y .addSat = Saturating.meaning s x y .addSat ↔
      Saturating.Exact x y s .addSat := by
  have hpow : 2 ^ (m + 1) = 2 * 2 ^ m := Nat.pow_succ'
  have hcode : ((Saturating.onBits x y .addSat).toNat : ℤ) =
      if (x.toNat : ℤ) + y.toNat < 2 * (2 ^ m : ℕ) then (x.toNat : ℤ) + y.toNat else 2 *
        (2 ^ m : ℕ) - 1 := by
    rw [Saturating.onBits, hpow]
    by_cases h : x.toNat + y.toNat < 2 * 2 ^ m
    · rw [if_pos h, if_pos (by omega), toNat_sum, if_pos (by omega)]
    · rw [if_neg h, if_neg (by omega), toNat_greatest]
  have hmeaning := toNat_clamp (m := m) s (num s x + num s y)
  rw [← BitVec.toNat_inj, ← Int.natCast_inj, hcode, Saturating.meaning, hmeaning, Saturating.Exact,
    one_lt_width, hpow, half_pow]
  cases s with
  | false =>
    obtain ⟨hx, -⟩ := toNat_bounds x
    obtain ⟨hy, -⟩ := toNat_bounds y
    simp only [num, Bool.false_eq_true, if_false, false_implies, iff_true]
    split_ifs <;> omega
  | true =>
    have hsum := sum_signed (toNat_bounds x) (toNat_bounds y) (toInt_half x) (toInt_half y)
    simp only [num, if_true, true_implies]
    rw [hsum]
    omega

theorem difference_unsigned {X Y h : ℤ} (hX : 0 ≤ X ∧ X < 2 * h) (hY : 0 ≤ Y ∧ Y < 2 * h) :
    (if (if X < h then X else X - 2 * h) - (if Y < h then Y else Y - 2 * h) < h then
        (if X + Y < 2 * h then X + Y else X + Y - 2 * h) else 0) = max 0 (min (2 * h - 1) (X - Y)) ↔
      Y = 0 ∨ (2 * Y = 2 * h ∧ Y ≤ X) ∨ (X < Y ∧ X + Y = 2 * h) ∨
        (2 * X < 2 * h ∧ 2 * h ≤ 2 * Y ∧ 2 * Y ≤ 2 * X + 2 * h) := by
  obtain ⟨hX, hX'⟩ := hX
  obtain ⟨hY, hY'⟩ := hY
  have hclamp : min (2 * h - 1) (X - Y) = X - Y := by omega
  rw [hclamp]
  by_cases hx : X < h
  · by_cases hy : Y < h
    · rw [if_pos hx, if_pos hy, if_pos (by omega), if_pos (by omega)]
      omega
    · rw [if_pos hx, if_neg hy]
      split_ifs <;> omega
  · by_cases hy : Y < h
    · rw [if_neg hx, if_pos hy, if_pos (by omega)]
      split_ifs <;> omega
    · rw [if_neg hx, if_neg hy, if_pos (by omega), if_neg (by omega)]
      omega

theorem difference_signed {X Y h x y : ℤ} (hX : 0 ≤ X ∧ X < 2 * h) (hY : 0 ≤ Y ∧ Y < 2 * h)
    (hx : x = if X < h then X else X - 2 * h) (hy : y = if Y < h then Y else Y - 2 * h) :
    (if x - y < h then (if X + Y < 2 * h then X + Y else X + Y - 2 * h) else 0) =
        (if x - y < 0 then max h (x - y + 2 * h) else min (h - 1) (x - y)) ↔
      (2 ≤ h → y = 0 ∨ (y = -h ∧ x < 0)) := by
  obtain ⟨hX, hX'⟩ := hX
  obtain ⟨hY, hY'⟩ := hY
  by_cases hxs : X < h
  · rw [if_pos hxs] at hx
    by_cases hys : Y < h
    · rw [if_pos hys] at hy
      rw [if_pos (by omega), if_pos (by omega)]
      split_ifs <;> omega
    · rw [if_neg hys] at hy
      rw [if_neg (c := x - y < 0) (by omega)]
      split_ifs <;> omega
  · rw [if_neg hxs] at hx
    by_cases hys : Y < h
    · rw [if_pos hys] at hy
      rw [if_pos (by omega), if_pos (c := x - y < 0) (by omega)]
      split_ifs <;> omega
    · rw [if_neg hys] at hy
      rw [if_pos (by omega), if_neg (by omega)]
      split_ifs <;> omega

theorem subSat_iff (s : Bool) :
    Saturating.onBits x y .subSat = Saturating.meaning s x y .subSat ↔
      Saturating.Exact x y s .subSat := by
  have hpow : 2 ^ (m + 1) = 2 * 2 ^ m := Nat.pow_succ'
  have hcode : ((Saturating.onBits x y .subSat).toNat : ℤ) =
      if x.toInt - y.toInt < (2 ^ m : ℕ) then ((x + y).toNat : ℤ) else 0 := by
    rw [Saturating.onBits, half_pow]
    split_ifs <;> rfl
  have hmeaning := toNat_clamp (m := m) s (num s x - num s y)
  rw [← BitVec.toNat_inj, ← Int.natCast_inj, hcode, Saturating.meaning, hmeaning, toNat_sum,
    Saturating.Exact]
  cases s with
  | false =>
    have hdifference := difference_unsigned (toNat_bounds x) (toNat_bounds y)
    rw [← toInt_half x, ← toInt_half y] at hdifference
    simp only [num, Bool.false_eq_true, if_false, hpow]
    rw [hdifference]
    omega
  | true =>
    have hdifference := difference_signed (toNat_bounds x) (toNat_bounds y) (toInt_half x)
      (toInt_half y)
    simp only [num, if_true, one_lt_width, half_pow]
    rw [hdifference]
    exact imp_congr_left (by omega)

end Saturation

section SaturatingExpressions

variable {n : ℕ} {s : Bool} (ρ : Valuation χ)

theorem Saturating.eval_build (op : Saturating) (a b : Term χ (.bv n)) :
    (op.build a b).eval ρ = op.onBits (a.eval ρ) (b.eval ρ) := by
  cases op with
  | addSat => simp [Saturating.build, Saturating.onBits, Arith.onBits]
  | subSat =>
    simp [Saturating.build, Saturating.onBits, Arith.onBits]

theorem saturate_iff (x y : BitVec n) (op : Saturating) :
    op.onBits x y = op.meaning s x y ↔ op.Exact x y s := by
  cases n with
  | zero =>
    refine iff_of_true (Subsingleton.elim _ _) ?_
    have hzero : y.toNat = 0 := by
      rw [BitVec.of_length_zero (x := y)]
      rfl
    cases op with
    | addSat => exact fun _ h => absurd h (by omega)
    | subSat =>
      rw [Saturating.Exact]
      split_ifs
      · exact fun h => absurd h (by omega)
      · exact Or.inl hzero
  | succ m =>
    cases op with
    | addSat => exact addSat_iff x y s
    | subSat => exact subSat_iff x y s

/-- The value of a saturating operation. -/
theorem saturate_agrees_iff (op : Saturating) {l r : Expr χ (.bits s n)} (hl : Agrees ρ l)
    (hr : Agrees ρ r) : Agrees ρ (.saturate op l r) ↔ op.Exact (l.value ρ) (r.value ρ) s := by
  rw [Agrees, evaluate, Saturating.eval_build, hl, hr, Expr.value]
  exact saturate_iff _ _ op

end SaturatingExpressions

namespace Counters

inductive Location : Ty → Type where
  | packets : Location (.bits false 8)
  | dropped : Location (.bits false 8)
  | drift : Location (.bits true 8)

def valuation : Valuation Location
  | _, .packets => 5
  | _, .dropped => 3
  | _, .drift => 100

def packets : Expr Location (.bits false 8) := .versioned .packets

def dropped : Expr Location (.bits false 8) := .versioned .dropped

def difference : Expr Location (.bits false 8) := .saturate .subSat packets dropped

def total : Expr Location (.bits false 8) := .saturate .addSat packets dropped

def doubled : Expr Location (.bits true 8) :=
  .saturate .addSat (.versioned .drift) (.versioned .drift)

end Counters

open Counters in
/-- A difference is encoded as a sum, and a signed sum is tested for unsigned overflow. -/
theorem saturation_disagrees :
    (evaluate difference).eval Counters.valuation = (8 : BitVec 8) ∧
    difference.value Counters.valuation = (2 : BitVec 8) ∧
    (evaluate doubled).eval Counters.valuation = (200 : BitVec 8) ∧
    doubled.value Counters.valuation = (127 : BitVec 8) := by
  refine ⟨?_, ?_, ?_, ?_⟩ <;> decide

open Counters in
theorem unsigned_total_agrees :
    Agrees Counters.valuation packets ∧ Agrees Counters.valuation total := by
  have hpackets : Agrees Counters.valuation packets := rfl
  have hdropped : Agrees Counters.valuation dropped := rfl
  exact ⟨hpackets, (saturate_agrees_iff _ .addSat hpackets hdropped).mpr fun h => nomatch h⟩

end ExpressionEncoding
