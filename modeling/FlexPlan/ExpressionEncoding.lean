import Mathlib.Data.BitVec

/-!
# Encoding of P4 expressions

`EvaluateRVs` builds a Z3 term for an expression. A value of type `bit<n>` or `int<n>` stands for a
number, and results are wrapped to the width; terms have the meaning of bit vectors.
-/
namespace ExpressionEncoding

inductive Ty where
  | bool
  | bits (isSigned : Bool) (width : ℕ)
  deriving DecidableEq

inductive Srt where
  | bool
  | bv (width : ℕ)
  deriving DecidableEq

abbrev Srt.Value : Srt → Type
  | .bool => Bool
  | .bv n => BitVec n

instance : (s : Srt) → DecidableEq s.Value
  | .bool => inferInstanceAs (DecidableEq Bool)
  | .bv n => inferInstanceAs (DecidableEq (BitVec n))

abbrev Ty.sort : Ty → Srt
  | .bool => .bool
  | .bits _ n => .bv n

inductive Arith where
  | add
  | sub
  | mul
  | band
  | bor
  | bxor
  deriving DecidableEq

inductive Comparison where
  | lss
  | grt
  | geq
  | leq
  deriving DecidableEq

inductive Logic where
  | land
  | lor
  deriving DecidableEq

inductive Shift where
  | shl
  | shr
  deriving DecidableEq

inductive Saturating where
  | addSat
  | subSat
  deriving DecidableEq

variable {χ : Ty → Type}

/-- Well-typed expressions; `χ` are the versioned locations. A shift is by an unsigned
expression or by a literal amount. -/
inductive Expr (χ : Ty → Type) : Ty → Type where
  | versioned {τ : Ty} (x : χ τ) : Expr χ τ
  | boolLiteral (b : Bool) : Expr χ .bool
  | constant {s : Bool} {n : ℕ} (v : ℤ) : Expr χ (.bits s n)
  | lnot (e : Expr χ .bool) : Expr χ .bool
  | cmpl {s : Bool} {n : ℕ} (e : Expr χ (.bits s n)) : Expr χ (.bits s n)
  | neg {s : Bool} {n : ℕ} (e : Expr χ (.bits s n)) : Expr χ (.bits s n)
  | cast {s : Bool} {n : ℕ} (t : Bool) (m : ℕ) (hm : 0 < m) (e : Expr χ (.bits s n)) :
    Expr χ (.bits t m)
  | castBool (t : Bool) (m : ℕ) (hm : 0 < m) (e : Expr χ .bool) : Expr χ (.bits t m)
  | logic (op : Logic) (l r : Expr χ .bool) : Expr χ .bool
  | arith {s : Bool} {n : ℕ} (op : Arith) (l r : Expr χ (.bits s n)) : Expr χ (.bits s n)
  | compare {s : Bool} {n : ℕ} (op : Comparison) (l r : Expr χ (.bits s n)) : Expr χ .bool
  | equ {τ : Ty} (l r : Expr χ τ) : Expr χ .bool
  | neq {τ : Ty} (l r : Expr χ τ) : Expr χ .bool
  | concat {s t : Bool} {n m : ℕ} (l : Expr χ (.bits s n)) (r : Expr χ (.bits t m)) :
    Expr χ (.bits s (n + m))
  | shift {s : Bool} {n m : ℕ} (op : Shift) (l : Expr χ (.bits s n)) (r : Expr χ (.bits false m)) :
    Expr χ (.bits s n)
  | shiftBy {s : Bool} {n : ℕ} (op : Shift) (l : Expr χ (.bits s n)) (amount : ℕ) :
    Expr χ (.bits s n)
  | saturate {s : Bool} {n : ℕ} (op : Saturating) (l r : Expr χ (.bits s n)) : Expr χ (.bits s n)
  | mux {τ : Ty} (c : Expr χ .bool) (l r : Expr χ τ) : Expr χ τ
  | slice {s : Bool} {n : ℕ} (e : Expr χ (.bits s n)) (h l : ℕ) : Expr χ (.bits false (h - l + 1))

abbrev Valuation (χ : Ty → Type) := (τ : Ty) → χ τ → τ.sort.Value

section Meaning

def num (isSigned : Bool) {n : ℕ} (x : BitVec n) : ℤ := if isSigned then x.toInt else x.toNat

def wrap (n : ℕ) (z : ℤ) : BitVec n := BitVec.ofInt n z

def least (isSigned : Bool) (n : ℕ) : ℤ := if isSigned then -2 ^ (n - 1) else 0

def greatest (isSigned : Bool) (n : ℕ) : ℤ := if isSigned then 2 ^ (n - 1) - 1 else 2 ^ n - 1

def Arith.meaning (s : Bool) {n : ℕ} (x y : BitVec n) : Arith → BitVec n
  | .add => wrap n (num s x + num s y)
  | .sub => wrap n (num s x - num s y)
  | .mul => wrap n (num s x * num s y)
  | .band => x &&& y
  | .bor => x ||| y
  | .bxor => x ^^^ y

def Comparison.meaning (x y : ℤ) : Comparison → Bool
  | .lss => x < y
  | .grt => x > y
  | .geq => x ≥ y
  | .leq => x ≤ y

def Logic.meaning (x y : Bool) : Logic → Bool
  | .land => x && y
  | .lor => x || y

def Shift.meaning (s : Bool) {n : ℕ} (x : BitVec n) (amount : ℕ) : Shift → BitVec n
  | .shl => wrap n (num s x * 2 ^ amount)
  | .shr => wrap n (num s x / 2 ^ amount)

def Saturating.meaning (s : Bool) {n : ℕ} (x y : BitVec n) (op : Saturating) : BitVec n :=
  let exact := match op with
    | .addSat => num s x + num s y
    | .subSat => num s x - num s y
  wrap n (max (least s n) (min (greatest s n) exact))

/-- The value P4 gives to an expression. -/
@[simp] def Expr.value (ρ : Valuation χ) : {τ : Ty} → Expr χ τ → τ.sort.Value
  | _, .versioned x => ρ _ x
  | _, .boolLiteral b => b
  | _, .constant v => wrap _ v
  | _, .lnot e => !e.value ρ
  | _, .cmpl e => ~~~e.value ρ
  | .bits s n, .neg e => wrap n (-num s (e.value ρ))
  | _, .cast (s := s) _ m _ e => wrap m (num s (e.value ρ))
  | _, .castBool _ m _ e => wrap m (if e.value ρ then 1 else 0)
  | _, .logic op l r => op.meaning (l.value ρ) (r.value ρ)
  | _, .arith (s := s) op l r => op.meaning s (l.value ρ) (r.value ρ)
  | _, .compare (s := s) op l r => op.meaning (num s (l.value ρ)) (num s (r.value ρ))
  | _, .equ l r => decide (l.value ρ = r.value ρ)
  | _, .neq l r => !decide (l.value ρ = r.value ρ)
  | _, .concat l r => l.value ρ ++ r.value ρ
  | _, .shift (s := s) op l r => op.meaning s (l.value ρ) (r.value ρ).toNat
  | _, .shiftBy (s := s) op l amount => op.meaning s (l.value ρ) amount
  | _, .saturate (s := s) op l r => op.meaning s (l.value ρ) (r.value ρ)
  | _, .mux c l r => if c.value ρ then l.value ρ else r.value ρ
  | _, .slice e h l => (e.value ρ).extractLsb h l

end Meaning

section Terms

/-- Z3 terms over the versioned locations. -/
inductive Term (χ : Ty → Type) : Srt → Type where
  | const {τ : Ty} (x : χ τ) : Term χ τ.sort
  | boolVal (b : Bool) : Term χ .bool
  | numeral {n : ℕ} (v : ℤ) : Term χ (.bv n)
  | not (a : Term χ .bool) : Term χ .bool
  | logic (op : Logic) (a b : Term χ .bool) : Term χ .bool
  | bvnot {n : ℕ} (a : Term χ (.bv n)) : Term χ (.bv n)
  | bvneg {n : ℕ} (a : Term χ (.bv n)) : Term χ (.bv n)
  | arith {n : ℕ} (op : Arith) (a b : Term χ (.bv n)) : Term χ (.bv n)
  | compare {n : ℕ} (isSigned : Bool) (op : Comparison) (a b : Term χ (.bv n)) : Term χ .bool
  | eq {s : Srt} (a b : Term χ s) : Term χ .bool
  | ne {s : Srt} (a b : Term χ s) : Term χ .bool
  | concat {n m : ℕ} (a : Term χ (.bv n)) (b : Term χ (.bv m)) : Term χ (.bv (n + m))
  | extract {n : ℕ} (hi lo : ℕ) (a : Term χ (.bv n)) : Term χ (.bv (hi - lo + 1))
  | zext {n : ℕ} (i : ℕ) (a : Term χ (.bv n)) : Term χ (.bv (n + i))
  | ite {s : Srt} (c : Term χ .bool) (a b : Term χ s) : Term χ s
  | shl {n : ℕ} (a b : Term χ (.bv n)) : Term χ (.bv n)
  | lshr {n : ℕ} (a b : Term χ (.bv n)) : Term χ (.bv n)
  | bvaddNoOverflow {n : ℕ} (a b : Term χ (.bv n)) : Term χ .bool
  | bvsubNoOverflow {n : ℕ} (a b : Term χ (.bv n)) : Term χ .bool

def Arith.onBits {n : ℕ} (x y : BitVec n) : Arith → BitVec n
  | .add => x + y
  | .sub => x - y
  | .mul => x * y
  | .band => x &&& y
  | .bor => x ||| y
  | .bxor => x ^^^ y

/-- `bvslt` and its relatives, or `bvult` and its relatives. -/
def Comparison.onBits (isSigned : Bool) {n : ℕ} (x y : BitVec n) : Comparison → Bool
  | .lss => if isSigned then x.slt y else x.ult y
  | .grt => if isSigned then y.slt x else y.ult x
  | .geq => if isSigned then y.sle x else y.ule x
  | .leq => if isSigned then x.sle y else x.ule y

/-- Overflow of an addition is meant without sign, of a subtraction with sign. -/
@[simp] def Term.eval (ρ : Valuation χ) : {s : Srt} → Term χ s → s.Value
  | _, .const x => ρ _ x
  | _, .boolVal b => b
  | _, .numeral v => BitVec.ofInt _ v
  | _, .not a => !a.eval ρ
  | _, .logic op a b => op.meaning (a.eval ρ) (b.eval ρ)
  | _, .bvnot a => ~~~a.eval ρ
  | _, .bvneg a => -a.eval ρ
  | _, .arith op a b => op.onBits (a.eval ρ) (b.eval ρ)
  | _, .compare isSigned op a b => op.onBits isSigned (a.eval ρ) (b.eval ρ)
  | _, .eq a b => decide (a.eval ρ = b.eval ρ)
  | _, .ne a b => !decide (a.eval ρ = b.eval ρ)
  | _, .concat a b => a.eval ρ ++ b.eval ρ
  | _, .extract hi lo a => (a.eval ρ).extractLsb hi lo
  | _, .zext (n := n) i a => (a.eval ρ).setWidth (n + i)
  | _, .ite c a b => if c.eval ρ then a.eval ρ else b.eval ρ
  | _, .shl a b => a.eval ρ <<< b.eval ρ
  | _, .lshr a b => a.eval ρ >>> b.eval ρ
  | _, .bvaddNoOverflow (n := n) a b => (a.eval ρ).toNat + (b.eval ρ).toNat < 2 ^ n
  | _, .bvsubNoOverflow (n := n) a b => (a.eval ρ).toInt - (b.eval ρ).toInt < 2 ^ (n - 1)

def Term.width {n m : ℕ} (h : n = m) (t : Term χ (.bv n)) : Term χ (.bv m) := h ▸ t

theorem Term.eval_width (h : n = m) (t : Term χ (.bv n)) (ρ : Valuation χ) :
    (t.width h).eval ρ = (t.eval ρ).cast h := by
  subst h
  rfl

end Terms

section Builder

/-- `docast` between types of bits: the signs are not looked at. -/
def docast {n : ℕ} (m : ℕ) (hm : 0 < m) (e : Term χ (.bv n)) : Term χ (.bv m) :=
  if h : n < m then (e.zext (m - n)).width (by omega)
  else if h : n = m then e.width h
  else (e.extract (m - 1) 0).width (by omega)

/-- `docast` from a boolean. -/
def docastBool (m : ℕ) (hm : 0 < m) (e : Term χ .bool) : Term χ (.bv m) :=
  let asbv : Term χ (.bv 1) := .ite e (.numeral 1) (.numeral 1)
  if h : 1 < m then (asbv.zext (m - 1)).width (by omega) else asbv.width (by omega)

def Expr.asConstant : {τ : Ty} → Expr χ τ → Option ℤ
  | _, .constant v => some v
  | _, _ => none

def Shift.build {n : ℕ} (a b : Term χ (.bv n)) : Shift → Term χ (.bv n)
  | .shl => .shl a b
  | .shr => .lshr a b

def shiftConstant (v : ℤ) {n : ℕ} : Term χ (.bv n) := .numeral ((v.natAbs % 2 ^ 64 : ℕ) : ℤ)

def Saturating.build {n : ℕ} (a b : Term χ (.bv n)) : Saturating → Term χ (.bv n)
  | .addSat => .ite (.bvaddNoOverflow a b) (.arith .add a b) (.numeral (2 ^ n - 1))
  | .subSat => .ite (.bvsubNoOverflow a b) (.arith .add a b) (.numeral 0)

/-- The term that `EvaluateRVs` enters for an expression. -/
@[simp] def evaluate : {τ : Ty} → Expr χ τ → Term χ τ.sort
  | _, .versioned x => .const x
  | _, .boolLiteral b => .boolVal b
  | _, .constant v => .numeral v
  | _, .lnot e => .not (evaluate e)
  | _, .cmpl e => .bvnot (evaluate e)
  | _, .neg e => .bvneg (evaluate e)
  | _, .cast _ m hm e => docast m hm (evaluate e)
  | _, .castBool _ m hm e => docastBool m hm (evaluate e)
  | _, .logic op l r => .logic op (evaluate l) (evaluate r)
  | _, .arith op l r => .arith op (evaluate l) (evaluate r)
  | _, .compare (s := s) op l r => .compare s op (evaluate l) (evaluate r)
  | _, .equ l r => .eq (evaluate l) (evaluate r)
  | _, .neq l r => .ne (evaluate l) (evaluate r)
  | _, .concat l r => .concat (evaluate l) (evaluate r)
  | _, .shift (n := n) op l r =>
    match r.asConstant with
    | some v => op.build (evaluate l) (shiftConstant v)
    | none => if h : 0 < n then op.build (evaluate l) (docast n h (evaluate r)) else evaluate l
  | _, .shiftBy op l amount => op.build (evaluate l) (shiftConstant amount)
  | _, .saturate op l r => op.build (evaluate l) (evaluate r)
  | _, .mux c l r => .ite (evaluate c) (evaluate l) (evaluate r)
  | _, .slice e h l => .extract h l (evaluate e)

end Builder

section Properties

/-- A property of an expression and all its subexpressions. -/
@[simp] def Everywhere (P : {τ : Ty} → Expr χ τ → Prop) : {τ : Ty} → Expr χ τ → Prop
  | _, .versioned x => P (.versioned x)
  | _, .boolLiteral b => P (.boolLiteral b)
  | .bits s n, .constant v => P (.constant v : Expr χ (.bits s n))
  | _, .lnot e => P (.lnot e) ∧ Everywhere P e
  | _, .cmpl e => P (.cmpl e) ∧ Everywhere P e
  | _, .neg e => P (.neg e) ∧ Everywhere P e
  | _, .cast t m hm e => P (.cast t m hm e) ∧ Everywhere P e
  | _, .castBool t m hm e => P (.castBool t m hm e) ∧ Everywhere P e
  | _, .logic op l r => P (.logic op l r) ∧ Everywhere P l ∧ Everywhere P r
  | _, .arith op l r => P (.arith op l r) ∧ Everywhere P l ∧ Everywhere P r
  | _, .compare op l r => P (.compare op l r) ∧ Everywhere P l ∧ Everywhere P r
  | _, .equ l r => P (.equ l r) ∧ Everywhere P l ∧ Everywhere P r
  | _, .neq l r => P (.neq l r) ∧ Everywhere P l ∧ Everywhere P r
  | _, .concat l r => P (.concat l r) ∧ Everywhere P l ∧ Everywhere P r
  | _, .shift op l r => P (.shift op l r) ∧ Everywhere P l ∧ Everywhere P r
  | _, .shiftBy op l amount => P (.shiftBy op l amount) ∧ Everywhere P l
  | _, .saturate op l r => P (.saturate op l r) ∧ Everywhere P l ∧ Everywhere P r
  | _, .mux c l r => P (.mux c l r) ∧ Everywhere P c ∧ Everywhere P l ∧ Everywhere P r
  | _, .slice e h l => P (.slice e h l) ∧ Everywhere P e

/-- No shift and no saturating operation. -/
@[simp] def Covered : {τ : Ty} → Expr χ τ → Prop
  | _, .shift _ _ _ => False
  | _, .shiftBy _ _ _ => False
  | _, .saturate _ _ _ => False
  | _, _ => True

/-- The term of an expression has the value of the expression. -/
def Agrees (ρ : Valuation χ) {τ : Ty} (e : Expr χ τ) : Prop := (evaluate e).eval ρ = e.value ρ

/-- A boolean that is cast is true, and a signed number that is widened is not negative. -/
@[simp] def CastExact (ρ : Valuation χ) : {τ : Ty} → Expr χ τ → Prop
  | _, .castBool _ _ _ e => e.value ρ = true
  | _, .cast (s := true) (n := n) _ m _ e => n < m → 0 ≤ num true (e.value ρ)
  | _, _ => True

end Properties

section Widths

variable {n m : ℕ} (x y : BitVec n) (s : Bool)

@[simp] theorem wrap_num : wrap n (num s x) = x := by
  cases s with
  | true => exact BitVec.ofInt_toInt
  | false =>
    simp only [wrap, num, Bool.false_eq_true, if_false, BitVec.ofInt_natCast]
    exact BitVec.ofNat_toNat n x |>.trans x.setWidth_eq

theorem arith_meaning (op : Arith) : op.onBits x y = op.meaning s x y := by
  have hx := wrap_num x s
  have hy := wrap_num y s
  simp only [wrap] at hx hy
  cases op with
  | add => rw [Arith.meaning, wrap, BitVec.ofInt_add, hx, hy, Arith.onBits]
  | sub =>
    rw [Arith.meaning, wrap, Int.sub_eq_add_neg, BitVec.ofInt_add, BitVec.ofInt_neg, hx, hy,
      Arith.onBits, BitVec.sub_eq_add_neg]
  | mul => rw [Arith.meaning, wrap, BitVec.ofInt_mul, hx, hy, Arith.onBits]
  | band | bor | bxor => rfl

theorem neg_meaning : -x = wrap n (-num s x) := by
  have hx := wrap_num x s
  simp only [wrap] at hx
  rw [wrap, BitVec.ofInt_neg, hx]

theorem comparison_meaning (op : Comparison) :
    op.onBits s x y = op.meaning (num s x) (num s y) := by
  cases s <;> cases op <;>
    simp [Comparison.onBits, Comparison.meaning, num, BitVec.slt, BitVec.sle,
      BitVec.ult, BitVec.ule]

theorem eval_docast {χ : Ty → Type} (ρ : Valuation χ) (hm : 0 < m) (e : Term χ (.bv n)) :
    (docast m hm e).eval ρ = (e.eval ρ).setWidth m := by
  have hlt := (e.eval ρ).isLt
  refine BitVec.eq_of_toNat_eq ?_
  unfold docast
  split_ifs with hless heq
  · rw [Term.eval_width, BitVec.toNat_cast, Term.eval, BitVec.toNat_setWidth, BitVec.toNat_setWidth]
    congr 2
    omega
  · subst heq
    rw [Term.eval_width, BitVec.toNat_cast, BitVec.setWidth_eq]
  · rw [Term.eval_width, BitVec.toNat_cast, Term.eval, BitVec.extractLsb_toNat,
      BitVec.toNat_setWidth,
      Nat.shiftRight_zero]
    congr 2
    omega

theorem setWidth_eq_wrap_iff :
    x.setWidth m = wrap m (num s x) ↔ (s = true → n < m → 0 ≤ num true x) := by
  cases s with
  | false => simp [wrap, num, BitVec.ofInt_natCast]
  | true =>
    have hlt := x.isLt
    have hnum : num true x = x.toInt := rfl
    have hint := x.toInt_eq_toNat_cond
    rw [hnum, ← BitVec.toNat_inj, BitVec.toNat_setWidth, wrap, BitVec.toNat_ofInt]
    push_cast
    by_cases hsmall : 2 * x.toNat < 2 ^ n
    · rw [if_pos hsmall] at hint
      rw [hint]
      constructor
      · exact fun _ _ _ => Int.natCast_nonneg _
      · intro _
        exact_mod_cast (Int.toNat_natCast (x.toNat % 2 ^ m)).symm
    · rw [if_neg hsmall] at hint
      have hneg : x.toInt < 0 := by
        push_cast at hint
        have : (x.toNat : ℤ) < 2 ^ n := by exact_mod_cast hlt
        omega
      by_cases hwider : n < m
      · -- the sign is lost: the two numbers are 2 ^ n apart
        have hpow : 2 ^ n < 2 ^ m := Nat.pow_lt_pow_right (by omega) hwider
        have hmod : x.toInt % (2 ^ m : ℤ) = x.toInt + 2 ^ m := by
          rw [← Int.add_emod_right]
          refine Int.emod_eq_of_lt ?_ (by omega)
          have : ((2 : ℤ) ^ n) < 2 ^ m := by exact_mod_cast hpow
          push_cast at hint
          omega
        rw [Nat.mod_eq_of_lt (hlt.trans hpow), hmod]
        constructor
        · intro heq
          exfalso
          have h1 : ((2 : ℤ) ^ n) < 2 ^ m := by exact_mod_cast hpow
          push_cast at hint
          omega
        · intro h
          have := h rfl hwider
          omega
      · refine ⟨fun _ _ h => absurd h hwider, fun _ => ?_⟩
        have hdvd : (2 ^ m : ℤ) ∣ 2 ^ n := pow_dvd_pow 2 (by omega)
        have hmod : x.toInt % (2 ^ m : ℤ) = (x.toNat : ℤ) % 2 ^ m := by
          rw [hint]
          push_cast
          rw [Int.sub_emod, Int.emod_eq_zero_of_dvd hdvd, Int.sub_zero, Int.emod_emod]
        rw [hmod]
        exact_mod_cast (Int.toNat_natCast (x.toNat % 2 ^ m)).symm

theorem eval_docastBool {χ : Ty → Type} (ρ : Valuation χ) (hm : 0 < m) (e : Term χ .bool) :
    (docastBool m hm e).eval ρ = BitVec.ofNat m 1 := by
  have hone : (Term.ite e (.numeral 1) (.numeral 1) : Term χ (.bv 1)).eval ρ =
      BitVec.ofNat 1 1 := by
    rw [Term.eval, ite_self]
    rfl
  refine BitVec.eq_of_toNat_eq ?_
  unfold docastBool
  split_ifs with hless
  · rw [Term.eval_width, BitVec.toNat_cast, Term.eval, hone, BitVec.toNat_setWidth,
      BitVec.toNat_ofNat,
      BitVec.toNat_ofNat]
    congr 2
    omega
  · obtain rfl : m = 1 := by omega
    rw [Term.eval_width, BitVec.toNat_cast, hone]

end Widths

section Correctness

variable {ρ : Valuation χ} {τ : Ty}

theorem everywhere_self (h : Everywhere P e) : P e := by
  cases e with
  | versioned x | boolLiteral b | constant v => exact h
  | lnot | cmpl | neg | cast | castBool | logic | arith | compare | equ | neq | concat | shift
    | shiftBy | saturate | mux | slice => exact h.1

section Nodes

variable {s t : Bool} {n m : ℕ} {e : Expr χ (.bits s n)}

theorem agrees_cast (he : Agrees ρ e) :
    Agrees ρ (.cast t m hm e) ↔ CastExact ρ (.cast t m hm e) := by
  unfold Agrees at he ⊢
  rw [evaluate, eval_docast, he, Expr.value, setWidth_eq_wrap_iff]
  cases s with
  | true | false => simp [CastExact]

theorem agrees_castBool {e : Expr χ .bool} :
    Agrees ρ (.castBool t m hm e) ↔ CastExact ρ (.castBool t m hm e) := by
  unfold Agrees
  rw [evaluate, eval_docastBool, Expr.value, CastExact]
  cases e.value ρ with
  | true => simp [wrap]
  | false =>
    have hzero : BitVec.ofNat m 1 ≠ BitVec.ofNat m 0 := by
      intro h
      have hnat := congrArg BitVec.toNat h
      rw [BitVec.toNat_ofNat, BitVec.toNat_ofNat, Nat.zero_mod,
        Nat.mod_eq_of_lt (Nat.one_lt_two_pow hm.ne')] at hnat
      omega
    simpa [wrap] using hzero

theorem agrees_lnot {e : Expr χ .bool} (he : Agrees ρ e) : Agrees ρ (.lnot e) := by
  unfold Agrees at he ⊢
  rw [evaluate, Term.eval, he, Expr.value]

theorem agrees_cmpl (he : Agrees ρ e) : Agrees ρ (.cmpl e) := by
  unfold Agrees at he ⊢
  rw [evaluate, Term.eval, he, Expr.value]

theorem agrees_neg (he : Agrees ρ e) : Agrees ρ (.neg e) := by
  unfold Agrees at he ⊢
  rw [evaluate, Term.eval, he, Expr.value]
  exact neg_meaning _ _

theorem agrees_slice (he : Agrees ρ e) : Agrees ρ (.slice e h l) := by
  unfold Agrees at he ⊢
  rw [evaluate, Term.eval, he, Expr.value]

theorem agrees_logic {op : Logic} (hl : Agrees ρ l) (hr : Agrees ρ r) :
    Agrees ρ (.logic op l r) := by
  unfold Agrees at hl hr ⊢
  rw [evaluate, Term.eval, hl, hr, Expr.value]

theorem agrees_arith {op : Arith} (hl : Agrees ρ l) (hr : Agrees ρ r) :
    Agrees ρ (.arith op l r) := by
  unfold Agrees at hl hr ⊢
  rw [evaluate, Term.eval, hl, hr, Expr.value]
  exact arith_meaning _ _ _ op

theorem agrees_compare {op : Comparison} (hl : Agrees ρ l) (hr : Agrees ρ r) :
    Agrees ρ (.compare op l r) := by
  unfold Agrees at hl hr ⊢
  rw [evaluate, Term.eval, hl, hr, Expr.value]
  exact comparison_meaning _ _ _ op

variable {l r : Expr χ τ}

theorem agrees_equ (hl : Agrees ρ l) (hr : Agrees ρ r) : Agrees ρ (.equ l r) := by
  unfold Agrees at hl hr ⊢
  rw [evaluate, Term.eval, hl, hr, Expr.value]

theorem agrees_neq (hl : Agrees ρ l) (hr : Agrees ρ r) : Agrees ρ (.neq l r) := by
  unfold Agrees at hl hr ⊢
  rw [evaluate, Term.eval, hl, hr, Expr.value]

theorem agrees_concat {l : Expr χ (.bits s n)} {r : Expr χ (.bits t m)} (hl : Agrees ρ l)
    (hr : Agrees ρ r) : Agrees ρ (.concat l r) := by
  unfold Agrees at hl hr ⊢
  rw [evaluate, Term.eval, hl, hr, Expr.value]

theorem agrees_mux (hc : Agrees ρ c) (hl : Agrees ρ l) (hr : Agrees ρ r) :
    Agrees ρ (.mux c l r) := by
  unfold Agrees at hc hl hr ⊢
  rw [evaluate, Term.eval, hc, hl, hr, Expr.value]

end Nodes

theorem unary_iff (hnode : A → (P ↔ Q)) (hchild : A ↔ B) : P ∧ A ↔ Q ∧ B := by
  constructor
  · rintro ⟨hp, ha⟩
    exact ⟨(hnode ha).mp hp, hchild.mp ha⟩
  · rintro ⟨hq, hb⟩
    exact ⟨(hnode (hchild.mpr hb)).mpr hq, hchild.mpr hb⟩

theorem binary_iff (hnode : A → A' → (P ↔ Q)) (hl : A ↔ B) (hr : A' ↔ B') :
    P ∧ A ∧ A' ↔ Q ∧ B ∧ B' :=
  unary_iff (fun h => hnode h.1 h.2) (and_congr hl hr)

/-- A node that agrees whenever its operands do. -/
theorem inner_iff (hnode : Agrees ρ l → Agrees ρ r → P) (hl : Everywhere (Agrees ρ) l ↔ B)
    (hr : Everywhere (Agrees ρ) r ↔ B') :
    P ∧ Everywhere (Agrees ρ) l ∧ Everywhere (Agrees ρ) r ↔ True ∧ B ∧ B' :=
  binary_iff (fun hl hr => iff_of_true (hnode (everywhere_self hl) (everywhere_self hr)) trivial) hl
    hr

/-- For every expression without shifts and saturating operations and every valuation: all
entered terms have the values of P4 iff every boolean that is cast is true and every signed
number that is widened is not negative. -/
theorem encoding_agrees_iff (ρ : Valuation χ) {τ : Ty} (e : Expr χ τ)
    (hcovered : Everywhere Covered e) :
    Everywhere (Agrees ρ) e ↔ Everywhere (CastExact ρ) e := by
  induction e with
  | versioned x | boolLiteral b | constant v => exact iff_of_true rfl trivial
  | lnot e ih =>
    exact unary_iff (fun he => iff_of_true (agrees_lnot (everywhere_self he)) trivial)
      (ih hcovered.2)
  | cmpl e ih =>
    exact unary_iff (fun he => iff_of_true (agrees_cmpl (everywhere_self he)) trivial)
      (ih hcovered.2)
  | neg e ih =>
    exact unary_iff (fun he => iff_of_true (agrees_neg (everywhere_self he)) trivial)
      (ih hcovered.2)
  | slice e h l ih =>
    exact unary_iff (fun he => iff_of_true (agrees_slice (everywhere_self he)) trivial)
      (ih hcovered.2)
  | cast t m hm e ih => exact unary_iff (fun he => agrees_cast (everywhere_self he)) (ih hcovered.2)
  | castBool t m hm e ih => exact unary_iff (fun _ => agrees_castBool) (ih hcovered.2)
  | logic op l r ihl ihr => exact inner_iff agrees_logic (ihl hcovered.2.1) (ihr hcovered.2.2)
  | arith op l r ihl ihr => exact inner_iff agrees_arith (ihl hcovered.2.1) (ihr hcovered.2.2)
  | compare op l r ihl ihr => exact inner_iff agrees_compare (ihl hcovered.2.1) (ihr hcovered.2.2)
  | equ l r ihl ihr => exact inner_iff agrees_equ (ihl hcovered.2.1) (ihr hcovered.2.2)
  | neq l r ihl ihr => exact inner_iff agrees_neq (ihl hcovered.2.1) (ihr hcovered.2.2)
  | concat l r ihl ihr => exact inner_iff agrees_concat (ihl hcovered.2.1) (ihr hcovered.2.2)
  | shift op l r | shiftBy op l amount | saturate op l r => exact hcovered.1.elim
  | mux c l r ihc ihl ihr =>
    refine unary_iff (fun h => iff_of_true ?_ trivial)
      (and_congr (ihc hcovered.2.1) (and_congr (ihl hcovered.2.2.1) (ihr hcovered.2.2.2)))
    exact agrees_mux (everywhere_self h.1) (everywhere_self h.2.1) (everywhere_self h.2.2)

end Correctness

namespace SignedCounter

/-- One versioned location of type `int<8>` and a boolean one. -/
inductive Location : Ty → Type where
  | counter : Location (.bits true 8)
  | seen : Location .bool

def valuation (counter : BitVec 8) (seen : Bool) : Valuation Location
  | _, .counter => counter
  | _, .seen => seen

/-- `(int<16>) counter + 1`. -/
def widened : Expr Location (.bits true 16) :=
  .arith .add (.cast true 16 (by omega) (.versioned .counter)) (.constant 1)

/-- `(bit<1>) seen`. -/
def flag : Expr Location (.bits false 1) := .castBool false 1 (by omega) (.versioned .seen)

end SignedCounter

theorem widened_counter_agrees : Everywhere Covered SignedCounter.widened ∧
    Everywhere (Agrees (SignedCounter.valuation 5 true)) SignedCounter.widened := by
  have hcovered : Everywhere Covered SignedCounter.widened := by
    simp [SignedCounter.widened, Everywhere, Covered]
  refine ⟨hcovered, (encoding_agrees_iff _ _ hcovered).mpr ?_⟩
  refine ⟨trivial, ⟨fun _ => ?_, trivial⟩, trivial⟩
  decide

/-- A negative counter is widened with zeros, and `false` is cast to 1. -/
theorem casts_disagree :
    Everywhere Covered SignedCounter.widened ∧ Everywhere Covered SignedCounter.flag ∧
    ¬Agrees (SignedCounter.valuation (-1) false) SignedCounter.widened ∧
    ¬Agrees (SignedCounter.valuation (-1) false) SignedCounter.flag := by
  refine ⟨?_, ?_, ?_, ?_⟩
  · simp [SignedCounter.widened, Everywhere, Covered]
  · simp [SignedCounter.flag, Everywhere, Covered]
  · unfold Agrees
    decide
  · unfold Agrees
    decide

end ExpressionEncoding
