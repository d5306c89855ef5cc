import Mathlib.Data.Bool.Basic

/-!
# Negation normal form

`if_to_nnf` replaces `!=` by a negated equality and then pushes negations inwards. The pass does not
look below an expression it has rewritten, so negations under a double negation stay.
-/
namespace NegationNormalForm

inductive Kind where
  | bool
  | data
  deriving DecidableEq

/-- Conditions over boolean atoms `α` and other operands `β`. -/
inductive Expr (α β : Type) : Kind → Type where
  | atom (a : α) : Expr α β .bool
  | operand (b : β) : Expr α β .data
  | boolLiteral (value : Bool) : Expr α β .bool
  | equ {k : Kind} (left right : Expr α β k) : Expr α β .bool
  | neq {k : Kind} (left right : Expr α β k) : Expr α β .bool
  | lNot (expr : Expr α β .bool) : Expr α β .bool
  | lAnd (left right : Expr α β .bool) : Expr α β .bool
  | lOr (left right : Expr α β .bool) : Expr α β .bool

variable {α β D : Type}

section Passes

def negate : {k : Kind} → Expr α β k → Expr α β k
  | _, .lNot e => e
  | _, .lAnd l r => .lOr (negate l) (negate r)
  | _, .lOr l r => .lAnd (negate l) (negate r)
  | _, .boolLiteral b => .boolLiteral !b
  | _, .neq l r => .equ l r
  | _, .atom a => .lNot (.atom a)
  | _, .equ l r => .lNot (.equ l r)
  | _, .operand b => .operand b

def rmNeq : {k : Kind} → Expr α β k → Expr α β k
  | _, .atom a => .atom a
  | _, .operand b => .operand b
  | _, .boolLiteral b => .boolLiteral b
  | _, .equ l r => .equ (rmNeq l) (rmNeq r)
  | _, .neq l r => .lNot (.equ (rmNeq l) (rmNeq r))
  | _, .lNot e => .lNot (rmNeq e)
  | _, .lAnd l r => .lAnd (rmNeq l) (rmNeq r)
  | _, .lOr l r => .lOr (rmNeq l) (rmNeq r)

def toNNF : {k : Kind} → Expr α β k → Expr α β k
  | _, .atom a => .atom a
  | _, .operand b => .operand b
  | _, .boolLiteral b => .boolLiteral b
  | _, .equ l r => .equ (toNNF l) (toNNF r)
  | _, .neq l r => .neq (toNNF l) (toNNF r)
  | _, .lNot e => negate e
  | _, .lAnd l r => .lAnd (toNNF l) (toNNF r)
  | _, .lOr l r => .lOr (toNNF l) (toNNF r)

def ifToNnf (condition : Expr α β .bool) : Expr α β .bool := toNNF (rmNeq condition)

end Passes

section Specification

abbrev Value (D : Type) : Kind → Type
  | .bool => Bool
  | .data => D

instance [DecidableEq D] : (k : Kind) → DecidableEq (Value D k)
  | .bool => inferInstanceAs (DecidableEq Bool)
  | .data => inferInstanceAs (DecidableEq D)

def eval [DecidableEq D] (ρ : α → Bool) (δ : β → D) : {k : Kind} → Expr α β k → Value D k
  | _, .atom a => ρ a
  | _, .operand b => δ b
  | _, .boolLiteral b => b
  | _, .equ l r => decide (eval ρ δ l = eval ρ δ r)
  | _, .neq l r => !decide (eval ρ δ l = eval ρ δ r)
  | _, .lNot e => !(eval ρ δ e : Bool)
  | _, .lAnd l r => (eval ρ δ l : Bool) && (eval ρ δ r : Bool)
  | _, .lOr l r => (eval ρ δ l : Bool) || (eval ρ δ r : Bool)

def NoNeq : {k : Kind} → Expr α β k → Prop
  | _, .neq _ _ => False
  | _, .equ l r => NoNeq l ∧ NoNeq r
  | _, .lNot e => NoNeq e
  | _, .lAnd l r | _, .lOr l r => NoNeq l ∧ NoNeq r
  | _, .atom _ | _, .operand _ | _, .boolLiteral _ => True

def IsAtomic : Expr α β .bool → Prop
  | .atom _ | .equ _ _ => True
  | _ => False

/-- Negations stand directly above atoms and equalities only. -/
def IsNnf : {k : Kind} → Expr α β k → Prop
  | _, .equ l r | _, .neq l r => IsNnf l ∧ IsNnf r
  | _, .lNot e => IsAtomic e ∧ IsNnf e
  | _, .lAnd l r | _, .lOr l r => IsNnf l ∧ IsNnf r
  | _, .atom _ | _, .operand _ | _, .boolLiteral _ => True

/-- Nothing has to be pushed: with `!=` read as a negated equality, the normal form is there. -/
def Plain : {k : Kind} → Expr α β k → Prop
  | _, .equ l r | _, .neq l r => Plain l ∧ Plain r
  | _, .lNot e => IsAtomic e ∧ Plain e
  | _, .lAnd l r | _, .lOr l r => Plain l ∧ Plain r
  | _, .atom _ | _, .operand _ | _, .boolLiteral _ => True

/-- Below a negation: what `negate` does not reach is plain. -/
def Pushable : {k : Kind} → Expr α β k → Prop
  | _, .lAnd l r | _, .lOr l r => Pushable l ∧ Pushable r
  | _, .lNot e => Plain e
  | _, .equ l r | _, .neq l r => Plain l ∧ Plain r
  | _, .atom _ | _, .operand _ | _, .boolLiteral _ => True

/-- The operands of inner negations, and those of negated equalities, are plain. -/
def Ready : {k : Kind} → Expr α β k → Prop
  | _, .lNot e => Pushable e
  | _, .neq l r => Plain l ∧ Plain r
  | _, .equ l r => Ready l ∧ Ready r
  | _, .lAnd l r | _, .lOr l r => Ready l ∧ Ready r
  | _, .atom _ | _, .operand _ | _, .boolLiteral _ => True

end Specification

section Equivalence

variable [DecidableEq D] (ρ : α → Bool) (δ : β → D)

theorem eval_negate (e : Expr α β .bool) : eval ρ δ (negate e) = !(eval ρ δ e : Bool) := by
  match e with
  | .lNot e => exact (Bool.not_not _).symm
  | .lAnd l r =>
    show ((eval ρ δ (negate l) : Bool) || (eval ρ δ (negate r) : Bool)) = _
    rw [eval_negate l, eval_negate r]
    exact (Bool.not_and _ _).symm
  | .lOr l r =>
    show ((eval ρ δ (negate l) : Bool) && (eval ρ δ (negate r) : Bool)) = _
    rw [eval_negate l, eval_negate r]
    exact (Bool.not_or _ _).symm
  | .boolLiteral b => rfl
  | .neq l r => exact (Bool.not_not _).symm
  | .atom a | .equ l r => rfl

theorem eval_rmNeq (e : Expr α β k) : eval ρ δ (rmNeq e) = eval ρ δ e := by
  induction e with
  | atom a | operand b | boolLiteral b => rfl
  | equ l r ihl ihr | neq l r ihl ihr => simp only [rmNeq, eval, ihl, ihr]
  | lNot e ih => simp only [rmNeq, eval, ih]
  | lAnd l r ihl ihr | lOr l r ihl ihr => simp only [rmNeq, eval, ihl, ihr]

theorem eval_toNNF (e : Expr α β k) : eval ρ δ (toNNF e) = eval ρ δ e := by
  induction e with
  | atom a | operand b | boolLiteral b => rfl
  | equ l r ihl ihr | neq l r ihl ihr => simp only [toNNF, eval, ihl, ihr]
  | lNot e ih => exact eval_negate ρ δ e
  | lAnd l r ihl ihr | lOr l r ihl ihr => simp only [toNNF, eval, ihl, ihr]

end Equivalence

section NormalForm

variable {k : Kind}

theorem noNeq_rmNeq (e : Expr α β k) : NoNeq (rmNeq e) := by
  induction e with
  | atom a | operand b | boolLiteral b => trivial
  | equ l r ihl ihr | neq l r ihl ihr => exact ⟨ihl, ihr⟩
  | lNot e ih => exact ih
  | lAnd l r ihl ihr | lOr l r ihl ihr => exact ⟨ihl, ihr⟩

theorem noNeq_negate {e : Expr α β .bool} (h : NoNeq e) : NoNeq (negate e) := by
  match e, h with
  | .lNot e, h => exact h
  | .lAnd l r, h | .lOr l r, h => exact ⟨noNeq_negate h.1, noNeq_negate h.2⟩
  | .boolLiteral b, h | .atom a, h => trivial
  | .equ l r, h => exact h

theorem noNeq_toNNF (h : NoNeq e) : NoNeq (toNNF e) := by
  induction e with
  | atom a | operand b | boolLiteral b => trivial
  | equ l r ihl ihr => exact ⟨ihl h.1, ihr h.2⟩
  | neq l r ihl ihr => exact h.elim
  | lNot e ih => exact noNeq_negate h
  | lAnd l r ihl ihr | lOr l r ihl ihr => exact ⟨ihl h.1, ihr h.2⟩

theorem isAtomic_rmNeq : IsAtomic (rmNeq e) ↔ IsAtomic e := by
  cases e <;> exact Iff.rfl

theorem isNnf_rmNeq_iff (e : Expr α β k) : IsNnf (rmNeq e) ↔ Plain e := by
  induction e with
  | atom a | operand b | boolLiteral b => exact Iff.rfl
  | equ l r ihl ihr => exact and_congr ihl ihr
  | neq l r ihl ihr => exact (and_iff_right trivial).trans (and_congr ihl ihr)
  | lNot e ih => exact and_congr isAtomic_rmNeq ih
  | lAnd l r ihl ihr | lOr l r ihl ihr => exact and_congr ihl ihr

theorem isNnf_negate_iff (e : Expr α β .bool) : IsNnf (negate (rmNeq e)) ↔ Pushable e := by
  match e with
  | .lNot e => exact isNnf_rmNeq_iff e
  | .lAnd l r | .lOr l r => exact and_congr (isNnf_negate_iff l) (isNnf_negate_iff r)
  | .boolLiteral b => exact Iff.rfl
  | .atom a => exact and_iff_left trivial
  | .equ l r =>
    exact (and_iff_right trivial).trans (and_congr (isNnf_rmNeq_iff l) (isNnf_rmNeq_iff r))
  | .neq l r => exact and_congr (isNnf_rmNeq_iff l) (isNnf_rmNeq_iff r)

theorem isNnf_toNNF_iff (e : Expr α β k) : IsNnf (toNNF (rmNeq e)) ↔ Ready e := by
  induction e with
  | atom a | operand b | boolLiteral b => exact Iff.rfl
  | equ l r ihl ihr => exact and_congr ihl ihr
  | neq l r ihl ihr =>
    exact (and_iff_right trivial).trans (and_congr (isNnf_rmNeq_iff l) (isNnf_rmNeq_iff r))
  | lNot e ih => exact isNnf_negate_iff e
  | lAnd l r ihl ihr | lOr l r ihl ihr => exact and_congr ihl ihr

end NormalForm

/-- The two passes keep the meaning and remove `!=`. Negations are above atoms only exactly if
no inner negation had anything left to push. -/
theorem ifToNnf_spec [DecidableEq D] (e : Expr α β .bool) :
    (∀ (ρ : α → Bool) (δ : β → D), eval ρ δ (ifToNnf e) = eval ρ δ e) ∧ NoNeq (ifToNnf e) ∧
      (IsNnf (ifToNnf e) ↔ Ready e) := by
  refine ⟨fun ρ δ => ?_, noNeq_toNNF (noNeq_rmNeq e), isNnf_toNNF_iff e⟩
  rw [ifToNnf, eval_toNNF, eval_rmNeq]

/-- `!!!(a && b)` becomes `!(a && b)`. -/
theorem triple_negation_kept :
    ¬IsNnf (ifToNnf (.lNot (.lNot (.lNot (.lAnd (.atom 'a') (.atom 'b'))))) : Expr Char
      Char .bool) :=
  fun h => h.1

end NegationNormalForm
