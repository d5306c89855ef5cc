import FlexPlan.NegationNormalForm
import FlexPlan.TransitionRuns
import Mathlib.Tactic.Linarith

/-!
# Disjunctive normal form

`Cuber` repeats `ToNNF` and then `DoDNF`, each until nothing changes. A round of the first
removes a negation above something else than an atom; a round of the second makes a weight
smaller that multiplies at conjunctions and adds at disjunctions.
-/
namespace DisjunctiveNormalForm

open NegationNormalForm TransitionRuns List

deriving instance DecidableEq for Expr

variable {α β D : Type}

section Model

/-- `postorder` of a conjunction; the left operand is looked at first. -/
def distribute : Expr α β .bool → Expr α β .bool → Expr α β .bool
  | .lOr c d, right => .lOr (.lAnd right c) (.lAnd right d)
  | left, .lOr c d => .lOr (.lAnd left c) (.lAnd left d)
  | left, right => .lAnd left right

def doDNF : {k : Kind} → Expr α β k → Expr α β k
  | _, .atom a => .atom a
  | _, .operand b => .operand b
  | _, .boolLiteral b => .boolLiteral b
  | _, .equ l r => .equ (doDNF l) (doDNF r)
  | _, .neq l r => .neq (doDNF l) (doDNF r)
  | _, .lNot e => .lNot (doDNF e)
  | _, .lAnd l r => distribute (doDNF l) (doDNF r)
  | _, .lOr l r => .lOr (doDNF l) (doDNF r)

/-- One round of `PassRepeated`. -/
def round [DecidableEq α] [DecidableEq β] (pass : Expr α β .bool → Expr α β .bool)
    (e : Expr α β .bool) :
    Option (Expr α β .bool) :=
  if pass e = e then none else some (pass e)

/-- The two repeated passes end with `t`. -/
def Cuber [DecidableEq α] [DecidableEq β] (e t : Expr α β .bool) : Prop :=
  ∃ n, Halts (round toNNF) e n ∧ Halts (round doDNF) n t

def cubes : {k : Kind} → Expr α β k → List (Expr α β k)
  | _, .lOr l r => cubes l ++ cubes r
  | _, e => [e]

end Model

section Specification

/-- Outside of equalities, negations stand above atoms and equalities only. -/
def Literals : {k : Kind} → Expr α β k → Prop
  | _, .lNot e => IsAtomic e
  | _, .lAnd l r | _, .lOr l r => Literals l ∧ Literals r
  | _, _ => True

/-- A conjunction of literals. -/
def IsCube : {k : Kind} → Expr α β k → Prop
  | _, .lNot e => IsAtomic e
  | _, .lAnd l r => IsCube l ∧ IsCube r
  | _, .lOr _ _ => False
  | _, _ => True

end Specification

section Termination

/-- The negations that `ToNNF` has to push. -/
def pending : {k : Kind} → Expr α β k → ℕ
  | _, .lNot (.atom _) => 0
  | _, .lNot (.equ l r) => pending l + pending r
  | _, .lNot e => pending e + 1
  | _, .equ l r | _, .neq l r | _, .lAnd l r | _, .lOr l r => pending l + pending r
  | _, .atom _ | _, .operand _ | _, .boolLiteral _ => 0

def weight : {k : Kind} → Expr α β k → ℕ
  | _, .lAnd l r => weight l * weight r
  | _, .equ l r | _, .neq l r | _, .lOr l r => weight l + weight r + 1
  | _, .lNot e => weight e
  | _, .atom _ | _, .operand _ | _, .boolLiteral _ => 2

/-- A pass that turns `e` into `e'` changes nothing or makes the measure smaller. -/
def Shrinks {k : Kind} (μ : Expr α β k → ℕ) (e' e : Expr α β k) : Prop :=
  e' = e ∨ μ e' < μ e

variable {k k' : Kind} {μ : Expr α β k → ℕ} {l l' r r' : Expr α β k}

theorem Shrinks.le (h : Shrinks μ l' l) : μ l' ≤ μ l := by
  rcases h with h | h
  · rw [h]
  · exact h.le

theorem Shrinks.add (hl : Shrinks μ l' l) (hr : Shrinks μ r' r)
    {f : Expr α β k → Expr α β k → Expr α β k'}
    {ν : Expr α β k' → ℕ} (hν : ∀ a b, ν (f a b) = μ a + μ b + c) :
    Shrinks ν (f l' r') (f l r) := by
  have hl' := hl.le
  have hr' := hr.le
  unfold Shrinks
  rw [hν, hν]
  rcases hl with hl | hl
  · rcases hr with hr | hr
    · exact Or.inl (by rw [hl, hr])
    · exact Or.inr (by omega)
  · exact Or.inr (by omega)

theorem pending_negate (e : Expr α β .bool) : pending (negate e) ≤ pending e := by
  match e with
  | .lNot (.atom _) | .lNot (.equ _ _) => exact le_rfl
  | .lNot (.boolLiteral _) => exact Nat.zero_le _
  | .lNot (.neq _ _) | .lNot (.lNot _) | .lNot (.lAnd _ _) | .lNot (.lOr _ _) => exact Nat.le_succ _
  | .lAnd l r | .lOr l r => exact Nat.add_le_add (pending_negate l) (pending_negate r)
  | .boolLiteral _ | .neq _ _ | .atom _ | .equ _ _ => exact le_rfl

theorem shrinks_toNNF (e : Expr α β k) : Shrinks pending (toNNF e) e := by
  induction e with
  | atom a | operand b | boolLiteral b => exact Or.inl rfl
  | equ l r ihl ihr | neq l r ihl ihr | lAnd l r ihl ihr | lOr l r ihl ihr =>
    exact ihl.add ihr (c := 0) fun _ _ => rfl
  | lNot e ih =>
    have hpushed := Nat.lt_succ_of_le (pending_negate e)
    cases e with
    | atom a | equ l r => exact Or.inl rfl
    | boolLiteral b | neq l r | lNot e | lAnd l r | lOr l r => exact Or.inr hpushed

theorem two_le_weight (e : Expr α β k) : 2 ≤ weight e := by
  induction e with
  | lAnd l r ihl ihr => exact (Nat.mul_le_mul ihl ihr).trans' (by decide)
  | lNot e ih => exact ih
  | equ l r ihl ihr | neq l r ihl ihr | lOr l r ihl ihr =>
    show 2 ≤ weight l + weight r + 1
    omega
  | _ => exact le_rfl

theorem weight_distribute (l r : Expr α β .bool) :
    distribute l r = .lAnd l r ∨ weight (distribute l r) < weight l * weight r := by
  have hl := two_le_weight l
  have hr := two_le_weight r
  unfold distribute
  split
  · refine Or.inr ?_
    simp only [weight]
    nlinarith
  · refine Or.inr ?_
    simp only [weight]
    nlinarith
  · exact Or.inl rfl

theorem shrinks_doDNF (e : Expr α β k) : Shrinks weight (doDNF e) e := by
  induction e with
  | atom a | operand b | boolLiteral b => exact Or.inl rfl
  | equ l r ihl ihr | neq l r ihl ihr | lOr l r ihl ihr => exact ihl.add ihr (c := 1) fun _ _ => rfl
  | lNot e ih => exact ih.imp (congrArg Expr.lNot) id
  | lAnd l r ihl ihr =>
    have hle := Nat.mul_le_mul ihl.le ihr.le
    have hl := two_le_weight l
    have hr := two_le_weight r
    rcases weight_distribute (doDNF l) (doDNF r) with hsame | hless
    · unfold Shrinks
      rw [doDNF, hsame]
      rcases ihl with ihl | ihl
      · rcases ihr with ihr | ihr
        · exact Or.inl (by rw [ihl, ihr])
        · rw [ihl]
          exact Or.inr (Nat.mul_lt_mul_of_pos_left ihr (by omega))
      · exact Or.inr (Nat.mul_lt_mul_of_lt_of_le ihl ihr.le (by omega))
    · exact Or.inr (hless.trans_le hle)

end Termination

section Form

variable {k : Kind}

theorem isAtomic_of_negate (h : negate e = .lNot e) : IsAtomic e := by
  cases e with
  | atom a | equ l r => trivial
  | lNot e =>
    have hsize := congrArg sizeOf h
    simp only [negate, Expr.lNot.sizeOf_spec] at hsize
    omega
  | boolLiteral b | neq l r | lAnd l r | lOr l r => cases h

theorem literals_of_fixed (h : toNNF e = e) : Literals e := by
  induction e with
  | lNot e ih => exact isAtomic_of_negate h
  | lAnd l r ihl ihr | lOr l r ihl ihr =>
    injection h with hl hr
    exact ⟨ihl hl, ihr hr⟩
  | _ => trivial

theorem literals_distribute (hl : Literals l) (hr : Literals r) : Literals (distribute l r) := by
  unfold distribute
  split
  · exact ⟨⟨hr, hl.1⟩, hr, hl.2⟩
  · exact ⟨⟨hl, hr.1⟩, hl, hr.2⟩
  · exact ⟨hl, hr⟩

theorem literals_doDNF (h : Literals e) : Literals (doDNF e) := by
  induction e with
  | lNot e ih => cases e <;> trivial
  | lAnd l r ihl ihr => exact literals_distribute (ihl h.1) (ihr h.2)
  | lOr l r ihl ihr => exact ⟨ihl h.1, ihr h.2⟩
  | _ => trivial

theorem cubes_of_ne {e : Expr α β .bool} (h : ∀ c d, e = .lOr c d → False) : cubes e = [e] := by
  cases e with
  | lOr l r => exact (h l r rfl).elim
  | _ => rfl

theorem distribute_fixed (h : distribute l' r' = .lAnd l r) :
    (l' = l ∧ r' = r) ∧ cubes l = [l] ∧ cubes r = [r] := by
  unfold distribute at h
  split at h
  · cases h
  · cases h
  · rename_i hl hr
    cases h
    exact ⟨⟨rfl, rfl⟩, cubes_of_ne hl, cubes_of_ne hr⟩

theorem isCube_of_fixed (h : doDNF e = e) (hliterals : Literals e) : ∀ c ∈ cubes e, IsCube c := by
  induction e with
  | lOr l r ihl ihr =>
    injection h with hl hr
    exact forall_mem_append.mpr ⟨ihl hl hliterals.1, ihr hr hliterals.2⟩
  | lAnd l r ihl ihr =>
    obtain ⟨⟨hl, hr⟩, hcl, hcr⟩ := distribute_fixed h
    refine forall_mem_singleton.mpr ⟨ihl hl hliterals.1 l ?_, ihr hr hliterals.2 r ?_⟩
    · exact hcl ▸ mem_singleton_self l
    · exact hcr ▸ mem_singleton_self r
  | lNot e ih => exact forall_mem_singleton.mpr hliterals
  | _ => exact forall_mem_singleton.mpr trivial

end Form

section Meaning

variable [DecidableEq D] (ρ : α → Bool) (δ : β → D)

theorem eval_distribute (l r : Expr α β .bool) :
    eval ρ δ (distribute l r) = eval ρ δ (.lAnd l r) := by
  unfold distribute
  split
  · simp only [eval]
    rw [← Bool.and_or_distrib_left, Bool.and_comm]
  · simp only [eval, Bool.and_or_distrib_left]
  · rfl

theorem eval_doDNF (e : Expr α β k) : eval ρ δ (doDNF e) = eval ρ δ e := by
  induction e with
  | lAnd l r ihl ihr => rw [doDNF, eval_distribute, eval, eval, ihl, ihr]
  | equ l r ihl ihr | neq l r ihl ihr | lOr l r ihl ihr => simp only [doDNF, eval, ihl, ihr]
  | lNot e ih => simp only [doDNF, eval, ih]
  | _ => rfl

theorem any_cubes (e : Expr α β .bool) : (cubes e).any (eval ρ δ) = eval ρ δ e := by
  match e with
  | .lOr l r => rw [cubes, any_append, any_cubes l, any_cubes r, eval]
  | .atom _ | .boolLiteral _ | .equ _ _ | .neq _ _ | .lNot _ | .lAnd _ _ => exact Bool.or_false _

end Meaning

section Repetition

variable [DecidableEq α] [DecidableEq β]

theorem exists_halts_round {pass : Expr α β .bool → Expr α β .bool} {μ : Expr α β .bool → ℕ}
    (hshrinks : ∀ e, Shrinks μ (pass e) e) {I : Expr α β .bool → Prop}
    (hpass : ∀ e, I e → I (pass e))
    (h : I e) : ∃ t, Halts (round pass) e t ∧ I t ∧ pass t = t := by
  have step : ∀ s t, I s → round pass s = some t → I t ∧ μ t < μ s := by
    intro s t hs hround
    by_cases hsame : pass s = s
    · rw [round, if_pos hsame] at hround
      cases hround
    · rw [round, if_neg hsame] at hround
      cases hround
      exact ⟨hpass s hs, (hshrinks s).resolve_left hsame⟩
  obtain ⟨t, hhalts, ht, hdone⟩ := exists_halts wellFounded_lt μ step h
  refine ⟨t, hhalts, ht, ?_⟩
  by_contra hne
  rw [round, if_neg hne] at hdone
  cases hdone

/-- Both repetitions end, and the cubes of the result are conjunctions of literals whose disjunction
is the expression. -/
theorem cuber_terminates (e : Expr α β .bool) :
    ∃ t, Cuber e t ∧ (∀ c ∈ cubes t, IsCube c) ∧
      ∀ {D : Type} [DecidableEq D] (ρ : α → Bool) (δ : β → D),
        eval ρ δ t = eval ρ δ e ∧ (cubes t).any (eval ρ δ) = eval ρ δ e := by
  let Same (n : Expr α β .bool) : Prop :=
    ∀ {D : Type} [DecidableEq D] (ρ : α → Bool) (δ : β → D), eval ρ δ n = eval ρ δ e
  obtain ⟨n, hn, hnSame, hnFixed⟩ := exists_halts_round (I := Same) (e := e) shrinks_toNNF
    (fun n hn _ _ ρ δ => (eval_toNNF ρ δ n).trans (hn ρ δ)) fun _ _ => rfl
  obtain ⟨t, ht, ⟨htSame, hliterals⟩, htFixed⟩ :=
    exists_halts_round (I := fun t => Same t ∧ Literals t) (e := n) shrinks_doDNF
      (fun t ht => ⟨fun ρ δ => (eval_doDNF ρ δ t).trans (ht.1 ρ δ), literals_doDNF ht.2⟩)
      ⟨hnSame, literals_of_fixed hnFixed⟩
  refine ⟨t, ⟨n, hn, ht⟩, isCube_of_fixed htFixed hliterals, fun ρ δ => ⟨htSame ρ δ, ?_⟩⟩
  exact (any_cubes ρ δ t).trans (htSame ρ δ)

end Repetition

end DisjunctiveNormalForm
