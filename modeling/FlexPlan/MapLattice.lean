import Mathlib.Data.Fintype.Order
import Mathlib.Order.Lattice

/-!
# Maps with values in a lattice

`MapLattice` joins two maps by two one-sided merges. The second merge runs over the keys of the
right operand only, so that the keys of the left operand are lost.
-/
namespace MapLattice

variable {Context L : Type}

abbrev MapType (Context L : Type) := Context → Option L

def empty : MapType Context L := fun _ => none

section Model

variable [SemilatticeSup L]

/-- The entries of `l`, joined with those of `r` under the same key. -/
def lmerge (l r : MapType Context L) : MapType Context L := fun k =>
  match l k with
  | none => none
  | some x =>
    match r k with
    | some y => some (y ⊔ x)
    | none => some x

def plus (mapping other : MapType Context L) : MapType Context L :=
  lmerge other (lmerge mapping other)

end Model

def Above [LE L] (a b : MapType Context L) : Prop := ∀ k x, a k = some x → ∃ y, b k = some y ∧ x ≤ y

section Laws

variable [SemilatticeSup L] {a b c : MapType Context L} {k : Context}

theorem plus_of_none (hb : b k = none) : plus a b k = none := by simp only [plus, lmerge, hb]

theorem plus_of_right (ha : a k = none) (hb : b k = some y) : plus a b k = some y := by
  simp only [plus, lmerge, ha, hb]

theorem plus_of_both (ha : a k = some x) (hb : b k = some y) : plus a b k = some (x ⊔ y) := by
  simp only [plus, lmerge, ha, hb, Option.some.injEq]
  rw [sup_comm y x, sup_assoc, sup_idem]

theorem isSome_plus : (plus a b k).isSome = (b k).isSome := by
  cases hb : b k with
  | none => rw [plus_of_none hb]
  | some y =>
    cases ha : a k with
    | none => rw [plus_of_right ha hb]
    | some x =>
      rw [plus_of_both ha hb]
      rfl

theorem plus_self (a : MapType Context L) : plus a a = a := by
  funext k
  cases ha : a k with
  | none => exact plus_of_none ha
  | some x => rw [plus_of_both ha ha, sup_idem]

theorem empty_plus (a : MapType Context L) : plus empty a = a := by
  funext k
  cases ha : a k with
  | none => exact plus_of_none ha
  | some x => exact plus_of_right rfl ha

theorem plus_empty (a : MapType Context L) : plus a empty = empty := by
  funext k
  exact plus_of_none rfl

theorem above_right (a b : MapType Context L) : Above b (plus a b) := by
  intro k y hb
  cases ha : a k with
  | none => exact ⟨y, plus_of_right ha hb, le_refl y⟩
  | some x => exact ⟨x ⊔ y, plus_of_both ha hb, le_sup_right⟩

theorem above_left_iff : Above a (plus a b) ↔ ∀ k, (a k).isSome = true → (b k).isSome = true := by
  constructor
  · intro h k hk
    obtain ⟨x, ha⟩ := Option.isSome_iff_exists.mp hk
    obtain ⟨y, hy, -⟩ := h k x ha
    rw [← isSome_plus (a := a), hy]
    rfl
  · intro h k x ha
    obtain ⟨y, hb⟩ := Option.isSome_iff_exists.mp (h k (by rw [ha]; rfl))
    exact ⟨x ⊔ y, plus_of_both ha hb, le_sup_left⟩

theorem plus_comm_iff : plus a b = plus b a ↔ ∀ k, (a k).isSome = (b k).isSome := by
  constructor
  · intro h k
    rw [← isSome_plus (a := b), ← h, isSome_plus]
  · intro h
    funext k
    cases ha : a k with
    | none =>
      have hb : b k = none := by
        rw [← Option.not_isSome_iff_eq_none, ← h k, ha]
        exact Bool.false_ne_true
      rw [plus_of_none hb, plus_of_none ha]
    | some x =>
      obtain ⟨y, hb⟩ := Option.isSome_iff_exists.mp
        (show (b k).isSome = true by rw [← h k, ha]; rfl)
      rw [plus_of_both ha hb, plus_of_both hb ha, sup_comm]

theorem plus_assoc_iff : plus (plus a b) c = plus a (plus b c) ↔
    ∀ k x z, a k = some x → b k = none → c k = some z → x ≤ z := by
  constructor
  · intro h k x z ha hb hc
    have hleft : plus (plus a b) c k = some z := plus_of_right (plus_of_none hb) hc
    have hright : plus a (plus b c) k = some (x ⊔ z) := plus_of_both ha (plus_of_right hb hc)
    rw [h, hright, Option.some.injEq] at hleft
    exact sup_eq_right.mp hleft
  · intro h
    funext k
    cases hc : c k with
    | none => rw [plus_of_none hc, plus_of_none (plus_of_none hc)]
    | some z =>
      cases hb : b k with
      | none =>
        rw [plus_of_right (plus_of_none hb) hc]
        cases ha : a k with
        | none => rw [plus_of_right ha (plus_of_right hb hc)]
        | some x => rw [plus_of_both ha (plus_of_right hb hc), sup_eq_right.mpr (h k x z ha hb hc)]
      | some y =>
        cases ha : a k with
        | none => rw [plus_of_both (plus_of_right ha hb) hc, plus_of_right ha (plus_of_both hb hc)]
        | some x =>
          rw [plus_of_both (plus_of_both ha hb) hc, plus_of_both ha (plus_of_both hb hc), sup_assoc]

/-- Which laws of a join hold, and for which operands. -/
theorem plus_laws (a b c : MapType Context L) :
    plus a a = a ∧ plus empty a = a ∧ Above b (plus a b) ∧
    (plus a empty = a ↔ a = empty) ∧
    (Above a (plus a b) ↔ ∀ k, (a k).isSome = true → (b k).isSome = true) ∧
    (plus a b = plus b a ↔ ∀ k, (a k).isSome = (b k).isSome) ∧
    (plus (plus a b) c = plus a (plus b c) ↔
      ∀ k x z, a k = some x → b k = none → c k = some z → x ≤ z) := by
  refine ⟨plus_self a, empty_plus a, above_right a b, ?_, above_left_iff, plus_comm_iff,
    plus_assoc_iff⟩
  rw [plus_empty]
  exact eq_comm

end Laws

/-- Adding the empty map loses everything. -/
theorem plus_empty_loses :
    plus (fun _ : Unit => some true) empty ≠ (fun _ => some true) ∧
    plus (fun _ : Unit => some true) empty ≠ plus empty (fun _ => some true) ∧
    ¬Above (fun _ : Unit => some true) (plus (fun _ => some true) empty) := by
  have hlost : plus (fun _ : Unit => some true) empty = empty := plus_empty _
  rw [hlost]
  refine ⟨fun h => ?_, fun h => ?_, fun h => ?_⟩
  · cases congrFun h ()
  · cases congrFun h ()
  · obtain ⟨y, hy, -⟩ := h () true rfl
    cases hy

end MapLattice
