import Mathlib.Logic.Relation
import Mathlib.Order.WellFounded

/-!
# Finite runs of labelled transition systems

A run records its events, so that conditions on the scheduling can be stated about them. A loop
repeats its body until it is left; it halts where a measure descends.
-/
namespace TransitionRuns

variable {σ ε : Type*}

inductive Run (Step : σ → ε → σ → Prop) : σ → List ε → σ → Prop where
  | nil (s) : Run Step s [] s
  | cons {s e t es u} : Step s e t → Run Step t es u → Run Step s (e :: es) u

variable {Step : σ → ε → σ → Prop} {s t : σ} {es : List ε}

theorem Run.preserves {I : σ → Prop} (step : ∀ s e t, I s → Step s e t → I t)
    (h : Run Step s es t) (hs : I s) : I t := by
  induction h with
  | nil => exact hs
  | cons h _ ih => exact ih (step _ _ _ hs h)

theorem Run.mono {Step' : σ → ε → σ → Prop} (hm : ∀ s e t, Step s e t → Step' s e t)
    (h : Run Step s es t) : Run Step' s es t := by
  induction h with
  | nil => exact .nil _
  | cons h _ ih => exact .cons (hm _ _ _ h) ih

/-- The steps of a system that meet a condition on the state before the step. -/
def Restrict (Step : σ → ε → σ → Prop) (C : σ → ε → Prop) (s : σ) (e : ε) (t : σ) : Prop :=
  Step s e t ∧ C s e

theorem Run.of_restrict (h : Run (Restrict Step C) s es t) : Run Step s es t :=
  h.mono fun _ _ _ hs => hs.1

section Loops

/-- The body returns no state when the loop is left; the first argument bounds the rounds. -/
def loop (body : σ → Option σ) : ℕ → σ → Option σ
  | 0, _ => none
  | k + 1, s =>
    match body s with
    | none => some s
    | some t => loop body k t

def Halts (body : σ → Option σ) (s t : σ) : Prop := ∃ k, loop body k s = some t

variable {body : σ → Option σ} {u : σ}

theorem Halts.done (h : body s = none) : Halts body s s := ⟨1, by simp [loop, h]⟩

theorem Halts.next (h : body s = some t) (ht : Halts body t u) : Halts body s u := by
  obtain ⟨k, hk⟩ := ht
  exact ⟨k + 1, by simpa [loop, h] using hk⟩

theorem Halts.unique (h : Halts body s t) (h' : Halts body s t') : t = t' := by
  obtain ⟨k, hk⟩ := h
  obtain ⟨k', hk'⟩ := h'
  induction k generalizing s k' with
  | zero => cases hk
  | succ k ih =>
    cases k' with
    | zero => cases hk'
    | succ k' =>
      rw [loop] at hk hk'
      cases hbody : body s with
      | none =>
        rw [hbody] at hk hk'
        exact Option.some.inj (hk.symm.trans hk')
      | some u =>
        rw [hbody] at hk hk'
        exact ih hk k' hk'

theorem exists_halts {α : Type*} {r : α → α → Prop} (hwf : WellFounded r) (μ : σ → α)
    {I : σ → Prop} (step : ∀ s t, I s → body s = some t → I t ∧ r (μ t) (μ s)) (hs : I s) :
    ∃ t, Halts body s t ∧ I t ∧ body t = none := by
  induction h : μ s using hwf.induction generalizing s with
  | _ a ih =>
    cases hbody : body s with
    | none => exact ⟨s, .done hbody, hs, hbody⟩
    | some t =>
      obtain ⟨ht, hless⟩ := step s t hs hbody
      obtain ⟨u, hhalts, hu, hend⟩ := ih (μ t) (h ▸ hless) ht rfl
      exact ⟨u, .next hbody hhalts, hu, hend⟩

def Visits (body : σ → Option σ) : σ → σ → Prop := Relation.ReflTransGen fun s t => body s = some t

/-- What the rounds from the states of a loop keep holds at its end. -/
theorem Halts.preserves {I : σ → Prop} (h : Halts body s t) (hs : I s)
    (step : ∀ u v, Visits body s u → I u → body u = some v → I v) : I t ∧ body t = none := by
  obtain ⟨k, hk⟩ := h
  induction k generalizing s with
  | zero => cases hk
  | succ k ih =>
    rw [loop] at hk
    cases hbody : body s with
    | none =>
      rw [hbody] at hk
      cases hk
      exact ⟨hs, hbody⟩
    | some u =>
      rw [hbody] at hk
      exact ih (step s u .refl hs hbody) (fun v w hv => step v w (.head hbody hv)) hk

theorem Halts.visits (h : Halts body s t) : Visits body s t :=
  (h.preserves (I := Visits body s) .refl fun _ _ hu _ hbody => hu.tail hbody).1

/-- The end of a loop is that of the rest of the loop, from whichever state it is looked at. -/
theorem Visits.halts (hu : Visits body s u) (h : Halts body s t) : Halts body u t := by
  induction hu with
  | refl => exact h
  | tail _ hbody ih =>
    obtain ⟨k, hk⟩ := ih
    cases k with
    | zero => cases hk
    | succ k =>
      rw [loop, hbody] at hk
      exact ⟨k, hk⟩

def rounds (body : σ → Option σ) : ℕ → σ → Option σ
  | 0, s => some s
  | k + 1, s => (body s).bind (rounds body k)

theorem visits_of_rounds (h : rounds body k s = some t) : Visits body s t := by
  induction k generalizing s with
  | zero =>
    cases h
    exact .refl
  | succ k ih =>
    obtain ⟨u, hbody, hrest⟩ := Option.bind_eq_some_iff.mp h
    exact .head hbody (ih hrest)

/-- Tests the states of a loop up to its end. -/
def holdsAlong (body : σ → Option σ) (test : σ → Bool) : ℕ → σ → Bool
  | 0, _ => false
  | k + 1, s => test s && (body s).elim true (holdsAlong body test k)

theorem test_of_visits {test : σ → Bool} (h : holdsAlong body test k s = true)
    (hu : Visits body s u) : test u = true := by
  induction hu using Relation.ReflTransGen.head_induction_on generalizing k with
  | refl =>
    cases k with
    | zero => cases h
    | succ k => exact (Bool.and_eq_true_iff.mp h).1
  | head hbody _ ih =>
    cases k with
    | zero => cases h
    | succ k =>
      have hrest := (Bool.and_eq_true_iff.mp h).2
      rw [hbody] at hrest
      exact ih hrest

theorem loop_of_measure {μ : σ → ℕ} {I : σ → Prop}
    (step : ∀ s t, I s → body s = some t → I t ∧ μ t < μ s)
    (hs : I s) (hk : μ s < k) : ∃ t, loop body k s = some t ∧ I t ∧ body t = none := by
  induction k generalizing s with
  | zero => omega
  | succ k ih =>
    cases hbody : body s with
    | none => exact ⟨s, by simp [loop, hbody], hs, hbody⟩
    | some t =>
      obtain ⟨ht, hless⟩ := step s t hs hbody
      obtain ⟨u, hu, hI, hend⟩ := ih ht (by omega)
      exact ⟨u, by simpa [loop, hbody] using hu, hI, hend⟩

end Loops

end TransitionRuns
