import Mathlib.Data.List.Basic
import Mathlib.Logic.Function.Basic

/-!
# Straight-line code over a store

Assumptions and assignments whose expressions are known by the variables they read and their value
in a store, and the equations that an execution leaves behind.
-/
namespace BlockPrograms

open List Function

variable {χ υ ρ : Type}

/-- An expression, with the variables on which its value depends. -/
structure Term (χ υ ρ : Type) where
  reads : List χ
  eval : (χ → υ) → ρ
  congr : ∀ σ τ : χ → υ, (∀ x ∈ reads, σ x = τ x) → eval σ = eval τ

inductive Op (χ υ : Type) where
  | assume (c : Term χ υ Bool)
  | set (x : χ) (e : Term χ υ υ)

namespace Op

def reads : Op χ υ → List χ
  | .assume c => c.reads
  | .set _ e => e.reads

def writes : Op χ υ → List χ
  | .assume _ => []
  | .set x _ => [x]

variable [DecidableEq χ]

def exec : Op χ υ → (χ → υ) → Option (χ → υ)
  | .assume c, σ => if c.eval σ then some σ else none
  | .set x e, σ => some (update σ x (e.eval σ))

def run : List (Op χ υ) → (χ → υ) → Option (χ → υ)
  | [], σ => some σ
  | op :: ops, σ => (op.exec σ).bind (run ops)

/-- What the operation says about a store in which nothing is overwritten. -/
def Constraint (σ : χ → υ) : Op χ υ → Prop
  | .assume c => c.eval σ = true
  | .set x e => σ x = e.eval σ

/-- No variable is written after it was read or written. -/
structure SingleAssignment (ops : List (Op χ υ)) : Prop where
  later : ops.Pairwise fun s t => ∀ x ∈ t.writes, x ∉ s.reads ∧ x ∉ s.writes
  own : ∀ s ∈ ops, ∀ x ∈ s.writes, x ∉ s.reads

instance (ops : List (Op χ υ)) : Decidable (SingleAssignment ops) :=
  decidable_of_iff (ops.Pairwise (fun s t => ∀ x ∈ t.writes, x ∉ s.reads ∧ x ∉ s.writes) ∧
      ∀ s ∈ ops, ∀ x ∈ s.writes, x ∉ s.reads)
    ⟨fun h => ⟨h.1, h.2⟩, fun h => ⟨h.later, h.own⟩⟩

variable {op : Op χ υ}

theorem exec_of_constraint (h : op.Constraint σ) : op.exec σ = some σ := by
  cases op with
  | assume c => exact if_pos h
  | set x e =>
    have h : σ x = e.eval σ := h
    rw [exec, ← h, update_eq_self]

variable {ops : List (Op χ υ)}

theorem run_of_constraints (h : ∀ op ∈ ops, op.Constraint σ) : run ops σ = some σ := by
  induction ops with
  | nil => rfl
  | cons op ops ih =>
    obtain ⟨hop, hops⟩ := forall_mem_cons.mp h
    rw [run, exec_of_constraint hop, Option.bind_some]
    exact ih hops

variable {σ τ : χ → υ}

theorem exec_frame (h : op.exec σ = some τ) (hx : x ∉ op.writes) : τ x = σ x := by
  cases op with
  | assume c =>
    by_cases hc : c.eval σ = true
    · rw [exec, if_pos hc] at h
      rw [Option.some.inj h]
    · rw [exec, if_neg hc] at h
      cases h
  | set y e =>
    have hne : x ≠ y := ne_of_not_mem_cons hx
    rw [← Option.some.inj h]
    exact update_of_ne hne _ _

theorem run_frame (h : run ops σ = some τ) (hx : ∀ op ∈ ops, x ∉ op.writes) : τ x = σ x := by
  induction ops generalizing σ with
  | nil => rw [Option.some.inj h]
  | cons op ops ih =>
    obtain ⟨hop, hops⟩ := forall_mem_cons.mp hx
    obtain ⟨σ', hexec, hrun⟩ := Option.bind_eq_some_iff.mp h
    rw [ih hrun hops, exec_frame hexec hop]

theorem constraint_of_exec (h : op.exec σ = some σ') (hown : ∀ x ∈ op.writes, x ∉ op.reads)
    (hkept : ∀ x ∈ op.reads ++ op.writes, τ x = σ' x) : op.Constraint τ := by
  cases op with
  | assume c =>
    by_cases hc : c.eval σ = true
    · rw [exec, if_pos hc] at h
      obtain rfl := Option.some.inj h
      rw [Constraint, ← hc]
      exact c.congr _ _ fun x hx => hkept x (mem_append_left _ hx)
    · rw [exec, if_neg hc] at h
      cases h
  | set x e =>
    obtain rfl := Option.some.inj h
    have hx : x ∉ e.reads := hown x mem_cons_self
    have hreads : e.eval τ = e.eval σ := by
      refine e.congr _ _ fun y hy => ?_
      have hne : y ≠ x := by
        rintro rfl
        exact hx hy
      rw [hkept y (mem_append_left _ hy)]
      exact update_of_ne hne _ _
    rw [Constraint, hreads, hkept x (mem_append_right _ mem_cons_self)]
    exact update_self _ _ _

theorem constraints_of_run (hsingle : SingleAssignment ops) (h : run ops σ = some τ) :
    ∀ op ∈ ops, op.Constraint τ := by
  induction ops generalizing σ with
  | nil => simp
  | cons op ops ih =>
    obtain ⟨hfirst, hlater⟩ := pairwise_cons.mp hsingle.later
    obtain ⟨hown, howns⟩ := forall_mem_cons.mp hsingle.own
    obtain ⟨σ', hexec, hrun⟩ := Option.bind_eq_some_iff.mp h
    refine forall_mem_cons.mpr ⟨constraint_of_exec hexec hown fun x hx => ?_,
      ih ⟨hlater, howns⟩ hrun⟩
    refine run_frame hrun fun t ht hwrite => ?_
    obtain ⟨hreads, hwrites⟩ := hfirst t ht x hwrite
    rcases mem_append.mp hx with hx | hx
    · exact hreads hx
    · exact hwrites hx

end Op

end BlockPrograms
