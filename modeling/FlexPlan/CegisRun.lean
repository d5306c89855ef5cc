import FlexPlan.TransitionRuns
import Mathlib.Data.Set.Card
import Mathlib.Data.Fintype.Option

/-!
# Quantifier elimination by counterexamples

`cegis::run` adds an instance of the formula for each counterexample until the instances imply
it. Constants that the model leaves out get a default value; for a constant of an enumeration
there is none, and asking for it throws.
-/
namespace CegisRun

open TransitionRuns List

section Formulas

inductive Kind where
  | bool
  | bitVector (width : ℕ)
  | enumeration (last : ℕ)

abbrev Value : Kind → Type
  | .bool => Bool
  | .bitVector width => Fin (2 ^ width)
  | .enumeration last => Fin (last + 1)

/-- The value that is substituted for a constant without an interpretation. -/
def defaultValue : (k : Kind) → Option (Value k)
  | .bool => some true
  | .bitVector width => some ⟨0, Nat.two_pow_pos width⟩
  | .enumeration _ => none

instance (k : Kind) : Finite (Value k) := by
  cases k <;> infer_instance

instance (k : Kind) : Nonempty (Value k) := by
  cases k with
  | bool => exact ⟨true⟩
  | bitVector width => exact ⟨⟨0, Nat.two_pow_pos width⟩⟩
  | enumeration last => exact ⟨0⟩

variable {χ : Type}

abbrev Valuation (sort : χ → Kind) : Type := (c : χ) → Value (sort c)

/-- The interpretations of a model; constants may be left out. -/
abbrev Model (sort : χ → Kind) : Type := (c : χ) → Option (Value (sort c))

/-- A formula with the constants that occur in it. -/
structure Formula (sort : χ → Kind) where
  occurs : χ → Bool
  eval : Valuation sort → Bool
  eval_congr : ∀ ρ ρ', (∀ c, occurs c = true → ρ c = ρ' c) → eval ρ = eval ρ'

variable {sort : χ → Kind}

def Formula.not (e : Formula sort) : Formula sort where
  occurs := e.occurs
  eval ρ := !e.eval ρ
  eval_congr ρ ρ' h := by rw [e.eval_congr ρ ρ' h]

def boolVal (b : Bool) : Formula sort := ⟨fun _ => false, fun _ => b, fun _ _ _ => rfl⟩

def mkAnd (es : List (Formula sort)) : Formula sort where
  occurs c := es.any (·.occurs c)
  eval ρ := es.all (·.eval ρ)
  eval_congr ρ ρ' h := by
    rw [Bool.eq_iff_iff, all_eq_true, all_eq_true]
    refine forall₂_congr fun e he => ?_
    rw [e.eval_congr ρ ρ' fun c hc => h c (any_eq_true.mpr ⟨e, he, hc⟩)]

/-- The valuation with the given constants replaced. -/
def override (w : Model sort) (ρ : Valuation sort) : Valuation sort := fun c => (w c).getD (ρ c)

def Formula.substitute (e : Formula sort) (w : Model sort) : Formula sort where
  occurs c := e.occurs c && (w c).isNone
  eval ρ := e.eval (override w ρ)
  eval_congr ρ ρ' h := by
    refine e.eval_congr _ _ fun c hc => ?_
    cases hw : w c with
    | none => simp only [override, hw, Option.getD_none, h c (by rw [hc, hw]; rfl)]
    | some v => simp only [override, hw, Option.getD_some]

/-- Answers are right: all completions of a model satisfy the assertions. -/
structure Solver (sort : χ → Kind) where
  check : List (Formula sort) → Option (Model sort)
  simplify : Formula sort → Formula sort
  sat : ∀ es m, check es = some m → ∀ ρ, (∀ c v, m c = some v → ρ c = v) → ∀ e ∈ es, e.eval ρ = true
  unsat : ∀ es, check es = none → ∀ ρ, ¬∀ e ∈ es, e.eval ρ = true
  simplify_eval : ∀ e ρ, (simplify e).eval ρ = e.eval ρ
  simplify_occurs : ∀ e c, (simplify e).occurs c = true → e.occurs c = true

end Formulas

section Program

variable {χ : Type} {sort : χ → Kind} (S : Solver sort) (preCall : χ → Bool) (sigma : Formula sort)

/-- `rep` and `with`: what the constants outside of `pre_call` are replaced by. -/
def replacement (cex : Model sort) : Model sort := fun c =>
  if preCall c then none
  else (cex c).or (if sigma.occurs c then defaultValue (sort c) else none)

/-- Every constant of the formula that the model leaves out has a default. -/
def Valued (cex : Model sort) : Prop :=
  ∀ c, sigma.occurs c = true → preCall c = false →
    ((cex c).or (defaultValue (sort c))).isSome = true

instance [Fintype χ] (cex : Model sort) : Decidable (Valued preCall sigma cex) :=
  inferInstanceAs (Decidable (∀ _, _))

inductive State (sort : χ → Kind) where
  | running (assertions : List (Formula sort))
  | returned (e : Formula sort)
  | threw

variable [Fintype χ]

def next (es : List (Formula sort)) : State sort :=
  match S.check es, S.check (es ++ [sigma.not]) with
  | none, _ => .returned (boolVal false)
  | some _, none => .returned (mkAnd es)
  | some _, some cex =>
    if Valued preCall sigma cex then
      .running (es ++ [S.simplify (sigma.substitute (replacement preCall sigma cex))])
    else .threw

def round : State sort → Option (State sort)
  | .running es => some (next S preCall sigma es)
  | _ => none

/-- The formula for all values of the constants outside of `pre_call`. -/
def ForAllOthers (ρ : Valuation sort) : Prop :=
  ∀ ρ', (∀ c, preCall c = true → ρ' c = ρ c) → sigma.eval ρ' = true

/-- Only constants of `pre_call` occur, and the formula is the quantified one. -/
structure Eliminates (e : Formula sort) : Prop where
  occurs : ∀ c, e.occurs c = true → preCall c = true
  eval : ∀ ρ, e.eval ρ = true ↔ ForAllOthers preCall sigma ρ

end Program

section Rounds

variable {χ : Type} {sort : χ → Kind} {S : Solver sort} {preCall : χ → Bool} {sigma : Formula sort}
variable {es : List (Formula sort)} {cex : Model sort}

/-- Over the constants of `pre_call`, and implied by the quantified formula. -/
structure Instance (preCall : χ → Bool) (sigma e : Formula sort) : Prop where
  occurs : ∀ c, e.occurs c = true → preCall c = true
  implied : ∀ ρ, ForAllOthers preCall sigma ρ → e.eval ρ = true

theorem instance_replacement (h : Valued preCall sigma cex) :
    Instance preCall sigma (S.simplify (sigma.substitute (replacement preCall sigma cex))) where
  occurs c hc := by
    obtain ⟨hsigma, hnone⟩ := Bool.and_eq_true_iff.mp (S.simplify_occurs _ c hc)
    by_contra hpre
    have hsome := h c hsigma (Bool.eq_false_iff.mpr hpre)
    rw [replacement, if_neg hpre, if_pos hsigma] at hnone
    rw [Option.isNone_iff_eq_none.mp hnone] at hsome
    cases hsome
  implied ρ hall := by
    rw [S.simplify_eval]
    refine hall _ fun c hc => ?_
    rw [override, replacement, if_pos hc, Option.getD_none]

/-- The counterexample is a valuation that the substitution does not change. -/
theorem exists_counterexample (preCall : χ → Bool) (h : S.check (es ++ [sigma.not]) = some cex) :
    ∃ ρ, (∀ e ∈ es, e.eval ρ = true) ∧
      (sigma.substitute (replacement preCall sigma cex)).eval ρ = false := by
  obtain ⟨ρ, hcex, hsame⟩ : ∃ ρ : Valuation sort, (∀ c v, cex c = some v → ρ c = v) ∧
      override (replacement preCall sigma cex) ρ = ρ := by
    refine ⟨fun c => ((cex c).or (defaultValue (sort c))).getD (Classical.arbitrary _),
      fun c v hv => ?_, ?_⟩
    · simp only [hv, Option.some_or, Option.getD_some]
    · funext c
      unfold override replacement
      cases hcex : cex c <;> cases hdefault : defaultValue (sort c) <;> split_ifs <;>
        simp [hcex, hdefault]
  obtain ⟨hes, hnot⟩ := forall_mem_append.mp (S.sat _ _ h ρ hcex)
  refine ⟨ρ, hes, ?_⟩
  have hfalse : (!sigma.eval ρ) = true := hnot sigma.not (mem_singleton_self _)
  show sigma.eval (override _ ρ) = false
  rwa [hsame, ← Bool.not_eq_true']

section

variable (hes : ∀ e ∈ es, Instance preCall sigma e)

include hes

theorem occurs_mkAnd (c : χ) (hc : (mkAnd es).occurs c = true) : preCall c = true := by
  obtain ⟨e, he, hc⟩ := any_eq_true.mp hc
  exact (hes e he).occurs c hc

theorem eliminates_mkAnd (h : S.check (es ++ [sigma.not]) = none) :
    Eliminates preCall sigma (mkAnd es) where
  occurs := occurs_mkAnd hes
  eval ρ := by
    constructor
    · intro hand ρ' hagree
      have hand' : (mkAnd es).eval ρ' = true := by
        rw [← hand]
        exact (mkAnd es).eval_congr _ _ fun c hc => hagree c (occurs_mkAnd hes c hc)
      by_contra hfalse
      refine S.unsat _ h ρ'
        (forall_mem_append.mpr ⟨all_eq_true.mp hand', forall_mem_singleton.mpr ?_⟩)
      show (!sigma.eval ρ') = true
      rwa [Bool.not_eq_true', ← Bool.not_eq_true]
    · exact fun hall => all_eq_true.mpr fun e he => (hes e he).implied ρ hall

theorem eliminates_false (h : S.check es = none) : Eliminates preCall sigma (boolVal false) where
  occurs c hc := by cases hc
  eval ρ := iff_of_false Bool.false_ne_true fun hall => S.unsat es h ρ fun e he =>
    (hes e he).implied ρ hall

end

/-- The replacements whose instances do not follow from the assertions. -/
def openReplacements (sigma : Formula sort) (es : List (Formula sort)) : Set (Model sort) :=
  { w | ∃ ρ, (∀ e ∈ es, e.eval ρ = true) ∧ (sigma.substitute w).eval ρ = false }

variable [Fintype χ]

noncomputable def remaining (sigma : Formula sort) : State sort → ℕ
  | .running es => (openReplacements sigma es).ncard + 1
  | _ => 0

theorem ncard_openReplacements (h : S.check (es ++ [sigma.not]) = some cex) :
    (openReplacements sigma
      (es ++ [S.simplify (sigma.substitute (replacement preCall sigma cex))])).ncard <
      (openReplacements sigma es).ncard := by
  refine Set.ncard_lt_ncard ⟨?_, fun hsub => ?_⟩ (Set.toFinite _)
  · rintro w ⟨ρ, hes, hw⟩
    exact ⟨ρ, (forall_mem_append.mp hes).1, hw⟩
  · obtain ⟨ρ', hes, hfalse⟩ := hsub (exists_counterexample preCall h)
    have htrue := (forall_mem_append.mp hes).2 _ (mem_singleton_self _)
    rw [S.simplify_eval, hfalse] at htrue
    cases htrue

/-- What holds in the states of a run that does not throw. -/
def Fine (preCall : χ → Bool) (sigma : Formula sort) : State sort → Prop
  | .running es => ∀ e ∈ es, Instance preCall sigma e
  | .returned e => Eliminates preCall sigma e
  | .threw => False

theorem next_fine (hes : Fine preCall sigma (.running es))
    (hvalued : ∀ cex, S.check (es ++ [sigma.not]) = some cex → Valued preCall sigma cex) :
    Fine preCall sigma (next S preCall sigma es) ∧
      remaining sigma (next S preCall sigma es) < remaining sigma (.running es) := by
  unfold next
  split
  · next hfirst => exact ⟨eliminates_false hes hfirst, Nat.succ_pos _⟩
  · next hsecond => exact ⟨eliminates_mkAnd hes hsecond, Nat.succ_pos _⟩
  · next cex _ hsecond =>
    have hcex := hvalued cex hsecond
    rw [if_pos hcex]
    refine ⟨forall_mem_append.mpr ⟨hes, forall_mem_singleton.mpr (instance_replacement hcex)⟩, ?_⟩
    exact Nat.succ_lt_succ (ncard_openReplacements hsecond)

/-- The run returns the quantified formula if and only if no counterexample leaves out a constant of
an enumeration that occurs in the formula. -/
theorem run_eliminates_iff (S : Solver sort) (preCall : χ → Bool) (sigma : Formula sort) :
    (∃ e, Halts (round S preCall sigma) (.running []) (.returned e) ∧ Eliminates preCall sigma e) ↔
      ∀ es cex, Visits (round S preCall sigma) (.running []) (.running es) →
        S.check (es ++ [sigma.not]) = some cex → Valued preCall sigma cex := by
  constructor
  · rintro ⟨e, hhalts, -⟩ es cex hvisits hcex
    by_contra hmissing
    have hthrows : round S preCall sigma (.running es) = some .threw := by
      obtain ⟨ρ, hes, -⟩ := exists_counterexample preCall hcex
      cases hfirst : S.check es with
      | none => exact absurd hes (S.unsat es hfirst ρ)
      | some m => simp only [round, next, hfirst, hcex, if_neg hmissing]
    have hthrew : Halts (round S preCall sigma) (.running []) .threw :=
      Relation.ReflTransGen.head_induction_on hvisits (.next hthrows (.done rfl)) fun hstep _ ih =>
        .next hstep ih
    cases hhalts.unique hthrew
  · intro hvalued
    have step : ∀ s t, Visits (round S preCall sigma) (.running []) s ∧ Fine preCall sigma s →
        round S preCall sigma s = some t →
        (Visits (round S preCall sigma) (.running []) t ∧ Fine preCall sigma t) ∧
          remaining sigma t < remaining sigma s := by
      rintro s t ⟨hvisits, hs⟩ hround
      cases s with
      | running es =>
        obtain ⟨ht, hless⟩ := next_fine hs fun cex => hvalued es cex hvisits
        cases hround
        exact ⟨⟨hvisits.tail rfl, ht⟩, hless⟩
      | returned e => cases hround
      | threw => cases hround
    obtain ⟨t, hhalts, ⟨-, ht⟩, hdone⟩ := exists_halts wellFounded_lt (remaining sigma) step
      ⟨.refl, forall_mem_nil _⟩
    cases t with
    | returned e => exact ⟨e, hhalts, ht⟩
    | threw => cases ht
    | running es => cases hdone

end Rounds

namespace LeftOut

open Classical in
/-- A solver that leaves out all constants when every valuation satisfies the assertions. -/
noncomputable def solver {χ : Type} (sort : χ → Kind) : Solver sort where
  check es :=
    if ∀ ρ, ∀ e ∈ es, e.eval ρ = true then some fun _ => none
    else if h : ∃ ρ, ∀ e ∈ es, e.eval ρ = true then some fun c => some (h.choose c) else none
  simplify e := e
  sat es m hm ρ hρ := by
    split_ifs at hm with hall hsat
    · exact hall ρ
    · cases hm
      rw [funext fun c => hρ c _ rfl]
      exact hsat.choose_spec
  unsat es hnone ρ hes := by
    split_ifs at hnone with hall hsat
    exact hsat ⟨ρ, hes⟩
  simplify_eval _ _ := rfl
  simplify_occurs _ _ h := h

abbrev sort : Unit → Kind := fun _ => .enumeration 1

/-- `e != e` for a constant of an enumeration. -/
def unequal : Formula sort := ⟨fun _ => true, fun _ => false, fun _ _ _ => rfl⟩

noncomputable def step : State sort → Option (State sort) :=
  round (solver sort) (fun _ => false) unequal

end LeftOut

open LeftOut

theorem enumeration_throws :
    Halts step (.running []) .threw ∧ ¬∃ e, Halts step (.running []) (.returned e) := by
  have hthrew : Halts step (.running []) .threw := by
    refine .next ?_ (.done rfl)
    have hfirst : (solver sort).check [] = some fun _ => none := if_pos fun _ => forall_mem_nil _
    have hall : ∀ ρ, ∀ e ∈ [] ++ [unequal.not], e.eval ρ = true :=
      fun _ => forall_mem_singleton.mpr rfl
    have hsecond : (solver sort).check ([] ++ [unequal.not]) = some fun _ => none := if_pos hall
    have hmissing : ¬Valued (fun _ => false) unequal fun _ => none := fun h => by cases h () rfl rfl
    simp only [step, round, next, hfirst, hsecond, if_neg hmissing]
  exact ⟨hthrew, fun ⟨e, he⟩ => by cases he.unique hthrew⟩

end CegisRun
