import FlexPlan.TransitionRuns
import Mathlib.Data.Fintype.Pi
import Mathlib.Data.Fintype.Card

/-!
# Learning control blocks

`generate_necessary_abstraction` enumerates the bad behaviours and blocks those that no good one
shares the controlled predicates with, controlling further predicates where that helps.
-/
namespace NecessaryAbstraction

open TransitionRuns List

inductive Expr (α : Type) where
  | pred (a : α)
  | not (e : Expr α)
  deriving DecidableEq

variable {α : Type}

abbrev Assertion (α : Type) := (α → Bool) → Bool

abbrev Model (α : Type) := α → Option Bool

def Expr.holds : Expr α → Assertion α
  | .pred a, ρ => ρ a
  | .not e, ρ => !e.holds ρ

/-- Predicates without a value in the model are left as they are. -/
def Expr.eval (model : Model α) : Expr α → Option Bool
  | .pred a => model a
  | .not e => (e.eval model).map (!·)

def Expr.strip : Expr α → Expr α
  | .not e => e
  | e => e

/-- The assertions of a solver by scopes, the innermost first. -/
abbrev Solver (α : Type) := List (List (Assertion α))

def Solver.push (S : Solver α) : Solver α := [] :: S

def Solver.add (a : Assertion α) : Solver α → Solver α
  | [] => [[a]]
  | scope :: S => (a :: scope) :: S

def Solver.pop (n : ℕ) (S : Solver α) : Solver α := S.drop n

def Solver.assume (es : List (Expr α)) (S : Solver α) : Solver α :=
  es.foldl (fun S e => S.add e.holds) S

def Solver.satisfied (S : Solver α) (ρ : α → Bool) : Bool := S.all fun scope => scope.all (· ρ)

structure State (α : Type) where
  pslv : Solver α
  pdualSlv : Solver α
  ctrld : List (Expr α)
  controlBlocks : List (Assertion α)
  nrPush : ℕ

/-- The answers of the solvers, which may depend on the whole state of the loop, and the order in
which sets are iterated. -/
structure Answers (α : Type) where
  check : State α → Option (Model α)
  dualCheck : State α → Solver α → List (Expr α) → Option (List (Expr α))
  iterate : List (Expr α) → List (Expr α)
  sat : ∀ s m, check s = some m → ∃ ρ, (∀ a b, m a = some b → ρ a = b) ∧ s.pslv.satisfied ρ = true
  unsat : ∀ s, check s = none → ∀ ρ, s.pslv.satisfied ρ = false
  dualSat : ∀ s S assumptions, dualCheck s S assumptions = none →
    ∃ ρ, S.satisfied ρ = true ∧ ∀ e ∈ assumptions, e.holds ρ = true
  core : ∀ s S assumptions uc, dualCheck s S assumptions = some uc → uc ⊆ assumptions ∧
    ∀ ρ, S.satisfied ρ = true → ∃ e ∈ uc, e.holds ρ = false
  mem_iterate : ∀ es e, e ∈ iterate es ↔ e ∈ es

def literals (model : Model α) (es : List (Expr α)) : List (Expr α) :=
  es.filterMap fun e => (e.eval model).map fun b => if b then e else .not e

/-- `!mk_and(core)`: no literals leave nothing to satisfy. -/
def block (core : List (Expr α)) : Assertion α := fun ρ => !core.all (·.holds ρ)

section Program

variable [DecidableEq α] (A : Answers α) (mayControl : List (Expr α))

/-- The case where the good solver agrees with the controlled predicates of the model. -/
def refineCtrld (s : State α) (model : Model α) (oldAssumptions : List (Expr α)) : State α :=
  let pdual := s.pdualSlv.push.assume oldAssumptions
  let fresh := (A.iterate mayControl).filter (· ∉ s.ctrld)
  let assumptions := literals model fresh
  let block' (core ctrld controlBlocks) : State α :=
    ⟨s.pslv.push.add (block core), pdual.pop 1, ctrld, controlBlocks, s.nrPush + 1⟩
  if fresh = [] then block' [] s.ctrld s.controlBlocks
  else
    match A.dualCheck s pdual assumptions with
    | none => block' assumptions s.ctrld s.controlBlocks
    | some core =>
      block' (core ++ oldAssumptions) (core.map Expr.strip ∪ s.ctrld)
        (s.controlBlocks ++ [block (core ++ oldAssumptions)])

def round (s : State α) : Option (State α) :=
  (A.check s).map fun model =>
    let assumptions := literals model (A.iterate s.ctrld)
    match A.dualCheck s s.pdualSlv assumptions with
    | some uc =>
      { s with
        pslv := s.pslv.push.add (block uc)
        controlBlocks := s.controlBlocks ++ [block uc]
        nrPush := s.nrPush + 1 }
    | none => refineCtrld A mayControl s model assumptions

def start (pslv pdualSlv : Solver α) (ctrld : List (Expr α)) : State α :=
  ⟨pslv, pdualSlv, ctrld, [], 0⟩

/-- The state on return. -/
def Returns (s t : State α) : Prop :=
  ∃ u, Halts (round A mayControl) s u ∧ t = { u with pslv := u.pslv.pop u.nrPush }

end Program

theorem holds_of_eval {model : Model α} (hρ : ∀ a b, model a = some b → ρ a = b) :
    ∀ (e : Expr α) {b}, e.eval model = some b → e.holds ρ = b
  | .pred a, _, h => hρ a _ h
  | .not e, _, h => by
    obtain ⟨c, hc, rfl⟩ := Option.map_eq_some_iff.mp h
    rw [Expr.holds, holds_of_eval hρ e hc]

theorem holds_literals {model : Model α} {es : List (Expr α)} :
    (∀ e ∈ literals model es, e.holds ρ = true) ↔
      ∀ e ∈ es, ∀ b, e.eval model = some b → e.holds ρ = b := by
  simp only [literals, mem_filterMap, Option.map_eq_some_iff]
  constructor
  · intro h e he b hb
    have := h _ ⟨e, he, b, hb, rfl⟩
    cases b <;> simpa [Expr.holds] using this
  · rintro h _ ⟨e, he, b, hb, rfl⟩
    have := h e he b hb
    cases b <;> simpa [Expr.holds] using this

theorem block_eq_false {core : List (Expr α)} :
    block core ρ = false ↔ ∀ e ∈ core, e.holds ρ = true := by
  rw [block, Bool.not_eq_false', all_eq_true]

theorem satisfied_add (S : Solver α) (a : Assertion α) (ρ : α → Bool) :
    (S.add a).satisfied ρ = (a ρ && S.satisfied ρ) := by
  cases S <;> simp [Solver.add, Solver.satisfied, Bool.and_assoc]

theorem satisfied_assume (es : List (Expr α)) (S : Solver α) (ρ : α → Bool) :
    (S.assume es).satisfied ρ = (es.all (·.holds ρ) && S.satisfied ρ) := by
  induction es generalizing S with
  | nil => rfl
  | cons e es ih =>
    rw [Solver.assume, foldl_cons]
    change ((S.add e.holds).assume es).satisfied ρ = _
    rw [ih, satisfied_add, all_cons, Bool.and_left_comm, Bool.and_assoc]

theorem pop_assume (es : List (Expr α)) (scope : List (Assertion α)) (S : Solver α) :
    (Solver.assume es (scope :: S)).pop 1 = S := by
  induction es generalizing scope with
  | nil => rfl
  | cons e es ih => exact ih _

section Rounds

variable {A : Answers α} {mayControl : List (Expr α)} {s t : State α}

/-- The valuation has the values that the model gives to the predicates not yet controlled. -/
def Shares (mayControl : List (Expr α)) (s : State α) (model : Model α) (ρ : α → Bool) : Prop :=
  ∀ e ∈ mayControl, e ∉ s.ctrld → ∀ b, e.eval model = some b → e.holds ρ = b

theorem excludes_literals {core : List (Expr α)} (h : ∀ e ∈ core, ∃ es, e ∈ literals model es)
    (ρ : α → Bool) (hρ : ∀ a b, model a = some b → ρ a = b) : block core ρ = false := by
  refine block_eq_false.mpr fun e he => ?_
  obtain ⟨es, hes⟩ := h e he
  exact holds_literals.mpr (fun e _ _ hb => holds_of_eval hρ e hb) e hes

theorem block_of_core {S : Solver α} {uc : List (Expr α)}
    (h : A.dualCheck s S assumptions = some uc)
    (hρ : S.satisfied ρ = true) : block uc ρ = true := by
  obtain ⟨e, he, hfalse⟩ := (A.core _ _ _ _ h).2 ρ hρ
  rw [← Bool.not_eq_false, block_eq_false]
  intro hall
  rw [hall e he] at hfalse
  cases hfalse

variable [DecidableEq α]

/-- The literals of the core that a round finds; without one the round gives up. -/
def core (A : Answers α) (mayControl : List (Expr α)) (s : State α) (model : Model α) :
    Option (List (Expr α)) :=
  let assumptions := literals model (A.iterate s.ctrld)
  let fresh := (A.iterate mayControl).filter (· ∉ s.ctrld)
  match A.dualCheck s s.pdualSlv assumptions with
  | some uc => some uc
  | none =>
    if fresh = [] then none
    else (A.dualCheck s (s.pdualSlv.push.assume assumptions) (literals model fresh)).map
      (· ++ assumptions)

/-- One clause for the bad solver. The block of a core is returned, and the good solver implies it;
a round that gives up excludes the valuations that share the values of the model. -/
structure Adds (A : Answers α) (mayControl : List (Expr α)) (s t : State α) (model : Model α)
    (clause : Assertion α) : Prop where
  excludes : ∀ ρ, (∀ a b, model a = some b → ρ a = b) → clause ρ = false
  pslv : t.pslv = s.pslv.push.add clause
  pdualSlv : t.pdualSlv = s.pdualSlv
  nrPush : t.nrPush = s.nrPush + 1
  found : ∀ uc, core A mayControl s model = some uc → clause = block uc ∧
    t.controlBlocks = s.controlBlocks ++ [block uc] ∧
    ∀ ρ, s.pdualSlv.satisfied ρ = true → block uc ρ = true
  gaveUp : core A mayControl s model = none → t.controlBlocks = s.controlBlocks ∧
    ∀ ρ, clause ρ = false ↔ Shares mayControl s model ρ

theorem Adds.satisfied (h : Adds A mayControl s t model clause) (ρ : α → Bool) :
    t.pslv.satisfied ρ = (clause ρ && s.pslv.satisfied ρ) := by
  rw [h.pslv, satisfied_add]
  rfl

theorem mem_fresh :
    e ∈ (A.iterate mayControl).filter (· ∉ s.ctrld) ↔ e ∈ mayControl ∧ e ∉ s.ctrld := by
  rw [mem_filter, A.mem_iterate, decide_eq_true_eq]

theorem refineCtrld_adds
    (hdual : A.dualCheck s s.pdualSlv (literals model (A.iterate s.ctrld)) = none) :
    ∃ clause, Adds A mayControl s
      (refineCtrld A mayControl s model (literals model (A.iterate s.ctrld))) model clause := by
  have hpop : (s.pdualSlv.push.assume (literals model (A.iterate s.ctrld))).pop 1 = s.pdualSlv :=
    pop_assume _ [] _
  unfold refineCtrld
  dsimp only
  split_ifs with hempty
  · have hcore : core A mayControl s model = none := by simp only [core, hdual, if_pos hempty]
    refine ⟨block [], excludes_literals (by simp), rfl, hpop, rfl, fun uc huc => ?_,
      fun _ => ⟨rfl, ?_⟩⟩
    · cases hcore.symm.trans huc
    · refine fun ρ => iff_of_true rfl fun e he hc => ?_
      have hfresh : e ∈ (A.iterate mayControl).filter (· ∉ s.ctrld) := mem_fresh.mpr ⟨he, hc⟩
      rw [hempty] at hfresh
      cases hfresh
  · split
    · next hsat =>
      have hcore : core A mayControl s model = none := by
        simp only [core, hdual, if_neg hempty, hsat, Option.map_none]
      refine ⟨block _, excludes_literals fun e he => ⟨_, he⟩, rfl, hpop, rfl, fun uc huc => ?_,
        fun _ => ⟨rfl, fun ρ => ?_⟩⟩
      · cases hcore.symm.trans huc
      · rw [block_eq_false, holds_literals]
        exact ⟨fun h e he hc => h e (mem_fresh.mpr ⟨he, hc⟩),
          fun h e he => h e (mem_fresh.mp he).1 (mem_fresh.mp he).2⟩
    · next uc hunsat =>
      have hcore : core A mayControl s model =
          some (uc ++ literals model (A.iterate s.ctrld)) := by
        simp only [core, hdual, if_neg hempty, hunsat, Option.map_some]
      refine ⟨block _, excludes_literals fun e he => ?_, rfl, hpop, rfl, fun uc' huc' => ?_,
        fun hnone => ?_⟩
      · rcases mem_append.mp he with he | he
        · exact ⟨_, (A.core _ _ _ _ hunsat).1 he⟩
        · exact ⟨_, he⟩
      · cases hcore.symm.trans huc'
        refine ⟨rfl, rfl, fun ρ hρ => ?_⟩
        by_contra hfalse
        have hall := block_eq_false.mp (Bool.eq_false_iff.mpr hfalse)
        obtain ⟨hnew, hold⟩ := forall_mem_append.mp hall
        have hgood : (s.pdualSlv.push.assume (literals model (A.iterate s.ctrld))).satisfied ρ =
            true := by
          rw [satisfied_assume, all_eq_true.mpr hold]
          exact hρ
        have hblock := block_of_core hunsat hgood
        rw [block_eq_false.mpr hnew] at hblock
        cases hblock
      · cases hcore.symm.trans hnone

theorem round_adds (h : round A mayControl s = some t) :
    ∃ model clause, A.check s = some model ∧ Adds A mayControl s t model clause := by
  obtain ⟨model, hcheck, rfl⟩ := Option.map_eq_some_iff.mp h
  dsimp only
  split
  · next uc hunsat =>
    have hcore : core A mayControl s model = some uc := by simp only [core, hunsat]
    refine ⟨model, block uc, hcheck, ?_, rfl, rfl, rfl, fun uc' huc' => ?_, fun hnone => ?_⟩
    · exact excludes_literals fun e he => ⟨_, (A.core _ _ _ _ hunsat).1 he⟩
    · cases hcore.symm.trans huc'
      exact ⟨rfl, rfl, fun ρ hρ => block_of_core hunsat hρ⟩
    · cases hcore.symm.trans hnone
  · next hdual =>
    obtain ⟨clause, h⟩ := refineCtrld_adds hdual
    exact ⟨model, clause, hcheck, h⟩

def Finds (A : Answers α) (mayControl : List (Expr α)) (s : State α) (uc : List (Expr α)) : Prop :=
  ∃ model, A.check s = some model ∧ core A mayControl s model = some uc

def GivesUp (A : Answers α) (mayControl : List (Expr α)) (s : State α) (model : Model α) : Prop :=
  A.check s = some model ∧ core A mayControl s model = none

/-- A round keeps the blocks and adds that of the core it finds. -/
theorem mem_blocks_round (h : round A mayControl s = some t) :
    e ∈ t.controlBlocks ↔ e ∈ s.controlBlocks ∨ ∃ uc, Finds A mayControl s uc ∧ e = block uc := by
  obtain ⟨model, clause, hcheck, hadds⟩ := round_adds h
  have hfinds : ∀ uc, Finds A mayControl s uc ↔ core A mayControl s model = some uc := by
    intro uc
    constructor
    · rintro ⟨model', hcheck', huc⟩
      cases hcheck.symm.trans hcheck'
      exact huc
    · exact fun huc => ⟨model, hcheck, huc⟩
  simp only [hfinds]
  cases hcore : core A mayControl s model with
  | none =>
    rw [(hadds.gaveUp hcore).1]
    simp
  | some uc =>
    rw [(hadds.found uc hcore).2.1, mem_append, mem_singleton]
    simp

theorem mem_blocks_visits (h : Visits (round A mayControl) s t) : e ∈ t.controlBlocks →
    e ∈ s.controlBlocks ∨ ∃ u uc, Visits (round A mayControl) s u ∧ Finds A mayControl u uc ∧
      e = block uc := by
  induction h with
  | refl => exact Or.inl
  | @tail u v hu hround ih =>
    intro he
    rcases (mem_blocks_round hround).mp he with he | ⟨uc, hfinds, rfl⟩
    · exact ih he
    · exact Or.inr ⟨u, uc, hu, hfinds, rfl⟩

theorem blocks_of_visits (h : Visits (round A mayControl) s t) (he : e ∈ s.controlBlocks) :
    e ∈ t.controlBlocks := by
  induction h with
  | refl => exact he
  | tail _ hround ih => exact (mem_blocks_round hround).mpr (Or.inl ih)

theorem block_of_finds (h : Finds A mayControl s uc) (hhalts : Halts (round A mayControl) s t) :
    block uc ∈ t.controlBlocks := by
  obtain ⟨model, hcheck, -⟩ := id h
  have hround : ∃ u, round A mayControl s = some u := ⟨_, by rw [round, hcheck, Option.map_some]⟩
  obtain ⟨u, hround⟩ := hround
  have hu : Halts (round A mayControl) u t := Visits.halts (.single hround) hhalts
  exact blocks_of_visits hu.visits ((mem_blocks_round hround).mpr (Or.inr ⟨uc, h, rfl⟩))

/-- A round gives up on a valuation that is still there. -/
def Abandoned (A : Answers α) (mayControl : List (Expr α)) (s₀ : State α) (ρ : α → Bool) : Prop :=
  ∃ s model, Visits (round A mayControl) s₀ s ∧ GivesUp A mayControl s model ∧
    s.pslv.satisfied ρ = true ∧ Shares mayControl s model ρ

/-- What holds in every round: the assertions under the clauses are those of the start, blocks
follow from the good ones and are asserted to the bad solver, and a valuation that the bad solver
has lost is blocked or abandoned. -/
structure Invariant (A : Answers α) (mayControl : List (Expr α)) (s₀ s : State α) : Prop where
  visits : Visits (round A mayControl) s₀ s
  pslv : s.pslv.pop s.nrPush = s₀.pslv
  pdualSlv : s.pdualSlv = s₀.pdualSlv
  implied : ∀ e ∈ s.controlBlocks, ∀ ρ, s₀.pdualSlv.satisfied ρ = true → e ρ = true
  asserted : ∀ ρ, s.pslv.satisfied ρ = true → s₀.pslv.satisfied ρ = true ∧
    ∀ e ∈ s.controlBlocks, e ρ = true
  accounted : ∀ ρ, s.pslv.satisfied ρ = false → s₀.pslv.satisfied ρ = true →
    (∃ e ∈ s.controlBlocks, e ρ = false) ∨ Abandoned A mayControl s₀ ρ

theorem Adds.invariant (h : Adds A mayControl s t model clause) (hs : Invariant A mayControl s₀ s)
    (hcheck : A.check s = some model) (hround : round A mayControl s = some t) :
    Invariant A mayControl s₀ t := by
  have hpop : t.pslv.pop t.nrPush = s₀.pslv := by
    rw [h.pslv, h.nrPush]
    exact hs.pslv
  refine ⟨hs.visits.tail hround, hpop, h.pdualSlv.trans hs.pdualSlv, ?_, fun ρ hρ => ?_,
    fun ρ hfalse hρ => ?_⟩
  · cases hcore : core A mayControl s model with
    | none =>
      rw [(h.gaveUp hcore).1]
      exact hs.implied
    | some uc =>
      obtain ⟨-, hblocks, hgood⟩ := h.found uc hcore
      rw [hblocks]
      exact forall_mem_append.mpr ⟨hs.implied, forall_mem_singleton.mpr (hs.pdualSlv ▸ hgood)⟩
  · rw [h.satisfied, Bool.and_eq_true] at hρ
    obtain ⟨hbad, hblocks⟩ := hs.asserted ρ hρ.2
    refine ⟨hbad, ?_⟩
    cases hcore : core A mayControl s model with
    | none =>
      rw [(h.gaveUp hcore).1]
      exact hblocks
    | some uc =>
      obtain ⟨hclause, hadded, -⟩ := h.found uc hcore
      rw [hadded]
      exact forall_mem_append.mpr ⟨hblocks, forall_mem_singleton.mpr (hclause ▸ hρ.1)⟩
  · cases hsat : s.pslv.satisfied ρ with
    | false =>
      refine (hs.accounted ρ hsat hρ).imp_left fun ⟨e, he, heρ⟩ => ⟨e, ?_, heρ⟩
      exact (mem_blocks_round hround).mpr (Or.inl he)
    | true =>
      rw [h.satisfied, hsat, Bool.and_true] at hfalse
      cases hcore : core A mayControl s model with
      | none =>
        have hshares := ((h.gaveUp hcore).2 ρ).mp hfalse
        exact Or.inr ⟨s, model, hs.visits, ⟨hcheck, hcore⟩, hsat, hshares⟩
      | some uc =>
        obtain ⟨hclause, hadded, -⟩ := h.found uc hcore
        exact Or.inl ⟨block uc, hadded ▸ mem_concat_self, hclause ▸ hfalse⟩

theorem invariant_start (bad good : Solver α) (ctrld : List (Expr α)) :
    Invariant A mayControl (start bad good ctrld) (start bad good ctrld) :=
  ⟨.refl, rfl, rfl, forall_mem_nil _, fun _ hρ => ⟨hρ, forall_mem_nil _⟩,
    fun _ hfalse hρ => absurd hρ (Bool.eq_false_iff.mp hfalse)⟩

theorem invariant_of_visits (hs : Visits (round A mayControl) (start bad good ctrld) s) :
    Invariant A mayControl (start bad good ctrld) s := by
  induction hs with
  | refl => exact invariant_start bad good ctrld
  | tail _ hround ih =>
    obtain ⟨model, clause, hcheck, hadds⟩ := round_adds hround
    exact hadds.invariant ih hcheck hround

variable [Fintype α]

def remaining (s : State α) : ℕ := (Finset.univ.filter fun ρ => s.pslv.satisfied ρ = true).card

theorem Adds.remaining_lt (h : Adds A mayControl s t model clause)
    (hcheck : A.check s = some model) :
    remaining t < remaining s := by
  obtain ⟨ρ, hρ, hs⟩ := A.sat s model hcheck
  refine Finset.card_lt_card ⟨fun ρ' hρ' => ?_, fun hsub => ?_⟩
  · rw [Finset.mem_filter, h.satisfied, Bool.and_eq_true] at hρ'
    exact Finset.mem_filter.mpr ⟨hρ'.1, hρ'.2.2⟩
  · have := (Finset.mem_filter.mp (hsub (Finset.mem_filter.mpr ⟨Finset.mem_univ ρ, hs⟩))).2
    rw [h.satisfied, h.excludes ρ hρ] at this
    cases this

theorem exists_run (A : Answers α) (mayControl : List (Expr α)) (bad good : Solver α)
    (ctrld : List (Expr α)) :
    ∃ t, Halts (round A mayControl) (start bad good ctrld) t ∧
      Invariant A mayControl (start bad good ctrld) t ∧ A.check t = none := by
  have hstart : Invariant A mayControl (start bad good ctrld) (start bad good ctrld) :=
    invariant_start bad good ctrld
  obtain ⟨t, hhalts, ht, hend⟩ := exists_halts wellFounded_lt remaining (fun s t hs h => by
    obtain ⟨model, clause, hcheck, hadds⟩ := round_adds h
    exact ⟨hadds.invariant hs hcheck h, hadds.remaining_lt hcheck⟩) hstart
  exact ⟨t, hhalts, ht, Option.map_eq_none_iff.mp hend⟩

/-- The loop ends, the blocks follow from the good assertions and both solvers are as before. -/
theorem returns_implied (A : Answers α) (mayControl : List (Expr α)) (bad good : Solver α)
    (ctrld : List (Expr α)) :
    ∃ t, Returns A mayControl (start bad good ctrld) t ∧ t.pslv = bad ∧ t.pdualSlv = good ∧
      ∀ e ∈ t.controlBlocks, ∀ ρ, good.satisfied ρ = true → e ρ = true := by
  obtain ⟨t, hhalts, ht, -⟩ := exists_run A mayControl bad good ctrld
  exact ⟨_, ⟨t, hhalts, rfl⟩, ht.pslv, ht.pdualSlv, ht.implied⟩

/-- A good valuation has the same values. -/
def Consistent (good : Solver α) (es : List (Expr α)) (ρ : α → Bool) : Prop :=
  ∃ ρ', good.satisfied ρ' = true ∧ ∀ e ∈ es, e.holds ρ' = e.holds ρ

def Covered (good : Solver α) (es : List (Expr α)) (controlBlocks : List (Assertion α))
    (ρ : α → Bool) : Prop :=
  (∃ e ∈ controlBlocks, e ρ = false) ∨ Consistent good es ρ

end Rounds

/-- One predicate, whose value true is tried first. -/
def answers : Answers Unit where
  check s :=
    if s.pslv.satisfied fun _ => true then some fun _ => some true
    else if s.pslv.satisfied fun _ => false then some fun _ => some false
    else none
  dualCheck _ S assumptions :=
    if ∃ b : Bool, S.satisfied (fun _ => b) = true ∧
        ∀ e ∈ assumptions, e.holds (fun _ => b) = true then none
    else some assumptions
  iterate es := es
  sat s m h := by
    split_ifs at h with htrue hfalse
    all_goals cases h
    · exact ⟨_, fun _ _ h => Option.some.inj h, htrue⟩
    · exact ⟨_, fun _ _ h => Option.some.inj h, hfalse⟩
  unsat s h ρ := by
    split_ifs at h with htrue hfalse
    rw [show ρ = fun _ => ρ () from rfl]
    cases ρ () <;> simp_all
  dualSat s S assumptions h := by
    split_ifs at h with hb
    obtain ⟨b, hb⟩ := hb
    exact ⟨_, hb⟩
  core s S assumptions uc h := by
    split_ifs at h with hb
    cases h
    refine ⟨Subset.refl _, fun ρ hρ => ?_⟩
    by_contra hall
    refine hb ⟨ρ (), hρ, fun e he => ?_⟩
    by_contra hne
    exact hall ⟨e, he, Bool.eq_false_iff.mpr hne⟩
  mem_iterate _ _ := Iff.rfl

end NecessaryAbstraction
