import FlexPlan.FreePruning

/-!
# Which feasible plans the resource conditions accept

`synthesizer_spec` keeps the smallest slack of a plan in `DIFF` and asks for `DIFF > 0`. In
diagnosis mode the slack of the shortcut over a state has to be at most `DIFF`. That comparison is
unsigned, and the slack of a shortcut that does not fit is a large number there.
-/
namespace ResourceCompleteness

open PythonText GuardedCommands UpdateProgram ResourcePlan ResourceFeasibility PlanExchange List
open FreePruning (Components freeTests accounted_curr complete_test complete_test_iff)

structure Question (cfg : Config) : Prop extends Components cfg where
  whole : cfg.incremental = false
  bound : cfg.constraint + totalOld cfg.resources + totalNew cfg.resources < 2 ^ 32

variable {cfg : Config}

/-- The number of changes is counted from zero, as metadata starts. -/
def Fresh (x : Execution cfg) : Prop := ∀ k ∈ cfg.copies, x.start (.curr k) = 0

structure Feasible (x : Execution cfg) : Prop where
  grows : ∀ i ≤ cfg.total, Grows cfg.resources (x.state i) (x.state (i + 1))
  fits : ∀ i ≤ cfg.total, Fits cfg.resources cfg.constraint (x.state i) (x.state (i + 1))

def Progressing (x : Execution cfg) : Prop :=
  ∀ i ≤ cfg.total, Larger cfg.resources (x.state i) (x.state (i + 1)) ∨
    Complete cfg.resources (x.state (i + 1))

instance (x : Execution cfg) : Decidable (Progressing x) :=
  inferInstanceAs (Decidable (∀ i ≤ cfg.total, _))

def slackAt (x : Execution cfg) (i j : ℕ) : ℤ :=
  slack cfg.resources cfg.constraint (x.state i) (x.state j)

/-- The smallest slack of the plan, up to the value that `DIFF` starts with. -/
def leastSlack (x : Execution cfg) : ℤ :=
  (List.range (cfg.total + 1)).foldl (fun m i => min m (slackAt x i (i + 1))) 1000000

/-- The tests that diagnosis mode adds for the shortcuts over one state. -/
def redundancyTests (cfg : Config) : List Test :=
  (List.range cfg.total).map fun i => cfg.redundancy (copyAt cfg i) (copyAt cfg (i + 2))

section Words

variable {b b' : Str → Bool}

theorem slack_eq_sums {entries : List (Str × ℕ × ℕ)} {room : ℕ} (h : Grows entries b b') :
    slack entries room b b' = room + oldSum entries b - newSum entries b' := by
  have hnew := newSum_grows h
  rw [slack, freeRoom_eq]
  omega

theorem slack_eval {oracle : Memory} {base : BitVec 32} (hp : Accounted cfg oracle base p σ)
    (hk : Accounted cfg oracle base k σ)
    (hgrows : Grows cfg.counted (bits oracle p) (bits oracle k)) : (Config.slack p k).eval σ =
      BitVec.ofInt 32 (slack cfg.counted cfg.constraint (bits oracle p) (bits oracle k)) := by
  have hnat : ∀ n : ℕ, BitVec.ofInt 32 (n : ℤ) = BitVec.ofNat 32 n := BitVec.ofInt_natCast 32
  rw [slack_eq_sums hgrows]
  show σ (.real p) - σ (.resource k) + σ (.resource p) = _
  rw [hp.usage, hk.usage, hp.room, Int.sub_eq_add_neg, BitVec.ofInt_add, BitVec.ofInt_add,
    BitVec.ofInt_neg, hnat, hnat, hnat]
  ring

theorem toNat_ofInt_nonneg (h : 0 ≤ z) (hlt : z < 2 ^ 32) :
    ((BitVec.ofInt 32 z).toNat : ℤ) = z := by
  rw [BitVec.toNat_ofInt]
  omega

theorem toNat_ofInt_neg (h : z < 0) (hlt : -(2 ^ 32) ≤ z) :
    ((BitVec.ofInt 32 z).toNat : ℤ) = 2 ^ 32 + z := by
  rw [BitVec.toNat_ofInt]
  omega

end Words

section Minimum

variable (holds : SpecAtom → Bool) (oracle : Memory)

theorem minimize_diff (p k : ℕ) (σ : Memory) :
    ((Config.minimize p k).exec holds oracle σ (.diff 1)).toNat =
      min (σ (.diff 1)).toNat ((Config.slack p k).eval σ).toNat := by
  have hlt : (Cond.lt (Config.slack p k) (diff 1) : Test).eval holds σ = true ↔
      ((Config.slack p k).eval σ).toNat < (σ (.diff 1)).toNat := by
    show decide ((Config.slack p k).eval σ < σ (.diff 1)) = true ↔ _
    rw [decide_eq_true_iff, BitVec.lt_def]
  rw [Config.minimize, Cmd.exec]
  split_ifs with htest
  · rw [hlt] at htest
    rw [Cmd.exec, Function.update_self]
    omega
  · rw [hlt] at htest
    omega

theorem slack_eval_frame (h : ∀ v, v ≠ .diff 1 → σ v = τ v) :
    (Config.slack p k).eval σ = (Config.slack p k).eval τ := by
  refine (Config.slack p k).eval_congr fun v hv => h v ?_
  simp only [Config.slack, Expr.Reads] at hv
  rcases hv with (rfl | rfl) | rfl <;> simp

theorem minimize_frame (p k : ℕ) (σ : Memory) (v : Var) (hv : v ≠ .diff 1) :
    (Config.minimize p k).exec holds oracle σ v = σ v :=
  Cmd.exec_frame holds oracle _ _ hv

theorem minimize_block {α : Type} (l : List α) (p k : α → ℕ) (σ : Memory) :
    ((Cmd.block (l.map fun a => Config.minimize (p a) (k a))).exec holds oracle σ (.diff 1)).toNat =
      l.foldl (fun m a => min m ((Config.slack (p a) (k a)).eval σ).toNat) (σ (.diff 1)).toNat := by
  induction l generalizing σ with
  | nil => rfl
  | cons a l ih =>
    have hframe : ∀ c, (Config.slack (p c) (k c)).eval
        ((Config.minimize (p a) (k a)).exec holds oracle σ) = (Config.slack (p c) (k c)).eval σ :=
      fun c => slack_eval_frame (minimize_frame holds oracle (p a) (k a) σ)
    rw [map_cons, foldl_cons]
    refine (ih _).trans ?_
    simp only [minimize_diff, hframe]

theorem foldl_min_cast {α : Type} {l : List α} {f : α → ℕ} {g : α → ℤ}
    (h : ∀ a ∈ l, (f a : ℤ) = g a) (m : ℕ) :
    ((l.foldl (fun m a => min m (f a)) m : ℕ) : ℤ) = l.foldl (fun m a => min m (g a)) (m : ℤ) := by
  induction l generalizing m with
  | nil => rfl
  | cons a l ih =>
    obtain ⟨ha, hl⟩ := forall_mem_cons.mp h
    rw [foldl_cons, foldl_cons, ih hl, ← ha]
    congr 1
    omega

theorem lt_foldl_min {α : Type} {l : List α} {g : α → ℤ} {z m : ℤ} :
    z < l.foldl (fun m a => min m (g a)) m ↔ z < m ∧ ∀ a ∈ l, z < g a := by
  induction l generalizing m with
  | nil => simp
  | cons a l ih =>
    rw [foldl_cons, ih, lt_min_iff, forall_mem_cons, and_assoc]

end Minimum

section Emitted

theorem copyAt_inner (hone : 1 ≤ i) (hi : i ≤ cfg.total) : copyAt cfg i = i := by
  rw [copyAt, if_neg (by omega), if_pos hi]

theorem copyAt_last : copyAt cfg (cfg.total + 1) = cfg.total + 2 := by
  rw [copyAt, if_neg (by omega), if_neg (by omega)]

theorem steps_eq {α : Type} (f : ℕ → ℕ → α) : (List.range' 1 cfg.total).flatMap (fun index =>
      if index = 1 then [f (cfg.total + 1) index] else [f (index - 1) index]) =
      (List.range cfg.total).map fun i => f (copyAt cfg i) (copyAt cfg (i + 1)) := by
  rw [range'_eq_map_range, flatMap_map, map_eq_flatMap]
  refine flatMap_congr fun i hi => ?_
  have hi := mem_range.mp hi
  have hnext : copyAt cfg (i + 1) = 1 + i := by
    rw [copyAt_inner (by omega) (by omega), Nat.add_comm]
  rw [hnext]
  by_cases hfirst : i = 0
  · subst hfirst
    rfl
  · have hcopy : 1 + i - 1 = copyAt cfg i := by
      rw [copyAt_inner (by omega) hi.le]
      omega
    rw [if_neg (by omega), hcopy]

theorem transitions_eq (htotal : 1 ≤ cfg.total) {α : Type} (f : ℕ → ℕ → α) :
    (List.range' 1 cfg.total).flatMap (fun index =>
      if index = 1 then [f (cfg.total + 1) index] else [f (index - 1) index]) ++
      [f cfg.total (cfg.total + 2)] =
      (List.range (cfg.total + 1)).map fun i => f (copyAt cfg i) (copyAt cfg (i + 1)) := by
  rw [steps_eq, range_succ, map_append, map_singleton, copyAt_inner htotal le_rfl, copyAt_last]

variable (hinc : cfg.incremental = false) (htotal : 1 ≤ cfg.total)

include hinc htotal in
theorem diffCode_eq (hmode : cfg.mode = .synthesis) :
    cfg.diffCode = .set (.diff 1) (.lit 1000000) :: (List.range (cfg.total + 1)).map fun i =>
        Config.minimize (copyAt cfg i) (copyAt cfg (i + 1)) := by
  rw [Config.diffCode, if_pos hmode, hinc, ← transitions_eq htotal]
  rfl

include hinc htotal in
theorem currCond2_eq : cfg.currCond2 = (List.range (cfg.total + 1)).map fun i =>
      cfg.progress (copyAt cfg i) (copyAt cfg (i + 1)) := by
  rw [Config.currCond2, hinc, ← transitions_eq htotal]
  rfl

include hinc htotal in
theorem currCond1_eq (hmode : cfg.mode = .synthesis) (hmarco : cfg.marco = .off) :
    cfg.currCond1 = (List.range (cfg.total + 1)).map (fun i =>
      Config.fits (copyAt cfg i) (copyAt cfg (i + 1))) ++
      [.le (.lit 0) (real (cfg.total + 2)), .lt (.lit 0) (diff 1)] := by
  have hsteps : (List.range' 1 cfg.total).flatMap cfg.stepTests =
      (List.range' 1 cfg.total).flatMap (fun index =>
        if index = 1 then [Config.fits (cfg.total + 1) index]
        else [Config.fits (index - 1) index]) := by
    refine flatMap_congr fun index _ => ?_
    rw [Config.stepTests, hinc, hmarco]
    simp
  rw [Config.currCond1, if_pos hmode, hsteps, hinc, hmarco, ← transitions_eq htotal]
  simp

theorem stepTests_diagnosis (hmarco : cfg.marco = .diagnosis) {index : ℕ} :
    t ∈ cfg.stepTests index ↔ t ∈ { cfg with marco := .off : Config }.stepTests index ∨
      (index = 2 ∧ t = cfg.redundancy (cfg.total + 1) index) ∨
      (2 < index ∧ t = cfg.redundancy (index - 2) index) ∨ (index = 1 ∧ t ∈ freeTests cfg) := by
  have hfree : cfg.freeDel.map (Config.isNew 1) ++ [cfg.freeAddTest] = freeTests cfg := rfl
  simp only [Config.stepTests, hmarco, mem_append]
  rcases Nat.lt_or_ge index 2 with hlt | hge
  · by_cases hone : index = 1
    · subst hone
      simp [← hfree]
    · have hzero : index = 0 := by omega
      subst hzero
      simp
  · rcases Nat.eq_or_lt_of_le hge with rfl | hlt
    · simp [or_comm]
    · have hne : index ≠ 2 ∧ index ≠ 1 := by omega
      simp [hne.1, hne.2, hlt, or_comm]

include hinc in
theorem mem_currCond1_diagnosis (hmarco : cfg.marco = .diagnosis) (htwo : 2 ≤ cfg.total) :
    t ∈ cfg.currCond1 ↔ t ∈ { cfg with marco := .off : Config }.currCond1 ∨
      t ∈ redundancyTests cfg ∨ t ∈ freeTests cfg := by
  have hstep : ∀ {i}, i < cfg.total → 1 + i ∈ List.range' 1 cfg.total := fun {i} hi =>
    mem_range'.mpr ⟨i, hi, by omega⟩
  have hlast : copyAt cfg (cfg.total - 1) = cfg.total - 1 ∧
      copyAt cfg (cfg.total - 1 + 2) = cfg.total + 2 := by
    rw [copyAt_inner (by omega) (by omega), show cfg.total - 1 + 2 = cfg.total + 1 by omega]
    exact ⟨rfl, copyAt_last⟩
  simp only [Config.currCond1, hinc, hmarco, mem_append, mem_flatMap,
    stepTests_diagnosis hmarco, redundancyTests, mem_map]
  constructor
  · rintro ((⟨index, hindex, ht⟩ | ht) | ht)
    · obtain ⟨j, hj, rfl⟩ := mem_range'.mp hindex
      rcases ht with ht | ⟨htwo, rfl⟩ | ⟨hlt, rfl⟩ | ⟨_, ht⟩
      · exact Or.inl (Or.inl (Or.inl ⟨_, hindex, ht⟩))
      · refine Or.inr (Or.inl ⟨0, mem_range.mpr (by omega), ?_⟩)
        rw [copyAt_inner (i := 0 + 2) (by omega) (by omega), htwo]
        rfl
      · refine Or.inr (Or.inl ⟨j - 1, mem_range.mpr (by omega), ?_⟩)
        have hp : copyAt cfg (j - 1) = 1 + 1 * j - 2 := by
          rw [copyAt_inner (by omega) (by omega)]
          omega
        have hk : copyAt cfg (j - 1 + 2) = 1 + 1 * j := by
          rw [copyAt_inner (by omega) (by omega)]
          omega
        rw [hp, hk]
      · exact Or.inr (Or.inr ht)
    · rw [if_neg Bool.false_ne_true, if_pos trivial, mem_append, mem_singleton] at ht
      rcases ht with ht | rfl
      · exact Or.inl (Or.inl (Or.inr (mem_append_left _ ht)))
      · exact Or.inr (Or.inl ⟨cfg.total - 1, mem_range.mpr (by omega), by rw [hlast.1, hlast.2]⟩)
    · exact Or.inl (Or.inr ht)
  · rintro (((⟨index, hindex, ht⟩ | ht) | ht) | ⟨i, hi, rfl⟩ | ht)
    · exact Or.inl (Or.inl ⟨index, hindex, Or.inl ht⟩)
    · rw [if_neg Bool.false_ne_true, if_neg (by decide), append_nil] at ht
      exact Or.inl (Or.inr (mem_append_left _ ht))
    · exact Or.inr ht
    · have hi := mem_range.mp hi
      by_cases hend : i + 1 = cfg.total
      · obtain rfl : i = cfg.total - 1 := by omega
        rw [hlast.1, hlast.2]
        exact Or.inl (Or.inr (mem_append_right _ (mem_singleton_self _)))
      · refine Or.inl (Or.inl ⟨1 + (i + 1), hstep (by omega), Or.inr ?_⟩)
        have hk : copyAt cfg (i + 2) = 1 + (i + 1) := by
          rw [copyAt_inner (by omega) (by omega)]
          omega
        rw [hk]
        by_cases hfirst : i = 0
        · subst hfirst
          exact Or.inl ⟨rfl, rfl⟩
        · have hp : copyAt cfg i = 1 + (i + 1) - 2 := by
            rw [copyAt_inner (by omega) (by omega)]
            omega
          rw [hp]
          exact Or.inr (Or.inl ⟨by omega, rfl⟩)
    · exact Or.inl (Or.inl ⟨1 + 0, hstep (by omega), Or.inr (Or.inr (Or.inr ⟨rfl, ht⟩))⟩)

end Emitted

section Plans

variable {x : Execution cfg}

theorem Question.accounted (h : Question cfg) (x : Execution cfg) (i : ℕ) :
    Accounted cfg x.oracle x.base (copyAt cfg i) x.accounted :=
  accounting_accounts x.holds x.oracle h.synthesis h.keys x.same_usage (copyAt_mem cfg i h.nonempty)

theorem Question.slack_word (h : Question cfg) (x : Execution cfg)
    (hgrows : Grows cfg.resources (x.state i) (x.state j)) :
    (Config.slack (copyAt cfg i) (copyAt cfg j)).eval x.accounted =
      BitVec.ofInt 32 (slackAt x i j) := by
  have hcounted := h.counted_eq
  rw [← hcounted] at hgrows
  have hword := slack_eval (h.accounted x i) (h.accounted x j) hgrows
  rwa [hcounted] at hword

theorem Question.slack_range (h : Question cfg) (x : Execution cfg)
    (hgrows : Grows cfg.resources (x.state i) (x.state j)) :
    cfg.constraint - (totalNew cfg.resources : ℤ) ≤ slackAt x i j ∧ slackAt x i j < 2 ^ 32 := by
  have hbound := h.bound
  have hold := oldSum_le cfg.resources (x.state i)
  have hnew := newSum_le cfg.resources (x.state j)
  rw [slackAt, slack_eq_sums hgrows]
  omega

theorem Question.slack_toNat (h : Question cfg) (x : Execution cfg)
    (hgrows : Grows cfg.resources (x.state i) (x.state j)) (hslack : 0 ≤ slackAt x i j) :
    (((Config.slack (copyAt cfg i) (copyAt cfg j)).eval x.accounted).toNat : ℤ) =
      slackAt x i j := by
  rw [h.slack_word x hgrows]
  exact toNat_ofInt_nonneg hslack (h.slack_range x hgrows).2

variable {i : ℕ}

theorem Feasible.slack_nonneg (hx : Feasible x) (hi : i ≤ cfg.total) :
    0 ≤ slackAt x i (i + 1) := fits_iff_slack.mp (hx.fits i hi)

theorem Feasible.diff_eq (h : Question cfg) (hx : Feasible x) :
    ((x.accounted (.diff 1)).toNat : ℤ) = leastSlack x := by
  have hcode : cfg.accounting = .block (cfg.copies.map cfg.copyCode ++ cfg.diffCode) := rfl
  have hslack : ∀ i j, (Config.slack i j).eval x.accounted =
      (Config.slack i j).eval
        ((Cmd.block (cfg.copies.map cfg.copyCode)).exec x.holds x.oracle x.start) := by
    intro i j
    refine slack_eval_frame fun v hv => ?_
    rw [Execution.accounted, hcode, Cmd.exec_block_append]
    exact Cmd.exec_frame _ _ _ _ fun hw => hv (Config.diffCode_writes hw)
  have hslacks : ∀ i ∈ List.range (cfg.total + 1),
      (((Config.slack (copyAt cfg i) (copyAt cfg (i + 1))).eval x.accounted).toNat : ℤ) =
        slackAt x i (i + 1) := by
    intro i hi
    have hi : i ≤ cfg.total := Nat.lt_succ_iff.mp (mem_range.mp hi)
    exact h.slack_toNat x (hx.grows i hi) (hx.slack_nonneg hi)
  rw [leastSlack, show (1000000 : ℤ) = ((1000000 : ℕ) : ℤ) from rfl, ← foldl_min_cast hslacks]
  simp only [hslack]
  rw [Execution.accounted, hcode, Cmd.exec_block_append,
    diffCode_eq h.whole h.nonempty h.synthesis, Cmd.block, Cmd.exec, minimize_block]
  generalize (Cmd.block (cfg.copies.map cfg.copyCode)).exec x.holds x.oracle x.start = σ
  have hstart : ((Cmd.set (.diff 1) (.lit 1000000) : Code).exec x.holds x.oracle σ
      (.diff 1)).toNat = 1000000 := by
    rw [Cmd.exec, Function.update_self, Expr.eval, BitVec.toNat_ofNat]
    rfl
  have hframe : ∀ i j, (Config.slack i j).eval ((Cmd.set (.diff 1) (.lit 1000000) : Code).exec
      x.holds x.oracle σ) = (Config.slack i j).eval σ := fun i j =>
    slack_eval_frame fun v hv => Cmd.exec_frame _ _ _ _ hv
  simp only [hstart, hframe]

theorem Feasible.grows_two (hx : Feasible x) (hi : i < cfg.total) :
    Grows cfg.resources (x.state i) (x.state (i + 2)) := fun r hr hbit =>
  hx.grows (i + 1) hi r hr (hx.grows i hi.le r hr hbit)

theorem Feasible.room_nonneg (hx : Feasible x) (hi : i ≤ cfg.total) :
    0 ≤ freeRoom cfg.resources cfg.constraint (x.state i) := by
  have hfits := hx.fits i hi
  rw [Fits] at hfits
  omega

theorem Feasible.fits_test (h : Question cfg) (hx : Feasible x) (hi : i ≤ cfg.total) :
    (Config.fits (copyAt cfg i) (copyAt cfg (i + 1))).eval x.holds x.accounted = true := by
  have hgrows := hx.grows i hi
  have hfits := hx.fits i hi
  have hroom := hx.room_nonneg hi
  have hbound := h.bound
  rw [← h.counted_eq] at hgrows hfits hroom hbound
  exact (fits_test_iff (h.accounted x i) (h.accounted x (i + 1)) hbound hgrows hroom).mpr hfits

theorem progress_test (h : Question cfg) (hfew : cfg.resources.length < 256) (hfresh : Fresh x)
    (hx : Feasible x) (hprogress : Progressing x) (hi : i ≤ cfg.total) :
    (cfg.progress (copyAt cfg i) (copyAt cfg (i + 1))).eval x.holds x.accounted = true := by
  refine Bool.or_eq_true_iff.mpr ?_
  rcases hprogress i hi with hlarger | hcomplete
  · left
    have hless := changes_larger (hx.grows i hi) hlarger
    have hle : changes cfg.resources (x.state (i + 1)) ≤ cfg.resources.length := countP_le_length
    refine decide_eq_true ?_
    show BitVec.ofNat 8 1 ≤ x.accounted (.curr _) - x.accounted (.curr _)
    rw [accounted_curr h.toComponents x hfresh, accounted_curr h.toComponents x hfresh,
      BitVec.le_def,
      BitVec.toNat_sub, BitVec.toNat_ofNat, BitVec.toNat_ofNat, BitVec.toNat_ofNat]
    omega
  · exact Or.inr (complete_test h.toComponents x hfresh hcomplete)

/-- As far as resources and progress go, the plan is accepted. -/
def Accepted (x : Execution cfg) : Prop :=
  (Cond.all cfg.currCond1).eval x.holds x.accounted = true ∧
    (Cond.all cfg.currCond2).eval x.holds x.accounted = true

theorem diff_test_iff (h : Question cfg) (hx : Feasible x) :
    (Cond.lt (.lit 0) (diff 1) : Test).eval x.holds x.accounted = true ↔
      ∀ i ≤ cfg.total, slackAt x i (i + 1) ≠ 0 := by
  have hpositive : (Cond.lt (.lit 0) (diff 1) : Test).eval x.holds x.accounted = true ↔
      0 < leastSlack x := by
    show decide (BitVec.ofNat 32 0 < x.accounted (.diff 1)) = true ↔ _
    rw [decide_eq_true_iff, BitVec.lt_def, ← hx.diff_eq h]
    simp
  rw [hpositive, leastSlack, lt_foldl_min]
  constructor
  · rintro ⟨_, hall⟩ i hi
    exact (hall i (mem_range.mpr (by omega))).ne'
  · intro hall
    refine ⟨by decide, fun i hi => ?_⟩
    have hi : i ≤ cfg.total := Nat.lt_succ_iff.mp (mem_range.mp hi)
    exact lt_of_le_of_ne (hx.slack_nonneg hi) (hall i hi).symm

/-- A feasible plan is accepted if and only if no transition uses up all the room. -/
theorem feasible_accepted_iff (h : Question cfg) (hmarco : cfg.marco = .off)
    (hfew : cfg.resources.length < 256)
    (x : Execution cfg) (hfresh : Fresh x) (hx : Feasible x) (hprogress : Progressing x) :
    Accepted x ↔ ∀ i ≤ cfg.total, slackAt x i (i + 1) ≠ 0 := by
  rw [← diff_test_iff h hx, Accepted, currCond1_eq h.whole h.nonempty h.synthesis hmarco,
    currCond2_eq h.whole h.nonempty, Cond.eval_all, Cond.eval_all]
  constructor
  · rintro ⟨hall, _⟩
    exact hall _ (mem_append_right _ (by simp))
  · intro hdiff
    have hrange : ∀ {i}, i ∈ List.range (cfg.total + 1) → i ≤ cfg.total := fun hi =>
      Nat.lt_succ_iff.mp (mem_range.mp hi)
    refine ⟨forall_mem_append.mpr ⟨?_, ?_⟩, ?_⟩
    · exact forall_mem_map.mpr fun i hi => hx.fits_test h (hrange hi)
    · refine forall_mem_cons.mpr ⟨?_, forall_mem_singleton.mpr hdiff⟩
      exact decide_eq_true (BitVec.le_def.mpr (Nat.zero_le _))
    · exact forall_mem_map.mpr fun i hi => progress_test h hfew hfresh hx hprogress (hrange hi)

end Plans

namespace EqualComponents

/-- Components of equal size that are replaced one after the other. -/
def config (names : List Str) (marco : Marco) (room : ℕ) : Config where
  resources := names.map fun name => (name, 3, 3)
  versions := names
  versionList := names
  freeAdd := []
  freeDel := []
  constraint := room
  total := names.length - 1
  incremental := false
  marco := marco
  mode := .synthesis

def oracle (names : List Str) : Memory
  | .version k key =>
    if k = names.length + 1 ∨ (k < names.length ∧ names.idxOf key < k) then 1 else 0
  | _ => 0

theorem question {names : List Str} (marco : Marco) {room : ℕ} (hnames : names.Nodup)
    (hlength : 2 ≤ names.length) (hbound : room + 6 * names.length < 2 ^ 32) :
    Question (config names marco room) := by
  have hkeys : (config names marco room).resources.map Prod.fst = names := by
    simp [config, Function.comp_def]
  have hsum : ∀ f : Str × ℕ × ℕ → ℕ, (∀ name, f (name, 3, 3) = 3) →
      ((names.map fun name => (name, 3, 3)).map f).sum = 3 * names.length := by
    intro f hf
    simp [Function.comp_def, hf, Nat.mul_comm]
  refine ⟨⟨rfl, ?_, ?_, ?_, ?_⟩, rfl, ?_⟩
  · show 1 ≤ names.length - 1
    omega
  · rw [hkeys]
    exact hnames
  · rw [hkeys]
    exact .refl _
  · refine forall_mem_map.mpr fun name hname => any_eq_true.mpr ⟨name, hname, ?_⟩
    exact isIn_iff.mpr infix_rfl
  · have hold := hsum (fun e => e.2.1) fun _ => rfl
    have hnew := hsum (fun e => e.2.2) fun _ => rfl
    show room + ((names.map fun name => (name, 3, 3)).map fun e => e.2.1).sum +
      ((names.map fun name => (name, 3, 3)).map fun e => e.2.2).sum < 2 ^ 32
    omega

def execution (names : List Str) (marco : Marco) (room : ℕ) (hlength : 2 ≤ names.length) :
    Execution (config names marco room) where
  holds _ := false
  oracle := oracle names
  start _ := 0
  base := 0
  same_usage _ _ := rfl
  old_copy := by
    intro key _
    have htotal : (config names marco room).total + 1 = names.length := by
      show names.length - 1 + 1 = names.length
      omega
    rw [htotal]
    exact if_neg (by omega)
  new_copy := by
    intro key _
    have htotal : (config names marco room).total + 2 = names.length + 1 := by
      show names.length - 1 + 2 = names.length + 1
      omega
    rw [htotal]
    exact if_pos (Or.inl rfl)

def two : List Str := ["a".toList, "b".toList]

def three : List Str := ["a".toList, "b".toList, "c".toList]

end EqualComponents

open EqualComponents

theorem roomy_plan_accepted :
    Feasible (execution two .off 4 (by decide)) ∧ Accepted (execution two .off 4 (by decide)) := by
  have hfeasible : Feasible (execution two .off 4 (by decide)) := ⟨by decide, by decide⟩
  exact ⟨hfeasible, (feasible_accepted_iff (question .off (by decide) (by decide) (by decide)) rfl
    (by decide) _ (fun _ _ => rfl) hfeasible (by decide)).mpr (by decide)⟩

/-- With room for exactly one component the plan fits, and it is rejected. -/
theorem tight_plan_rejected :
    Feasible (execution two .off 3 (by decide)) ∧ Progressing (execution two .off 3 (by decide)) ∧
      ¬Accepted (execution two .off 3 (by decide)) :=
  ⟨⟨by decide, by decide⟩, by decide, fun h => absurd h.1 (by decide +kernel)⟩

section Diagnosis

variable {x : Execution cfg}

/-- The state between `i` and `i + 2` can be left out with more slack than the plan has. -/
def Redundant (x : Execution cfg) (least : ℤ) (i : ℕ) : Prop :=
  Fits cfg.resources cfg.constraint (x.state i) (x.state (i + 2)) ∧ least < slackAt x i (i + 2)

/-- The shortcut does not fit, and the number of changes behind it is not that of a complete
state. -/
def Indispensable (x : Execution cfg) (i : ℕ) : Prop :=
  changes cfg.resources (x.state (i + 2)) % 2 ^ 8 ≠ cfg.resources.length % 2 ^ 8 ∧
    ¬Fits cfg.resources cfg.constraint (x.state i) (x.state (i + 2))

theorem leastSlack_le_room (h : Question cfg) (hx : Feasible x) :
    leastSlack x ≤ cfg.constraint := by
  by_contra hlt
  have hfirst := (lt_foldl_min.mp (not_le.mp hlt)).2 0 (mem_range.mpr (Nat.succ_pos _))
  have hgrows := hx.grows 0 (Nat.zero_le _)
  have hold : oldSum cfg.resources (x.state 0) = 0 := by
    refine sum_eq_zero fun n hn => ?_
    obtain ⟨r, hr, rfl⟩ := mem_map.mp hn
    have hbit := x.old_copy r.1 (h.changed.subset (mem_map_of_mem hr))
    have hstate : x.state 0 r.1 = false := by
      show decide (x.oracle (.version (cfg.total + 1) r.1) = 1) = false
      rw [hbit]
      rfl
    rw [hstate, if_neg Bool.false_ne_true]
  rw [slackAt, slack_eq_sums hgrows, hold] at hfirst
  omega

theorem redundancy_test_iff (h : Question cfg) (hfresh : Fresh x) (hx : Feasible x)
    (hi : i < cfg.total) :
    (cfg.redundancy (copyAt cfg i) (copyAt cfg (i + 2))).eval x.holds x.accounted = false ↔
      changes cfg.resources (x.state (i + 2)) % 2 ^ 8 ≠ cfg.resources.length % 2 ^ 8 ∧
        (slackAt x i (i + 2) < 0 ∨ leastSlack x < slackAt x i (i + 2)) := by
  have hgrows := hx.grows_two hi
  have hword := h.slack_word x hgrows
  obtain ⟨hlow, hhigh⟩ := h.slack_range x hgrows
  have hroom := leastSlack_le_room h hx
  have hdiff := hx.diff_eq h
  have hbound := h.bound
  have hle : (Cond.le (Config.slack (copyAt cfg i) (copyAt cfg (i + 2))) (diff 1) : Test).eval
      x.holds x.accounted = false ↔ slackAt x i (i + 2) < 0 ∨
        leastSlack x < slackAt x i (i + 2) := by
    show decide ((Config.slack _ _).eval x.accounted ≤ x.accounted (.diff 1)) = false ↔ _
    rw [decide_eq_false_iff_not, BitVec.le_def, hword]
    rcases lt_or_ge (slackAt x i (i + 2)) 0 with hneg | hnonneg
    · have hnat := toNat_ofInt_neg hneg (by omega)
      omega
    · have hnat := toNat_ofInt_nonneg hnonneg hhigh
      omega
  have hcomplete := complete_test_iff h.toComponents x hfresh (i + 2)
  show (_ || _) = false ↔ _
  rw [Bool.or_eq_false_iff, hle, ← Bool.not_eq_true, hcomplete, and_comm]

theorem rejected_iff (h : Question cfg) (hfresh : Fresh x) (hx : Feasible x) :
    (Cond.all (redundancyTests cfg)).eval x.holds x.accounted = false ↔
      ∃ i < cfg.total,
        changes cfg.resources (x.state (i + 2)) % 2 ^ 8 ≠ cfg.resources.length % 2 ^ 8 ∧
          (slackAt x i (i + 2) < 0 ∨ leastSlack x < slackAt x i (i + 2)) := by
  rw [← Bool.not_eq_true, Cond.eval_all]
  constructor
  · intro hall
    by_contra hnone
    refine hall (forall_mem_map.mpr fun i hi => ?_)
    have hi := mem_range.mp hi
    rw [← Bool.not_eq_false, redundancy_test_iff h hfresh hx hi]
    exact fun hfail => hnone ⟨i, hi, hfail⟩
  · rintro ⟨i, hi, hfail⟩ hall
    have htest := hall _ (mem_map_of_mem (mem_range.mpr hi))
    rw [(redundancy_test_iff h hfresh hx hi).mpr hfail] at htest
    cases htest

/-- Rejection by the tests for shortcuts means redundancy if and only if, unless the plan is
redundant, no shortcut to an unfinished state fails to fit. -/
theorem diagnosis_drops_redundant_iff (h : Question cfg) (hmarco : cfg.marco = .diagnosis)
    (htwo : 2 ≤ cfg.total) (x : Execution cfg) (hfresh : Fresh x) (hx : Feasible x)
    (hslack : ∀ i ≤ cfg.total, slackAt x i (i + 1) ≠ 0) :
    (∀ t, t ∈ cfg.currCond1 ↔ t ∈ { cfg with marco := .off : Config }.currCond1 ∨
      t ∈ redundancyTests cfg ∨ t ∈ freeTests cfg) ∧
    (((Cond.all (redundancyTests cfg)).eval x.holds x.accounted = false →
        ∃ i < cfg.total, Redundant x (x.accounted (.diff 1)).toNat i) ↔
      ((∃ i < cfg.total, Indispensable x i) → ∃ i < cfg.total, Redundant x (leastSlack x) i)) := by
  refine ⟨fun t => mem_currCond1_diagnosis h.whole hmarco htwo, ?_⟩
  have hfits : ∀ i, Fits cfg.resources cfg.constraint (x.state i) (x.state (i + 2)) ↔
      0 ≤ slackAt x i (i + 2) := fun i => fits_iff_slack
  have hpositive : 0 < leastSlack x := by
    refine lt_foldl_min.mpr ⟨by decide, fun i hi => ?_⟩
    have hi : i ≤ cfg.total := Nat.lt_succ_iff.mp (mem_range.mp hi)
    exact lt_of_le_of_ne (hx.slack_nonneg hi) (hslack i hi).symm
  rw [hx.diff_eq h, rejected_iff h hfresh hx]
  constructor
  · rintro hclaim ⟨i, hi, hunfinished, hnot⟩
    refine hclaim ⟨i, hi, hunfinished, Or.inl ?_⟩
    rw [hfits] at hnot
    omega
  · rintro hcond ⟨i, hi, hunfinished, hneg | hlarge⟩
    · refine hcond ⟨i, hi, hunfinished, ?_⟩
      rw [hfits]
      omega
    · refine ⟨i, hi, ?_, hlarge⟩
      rw [hfits]
      omega

end Diagnosis

theorem spare_room_diagnosed :
    Feasible (execution three .diagnosis 7 (by decide)) ∧
      ((Cond.all (redundancyTests (config three .diagnosis 7))).eval
          (execution three .diagnosis 7 (by decide)).holds
          (execution three .diagnosis 7 (by decide)).accounted = false →
        ∃ i < 2, Redundant (execution three .diagnosis 7 (by decide))
          ((execution three .diagnosis 7 (by decide)).accounted (.diff 1)).toNat i) := by
  have hfeasible : Feasible (execution three .diagnosis 7 (by decide)) := ⟨by decide, by decide⟩
  have hshortcuts : ∀ i < 2, Fits (config three .diagnosis 7).resources 7
      ((execution three .diagnosis 7 (by decide)).state i)
      ((execution three .diagnosis 7 (by decide)).state (i + 2)) := by
    decide
  refine ⟨hfeasible, (diagnosis_drops_redundant_iff
    (question .diagnosis (by decide) (by decide) (by decide)) rfl (by decide) _ (fun _ _ => rfl)
    hfeasible (by decide)).2.mpr ?_⟩
  rintro ⟨i, hi, _, hnot⟩
  exact absurd (hshortcuts i hi) hnot

/-- With room for one component at a time no state can be left out, and the plan is
rejected. -/
theorem indispensable_state_rejected :
    Feasible (execution three .diagnosis 4 (by decide)) ∧
      (∀ i ≤ 2, slackAt (execution three .diagnosis 4 (by decide)) i (i + 1) ≠ 0) ∧
      (Cond.all (redundancyTests (config three .diagnosis 4))).eval
        (execution three .diagnosis 4 (by decide)).holds
        (execution three .diagnosis 4 (by decide)).accounted = false ∧
      ∀ i < 2, ¬Redundant (execution three .diagnosis 4 (by decide))
        ((execution three .diagnosis 4 (by decide)).accounted (.diff 1)).toNat i := by
  have hshortcuts : ∀ i < 2, ¬Fits (config three .diagnosis 4).resources 4
      ((execution three .diagnosis 4 (by decide)).state i)
      ((execution three .diagnosis 4 (by decide)).state (i + 2)) := by
    decide
  exact ⟨⟨by decide, by decide⟩, by decide, by decide +kernel, fun i hi h => hshortcuts i hi h.1⟩

end ResourceCompleteness
