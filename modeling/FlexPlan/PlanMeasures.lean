import FlexPlan.ResourceCompleteness
import Mathlib.Order.Bounds.Basic

/-!
# What the emitted program measures of a plan

`DIFF` starts at one million, so it is the unused headroom for the plans that leave no more than
that; `CURR` has eight bits, so it forces progress for fewer than 256 components.
-/
namespace PlanMeasures

open PythonText GuardedCommands UpdateProgram ResourcePlan ResourceFeasibility PlanExchange List
open ResourceCompleteness
open FreePruning (Components accounting_curr)

variable {cfg : Config}

section Spike

variable {x : Execution cfg}

/-- The value of `DIFF` at the end of the program. -/
def finalDiff (x : Execution cfg) : BitVec 32 := cfg.program.exec x.holds x.oracle x.start (.diff 1)

/-- What `interpret.py` prints: the headroom without the value of `DIFF`. -/
def printedSpike (x : Execution cfg) : ℤ := cfg.constraint - (finalDiff x).toNat

/-- The usage while transition `i` runs, beyond the usage of the old program. -/
def extraUsage (x : Execution cfg) (i : ℕ) : ℤ :=
  newSum cfg.resources (x.state (i + 1)) - oldSum cfg.resources (x.state i)

def slacks (x : Execution cfg) : Set ℤ := {z | ∃ i ≤ cfg.total, slackAt x i (i + 1) = z}

def extraUsages (x : Execution cfg) : Set ℤ := {z | ∃ i ≤ cfg.total, extraUsage x i = z}

structure SpikeExact (x : Execution cfg) : Prop where
  diff : IsLeast (slacks x) (finalDiff x).toNat
  spike : IsGreatest (extraUsages x) (printedSpike x)

theorem finalDiff_eq (x : Execution cfg) : finalDiff x = x.accounted (.diff 1) := by
  have hmark : ∀ k t, ¬(Config.markSub k t).Writes (.diff 1) := fun k t hw => by cases hw
  have hbug : ¬cfg.bugCode.Writes (.diff 1) := by
    intro hw
    unfold Config.bugCode at hw
    split at hw <;> cases hw
  rw [finalDiff, Config.program, Cmd.exec, Execution.accounted]
  apply Cmd.exec_frame
  rw [Config.verdict, Cmd.writes_block]
  rintro ⟨c, hc, hw⟩
  rcases mem_append.mp hc with hc | hc
  · rcases mem_append.mp hc with hc | hc
    · obtain ⟨k, -, rfl⟩ := mem_map.mp hc
      exact hmark _ _ hw
    · obtain ⟨t, -, rfl⟩ := mem_map.mp hc
      exact hmark _ _ hw
  · simp only [mem_cons, not_mem_nil, or_false] at hc
    rcases hc with rfl | rfl
    · cases hw
    · exact hbug hw

theorem finalDiff_toNat (h : Question cfg) (hx : Feasible x) :
    ((finalDiff x).toNat : ℤ) = leastSlack x := by
  rw [finalDiff_eq, hx.diff_eq h]

theorem leastSlack_le_iff :
    leastSlack x ≤ z ↔ 1000000 ≤ z ∨ ∃ i ≤ cfg.total, slackAt x i (i + 1) ≤ z := by
  rw [← not_iff_not, not_le, leastSlack, lt_foldl_min]
  simp only [not_or, not_le, not_exists, not_and, mem_range, Nat.lt_succ_iff]

/-- The minimum that starts at one million is one of the slacks if and only if some slack is
not larger. -/
theorem isLeast_leastSlack_iff :
    IsLeast (slacks x) (leastSlack x) ↔ ∃ i ≤ cfg.total, slackAt x i (i + 1) ≤ 1000000 := by
  constructor
  · rintro ⟨⟨i, hi, heq⟩, -⟩
    have hcap : leastSlack x ≤ 1000000 := leastSlack_le_iff.mpr (Or.inl le_rfl)
    exact ⟨i, hi, heq.trans_le hcap⟩
  · rintro ⟨i, hi, hle⟩
    have hlower : ∀ j ≤ cfg.total, leastSlack x ≤ slackAt x j (j + 1) :=
      fun j hj => leastSlack_le_iff.mpr (Or.inr ⟨j, hj, le_rfl⟩)
    refine ⟨?_, ?_⟩
    · rcases leastSlack_le_iff.mp (le_refl (leastSlack x)) with hcap | ⟨j, hj, hjle⟩
      · exact ⟨i, hi, le_antisymm (hle.trans hcap) (hlower i hi)⟩
      · exact ⟨j, hj, le_antisymm hjle (hlower j hj)⟩
    · rintro z ⟨j, hj, rfl⟩
      exact hlower j hj

theorem extraUsage_eq (hx : Feasible x) (hi : i ≤ cfg.total) :
    extraUsage x i = cfg.constraint - slackAt x i (i + 1) := by
  rw [slackAt, slack_eq_sums (hx.grows i hi), extraUsage]
  omega

theorem isGreatest_iff (hx : Feasible x) :
    IsGreatest (extraUsages x) (cfg.constraint - z) ↔ IsLeast (slacks x) z := by
  constructor
  · rintro ⟨⟨i, hi, heq⟩, hupper⟩
    rw [extraUsage_eq hx hi] at heq
    refine ⟨⟨i, hi, by omega⟩, ?_⟩
    rintro w ⟨j, hj, rfl⟩
    have hle := hupper ⟨j, hj, rfl⟩
    rw [extraUsage_eq hx hj] at hle
    omega
  · rintro ⟨⟨i, hi, rfl⟩, hlower⟩
    refine ⟨⟨i, hi, extraUsage_eq hx hi⟩, ?_⟩
    rintro w ⟨j, hj, rfl⟩
    have hle := hlower ⟨j, hj, rfl⟩
    rw [extraUsage_eq hx hj]
    omega

/-- `DIFF` and the printed spike are exact if and only if some transition leaves no more than
one million; among such plans a larger `DIFF` means a smaller spike. -/
theorem spike_exact_iff (h : Question cfg) (x : Execution cfg) (hx : Feasible x) :
    (SpikeExact x ↔ ∃ i ≤ cfg.total, slackAt x i (i + 1) ≤ 1000000) ∧
    ∀ y : Execution cfg, Feasible y → SpikeExact x → SpikeExact y →
      ∀ s t, IsGreatest (extraUsages x) s → IsGreatest (extraUsages y) t →
        (finalDiff y ≤ finalDiff x ↔ s ≤ t) := by
  refine ⟨?_, ?_⟩
  · rw [← isLeast_leastSlack_iff]
    have hdiff := finalDiff_toNat h hx
    constructor
    · intro hexact
      rw [← hdiff]
      exact hexact.diff
    · intro hleast
      rw [← hdiff] at hleast
      exact ⟨hleast, (isGreatest_iff hx).mpr hleast⟩
  · intro y hy hexact hexact' s t hs ht
    obtain rfl := hs.unique hexact.spike
    obtain rfl := ht.unique hexact'.spike
    rw [BitVec.le_def, printedSpike, printedSpike]
    omega

open EqualComponents

/-- Two components of size three with seven units of headroom. -/
theorem small_room_exact : SpikeExact (execution two .off 7 (by decide)) :=
  (spike_exact_iff (question .off (by decide) (by decide) (by decide)) _
    ⟨by decide, by decide⟩).1.mpr ⟨0, by decide, by decide⟩

/-- With two million units of headroom the printed spike is one million instead of three. -/
theorem large_room_inexact : Feasible (execution two .off 2000000 (by decide)) ∧
    printedSpike (execution two .off 2000000 (by decide)) = 1000000 ∧
    (∀ i ≤ 1, extraUsage (execution two .off 2000000 (by decide)) i ≤ 3) ∧
    ¬SpikeExact (execution two .off 2000000 (by decide)) := by
  have hfeasible : Feasible (execution two .off 2000000 (by decide)) := ⟨by decide, by decide⟩
  have hprinted : printedSpike (execution two .off 2000000 (by decide)) = 1000000 := by
    rw [printedSpike, finalDiff_toNat (question .off (by decide) (by decide) (by decide)) hfeasible]
    decide
  have hextra : ∀ i ≤ 1, extraUsage (execution two .off 2000000 (by decide)) i ≤ 3 := by decide
  refine ⟨hfeasible, hprinted, hextra, fun hexact => ?_⟩
  obtain ⟨i, hi, heq⟩ := hexact.spike.1
  rw [hprinted] at heq
  have hle := hextra i hi
  omega

end Spike

section Progress

/-- Version bits for every copy, in a store in which the metadata starts at zero. -/
structure Choice (cfg : Config) where
  holds : SpecAtom → Bool
  oracle : Memory
  start : Memory
  no_changes : ∀ k ∈ cfg.copies, start (.curr k) = 0
  no_usage : ∀ k ∈ cfg.copies, start (.resource k) = 0

namespace Choice

def accounted (c : Choice cfg) : Memory := cfg.accounting.exec c.holds c.oracle c.start

def state (c : Choice cfg) (i : ℕ) : Str → Bool := bits c.oracle (copyAt cfg i)

structure Passes (c : Choice cfg) : Prop where
  monotone : ∀ t ∈ cfg.fallbackTests, t.eval c.holds c.accounted = false
  progress : (Cond.all cfg.currCond2).eval c.holds c.accounted = true

/-- Every intermediate state changes a component or has all of them changed. -/
def Progresses (c : Choice cfg) : Prop :=
  ∀ i, 1 ≤ i → i ≤ cfg.total → (∃ r ∈ cfg.resources, c.state (i - 1) r.1 ≠ c.state i r.1) ∨
    Complete cfg.resources (c.state i)

variable (c : Choice cfg)

variable (h : Components cfg)

include h

theorem accounted_curr (i : ℕ) :
    c.accounted (.curr (copyAt cfg i)) = BitVec.ofNat 8 (changes cfg.resources (c.state i)) := by
  have hcurr := accounting_curr c.holds c.oracle h.synthesis h.keys c.no_changes
    (copyAt_mem cfg i h.nonempty)
  rwa [h.counted_eq] at hcurr

theorem progress_test_iff (i : ℕ) :
    (cfg.progress (copyAt cfg i) (copyAt cfg (i + 1))).eval c.holds c.accounted = true ↔
      changes cfg.resources (c.state i) % 2 ^ 8 ≠ changes cfg.resources (c.state (i + 1)) % 2 ^ 8 ∨
        changes cfg.resources (c.state (i + 1)) % 2 ^ 8 = cfg.resources.length % 2 ^ 8 := by
  have htotal : cfg.totalChanges = cfg.resources.length := by
    rw [h.totalChanges, h.counted_eq]
  have hstep : (Cond.le (.lit 1)
    (.sub (curr (copyAt cfg (i + 1))) (curr (copyAt cfg i))) : Test).eval
      c.holds c.accounted = true ↔
      changes cfg.resources (c.state i) % 2 ^ 8 ≠
        changes cfg.resources (c.state (i + 1)) % 2 ^ 8 := by
    show decide (BitVec.ofNat 8 1 ≤ c.accounted (.curr _) - c.accounted (.curr _)) = true ↔ _
    rw [decide_eq_true_iff, c.accounted_curr h, c.accounted_curr h, BitVec.le_def, BitVec.toNat_sub,
      BitVec.toNat_ofNat, BitVec.toNat_ofNat, BitVec.toNat_ofNat]
    omega
  have hcomplete : (cfg.complete (copyAt cfg (i + 1))).eval c.holds c.accounted = true ↔
      changes cfg.resources (c.state (i + 1)) % 2 ^ 8 = cfg.resources.length % 2 ^ 8 := by
    show decide (c.accounted (.curr _) = BitVec.ofNat 8 cfg.totalChanges) = true ↔ _
    rw [decide_eq_true_iff, c.accounted_curr h, htotal, ← BitVec.toNat_inj, BitVec.toNat_ofNat,
      BitVec.toNat_ofNat]
  exact Bool.or_eq_true_iff.trans (or_congr hstep hcomplete)

theorem currCond2_iff (hinc : cfg.incremental = false) :
    (Cond.all cfg.currCond2).eval c.holds c.accounted = true ↔ ∀ i ≤ cfg.total,
      changes cfg.resources (c.state i) % 2 ^ 8 ≠ changes cfg.resources (c.state (i + 1)) % 2 ^ 8 ∨
        changes cfg.resources (c.state (i + 1)) % 2 ^ 8 = cfg.resources.length % 2 ^ 8 := by
  rw [currCond2_eq hinc h.nonempty, Cond.eval_all, forall_mem_map]
  simp only [c.progress_test_iff h, mem_range, Nat.lt_succ_iff]

theorem progresses_of_few (hinc : cfg.incremental = false)
    (hfew : cfg.resources.length < 256) (hpass : c.Passes) : c.Progresses := by
  intro i hone hi
  have htest := (c.currCond2_iff h hinc).mp hpass.progress (i - 1) (by omega)
  rw [Nat.sub_add_cancel hone] at htest
  have hbound : ∀ b : Str → Bool, changes cfg.resources b ≤ cfg.resources.length :=
    fun b => countP_le_length
  have hbefore := hbound (c.state (i - 1))
  have hafter := hbound (c.state i)
  rcases htest with hdiffer | hsame
  · left
    by_contra hnone
    push Not at hnone
    have hequal : changes cfg.resources (c.state (i - 1)) = changes cfg.resources (c.state i) :=
      countP_congr fun r hr => by rw [hnone r hr]
    rw [hequal] at hdiffer
    exact hdiffer rfl
  · exact Or.inr (changes_eq_length.mp (by omega))

end Choice

section Stalled

variable (cfg) in
/-- In every copy the components up to 256 less than all are new. -/
def stalledBit (key : Str) : Bool :=
  (cfg.resources.map Prod.fst).idxOf key + 256 < cfg.resources.length

theorem countP_idxOf_lt {α : Type} [BEq α] [LawfulBEq α] {l : List α} (h : l.Nodup) {m : ℕ}
    (hm : m ≤ l.length) :
    l.countP (fun a => l.idxOf a < m) = m := by
  have hsplit : l.countP (fun a => decide (l.idxOf a < m)) =
      (l.take m).countP (fun a => decide (l.idxOf a < m)) +
        (l.drop m).countP (fun a => decide (l.idxOf a < m)) := by
    rw [← countP_append, take_append_drop]
  have hfirst : (l.take m).countP (fun a => decide (l.idxOf a < m)) = (l.take m).length := by
    refine countP_eq_length.mpr fun a ha => decide_eq_true ?_
    obtain ⟨i, hi, rfl⟩ := mem_take_iff_getElem.mp ha
    rw [h.idxOf_getElem]
    omega
  have hlast : (l.drop m).countP (fun a => decide (l.idxOf a < m)) = 0 := by
    refine countP_eq_zero.mpr fun a ha => ?_
    obtain ⟨i, hi, rfl⟩ := mem_drop_iff_getElem.mp ha
    rw [h.idxOf_getElem]
    simp
  rw [hsplit, hfirst, hlast, length_take]
  omega

theorem changes_stalled (h : Components cfg) (hmany : 256 ≤ cfg.resources.length) :
    changes cfg.resources (stalledBit cfg) + 256 = cfg.resources.length := by
  have hcount := countP_idxOf_lt h.distinct (m := cfg.resources.length - 256) (by simp)
  rw [countP_map] at hcount
  have hsame : changes cfg.resources (stalledBit cfg) = cfg.resources.length - 256 := by
    rw [← hcount]
    refine countP_congr fun r _ => ?_
    simp only [stalledBit, Function.comp_apply, decide_eq_true_eq]
    omega
  omega

def stalled (cfg : Config) : Choice cfg where
  holds _ := false
  oracle
    | .version _ key => if stalledBit cfg key then 1 else 0
    | _ => 0
  start _ := 0
  no_changes _ _ := rfl
  no_usage _ _ := rfl

theorem stalled_state (i : ℕ) (key : Str) : (stalled cfg).state i key = stalledBit cfg key := by
  simp only [Choice.state, bits, stalled]
  split_ifs with hbit
  · rw [hbit]
    rfl
  · rw [Bool.eq_false_iff.mpr hbit]
    rfl

theorem mem_fallbackTests (h : Components cfg) (ht : t ∈ cfg.fallbackTests) :
    ∃ p ∈ cfg.copies, ∃ k ∈ cfg.copies, t = cfg.fallsBack p k := by
  have hcopy : ∀ k, k = cfg.total + 1 ∨ k = cfg.total + 2 ∨ (1 ≤ k ∧ k ≤ cfg.total) →
      k ∈ cfg.copies := by
    intro k hk
    simp only [Config.copies, mem_append, mem_cons, not_mem_nil, or_false, mem_range']
    rcases hk with hk | hk | hk
    · exact Or.inl (Or.inl hk)
    · exact Or.inl (Or.inr hk)
    · exact Or.inr ⟨k - 1, by omega, by omega⟩
  have htotal := h.nonempty
  rw [Config.fallbackTests, if_pos h.synthesis] at ht
  rcases mem_append.mp ht with ht | ht
  · obtain ⟨index, hindex, rfl⟩ := mem_map.mp ht
    obtain ⟨j, hj, rfl⟩ := mem_range'.mp hindex
    refine ⟨_, hcopy _ ?_, _, hcopy (1 + 1 * j) (by omega), rfl⟩
    split_ifs <;> omega
  · exact ⟨_, hcopy cfg.total (by omega), _, hcopy (cfg.total + 2) (by omega), mem_singleton.mp ht⟩

theorem stalled_passes (h : Components cfg) (hinc : cfg.incremental = false)
    (hmany : 256 ≤ cfg.resources.length) : (stalled cfg).Passes := by
  have hcount := changes_stalled h hmany
  have hchanges : ∀ i, changes cfg.resources ((stalled cfg).state i) =
      changes cfg.resources (stalledBit cfg) := fun i =>
    countP_congr fun r _ => by rw [stalled_state]
  have haccounted : ∀ k ∈ cfg.copies,
      Accounted cfg (stalled cfg).oracle 0 k (stalled cfg).accounted :=
    fun k hk => accounting_accounts _ _ h.synthesis h.keys (stalled cfg).no_usage hk
  have hchosen : ∀ k ∈ cfg.copies, ∀ key ∈ cfg.versions, (stalled cfg).accounted (.version k key) =
      if stalledBit cfg key then 1 else 0 := fun k hk => (haccounted k hk).chosen
  refine ⟨fun t ht => ?_, ((stalled cfg).currCond2_iff h hinc).mpr fun i _ => ?_⟩
  · obtain ⟨p, hp, k, hk, rfl⟩ := mem_fallbackTests h ht
    rw [Bool.eq_false_iff]
    intro hfire
    obtain ⟨t, ht, hfire⟩ := (Cond.eval_any _ _ _).mp hfire
    obtain ⟨key, hkey, rfl⟩ := mem_map.mp ht
    have hless := of_decide_eq_true hfire
    simp only [Expr.eval] at hless
    rw [hchosen k hk key hkey, hchosen p hp key hkey] at hless
    exact BitVec.lt_irrefl _ hless
  · right
    rw [hchanges]
    omega

theorem stalled_not_progresses (h : Components cfg) (hmany : 256 ≤ cfg.resources.length) :
    ¬(stalled cfg).Progresses := by
  intro hprogress
  have hcount := changes_stalled h hmany
  rcases hprogress 1 le_rfl h.nonempty with ⟨r, -, hdiffer⟩ | hcomplete
  · rw [stalled_state, stalled_state] at hdiffer
    exact hdiffer rfl
  · have hall : changes cfg.resources (stalledBit cfg) = cfg.resources.length := by
      refine changes_eq_length.mpr fun r hr => ?_
      rw [← stalled_state 1]
      exact hcomplete r hr
    omega

end Stalled

/-- Whatever passes the tests makes progress if and only if there are fewer than 256
components. -/
theorem progress_forced_iff (h : Components cfg) (hinc : cfg.incremental = false) :
    (∀ c : Choice cfg, c.Passes → c.Progresses) ↔ cfg.resources.length < 256 := by
  constructor
  · intro hforced
    by_contra hmany
    rw [not_lt] at hmany
    exact stalled_not_progresses h hmany (hforced _ (stalled_passes h hinc hmany))
  · intro hfew c hpass
    exact c.progresses_of_few h hinc hfew hpass

open EqualComponents

theorem two_components_forced : Components (config two .off 7) ∧
    ∀ c : Choice (config two .off 7), c.Passes → c.Progresses := by
  have hcomponents : Components (config two .off 7) :=
    (question .off (by decide) (by decide) (by decide)).toComponents
  exact ⟨hcomponents, (progress_forced_iff hcomponents rfl).mpr (by decide)⟩

namespace ManyComponents

def names : List Str := (List.range 256).map fun n => List.replicate n 'a'

theorem names_nodup : names.Nodup :=
  nodup_range.map fun m n h => by simpa using congrArg List.length h

theorem length_names : names.length = 256 := by simp [names]

theorem components : Components (config names .off 7) :=
  (question .off names_nodup
    (by rw [length_names]; decide) (by rw [length_names]; decide)).toComponents

end ManyComponents

/-- With 256 components a state in which nothing has changed passes for a complete one. -/
theorem unchanged_state_passes : (stalled (config ManyComponents.names .off 7)).Passes ∧
    ¬(stalled (config ManyComponents.names .off 7)).Progresses := by
  have hlength : 256 ≤ (config ManyComponents.names .off 7).resources.length := by
    simp [config, ManyComponents.length_names]
  exact ⟨stalled_passes ManyComponents.components rfl hlength,
    stalled_not_progresses ManyComponents.components hlength⟩

end Progress

end PlanMeasures
