import FlexPlan.UpdateProgram
import FlexPlan.ResourcePlan

/-!
# Resource feasibility of accepted plans

The emitted program counts resources modulo `2 ^ 32`. Every test that passes keeps the free room
nonnegative, and therefore the next test is exact again.
-/
namespace ResourceFeasibility

open PythonText GuardedCommands UpdateProgram ResourcePlan List

variable (cfg : Config) (holds : SpecAtom → Bool) (oracle : Memory)

def bits (k : ℕ) (key : Str) : Bool := oracle (.version k key) = 1

/-- The copy that runs state `i` of the plan, the old program being state `0`. -/
def copyAt (i : ℕ) : ℕ :=
  if i = 0 then cfg.total + 1 else if i ≤ cfg.total then i else cfg.total + 2

variable {σ : Memory} {k : ℕ}

theorem counting_new (h : σ (.version k r.1) = 1) :
    ((Config.counting k r).exec holds oracle σ (.resource k) = σ (.resource k) +
      BitVec.ofNat 32 r.2.2) ∧
    ((Config.counting k r).exec holds oracle σ (.real k) =
      σ (.real k) + BitVec.ofNat 32 r.2.1 - BitVec.ofNat 32 r.2.2) := by
  have htest : (Cond.eq (version k r.1) (.lit 1) : Test).eval holds σ = true := decide_eq_true h
  rw [Config.counting, Cmd.exec, if_pos htest]
  constructor <;> simp [Cmd.block, Cmd.exec, Expr.eval]

theorem counting_old (h : σ (.version k r.1) ≠ 1) :
    (Config.counting k r).exec holds oracle σ = σ := by
  have htest : ¬(Cond.eq (version k r.1) (.lit 1) : Test).eval holds σ = true :=
    fun ht => h (of_decide_eq_true ht)
  rw [Config.counting, Cmd.exec, if_neg htest]

theorem counting_version (r : Str × ℕ × ℕ) (key : Str) :
    (Config.counting k r).exec holds oracle σ (.version k key) = σ (.version k key) := by
  apply Cmd.exec_frame
  intro hw
  rcases Config.counting_writes hw with h | h | h <;> cases h

theorem counting_exec (k : ℕ) (entries : List (Str × ℕ × ℕ)) (σ : Memory) (b : Str → Bool)
    (hb : ∀ r ∈ entries, σ (.version k r.1) = 1 ↔ b r.1 = true) :
    ((Cmd.block (entries.map (Config.counting k))).exec holds oracle σ (.resource k) =
      σ (.resource k) + BitVec.ofNat 32 (newSum entries b)) ∧
    ((Cmd.block (entries.map (Config.counting k))).exec holds oracle σ (.real k) =
      σ (.real k) + BitVec.ofNat 32 (oldSum entries b) - BitVec.ofNat 32 (newSum entries b)) := by
  induction entries generalizing σ with
  | nil => simp [Cmd.block, Cmd.exec, newSum, oldSum]
  | cons r rs ih =>
    obtain ⟨hres, hreal⟩ := ih ((Config.counting k r).exec holds oracle σ) (by
      intro r' hr'
      rw [counting_version]
      exact hb r' (mem_cons_of_mem _ hr'))
    simp only [map_cons, Cmd.block, Cmd.exec]
    rw [hres, hreal]
    by_cases h : b r.1 = true
    · obtain ⟨hnew, hold⟩ := counting_new holds oracle ((hb r mem_cons_self).mpr h)
      rw [hnew, hold]
      simp only [newSum, oldSum, map_cons, sum_cons, if_pos h, BitVec.ofNat_add]
      constructor <;> ring
    · rw [counting_old holds oracle (mt (hb r mem_cons_self).mp h)]
      simp [newSum, oldSum, h]

theorem havoc_exec (k : ℕ) (keys : List Str) (σ : Memory) {key : Str}
    (h : key ∈ keys ∨ σ (.version k key) = oracle (.version k key)) :
    (Cmd.block (keys.map fun key => (.havoc (.version k key) : Code))).exec holds oracle σ
      (.version k key) = oracle (.version k key) := by
  induction keys generalizing σ with
  | nil => exact h.resolve_left not_mem_nil
  | cons c cs ih =>
    apply ih
    by_cases hc : key = c
    · subst hc
      exact Or.inr (Function.update_self _ _ _)
    · rcases h with h | h
      · exact Or.inl ((mem_cons.mp h).resolve_left hc)
      · have hne : Var.version k key ≠ Var.version k c := fun he => hc (Var.version.inj he).2
        exact Or.inr ((Function.update_of_ne hne _ _).trans h)

/-- What the accounting leaves behind for a copy. -/
structure Accounted (base : BitVec 32) (k : ℕ) (σ : Memory) : Prop where
  usage : σ (.resource k) = base + BitVec.ofNat 32 (newSum cfg.counted (bits oracle k))
  room : σ (.real k) = BitVec.ofNat 32 cfg.constraint +
    BitVec.ofNat 32 (oldSum cfg.counted (bits oracle k)) -
    BitVec.ofNat 32 (newSum cfg.counted (bits oracle k))
  chosen : ∀ key ∈ cfg.versions, σ (.version k key) = oracle (.version k key)

variable {cfg} {base : BitVec 32}

/-- The memory in which the code of a copy starts to count. -/
theorem copyCode_start (k : ℕ) (σ : Memory) (hmode : cfg.mode = .synthesis) : ∃ τ : Memory,
    (cfg.copyCode k).exec holds oracle σ =
    (Cmd.block (cfg.counted.map (Config.counting k))).exec holds oracle τ ∧
    τ (.real k) = BitVec.ofNat 32 cfg.constraint ∧ τ (.resource k) = σ (.resource k) ∧
    τ (.curr k) = σ (.curr k) ∧ ∀ key ∈ cfg.versions,
      τ (.version k key) = oracle (.version k key) := by
  rw [Config.copyCode, if_pos hmode, Cmd.exec_block_append, Cmd.exec_block_append]
  generalize hσ₁ : (Cmd.block [.set (.check k) (.lit 0), .set (.real k) (.lit cfg.constraint),
    .set (.valid k) (.lit 1)]).exec holds oracle σ = σ₁
  have hframe : ∀ v, (∀ key, v ≠ .version k key) →
      (Cmd.block (cfg.versions.map fun key => .havoc (.version k key))).exec holds oracle σ₁
        v = σ₁ v := by
    intro v hv
    apply Cmd.exec_frame
    rw [Cmd.writes_block]
    rintro ⟨c, hc, hw⟩
    obtain ⟨key, -, rfl⟩ := mem_map.mp hc
    exact hv key hw
  refine ⟨_, rfl, ?_, ?_, ?_,
    fun key hkey => havoc_exec holds oracle k cfg.versions σ₁ (Or.inl hkey)⟩
  · rw [hframe _ (by simp), ← hσ₁]
    simp [Cmd.block, Cmd.exec, Expr.eval]
  · rw [hframe _ (by simp), ← hσ₁]
    apply Cmd.exec_frame
    simp [Cmd.Writes]
  · rw [hframe _ (by simp), ← hσ₁]
    apply Cmd.exec_frame
    simp [Cmd.Writes]

theorem copyCode_accounts (hmode : cfg.mode = .synthesis)
    (hkeys : ∀ r ∈ cfg.counted, r.1 ∈ cfg.versions)
    (hbase : σ (.resource k) = base) :
    Accounted cfg oracle base k ((cfg.copyCode k).exec holds oracle σ) := by
  obtain ⟨τ, hexec, hroom, husage, -, hver⟩ := copyCode_start holds oracle k σ hmode
  obtain ⟨hres, hreal⟩ := counting_exec holds oracle k cfg.counted τ (bits oracle k) (by
    intro r hr
    rw [hver r.1 (hkeys r hr)]
    simp [bits])
  rw [hexec]
  refine ⟨?_, ?_, ?_⟩
  · rw [hres, husage, hbase]
  · rw [hreal, hroom]
  · intro key hkey
    rw [← hver key hkey]
    apply Cmd.exec_frame
    rw [Cmd.writes_block]
    rintro ⟨c, hc, hw⟩
    obtain ⟨r, -, rfl⟩ := mem_map.mp hc
    rcases Config.counting_writes hw with h | h | h <;> cases h

theorem Accounted.frame (h : Accounted cfg oracle base k σ) {c : Code}
    (hc : ∀ v, c.Writes v → v.owner ≠ some k ∨ v = .diff 1) :
    Accounted cfg oracle base k (c.exec holds oracle σ) := by
  have hkeep : ∀ v, v.owner = some k → v ≠ .diff 1 → c.exec holds oracle σ v = σ v := by
    intro v hv hd
    apply Cmd.exec_frame
    intro hw
    rcases hc v hw with ho | hd'
    · exact ho hv
    · exact hd hd'
  refine ⟨?_, ?_, ?_⟩
  · rw [hkeep _ rfl (by simp), h.usage]
  · rw [hkeep _ rfl (by simp), h.room]
  · intro key hkey
    rw [hkeep _ rfl (by simp), h.chosen key hkey]

theorem copies_nodup : cfg.copies.Nodup := by
  unfold Config.copies
  rw [nodup_append]
  refine ⟨by simp, nodup_range', ?_⟩
  intro a ha b hb
  simp only [mem_cons, not_mem_nil, or_false] at ha
  rw [mem_range'] at hb
  omega

theorem accounting_accounts (hmode : cfg.mode = .synthesis)
    (hkeys : ∀ r ∈ cfg.counted, r.1 ∈ cfg.versions)
    (hbase : ∀ k ∈ cfg.copies, σ (.resource k) = base) (hk : k ∈ cfg.copies) :
    Accounted cfg oracle base k (cfg.accounting.exec holds oracle σ) := by
  rw [Config.accounting, Cmd.exec_block_append]
  refine Accounted.frame holds oracle ?_ fun v hw => Or.inr (Config.diffCode_writes hw)
  refine Cmd.exec_block_indexed holds oracle
    (fun i τ h => copyCode_accounts holds oracle hmode hkeys h)
    ?_ ?_ copies_nodup hbase k hk
  · intro i j τ hij h
    rw [← h]
    apply Cmd.exec_frame
    intro hw
    exact hij (Option.some.inj (Config.copyCode_writes hw))
  · intro i j τ hij h
    refine h.frame holds oracle fun v hw => Or.inl ?_
    rw [Config.copyCode_writes hw]
    exact fun he => hij (Option.some.inj he).symm

variable {holds oracle}

theorem grows_of_no_fallback (hkeys : ∀ r ∈ cfg.counted, r.1 ∈ cfg.versions)
    (hp : Accounted cfg oracle base p σ) (hk : Accounted cfg oracle base k σ)
    (h : (cfg.fallsBack p k).eval holds σ = false) :
    Grows cfg.counted (bits oracle p) (bits oracle k) := by
  have hbit : ∀ a b : BitVec 1, ¬a < b → b = 1 → a = 1 := by decide
  intro r hr hbp
  have hkey := hkeys r hr
  have hlt : ¬oracle (.version k r.1) < oracle (.version p r.1) := by
    intro hlt
    refine Bool.eq_false_iff.mp h
      ((Cond.eval_any holds σ _).mpr ⟨_, mem_map_of_mem hkey, decide_eq_true ?_⟩)
    simp only [Expr.eval]
    rwa [hp.chosen _ hkey, hk.chosen _ hkey]
  exact decide_eq_true (hbit _ _ hlt (of_decide_eq_true hbp))

theorem fits_test_iff (hp : Accounted cfg oracle base p σ) (hk : Accounted cfg oracle base k σ)
    (hbound : cfg.constraint + totalOld cfg.counted + totalNew cfg.counted < 2 ^ 32)
    (hgrows : Grows cfg.counted (bits oracle p) (bits oracle k))
    (hroom : 0 ≤ freeRoom cfg.counted cfg.constraint (bits oracle p)) :
    (Config.fits p k).eval holds σ = true ↔
      Fits cfg.counted cfg.constraint (bits oracle p) (bits oracle k) := by
  rw [← fits_iff_bits hbound hgrows hroom base, ← hk.usage, ← hp.usage, ← hp.room]
  exact decide_eq_true_iff

variable (cfg) in
theorem copyAt_mem (i : ℕ) (htotal : 1 ≤ cfg.total) : copyAt cfg i ∈ cfg.copies := by
  simp only [Config.copies, mem_append, mem_cons, not_mem_nil, or_false, mem_range', copyAt]
  split_ifs
  · exact Or.inl (Or.inl rfl)
  · exact Or.inr ⟨i - 1, by omega, by omega⟩
  · exact Or.inl (Or.inr rfl)

variable {i : ℕ}

theorem transition_cases (hi : i ≤ cfg.total) (htotal : 1 ≤ cfg.total) :
    (i = 0 ∧ copyAt cfg i = cfg.total + 1 ∧ copyAt cfg (i + 1) = 1) ∨
    (1 ≤ i ∧ i + 1 ≤ cfg.total ∧ copyAt cfg i = i ∧ copyAt cfg (i + 1) = i + 1) ∨
    (copyAt cfg i = cfg.total ∧ copyAt cfg (i + 1) = cfg.total + 2) := by
  rcases Nat.eq_zero_or_pos i with rfl | hpos
  · exact Or.inl ⟨rfl, rfl, by simp [copyAt, htotal]⟩
  · have hcopy : copyAt cfg i = i := by rw [copyAt, if_neg (by omega), if_pos hi]
    by_cases hlt : i + 1 ≤ cfg.total
    · refine Or.inr (Or.inl ⟨hpos, hlt, hcopy, ?_⟩)
      rw [copyAt, if_neg (by omega), if_pos hlt]
    · refine Or.inr (Or.inr ⟨?_, ?_⟩)
      · rw [hcopy]
        omega
      · rw [copyAt, if_neg (by omega), if_neg hlt]

theorem fits_emitted (hinc : cfg.incremental = false) (htotal : 1 ≤ cfg.total)
    (hi : i ≤ cfg.total) :
    Config.fits (copyAt cfg i) (copyAt cfg (i + 1)) ∈ cfg.currCond1 := by
  have hstep : ∀ index, 1 ≤ index → index ≤ cfg.total →
      ∀ t ∈ cfg.stepTests index, t ∈ cfg.currCond1 := by
    intro index hone hle t ht
    refine mem_append_left _ (mem_append_left _ (mem_flatMap.mpr ⟨index, ?_, ht⟩))
    exact mem_range'.mpr ⟨index - 1, by omega, by omega⟩
  rcases transition_cases hi htotal with ⟨rfl, hp, hk⟩ | ⟨hone, hle, hp, hk⟩ | ⟨hp, hk⟩
  · rw [hp, hk]
    refine hstep 1 le_rfl htotal _ (mem_append_right _ ?_)
    simp [hinc]
  · rw [hp, hk]
    refine hstep (i + 1) (by omega) hle _ (mem_append_right _ ?_)
    rw [if_neg (by omega)]
    simp
  · rw [hp, hk]
    refine mem_append_left _ (mem_append_right _ ?_)
    simp [hinc]

theorem fallback_emitted (hmode : cfg.mode = .synthesis) (htotal : 1 ≤ cfg.total)
    (hi : i ≤ cfg.total) :
    cfg.fallsBack (copyAt cfg i) (copyAt cfg (i + 1)) ∈ cfg.fallbackTests := by
  have hstep : ∀ index, 1 ≤ index → index ≤ cfg.total →
      cfg.fallsBack (if index = 1 then cfg.total + 1 else index - 1) index ∈
        cfg.fallbackTests := by
    intro index hone hle
    rw [Config.fallbackTests, if_pos hmode]
    refine mem_append_left _ (mem_map.mpr ⟨index, ?_, rfl⟩)
    exact mem_range'.mpr ⟨index - 1, by omega, by omega⟩
  rcases transition_cases hi htotal with ⟨rfl, hp, hk⟩ | ⟨hone, hle, hp, hk⟩ | ⟨hp, hk⟩
  · rw [hp, hk]
    exact hstep 1 le_rfl htotal
  · rw [hp, hk]
    have h := hstep (i + 1) (by omega) hle
    rwa [if_neg (by omega), Nat.add_sub_cancel] at h
  · rw [hp, hk, Config.fallbackTests, if_pos hmode]
    exact mem_append_right _ (mem_singleton_self _)

/-- The configurations of a resource question: every component is counted and its bit is
chosen, and the sums of the usages fit the width. -/
structure Plain (cfg : Config) : Prop where
  synthesis : cfg.mode = .synthesis
  whole : cfg.incremental = false
  nonempty : 1 ≤ cfg.total
  listed : ∀ r ∈ cfg.resources, r.1 ∈ cfg.versions ∧ cfg.versionList.any (isIn r.1) = true
  bound : cfg.constraint + totalOld cfg.resources + totalNew cfg.resources < 2 ^ 32

/-- An execution that starts with equal usages and whose plan goes from the old program
to the new one. -/
structure Execution (cfg : Config) where
  holds : SpecAtom → Bool
  oracle : Memory
  start : Memory
  base : BitVec 32
  same_usage : ∀ k ∈ cfg.copies, start (.resource k) = base
  old_copy : ∀ key ∈ cfg.versions, oracle (.version (cfg.total + 1) key) = 0
  new_copy : ∀ key ∈ cfg.versions, oracle (.version (cfg.total + 2) key) = 1

namespace Execution

def accounted (x : Execution cfg) : Memory := cfg.accounting.exec x.holds x.oracle x.start

/-- State `i` of the plan. -/
def state (x : Execution cfg) (i : ℕ) : Str → Bool := bits x.oracle (copyAt cfg i)

/-- As far as resources and monotonicity go, the execution reaches `bug()`. -/
structure Passes (x : Execution cfg) : Prop where
  monotone : ∀ t ∈ cfg.fallbackTests, t.eval x.holds x.accounted = false
  resources : (Cond.all cfg.currCond1).eval x.holds x.accounted = true

end Execution

section

variable (h : Plain cfg)

include h

theorem Plain.counted : cfg.counted = cfg.resources :=
  filter_eq_self.mpr fun r hr => (h.listed r hr).2

theorem Plain.keys : ∀ r ∈ cfg.counted, r.1 ∈ cfg.versions := by
  rw [h.counted]
  exact fun r hr => (h.listed r hr).1

theorem Plain.accounted (x : Execution cfg) (i : ℕ) :
    Accounted cfg x.oracle x.base (copyAt cfg i) x.accounted :=
  accounting_accounts x.holds x.oracle h.synthesis h.keys x.same_usage (copyAt_mem cfg i h.nonempty)

variable {x : Execution cfg}

theorem state_grows (hx : x.Passes) (hi : i ≤ cfg.total) :
    Grows cfg.resources (x.state i) (x.state (i + 1)) := by
  rw [← h.counted]
  exact grows_of_no_fallback h.keys (h.accounted x i) (h.accounted x (i + 1))
    (hx.monotone _ (fallback_emitted h.synthesis h.nonempty hi))

theorem old_freeRoom (x : Execution cfg) :
    freeRoom cfg.resources cfg.constraint (x.state 0) = cfg.constraint := by
  have hfalse : ∀ r ∈ cfg.resources, x.state 0 r.1 = false := by
    intro r hr
    have hold : x.oracle (.version (copyAt cfg 0) r.1) = 0 := x.old_copy r.1 (h.listed r hr).1
    simp [Execution.state, bits, hold]
  unfold freeRoom
  rw [sum_eq_zero, add_zero]
  intro n hn
  obtain ⟨r, hr, rfl⟩ := mem_map.mp hn
  simp [hfalse r hr]

theorem state_fits (hx : x.Passes) (hi : i ≤ cfg.total)
    (hroom : 0 ≤ freeRoom cfg.resources cfg.constraint (x.state i)) :
    Fits cfg.resources cfg.constraint (x.state i) (x.state (i + 1)) := by
  have htest := (Cond.eval_all x.holds x.accounted cfg.currCond1).mp hx.resources _
    (fits_emitted h.whole h.nonempty hi)
  have hgrows := state_grows h hx hi
  have hbound := h.bound
  rw [← h.counted] at hroom hgrows hbound ⊢
  exact (fits_test_iff (h.accounted x i) (h.accounted x (i + 1)) hbound hgrows hroom).mp htest

theorem state_freeRoom_nonneg (hx : x.Passes) (hi : i ≤ cfg.total + 1) :
    0 ≤ freeRoom cfg.resources cfg.constraint (x.state i) := by
  induction i with
  | zero =>
    rw [old_freeRoom h x]
    exact Int.natCast_nonneg _
  | succ i ih =>
    have hroom := ih (by omega)
    exact (state_fits h hx (by omega) hroom).freeRoom_nonneg (state_grows h hx (by omega))

end

/-- Every transition of an accepted plan fits, in the integers. -/
theorem accepted_plan_fits (h : Plain cfg) (x : Execution cfg) (hx : x.Passes) :
    ∀ i ≤ cfg.total,
      Fits cfg.resources cfg.constraint (x.state i) (x.state (i + 1)) ∧
      0 ≤ freeRoom cfg.resources cfg.constraint (x.state i) := by
  intro i hi
  have hroom := state_freeRoom_nonneg h hx (by omega : i ≤ cfg.total + 1)
  exact ⟨state_fits h hx hi hroom, hroom⟩

namespace Example

/-- Two components that are replaced one after the other, with no room to do both. -/
def config : Config where
  resources := [("a".toList, 4, 3), ("b".toList, 0, 4)]
  versions := ["a".toList, "b".toList]
  versionList := ["a".toList, "b".toList]
  freeAdd := []
  freeDel := []
  constraint := 4
  total := 1
  incremental := false
  marco := .off
  mode := .synthesis

def execution : Execution config where
  holds _ := false
  oracle v :=
    if v = .version 3 "a".toList ∨ v = .version 3 "b".toList ∨ v = .version 1 "a".toList then 1
    else 0
  start _ := 0
  base := 0
  same_usage _ _ := rfl
  old_copy := by decide
  new_copy := by decide

theorem plain : Plain config := ⟨rfl, rfl, le_rfl, by decide, by decide⟩

theorem passes : execution.Passes := ⟨by decide +kernel, by decide +kernel⟩

end Example

theorem two_steps_fit :
    demand Example.config.resources (Example.execution.state 0) (Example.execution.state 1) = 3 ∧
    ∀ i ≤ Example.config.total,
      Fits Example.config.resources Example.config.constraint (Example.execution.state i)
        (Example.execution.state (i + 1)) ∧
      0 ≤ freeRoom Example.config.resources Example.config.constraint (Example.execution.state i) :=
  ⟨by decide, accepted_plan_fits Example.plain Example.execution Example.passes⟩

section Verdict

variable (holds oracle)

theorem copyCode_valid (k : ℕ) (σ : Memory) :
    (cfg.copyCode k).exec holds oracle σ (.valid k) = 1 := by
  rw [Config.copyCode, append_assoc, Cmd.exec_block_append, Cmd.exec_frame]
  · simp [Cmd.block, Cmd.exec, Expr.eval]
  · split_ifs <;> simp [Config.counting, Cmd.Writes, or_and_right, exists_or]

variable (htotal : 1 ≤ cfg.total)

include htotal

theorem accounting_valid : cfg.accounting.exec holds oracle σ (.valid 1) = 1 := by
  rw [Config.accounting, Cmd.exec_block_append, Cmd.exec_frame]
  · refine Cmd.exec_block_indexed holds oracle (P := fun _ _ => True)
      (Q := fun k τ => τ (.valid k) = 1)
      (fun k τ _ => copyCode_valid holds oracle k τ) (fun _ _ _ _ _ => trivial) ?_ copies_nodup
      (fun _ _ => trivial) 1 (mem_append_right _ (mem_range'.mpr ⟨0, htotal, rfl⟩))
    intro i j τ hij hi
    refine (Cmd.exec_frame _ _ _ _ fun hw => ?_).trans hi
    exact hij (Option.some.inj (Config.copyCode_writes hw))
  · intro hw
    cases Config.diffCode_writes hw

theorem program_bug (hσ : cfg.Clear σ) (hτ : cfg.accounting.exec holds oracle σ = τ) :
    cfg.program.exec holds oracle σ .bug = 1 ↔ match cfg.mode with
    | .synthesis => (∀ m ∈ cfg.marks, m.2.eval holds τ = false) ∧
        (Cond.all cfg.currCond1).eval holds τ = true ∧ (Cond.all cfg.currCond2).eval holds τ = true
    | .verify => ∃ m ∈ cfg.marks, m.2.eval holds τ = true := by
  have hkeeps : ∀ v, _ → τ v = σ v := fun v h => hτ ▸ Config.accounting_keeps holds oracle h
  have hvalid : τ (.valid 1) = 1 := hτ ▸ accounting_valid holds oracle htotal
  have hbug := (hkeeps .bug (by simp)).trans hσ.bug
  have hviolation := (hkeeps (.violation 1) (by simp)).trans hσ.violation
  rw [Config.program, Cmd.exec, hτ, Config.verdict_exec]
  rcases Config.flagged_cases holds oracle htotal
    (fun k hk => (hkeeps _ (by simp)).trans (hσ.subviolation k hk)) with ⟨hall,
      hsame⟩ | ⟨⟨m, hm, hfire⟩, hone⟩
  · rw [hsame, Config.bugCode_exec holds oracle hbug hvalid]
    cases cfg.mode with
    | synthesis => exact and_congr_left' (iff_of_true hviolation hall)
    | verify =>
      refine iff_of_false (fun h => ?_) ?_
      · cases hviolation.symm.trans h
      · rintro ⟨m, hm, h⟩
        exact Bool.false_ne_true ((hall m hm).symm.trans h)
  · rw [Config.bugCode_exec holds oracle ((Config.flagged_frame _ _ (by simp) (by simp)).trans hbug)
      ((Config.flagged_frame _ _ (by simp) (by simp)).trans hvalid)]
    cases cfg.mode with
    | synthesis =>
      refine iff_of_false (fun h => ?_) fun h => Bool.false_ne_true ((h.1 m hm).symm.trans hfire)
      rw [hone] at h
      cases h.1
    | verify => exact iff_of_true hone ⟨m, hm, hfire⟩

end Verdict

/-- In verification mode `bug()` stands for a violation in some copy. -/
theorem verify_bug_iff (hmode : cfg.mode = .verify) (htotal : 1 ≤ cfg.total)
    (hclear : cfg.Clear σ) :
    cfg.program.exec holds oracle σ .bug = 1 ↔ ∃ k ∈ range' 1 cfg.total, holds ⟨k⟩ = true := by
  rw [program_bug holds oracle htotal hclear rfl, hmode]
  simp [Config.marks, Config.fallbackTests, hmode, Cond.eval]

theorem violated_copy_reaches_bug :
    let cfg := { Example.config with mode := .verify }
    cfg.program.exec (fun _ => true) (fun _ => 0) (fun _ => 0) .bug = 1 :=
  (verify_bug_iff rfl le_rfl ⟨rfl, rfl, fun _ _ => rfl⟩).mpr ⟨1, by decide, rfl⟩

end ResourceFeasibility
