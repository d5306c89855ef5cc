import FlexPlan.CoreLearning
import FlexPlan.PlanExchange
import FlexPlan.ResourceFeasibility

/-!
# Pruning by free components

A component that no learned core names can be replaced at any time. `synthesizer_spec` only looks
for plans that make all free deletions first and all free additions last. No plan is lost by that,
and none gets less slack.
-/
namespace FreePruning

open PythonText GuardedCommands UpdateProgram ResourcePlan ResourceFeasibility PlanExchange List
open CoreLearning (Core Covered Extends)

/-- `extract_from_uc`: the names in the learned cores, from the component on. -/
def constrainedVariables (unsatLists : List (List (Str × Bool))) : List Str :=
  unsatLists.flatten.map fun l => sliceFrom l.1 (find "version_".toList l.1 + 8)

/-- `get_files` cuts the index of the variable off. -/
def constrainedSet (constrained : List Str) : List Str :=
  constrained.map fun key => "version_".toList ++ slice key 0 (-2)

def freeAddSet (resources : List (Str × ℕ × ℕ)) (constrained : List Str) : List Str :=
  (resources.filter fun r => r.1 ∉ constrained && r.2.1 = 0).map Prod.fst

def freeDelSet (resources : List (Str × ℕ × ℕ)) (constrained : List Str) : List Str :=
  (resources.filter fun r => (r.1 ∉ constrained && r.2.1 ≠ 0) && r.2.2 = 0).map Prod.fst

def component (name : Str) : Str :=
  "version_".toList ++ slice (sliceFrom name (find "version_".toList name + 8)) 0 (-2)

def cores (unsatLists : List (List (Str × Bool))) : List (Core Str) :=
  unsatLists.map fun uc => uc.map fun l => (component l.1, l.2)

theorem mem_constrained_iff {unsatLists : List (List (Str × Bool))} {key : Str} :
    key ∈ constrainedSet (constrainedVariables unsatLists) ↔
      ∃ core ∈ cores unsatLists, ∃ value, (key, value) ∈ core := by
  simp only [constrainedSet, constrainedVariables, cores, mem_map, mem_flatten]
  constructor
  · rintro ⟨-, ⟨l, ⟨uc, huc, hl⟩, rfl⟩, rfl⟩
    exact ⟨_, ⟨uc, huc, rfl⟩, l.2, mem_map.mpr ⟨l, hl, rfl⟩⟩
  · rintro ⟨-, ⟨uc, huc, rfl⟩, value, h⟩
    obtain ⟨l, hl, he⟩ := mem_map.mp h
    exact ⟨_, ⟨l, ⟨uc, huc, hl⟩, rfl⟩, congrArg Prod.fst he⟩

/-- The changing components of an update, each with its resources. -/
structure Components (cfg : Config) : Prop where
  synthesis : cfg.mode = .synthesis
  nonempty : 1 ≤ cfg.total
  distinct : (cfg.resources.map Prod.fst).Nodup
  changed : (cfg.resources.map Prod.fst).Perm cfg.versions
  counted : ∀ r ∈ cfg.resources, cfg.versionList.any (isIn r.1) = true

/-- The free sets are those that `get_files` computes from the learned cores. -/
structure FreeSets (cfg : Config) (unsatLists : List (List (Str × Bool))) : Prop where
  add : ∀ key, key ∈ cfg.freeAdd ↔
    key ∈ freeAddSet cfg.resources (constrainedSet (constrainedVariables unsatLists))
  del : ∀ key, key ∈ cfg.freeDel ↔
    key ∈ freeDelSet cfg.resources (constrainedSet (constrainedVariables unsatLists))

structure Transition (cfg : Config) (b b' : State Str) : Prop where
  monotone : Grows cfg.resources b b'
  progress : Larger cfg.resources b b' ∨ Complete cfg.resources b'
  fits : Fits cfg.resources cfg.constraint b b'

/-- The intermediate states of a plan that contains no core. -/
structure Plan (cfg : Config) (forbidden : List (Core Str)) (states : List (State Str)) : Prop where
  length : states.length = cfg.total
  transitions : (whole states).IsChain (Transition cfg)
  avoids : ∀ b ∈ states, ¬Covered forbidden b

def Follows {cfg : Config} (x : Execution cfg) (states : List (State Str)) : Prop :=
  ∀ i b, (whole states)[i]? = some b → ∀ key ∈ cfg.versions, x.state i key = b key

def freeTests (cfg : Config) : List Test :=
  cfg.freeDel.map (Config.isNew 1) ++ [cfg.freeAddTest]

variable {cfg : Config}

theorem freeTests_emitted (hmarco : cfg.marco = .diagnosis ∨ cfg.marco = .evaluate)
    (htotal : 1 ≤ cfg.total) : freeTests cfg ⊆ cfg.currCond1 := by
  intro t ht
  have hstep : t ∈ cfg.stepTests 1 := by
    refine mem_append_right _ ?_
    rw [if_pos rfl, if_pos hmarco]
    exact mem_append_right _ ht
  have hfirst : 1 ∈ List.range' 1 cfg.total := mem_range'_1.mpr ⟨le_rfl, by omega⟩
  exact mem_append_left _ (mem_append_left _ (mem_flatMap.mpr ⟨1, hfirst, hstep⟩))

section Cores

variable {unsatLists : List (List (Str × Bool))}

variable (h : FreeSets cfg unsatLists)

include h

theorem FreeSets.free (hdistinct : (cfg.resources.map Prod.fst).Nodup) :
    Free cfg.resources (· ∈ cfg.freeAdd) (· ∈ cfg.freeDel) := by
  have hentry : ∀ e ∈ cfg.resources, ∀ r ∈ cfg.resources, r.1 = e.1 → r = e := fun e he r hr =>
    inj_on_of_nodup_map hdistinct hr he
  constructor
  · intro e he hadd
    obtain ⟨r, hr, hkey⟩ := mem_map.mp ((h.add e.1).mp (of_decide_eq_true hadd))
    obtain ⟨hr, hfree⟩ := mem_filter.mp hr
    rw [← hentry e he r hr hkey]
    simp only [Bool.and_eq_true, decide_eq_true_eq] at hfree
    exact hfree.2
  · intro e he _ hdel
    obtain ⟨r, hr, hkey⟩ := mem_map.mp ((h.del e.1).mp (of_decide_eq_true hdel))
    obtain ⟨hr, hfree⟩ := mem_filter.mp hr
    rw [← hentry e he r hr hkey]
    simp only [Bool.and_eq_true, decide_eq_true_eq] at hfree
    exact hfree.2

theorem FreeSets.not_constrained {key : Str} (hkey : key ∈ cfg.freeAdd ∨ key ∈ cfg.freeDel) :
    key ∉ constrainedSet (constrainedVariables unsatLists) := by
  rcases hkey with hkey | hkey
  · obtain ⟨r, hr, rfl⟩ := mem_map.mp ((h.add key).mp hkey)
    have hfree := (mem_filter.mp hr).2
    simp only [Bool.and_eq_true, decide_eq_true_eq] at hfree
    exact hfree.1
  · obtain ⟨r, hr, rfl⟩ := mem_map.mp ((h.del key).mp hkey)
    have hfree := (mem_filter.mp hr).2
    simp only [Bool.and_eq_true, decide_eq_true_eq] at hfree
    exact hfree.1.1

theorem FreeSets.disjoint (hdistinct : (cfg.resources.map Prod.fst).Nodup)
    {key : Str} (hdel : key ∈ cfg.freeDel) : key ∉ cfg.freeAdd := by
  intro hadd
  obtain ⟨r, hr, rfl⟩ := mem_map.mp ((h.del key).mp hdel)
  obtain ⟨hr, hfree⟩ := mem_filter.mp hr
  simp only [Bool.and_eq_true, decide_eq_true_eq] at hfree
  exact hfree.1.2 ((h.free hdistinct).add_old r hr (decide_eq_true hadd))

theorem FreeSets.covered_settle (hb : ¬Covered (cores unsatLists) b) :
    ¬Covered (cores unsatLists) (settle (· ∈ cfg.freeAdd) (· ∈ cfg.freeDel) b) := by
  rintro ⟨core, hcore, hext⟩
  refine hb ⟨core, hcore, fun l hl => ?_⟩
  rw [← hext l hl]
  have hconstrained : l.1 ∈ constrainedSet (constrainedVariables unsatLists) :=
    mem_constrained_iff.mpr ⟨core, hcore, l.2, hl⟩
  have hadd : l.1 ∉ cfg.freeAdd := fun hk => h.not_constrained (Or.inl hk) hconstrained
  have hdel : l.1 ∉ cfg.freeDel := fun hk => h.not_constrained (Or.inr hk) hconstrained
  simp [settle, hadd, hdel]

end Cores

theorem chain_and {α : Type} {R S : α → α → Prop} {l : List α} (hR : l.IsChain R)
    (hS : l.IsChain S) : l.IsChain fun a b => R a b ∧ S a b := by
  induction hR with
  | nil => exact .nil
  | singleton a => exact .singleton a
  | cons_cons h _ ih =>
    obtain ⟨h', hS⟩ := isChain_cons_cons.mp hS
    exact .cons_cons ⟨h, h'⟩ (ih hS)

def pruned (cfg : Config) (states : List (State Str)) : List (State Str) :=
  rearrange cfg.resources (· ∈ cfg.freeAdd) (· ∈ cfg.freeDel) allOld states

section Exchange

variable {unsatLists : List (List (Str × Bool))} {states : List (State Str)}

theorem pruned_steps (hfree : Free cfg.resources (· ∈ cfg.freeAdd) (· ∈ cfg.freeDel))
    (h : (whole states).IsChain (Transition cfg)) {μ : ℤ}
    (hμ : μ ≤ minSlack cfg.resources cfg.constraint allOld states) :
    (whole (pruned cfg states)).IsChain (Step cfg.resources cfg.constraint μ) := by
  refine chain_rearrange hfree standsFor_old ?_
  refine (chain_and h (le_minSlack_iff.mp hμ)).imp ?_
  rintro b b' ⟨ht, hs⟩
  exact ⟨ht.monotone, ht.progress, hs⟩

theorem minSlack_nonneg (h : (whole states).IsChain (Transition cfg)) :
    0 ≤ minSlack cfg.resources cfg.constraint allOld states :=
  le_minSlack_iff.mpr (h.imp fun _ _ ht => fits_iff_slack.mp ht.fits)

theorem pruned_plan (hc : Components cfg) (hf : FreeSets cfg unsatLists)
    (hnew : ¬Covered (cores unsatLists) allNew) (h : Plan cfg (cores unsatLists) states) :
    Plan cfg (cores unsatLists) (pruned cfg states) where
  length := (length_rearrange _ _).trans h.length
  transitions := by
    refine (pruned_steps (hf.free hc.distinct) h.transitions (minSlack_nonneg h.transitions)).imp ?_
    intro b b' hs
    exact ⟨hs.grows, hs.progress, fits_iff_slack.mpr hs.slack⟩
  avoids := by
    intro b hb
    rcases mem_rearrange hb with rfl | ⟨b', hb', rfl⟩
    · exact hnew
    · exact hf.covered_settle (h.avoids b' hb')

theorem pruned_slack (hc : Components cfg) (hf : FreeSets cfg unsatLists)
    (h : Plan cfg (cores unsatLists) states) :
    minSlack cfg.resources cfg.constraint allOld states ≤
      minSlack cfg.resources cfg.constraint allOld (pruned cfg states) :=
  le_minSlack_iff.mpr ((pruned_steps (hf.free hc.distinct) h.transitions le_rfl).imp
    fun _ _ hs => hs.slack)

end Exchange

section Emitted

variable (holds : SpecAtom → Bool) (oracle : Memory)

theorem counting_curr (k : ℕ) (entries : List (Str × ℕ × ℕ)) (σ : Memory) (b : Str → Bool)
    (hb : ∀ r ∈ entries, σ (.version k r.1) = 1 ↔ b r.1 = true) :
    (Cmd.block (entries.map (Config.counting k))).exec holds oracle σ (.curr k) =
      σ (.curr k) + BitVec.ofNat 8 (changes entries b) := by
  induction entries generalizing σ with
  | nil => simp [Cmd.block, Cmd.exec, changes]
  | cons r rs ih =>
    obtain ⟨hr, hrs⟩ := forall_mem_cons.mp hb
    have hrest := ih ((Config.counting k r).exec holds oracle σ) (by
      intro r' hr'
      rw [counting_version]
      exact hrs r' hr')
    simp only [map_cons, Cmd.block, Cmd.exec]
    rw [hrest]
    by_cases hnew : b r.1 = true
    · have htest : (Cond.eq (version k r.1) (.lit 1) : Test).eval holds σ = true :=
        decide_eq_true (hr.mpr hnew)
      have hone : (Config.counting k r).exec holds oracle σ (.curr k) =
          σ (.curr k) + BitVec.ofNat 8 1 := by
        rw [Config.counting, Cmd.exec, if_pos htest]
        simp [Cmd.block, Cmd.exec, Expr.eval]
      rw [hone, changes_cons, if_pos hnew, BitVec.ofNat_add]
      ring
    · rw [counting_old holds oracle (mt hr.mp hnew), changes_cons, if_neg hnew, Nat.add_zero]

theorem copyCode_curr (hmode : cfg.mode = .synthesis)
    (hkeys : ∀ r ∈ cfg.counted, r.1 ∈ cfg.versions)
    (hzero : σ (.curr k) = 0) : (cfg.copyCode k).exec holds oracle σ (.curr k) =
      BitVec.ofNat 8 (changes cfg.counted (bits oracle k)) := by
  obtain ⟨τ, hexec, -, -, hcurr, hver⟩ := copyCode_start holds oracle k σ hmode
  have hbits : ∀ r ∈ cfg.counted, τ (.version k r.1) = 1 ↔ bits oracle k r.1 = true := by
    intro r hr
    rw [hver r.1 (hkeys r hr)]
    simp [bits]
  rw [hexec, counting_curr holds oracle k cfg.counted τ _ hbits, hcurr, hzero, zero_add]

theorem accounting_curr (hmode : cfg.mode = .synthesis)
    (hkeys : ∀ r ∈ cfg.counted, r.1 ∈ cfg.versions)
    (hzero : ∀ k ∈ cfg.copies, σ (.curr k) = 0) (hk : k ∈ cfg.copies) :
    cfg.accounting.exec holds oracle σ (.curr k) =
      BitVec.ofNat 8 (changes cfg.counted (bits oracle k)) := by
  have hother : ∀ i j : ℕ, ∀ τ : Memory, i ≠ j →
      (cfg.copyCode j).exec holds oracle τ (.curr i) = τ (.curr i) := by
    intro i j τ hij
    apply Cmd.exec_frame
    intro hw
    exact hij (Option.some.inj (Config.copyCode_writes hw))
  have hcopies := Cmd.exec_block_indexed holds oracle (f := cfg.copyCode)
    (P := fun k τ => τ (.curr k) = 0)
    (Q := fun k τ => τ (.curr k) = BitVec.ofNat 8 (changes cfg.counted (bits oracle k)))
    (fun i τ h => copyCode_curr holds oracle hmode hkeys h)
    (fun i j τ hij h => (hother i j τ hij).trans h)
    (fun i j τ hij h => (hother i j τ hij).trans h) copies_nodup hzero k hk
  rw [Config.accounting, Cmd.exec_block_append, ← hcopies]
  apply Cmd.exec_frame
  intro hw
  cases Config.diffCode_writes hw

variable {holds oracle}

theorem Components.counted_eq (h : Components cfg) : cfg.counted = cfg.resources :=
  filter_eq_self.mpr h.counted

theorem Components.keys (h : Components cfg) : ∀ r ∈ cfg.counted, r.1 ∈ cfg.versions := by
  rw [h.counted_eq]
  intro r hr
  exact h.changed.subset (mem_map_of_mem hr)

theorem Components.totalChanges (h : Components cfg) : cfg.totalChanges = cfg.counted.length := by
  rw [h.counted_eq, Config.totalChanges, ← h.changed.length_eq, length_map]

variable {i : ℕ} {key : Str}

theorem bit_of_state {x : Execution cfg} {v : Bool} (h : x.state i key = v) :
    x.oracle (.version (copyAt cfg i) key) = BitVec.ofBool v := by
  have hbit : ∀ w : BitVec 1, w = BitVec.ofBool (decide (w = 1)) := by decide
  rw [← h]
  exact hbit _

theorem accounted_bit (h : Components cfg) (x : Execution cfg) {v : Bool}
    (hkey : key ∈ cfg.versions)
    (hv : x.state i key = v) : x.accounted (.version (copyAt cfg i) key) = BitVec.ofBool v := by
  rw [← bit_of_state hv]
  exact (accounting_accounts x.holds x.oracle h.synthesis h.keys x.same_usage
    (copyAt_mem cfg i h.nonempty)).chosen key hkey

section

variable (h : Components cfg) (x : Execution cfg) (hzero : ∀ k ∈ cfg.copies, x.start (.curr k) = 0)

include h x hzero

theorem accounted_curr (i : ℕ) :
    x.accounted (.curr (copyAt cfg i)) = BitVec.ofNat 8 (changes cfg.resources (x.state i)) := by
  have hcurr := accounting_curr x.holds x.oracle h.synthesis h.keys hzero
    (copyAt_mem cfg i h.nonempty)
  rwa [h.counted_eq] at hcurr

theorem complete_test_iff (i : ℕ) : (cfg.complete (copyAt cfg i)).eval x.holds x.accounted = true ↔
      changes cfg.resources (x.state i) % 2 ^ 8 = cfg.resources.length % 2 ^ 8 := by
  have htotal : cfg.totalChanges = cfg.resources.length := by
    rw [h.totalChanges, h.counted_eq]
  show decide (x.accounted (.curr (copyAt cfg i)) = BitVec.ofNat 8 cfg.totalChanges) = true ↔ _
  rw [decide_eq_true_iff, accounted_curr h x hzero, htotal, ← BitVec.toNat_inj, BitVec.toNat_ofNat,
    BitVec.toNat_ofNat]

theorem complete_test (hnew : ∀ r ∈ cfg.resources, x.state i r.1 = true) :
    (cfg.complete (copyAt cfg i)).eval x.holds x.accounted = true := by
  rw [complete_test_iff h x hzero, changes_eq_length.mpr hnew]

end

theorem getElem?_of_infix {α : Type} {l : List α} {a b : α} (h : [a, b] <:+: l) :
    ∃ i, i + 1 < l.length ∧ l[i]? = some a ∧ l[i + 1]? = some b := by
  obtain ⟨s, t, rfl⟩ := h
  exact ⟨s.length, by simp, by simp, by simp⟩

variable (h : Components cfg) (x : Execution cfg)

include h x

theorem isOld_test (hkey : key ∈ cfg.versions)
    (hold : x.state i key = false) :
    (Config.isOld (copyAt cfg i) key).eval x.holds x.accounted = true :=
  decide_eq_true (accounted_bit h x hkey hold)

theorem isNew_test (hkey : key ∈ cfg.versions)
    (hnew : x.state i key = true) :
    (Config.isNew (copyAt cfg i) key).eval x.holds x.accounted = true :=
  decide_eq_true (accounted_bit h x hkey hnew)

/-- An execution passes the test for free additions if one of its transitions makes all
of them and completes the update. -/
theorem freeAddTest_of_transition (hzero : ∀ k ∈ cfg.copies, x.start (.curr k) = 0)
    (hkeys : ∀ key ∈ cfg.freeAdd, key ∈ cfg.versions) (hi : i ≤ cfg.total)
    (hold : ∀ key ∈ cfg.freeAdd, x.state i key = false)
    (hnew : ∀ r ∈ cfg.resources, x.state (i + 1) r.1 = true) :
    cfg.freeAddTest.eval x.holds x.accounted = true := by
  have hp : (if i + 1 = 1 then cfg.total + 1 else i + 1 - 1) = copyAt cfg i := by
    by_cases hfirst : i = 0
    · rw [if_pos (by omega), copyAt, if_pos hfirst]
    · rw [if_neg (by omega), copyAt, if_neg hfirst, if_pos hi, Nat.add_sub_cancel]
  have hk : (if i + 1 < cfg.total + 1 then i + 1 else cfg.total + 2) = copyAt cfg (i + 1) := by
    by_cases hlt : i + 1 ≤ cfg.total
    · rw [if_pos (by omega), copyAt, if_neg (by omega), if_pos hlt]
    · rw [if_neg (by omega), copyAt, if_neg (by omega), if_neg hlt]
  have hmem : i + 1 ∈ List.range' 1 (cfg.total + 1) :=
    mem_range'.mpr ⟨i, by omega, by omega⟩
  refine (Cond.eval_any x.holds x.accounted _).mpr ⟨_, mem_map_of_mem hmem, ?_⟩
  rw [hp, hk]
  refine (Cond.eval_all x.holds x.accounted _).mpr ?_
  intro t ht
  rcases mem_append.mp ht with ht | ht
  · obtain ⟨key, hkey, rfl⟩ := mem_map.mp ht
    exact isOld_test h x (hkeys key hkey) (hold key hkey)
  · rw [mem_singleton.mp ht]
    exact complete_test h x hzero hnew

end Emitted

/-- The conditions on a plan that the pruning adds. -/
structure Pruned (cfg : Config) (states : List (State Str)) : Prop where
  deletions : ∀ b ∈ states.head?, ∀ key ∈ cfg.freeDel, b key = true
  additions : ∃ b b', [b, b'] <:+: whole states ∧ (∀ key ∈ cfg.freeAdd, b key = false) ∧
    Complete cfg.resources b'

section Pruning

variable {unsatLists : List (List (Str × Bool))} {states : List (State Str)}

section

variable (hc : Components cfg) (hf : FreeSets cfg unsatLists)

include hc hf

theorem FreeSets.keys : ∀ key, key ∈ cfg.freeAdd ∨ key ∈ cfg.freeDel → key ∈ cfg.versions := by
  rintro key (hkey | hkey)
  · obtain ⟨r, hr, rfl⟩ := mem_map.mp ((hf.add key).mp hkey)
    exact hc.changed.subset (mem_map_of_mem (mem_filter.mp hr).1)
  · obtain ⟨r, hr, rfl⟩ := mem_map.mp ((hf.del key).mp hkey)
    exact hc.changed.subset (mem_map_of_mem (mem_filter.mp hr).1)

theorem pruned_pruned (hlength : (pruned cfg states).length = cfg.total) :
    Pruned cfg (pruned cfg states) where
  deletions := by
    intro b hb key hkey
    have hadd : decide (key ∈ cfg.freeAdd) = false :=
      decide_eq_false (hf.disjoint hc.distinct hkey)
    have hdel : decide (key ∈ cfg.freeDel) = true := decide_eq_true hkey
    have hfirst : ∀ c ∈ (pruned cfg states ++ [allNew]).head?, c key = true := by
      rw [pruned]
      apply deletions_first
      · exact hadd
      · exact hdel
    refine hfirst b ?_
    rw [head?_append_of_ne_nil]
    · exact hb
    · intro hnil
      have hnonempty := hc.nonempty
      rw [← hlength, hnil] at hnonempty
      cases hnonempty
  additions := by
    have hlast : ∃ c c', [c, c'] <:+: allOld :: (pruned cfg states ++ [allNew]) ∧
        (∀ key, decide (key ∈ cfg.freeAdd) = true → c key = false) ∧ Complete cfg.resources c' :=
      additions_last allOld (fun _ _ => rfl) states
    obtain ⟨b, b', hin, hb, hb'⟩ := hlast
    exact ⟨b, b', hin, fun key hkey => hb key (decide_eq_true hkey), hb'⟩

theorem Pruned.tests (hlength : states.length = cfg.total) (h : Pruned cfg states)
    {x : Execution cfg}
    (hx : Follows x states) (hzero : ∀ k ∈ cfg.copies, x.start (.curr k) = 0) :
    ∀ t ∈ freeTests cfg, t.eval x.holds x.accounted = true := by
  intro t ht
  rcases mem_append.mp ht with ht | ht
  · obtain ⟨key, hkey, rfl⟩ := mem_map.mp ht
    have hfirst : copyAt cfg 1 = 1 := by
      rw [copyAt, if_neg (by decide), if_pos hc.nonempty]
    obtain ⟨b, bs, rfl⟩ : ∃ b bs, states = b :: bs :=
      exists_cons_of_length_pos (hlength ▸ hc.nonempty)
    have hversion := hf.keys hc key (Or.inr hkey)
    rw [← hfirst]
    refine isNew_test hc x hversion ?_
    rw [hx 1 b rfl key hversion]
    exact h.deletions b rfl key hkey
  · rw [mem_singleton.mp ht]
    obtain ⟨b, b', hin, hb, hb'⟩ := h.additions
    obtain ⟨i, hi, hbi, hbi'⟩ := getElem?_of_infix hin
    have hadd : ∀ key ∈ cfg.freeAdd, key ∈ cfg.versions := fun key hkey =>
      hf.keys hc key (Or.inl hkey)
    refine freeAddTest_of_transition hc x hzero hadd (i := i) ?_ ?_ ?_
    · simp only [whole, length_cons, length_append, length_nil] at hi
      omega
    · intro key hkey
      rw [hx i b hbi key (hadd key hkey)]
      exact hb key hkey
    · intro r hr
      rw [hx (i + 1) b' hbi' r.1 (hc.changed.subset (mem_map_of_mem hr))]
      exact hb' r hr

end

/-- Every plan can be exchanged for one that the pruned search still finds, with the same
number of states and no less slack. -/
theorem pruning_loses_no_plan (hc : Components cfg) (hf : FreeSets cfg unsatLists)
    (hnew : ¬Covered (cores unsatLists) allNew) (h : Plan cfg (cores unsatLists) states) :
    ∃ states', Plan cfg (cores unsatLists) states' ∧ Pruned cfg states' ∧
      (∀ x : Execution cfg, Follows x states' → (∀ k ∈ cfg.copies, x.start (.curr k) = 0) →
        ∀ t ∈ freeTests cfg, t.eval x.holds x.accounted = true) ∧
      minSlack cfg.resources cfg.constraint allOld states ≤
        minSlack cfg.resources cfg.constraint allOld states' := by
  have hplan := pruned_plan hc hf hnew h
  have hpruned := pruned_pruned hc hf hplan.length
  exact ⟨pruned cfg states, hplan, hpruned,
    fun x hx hzero => hpruned.tests hc hf hplan.length hx hzero, pruned_slack hc hf h⟩

end Pruning

namespace FourComponents

/-- An addition, a deletion and two components of which the second must come first. -/
def config : Config where
  resources := [("version_x".toList, 3, 0), ("version_y".toList, 0, 2), ("version_z".toList, 1, 1),
    ("version_w".toList, 1, 2)]
  versions := ["version_x".toList, "version_y".toList, "version_z".toList, "version_w".toList]
  versionList := ["version_x".toList, "version_y".toList, "version_z".toList, "version_w".toList]
  freeAdd := ["version_y".toList]
  freeDel := ["version_x".toList]
  constraint := 5
  total := 2
  incremental := false
  marco := .evaluate
  mode := .synthesis

def learned : List (List (Str × Bool)) :=
  [[("version.version_z_0".toList, true), ("version.version_w_0".toList, false)]]

def states : List (State Str) :=
  [fun key => key = "version_y".toList || key = "version_w".toList,
    fun key => key ≠ "version_x".toList]

theorem components : Components config :=
  ⟨rfl, by decide, by decide, List.Perm.refl _, by decide⟩

theorem freeSets : FreeSets config learned := by
  have hadd : config.freeAdd =
      freeAddSet config.resources (constrainedSet (constrainedVariables learned)) := by
        decide +kernel
  have hdel : config.freeDel =
      freeDelSet config.resources (constrainedSet (constrainedVariables learned)) := by
        decide +kernel
  exact ⟨fun key => by rw [← hadd], fun key => by rw [← hdel]⟩

theorem new_avoids : ¬Covered (cores learned) allNew := by
  unfold Covered CoreLearning.Extends
  decide +kernel

theorem plan : Plan config (cores learned) states where
  length := rfl
  transitions := by
    have hstep : ∀ b b' : State Str, (∀ e ∈ config.resources, b e.1 = true → b' e.1 = true) →
        (∃ e ∈ config.resources, b e.1 = false ∧ b' e.1 = true) →
        (demand config.resources b b' : ℤ) ≤ freeRoom config.resources config.constraint b →
        Transition config b b' := fun _ _ hg hl hf => ⟨hg, Or.inl hl, hf⟩
    refine .cons_cons (hstep _ _ ?_ ?_ ?_) (.cons_cons (hstep _ _ ?_ ?_ ?_)
      (.cons_cons (hstep _ _ ?_ ?_ ?_) (.singleton _))) <;> decide +kernel
  avoids := by
    unfold Covered CoreLearning.Extends
    decide +kernel

end FourComponents

open FourComponents in
theorem late_deletion_moves_first :
    ¬Pruned config states ∧
    ∃ states', Plan config (cores learned) states' ∧ Pruned config states' ∧
      (∀ x : Execution config, Follows x states' → (∀ k ∈ config.copies, x.start (.curr k) = 0) →
        ∀ t ∈ freeTests config, t.eval x.holds x.accounted = true) ∧
      minSlack config.resources config.constraint allOld states ≤
        minSlack config.resources config.constraint allOld states' := by
  refine ⟨fun h => ?_, pruning_loses_no_plan components freeSets new_avoids plan⟩
  have hfirst := h.deletions _ rfl "version_x".toList mem_cons_self
  revert hfirst
  decide

end FreePruning
