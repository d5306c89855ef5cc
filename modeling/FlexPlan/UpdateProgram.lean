import FlexPlan.GuardedCommands
import FlexPlan.PythonText

/-!
# The instrumentation of `synthesizer_spec`

The emitted program runs one copy of the P4 logic for every state of an update plan, and two for the
old and the new program. Around them stands the accounting of resources, the tests of the plan and
the call of `bug()`. The pipeline writes none of the fields below, and the specification appears as
one atom per copy.
-/
namespace UpdateProgram

open PythonText GuardedCommands List

/-- The instrumented fields of a copy; `bug` records the call. -/
inductive Var where
  | resource (k : ℕ)
  | real (k : ℕ)
  | diff (k : ℕ)
  | curr (k : ℕ)
  | check (k : ℕ)
  | subviolation (k : ℕ)
  | violation (k : ℕ)
  | valid (k : ℕ)
  | version (k : ℕ) (key : Str)
  | bug
  deriving DecidableEq, Repr

def Var.owner : Var → Option ℕ
  | .resource k | .real k | .diff k | .curr k | .check k | .subviolation k | .violation k
  | .valid k | .version k _ => some k
  | .bug => none

abbrev Var.width : Var → ℕ
  | .resource _ | .real _ | .diff _ => 32
  | .curr _ => 8
  | _ => 1

/-- The user's violation condition, evaluated for one intermediate state. -/
structure SpecAtom where
  index : ℕ
  deriving DecidableEq, Repr

abbrev Memory := Store Var.width
abbrev Test := Cond Var.width SpecAtom
abbrev Code := Cmd Var.width SpecAtom
abbrev Word := Expr Var.width 32
abbrev Byte := Expr Var.width 8
abbrev Flag := Expr Var.width 1

abbrev resource (k : ℕ) : Word := .var (Var.resource k)
abbrev real (k : ℕ) : Word := .var (Var.real k)
abbrev diff (k : ℕ) : Word := .var (Var.diff k)
abbrev curr (k : ℕ) : Byte := .var (Var.curr k)
abbrev flag (v : Var) : Expr Var.width v.width := .var v
abbrev version (k : ℕ) (key : Str) : Flag := .var (Var.version k key)

inductive Mode where
  | synthesis
  | verify
  deriving DecidableEq, Repr

inductive Marco where
  | off
  | diagnosis
  | evaluate
  deriving DecidableEq, Repr

/-- The arguments and pickles `main` reads, with the resource file as a list of keys with
their old and new usage. -/
structure Config where
  resources : List (Str × ℕ × ℕ)
  versions : List Str
  versionList : List Str
  freeAdd : List Str
  freeDel : List Str
  constraint : ℕ
  total : ℕ
  incremental : Bool
  marco : Marco
  mode : Mode

namespace Config

variable (cfg : Config)

def totalChanges : ℕ := cfg.versions.length

/-- The entries whose key some item of `version_list` contains. -/
def counted : List (Str × ℕ × ℕ) := cfg.resources.filter fun r => cfg.versionList.any (isIn r.1)

def counting (k : ℕ) (r : Str × ℕ × ℕ) : Code :=
  .ifThen (.eq (version k r.1) (.lit 1)) <| .block [
    .set (.resource k) (.add (resource k) (.lit r.2.2)),
    .set (.curr k) (.add (curr k) (.lit 1)),
    .set (.real k) (.sub (.add (real k) (.lit r.2.1)) (.lit r.2.2))]

def copyCode (k : ℕ) : Code :=
  .block <| [.set (.check k) (.lit 0), .set (.real k) (.lit cfg.constraint),
      .set (.valid k) (.lit 1)] ++
    cfg.versions.map (fun key => .havoc (.version k key)) ++
    if cfg.mode = .synthesis then cfg.counted.map (counting k) else []

def copies : List ℕ := [cfg.total + 1, cfg.total + 2] ++ List.range' 1 cfg.total

/-- The room that is left while the plan goes from copy `p` to copy `k`. -/
def slack (p k : ℕ) : Word :=
  .add (.sub (real p) (resource k)) (resource p)

def minimize (p k : ℕ) : Code :=
  .ifThen (.lt (slack p k) (diff 1)) (.set (.diff 1) (slack p k))

def diffCode : List Code :=
  if cfg.mode = .synthesis then
    [.set (.diff 1) (.lit 1000000)] ++
    (List.range' 1 cfg.total).flatMap (fun index =>
      if index = 1 then if cfg.incremental then [] else [minimize (cfg.total + 1) index]
      else [minimize (index - 1) index]) ++
    if cfg.incremental then [] else [minimize cfg.total (cfg.total + 2)]
  else []

def markSub (k : ℕ) (c : Test) : Code := .ifThen c (.set (.subviolation k) (.lit 1))

def specCode : List Code :=
  (List.range' 1 cfg.total).map fun index => markSub index (.atom ⟨index⟩)

def complete (k : ℕ) : Test := .eq (curr k) (.lit cfg.totalChanges)

def fits (p k : ℕ) : Test :=
  .le (.sub (resource k) (resource p)) (real p)

def redundancy (p k : ℕ) : Test := .or (.le (slack p k) (diff 1)) (cfg.complete k)

def progress (p k : ℕ) : Test :=
  .or (.le (.lit 1) (.sub (curr k) (curr p))) (cfg.complete k)

def isOld (k : ℕ) (key : Str) : Test := .eq (version k key) (.lit 0)

def isNew (k : ℕ) (key : Str) : Test := .eq (version k key) (.lit 1)

/-- All free additions happen in the transition that completes the update. -/
def freeAddTest : Test :=
  .any <| (List.range' 1 (cfg.total + 1)).map fun i => .all <|
    cfg.freeAdd.map (isOld (if i = 1 then cfg.total + 1 else i - 1)) ++
    [cfg.complete (if i < cfg.total + 1 then i else cfg.total + 2)]

def stepTests (index : ℕ) : List Test :=
  (if cfg.marco = .diagnosis then
    if index = 2 then [cfg.redundancy (cfg.total + 1) index]
    else if index > 2 then [cfg.redundancy (index - 2) index] else []
  else []) ++
  if index = 1 then
    (if cfg.incremental then [] else [fits (cfg.total + 1) index]) ++
    if cfg.marco = .diagnosis ∨ cfg.marco = .evaluate then
      cfg.freeDel.map (isNew 1) ++ [cfg.freeAddTest]
    else []
  else [fits (index - 1) index]

def currCond1 : List Test :=
  (List.range' 1 cfg.total).flatMap cfg.stepTests ++
  (if cfg.incremental then [] else
    [fits cfg.total (cfg.total + 2), .le (.lit 0) (real (cfg.total + 2))] ++
    if cfg.marco = .diagnosis then [cfg.redundancy (cfg.total - 1) (cfg.total + 2)] else []) ++
  if cfg.mode = .synthesis then [.lt (.lit 0) (diff 1)] else []

def currCond2 : List Test :=
  (List.range' 1 cfg.total).flatMap (fun index =>
    if index = 1 then if cfg.incremental then [] else [cfg.progress (cfg.total + 1) index]
    else [cfg.progress (index - 1) index]) ++
  if cfg.incremental then [] else [cfg.progress cfg.total (cfg.total + 2)]

/-- Some component is new in copy `p` and old again in copy `k`. -/
def fallsBack (p k : ℕ) : Test :=
  .any <| cfg.versions.map fun key => .lt (version k key) (version p key)

def fallbackTests : List Test :=
  if cfg.mode = .synthesis then
    (List.range' 1 cfg.total).map (fun index =>
      cfg.fallsBack (if index = 1 then cfg.total + 1 else index - 1) index) ++
    [cfg.fallsBack cfg.total (cfg.total + 2)]
  else []

def violationCode : Code :=
  .ifThen (.any <| (List.range' 1 cfg.total).map fun k => .eq (flag (.subviolation k)) (.lit 1))
    (.set (.violation 1) (.lit 1))

def bugCode : Code :=
  match cfg.mode with
  | .synthesis =>
    .ifThen (.and (.eq (flag (.valid 1)) (.lit 1)) (.eq (flag (.violation 1)) (.lit 0))) <|
      .ifThen (.all cfg.currCond1) <| .ifThen (.all cfg.currCond2) <| .set .bug (.lit 1)
  | .verify =>
    .ifThen (.and (.eq (flag (.valid 1)) (.lit 1)) (.eq (flag (.violation 1)) (.lit 1))) <|
      .set .bug (.lit 1)

/-- The copies with their accounting, up to the first test of the plan. -/
def accounting : Code := .block (cfg.copies.map cfg.copyCode ++ cfg.diffCode)

def verdict : Code :=
  .block (cfg.specCode ++ cfg.fallbackTests.map (markSub 1) ++ [cfg.violationCode, cfg.bugCode])

def program : Code := .seq cfg.accounting cfg.verdict

section Effects

variable {cfg}

theorem counting_writes (h : (counting k r).Writes v) :
    v = .resource k ∨ v = .curr k ∨ v = .real k := by
  simpa [counting, Cmd.Writes] using h

theorem copyCode_writes (h : (cfg.copyCode k).Writes v) : v.owner = some k := by
  rw [copyCode, Cmd.writes_block] at h
  obtain ⟨c, hc, hw⟩ := h
  rcases mem_append.mp hc with hc | hc
  · rcases mem_append.mp hc with hc | hc
    · simp only [mem_cons, not_mem_nil, or_false] at hc
      rcases hc with rfl | rfl | rfl <;> cases hw <;> rfl
    · obtain ⟨key, -, rfl⟩ := mem_map.mp hc
      cases hw
      rfl
  · split_ifs at hc
    · obtain ⟨r, -, rfl⟩ := mem_map.mp hc
      rcases counting_writes hw with rfl | rfl | rfl <;> rfl
    · cases hc

theorem mem_diffCode (h : c ∈ cfg.diffCode) :
    c = .set (.diff 1) (.lit 1000000) ∨ ∃ p k, c = minimize p k := by
  unfold diffCode at h
  by_cases hmode : cfg.mode = .synthesis
  · rw [if_pos hmode] at h
    rcases mem_append.mp h with h | h
    · rcases mem_append.mp h with h | h
      · exact Or.inl (mem_singleton.mp h)
      · obtain ⟨index, -, hc⟩ := mem_flatMap.mp h
        right
        split_ifs at hc
        · cases hc
        · exact ⟨_, _, mem_singleton.mp hc⟩
        · exact ⟨_, _, mem_singleton.mp hc⟩
    · right
      split_ifs at h
      · cases h
      · exact ⟨_, _, mem_singleton.mp h⟩
  · rw [if_neg hmode] at h
    cases h

theorem diffCode_writes (h : (Cmd.block cfg.diffCode).Writes v) : v = .diff 1 := by
  rw [Cmd.writes_block] at h
  obtain ⟨c, hc, hw⟩ := h
  rcases mem_diffCode hc with rfl | ⟨p, k, rfl⟩
  · exact hw
  · exact hw

variable (holds : SpecAtom → Bool) (oracle : Memory) {σ : Memory} {ms : List (ℕ × Test)}

theorem accounting_keeps (hv : v = .bug ∨ ∃ k, v = .violation k ∨ v = .subviolation k) :
    cfg.accounting.exec holds oracle σ v = σ v := by
  apply Cmd.exec_frame
  rw [accounting, Cmd.writes_block]
  rintro ⟨c, hc, hw⟩
  rcases mem_append.mp hc with hc | hc
  · obtain ⟨k, -, rfl⟩ := mem_map.mp hc
    unfold copyCode at hw
    rcases hv with rfl | ⟨j, rfl | rfl⟩ <;> split_ifs at hw <;>
      simp [counting, Cmd.Writes, or_and_right, exists_or] at hw
  · obtain rfl := diffCode_writes (Cmd.writes_block.mpr ⟨c, hc, hw⟩)
    simp at hv

/-- No flag is set before the verdict. -/
structure Clear (cfg : Config) (σ : Memory) : Prop where
  bug : σ .bug = 0
  violation : σ (.violation 1) = 0
  subviolation : ∀ k ∈ range' 1 cfg.total, σ (.subviolation k) = 0

/-- The flags that the verdict sets, each with its test. -/
def marks (cfg : Config) : List (ℕ × Test) :=
  (range' 1 cfg.total).map (fun k => (k, .atom ⟨k⟩)) ++ cfg.fallbackTests.map (Prod.mk 1)

def mark (ms : List (ℕ × Test)) (σ : Memory) : Memory :=
  ms.foldl (fun σ m => (markSub m.1 m.2).exec holds oracle σ) σ

/-- The store that `bug()` sees. -/
def flagged (cfg : Config) (σ : Memory) : Memory :=
  cfg.violationCode.exec holds oracle (mark holds oracle cfg.marks σ)

theorem verdict_exec : cfg.verdict.exec holds oracle σ =
    cfg.bugCode.exec holds oracle (cfg.flagged holds oracle σ) := by
  have hblock : ∀ (ms : List (ℕ × Test)) (σ : Memory),
      (Cmd.block (ms.map fun m => markSub m.1 m.2)).exec holds oracle σ =
        mark holds oracle ms σ := by
    intro ms
    induction ms with
    | nil => exact fun σ => rfl
    | cons m ms ih => exact fun σ => ih _
  have hcode : cfg.verdict =
      .block ((cfg.marks.map fun m => markSub m.1 m.2) ++ [cfg.violationCode, cfg.bugCode]) := by
    simp [verdict, specCode, marks, Function.comp_def]
  rw [hcode, Cmd.exec_block_append, hblock]
  rfl

theorem mark_keeps (h : σ (.subviolation k) = 1) :
    mark holds oracle ms σ (.subviolation k) = 1 := by
  refine foldlRecOn (motive := fun σ : Memory => σ (.subviolation k) = 1) ms _ h fun σ h m _ => ?_
  simp only [markSub, Cmd.exec]
  split_ifs
  · obtain rfl | hk := eq_or_ne k m.1
    · exact Function.update_self _ _ _
    · exact (Function.update_of_ne (fun he => hk (Var.subviolation.inj he)) _ _).trans h
  · exact h

/-- Nothing is marked, or a mark stays. -/
theorem mark_cases (ms : List (ℕ × Test)) :
    (∀ m ∈ ms, m.2.eval holds σ = false) ∧ mark holds oracle ms σ = σ ∨
    (∃ m ∈ ms, m.2.eval holds σ = true) ∧
      ∃ m ∈ ms, mark holds oracle ms σ (.subviolation m.1) = 1 := by
  induction ms with
  | nil => exact Or.inl ⟨forall_mem_nil _, rfl⟩
  | cons m ms ih =>
    rw [mark, foldl_cons, exists_mem_cons_iff, exists_mem_cons_iff, forall_mem_cons]
    cases hfire : m.2.eval holds σ with
    | true =>
      refine Or.inr ⟨Or.inl rfl, Or.inl (mark_keeps holds oracle ?_)⟩
      rw [markSub, Cmd.exec, if_pos hfire]
      exact Function.update_self _ _ _
    | false =>
      rw [markSub, Cmd.exec, if_neg (Bool.eq_false_iff.mp hfire)]
      exact ih.imp (fun h => ⟨⟨rfl, h.1⟩, h.2⟩) fun h => ⟨Or.inr h.1, Or.inr h.2⟩

theorem flagged_frame (hv : v ≠ .violation 1) (hs : ∀ k, v ≠ .subviolation k) :
    cfg.flagged holds oracle σ v = σ v := by
  refine (Cmd.exec_frame holds oracle cfg.violationCode _ hv).trans ?_
  exact foldlRecOn (motive := fun τ : Memory => τ v = σ v) _ _ rfl
    fun τ h m _ => (Cmd.exec_frame _ _ (markSub m.1 m.2) _ (hs m.1)).trans h

/-- No test holds and nothing changes, or one holds and the violation is set. -/
theorem flagged_cases (htotal : 1 ≤ cfg.total)
    (hclear : ∀ k ∈ range' 1 cfg.total, σ (.subviolation k) = 0) :
    (∀ m ∈ cfg.marks, m.2.eval holds σ = false) ∧ cfg.flagged holds oracle σ = σ ∨
    (∃ m ∈ cfg.marks, m.2.eval holds σ = true) ∧ cfg.flagged holds oracle σ (.violation 1) = 1 := by
  rcases mark_cases holds oracle cfg.marks with ⟨hall, hsame⟩ | ⟨hfire, m, hm, hone⟩
  · refine Or.inl ⟨hall, ?_⟩
    rw [flagged, hsame]
    refine if_neg fun h => ?_
    obtain ⟨t, ht, hone⟩ := (Cond.eval_any holds σ _).mp h
    obtain ⟨k, hk, rfl⟩ := mem_map.mp ht
    cases (hclear k hk).symm.trans (of_decide_eq_true hone)
  · refine Or.inr ⟨hfire, ?_⟩
    have hk : m.1 ∈ range' 1 cfg.total := by
      rcases mem_append.mp hm with hm | hm
      · obtain ⟨k, hk, rfl⟩ := mem_map.mp hm
        exact hk
      · obtain ⟨t, -, rfl⟩ := mem_map.mp hm
        exact mem_range'.mpr ⟨0, htotal, rfl⟩
    rw [flagged, violationCode, Cmd.exec, if_pos]
    · exact Function.update_self _ _ _
    · exact (Cond.eval_any holds _ _).mpr ⟨_, mem_map_of_mem hk, decide_eq_true hone⟩

/-- The guards of `bug()` in both modes. -/
theorem bugCode_exec (hbug : σ .bug = 0) (hvalid : σ (.valid 1) = 1) :
    cfg.bugCode.exec holds oracle σ .bug = 1 ↔ match cfg.mode with
      | .synthesis => σ (.violation 1) = 0 ∧ (Cond.all cfg.currCond1).eval holds σ = true ∧
          (Cond.all cfg.currCond2).eval holds σ = true
      | .verify => σ (.violation 1) = 1 := by
  have hguard : ∀ n, (Cond.and (.eq (flag (.valid 1)) (.lit 1))
      (.eq (flag (.violation 1)) (.lit n)) : Test).eval holds σ = true ↔
      σ (.violation 1) = .ofNat 1 n := by
    intro n
    rw [Cond.eval, Bool.and_eq_true]
    exact (and_congr decide_eq_true_iff decide_eq_true_iff).trans (and_iff_right hvalid)
  rw [bugCode]
  cases cfg.mode <;> simp only [Cmd.exec, hguard] <;> split_ifs <;> simp_all [Expr.eval]

end Effects

end Config

end UpdateProgram
