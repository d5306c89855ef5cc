import FlexPlan.SelectEdges
import FlexPlan.CfgAlgos

/-!
# Branches as assumptions

`push_ifs` leads every edge of an if statement or a select through a fresh node with the condition
of that edge. The new graph has no critical edges. Its executions, with the new nodes read as
assumptions, are those of the graph.
-/
namespace PushIfs

open FlowGraph CfgAlgos SelectEdges PythonText List

variable {Loc ν μ ι : Type} {O : Operators} {ty : Loc → Ty}

inductive Instr (ι : Type) (O : Operators) (ty : Loc → Ty) where
  | ifStatement (condition : Expr O ty .bool)
  | select (s : SelectExpression O ty)
  | emptyStatement
  | other (i : ι)

structure Cfg (ν ι : Type) (O : Operators) (ty : Loc → Ty) where
  holder : EdgeHolder ν
  start : ν
  node : ν → Instr ι O ty

section Semantics

/-- What the instructions that are no branches do to the store. None of them blocks. -/
structure Effects (ι : Type) (ty : Loc → Ty) where
  run : ι → Store ty → Store ty → Prop
  total : ∀ i σ, ∃ τ, run i σ τ

def Instr.Effect (effect : Effects ι ty) : Instr ι O ty → Store ty → Store ty → Prop
  | .other i, σ, τ => effect.run i σ τ
  | _, σ, τ => τ = σ

def branches : Instr ι O ty → Store ty → ℤ → Prop
  | .ifStatement c, σ, label => c.eval σ = decide (label ≠ 0)
  | .select s, σ, label => ∃ i : ℕ, label = i ∧ s.next σ = some i
  | _, _, _ => True

def passes : Instr ι O ty → Store ty → ℤ → Prop
  | .select s, σ, label => ∃ i : ℕ, label = i ∧ s.passing σ = some i
  | n, σ, label => branches n σ label

def assumes : Instr ι O ty → Store ty → ℤ → Prop
  | .ifStatement c, σ, _ => c.eval σ = true
  | n, σ, label => branches n σ label

/-- An execution from a node to a node without successors: the nodes with the stores they are
entered with, and the last store. -/
inductive Executes (effect : Effects ι ty) (takes : Instr ι O ty → Store ty → ℤ → Prop)
    (G : Cfg ν ι O ty) : ν → Store ty → List (ν × Store ty) → Store ty → Prop where
  | stop {n : ν} {σ τ : Store ty} (h : G.holder.neighbors n = [])
    (heffect : (G.node n).Effect effect σ τ) : Executes effect takes G n σ [(n, σ)] τ
  | step {n m : ν} {label : ℤ} {σ τ ρ : Store ty} {trace : List (ν × Store ty)}
    (hedge : (m, label) ∈ G.holder.neighbors n) (htakes : takes (G.node n) σ label)
    (heffect : (G.node n).Effect effect σ τ) (hrest : Executes effect takes G m τ trace ρ) :
    Executes effect takes G n σ ((n, σ) :: trace) ρ

end Semantics

section Source

variable [DecidableEq μ]

/-- Keys and targets of edges are replaced; a later key overwrites an earlier one. -/
def gmap (h : EdgeHolder ν) (f : ν → μ) : EdgeHolder μ where
  keys := (h.keys.map f).dedup
  neighbors m := (h.keys.reverse.find? fun n => decide (f n = m)).elim [] fun n =>
    (h.neighbors n).map fun e => (f e.1, e.2)
  outside m hm := by
    have hnone : (h.keys.reverse.find? fun n => decide (f n = m)) = none := by
      rw [find?_eq_none]
      intro n hn heq
      refine hm (mem_dedup.mpr (mem_map.mpr ⟨n, mem_reverse.mp hn, ?_⟩))
      exact of_decide_eq_true heq
    rw [hnone]
    rfl

/-- The nodes while edges are redirected. -/
inductive Staged (ν : Type) where
  | original (n : ν)
  | condition (n : ν) (j : ℕ)
  deriving DecidableEq

/-- The nodes of the result. A condition belongs to a branch and has an index there. -/
inductive Pushed (ν : Type) where
  | kept (n : ν)
  | empty (n : ν)
  | condition (n : ν) (j : ℕ)
  deriving DecidableEq

def Instr.isBranch : Instr ι O ty → Bool
  | .ifStatement _ | .select _ => true
  | _ => false

namespace Cfg

variable (G : Cfg ν ι O ty)

/-- The node `iffnode` has index 1 and `nifnode` index 0. -/
def ifIndex (label : ℤ) : ℕ := if label ≠ 0 then 1 else 0

def redirected (n : ν) : List (Staged ν × ℤ) :=
  match G.node n with
  | .ifStatement _ => (G.holder.neighbors n).map fun e => (.condition n (ifIndex e.2), e.2)
  | .select _ => (G.holder.neighbors n).zipIdx.map fun e => (.condition n e.2, e.1.2)
  | _ => (G.holder.neighbors n).map fun e => (.original e.1, e.2)

def extra (n : ν) (j : ℕ) : List (Staged ν × ℤ) :=
  match G.node n with
  | .ifStatement _ =>
    ((G.holder.neighbors n).filter fun e => ifIndex e.2 = j).map fun e => (.original e.1, 1)
  | .select _ => (G.holder.neighbors n)[j]?.toList.map fun e => (.original e.1, 1)
  | _ => []

def indices (n : ν) : List ℕ :=
  match G.node n with
  | .ifStatement _ => [1, 0]
  | .select _ => List.range (G.holder.neighbors n).length
  | _ => []

theorem mem_indices_of_extra (h : G.extra n j ≠ []) : n ∈ G.holder.keys ∧ j ∈ G.indices n := by
  constructor
  · by_contra hkey
    apply h
    unfold extra
    rw [G.holder.outside n hkey]
    cases G.node n <;> rfl
  · unfold extra at h
    unfold indices
    cases hnode : G.node n with
    | ifStatement c =>
      rw [hnode] at h
      obtain ⟨e, he⟩ := exists_mem_of_ne_nil _ h
      obtain ⟨e', he', -⟩ := mem_map.mp he
      have hj : ifIndex e'.2 = j := of_decide_eq_true (mem_filter.mp he').2
      show j ∈ [1, 0]
      rw [← hj, ifIndex]
      by_cases hlabel : e'.2 = 0 <;> simp [hlabel]
    | select s =>
      rw [hnode] at h
      refine mem_range.mpr ?_
      by_contra hlt
      rw [getElem?_eq_none (by omega)] at h
      exact h rfl
    | emptyStatement | other i =>
      rw [hnode] at h
      exact absurd rfl h

def staged : EdgeHolder (Staged ν) where
  keys := G.holder.keys.map .original ++
    (G.holder.keys.flatMap fun n => ((G.indices n).filter fun j => G.extra n j ≠ []).map
      (.condition n))
  neighbors
    | .original n => G.redirected n
    | .condition n j => G.extra n j
  outside x hx := by
    rw [mem_append, not_or] at hx
    cases x with
    | original n =>
      have hkey : n ∉ G.holder.keys := fun hn => hx.1 (mem_map_of_mem hn)
      show G.redirected n = []
      unfold redirected
      rw [G.holder.outside n hkey]
      cases G.node n <;> rfl
    | condition n j =>
      by_contra hextra
      obtain ⟨hkey, hj⟩ := G.mem_indices_of_extra hextra
      refine hx.2 (mem_flatMap.mpr ⟨n, hkey, mem_map_of_mem ?_⟩)
      exact mem_filter.mpr ⟨hj, decide_eq_true hextra⟩

variable [DecidableEq ν]

def ifreplace : Staged ν → Pushed ν
  | .original n => if n ∈ G.holder.keys ∧ (G.node n).isBranch = true then .empty n else .kept n
  | .condition n j => .condition n j

def conditionOf (n : ν) (j : ℕ) : Option (Expr O ty .bool) :=
  match G.node n with
  | .ifStatement c => some (if j = 1 then c else .lnot c)
  | .select s => (G.holder.neighbors n)[j]?.bind fun e => computeExpression s e.2.toNat
  | _ => none

def computable : Bool :=
  G.holder.keys.all fun n =>
    match G.node n with
    | .select s => (G.holder.neighbors n).all fun e => (computeExpression s e.2.toNat).isSome
    | _ => true

def pushed : Cfg (Pushed ν) ι O ty where
  holder := gmap G.staged G.ifreplace
  start := G.ifreplace (.original G.start)
  node
    | .kept n => G.node n
    | .empty _ => .emptyStatement
    | .condition n j => (G.conditionOf n j).elim .emptyStatement .ifStatement

end Cfg

def pushIfs [DecidableEq ν] (G : Cfg ν ι O ty) : Option (Cfg (Pushed ν) ι O ty) :=
  if G.computable then some G.pushed else none

end Source

section Statement

/-- An acyclic graph whose branches have one edge for each outcome, a select one for each case, the
last of which is the default. -/
structure WellFormed (G : Cfg ν ι O ty) : Prop where
  acyclic : Acyclic G.holder.succs
  single : ∀ n, (G.node n).isBranch = false → (G.holder.neighbors n).length ≤ 1
  ifs : ∀ n c, G.node n = .ifStatement c →
    ∃ t f label, label ≠ 0 ∧ (G.holder.neighbors n).Perm [(t, label), (f, 0)]
  selects : ∀ n s, G.node n = .select s →
    ((G.holder.neighbors n).map Prod.snd).Perm ((List.range s.selectCases.length).map Int.ofNat) ∧
      ∃ c, s.selectCases.getLast? = some c ∧ c.keyset.isDefault = true

def visible (trace : List (Pushed ν × Store ty)) : List (ν × Store ty) :=
  trace.filterMap fun
    | (.kept n, σ) | (.empty n, σ) => some (n, σ)
    | (.condition _ _, _) => none

def SameExecutions (effect : Effects ι ty) (G : Cfg ν ι O ty)
    (H : Cfg (Pushed ν) ι O ty) : Prop :=
  ∀ σ trace ρ, Executes effect branches G G.start σ trace ρ ↔
    ∃ trace', Executes effect assumes H H.start σ trace' ρ ∧ visible trace' = trace

/-- Every select of the graph has a formula for each of its cases. -/
def NoRanges (G : Cfg ν ι O ty) : Prop :=
  ∀ n s, G.node n = .select s → ∀ c ∈ s.selectCases, c.keyset.supported = true

/-- Whenever an execution comes to a select, its first matching case leads where the first
matching case without values outside their masks leads. -/
def MasksHarmless (effect : Effects ι ty) (G : Cfg ν ι O ty) : Prop :=
  ∀ σ trace ρ, Executes effect branches G G.start σ trace ρ → ∀ n τ, (n, τ) ∈ trace →
    ∀ s, G.node n = .select s → ∀ i j : ℕ, s.next τ = some i → s.passing τ = some j →
      ∀ m, (m, (i : ℤ)) ∈ G.holder.neighbors n ↔ (m, (j : ℤ)) ∈ G.holder.neighbors n

end Statement

section Neighbors

theorem neighbors_gmap [DecidableEq μ] (h : EdgeHolder ν) {f : ν → μ}
    (hf : Function.Injective f) (n : ν) :
    (gmap h f).neighbors (f n) = (h.neighbors n).map fun e => (f e.1, e.2) := by
  show (h.keys.reverse.find? fun k => decide (f k = f n)).elim [] _ = _
  cases hfind : h.keys.reverse.find? fun k => decide (f k = f n) with
  | none =>
    have hkey : n ∉ h.keys := fun hn =>
      find?_eq_none.mp hfind n (mem_reverse.mpr hn) (decide_eq_true rfl)
    rw [h.outside n hkey]
    rfl
  | some k =>
    have hk : f k = f n := by simpa using find?_some hfind
    rw [hf hk]
    rfl

theorem exists_of_neighbors_gmap [DecidableEq μ] {f : ν → μ}
    (he : e ∈ (gmap h f).neighbors m) : ∃ n, m = f n := by
  change e ∈ (h.keys.reverse.find? fun k => decide (f k = m)).elim [] _ at he
  cases hfind : h.keys.reverse.find? fun k => decide (f k = m) with
  | none =>
    rw [hfind] at he
    cases he
  | some k =>
    have hk : f k = m := by simpa using find?_some hfind
    exact ⟨k, hk.symm⟩

variable {G : Cfg ν ι O ty} {n : ν} {e : ν × ℤ}

theorem label_of_select (h : WellFormed G) (hnode : G.node n = .select s)
    (he : e ∈ G.holder.neighbors n) : ∃ i < s.selectCases.length, e.2 = (i : ℤ) := by
  have hmem := (h.selects n s hnode).1.mem_iff.mp (mem_map_of_mem he)
  obtain ⟨i, hi, heq⟩ := mem_map.mp hmem
  exact ⟨i, mem_range.mp hi, heq.symm⟩

variable [DecidableEq ν]

def Pushed.staged : Pushed ν → Staged ν
  | .kept n | .empty n => .original n
  | .condition n j => .condition n j

theorem ifreplace_injective (G : Cfg ν ι O ty) : Function.Injective G.ifreplace := by
  refine Function.LeftInverse.injective (g := Pushed.staged) fun x => ?_
  cases x with
  | condition n j => rfl
  | original n =>
    simp only [Cfg.ifreplace]
    split <;> rfl

abbrev Cfg.image (G : Cfg ν ι O ty) (n : ν) : Pushed ν := G.ifreplace (.original n)

theorem neighbors_image (n : ν) : G.pushed.holder.neighbors (G.image n) =
    (G.redirected n).map fun e => (G.ifreplace e.1, e.2) :=
  neighbors_gmap G.staged (ifreplace_injective G) (.original n)

theorem neighbors_condition (n : ν) (j : ℕ) : G.pushed.holder.neighbors (.condition n j) =
    (G.extra n j).map fun e => (G.ifreplace e.1, e.2) :=
  neighbors_gmap G.staged (ifreplace_injective G) (.condition n j)

theorem mem_keys_of_branch (h : WellFormed G) (hn : (G.node n).isBranch = true) :
    n ∈ G.holder.keys := by
  by_contra hkey
  have hnil := G.holder.outside n hkey
  cases hnode : G.node n with
  | ifStatement c =>
    obtain ⟨t, f, label, -, hperm⟩ := h.ifs n c hnode
    rw [hnil] at hperm
    cases hperm.nil_eq
  | select s =>
    obtain ⟨hperm, c, hlast, -⟩ := h.selects n s hnode
    rw [hnil] at hperm
    have hlength := hperm.length_eq
    simp only [map_nil, length_nil, length_map, length_range] at hlength
    rw [length_eq_zero_iff.mp hlength.symm] at hlast
    cases hlast
  | emptyStatement | other i =>
    rw [hnode] at hn
    cases hn

theorem image_of_branch (h : WellFormed G) (hn : (G.node n).isBranch = true) :
    G.image n = .empty n :=
  if_pos ⟨mem_keys_of_branch h hn, hn⟩

theorem image_of_plain (hn : (G.node n).isBranch = false) : G.image n = .kept n := by
  refine if_neg fun hb => ?_
  rw [hn] at hb
  cases hb.2

theorem neighbors_of_plain (hn : (G.node n).isBranch = false) :
    G.pushed.holder.neighbors (G.image n) = (G.holder.neighbors n).map fun e =>
      (G.image e.1, e.2) := by
  rw [neighbors_image, Cfg.redirected]
  cases hnode : G.node n with
  | ifStatement c | select s =>
    rw [hnode] at hn
    cases hn
  | emptyStatement | other i => simp only [map_map, Function.comp_def]

/-- A condition node of an edge: it leads where the edge led, under the condition of the edge. -/
structure Guards (G : Cfg ν ι O ty) (n : ν) (e : ν × ℤ) (x : Pushed ν) : Prop where
  index : ∃ j, x = .condition n j
  target : G.pushed.holder.neighbors x = [(G.image e.1, 1)]
  condition : ∃ f, G.pushed.node x = .ifStatement f ∧ ∀ σ, f.eval σ = true ↔ passes (G.node n) σ e.2

theorem guards_of_if (h : WellFormed G) (hnode : G.node n = .ifStatement c)
    (he : e ∈ G.holder.neighbors n) : Guards G n e (.condition n (Cfg.ifIndex e.2)) := by
  obtain ⟨t, f, label, hlabel, hperm⟩ := h.ifs n c hnode
  -- each of the two conditions belongs to one edge
  have honly : (G.holder.neighbors n).filter
      (fun e' => Cfg.ifIndex e'.2 = Cfg.ifIndex e.2) = [e] := by
    refine perm_singleton.mp ((hperm.filter _).trans ?_)
    rcases mem_cons.mp (hperm.mem_iff.mp he) with rfl | he
    · simp [Cfg.ifIndex, hlabel]
    · cases mem_singleton.mp he
      simp [Cfg.ifIndex, hlabel]
  refine ⟨⟨_, rfl⟩, ?_, ?_⟩
  · simp only [neighbors_condition, Cfg.extra, hnode, honly, map_cons, map_nil]
  · refine ⟨if Cfg.ifIndex e.2 = 1 then c else .lnot c, ?_, fun σ => ?_⟩
    · simp only [Cfg.pushed, Cfg.conditionOf, hnode, Option.elim_some]
    · by_cases hzero : e.2 = 0
      · simp [Cfg.ifIndex, hnode, passes, branches, hzero, Expr.eval]
      · simp [Cfg.ifIndex, hnode, passes, branches, hzero]

theorem guards_of_select (h : WellFormed G) (hranges : NoRanges G) (hnode : G.node n = .select s)
    (he : (G.holder.neighbors n)[j]? = some e) : Guards G n e (.condition n j) := by
  obtain ⟨i, hi, hlabel⟩ := label_of_select h hnode (mem_of_getElem? he)
  obtain ⟨f, hf, heval⟩ := computeExpression_of_supported (hranges n s hnode) hi
  have hnat : e.2.toNat = i := by omega
  refine ⟨⟨_, rfl⟩, ?_, f, ?_, fun σ => ?_⟩
  · simp only [neighbors_condition, Cfg.extra, hnode, he, Option.toList_some, map_cons, map_nil]
  · simp only [Cfg.pushed, Cfg.conditionOf, hnode, he, Option.bind_some, hnat, hf, Option.elim_some]
  · rw [heval σ, hnode, hlabel]
    constructor
    · exact fun hpassing => ⟨i, rfl, hpassing⟩
    · rintro ⟨k, hk, hpassing⟩
      rw [hpassing, Int.ofNat.inj hk]

theorem forall₂_guards (h : WellFormed G) (hranges : NoRanges G) (hn : (G.node n).isBranch = true) :
    List.Forall₂ (fun e x => x.2 = e.2 ∧ Guards G n e x.1) (G.holder.neighbors n)
      (G.pushed.holder.neighbors (G.image n)) := by
  rw [neighbors_image, Cfg.redirected]
  cases hnode : G.node n with
  | ifStatement c =>
    simp only [map_map, forall₂_map_right_iff, forall₂_same]
    exact fun e he => ⟨rfl, guards_of_if h hnode he⟩
  | select s =>
    refine forall₂_iff_get.mpr ⟨by simp, fun j hj hj' => ?_⟩
    simp only [get_eq_getElem, getElem_map, getElem_zipIdx, Nat.zero_add]
    exact ⟨trivial, guards_of_select h hranges hnode (getElem?_eq_getElem hj)⟩
  | emptyStatement | other i =>
    rw [hnode] at hn
    cases hn

end Neighbors

section Executions

variable {effect : Effects ι ty} {takes : Instr ι O ty → Store ty → ℤ → Prop} {G : Cfg ν ι O ty}

variable {σ ρ : Store ty} {n : ν}

theorem executes_cases {trace : List (ν × Store ty)} (h : Executes effect takes G n σ trace ρ) :
    ∃ rest, trace = (n, σ) :: rest ∧
      ((rest = [] ∧ G.holder.neighbors n = [] ∧ (G.node n).Effect effect σ ρ) ∨
        ∃ m label τ, (m, label) ∈ G.holder.neighbors n ∧ takes (G.node n) σ label ∧
          (G.node n).Effect effect σ τ ∧ Executes effect takes G m τ rest ρ) := by
  cases h with
  | stop hstop heffect => exact ⟨[], rfl, Or.inl ⟨rfl, hstop, heffect⟩⟩
  | step hedge htakes heffect hrest =>
    exact ⟨_, rfl, Or.inr ⟨_, _, _, hedge, htakes, heffect, hrest⟩⟩

theorem effect_of_branch {i : Instr ι O ty} (h : i.isBranch = true) {σ τ : Store ty} :
    i.Effect effect σ τ ↔ τ = σ := by
  cases i with
  | ifStatement c | select s | emptyStatement => exact Iff.rfl
  | other i => cases h

theorem takes_of_plain (h : i.isBranch = false) (σ : Store ty) (label : ℤ) :
    assumes i σ label ∧ passes i σ label := by
  cases i with
  | ifStatement c | select s => cases h
  | emptyStatement | other i => exact ⟨trivial, trivial⟩

theorem visible_condition (n : ν) (j : ℕ) (σ : Store ty) (trace : List (Pushed ν × Store ty)) :
    visible ((.condition n j, σ) :: trace) = visible trace := rfl

variable [DecidableEq ν]

theorem visible_image (n : ν) (σ : Store ty) (trace : List (Pushed ν × Store ty)) :
    visible ((G.image n, σ) :: trace) = (n, σ) :: visible trace := by
  unfold Cfg.image Cfg.ifreplace
  dsimp only
  split <;> rfl

theorem node_of_plain (hn : (G.node n).isBranch = false) :
    G.pushed.node (G.image n) = G.node n := by
  rw [image_of_plain hn]
  rfl

theorem node_of_branch (h : WellFormed G) (hn : (G.node n).isBranch = true) :
    G.pushed.node (G.image n) = .emptyStatement := by
  rw [image_of_branch h hn]
  rfl

theorem executes_of_pushed (h : WellFormed G) (hranges : NoRanges G)
    {trace : List (Pushed ν × Store ty)} (hx : Executes effect assumes G.pushed x σ trace ρ) :
    (∀ n, x = G.image n → Executes effect passes G n σ (visible trace) ρ) ∧
      ∀ n e, Guards G n e x → passes (G.node n) σ e.2 ∧
        Executes effect passes G e.1 σ (visible trace) ρ := by
  induction hx with
  | @stop x σ τ hstop heffect =>
    constructor
    · rintro n rfl
      rw [visible_image]
      cases hn : (G.node n).isBranch with
      | false =>
        rw [neighbors_of_plain hn, map_eq_nil_iff] at hstop
        rw [node_of_plain hn] at heffect
        exact .stop hstop heffect
      | true =>
        have hguards := forall₂_guards h hranges hn
        rw [hstop, forall₂_nil_right_iff] at hguards
        rw [node_of_branch h hn] at heffect
        exact .stop hguards ((effect_of_branch hn).mpr heffect)
    · intro n e hguards
      rw [hguards.target] at hstop
      cases hstop
  | @step x y label σ τ ρ trace hedge htakes heffect hrest ih =>
    constructor
    · rintro n rfl
      rw [visible_image]
      cases hn : (G.node n).isBranch with
      | false =>
        rw [neighbors_of_plain hn] at hedge
        obtain ⟨e, he, heq⟩ := mem_map.mp hedge
        cases heq
        rw [node_of_plain hn] at heffect
        exact .step he (takes_of_plain hn σ e.2).2 heffect (ih.1 e.1 rfl)
      | true =>
        obtain ⟨e, he, hlabel, hguards⟩ :=
          (exists_of_forall₂ (forall₂_guards h hranges hn)).1 _ hedge
        obtain ⟨hpasses, hexec⟩ := ih.2 n e hguards
        rw [node_of_branch h hn] at heffect
        have hτ : τ = σ := heffect
        subst hτ
        exact .step he hpasses ((effect_of_branch hn).mpr rfl) hexec
    · intro n e hguards
      obtain ⟨⟨j, rfl⟩, htarget, f, hnode, heval⟩ := hguards
      rw [htarget] at hedge
      cases mem_singleton.mp hedge
      rw [hnode] at htakes heffect
      have hτ : τ = σ := heffect
      subst hτ
      rw [visible_condition]
      exact ⟨(heval τ).mp htakes, ih.1 e.1 rfl⟩

theorem pushed_of_executes (h : WellFormed G) (hranges : NoRanges G) {trace : List (ν × Store ty)}
    (hn : Executes effect passes G n σ trace ρ) :
    ∃ trace', Executes effect assumes G.pushed (G.image n) σ trace' ρ ∧ visible trace' = trace := by
  induction hn with
  | @stop n σ τ hstop heffect =>
    refine ⟨[(G.image n, σ)], .stop ?_ ?_, visible_image n σ []⟩
    · cases hn : (G.node n).isBranch with
      | false => rw [neighbors_of_plain hn, hstop, map_nil]
      | true =>
        have hguards := forall₂_guards h hranges hn
        rwa [hstop, forall₂_nil_left_iff] at hguards
    · cases hn : (G.node n).isBranch with
      | false => rwa [node_of_plain hn]
      | true =>
        rw [node_of_branch h hn]
        exact (effect_of_branch hn).mp heffect
  | @step n m label σ τ ρ trace hedge htakes heffect hrest ih =>
    obtain ⟨trace', hexec, hvisible⟩ := ih
    cases hn : (G.node n).isBranch with
    | false =>
      have hedge' : (G.image m, label) ∈ G.pushed.holder.neighbors (G.image n) := by
        rw [neighbors_of_plain hn]
        exact mem_map.mpr ⟨_, hedge, rfl⟩
      refine ⟨(G.image n, σ) :: trace', .step hedge' ?_ ?_ hexec, by rw [visible_image, hvisible]⟩
      · rw [node_of_plain hn]
        exact (takes_of_plain hn σ label).1
      · rwa [node_of_plain hn]
    | true =>
      obtain ⟨⟨x, l⟩, hx, -, ⟨j, rfl⟩, htarget, f, hnode, heval⟩ :=
        (exists_of_forall₂ (forall₂_guards h hranges hn)).2 _ hedge
      have hτ : τ = σ := (effect_of_branch hn).mp heffect
      subst hτ
      have htail : (G.image m, 1) ∈ G.pushed.holder.neighbors (.condition n j) := by
        rw [htarget]
        exact mem_cons_self
      refine ⟨(G.image n, τ) :: (.condition n j, τ) :: trace',
        .step hx ?_ ?_ (.step htail ?_ ?_ hexec), ?_⟩
      · rw [node_of_branch h hn]
        trivial
      · rw [node_of_branch h hn]
        rfl
      · rw [hnode]
        exact (heval τ).mpr htakes
      · rw [hnode]
        rfl
      · rw [visible_image, visible_condition, hvisible]

end Executions

section Selects

variable {G : Cfg ν ι O ty} {n : ν} {s : SelectExpression O ty}

section

variable (h : WellFormed G) (hnode : G.node n = .select s)

include h hnode

theorem hasDefault_of_select : s.hasDefault = true := by
  obtain ⟨-, c, hlast, hdefault⟩ := h.selects n s hnode
  exact any_eq_true.mpr ⟨c, mem_of_getLast? hlast, hdefault⟩

theorem exists_edge_of_case (hi : i < s.selectCases.length) :
    ∃ m, (m, (i : ℤ)) ∈ G.holder.neighbors n := by
  have hlabel : (i : ℤ) ∈ (G.holder.neighbors n).map Prod.snd :=
    (h.selects n s hnode).1.mem_iff.mpr (mem_map_of_mem (mem_range.mpr hi))
  obtain ⟨⟨m, l⟩, he, rfl⟩ := mem_map.mp hlabel
  exact ⟨m, he⟩

theorem edge_of_case_unique
    (hm : (m, l) ∈ G.holder.neighbors n) (hm' : (m', l) ∈ G.holder.neighbors n) : m = m' := by
  have hnodup : ((G.holder.neighbors n).map Prod.snd).Nodup :=
    (h.selects n s hnode).1.nodup_iff.mpr (nodup_range.map Int.ofNat_injective)
  exact congrArg Prod.fst (inj_on_of_nodup_map hnodup hm hm' rfl)

end

theorem next_lt (h : s.next σ = some i) : i < s.selectCases.length :=
  (findIdx?_eq_some_iff_getElem.mp h).1

theorem exists_passing (h : s.hasDefault = true) (σ : Store ty) : ∃ j, s.passing σ = some j := by
  obtain ⟨d, hd, hdefault⟩ := any_eq_true.mp h
  cases hpassing : s.passing σ with
  | some j => exact ⟨j, rfl⟩
  | none =>
    have hnone := findIdx?_eq_none_iff.mp hpassing d hd
    cases hk : d.keyset with
    | default =>
      rw [hk] at hnone
      cases hnone
    | heads f =>
      rw [hk] at hdefault
      cases hdefault

def Agree (G : Cfg ν ι O ty) (n : ν) (σ : Store ty) : Prop :=
  ∀ s, G.node n = .select s → ∀ i j : ℕ, s.next σ = some i → s.passing σ = some j →
    ∀ m, (m, (i : ℤ)) ∈ G.holder.neighbors n ↔ (m, (j : ℤ)) ∈ G.holder.neighbors n

/-- Where the readings agree an edge is taken by one exactly if an edge to the same node is taken by
the other. -/
theorem Agree.edge_iff (h : WellFormed G) (hagree : Agree G n σ) (m : ν) :
    (∃ l, (m, l) ∈ G.holder.neighbors n ∧ branches (G.node n) σ l) ↔
      ∃ l, (m, l) ∈ G.holder.neighbors n ∧ passes (G.node n) σ l := by
  cases hnode : G.node n with
  | ifStatement c | emptyStatement | other i => exact Iff.rfl
  | select s =>
    have hdefault := hasDefault_of_select h hnode
    obtain ⟨i, -, hi, -⟩ := exists_next hdefault σ
    obtain ⟨j, hj⟩ := exists_passing hdefault σ
    constructor
    · rintro ⟨-, hedge, k, rfl, hk⟩
      cases hi.symm.trans hk
      exact ⟨j, (hagree s hnode i j hi hj m).mp hedge, j, rfl, hj⟩
    · rintro ⟨-, hedge, k, rfl, hk⟩
      cases hj.symm.trans hk
      exact ⟨i, (hagree s hnode i j hi hj m).mpr hedge, i, rfl, hi⟩

end Selects

section Readings

variable {effect : Effects ι ty} {G : Cfg ν ι O ty} {n : ν}

theorem exists_taken (h : WellFormed G) (hn : G.holder.neighbors n ≠ []) (σ : Store ty) :
    ∃ m l, (m, l) ∈ G.holder.neighbors n ∧ branches (G.node n) σ l := by
  obtain ⟨⟨m, l⟩, hm⟩ := exists_mem_of_ne_nil _ hn
  cases hnode : G.node n with
  | emptyStatement | other i => exact ⟨m, l, hm, trivial⟩
  | ifStatement c =>
    obtain ⟨t, f, label, hlabel, hperm⟩ := h.ifs n c hnode
    cases hc : c.eval σ with
    | true =>
      exact ⟨t, label, hperm.mem_iff.mpr mem_cons_self, hc.trans (decide_eq_true hlabel).symm⟩
    | false => exact ⟨f, 0, hperm.mem_iff.mpr (mem_cons_of_mem _ mem_cons_self), hc⟩
  | select s =>
    obtain ⟨i, -, hi, -⟩ := exists_next (hasDefault_of_select h hnode) σ
    obtain ⟨m, hedge⟩ := exists_edge_of_case h hnode (next_lt hi)
    exact ⟨m, i, hedge, i, rfl, hi⟩

theorem exists_effect (effect : Effects ι ty) (i : Instr ι O ty) (σ : Store ty) :
    ∃ τ, i.Effect effect σ τ := by
  cases i with
  | ifStatement c | select s | emptyStatement => exact ⟨σ, rfl⟩
  | other i => exact effect.total i σ

theorem exists_executes [DecidableEq ν] (effect : Effects ι ty) (h : WellFormed G) (n : ν) :
    ∀ σ, ∃ trace ρ, Executes effect branches G n σ trace ρ := by
  refine h.acyclic.induction (EdgeHolder.closed_nodes n)
    (P := fun u => ∀ σ, ∃ trace ρ, Executes effect branches G u σ trace ρ) ?_ n
    (EdgeHolder.start_mem_nodes n)
  intro u _ ih σ
  obtain ⟨τ, hτ⟩ := exists_effect effect (G.node u) σ
  by_cases hstop : G.holder.neighbors u = []
  · exact ⟨_, _, .stop hstop hτ⟩
  · obtain ⟨m, l, hedge, htaken⟩ := exists_taken h hstop σ
    obtain ⟨trace, ρ, hrest⟩ := ih m (mem_map_of_mem hedge) τ
    exact ⟨_, _, .step hedge htaken hτ hrest⟩

/-- The readings agree wherever executions from here come to. -/
def HarmlessFrom (effect : Effects ι ty) (G : Cfg ν ι O ty) (n : ν) (σ : Store ty) : Prop :=
  ∀ trace ρ, Executes effect branches G n σ trace ρ → ∀ m τ, (m, τ) ∈ trace → Agree G m τ

theorem HarmlessFrom.step (h : HarmlessFrom effect G n σ) (hedge : (m, l) ∈ G.holder.neighbors n)
    (htakes : branches (G.node n) σ l) (heffect : (G.node n).Effect effect σ τ) :
    HarmlessFrom effect G m τ :=
  fun _ ρ hrest u v hu =>
    h _ ρ (.step hedge htakes heffect hrest) u v (mem_cons_of_mem _ hu)

variable {trace : List (ν × Store ty)} {σ ρ : Store ty}

theorem passes_of_branches (h : WellFormed G) (hn : Executes effect branches G n σ trace ρ)
    (hharmless : HarmlessFrom effect G n σ) : Executes effect passes G n σ trace ρ := by
  induction hn with
  | stop hstop heffect => exact .stop hstop heffect
  | @step n m l σ τ ρ trace hedge htakes heffect hrest ih =>
    have hagree := hharmless _ _ (.step hedge htakes heffect hrest) n σ mem_cons_self
    obtain ⟨l', hedge', hpasses⟩ := (hagree.edge_iff h m).mp ⟨l, hedge, htakes⟩
    exact .step hedge' hpasses heffect (ih (hharmless.step hedge htakes heffect))

theorem branches_of_passes [DecidableEq ν] (h : WellFormed G)
    (hn : Executes effect passes G n σ trace ρ)
    (hharmless : HarmlessFrom effect G n σ) : Executes effect branches G n σ trace ρ := by
  induction hn with
  | stop hstop heffect => exact .stop hstop heffect
  | @step n m l σ τ ρ trace hedge htakes heffect hrest ih =>
    -- some execution starts here, so the readings agree here
    obtain ⟨some, ω, hsome⟩ := exists_executes effect h n σ
    obtain ⟨rest, rfl, -⟩ := executes_cases hsome
    have hagree := hharmless _ _ hsome n σ mem_cons_self
    obtain ⟨l', hedge', hbranches⟩ := (hagree.edge_iff h m).mpr ⟨l, hedge, htakes⟩
    exact .step hedge' hbranches heffect (ih (hharmless.step hedge' hbranches heffect))

theorem agree_of_both (h : WellFormed G) (hn : Executes effect branches G n σ trace ρ)
    (hn' : Executes effect passes G n σ trace ρ) : ∀ m τ, (m, τ) ∈ trace → Agree G m τ := by
  induction hn with
  | @stop n σ τ hstop heffect =>
    intro m ω hm s hnode i j hi hj u
    cases mem_singleton.mp hm
    simp only [hstop, not_mem_nil]
  | @step n m l σ τ ρ trace hedge htakes heffect hrest ih =>
    obtain ⟨rest, heq, hcases⟩ := executes_cases hn'
    cases heq
    obtain ⟨rest', rfl, -⟩ := executes_cases hrest
    rcases hcases with ⟨hnil, -⟩ | ⟨m', l', τ', hedge', hpasses, heffect', hrest'⟩
    · cases hnil
    -- both executions go on with the same node
    obtain ⟨rest'', heq, -⟩ := executes_cases hrest'
    cases heq
    intro u ω hu
    rcases mem_cons.mp hu with heq | hu
    · cases heq
      intro s hnode i j hi hj v
      rw [hnode] at htakes hpasses
      obtain ⟨i', rfl, hi'⟩ := htakes
      obtain ⟨j', rfl, hj'⟩ := hpasses
      cases hi.symm.trans hi'
      cases hj.symm.trans hj'
      constructor
      · intro hv
        rw [edge_of_case_unique h hnode hv hedge]
        exact hedge'
      · intro hv
        rw [edge_of_case_unique h hnode hv hedge']
        exact hedge
    · exact ih hrest' u ω hu

end Readings

section Shape

variable [DecidableEq ν] {G : Cfg ν ι O ty}

theorem computable_iff (h : WellFormed G) : G.computable = true ↔ NoRanges G := by
  constructor
  · intro hcomputable n s hnode c hc
    have hkey := mem_keys_of_branch h (n := n) (by rw [hnode]; rfl)
    have hedges := all_eq_true.mp hcomputable n hkey
    rw [hnode] at hedges
    obtain ⟨i, hi, rfl⟩ := mem_iff_getElem.mp hc
    obtain ⟨m, hm⟩ := exists_edge_of_case h hnode hi
    have hsome : (computeExpression s i).isSome = true := all_eq_true.mp hedges _ hm
    by_contra hrange
    have hnone := caseAt_of_unsupported (getElem?_eq_getElem hi) (Bool.eq_false_iff.mpr hrange)
    rw [computeExpression_eq_none hnone] at hsome
    cases hsome
  · intro hranges
    refine all_eq_true.mpr fun n _ => ?_
    cases hnode : G.node n with
    | ifStatement c | emptyStatement | other i => rfl
    | select s =>
      refine all_eq_true.mpr fun e he => ?_
      obtain ⟨i, hi, hlabel⟩ := label_of_select h hnode he
      obtain ⟨f, hf, -⟩ := computeExpression_of_supported (hranges n s hnode) hi
      have hnat : e.2.toNat = i := by omega
      rw [hnat, hf]
      rfl

theorem image_ne_condition (m n : ν) (j : ℕ) : G.image m ≠ .condition n j := by
  intro heq
  unfold Cfg.image Cfg.ifreplace at heq
  dsimp only at heq
  split at heq <;> cases heq

variable (h : WellFormed G)

include h

theorem exists_guards (hranges : NoRanges G)
    (hedges : G.pushed.holder.neighbors (.condition n j) ≠ []) :
    ∃ e, Guards G n e (.condition n j) := by
  rw [neighbors_condition, ne_eq, map_eq_nil_iff] at hedges
  cases hnode : G.node n with
  | ifStatement c =>
    simp only [Cfg.extra, hnode] at hedges
    obtain ⟨_, hx⟩ := exists_mem_of_ne_nil _ hedges
    obtain ⟨e, he, -⟩ := mem_map.mp hx
    have hindex : Cfg.ifIndex e.2 = j := of_decide_eq_true (mem_filter.mp he).2
    have hmem := (mem_filter.mp he).1
    exact ⟨e, hindex ▸ guards_of_if h hnode hmem⟩
  | select s =>
    cases he : (G.holder.neighbors n)[j]? with
    | none => simp [Cfg.extra, hnode, he] at hedges
    | some e => exact ⟨e, guards_of_select h hranges hnode he⟩
  | emptyStatement | other i => simp [Cfg.extra, hnode] at hedges

theorem edge_pushed_cases (hranges : NoRanges G) {u v : Pushed ν}
    (hv : v ∈ G.pushed.holder.succs u) :
    (∃ n m, u = G.image n ∧ (G.node n).isBranch = false ∧ v = G.image m) ∨
      (∃ n j, u = G.image n ∧ (G.node n).isBranch = true ∧ v = .condition n j) ∨
      ∃ n j m, u = .condition n j ∧ G.pushed.holder.succs u = [v] ∧ v = G.image m := by
  obtain ⟨⟨v, l⟩, he, rfl⟩ := mem_map.mp hv
  obtain ⟨x, rfl⟩ := exists_of_neighbors_gmap he
  cases x with
  | original n =>
    cases hn : (G.node n).isBranch with
    | false =>
      have hedge := he
      rw [neighbors_of_plain hn] at hedge
      obtain ⟨e, -, heq⟩ := mem_map.mp hedge
      exact Or.inl ⟨n, e.1, rfl, hn, (congrArg Prod.fst heq).symm⟩
    | true =>
      obtain ⟨e, -, -, hguards⟩ := (exists_of_forall₂ (forall₂_guards h hranges hn)).1 _ he
      obtain ⟨j, hj⟩ := hguards.index
      exact Or.inr (Or.inl ⟨n, j, rfl, hn, hj⟩)
  | condition n j =>
    obtain ⟨e, hguards⟩ := exists_guards h hranges (ne_nil_of_mem he)
    have htarget : G.pushed.holder.neighbors (G.ifreplace (.condition n j)) = [(G.image e.1, 1)] :=
      hguards.target
    rw [htarget, mem_singleton] at he
    refine Or.inr (Or.inr ⟨n, j, e.1, rfl, ?_, congrArg Prod.fst he⟩)
    rw [EdgeHolder.succs, htarget, he]
    rfl

theorem nodup_succs_of_branch (hn : (G.node n).isBranch = true) :
    (G.pushed.holder.succs (G.image n)).Nodup := by
  rw [EdgeHolder.succs, neighbors_image, map_map, Cfg.redirected]
  cases hnode : G.node n with
  | ifStatement c =>
    obtain ⟨t, f, label, hlabel, hperm⟩ := h.ifs n c hnode
    simp only [map_map]
    refine (hperm.map _).nodup_iff.mpr ?_
    simp [Cfg.ifIndex, hlabel, Cfg.ifreplace]
  | select s =>
    have hindices : (G.holder.neighbors n).zipIdx.map Prod.snd =
        List.range' 0 (G.holder.neighbors n).length := zipIdx_map_snd _ _
    simp only [map_map]
    have hcomp : ((Prod.fst ∘ fun e : Staged ν × ℤ => (G.ifreplace e.1, e.2)) ∘
        fun e : (ν × ℤ) × ℕ => (Staged.condition n e.2, e.1.2)) = Pushed.condition n ∘ Prod.snd :=
        rfl
    rw [hcomp, ← map_map, hindices]
    refine List.Nodup.map ?_ (nodup_range' ..)
    intro i j heq
    cases heq
    rfl
  | emptyStatement | other i =>
    rw [hnode] at hn
    cases hn

theorem noCriticalEdges_pushed (hranges : NoRanges G) : G.pushed.holder.NoCriticalEdges := by
  intro u v hmany hv
  rcases edge_pushed_cases h hranges hv with ⟨n, m, rfl, hn, -⟩ | ⟨n, j, rfl, hn, rfl⟩ | ⟨n, j, m,
    rfl, hone, -⟩
  · rw [neighbors_of_plain hn, length_map] at hmany
    have hsingle := h.single n hn
    omega
  · refine ⟨count_eq_one_of_mem (nodup_succs_of_branch h hn) hv, fun w hw => ?_⟩
    rcases edge_pushed_cases h hranges hw with ⟨_, m, -, -, heq⟩ | ⟨n', j', rfl, -, heq⟩ | ⟨_, _,
      m, -, -, heq⟩
    · exact absurd heq.symm (image_ne_condition m n j)
    · cases heq
      rfl
    · exact absurd heq.symm (image_ne_condition m n j)
  · have hlength := congrArg List.length hone
    rw [EdgeHolder.succs, length_map, length_singleton] at hlength
    omega

end Shape

/-- All selects are translated, both graphs have the same executions and no edge is critical. -/
def Correct [DecidableEq ν] (effect : Effects ι ty) (G : Cfg ν ι O ty) : Prop :=
  ∃ H, pushIfs G = some H ∧ SameExecutions effect G H ∧ H.holder.NoCriticalEdges

/-- `push_ifs` is correct exactly when no select has a range and no execution comes to a select that
goes elsewhere if cases with values outside their masks are passed over. -/
theorem pushIfs_correct_iff [DecidableEq ν] (effect : Effects ι ty) (G : Cfg ν ι O ty)
    (h : WellFormed G) :
    Correct effect G ↔ NoRanges G ∧ MasksHarmless effect G := by
  constructor
  · rintro ⟨H, hpush, hsame, -⟩
    unfold pushIfs at hpush
    split at hpush
    · rename_i hcomputable
      cases hpush
      have hranges := (computable_iff h).mp hcomputable
      refine ⟨hranges, fun σ trace ρ hexec => ?_⟩
      obtain ⟨trace', hpushed, rfl⟩ := (hsame σ trace ρ).mp hexec
      exact agree_of_both h hexec ((executes_of_pushed h hranges hpushed).1 G.start rfl)
    · cases hpush
  · rintro ⟨hranges, hharmless⟩
    refine ⟨G.pushed, if_pos ((computable_iff h).mpr hranges), fun σ trace ρ => ?_,
      noCriticalEdges_pushed h hranges⟩
    have hfrom : HarmlessFrom effect G G.start σ := fun trace ρ hexec => hharmless σ trace ρ hexec
    constructor
    · intro hexec
      exact pushed_of_executes h hranges (passes_of_branches h hexec hfrom)
    · rintro ⟨trace', hexec, rfl⟩
      exact branches_of_passes h ((executes_of_pushed h hranges hexec).1 G.start rfl) hfrom

namespace Masked

open SelectEdges.Selects (operators types)

/-- `select (x) { value &&& 0b01 : parse; default : accept; }`. -/
def selection (value : BitVec 2) : SelectExpression operators types where
  size := 0
  types _ := .bits 2
  select _ := .loc () (SelectEdges.Selects.types_eq ())
  selectCases := [⟨.heads fun _ => .head (.mask value 1#2), "parse".toList⟩,
    ⟨.default, "accept".toList⟩]

def holder : EdgeHolder ℕ where
  keys := [0]
  neighbors := fun
    | 0 => [(1, 0), (2, 1)]
    | _ => []
  outside n h := by
    match n with
    | 0 => simp at h
    | _ + 1 => rfl

def graph (value : BitVec 2) : Cfg ℕ Empty operators types where
  holder := holder
  start := 0
  node := fun
    | 0 => .select (selection value)
    | _ => .emptyStatement

def effects : Effects Empty types where
  run i := nomatch i
  total i := nomatch i

theorem wellFormed (value : BitVec 2) : WellFormed (graph value) where
  acyclic := acyclic_of_lt (EdgeHolder.forall_edge (g := holder) (by decide))
  single n h := by
    match n with
    | 0 => cases h
    | _ + 1 => exact Nat.zero_le _
  ifs n c h := by
    match n with
    | 0 | _ + 1 => cases h
  selects n s h := by
    match n with
    | _ + 1 => cases h
    | 0 =>
      cases h
      exact ⟨.refl _, _, rfl, rfl⟩

theorem noRanges (value : BitVec 2) : NoRanges (graph value) := by
  intro n s hs c hc
  match n with
  | _ + 1 => cases hs
  | 0 =>
    cases hs
    rcases mem_cons.mp hc with rfl | hc
    · rfl
    · cases mem_singleton.mp hc
      rfl

theorem masksHarmless {value : BitVec 2} (h : BitVec.and value 1#2 = value) :
    MasksHarmless effects (graph value) := by
  intro σ trace ρ _ n τ _ s hs i j hi hj m
  match n with
  | _ + 1 => cases hs
  | 0 =>
    cases hs
    have hcovered : ∀ c ∈ (selection value).selectCases, c.keyset.covered = true := by
      intro c hc
      rcases mem_cons.mp hc with rfl | hc
      · refine all_eq_true.mpr fun i _ => ?_
        exact decide_eq_true h
      · cases mem_singleton.mp hc
        rfl
    obtain ⟨i', c, hi', hc, -⟩ := exists_next (s := selection value) rfl τ
    cases hi.symm.trans hi'
    have hsame := (passing_eq_next hi hc).mpr (hcovered c (mem_of_getElem? hc))
    cases hj.symm.trans hsame
    exact Iff.rfl

end Masked

/-- The value `0b10` has a bit outside the mask `0b01`: for `x = 0` the select goes to its first
case and the result to its second. -/
theorem masked_select_redirected : WellFormed (Masked.graph 2#2) ∧
    ¬Correct Masked.effects (Masked.graph 2#2) := by
  refine ⟨Masked.wellFormed 2#2, ?_⟩
  rintro ⟨H, hpush, hsame, -⟩
  have hpushed : pushIfs (Masked.graph 2#2) = some (Masked.graph 2#2).pushed :=
    if_pos ((computable_iff (Masked.wellFormed 2#2)).mpr (Masked.noRanges 2#2))
  cases hpushed.symm.trans hpush
  have hexec : Executes Masked.effects branches (Masked.graph 2#2) 0 (fun _ => 0#2)
      [(0, fun _ => 0#2), (1, fun _ => 0#2)] fun _ => 0#2 :=
    .step mem_cons_self ⟨0, rfl, rfl⟩ rfl (.stop rfl rfl)
  obtain ⟨trace', htrace, hvisible⟩ := (hsame _ _ _).mp hexec
  have hpasses := (executes_of_pushed (Masked.wellFormed 2#2) (Masked.noRanges 2#2) htrace).1 0 rfl
  rw [hvisible] at hpasses
  obtain ⟨rest, heq, hcases⟩ := executes_cases hpasses
  cases heq
  rcases hcases with ⟨hnil, -⟩ | ⟨m, l, τ, hedge, ⟨j, rfl, hj⟩, -, hrest⟩
  · cases hnil
  obtain ⟨rest, heq, -⟩ := executes_cases hrest
  cases heq
  have hone : (Masked.selection 2#2).passing (fun _ => 0#2) = some 1 := rfl
  cases hone.symm.trans hj
  have hmem : ((1 : ℕ), (1 : ℤ)) ∈ [(1, 0), (2, 1)] := hedge
  simp at hmem

/-- With the value `0b01` the graph keeps its executions. -/
theorem covered_select_pushed : WellFormed (Masked.graph 1#2) ∧
    Correct Masked.effects (Masked.graph 1#2) :=
  ⟨Masked.wellFormed 1#2,
    (pushIfs_correct_iff Masked.effects (Masked.graph 1#2) (Masked.wellFormed 1#2)).mpr
    ⟨Masked.noRanges 1#2, Masked.masksHarmless (by decide)⟩⟩

end PushIfs
