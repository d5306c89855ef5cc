import Mathlib.Data.Finset.Card
import Mathlib.Data.List.Chain
import Mathlib.Logic.Relation
import Mathlib.Order.WellFounded
import Mathlib.Data.Fintype.EquivFin
import Mathlib.Data.Set.Basic

/-!
# Directed graphs by successor lists

Reachability, paths and cycles, the words read along paths, and depth-first search with hooks for
entering and leaving a node. `search_rule` is the one induction over the search.
-/
namespace FlowGraph

open List

variable {ν : Type}

section Paths

variable (succs : ν → List ν)

def Edge (u v : ν) : Prop := v ∈ succs u

instance [DecidableEq ν] (u v : ν) : Decidable (Edge succs u v) :=
  inferInstanceAs (Decidable (v ∈ succs u))

abbrev Reach : ν → ν → Prop := Relation.ReflTransGen (Edge succs)

def Acyclic : Prop := ∀ u, ¬Relation.TransGen (Edge succs) u u

abbrev IsPath (nodes : List ν) : Prop := nodes.IsChain (Edge succs)

/-- The nodes that contain everything that can be reached from them. -/
def Closed (nodes : Finset ν) : Prop := ∀ u ∈ nodes, ∀ v ∈ succs u, v ∈ nodes

variable {succs}

theorem Closed.reach {nodes : Finset ν} (h : Closed succs nodes) (hu : u ∈ nodes)
    (huv : Reach succs u v) : v ∈ nodes := by
  induction huv with
  | refl => exact hu
  | tail _ hstep ih => exact h _ ih _ hstep

theorem edge_of_succs (h : succs u = v :: l) : Edge succs u v := by
  rw [Edge, h]
  exact mem_cons_self

theorem Acyclic.not_edge_of_reach (h : Acyclic succs) (huv : Reach succs v u) : ¬Edge succs u v :=
  fun he => h u (Relation.TransGen.head' he huv)

theorem acyclic_of_lt [Preorder ν] (h : ∀ u v, Edge succs u v → u < v) : Acyclic succs := by
  have hlt : ∀ u v, Relation.TransGen (Edge succs) u v → u < v := by
    intro u v huv
    induction huv with
    | single hstep => exact h _ _ hstep
    | tail _ hstep ih => exact ih.trans (h _ _ hstep)
  exact fun u hcycle => lt_irrefl u (hlt u u hcycle)

theorem Acyclic.induction (h : Acyclic succs) {nodes : Finset ν} (hc : Closed succs nodes)
    {P : ν → Prop} (step : ∀ u ∈ nodes, (∀ v ∈ succs u, P v) → P u) : ∀ u ∈ nodes, P u := by
  let r : nodes → nodes → Prop := fun v u => Relation.TransGen (Edge succs) u.1 v.1
  have htrans : IsTrans nodes r := ⟨fun _ _ _ hab hbc => hbc.trans hab⟩
  have hirrefl : Std.Irrefl r := ⟨fun u => h u.1⟩
  have hwf : WellFounded r := Finite.wellFounded_of_trans_of_irrefl r
  intro u hu
  refine hwf.induction (C := fun u => P u.1) ⟨u, hu⟩ ?_
  rintro ⟨u, hu⟩ ih
  exact step u hu fun v hv => ih ⟨v, hc u hu v hv⟩ (.single hv)

theorem reach_of_isPath {nodes : List ν} (h : IsPath succs (u :: nodes)) :
    ∀ v ∈ u :: nodes, Reach succs u v := by
  induction nodes generalizing u with
  | nil =>
    intro v hv
    rw [mem_singleton.mp hv]
  | cons w ws ih =>
    obtain ⟨hstep, hrest⟩ := isChain_cons_cons.mp h
    intro v hv
    rcases mem_cons.mp hv with rfl | hv
    · exact .refl
    · exact (ih hrest v hv).head hstep

end Paths

section Words

variable {ι : Type} (succs : ν → List ν) (word : ν → List ι)

/-- What is read along a path to a node without successors, and that node. -/
inductive Reads : ν → List ι → ν → Prop where
  | stop {u : ν} (h : succs u = []) : Reads u (word u) u
  | step {u v w : ν} {s : List ι} (h : Edge succs u v) (hs : Reads v s w) :
    Reads u (word u ++ s) w

def Words (u : ν) : Set (List ι) := {s | ∃ w, Reads succs word u s w}

variable {succs word}

theorem words_of_stop (h : succs u = []) : Words succs word u = {word u} := by
  ext s
  constructor
  · rintro ⟨w, hs⟩
    cases hs with
    | stop => rfl
    | step hedge =>
      rw [Edge, h] at hedge
      cases hedge
  · rintro rfl
    exact ⟨u, .stop h⟩

variable {s : List ι}

theorem mem_words_of_step (h : Edge succs u v) (hs : s ∈ Words succs word v) :
    word u ++ s ∈ Words succs word u := by
  obtain ⟨w, hs⟩ := hs
  exact ⟨w, .step h hs⟩

theorem words_cases (hs : s ∈ Words succs word u) :
    (succs u = [] ∧ s = word u) ∨ ∃ v t, Edge succs u v ∧ t ∈ Words succs word v ∧
      s = word u ++ t := by
  obtain ⟨w, hs⟩ := hs
  cases hs with
  | stop hstop => exact Or.inl ⟨hstop, rfl⟩
  | step hedge hread => exact Or.inr ⟨_, _, hedge, ⟨w, hread⟩, rfl⟩

theorem words_of_relation {μ : Type} {succs' : μ → List μ} {word' : μ → List ι} {R : ν → μ → Prop}
    (stop : ∀ u x, R u x → succs u = [] → word u ∈ Words succs' word' x)
    (step : ∀ u x v s, R u x → Edge succs u v → (∀ y, R v y → s ∈ Words succs' word' y) →
      word u ++ s ∈ Words succs' word' x)
    {u : ν} {x : μ} (h : R u x) (hs : s ∈ Words succs word u) : s ∈ Words succs' word' x := by
  obtain ⟨w, hs⟩ := hs
  induction hs generalizing x with
  | stop hstop => exact stop _ x h hstop
  | step hedge _ ih => exact step _ x _ _ h hedge fun y hy => ih hy

end Words

section Search

variable [DecidableEq ν] {σ : Type} (succs : ν → List ν) (enter leave : ν → σ → σ)

/-- Depth-first search; the first argument bounds the depth. -/
def search : ℕ → ν → List ν × σ → List ν × σ
  | 0, _, s => s
  | k + 1, v, s =>
    let inner := (succs v).foldl (fun s w => if w ∈ s.1 then s else search k w s)
      (v :: s.1, enter v s.2)
    (inner.1, leave v inner.2)

variable {succs enter leave}

theorem search_rule {I : List ν → List ν → σ → Prop} {nodes : Finset ν}
    (hclosed : Closed succs nodes)
    (henter : ∀ v gray visited x, I gray visited x → v ∈ nodes → v ∉ visited →
      (∀ u ∈ gray.head?, Edge succs u v) → I (v :: gray) (v :: visited) (enter v x))
    (hleave : ∀ v gray visited x, I (v :: gray) visited x → (∀ w ∈ succs v, w ∈ visited) →
      I gray visited (leave v x)) {gray visited : List ν} (h : I gray visited x) (hv : v ∉ visited)
    (hnode : v ∈ nodes) (hedge : ∀ u ∈ gray.head?, Edge succs u v)
    (hfuel : (nodes \ visited.toFinset).card ≤ k) :
    let r := search succs enter leave k v (visited, x)
    I gray r.1 r.2 ∧ v ∈ r.1 ∧ visited ⊆ r.1 := by
  induction k generalizing v gray visited x with
  | zero =>
    have hmem : v ∈ nodes \ visited.toFinset := by simp [hnode, hv]
    rw [Finset.card_eq_zero.mp (Nat.le_zero.mp hfuel)] at hmem
    cases hmem
  | succ k ih =>
    -- the loop over the successors keeps the invariant with `v` on the stack
    have hloop : ∀ (ws : List ν) (s : List ν × σ), (∀ w ∈ ws, Edge succs v w) →
        I (v :: gray) s.1 s.2 → v :: visited ⊆ s.1 →
        let r := ws.foldl (fun s w => if w ∈ s.1 then s else search succs enter leave k w s) s
        I (v :: gray) r.1 r.2 ∧ (∀ w ∈ ws, w ∈ r.1) ∧ s.1 ⊆ r.1 := by
      intro ws
      induction ws with
      | nil => exact fun s _ hI _ => ⟨hI, by simp, fun _ hu => hu⟩
      | cons w ws ihws =>
        intro s hws hI hsub
        obtain ⟨hw, hws⟩ := forall_mem_cons.mp hws
        simp only [foldl_cons]
        by_cases hseen : w ∈ s.1
        · rw [if_pos hseen]
          obtain ⟨hI', hall, hsub'⟩ := ihws s hws hI hsub
          exact ⟨hI', forall_mem_cons.mpr ⟨hsub' hseen, hall⟩, hsub'⟩
        · rw [if_neg hseen]
          have hless : (nodes \ s.1.toFinset).card ≤ k := by
            have hlt : (nodes \ s.1.toFinset).card < (nodes \ visited.toFinset).card := by
              refine Finset.card_lt_card (Finset.ssubset_iff_of_subset ?_ |>.mpr ⟨v, ?_, ?_⟩)
              · intro u hu
                simp only [Finset.mem_sdiff, mem_toFinset] at hu ⊢
                exact ⟨hu.1, fun hvis => hu.2 (hsub (mem_cons_of_mem _ hvis))⟩
              · simp [hnode, hv]
              · simp [hsub mem_cons_self]
            omega
          obtain ⟨hI', hw', hsub'⟩ := ih hI hseen (hclosed v hnode w hw) (by simpa using hw) hless
          obtain ⟨hI'', hall, hsub''⟩ := ihws _ hws hI' fun u hu => hsub' (hsub hu)
          exact ⟨hI'', forall_mem_cons.mpr ⟨hsub'' hw', hall⟩, fun u hu => hsub'' (hsub' hu)⟩
    obtain ⟨hI, hall, hsub⟩ := hloop (succs v) (v :: visited, enter v x) (fun _ hw => hw)
      (henter v gray visited x h hnode hv hedge) fun _ hu => hu
    refine ⟨hleave v gray _ _ hI hall, hsub mem_cons_self, fun u hu => ?_⟩
    exact hsub (mem_cons_of_mem _ hu)

end Search

end FlowGraph
