import FlexPlan.PostDominance
import FlexPlan.TransitionRuns
import Mathlib.Data.Finset.Max

/-!
# Decision trees

`make_decision_tree` grows a tree from the targets of a graph towards its root. Its nodes are those
that nothing but the artificial end strictly post-dominates. The tree decides which target a path
reaches as soon as there are two targets; for one target the frontier is empty from the beginning.
-/
namespace DecisionTree

open FlowGraph CfgAlgos DomFrontier PostDominance TransitionRuns List EdgeHolder

variable {ν γ : Type}

section Model

/-- The labels that are built over the conditions of the blocks. -/
inductive Formula (γ : Type) where
  | cond (c : γ)
  | land (left right : Formula γ)
  | lor (left right : Formula γ)
  | boolLiteral (value : Bool)

def Formula.eval (σ : γ → Bool) : Formula γ → Bool
  | .cond c => σ c
  | .land l r => l.eval σ && r.eval σ
  | .lor l r => l.eval σ || r.eval σ
  | .boolLiteral b => b

/-- The checks, in the order of the source; `nullOperand` is raised by the constructor of `LOr`. -/
inductive Bug where
  | solvedReturns
  | rankOrder
  | fewNeighbors
  | unpartitioned
  | fewPartitions
  | nullOperand
  | noFormula
  | emptyFrontier
  deriving DecidableEq

/-- The arguments, with the conditions of the `IfStatement`s of every block. -/
structure Input (ν γ : Type) where
  sg : EdgeHolder ν
  bstart : ν
  targets : List ν
  pdomf : EdgeHolder ν
  pdomtree : ν → Option ν
  conditions : ν → List γ

structure State (ν γ : Type) where
  frontier : List ν
  solved : List ν
  decisionTree : EdgeHolder ν
  edgeLabels : List (Formula γ)

variable [DecidableEq ν]

/-- The walk over the parents; it meets no node twice, so that the first argument can bound it. -/
def dominates (parents : ν → Option ν) (n : ν) : ℕ → ν → Bool
  | 0, _ => false
  | k + 1, x =>
    if x = n then true
    else
      match parents x with
      | none => false
      | some p => dominates parents n k p

def neighFormula (conditions : List γ) : Option (Formula γ) :=
  conditions.foldl (fun formula c =>
    match formula with
    | none => some (.cond c)
    | some f => some (.land (.cond c) f)) none

def disjoin (e neigh : Option (Formula γ)) : Except Bug (Option (Formula γ)) :=
  match e, neigh with
  | none, neigh => .ok neigh
  | some e, some f => .ok (some (.lor f e))
  | some _, none => .error .nullOperand

variable (order : Iteration ν) (G : Input ν γ)

def srt : List ν := topoSort G.sg G.bstart

def ranks (n : ν) : ℕ := reverseSorted (srt G) n

def Met (s : State ν γ) (f : ν) : Prop := f ∈ s.frontier ∨ f ∈ s.solved

instance (s : State ν γ) (f : ν) : Decidable (Met s f) := inferInstanceAs (Decidable (_ ∨ _))

/-- An element of its frontier set is neither in the frontier nor solved. -/
def Alive (s : State ν γ) (n : ν) : Prop := ∃ f ∈ G.pdomf.succs n, ¬Met s f

instance (s : State ν γ) (n : ν) : Decidable (Alive G s n) :=
  inferInstanceAs (Decidable (∃ f ∈ G.pdomf.succs n, ¬Met s f))

/-- One candidate for `expandthis` and `nextstop`; the minimal rank starts above all ranks. -/
def better (s : State ν γ) (best : Option (ν × ν)) (c : ν × ν) : Option (ν × ν) :=
  if Met s c.2 then best
  else
    match best with
    | none => if ranks G c.2 < (srt G).length then some c else none
    | some b => if ranks G c.2 < ranks G b.2 then some c else some b

def candidates (s : State ν γ) : List (ν × ν) :=
  (order.arrange s.frontier).flatMap fun n => (G.pdomf.succs n).map fun f => (n, f)

def nextStop (s : State ν γ) : Option (ν × ν) := (candidates order G s).foldl (better G s) none

def partitioned (s : State ν γ) (x : ν) : Except Bug (ν × ν) :=
  match (order.arrange s.frontier).find? fun n => dominates G.pdomtree n (srt G).length x with
  | some n => .ok (n, x)
  | none => .error .unpartitioned

def parts (pairs : List (ν × ν)) : List ν := order.arrange (pairs.map Prod.fst).dedup

def partitionByPdom (s : State ν γ) (nextstop : ν) : Except Bug (List (ν × ν)) :=
  if nextstop ∈ G.sg.keys then
    if 1 < (G.sg.succs nextstop).length then do
      let pairs ← (G.sg.succs nextstop).mapM (partitioned order G s)
      if 1 < (parts order pairs).length then .ok pairs else .error .fewPartitions
    else .error .fewNeighbors
  else .ok []

def formulaOf (pairs : List (ν × ν)) (n : ν) : Except Bug (Option (Formula γ)) :=
  (pairs.filter fun p => p.1 = n).foldlM
    (fun e p => disjoin e (neighFormula (G.conditions p.2))) none

def addEdge (nextstop : ν) (pairs : List (ν × ν)) (s : State ν γ) (n : ν) :
    Except Bug (State ν γ) :=
  match formulaOf G pairs n with
  | .error bug => .error bug
  | .ok none => .error .noFormula
  | .ok (some e) => .ok { s with
      decisionTree := s.decisionTree.push nextstop (n, (s.edgeLabels.length : ℤ))
      edgeLabels := s.edgeLabels ++ [e] }

/-- Nodes all of whose frontier elements are settled leave the frontier. -/
def retire (nextstop : ν) (s : State ν γ) : State ν γ :=
  let s := { s with frontier := if nextstop ∈ s.frontier then s.frontier else s.frontier ++
    [nextstop] }
  { s with
    frontier := s.frontier.filter fun n => n = nextstop ∨ Alive G s n
    solved := s.solved ++ s.frontier.filter fun n => ¬(n = nextstop ∨ Alive G s n) }

def expand (s : State ν γ) (expandthis nextstop : ν) : Except Bug (State ν γ) :=
  if nextstop ∈ s.solved then .error .solvedReturns
  else if ranks G expandthis < ranks G nextstop then do
    let pairs ← partitionByPdom order G s nextstop
    let s ← (parts order pairs).foldlM (addEdge G nextstop pairs) s
    .ok (retire G nextstop s)
  else .error .rankOrder

/-- One round of `while (true)`; a tripped check leaves the loop. -/
def body : Except Bug (State ν γ) → Option (Except Bug (State ν γ))
  | .error _ => none
  | .ok s => (nextStop order G s).map fun c => expand order G s c.1 c.2

def initial : State ν γ where
  frontier := G.targets.filter fun n => G.pdomf.succs n ≠ []
  solved := []
  decisionTree := .empty
  edgeLabels := []

/-- The tree, its start and its labels; several nodes left in the frontier get the new node above
them. -/
def finish (fresh : ν) : Except Bug (State ν γ) → Except Bug (EdgeHolder ν × ν × List (Formula γ))
  | .error bug => .error bug
  | .ok s =>
    match s.frontier with
    | [] => .error .emptyFrontier
    | [start] => .ok (s.decisionTree, start, s.edgeLabels)
    | frontier => .ok ((order.arrange frontier).foldl
        (fun tree f => tree.push fresh (f, (s.edgeLabels.length : ℤ))) s.decisionTree, fresh,
        s.edgeLabels ++ [.boolLiteral true])

def stops : List ν := G.pdomf.keys.flatMap G.pdomf.succs

/-- The rounds are bounded by the nodes that can become a `nextstop`. -/
def makeDecisionTree (fresh : ν) :
    Option (Except Bug (EdgeHolder ν × ν × List (Formula γ))) :=
  (loop (body order G) ((stops G).length + 2) (.ok (initial G))).map (finish order fresh)

end Model

section Specification

def Holds (G : Input ν γ) (σ : γ → Bool) (x : ν) : Prop := ∀ c ∈ G.conditions x, σ c = true

def Branching (G : Input ν γ) (f : ν) : Prop := ∃ x ∈ G.sg.succs f, ∃ y ∈ G.sg.succs f, x ≠ y

/-- The conditions of the successors exclude each other and leave no case out. -/
def Decides (G : Input ν γ) (σ : γ → Bool) : Prop :=
  ∀ f, Branching G f → ∃ x ∈ G.sg.succs f, Holds G σ x ∧ ∀ y ∈ G.sg.succs f, Holds G σ y → y = x

def Takes (G : Input ν γ) (σ : γ → Bool) (f x : ν) : Prop :=
  x ∈ G.sg.succs f ∧ (Branching G f → Holds G σ x)

def Answers (tree : EdgeHolder ν) (labels : List (Formula γ)) (σ : γ → Bool) (f n : ν) : Prop :=
  ∃ id : ℕ, (n, (id : ℤ)) ∈ tree.neighbors f ∧ ∃ e, labels[id]? = some e ∧ e.eval σ = true

def EndsIn (step : ν → ν → Prop) (a t : ν) : Prop :=
  (∀ u, Relation.ReflTransGen step a u → Relation.ReflTransGen step u t) ∧ ∀ v, ¬step t v

/-- An acyclic graph in which all nodes are reached, its terminal nodes, and its post-dominance
frontier and tree with the artificial end `last`; every successor of a branching node has a
condition. -/
structure IsInput [DecidableEq ν] (G : Input ν γ) (last : ν) : Prop where
  acyclic : Acyclic G.sg.succs
  reached : ∀ n ∈ G.sg.nodes G.bstart, Reach G.sg.succs G.bstart n
  targets : ∀ n, n ∈ G.targets ↔ n ∈ G.sg.nodes G.bstart ∧ G.sg.succs n = []
  distinct : G.targets.Nodup
  fresh : last ∉ G.sg.nodes G.bstart
  pdomf : ∀ n m, m ∈ G.pdomf.succs n ↔ InPostFrontier G.sg.succs last n m
  pdomtree : ∀ m n, G.pdomtree m = some n ↔
    m ∈ G.sg.nodes G.bstart ∧ ImmediatelyPostDominates G.sg.succs last n m
  conditions : ∀ f, Branching G f → ∀ x ∈ G.sg.succs f, G.conditions x ≠ []

end Specification

section Outermost

variable [DecidableEq ν] {G : Input ν γ} {last n k x f : ν}

abbrev Post (G : Input ν γ) (last n x : ν) : Prop := PostDominates G.sg.succs last n x

/-- Only the artificial end strictly post-dominates the node. -/
def Outermost (G : Input ν γ) (last n : ν) : Prop :=
  n ∈ G.sg.nodes G.bstart ∧ ∀ k, StrictlyPostDominates G.sg.succs last k n → k = last

variable (h : IsInput G last)

include h

theorem IsInput.ne_last (hn : n ∈ G.sg.nodes G.bstart) : n ≠ last := fun heq => h.fresh (heq ▸ hn)

theorem IsInput.exists_exit (hx : x ∈ G.sg.nodes G.bstart) :
    ∃ nodes, Exit G.sg.succs last x nodes := by
  refine h.acyclic.induction (closed_nodes G.bstart)
    (P := fun x => ∃ nodes, Exit G.sg.succs last x nodes) ?_ x hx
  intro u hu ih
  cases hsuccs : G.sg.succs u with
  | nil => exact ⟨_, .stop (h.ne_last hu) hsuccs⟩
  | cons v vs =>
    obtain ⟨nodes, hnodes⟩ := ih v (edge_of_succs hsuccs)
    exact ⟨_, .step (edge_of_succs hsuccs) hnodes⟩

theorem IsInput.mem_srt : n ∈ srt G ↔ n ∈ G.sg.nodes G.bstart := by
  rw [srt, mem_topoSort_iff]
  constructor
  · exact (closed_nodes G.bstart).reach (start_mem_nodes G.bstart)
  · exact h.reached n

omit h in
theorem nodup_srt : (srt G).Nodup :=
  (topoSort_invariant (closed_nodes G.bstart) (start_mem_nodes _) subset_rfl).2.2.1

omit h in
theorem ranks_of_split {before after : List ν} (hsplit : srt G = before ++ n :: after) :
    ranks G n = before.length := by
  apply reverseSorted_of_getElem? nodup_srt
  rw [hsplit]
  simp

theorem IsInput.rank_lt_length (hn : n ∈ G.sg.nodes G.bstart) : ranks G n < (srt G).length := by
  obtain ⟨before, after, hsplit⟩ := append_of_mem (h.mem_srt.mpr hn)
  rw [ranks_of_split hsplit, hsplit, length_append, length_cons]
  omega

theorem IsInput.rank_edge (hf : f ∈ G.sg.nodes G.bstart) (hedge : Edge G.sg.succs f x) :
    ranks G x < ranks G f := by
  obtain ⟨before, after, hsplit⟩ := append_of_mem (h.mem_srt.mpr hf)
  have hbefore : x ∈ before := by
    have hordered := (topoSort_invariant (closed_nodes G.bstart)
      (start_mem_nodes _) subset_rfl).2.2.2.2 before f after hsplit x hedge
    exact hordered.resolve_right fun hreach => h.acyclic.not_edge_of_reach hreach hedge
  obtain ⟨first, rest, rfl⟩ := append_of_mem hbefore
  have hx : srt G = first ++ x :: (rest ++ f :: after) := by
    rw [hsplit]
    simp
  rw [ranks_of_split hsplit, ranks_of_split hx, length_append, length_cons]
  omega

theorem IsInput.rank_reach (hf : f ∈ G.sg.nodes G.bstart) (hreach : Reach G.sg.succs f x) :
    x = f ∨ ranks G x < ranks G f := by
  induction hreach with
  | refl => exact Or.inl rfl
  | tail hreach hedge ih =>
    have hless := h.rank_edge ((closed_nodes G.bstart).reach hf hreach) hedge
    rcases ih with rfl | ih
    · exact Or.inr hless
    · exact Or.inr (hless.trans ih)

theorem IsInput.rank_post (hx : x ∈ G.sg.nodes G.bstart) (hpost : Post G last n x) (hn : n ≠ last) :
    n ∈ G.sg.nodes G.bstart ∧ (n = x ∨ ranks G n < ranks G x) := by
  obtain ⟨nodes, hexit⟩ := h.exists_exit hx
  have hreach := hexit.reach (hpost nodes hexit) hn
  exact ⟨(closed_nodes G.bstart).reach hx hreach, h.rank_reach hx hreach⟩

theorem IsInput.exists_outermost (hx : x ∈ G.sg.nodes G.bstart) : ∃ n, Outermost G last n ∧
    Post G last n x := by
  induction hr : ranks G x using Nat.strong_induction_on generalizing x with
  | _ r ih =>
    by_cases houter : Outermost G last x
    · exact ⟨x, houter, postDominates_refl⟩
    · obtain ⟨k, ⟨hpost, hne⟩, hlast⟩ : ∃ k, StrictlyPostDominates G.sg.succs last k x ∧
          k ≠ last := by
        by_contra hnone
        refine houter ⟨hx, fun k hk => ?_⟩
        by_contra hlast
        exact hnone ⟨k, hk, hlast⟩
      obtain ⟨hk, hrank⟩ := h.rank_post hx hpost hlast
      obtain ⟨n, hn, hnk⟩ := ih _ (hr ▸ hrank.resolve_left hne) hk rfl
      exact ⟨n, hn, hnk.trans hpost⟩

theorem IsInput.outermost_unique (hx : x ∈ G.sg.nodes G.bstart) (hn : Outermost G last n)
    (hk : Outermost G last k) (hnx : Post G last n x) (hkx : Post G last k x) : n = k := by
  obtain ⟨nodes, hexit⟩ := h.exists_exit hx
  by_contra hne
  rcases PostDominates.total hexit hnx hkx with hpost | hpost
  · exact h.ne_last hn.1 (hk.2 n ⟨hpost, hne⟩)
  · exact h.ne_last hk.1 (hn.2 k ⟨hpost, Ne.symm hne⟩)

theorem IsInput.outermost_target (hn : n ∈ G.targets) : Outermost G last n := by
  obtain ⟨hmem, hsuccs⟩ := (h.targets n).mp hn
  refine ⟨hmem, fun k hk => ?_⟩
  have hin := hk.1 _ (.stop (h.ne_last hmem) hsuccs)
  rcases mem_cons.mp hin with heq | hin
  · exact absurd heq hk.2
  · exact mem_singleton.mp hin

section

variable (hn : Outermost G last n) (hf : f ∈ G.pdomf.succs n)

include hn hf

theorem IsInput.frontier_edge : ∃ s, Edge G.sg.succs f s ∧ Post G last n s := by
  obtain ⟨⟨s, hfollows, hpost⟩, -⟩ := (h.pdomf n f).mp hf
  rcases hfollows with hedge | ⟨-, -, rfl⟩
  · exact ⟨s, hedge, hpost⟩
  · exact absurd (mem_singleton.mp (hpost _ .last)) (h.ne_last hn.1)

theorem IsInput.rank_frontier : ranks G n < ranks G f := by
  obtain ⟨s, hedge, hpost⟩ := h.frontier_edge hn hf
  have hless := h.rank_edge (source_mem_nodes hedge) hedge
  rcases (h.rank_post (target_mem_nodes hedge) hpost (h.ne_last hn.1)).2 with rfl | hrank
  · exact hless
  · exact hrank.trans hless

theorem IsInput.outermost_frontier : Outermost G last f := by
  obtain ⟨s, hedge, hpost⟩ := h.frontier_edge hn hf
  have hstrict := ((h.pdomf n f).mp hf).2
  have hne : n ≠ f := fun heq => absurd (h.rank_frontier hn hf) (by rw [heq]; exact lt_irrefl _)
  refine ⟨source_mem_nodes hedge, fun k hk => ?_⟩
  obtain ⟨nodes, hexit⟩ := h.exists_exit (target_mem_nodes hedge)
  rcases PostDominates.total hexit hpost (hk.1.edge hk.2 hedge) with hnk | hkn
  · exact absurd ⟨hnk.trans hk.1, hne⟩ hstrict
  · by_cases heq : k = n
    · exact absurd (heq ▸ hk) hstrict
    · exact hn.2 k ⟨hkn, heq⟩

end

section

variable (hf : Outermost G last f) (hedge : Edge G.sg.succs f x)

include hf hedge

theorem IsInput.mem_frontier (hn : Outermost G last n) (hpost : Post G last n x) :
    f ∈ G.pdomf.succs n :=
  (h.pdomf n f).mpr ⟨⟨x, Or.inl hedge, hpost⟩, fun hstrict => h.ne_last hn.1 (hf.2 n hstrict)⟩

theorem IsInput.exists_other (hn : Outermost G last n)
    (hpost : Post G last n x) : ∃ y, Edge G.sg.succs f y ∧ ¬Post G last n y := by
  by_contra hnone
  have hall : ∀ y, Edge G.sg.succs f y → Post G last n y := by
    intro y hy
    by_contra hnot
    exact hnone ⟨y, hy, hnot⟩
  have hpostf : Post G last n f :=
    postDominates_of_edges (h.ne_last hf.1) (ne_nil_of_mem hedge) hall
  have hrank := h.rank_frontier hn (h.mem_frontier hf hedge hn hpost)
  have hne : n ≠ f := fun heq => absurd hrank (by rw [heq]; exact lt_irrefl _)
  exact h.ne_last hn.1 (hf.2 n ⟨hpostf, hne⟩)

theorem IsInput.branching : Branching G f := by
  obtain ⟨n, hn, hpost⟩ := h.exists_outermost (target_mem_nodes hedge)
  obtain ⟨y, hy, hnot⟩ := h.exists_other hf hedge hn hpost
  exact ⟨x, hedge, y, hy, fun heq => hnot (heq ▸ hpost)⟩

end

theorem IsInput.exists_immediate (hx : x ∈ G.sg.nodes G.bstart) :
    ∃ p, ImmediatelyPostDominates G.sg.succs last p x := by
  classical
  let strict := (G.sg.nodes G.bstart).filter fun k => StrictlyPostDominates G.sg.succs last k x
  have hmem : ∀ k, k ≠ last → StrictlyPostDominates G.sg.succs last k x → k ∈ strict :=
    fun k hk hstrict =>
    Finset.mem_filter.mpr ⟨(h.rank_post hx hstrict.1 hk).1, hstrict⟩
  by_cases hempty : strict.Nonempty
  · -- the one of the highest rank is the next on every path
    obtain ⟨p, hp, hmax⟩ := strict.exists_max_image (ranks G) hempty
    obtain ⟨hpnode, hstrict⟩ := Finset.mem_filter.mp hp
    refine ⟨p, hstrict, fun k hk => ?_⟩
    by_cases hlast : k = last
    · rw [hlast]
      exact postDominates_last
    · obtain ⟨nodes, hexit⟩ := h.exists_exit hx
      rcases PostDominates.total hexit hstrict.1 hk.1 with hpk | hkp
      · have hkmem := hmem k hlast hk
        rcases (h.rank_post (Finset.mem_filter.mp hkmem).1 hpk
          (h.ne_last hpnode)).2 with rfl | hless
        · exact postDominates_refl
        · exact absurd hless (not_lt_of_ge (hmax k hkmem))
      · exact hkp
  · refine ⟨last, ⟨postDominates_last, (h.ne_last hx).symm⟩, fun k hk => ?_⟩
    by_cases hlast : k = last
    · rw [hlast]
      exact postDominates_refl
    · exact absurd ⟨k, hmem k hlast hk⟩ hempty

theorem IsInput.dominates_iff (hn : n ∈ G.sg.nodes G.bstart) {bound : ℕ}
    (hx : x ∈ G.sg.nodes G.bstart)
    (hbound : ranks G x < bound) : dominates G.pdomtree n bound x = true ↔ Post G last n x := by
  induction bound generalizing x with
  | zero => omega
  | succ bound ih =>
    obtain ⟨p, hp⟩ := h.exists_immediate hx
    rw [dominates, (h.pdomtree x p).mpr ⟨hx, hp⟩]
    have hpost : Post G last n x ↔ x = n ∨ Post G last n p := by
      constructor
      · intro hpost
        by_cases heq : x = n
        · exact Or.inl heq
        · exact Or.inr (hp.2 n ⟨hpost, Ne.symm heq⟩)
      · rintro (rfl | hpost)
        · exact postDominates_refl
        · exact hpost.trans hp.1.1
    by_cases heq : x = n
    · simp [heq, postDominates_refl]
    · rw [if_neg heq, hpost, or_iff_right heq]
      show dominates G.pdomtree n bound p = true ↔ Post G last n p
      by_cases hlast : p = last
      · -- the artificial end has no parent
        have hnot : ¬Post G last n p := fun hpost => by
          rw [hlast] at hpost
          exact h.ne_last hn (mem_singleton.mp (hpost _ .last))
        have hend : G.pdomtree p = none := by
          cases hparent : G.pdomtree p with
          | none => rfl
          | some q => exact absurd (hlast ▸ ((h.pdomtree p q).mp hparent).1) h.fresh
        refine iff_of_false ?_ hnot
        cases bound with
        | zero => exact Bool.false_ne_true
        | succ bound =>
          have hne : p ≠ n := fun heq => h.ne_last hn (heq ▸ hlast)
          simp [dominates, hend, hne]
      · obtain ⟨hpnode, hrank⟩ := h.rank_post hx hp.1.1 hlast
        have hless := hrank.resolve_left hp.1.2
        exact ih hpnode (by omega)

end Outermost

section Choosing

variable [DecidableEq ν] {G : Input ν γ} {order : Iteration ν} {s : State ν γ}

/-- The best of the candidates so far is one of them, and none that is not met has a lower rank. -/
def BestOf (G : Input ν γ) (s : State ν γ) (cs : List (ν × ν)) : Option (ν × ν) → Prop
  | none => ∀ c ∈ cs, Met s c.2 ∨ (srt G).length ≤ ranks G c.2
  | some b => b ∈ cs ∧ ¬Met s b.2 ∧ ∀ c ∈ cs, ¬Met s c.2 → ranks G b.2 ≤ ranks G c.2

theorem BestOf.snoc {best : Option (ν × ν)} (h : BestOf G s cs best) (c : ν × ν) :
    BestOf G s (cs ++ [c]) (better G s best c) := by
  unfold better
  by_cases hmet : Met s c.2
  · rw [if_pos hmet]
    cases best with
    | none => exact forall_mem_append.mpr ⟨h, by simp [hmet]⟩
    | some b =>
      obtain ⟨hb, hopen, hleast⟩ := h
      exact ⟨mem_append_left _ hb, hopen, forall_mem_append.mpr ⟨hleast, by simp [hmet]⟩⟩
  · rw [if_neg hmet]
    cases best with
    | none =>
      show BestOf G s (cs ++ [c]) (if ranks G c.2 < (srt G).length then some c else none)
      by_cases hrank : ranks G c.2 < (srt G).length
      · rw [if_pos hrank]
        refine ⟨mem_append_right _ (mem_singleton_self c), hmet,
          forall_mem_append.mpr ⟨?_, by simp⟩⟩
        intro d hd hopen
        have := (h d hd).resolve_left hopen
        omega
      · rw [if_neg hrank]
        exact forall_mem_append.mpr ⟨h, by simp; omega⟩
    | some b =>
      obtain ⟨hb, hopen, hleast⟩ := h
      show BestOf G s (cs ++ [c]) (if ranks G c.2 < ranks G b.2 then some c else some b)
      by_cases hrank : ranks G c.2 < ranks G b.2
      · rw [if_pos hrank]
        refine ⟨mem_append_right _ (mem_singleton_self c), hmet,
          forall_mem_append.mpr ⟨?_, by simp⟩⟩
        intro d hd hopen
        have := hleast d hd hopen
        omega
      · rw [if_neg hrank]
        exact ⟨mem_append_left _ hb, hopen, forall_mem_append.mpr ⟨hleast, by simp; omega⟩⟩

theorem bestOf_nextStop : BestOf G s (candidates order G s) (nextStop order G s) := by
  have hfold : ∀ cs rest best, BestOf G s cs best →
      BestOf G s (cs ++ rest) (rest.foldl (better G s) best) := by
    intro cs rest
    induction rest generalizing cs with
    | nil => simp
    | cons c rest ih =>
      intro best hbest
      simpa using ih (cs ++ [c]) _ (hbest.snoc c)
  exact hfold [] (candidates order G s) none (by simp [BestOf])

omit [DecidableEq ν] in
theorem mem_candidates : c ∈ candidates order G s ↔ c.1 ∈ s.frontier ∧ c.2 ∈ G.pdomf.succs c.1 := by
  simp only [candidates, mem_flatMap, (order.perm s.frontier).mem_iff, mem_map]
  constructor
  · rintro ⟨n, hn, f, hf, rfl⟩
    exact ⟨hn, hf⟩
  · rintro ⟨hn, hf⟩
    exact ⟨c.1, hn, c.2, hf, rfl⟩

end Choosing

section Labels

variable {G : Input ν γ} {σ : γ → Bool}

theorem neighFormula_spec {conditions : List γ} (hne : conditions ≠ []) :
    ∃ e, neighFormula conditions = some e ∧
    ∀ σ, e.eval σ = true ↔ ∀ c ∈ conditions, σ c = true := by
  induction conditions using List.reverseRecOn with
  | nil => exact absurd rfl hne
  | append_singleton front c ih =>
    rw [neighFormula, foldl_append]
    by_cases hfront : front = []
    · subst hfront
      exact ⟨.cond c, rfl, fun σ => by simp [Formula.eval]⟩
    · obtain ⟨e, he, heval⟩ := ih hfront
      rw [neighFormula] at he
      rw [he]
      refine ⟨.land (.cond c) e, rfl, fun σ => ?_⟩
      rw [Formula.eval, Bool.and_eq_true, heval σ, Formula.eval, forall_mem_append]
      simp [and_comm]

theorem foldlM_disjoin {pairs : List (ν × ν)} (hconditions : ∀ p ∈ pairs, G.conditions p.2 ≠ [])
    (start : Formula γ) :
    ∃ e, pairs.foldlM (fun e p => disjoin e (neighFormula (G.conditions p.2))) (some start) =
      .ok (some e) ∧ ∀ σ, e.eval σ = true ↔ start.eval σ = true ∨ ∃ p ∈ pairs, Holds G σ p.2 := by
  induction pairs generalizing start with
  | nil => exact ⟨start, rfl, fun σ => by simp⟩
  | cons p pairs ih =>
    obtain ⟨hp, hconditions⟩ := forall_mem_cons.mp hconditions
    obtain ⟨f, hf, hfeval⟩ := neighFormula_spec hp
    obtain ⟨e, he, heval⟩ := ih hconditions (.lor f start)
    refine ⟨e, ?_, fun σ => ?_⟩
    · rw [foldlM_cons, hf]
      exact he
    · rw [heval σ, Formula.eval, Bool.or_eq_true, hfeval σ, exists_mem_cons_iff, ← or_assoc]
      exact or_congr_left or_comm

theorem formulaOf_spec [DecidableEq ν] {n : ν} (hconditions : ∀ p ∈ pairs, G.conditions p.2 ≠ [])
    (hn : n ∈ pairs.map Prod.fst) : ∃ e, formulaOf G pairs n = .ok (some e) ∧
      ∀ σ, e.eval σ = true ↔ ∃ p ∈ pairs, p.1 = n ∧ Holds G σ p.2 := by
  have hfilter : ∀ p, p ∈ pairs.filter (fun p => p.1 = n) ↔ p ∈ pairs ∧ p.1 = n := by simp
  rw [formulaOf]
  cases hpairs : pairs.filter (fun p => p.1 = n) with
  | nil =>
    obtain ⟨p, hp, hpn⟩ := mem_map.mp hn
    have hmem := (hfilter p).mpr ⟨hp, hpn⟩
    rw [hpairs] at hmem
    cases hmem
  | cons p rest =>
    rw [hpairs] at hfilter
    have hall : ∀ q ∈ p :: rest, G.conditions q.2 ≠ [] :=
      fun q hq => hconditions q ((hfilter q).mp hq).1
    obtain ⟨hp, hrest⟩ := forall_mem_cons.mp hall
    obtain ⟨f, hf, hfeval⟩ := neighFormula_spec hp
    obtain ⟨e, he, heval⟩ := foldlM_disjoin hrest f
    refine ⟨e, ?_, fun σ => ?_⟩
    · rw [foldlM_cons, hf]
      exact he
    · rw [heval σ, hfeval σ]
      constructor
      · rintro (hholds | ⟨q, hq, hholds⟩)
        · obtain ⟨hmem, hpn⟩ := (hfilter p).mp mem_cons_self
          exact ⟨p, hmem, hpn, hholds⟩
        · obtain ⟨hmem, hqn⟩ := (hfilter q).mp (mem_cons_of_mem _ hq)
          exact ⟨q, hmem, hqn, hholds⟩
      · rintro ⟨q, hq, hqn, hholds⟩
        rcases mem_cons.mp ((hfilter q).mpr ⟨hq, hqn⟩) with rfl | hq
        · exact Or.inl hholds
        · exact Or.inr ⟨q, hq, hholds⟩

end Labels

section Edges

variable [DecidableEq ν] {G : Input ν γ} {order : Iteration ν} {s : State ν γ}

def LabelOf (G : Input ν γ) (pairs : List (ν × ν)) (labels : List (Formula γ)) (d : ν × ℤ) : Prop :=
  ∃ i : ℕ, d.2 = i ∧ ∃ e, labels[i]? = some e ∧ ∀ σ, e.eval σ = true ↔
    ∃ p ∈ pairs, p.1 = d.1 ∧ Holds G σ p.2

/-- Edges to the nodes of a list are added below `nextstop`. -/
structure Added (G : Input ν γ) (nextstop : ν) (pairs : List (ν × ν)) (ns : List ν)
    (s t : State ν γ) : Prop where
  others : ∀ f, f ≠ nextstop → t.decisionTree.neighbors f = s.decisionTree.neighbors f
  labels : s.edgeLabels <+: t.edgeLabels
  kept : ∀ d ∈ s.decisionTree.neighbors nextstop, d ∈ t.decisionTree.neighbors nextstop
  edges : ∀ d ∈ t.decisionTree.neighbors nextstop,
    d ∈ s.decisionTree.neighbors nextstop ∨ (d.1 ∈ ns ∧ LabelOf G pairs t.edgeLabels d)
  complete : ∀ n ∈ ns, ∃ d ∈ t.decisionTree.neighbors nextstop, d.1 = n

theorem getElem?_of_front {labels more : List (Formula γ)} (h : labels <+: more) {i : ℕ}
    {e : Formula γ}
    (hi : labels[i]? = some e) : more[i]? = some e := by
  obtain ⟨rest, rfl⟩ := h
  obtain ⟨hlt, -⟩ := List.getElem?_eq_some_iff.mp hi
  rw [List.getElem?_append_left hlt, hi]

omit [DecidableEq ν] in
theorem LabelOf.more {labels more : List (Formula γ)}
    (h : LabelOf G pairs labels d) (hmore : labels <+: more) : LabelOf G pairs more d := by
  obtain ⟨i, hi, e, he, heval⟩ := h
  exact ⟨i, hi, e, getElem?_of_front hmore he, heval⟩

theorem foldlM_addEdge {pairs : List (ν × ν)} (hconditions : ∀ p ∈ pairs, G.conditions p.2 ≠ [])
    {ns : List ν} (hns : ∀ n ∈ ns, n ∈ pairs.map Prod.fst) (s : State ν γ) :
    ∃ t, ns.foldlM (addEdge G nextstop pairs) s = .ok t ∧ Added G nextstop pairs ns s t := by
  induction ns generalizing s with
  | nil =>
    exact ⟨s, rfl, fun _ _ => rfl, prefix_rfl, fun _ hd => hd,
      fun _ hd => Or.inl hd, by simp⟩
  | cons n ns ih =>
    obtain ⟨hn, hns⟩ := forall_mem_cons.mp hns
    obtain ⟨e, he, heval⟩ := formulaOf_spec hconditions hn
    let u : State ν γ := { s with
      decisionTree := s.decisionTree.push nextstop (n, (s.edgeLabels.length : ℤ))
      edgeLabels := s.edgeLabels ++ [e] }
    have hu : addEdge G nextstop pairs s n = .ok u := by
      rw [addEdge, he]
    have hself : u.decisionTree.neighbors nextstop =
        s.decisionTree.neighbors nextstop ++ [(n, (s.edgeLabels.length : ℤ))] :=
          Function.update_self _ _ _
    have hother : ∀ f, f ≠ nextstop → u.decisionTree.neighbors f = s.decisionTree.neighbors f :=
      fun f hf => Function.update_of_ne hf _ _
    have hlabels : s.edgeLabels <+: u.edgeLabels := ⟨[e], rfl⟩
    have hnew : LabelOf G pairs u.edgeLabels (n, (s.edgeLabels.length : ℤ)) :=
      ⟨s.edgeLabels.length, rfl, e, by simp [u], heval⟩
    obtain ⟨t, ht, hadded⟩ := ih hns u
    refine ⟨t, ?_, ?_, hlabels.trans hadded.labels, ?_, ?_, ?_⟩
    · rw [foldlM_cons, hu]
      exact ht
    · intro f hf
      rw [hadded.others f hf, hother f hf]
    · intro d hd
      refine hadded.kept d ?_
      rw [hself]
      exact mem_append_left _ hd
    · intro d hd
      rcases hadded.edges d hd with hd | ⟨hd, hlabel⟩
      · rw [hself] at hd
        rcases mem_append.mp hd with hd | hd
        · exact Or.inl hd
        · rw [mem_singleton.mp hd]
          exact Or.inr ⟨mem_cons_self, hnew.more hadded.labels⟩
      · exact Or.inr ⟨mem_cons_of_mem _ hd, hlabel⟩
    · intro m hm
      rcases mem_cons.mp hm with rfl | hm
      · refine ⟨(m, (s.edgeLabels.length : ℤ)), hadded.kept _ ?_, rfl⟩
        rw [hself]
        exact mem_append_right _ (mem_singleton_self _)
      · exact hadded.complete m hm

omit [DecidableEq ν] in
theorem alive_congr (h : ∀ f, Met s f ↔ Met t f) : Alive G s n ↔ Alive G t n :=
  exists_congr fun f => and_congr_right fun _ => not_congr (h f)

/-- Retiring nodes loses none of them. -/
structure Retired (G : Input ν γ) (nextstop : ν) (s t : State ν γ) : Prop where
  met : ∀ n, Met t n ↔ Met s n ∨ n = nextstop
  nodup : t.frontier.Nodup
  stop : nextstop ∈ t.frontier
  alive : ∀ n ∈ t.frontier, n ≠ nextstop → Alive G t n
  solved : ∀ n ∈ t.solved, n ∈ s.solved ∨ ¬Alive G t n

theorem retired_retire {nextstop : ν} (hnodup : s.frontier.Nodup) (hnew : nextstop ∉ s.frontier) :
    Retired G nextstop s (retire G nextstop s) := by
  let u : State ν γ := { s with frontier := s.frontier ++ [nextstop] }
  have hu : retire G nextstop s = { u with
      frontier := u.frontier.filter fun n => n = nextstop ∨ Alive G u n
      solved := u.solved ++ u.frontier.filter fun n => ¬(n = nextstop ∨ Alive G u n) } := by
    simp only [retire, if_neg hnew]
    rfl
  have hsame : ∀ n, Met u n ↔ Met (retire G nextstop s) n := by
    intro n
    rw [hu]
    simp only [Met, mem_filter, mem_append, decide_eq_true_eq]
    tauto
  have hfrontier : ∀ n, n ∈ (retire G nextstop s).frontier ↔
      n ∈ u.frontier ∧ (n = nextstop ∨ Alive G u n) := by
    intro n
    rw [hu]
    simp only [mem_filter, decide_eq_true_eq]
  refine ⟨fun n => ?_, ?_, ?_, ?_, ?_⟩
  · rw [← hsame n]
    simp only [Met, u, mem_append, mem_singleton]
    tauto
  · rw [hu]
    refine List.Nodup.filter _ ?_
    show (s.frontier ++ [nextstop]).Nodup
    rw [← concat_eq_append]
    exact hnodup.concat hnew
  · exact (hfrontier nextstop).mpr ⟨mem_append_right _ (mem_singleton_self _), Or.inl rfl⟩
  · intro n hn hne
    exact (alive_congr hsame).mp (((hfrontier n).mp hn).2.resolve_left hne)
  · intro n hn
    rw [hu] at hn
    rcases mem_append.mp hn with hn | hn
    · exact Or.inl hn
    · have hnot : ¬(n = nextstop ∨ Alive G u n) := by simpa using (mem_filter.mp hn).2
      exact Or.inr fun halive => hnot (Or.inr ((alive_congr hsame).mpr halive))

theorem mem_parts {n : ν} : n ∈ parts order pairs ↔ n ∈ pairs.map Prod.fst := by
  rw [parts, (order.perm _).mem_iff, mem_dedup]

omit [DecidableEq ν] in
theorem one_lt_length {l : List ν} {a b : ν} (ha : a ∈ l) (hb : b ∈ l) (hne : a ≠ b) :
    1 < l.length := by
  match l with
  | [] => cases ha
  | [c] => exact absurd ((mem_singleton.mp ha).trans (mem_singleton.mp hb).symm) hne
  | _ :: _ :: _ => simp

end Edges

section Checked

variable [DecidableEq ν] {G : Input ν γ} {order : Iteration ν} {fresh : ν} {s t : State ν γ}

theorem bind_eq_ok {ε α β : Type} {x : Except ε α} {f : α → Except ε β} {b : β}
    (h : (x >>= f) = .ok b) : ∃ a, x = .ok a ∧ f a = .ok b := by
  cases x with
  | error e => cases h
  | ok a => exact ⟨a, rfl, h⟩

theorem mem_of_partition {nextstop : ν} {pairs : List (ν × ν)}
    (h : partitionByPdom order G s nextstop = .ok pairs) : ∀ p ∈ pairs, p.1 ∈ s.frontier := by
  have hpairs : ∀ {xs : List ν} {pairs}, xs.mapM (partitioned order G s) = .ok pairs →
      ∀ p ∈ pairs, p.1 ∈ s.frontier := by
    intro xs
    induction xs with
    | nil =>
      rintro pairs h p hp
      cases h
      cases hp
    | cons x xs ih =>
      intro pairs h
      rw [mapM_cons] at h
      obtain ⟨q, hq, h⟩ := bind_eq_ok h
      obtain ⟨qs, hqs, h⟩ := bind_eq_ok h
      cases h
      refine forall_mem_cons.mpr ⟨?_, ih hqs⟩
      rw [partitioned] at hq
      split at hq
      · rename_i n hfind
        cases hq
        exact (order.perm _).mem_iff.mp (mem_of_find?_eq_some hfind)
      · cases hq
  rw [partitionByPdom] at h
  split_ifs at h
  · obtain ⟨qs, hqs, h⟩ := bind_eq_ok h
    split at h
    · cases h
      exact hpairs hqs
    · cases h
  · cases h
    exact fun p hp => absurd hp not_mem_nil

theorem keeps_addEdge {nextstop : ν} {pairs : List (ν × ν)} {ns : List ν}
    (h : ns.foldlM (addEdge G nextstop pairs) s = .ok t) :
    t.frontier = s.frontier ∧ t.solved = s.solved ∧
      ∀ u v, Edge t.decisionTree.succs u v → Edge s.decisionTree.succs u v ∨ v ∈ ns := by
  induction ns generalizing s with
  | nil =>
    cases h
    exact ⟨rfl, rfl, fun u v hedge => Or.inl hedge⟩
  | cons n ns ih =>
    obtain ⟨s', hs', h⟩ := bind_eq_ok h
    obtain ⟨hfrontier, hsolved, hedges⟩ := ih h
    rw [addEdge] at hs'
    split at hs'
    · cases hs'
    · cases hs'
    · cases hs'
      refine ⟨hfrontier, hsolved, fun u v hedge => ?_⟩
      rcases hedges u v hedge with hedge | hv
      · rcases edge_push.mp hedge with hedge | ⟨-, rfl⟩
        · exact Or.inl hedge
        · exact Or.inr mem_cons_self
      · exact Or.inr (mem_cons_of_mem _ hv)

/-- What a round that trips no check does, whatever the input. -/
theorem expand_spec {c : ν × ν} (hnodup : s.frontier.Nodup) (hnew : c.2 ∉ s.frontier)
    (h : expand order G s c.1 c.2 = .ok t) :
    Retired G c.2 s t ∧ ∀ u v, Edge t.decisionTree.succs u v →
      Edge s.decisionTree.succs u v ∨ v ∈ s.frontier := by
  rw [expand] at h
  split_ifs at h
  obtain ⟨pairs, hpairs, h⟩ := bind_eq_ok h
  obtain ⟨s', hs', h⟩ := bind_eq_ok h
  cases h
  obtain ⟨hfrontier, hsolved, hedges⟩ := keeps_addEdge hs'
  have hretired : Retired G c.2 s' (retire G c.2 s') :=
    retired_retire (hfrontier ▸ hnodup) (hfrontier ▸ hnew)
  refine ⟨⟨fun n => ?_, hretired.nodup, hretired.stop, hretired.alive, ?_⟩, fun u v hedge => ?_⟩
  · rw [hretired.met, Met, Met, hfrontier, hsolved]
  · rw [← hsolved]
    exact hretired.solved
  · refine (hedges u v hedge).imp_right fun hv => ?_
    obtain ⟨p, hp, rfl⟩ := mem_map.mp (mem_parts.mp hv)
    exact mem_of_partition hpairs p hp

def left (G : Input ν γ) : Except Bug (State ν γ) → ℕ
  | .error _ => 0
  | .ok s => ((stops G).filter fun n => ¬Met s n).length + 1

theorem chosen_stop {c : ν × ν} (hc : nextStop order G s = some c) :
    c ∈ candidates order G s ∧ ¬Met s c.2 ∧ c.2 ∈ stops G := by
  have hbest := @bestOf_nextStop _ _ _ G order s
  rw [hc] at hbest
  have hstop := (mem_candidates.mp hbest.1).2
  exact ⟨hbest.1, hbest.2.1, mem_flatMap.mpr ⟨c.1, source_mem_keys hstop, hstop⟩⟩

theorem length_filter_lt {α : Type} {p q : α → Prop} [DecidablePred p] [DecidablePred q]
    {l : List α} {a : α} (hq : ∀ x, q x ↔ p x ∧ x ≠ a) (ha : a ∈ l) (hp : p a) :
    (l.filter fun x => q x).length < (l.filter fun x => p x).length := by
  have hfilter : l.filter (fun x => q x) = (l.filter fun x => p x).filter fun x => q x := by
    rw [filter_filter]
    refine filter_congr fun x _ => ?_
    simp +contextual [hq]
  rw [hfilter]
  exact length_filter_lt_length_iff_exists.mpr
    ⟨a, mem_filter.mpr ⟨ha, decide_eq_true hp⟩, by simp [hq]⟩

theorem Retired.left_lt {n : ν} (h : Retired G n s t) (hstop : n ∈ stops G) (hopen : ¬Met s n) :
    left G (.ok t) < left G (.ok s) :=
  Nat.succ_lt_succ (length_filter_lt (fun m => by rw [h.met, not_or]) hstop hopen)

/-- The nodes met and the nodes below the edges of the tree are targets or possible stops. -/
def Within (G : Input ν γ) : Except Bug (State ν γ) → Prop
  | .error _ => True
  | .ok s => s.frontier.Nodup ∧ (∀ n, Met s n → n ∈ G.targets ∨ n ∈ stops G) ∧
      ∀ u v, Edge s.decisionTree.succs u v → v ∈ G.targets ∨ v ∈ stops G

theorem body_within {a b : Except Bug (State ν γ)} (hin : Within G a)
    (h : body order G a = some b) : Within G b ∧ left G b < left G a := by
  cases a with
  | error bug => cases h
  | ok s =>
    obtain ⟨c, hc, hb⟩ := Option.map_eq_some_iff.mp h
    obtain ⟨hnodup, hmet, htree⟩ := hin
    obtain ⟨-, hopen, hstop⟩ := chosen_stop hc
    cases b with
    | error bug => exact ⟨trivial, Nat.succ_pos _⟩
    | ok t =>
      obtain ⟨hretired, hedges⟩ := expand_spec hnodup (fun hin => hopen (Or.inl hin)) hb
      refine ⟨⟨hretired.nodup, fun n hn => ?_, fun u v hedge => ?_⟩, hretired.left_lt hstop hopen⟩
      · rcases (hretired.met n).mp hn with hn | rfl
        · exact hmet n hn
        · exact Or.inr hstop
      · exact (hedges u v hedge).elim (htree u v) fun hv => hmet v (Or.inl hv)

/-- The loop always ends, and the tree holds no other nodes than targets, stops and the new node
above several of them. -/
theorem makeDecisionTree_within (htargets : G.targets.Nodup) :
    ∃ r, makeDecisionTree order G fresh = some r ∧
      ∀ {tree start labels n}, r = .ok (tree, start, labels) → Reach tree.succs start n →
        n ∈ G.targets ∨ n ∈ stops G ∨ n = fresh := by
  have hinitial : Within G (.ok (initial G)) := by
    refine ⟨htargets.filter _, fun n hn => ?_, fun u v hedge => absurd hedge not_mem_nil⟩
    exact Or.inl (mem_filter.mp (hn.resolve_right not_mem_nil)).1
  have hbound : left G (.ok (initial G)) < (stops G).length + 2 :=
    Nat.succ_lt_succ (Nat.lt_succ_of_le (length_filter_le _ _))
  obtain ⟨r, hr, hin, -⟩ := loop_of_measure (fun a b => body_within) hinitial hbound
  refine ⟨finish order fresh r, by rw [makeDecisionTree, hr, Option.map_some], ?_⟩
  intro tree start labels n hfinish hreach
  cases r with
  | error bug => cases hfinish
  | ok s =>
    obtain ⟨-, hmet, htree⟩ := hin
    rw [finish] at hfinish
    split at hfinish
    · cases hfinish
    · rename_i top hfrontier
      cases hfinish
      rcases Relation.ReflTransGen.cases_tail hreach with rfl | ⟨u, -, hedge⟩
      · exact (hmet _ (Or.inl (hfrontier ▸ mem_singleton_self _))).imp_right Or.inl
      · exact (htree u _ hedge).imp_right Or.inl
    · cases hfinish
      rcases Relation.ReflTransGen.cases_tail hreach with rfl | ⟨u, -, hedge⟩
      · exact Or.inr (Or.inr rfl)
      · rcases edge_foldl_push.mp hedge with hedge | ⟨f, hf, -, rfl⟩
        · exact (htree u _ hedge).imp_right Or.inl
        · exact (hmet _ (Or.inl ((order.perm _).mem_iff.mp hf))).imp_right Or.inl

end Checked

section Rounds

variable [DecidableEq ν] {G : Input ν γ} {order : Iteration ν} {last : ν} {s t : State ν γ}

/-- The label of an edge is true when a successor that its target post-dominates is taken. -/
def Labelled (G : Input ν γ) (last : ν) (labels : List (Formula γ)) (f : ν) (d : ν × ℤ) : Prop :=
  Outermost G last d.1 ∧ ∃ i : ℕ, d.2 = i ∧ ∃ e, labels[i]? = some e ∧
    ∀ σ, e.eval σ = true ↔ ∃ x ∈ G.sg.succs f, Post G last d.1 x ∧ Holds G σ x

/-- The nodes met so far are outermost and have all their edges. -/
structure Grown (G : Input ν γ) (last : ν) (s : State ν γ) : Prop where
  outermost : ∀ n, Met s n → Outermost G last n
  nodup : s.frontier.Nodup
  targets : ∀ n ∈ G.targets, Met s n
  settled : ∀ n ∈ s.solved, ¬Alive G s n
  edges : ∀ f, ∀ d ∈ s.decisionTree.neighbors f, Met s f ∧ Labelled G last s.edgeLabels f d
  complete : ∀ f, Met s f → ∀ x ∈ G.sg.succs f, ∀ n, Outermost G last n → Post G last n x →
    ∃ d ∈ s.decisionTree.neighbors f, d.1 = n

variable (hs : Grown G last s) (h : IsInput G last)

include hs h

theorem Grown.met_below (hopen : ∀ n ∈ s.frontier, ∀ f ∈ G.pdomf.succs n, ¬Met s f → r ≤ ranks G f)
    (hn : Outermost G last n) (hrank : ranks G n < r) : Met s n := by
  induction hr : ranks G n using Nat.strong_induction_on generalizing n with
  | _ k ih =>
    cases hsuccs : G.sg.succs n with
    | nil => exact hs.targets n ((h.targets n).mpr ⟨hn.1, hsuccs⟩)
    | cons x xs =>
      have hedge : Edge G.sg.succs n x := edge_of_succs hsuccs
      obtain ⟨m, hm, hpost⟩ := h.exists_outermost (target_mem_nodes hedge)
      have hfrontier := h.mem_frontier hn hedge hm hpost
      have hless := h.rank_frontier hm hfrontier
      by_contra hnot
      rcases ih _ (hr ▸ hless) hm (hless.trans hrank) rfl with hmet | hmet
      · have := hopen m hmet n hfrontier hnot
        omega
      · exact hs.settled m hmet ⟨n, hfrontier, hnot⟩

theorem Grown.chosen {c : ν × ν} (hc : nextStop order G s = some c) :
    c.1 ∈ s.frontier ∧ c.2 ∈ G.pdomf.succs c.1 ∧ ¬Met s c.2 ∧ Outermost G last c.2 ∧
      ∀ n, Outermost G last n → ranks G n < ranks G c.2 → Met s n := by
  have hbest := @bestOf_nextStop _ _ _ G order s
  rw [hc] at hbest
  obtain ⟨hmem, hopen, hleast⟩ := hbest
  obtain ⟨hfrontier, hf⟩ := mem_candidates.mp hmem
  refine ⟨hfrontier, hf, hopen, h.outermost_frontier (hs.outermost _ (Or.inl hfrontier)) hf,
    fun n hn hrank => ?_⟩
  exact hs.met_below h
    (fun m hm f hf hnot => hleast (m, f) (mem_candidates.mpr ⟨hm, hf⟩) hnot) hn hrank

theorem Grown.partitioned {xs : List ν}
    (hxs : ∀ x ∈ xs, x ∈ G.sg.nodes G.bstart ∧ ∃ n ∈ s.frontier, Post G last n x) :
    ∃ pairs, xs.mapM (partitioned order G s) = .ok pairs ∧
      (∀ p ∈ pairs, p.2 ∈ xs ∧ Outermost G last p.1 ∧ Post G last p.1 p.2) ∧
        ∀ x ∈ xs, ∃ n, (n, x) ∈ pairs := by
  induction xs with
  | nil => exact ⟨[], rfl, by simp, by simp⟩
  | cons x xs ih =>
    obtain ⟨⟨hx, n, hn, hpost⟩, hxs⟩ := forall_mem_cons.mp hxs
    obtain ⟨pairs, hpairs, hsound, hcomplete⟩ := ih hxs
    have hdominates : ∀ m ∈ s.frontier, dominates G.pdomtree m (srt G).length x = true ↔
        Post G last m x :=
      fun m hm => h.dominates_iff (hs.outermost m (Or.inl hm)).1 hx (h.rank_lt_length hx)
    have hsome : ((order.arrange s.frontier).find? fun n =>
        dominates G.pdomtree n (srt G).length x).isSome = true :=
      find?_isSome.mpr ⟨n, (order.perm _).mem_iff.mpr hn, (hdominates n hn).mpr hpost⟩
    obtain ⟨m, hm⟩ := Option.isSome_iff_exists.mp hsome
    have hmem : m ∈ s.frontier := (order.perm _).mem_iff.mp (mem_of_find?_eq_some hm)
    have htrue := find?_some hm
    have hmpost : Post G last m x := (hdominates m hmem).mp htrue
    refine ⟨(m, x) :: pairs, ?_, ?_, ?_⟩
    · rw [mapM_cons, DecisionTree.partitioned, hm, hpairs]
      rfl
    · refine forall_mem_cons.mpr ⟨⟨mem_cons_self, hs.outermost m (Or.inl hmem), hmpost⟩,
        fun p hp => ?_⟩
      exact ⟨mem_cons_of_mem _ (hsound p hp).1, (hsound p hp).2⟩
    · refine forall_mem_cons.mpr ⟨⟨m, mem_cons_self⟩, fun y hy => ?_⟩
      obtain ⟨k, hk⟩ := hcomplete y hy
      exact ⟨k, mem_cons_of_mem _ hk⟩

theorem Grown.partition {c : ν × ν} (hc : nextStop order G s = some c) :
    ∃ pairs, partitionByPdom order G s c.2 = .ok pairs ∧
      (∀ p ∈ pairs, p.2 ∈ G.sg.succs c.2 ∧ Outermost G last p.1 ∧ Post G last p.1 p.2) ∧
      ∀ x ∈ G.sg.succs c.2, ∃ n, (n, x) ∈ pairs := by
  obtain ⟨hfrontier, hf, hopen, houter, hbelow⟩ := hs.chosen h hc
  obtain ⟨x, hedge, hpost⟩ := h.frontier_edge (hs.outermost _ (Or.inl hfrontier)) hf
  have hkey := source_mem_keys hedge
  have hlength : 1 < (G.sg.succs c.2).length := by
    obtain ⟨a, ha, b, hb, hne⟩ := h.branching houter hedge
    exact one_lt_length ha hb hne
  -- the outermost post-dominators of the successors are met and cannot be solved yet
  have hfound : ∀ y ∈ G.sg.succs c.2, y ∈ G.sg.nodes G.bstart ∧
      ∃ n ∈ s.frontier, Post G last n y := by
    intro y hy
    have hynode : y ∈ G.sg.nodes G.bstart := target_mem_nodes hy
    obtain ⟨n, hn, hny⟩ := h.exists_outermost hynode
    have hin := h.mem_frontier houter hy hn hny
    refine ⟨hynode, n, (hbelow n hn (h.rank_frontier hn hin)).resolve_right fun hsolved => ?_, hny⟩
    exact hs.settled n hsolved ⟨c.2, hin, hopen⟩
  obtain ⟨pairs, hpairs, hsound, hcomplete⟩ := hs.partitioned h hfound
  refine ⟨pairs, ?_, hsound, hcomplete⟩
  have hparts : 1 < (parts order pairs).length := by
    obtain ⟨n, hn⟩ := hcomplete x hedge
    obtain ⟨-, hnouter, hnpost⟩ := hsound _ hn
    obtain ⟨y, hy, hnot⟩ := h.exists_other houter hedge hnouter hnpost
    obtain ⟨m, hm⟩ := hcomplete y hy
    refine one_lt_length (mem_parts.mpr (mem_map_of_mem hn)) (mem_parts.mpr (mem_map_of_mem hm)) ?_
    exact fun heq => hnot ((show n = m from heq) ▸ (hsound _ hm).2.2)
  rw [partitionByPdom, if_pos hkey, if_pos hlength, hpairs]
  show (if 1 < (parts order pairs).length then Except.ok pairs else Except.error
    Bug.fewPartitions) = _
  rw [if_pos hparts]

theorem Grown.expand {c : ν × ν} (hc : nextStop order G s = some c) :
    ∃ t, expand order G s c.1 c.2 = .ok t ∧ Grown G last t ∧ Retired G c.2 s t := by
  obtain ⟨hfrontier, hf, hopen, houter, hbelow⟩ := hs.chosen h hc
  obtain ⟨hnofrontier, hnosolved⟩ := not_or.mp hopen
  obtain ⟨pairs, hpairs, hsound, hcomplete⟩ := hs.partition h hc
  obtain ⟨x, hedge, -⟩ := h.frontier_edge (hs.outermost _ (Or.inl hfrontier)) hf
  have hconditions : ∀ p ∈ pairs, G.conditions p.2 ≠ [] :=
    fun p hp => h.conditions c.2 (h.branching houter hedge) p.2 (hsound p hp).1
  obtain ⟨u, hu, hadded⟩ := @foldlM_addEdge ν γ _ G c.2 pairs hconditions (parts order pairs)
    (fun n hn => mem_parts.mp hn) s
  have hexpand : DecisionTree.expand order G s c.1 c.2 = .ok (retire G c.2 u) := by
    rw [DecisionTree.expand, if_neg hnosolved,
      if_pos (h.rank_frontier (hs.outermost _ (Or.inl hfrontier)) hf), hpairs]
    show ((parts order pairs).foldlM (addEdge G c.2 pairs) s >>= fun s => .ok (retire G c.2 s)) = _
    rw [hu]
    rfl
  obtain ⟨hretired, -⟩ := expand_spec hs.nodup hnofrontier hexpand
  have hmet := hretired.met
  have hold : ∀ d, d ∉ s.decisionTree.neighbors c.2 := fun d hd => hopen (hs.edges c.2 d hd).1
  refine ⟨retire G c.2 u, hexpand, ⟨?_, hretired.nodup, ?_, ?_, ?_, ?_⟩, hretired⟩
  · intro n hn
    rcases (hmet n).mp hn with hn | rfl
    · exact hs.outermost n hn
    · exact houter
  · exact fun n hn => (hmet n).mpr (Or.inl (hs.targets n hn))
  · intro n hn
    rcases hretired.solved n hn with hn | hn
    · rintro ⟨f, hf, hnot⟩
      exact hs.settled n hn ⟨f, hf, fun hmetf => hnot ((hmet f).mpr (Or.inl hmetf))⟩
    · exact hn
  · intro f d hd
    change d ∈ u.decisionTree.neighbors f at hd
    show Met _ f ∧ Labelled G last u.edgeLabels f d
    by_cases hfc : f = c.2
    · subst hfc
      obtain ⟨hpart, i, hi, e, he, heval⟩ := (hadded.edges d hd).resolve_left (hold d)
      obtain ⟨p, hp, hpd⟩ := mem_map.mp (mem_parts.mp hpart)
      have hd1 : Outermost G last d.1 := hpd ▸ (hsound p hp).2.1
      refine ⟨(hmet _).mpr (Or.inr rfl), hd1, i, hi, e, he, fun σ => (heval σ).trans ⟨?_, ?_⟩⟩
      · rintro ⟨q, hq, hqd, hholds⟩
        exact ⟨q.2, (hsound q hq).1, hqd ▸ (hsound q hq).2.2, hholds⟩
      · rintro ⟨y, hy, hpost, hholds⟩
        obtain ⟨n, hn⟩ := hcomplete y hy
        obtain ⟨-, hnouter, hnpost⟩ := hsound _ hn
        exact ⟨(n, y), hn, h.outermost_unique (target_mem_nodes hy) hnouter hd1 hnpost hpost,
          hholds⟩
    · rw [hadded.others f hfc] at hd
      obtain ⟨hmetf, houterd, i, hi, e, he, heval⟩ := hs.edges f d hd
      exact ⟨(hmet f).mpr (Or.inl hmetf), houterd, i, hi, e,
        getElem?_of_front hadded.labels he, heval⟩
  · intro f hfmet y hy n hn hpost
    show ∃ d ∈ u.decisionTree.neighbors f, d.1 = n
    by_cases hfc : f = c.2
    · subst hfc
      obtain ⟨m, hm⟩ := hcomplete y hy
      obtain ⟨-, hmouter, hmpost⟩ := hsound _ hm
      have heq : m = n := h.outermost_unique (target_mem_nodes hy) hmouter hn hmpost hpost
      exact hadded.complete n (heq ▸ mem_parts.mpr (mem_map_of_mem hm))
    · rw [hadded.others f hfc]
      exact hs.complete f (((hmet f).mp hfmet).resolve_right hfc) y hy n hn hpost

end Rounds

section Ending

variable [DecidableEq ν] {G : Input ν γ} {order : Iteration ν} {last top n : ν} {s t : State ν γ}

theorem IsInput.reach_of_top (h : IsInput G last) (htop : Outermost G last top)
    (hn : Outermost G last n)
    (hreach : Reach G.sg.succs a n) (hpost : Post G last top a) : Reach G.sg.succs top n := by
  induction hreach using Relation.ReflTransGen.head_induction_on with
  | refl =>
    by_cases heq : top = n
    · rw [heq]
    · exact absurd (hn.2 top ⟨hpost, heq⟩) (h.ne_last htop.1)
  | @head a b hedge hreach ih =>
    by_cases heq : top = a
    · rw [heq]
      exact .head hedge hreach
    · exact ih (hpost.edge heq hedge)

theorem IsInput.frontier_ne_nil (h : IsInput G last) (hreach : Reach G.sg.succs a b)
    (hb : Post G last n b)
    (ha : ¬Post G last n a) : G.pdomf.succs n ≠ [] := by
  induction hreach using Relation.ReflTransGen.head_induction_on with
  | refl => exact absurd hb ha
  | @head a c hedge _ ih =>
    by_cases hc : Post G last n c
    · exact ne_nil_of_mem ((h.pdomf n a).mpr ⟨⟨c, Or.inl hedge, hc⟩, fun hstrict => ha hstrict.1⟩)
    · exact ih hc

omit [DecidableEq ν] in
theorem eq_of_reach_target {succs : ν → List ν} {t u : ν} (ht : succs t = [])
    (h : Reach succs t u) :
    u = t := by
  rcases Relation.ReflTransGen.cases_head h with heq | ⟨v, hedge, -⟩
  · exact heq.symm
  · rw [Edge, ht] at hedge
    cases hedge

structure IsTop (G : Input ν γ) (last top : ν) : Prop where
  outermost : Outermost G last top
  post : Post G last top G.bstart

section

variable (h : IsInput G last) (htop : IsTop G last top)

include h htop

theorem IsInput.rank_top (hn : Outermost G last n) : n = top ∨ ranks G n < ranks G top :=
  h.rank_reach htop.outermost.1 (h.reach_of_top htop.outermost hn (h.reached n hn.1) htop.post)

theorem IsInput.top_not_target (htwo : ∃ t ∈ G.targets, ∃ u ∈ G.targets, t ≠ u) :
    top ∉ G.targets := by
  intro hmem
  have hsingle : ∀ u ∈ G.targets, u = top := fun u hu => by
    have houter := h.outermost_target hu
    exact eq_of_reach_target ((h.targets top).mp hmem).2
      (h.reach_of_top htop.outermost houter (h.reached u houter.1) htop.post)
  obtain ⟨t, ht, u, hu, hne⟩ := htwo
  exact hne ((hsingle t ht).trans (hsingle u hu).symm)

theorem IsInput.target_frontier
    (htwo : ∃ t ∈ G.targets, ∃ u ∈ G.targets, t ≠ u) (hn : n ∈ G.targets) :
    G.pdomf.succs n ≠ [] := by
  have houter := h.outermost_target hn
  refine h.frontier_ne_nil (h.reach_of_top htop.outermost houter (h.reached n houter.1) htop.post)
    postDominates_refl fun hpost => ?_
  have hne : n ≠ top := fun heq => h.top_not_target htop htwo (heq ▸ hn)
  exact h.ne_last houter.1 (htop.outermost.2 n ⟨hpost, hne⟩)

/-- Only the newest node of the frontier may have nothing open, and the top is met last. -/
def Stage (G : Input ν γ) (last top : ν) (s : State ν γ) : Prop :=
  (s.frontier ≠ [] ∧ (∀ n ∈ s.frontier, Alive G s n) ∧ ¬Met s top) ∨
  ∃ stop ∈ s.frontier, (∀ n ∈ s.frontier, n ≠ stop → Alive G s n) ∧
    (Met s top → stop = top ∧ ∀ n, Outermost G last n → Met s n)

theorem Stage.expand (hs : Grown G last s) (hstage : Stage G last top s) {c : ν × ν}
    (hc : nextStop order G s = some c) (ht : Retired G c.2 s t) : Stage G last top t := by
  obtain ⟨-, -, hopen, houter, hbelow⟩ := hs.chosen h hc
  refine Or.inr ⟨c.2, ht.stop, ht.alive, fun hmet => ?_⟩
  have hfirst : ¬Met s top := by
    intro hmet
    rcases hstage with ⟨-, -, hnot⟩ | ⟨stop, -, -, hall⟩
    · exact hnot hmet
    · exact hopen ((hall hmet).2 c.2 houter)
  have heq : top = c.2 := ((ht.met top).mp hmet).resolve_left hfirst
  refine ⟨heq.symm, fun n hn => (ht.met n).mpr ?_⟩
  rcases h.rank_top htop hn with rfl | hrank
  · exact Or.inr heq
  · exact Or.inl (hbelow n hn (heq ▸ hrank))

theorem grown_initial (htwo : ∃ t ∈ G.targets, ∃ u ∈ G.targets, t ≠ u) :
    Grown G last (initial G) ∧ Stage G last top (initial G) := by
  have hfrontier : (initial G).frontier = G.targets := by
    refine filter_eq_self.mpr fun n hn => ?_
    simpa using h.target_frontier htop htwo hn
  have hmet : ∀ n, Met (initial G) n ↔ n ∈ G.targets := by
    intro n
    rw [Met, hfrontier]
    exact or_iff_left not_mem_nil
  refine ⟨⟨fun n hn => h.outermost_target ((hmet n).mp hn), hfrontier ▸ h.distinct,
    fun n hn => (hmet n).mpr hn,
    nofun, nofun, ?_⟩, Or.inl ⟨?_, ?_, ?_⟩⟩
  · intro f hf x hx
    rw [((h.targets f).mp ((hmet f).mp hf)).2] at hx
    cases hx
  · obtain ⟨t, ht, -⟩ := htwo
    rw [hfrontier]
    exact ne_nil_of_mem ht
  · intro n hn
    rw [hfrontier] at hn
    obtain ⟨f, hf⟩ := exists_mem_of_ne_nil _ (h.target_frontier htop htwo hn)
    refine ⟨f, hf, fun hfmet => ?_⟩
    obtain ⟨x, hedge, -⟩ := h.frontier_edge (h.outermost_target hn) hf
    rw [Edge, ((h.targets f).mp ((hmet f).mp hfmet)).2] at hedge
    cases hedge
  · rw [hmet]
    exact h.top_not_target htop htwo

end

theorem exists_grown (order : Iteration ν) (h : IsInput G last) (htop : IsTop G last top)
    (htwo : ∃ t ∈ G.targets, ∃ u ∈ G.targets, t ≠ u) :
    ∃ s, Halts (body order G) (.ok (initial G)) (.ok s) ∧ Grown G last s ∧ s.frontier = [top] ∧
      ∀ n, Outermost G last n → Met s n := by
  have hround : ∀ r r', (∃ s, r = .ok s ∧ Grown G last s ∧ Stage G last top s) →
      body order G r = some r' →
      (∃ s, r' = .ok s ∧ Grown G last s ∧ Stage G last top s) ∧ left G r' < left G r := by
    rintro _ r' ⟨s, rfl, hs, hstage⟩ hbody
    obtain ⟨c, hc, rfl⟩ := Option.map_eq_some_iff.mp hbody
    obtain ⟨t, ht, hgrown, hretired⟩ := hs.expand h hc
    obtain ⟨-, hopen, hstop⟩ := chosen_stop hc
    rw [ht]
    exact ⟨⟨t, rfl, hgrown, hstage.expand h htop hs hc hretired⟩, hretired.left_lt hstop hopen⟩
  obtain ⟨r, hhalts, ⟨s, rfl, hs, hstage⟩, hend⟩ := exists_halts wellFounded_lt (left G) hround
    ⟨initial G, rfl, grown_initial h htop htwo⟩
  have hnone : nextStop order G s = none := Option.map_eq_none_iff.mp hend
  have hdead : ∀ n ∈ s.frontier, ¬Alive G s n := by
    rintro n hn ⟨f, hf, hopen⟩
    have hbest := @bestOf_nextStop _ _ _ G order s
    rw [hnone] at hbest
    have hlow := h.rank_lt_length (h.outermost_frontier (hs.outermost n (Or.inl hn)) hf).1
    have hhigh := (hbest (n, f) (mem_candidates.mpr ⟨hn, hf⟩)).resolve_left hopen
    exact absurd hlow (not_lt_of_ge hhigh)
  have hall : ∀ n, Outermost G last n → Met s n := by
    intro n hn
    exact hs.met_below (r := ranks G n + 1) h
      (fun m hm f hf hopen => absurd ⟨f, hf, hopen⟩ (hdead m hm)) hn
      (Nat.lt_succ_self _)
  refine ⟨s, hhalts, hs, ?_, hall⟩
  rcases hstage with ⟨hne, halive, -⟩ | ⟨stop, hstop, halive, hlast⟩
  · obtain ⟨n, hn⟩ := exists_mem_of_ne_nil _ hne
    exact absurd (halive n hn) (hdead n hn)
  · have hsingle : ∀ n ∈ s.frontier, n = stop := by
      intro n hn
      by_contra hne
      exact hdead n hn (halive n hn hne)
    rw [← (hlast (hall top htop.outermost)).1]
    match hfrontier : s.frontier with
    | [] => rw [hfrontier] at hstop; cases hstop
    | [a] => rw [hsingle a (by rw [hfrontier]; exact mem_singleton_self a)]
    | a :: b :: rest =>
      have hnodup := hs.nodup
      rw [hfrontier] at hnodup hsingle
      have hab : a = b := (hsingle a (by simp)).trans (hsingle b (by simp)).symm
      exact absurd hnodup (by simp [hab])

end Ending

section Walks

variable [DecidableEq ν] {G : Input ν γ} {last top f x n : ν} {s : State ν γ} {σ : γ → Bool}

section

omit [DecidableEq ν]

theorem endsIn_of_path {step : ν → ν → Prop} (hdet : ∀ a b c, step a b → step a c → b = c)
    (hpath : Relation.ReflTransGen step a t) (hend : ∀ v, ¬step t v) : EndsIn step a t := by
  refine ⟨fun u hu => ?_, hend⟩
  induction hpath using Relation.ReflTransGen.head_induction_on generalizing u with
  | refl =>
    rcases Relation.ReflTransGen.cases_head hu with rfl | ⟨v, hstep, -⟩
    · exact .refl
    · exact absurd hstep (hend v)
  | head hstep hpath ih =>
    rcases Relation.ReflTransGen.cases_head hu with rfl | ⟨v, hv, huv⟩
    · exact .head hstep hpath
    · exact ih u (hdet _ _ _ hv hstep ▸ huv)

theorem takes_unique (hσ : Decides G σ) (hx : Takes G σ f x) (hy : Takes G σ f y) : x = y := by
  by_contra hne
  have hbranching : Branching G f := ⟨x, hx.1, y, hy.1, hne⟩
  obtain ⟨z, -, -, hunique⟩ := hσ f hbranching
  exact hne ((hunique x hx.1 (hx.2 hbranching)).trans (hunique y hy.1 (hy.2 hbranching)).symm)

theorem exists_takes (hσ : Decides G σ) (hedge : Edge G.sg.succs f x) : ∃ y, Takes G σ f y := by
  by_cases hbranching : Branching G f
  · obtain ⟨y, hy, hholds, -⟩ := hσ f hbranching
    exact ⟨y, hy, fun _ => hholds⟩
  · exact ⟨x, hedge, fun h => absurd h hbranching⟩

end

theorem IsInput.takes_post (h : IsInput G last) (hσ : Decides G σ) (hx : x ∈ G.sg.nodes G.bstart)
    (hn : n ≠ last) (hpost : Post G last n x) : Relation.ReflTransGen (Takes G σ) x n := by
  induction hr : ranks G x using Nat.strong_induction_on generalizing x with
  | _ r ih =>
    by_cases heq : n = x
    · rw [heq]
    · cases hsuccs : G.sg.succs x with
      | nil =>
        rcases mem_cons.mp (hpost _ (.stop (h.ne_last hx) hsuccs)) with hin | hin
        · exact absurd hin heq
        · exact absurd (mem_singleton.mp hin) hn
      | cons v vs =>
        have hedge : Edge G.sg.succs x v := edge_of_succs hsuccs
        obtain ⟨y, hy⟩ := exists_takes hσ hedge
        have hless := h.rank_edge hx hy.1
        exact .head hy (ih _ (hr ▸ hless) (target_mem_nodes hy.1) (hpost.edge heq hy.1) rfl)

theorem Grown.answers_iff (hs : Grown G last s) : Answers s.decisionTree s.edgeLabels σ f n ↔
    Met s f ∧ Outermost G last n ∧ ∃ x ∈ G.sg.succs f, Post G last n x ∧ Holds G σ x := by
  constructor
  · rintro ⟨id, hid, e, he, htrue⟩
    obtain ⟨hmet, houter, i, hi, e', he', heval⟩ := hs.edges f _ hid
    obtain rfl : id = i := Int.ofNat.inj hi
    cases he.symm.trans he'
    exact ⟨hmet, houter, (heval σ).mp htrue⟩
  · rintro ⟨hmet, houter, x, hx, hpost, hholds⟩
    obtain ⟨⟨m, id⟩, hd, rfl⟩ := hs.complete f hmet x hx n houter hpost
    obtain ⟨-, -, i, hi, e, he, heval⟩ := hs.edges f _ hd
    obtain rfl : id = i := hi
    exact ⟨i, hd, e, he, (heval σ).mpr ⟨x, hx, hpost, hholds⟩⟩

theorem Grown.answers_unique (hs : Grown G last s) (h : IsInput G last) (hσ : Decides G σ)
    (hn : Answers s.decisionTree s.edgeLabels σ f n)
    (hk : Answers s.decisionTree s.edgeLabels σ f k) :
    n = k := by
  obtain ⟨hmet, hnouter, x, hx, hnx, hxholds⟩ := hs.answers_iff.mp hn
  obtain ⟨-, hkouter, y, hy, hky, hyholds⟩ := hs.answers_iff.mp hk
  obtain ⟨z, -, -, hunique⟩ := hσ f (h.branching (hs.outermost f hmet) hx)
  have hxy : x = y := (hunique x hx hxholds).trans (hunique y hy hyholds).symm
  exact h.outermost_unique (target_mem_nodes hx) hnouter hkouter hnx (hxy ▸ hky)

theorem Grown.same_target (hs : Grown G last s) (h : IsInput G last)
    (hall : ∀ n, Outermost G last n → Met s n)
    (hσ : Decides G σ) (hf : Outermost G last f) :
    ∃ t ∈ G.targets, Relation.ReflTransGen (Takes G σ) f t ∧
      Relation.ReflTransGen (Answers s.decisionTree s.edgeLabels σ) f t := by
  induction hr : ranks G f using Nat.strong_induction_on generalizing f with
  | _ r ih =>
    cases hsuccs : G.sg.succs f with
    | nil => exact ⟨f, (h.targets f).mpr ⟨hf.1, hsuccs⟩, .refl, .refl⟩
    | cons v vs =>
      have hedge : Edge G.sg.succs f v := edge_of_succs hsuccs
      obtain ⟨x, hx, hholds, -⟩ := hσ f (h.branching hf hedge)
      have hxnode : x ∈ G.sg.nodes G.bstart := target_mem_nodes hx
      obtain ⟨n, hn, hpost⟩ := h.exists_outermost hxnode
      have hless := h.rank_frontier hn (h.mem_frontier hf hx hn hpost)
      obtain ⟨t, ht, htakes, hanswers⟩ := ih _ (hr ▸ hless) hn rfl
      have hstep : Takes G σ f x := ⟨hx, fun _ => hholds⟩
      refine ⟨t, ht, .head hstep ((h.takes_post hσ hxnode (h.ne_last hn.1) hpost).trans htakes),
        .head ?_ hanswers⟩
      exact hs.answers_iff.mpr ⟨hall f hf, hn, x, hx, hpost, hholds⟩

end Walks

/-- With two targets no check is tripped, and for every assignment the tree ends in the target that
the path through the graph reaches. -/
theorem makeDecisionTree_decides [DecidableEq ν] (order : Iteration ν) (G : Input ν γ)
    (last fresh : ν)
    (h : IsInput G last) (htwo : ∃ t ∈ G.targets, ∃ u ∈ G.targets, t ≠ u) :
    ∃ r, Halts (body order G) (.ok (initial G)) r ∧ ∃ tree start labels,
      finish order fresh r = .ok (tree, start, labels) ∧ ∀ σ, Decides G σ → ∃ t ∈ G.targets,
        EndsIn (Takes G σ) G.bstart t ∧ EndsIn (Answers tree labels σ) start t := by
  have hstart : G.bstart ∈ G.sg.nodes G.bstart := start_mem_nodes G.bstart
  obtain ⟨top, houter, hpost⟩ := h.exists_outermost hstart
  obtain ⟨s, hhalts, hs, hfrontier, hall⟩ := exists_grown order h ⟨houter, hpost⟩ htwo
  refine ⟨.ok s, hhalts, s.decisionTree, top, s.edgeLabels, ?_, fun σ hσ => ?_⟩
  · rw [finish, hfrontier]
  · obtain ⟨t, ht, htakes, hanswers⟩ := hs.same_target h hall hσ houter
    have hend : G.sg.succs t = [] := ((h.targets t).mp ht).2
    have htaken : ∀ v, ¬Takes G σ t v := by
      rintro v ⟨hv, -⟩
      rw [hend] at hv
      cases hv
    have hanswered : ∀ v, ¬Answers s.decisionTree s.edgeLabels σ t v := by
      intro v hv
      obtain ⟨-, -, x, hx, -⟩ := hs.answers_iff.mp hv
      rw [hend] at hx
      cases hx
    have hpath := (h.takes_post hσ hstart (h.ne_last houter.1) hpost).trans htakes
    have hdet : ∀ a b c, Answers s.decisionTree s.edgeLabels σ a b →
        Answers s.decisionTree s.edgeLabels σ a c →
        b = c := fun _ _ _ hb hc => hs.answers_unique h hσ hb hc
    have hone : ∀ a b c, Takes G σ a b → Takes G σ a c → b = c :=
      fun _ _ _ hb hc => takes_unique hσ hb hc
    exact ⟨t, ht, endsIn_of_path hone hpath htaken, endsIn_of_path hdet hanswers hanswered⟩

def inserted : Iteration ν := ⟨fun l => l, fun _ => .refl _⟩

namespace Fork

/-- The node 0 with the targets 1 and 2, and the artificial end 3. -/
def graph : EdgeHolder (Fin 5) where
  keys := [0]
  neighbors n := if n = 0 then [(1, 0), (2, 1)] else []
  outside n hn := if_neg (by simpa using hn)

def frontiers : EdgeHolder (Fin 5) where
  keys := [1, 2]
  neighbors n := if n = 1 ∨ n = 2 then [(0, 0)] else []
  outside n hn := if_neg (by simpa using hn)

def input : Input (Fin 5) (Fin 5) :=
  ⟨graph, 0, [1, 2], frontiers, fun m => if m < 3 then some 3 else none, fun x => [x]⟩

theorem post_iff : PostDominates graph.succs 3 n m ↔ n = m ∨ n = 3 := by
  have hone : Exit graph.succs 3 1 [1, 3] := .stop (by decide) rfl
  have htwo : Exit graph.succs 3 2 [2, 3] := .stop (by decide) rfl
  constructor
  · intro h
    match m with
    | 0 =>
      have hfirst := h _ (.step (show 1 ∈ graph.succs 0 by decide) hone)
      have hsecond := h _ (.step (show 2 ∈ graph.succs 0 by decide) htwo)
      have hboth : ∀ k : Fin 5, k ∈ [0, 1, 3] → k ∈ [0, 2, 3] → k = 0 ∨ k = 3 := by decide
      exact hboth n hfirst hsecond
    | 1 => simpa using h _ hone
    | 2 => simpa using h _ htwo
    | 3 => exact Or.inl (by simpa using h _ .last)
    | 4 => simpa using h _ (.stop (by decide) rfl)
  · rintro (rfl | rfl)
    · exact postDominates_refl
    · exact postDominates_last

theorem isInput : IsInput input 3 where
  acyclic := acyclic_of_lt (by unfold Edge; decide)
  reached := forall_reach (by decide)
  targets := by decide
  distinct := by decide
  fresh := by decide
  pdomf := by
    simp only [InPostFrontier, StrictlyPostDominates, input, post_iff, Follows, Edge]
    decide
  pdomtree := by
    simp only [ImmediatelyPostDominates, StrictlyPostDominates, input, post_iff]
    decide
  conditions _ _ x _ := cons_ne_nil x []

end Fork

theorem fork_decides : IsInput Fork.input 3 ∧
    ∃ r, Halts (body inserted Fork.input) (.ok (initial Fork.input)) r ∧ ∃ tree start labels,
      finish inserted 3 r = .ok (tree, start, labels) ∧ ∀ σ, Decides Fork.input σ →
        ∃ t ∈ Fork.input.targets,
        EndsIn (Takes Fork.input σ) 0 t ∧ EndsIn (Answers tree labels σ) start t :=
  ⟨Fork.isInput, makeDecisionTree_decides inserted Fork.input 3 3 Fork.isInput
    ⟨1, by decide, 2, by decide, by decide⟩⟩

namespace Single

def input : Input (Fin 2) (Fin 2) :=
  ⟨.empty, 0, [0], .empty, fun m => if m = 0 then some 1 else none, fun _ => []⟩

theorem post_iff : PostDominates input.sg.succs 1 n m ↔ n = m ∨ n = 1 := by
  constructor
  · intro h
    match m with
    | 0 => simpa using h _ (.stop (by decide) rfl)
    | 1 => exact Or.inl (by simpa using h _ .last)
  · rintro (rfl | rfl)
    · exact postDominates_refl
    · exact postDominates_last

theorem isInput : IsInput input 1 where
  acyclic u h := by
    obtain ⟨v, huv, -⟩ := Relation.TransGen.head'_iff.mp h
    cases huv
  reached n hn := by
    have hzero : n = 0 := by
      revert n
      decide
    rw [hzero]
    exact .refl
  targets := by decide
  distinct := by decide
  fresh := by decide
  pdomf := by
    simp only [InPostFrontier, StrictlyPostDominates, post_iff, Follows, Edge]
    decide
  pdomtree := by
    simp only [ImmediatelyPostDominates, StrictlyPostDominates, post_iff]
    decide
  conditions f h := by
    obtain ⟨x, hx, -⟩ := h
    cases hx

end Single

/-- A single target has an empty frontier, and the tree that needs no question is not returned. -/
theorem single_target_trips : IsInput Single.input 1 ∧
    ∃ r, Halts (body inserted Single.input) (.ok (initial Single.input)) r ∧
      finish inserted 1 r = .error .emptyFrontier :=
  ⟨Single.isInput, .ok (initial Single.input), ⟨1, rfl⟩, rfl⟩

end DecisionTree
