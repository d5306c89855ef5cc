import FlexPlan.CfgAlgos
import FlexPlan.DisjointSets

/-!
# Basic blocks

`ensure_basic_blocks` moves the instructions of a block into its only predecessor, replaces
groups of empty blocks by one representative, and drops or skips empty blocks that are left.
The words read along the paths from the start stay the same, unless the start itself is
replaced.
-/
namespace BasicBlocks

open FlowGraph CfgAlgos List Function EdgeHolder

variable {ν ι : Type} [DecidableEq ν]

section Model

/-- One round of the merging loop; `none` when an invariant of the two graphs is violated. -/
def mergeStep (g r : EdgeHolder ν) (instrs : ν → List ι) (n : ν) : Option (ν → List ι) :=
  match r.neighbors n with
  | [(neigh, _)] =>
    match g.neighbors neigh with
    | [] => if neigh ∈ g.keys then some instrs else none
    | [(m, _)] =>
      if m = n then
        some (update (update instrs neigh (instrs neigh ++ instrs n)) n [])
      else none
    | _ :: _ :: _ => some instrs
  | _ => some instrs

variable (isEmpty : ν → Bool)

def visitEdge (d : DisjointSets ν) (e : ν × ν) : DisjointSets ν :=
  if isEmpty e.2 then ((d.enter e.2).enter e.1).unionSet e.1 e.2 else d

/-- The edges on which `traverse_df` calls its function. The value of that function is not
looked at, so the traversal does not stop at blocks with instructions. -/
def edgesFrom (g : EdgeHolder ν) (nd : ν) : List (ν × ν) :=
  (traverseDf g nd).flatMap fun u => (g.succs u).map fun v => (u, v)

def classStep (g : EdgeHolder ν) (d : DisjointSets ν) (nd : ν) : DisjointSets ν :=
  if isEmpty nd && !d.made nd then (edgesFrom g nd).foldl (visitEdge isEmpty) (d.makeSet nd) else d

def classes (g : EdgeHolder ν) (sorted : List ν) : DisjointSets ν :=
  sorted.reverse.foldl (classStep isEmpty g) .initial

/-- The edges between an empty block and one with instructions. -/
def outgoing (g : EdgeHolder ν) (sorted : List ν) : List (ν × ν) :=
  sorted.reverse.flatMap fun nd =>
    ((g.succs nd).filter fun m => isEmpty m != isEmpty nd).map fun m => (nd, m)

def eraseEmpty (g : EdgeHolder ν) : EdgeHolder ν := g.subgraph fun n => !isEmpty n

def addUnq (g : EdgeHolder ν) (u v : ν) : EdgeHolder ν :=
  if (v, 0) ∈ g.neighbors u then g else g.push u (v, 0)

def addOutgoing (find : ν → ν) (g : EdgeHolder ν) (o : ν × ν) : EdgeHolder ν :=
  if isEmpty o.1 then addUnq (g.touch (find o.1)) (find o.1) o.2
  else addUnq (g.touch o.1) o.1 (find o.2)

def transRemoveEmpty (g : EdgeHolder ν) (sorted : List ν) : EdgeHolder ν :=
  let d := classes isEmpty g sorted
  (outgoing isEmpty g sorted).foldl (addOutgoing isEmpty d.find)
    (eraseEmpty isEmpty (sorted.reverse.foldl EdgeHolder.touch g))

/-- A block whose only successor is an empty block with one successor skips it. -/
def skipStep (singleOutEmpty : List ν) (g : EdgeHolder ν) (n : ν) : EdgeHolder ν :=
  match g.neighbors n with
  | [(emp, _)] =>
    if isEmpty emp && emp ∈ singleOutEmpty then g.assign n (g.neighbors emp) else g
  | _ => g

def dropZeroOut (g : EdgeHolder ν) (start : ν) : EdgeHolder ν :=
  let zeroOutEmpty := (traverseDf g start).filter fun n => isEmpty n && (g.neighbors n).isEmpty
  g.removeDeadNodes start fun n => n ∈ zeroOutEmpty

def skipSingleOut (g : EdgeHolder ν) : EdgeHolder ν :=
  let singleOutEmpty := g.keys.filter fun n => isEmpty n && (g.neighbors n).length = 1
  g.keys.foldl (skipStep isEmpty singleOutEmpty) g

/-- The graphs and the instructions of the blocks afterwards. -/
structure Result (ν ι : Type) where
  graph : EdgeHolder ν
  reverse : EdgeHolder ν
  instrs : ν → List ι

def ensureBasicBlocks (g r : EdgeHolder ν) (start : ν) (instrs : ν → List ι) :
    Option (Result ν ι) :=
  let sorted := topoSort g start
  (sorted.foldlM (mergeStep g r) instrs).map fun instrs =>
    let isEmpty := fun n => (instrs n).isEmpty
    let g := transRemoveEmpty isEmpty g sorted
    let g := dropZeroOut isEmpty g start
    let g := skipSingleOut isEmpty g
    let g := g.removeDeadNodes start fun _ => false
    ⟨g, g.reverse, instrs⟩

end Model

section Specification

variable (g r : EdgeHolder ν) (start : ν) (instrs : ν → List ι)

/-- The block graphs the function is meant for. -/
structure IsInput : Prop where
  keys : g.keys.Nodup
  acyclic : Acyclic g.succs
  reached : ∀ n ∈ g.nodes start, Reach g.succs start n
  converse : g.Converse r
  forked : ∀ u, 2 ≤ (g.succs u).length → ∀ v ∈ g.succs u, instrs v ≠ []

/-- No word is invented, and none is lost whose path ends in a block with instructions. -/
structure Preserved (out : Result ν ι) : Prop where
  sound : Words out.graph.succs out.instrs start ⊆ Words g.succs instrs start
  complete : ∀ s w, Reads g.succs instrs start s w → instrs w ≠ [] →
    s ∈ Words out.graph.succs out.instrs start
  converse : out.graph.Converse out.reverse

/-- Empty blocks with one successor each lead to an empty block with several. -/
inductive Forks : ν → Prop where
  | here {u : ν} (h : instrs u = []) (hs : 2 ≤ (g.succs u).length) : Forks u
  | next {u v : ν} (h : instrs u = []) (hs : g.succs u = [v]) (hv : Forks v) : Forks u

def StartReplaced : Prop := instrs start = [] ∧ ∃ e, g.succs start = [e] ∧ Forks g instrs e

end Specification

section Merging

variable {g r : EdgeHolder ν} {start : ν} {instrs cur : ν → List ι} {n neigh : ν}

/-- The instructions of `n` are moved to `neigh`. -/
def merged (cur : ν → List ι) (neigh n : ν) : ν → List ι :=
  update (update cur neigh (cur neigh ++ cur n)) n []

/-- Two blocks that are always passed one after the other. -/
structure Tied (g : EdgeHolder ν) (neigh n : ν) : Prop where
  succs : g.succs neigh = [n]
  only : ∀ p, Edge g.succs p n → p = neigh

omit [DecidableEq ν] in
theorem edge_iff : Edge g.succs u v ↔ ∃ l, (v, l) ∈ g.neighbors u := by
  simp [Edge, EdgeHolder.succs]

theorem mergeStep_cases (h : g.Converse r) (cur : ν → List ι) (n : ν) :
    (∃ neigh, Tied g neigh n ∧ mergeStep g r cur n = some (merged cur neigh n)) ∨
      ((¬∃ neigh, Tied g neigh n) ∧ mergeStep g r cur n = some cur) := by
  have hmem : ∀ p, Edge g.succs p n ↔ ∃ l, (p, l) ∈ r.neighbors n := by
    intro p
    rw [edge_iff]
    exact exists_congr fun l => h.mem.symm
  have hone : ∀ neigh, Tied g neigh n → ∃ l, r.neighbors n = [(neigh, l)] := by
    intro neigh ht
    obtain ⟨l, hl⟩ : ∃ l, g.neighbors neigh = [(n, l)] := by
      obtain ⟨⟨m, l⟩, hl, heq⟩ := map_eq_singleton_iff.mp ht.succs
      exact ⟨l, heq ▸ hl⟩
    have hall : ∀ x ∈ r.neighbors n, x = (neigh, l) := by
      rintro ⟨p, k⟩ hp
      obtain rfl := ht.only p ((hmem p).mpr ⟨k, hp⟩)
      have hk := h.mem.mp hp
      rw [hl, mem_singleton] at hk
      rw [(Prod.mk.inj hk).2]
    have hcount := h neigh n l
    rw [hl, count_singleton_self, eq_replicate_of_mem hall, count_replicate_self]
      at hcount
    refine ⟨l, ?_⟩
    rw [eq_replicate_of_mem hall, hcount]
    rfl
  by_cases htied : ∃ neigh, Tied g neigh n
  · obtain ⟨neigh, ht⟩ := htied
    obtain ⟨l, hl⟩ := hone neigh ht
    obtain ⟨⟨m, k⟩, hk, heq⟩ := map_eq_singleton_iff.mp ht.succs
    refine Or.inl ⟨neigh, ht, ?_⟩
    simp only [mergeStep, hl, hk]
    rw [if_pos heq]
    rfl
  · refine Or.inr ⟨htied, ?_⟩
    unfold mergeStep
    split
    · rename_i neigh l hl
      have hedge : (n, l) ∈ g.neighbors neigh := h.mem.mp (by rw [hl]; exact mem_cons_self)
      split
      · rename_i hnil
        rw [hnil] at hedge
        cases hedge
      · rename_i m k hk
        refine absurd ⟨neigh, ?_, ?_⟩ htied
        · rw [hk, mem_singleton] at hedge
          rw [EdgeHolder.succs, hk, ← hedge]
          rfl
        · intro p hp
          obtain ⟨j, hj⟩ := (hmem p).mp hp
          rw [hl, mem_singleton] at hj
          exact (Prod.mk.inj hj).1
      · rfl
    · rfl

theorem merged_self : merged cur neigh n n = [] := update_self _ _ _

theorem merged_neigh (h : neigh ≠ n) : merged cur neigh n neigh = cur neigh ++ cur n := by
  rw [merged, update_of_ne h, update_self]

theorem merged_other (hneigh : u ≠ neigh) (hn : u ≠ n) : merged cur neigh n u = cur u := by
  rw [merged, update_of_ne hn, update_of_ne hneigh]

section

omit [DecidableEq ν]

variable (h : Tied g neigh n)

include h

theorem Tied.ne (hacyclic : Acyclic g.succs) : neigh ≠ n := by
  rintro rfl
  exact hacyclic neigh (.single (edge_of_succs h.succs))

theorem Tied.edge_iff : Edge g.succs neigh v ↔ v = n := by
  rw [Edge, h.succs, mem_singleton]

theorem Tied.target_ne (hedge : Edge g.succs u v) (hu : u ≠ neigh) : v ≠ n := by
  rintro rfl
  exact hu (h.only u hedge)

end

omit [DecidableEq ν] in
theorem mem_words_iff {word : ν → List ι} : s ∈ Words f word u ↔
    (f u = [] ∧ s = word u) ∨ ∃ v t, Edge f u v ∧ t ∈ Words f word v ∧ s = word u ++ t := by
  refine ⟨words_cases, ?_⟩
  rintro (⟨hstop, rfl⟩ | ⟨v, t, hedge, ht, rfl⟩)
  · rw [words_of_stop hstop]
    rfl
  · exact mem_words_of_step hedge ht

-- The moved instructions are missing from the words behind `n` alone.
theorem Tied.words_merged (h : Tied g neigh n) (hacyclic : Acyclic g.succs) (start : ν) :
    ∀ u ∈ g.nodes start, (u ≠ n → Words g.succs (merged cur neigh n) u = Words g.succs cur u) ∧
      (u = n → ∀ s, s ∈ Words g.succs cur n ↔
        ∃ t ∈ Words g.succs (merged cur neigh n) n, s = cur n ++ t) := by
  have hne := h.ne hacyclic
  refine hacyclic.induction (closed_nodes start) fun u _ ih => ⟨fun hu => ?_, ?_⟩
  · ext s
    rw [mem_words_iff, mem_words_iff]
    by_cases hneigh : u = neigh
    · subst hneigh
      simp [h.succs, h.edge_iff, merged_neigh hne, (ih n (edge_of_succs h.succs)).2 rfl]
    · rw [merged_other hneigh hu]
      refine or_congr_right (exists₂_congr fun v t => and_congr_right fun hedge => ?_)
      rw [(ih v hedge).1 (h.target_ne hedge hneigh)]
  · rintro rfl s
    have hnext : ∀ v, Edge g.succs u v →
        Words g.succs (merged cur neigh u) v = Words g.succs cur v :=
      fun v hedge => (ih v hedge).1 (h.target_ne hedge hne.symm)
    rw [mem_words_iff]
    constructor
    · rintro (⟨hstop, rfl⟩ | ⟨v, t, hedge, ht, rfl⟩)
      · exact ⟨[], mem_words_iff.mpr (Or.inl ⟨hstop, merged_self.symm⟩), (append_nil _).symm⟩
      · rw [← hnext v hedge] at ht
        exact ⟨t, mem_words_iff.mpr (Or.inr ⟨v, t, hedge, ht, by rw [merged_self, nil_append]⟩),
          rfl⟩
    · rintro ⟨_, ht, rfl⟩
      rcases words_cases ht with ⟨hstop, rfl⟩ | ⟨v, t, hedge, hv, rfl⟩
      · exact Or.inl ⟨hstop, by rw [merged_self, append_nil]⟩
      · rw [hnext v hedge] at hv
        exact Or.inr ⟨v, t, hedge, hv, by rw [merged_self, nil_append]⟩

/-- The blocks behind the start that are reached by passing blocks with one successor. -/
inductive Chain (g : EdgeHolder ν) (start : ν) : ν → Prop where
  | start : Chain g start start
  | next {x y : ν} (hx : Chain g start x) (hs : g.succs x = [y]) : Chain g start y

/-- Empty blocks as far as each of them has one successor. -/
inductive Hollow (g : EdgeHolder ν) (instrs : ν → List ι) : ν → Prop where
  | stop {x : ν} (h : instrs x = []) (hs : ∀ z, g.succs x ≠ [z]) : Hollow g instrs x
  | next {x z : ν} (h : instrs x = []) (hs : g.succs x = [z]) (hz : Hollow g instrs z) :
    Hollow g instrs x

omit [DecidableEq ν] in
theorem Chain.split (hx : Chain g start x) (hz : Reach g.succs start z) :
    Reach g.succs x z ∨ ∃ w, g.succs z = [w] ∧ Reach g.succs w x := by
  induction hx with
  | start => exact Or.inl hz
  | @next x y _ hs ih =>
    have hstep : Edge g.succs x y := edge_of_succs hs
    rcases ih with hreach | ⟨w, hw, hreach⟩
    · rcases Relation.ReflTransGen.cases_head hreach with rfl | ⟨v, hv, hrest⟩
      · exact Or.inr ⟨y, hs, .refl⟩
      · rw [Edge, hs, mem_singleton] at hv
        exact Or.inl (hv ▸ hrest)
    · exact Or.inr ⟨w, hw, hreach.tail hstep⟩

theorem Chain.tied (h : IsInput g r start instrs) (hx : Chain g start x)
    (hs : g.succs x = [y]) : Tied g x y := by
  have hstep : Edge g.succs x y := edge_of_succs hs
  refine ⟨hs, fun p hp => ?_⟩
  have hreach := h.reached p (source_mem_nodes hp)
  rcases hx.split hreach with hback | ⟨w, hw, hback⟩
  · rcases Relation.ReflTransGen.cases_head hback with rfl | ⟨v, hv, hrest⟩
    · rfl
    · rw [Edge, hs, mem_singleton] at hv
      exact absurd hp (h.acyclic.not_edge_of_reach (hv ▸ hrest))
  · rw [Edge, hw, mem_singleton] at hp
    exact absurd hstep (h.acyclic.not_edge_of_reach (hp ▸ hback))

theorem IsInput.not_edge_start (h : IsInput g r start instrs) (p : ν) : ¬Edge g.succs p start := by
  intro hp
  exact h.acyclic.not_edge_of_reach (h.reached p (source_mem_nodes hp)) hp

/-- What holds of the instructions while the blocks are merged. -/
structure Merged (g : EdgeHolder ν) (start : ν) (instrs : ν → List ι) (done : List ν)
    (cur : ν → List ι) : Prop where
  words : Words g.succs cur start = Words g.succs instrs start
  forked : ∀ u, 2 ≤ (g.succs u).length → ∀ v ∈ g.succs u, cur v ≠ []
  forks : ∀ x, Forks g instrs x → cur x = []
  hollow : ∀ y, Chain g start y → y ∉ done ∨ y = start → cur y = [] →
    instrs y = [] ∧ ∀ z, g.succs y = [z] → z ∈ done → Hollow g instrs z

omit [DecidableEq ν] in
theorem Forks.empty (h : Forks g instrs u) : instrs u = [] := by
  cases h with
  | here h _ | next h _ _ => exact h

theorem IsInput.merged_nil (h : IsInput g r start instrs) : Merged g start instrs [] instrs where
  words := rfl
  forked := h.forked
  forks _ hx := hx.empty
  hollow _ _ _ hempty := ⟨hempty, fun _ _ hz => absurd hz not_mem_nil⟩

omit [DecidableEq ν] in
theorem Tied.not_forked (h : Tied g neigh n) (hu : 2 ≤ (g.succs u).length)
    (hn : n ∈ g.succs u) : False := by
  obtain rfl := h.only u hn
  rw [h.succs] at hu
  simp at hu

omit [DecidableEq ν] in
theorem Merged.hollow_block {done : List ν} (hm : Merged g start instrs done cur)
    (hn : Chain g start n)
    (hdone : n ∉ done) (hsuccs : ∀ v ∈ g.succs n, v ∈ done) (hempty : cur n = []) :
    Hollow g instrs n := by
  obtain ⟨hinstrs, hnext⟩ := hm.hollow n hn (Or.inl hdone) hempty
  by_cases hone : ∃ z, g.succs n = [z]
  · obtain ⟨z, hz⟩ := hone
    exact .next hinstrs hz (hnext z hz (hsuccs z (by rw [hz]; exact mem_cons_self)))
  · exact .stop hinstrs fun z hz => hone ⟨z, hz⟩

section

variable (h : IsInput g r start instrs)

include h

theorem Merged.merge {done : List ν}
    (hm : Merged g start instrs done cur) (ht : Tied g neigh n) (hdone : n ∉ done)
    (hsuccs : ∀ v ∈ g.succs n, v ∈ done) :
    Merged g start instrs (done ++ [n]) (merged cur neigh n) where
  words := by
    have hedge : Edge g.succs neigh n := ht.edge_iff.mpr rfl
    have hstart : start ≠ n := by
      rintro rfl
      exact h.not_edge_start neigh hedge
    rw [(ht.words_merged h.acyclic start start (start_mem_nodes start)).1 hstart, hm.words]
  forked u hu v hv := by
    by_cases hvn : v = n
    · exact (ht.not_forked hu (hvn ▸ hv)).elim
    by_cases hvneigh : v = neigh
    · rw [hvneigh, merged_neigh (ht.ne h.acyclic)]
      intro hempty
      exact hm.forked u hu v hv (hvneigh ▸ (append_eq_nil_iff.mp hempty).1)
    · rw [merged_other hvneigh hvn]
      exact hm.forked u hu v hv
  forks x hx := by
    by_cases hxn : x = n
    · rw [hxn, merged_self]
    by_cases hxneigh : x = neigh
    · -- the predecessor has one successor, so the chain goes on with the merged block
      subst hxneigh
      rw [merged_neigh hxn, hm.forks x hx, nil_append]
      cases hx with
      | here _ hs =>
        rw [ht.succs] at hs
        simp at hs
      | next _ hs hv =>
        rw [ht.succs] at hs
        obtain rfl := singleton_inj.mp hs
        exact hm.forks n hv
    · rw [merged_other hxneigh hxn]
      exact hm.forks x hx
  hollow y hy hyd hempty := by
    have hedge : Edge g.succs neigh n := ht.edge_iff.mpr rfl
    have hyn : y ≠ n := by
      rintro rfl
      rcases hyd with hyd | rfl
      · exact hyd (mem_append_right _ mem_cons_self)
      · exact h.not_edge_start neigh hedge
    have hyd : y ∉ done ∨ y = start := hyd.imp_left fun hout hin => hout (mem_append_left _ hin)
    by_cases hyneigh : y = neigh
    · subst hyneigh
      rw [merged_neigh hyn, append_eq_nil_iff] at hempty
      refine ⟨(hm.hollow y hy hyd hempty.1).1, fun z hz _ => ?_⟩
      rw [ht.succs] at hz
      obtain rfl := singleton_inj.mp hz
      exact hm.hollow_block (.next hy ht.succs) hdone hsuccs hempty.2
    · rw [merged_other hyneigh hyn] at hempty
      obtain ⟨hinstrs, hnext⟩ := hm.hollow y hy hyd hempty
      refine ⟨hinstrs, fun z hz hzd => ?_⟩
      rcases mem_append.mp hzd with hzd | hzd
      · exact hnext z hz hzd
      · rw [mem_singleton] at hzd
        refine absurd (ht.only y ?_) hyneigh
        rw [Edge, hz, hzd]
        exact mem_cons_self

theorem Merged.skip {done : List ν} (hm : Merged g start instrs done cur)
    (ht : ¬∃ neigh, Tied g neigh n) :
    Merged g start instrs (done ++ [n]) cur where
  words := hm.words
  forked := hm.forked
  forks := hm.forks
  hollow y hy hyd hempty := by
    have hyd : y ∉ done ∨ y = start := hyd.imp_left fun hout hin => hout (mem_append_left _ hin)
    obtain ⟨hinstrs, hnext⟩ := hm.hollow y hy hyd hempty
    refine ⟨hinstrs, fun z hz hzd => ?_⟩
    rcases mem_append.mp hzd with hzd | hzd
    · exact hnext z hz hzd
    · rw [mem_singleton] at hzd
      exact absurd ⟨y, hy.tied h (hzd ▸ hz)⟩ ht

theorem IsInput.merged_foldlM {done rest : List ν}
    (hsorted : topoSort g start = done ++ rest) (hm : Merged g start instrs done cur) :
    ∃ out, rest.foldlM (mergeStep g r) cur = some out ∧
      Merged g start instrs (topoSort g start) out := by
  induction rest generalizing done cur with
  | nil =>
    rw [append_nil] at hsorted
    exact ⟨cur, rfl, hsorted ▸ hm⟩
  | cons n rest ih =>
    obtain ⟨reached, hsub, hclosed, hstart, -⟩ := exists_reached (g := g) start
    obtain ⟨-, -, hnodup, -, hordered⟩ := topoSort_invariant hclosed hstart hsub
    have hdone : n ∉ done := by
      rw [hsorted, nodup_append] at hnodup
      exact fun hmem => hnodup.2.2 n hmem n mem_cons_self rfl
    have hsuccs : ∀ v ∈ g.succs n, v ∈ done := by
      intro v hv
      rcases hordered done n rest hsorted v hv with hmem | hback
      · exact hmem
      · exact absurd hv (h.acyclic.not_edge_of_reach hback)
    have hnext : topoSort g start = (done ++ [n]) ++ rest := by
      rw [hsorted, append_assoc]
      rfl
    rw [foldlM_cons]
    rcases mergeStep_cases h.converse cur n with ⟨neigh, ht, heq⟩ | ⟨ht, heq⟩
    · rw [heq]
      exact ih hnext (hm.merge h ht hdone hsuccs)
    · rw [heq]
      exact ih hnext (hm.skip h ht)

theorem IsInput.merges : ∃ out, (topoSort g start).foldlM (mergeStep g r) instrs = some out ∧
      Merged g start instrs (topoSort g start) out :=
  h.merged_foldlM rfl h.merged_nil

end

omit [DecidableEq ν] in
theorem Hollow.words (h : Hollow g instrs x) (hforks : ¬Forks g instrs x) :
    Words g.succs instrs x = {[]} := by
  induction h with
  | @stop x h hs =>
    have hnone : g.succs x = [] := by
      rcases hx : g.succs x with _ | ⟨a, _ | ⟨b, l⟩⟩
      · rfl
      · exact absurd hx (hs a)
      · exact absurd (Forks.here h (by rw [hx]; simp)) hforks
    rw [words_of_stop hnone, h]
  | @next x z h hs _ ih =>
    have hz := ih fun hz => hforks (.next h hs hz)
    ext s
    constructor
    · rintro ⟨w, hread⟩
      cases hread with
      | stop hstop =>
        rw [hs] at hstop
        cases hstop
      | @step _ v _ t hedge hread =>
        rw [Edge, hs, mem_singleton] at hedge
        subst hedge
        have ht : t ∈ Words g.succs instrs v := ⟨w, hread⟩
        rw [hz, Set.mem_singleton_iff] at ht
        rw [h, ht]
        rfl
    · rintro rfl
      have hempty : [] ∈ Words g.succs instrs z := by
        rw [hz]
        rfl
      have hstep := mem_words_of_step (u := x) (edge_of_succs hs) hempty
      rwa [h] at hstep

end Merging

section Classes

variable {g : EdgeHolder ν} {start : ν} {word : ν → List ι}

/-- Only blocks with one successor lead to an empty block. -/
structure Plain (g : EdgeHolder ν) (start : ν) (word : ν → List ι) : Prop where
  acyclic : Acyclic g.succs
  source : ∀ p, ¬Edge g.succs p start
  forked : ∀ u, 2 ≤ (g.succs u).length → ∀ v ∈ g.succs u, word v ≠ []

def Falls (g : EdgeHolder ν) (word : ν → List ι) (u v : ν) : Prop := Edge g.succs u v ∧ word v = []

abbrev Falling (g : EdgeHolder ν) (word : ν → List ι) : ν → ν → Prop :=
  Relation.ReflTransGen (Falls g word)

abbrev Meeting (g : EdgeHolder ν) (word : ν → List ι) : ν → ν → Prop :=
  Relation.Join (Falling g word)

omit [DecidableEq ν] in
theorem Plain.succs_of_falls (h : Plain g start word) (hv : Falls g word u v) :
    g.succs u = [v] := by
  obtain ⟨hedge, hempty⟩ := hv
  have hlength : ¬2 ≤ (g.succs u).length := fun htwo => h.forked u htwo v hedge hempty
  rcases hu : g.succs u with _ | ⟨a, _ | ⟨b, l⟩⟩
  · rw [Edge, hu] at hedge
    cases hedge
  · rw [Edge, hu, mem_singleton] at hedge
    rw [hedge]
  · rw [hu] at hlength
    simp at hlength

omit [DecidableEq ν] in
theorem Plain.meeting (h : Plain g start word) : Equivalence (Meeting g word) := by
  refine Relation.equivalence_join_reflTransGen fun a b c hb hc => ?_
  have heq : [b] = [c] := (h.succs_of_falls hb).symm.trans (h.succs_of_falls hc)
  obtain rfl := singleton_inj.mp heq
  exact ⟨b, .refl, .refl⟩

/-- The groups found so far. The start is alone until it is put below its successor. -/
structure Grouped (g : EdgeHolder ν) (start : ν) (word : ν → List ι)
    (d : DisjointSets ν) : Prop where
  valid : d.Valid
  within : d.Within (Meeting g word)
  empty : ∀ z, word z = [] → word (d.find z) = []
  low : ∀ z, word z ≠ [] → d.rank z = 0
  start : (d.rank start = 0 ∧ ∀ z, d.find z = start → z = start) ∨ d.find start ≠ start

omit [DecidableEq ν] in
theorem Plain.grouped_initial (h : Plain g start word) : Grouped g start word .initial where
  valid := DisjointSets.valid_initial
  within a b hab := by
    obtain rfl : a = b := hab
    exact h.meeting.refl a
  empty _ hz := hz
  low _ _ := rfl
  start := Or.inl ⟨rfl, fun _ hz => hz⟩

variable {d : DisjointSets ν}

theorem Grouped.enter (h : Grouped g start word d) (x : ν) : Grouped g start word (d.enter x) := by
  obtain ⟨hvalid, hfind, hrank, -⟩ := h.valid.enter x
  refine ⟨hvalid, ?_, ?_, ?_, ?_⟩
  · intro a b hab
    rw [hfind] at hab
    exact h.within a b hab
  · intro z hz
    rw [hfind]
    exact h.empty z hz
  · intro z hz
    rw [hrank]
    exact h.low z hz
  · rw [hfind, hrank]
    exact h.start

theorem Grouped.unionSet (hplain : Plain g start word) (h : Grouped g start word d)
    (huv : Falls g word u v)
    (hu : d.made u = true) (hv : d.made v = true) : Grouped g start word (d.unionSet u v) := by
  have hmeet : Meeting g word u v := ⟨v, .single huv, .refl⟩
  have hvfind := h.empty v huv.2
  have hvstart : v ≠ start := fun heq => hplain.source u (heq ▸ huv.1)
  have hvroot : (∀ z, d.find z = start → z = start) → d.find v ≠ start :=
    fun halone heq => hvstart (halone v heq)
  have hroot : d.find start ≠ start → ∀ z, d.find z ≠ start := fun hbelow z heq =>
    hbelow (heq ▸ h.valid.idem z)
  have hvalid := h.valid.unionSet hu hv
  have hwithin := h.within.unionSet hplain.meeting hmeet
  cases DisjointSets.linked d u v with
  | same _ heq =>
    rw [heq]
    exact h
  | second _ hrank hfind hkeep =>
    -- a representative of positive rank is empty and not a start that is alone
    have hpos : d.rank (d.find u) ≠ 0 := Nat.ne_zero_of_lt hrank
    refine ⟨hvalid, hwithin, fun z hz => ?_, fun z hz => by rw [hkeep, h.low z hz], ?_⟩
    · simp only [hfind]
      split_ifs
      · by_contra hne
        exact hpos (h.low _ hne)
      · exact h.empty z hz
    · simp only [hfind, hkeep]
      rcases h.start with ⟨hzero, halone⟩ | hbelow
      · refine Or.inl ⟨hzero, fun z hz => ?_⟩
        split_ifs at hz
        · exact absurd hzero (hz ▸ hpos)
        · exact halone z hz
      · refine Or.inr ?_
        split_ifs
        · exact hroot hbelow u
        · exact hbelow
  | first _ _ hfind hkeep =>
    refine ⟨hvalid, hwithin, fun z hz => ?_, fun z hz => ?_, ?_⟩
    · simp only [hfind]
      split_ifs
      · exact hvfind
      · exact h.empty z hz
    · rw [hkeep z fun heq => hz (heq ▸ hvfind), h.low z hz]
    · simp only [hfind]
      rcases h.start with ⟨hzero, halone⟩ | hbelow
      · by_cases hustart : d.find u = start
        · refine Or.inr ?_
          rw [if_pos (by rw [halone u hustart])]
          exact hvroot halone
        · refine Or.inl ⟨by rw [hkeep start (Ne.symm (hvroot halone)), hzero], fun z hz => ?_⟩
          split_ifs at hz
          · exact absurd hz (hvroot halone)
          · exact halone z hz
      · refine Or.inr ?_
        split_ifs
        · exact hroot hbelow v
        · exact hbelow

abbrev isEmpty (word : ν → List ι) (n : ν) : Bool := (word n).isEmpty

/-- What visiting one edge does. -/
structure Visited (g : EdgeHolder ν) (start : ν) (word : ν → List ι) (es : List (ν × ν))
    (d d' : DisjointSets ν) : Prop where
  grouped : Grouped g start word d'
  keeps : ∀ a b, d.find a = d.find b → d'.find a = d'.find b
  joins : ∀ e ∈ es, word e.2 = [] → d'.find e.1 = d'.find e.2
  grows : ∀ z, d.made z = true → d'.made z = true
  origin : ∀ z, d'.made z = true → d.made z = true ∨ ∃ e ∈ es, z = e.1 ∨ z = e.2

theorem Grouped.visitEdge (hplain : Plain g start word) (h : Grouped g start word d)
    (he : Edge g.succs e.1 e.2) : Visited g start word [e] d (visitEdge (isEmpty word) d e) := by
  unfold BasicBlocks.visitEdge
  by_cases hempty : word e.2 = []
  · rw [if_pos (List.isEmpty_iff.mpr hempty)]
    have h₁ := h.enter e.2
    have h₂ := h₁.enter e.1
    obtain ⟨-, hfind₁, -, hmade₁⟩ := h.valid.enter e.2
    obtain ⟨-, hfind₂, -, hmade₂⟩ := h₁.valid.enter e.1
    have hmade : ∀ z, ((d.enter e.2).enter e.1).made z = true ↔
        d.made z = true ∨ z = e.1 ∨ z = e.2 := by
      intro z
      rw [hmade₂, hmade₁]
      tauto
    refine ⟨h₂.unionSet hplain ⟨he, hempty⟩ ((hmade _).mpr (by tauto)) ((hmade _).mpr (by tauto)),
      ?_, ?_, ?_, ?_⟩
    · intro a b hab
      refine DisjointSets.unionSet_keeps ?_
      rw [hfind₂, hfind₁, hab]
    · intro x hx _
      rw [mem_singleton.mp hx]
      exact DisjointSets.unionSet_joins
    · intro z hz
      rw [DisjointSets.unionSet_made]
      exact (hmade z).mpr (Or.inl hz)
    · intro z hz
      rw [DisjointSets.unionSet_made] at hz
      exact ((hmade z).mp hz).imp_right fun hz => ⟨e, mem_cons_self, hz⟩
  · rw [if_neg fun hb => hempty (List.isEmpty_iff.mp hb)]
    refine ⟨h, fun _ _ hab => hab, fun x hx hx' => ?_, fun _ hz => hz, fun _ hz => Or.inl hz⟩
    rw [mem_singleton.mp hx] at hx'
    exact absurd hx' hempty

omit [DecidableEq ν] in
theorem Visited.trans (h : Visited g start word es d d') (h' : Visited g start word es' d' d'') :
    Visited g start word (es ++ es') d d'' where
  grouped := h'.grouped
  keeps a b hab := h'.keeps a b (h.keeps a b hab)
  joins e he hempty := by
    rcases mem_append.mp he with he | he
    · exact h'.keeps _ _ (h.joins e he hempty)
    · exact h'.joins e he hempty
  grows z hz := h'.grows z (h.grows z hz)
  origin z hz := by
    rcases h'.origin z hz with hz | ⟨e, he, hz⟩
    · rcases h.origin z hz with hz | ⟨e, he, hz⟩
      · exact Or.inl hz
      · exact Or.inr ⟨e, mem_append_left _ he, hz⟩
    · exact Or.inr ⟨e, mem_append_right _ he, hz⟩

theorem Grouped.foldl_visitEdge (hplain : Plain g start word)
    (hes : ∀ e ∈ es, Edge g.succs e.1 e.2) (h : Grouped g start word d) :
    Visited g start word es d (es.foldl (BasicBlocks.visitEdge (isEmpty word)) d) := by
  induction es generalizing d with
  | nil => exact ⟨h, fun _ _ hab => hab, by simp, fun _ hz => hz, fun _ hz => Or.inl hz⟩
  | cons e es ih =>
    obtain ⟨he, hes⟩ := forall_mem_cons.mp hes
    have hone := h.visitEdge hplain he
    exact hone.trans (ih hes hone.grouped)

theorem mem_edgesFrom : e ∈ edgesFrom g nd ↔ Reach g.succs nd e.1 ∧ Edge g.succs e.1 e.2 := by
  rw [edgesFrom, mem_flatMap]
  constructor
  · rintro ⟨u, hu, he⟩
    obtain ⟨v, hv, rfl⟩ := mem_map.mp he
    exact ⟨mem_traverseDf_iff.mp hu, hv⟩
  · rintro ⟨hreach, hedge⟩
    exact ⟨e.1, mem_traverseDf_iff.mpr hreach, mem_map.mpr ⟨e.2, hedge, rfl⟩⟩

/-- Entered blocks are in one group with their empty successors. -/
def Complete (g : EdgeHolder ν) (word : ν → List ι) (d : DisjointSets ν) : Prop :=
  ∀ u v, d.made u = true → Falls g word u v → d.find u = d.find v

variable (hplain : Plain g start word)

include hplain

theorem classStep_spec (h : Grouped g start word d) (hc : Complete g word d) (nd : ν) :
    let d' := classStep (isEmpty word) g d nd
    Grouped g start word d' ∧ Complete g word d' ∧ (word nd = [] → d'.made nd = true) ∧
      ∀ z, d.made z = true → d'.made z = true := by
  unfold classStep
  by_cases hnew : word nd = [] ∧ d.made nd = false
  · have htest : (isEmpty word nd && !d.made nd) = true := by
      rw [Bool.and_eq_true, hnew.2]
      exact ⟨List.isEmpty_iff.mpr hnew.1, rfl⟩
    have henter : d.makeSet nd = d.enter nd := by
      rw [DisjointSets.enter, hnew.2, if_neg Bool.false_ne_true]
    rw [if_pos htest, henter]
    obtain ⟨-, hfind, -, hmade⟩ := h.valid.enter nd
    have hedges : ∀ e ∈ edgesFrom g nd, Edge g.succs e.1 e.2 := fun e he => (mem_edgesFrom.mp he).2
    have hvisited := (h.enter nd).foldl_visitEdge hplain hedges
    refine ⟨hvisited.grouped, ?_, fun _ => ?_, fun z hz => ?_⟩
    · intro u v hu huv
      -- what this traversal enters is reached from `nd`
      have hreach : d.made u = true ∨ Reach g.succs nd u := by
        rcases hvisited.origin u hu with hu | ⟨e, he, rfl | rfl⟩
        · rcases (hmade u).mp hu with hu | rfl
          · exact Or.inl hu
          · exact Or.inr .refl
        · exact Or.inr (mem_edgesFrom.mp he).1
        · obtain ⟨hreach, hedge⟩ := mem_edgesFrom.mp he
          exact Or.inr (hreach.tail hedge)
      rcases hreach with hold | hreach
      · refine hvisited.keeps u v ?_
        rw [hfind]
        exact hc u v hold huv
      · exact hvisited.joins (u, v) (mem_edgesFrom.mpr ⟨hreach, huv.1⟩) huv.2
    · exact hvisited.grows nd ((hmade nd).mpr (Or.inr rfl))
    · exact hvisited.grows z ((hmade z).mpr (Or.inl hz))
  · have htest : ¬(isEmpty word nd && !d.made nd) = true := by
      intro htest
      obtain ⟨hempty, hmade⟩ := Bool.and_eq_true_iff.mp htest
      exact hnew ⟨List.isEmpty_iff.mp hempty, by simpa using hmade⟩
    rw [if_neg htest]
    refine ⟨h, hc, fun hempty => ?_, fun _ hz => hz⟩
    by_contra hmade
    exact hnew ⟨hempty, Bool.eq_false_iff.mpr hmade⟩

theorem foldl_classStep_spec (nds : List ν) (h : Grouped g start word d) (hc : Complete g word d) :
    let d' := nds.foldl (classStep (isEmpty word) g) d
    Grouped g start word d' ∧ Complete g word d' ∧
      (∀ nd ∈ nds, word nd = [] → d'.made nd = true) ∧ ∀ z, d.made z = true → d'.made z = true := by
  induction nds generalizing d with
  | nil => exact ⟨h, hc, by simp, fun _ hz => hz⟩
  | cons nd nds ih =>
    obtain ⟨h', hc', hmade, hgrows⟩ := classStep_spec hplain h hc nd
    obtain ⟨h'', hc'', hall, hgrows'⟩ := ih h' hc'
    refine ⟨h'', hc'', forall_mem_cons.mpr ⟨fun hempty => hgrows' nd (hmade hempty), hall⟩, ?_⟩
    exact fun z hz => hgrows' z (hgrows z hz)

/-- The groups when all blocks are visited. -/
structure Groups (g : EdgeHolder ν) (start : ν) (word : ν → List ι) (find : ν → ν) : Prop where
  within : ∀ a b, find a = find b → Meeting g word a b
  idem : ∀ z, find (find z) = find z
  empty : ∀ z, word z = [] → word (find z) = []
  falls : ∀ u v, Reach g.succs start u → word u = [] → Falls g word u v → find u = find v
  start : (∀ z, find z = start → z = start) ∨ find start ≠ start

theorem Plain.groups : Groups g start word (classes (isEmpty word) g (topoSort g start)).find := by
  have hcomplete : Complete g word (DisjointSets.initial : DisjointSets ν) := by
    intro u v hu
    cases hu
  obtain ⟨h, hc, hmade, -⟩ := foldl_classStep_spec hplain (topoSort g start).reverse
    hplain.grouped_initial hcomplete
  refine ⟨h.within, h.valid.idem, h.empty, fun u v hu hempty huv => ?_, h.start.imp_left And.right⟩
  exact hc u v (hmade u (mem_reverse.mpr (mem_topoSort_iff.mpr hu)) hempty) huv

end Classes

section Quotient

variable {g : EdgeHolder ν} {start : ν} {word : ν → List ι} {find : ν → ν}

theorem edge_addUnq : Edge (addUnq g u w).succs x v ↔ Edge g.succs x v ∨ (x = u ∧ v = w) := by
  unfold addUnq
  split_ifs with hmem
  · constructor
    · exact Or.inl
    · rintro (h | ⟨rfl, rfl⟩)
      · exact h
      · exact mem_map.mpr ⟨_, hmem, rfl⟩
  · exact edge_push

/-- The edge that is entered for an edge between an empty block and one with instructions. -/
def arc (word : ν → List ι) (find : ν → ν) (o : ν × ν) : ν × ν :=
  if isEmpty word o.1 then (find o.1, o.2) else (o.1, find o.2)

theorem edge_addOutgoing : Edge (addOutgoing (isEmpty word) find g o).succs u v ↔
      Edge g.succs u v ∨ arc word find o = (u, v) := by
  unfold addOutgoing arc
  split_ifs
  all_goals
    rw [edge_addUnq, Prod.mk.injEq]
    exact or_congr Iff.rfl (and_congr eq_comm eq_comm)

theorem edge_foldl_addOutgoing (os : List (ν × ν)) (g : EdgeHolder ν) :
    Edge (os.foldl (addOutgoing (isEmpty word) find) g).succs u v ↔
      Edge g.succs u v ∨ ∃ o ∈ os, arc word find o = (u, v) := by
  induction os generalizing g with
  | nil => simp
  | cons o os ih =>
    rw [foldl_cons, ih, edge_addOutgoing]
    simp only [mem_cons, exists_eq_or_imp]
    exact or_assoc

theorem succs_foldl_touch (nds : List ν) (g : EdgeHolder ν) :
    (nds.foldl EdgeHolder.touch g).succs = g.succs := by
  induction nds generalizing g with
  | nil => rfl
  | cons nd nds ih => exact ih (g.touch nd)

omit [DecidableEq ν] in
theorem mem_outgoing {sorted : List ν} : o ∈ outgoing (isEmpty word) g sorted ↔
    o.1 ∈ sorted ∧ Edge g.succs o.1 o.2 ∧ isEmpty word o.2 ≠ isEmpty word o.1 := by
  rw [outgoing, mem_flatMap]
  constructor
  · rintro ⟨nd, hnd, ho⟩
    obtain ⟨m, hm, rfl⟩ := mem_map.mp ho
    obtain ⟨hedge, hne⟩ := List.mem_filter.mp hm
    exact ⟨mem_reverse.mp hnd, hedge, by simpa using hne⟩
  · rintro ⟨hmem, hedge, hne⟩
    refine ⟨o.1, mem_reverse.mpr hmem, mem_map.mpr ⟨o.2, ?_, rfl⟩⟩
    exact List.mem_filter.mpr ⟨hedge, by simpa using hne⟩

/-- The edges behind `trans_remove_empty`. -/
inductive Arc (g : EdgeHolder ν) (start : ν) (word : ν → List ι) (find : ν → ν)
    (u v : ν) : Prop where
  | kept (hu : word u ≠ []) (hv : word v ≠ []) (h : Edge g.succs u v)
  | leaves (e : ν) (hreach : Reach g.succs start e) (he : word e = []) (heq : find e = u)
      (hv : word v ≠ []) (h : Edge g.succs e v)
  | enters (e : ν) (hreach : Reach g.succs start u) (hu : word u ≠ []) (he : word e = [])
      (h : Edge g.succs u e) (heq : find e = v)

theorem edge_transRemoveEmpty :
    Edge (transRemoveEmpty (isEmpty word) g (topoSort g start)).succs u v ↔
      Arc g start word (classes (isEmpty word) g (topoSort g start)).find u v := by
  have hempty : ∀ n, isEmpty word n = true ↔ word n = [] := fun n => List.isEmpty_iff
  unfold transRemoveEmpty
  rw [edge_foldl_addOutgoing, eraseEmpty, edge_subgraph, succs_foldl_touch]
  constructor
  · rintro (⟨hu, hv, hedge⟩ | ⟨⟨a, b⟩, ho, harc⟩)
    · refine .kept (fun h => ?_) (fun h => ?_) hedge
      · rw [(hempty u).mpr h] at hu
        cases hu
      · rw [(hempty v).mpr h] at hv
        cases hv
    · obtain ⟨hsorted, hedge, hne⟩ := mem_outgoing.mp ho
      have hreach := mem_topoSort_iff.mp hsorted
      unfold arc at harc
      by_cases ha : word a = []
      · rw [if_pos ((hempty a).mpr ha)] at harc
        obtain ⟨rfl, rfl⟩ := Prod.mk.inj harc
        refine .leaves a hreach ha rfl (fun hb => hne ?_) hedge
        rw [(hempty _).mpr hb, (hempty _).mpr ha]
      · rw [if_neg fun h => ha ((hempty a).mp h)] at harc
        obtain ⟨rfl, rfl⟩ := Prod.mk.inj harc
        refine .enters b hreach ha ?_ hedge rfl
        by_contra hb
        refine hne ?_
        rw [Bool.eq_false_iff.mpr fun h => hb ((hempty _).mp h),
          Bool.eq_false_iff.mpr fun h => ha ((hempty _).mp h)]
  · rintro (⟨hu, hv, hedge⟩ | ⟨e, hreach, he, rfl, hv, hedge⟩ | ⟨e, hreach, hu, he, hedge, rfl⟩)
    · refine Or.inl ⟨?_, ?_, hedge⟩
      · rw [Bool.eq_false_iff.mpr fun h => hu ((hempty u).mp h)]
        rfl
      · rw [Bool.eq_false_iff.mpr fun h => hv ((hempty v).mp h)]
        rfl
    · refine Or.inr ⟨(e, v), mem_outgoing.mpr ⟨mem_topoSort_iff.mpr hreach, hedge, ?_⟩, ?_⟩
      · dsimp only
        rw [(hempty e).mpr he]
        exact fun h => hv ((hempty v).mp h)
      · exact if_pos ((hempty e).mpr he)
    · refine Or.inr ⟨(u, e), mem_outgoing.mpr ⟨mem_topoSort_iff.mpr hreach, hedge, ?_⟩, ?_⟩
      · dsimp only
        rw [(hempty e).mpr he]
        exact fun h => hu ((hempty u).mp h.symm)
      · exact if_neg fun h => hu ((hempty u).mp h)

def image (word : ν → List ι) (find : ν → ν) (u : ν) : ν := if isEmpty word u then find u else u

section

omit [DecidableEq ν]

theorem image_of_empty (h : word u = []) : image word find u = find u :=
  if_pos (List.isEmpty_iff.mpr h)

theorem image_of_nonempty (h : word u ≠ []) : image word find u = u :=
  if_neg fun hb => h (List.isEmpty_iff.mp hb)

theorem Falling.eq_of_stop (hstop : ∀ v, ¬Falls g word u v) (h : Falling g word u t) : t = u := by
  rcases Relation.ReflTransGen.cases_head h with rfl | ⟨v, hv, -⟩
  · rfl
  · exact absurd hv (hstop v)

theorem Groups.eq_of_stop (hgroups : Groups g start word find) (heq : find u = find e)
    (hu : ∀ v, ¬Falls g word u v) (he : ∀ v, ¬Falls g word e v) : u = e := by
  obtain ⟨t, hut, het⟩ := hgroups.within u e heq
  rw [← Falling.eq_of_stop hu hut, Falling.eq_of_stop he het]

theorem Plain.stop_of_edge (hplain : Plain g start word) (h : Edge g.succs e v)
    (hv : word v ≠ []) (w : ν) : ¬Falls g word e w := by
  intro hw
  rw [Edge, hplain.succs_of_falls hw, mem_singleton] at h
  exact hv (h ▸ hw.2)

theorem words_of_falling (h : Falling g word u t) (hu : word u = [])
    (hs : s ∈ Words g.succs word t) : s ∈ Words g.succs word u := by
  induction h using Relation.ReflTransGen.head_induction_on with
  | refl => exact hs
  | head hstep _ ih =>
    have hstep' := mem_words_of_step hstep.1 (ih hstep.2)
    rwa [hu, nil_append] at hstep'

end

variable {h : EdgeHolder ν}

omit [DecidableEq ν] in
theorem words_image (hplain : Plain g start word) (hgroups : Groups g start word find)
    (hh : ∀ u v, Edge h.succs u v ↔ Arc g start word find u v) (hu : Reach g.succs start u)
    (hs : s ∈ Words g.succs word u) : s ∈ Words h.succs word (image word find u) := by
  refine words_of_relation (R := fun u x => Reach g.succs start u ∧ x = image word find u)
    ?_ ?_ ⟨hu, rfl⟩ hs
  · rintro u x ⟨hreach, rfl⟩ hstop
    have hnone : h.succs (image word find u) = [] := by
      refine eq_nil_iff_forall_not_mem.mpr fun v hv => ?_
      have hfree : ∀ w, ¬Edge g.succs u w := fun w hw => by
        rw [Edge, hstop] at hw
        cases hw
      by_cases hempty : word u = []
      · rw [image_of_empty hempty] at hv
        cases (hh _ v).mp hv with
        | kept hw _ _ => exact hw (hgroups.empty u hempty)
        | leaves e _ _ heq hne hedge =>
          obtain rfl := hgroups.eq_of_stop heq (hplain.stop_of_edge hedge hne)
            fun w hw => hfree w hw.1
          exact hfree v hedge
        | enters e _ hw _ _ _ => exact hw (hgroups.empty u hempty)
      · rw [image_of_nonempty hempty] at hv
        cases (hh _ v).mp hv with
        | kept _ _ hedge => exact hfree v hedge
        | leaves e _ he heq _ _ => exact hempty (heq ▸ hgroups.empty e he)
        | enters e _ _ _ hedge _ => exact hfree e hedge
    rw [words_of_stop hnone]
    by_cases hempty : word u = []
    · rw [image_of_empty hempty, hempty, hgroups.empty u hempty]
      rfl
    · rw [image_of_nonempty hempty]
      rfl
  · rintro u x v s ⟨hreach, rfl⟩ hedge ih
    have hs := ih (image word find v) ⟨hreach.tail hedge, rfl⟩
    by_cases hempty : word u = []
    · by_cases hv : word v = []
      · rw [image_of_empty hv, ← hgroups.falls u v hreach hempty ⟨hedge, hv⟩] at hs
        rwa [image_of_empty hempty, hempty, nil_append]
      · rw [image_of_nonempty hv] at hs
        rw [image_of_empty hempty, hempty, ← hgroups.empty u hempty]
        exact mem_words_of_step ((hh _ _).mpr (.leaves u hreach hempty rfl hv hedge)) hs
    · rw [image_of_nonempty hempty]
      by_cases hv : word v = []
      · rw [image_of_empty hv] at hs
        exact mem_words_of_step ((hh _ _).mpr (.enters v hreach hempty hv hedge rfl)) hs
      · rw [image_of_nonempty hv] at hs
        exact mem_words_of_step ((hh _ _).mpr (.kept hempty hv hedge)) hs

theorem exists_falling_stop (hplain : Plain g start word) (u : ν) :
    ∃ t, Falling g word u t ∧ ∀ v, ¬Falls g word t v := by
  refine hplain.acyclic.induction (closed_nodes (g := g) u)
    (P := fun u => ∃ t, Falling g word u t ∧ ∀ v, ¬Falls g word t v) ?_ u
    (start_mem_nodes u)
  intro u _ ih
  by_cases hu : ∃ v, Falls g word u v
  · obtain ⟨v, hv⟩ := hu
    obtain ⟨t, ht, hstop⟩ := ih v hv.1
    exact ⟨t, ht.head hv, hstop⟩
  · exact ⟨u, .refl, fun v hv => hu ⟨v, hv⟩⟩

section

omit [DecidableEq ν]

theorem reach_of_falling (h : Falling g word u t) : Reach g.succs u t := by
  induction h with
  | refl => exact .refl
  | tail _ hstep ih => exact ih.tail hstep.1

theorem Falling.empty (h : Falling g word u t) (hu : word u = []) : word t = [] := by
  rcases Relation.ReflTransGen.cases_tail h with rfl | ⟨v, -, hv⟩
  · exact hu
  · exact hv.2

theorem Groups.find_of_falling (hgroups : Groups g start word find)
    (hu : Reach g.succs start u) (hempty : word u = []) (h : Falling g word u t) :
    find u = find t := by
  induction h with
  | refl => rfl
  | tail hfall hstep ih =>
    rw [ih]
    exact hgroups.falls _ _ (hu.trans (reach_of_falling hfall)) (Falling.empty hfall hempty) hstep

end

theorem words_of_image (hplain : Plain g start word) (hgroups : Groups g start word find)
    (hh : ∀ u v, Edge h.succs u v ↔ Arc g start word find u v) (hu : Reach g.succs start u)
    (hs : s ∈ Words h.succs word (image word find u)) : s ∈ Words g.succs word u := by
  refine words_of_relation (R := fun x u => Reach g.succs start u ∧ x = image word find u)
    ?_ ?_ ⟨hu, rfl⟩ hs
  · rintro x u ⟨hreach, rfl⟩ hstop
    have hfree : ∀ v, ¬Arc g start word find (image word find u) v := fun v hv => by
      have hv := (hh _ v).mpr hv
      rw [Edge, hstop] at hv
      cases hv
    by_cases hempty : word u = []
    · obtain ⟨t, ht, hend⟩ := exists_falling_stop hplain u
      have htempty := Falling.empty ht hempty
      have hnone : g.succs t = [] := by
        refine eq_nil_iff_forall_not_mem.mpr fun v hv => ?_
        have hvne : word v ≠ [] := fun hve => hend v ⟨hv, hve⟩
        refine hfree v (.leaves t (hreach.trans (reach_of_falling ht)) htempty ?_ hvne hv)
        rw [image_of_empty hempty, hgroups.find_of_falling hreach hempty ht]
      refine words_of_falling ht hempty ?_
      rw [words_of_stop hnone, image_of_empty hempty, hgroups.empty u hempty, htempty]
      rfl
    · have hnone : g.succs u = [] := by
        refine eq_nil_iff_forall_not_mem.mpr fun v hv => ?_
        rw [image_of_nonempty hempty] at hfree
        by_cases hve : word v = []
        · exact hfree _ (.enters v hreach hempty hve hv rfl)
        · exact hfree v (.kept hempty hve hv)
      rw [words_of_stop hnone, image_of_nonempty hempty]
      rfl
  · rintro x u y s ⟨hreach, rfl⟩ hedge ih
    cases (hh _ y).mp hedge with
    | kept hx hy hg =>
      have hempty : word u ≠ [] := fun hempty => hx (by
        rw [image_of_empty hempty]
        exact hgroups.empty u hempty)
      rw [image_of_nonempty hempty] at hg ⊢
      exact mem_words_of_step hg (ih y ⟨hreach.tail hg, (image_of_nonempty hy).symm⟩)
    | leaves e he hempty heq hy hg =>
      have hs := ih y ⟨he.tail hg, (image_of_nonempty hy).symm⟩
      have hfind : word (image word find u) = [] := by
        rw [← heq]
        exact hgroups.empty e hempty
      have huempty : word u = [] := by
        by_contra hne
        rw [image_of_nonempty hne] at hfind
        exact hne hfind
      rw [image_of_empty huempty] at heq
      -- both fall to the same block, which is the one with the edge
      obtain ⟨t, hut, het⟩ := hgroups.within u e heq.symm
      have hte := Falling.eq_of_stop (hplain.stop_of_edge hg hy) het
      have hstep := mem_words_of_step hg hs
      rw [hempty, nil_append] at hstep
      rw [hfind, nil_append]
      exact words_of_falling (hte ▸ hut) huempty hstep
    | enters e hx hne he hg heq =>
      have hempty : word u ≠ [] := fun hempty => hne (by
        rw [image_of_empty hempty]
        exact hgroups.empty u hempty)
      rw [image_of_nonempty hempty] at hg ⊢
      refine mem_words_of_step hg (ih e ⟨hreach.tail hg, ?_⟩)
      rw [image_of_empty he, heq]

end Quotient

section Cleaning

variable {h : EdgeHolder ν} {start : ν} {word : ν → List ι}

/-- Behind an empty block there are instructions, and an edge to an empty block is alone. -/
structure Thin (h : EdgeHolder ν) (word : ν → List ι) : Prop where
  leaves : ∀ u v, Edge h.succs u v → word u = [] → word v ≠ []
  enters : ∀ u v w, Edge h.succs u v → word v = [] → Edge h.succs u w → w = v

section

omit [DecidableEq ν]

theorem succs_nil_iff : h.succs u = [] ↔ ∀ v, ¬Edge h.succs u v :=
  eq_nil_iff_forall_not_mem

/-- Words of another graph with the blocks reachable here, compared block by block. -/
theorem words_of_reachable
    (hstop : ∀ u, Reach h.succs start u → f u = [] → word u ∈ Words f' word u)
    (hstep : ∀ u v s, Reach h.succs start u → Edge f u v →
      (Reach h.succs start v → s ∈ Words f' word v) → word u ++ s ∈ Words f' word u) :
    s ∈ Words f word start → s ∈ Words f' word start := by
  refine words_of_relation (R := fun u x => Reach h.succs start u ∧ x = u) ?_ ?_ ⟨.refl, rfl⟩
  · rintro u x ⟨hreach, rfl⟩
    exact hstop x hreach
  · rintro u x v s ⟨hreach, rfl⟩ hedge ih
    exact hstep x v s hreach hedge fun hv => ih v ⟨hv, rfl⟩

/-- Empty blocks at the end of a path that are their predecessors' only successors can be
dropped. -/
theorem words_of_dropped {D : ν → Prop} (hend : ∀ v, D v → word v = [] ∧ h.succs v = [])
    (honly : ∀ u v w, Edge h.succs u v → D v → Edge h.succs u w → w = v)
    (hedge : ∀ u v, Reach h.succs start u → (Edge f u v ↔ Edge h.succs u v ∧ ¬D v)) :
    Words f word start = Words h.succs word start := by
  have hnone : ∀ u, Reach h.succs start u → (∀ v, Edge h.succs u v → D v) →
      word u ∈ Words f word u := by
    intro u hreach hall
    have hstop : f u = [] := eq_nil_iff_forall_not_mem.mpr fun v hv =>
      ((hedge u v hreach).mp hv).2 (hall v ((hedge u v hreach).mp hv).1)
    rw [words_of_stop hstop]
    rfl
  ext s
  constructor
  · refine words_of_reachable (h := h) (fun x hreach hstop => ?_) fun x v s hreach hstep ih => ?_
    · by_cases hnone : h.succs x = []
      · rw [words_of_stop hnone]
        rfl
      · -- all successors were dropped, so each of them is empty and ends the path
        obtain ⟨v, hv⟩ := exists_mem_of_ne_nil _ hnone
        have hdropped : D v := by
          by_contra hnot
          exact eq_nil_iff_forall_not_mem.mp hstop v ((hedge x v hreach).mpr ⟨hv, hnot⟩)
        have hempty : [] ∈ Words h.succs word v := by
          rw [words_of_stop (hend v hdropped).2, (hend v hdropped).1]
          rfl
        have hstep := mem_words_of_step hv hempty
        rwa [append_nil] at hstep
    · have hstep := ((hedge x v hreach).mp hstep).1
      exact mem_words_of_step hstep (ih (hreach.tail hstep))
  · refine words_of_reachable (h := h) (fun x hreach hstop => ?_) fun x v s hreach hstep ih => ?_
    · exact hnone x hreach fun v hv => absurd hv (succs_nil_iff.mp hstop v)
    · have hs := ih (hreach.tail hstep)
      by_cases hdropped : D v
      · have hstop : f v = [] := eq_nil_iff_forall_not_mem.mpr fun w hw =>
          succs_nil_iff.mp (hend v hdropped).2 w ((hedge v w (hreach.tail hstep)).mp hw).1
        rw [words_of_stop hstop, (hend v hdropped).1, Set.mem_singleton_iff] at hs
        rw [hs, append_nil]
        exact hnone x hreach fun w hw => honly x v w hstep hdropped hw ▸ hdropped
      · exact mem_words_of_step ((hedge x v hreach).mpr ⟨hstep, hdropped⟩) hs

end

theorem words_dropZeroOut (hthin : Thin h word) :
    Words (dropZeroOut (isEmpty word) h start).succs word start = Words h.succs word start := by
  have hzero : ∀ n, n ∈ (traverseDf h start).filter
      (fun n => isEmpty word n && (h.neighbors n).isEmpty) ↔
      Reach h.succs start n ∧ word n = [] ∧ h.succs n = [] := by
    intro n
    rw [List.mem_filter, mem_traverseDf_iff, Bool.and_eq_true, List.isEmpty_iff, List.isEmpty_iff,
      EdgeHolder.succs, List.map_eq_nil_iff]
  refine words_of_dropped (D := fun v => word v = [] ∧ h.succs v = []) (fun v hv => hv)
    (fun u v w hv hD hw => hthin.enters u v w hv hD.1 hw) fun u v hu => ?_
  unfold dropZeroOut EdgeHolder.removeDeadNodes
  rw [edge_subgraph]
  simp only [Bool.and_eq_true, decide_eq_true_eq, Bool.not_eq_true', decide_eq_false_iff_not, hzero,
    mem_traverseDf_iff]
  constructor
  · rintro ⟨-, ⟨hv, hnot⟩, hedge⟩
    exact ⟨hedge, fun hz => hnot ⟨hv, hz⟩⟩
  · rintro ⟨hedge, hnot⟩
    refine ⟨⟨hu, fun hz => ?_⟩, ⟨hu.tail hedge, fun hz => hnot hz.2⟩, hedge⟩
    exact succs_nil_iff.mp hz.2.2 v hedge

variable (h word) in
def Leaves : Prop := ∀ u v, Edge h.succs u v → word u = [] → word v ≠ []

theorem dropZeroOut_leaves (start : ν) (hthin : Thin h word) :
    Leaves (dropZeroOut (isEmpty word) h start) word := by
  intro u v hedge hu
  unfold dropZeroOut EdgeHolder.removeDeadNodes at hedge
  exact hthin.leaves u v (edge_subgraph.mp hedge).2.2 hu

def Skips (h cur : EdgeHolder ν) (word : ν → List ι) : Prop :=
  ∀ u, cur.neighbors u = h.neighbors u ∨ ∃ emp l, h.neighbors u = [(emp, l)] ∧ word emp = [] ∧
    (∃ e, h.neighbors emp = [e]) ∧ cur.neighbors u = h.neighbors emp

variable {cur : EdgeHolder ν}

omit [DecidableEq ν] in
theorem edge_of_neighbors {g : EdgeHolder ν} {u v : ν} {l} (hu : g.neighbors u = [(v, l)]) :
    Edge g.succs u v := by
  rw [Edge, EdgeHolder.succs, hu]
  exact mem_cons_self

omit [DecidableEq ν] in
theorem Skips.kept (hskips : Skips h cur word) (hleaves : Leaves h word) (hu : word u = []) :
    cur.neighbors u = h.neighbors u := by
  rcases hskips u with hsame | ⟨v, k, hv, hword, -, -⟩
  · exact hsame
  · exact absurd hword (hleaves u v (edge_of_neighbors hv) hu)

theorem skipStep_skips (hleaves : Leaves h word)
    (hsingles : ∀ n ∈ singles, ∃ e, h.neighbors n = [e])
    (hskips : Skips h cur word) (n : ν) : Skips h (skipStep (isEmpty word) singles cur n) word := by
  have hsame : ∀ u v l, cur.neighbors u = [(v, l)] → word v = [] →
      cur.neighbors u = h.neighbors u := by
    intro u v l hu hv
    rcases hskips u with hsame | ⟨emp, k, -, hemp, -, hcur⟩
    · exact hsame
    · have hedge : Edge h.succs emp v := by
        rw [Edge, EdgeHolder.succs, ← hcur]
        exact edge_of_neighbors hu
      exact absurd hv (hleaves emp v hedge hemp)
  unfold skipStep
  split
  · rename_i emp l hn
    split_ifs with htest
    · obtain ⟨hempty, hmem⟩ := Bool.and_eq_true_iff.mp htest
      have hempty : word emp = [] := List.isEmpty_iff.mp hempty
      have hmem : emp ∈ singles := by simpa using hmem
      have hemp := hskips.kept hleaves hempty
      intro u
      by_cases hu : u = n
      · subst hu
        refine Or.inr ⟨emp, l, ?_, hempty, hsingles emp hmem, ?_⟩
        · rw [← hsame u emp l hn hempty, hn]
        · exact (update_self u _ cur.neighbors).trans hemp
      · have hother : (cur.assign n (cur.neighbors emp)).neighbors u = cur.neighbors u :=
          update_of_ne hu _ _
        rw [hother]
        exact hskips u
    · exact hskips
  · exact hskips

theorem foldl_skipStep_skips (hleaves : Leaves h word)
    (hsingles : ∀ n ∈ singles, ∃ e, h.neighbors n = [e]) (nds : List ν)
    (hskips : Skips h cur word) :
    Skips h (nds.foldl (skipStep (isEmpty word) singles) cur) word := by
  induction nds generalizing cur with
  | nil => exact hskips
  | cons n nds ih => exact ih (skipStep_skips hleaves hsingles hskips n)

theorem skipSingleOut_skips (hleaves : Leaves h word) :
    Skips h (skipSingleOut (isEmpty word) h) word := by
  refine foldl_skipStep_skips hleaves ?_ h.keys fun u => Or.inl rfl
  intro n hn
  obtain ⟨-, htest⟩ := List.mem_filter.mp hn
  obtain ⟨-, hlength⟩ := Bool.and_eq_true_iff.mp htest
  exact length_eq_one_iff.mp (by simpa using hlength)

omit [DecidableEq ν] in
theorem Skips.words (hskips : Skips h cur word) (hleaves : Leaves h word) (u : ν) :
    Words cur.succs word u = Words h.succs word u := by
  have hsuccs : ∀ {x : ν}, cur.neighbors x = h.neighbors x → cur.succs x = h.succs x := by
    intro x hx
    rw [EdgeHolder.succs, EdgeHolder.succs, hx]
  ext s
  constructor
  · refine words_of_relation (R := fun x y => y = x) ?_ ?_ rfl
    · rintro x y rfl hstop
      rcases hskips y with hsame | ⟨emp, l, -, -, ⟨e, he⟩, hcur⟩
      · rw [words_of_stop ((hsuccs hsame).symm.trans hstop)]
        rfl
      · rw [EdgeHolder.succs, hcur, he] at hstop
        cases hstop
    · rintro x y v s rfl hedge ih
      rcases hskips y with hsame | ⟨emp, l, hy, hemp, -, hcur⟩
      · rw [Edge, hsuccs hsame] at hedge
        exact mem_words_of_step hedge (ih v rfl)
      · have hsecond : Edge h.succs emp v := by
          rw [Edge, EdgeHolder.succs, ← hcur]
          exact hedge
        have hstep := mem_words_of_step (edge_of_neighbors hy)
          (mem_words_of_step hsecond (ih v rfl))
        rwa [hemp, nil_append] at hstep
  · refine words_of_relation (R := fun x y => y = x) ?_ ?_ rfl
    · rintro x y rfl hstop
      rcases hskips y with hsame | ⟨emp, l, hy, -, -, -⟩
      · rw [words_of_stop ((hsuccs hsame).trans hstop)]
        rfl
      · rw [EdgeHolder.succs, hy] at hstop
        cases hstop
    · rintro x y v s rfl hedge ih
      have hs := ih v rfl
      rcases hskips y with hsame | ⟨emp, l, hy, hemp, ⟨e, he⟩, hcur⟩
      · rw [Edge, ← hsuccs hsame] at hedge
        exact mem_words_of_step hedge hs
      · rw [Edge, EdgeHolder.succs, hy, map_singleton, mem_singleton] at hedge
        subst hedge
        have hkept := hskips.kept hleaves hemp
        rcases words_cases hs with ⟨hstop, -⟩ | ⟨w, t, hw, ht, rfl⟩
        · rw [EdgeHolder.succs, hkept, he] at hstop
          cases hstop
        · rw [hemp, nil_append]
          refine mem_words_of_step ?_ ht
          rw [Edge, EdgeHolder.succs, hcur, ← hkept]
          exact hw

theorem words_removeDeadNodes :
    Words (h.removeDeadNodes start fun _ => false).succs word start = Words h.succs word start := by
  refine words_of_dropped (D := fun _ => False) (fun _ => False.elim)
    (fun _ _ _ _ => False.elim) fun u v hu => ?_
  rw [EdgeHolder.removeDeadNodes, edge_subgraph]
  simp only [Bool.not_false, Bool.and_true, decide_eq_true_eq, mem_traverseDf_iff]
  exact ⟨fun hall => ⟨hall.2.2, id⟩, fun hedge => ⟨hu, hu.tail hedge.1, hedge.1⟩⟩

end Cleaning

section Main

variable {g r : EdgeHolder ν} {start : ν} {instrs word : ν → List ι}

omit [DecidableEq ν] in
theorem nodup_subgraph (h : g.keys.Nodup) (filter : ν → Bool) : (g.subgraph filter).keys.Nodup :=
  h.filter _

omit [DecidableEq ν] in
theorem nodup_foldl {α : Type} {f : EdgeHolder ν → α → EdgeHolder ν}
    (hf : ∀ g x, g.keys.Nodup → (f g x).keys.Nodup) (xs : List α)
    (h : g.keys.Nodup) : (xs.foldl f g).keys.Nodup := by
  induction xs generalizing g with
  | nil => exact h
  | cons x xs ih => exact ih (hf g x h)

theorem nodup_addOutgoing {find : ν → ν} (g : EdgeHolder ν) (o : ν × ν) (h : g.keys.Nodup) :
    (addOutgoing (isEmpty word) find g o).keys.Nodup := by
  have hadd : ∀ u w, (addUnq (g.touch u) u w).keys.Nodup := by
    intro u w
    unfold addUnq
    split_ifs
    · exact g.nodup_touch h u
    · exact nodup_assign (g.nodup_touch h u) _ _
  unfold addOutgoing
  split_ifs
  · exact hadd _ _
  · exact hadd _ _

theorem nodup_skipStep (g : EdgeHolder ν) (n : ν) (h : g.keys.Nodup) :
    (skipStep (isEmpty word) singles g n).keys.Nodup := by
  unfold skipStep
  split
  · split_ifs
    · exact nodup_assign h _ _
    · exact h
  · exact h

omit [DecidableEq ν] in
theorem thin_of_arcs {find : ν → ν} (hplain : Plain g start word)
    (hgroups : Groups g start word find)
    (hh : ∀ u v, Edge h.succs u v ↔ Arc g start word find u v) : Thin h word where
  leaves u v hedge hu := by
    cases (hh u v).mp hedge with
    | kept hne _ _ => exact absurd hu hne
    | leaves _ _ _ _ hv _ => exact hv
    | enters _ _ hne _ _ _ => exact absurd hu hne
  enters u v w hv hempty hw := by
    cases (hh u v).mp hv with
    | kept _ hne _ | leaves _ _ _ _ hne _ => exact absurd hempty hne
    | enters e _ hu he hedge heq =>
      have hsuccs : g.succs u = [e] := hplain.succs_of_falls ⟨hedge, he⟩
      cases (hh u w).mp hw with
      | kept _ hne hedge' =>
        rw [Edge, hsuccs, mem_singleton] at hedge'
        exact absurd (hedge' ▸ he) hne
      | leaves e' _ he' heq' _ _ => exact absurd (heq' ▸ hgroups.empty e' he') hu
      | enters e' _ _ _ hedge' heq' =>
        rw [Edge, hsuccs, mem_singleton] at hedge'
        rw [← heq, ← heq', hedge']

def cleaned (word : ν → List ι) (g : EdgeHolder ν) (start : ν) : EdgeHolder ν :=
  (skipSingleOut (isEmpty word) (dropZeroOut (isEmpty word)
    (transRemoveEmpty (isEmpty word) g (topoSort g start)) start)).removeDeadNodes start
    fun _ => false

theorem nodup_cleaned (h : g.keys.Nodup) : (cleaned word g start).keys.Nodup := by
  unfold cleaned transRemoveEmpty
  refine nodup_subgraph
    (nodup_foldl nodup_skipStep _ (nodup_subgraph (nodup_foldl nodup_addOutgoing _
    (nodup_subgraph (nodup_foldl (fun g x hg => g.nodup_touch hg x) _ h) _)) _)) _

theorem words_cleaned (hplain : Plain g start word) :
    Words (cleaned word g start).succs word start =
    Words (transRemoveEmpty (isEmpty word) g (topoSort g start)).succs word start := by
  have hthin : Thin (transRemoveEmpty (isEmpty word) g (topoSort g start)) word :=
    thin_of_arcs hplain hplain.groups fun u v => edge_transRemoveEmpty
  have hleaves := dropZeroOut_leaves start hthin
  rw [cleaned, words_removeDeadNodes, (skipSingleOut_skips hleaves).words hleaves,
    words_dropZeroOut hthin]

theorem words_of_start_kept (hplain : Plain g start word)
    (hkept : image word (classes (isEmpty word) g (topoSort g start)).find start = start) :
    Words (cleaned word g start).succs word start = Words g.succs word start := by
  rw [words_cleaned hplain]
  ext s
  constructor
  · intro hs
    refine words_of_image hplain hplain.groups (fun u v => edge_transRemoveEmpty) .refl ?_
    rwa [hkept]
  · intro hs
    have himage := words_image hplain hplain.groups (fun u v => edge_transRemoveEmpty) .refl hs
    rwa [hkept] at himage

theorem words_of_start_replaced (hplain : Plain g start word) (hempty : word start = [])
    (hfind : (classes (isEmpty word) g (topoSort g start)).find start ≠ start) :
    Words (cleaned word g start).succs word start = {[]} := by
  have hgroups := hplain.groups
  have hnone : (transRemoveEmpty (isEmpty word) g (topoSort g start)).succs start = [] := by
    refine succs_nil_iff.mpr fun v hv => ?_
    cases edge_transRemoveEmpty.mp hv with
    | kept hne _ _ => exact hne hempty
    | leaves e _ _ heq _ _ =>
      have hidem := hgroups.idem e
      rw [heq] at hidem
      exact hfind hidem
    | enters _ _ hne _ _ _ => exact hne hempty
  rw [words_cleaned hplain, words_of_stop hnone, hempty]

section

omit [DecidableEq ν]

theorem Groups.find_start {find : ν → ν} (hgroups : Groups g start word find)
    (hplain : Plain g start word) (hstop : ∀ v, ¬Falls g word start v) : find start = start := by
  obtain ⟨t, hst, hft⟩ := hgroups.within start (find start) (hgroups.idem start).symm
  obtain rfl := Falling.eq_of_stop hstop hst
  rcases Relation.ReflTransGen.cases_tail hft with heq | ⟨v, -, hv⟩
  · exact heq.symm
  · exact absurd hv.1 (hplain.source v)

theorem Groups.find_start_ne {find : ν → ν} (hgroups : Groups g start word find)
    (hplain : Plain g start word)
    (hempty : word start = []) (he : Falls g word start e) : find start ≠ start := by
  intro heq
  have hfind := hgroups.falls start e .refl hempty he
  rcases hgroups.start with halone | hbelow
  · obtain rfl := halone e (hfind.symm.trans heq)
    exact hplain.source e he.1
  · exact hbelow heq

theorem Forks.words_ne (hforked : ∀ u, 2 ≤ (g.succs u).length → ∀ v ∈ g.succs u, instrs v ≠ [])
    (h : Forks g instrs u) : [] ∉ Words g.succs instrs u := by
  induction h with
  | @here u _ hs =>
    intro hmem
    rcases words_cases hmem with ⟨hstop, -⟩ | ⟨v, t, hedge, ht, heq⟩
    · rw [hstop] at hs
      simp at hs
    · have hv := hforked u hs v hedge
      have htnil := (append_eq_nil_iff.mp heq.symm).2
      rcases words_cases ht with ⟨-, heq'⟩ | ⟨w, t', -, -, heq'⟩
      · exact hv (heq' ▸ htnil)
      · exact hv (append_eq_nil_iff.mp (heq'.symm.trans htnil)).1
  | @next u v _ hs _ ih =>
    intro hmem
    rcases words_cases hmem with ⟨hstop, -⟩ | ⟨w, t, hedge, ht, heq⟩
    · rw [hs] at hstop
      cases hstop
    · rw [Edge, hs, mem_singleton] at hedge
      subst hedge
      rw [(append_eq_nil_iff.mp heq.symm).2] at ht
      exact ih ht

end

section

variable (h : IsInput g r start instrs)

include h

theorem IsInput.plain {done : List ν} (hm : Merged g start instrs done word) : Plain g start word :=
  ⟨h.acyclic, h.not_edge_start, hm.forked⟩

theorem words_of_not_replaced
    (hm : Merged g start instrs (topoSort g start) word) (hstart : ¬StartReplaced g start instrs) :
    Words (cleaned word g start).succs word start = Words g.succs instrs start := by
  have hplain := h.plain hm
  have hgroups := hplain.groups
  by_cases hempty : word start = []
  · by_cases hfall : ∃ e, Falls g word start e
    · obtain ⟨e, he⟩ := hfall
      have hsuccs : g.succs start = [e] := hplain.succs_of_falls he
      obtain ⟨hinstrs, hnext⟩ := hm.hollow start .start (Or.inr rfl) hempty
      have hhollow := hnext e hsuccs (mem_topoSort_iff.mpr (.single he.1))
      have hforks : ¬Forks g instrs start := by
        intro hforks
        cases hforks with
        | here _ hs =>
          rw [hsuccs] at hs
          simp at hs
        | next _ hs hv => exact hstart ⟨hinstrs, _, hs, hv⟩
      rw [words_of_start_replaced hplain hempty (hgroups.find_start_ne hplain hempty he),
        (Hollow.next hinstrs hsuccs hhollow).words hforks]
    · have hkept := hgroups.find_start hplain fun v hv => hfall ⟨v, hv⟩
      rw [words_of_start_kept hplain ((image_of_empty hempty).trans hkept), hm.words]
  · rw [words_of_start_kept hplain (image_of_nonempty hempty), hm.words]

theorem words_of_replaced (hm : Merged g start instrs (topoSort g start) word)
    (hstart : StartReplaced g start instrs) :
    Words (cleaned word g start).succs word start = {[]} := by
  obtain ⟨hempty, e, hsuccs, hforks⟩ := hstart
  have hplain := h.plain hm
  have hword : word start = [] := hm.forks start (.next hempty hsuccs hforks)
  have hfalls : Falls g word start e := by
    exact ⟨edge_of_succs hsuccs, hm.forks e hforks⟩
  exact words_of_start_replaced hplain hword (hplain.groups.find_start_ne hplain hword hfalls)

theorem IsInput.result :
    ∃ word, Merged g start instrs (topoSort g start) word ∧ ensureBasicBlocks g r start instrs =
      some ⟨cleaned word g start, (cleaned word g start).reverse, word⟩ := by
  obtain ⟨word, hfold, hm⟩ := h.merges
  refine ⟨word, hm, ?_⟩
  unfold ensureBasicBlocks
  dsimp only
  rw [hfold]
  rfl

theorem IsInput.not_preserved (hstart : StartReplaced g start instrs) :
    ¬∃ out, ensureBasicBlocks g r start instrs = some out ∧ Preserved g start instrs out := by
  rintro ⟨out, heq, hpreserved⟩
  obtain ⟨word, hm, hout⟩ := h.result
  rw [hout] at heq
  obtain rfl := Option.some.inj heq
  have hnil : [] ∈ Words (cleaned word g start).succs word start := by
    rw [words_of_replaced h hm hstart]
    rfl
  obtain ⟨hempty, e, hsuccs, hforks⟩ := hstart
  exact (Forks.next hempty hsuccs hforks).words_ne h.forked (hpreserved.sound hnil)

end

/-- `ensure_basic_blocks` preserves the words and returns converse graphs exactly when it does
not replace a start that leads through empty blocks to a fork. -/
theorem ensureBasicBlocks_preserves_iff (h : IsInput g r start instrs) :
    (∃ out, ensureBasicBlocks g r start instrs = some out ∧ Preserved g start instrs out) ↔
      ¬StartReplaced g start instrs := by
  constructor
  · exact fun hout hstart => h.not_preserved hstart hout
  · intro hstart
    obtain ⟨word, hm, hout⟩ := h.result
    have hwords := words_of_not_replaced h hm hstart
    have hconverse : (cleaned word g start).Converse (cleaned word g start).reverse :=
      converse_reverse (nodup_cleaned h.keys)
    refine ⟨_, hout, hwords.subset, fun s w hs _ => ?_, hconverse⟩
    change s ∈ Words (cleaned word g start).succs word start
    rw [hwords]
    exact ⟨w, hs⟩

end Main

/-! ## A start block in front of a fork -/
namespace ForkedStart

def neighbors : ℕ → List (ℕ × ℤ)
  | 0 => [(1, 0)]
  | 1 => [(2, 1), (3, 0)]
  | _ => []

def graph : EdgeHolder ℕ where
  keys := [0, 1]
  neighbors := neighbors
  outside n hn := by
    match n with
    | 0 | 1 => simp at hn
    | n + 2 => rfl

/-- The second block is empty, the first one is a parameter. -/
def instrs (first : List String) : ℕ → List String
  | 0 => first
  | 2 => ["accept"]
  | 3 => ["reject"]
  | _ => []

theorem edges : ∀ u v, Edge graph.succs u v → u = 0 ∧ v = 1 ∨ u = 1 ∧ (v = 2 ∨ v = 3) :=
  EdgeHolder.forall_edge (by decide)

theorem isInput (first : List String) : IsInput graph graph.reverse 0 (instrs first) where
  keys := by decide
  acyclic := acyclic_of_lt (EdgeHolder.forall_edge (by decide))
  reached := forall_reach (by decide)
  converse := converse_reverse (by decide)
  forked u hu v hv := by
    rcases edges u v hv with ⟨rfl, -⟩ | ⟨-, rfl | rfl⟩
    · exact absurd hu (by decide)
    · exact cons_ne_nil _ _
    · exact cons_ne_nil _ _

end ForkedStart

/-- Behind an empty start nothing is left of the two paths. -/
theorem empty_start_loses_paths :
    IsInput ForkedStart.graph ForkedStart.graph.reverse 0 (ForkedStart.instrs []) ∧
      ["accept"] ∈ Words ForkedStart.graph.succs (ForkedStart.instrs []) 0 ∧
      (ensureBasicBlocks ForkedStart.graph ForkedStart.graph.reverse 0 (ForkedStart.instrs [])).map
        (fun out => (out.graph.keys, out.graph.succs 0, out.instrs 0)) = some ([], [], []) ∧
      ¬∃ out, ensureBasicBlocks ForkedStart.graph ForkedStart.graph.reverse 0
        (ForkedStart.instrs []) = some out ∧
        Preserved ForkedStart.graph 0 (ForkedStart.instrs []) out := by
  refine ⟨ForkedStart.isInput [], ⟨2, ?_⟩, by decide, (ForkedStart.isInput []).not_preserved ?_⟩
  · have h01 : Edge ForkedStart.graph.succs 0 1 := mem_cons_self
    have h12 : Edge ForkedStart.graph.succs 1 2 := mem_cons_self
    have hstop : ForkedStart.graph.succs 2 = [] := rfl
    exact Reads.step h01 (Reads.step h12 (Reads.stop hstop))
  · exact ⟨rfl, 1, rfl, .here rfl (by decide)⟩

/-- A start with instructions keeps its paths. -/
theorem filled_start_keeps_paths :
    IsInput ForkedStart.graph ForkedStart.graph.reverse 0 (ForkedStart.instrs ["extract"]) ∧
      ∃ out, ensureBasicBlocks ForkedStart.graph ForkedStart.graph.reverse 0
        (ForkedStart.instrs ["extract"]) = some out ∧
        Preserved ForkedStart.graph 0 (ForkedStart.instrs ["extract"]) out := by
  refine ⟨ForkedStart.isInput _, (ensureBasicBlocks_preserves_iff (ForkedStart.isInput _)).mpr ?_⟩
  rintro ⟨hempty, -⟩
  exact cons_ne_nil _ _ hempty

end BasicBlocks
