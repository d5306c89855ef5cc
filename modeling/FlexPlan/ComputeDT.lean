import FlexPlan.DecisionTree

/-!
# The branches that a location depends on

`computeDT` takes the locations that several blocks in front of one join write. It makes a decision
tree for the part of the graph in front of the join, or for its part that tells the written values
apart, and collects the nodes of the tree above the writes.
-/
namespace ComputeDT

open FlowGraph CfgAlgos DomFrontier PostDominance DecisionTree List EdgeHolder

variable {ν ι : Type}

section Model

structure Blocks (ν ι : Type) where
  basicBlocks : EdgeHolder ν
  start : ν
  instructions : ν → List ι
  isIf : ι → Bool

/-- Instructions and the canonical right sides of assignments are nodes, too. The last two nodes are
made by `pdom_frontier` and `make_decision_tree`. -/
structure Source (ν ι : Type) extends Blocks ν ι where
  rBasicBlocks : EdgeHolder ν
  node : ι → ν
  canon : ι → Option ν
  order : Iteration ν
  artificial : ν
  fresh : ν

variable [DecidableEq ν]

def getParents (out : Output ν) (n : ν) : Option ν :=
  out.domf.keys.find? fun k => n ∈ out.children k

/-- The edges that `traverse_df_with_check` follows. -/
def checked (g : EdgeHolder ν) (check : ν → Bool) : EdgeHolder ν where
  keys := g.keys
  neighbors n := (g.neighbors n).filter fun e => check e.1
  outside n hn := by rw [g.outside n hn, filter_nil]

def restrict (g : EdgeHolder ν) (visited : List ν) : EdgeHolder ν where
  keys := visited.filter fun n => (g.neighbors n).isEmpty = false
  neighbors n := if n ∈ visited then g.neighbors n else []
  outside n hn := by
    by_contra hne
    rw [ite_eq_right_iff, Classical.not_imp] at hne
    exact hn (mem_filter.mpr ⟨hne.1, by simpa using hne.2⟩)

/-- A node without an entry has no successors. -/
def markDead (sg : EdgeHolder ν) (targets alldead : List ν) (s : ν) : List ν :=
  if s ∉ targets ∧ ∀ x ∈ sg.succs s, x ∈ alldead then s :: alldead else alldead

def collect (tree : EdgeHolder ν) (start : ν) (targets : List ν) : List ν :=
  (traverseDf tree start).filter (· ∉ targets)

variable (S : Source ν ι)

/-- The entry of `instr2bb`. -/
def blockOf (i : ι) : Option ν :=
  (traverseDf S.basicBlocks S.start).find? fun b => S.node i ∈ (S.instructions b).map S.node

def next (i : ι) : Option ν := (blockOf S i).bind fun b => (S.basicBlocks.succs b).head?

def commonNext (instrs : List ι) : Option ν := do
  let join ← instrs.head?.bind (next S)
  if ∀ i ∈ instrs, next S i = some join then some join else none

def targets (join : ν) : List ν := (S.rBasicBlocks.succs join).dedup

def visited (join wdom : ν) : List ν :=
  traverseDf (checked S.basicBlocks fun n => n ≠ join) wdom

def front (join wdom : ν) : EdgeHolder ν :=
  (restrict S.basicBlocks (visited S join wdom)).removeDeadNodes wdom fun n => n = join

def alldead (join wdom : ν) : List ν :=
  (topoSort (front S join wdom) wdom).foldl (markDead (front S join wdom) (targets S join))
    ((visited S join wdom).filter fun n => (S.basicBlocks.neighbors n).isEmpty)

/-- The graph in front of the join, without the nodes that do not lead to it. -/
def region (join wdom : ν) : Option (EdgeHolder ν) :=
  if join ∈ topoSort (front S join wdom) wdom then none
  else some ((front S join wdom).removeDeadNodes wdom fun n => n ∈ alldead S join wdom)

/-- A decision tree with its start, and the graphs as `pdom_frontier` leaves them. -/
def grow (sg rsg : EdgeHolder ν) (bstart : ν) (targets : List ν) :
    Option ((EdgeHolder ν × ν) × EdgeHolder ν × EdgeHolder ν) := do
  let (out, sg, rsg) ← pdomFrontier S.order sg rsg bstart S.artificial
  let result ← makeDecisionTree S.order ⟨sg, bstart, targets, out.domf, getParents out,
    fun b => (S.instructions b).filter S.isIf⟩ S.fresh
  match result with
  | .error _ => none
  | .ok (tree, start, _) => some ((tree, start), sg, rsg)

/-- The nodes for a location that the instructions in front of the join write. -/
def dependsAt (dom : Output ν) (instrs : List ι) (join : ν) : Option (List ν) := do
  let wdom ← getParents dom join
  let sg ← region S join wdom
  let ((tree, start), sg, rsg) ← grow S sg sg.reverse wdom (targets S join)
  let values := instrs.filterMap S.canon
  if ∃ i ∈ instrs, S.canon i = none then none
  else if values.dedup.length = instrs.length then some (collect tree start (targets S join))
  else if values.dedup.length = 1 then
    -- all writes agree: the tree is one of the instructions
    (S.order.arrange (instrs.map S.node)).head?.map fun nd => collect .empty nd (targets S join)
  else do
    -- edges from the writes to their values, which are taken out before the next location
    let edges := (S.order.arrange values.dedup).flatMap fun ex =>
      (instrs.filter fun i => S.canon i = some ex).filterMap fun i => (blockOf S i).map (·, ex)
    let ((tree, start), _) ← grow S (edges.foldl (fun g e => g.push e.1 (e.2, 0)) sg)
      (edges.foldl (fun r e => r.push e.2 (e.1, 0)) rsg) start values.dedup
    some (collect tree start (targets S join ++ values))

/-- What is collected for a location with these writes; the check is that of `getInstr2bb`. -/
def computeDT (instrs : List ι) : Option (List ν) := do
  let dom ← domFrontier S.basicBlocks S.rBasicBlocks S.start
  if ((traverseDf S.basicBlocks S.start).flatMap fun b => (S.instructions b).map S.node).Nodup then
    if instrs.length ≤ 1 then some [] else (commonNext S instrs).bind (dependsAt S dom instrs)
  else none

end Model

section Regions

variable [DecidableEq ν] {S : Source ν ι} {join wdom : ν} {sg : EdgeHolder ν}

theorem sublist_removeDeadNodes (g : EdgeHolder ν) (start : ν) (dead : ν → Bool) (n : ν) :
    ((g.removeDeadNodes start dead).neighbors n).Sublist (g.neighbors n) := by
  simp only [removeDeadNodes, subgraph]
  split_ifs
  · exact filter_sublist
  · exact nil_sublist _

theorem mem_markDead {targets dead : List ν} {s n : ν} : n ∈ markDead sg targets dead s ↔
    n ∈ dead ∨ n = s ∧ s ∉ targets ∧ ∀ x ∈ sg.succs s, x ∈ dead := by
  rw [markDead]
  split_ifs with hdead
  · rw [mem_cons, or_comm, and_iff_left hdead]
  · exact (or_iff_left fun h => hdead h.2).symm

theorem mem_foldl_markDead {targets dead l : List ν} {n : ν} (hn : n ∉ l) :
    n ∈ l.foldl (markDead sg targets) dead ↔ n ∈ dead := by
  induction l generalizing dead with
  | nil => rfl
  | cons s l ih =>
    obtain ⟨hs, hl⟩ := not_or.mp (mt mem_cons.mpr hn)
    rw [foldl_cons, ih hl, mem_markDead]
    exact or_iff_left fun h => hs h.1

/-- In the order of the sort every node has its final mark when a node in front of it is looked
at. -/
theorem exists_alive (hacyclic : Acyclic sg.succs) {targets alldead : List ν} {x : ν}
    (hx : Reach sg.succs wdom x) (htarget : x ∉ targets)
    (halive : x ∉ (topoSort sg wdom).foldl (markDead sg targets) alldead) :
    ∃ y, Edge sg.succs x y ∧ y ∉ (topoSort sg wdom).foldl (markDead sg targets) alldead := by
  obtain ⟨-, -, hnodup, -, hordered⟩ :=
    topoSort_invariant (g := sg) (closed_nodes wdom) (start_mem_nodes wdom) subset_rfl
  obtain ⟨before, after, hsplit⟩ := append_of_mem (mem_topoSort_iff.mpr hx)
  rw [hsplit] at halive hnodup ⊢
  obtain ⟨-, hlate, hdisjoint⟩ := nodup_append.mp hnodup
  rw [foldl_append, foldl_cons, mem_foldl_markDead (nodup_cons.mp hlate).1] at halive
  by_contra hnone
  refine halive (mem_markDead.mpr (Or.inr ⟨rfl, htarget, fun y hy => ?_⟩))
  have hend := not_not.mp fun hout => hnone ⟨y, hy, hout⟩
  have hbefore : y ∈ before :=
    (hordered before x after hsplit y hy).resolve_right fun hreach =>
      hacyclic.not_edge_of_reach hreach hy
  rwa [foldl_append, mem_foldl_markDead fun hin => hdisjoint y hbefore y hin rfl] at hend

/-- A part of the graph in which every node but the targets leads on. -/
structure Region (S : Source ν ι) (join : ν) (sg : EdgeHolder ν) : Prop where
  sub : ∀ n, (sg.neighbors n).Sublist (S.basicBlocks.neighbors n)
  leads : ∀ d x, Edge sg.succs d x → x ∈ targets S join ∨ ∃ y, Edge sg.succs x y

omit [DecidableEq ν] in
theorem edge_of_sublist {g h : EdgeHolder ν} (hsub : ∀ n, (g.neighbors n).Sublist (h.neighbors n))
    {u v : ν} (hedge : Edge g.succs u v) : Edge h.succs u v :=
  ((hsub u).map Prod.fst).subset hedge

theorem sublist_front (n : ν) :
    ((front S join wdom).neighbors n).Sublist (S.basicBlocks.neighbors n) := by
  refine (sublist_removeDeadNodes _ wdom _ n).trans ?_
  simp only [restrict]
  split_ifs
  · exact .refl _
  · exact nil_sublist _

theorem region_spec (hacyclic : Acyclic S.basicBlocks.succs) (h : region S join wdom = some sg) :
    Region S join sg := by
  rw [region] at h
  split_ifs at h
  cases h
  refine ⟨fun n => (sublist_removeDeadNodes _ wdom _ n).trans (sublist_front n),
    fun d x hedge => ?_⟩
  by_cases htarget : x ∈ targets S join
  · exact Or.inl htarget
  obtain ⟨-, hkept, -⟩ := edge_subgraph.mp hedge
  have hkeeps : ∀ n, (n ∈ traverseDf (front S join wdom) wdom &&
      !decide (n ∈ alldead S join wdom)) =
      true ↔ Reach (front S join wdom).succs wdom n ∧ n ∉ alldead S join wdom := by
    simp [mem_traverseDf_iff]
  obtain ⟨hreach, hx⟩ := (hkeeps x).mp hkept
  have hpart : Acyclic (front S join wdom).succs :=
    fun u hu => hacyclic u (hu.lift id fun _ _ => edge_of_sublist sublist_front)
  obtain ⟨y, hy, halive⟩ := exists_alive hpart hreach htarget hx
  exact Or.inr ⟨y, edge_subgraph.mpr ⟨hkept, (hkeeps y).mpr ⟨hreach.tail hy, halive⟩, hy⟩⟩

theorem Region.reaches (h : Region S join sg) (hacyclic : Acyclic S.basicBlocks.succs)
    (hconverse : S.basicBlocks.Converse S.rBasicBlocks) {d x : ν} (hedge : Edge sg.succs d x) :
    Relation.TransGen (Edge S.basicBlocks.succs) d join := by
  refine hacyclic.induction (closed_nodes S.start) (P := fun d => ∀ x, Edge sg.succs d x →
    Relation.TransGen (Edge S.basicBlocks.succs) d join) ?_ d
    (source_mem_nodes (edge_of_sublist h.sub hedge)) x hedge
  intro d _ ih x hedge
  have hstep := edge_of_sublist h.sub hedge
  rcases h.leads d x hedge with htarget | ⟨y, hy⟩
  · exact .tail (.single hstep) (hconverse.edge_iff.mp (mem_dedup.mp htarget))
  · exact .head hstep (ih x hstep y hy)

end Regions

section Results

variable [DecidableEq ν] {S : Source ν ι} {join d : ν} {instrs : List ι}

theorem grow_spec {sg rsg sg' rsg' tree : EdgeHolder ν} {bstart start : ν} {targets : List ν}
    (htargets : targets.Nodup)
    (h : grow S sg rsg bstart targets = some ((tree, start), sg', rsg')) :
    (∀ n, (sg'.neighbors n).Sublist (sg.neighbors n)) ∧ ∀ d, Reach tree.succs start d →
      d ∈ targets ∨ d = S.fresh ∨ 1 < (sg.neighbors d).length := by
  obtain ⟨⟨out, sg₁, rsg₁⟩, hout, h⟩ := Option.bind_eq_some_iff.mp h
  obtain ⟨result, hresult, h⟩ := Option.bind_eq_some_iff.mp h
  let G : Input ν ι := ⟨sg₁, bstart, targets, out.domf, getParents out,
    fun b => (S.instructions b).filter S.isIf⟩
  obtain ⟨r, hr, hwithin⟩ := @makeDecisionTree_within _ _ _ G S.order S.fresh htargets
  obtain rfl := Option.some.inj (hr.symm.trans hresult)
  match r with
  | .error _ => cases h
  | .ok (tree', start', labels) =>
    cases h
    refine ⟨sublist_restored hout, fun d hd => ?_⟩
    rcases hwithin rfl hd with htarget | hstop | hfresh
    · exact Or.inl htarget
    · obtain ⟨k, -, hk⟩ := mem_flatMap.mp hstop
      exact Or.inr (Or.inr (branches_of_pdomf hout hk))
    · exact Or.inr (Or.inl hfresh)

theorem commonNext_spec (h : commonNext S instrs = some join) :
    ∀ i ∈ instrs, ∃ b, blockOf S i = some b ∧ Edge S.basicBlocks.succs b join := by
  obtain ⟨next, -, h⟩ := Option.bind_eq_some_iff.mp h
  split_ifs at h with hall
  cases h
  intro i hi
  obtain ⟨b, hb, hhead⟩ := Option.bind_eq_some_iff.mp (hall i hi)
  exact ⟨b, hb, mem_of_head? hhead⟩

/-- A branch in front of the join. -/
structure Branch (S : Source ν ι) (join d : ν) : Prop where
  several : 1 < (S.basicBlocks.neighbors d).length
  front : Relation.TransGen (Edge S.basicBlocks.succs) d join

theorem mem_collect {tree : EdgeHolder ν} {start : ν} {targets : List ν} :
    d ∈ collect tree start targets ↔ Reach tree.succs start d ∧ d ∉ targets := by
  rw [collect, mem_filter, mem_traverseDf_iff, decide_eq_true_eq]

variable (hacyclic : Acyclic S.basicBlocks.succs)
  (hconverse : S.basicBlocks.Converse S.rBasicBlocks)

include hacyclic hconverse

theorem Region.branch {sg : EdgeHolder ν} (h : Region S join sg)
    (hd : 1 < (sg.neighbors d).length) : Branch S join d := by
  obtain ⟨e, he⟩ := exists_mem_of_length_pos (Nat.zero_lt_of_lt hd)
  exact ⟨hd.trans_le (h.sub d).length_le, h.reaches hacyclic hconverse (mem_map_of_mem he)⟩

theorem dependsAt_spec {dom : Output ν} {nodes : List ν}
    (hblocks : ∀ i ∈ instrs, ∃ b, blockOf S i = some b ∧ Edge S.basicBlocks.succs b join)
    (h : dependsAt S dom instrs join = some nodes) (hd : d ∈ nodes) :
    d = S.fresh ∨ d ∈ instrs.map S.node ∨ Branch S join d := by
  obtain ⟨wdom, -, h⟩ := Option.bind_eq_some_iff.mp h
  obtain ⟨sg, hsg, h⟩ := Option.bind_eq_some_iff.mp h
  obtain ⟨⟨⟨tree, start⟩, sg', rsg'⟩, hgrow, h⟩ := Option.bind_eq_some_iff.mp h
  have hregion := region_spec hacyclic hsg
  obtain ⟨hsub, htree⟩ := grow_spec (nodup_dedup _) hgrow
  dsimp only at h
  split_ifs at h
  · cases h
    obtain ⟨hreach, htarget⟩ := mem_collect.mp hd
    rcases htree d hreach with hin | hfresh | hmany
    · exact absurd hin htarget
    · exact Or.inl hfresh
    · exact Or.inr (Or.inr (hregion.branch hacyclic hconverse hmany))
  · obtain ⟨nd, hnd, rfl⟩ := Option.map_eq_some_iff.mp h
    obtain ⟨hreach, -⟩ := mem_collect.mp hd
    rcases Relation.ReflTransGen.cases_tail hreach with rfl | ⟨u, -, hedge⟩
    · exact Or.inr (Or.inl ((S.order.perm _).mem_iff.mp (mem_of_head? hnd)))
    · cases hedge
  · obtain ⟨⟨⟨tree', start'⟩, graphs⟩, hgrow', h⟩ := Option.bind_eq_some_iff.mp h
    cases h
    obtain ⟨hreach, hout⟩ := mem_collect.mp hd
    obtain ⟨htarget, hvalue⟩ := not_or.mp (mt mem_append.mpr hout)
    rcases (grow_spec (nodup_dedup _) hgrow').2 d hreach with hin | hfresh | hmany
    · exact absurd (mem_dedup.mp hin) hvalue
    · exact Or.inl hfresh
    · -- the new edges start at the writes, which are in front of the join
      rw [neighbors_foldl_push, filter_eq_nil_iff.mpr, map_nil, append_nil] at hmany
      · exact Or.inr (Or.inr (hregion.branch hacyclic hconverse
          (hmany.trans_le (hsub d).length_le)))
      · intro e he hd
        obtain rfl := of_decide_eq_true hd
        obtain ⟨ex, -, he⟩ := mem_flatMap.mp he
        obtain ⟨i, hi, he⟩ := mem_filterMap.mp he
        obtain ⟨b, hb, rfl⟩ := Option.map_eq_some_iff.mp he
        obtain ⟨b', hb', hedge⟩ := hblocks i (mem_filter.mp hi).1
        cases hb.symm.trans hb'
        exact htarget (mem_dedup.mpr (hconverse.edge_iff.mpr hedge))

/-- What is collected for a location are new nodes, instructions, or branches in front of the join
that its writes have in common. -/
theorem computeDT_spec {nodes : List ν} (h : computeDT S instrs = some nodes) (hd : d ∈ nodes) :
    d = S.fresh ∨ d ∈ instrs.map S.node ∨ ∃ join, Branch S join d ∧ 1 < instrs.length ∧
      ∀ i ∈ instrs, ∃ b, blockOf S i = some b ∧ Edge S.basicBlocks.succs b join := by
  obtain ⟨dom, -, h⟩ := Option.bind_eq_some_iff.mp h
  split_ifs at h with _ hone
  · cases h
    cases hd
  · obtain ⟨join, hjoin, h⟩ := Option.bind_eq_some_iff.mp h
    have hblocks := commonNext_spec hjoin
    refine (dependsAt_spec hacyclic hconverse hblocks h hd).imp_right
      (Or.imp_right fun hbranch => ?_)
    exact ⟨join, hbranch, by omega, hblocks⟩

end Results

end ComputeDT
