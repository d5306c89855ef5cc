import Mathlib.Logic.Relation
import Mathlib.Data.List.Induction
import Mathlib.Logic.Function.Basic
import Mathlib.Data.Int.Notation
import Mathlib.Tactic.Common

/-!
# Sequences of unions

`dj_set_expl` follows parent pointers while they are positive and keeps, beside them, a forest of
the unions made. A union turns the path from one of its ids to the root around, and the parent -1
of the root is used as an index. Accesses are checked here: an access out of range, or a loop that
does not end, gives none.
-/
namespace DjSetUnion

open List Function Option

section Model

/-- A root has the parent -1; every vector has an entry for every id. -/
structure DjSet where
  latestId : ℕ
  equations : List (ℕ × ℕ)
  sizes : ℕ → ℕ
  parents : ℕ → ℤ
  rawParents : List ℤ

namespace DjSet

def empty : DjSet := ⟨0, [], fun _ => 1, fun _ => -1, []⟩

def newid (d : DjSet) : DjSet :=
  { d with
    latestId := d.latestId + 1
    sizes := update d.sizes d.latestId 1
    parents := update d.parents d.latestId (-1)
    rawParents := d.rawParents ++ [-1] }

def climb (d : DjSet) : ℕ → ℕ → Option ℕ
  | 0, _ => none
  | k + 1, p =>
    if p < d.latestId then
      if 0 < d.parents p then d.climb k (d.parents p).toNat else some p
    else none

/-- The root, and the structure after path compression: the first write makes the root the
parent of `a`, and the loop ends there. -/
def rep (d : DjSet) (a : ℕ) : Option (ℕ × DjSet) := do
  let rt ← d.climb (d.latestId + 1) a
  return (rt, if a = rt then d else { d with parents := update d.parents a rt })

end DjSet

def readAt (vs : List ℤ) (i : ℤ) : Option ℤ := if 0 ≤ i then vs[i.toNat]? else none

def writeAt (vs : List ℤ) (i x : ℤ) : Option (List ℤ) :=
  if 0 ≤ i ∧ i.toNat < vs.length then some (vs.set i.toNat x) else none

def ancestors (vs : List ℤ) : ℕ → ℤ → Option (List ℤ)
  | 0, _ => none
  | k + 1, e =>
    if 0 < e then do
      let next ← readAt vs e
      let rest ← ancestors vs k next
      return e :: rest
    else some []

/-- The loop that turns the path from `y` to its root around, from the root on. -/
def reversePath (vs : List ℤ) : List ℤ → Option (List ℤ)
  | [] => some vs
  | i :: is => do
    let rp ← readAt vs i
    let vs ← writeAt vs rp i
    reversePath vs is

/-- The number of the new equation, or -1 if the equation is redundant. -/
def DjSet.setUnion (d : DjSet) (xid yid : ℕ) : Option (ℤ × DjSet) := do
  let (rxid, d) ← d.rep xid
  let (ryid, d) ← d.rep yid
  if rxid = ryid then return (-1, d)
  else
    let (rxid, ryid, xid, yid) :=
      if d.sizes rxid < d.sizes ryid then (ryid, rxid, yid, xid) else (rxid, ryid, xid, yid)
    let yancestors ← ancestors d.rawParents (d.rawParents.length + 1) yid
    let raw ← reversePath d.rawParents yancestors.reverse
    let raw ← writeAt raw yid xid
    return (d.equations.length,
      { d with
        equations := d.equations ++ [(xid, yid)]
        sizes := update d.sizes rxid (d.sizes rxid + d.sizes ryid)
        parents := update d.parents ryid rxid
        rawParents := raw })

inductive Op where
  | newid
  | setUnion (xid yid : ℕ)
  | rep (a : ℕ)

def exec (d : DjSet) : Op → Option DjSet
  | .newid => some d.newid
  | .setUnion x y => (d.setUnion x y).map Prod.snd
  | .rep a => (d.rep a).map Prod.snd

def run (ops : List Op) : Option DjSet := ops.foldlM exec .empty

/-- `rep(x) == rep(y)`. -/
def sameRep (d : DjSet) (x y : ℕ) : Option Bool := do
  let (rx, d) ← d.rep x
  let (ry, _) ← d.rep y
  return rx == ry

end Model

section Specification

def created (ops : List Op) : ℕ := ops.countP fun | .newid => true | _ => false

def unions (ops : List Op) : List (ℕ × ℕ) :=
  ops.filterMap fun | .setUnion x y => some (x, y) | _ => none

def Op.Within (n : ℕ) : Op → Prop
  | .newid => True
  | .setUnion x y => x < n ∧ y < n
  | .rep a => a < n

def Valid (ops : List Op) : Prop :=
  ∀ before op after, ops = before ++ op :: after → op.Within (created before)

def Connected (us : List (ℕ × ℕ)) : ℕ → ℕ → Prop := Relation.EqvGen fun x y => (x, y) ∈ us

/-- What is claimed between the calls made and those still to come, a union among them. -/
structure CorrectAt (before after : List Op) (d : DjSet) : Prop where
  sameRep_iff : ∀ x < created before, ∀ y < created before,
    ∃ same, sameRep d x y = some same ∧ (same = true ↔ Connected (unions before) x y)
  numbered_iff : ∀ x y rest, after = .setUnion x y :: rest →
    ∃ number d', d.setUnion x y = some (number, d') ∧
      (0 ≤ number ↔ ¬Connected (unions before) x y)

/-- All accesses are in range, and what is claimed holds before and after every call. -/
def Correct (ops : List Op) : Prop :=
  ∀ before after, ops = before ++ after → ∃ d, run before = some d ∧ CorrectAt before after d

/-- The first union of two different ids is `set_union(x, 0)`, and no other two are ever united. -/
def OnlyIntoZero (us : List (ℕ × ℕ)) : Prop :=
  ∀ u ∈ (us.filter fun u => u.1 ≠ u.2).head?,
    u.2 = 0 ∧ ∀ v ∈ us, v.1 ≠ v.2 → v = u ∨ v = u.swap

end Specification

section States

/-- The first id has been united with `z`, or with nothing if `z` is the first id itself. -/
structure United (n z : ℕ) (d : DjSet) : Prop where
  count : d.latestId = n
  within : z = 0 ∨ z < n
  parents : ∀ p, d.parents p = if p = 0 ∧ z ≠ 0 then (z : ℤ) else -1
  sizes : ∀ p, d.sizes p = if p = z ∧ z ≠ 0 then 2 else 1
  length : d.rawParents.length = n
  raw : ∀ p < n, p ≠ 0 → readAt d.rawParents p = some (-1)

def root (z v : ℕ) : ℕ := if v = 0 then z else v

variable {n z x y : ℕ} {d : DjSet}

theorem readAt_natCast (vs : List ℤ) (p : ℕ) : readAt vs p = vs[p]? := by
  rw [readAt, if_pos (Int.natCast_nonneg p), Int.toNat_natCast]

theorem united_empty : United 0 0 .empty :=
  ⟨rfl, .inl rfl, fun _ => by simp [DjSet.empty], fun _ => by simp [DjSet.empty], rfl,
    fun p hp => absurd hp (Nat.not_lt_zero p)⟩

theorem United.newid (h : United n z d) : United (n + 1) z d.newid where
  count := congrArg (· + 1) h.count
  within := h.within.imp_right Nat.lt_succ_of_lt
  parents p := by
    have hp := h.parents p
    have hz := h.within
    simp only [DjSet.newid, update_apply, h.count]
    split_ifs at hp ⊢ <;> omega
  sizes p := by
    have hp := h.sizes p
    have hz := h.within
    simp only [DjSet.newid, update_apply, h.count]
    split_ifs at hp ⊢ <;> omega
  length := by rw [DjSet.newid, length_append, h.length, length_singleton]
  raw p hp hne := by
    rw [readAt_natCast, DjSet.newid]
    rcases Nat.lt_succ_iff_lt_or_eq.mp hp with hp | rfl
    · rw [getElem?_append_left (by rw [h.length]; exact hp), ← readAt_natCast]
      exact h.raw p hp hne
    · rw [getElem?_append_right (Nat.le_of_eq h.length), h.length, Nat.sub_self]
      rfl

variable (h : United n z d)

include h

theorem United.rep (hx : x < n) : d.rep x = some (root z x, d) := by
  have hstop : ∀ k p, p < n → (p ≠ 0 ∨ z = 0) → d.climb (k + 1) p = some p := by
    intro k p hp hroot
    rw [DjSet.climb, h.count, if_pos hp, h.parents, if_neg (by omega)]
  by_cases hzero : x = 0 ∧ z ≠ 0
  · obtain ⟨rfl, hz⟩ := hzero
    have hparent : d.parents 0 = z := by rw [h.parents, if_pos ⟨rfl, hz⟩]
    have hclimb : d.climb (d.latestId + 1) 0 = some z := by
      obtain ⟨k, hk⟩ : ∃ k, d.latestId = k + 1 := ⟨n - 1, by rw [h.count]; omega⟩
      rw [DjSet.climb, h.count, if_pos hx, hparent, if_pos (by omega), ← h.count, hk,
        Int.toNat_natCast]
      exact hstop k z (h.within.resolve_left hz) (.inl hz)
    have hsame : update d.parents 0 (z : ℤ) = d.parents := by rw [← hparent, update_eq_self]
    rw [DjSet.rep, hclimb, root, if_pos rfl]
    simp only [bind_eq_bind, bind_some, hsame, ite_self]
    rfl
  · have hroot : root z x = x := by
      rw [root]
      split_ifs <;> omega
    rw [DjSet.rep, hstop _ x hx (by omega), hroot]
    simp only [bind_eq_bind, bind_some, if_true]
    rfl

theorem United.sameRep (hx : x < n) (hy : y < n) :
    sameRep d x y = some (root z x == root z y) := by
  rw [DjSetUnion.sameRep, h.rep hx]
  simp only [bind_eq_bind, bind_some, h.rep hy]
  rfl

theorem United.setUnion_same (hx : x < n) (hy : y < n) (hsame : root z x = root z y) :
    d.setUnion x y = some (-1, d) := by
  rw [DjSet.setUnion, h.rep hx]
  simp only [bind_eq_bind, bind_some, h.rep hy, if_pos hsame]
  rfl

theorem United.setUnion_none (hx : x < n) (hy : y < n) (hne : root z x ≠ root z y)
    (hfirst : z = 0 → y ≠ 0) : d.setUnion x y = none := by
  -- the id whose path is turned around has the root -1 right behind it
  have hturn : ∀ w < n, w ≠ 0 → ancestors d.rawParents (d.rawParents.length + 1) w =
      some [(w : ℤ)] ∧
      reversePath d.rawParents [(w : ℤ)] = none := by
    intro w hw hpos
    have hread := h.raw w hw hpos
    obtain ⟨k, hk⟩ : ∃ k, d.rawParents.length = k + 1 := ⟨n - 1, by rw [h.length]; omega⟩
    constructor
    · rw [hk, ancestors, if_pos (by omega), hread]
      rfl
    · rw [reversePath, hread]
      rfl
  have hsizes : d.sizes (root z x) < d.sizes (root z y) ↔ x ≠ 0 ∧ z ≠ 0 ∧ root z y = z := by
    rw [h.sizes, h.sizes]
    simp only [root] at hne ⊢
    split_ifs at hne ⊢ <;> omega
  rw [DjSet.setUnion, h.rep hx]
  simp only [bind_eq_bind, bind_some, h.rep hy, if_neg hne]
  by_cases hless : d.sizes (root z x) < d.sizes (root z y)
  · obtain ⟨hancestors, hreverse⟩ := hturn x hx (hsizes.mp hless).1
    simp only [if_pos hless, hancestors, bind_some, reverse_singleton, hreverse, bind_none]
  · have hpos : y ≠ 0 := by
      rintro rfl
      have hx : x ≠ 0 := fun hx => hne (congrArg (root z) hx)
      exact hless (hsizes.mpr ⟨hx, fun hz => hfirst hz rfl, rfl⟩)
    obtain ⟨hancestors, hreverse⟩ := hturn y hy hpos
    simp only [if_neg hless, hancestors, bind_some, reverse_singleton, hreverse, bind_none]

end States

section Unions

/-- The unions behind which the first id is united with `z`. -/
structure Made (z : ℕ) (us : List (ℕ × ℕ)) : Prop where
  first : (us.filter fun u => u.1 ≠ u.2).head? = if z = 0 then none else some (z, 0)
  only : ∀ v ∈ us, v.1 ≠ v.2 → v = (z, 0) ∨ v = (0, z)

variable {n z x y : ℕ} {d : DjSet} {us vs : List (ℕ × ℕ)}

theorem OnlyIntoZero.of_append (h : OnlyIntoZero (us ++ vs)) : OnlyIntoZero us := by
  intro u hu
  have hhead : u ∈ ((us ++ vs).filter fun u => u.1 ≠ u.2).head? := by
    rw [filter_append, head?_append, mem_def.mp hu]
    rfl
  obtain ⟨hzero, hall⟩ := h u hhead
  exact ⟨hzero, fun v hv => hall v (mem_append_left _ hv)⟩

theorem made_nil : Made 0 [] := ⟨rfl, by simp⟩

variable (h : Made z us)

include h

theorem Made.onlyIntoZero : OnlyIntoZero us := by
  intro u hu
  rw [mem_def, h.first] at hu
  split_ifs at hu
  cases hu
  exact ⟨rfl, h.only⟩

theorem Made.mem (hz : z ≠ 0) : (z, 0) ∈ us := by
  have hhead := h.first
  rw [if_neg hz] at hhead
  exact (mem_filter.mp (mem_of_head? hhead)).1

theorem Made.connected_iff : Connected us x y ↔ root z x = root z y := by
  constructor
  · intro hxy
    induction hxy with
    | rel x y hmem =>
      by_cases hne : x = y
      · rw [hne]
      · rcases h.only _ hmem hne with heq | heq <;> cases heq <;> simp [root]
    | refl => rfl
    | symm _ _ _ ih => exact ih.symm
    | trans _ _ _ _ _ ih ih' => exact ih.trans ih'
  · intro hroot
    simp only [root] at hroot
    split_ifs at hroot with hx hy hy
    · rw [hx, hy]
      exact .refl _
    · subst hx hroot
      exact .symm _ _ (.rel _ _ (h.mem hy))
    · subst hy hroot
      exact .rel _ _ (h.mem hx)
    · subst hroot
      exact .refl _

theorem Made.again (hxy : root z x = root z y) : Made z (us ++ [(x, y)]) := by
  simp only [root] at hxy
  have hpair : x ≠ y → (x, y) = (z, 0) ∨ (x, y) = (0, z) := by
    intro hne
    split_ifs at hxy with hx hy hy
    · exact absurd (hx.trans hy.symm) hne
    · exact Or.inr (by rw [hx, hxy])
    · exact Or.inl (by rw [hy, hxy])
    · exact absurd hxy hne
  refine ⟨?_, forall_mem_append.mpr ⟨h.only, by simpa using hpair⟩⟩
  rw [filter_append, head?_append, h.first]
  split_ifs with hz
  · have hself : x = y := by
      by_contra hne
      rcases hpair hne with heq | heq <;> cases heq
      · exact hne hz
      · exact hne hz.symm
    simp [hself]
  · rfl

theorem Made.into_zero (hz : z = 0) (hx : x ≠ 0) : Made x (us ++ [(x, 0)]) := by
  have hself : ∀ v ∈ us, v.1 ≠ v.2 → False := by
    intro v hv hne
    rcases h.only v hv hne with rfl | rfl
    · exact hne hz
    · exact hne hz.symm
  refine ⟨?_, forall_mem_append.mpr ⟨fun v hv hne => (hself v hv hne).elim, by simp⟩⟩
  rw [filter_append, head?_append, h.first, if_pos hz, if_neg hx]
  simp [hx]

theorem Made.not_onlyIntoZero (hne : root z x ≠ root z y) (hfirst : z = 0 → y ≠ 0) :
    ¬OnlyIntoZero (us ++ [(x, y)]) := by
  have hxy : x ≠ y := fun hxy => hne (congrArg (root z) hxy)
  intro honly
  by_cases hz : z = 0
  · have hhead : (x, y) ∈ ((us ++ [(x, y)]).filter fun u => u.1 ≠ u.2).head? := by
      rw [filter_append, head?_append, h.first, if_pos hz]
      simp [hxy]
    exact hfirst hz (honly _ hhead).1
  · have hhead : (z, 0) ∈ ((us ++ [(x, y)]).filter fun u => u.1 ≠ u.2).head? := by
      rw [filter_append, head?_append, h.first, if_neg hz]
      rfl
    rcases (honly _ hhead).2 (x, y) (by simp) hxy with heq | heq <;> cases heq
    · exact hne (by simp [root])
    · exact hne (by simp [root])

end Unions

section Sequences

variable {n z x y : ℕ} {d : DjSet} {us : List (ℕ × ℕ)} {ops before after : List Op}

theorem United.setUnion_zero (h : United n z d) (hz : z = 0) (hx : x < n) (hne : x ≠ 0) :
    ∃ d', d.setUnion x 0 = some ((d.equations.length : ℤ), d') ∧ United n x d' := by
  subst hz
  have hzero : 0 < n := Nat.zero_lt_of_lt hx
  have hwrite : writeAt d.rawParents (0 : ℕ) x = some (d.rawParents.set 0 x) := by
    rw [writeAt, if_pos ⟨by simp, by simpa [h.length] using hzero⟩]
    rfl
  have hancestors :
      ancestors d.rawParents (d.rawParents.length + 1) ((0 : ℕ) : ℤ) = some [] := rfl
  refine ⟨⟨d.latestId, d.equations ++ [(x, 0)], update d.sizes x (d.sizes x + d.sizes 0),
    update d.parents 0 x, d.rawParents.set 0 x⟩, ?_, h.count, .inr hx, fun p => ?_, fun p => ?_,
    by rw [length_set, h.length], fun p hp hpos => ?_⟩
  · rw [DjSet.setUnion, h.rep hx]
    simp only [bind_eq_bind, bind_some, h.rep hzero, root, if_neg hne, if_true, h.sizes,
      ne_eq, not_true_eq_false, and_false, if_false, Nat.lt_irrefl, hancestors, reverse_nil,
      reversePath, hwrite]
    rfl
  · have hp := h.parents p
    simp only [update_apply]
    split_ifs at hp ⊢ <;> simp_all
  · have hp := h.sizes p
    have hsum : d.sizes x + d.sizes 0 = 2 := by rw [h.sizes, h.sizes]; simp
    simp only [update_apply, hsum]
    split_ifs at hp ⊢ <;> simp_all
  · rw [readAt_natCast, getElem?_set_ne (Ne.symm hpos), ← readAt_natCast]
    exact h.raw p hp hpos

/-- A union is redundant, unites an id with the first one for the first time, or leaves a vector. -/
theorem United.setUnion_cases (h : United n z d) (hus : Made z us) (hx : x < n) (hy : y < n) :
    (∃ number d' z', d.setUnion x y = some (number, d') ∧ (0 ≤ number ↔ ¬Connected us x y) ∧
      United n z' d' ∧ Made z' (us ++ [(x, y)])) ∨
    (d.setUnion x y = none ∧ ¬OnlyIntoZero (us ++ [(x, y)])) := by
  rw [hus.connected_iff]
  by_cases hsame : root z x = root z y
  · refine Or.inl ⟨-1, d, z, h.setUnion_same hx hy hsame, ?_, h, hus.again hsame⟩
    exact iff_of_false (by decide) (not_not_intro hsame)
  · by_cases hfirst : z = 0 → y ≠ 0
    · exact Or.inr ⟨h.setUnion_none hx hy hsame hfirst, hus.not_onlyIntoZero hsame hfirst⟩
    · push Not at hfirst
      obtain ⟨hz, rfl⟩ := hfirst
      have hne : x ≠ 0 := fun hx => hsame (congrArg (root z) hx)
      obtain ⟨d', hunion, hd'⟩ := h.setUnion_zero hz hx hne
      refine Or.inl ⟨_, d', x, hunion, ?_, hd', hus.into_zero hz hne⟩
      exact iff_of_true (Int.natCast_nonneg _) hsame

theorem Valid.of_append (h : Valid (before ++ after)) : Valid before := by
  intro b op a hsplit
  exact h b op (a ++ after) (by rw [hsplit, append_assoc, cons_append])

theorem unions_append : unions (before ++ after) = unions before ++ unions after :=
  filterMap_append ..

theorem created_concat (op : Op) : created (ops ++ [op]) = created ops + created [op] :=
  countP_append

theorem run_concat (op : Op) : run (ops ++ [op]) = (run ops).bind fun d => exec d op := by
  rw [run, foldlM_append]
  refine congrArg _ (funext fun d => ?_)
  rw [foldlM_cons]
  cases exec d op <;> rfl

theorem run_cases (hvalid : Valid ops) :
    (∃ d z, run ops = some d ∧ United (created ops) z d ∧ Made z (unions ops)) ∨
    (run ops = none ∧ ¬OnlyIntoZero (unions ops)) := by
  induction ops using List.reverseRecOn with
  | nil => exact Or.inl ⟨.empty, 0, rfl, united_empty, made_nil⟩
  | append_singleton ops op ih =>
    have hop := hvalid ops op [] rfl
    rw [run_concat, unions_append, created_concat]
    rcases ih hvalid.of_append with ⟨d, z, hd, h, hus⟩ | ⟨hnone, hnot⟩
    · rw [hd, bind_some]
      cases op with
      | newid =>
        rw [show unions [.newid] = [] from rfl, append_nil]
        exact Or.inl ⟨d.newid, z, rfl, h.newid, hus⟩
      | setUnion x y =>
        rcases h.setUnion_cases hus hop.1 hop.2 with ⟨number, d', z', hd', -, h',
          hus'⟩ | ⟨hd', hnot⟩
        · exact Or.inl ⟨d', z', by rw [exec, hd', map_some], h', hus'⟩
        · exact Or.inr ⟨by rw [exec, hd', map_none], hnot⟩
      | rep a =>
        rw [show unions [.rep a] = [] from rfl, append_nil]
        exact Or.inl ⟨d, z, by rw [exec, h.rep hop, map_some], h, hus⟩
    · rw [hnone, bind_none]
      exact Or.inr ⟨rfl, fun honly => hnot honly.of_append⟩

/-- Representatives and results are right throughout a sequence, with all accesses in range,
exactly if no ids are united but the first one with one other, in this order at first. -/
theorem correct_iff (ops : List Op) (hvalid : Valid ops) :
    Correct ops ↔ OnlyIntoZero (unions ops) := by
  constructor
  · intro hcorrect
    obtain ⟨d, hd, -⟩ := hcorrect ops [] (append_nil _).symm
    rcases run_cases hvalid with ⟨_, _, -, -, hus⟩ | ⟨hnone, -⟩
    · exact hus.onlyIntoZero
    · rw [hnone] at hd
      cases hd
  · intro honly before after hsplit
    subst hsplit
    rw [unions_append] at honly
    rcases run_cases hvalid.of_append with ⟨d, z, hd, h, hus⟩ | ⟨-, hnot⟩
    · refine ⟨d, hd, fun x hx y hy => ⟨_, h.sameRep hx hy, ?_⟩, ?_⟩
      · rw [hus.connected_iff, beq_iff_eq]
      · rintro x y rest rfl
        have hop := hvalid before _ rest rfl
        rcases h.setUnion_cases hus hop.1 hop.2 with ⟨number, d', -, hd', hnumber, -⟩ | ⟨-, hnot⟩
        · exact ⟨number, d', hd', hnumber⟩
        · rw [show unions (.setUnion x y :: rest) = [(x, y)] ++ unions rest from rfl,
            ← append_assoc] at honly
          exact absurd honly.of_append hnot
    · exact absurd honly.of_append hnot

end Sequences

namespace TwoIds

def ops (x y : ℕ) : List Op := [.newid, .newid, .setUnion x y]

theorem valid (hx : x < 2) (hy : y < 2) : Valid (ops x y) := by
  intro before op after h
  match before with
  | [] => cases h; trivial
  | [_] => cases h; trivial
  | [_, _] => cases h; exact ⟨hx, hy⟩
  | _ :: _ :: _ :: before => cases before <;> cases h

end TwoIds

/-- With the first id as second argument the other one becomes the root. -/
theorem zero_second_correct : Valid (TwoIds.ops 1 0) ∧ Correct (TwoIds.ops 1 0) := by
  have hvalid : Valid (TwoIds.ops 1 0) := TwoIds.valid (by decide) (by decide)
  refine ⟨hvalid, (correct_iff _ hvalid).mpr ?_⟩
  intro u hu
  cases hu
  exact ⟨rfl, by decide⟩

/-- `set_union(0, 1)` writes in front of the vector. -/
theorem zero_first_incorrect : Valid (TwoIds.ops 0 1) ∧ run (TwoIds.ops 0 1) = none ∧
    ¬Correct (TwoIds.ops 0 1) := by
  have hnone : run (TwoIds.ops 0 1) = none := by
    have hunion := united_empty.newid.newid.setUnion_none Nat.zero_lt_two Nat.one_lt_two
      Nat.zero_ne_one fun _ => Nat.one_ne_zero
    refine (@run_concat [.newid, .newid] (.setUnion 0 1)).trans ?_
    exact congrArg (Option.map Prod.snd) hunion
  refine ⟨TwoIds.valid (by decide) (by decide), hnone, fun hcorrect => ?_⟩
  obtain ⟨d, hd, -⟩ := hcorrect (TwoIds.ops 0 1) [] (append_nil _).symm
  rw [hnone] at hd
  cases hd

end DjSetUnion
