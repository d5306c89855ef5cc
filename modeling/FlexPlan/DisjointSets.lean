import Mathlib.Data.Nat.Notation
import Mathlib.Logic.Function.Basic
import Mathlib.Logic.Relation
import Mathlib.Tactic.NthRewrite
import Mathlib.Tactic.SplitIfs

/-!
# Disjoint sets with union by rank

Linking two classes keeps the representative of higher rank, and the second one if the ranks are
equal. Elements that were never entered stand alone.
-/
structure DisjointSets (ν : Type) where
  find : ν → ν
  rank : ν → ℕ
  made : ν → Bool

namespace DisjointSets

variable {ν : Type}

def initial : DisjointSets ν := ⟨id, fun _ => 0, fun _ => false⟩

variable [DecidableEq ν] (d : DisjointSets ν)

def makeSet (x : ν) : DisjointSets ν where
  find := Function.update d.find x x
  rank := Function.update d.rank x 0
  made := Function.update d.made x true

def unionSet (x y : ν) : DisjointSets ν :=
  let i := d.find x
  let j := d.find y
  if i = j then d
  else if d.rank i > d.rank j then { d with find := fun z => if d.find z = j then i else d.find z }
  else { d with
    find := fun z => if d.find z = i then j else d.find z
    rank := if d.rank i = d.rank j then Function.update d.rank j (d.rank j + 1) else d.rank }

/-- Representatives represent themselves, and what was not entered is its own class. -/
structure Valid : Prop where
  idem : ∀ z, d.find (d.find z) = d.find z
  fresh : ∀ z, d.made z = false → d.find z = z ∧ d.rank z = 0
  root : ∀ z, d.made z = true → d.made (d.find z) = true

variable {d} {x y : ν}

omit [DecidableEq ν] in
theorem valid_initial : Valid (initial : DisjointSets ν) where
  idem _ := rfl
  fresh _ _ := ⟨rfl, rfl⟩
  root _ h := h

theorem Valid.makeSet_eq (h : d.Valid) (hx : d.made x = false) :
    d.makeSet x = { d with made := Function.update d.made x true } := by
  obtain ⟨hfind, hrank⟩ := h.fresh x hx
  have hf : Function.update d.find x x = d.find := by
    nth_rewrite 2 [← hfind]
    exact Function.update_eq_self x d.find
  have hr : Function.update d.rank x 0 = d.rank := by
    rw [← hrank]
    exact Function.update_eq_self x d.rank
  rw [makeSet, hf, hr]

theorem Valid.makeSet (h : d.Valid) (hx : d.made x = false) : (d.makeSet x).Valid := by
  rw [h.makeSet_eq hx]
  constructor
  · exact h.idem
  · intro z hz
    dsimp only at hz
    have hne : z ≠ x := by
      rintro rfl
      rw [Function.update_self] at hz
      cases hz
    rw [Function.update_of_ne hne] at hz
    exact h.fresh z hz
  · intro z hz
    dsimp only at hz ⊢
    by_cases hne : z = x
    · subst hne
      rw [(h.fresh z hx).1]
      exact Function.update_self z true d.made
    · rw [Function.update_of_ne hne] at hz
      by_cases hroot : d.find z = x
      · rw [hroot]
        exact Function.update_self x true d.made
      · rw [Function.update_of_ne hroot]
        exact h.root z hz

def enter (d : DisjointSets ν) (x : ν) : DisjointSets ν := if d.made x then d else d.makeSet x

theorem Valid.enter (h : d.Valid) (x : ν) : (d.enter x).Valid ∧ (d.enter x).find = d.find ∧
    (d.enter x).rank = d.rank ∧ ∀ z, (d.enter x).made z = true ↔ d.made z = true ∨ z = x := by
  unfold DisjointSets.enter
  by_cases hx : d.made x = true
  · rw [if_pos hx]
    refine ⟨h, rfl, rfl, fun z => ⟨Or.inl, ?_⟩⟩
    rintro (hz | rfl)
    · exact hz
    · exact hx
  · have hfresh : d.made x = false := Bool.eq_false_iff.mpr hx
    rw [if_neg hx]
    refine ⟨h.makeSet hfresh, ?_, ?_, fun z => ?_⟩
    · rw [h.makeSet_eq hfresh]
    · rw [h.makeSet_eq hfresh]
    · rw [h.makeSet_eq hfresh]
      by_cases hz : z = x
      · simp [hz]
      · simp [hz]

/-- One of the two representatives is replaced by the other one. -/
inductive Linked (d : DisjointSets ν) (x y : ν) (d' : DisjointSets ν) : Prop where
  | same (h : d.find x = d.find y) (heq : d' = d)
  | second (h : d.find x ≠ d.find y) (hrank : d.rank (d.find y) < d.rank (d.find x))
      (hfind : d'.find = fun z => if d.find z = d.find y then d.find x else d.find z)
      (hkeep : d'.rank = d.rank) (hmade : d'.made = d.made)
  | first (h : d.find x ≠ d.find y) (hrank : d.rank (d.find x) ≤ d.rank (d.find y))
      (hfind : d'.find = fun z => if d.find z = d.find x then d.find y else d.find z)
      (hkeep : ∀ z ≠ d.find y, d'.rank z = d.rank z) (hmade : d'.made = d.made)

theorem linked (d : DisjointSets ν) (x y : ν) : Linked d x y (d.unionSet x y) := by
  unfold unionSet
  by_cases h : d.find x = d.find y
  · exact .same h (if_pos h)
  by_cases hrank : d.rank (d.find x) > d.rank (d.find y)
  · dsimp only
    rw [if_neg h, if_pos hrank]
    exact .second h hrank rfl rfl rfl
  · dsimp only
    rw [if_neg h, if_neg hrank]
    refine .first h (Nat.le_of_not_lt hrank) rfl (fun z hz => ?_) rfl
    dsimp only
    split_ifs
    · exact Function.update_of_ne hz _ _
    · rfl

theorem unionSet_made : (d.unionSet x y).made = d.made := by
  cases linked d x y with
  | same _ heq => rw [heq]
  | second _ _ _ _ hmade | first _ _ _ _ hmade => exact hmade

theorem unionSet_joins : (d.unionSet x y).find x = (d.unionSet x y).find y := by
  cases linked d x y with
  | same h heq => rw [heq, h]
  | second h _ hfind =>
    rw [hfind]
    dsimp only
    rw [if_neg h, if_pos rfl]
  | first h _ hfind =>
    rw [hfind]
    dsimp only
    rw [if_pos rfl, if_neg (Ne.symm h)]

theorem unionSet_keeps (h : d.find a = d.find b) :
    (d.unionSet x y).find a = (d.unionSet x y).find b := by
  cases linked d x y with
  | same _ heq => rw [heq, h]
  | second _ _ hfind | first _ _ hfind => simp only [hfind, h]

theorem Valid.unionSet (h : d.Valid) (hx : d.made x = true) (hy : d.made y = true) :
    (d.unionSet x y).Valid := by
  have hroot : ∀ z, d.made z = false → d.find z ≠ d.find x ∧ d.find z ≠ d.find y := by
    intro z hz
    rw [(h.fresh z hz).1]
    constructor
    · rintro rfl
      rw [h.root x hx] at hz
      cases hz
    · rintro rfl
      rw [h.root y hy] at hz
      cases hz
  cases linked d x y with
  | same _ heq =>
    rw [heq]
    exact h
  | second hne _ hfind hkeep hmade =>
    constructor
    · intro z
      rw [hfind]
      dsimp only
      split_ifs with hz hi hz'
      · rfl
      · exact h.idem x
      · rw [h.idem] at hz'
        exact absurd hz' hz
      · exact h.idem z
    · intro z hz
      rw [hmade] at hz
      rw [hfind, hkeep]
      dsimp only
      rw [if_neg (hroot z hz).2]
      exact h.fresh z hz
    · intro z hz
      rw [hmade] at hz ⊢
      rw [hfind]
      dsimp only
      split_ifs
      · exact h.root x hx
      · exact h.root z hz
  | first hne _ hfind hkeep hmade =>
    constructor
    · intro z
      rw [hfind]
      dsimp only
      split_ifs with hz hi hz'
      · rfl
      · exact h.idem y
      · rw [h.idem] at hz'
        exact absurd hz' hz
      · exact h.idem z
    · intro z hz
      rw [hmade] at hz
      have hzy : z ≠ d.find y := by
        rintro rfl
        rw [h.root y hy] at hz
        cases hz
      rw [hfind, hkeep z hzy]
      dsimp only
      rw [if_neg (hroot z hz).1]
      exact h.fresh z hz
    · intro z hz
      rw [hmade] at hz ⊢
      rw [hfind]
      dsimp only
      split_ifs
      · exact h.root y hy
      · exact h.root z hz

def Within (d : DisjointSets ν) (R : ν → ν → Prop) : Prop := ∀ a b, d.find a = d.find b → R a b

theorem Within.unionSet (hR : Equivalence R) (h : d.Within R) (hxy : R x y) :
    (d.unionSet x y).Within R := by
  intro a b hab
  cases linked d x y with
  | same _ heq =>
    rw [heq] at hab
    exact h a b hab
  | second _ _ hfind =>
    rw [hfind] at hab
    dsimp only at hab
    split_ifs at hab with ha hb hb
    · exact h a b (ha.trans hb.symm)
    · exact hR.trans (h a y ha) (hR.trans (hR.symm hxy) (h x b hab))
    · exact hR.trans (h a x hab) (hR.trans hxy (h y b hb.symm))
    · exact h a b hab
  | first _ _ hfind =>
    rw [hfind] at hab
    dsimp only at hab
    split_ifs at hab with ha hb hb
    · exact h a b (ha.trans hb.symm)
    · exact hR.trans (h a x ha) (hR.trans hxy (h y b hab))
    · exact hR.trans (h a y hab) (hR.trans (hR.symm hxy) (h x b hb.symm))
    · exact h a b hab

end DisjointSets
