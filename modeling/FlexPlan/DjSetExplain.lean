import FlexPlan.DjSetUnion

/-!
# The proof forest of unions

From the forest of the unions made `explain` reads why two ids are connected. Accesses are checked
as in the unions themselves.
-/
namespace DjSetExplain

open DjSetUnion List Option

section Model

/-- Where the reversed lists of ancestors stop to agree, one place back. -/
def lastCommon : List ℤ → List ℤ → Option ℤ
  | i :: is, j :: js => if i = j then some ((lastCommon is js).getD i) else none
  | _, _ => none

/-- The equations on the path from an id to one of its ancestors. -/
def pathTo (vs : List ℤ) (target : ℤ) : ℕ → ℤ → Option (List (ℤ × ℤ))
  | 0, _ => none
  | k + 1, x =>
    if x = target then some []
    else do
      let next ← readAt vs x
      let rest ← pathTo vs target k next
      return (x, next) :: rest

def explain (d : DjSet) (xid yid : ℕ) : Option (List (ℤ × ℤ)) := do
  let (rxid, d) ← d.rep xid
  let (ryid, d) ← d.rep yid
  if rxid ≠ ryid then return []
  else if xid = yid then return []
  else
    let fuel := d.rawParents.length + 1
    let ancsX ← ancestors d.rawParents fuel xid
    let ancsY ← ancestors d.rawParents fuel yid
    let common ← lastCommon ancsX.reverse ancsY.reverse
    let eqnsX ← pathTo d.rawParents common fuel xid
    let eqnsY ← pathTo d.rawParents common fuel yid
    return eqnsX ++ eqnsY

end Model

section Specification

/-- Pairs that were asserted, in one of the two orientations, and connect the ids. -/
structure Explains (us : List (ℕ × ℕ)) (x y : ℕ) (eqns : List (ℤ × ℤ)) : Prop where
  asserted : ∀ e ∈ eqns, ∃ u ∈ us, e = ((u.1 : ℤ), (u.2 : ℤ)) ∨ e = ((u.2 : ℤ), (u.1 : ℤ))
  connects : Relation.EqvGen (fun i j => (i, j) ∈ eqns) (x : ℤ) (y : ℤ)

/-- All accesses are in range, and every two connected ids have their explanation. -/
def Correct (ops : List Op) : Prop := ∃ f, run ops = some f ∧
  ∀ x < created ops, ∀ y < created ops, Connected (unions ops) x y →
    ∃ eqns, explain f x y = some eqns ∧ Explains (unions ops) x y eqns

end Specification

section Sequences

variable {d : DjSet} {ops : List Op} {x : ℕ}

theorem explain_zero (hx : x ≠ 0) {eqns : List (ℤ × ℤ)} (h : explain d 0 x = some eqns) :
    eqns = [] := by
  rw [explain] at h
  cases hrx : d.rep 0 with
  | none =>
    rw [hrx] at h
    cases h
  | some rx =>
    cases hry : rx.2.rep x with
    | none =>
      simp only [hrx, hry, bind_eq_bind, bind_some, bind_none] at h
      cases h
    | some ry =>
      simp only [hrx, hry, bind_eq_bind, bind_some, if_neg (Ne.symm hx)] at h
      split at h
      · cases h
        rfl
      · have hancestors : ancestors ry.2.rawParents (ry.2.rawParents.length + 1) ((0 : ℕ) : ℤ) =
          some [] := rfl
        rw [hancestors, bind_some] at h
        cases hancs : ancestors ry.2.rawParents (ry.2.rawParents.length + 1) x with
        | none | some ancs =>
          rw [hancs] at h
          cases h

theorem eq_of_eqvGen_nil
    (h : Relation.EqvGen (fun i j => (i, j) ∈ ([] : List (ℤ × ℤ))) i j) : i = j := by
  induction h with
  | rel _ _ hmem => cases hmem
  | refl _ => rfl
  | symm _ _ _ ih => exact ih.symm
  | trans _ _ _ _ _ ih ih' => exact ih.trans ih'

/-- Accesses are in range and explanations are right exactly if no two different ids were united. -/
theorem correct_iff_self (ops : List Op) (hvalid : Valid ops) :
    Correct ops ↔ ∀ u ∈ unions ops, u.1 = u.2 := by
  have hcases := run_cases hvalid
  constructor
  · rintro ⟨d, hd, hexplain⟩ u hu
    rcases hcases with ⟨d', z, hd', h, hus⟩ | ⟨hnone, -⟩
    · by_contra hne
      -- the first id was united with another one, and nothing explains it
      have hz : z ≠ 0 := by
        rintro rfl
        rcases hus.only u hu hne with rfl | rfl <;> exact hne rfl
      have hconnected : Connected (unions ops) 0 z := .symm _ _ (.rel _ _ (hus.mem hz))
      have hwithin : z < created ops := h.within.resolve_left hz
      obtain ⟨eqns, heqns, hexplains⟩ :=
        hexplain 0 (Nat.zero_lt_of_lt hwithin) z hwithin hconnected
      cases explain_zero hz heqns
      have hzero : ((0 : ℕ) : ℤ) = (z : ℤ) := eq_of_eqvGen_nil hexplains.connects
      omega
    · rw [hnone] at hd
      cases hd
  · intro hself
    have honly : OnlyIntoZero (unions ops) := by
      intro u hu
      obtain ⟨hmem, hne⟩ := mem_filter.mp (mem_of_head? hu)
      exact absurd (hself u hmem) (of_decide_eq_true hne)
    obtain ⟨d, z, hd, h, hus⟩ := hcases.resolve_right fun hnone => hnone.2 honly
    have hz : z = 0 := by
      by_contra hz
      exact hz (hself _ (hus.mem hz))
    subst hz
    refine ⟨d, hd, fun x hx y hy hconnected => ?_⟩
    have hxy : x = y := by
      have hroot := hus.connected_iff.mp hconnected
      simp only [root] at hroot
      split_ifs at hroot <;> omega
    subst hxy
    refine ⟨[], ?_, by simp, .refl _⟩
    rw [explain, h.rep hx]
    simp only [bind_eq_bind, bind_some, h.rep hx, ne_eq, not_true_eq_false, if_false, if_true]
    rfl

end Sequences

/-- Uniting an id with itself is harmless. -/
theorem self_union_explained : Valid (TwoIds.ops 1 1) ∧ Correct (TwoIds.ops 1 1) := by
  have hvalid : Valid (TwoIds.ops 1 1) := TwoIds.valid (by decide) (by decide)
  exact ⟨hvalid, (correct_iff_self _ hvalid).mpr (by decide)⟩

/-- The first union writes at -1; if it does not, the explanation reads out of range. -/
theorem first_union_out_of_range :
    (Valid (TwoIds.ops 0 1) ∧ run (TwoIds.ops 0 1) = none ∧ ¬Correct (TwoIds.ops 0 1)) ∧
    (Valid (TwoIds.ops 1 0) ∧ (run (TwoIds.ops 1 0)).map (fun f => (explain f 0 1, explain f 1 0)) =
      some (none, none)) := by
  have hnone : run (TwoIds.ops 0 1) = none := by
    refine (run_cases (TwoIds.valid (by decide) (by decide))).elim ?_ And.left
    rintro ⟨d, z, -, -, hus⟩
    exact absurd (hus.onlyIntoZero (0, 1) rfl).1 (by decide)
  refine ⟨⟨TwoIds.valid (by decide) (by decide), hnone, ?_⟩, TwoIds.valid (by decide) (by decide),
    by decide +kernel⟩
  rintro ⟨f, hf, -⟩
  rw [hnone] at hf
  cases hf

end DjSetExplain
