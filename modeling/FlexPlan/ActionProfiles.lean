import Mathlib.Data.List.Sort

/-!
# Members of action profiles

A table entry can name a member of an action profile by its id. The additions to a profile are
sorted by their ids, and `get_actions` takes the id for a position in the sorted vector.
-/
namespace ActionProfiles

open List

variable {α : Type}

structure ActionProfileAdd (α : Type) where
  actProfile : String
  mem : ℕ
  action : α
  deriving DecidableEq

/-- The action of an entry, or the member that holds it. -/
inductive Reference (α : Type) where
  | actionCall (action : α)
  | member (member : ℕ)

/-- A pointer to an action: the one of the entry, or the one of an addition. -/
inductive Pointer (α : Type) where
  | entry (action : α)
  | addition (add : ActionProfileAdd α)
  deriving DecidableEq

section Model

variable (adds : List (ActionProfileAdd α))

def profileMembers (profile : String) : List (ActionProfileAdd α) :=
  (adds.filter fun e => e.actProfile = profile).insertionSort fun l r => l.mem ≤ r.mem

/-- The profile that the `implementation` property of a table names. -/
def implementation (property : Option String) : String := property.getD ""

/-- `none` is an access outside the vector. The test of the name is one of its pointer, so a
table without the property looks the member up in the profile with the empty name. -/
def getActions (property : Option String) : Reference α → Option (List (Pointer α))
  | .actionCall a => some [.entry a]
  | .member m => (profileMembers adds (implementation property))[m]?.map fun ent => [.addition ent]

end Model

section Positions

theorem le_of_getElem? {ns : List ℕ} (hns : ns.Pairwise (· < ·)) {b i x : ℕ} (hb : ∀ n ∈ ns, b ≤ n)
    (hx : ns[i]? = some x) : b + i ≤ x := by
  induction ns generalizing b i with
  | nil => cases hx
  | cons n ns ih =>
    obtain ⟨hn, hb⟩ := forall_mem_cons.mp hb
    obtain ⟨hless, hns⟩ := pairwise_cons.mp hns
    cases i with
    | zero =>
      cases hx
      exact hn
    | succ i =>
      have hrest := ih hns (fun k hk => (Nat.succ_le_of_lt (lt_of_le_of_lt hn (hless k hk)))) hx
      omega

/-- In a sorted list without repetitions a number stands at its own position if and only if no
smaller one is missing. -/
theorem getElem?_eq_iff {ns : List ℕ} (hns : ns.Pairwise (· < ·)) {b m : ℕ} (hb : ∀ n ∈ ns, b ≤ n)
    (hm : m ∈ ns) :
    ns[m - b]? = some m ↔ ∀ k, b ≤ k → k < m → k ∈ ns := by
  induction ns generalizing b with
  | nil => cases hm
  | cons n ns ih =>
    have hle := hb m hm
    obtain ⟨hn, hrest⟩ := forall_mem_cons.mp hb
    obtain ⟨hless, hsorted⟩ := pairwise_cons.mp hns
    by_cases hfirst : n = b
    · subst hfirst
      rcases mem_cons.mp hm with rfl | hm
      · refine iff_of_true (by simp) fun k hk hkm => ?_
        omega
      · have hnext : m - n = (m - (n + 1)) + 1 := by
          have := hless m hm
          omega
        rw [hnext, getElem?_cons_succ, ih hsorted (fun k hk => hless k hk) hm]
        constructor
        · intro h k hk hkm
          by_cases hkn : k = n
          · exact hkn ▸ mem_cons_self
          · exact mem_cons_of_mem _ (h k (by omega) hkm)
        · intro h k hk hkm
          exact (mem_cons.mp (h k (by omega) hkm)).resolve_left (by omega)
    · have hgap : ∀ k ∈ n :: ns, b + 1 ≤ k := by
        refine forall_mem_cons.mpr ⟨by omega, fun k hk => ?_⟩
        have := hless k hk
        omega
      refine iff_of_false (fun h => ?_) fun h => ?_
      · have := le_of_getElem? hns hgap h
        omega
      · have := hgap b (h b le_rfl (hgap m hm))
        omega

end Positions

variable {adds : List (ActionProfileAdd α)} {profile : String}

theorem sorted_profileMembers
    (hdistinct : ((adds.filter fun e => e.actProfile = profile).map ActionProfileAdd.mem).Nodup) :
    ((profileMembers adds profile).map ActionProfileAdd.mem).Pairwise (· < ·) := by
  have hsorted : ((profileMembers adds profile).map ActionProfileAdd.mem).Pairwise (· ≤ ·) := by
    refine pairwise_map.mpr ?_
    have : Std.Total fun l r : ActionProfileAdd α => l.mem ≤ r.mem :=
      ⟨fun l r => Nat.le_total l.mem r.mem⟩
    have : IsTrans (ActionProfileAdd α) fun l r => l.mem ≤ r.mem := ⟨fun _ _ _ => le_trans⟩
    exact pairwise_insertionSort _ _
  have hnodup : ((profileMembers adds profile).map ActionProfileAdd.mem).Nodup :=
    ((perm_insertionSort _ _).map _).nodup_iff.mpr hdistinct
  exact hsorted.and hnodup |>.imp fun h => lt_of_le_of_ne h.1 h.2

/-- A member is found by its id exactly if all smaller ids were added, too. -/
theorem member_found_iff
    (hdistinct : ((adds.filter fun e => e.actProfile = profile).map ActionProfileAdd.mem).Nodup)
    {e : ActionProfileAdd α} (he : e ∈ adds) (hprofile : e.actProfile = profile) :
    getActions adds (some profile) (.member e.mem) = some [.addition e] ↔
      ∀ k < e.mem, ∃ e' ∈ adds, e'.actProfile = profile ∧ e'.mem = k := by
  have hmem : ∀ e', e' ∈ profileMembers adds profile ↔ e' ∈ adds ∧ e'.actProfile = profile := by
    intro e'
    rw [profileMembers, mem_insertionSort, mem_filter, decide_eq_true_iff]
  have hsorted := sorted_profileMembers hdistinct
  have hposition : getActions adds (some profile) (.member e.mem) = some [.addition e] ↔
      ((profileMembers adds profile).map ActionProfileAdd.mem)[e.mem]? = some e.mem := by
    rw [getActions, implementation, Option.getD_some, getElem?_map]
    constructor
    · intro h
      obtain ⟨ent, hent, heq⟩ := Option.map_eq_some_iff.mp h
      cases heq
      rw [hent, Option.map_some]
    · intro h
      obtain ⟨ent, hent, heq⟩ := Option.map_eq_some_iff.mp h
      have hsame : ent = e :=
        inj_on_of_nodup_map (hsorted.imp Nat.ne_of_lt) (mem_of_getElem? hent)
          ((hmem e).mpr ⟨he, hprofile⟩) heq
      rw [hent, hsame, Option.map_some]
  rw [hposition]
  have hown := mem_map_of_mem (f := ActionProfileAdd.mem) ((hmem e).mpr ⟨he, hprofile⟩)
  refine (getElem?_eq_iff hsorted (b := 0) (fun _ _ => Nat.zero_le _) hown).trans ?_
  simp only [Nat.zero_le, true_implies, mem_map, hmem, and_assoc]

theorem second_member_found :
    getActions [⟨"p", 1, 'b'⟩, ⟨"p", 0, 'a'⟩] (some "p") (.member 1) =
      some [.addition ⟨"p", 1, 'b'⟩] :=
  (member_found_iff (e := ⟨"p", 1, 'b'⟩) (by decide) (by decide) rfl).mpr fun k hk =>
    ⟨⟨"p", 0, 'a'⟩, by decide, rfl, (Nat.lt_one_iff.mp hk).symm⟩

/-- With the ids 1 and 2 the first member leads to the second one, which itself is not found. -/
theorem ids_are_positions :
    getActions [⟨"p", 1, 'a'⟩, ⟨"p", 2, 'b'⟩] (some "p") (.member 1) =
      some [.addition ⟨"p", 2, 'b'⟩] ∧
      getActions [⟨"p", 1, 'a'⟩, ⟨"p", 2, 'b'⟩] (some "p") (.member 2) = none := by
  decide

end ActionProfiles
