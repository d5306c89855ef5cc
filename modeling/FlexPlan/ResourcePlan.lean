import Mathlib.Data.BitVec
import Mathlib.Algebra.Order.BigOperators.Group.List
import Mathlib.Tactic.Ring

/-!
# Resources along a sequence of replacements

A component occupies `old` before its replacement and `new` after it, and both while the step runs.
The fixed-width test of a step is exact as long as the room has not become negative.
-/
namespace ResourcePlan

open List

variable {κ : Type} (entries : List (κ × ℕ × ℕ)) (room : ℕ)

def newSum (b : κ → Bool) : ℕ := (entries.map fun e => if b e.1 then e.2.2 else 0).sum

def oldSum (b : κ → Bool) : ℕ := (entries.map fun e => if b e.1 then e.2.1 else 0).sum

def demand (b b' : κ → Bool) : ℕ :=
  (entries.map fun e => if b e.1 = b' e.1 then 0 else e.2.2).sum

def freeRoom (b : κ → Bool) : ℤ :=
  room + (entries.map fun e => if b e.1 then (e.2.1 : ℤ) - e.2.2 else 0).sum

/-- The step from `b` to `b'` fits. -/
def Fits (b b' : κ → Bool) : Prop := demand entries b b' ≤ freeRoom entries room b

def Grows (b b' : κ → Bool) : Prop := ∀ e ∈ entries, b e.1 = true → b' e.1 = true

instance (b b' : κ → Bool) : Decidable (Fits entries room b b') :=
  inferInstanceAs (Decidable ((demand entries b b' : ℤ) ≤ freeRoom entries room b))

instance (b b' : κ → Bool) : Decidable (Grows entries b b') :=
  inferInstanceAs (Decidable (∀ e ∈ entries, b e.1 = true → b' e.1 = true))

def changes (b : κ → Bool) : ℕ := entries.countP fun e => b e.1

def totalOld : ℕ := (entries.map fun e => e.2.1).sum

def totalNew : ℕ := (entries.map fun e => e.2.2).sum

variable {entries room} {b b' : κ → Bool}

theorem freeRoom_eq : freeRoom entries room b = room + oldSum entries b - newSum entries b := by
  unfold freeRoom oldSum newSum
  induction entries with
  | nil => simp
  | cons e es ih =>
    by_cases h : b e.1 = true
    · simp only [map_cons, sum_cons, if_pos h]
      omega
    · simp only [map_cons, sum_cons, if_neg h]
      omega

theorem newSum_le (entries : List (κ × ℕ × ℕ)) (b : κ → Bool) :
    newSum entries b ≤ totalNew entries := by
  apply sum_le_sum
  intro e _
  split_ifs <;> omega

theorem oldSum_le (entries : List (κ × ℕ × ℕ)) (b : κ → Bool) :
    oldSum entries b ≤ totalOld entries := by
  apply sum_le_sum
  intro e _
  split_ifs <;> omega

theorem newSum_grows (h : Grows entries b b') :
    newSum entries b' = newSum entries b + demand entries b b' := by
  unfold newSum demand
  induction entries with
  | nil => rfl
  | cons e es ih =>
    have hes := ih fun d hd => h d (mem_cons_of_mem _ hd)
    have he := h e mem_cons_self
    simp only [map_cons, sum_cons]
    rw [hes]
    cases hb : b e.1 with
    | true =>
      rw [if_pos rfl, he hb, if_pos rfl, if_pos rfl]
      omega
    | false =>
      cases hb' : b' e.1 with
      | true =>
        rw [if_pos rfl, if_neg (by decide), if_neg (by decide)]
        omega
      | false =>
        rw [if_neg (by decide), if_pos rfl]
        omega

theorem oldSum_grows (h : Grows entries b b') : oldSum entries b ≤ oldSum entries b' := by
  apply sum_le_sum
  intro e he
  by_cases hb : b e.1 = true
  · rw [if_pos hb, if_pos (h e he hb)]
  · rw [if_neg hb]
    exact Nat.zero_le _

theorem changes_cons (e : κ × ℕ × ℕ) (es : List (κ × ℕ × ℕ)) :
    changes (e :: es) b = changes es b + if b e.1 then 1 else 0 := countP_cons

theorem changes_grows (h : Grows entries b b') : changes entries b ≤ changes entries b' :=
  countP_mono_left h

theorem changes_larger (h : Grows entries b b')
    (hnew : ∃ e ∈ entries, b e.1 = false ∧ b' e.1 = true) :
    changes entries b < changes entries b' := by
  obtain ⟨e, he, hold, hnew⟩ := hnew
  obtain ⟨before, after, rfl⟩ := append_of_mem he
  have hbefore : changes before b ≤ changes before b' :=
    changes_grows fun d hd => h d (mem_append_left _ hd)
  have hafter : changes after b ≤ changes after b' :=
    changes_grows fun d hd => h d (mem_append_right _ (mem_cons_of_mem _ hd))
  have happend : ∀ c : κ → Bool, changes (before ++ e :: after) c =
      changes before c + (changes after c + if c e.1 then 1 else 0) := by
    intro c
    rw [← changes_cons]
    exact countP_append
  rw [happend, happend, hold, hnew, if_pos rfl, if_neg Bool.false_ne_true]
  omega

theorem changes_eq_length : changes entries b = entries.length ↔ ∀ e ∈ entries, b e.1 = true :=
  countP_eq_length

theorem Fits.freeRoom_nonneg (h : Fits entries room b b') (hg : Grows entries b b') :
    0 ≤ freeRoom entries room b' := by
  have hnew := newSum_grows hg
  have hold := oldSum_grows hg
  unfold Fits at h
  rw [freeRoom_eq] at h ⊢
  omega

theorem fits_iff_bits (hw : room + totalOld entries + totalNew entries < 2 ^ w)
    (hg : Grows entries b b') (hroom : 0 ≤ freeRoom entries room b) (base : BitVec w) :
    (base + BitVec.ofNat w (newSum entries b')) - (base + BitVec.ofNat w (newSum entries b)) ≤
        BitVec.ofNat w room + BitVec.ofNat w (oldSum entries b) -
          BitVec.ofNat w (newSum entries b) ↔
      Fits entries room b b' := by
  have hnew := newSum_grows hg
  have hle := newSum_le entries b'
  have hold := oldSum_le entries b
  have hdemand : (base + BitVec.ofNat w (newSum entries b')) -
      (base + BitVec.ofNat w (newSum entries b)) = BitVec.ofNat w (demand entries b b') := by
    rw [hnew, BitVec.ofNat_add]
    ring
  have hfree : BitVec.ofNat w room + BitVec.ofNat w (oldSum entries b) -
      BitVec.ofNat w (newSum entries b) =
        BitVec.ofNat w (room + oldSum entries b - newSum entries b) := by
    rw [freeRoom_eq] at hroom
    rw [sub_eq_iff_eq_add, ← BitVec.ofNat_add, ← BitVec.ofNat_add]
    congr 1
    omega
  unfold Fits
  rw [freeRoom_eq] at hroom ⊢
  rw [hdemand, hfree, BitVec.le_def, BitVec.toNat_ofNat, BitVec.toNat_ofNat,
    Nat.mod_eq_of_lt (by omega), Nat.mod_eq_of_lt (by omega)]
  omega

end ResourcePlan
