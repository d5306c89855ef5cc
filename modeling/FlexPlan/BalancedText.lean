import Mathlib.Algebra.Order.Group.Int
import Mathlib.Data.List.Count
import Mathlib.Data.List.Infix

/-!
# Balanced sequences

Two letters open and close. A sequence that starts at some depth stays above ground if none of its
prefixes closes more than is open.
-/
namespace BalancedText

open List

variable {α : Type*} [DecidableEq α] (o c : α)

def depth (l : List α) : ℤ := l.count o - l.count c

def Above (d : ℤ) (l : List α) : Prop := ∀ p, p <+: l → 0 ≤ d + depth o c p

structure Balanced (l : List α) : Prop where
  settled : depth o c l = 0
  above : Above o c 0 l

variable {o c} {d e : ℤ} {l m : List α}

@[simp] theorem depth_nil : depth o c [] = 0 := rfl

@[simp] theorem depth_append (l m : List α) : depth o c (l ++ m) = depth o c l + depth o c m := by
  simp only [depth, count_append]
  omega

theorem depth_of_notMem (ho : o ∉ l) (hc : c ∉ l) : depth o c l = 0 := by
  rw [depth, count_eq_zero.mpr ho, count_eq_zero.mpr hc]
  rfl

theorem depth_nonneg_of_notMem (hc : c ∉ l) : 0 ≤ depth o c l := by
  rw [depth, count_eq_zero.mpr hc]
  omega

theorem depth_nonpos_of_notMem (ho : o ∉ l) : depth o c l ≤ 0 := by
  rw [depth, count_eq_zero.mpr ho]
  omega

theorem above_iff_take :
    Above o c d l ↔ ∀ k ∈ List.range (l.length + 1), 0 ≤ d + depth o c (l.take k) := by
  constructor
  · intro h k _
    exact h _ (List.take_prefix k l)
  · intro h p hp
    have hk := h p.length (mem_range.mpr (Nat.lt_succ_of_le hp.length_le))
    rwa [← prefix_iff_eq_take.mp hp] at hk

instance : Decidable (Above o c d l) := decidable_of_iff _ above_iff_take.symm

instance : Decidable (Balanced o c l) :=
  decidable_of_iff (depth o c l = 0 ∧ Above o c 0 l)
    ⟨fun h => ⟨h.1, h.2⟩, fun h => ⟨h.settled, h.above⟩⟩

theorem Above.start (h : Above o c d l) : 0 ≤ d := by
  have hnil := h [] nil_prefix
  rwa [depth_nil, add_zero] at hnil

theorem Above.finish (h : Above o c d l) : 0 ≤ d + depth o c l := h l prefix_rfl

theorem Above.mono (h : Above o c d l) (hde : d ≤ e) : Above o c e l := by
  intro p hp
  have hd := h p hp
  omega

theorem above_nil : Above o c d [] ↔ 0 ≤ d := by
  constructor
  · exact Above.start
  · intro h p hp
    rw [prefix_nil.mp hp, depth_nil, add_zero]
    exact h

theorem above_append : Above o c d (l ++ m) ↔ Above o c d l ∧ Above o c (d + depth o c l) m := by
  constructor
  · intro h
    refine ⟨fun p hp => h p (hp.trans (prefix_append l m)), fun p hp => ?_⟩
    have hlp := h (l ++ p) ((prefix_append_right_inj l).mpr hp)
    rw [depth_append] at hlp
    omega
  · rintro ⟨hl, hm⟩ p hp
    rcases prefix_or_prefix_of_prefix hp (prefix_append l m) with h | ⟨q, rfl⟩
    · exact hl p h
    · have hq := hm q ((prefix_append_right_inj l).mp hp)
      rw [depth_append]
      omega

theorem above_of_notMem_close (hc : c ∉ l) (hd : 0 ≤ d) : Above o c d l := by
  intro p hp
  have hp : 0 ≤ depth o c p := depth_nonneg_of_notMem fun h => hc (hp.subset h)
  omega

theorem above_of_notMem_open (ho : o ∉ l) (hend : 0 ≤ d + depth o c l) : Above o c d l := by
  rintro p ⟨q, rfl⟩
  have hq : depth o c q ≤ 0 := depth_nonpos_of_notMem fun h => ho (mem_append_right p h)
  rw [depth_append] at hend
  omega

theorem Balanced.above_from (h : Balanced o c l) (hd : 0 ≤ d) : Above o c d l := h.above.mono hd

theorem Balanced.append (hl : Balanced o c l) (hm : Balanced o c m) : Balanced o c (l ++ m) := by
  refine ⟨?_, above_append.mpr ⟨hl.above, ?_⟩⟩
  · rw [depth_append, hl.settled, hm.settled, add_zero]
  · rw [hl.settled]
    exact hm.above

theorem balanced_of_notMem (ho : o ∉ l) (hc : c ∉ l) : Balanced o c l :=
  ⟨depth_of_notMem ho hc, above_of_notMem_close hc le_rfl⟩

theorem Balanced.wrap {pre post : List α} (h : Balanced o c l) (hpre : c ∉ pre) (hpost : o ∉ post)
    (hdepth : depth o c pre + depth o c post = 0) : Balanced o c (pre ++ l ++ post) := by
  have hopen : 0 ≤ depth o c pre := depth_nonneg_of_notMem hpre
  have hsettled := h.settled
  refine ⟨by rw [depth_append, depth_append]; omega, ?_⟩
  refine above_append.mpr ⟨above_append.mpr ⟨above_of_notMem_close hpre le_rfl, ?_⟩, ?_⟩
  · exact h.above_from (by omega)
  · refine above_of_notMem_open hpost ?_
    rw [depth_append]
    omega

end BalancedText
