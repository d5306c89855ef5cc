import Mathlib.Data.Fin.Basic
import Mathlib.Data.List.FinRange
import Mathlib.Algebra.Group.Nat.Defs

/-!
# Shifts of header stacks

Header stacks become a struct of a 16-bit index and the elements. The built-in shifts turn
into single copies and invalidations in place, followed by an update of the index.
-/
namespace StackShifts

open List Function

structure Header (α : Type) where
  valid : Bool
  fields : α

def Header.setInvalid (h : Header α) : Header α := { h with valid := false }

structure Stack (α : Type) (s : ℕ) where
  nxt : BitVec 16
  elements : Fin s → Header α

inductive Expr where
  | nxt
  | constant (n : ℕ)
  | add (l r : Expr)
  | sub (l r : Expr)

-- Constants take the width of the index.
def Expr.eval (nxt : BitVec 16) : Expr → BitVec 16
  | .nxt => nxt
  | .constant n => BitVec.ofNat 16 n
  | .add l r => l.eval nxt + r.eval nxt
  | .sub l r => l.eval nxt - r.eval nxt

inductive Guard where
  | grt (l r : Expr)
  | lss (l r : Expr)

def Guard.holds (nxt : BitVec 16) : Guard → Bool
  | .grt l r => (r.eval nxt).ult (l.eval nxt)
  | .lss l r => (l.eval nxt).ult (r.eval nxt)

inductive Statement (s : ℕ) where
  | assign (i j : Fin s)
  | setInvalid (i : Fin s)
  | ifNxt (guard : Guard) (ifGuard elseGuard : Expr)

def exec (S : Stack α s) : Statement s → Stack α s
  | .assign i j => { S with elements := update S.elements i (S.elements j) }
  | .setInvalid i => { S with elements := update S.elements i (S.elements i).setInvalid }
  | .ifNxt guard ifGuard elseGuard =>
    { S with nxt := (if guard.holds S.nxt then ifGuard else elseGuard).eval S.nxt }

def run (S : Stack α s) (body : List (Statement s)) : Stack α s := body.foldl exec S

def shift (source : Fin s → Option (Fin s)) (i : Fin s) : Statement s :=
  match source i with
  | some j => .assign i j
  | none => .setInvalid i

def pushSource (c : ℕ) (i : Fin s) : Option (Fin s) :=
  if c ≤ i then some ⟨i - c, by omega⟩ else none

def popSource (c : ℕ) (i : Fin s) : Option (Fin s) :=
  if h : i + c < s then some ⟨i + c, h⟩ else none

def pushFront (s c : ℕ) : List (Statement s) :=
  let incdNxt := .add (.constant c) .nxt
  (finRange s).reverse.map (shift (pushSource c)) ++
    [.ifNxt (.grt incdNxt (.constant s)) (.constant s) incdNxt]

def popFront (s c : ℕ) : List (Statement s) :=
  (finRange s).map (shift (popSource c)) ++
    [.ifNxt (.lss .nxt (.constant c)) (.constant 0) (.sub .nxt (.constant c))]

/-- What position `i` receives from the contents before the shift. -/
def moved (source : Fin s → Option (Fin s)) (elements : Fin s → Header α) (i : Fin s) : Header α :=
  match source i with
  | some j => elements j
  | none => (elements i).setInvalid

theorem exec_shift (source : Fin s → Option (Fin s)) (S : Stack α s) (i : Fin s) :
    exec S (shift source i) = ⟨S.nxt, update S.elements i (moved source S.elements i)⟩ := by
  rw [shift, moved]
  cases source i <;> rfl

theorem moved_update {source : Fin s → Option (Fin s)} (hne : k ≠ i) (hsource : source k ≠ some i)
    (elements : Fin s → Header α) (v : Header α) :
    moved source (update elements i v) k = moved source elements k := by
  rw [moved, moved]
  cases hj : source k with
  | none => simp only [update_of_ne hne]
  | some j =>
    have hji : j ≠ i := fun heq => hsource (by rw [hj, heq])
    simp only [update_of_ne hji]

-- A position that was written is neither read nor written again.
theorem run_shift {source : Fin s → Option (Fin s)} {order : List (Fin s)}
    (h : order.Pairwise fun i j => j ≠ i ∧ source j ≠ some i) (S : Stack α s) :
    run S (order.map (shift source)) =
      ⟨S.nxt, fun k => if k ∈ order then moved source S.elements k else S.elements k⟩ := by
  induction order generalizing S with
  | nil => simp [run]
  | cons i order ih =>
    obtain ⟨hi, hrest⟩ := pairwise_cons.mp h
    change run (exec S (shift source i)) (order.map (shift source)) = _
    rw [exec_shift, ih hrest]
    congr 1
    funext k
    by_cases hk : k ∈ order
    · obtain ⟨hne, hsource⟩ := hi k hk
      simp only [if_pos hk, if_pos (mem_cons_of_mem i hk), moved_update hne hsource]
    · by_cases heq : k = i
      · subst heq
        simp [hk]
      · simp [hk, heq]

theorem run_front {source : Fin s → Option (Fin s)} {order : List (Fin s)} (hall : ∀ i, i ∈ order)
    (h : order.Pairwise fun i j => j ≠ i ∧ source j ≠ some i) (last : Statement s) (S : Stack α s) :
    run S (order.map (shift source) ++ [last]) = exec ⟨S.nxt, moved source S.elements⟩ last := by
  rw [run, foldl_append]
  change exec (run S _) last = _
  rw [run_shift h]
  simp [hall]

theorem push_order (s c : ℕ) :
    (finRange s).reverse.Pairwise fun i j => j ≠ i ∧ pushSource c j ≠ some i := by
  rw [pairwise_reverse]
  refine (pairwise_lt_finRange s).imp fun {i j} hlt => ⟨hlt.ne, fun h => ?_⟩
  rw [pushSource] at h
  split_ifs at h
  cases h
  have : (i - c : ℕ) > i := hlt
  omega

theorem pop_order (s c : ℕ) : (finRange s).Pairwise fun i j => j ≠ i ∧ popSource c j ≠ some i := by
  refine (pairwise_lt_finRange s).imp fun {i j} hlt => ⟨hlt.ne', fun h => ?_⟩
  rw [popSource] at h
  split_ifs at h
  cases h
  have : (j + c : ℕ) < j := hlt
  omega

theorem run_pushFront (hc : c + s < 2 ^ 16) (S : Stack α s) (hn : S.nxt.toNat ≤ s) :
    ∃ nxt, run S (pushFront s c) = ⟨nxt, moved (pushSource c) S.elements⟩ ∧
      nxt.toNat = min (S.nxt.toNat + c) s := by
  have hs : (BitVec.ofNat 16 s).toNat = s := Nat.mod_eq_of_lt (by omega)
  have hsum : (BitVec.ofNat 16 c + S.nxt).toNat = c + S.nxt.toNat := by
    rw [BitVec.toNat_add, BitVec.toNat_ofNat]
    omega
  rw [pushFront, run_front (by simp) (push_order s c)]
  refine ⟨_, rfl, ?_⟩
  simp only [Guard.holds, Expr.eval, BitVec.ult, hs, hsum, decide_eq_true_eq]
  split_ifs <;> simp only [Expr.eval, hs, hsum] <;> omega

theorem run_popFront (hc : c + s < 2 ^ 16) (S : Stack α s) :
    ∃ nxt, run S (popFront s c) = ⟨nxt, moved (popSource c) S.elements⟩ ∧
      nxt.toNat = S.nxt.toNat - c := by
  have hcnt : (BitVec.ofNat 16 c).toNat = c := Nat.mod_eq_of_lt (by omega)
  rw [popFront, run_front (by simp) (pop_order s c)]
  refine ⟨_, rfl, ?_⟩
  simp only [Guard.holds, Expr.eval, BitVec.ult, hcnt, decide_eq_true_eq]
  split_ifs with hlt
  · exact (Nat.sub_eq_zero_of_le hlt.le).symm
  · rw [Expr.eval, BitVec.toNat_sub_of_le (by simp only [Expr.eval, BitVec.le_def, hcnt]; omega)]
    simp only [Expr.eval, hcnt]

/-- The generated statements shift as the language defines it, also by more than the size. -/
theorem shifts_correct {s c : ℕ} (hc : c + s < 2 ^ 16) (S : Stack α s) (hn : S.nxt.toNat ≤ s) :
    (let pushed := run S (pushFront s c)
     (∀ i (_ : c ≤ i.val), pushed.elements i = S.elements ⟨i - c, by omega⟩) ∧
     (∀ i, i.val < c → (pushed.elements i).valid = false) ∧
     pushed.nxt.toNat = min (S.nxt.toNat + c) s) ∧
    let popped := run S (popFront s c)
    (∀ i (h : i.val + c < s), popped.elements i = S.elements ⟨i + c, h⟩) ∧
    (∀ i, s ≤ i.val + c → (popped.elements i).valid = false) ∧
    popped.nxt.toNat = S.nxt.toNat - c := by
  constructor
  · obtain ⟨nxt, hrun, hnxt⟩ := run_pushFront hc S hn
    rw [hrun]
    refine ⟨fun i h => ?_, fun i h => ?_, hnxt⟩
    · simp [moved, pushSource, h]
    · simp [moved, pushSource, Nat.not_le.mpr h, Header.setInvalid]
  · obtain ⟨nxt, hrun, hnxt⟩ := run_popFront hc S
    rw [hrun]
    refine ⟨fun i h => ?_, fun i h => ?_, hnxt⟩
    · simp [moved, popSource, h]
    · simp [moved, popSource, Nat.not_lt.mpr h, Header.setInvalid]

theorem shifts_correct_pair :
    let S : Stack ℕ 2 := ⟨1, fun i => ⟨true, i⟩⟩
    S.nxt.toNat ≤ 2 ∧ (run S (pushFront 2 1)).elements 1 = ⟨true, 0⟩ ∧
      (run S (popFront 2 1)).nxt.toNat = 0 :=
  ⟨by decide, (shifts_correct (c := 1) (by decide) _ (by decide)).1.1 1 (by decide),
    (shifts_correct (c := 1) (by decide) _ (by decide)).2.2.2⟩

end StackShifts
