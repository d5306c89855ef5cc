import Mathlib.Data.BitVec
import Mathlib.Logic.Function.Basic

/-!
# Guarded commands over fixed-width variables

A loop-free command language. Every variable has a width, so a store cannot hold a value out of
range. Commands change nothing but the variables they write.
-/
namespace GuardedCommands

variable {Var Atom : Type}

abbrev Store (width : Var → ℕ) := (v : Var) → BitVec (width v)

inductive Expr (width : Var → ℕ) : ℕ → Type where
  | var (v : Var) : Expr width (width v)
  | lit {w : ℕ} (n : ℕ) : Expr width w
  | add {w : ℕ} (a b : Expr width w) : Expr width w
  | sub {w : ℕ} (a b : Expr width w) : Expr width w

/-- Conditions; an atom stands for a test that is not interpreted here. -/
inductive Cond (width : Var → ℕ) (Atom : Type) where
  | atom (a : Atom)
  | le {w : ℕ} (a b : Expr width w)
  | lt {w : ℕ} (a b : Expr width w)
  | eq {w : ℕ} (a b : Expr width w)
  | and (c d : Cond width Atom)
  | or (c d : Cond width Atom)
  | tt
  | ff

inductive Cmd (width : Var → ℕ) (Atom : Type) where
  | skip
  | set (v : Var) (e : Expr width (width v))
  | havoc (v : Var)
  | seq (c d : Cmd width Atom)
  | ifThen (c : Cond width Atom) (body : Cmd width Atom)

variable {width : Var → ℕ}

def Expr.eval (σ : Store width) : {w : ℕ} → Expr width w → BitVec w
  | _, .var v => σ v
  | _, .lit n => BitVec.ofNat _ n
  | _, .add a b => a.eval σ + b.eval σ
  | _, .sub a b => a.eval σ - b.eval σ

def Expr.Reads (v : Var) : {w : ℕ} → Expr width w → Prop
  | _, .var u => v = u
  | _, .lit _ => False
  | _, .add a b => a.Reads v ∨ b.Reads v
  | _, .sub a b => a.Reads v ∨ b.Reads v

theorem Expr.eval_congr (e : Expr width w) (h : ∀ v, e.Reads v → σ v = τ v) :
    e.eval σ = e.eval τ := by
  induction e with
  | var v => exact h v rfl
  | lit n => rfl
  | add a b iha ihb | sub a b iha ihb =>
    simp only [Expr.eval]
    rw [iha fun v hv => h v (Or.inl hv), ihb fun v hv => h v (Or.inr hv)]

def Cond.all : List (Cond width Atom) → Cond width Atom
  | [] => .tt
  | c :: cs => .and c (Cond.all cs)

def Cond.any : List (Cond width Atom) → Cond width Atom
  | [] => .ff
  | c :: cs => .or c (Cond.any cs)

def Cmd.block : List (Cmd width Atom) → Cmd width Atom
  | [] => .skip
  | c :: cs => .seq c (Cmd.block cs)

section Semantics

variable (holds : Atom → Bool)

def Cond.eval (σ : Store width) : Cond width Atom → Bool
  | .atom a => holds a
  | .le a b => a.eval σ ≤ b.eval σ
  | .lt a b => a.eval σ < b.eval σ
  | .eq a b => a.eval σ = b.eval σ
  | .and c d => c.eval σ && d.eval σ
  | .or c d => c.eval σ || d.eval σ
  | .tt => true
  | .ff => false

theorem Cond.eval_all (σ : Store width) (cs : List (Cond width Atom)) :
    (Cond.all cs).eval holds σ = true ↔ ∀ c ∈ cs, c.eval holds σ = true := by
  induction cs with
  | nil => simp [Cond.all, Cond.eval]
  | cons c cs ih => simp [Cond.all, Cond.eval, ih]

theorem Cond.eval_any (σ : Store width) (cs : List (Cond width Atom)) :
    (Cond.any cs).eval holds σ = true ↔ ∃ c ∈ cs, c.eval holds σ = true := by
  induction cs with
  | nil => simp [Cond.any, Cond.eval]
  | cons c cs ih => simp [Cond.any, Cond.eval, ih]

variable [DecidableEq Var] (oracle : Store width)

/-- The oracle fixes what a nondeterministic assignment chooses. -/
def Cmd.exec : Cmd width Atom → Store width → Store width
  | .skip, σ => σ
  | .set v e, σ => Function.update σ v (e.eval σ)
  | .havoc v, σ => Function.update σ v (oracle v)
  | .seq c d, σ => d.exec (c.exec σ)
  | .ifThen c body, σ => if c.eval holds σ then body.exec σ else σ

def Cmd.Writes (v : Var) : Cmd width Atom → Prop
  | .skip => False
  | .set u _ | .havoc u => v = u
  | .seq c d => c.Writes v ∨ d.Writes v
  | .ifThen _ body => body.Writes v

omit [DecidableEq Var] in
@[simp] theorem Cmd.writes_block : (Cmd.block cs).Writes v ↔ ∃ c ∈ cs, c.Writes v := by
  induction cs with
  | nil => simp [Cmd.block, Cmd.Writes]
  | cons c cs ih => simp [Cmd.block, Cmd.Writes, ih]

theorem Cmd.exec_frame (c : Cmd width Atom) (σ : Store width) (h : ¬c.Writes v) :
    c.exec holds oracle σ v = σ v := by
  induction c generalizing σ with
  | skip => rfl
  | set u e | havoc u => exact Function.update_of_ne h _ _
  | seq c d ihc ihd =>
    have hc : ¬c.Writes v := fun hw => h (Or.inl hw)
    have hd : ¬d.Writes v := fun hw => h (Or.inr hw)
    exact (ihd _ hd).trans (ihc _ hc)
  | ifThen c body ih =>
    simp only [Cmd.exec]
    split_ifs
    · exact ih σ h
    · rfl

theorem Cmd.exec_block_append (cs ds : List (Cmd width Atom)) (σ : Store width) :
    (Cmd.block (cs ++ ds)).exec holds oracle σ =
      (Cmd.block ds).exec holds oracle ((Cmd.block cs).exec holds oracle σ) := by
  induction cs generalizing σ with
  | nil => rfl
  | cons c cs ih => exact ih _

/-- Commands that establish a fact about their own index and keep the facts about the
others establish it for every index. -/
theorem Cmd.exec_block_indexed {ι : Type} {f : ι → Cmd width Atom} {P : ι → Store width → Prop}
    {Q : ι → Store width → Prop} (own : ∀ i σ, P i σ → Q i ((f i).exec holds oracle σ))
    (keepP : ∀ i j σ, i ≠ j → P i σ → P i ((f j).exec holds oracle σ))
    (keepQ : ∀ i j σ, i ≠ j → Q i σ → Q i ((f j).exec holds oracle σ)) {is : List ι}
    (hnodup : is.Nodup)
    (h : ∀ i ∈ is, P i σ) : ∀ i ∈ is, Q i ((Cmd.block (is.map f)).exec holds oracle σ) := by
  have hkeep : ∀ (js : List ι) (i : ι) (τ : Store width), i ∉ js → Q i τ →
      Q i ((Cmd.block (js.map f)).exec holds oracle τ) := by
    intro js
    induction js with
    | nil => exact fun i τ _ hq => hq
    | cons j js ih =>
      intro i τ hi hq
      have hij : i ≠ j := fun he => hi (he ▸ List.mem_cons_self)
      exact ih i _ (fun hm => hi (List.mem_cons_of_mem _ hm)) (keepQ i j τ hij hq)
  induction is generalizing σ with
  | nil => intro i hi; cases hi
  | cons j js ih =>
    obtain ⟨hj, hjs⟩ := List.nodup_cons.mp hnodup
    intro i hi
    rcases List.mem_cons.mp hi with rfl | hi
    · exact hkeep js i _ hj (own i σ (h i List.mem_cons_self))
    · refine ih hjs (fun k hk => ?_) i hi
      have hkj : k ≠ j := fun he => hj (he ▸ hk)
      exact keepP k j σ hkj (h k (List.mem_cons_of_mem _ hk))

end Semantics

end GuardedCommands
