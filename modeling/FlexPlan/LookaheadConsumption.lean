import Mathlib.Data.List.Basic
import Mathlib.Logic.Function.Basic

/-!
# Consuming a lookahead

The bits of a lookahead are popped from the packet where it stands, so the pops behind it take
their bits from the lookahead variable until it is used up. Bits are listed from the most
significant one.
-/
namespace LookaheadConsumption

open List Function

abbrev Bits := List Bool

/-- Variables carry their width. -/
abbrev Env (N : Type) := N × ℕ → Bits

/-- Declarations with new names are kept apart from the program's. -/
inductive Var (N : Type) where
  | program (x : N × ℕ)
  | tmp (t : ℕ × ℕ)

structure State (N : Type) where
  env : Env N
  packet : Bits

inductive Instruction (N : Type) where
  | pop (x : N × ℕ)
  | peek (x : N × ℕ)
  | other (effect : Env N → Env N)

variable {N : Type} [DecidableEq N]

/-- A packet that is too short stops the run. -/
def State.step (s : State N) : Instruction N → Option (State N)
  | .pop x =>
    if s.packet.length < x.2 then none
    else some ⟨update s.env x (s.packet.take x.2), s.packet.drop x.2⟩
  | .peek x =>
    if s.packet.length < x.2 then none else some ⟨update s.env x (s.packet.take x.2), s.packet⟩
  | .other effect => some ⟨effect s.env, s.packet⟩

inductive Expr (N : Type) where
  | path (v : Var N)
  | slice (e : Expr N) (hi lo : ℕ)
  | concat (l r : Expr N)

def Expr.eval (env : Env N) (tmps : Env ℕ) : Expr N → Bits
  | .path (.program x) => env x
  | .path (.tmp t) => tmps t
  | .slice e hi lo =>
    let bits := e.eval env tmps
    (bits.drop (bits.length - 1 - hi)).take (hi + 1 - lo)
  | .concat l r => l.eval env tmps ++ r.eval env tmps

inductive Statement (N : Type) where
  | keep (instr : Instruction N)
  | assign (x : N × ℕ) (e : Expr N)
  | assignTmp (t : ℕ × ℕ) (e : Expr N)
  | popTmp (t : ℕ × ℕ)

def exec : State N × Env ℕ → Statement N → Option (State N × Env ℕ)
  | (s, tmps), .keep instr => (s.step instr).map fun s => (s, tmps)
  | (s, tmps), .assign x e => some (⟨update s.env x (e.eval s.env tmps), s.packet⟩, tmps)
  | (s, tmps), .assignTmp t e => some (s, update tmps t (e.eval s.env tmps))
  | (s, tmps), .popTmp t =>
    if s.packet.length < t.2 then none
    else some (⟨s.env, s.packet.drop t.2⟩, update tmps t (s.packet.take t.2))

/-- What one instruction becomes, with the expression and the width that remain. A peek raises. -/
def eatupStep (tmp : ℕ) (l : Expr N) (bitsize : ℕ) :
    Instruction N → Option (List (Statement N) × Expr N × ℕ)
  | .peek _ => none
  | .pop x =>
    let popbitsize := x.2
    if bitsize < popbitsize then
      let v1 := (tmp, bitsize)
      let v2 := (tmp + 1, popbitsize - bitsize)
      some ([.assignTmp v1 l, .popTmp v2, .assign x (.concat (.path (.tmp v1)) (.path (.tmp v2)))],
        l,
        bitsize - popbitsize)
    else if popbitsize < bitsize then
      some ([.assign x (.slice l (bitsize - 1) (bitsize - popbitsize))],
        .slice l (bitsize - popbitsize - 1) 0, bitsize - popbitsize)
    else some ([.assign x l], l, bitsize - popbitsize)
  | instr => some ([.keep instr], l, bitsize)

/-- The block with the replacements in place and the expression for the rest of the lookahead. -/
def eatup (tmp : ℕ) (l : Expr N) (bitsize : ℕ) :
    List (Instruction N) → Option (List (Statement N) × Option (Expr N))
  | [] => some ([], some l)
  | instr :: instrs => do
    let (stat, l, bitsize) ← eatupStep tmp l bitsize instr
    if bitsize = 0 then return (stat ++ instrs.map .keep, none)
    let (block, out) ← eatup tmp l bitsize instrs
    return (stat ++ block, out)

/-- An expression of width `w` that is a part of the variable `x`. -/
structure Lookahead (x : N × ℕ) (l : Expr N) (w : ℕ) : Prop where
  le : w ≤ x.2
  congr {env env' : Env N} (tmps tmps' : Env ℕ) : env x = env' x →
    l.eval env tmps = l.eval env' tmps'

/-- The instruction neither peeks nor changes `x` other than by a pop, and pops at least one bit. -/
def Consumes (x : N × ℕ) : Instruction N → Prop
  | .peek _ => False
  | .pop y => 0 < y.2
  | .other effect => ∀ env, effect env x = env x

/-- The bits of the lookahead that are left behind the block. -/
def pending (out : Option (Expr N)) (s : State N × Env ℕ) : Bits :=
  out.elim [] fun e => e.eval s.1.env s.2

variable {x : N × ℕ} {l : Expr N} {env : Env N} {tmps : Env ℕ}

/-- Both runs agree on one instruction, with the rest of the lookahead in front of the packet. While
bits are left the packet is not touched; what is popped then is shorter than the lookahead
variable. -/
theorem eatupStep_spec (hl : Lookahead x l w) (hw : (l.eval env tmps).length = w)
    (hinstr : Consumes x instr)
    (h : eatupStep tmp l w instr = some (stat, l', w')) (rest : Bits) :
    State.step ⟨env, l.eval env tmps ++ rest⟩ instr = (stat.foldlM exec (⟨env, rest⟩, tmps)).map
        (fun s => ⟨s.1.env, (l'.eval s.1.env s.2).take w' ++ s.1.packet⟩) ∧
      (w' ≠ 0 → ∃ env', stat.foldlM exec (⟨env, rest⟩, tmps) = some (⟨env', rest⟩, tmps) ∧
        Lookahead x l' w' ∧ (l'.eval env' tmps).length = w') := by
  cases instr with
  | peek y => cases h
  | other effect =>
    cases h
    have heval := hl.congr tmps tmps (hinstr env)
    refine ⟨?_, fun _ => ⟨effect env, rfl, hl, by rw [heval, hw]⟩⟩
    change _ = some (State.mk (effect env) ((l.eval (effect env) tmps).take w ++ rest))
    rw [heval, take_of_length_le (Nat.le_of_eq hw)]
    rfl
  | pop y =>
    rw [eatupStep] at h
    split_ifs at h with hlt hgt
    · cases h
      have hzero : w - y.2 = 0 := by omega
      refine ⟨?_, fun hpos => absurd hzero hpos⟩
      by_cases hshort : rest.length < y.2 - w
      · rw [State.step, if_pos (by rw [length_append]; omega)]
        simp [exec, hshort]
      · rw [State.step, if_neg (by rw [length_append]; omega), take_append, drop_append, hw,
          take_of_length_le (by omega), drop_of_length_le (by omega)]
        simp [exec, hshort, Expr.eval, hzero]
    · cases h
      have hne : x ≠ y := by
        rintro rfl
        exact absurd hl.le (by omega)
      have htop : Expr.eval env tmps (.slice l (w - 1) (w - y.2)) = (l.eval env tmps).take y.2 := by
        rw [Expr.eval, hw]
        simp
        congr 1
        omega
      have hlow : ∀ v, Expr.eval (update env y v) tmps (.slice l (w - y.2 - 1) 0) =
          (l.eval env tmps).drop y.2 := by
        intro v
        rw [Expr.eval, hl.congr tmps tmps (update_of_ne hne v env), hw]
        simp only [show w - 1 - (w - y.2 - 1) = y.2 by omega]
        exact take_of_length_le (by rw [length_drop]; omega)
      have hstat : [Statement.assign y (.slice l (w - 1) (w - y.2))].foldlM exec
          (⟨env, rest⟩, tmps) =
          some (⟨update env y ((l.eval env tmps).take y.2), rest⟩, tmps) := by
        rw [foldlM_cons, exec, htop]
        rfl
      rw [hstat]
      refine ⟨?_, fun _ => ⟨_, rfl, ⟨Nat.le_trans (Nat.sub_le w y.2) hl.le, ?_⟩, ?_⟩⟩
      · rw [State.step, if_neg (by rw [length_append]; omega), Option.map_some, hlow,
          take_append_of_le_length (by omega), drop_append_of_le_length (by omega),
          take_of_length_le (l := drop y.2 _) (by simp [hw])]
      · intro env env' tmps tmps' heq
        simp only [Expr.eval, hl.congr tmps tmps' heq]
      · rw [hlow, length_drop, hw]
    · cases h
      obtain rfl : y.2 = w := by omega
      refine ⟨?_, fun hpos => absurd (Nat.sub_self _) hpos⟩
      rw [State.step, if_neg (by rw [length_append]; omega), take_left' hw, drop_left' hw,
        Nat.sub_self]
      rfl

theorem foldlM_keep (block : List (Instruction N)) (s : State N) :
    (block.map Statement.keep).foldlM exec (s, tmps) =
      (block.foldlM State.step s).map fun s => (s, tmps) := by
  induction block generalizing s with
  | nil => rfl
  | cons instr block ih =>
    rw [map_cons, foldlM_cons, foldlM_cons, exec]
    cases s.step instr with
    | none => rfl
    | some s => exact ih s

/-- Executing the block with the replacements behind the lookahead, the variables get the same
values as in the block before it, and the returned expression stands for the bits in between. -/
theorem eatup_correct (tmp : ℕ) (hl : Lookahead x l w) (block : List (Instruction N))
    (hblock : ∀ instr ∈ block, Consumes x instr) (env : Env N) (tmps : Env ℕ)
    (hw : (l.eval env tmps).length = w) (rest : Bits) :
    ∃ block' out, eatup tmp l w block = some (block', out) ∧
      block.foldlM State.step ⟨env, l.eval env tmps ++ rest⟩ =
        (block'.foldlM exec (⟨env, rest⟩, tmps)).map
          (fun s => ⟨s.1.env, pending out s ++ s.1.packet⟩) ∧
      (out ≠ none → ∃ s ∈ block'.foldlM exec (⟨env, rest⟩, tmps), s.1.packet = rest) := by
  induction block generalizing l w env with
  | nil => exact ⟨[], some l, rfl, rfl, fun _ => ⟨_, rfl, rfl⟩⟩
  | cons instr block ih =>
    have hinstr := hblock instr mem_cons_self
    obtain ⟨⟨stat, l', w'⟩, hstep⟩ : ∃ r, eatupStep tmp l w instr = some r := by
      cases instr with
      | peek y => exact hinstr.elim
      | other effect => exact ⟨_, rfl⟩
      | pop y =>
        rw [eatupStep]
        split_ifs <;> exact ⟨_, rfl⟩
    obtain ⟨horiginal, hpending⟩ := eatupStep_spec hl hw hinstr hstep rest
    by_cases hzero : w' = 0
    · refine ⟨stat ++ block.map .keep, none, by simp [eatup, hstep, hzero], ?_, by simp⟩
      rw [foldlM_cons, horiginal, foldlM_append, hzero]
      cases hs : stat.foldlM exec (⟨env, rest⟩, tmps) with
      | none => rfl
      | some s =>
        change block.foldlM State.step s.1 = ((block.map .keep).foldlM exec (s.1, s.2)).map _
        rw [foldlM_keep, Option.map_map]
        exact (congrFun Option.map_id _).symm
    · obtain ⟨env', hstat, hl', hw'⟩ := hpending hzero
      obtain ⟨block', out, heatup, hrun, hrest⟩ :=
        ih hl' (fun i hi => hblock i (mem_cons_of_mem instr hi)) env' hw'
      refine ⟨stat ++ block', out, by simp [eatup, hstep, hzero, heatup], ?_, ?_⟩
      · rw [foldlM_cons, horiginal, foldlM_append, hstat, Option.map_some,
          take_of_length_le (Nat.le_of_eq hw')]
        exact hrun
      · rw [foldlM_append, hstat]
        exact hrest

theorem eatup_correct_straddle :
    let l : Expr ℕ := .path (.program (0, 4))
    let block := [.pop (1, 3), .pop (2, 3)]
    let env : Env ℕ := fun _ => replicate 4 true
    ∃ block' out, eatup 0 l 4 block = some (block', out) ∧
      block.foldlM State.step ⟨env, replicate 6 true⟩ =
      (block'.foldlM exec (⟨env, replicate 2 true⟩, fun _ => [])).map
        fun s => ⟨s.1.env, pending out s ++ s.1.packet⟩ := by
  intro l block env
  have hl : Lookahead (0, 4) l 4 := ⟨Nat.le_refl 4, fun _ _ h => h⟩
  obtain ⟨block', out, heatup, hrun, _⟩ :=
    eatup_correct 0 hl block (by simp [block, Consumes]) env (fun _ => []) rfl (replicate 2 true)
  exact ⟨block', out, heatup, hrun⟩

end LookaheadConsumption
