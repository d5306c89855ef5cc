import FlexPlan.PythonText
import Mathlib.Data.BitVec
import Mathlib.Data.List.FinRange

/-!
# The edges of a select

`compute_cfg` gives every case of a select an edge, and one more edge to `reject` if no keyset is
the default. `push_ifs` asks `SelectToExpression` for the condition of each label. The condition of
a masked case compares with the value as it is written.
-/
namespace SelectEdges

open List

open PythonText

inductive Ty where
  | bool
  | bits (w : ℕ)
  | enum
  deriving DecidableEq

/-- Literals, and the members of an enum by their names. -/
@[reducible] def Ty.Value : Ty → Type
  | .bool => Bool
  | .bits w => BitVec w
  | .enum => List Char

instance : (t : Ty) → DecidableEq t.Value
  | .bool => inferInstanceAs (DecidableEq Bool)
  | .bits w => inferInstanceAs (DecidableEq (BitVec w))
  | .enum => inferInstanceAs (DecidableEq (List Char))

/-- The operators besides those that the conditions are built from. -/
structure Operators where
  Unary : Ty → Ty → Type
  Binary : Ty → Ty → Ty → Type
  Ternary : Ty → Ty → Ty → Ty → Type
  unary : {a b : Ty} → Unary a b → a.Value → b.Value
  binary : {a b c : Ty} → Binary a b c → a.Value → b.Value → c.Value
  ternary : {a b c d : Ty} → Ternary a b c d → a.Value → b.Value → c.Value → d.Value

/-- Expressions over scalar locations; `loc` is what `IsLv` accepts. -/
inductive Expr (O : Operators) {Loc : Type} (ty : Loc → Ty) : Ty → Type where
  | lit {t : Ty} (v : t.Value) : Expr O ty t
  | loc {t : Ty} (l : Loc) (h : ty l = t) : Expr O ty t
  | lnot (e : Expr O ty .bool) : Expr O ty .bool
  | land (a b : Expr O ty .bool) : Expr O ty .bool
  | lor (a b : Expr O ty .bool) : Expr O ty .bool
  | equ {t : Ty} (a b : Expr O ty t) : Expr O ty .bool
  | band {w : ℕ} (a b : Expr O ty (.bits w)) : Expr O ty (.bits w)
  | bor {w : ℕ} (a b : Expr O ty (.bits w)) : Expr O ty (.bits w)
  | mux {t : Ty} (c : Expr O ty .bool) (a b : Expr O ty t) : Expr O ty t
  | unary {a b : Ty} (o : O.Unary a b) (e : Expr O ty a) : Expr O ty b
  | binary {a b c : Ty} (o : O.Binary a b c) (e : Expr O ty a) (f : Expr O ty b) : Expr O ty c
  | ternary {a b c d : Ty} (o : O.Ternary a b c d) (e : Expr O ty a) (f : Expr O ty b)
      (g : Expr O ty c) : Expr O ty d

section Expressions

variable {O : Operators} {Loc : Type} {ty : Loc → Ty}

abbrev Store (ty : Loc → Ty) := (l : Loc) → (ty l).Value

def Expr.eval (σ : Store ty) : {t : Ty} → Expr O ty t → t.Value
  | _, .lit v => v
  | _, .loc l h => h ▸ σ l
  | _, .lnot e => !(e.eval σ)
  | _, .land a b => a.eval σ && b.eval σ
  | _, .lor a b => a.eval σ || b.eval σ
  | _, .equ a b => decide (a.eval σ = b.eval σ)
  | _, .band (w := w) a b => BitVec.and (n := w) (a.eval σ) (b.eval σ)
  | _, .bor (w := w) a b => BitVec.or (n := w) (a.eval σ) (b.eval σ)
  | _, .mux c a b => bif c.eval σ then a.eval σ else b.eval σ
  | _, .unary o e => O.unary o (e.eval σ)
  | _, .binary o e f => O.binary o (e.eval σ) (f.eval σ)
  | _, .ternary o e f g => O.ternary o (e.eval σ) (f.eval σ) (g.eval σ)

def conjunction : List (Expr O ty .bool) → Expr O ty .bool
  | [] => .lit true
  | e :: es => es.foldl .land e

variable {σ : Store ty}

theorem eval_foldl_land (e : Expr O ty .bool) (es : List (Expr O ty .bool)) :
    (es.foldl Expr.land e).eval σ = (e.eval σ && es.all fun e => e.eval σ) := by
  induction es generalizing e with
  | nil => simp
  | cons d es ih => simp only [foldl_cons, ih, Expr.eval, all_cons, Bool.and_assoc]

theorem eval_conjunction (es : List (Expr O ty .bool)) :
    (conjunction es).eval σ = es.all fun e => e.eval σ := by
  cases es with
  | nil => rfl
  | cons e es => exact eval_foldl_land e es

end Expressions

/-- One component of a case: `value &&& mask`, a literal or an enum member, or the default. -/
inductive Head : Ty → Type where
  | mask {w : ℕ} (value mask : BitVec w) : Head (.bits w)
  | value {t : Ty} (v : t.Value) : Head t
  | any {t : Ty} : Head t

def Head.Matches : {t : Ty} → Head t → t.Value → Bool
  | _, .mask (w := w) v m, x => BitVec.and (n := w) x m == BitVec.and v m
  | _, .value v, x => decide (x = v)
  | _, .any, _ => true

/-- One component of a keyset. A range is a head without a formula. -/
inductive KeyHead : Ty → Type where
  | head {t : Ty} (h : Head t) : KeyHead t
  | range {w : ℕ} (low high : BitVec w) : KeyHead (.bits w)

namespace KeyHead

def Matches : {t : Ty} → KeyHead t → t.Value → Bool
  | _, .head h, x => h.Matches x
  | _, .range (w := w) low high, x =>
    decide (low.toNat ≤ BitVec.toNat (w := w) x ∧ BitVec.toNat (w := w) x ≤ high.toNat)

def supported : {t : Ty} → KeyHead t → Bool
  | _, .head _ => true
  | _, .range _ _ => false

def inMask : {t : Ty} → Head t → Bool
  | _, .mask v m => decide (BitVec.and v m = v)
  | _, .value _ => true
  | _, .any => true

def covered : {t : Ty} → KeyHead t → Bool
  | _, .head h => inMask h
  | _, .range _ _ => true

end KeyHead

/-- A default expression, or one head for each key. A list of defaults is of the second kind. -/
inductive Keyset {k : ℕ} (ts : Fin k → Ty) where
  | default
  | heads (f : (i : Fin k) → KeyHead (ts i))

namespace Keyset

variable {k : ℕ} {ts : Fin k → Ty}

def isDefault : Keyset ts → Bool
  | .default => true
  | .heads _ => false

def Matches (c : Keyset ts) (x : (i : Fin k) → (ts i).Value) : Bool :=
  match c with
  | .default => true
  | .heads f => (List.finRange k).all fun i => (f i).Matches (x i)

def supported : Keyset ts → Bool
  | .default => true
  | .heads f => (List.finRange k).all fun i => (f i).supported

def covered : Keyset ts → Bool
  | .default => true
  | .heads f => (List.finRange k).all fun i => (f i).covered

def passes (c : Keyset ts) (x : (i : Fin k) → (ts i).Value) : Bool := c.covered && c.Matches x

end Keyset

variable {Loc : Type}

structure SelectCase {k : ℕ} (ts : Fin k → Ty) where
  keyset : Keyset ts
  state : Str

/-- A select has at least one key. -/
structure SelectExpression (O : Operators) (ty : Loc → Ty) where
  {size : ℕ}
  {types : Fin (size + 1) → Ty}
  select : (i : Fin (size + 1)) → Expr O ty (types i)
  selectCases : List (SelectCase types)

variable {O : Operators} {ty : Loc → Ty}

def Head.formula : {t : Ty} → Head t → Expr O ty t → Expr O ty .bool
  | _, .mask (w := w) v m, component =>
    .equ (.band component (.lit (t := .bits w) m)) (.lit (t := .bits w) v)
  | _, .value v, component => .equ component (.lit v)
  | _, .any, _ => .lit (t := .bool) true

def selectCaseOne : {t : Ty} → KeyHead t → Expr O ty t → Option (Expr O ty .bool)
  | _, .head h, component => some (h.formula component)
  | _, .range _ _, _ => none

def selectCase (s : SelectExpression O ty) : Keyset s.types → Option (Expr O ty .bool)
  | .default => some (.lit (t := .bool) true)
  | .heads f =>
    ((List.finRange (s.size + 1)).mapM fun i => selectCaseOne (f i) (s.select i)).map conjunction

/-- The formula of the case at an index that may be outside the vector. -/
def caseAt (s : SelectExpression O ty) (i : ℕ) : Option (Expr O ty .bool) :=
  s.selectCases[i]?.bind fun c => selectCase s c.keyset

def computeExpression (s : SelectExpression O ty) (what : ℕ) : Option (Expr O ty .bool) := do
  let before ← (List.range what).mapM (caseAt s)
  let last ← caseAt s what
  return conjunction (before.map .lnot ++ [last])

namespace SelectExpression

variable (s : SelectExpression O ty)

def hasDefault : Bool := s.selectCases.any fun c => c.keyset.isDefault

def values (σ : Store ty) (i : Fin (s.size + 1)) : (s.types i).Value := (s.select i).eval σ

def next (σ : Store ty) : Option ℕ :=
  s.selectCases.findIdx? fun c => c.keyset.Matches (s.values σ)

def passing (σ : Store ty) : Option ℕ :=
  s.selectCases.findIdx? fun c => c.keyset.passes (s.values σ)

def reject : Str := "reject".toList

def nextState (σ : Store ty) : Str :=
  ((s.next σ).bind fun i => s.selectCases[i]?).elim reject SelectCase.state

end SelectExpression

open SelectExpression

def computeCfg (s : SelectExpression O ty) : List (Str × ℕ) :=
  s.selectCases.zipIdx.map (fun c => (c.1.state, c.2)) ++
    if s.hasDefault then [] else [(reject, s.selectCases.length)]

def pushEdges (s : SelectExpression O ty) : Option (List (Str × Expr O ty .bool)) :=
  (computeCfg s).mapM fun e => (computeExpression s e.2).map fun c => (e.1, c)

/-- All edges get a condition, and for every store exactly the condition of the edge the select
goes on with is true. -/
def Translated (s : SelectExpression O ty) : Prop :=
  ∃ edges, pushEdges s = some edges ∧ ∀ σ, ∃ j c, edges[j]? = some (s.nextState σ, c) ∧
    j = (s.next σ).getD s.selectCases.length ∧
    ∀ k e, edges[k]? = some e → (e.2.eval σ = true ↔ k = j)

/-- The conditions on a select under which its edges are translated. -/
structure Complete (s : SelectExpression O ty) : Prop where
  hasDefault : s.hasDefault = true
  supported : ∀ c ∈ s.selectCases, c.keyset.supported = true
  covered : ∀ σ i c, s.next σ = some i → s.selectCases[i]? = some c → c.keyset.covered = true

section Formulas

theorem map_of_mapM {α β γ : Type} {f : α → Option β} {p : β → γ} {q : α → γ}
    (hq : ∀ a b, f a = some b → p b = q a) {l : List α} {bs : List β} (h : l.mapM f = some bs) :
    bs.map p = l.map q := by
  have hall := mapM_inv h
  clear h
  induction hall with
  | nil => rfl
  | cons hab _ ih => rw [map_cons, map_cons, hq _ _ hab, ih]

theorem isSome_selectCaseOne (h : KeyHead t) (e : Expr O ty t) :
    (selectCaseOne h e).isSome = h.supported := by
  cases h <;> rfl

theorem eval_selectCaseOne (hf : selectCaseOne h e = some f) (σ : Store ty) :
    f.eval σ = (h.covered && h.Matches (e.eval σ)) := by
  cases h with
  | range low high => cases hf
  | head h =>
    cases hf
    cases h with
    | value v | any => rfl
    | mask v m =>
      by_cases hmask : BitVec.and v m = v
      · simp only [KeyHead.covered, KeyHead.inMask, KeyHead.Matches, Head.Matches, Head.formula,
          Expr.eval, hmask, decide_true, Bool.true_and]
        rfl
      · -- the masked key has no bits outside the mask
        have hne : BitVec.and (e.eval σ) m ≠ v := by
          rintro rfl
          apply hmask
          ext i hi
          simp [BitVec.and_eq]
        simp only [KeyHead.covered, KeyHead.inMask, hmask, decide_false, Bool.false_and]
        exact decide_eq_false hne

variable {s : SelectExpression O ty} {c : Keyset s.types}

theorem isSome_selectCase : (selectCase s c).isSome = c.supported := by
  cases c with
  | default => rfl
  | heads f =>
    rw [selectCase, Option.isSome_map, Keyset.supported]
    by_cases h : ∃ i ∈ List.finRange (s.size + 1), selectCaseOne (f i) (s.select i) = none
    · obtain ⟨i, hi, hnone⟩ := h
      rw [mapM_eq_none.mpr ⟨i, hi, hnone⟩, Option.isSome_none, eq_comm, all_eq_false]
      refine ⟨i, hi, ?_⟩
      rw [← isSome_selectCaseOne (f i) (s.select i), hnone]
      exact Bool.false_ne_true
    · have hsome : ∀ i ∈ List.finRange (s.size + 1), selectCaseOne (f i) (s.select i) =
          some ((selectCaseOne (f i) (s.select i)).getD (.lit (t := .bool) true)) := by
        intro i hi
        cases he : selectCaseOne (f i) (s.select i) with
        | none => exact absurd ⟨i, hi, he⟩ h
        | some e => rfl
      rw [mapM_eq_some hsome, Option.isSome_some, eq_comm, all_eq_true]
      intro i hi
      rw [← isSome_selectCaseOne (f i) (s.select i), hsome i hi, Option.isSome_some]

theorem eval_selectCase (he : selectCase s c = some e) (σ : Store ty) :
    e.eval σ = c.passes (s.values σ) := by
  cases c with
  | default =>
    cases he
    rfl
  | heads f =>
    rw [selectCase] at he
    obtain ⟨es, hes, rfl⟩ := Option.map_eq_some_iff.mp he
    have hmap := map_of_mapM (p := fun e => e.eval σ)
      (fun i e h => eval_selectCaseOne (σ := σ) h) hes
    have hall : ∀ (l : List (Expr O ty .bool)), (l.all fun e => e.eval σ) =
        (l.map fun e => e.eval σ).all id := fun l => by
      rw [all_map]
      rfl
    rw [eval_conjunction, hall, hmap, all_map, Keyset.passes, Keyset.covered, Keyset.Matches]
    refine Bool.eq_iff_iff.mpr ?_
    simp only [all_eq_true, Bool.and_eq_true, Function.comp, id, SelectExpression.values]
    exact ⟨fun h => ⟨fun i hi => (h i hi).1, fun i hi => (h i hi).2⟩,
      fun h i hi => ⟨h.1 i hi, h.2 i hi⟩⟩

end Formulas

section Conditions

variable {s : SelectExpression O ty}

theorem caseAt_of_supported (h : ∀ c ∈ s.selectCases, c.keyset.supported = true)
    (hi : i < s.selectCases.length) : ∃ e, caseAt s i = some e ∧
      ∀ σ, e.eval σ = (s.selectCases.get ⟨i, hi⟩).keyset.passes (s.values σ) := by
  have hsome : (selectCase s (s.selectCases.get ⟨i, hi⟩).keyset).isSome = true := by
    rw [isSome_selectCase]
    exact h _ (get_mem _ _)
  obtain ⟨e, he⟩ := Option.isSome_iff_exists.mp hsome
  refine ⟨e, ?_, eval_selectCase he⟩
  rw [caseAt, getElem?_eq_getElem hi]
  exact he

theorem computeExpression_of_supported (h : ∀ c ∈ s.selectCases, c.keyset.supported = true)
    {what : ℕ} (hwhat : what < s.selectCases.length) : ∃ e, computeExpression s what = some e ∧
      ∀ σ, e.eval σ = true ↔ s.passing σ = some what := by
  obtain ⟨last, hlast, hpasses⟩ := caseAt_of_supported h hwhat
  have hbefore : ∀ i ∈ List.range what, caseAt s i =
      some ((caseAt s i).getD (.lit (t := .bool) true)) := by
    intro i hi
    obtain ⟨e, he, -⟩ := caseAt_of_supported h ((mem_range.mp hi).trans hwhat)
    rw [he]
    rfl
  refine ⟨_, by rw [computeExpression, mapM_eq_some hbefore, hlast]; rfl, fun σ => ?_⟩
  rw [eval_conjunction, SelectExpression.passing, findIdx?_eq_some_iff_getElem]
  simp only [all_append, all_map, Bool.and_eq_true, all_eq_true, mem_range,
    all_cons, all_nil, Bool.and_true, hpasses σ, Function.comp]
  constructor
  · rintro ⟨hearlier, hmatch⟩
    refine ⟨hwhat, hmatch, fun i hi => ?_⟩
    obtain ⟨e, he, heval⟩ := caseAt_of_supported h (hi.trans hwhat)
    have hfalse := hearlier i hi
    rw [he, Option.getD_some, Expr.eval, heval σ] at hfalse
    simpa using hfalse
  · rintro ⟨_, hmatch, hearlier⟩
    refine ⟨fun i hi => ?_, hmatch⟩
    obtain ⟨e, he, heval⟩ := caseAt_of_supported h (hi.trans hwhat)
    rw [he, Option.getD_some, Expr.eval, heval σ]
    simpa using hearlier i hi

theorem caseAt_of_unsupported (hc : s.selectCases[i]? = some c)
    (h : c.keyset.supported = false) : caseAt s i = none := by
  rw [caseAt, hc, Option.bind_some, ← Option.not_isSome_iff_eq_none, isSome_selectCase, h]
  exact Bool.false_ne_true

theorem computeExpression_eq_none {what : ℕ} (h : caseAt s what = none) :
    computeExpression s what = none := by
  rw [computeExpression, h]
  cases (List.range what).mapM (caseAt s) <;> rfl

end Conditions

section Edges

variable {s : SelectExpression O ty}

theorem computeCfg_of_default (h : s.hasDefault = true) :
    computeCfg s = s.selectCases.zipIdx.map fun c => (c.1.state, c.2) := by
  rw [computeCfg, if_pos h, append_nil]

theorem exists_next (h : s.hasDefault = true) (σ : Store ty) : ∃ i c, s.next σ = some i ∧
    s.selectCases[i]? = some c ∧ c.keyset.Matches (s.values σ) = true := by
  obtain ⟨d, hd, hdefault⟩ := any_eq_true.mp h
  have hmatch : d.keyset.Matches (s.values σ) = true := by
    cases hk : d.keyset with
    | default => rfl
    | heads f =>
      rw [hk] at hdefault
      cases hdefault
  cases hnext : s.next σ with
  | none =>
    have hnone := findIdx?_eq_none_iff.mp hnext d hd
    rw [hmatch] at hnone
    cases hnone
  | some i =>
    obtain ⟨hi, hfound, -⟩ := findIdx?_eq_some_iff_getElem.mp hnext
    exact ⟨i, _, rfl, getElem?_eq_getElem hi, hfound⟩

theorem passing_eq_next (hnext : s.next σ = some i)
    (hc : s.selectCases[i]? = some c) : s.passing σ = some i ↔ c.keyset.covered = true := by
  obtain ⟨hi, hmatch, hearlier⟩ := findIdx?_eq_some_iff_getElem.mp hnext
  rw [getElem?_eq_getElem hi, Option.some.injEq] at hc
  subst hc
  rw [SelectExpression.passing, findIdx?_eq_some_iff_getElem]
  constructor
  · rintro ⟨_, hpasses, _⟩
    exact (Bool.and_eq_true_iff.mp hpasses).1
  · intro hcovered
    refine ⟨hi, Bool.and_eq_true_iff.mpr ⟨hcovered, hmatch⟩, fun j hj => ?_⟩
    intro hpasses
    exact hearlier j hj (Bool.and_eq_true_iff.mp hpasses).2

/-- With a default and no ranges the `k`-th edge leads to the state of the `k`-th case, under a
condition that holds exactly when this case is the first that passes. -/
theorem pushEdges_of_default (hdefault : s.hasDefault = true)
    (h : ∀ c ∈ s.selectCases, c.keyset.supported = true) :
    ∃ edges, pushEdges s = some edges ∧ ∀ k, (∀ c, s.selectCases[k]? = some c →
      ∃ e, edges[k]? = some (c.state, e)) ∧
      ∀ e, edges[k]? = some e → ∀ σ, e.2.eval σ = true ↔ s.passing σ = some k := by
  have hedges : ∀ e ∈ s.selectCases.zipIdx.map (fun c => (c.1.state, c.2)),
      (computeExpression s e.2).map (fun c => (e.1, c)) =
        some (e.1, (computeExpression s e.2).getD (.lit (t := .bool) true)) := by
    intro e he
    obtain ⟨⟨c, i⟩, hc, rfl⟩ := mem_map.mp he
    obtain ⟨-, hi, -⟩ := mem_zipIdx hc
    have hlt : i < s.selectCases.length := by omega
    obtain ⟨f, hf, -⟩ := computeExpression_of_supported h hlt
    simp only [hf, Option.map_some, Option.getD_some]
  refine ⟨_, by rw [pushEdges, computeCfg_of_default hdefault, mapM_eq_some hedges], fun k => ?_⟩
  simp only [map_map, getElem?_map, getElem?_zipIdx, Nat.zero_add, Option.map_map]
  refine ⟨fun c hc => ⟨_, by rw [hc]; rfl⟩, fun e he σ => ?_⟩
  obtain ⟨c, hc, rfl⟩ := Option.map_eq_some_iff.mp he
  obtain ⟨hk, -⟩ := List.getElem?_eq_some_iff.mp hc
  obtain ⟨f, hf, heval⟩ := computeExpression_of_supported h hk
  simp only [Function.comp, hf, Option.getD_some]
  exact heval σ

theorem pushEdges_eq_none (he : e ∈ computeCfg s) (h : caseAt s e.2 = none) :
    pushEdges s = none := by
  rw [pushEdges, mapM_eq_none.mpr ⟨e, he, ?_⟩]
  rw [computeExpression_eq_none h, Option.map_none]

theorem pushEdges_of_no_default (h : s.hasDefault = false) : pushEdges s = none := by
  have hreject : (reject, s.selectCases.length) ∈ computeCfg s := by
    rw [computeCfg, h]
    exact mem_append_right _ mem_cons_self
  apply pushEdges_eq_none hreject
  rw [caseAt, getElem?_eq_none (Nat.le_refl _), Option.bind_none]

theorem pushEdges_of_range (hc : c ∈ s.selectCases) (h : c.keyset.supported = false) :
    pushEdges s = none := by
  obtain ⟨i, hi, rfl⟩ := mem_iff_getElem.mp hc
  have hcase : s.selectCases[i]? = some (s.selectCases[i]) := getElem?_eq_getElem hi
  have hedge : (s.selectCases[i].state, i) ∈ computeCfg s := by
    refine mem_append_left _ (mem_map.mpr ⟨(s.selectCases[i], i), ?_, rfl⟩)
    exact mem_zipIdx_iff_getElem?.mpr hcase
  exact pushEdges_eq_none hedge (caseAt_of_unsupported hcase h)

end Edges

/-- The edges of a select are translated exactly when it has a default, no range, and no case
with a value outside its mask is ever the first to match. -/
theorem translated_iff_complete (s : SelectExpression O ty) : Translated s ↔ Complete s := by
  constructor
  · rintro ⟨edges, hedges, hexact⟩
    have hdefault : s.hasDefault = true := by
      by_contra hno
      rw [pushEdges_of_no_default (Bool.eq_false_iff.mpr hno)] at hedges
      cases hedges
    have hsupported : ∀ c ∈ s.selectCases, c.keyset.supported = true := by
      intro c hc
      by_contra hno
      rw [pushEdges_of_range hc (Bool.eq_false_iff.mpr hno)] at hedges
      cases hedges
    refine ⟨hdefault, hsupported, fun σ i c hnext hc => ?_⟩
    obtain ⟨edges', hedges', hpassing⟩ := pushEdges_of_default hdefault hsupported
    cases hedges.symm.trans hedges'
    obtain ⟨j, e, hj, hchoice, honly⟩ := hexact σ
    rw [hnext, Option.getD_some] at hchoice
    subst hchoice
    rw [← passing_eq_next hnext hc, ← (hpassing j).2 _ hj σ]
    exact (honly j _ hj).mpr rfl
  · rintro ⟨hdefault, hsupported, hcovered⟩
    obtain ⟨edges, hedges, hpassing⟩ := pushEdges_of_default hdefault hsupported
    refine ⟨edges, hedges, fun σ => ?_⟩
    obtain ⟨i, c, hnext, hc, -⟩ := exists_next hdefault σ
    have hfirst := (passing_eq_next hnext hc).mpr (hcovered σ i c hnext hc)
    obtain ⟨e, he⟩ := (hpassing i).1 c hc
    refine ⟨i, e, ?_, by rw [hnext, Option.getD_some], fun k e' hk => ?_⟩
    · rw [he, nextState, hnext, Option.bind_some, hc]
      rfl
    · rw [(hpassing k).2 e' hk σ, hfirst, Option.some.injEq]
      exact eq_comm

namespace Selects

def operators : Operators where
  Unary _ _ := Empty
  Binary _ _ _ := Empty
  Ternary _ _ _ _ := Empty
  unary o := nomatch o
  binary o := nomatch o
  ternary o := nomatch o

def types (_ : Unit) : Ty := .bits 2

theorem types_eq (u : Unit) : types u = .bits 2 := rfl

/-- `select (x) { 0b01 : parse; }`. -/
def noDefault : SelectExpression operators types where
  size := 0
  types _ := .bits 2
  select _ := .loc () (types_eq ())
  selectCases := [⟨.heads fun _ => .head (.value (t := .bits 2) 1#2), "parse".toList⟩]

/-- `select (x) { 0b10 &&& 0b01 : parse; default : accept; }`. -/
def outsideMask : SelectExpression operators types where
  size := 0
  types _ := .bits 2
  select _ := .loc () (types_eq ())
  selectCases := [⟨.heads fun _ => .head (.mask 2#2 1#2), "parse".toList⟩,
    ⟨.default, "accept".toList⟩]

end Selects

/-- Without a default the label of the edge to `reject` is outside the cases, and a value with a
bit outside its mask is passed over. -/
theorem selects_not_translated :
    ¬Translated Selects.noDefault ∧ ¬Translated Selects.outsideMask := by
  constructor
  · rintro ⟨edges, hedges, -⟩
    have hnone : pushEdges Selects.noDefault = none := pushEdges_of_no_default rfl
    rw [hnone] at hedges
    cases hedges
  · rintro ⟨edges, hedges, hexact⟩
    -- with `x = 0` the first case matches
    obtain ⟨j, c, hj, hchoice, honly⟩ := hexact fun _ => 0#2
    cases hedges
    have hzero : j = 0 := hchoice
    subst hzero
    cases hj
    have htrue := (honly 0 _ rfl).mpr rfl
    cases htrue

end SelectEdges
