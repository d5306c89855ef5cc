import FlexPlan.DjSetUnion
import FlexPlan.TransitionRuns
import Mathlib.Algebra.Order.BigOperators.Group.Finset

/-!
# Congruence closure

`congruence_closure_t` keeps a representative for every variable, the variables of every class, the
equations that use a class and a table of them. Merges are pending until `propagate` has carried
them out. Every merge is a union in the proof forest, which leaves its vectors unless the first
variable is united with another one for the first time.
-/
namespace CongruenceClosure

open TransitionRuns DjSetUnion Function List

/-- The equation `f(a1, a2) = a`. -/
structure VarFunEq where
  a1 : ℕ
  a2 : ℕ
  a : ℕ
  deriving DecidableEq, Repr

inductive Equation where
  | vars (left right : ℕ)
  | app (e : VarFunEq)
  deriving DecidableEq, Repr

/-- What follows from the equations by reflexivity, symmetry, transitivity and congruence. -/
inductive Follows (eqs : List Equation) : ℕ → ℕ → Prop where
  | refl (x) : Follows eqs x x
  | symm {x y} : Follows eqs x y → Follows eqs y x
  | trans {x y z} : Follows eqs x y → Follows eqs y z → Follows eqs x z
  | vars {x y} : .vars x y ∈ eqs → Follows eqs x y
  | app {e f} : .app e ∈ eqs → .app f ∈ eqs → Follows eqs e.a1 f.a1 → Follows eqs e.a2 f.a2 →
    Follows eqs e.a f.a

section Consequences

variable {eqs : List Equation} {x y : ℕ}

theorem Follows.mono {eqs' : List Equation} (hsub : eqs ⊆ eqs') (h : Follows eqs x y) :
    Follows eqs' x y := by
  induction h with
  | refl x => exact .refl x
  | symm _ ih => exact .symm ih
  | trans _ _ ih1 ih2 => exact .trans ih1 ih2
  | vars hmem => exact .vars (hsub hmem)
  | app he hf _ _ ih1 ih2 => exact .app (hsub he) (hsub hf) ih1 ih2

theorem Follows.label_eq {label : ℕ → ℕ} (h : Follows eqs x y)
    (hvars : ∀ u v, .vars u v ∈ eqs → label u = label v)
    (happ : ∀ e f, .app e ∈ eqs → .app f ∈ eqs → label e.a1 = label f.a1 →
      label e.a2 = label f.a2 → label e.a = label f.a) : label x = label y := by
  induction h with
  | refl x => rfl
  | symm _ ih => exact ih.symm
  | trans _ _ ih1 ih2 => exact ih1.trans ih2
  | vars hmem => exact hvars _ _ hmem
  | app he hf _ _ ih1 ih2 => exact happ _ _ he hf ih1 ih2

end Consequences

/-- Why two variables are equal: an equation, or two equations with equal arguments. -/
inductive Reason where
  | vars (left right : ℕ)
  | pair (first second : VarFunEq)
  deriving DecidableEq, Repr

def getReason : Reason → ℕ × ℕ
  | .vars left right => (left, right)
  | .pair first second => (first.a, second.a)

/-- `size` is the number of variables; the last pending reason stands first. -/
structure Closure where
  size : ℕ
  representatives : ℕ → ℕ
  classList : ℕ → List ℕ
  pending : List Reason
  useLists : ℕ → List VarFunEq
  lookup : ℕ × ℕ → Option VarFunEq
  proofForest : DjSet

namespace Closure

def empty : Closure := ⟨0, id, fun _ => [], [], fun _ => [], fun _ => none, .empty⟩

def equal (s : Closure) (v1 v2 : ℕ) : Bool := s.representatives v1 == s.representatives v2

def createNewVar (s : Closure) : Closure :=
  { s with
    size := s.size + 1
    representatives := update s.representatives s.size s.size
    classList := update s.classList s.size [s.size]
    proofForest := s.proofForest.newid }

/-- The variables of `propagate` behind the exchange. `slotA` and `slotB` are the entries of
the class list that `cls_list_a` and `cls_list_b` refer to. -/
structure Merge where
  a : ℕ
  b : ℕ
  aprime : ℕ
  bprime : ℕ
  slotA : ℕ
  slotB : ℕ
  classList : ℕ → List ℕ

/-- The larger class comes second. The exchange of `cls_list_a` and `cls_list_b` exchanges
the lists they refer to. -/
def prepare (s : Closure) (a b : ℕ) : Merge :=
  let aprime := s.representatives a
  let bprime := s.representatives b
  if (s.classList aprime).length > (s.classList bprime).length then
    { a := b, b := a, aprime := bprime, bprime := aprime, slotA := aprime, slotB := bprime
      classList := update (update s.classList aprime (s.classList bprime))
        bprime (s.classList aprime) }
  else
    { a, b, aprime, bprime, slotA := aprime, slotB := bprime, classList := s.classList }

/-- What the loop over the equations of the absorbed class changes. -/
structure Moved where
  lookup : ℕ × ℕ → Option VarFunEq
  pending : List Reason
  uses : List VarFunEq

def moveUse (representatives : ℕ → ℕ) (m : Moved) (e : VarFunEq) : Moved :=
  let key := (representatives e.a1, representatives e.a2)
  match m.lookup key with
  | some found => { m with pending := .pair found e :: m.pending }
  | none => { m with lookup := update m.lookup key (some e), uses := m.uses ++ [e] }

/-- An access out of range in the proof forest leaves no state. -/
def merge (s : Closure) (m : Merge) : Option Closure := do
  let (eqid, proofForest) ← s.proofForest.setUnion m.a m.b
  if 0 ≤ eqid then
    let representatives := (m.classList m.slotA).foldl
      (fun r c => update r c m.bprime) s.representatives
    let classList := update m.classList m.slotB
      (m.classList m.slotB ++ m.classList m.slotA)
    let moved := (s.useLists m.aprime).foldl (moveUse representatives)
      ⟨s.lookup, s.pending, s.useLists m.bprime⟩
    return { s with
      representatives
      classList := update classList m.aprime []
      pending := moved.pending
      useLists := update (update s.useLists m.bprime moved.uses) m.aprime []
      lookup := moved.lookup
      proofForest }
  else return { s with classList := m.classList, proofForest }

def round (s : Closure) (e : Reason) : Option Closure :=
  let (a, b) := getReason e
  if s.representatives a = s.representatives b then some s else s.merge (s.prepare a b)

/-- The loop of `propagate`, which an access out of range ends without a state. -/
def body : Option Closure → Option (Option Closure)
  | none => none
  | some s =>
    match s.pending with
    | [] => none
    | e :: pending => some ({ s with pending }.round e)

/-- Every round takes a pending reason, and what becomes pending leaves a use list. -/
def work (s : Closure) : ℕ :=
  s.pending.length + ∑ r ∈ Finset.range s.size, (s.useLists r).length

def propagate (s : Closure) : Option Closure := (loop body (s.work + 1) (some s)).join

/-- `add_equality` up to its call of `propagate`. -/
def enter (s : Closure) : Equation → Closure
  | .vars left right => { s with pending := .vars left right :: s.pending }
  | .app e =>
    let a1 := s.representatives e.a1
    let a2 := s.representatives e.a2
    match s.lookup (a1, a2) with
    | some found => { s with pending := .pair e found :: s.pending }
    | none =>
      let useLists := update s.useLists a1 (s.useLists a1 ++ [e])
      { s with
        lookup := update s.lookup (a1, a2) (some e)
        useLists := update useLists a2 (useLists a2 ++ [e]) }

def addEquality (s : Closure) (eq : Equation) : Option Closure := (s.enter eq).propagate

end Closure

inductive Call where
  | createNewVar
  | addEquality (eq : Equation)
  deriving DecidableEq, Repr

def exec (s : Closure) : Call → Option Closure
  | .createNewVar => some s.createNewVar
  | .addEquality eq => s.addEquality eq

def run (calls : List Call) : Option Closure := calls.foldlM exec .empty

def equations : List Call → List Equation
  | [] => []
  | .createNewVar :: calls => equations calls
  | .addEquality eq :: calls => eq :: equations calls

def vars : List Call → ℕ
  | [] => 0
  | .createNewVar :: calls => vars calls + 1
  | .addEquality _ :: calls => vars calls

def Equation.Within (n : ℕ) : Equation → Prop
  | .vars left right => left < n ∧ right < n
  | .app e => e.a1 < n ∧ e.a2 < n ∧ e.a < n

instance (n : ℕ) : (eq : Equation) → Decidable (eq.Within n)
  | .vars left right => inferInstanceAs (Decidable (left < n ∧ right < n))
  | .app e => inferInstanceAs (Decidable (e.a1 < n ∧ e.a2 < n ∧ e.a < n))

/-- Equations are about variables that have been created, `n` of them before the calls. -/
def Valid : ℕ → List Call → Prop
  | _, [] => True
  | n, .createNewVar :: calls => Valid (n + 1) calls
  | n, .addEquality eq :: calls => eq.Within n ∧ Valid n calls

/-- After every call, all accesses of which were in range, equality is what follows. -/
def Correct (calls : List Call) : Prop := ∀ done rest, calls = done ++ rest →
  ∃ s, run done = some s ∧ s.pending = [] ∧
    ∀ x < vars done, ∀ y < vars done, s.equal x y = true ↔ Follows (equations done) x y

/-- The variable that the equation identifies with the variable 0, as the second one of a pair. -/
def Joins (before : List Equation) (x : ℕ) : Equation → Prop
  | .vars left right => left = x ∧ right = 0
  | .app e => e.a = x ∧ ∃ f, .app f ∈ before ∧ f.a1 = e.a1 ∧ f.a2 = e.a2 ∧ f.a = 0

/-- No two different variables are equal, or the first equation that makes two of them equal joins
one to the variable 0 and no others ever become equal. -/
def OnlyZeroJoined (eqs : List Equation) : Prop :=
  ∀ before eq after, eqs = before ++ eq :: after → (∀ u v, Follows before u v → u = v) →
    (∃ u v, Follows (before ++ [eq]) u v ∧ u ≠ v) →
    ∃ x, Joins before x eq ∧ ∀ u v, Follows eqs u v → u = v ∨ (u, v) = (x, 0) ∨ (u, v) = (0, x)

section Calls

theorem equations_append (calls more : List Call) :
    equations (calls ++ more) = equations calls ++ equations more := by
  induction calls with
  | nil => rfl
  | cons c calls ih =>
    cases c with
    | createNewVar => exact ih
    | addEquality eq => exact congrArg (eq :: ·) ih

theorem vars_append (calls more : List Call) : vars (calls ++ more) = vars calls + vars more := by
  induction calls with
  | nil => exact (Nat.zero_add _).symm
  | cons c calls ih =>
    cases c with
    | createNewVar =>
      simp only [List.cons_append, vars, ih]
      omega
    | addEquality eq => exact ih

theorem valid_append {calls more : List Call} :
    Valid n (calls ++ more) ↔ Valid n calls ∧ Valid (n + vars calls) more := by
  induction calls generalizing n with
  | nil => simp [Valid, vars]
  | cons c calls ih =>
    cases c with
    | createNewVar =>
      simp only [List.cons_append, Valid, vars, ih]
      rw [Nat.add_right_comm, Nat.add_assoc]
    | addEquality eq => simp only [List.cons_append, Valid, vars, ih, and_assoc]

theorem run_concat {calls : List Call} (c : Call) :
    run (calls ++ [c]) = (run calls).bind fun s => exec s c := by
  rw [run, foldlM_append]
  refine congrArg _ (funext fun s => ?_)
  rw [foldlM_cons]
  cases exec s c <;> rfl

end Calls

section Joining

def Joined (rep : ℕ → ℕ) (pending : List Reason) : ℕ → ℕ → Prop :=
  Relation.EqvGen fun x y => rep x = rep y ∨ ∃ e ∈ pending, getReason e = (x, y)

variable {rep rep' : ℕ → ℕ} {pending pending' : List Reason} {x y : ℕ} {e : Reason}

theorem Joined.of_rep (h : rep x = rep y) : Joined rep pending x y := .rel _ _ (Or.inl h)

theorem Joined.of_pending (he : e ∈ pending) :
    Joined rep pending (getReason e).1 (getReason e).2 := .rel _ _ (Or.inr ⟨e, he, rfl⟩)

theorem Joined.mono (hrep : ∀ u v, rep u = rep v → rep' u = rep' v)
    (hpending : ∀ e ∈ pending, Joined rep' pending' (getReason e).1 (getReason e).2)
    (h : Joined rep pending x y) : Joined rep' pending' x y := by
  induction h with
  | rel u v h =>
    rcases h with h | ⟨e, he, heq⟩
    · exact .of_rep (hrep u v h)
    · have hjoined := hpending e he
      rw [heq] at hjoined
      exact hjoined
  | refl u => exact .refl u
  | symm _ _ _ ih => exact .symm _ _ ih
  | trans _ _ _ _ _ ih1 ih2 => exact .trans _ _ _ ih1 ih2

theorem Joined.rep_eq (h : Joined rep [] x y) : rep x = rep y := by
  induction h with
  | rel u v h =>
    rcases h with h | ⟨e, he, -⟩
    · exact h
    · cases he
  | refl u => rfl
  | symm _ _ _ ih => exact ih.symm
  | trans _ _ _ _ _ ih1 ih2 => exact ih1.trans ih2

/-- The representatives once `z` has been joined to the variable 0; none has if `z` is 0. -/
def label (z v : ℕ) : ℕ := if v = z then 0 else v

theorem label_zero : label 0 = id := by
  funext v
  rw [label]
  split_ifs with hv
  · exact hv.symm
  · rfl

theorem label_label (z v : ℕ) : label z (label z v) = label z v := by
  simp only [label]
  split_ifs <;> omega

theorem label_eq_iff_root (z x y : ℕ) : label z x = label z y ↔ root z x = root z y := by
  simp only [label, root]
  split_ifs <;> omega

theorem label_mono (a : ℕ) (h : label 0 x = label 0 y) : label a x = label a y := by
  rw [label_zero] at h
  exact congrArg (label a) h

theorem follows_of_label {eqs : List Equation} {z : ℕ} (hz : Follows eqs z 0)
    (h : label z x = label z y) : Follows eqs x y := by
  simp only [label] at h
  split_ifs at h with hx hy hy
  · rw [hx, hy]
    exact .refl z
  · rw [hx, ← h]
    exact hz
  · rw [hy, h]
    exact .symm hz
  · rw [h]
    exact .refl y

theorem Joins.follows {eqs : List Equation} {eq : Equation} (h : Joins eqs x eq) :
    Follows (eqs ++ [eq]) x 0 := by
  cases eq with
  | vars left right =>
    obtain ⟨rfl, rfl⟩ := h
    exact .vars (by simp)
  | app e =>
    obtain ⟨rfl, f, hf, h1, h2, hzero⟩ := h
    rw [← hzero]
    refine .app (by simp) (mem_append_left _ hf) ?_ ?_
    · rw [h1]
      exact .refl _
    · rw [h2]
      exact .refl _

theorem Joins.unique {eqs : List Equation} {eq : Equation} (h : Joins eqs x eq)
    (h' : Joins eqs y eq) : x = y := by
  cases eq <;> exact h.1.symm.trans h'.1

/-- The equations of a table are known, and their arguments are represented by the key. -/
def Keyed (eqs : List Equation) (z : ℕ) (table : ℕ × ℕ → Option VarFunEq) : Prop :=
  ∀ p q f, table (p, q) = some f → .app f ∈ eqs ∧ label z f.a1 = label z p ∧
    label z f.a2 = label z q

section Tables

variable {eqs : List Equation} {z : ℕ} {table : ℕ × ℕ → Option VarFunEq} {e f : VarFunEq}
  {k k' : ℕ × ℕ}

theorem lookup_kept (hnone : table k = none) (hf : table k' = some f) :
    update table k (some e) k' = some f := by
  rw [update_of_ne]
  · exact hf
  · rintro rfl
    rw [hnone] at hf
    cases hf

theorem mem_grown {uses : ℕ → List VarFunEq} (r : ℕ) {r' : ℕ} (h : f ∈ uses r') :
    f ∈ update uses r (uses r ++ [e]) r' := by
  rw [update_apply]
  split_ifs with heq
  · exact mem_append_left _ (heq ▸ h)
  · exact h

theorem Keyed.insert (h : Keyed eqs z table) (he : .app e ∈ eqs) :
    Keyed eqs z (update table (label z e.a1, label z e.a2) (some e)) := by
  intro p q f hf
  rw [update_apply] at hf
  split_ifs at hf with hpq
  · cases hf
    cases hpq
    exact ⟨he, (label_label _ _).symm, (label_label _ _).symm⟩
  · exact h p q f hf

theorem Keyed.follows (h : Keyed eqs z table) (hsound : Follows eqs z 0) (he : .app e ∈ eqs)
    (hf : table (label z e.a1, label z e.a2) = some f) : .app f ∈ eqs ∧ Follows eqs f.a e.a := by
  obtain ⟨hmem, h1, h2⟩ := h _ _ f hf
  rw [label_label] at h1 h2
  exact ⟨hmem, .app hmem he (follows_of_label hsound h1) (follows_of_label hsound h2)⟩

end Tables

end Joining

/-- The invariant of the calls and their rounds. Every equation is found in the table, up to what
is pending; the class lists and the lists of uses matter only until the first union. -/
structure Settled (eqs : List Equation) (z : ℕ) (s : Closure) : Prop where
  reps : s.representatives = label z
  forest : United s.size z s.proofForest
  within : ∀ eq ∈ eqs, eq.Within s.size
  listed : z = 0 → ∀ v < s.size, s.classList v = [v]
  used : z = 0 → ∀ p q f, s.lookup (p, q) = some f → f ∈ s.useLists p ∧ f ∈ s.useLists q
  uses : z = 0 → ∀ r, ∀ e ∈ s.useLists r, .app e ∈ eqs
  key : Keyed eqs z s.lookup
  found : ∀ e, .app e ∈ eqs → ∃ f, s.lookup (label z e.a1, label z e.a2) = some f ∧
    Joined (label z) s.pending f.a e.a
  vars : ∀ x y, .vars x y ∈ eqs → Joined (label z) s.pending x y
  pending : ∀ r ∈ s.pending, (getReason r).1 < s.size ∧ (getReason r).2 < s.size ∧
    Follows eqs (getReason r).1 (getReason r).2
  sound : Follows eqs z 0
  origin : z ≠ 0 → ∃ before eq after, eqs = before ++ eq :: after ∧
    (∀ u v, Follows before u v → u = v) ∧ Joins before z eq

section Invariant

open Closure

variable {eqs : List Equation} {z : ℕ} {s : Closure} {eq : Equation} {r : Reason}

theorem settled_empty : Settled [] 0 .empty where
  reps := label_zero.symm
  forest := united_empty
  within := by simp
  listed _ v hv := absurd hv (Nat.not_lt_zero v)
  used _ _ _ _ h := by cases h
  uses _ _ _ h := by cases h
  key _ _ _ h := by cases h
  found _ h := by cases h
  vars _ _ h := by cases h
  pending _ h := by cases h
  sound := .refl 0
  origin h := absurd rfl h

theorem Equation.Within.mono {n m : ℕ} (h : eq.Within n) (hnm : n ≤ m) : eq.Within m := by
  cases eq with
  | vars left right => exact ⟨h.1.trans_le hnm, h.2.trans_le hnm⟩
  | app e => exact ⟨h.1.trans_le hnm, h.2.1.trans_le hnm, h.2.2.trans_le hnm⟩

variable (h : Settled eqs z s)

include h

theorem Settled.createNewVar : Settled eqs z s.createNewVar :=
  { h with
    reps := by
      have hz := h.forest.within
      funext v
      simp only [Closure.createNewVar, h.reps, update_apply, label]
      split_ifs <;> omega
    forest := h.forest.newid
    within := fun eq heq => (h.within eq heq).mono (Nat.le_succ _)
    listed := fun hz v hv => by
      simp only [Closure.createNewVar, update_apply]
      split_ifs with hnew
      · rw [hnew]
      · exact h.listed hz v (Nat.lt_of_le_of_ne (Nat.le_of_lt_succ hv) hnew)
    pending := fun r hr => by
      obtain ⟨hfirst, hsecond, hfollows⟩ := h.pending r hr
      exact ⟨Nat.lt_succ_of_lt hfirst, Nat.lt_succ_of_lt hsecond, hfollows⟩ }

theorem Settled.clear
    (hall : ∀ r ∈ s.pending, label z (getReason r).1 = label z (getReason r).2) :
    Settled eqs z { s with pending := [] } :=
  { h with
    found := fun e he => by
      obtain ⟨f, hf, hjoined⟩ := h.found e he
      exact ⟨f, hf, hjoined.mono (fun _ _ heq => heq) fun r hr => .of_rep (hall r hr)⟩
    vars := fun x y hxy =>
      (h.vars x y hxy).mono (fun _ _ heq => heq) fun r hr => .of_rep (hall r hr)
    pending := fun r hr => by cases hr }

theorem Settled.equal_iff (hpending : s.pending = []) (x y : ℕ) :
    s.equal x y = true ↔ Follows eqs x y := by
  rw [equal, beq_iff_eq, h.reps]
  constructor
  · exact follows_of_label h.sound
  · intro hfollows
    refine hfollows.label_eq (fun u v huv => ?_) fun e f he hf h1 h2 => ?_
    · have hjoined := h.vars u v huv
      rw [hpending] at hjoined
      exact hjoined.rep_eq
    · obtain ⟨g, hg, hge⟩ := h.found e he
      obtain ⟨g', hg', hgf⟩ := h.found f hf
      rw [h1, h2, hg'] at hg
      cases hg
      rw [hpending] at hge hgf
      exact hge.rep_eq.symm.trans hgf.rep_eq

theorem Settled.trivial (hz : z = 0) (hpending : s.pending = []) (x y : ℕ)
    (hfollows : Follows eqs x y) : x = y := by
  have hequal := (h.equal_iff hpending x y).mpr hfollows
  rwa [equal, beq_iff_eq, h.reps, hz, label_zero] at hequal

/-- An equation is entered: the tables keep what they had and have a place for it, up to what is
pending now. -/
theorem Settled.append (hpending : s.pending = []) (heq : eq.Within s.size)
    {useLists : ℕ → List VarFunEq} {lookup : ℕ × ℕ → Option VarFunEq} {pending : List Reason}
    (hused : z = 0 → ∀ p q f, lookup (p, q) = some f → f ∈ useLists p ∧ f ∈ useLists q)
    (huses : z = 0 → ∀ r, ∀ e ∈ useLists r, .app e ∈ eqs ++ [eq])
    (hkey : Keyed (eqs ++ [eq]) z lookup) (hkept : ∀ k f, s.lookup k = some f → lookup k = some f)
    (hfound : ∀ e, .app e = eq → ∃ f, lookup (label z e.a1, label z e.a2) = some f ∧
      Joined (label z) pending f.a e.a)
    (hvars : ∀ x y, .vars x y = eq → Joined (label z) pending x y)
    (hreasons : ∀ r ∈ pending, (getReason r).1 < s.size ∧ (getReason r).2 < s.size ∧
      Follows (eqs ++ [eq]) (getReason r).1 (getReason r).2) :
    Settled (eqs ++ [eq]) z { s with representatives := label z, useLists, lookup, pending } := by
  have hold {x y} (hjoined : Joined (label z) s.pending x y) : Joined (label z) pending x y := by
    rw [hpending] at hjoined
    exact .of_rep hjoined.rep_eq
  refine ⟨rfl, h.forest, forall_mem_append.mpr ⟨h.within, forall_mem_singleton.mpr heq⟩,
    h.listed, hused, huses, hkey, fun e he => ?_, fun x y hxy => ?_, hreasons,
    h.sound.mono (subset_append_left _ _), fun hz => ?_⟩
  · rcases mem_append.mp he with he | he
    · obtain ⟨f, hf, hjoined⟩ := h.found e he
      exact ⟨f, hkept _ f hf, hold hjoined⟩
    · exact hfound e (mem_singleton.mp he)
  · rcases mem_append.mp hxy with hxy | hxy
    · exact hold (h.vars x y hxy)
    · exact hvars x y (mem_singleton.mp hxy)
  · obtain ⟨before, e, after, rfl, hjoins⟩ := h.origin hz
    exact ⟨before, e, after ++ [eq], by simp, hjoins⟩

theorem Settled.enter (hpending : s.pending = []) (heq : eq.Within s.size) :
    Settled (eqs ++ [eq]) z (s.enter eq) := by
  have hsub : eqs ⊆ eqs ++ [eq] := subset_append_left _ _
  have hlast : eq ∈ eqs ++ [eq] := by simp
  have hkey : Keyed (eqs ++ [eq]) z s.lookup :=
    fun p q f hf => ⟨hsub (h.key p q f hf).1, (h.key p q f hf).2⟩
  have huses : z = 0 → ∀ r, ∀ e ∈ s.useLists r, .app e ∈ eqs ++ [eq] :=
    fun hz r e he => hsub (h.uses hz r e he)
  cases eq with
  | vars left right =>
    simp only [Closure.enter, h.reps, hpending]
    refine h.append hpending heq h.used huses hkey (fun _ _ => id) nofun ?_ ?_
    · rintro x y ⟨⟩
      exact Joined.of_pending (e := .vars left right) mem_cons_self
    · exact forall_mem_singleton.mpr ⟨heq.1, heq.2, .vars hlast⟩
  | app e =>
    simp only [Closure.enter, h.reps, hpending]
    cases hlookup : s.lookup (label z e.a1, label z e.a2) with
    | some f =>
      obtain ⟨hf, hfollows⟩ := hkey.follows (h.sound.mono hsub) hlast hlookup
      have hwithin := forall_mem_append.mpr ⟨h.within, forall_mem_singleton.mpr heq⟩
      refine h.append hpending heq h.used huses hkey (fun _ _ => id) ?_ nofun ?_
      · rintro e' ⟨⟩
        exact ⟨f, hlookup, .symm _ _ (Joined.of_pending (e := .pair e f) mem_cons_self)⟩
      · exact forall_mem_singleton.mpr ⟨heq.2.2, (hwithin _ hf).2.2, .symm hfollows⟩
    | none =>
      refine h.append hpending heq (fun hz p q f hf => ?_) (fun hz r f hf => ?_)
        (hkey.insert hlast) (fun _ _ hf => lookup_kept hlookup hf) ?_ nofun (by simp)
      · simp only [update_apply] at hf
        split_ifs at hf with hpq
        · cases hf
          cases hpq
          exact ⟨mem_grown _ (by simp), by simp⟩
        · obtain ⟨hp, hq⟩ := h.used hz p q f hf
          exact ⟨mem_grown _ (mem_grown _ hp), mem_grown _ (mem_grown _ hq)⟩
      · rcases eq_or_ne f e with rfl | hfe
        · exact hlast
        · refine huses hz r f ?_
          simp only [update_apply] at hf
          split_ifs at hf <;> simp_all
      · rintro e' ⟨⟩
        exact ⟨e, by simp, .refl _⟩

end Invariant

section Merging

open Closure

variable {eqs : List Equation} {z a n k : ℕ} {s : Closure} {m : Moved} {e : VarFunEq}
  {table : ℕ × ℕ → Option VarFunEq} {done : List VarFunEq}

/-- The loop over the uses of the variable that is joined to 0. -/
structure Moving (eqs : List Equation) (a size : ℕ) (table : ℕ × ℕ → Option VarFunEq)
    (done : List VarFunEq) (m : Moved) : Prop where
  key : Keyed eqs a m.lookup
  kept : ∀ k f, table k = some f → m.lookup k = some f
  found : ∀ e ∈ done, ∃ f, m.lookup (label a e.a1, label a e.a2) = some f ∧
    Joined (label a) m.pending f.a e.a
  pending : ∀ r ∈ m.pending, (getReason r).1 < size ∧ (getReason r).2 < size ∧
    Follows eqs (getReason r).1 (getReason r).2
  length : m.pending.length ≤ done.length

theorem Moving.step (hsound : Follows eqs a 0) (hwithin : ∀ eq ∈ eqs, eq.Within n)
    (h : Moving eqs a n table done m) (he : .app e ∈ eqs) :
    Moving eqs a n table (done ++ [e]) (moveUse (label a) m e) := by
  rw [moveUse]
  cases hlookup : m.lookup (label a e.a1, label a e.a2) with
  | some f =>
    obtain ⟨hf, hfollows⟩ := h.key.follows hsound he hlookup
    refine ⟨h.key, h.kept, fun e' he' => ?_, ?_, by simpa using h.length⟩
    · rcases mem_append.mp he' with he' | he'
      · obtain ⟨f', hf', hjoined⟩ := h.found e' he'
        refine ⟨f', hf', hjoined.mono (fun _ _ heq => heq) fun r hr => ?_⟩
        exact .of_pending (mem_cons_of_mem _ hr)
      · cases mem_singleton.mp he'
        exact ⟨f, hlookup, Joined.of_pending (e := .pair f e) mem_cons_self⟩
    · rintro r (- | ⟨_, hr⟩)
      · exact ⟨(hwithin _ hf).2.2, (hwithin _ he).2.2, hfollows⟩
      · exact h.pending r hr
  | none =>
    dsimp only
    refine ⟨h.key.insert he, fun k f hk => lookup_kept hlookup (h.kept k f hk), fun e' he' => ?_,
      h.pending, ?_⟩
    · rcases mem_append.mp he' with he' | he'
      · obtain ⟨f', hf', hjoined⟩ := h.found e' he'
        exact ⟨f', lookup_kept hlookup hf', hjoined⟩
      · cases mem_singleton.mp he'
        exact ⟨e, update_self .., .refl _⟩
    · rw [length_append]
      exact Nat.le_add_right_of_le h.length

theorem moving_foldl (hsound : Follows eqs a 0) (hwithin : ∀ eq ∈ eqs, eq.Within n)
    (hkey : Keyed eqs a table) {todo uses : List VarFunEq} (htodo : ∀ e ∈ todo, .app e ∈ eqs) :
    Moving eqs a n table todo (todo.foldl (moveUse (label a)) ⟨table, [], uses⟩) := by
  induction todo using List.reverseRecOn with
  | nil => exact ⟨hkey, fun _ _ hk => hk, by simp, by simp, Nat.le_refl _⟩
  | append_singleton todo e ih =>
    obtain ⟨htodo, he⟩ := forall_mem_append.mp htodo
    rw [foldl_append]
    exact (ih htodo).step hsound hwithin (he e mem_cons_self)

theorem prepare_args (s : Closure) (a b : ℕ) :
    (s.prepare a b).a = a ∧ (s.prepare a b).b = b ∨
      (s.prepare a b).a = b ∧ (s.prepare a b).b = a := by
  simp only [prepare]
  split_ifs
  · exact Or.inr ⟨rfl, rfl⟩
  · exact Or.inl ⟨rfl, rfl⟩

theorem round_none (hreps : s.representatives = label z) (hforest : United s.size z s.proofForest)
    {r : Reason} (ha : (getReason r).1 < s.size) (hb : (getReason r).2 < s.size)
    (hne : label z (getReason r).1 ≠ label z (getReason r).2)
    (hfirst : z = 0 → (s.prepare (getReason r).1 (getReason r).2).b ≠ 0) (pending : List Reason) :
    { s with pending }.round r = none := by
  have hroot := mt (label_eq_iff_root z _ _).mpr hne
  have hrep : s.representatives (getReason r).1 ≠ s.representatives (getReason r).2 := hreps ▸ hne
  simp only [Closure.round, if_neg hrep]
  change (s.proofForest.setUnion (s.prepare _ _).a (s.prepare _ _).b).bind _ = none
  rcases prepare_args s (getReason r).1 (getReason r).2 with ⟨h1, h2⟩ | ⟨h1, h2⟩
  · rw [h1, h2, hforest.setUnion_none ha hb hroot (h2 ▸ hfirst), Option.bind_none]
  · rw [h1, h2, hforest.setUnion_none hb ha (Ne.symm hroot) (h2 ▸ hfirst), Option.bind_none]

/-- Once a variable has been joined to 0, the rounds only find what is equal already, or fail. -/
theorem drain (hreps : s.representatives = label z) (hforest : United s.size z s.proofForest)
    (hz : z ≠ 0) (hpending : ∀ r ∈ s.pending, (getReason r).1 < s.size ∧ (getReason r).2 < s.size)
    (hk : s.pending.length < k) : loop body k (some s) = some
      (if ∀ r ∈ s.pending, label z (getReason r).1 = label z (getReason r).2 then
        some { s with pending := [] } else none) := by
  induction hlist : s.pending generalizing s k with
  | nil =>
    obtain ⟨k, rfl⟩ : ∃ j, k = j + 1 := ⟨k - 1, by omega⟩
    have hsame : { s with pending := [] } = s := by rw [← hlist]
    rw [loop, body, hlist, if_pos (by simp), hsame]
  | cons r rest ih =>
    rw [hlist] at hpending hk
    obtain ⟨⟨ha, hb⟩, hrest⟩ := forall_mem_cons.mp hpending
    obtain ⟨k, rfl⟩ : ∃ j, k = j + 1 := ⟨k - 1, by omega⟩
    rw [loop, body, hlist]
    simp only [forall_mem_cons]
    by_cases hequal : label z (getReason r).1 = label z (getReason r).2
    · have hnext := ih (s := { s with pending := rest }) hreps hforest hrest (by simpa using hk) rfl
      simp only [Closure.round, hreps, hequal, true_and, if_true]
      rw [hreps] at hnext
      exact hnext
    · rw [round_none hreps hforest ha hb hequal fun h => absurd h hz]
      simp only [hequal, false_and, if_false]
      cases k with
      | zero => simp at hk
      | succ k => rfl

theorem Settled.join {r : Reason} (h : Settled eqs 0 s) (hpending : s.pending = [r])
    (ha : (getReason r).1 ≠ 0) (hb : (getReason r).2 = 0)
    (horigin : ∃ before eq after, eqs = before ++ eq :: after ∧
      (∀ u v, Follows before u v → u = v) ∧ Joins before (getReason r).1 eq) :
    ∃ t, { s with pending := [] }.round r = some t ∧ t.size = s.size ∧
      Settled eqs (getReason r).1 t ∧ t.pending.length ≤ (s.useLists (getReason r).1).length := by
  obtain ⟨hsize, -, hfollows⟩ := h.pending r (by simp [hpending])
  have hreason : getReason r = ((getReason r).1, 0) := Prod.ext rfl hb
  rw [hb] at hfollows
  generalize (getReason r).1 = a at *
  have hreps : s.representatives = id := h.reps.trans label_zero
  have hlisted := h.listed rfl
  have hzero := hlisted 0 (Nat.zero_lt_of_lt hsize)
  obtain ⟨d, hd, hunited⟩ := h.forest.setUnion_zero rfl hsize ha
  have hmoving := @moving_foldl eqs a s.size s.lookup hfollows h.within
    (fun p q f hf => ⟨(h.key p q f hf).1, label_mono a (h.key p q f hf).2.1,
      label_mono a (h.key p q f hf).2.2⟩) (s.useLists a) (s.useLists 0) (h.uses rfl a)
  have hjoined : ∀ {x y pending}, Joined (label 0) s.pending x y →
      Joined (label a) pending x y := by
    intro x y pending hxy
    refine hxy.mono (fun _ _ => label_mono a) fun e he => .of_rep ?_
    rw [hpending, mem_singleton] at he
    rw [he, hreason]
    simp [label]
  have hupdate : update id a 0 = label a := by
    funext v
    simp [update_apply, label]
  refine ⟨{ s with
    representatives := label a
    classList := update (update s.classList 0 ([0] ++ [a])) a []
    pending := ((s.useLists a).foldl (moveUse (label a)) ⟨s.lookup, [], s.useLists 0⟩).pending
    useLists := update (update s.useLists 0 ((s.useLists a).foldl (moveUse (label a))
      ⟨s.lookup, [], s.useLists 0⟩).uses) a []
    lookup := ((s.useLists a).foldl (moveUse (label a)) ⟨s.lookup, [], s.useLists 0⟩).lookup
    proofForest := d }, ?_, rfl,
    ⟨rfl, hunited, h.within, fun h => absurd h ha, fun h => absurd h ha,
    fun h => absurd h ha, hmoving.key, fun e he => ?_, fun x y hxy => hjoined (h.vars x y hxy),
    hmoving.pending, hfollows, fun _ => horigin⟩, hmoving.length⟩
  · have hprepare : { s with pending := [] }.prepare a 0 = ⟨a, 0, a, 0, a, 0, s.classList⟩ := by
      simp [prepare, hreps, hlisted a hsize, hzero]
    simp only [Closure.round, hreason, hreps, id_eq, if_neg ha]
    rw [hreps] at hprepare
    rw [hprepare, Closure.merge, hd]
    simp only [Option.bind_eq_bind, Option.bind_some, Int.natCast_nonneg, if_true,
      hlisted a hsize, hzero, foldl_cons, foldl_nil, hupdate]
    rfl
  · obtain ⟨f, hf, hfe⟩ := h.found e he
    rw [label_zero] at hf
    obtain ⟨-, h1, h2⟩ := h.key _ _ f hf
    rw [label_zero] at h1 h2
    by_cases huse : e.a1 = a ∨ e.a2 = a
    · have hmem : f ∈ s.useLists a := by
        obtain ⟨hp, hq⟩ := h.used rfl _ _ f hf
        rcases huse with huse | huse
        · exact huse ▸ hp
        · exact huse ▸ hq
      obtain ⟨g, hg, hgf⟩ := hmoving.found f hmem
      simp only [id_eq] at h1 h2
      rw [h1, h2] at hg
      exact ⟨g, hg, .trans _ _ _ hgf (hjoined hfe)⟩
    · push Not at huse
      refine ⟨f, hmoving.kept _ f ?_, hjoined hfe⟩
      simpa [label, huse.1, huse.2] using hf

end Merging

section Equations

open Closure

variable {eqs : List Equation} {z : ℕ} {s : Closure} {eq : Equation} {r : Reason}

theorem enter_pending (hpending : s.pending = []) :
    (s.enter eq).pending = [] ∨ ∃ r, (s.enter eq).pending = [r] := by
  cases eq with
  | vars left right => exact Or.inr ⟨.vars left right, by simp [enter, hpending]⟩
  | app e =>
    simp only [enter]
    split
    · exact Or.inr ⟨_, by rw [hpending]⟩
    · exact Or.inl hpending

theorem enter_size (s : Closure) (eq : Equation) : (s.enter eq).size = s.size := by
  cases eq with
  | vars left right => rfl
  | app e =>
    simp only [enter]
    split <;> rfl

theorem propagate_nil (hpending : s.pending = []) : s.propagate = some s := by
  rw [propagate, loop, body, hpending]
  rfl

theorem propagate_single (hpending : s.pending = [r]) : s.propagate =
    (loop body (∑ r ∈ Finset.range s.size, (s.useLists r).length + 1)
      ({ s with pending := [] }.round r)).join := by
  rw [propagate, work, hpending, length_singleton, Nat.add_comm 1, loop, body, hpending]

theorem Settled.joins_iff (h : Settled eqs 0 s) (hpending : s.pending = [])
    (hr : (s.enter eq).pending = [r]) :
    Joins eqs x eq ↔ x = (getReason r).1 ∧ (getReason r).2 = 0 := by
  cases eq with
  | vars left right =>
    simp only [Closure.enter, hpending, cons.injEq, and_true] at hr
    subst hr
    exact and_congr_left' eq_comm
  | app e =>
    simp only [Closure.enter, h.reps, label_zero, id_eq] at hr
    cases hlookup : s.lookup (e.a1, e.a2) with
    | none =>
      simp only [hlookup, hpending] at hr
      cases hr
    | some f =>
      simp only [hlookup, hpending, cons.injEq, and_true] at hr
      subst hr
      obtain ⟨hf, h1, h2⟩ := h.key _ _ f hlookup
      rw [label_zero] at h1 h2
      refine and_congr eq_comm ⟨?_, fun hzero => ⟨f, hf, h1, h2, hzero⟩⟩
      rintro ⟨g, hg, h1, h2, hzero⟩
      obtain ⟨f', hf', hjoined⟩ := h.found g hg
      rw [label_zero, id_eq, id_eq, h1, h2, hlookup] at hf'
      cases hf'
      rw [hpending, label_zero] at hjoined
      exact hjoined.rep_eq.trans hzero

theorem Settled.not_onlyZeroJoined (h : Settled eqs z s) (hz : z ≠ 0) (hr : r ∈ s.pending)
    (hne : label z (getReason r).1 ≠ label z (getReason r).2) : ¬OnlyZeroJoined eqs := by
  intro honly
  obtain ⟨before, eq, after, rfl, hbefore, hjoins⟩ := h.origin hz
  obtain ⟨x, hx, hall⟩ := honly before eq after rfl hbefore ⟨z, 0, hjoins.follows, hz⟩
  cases hx.unique hjoins
  rcases hall _ _ (h.pending r hr).2.2 with heq | heq | heq
  · exact hne (congrArg (label z) heq)
  all_goals
    rw [Prod.mk.injEq] at heq
    exact hne (by simp [heq.1, heq.2, label])

/-- An equation is settled, or it fails because it makes other variables equal than 0 and one
more. -/
theorem Settled.addEquality (h : Settled eqs z s) (hpending : s.pending = [])
    (heq : eq.Within s.size) :
    (∃ t z', s.addEquality eq = some t ∧ t.size = s.size ∧ t.pending = [] ∧
      Settled (eqs ++ [eq]) z' t) ∨
    (s.addEquality eq = none ∧ ¬OnlyZeroJoined (eqs ++ [eq])) := by
  have henter := h.enter hpending heq
  have hsize := enter_size s eq
  rw [Closure.addEquality]
  rcases @enter_pending s eq hpending with hnil | ⟨r, hr⟩
  · exact Or.inl ⟨_, z, propagate_nil hnil, hsize, hnil, henter⟩
  obtain ⟨hfirst, hsecond, hfollows⟩ := henter.pending r (by simp [hr])
  rw [propagate_single hr]
  by_cases hequal : label z (getReason r).1 = label z (getReason r).2
  · refine Or.inl ⟨{ s.enter eq with pending := [] }, z, ?_, hsize, rfl,
      henter.clear (by simpa [hr] using hequal)⟩
    simp only [Closure.round, henter.reps, if_pos hequal]
    rw [loop, body]
    rfl
  by_cases hz : z = 0
  · subst hz
    have htrivial := h.trivial rfl hpending
    have hdiffer : (getReason r).1 ≠ (getReason r).2 := fun h => hequal (congrArg _ h)
    by_cases hb : (getReason r).2 = 0
    · -- the first union is made, and what it entails is pending
      have hjoins := (h.joins_iff hpending hr).mpr ⟨rfl, hb⟩
      obtain ⟨t, ht, htsize, hsettled, hlength⟩ := henter.join hr (hb ▸ hdiffer) hb
        ⟨eqs, eq, [], rfl, htrivial, hjoins⟩
      have hbound : t.pending.length <
          ∑ r ∈ Finset.range (s.enter eq).size, ((s.enter eq).useLists r).length + 1 :=
        Nat.lt_succ_of_le (hlength.trans (Finset.single_le_sum (f := fun r =>
          ((s.enter eq).useLists r).length) (fun _ _ => Nat.zero_le _)
            (Finset.mem_range.mpr hfirst)))
      have hdrain := drain hsettled.reps hsettled.forest (hb ▸ hdiffer)
        (fun r hr => ⟨(hsettled.pending r hr).1, (hsettled.pending r hr).2.1⟩) hbound
      rw [ht, hdrain]
      split_ifs with hall
      · exact Or.inl ⟨{ t with pending := [] }, _, rfl, htsize.trans hsize, rfl,
          hsettled.clear hall⟩
      · push Not at hall
        obtain ⟨e, he, hne⟩ := hall
        exact Or.inr ⟨rfl, hsettled.not_onlyZeroJoined (hb ▸ hdiffer) he hne⟩
    · refine Or.inr ⟨?_, fun honly => ?_⟩
      · have hlisted := henter.listed rfl
        rw [round_none henter.reps henter.forest hfirst hsecond hequal]
        · rfl
        · simpa [prepare, henter.reps, label_zero, hlisted _ hfirst, hlisted _ hsecond] using hb
      · obtain ⟨x, hx, -⟩ := honly eqs eq [] rfl htrivial ⟨_, _, hfollows, hdiffer⟩
        exact hb ((h.joins_iff hpending hr).mp hx).2
  · rw [round_none henter.reps henter.forest hfirst hsecond hequal fun h => absurd h hz]
    exact Or.inr ⟨rfl, henter.not_onlyZeroJoined hz (by simp [hr]) hequal⟩

theorem Settled.onlyZeroJoined (h : Settled eqs z s) (hpending : s.pending = []) :
    OnlyZeroJoined eqs := by
  rintro before eq after rfl hbefore ⟨u, v, hfollows, hne⟩
  have hmore : Follows (before ++ eq :: after) u v := hfollows.mono (by simp)
  have hz : z ≠ 0 := fun hz => hne (h.trivial hz hpending u v hmore)
  obtain ⟨before', eq', after', hsplit, hbefore', hjoins⟩ := h.origin hz
  -- both prefixes are the longest one behind which no two variables are equal
  have hsame : before = before' ∧ eq = eq' := by
    rcases append_eq_append_iff.mp hsplit with ⟨as, rfl, heq⟩ | ⟨bs, rfl, heq⟩
    · cases as with
      | nil =>
        cases heq
        exact ⟨(append_nil _).symm, rfl⟩
      | cons e as =>
        cases heq
        exact absurd (hbefore' u v (hfollows.mono (by simp))) hne
    · cases bs with
      | nil =>
        cases heq
        exact ⟨append_nil _, rfl⟩
      | cons e bs =>
        cases heq
        exact absurd (hbefore z 0 (hjoins.follows.mono (by simp))) hz
  obtain ⟨rfl, rfl⟩ := hsame
  refine ⟨z, hjoins, fun x y hxy => ?_⟩
  have hequal := (h.equal_iff hpending x y).mpr hxy
  rw [equal, beq_iff_eq, h.reps] at hequal
  simp only [label] at hequal
  split_ifs at hequal <;> simp_all

theorem OnlyZeroJoined.of_append {more : List Equation} (h : OnlyZeroJoined (eqs ++ more)) :
    OnlyZeroJoined eqs := by
  rintro before eq after rfl hbefore hdiffer
  obtain ⟨x, hx, hall⟩ := h before eq (after ++ more) (by simp) hbefore hdiffer
  exact ⟨x, hx, fun u v hfollows => hall u v (hfollows.mono (subset_append_left _ _))⟩

theorem run_cases {calls : List Call} (hvalid : Valid 0 calls) :
    (∃ s z, run calls = some s ∧ s.size = vars calls ∧ s.pending = [] ∧
      Settled (equations calls) z s) ∨
    (run calls = none ∧ ¬OnlyZeroJoined (equations calls)) := by
  induction calls using List.reverseRecOn with
  | nil => exact Or.inl ⟨.empty, 0, rfl, rfl, rfl, settled_empty⟩
  | append_singleton calls c ih =>
    obtain ⟨hvalid, hc⟩ := valid_append.mp hvalid
    rw [run_concat, equations_append, vars_append]
    rcases ih hvalid with ⟨s, z, hs, hsize, hpending, h⟩ | ⟨hnone, hnot⟩
    · rw [hs, Option.bind_some]
      cases c with
      | createNewVar =>
        rw [show equations [.createNewVar] = [] from rfl, append_nil]
        exact Or.inl ⟨_, z, rfl, congrArg (· + 1) hsize, hpending, h.createNewVar⟩
      | addEquality eq =>
        have heq : eq.Within s.size := by
          rw [hsize, ← Nat.zero_add (vars calls)]
          exact hc.1
        rcases h.addEquality hpending heq with ⟨t, z', ht, htsize, hnil, hsettled⟩ | hfails
        · exact Or.inl ⟨t, z', ht, htsize.trans hsize, hnil, hsettled⟩
        · exact Or.inr hfails
    · rw [hnone, Option.bind_none]
      exact Or.inr ⟨rfl, fun honly => hnot honly.of_append⟩

/-- All accesses are in range and equality is what follows, after every call, exactly if the
equations make no variables equal but 0 and one more, which is the left side when that happens. -/
theorem closure_correct_iff (calls : List Call) (hvalid : Valid 0 calls) :
    Correct calls ↔ OnlyZeroJoined (equations calls) := by
  constructor
  · intro hcorrect
    obtain ⟨s, hs, -⟩ := hcorrect calls [] (append_nil _).symm
    rcases run_cases hvalid with ⟨t, z, -, -, hpending, h⟩ | ⟨hnone, -⟩
    · exact h.onlyZeroJoined hpending
    · rw [hnone] at hs
      cases hs
  · rintro honly done rest rfl
    rw [equations_append] at honly
    rcases run_cases (valid_append.mp hvalid).1 with ⟨s, z, hs, -, hpending, h⟩ | ⟨-, hnot⟩
    · exact ⟨s, hs, hpending, fun x _ y _ => h.equal_iff hpending x y⟩
    · exact absurd honly.of_append hnot

end Equations

namespace SameArguments

/-- `f(1, 2) = 0` and `f(1, 2) = 3`: the variable 3 is joined to 0. -/
def calls : List Call :=
  [.createNewVar, .createNewVar, .createNewVar, .createNewVar,
    .addEquality (.app ⟨1, 2, 0⟩), .addEquality (.app ⟨1, 2, 3⟩)]

theorem valid : Valid 0 calls := by simp [calls, Valid, Equation.Within]

end SameArguments

theorem congruent_values_equal : Valid 0 SameArguments.calls ∧ Correct SameArguments.calls ∧
    (run SameArguments.calls).map (fun s => s.equal 0 3) = some true := by
  refine ⟨SameArguments.valid, (closure_correct_iff _ SameArguments.valid).mpr ?_,
    by decide +kernel⟩
  intro before eq after hsplit hbefore hdiffer
  have hlabel : ∀ u v, Follows (equations SameArguments.calls) u v → label 3 u = label 3 v := by
    intro u v hfollows
    refine hfollows.label_eq (fun _ _ hvars => by simp [SameArguments.calls, equations] at hvars) ?_
    intro e f he hf _ _
    simp only [SameArguments.calls, equations, mem_cons, Equation.app.injEq, not_mem_nil,
      or_false] at he hf
    rcases he with rfl | rfl <;> rcases hf with rfl | rfl <;> rfl
  have hjoins : Joins before 3 eq := by
    rcases before with _ | ⟨_, _ | ⟨_, before⟩⟩
    · cases hsplit
      obtain ⟨u, v, hfollows, hne⟩ := hdiffer
      refine absurd (@Follows.label_eq _ u v id hfollows (by simp) ?_) hne
      intro e f he hf _ _
      simp only [nil_append, mem_singleton, Equation.app.injEq] at he hf
      rw [he, hf]
    · cases hsplit
      exact ⟨rfl, ⟨1, 2, 0⟩, by simp, rfl, rfl, rfl⟩
    · cases before <;> cases hsplit
  refine ⟨3, hjoins, fun u v hfollows => ?_⟩
  have hequal := hlabel u v hfollows
  simp only [label] at hequal
  split_ifs at hequal <;> simp_all

namespace OneEquation

def calls : List Call := [.createNewVar, .createNewVar, .addEquality (.vars 0 1)]

end OneEquation

/-- The first equation `0 = 1` already writes in front of the vector of the proof forest. -/
theorem first_equation_out_of_range : Valid 0 OneEquation.calls ∧ run OneEquation.calls = none ∧
    ¬Correct OneEquation.calls := by
  have hvalid : Valid 0 OneEquation.calls := by simp [OneEquation.calls, Valid, Equation.Within]
  have hnone : run OneEquation.calls = none := by decide +kernel
  refine ⟨hvalid, hnone, fun hcorrect => ?_⟩
  obtain ⟨s, hs, -⟩ := hcorrect OneEquation.calls [] (append_nil _).symm
  rw [hnone] at hs
  cases hs

end CongruenceClosure
