import Mathlib.Data.List.Basic

/-!
# Value sets in selects

`HandleValueSetCalls` splits a parser state with a value set among its cases into three. The first
state does not lead to the second one when it has cases of its own, and without a value set the
search for a second one starts behind the end of the cases.
-/
namespace ValueSets

open List

variable {κ ν : Type}

inductive Keyset (κ : Type) where
  | keys (contains : κ → Bool)
  | valueSet
  | boolLiteral (value : Bool)
  | default

structure SelectCase (κ ν : Type) where
  keyset : Keyset κ
  state : ν

/-- The answer of the query decides the value set; the query also stores it in the variable that
boolean literals are compared with. -/
def Keyset.contains (key : κ) (answer : Bool) : Keyset κ → Bool
  | .keys contains => contains key
  | .valueSet => answer
  | .boolLiteral value => answer == value
  | .default => true

def Keyset.isvs : Keyset κ → Bool
  | .valueSet => true
  | _ => false

/-- The first case that contains the key decides; `reject` if there is none. -/
def next (reject : ν) (key : κ) (answer : Bool) : List (SelectCase κ ν) → ν
  | [] => reject
  | c :: cases => if c.keyset.contains key answer then c.state else next reject key answer cases

/-- At most one case is a value set, and the last one is the default. -/
structure SelectExpression (κ ν : Type) where
  selectCases : List (SelectCase κ ν)
  single : selectCases.countP (·.keyset.isvs) ≤ 1
  defaultLast : ∃ front state, selectCases = front ++ [⟨.default, state⟩]

section Model

/-- A state of the parser, or one of the two that are added. -/
inductive Name (ν : Type) where
  | old (name : ν)
  | state2
  | state3

/-- The cases of the three states; a path is a select with the default only. -/
structure States (κ ν : Type) where
  state1 : List (SelectCase κ (Name ν))
  state2 : List (SelectCase κ (Name ν))
  state3 : List (SelectCase κ (Name ν))

def SelectCase.old (c : SelectCase κ ν) : SelectCase κ (Name ν) := ⟨c.keyset, .old c.state⟩

def split (before : List (SelectCase κ ν)) (mytrans : ν) (after : List (SelectCase κ ν)) :
    States κ ν where
  state1 := if before.isEmpty then [⟨.default, .state2⟩] else before.map SelectCase.old
  state2 := [⟨.boolLiteral true, .old mytrans⟩, ⟨.default, .state3⟩]
  state3 := after.map SelectCase.old

/-- `none` if a check fails or the cases are read behind their end. -/
def handleValueSetCalls (cases : List (SelectCase κ ν)) : Option (States κ ν) :=
  match cases.dropWhile fun c => !c.keyset.isvs with
  | [] => none
  | c :: after =>
    if after.any (·.keyset.isvs) || after.isEmpty then none
    else some (split (cases.takeWhile fun c => !c.keyset.isvs) c.state after)

/-- The added states are passed through, one after the other. -/
def States.leave (s : States κ ν) (reject : ν) (key : κ) (answer : Bool) : ℕ → Name ν → ν
  | _, .old name => name
  | 0, _ => reject
  | n + 1, .state2 => s.leave reject key answer n (next (.old reject) key answer s.state2)
  | n + 1, .state3 => s.leave reject key answer n (next (.old reject) key answer s.state3)

def States.move (s : States κ ν) (reject : ν) (key : κ) (answer : Bool) : ν :=
  s.leave reject key answer 2 (next (.old reject) key answer s.state1)

end Model

variable {reject : ν} {key : κ} {answer : Bool} {before after : List (SelectCase κ ν)}
  {c : SelectCase κ ν}

theorem next_append : next reject key answer (before ++ after) =
    if ∃ c ∈ before, c.keyset.contains key answer = true then next reject key answer before
    else next reject key answer after := by
  induction before with
  | nil => simp
  | cons c before ih =>
    rw [cons_append, next, next, ih]
    by_cases hc : c.keyset.contains key answer = true
    · simp [hc]
    · simp [hc]

theorem next_old (cases : List (SelectCase κ ν)) :
    next (.old reject) key answer (cases.map SelectCase.old) =
      .old (next reject key answer cases) := by
  induction cases with
  | nil => rfl
  | cons c cases ih =>
    rw [map_cons, next, next, ih, SelectCase.old]
    exact (apply_ite Name.old _ _ _).symm

theorem move_split {mytrans : ν} : (split before mytrans after).move reject key answer =
    if before = [] then (if answer then mytrans else next reject key answer after)
    else next reject key answer before := by
  cases before with
  | cons c before =>
    show (split (c :: before) mytrans after).leave reject key answer 2
      (next (.old reject) key answer ((c :: before).map SelectCase.old)) = _
    rw [next_old]
    rfl
  | nil =>
    cases answer with
    | true => rfl
    | false =>
      show (split [] mytrans after).leave reject key false 0
        (next (.old reject) key false (after.map SelectCase.old)) = _
      rw [next_old]
      rfl

theorem SelectExpression.handle_eq (s : SelectExpression κ ν)
    (h : s.selectCases = before ++ c :: after)
    (hc : c.keyset.isvs = true) :
    handleValueSetCalls s.selectCases = some (split before c.state after) := by
  have hcount := s.single
  rw [h, countP_append, countP_cons, if_pos hc] at hcount
  have hnone : before.countP (·.keyset.isvs) = 0 := by omega
  have hbefore : ∀ d ∈ before, (!d.keyset.isvs) = true := fun d hd => by
    simpa using countP_eq_zero.mp hnone d hd
  have hafter : after.any (·.keyset.isvs) = false := any_eq_false.mpr (countP_eq_zero.mp (by omega))
  have hmore : after.isEmpty = false := by
    obtain ⟨front, last, hlast⟩ := s.defaultLast
    cases after with
    | cons d after => rfl
    | nil =>
      have hsame := (append_inj' (h.symm.trans hlast) rfl).2
      cases hsame
      cases hc
  have hdrop : s.selectCases.dropWhile (fun c => !c.keyset.isvs) = c :: after := by
    rw [h, dropWhile_append_of_pos hbefore, dropWhile_cons_of_neg (by simp [hc])]
  have htake : s.selectCases.takeWhile (fun c => !c.keyset.isvs) = before := by
    rw [h, takeWhile_append_of_pos hbefore, takeWhile_cons_of_neg (by simp [hc]), append_nil]
  simp only [handleValueSetCalls, hdrop, htake, hafter, hmore, Bool.or_self,
    Bool.false_eq_true, if_false]

/-- The rewriting succeeds and keeps the next state exactly if there is a value set, and no cases
stand in front of it, or one of them contains the key, or the parser rejects anyway. -/
theorem handle_preserves_iff (s : SelectExpression κ ν) (reject : ν) (key : κ) (answer : Bool) :
    (∃ r, handleValueSetCalls s.selectCases = some r ∧
      r.move reject key answer = next reject key answer s.selectCases) ↔
      ∃ before c after, s.selectCases = before ++ c :: after ∧ c.keyset.isvs = true ∧
        (before = [] ∨ (∃ d ∈ before, d.keyset.contains key answer = true) ∨
          next reject key answer s.selectCases = reject) := by
  have hmove : ∀ before c after, s.selectCases = before ++ c :: after → c.keyset.isvs = true →
      ((split before c.state after).move reject key answer = next reject key answer s.selectCases ↔
        before = [] ∨ (∃ d ∈ before, d.keyset.contains key answer = true) ∨
          next reject key answer s.selectCases = reject) := by
    intro before c after hsplit hc
    have hvs : next reject key answer (c :: after) =
        if answer then c.state else next reject key answer after := by
      obtain ⟨keyset, state⟩ := c
      cases keyset with
      | valueSet => rfl
      | keys contains | boolLiteral value | default => cases hc
    have hnext : next reject key answer s.selectCases = _ := hsplit ▸ next_append
    rw [move_split, hnext, hvs]
    by_cases hempty : before = []
    · simp [hempty]
    · by_cases hfound : ∃ d ∈ before, d.keyset.contains key answer = true
      · simp [hempty, hfound]
      · have hreject : next reject key answer before = reject := by
          rw [← append_nil before, next_append, if_neg hfound]
          rfl
        simp only [hempty, hfound, hreject, if_false, false_or]
        exact eq_comm
  constructor
  · rintro ⟨r, hr, hsame⟩
    cases hdrop : s.selectCases.dropWhile fun c => !c.keyset.isvs with
    | nil => simp [handleValueSetCalls, hdrop] at hr
    | cons c after =>
      have hsplit :=
        (takeWhile_append_dropWhile (p := fun c => !c.keyset.isvs) (l := s.selectCases)).symm
      rw [hdrop] at hsplit
      have hc : c.keyset.isvs = true := by
        have hhead := head?_dropWhile_not (fun c => !c.keyset.isvs) s.selectCases
        rw [hdrop] at hhead
        simpa using hhead
      rw [s.handle_eq hsplit hc] at hr
      cases hr
      exact ⟨_, c, after, hsplit, hc, (hmove _ c after hsplit hc).mp hsame⟩
  · rintro ⟨before, c, after, hsplit, hc, h⟩
    exact ⟨_, s.handle_eq hsplit hc, (hmove before c after hsplit hc).mpr h⟩

/-- One case in front of the value set. -/
def selection : SelectExpression Char ℕ where
  selectCases := [⟨.keys (· == 'a'), 1⟩, ⟨.valueSet, 2⟩, ⟨.default, 3⟩]
  single := by decide
  defaultLast := ⟨[⟨.keys (· == 'a'), 1⟩, ⟨.valueSet, 2⟩], 3, rfl⟩

theorem value_set_not_asked : ∃ r, handleValueSetCalls selection.selectCases = some r ∧
    r.move 0 'b' true = 0 ∧ next 0 'b' true selection.selectCases = 2 :=
  ⟨_, rfl, rfl, rfl⟩

end ValueSets
