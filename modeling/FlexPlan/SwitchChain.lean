import Mathlib.Data.List.Basic

/-!
# Switches on the action that a table ran

A switch on `t.apply().action_run` becomes a chain of conditions on the action. A label
without a statement belongs to the next statement of the switch, but in the chain it gets an empty
one.
-/
namespace SwitchChain

open List

variable {A S : Type} [DecidableEq A]

inductive Label (A : Type) where
  | path (action : A)
  | default
  deriving DecidableEq

structure SwitchCase (A S : Type) where
  label : Label A
  statement : Option S

/-- Labels are distinct, and the default label is the last one. -/
structure SwitchStatement (A S : Type) where
  cases : List (SwitchCase A S)
  distinct : (cases.map SwitchCase.label).Nodup
  defaultLast : .default ∉ cases.dropLast.map SwitchCase.label

/-- A block of the switch, if there is one, or a condition on the action. -/
inductive Chain (A S : Type) where
  | block (statement : Option S)
  | ifStatement (action : A) (ifTrue : Option S) (ifFalse : Chain A S)

section Model

def defaultBlock (last : Chain A S) (cs : SwitchCase A S) : Chain A S :=
  if cs.label = .default then .block cs.statement else last

def wrap (last : Chain A S) (cs : SwitchCase A S) : Chain A S :=
  match cs.label with
  | .path a => .ifStatement a cs.statement last
  | .default => last

def chain (cases : List (SwitchCase A S)) : Chain A S :=
  cases.foldl wrap (cases.foldl defaultBlock (.block none))

end Model

section Specification

/-- The block that runs. -/
def Chain.execute (action : A) : Chain A S → Option S
  | .block statement => statement
  | .ifStatement a ifTrue ifFalse => if action = a then ifTrue else ifFalse.execute action

/-- The first statement from the label on. -/
def blockAt (label : Label A) : List (SwitchCase A S) → Option S
  | [] => none
  | c :: cases =>
    if c.label = label then (c :: cases).findSome? SwitchCase.statement else blockAt label cases

def select (cases : List (SwitchCase A S)) (action : A) : Option S :=
  if .path action ∈ cases.map SwitchCase.label then blockAt
    (.path action) cases else blockAt .default cases

end Specification

section Chains

variable {action : A} {cases before after : List (SwitchCase A S)} {statement : Option S}

theorem execute_foldl_wrap (h : Label.path action ∉ cases.map SwitchCase.label) (last : Chain A S) :
    (cases.foldl wrap last).execute action = last.execute action := by
  induction cases generalizing last with
  | nil => rfl
  | cons c cases ih =>
    rw [map_cons, mem_cons, not_or] at h
    rw [foldl_cons, ih h.2]
    obtain ⟨label, statement⟩ := c
    cases label with
    | path a =>
      have hne : action ≠ a := fun heq => h.1 (by rw [heq])
      exact if_neg hne
    | default => rfl

theorem foldl_defaultBlock (h : Label.default ∉ cases.map SwitchCase.label) (last : Chain A S) :
    cases.foldl defaultBlock last = last := by
  induction cases generalizing last with
  | nil => rfl
  | cons c cases ih =>
    rw [map_cons, mem_cons, not_or] at h
    rw [foldl_cons, ih h.2, defaultBlock, if_neg (Ne.symm h.1)]

omit [DecidableEq A] in
theorem exists_case {label : Label A} (h : label ∈ cases.map SwitchCase.label) :
    ∃ before statement after, cases = before ++ ⟨label, statement⟩ :: after := by
  obtain ⟨⟨_, statement⟩, hmem, rfl⟩ := mem_map.mp h
  obtain ⟨before, after, hsplit⟩ := append_of_mem hmem
  exact ⟨before, statement, after, hsplit⟩

theorem blockAt_append {label : Label A} (h : label ∉ before.map SwitchCase.label) :
    blockAt label (before ++ after) = blockAt label after := by
  induction before with
  | nil => rfl
  | cons c before ih =>
    rw [map_cons, mem_cons, not_or] at h
    rw [cons_append, blockAt, if_neg (Ne.symm h.1), ih h.2]

omit [DecidableEq A] in
theorem notMem_of_distinct {label : Label A}
    (h : ((before ++ ⟨label, statement⟩ :: after).map SwitchCase.label).Nodup) :
    label ∉ before.map SwitchCase.label ∧ label ∉ after.map SwitchCase.label := by
  rw [map_append, map_cons, nodup_append] at h
  exact ⟨fun hmem => h.2.2 label hmem label mem_cons_self rfl, (nodup_cons.mp h.2.1).1⟩

end Chains

variable (s : SwitchStatement A S)

theorem execute_of_split {action : A} {before after : List (SwitchCase A S)} {statement : Option S}
    (h : s.cases = before ++ ⟨.path action, statement⟩ :: after) :
    (chain s.cases).execute action = statement ∧
      select s.cases action =
        (⟨.path action, statement⟩ :: after).findSome? SwitchCase.statement := by
  obtain ⟨hbefore, hafter⟩ := notMem_of_distinct (h ▸ s.distinct)
  constructor
  · rw [chain, h, foldl_append, foldl_cons, execute_foldl_wrap hafter]
    exact if_pos rfl
  · rw [select, h, if_pos (by simp), blockAt_append hbefore]
    exact if_pos rfl

theorem execute_default {action : A} (h : Label.path action ∉ s.cases.map SwitchCase.label) :
    (chain s.cases).execute action = select s.cases action := by
  rw [chain, execute_foldl_wrap h, select, if_neg h]
  by_cases hdefault : Label.default ∈ s.cases.map SwitchCase.label
  · obtain ⟨before, statement, after, hsplit⟩ := exists_case hdefault
    have hbefore := (notMem_of_distinct (hsplit ▸ s.distinct)).1
    have hlast : after = [] := by
      by_contra hmore
      apply s.defaultLast
      rw [hsplit, dropLast_append_cons, dropLast_cons_of_ne_nil hmore]
      simp
    rw [hsplit, hlast, foldl_append, foldl_defaultBlock hbefore, blockAt_append hbefore]
    cases statement <;> rfl
  · rw [foldl_defaultBlock hdefault, ← append_nil s.cases, blockAt_append hdefault]
    rfl

/-- The chain runs the selected blocks exactly if no label without a statement, of an action that
can run, has a statement behind it. -/
theorem chain_selects_iff (actions : Set A) :
    (∀ action ∈ actions, (chain s.cases).execute action = select s.cases action) ↔
      ∀ action ∈ actions, ∀ before after, s.cases = before ++ ⟨.path action, none⟩ :: after →
        ∀ c ∈ after, c.statement = none := by
  refine forall₂_congr fun action _ => ?_
  constructor
  · intro h before after hsplit
    obtain ⟨hexecute, hselect⟩ := execute_of_split s hsplit
    rw [hexecute, hselect] at h
    exact findSome?_eq_none_iff.mp h.symm
  · intro h
    by_cases hlabel : Label.path action ∈ s.cases.map SwitchCase.label
    · obtain ⟨before, statement, after, hsplit⟩ := exists_case hlabel
      obtain ⟨hexecute, hselect⟩ := execute_of_split s hsplit
      rw [hexecute, hselect]
      cases statement with
      | some block => rfl
      | none => exact (findSome?_eq_none_iff.mpr (h before after hsplit)).symm
    · exact execute_default s hlabel

/-- Two actions with one block. -/
def shared : SwitchStatement Char String :=
  ⟨[⟨.path 'a', none⟩, ⟨.path 'b', some "drop"⟩], by decide, by decide⟩

theorem shared_block_skipped :
    (chain shared.cases).execute 'a' = none ∧ select shared.cases 'a' = some "drop" := by
  decide

end SwitchChain
