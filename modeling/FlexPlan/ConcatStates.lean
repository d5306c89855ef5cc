import FlexPlan.PrintedFormula
import Mathlib.Data.List.Sort

/-!
# Concatenating transition states

`concat_states.py` writes several copies of a printed formula into one. Symbols that the copies
share keep their names, the others get a suffix. Equations between version variables connect each
copy with the next one.
-/
namespace ConcatStates

open PythonText SmtText PrintedFormula List Function

section Program

/-- What the first pass collects: `new_var_dict` and `version_dict`. -/
structure Declarations where
  vars : Dict Str (List Str)
  versions : Dict Str (List Str)

def Declarations.add (d : Declarations) : List Str → Declarations
  | [] => d
  | line :: lines =>
    { vars := d.vars.set (varName line) (line :: lines)
      versions :=
        if isVersion line then d.versions.push (versionKey line) (varName line) else d.versions }

def scanDeclarations (lines : List Str) : Option Declarations :=
  (takeGroups (isIn "declare-fun".toList) lines.length lines).map
    (List.foldl Declarations.add ⟨[], []⟩)

/-- Membership in `new_var_set`. -/
def Declarations.declares (d : Declarations) (x : Str) : Bool := x ∈ d.vars.map Prod.fst

structure ForkScan where
  flag : Bool
  forkFlag : Bool
  forkVarSet : List Str

variable (declares : Str → Bool)

def forkToken (s : ForkScan) (token : Str) : ForkScan :=
  let x := tokenCore token
  let forkFlag := s.forkFlag || (declares x &&
    (isIn "hdrs".toList x || (isIn "metas_".toList x && !isIn "metas__".toList x)))
  if declares x && (!forkFlag || isIn ".hdr_".toList x || isIn ".metas__".toList x) then
    { s with forkFlag := forkFlag, forkVarSet := x :: s.forkVarSet }
  else { s with forkFlag := forkFlag }

def forkLine (s : ForkScan) (line : Str) : ForkScan :=
  let s := { s with flag := s.flag || isIn "(assert".toList line }
  if s.flag then (tokens line).foldl (forkToken declares) s else s

def forkVarSet (lines : List Str) : List Str :=
  (lines.foldl (forkLine declares) ⟨false, false, []⟩).forkVarSet

def suffix (n : ℕ) : Str := "99000".toList ++ ofNat n

def declaredCopy (n : ℕ) : Str → Option Str := withSuffix (suffix n)

/-- The new name in an assertion. The branch for quoted names reads the variable `i`,
which is bound nowhere. -/
def assertedCopy (n : ℕ) (name : Str) : Option Str :=
  name.getLast?.bind fun c => if c ≠ '|' then some (name ++ suffix n) else none

def copies (iterNum : ℕ) (copy : ℕ → Option (List Str)) : Option (List Str) :=
  ((List.range iterNum).mapM copy).map List.flatten

structure AssertScan where
  tIndex : ℕ
  norm : Dict ℕ (List Str)
  fork : Dict ℕ (List Str)

variable (unshared : Str → Bool)

def AssertScan.add (s : AssertScan) (group : List Str) : AssertScan :=
  let t := if isIn "(assert".toList (group.headD []) then s.tIndex + 1 else s.tIndex
  if group.any fun line => (tokens line).any fun token => unshared (tokenCore token) then
    { s with tIndex := t, fork := s.fork.set t group }
  else { s with tIndex := t, norm := s.norm.set t group }

def scanAssertions (lines : List Str) : Option AssertScan :=
  let lines := lines.dropWhile fun l => !isIn "(assert".toList l
  (takeGroups (fun _ => true) lines.length lines).map
    (List.foldl (AssertScan.add unshared) ⟨0, [], []⟩)

def sorted (names : List Str) : List Str := names.insertionSort fun a b => strLe a b

/-- `temp_version_dict`: the version variables of each copy of the headers. -/
def groupVersions (versions : Dict Str (List Str)) : Option (Dict ℤ (List Str)) :=
  versions.foldlM (fun d e => do
    let number ← versionNumber e.1
    let name ← (sorted e.2).head?
    return d.push number name) []

inductive Cause where
  | off
  | on
  | unfree (constrained : List Str)

def equationLine (a b : Str) : Str := "(assert (= ".toList ++ a ++ " ".toList ++ b ++ "))\n".toList

def lastSuffix : ℕ → Str
  | 0 => "99000-1".toList
  | n + 1 => suffix n

def finalLine (cause : Cause) (iterNum : ℕ) (name : Str) : Str :=
  match cause with
  | .off => equationLine (name ++ lastSuffix iterNum) "#b1".toList
  | .on =>
    "(assert-soft (= ".toList ++ (name ++ lastSuffix iterNum) ++ " #b1))\n".toList
  | .unfree constrained =>
    equationLine (name ++ lastSuffix iterNum)
      (if constrained.any fun item => isIn ("version_".toList ++ item) name then "#b1".toList
      else "#b0".toList)

def tieLines (iterNum : ℕ) (pairs : List (Str × Str)) : List Str :=
  (List.range iterNum).flatMap fun n =>
    if n + 1 < iterNum then
      pairs.map fun p => equationLine (p.1 ++ suffix n) (p.2 ++ suffix (n + 1))
    else []

/-- `result_version`. A list that is too short for an index raises. -/
def versionLines (cause : Cause) (incremental : Bool) (iterNum : ℕ)
    (byNumber : Dict ℤ (List Str)) : Option (List Str) :=
  let numbers := (byNumber.map Prod.fst).insertionSort (· ≤ ·)
  let list := fun n => sorted ((byNumber.get? n).getD [])
  match numbers.reverse with
  | n₁ :: n₂ :: _ :: _ =>
    let list₁ := list n₁
    let list₂ := list n₂
    let list₃ := list (numbers.headD 0)
    if list₂.length < list₁.length ∨ (incremental = true ∧ list₃.length < list₁.length) then none
    else some (tieLines iterNum (list₁.zip list₂) ++ list₁.map (finalLine cause iterNum) ++
      (list₁.zip list₂).map fun p => equationLine (p.2 ++ suffix 0) "#b0".toList)
  | _ => some []

def concatStates (text : Str) (iterNum : ℕ) (cause : Cause) (incremental : Bool) : Option Str := do
  let lines := readLines text
  let d ← scanDeclarations lines
  let shared := forkVarSet d.declares lines
  let unshared := fun x => d.declares x && decide (x ∉ shared)
  let once := (d.vars.filter fun e => e.1 ∈ shared).flatMap Prod.snd
  let own := (d.vars.filter fun e => e.1 ∉ shared).flatMap Prod.snd
  let declared ← copies iterNum fun n => own.mapM (renameLine d.declares (declaredCopy n))
  let a ← scanAssertions unshared lines
  let asserted ← copies iterNum fun n =>
    (a.fork.flatMap Prod.snd).mapM (renameLine unshared (assertedCopy n))
  let byNumber ← groupVersions d.versions
  let versions ← versionLines cause incremental iterNum byNumber
  return (once ++ declared ++ a.norm.flatMap Prod.snd ++ asserted ++ versions).flatten

end Program

section Domain

structure Copy where
  number : ℕ
  owner : Str
  ingress : isIn "PSAImpl_ingress_start".toList owner = true
  chars : ∀ c ∈ owner, c ∉ ".|".toList

structure Component where
  quoted : Bool
  name : Str
  chars : ∀ c ∈ name, c ∉ ".|".toList

def versionHeader : Str := ".version.version_".toList

def Copy.base (c : Copy) : Str := headers ++ (ofNat c.number ++ '_' :: c.owner)

def Component.field (m : Component) : Str := versionHeader ++ m.name

theorem bit_unbarred (c : Copy) (m : Component) : '|' ∉ c.base ++ m.field := by
  have howner : '|' ∉ c.owner := fun h => c.chars _ h (by decide)
  have hname : '|' ∉ m.name := fun h => m.chars _ h (by decide)
  have hnumber : '|' ∉ ofNat c.number := notMem_ofNat (by decide) _
  have hheaders : '|' ∉ headers := by decide
  have hversion : '|' ∉ versionHeader := by decide
  simp [Copy.base, Component.field, howner, hname, hnumber, hheaders, hversion]

/-- The version variable of a component in a copy of the headers. -/
def bit (c : Copy) (m : Component) : Name where
  quoted := m.quoted
  text := c.base ++ m.field
  unbarred := bit_unbarred c m
  plain := fun _ => plainStart_iff.mpr (Or.inr ⟨_, rfl⟩)

/-- A printed formula with at least three copies of the headers over the same components. -/
structure Transition extends Formula where
  largest : Copy
  second : Copy
  others : List Copy
  components : List Component
  second_lt : second.number < largest.number
  others_lt : ∀ c ∈ others, c.number < second.number
  others_nonempty : others ≠ []
  components_nonempty : components ≠ []
  components_distinct : components.Nodup
  bits_declared : ∀ c ∈ largest :: second :: others, ∀ m ∈ components,
    (bit c m).str ∈ toFormula.names
  bits_only : ∀ x ∈ toFormula.names, isVersion x = true →
    ∃ c ∈ largest :: second :: others, ∃ m ∈ components, x = (bit c m).str

variable (t : Transition)

/-- The symbols that `fork_var_set` collects. -/
def Transition.shared : List Str :=
  forkVarSet (fun x => decide (x ∈ t.names)) (readLines t.text)

def Transition.unshared (x : Str) : Bool := decide (x ∈ t.names) && decide (x ∉ t.shared)

/-- The name of a symbol in copy `n`. -/
def Transition.copyName (n : ℕ) (x : Str) : Str :=
  if t.unshared x then suffixed (suffix n) x else x

end Domain

section Names

variable {n : ℕ} {x : Str}

theorem assertedCopy_eq (h : x ≠ []) (hplain : x.getLast? ≠ some '|') :
    assertedCopy n x = some (suffixed (suffix n) x) := by
  rw [getLast?_eq_some_getLast h] at hplain
  have hne : x.getLast h ≠ '|' := fun he => hplain (congrArg some he)
  rw [assertedCopy, suffixed, withSuffix, getLast?_eq_some_getLast h, Option.bind_some,
    Option.map_some, if_pos hne, if_pos hne]
  rfl

theorem assertedCopy_quoted (h : x.getLast? = some '|') : assertedCopy n x = none := by
  rw [assertedCopy, h]
  rfl

variable {t : Transition}

theorem Transition.copyName_of_shared (h : x ∈ t.shared) : t.copyName n x = x := by
  rw [Transition.copyName, Transition.unshared, decide_eq_false (not_not.mpr h), Bool.and_false,
    if_neg Bool.false_ne_true]

theorem Transition.copyName_of_unshared (hx : x ∈ t.names) (h : x ∉ t.shared) :
    t.copyName n x = suffixed (suffix n) x := by
  rw [Transition.copyName, Transition.unshared, decide_eq_true hx, decide_eq_true h]
  rfl

end Names

section Sharing

variable {declares : Str → Bool}

/-- What is known about a collected symbol. -/
structure Collected (declares : Str → Bool) (lines : List Str) (x : Str) : Prop where
  declared : declares x = true
  headers : isIn "hdrs".toList x = true →
    isIn ".hdr_".toList x = true ∨ isIn ".metas__".toList x = true
  occurs : ∃ line ∈ lines, ∃ token ∈ tokens line, tokenCore token = x

variable {s : ForkScan}

theorem forkToken_collects {token x : Str} (hx : x ∈ (forkToken declares s token).forkVarSet) :
    x ∈ s.forkVarSet ∨ (tokenCore token = x ∧ declares x = true ∧ (isIn "hdrs".toList x = true →
      isIn ".hdr_".toList x = true ∨ isIn ".metas__".toList x = true)) := by
  rw [forkToken] at hx
  split_ifs at hx with h
  · rcases mem_cons.mp hx with rfl | hx
    · obtain ⟨hdeclares, hkind⟩ := Bool.and_eq_true_iff.mp h
      refine Or.inr ⟨rfl, hdeclares, fun hheaders => ?_⟩
      rw [hdeclares, hheaders] at hkind
      simpa only [Bool.true_and, Bool.true_or, Bool.or_true, Bool.not_true, Bool.false_or,
        Bool.or_eq_true] using hkind
    · exact Or.inl hx
  · exact Or.inl hx

theorem forkLine_collects {line x : Str} (hx : x ∈ (forkLine declares s line).forkVarSet) :
    x ∈ s.forkVarSet ∨ Collected declares [line] x := by
  rw [forkLine] at hx
  split_ifs at hx with hflag
  · -- the tokens of the line, from the last one back
    generalize hs : ({ s with flag := s.flag || isIn "(assert".toList line } : ForkScan) = s₀ at hx
    have hset : s₀.forkVarSet = s.forkVarSet := by rw [← hs]
    have hall : ∀ ts : List Str, (∀ token ∈ ts, token ∈ tokens line) →
        x ∈ (ts.foldl (forkToken declares) s₀).forkVarSet →
        x ∈ s.forkVarSet ∨ Collected declares [line] x := by
      intro ts
      induction ts using List.reverseRecOn with
      | nil => exact fun _ h => Or.inl (hset ▸ h)
      | append_singleton ts token ih =>
        intro hts h
        rw [foldl_append] at h
        rcases forkToken_collects h with h | ⟨hcore, hdeclares, hheaders⟩
        · exact ih (fun u hu => hts u (mem_append_left _ hu)) h
        · exact Or.inr ⟨hdeclares, hheaders, line, mem_singleton_self _, token,
            hts token (by simp), hcore⟩
    exact hall _ (fun _ h => h) hx
  · exact Or.inl hx

theorem foldl_collects {lines : List Str}
    (hx : x ∈ (lines.foldl (forkLine declares) s).forkVarSet) :
    x ∈ s.forkVarSet ∨ Collected declares lines x := by
  induction lines using List.reverseRecOn with
  | nil => exact Or.inl hx
  | append_singleton lines line ih =>
    rw [foldl_append] at hx
    rcases forkLine_collects hx with hx | ⟨hdeclares, hheaders, l, hl, htoken⟩
    · refine (ih hx).imp_right fun h => ⟨h.declared, h.headers, ?_⟩
      obtain ⟨l, hl, htoken⟩ := h.occurs
      exact ⟨l, mem_append_left _ hl, htoken⟩
    · exact Or.inr ⟨hdeclares, hheaders, l, mem_append_right _ hl, htoken⟩

theorem foldl_unflagged {lines : List Str} (h : ∀ l ∈ lines, isIn "(assert".toList l = false) :
    lines.foldl (forkLine declares) ⟨false, false, []⟩ = ⟨false, false, []⟩ := by
  induction lines with
  | nil => rfl
  | cons l lines ih =>
    obtain ⟨hl, hlines⟩ := forall_mem_cons.mp h
    have hline : forkLine declares ⟨false, false, []⟩ l = ⟨false, false, []⟩ := by
      rw [forkLine, hl]
      rfl
    rw [foldl_cons, hline, ih hlines]

variable {t : Transition}

theorem Transition.mem_shared (h : x ∈ t.shared) : x ∈ t.names ∧ (isIn "hdrs".toList x = true →
      isIn ".hdr_".toList x = true ∨ isIn ".metas__".toList x = true) ∧
    ∃ c ∈ t.asserts, x ∈ symbols symbol c := by
  rw [Transition.shared, forkVarSet, t.readLines_text, foldl_append,
    foldl_unflagged fun l hl => t.decl_line hl] at h
  rcases foldl_collects h with h | ⟨hdeclared, hheaders, line, hline, token, htoken, hcore⟩
  · cases h
  · have hx := of_decide_eq_true hdeclared
    obtain ⟨c, hc, hline⟩ := mem_flatMap.mp hline
    obtain ⟨l, hl, rfl⟩ := mem_map.mp hline
    have hprinted := t.wellFormed.asserts_printed c hc
    rw [hprinted.tokens hl] at htoken
    obtain ⟨w, hw, rfl⟩ := mem_map.mp htoken
    rw [tokenCore_word (hprinted.clean l hl w hw)] at hcore
    exact ⟨hx, hheaders, c, hc, mem_symbols.mpr ⟨t.symbol_of_mem hx, l, hl, w, hw, hcore⟩⟩

theorem isIn_bit (h : isIn u (c.base ++ m.field) = true) : isIn u (bit c m).str = true :=
  Name.isIn_str (x := bit c m) h

theorem not_isIn_bit (hheaders : ∀ r, u.isPrefixOf ("hdrs_".toList ++ r) = false)
    (hversion : ∀ r, u.isPrefixOf ("version".toList ++ r) = false) (c : Copy) (m : Component) :
    isIn ('.' :: u) (bit c m).str = false := by
  have howner : '.' ∉ "hdrs_".toList ++ (ofNat c.number ++ '_' :: c.owner) := by
    have howner : '.' ∉ c.owner := fun h => c.chars _ h (by decide)
    have hnumber : '.' ∉ ofNat c.number := notMem_ofNat (by decide) _
    simp [howner, hnumber]
  have hplain : ∀ pre post : Str, '.' ∉ pre → '.' ∉ post →
      isIn ('.' :: u) (pre ++ (c.base ++ m.field) ++ post) = false := by
    intro pre post hpre hpost
    have hname : '.' ∉ "version_".toList ++ (m.name ++ post) := by
      have hname : '.' ∉ m.name := fun h => m.chars _ h (by decide)
      simp [hname, hpost]
    have htext : pre ++ (c.base ++ m.field) ++ post =
        pre ++ '.' :: (("hdrs_".toList ++ (ofNat c.number ++ '_' :: c.owner)) ++
          '.' :: ("version".toList ++ '.' :: ("version_".toList ++ (m.name ++ post)))) := by
      have hheaders : headers = '.' :: "hdrs_".toList := rfl
      have hheader : versionHeader = '.' :: ("version".toList ++ '.' :: "version_".toList) := rfl
      rw [Copy.base, Component.field, hheaders, hheader]
      simp only [append_assoc, cons_append]
    have hfield : u.isPrefixOf ("version_".toList ++ (m.name ++ post)) = false :=
      hversion ('_' :: (m.name ++ post))
    rw [htext, isIn_from hpre, isIn_from howner, isIn_from (by decide), hversion, hfield,
      not_isIn_of_notMem mem_cons_self hname, append_assoc, hheaders]
    rfl
  show isIn ('.' :: u) (quote m.quoted (c.base ++ m.field)) = false
  rw [quote]
  split_ifs
  · exact hplain ['|'] ['|'] (by decide) (by decide)
  · have h := hplain [] [] (by decide) (by decide)
    rwa [append_nil] at h

theorem Transition.bit_unshared (c : Copy) (m : Component) : (bit c m).str ∉ t.shared := by
  intro h
  have hheaders : isIn "hdrs".toList (bit c m).str = true := by
    refine isIn_bit (isIn_append_left (isIn_append_left ?_ _) _)
    decide
  rcases (t.mem_shared h).2.1 hheaders with h | h
  all_goals
    exact Bool.false_ne_true ((not_isIn_bit (fun _ => rfl) (fun _ => rfl) c m).symm.trans h)

end Sharing

section Scanning

variable {t : Transition}

def Transition.versionDecls (t : Transition) : List Decl :=
  t.decls.filter fun d => isVersion d.name.str

theorem foldl_add {ds : List Decl} (hdistinct : (ds.map fun d => d.name.str).Nodup)
    (hadd : ∀ d ∈ ds, ∀ acc : Declarations, d.name.str ∉ acc.vars.map Prod.fst →
      d.name.key ∉ acc.versions.map Prod.fst → acc.add (commandLines d.command) =
        ⟨acc.vars ++ [(d.name.str, commandLines d.command)],
          acc.versions ++ if isVersion d.name.str then [(d.name.key, [d.name.str])] else []⟩)
    (acc : Declarations) (hvars : ∀ d ∈ ds, d.name.str ∉ acc.vars.map Prod.fst)
    (hversions : ∀ d ∈ ds, d.name.key ∉ acc.versions.map Prod.fst) :
    (ds.map fun d => commandLines d.command).foldl Declarations.add acc =
      ⟨acc.vars ++ ds.map fun d => (d.name.str, commandLines d.command),
        acc.versions ++ (ds.filter fun d => isVersion d.name.str).map
          fun d => (d.name.key, [d.name.str])⟩ := by
  induction ds generalizing acc with
  | nil => simp
  | cons d ds ih =>
    obtain ⟨hd, hadd⟩ := forall_mem_cons.mp hadd
    obtain ⟨hv, hvars⟩ := forall_mem_cons.mp hvars
    obtain ⟨hw, hversions⟩ := forall_mem_cons.mp hversions
    obtain ⟨hnot, hdistinct⟩ := nodup_cons.mp hdistinct
    have hother : ∀ e ∈ ds, e.name.str ≠ d.name.str := fun e he h =>
      hnot (mem_map.mpr ⟨e, he, h⟩)
    rw [map_cons, foldl_cons, hd acc hv hw, ih hdistinct hadd]
    · rw [filter_cons]
      split_ifs <;> simp
    · intro e he
      simp only [map_append, mem_append, not_or]
      exact ⟨hvars e he, by simpa using hother e he⟩
    · intro e he
      simp only [map_append, mem_append, not_or]
      refine ⟨hversions e he, ?_⟩
      split_ifs
      · have hne : e.name.key ≠ d.name.key := fun h => hother e he (Name.key_injective h)
        simpa using hne
      · simp

theorem Transition.version_text (hd : d ∈ t.decls) (h : isVersion d.name.str = true) :
    ∃ c ∈ t.largest :: t.second :: t.others, ∃ m ∈ t.components,
      d.name.str = (bit c m).str ∧ d.name.quoted = m.quoted ∧ d.name.text = c.base ++ m.field := by
  obtain ⟨c, hc, m, hm, hbit⟩ := t.bits_only _ (mem_map_of_mem hd) h
  obtain ⟨hquoted, htext⟩ := Name.str_injective hbit
  exact ⟨c, hc, m, hm, hbit, hquoted, htext⟩

theorem Transition.scanDeclarations_text :
    scanDeclarations (readLines t.text) =
      some ⟨t.decls.map fun d => (d.name.str, commandLines d.command),
        t.versionDecls.map fun d => (d.name.key, [d.name.str])⟩ := by
  rw [scanDeclarations, t.takeGroups_decls, Option.map_some, foldl_add t.wellFormed.distinct]
  · rfl
  · intro d hd acc hv hw
    have hs := t.rest_sort hd
    have hlines : commandLines d.command = lineText d.head :: d.more.map lineText := rfl
    rw [hlines, Declarations.add, d.varName_line (t.head_clean hd) hs, Decl.isVersion_line hs,
      Dict.set_of_notMem hv]
    split_ifs with hversion
    · obtain ⟨c, _, m, _, _, _, htext⟩ := t.version_text hd hversion
      have hkey : d.name.text =
          ".hdrs".toList ++ ('_' :: (ofNat c.number ++ '_' :: c.owner) ++ m.field) := htext
      rw [d.versionKey_line (t.head_clean hd) hs hkey, Dict.push_of_notMem hw]
    · rw [append_nil]
  · simp
  · simp

/-- The number of the copy that a declared version variable belongs to. -/
def Transition.entry (d : Decl) : ℤ × Str := ((versionNumber d.name.key).getD 0, d.name.str)

variable {c : Copy}

theorem versionNumber_bit {d : Decl} {m : Component} (htext : d.name.text = c.base ++ m.field) :
    versionNumber d.name.key = some (c.number : ℤ) := by
  refine versionNumber_name (r := c.owner ++ m.field) ?_
  rw [htext, Copy.base]
  simp

def collect (entries : List (ℤ × Str)) : Dict ℤ (List Str) :=
  entries.foldl (fun d e => d.push e.1 e.2) []

theorem Transition.groupVersions_eq :
    groupVersions (t.versionDecls.map fun d => (d.name.key, [d.name.str])) =
      some (collect (t.versionDecls.map Transition.entry)) := by
  rw [groupVersions, foldlM_map, collect, foldl_map]
  refine foldlM_eq_some ?_ _
  intro d hd b
  obtain ⟨hd, hversion⟩ := mem_filter.mp hd
  obtain ⟨c, _, m, _, _, hquoted, htext⟩ := t.version_text hd hversion
  rw [Transition.entry, versionNumber_bit htext]
  rfl

theorem mem_keys_collect {entries : List (ℤ × Str)} :
    k ∈ (collect entries).map Prod.fst ↔ ∃ e ∈ entries, e.1 = k :=
  Dict.mem_keys_foldl_push.trans (by simp)

theorem nodup_keys_collect (entries : List (ℤ × Str)) : ((collect entries).map Prod.fst).Nodup :=
  Dict.nodup_keys_foldl_push (d := []) entries nodup_nil

theorem eq_cons_of_greatest {a : ℤ} (hl : l.Pairwise (· > ·)) (ha : a ∈ l)
    (hmax : ∀ k ∈ l, k ≤ a) : ∃ r, l = a :: r := by
  cases l with
  | nil => cases ha
  | cons k r =>
    rcases mem_cons.mp ha with rfl | ha
    · exact ⟨r, rfl⟩
    · exact absurd (rel_of_pairwise_cons hl ha) (hmax k mem_cons_self).not_gt

theorem reverse_insertionSort {ks : List ℤ} {a b c : ℤ} (hnodup : ks.Nodup) (ha : a ∈ ks)
    (hb : b ∈ ks)
    (hc : c ∈ ks) (hba : b < a) (hcb : c < b) (hrest : ∀ k ∈ ks, k = a ∨ k = b ∨ k < b) :
    ∃ k r, (ks.insertionSort (· ≤ ·)).reverse = a :: b :: k :: r := by
  have hperm := (reverse_perm _).trans (perm_insertionSort (· ≤ ·) ks)
  have hsorted : (ks.insertionSort (· ≤ ·)).reverse.Pairwise (· > ·) := by
    refine ((pairwise_reverse.mpr (pairwise_insertionSort _ _)).and
      (hperm.nodup_iff.mpr hnodup)).imp ?_
    exact fun h => lt_of_le_of_ne h.1 h.2.symm
  generalize (ks.insertionSort (· ≤ ·)).reverse = l at hperm hsorted ⊢
  obtain ⟨l, rfl⟩ := eq_cons_of_greatest hsorted (hperm.mem_iff.mpr ha) fun k hk => by
    have := hrest k (hperm.mem_iff.mp hk)
    omega
  obtain ⟨hlow, hsorted⟩ := pairwise_cons.mp hsorted
  have hmem : ∀ k ∈ ks, k < a → k ∈ l := fun k hk hlt =>
    (mem_cons.mp (hperm.mem_iff.mpr hk)).resolve_left hlt.ne
  obtain ⟨l, rfl⟩ := eq_cons_of_greatest hsorted (hmem b hb hba) fun k hk => by
    have := hrest k (hperm.mem_iff.mp (mem_cons_of_mem _ hk))
    have := hlow k hk
    omega
  have hc := (mem_cons.mp (hmem c hc (hcb.trans hba))).resolve_left hcb.ne
  obtain ⟨k, r, rfl⟩ := exists_cons_of_ne_nil (ne_nil_of_mem hc)
  exact ⟨k, r, rfl⟩

theorem isVersion_bit (c : Copy) (m : Component) : isVersion (bit c m).str = true := by
  have hversion : isIn "version.version_".toList (bit c m).str = true := by
    refine isIn_bit (isIn_append_right _ (isIn_append_left ?_ _))
    decide
  have howner : isIn "PSAImpl_ingress_start".toList (bit c m).str = true :=
    isIn_bit (isIn_append_left (isIn_append_right _ (isIn_append_right _
      (isIn_append_right ['_'] c.ingress))) _)
  rw [isVersion, hversion, howner]
  rfl

theorem bit_injective (h : (bit c m).str = (bit c m').str) : m = m' := by
  obtain ⟨hquoted, htext⟩ := Name.str_injective h
  have hname : m.name = m'.name := append_cancel_left (append_cancel_left htext)
  cases m
  cases m'
  cases hquoted
  cases hname
  rfl

def Transition.bitNames (t : Transition) (c : Copy) : List Str :=
  sorted (((t.versionDecls.map Transition.entry).filter fun e => e.1 = (c.number : ℤ)).map
    Prod.snd)

theorem Transition.mem_entries : e ∈ t.versionDecls.map Transition.entry ↔
      ∃ c ∈ t.largest :: t.second :: t.others, ∃ m ∈ t.components,
        e = ((c.number : ℤ), (bit c m).str) := by
  rw [mem_map]
  constructor
  · rintro ⟨d, hd, rfl⟩
    obtain ⟨hd, hversion⟩ := mem_filter.mp hd
    obtain ⟨c, hc, m, hm, hstr, hquoted, htext⟩ := t.version_text hd hversion
    refine ⟨c, hc, m, hm, ?_⟩
    rw [Transition.entry, versionNumber_bit htext, hstr]
    rfl
  · rintro ⟨c, hc, m, hm, rfl⟩
    obtain ⟨d, hd, hstr⟩ := t.exists_name (t.bits_declared c hc m hm)
    obtain ⟨hquoted, htext⟩ := Name.str_injective hstr
    refine ⟨d, mem_filter.mpr ⟨hd, ?_⟩, ?_⟩
    · rw [hstr, isVersion_bit]
    · rw [Transition.entry, versionNumber_bit htext, hstr]
      rfl

section

variable (hc : c = t.largest ∨ c = t.second)

include hc

theorem Transition.unique_number
    (hc' : c' ∈ t.largest :: t.second :: t.others) (h : c'.number = c.number) : c' = c := by
  have hlt := t.second_lt
  have hothers := t.others_lt
  rcases mem_cons.mp hc' with rfl | hc'
  · rcases hc with rfl | rfl
    · rfl
    · omega
  · rcases mem_cons.mp hc' with rfl | hc'
    · rcases hc with rfl | rfl
      · omega
      · rfl
    · have := hothers c' hc'
      rcases hc with rfl | rfl <;> omega

theorem Transition.bitNames_perm :
    (t.bitNames c).Perm (t.components.map fun m => (bit c m).str) := by
  have hmem : c ∈ t.largest :: t.second :: t.others := by
    rcases hc with rfl | rfl <;> simp
  refine (perm_insertionSort _ _).trans ((perm_ext_iff_of_nodup ?_ ?_).mpr ?_)
  · have hnames : ((t.versionDecls.map Transition.entry).map Prod.snd).Sublist t.names := by
      rw [map_map]
      exact filter_sublist.map _
    exact ((filter_sublist.map _).trans hnames).nodup t.wellFormed.distinct
  · exact t.components_distinct.map fun m m' h => bit_injective h
  · intro x
    rw [mem_map, mem_map]
    constructor
    · rintro ⟨e, he, rfl⟩
      obtain ⟨he, hnumber⟩ := mem_filter.mp he
      obtain ⟨c', hc', m, hm, rfl⟩ := t.mem_entries.mp he
      have hnumber : c'.number = c.number := Int.ofNat.inj (of_decide_eq_true hnumber)
      rw [t.unique_number hc hc' hnumber]
      exact ⟨m, hm, rfl⟩
    · rintro ⟨m, hm, rfl⟩
      exact ⟨_, mem_filter.mpr ⟨t.mem_entries.mpr ⟨c, hmem, m, hm, rfl⟩, by simp⟩, rfl⟩

theorem Transition.mem_bitNames : x ∈ t.bitNames c ↔ ∃ m ∈ t.components, (bit c m).str = x := by
  rw [(t.bitNames_perm hc).mem_iff, mem_map]

theorem Transition.length_bitNames : (t.bitNames c).length = t.components.length := by
  rw [(t.bitNames_perm hc).length_eq, length_map]

end

def Transition.pairs (t : Transition) : List (Str × Str) :=
  (t.bitNames t.largest).zip (t.bitNames t.second)

theorem Transition.versionLines_eq (n : ℕ) :
    versionLines .off false n (collect (t.versionDecls.map Transition.entry)) =
      some (tieLines n t.pairs ++ (t.bitNames t.largest).map (finalLine .off n) ++
        t.pairs.map fun p => equationLine (p.2 ++ suffix 0) "#b0".toList) := by
  obtain ⟨o, os, hothers⟩ := exists_cons_of_ne_nil t.others_nonempty
  obtain ⟨m, ms, hcomponents⟩ := exists_cons_of_ne_nil t.components_nonempty
  have hkey : ∀ c ∈ t.largest :: t.second :: t.others,
      (c.number : ℤ) ∈ (collect (t.versionDecls.map Transition.entry)).map Prod.fst := by
    intro c hc
    have hm : m ∈ t.components := hcomponents ▸ mem_cons_self
    exact mem_keys_collect.mpr ⟨_, t.mem_entries.mpr ⟨c, hc, m, hm, rfl⟩, rfl⟩
  have ho : o ∈ t.others := hothers ▸ mem_cons_self
  have hkeys : ∀ k ∈ (collect (t.versionDecls.map Transition.entry)).map Prod.fst,
      k = (t.largest.number : ℤ) ∨ k = (t.second.number : ℤ) ∨ k < (t.second.number : ℤ) := by
    intro k hk
    obtain ⟨e, he, rfl⟩ := mem_keys_collect.mp hk
    obtain ⟨c, hc, _, _, rfl⟩ := t.mem_entries.mp he
    rcases mem_cons.mp hc with rfl | hc
    · exact Or.inl rfl
    · rcases mem_cons.mp hc with rfl | hc
      · exact Or.inr (Or.inl rfl)
      · exact Or.inr (Or.inr (Int.ofNat_lt.mpr (t.others_lt c hc)))
  obtain ⟨k, r, hreverse⟩ := reverse_insertionSort (nodup_keys_collect _)
    (hkey t.largest mem_cons_self) (hkey t.second (by simp)) (hkey o (by simp [ho]))
    (Int.ofNat_lt.mpr t.second_lt) (Int.ofNat_lt.mpr (t.others_lt o ho)) hkeys
  have hlist : ∀ c : Copy, sorted (((collect (t.versionDecls.map Transition.entry)).get?
      (c.number : ℤ)).getD []) = t.bitNames c :=
    fun c => congrArg sorted (Dict.get?_foldl_push _ [] _)
  rw [versionLines, hreverse]
  simp only [hlist]
  rw [if_neg]
  · rfl
  · rintro (h | ⟨h, -⟩)
    · rw [t.length_bitNames (Or.inl rfl), t.length_bitNames (Or.inr rfl)] at h
      exact h.false
    · cases h

end Scanning

section Output

variable (t : Transition)

def Transition.forked (c : Command) : Bool := c.any fun l => l.any fun w => t.unshared w.core

def Transition.ties (n : ℕ) : List Command :=
  ((List.range n).flatMap fun i =>
      if i + 1 < n then
        t.pairs.map fun p => [equation [p.1 ++ suffix i, p.2 ++ suffix (i + 1)]]
      else []) ++
    (t.bitNames t.largest).map (fun x => [equation [x ++ lastSuffix n, "#b1".toList]]) ++
    t.pairs.map fun p => [equation [p.2 ++ suffix 0, "#b0".toList]]

def Transition.copiedDecls (n : ℕ) : List Command :=
  (List.range n).flatMap fun i =>
    (t.decls.filter fun d => d.name.str ∉ t.shared).map fun d =>
      Command.rename (t.copyName i) d.command

def Transition.copiedAsserts (n : ℕ) : List Command :=
  (List.range n).flatMap fun i => (t.asserts.filter t.forked).map (Command.rename (t.copyName i))

def Transition.output (n : ℕ) : List Command :=
  (t.decls.filter fun d => d.name.str ∈ t.shared).map Decl.command ++ t.copiedDecls n ++
    t.asserts.filter (fun c => !t.forked c) ++ t.copiedAsserts n ++ t.ties n

variable {t}

theorem Transition.forked_of_symbol (hx : x ∈ symbols symbol c)
    (h : t.unshared x = true) : t.forked c = true := by
  obtain ⟨_, l, hl, w, hw, rfl⟩ := mem_symbols.mp hx
  exact any_eq_true.mpr ⟨l, hl, any_eq_true.mpr ⟨w, hw, h⟩⟩

theorem Transition.copyName_of_norm (h : ¬t.forked c = true)
    (hx : x ∈ symbols symbol c) (i : ℕ) : t.copyName i x = x :=
  if_neg fun hunshared => h (t.forked_of_symbol hx hunshared)

theorem forked_lines (hc : Printed c) :
    ((commandLines c).any fun line => (tokens line).any fun token =>
      t.unshared (tokenCore token)) = t.forked c := by
  rw [commandLines, any_map, Transition.forked, Bool.eq_iff_iff, any_eq_true,
    any_eq_true]
  refine exists_congr fun l => and_congr_right fun hl => ?_
  rw [comp_apply, hc.tokens hl, any_map, any_eq_true, any_eq_true]
  refine exists_congr fun w => and_congr_right fun hw => ?_
  rw [comp_apply, tokenCore_word (hc.clean l hl w hw)]

theorem set_next {d : Dict ℕ (List Str)} {k : ℕ} (hd : ∀ i ∈ d.map Prod.fst, i ≤ k)
    (group : List Str) :
    d.set (k + 1) group = d ++ [(k + 1, group)] ∧
      ∀ i ∈ (d ++ [(k + 1, group)]).map Prod.fst, i ≤ k + 1 := by
  constructor
  · exact Dict.set_of_notMem (fun h => absurd (hd _ h) (by omega)) _
  · rw [map_append, forall_mem_append]
    exact ⟨fun i hi => (hd i hi).trans (by omega), by simp⟩

theorem Transition.foldl_assertions {cs : List Command} (hcs : ∀ c ∈ cs, c ∈ t.asserts)
    (s : AssertScan)
    (hnorm : ∀ k ∈ s.norm.map Prod.fst, k ≤ s.tIndex)
    (hfork : ∀ k ∈ s.fork.map Prod.fst, k ≤ s.tIndex) :
    let a := (cs.map commandLines).foldl (AssertScan.add t.unshared) s
    a.norm.flatMap Prod.snd =
        s.norm.flatMap Prod.snd ++ (cs.filter fun c => !t.forked c).flatMap commandLines ∧
      a.fork.flatMap Prod.snd =
        s.fork.flatMap Prod.snd ++ (cs.filter t.forked).flatMap commandLines := by
  induction cs generalizing s with
  | nil => simp
  | cons c cs ih =>
    obtain ⟨hc, hcs⟩ := forall_mem_cons.mp hcs
    have hhead : isIn "(assert".toList ((commandLines c).headD []) = true := by
      obtain ⟨ws, ls, rfl⟩ := t.assert_line hc
      exact isIn_assert_line ws
    rw [map_cons, foldl_cons, AssertScan.add, hhead, if_pos rfl,
      forked_lines (t.wellFormed.asserts_printed c hc)]
    by_cases hforked : t.forked c = true
    · obtain ⟨hset, hnew⟩ := set_next hfork (commandLines c)
      rw [if_pos hforked, hset]
      obtain ⟨h₁, h₂⟩ := ih hcs ⟨s.tIndex + 1, s.norm, _⟩
        (fun k hk => (hnorm k hk).trans (by simp)) hnew
      refine ⟨h₁.trans ?_, h₂.trans ?_⟩ <;> simp [hforked]
    · obtain ⟨hset, hnew⟩ := set_next hnorm (commandLines c)
      rw [if_neg hforked, hset]
      obtain ⟨h₁, h₂⟩ := ih hcs ⟨s.tIndex + 1, _, s.fork⟩ hnew fun k hk =>
        (hfork k hk).trans (by simp)
      refine ⟨h₁.trans ?_, h₂.trans ?_⟩ <;> simp [hforked]

theorem Transition.scanAssertions_text :
    ∃ a, scanAssertions t.unshared (readLines t.text) = some a ∧
      a.norm.flatMap Prod.snd = (t.asserts.filter fun c => !t.forked c).flatMap commandLines ∧
      a.fork.flatMap Prod.snd = (t.asserts.filter t.forked).flatMap commandLines := by
  refine ⟨_, ?_, t.foldl_assertions (fun c hc => hc) ⟨0, [], []⟩ (by simp) (by simp)⟩
  rw [scanAssertions, t.dropWhile_lines, t.takeGroups_asserts]
  rfl

variable {n : ℕ}

theorem copies_eq (h : ∀ i, f i = some (g i)) : copies n f = some ((List.range n).flatMap g) := by
  rw [copies, mapM_eq_some fun i _ => h i, Option.map_some, flatMap_def]

theorem copies_raises (hn : 1 ≤ n) (h : f 0 = none) : copies n f = none := by
  rw [copies, mapM_eq_none.mpr ⟨0, mem_range.mpr hn, h⟩]
  rfl

theorem Transition.declare_copy (i : ℕ) (hd : d ∈ t.decls) (hshared : d.name.str ∉ t.shared) :
    (commandLines d.command).mapM (renameLine (fun x => decide (x ∈ t.names)) (declaredCopy i)) =
      some (commandLines (Command.rename (t.copyName i) d.command)) := by
  have hrename := renameLine_command (t.wellFormed.decls_printed d hd)
    (p := fun x => decide (x ∈ t.names))
    (f := declaredCopy i) (g := suffixed (suffix i)) (fun l hl w hw h =>
      withSuffix_eq (ne_nil_of_symbol (t.symbol_of_mem (of_decide_eq_true h))))
  rw [hrename]
  congr 2
  refine Command.rename_congr fun l hl w hw => ?_
  by_cases h : w.core ∈ t.names
  · have hw' := t.declared_word hd hl hw h
    rw [decide_eq_true h, if_pos rfl, t.copyName_of_unshared h (hw' ▸ hshared)]
  · rw [decide_eq_false h, if_neg Bool.false_ne_true, Transition.copyName, Transition.unshared,
      decide_eq_false h, Bool.false_and, if_neg Bool.false_ne_true]

def Transition.copyAsserts (t : Transition) (i : ℕ) : Option (List Str) :=
  ((t.asserts.filter t.forked).flatMap commandLines).mapM (renameLine t.unshared (assertedCopy i))

def Transition.Unbound (t : Transition) : Prop :=
  ∃ c ∈ t.asserts, ∃ x ∈ symbols symbol c, x ∉ t.shared ∧ x.getLast? = some '|'

theorem Transition.assert_copy (h : ¬t.Unbound) (i : ℕ) (hc : c ∈ t.asserts) :
    (commandLines c).mapM (renameLine t.unshared (assertedCopy i)) =
      some (commandLines (Command.rename (t.copyName i) c)) := by
  refine renameLine_command (t.wellFormed.asserts_printed c hc) fun l hl w hw hunshared => ?_
  obtain ⟨hname, hshared⟩ := Bool.and_eq_true_iff.mp hunshared
  have hsymbol := t.symbol_of_mem (of_decide_eq_true hname)
  refine assertedCopy_eq (ne_nil_of_symbol hsymbol) fun hlast => h ?_
  exact ⟨c, hc, w.core, mem_symbols.mpr ⟨hsymbol, l, hl, w, hw, rfl⟩,
    of_decide_eq_true hshared, hlast⟩

theorem Transition.assert_raises (h : t.Unbound) (i : ℕ) : t.copyAsserts i = none := by
  obtain ⟨c, hc, x, hx, hshared, hlast⟩ := h
  have hunshared : t.unshared x = true := by
    rw [Transition.unshared, decide_eq_true hshared, Bool.and_true]
    exact decide_eq_true (t.wellFormed.covered c hc x hx)
  refine mapM_flatMap_none ⟨c, mem_filter.mpr ⟨hc, t.forked_of_symbol hx hunshared⟩, ?_⟩
  obtain ⟨_, l, hl, w, hw, rfl⟩ := mem_symbols.mp hx
  exact renameLine_command_raises (t.wellFormed.asserts_printed c hc)
    ⟨l, hl, w, hw, hunshared, assertedCopy_quoted hlast⟩

theorem equationText_pair (a b : Str) : equationText [a, b] = equationLine a b := by
  unfold equationText equationLine
  simp [join]

theorem Transition.ties_lines (n : ℕ) :
    (t.ties n).flatMap commandLines =
      tieLines n t.pairs ++ (t.bitNames t.largest).map (finalLine .off n) ++
        t.pairs.map fun p => equationLine (p.2 ++ suffix 0) "#b0".toList := by
  have hline : ∀ {α : Type} (l : List α) (f g : α → Str),
      (l.map fun x => [equation [f x, g x]]).flatMap commandLines =
        l.map fun x => equationLine (f x) (g x) := by
    intro α l f g
    rw [flatMap_map, ← flatMap_singleton' (l.map fun x => equationLine (f x) (g x)),
      flatMap_map]
    refine flatMap_congr fun x _ => ?_
    rw [commandLines, map_singleton, lineText_equation (by simp), equationText_pair]
  rw [Transition.ties, flatMap_append, flatMap_append, hline, hline, tieLines,
    flatMap_assoc]
  congr 2
  refine flatMap_congr fun i _ => ?_
  split_ifs
  · rw [hline]
  · rfl

theorem Transition.declares_eq (versions : Dict Str (List Str)) :
    Declarations.declares ⟨t.decls.map fun d => (d.name.str, commandLines d.command), versions⟩ =
      fun x => decide (x ∈ t.names) := by
  funext x
  rw [Declarations.declares, map_map]
  rfl

theorem Transition.filter_vars (p : Str → Bool) :
    ((t.decls.map fun d => (d.name.str, commandLines d.command)).filter fun e => p e.1).flatMap
      Prod.snd = (t.decls.filter fun d => p d.name.str).flatMap fun d =>
        commandLines d.command := by
  rw [filter_map, flatMap_map]
  rfl

theorem Transition.declared_copies (n : ℕ) :
    (copies n fun i => ((t.decls.filter fun d => d.name.str ∉ t.shared).flatMap
        fun d => commandLines d.command).mapM
          (renameLine (fun x => decide (x ∈ t.names)) (declaredCopy i))) =
      some ((t.copiedDecls n).flatMap commandLines) := by
  rw [copies_eq fun i => mapM_flatMap fun d hd => t.declare_copy i (mem_filter.mp hd).1
    (of_decide_eq_true (mem_filter.mp hd).2), Transition.copiedDecls, flatMap_assoc]
  congr 1
  refine flatMap_congr fun i _ => ?_
  rw [flatMap_map]

theorem Transition.asserted_copies (h : ¬t.Unbound) (n : ℕ) :
    copies n t.copyAsserts = some ((t.copiedAsserts n).flatMap commandLines) := by
  have hcopy : ∀ i, t.copyAsserts i = some ((t.asserts.filter t.forked).flatMap fun c =>
      commandLines (Command.rename (t.copyName i) c)) := fun i =>
    mapM_flatMap fun c hc => t.assert_copy h i (mem_filter.mp hc).1
  rw [copies_eq hcopy, Transition.copiedAsserts, flatMap_assoc]
  congr 1
  refine flatMap_congr fun i _ => ?_
  rw [flatMap_map]

theorem Transition.concatStates_eq :
    concatStates t.text n .off false =
      (copies n t.copyAsserts).map fun asserted =>
          ((t.decls.filter fun d => d.name.str ∈ t.shared).flatMap
              (fun d => commandLines d.command) ++ (t.copiedDecls n).flatMap commandLines ++
            (t.asserts.filter fun c => !t.forked c).flatMap commandLines ++ asserted ++
            (t.ties n).flatMap commandLines).flatten := by
  obtain ⟨a, ha, hnorm, hfork⟩ := t.scanAssertions_text
  have hshared : forkVarSet (fun x => decide (x ∈ t.names)) (readLines t.text) = t.shared := rfl
  have hunshared : (fun x => decide (x ∈ t.names) && decide (x ∉ t.shared)) = t.unshared := rfl
  have hcopies : (fun i => ((t.asserts.filter t.forked).flatMap commandLines).mapM
      (renameLine t.unshared (assertedCopy i))) = t.copyAsserts := rfl
  unfold concatStates
  simp only [t.scanDeclarations_text, Option.bind_eq_bind, Option.bind_some, t.declares_eq, hshared,
    hunshared, ha, hnorm, hfork, hcopies, t.groupVersions_eq, t.versionLines_eq, t.ties_lines]
  rw [t.filter_vars fun x => decide (x ∈ t.shared), t.filter_vars fun x => decide (x ∉ t.shared),
    t.declared_copies, Option.bind_some]
  cases copies n t.copyAsserts with
  | none | some asserted => rfl

theorem Transition.concatStates_text (h : ¬t.Unbound) :
    concatStates t.text n .off false = some (scriptText (t.output n)) := by
  rw [t.concatStates_eq, t.asserted_copies h, Option.map_some, scriptText, Transition.output]
  simp only [flatMap_append, flatMap_map]

theorem Transition.concatStates_raises (hn : 1 ≤ n) (h : t.Unbound) :
    concatStates t.text n .off false = none := by
  rw [t.concatStates_eq, copies_raises hn (t.assert_raises h 0)]
  rfl

end Output

section Reading

variable {t : Transition}

theorem suffix_clean (n : ℕ) : Solid (suffix n) := Solid.number (forall_chars (by decide)) n

theorem Transition.renaming (i : ℕ) : Renaming (t.copyName i) :=
  renaming_suffixed (fun _ hx => of_decide_eq_true (Bool.and_eq_true_iff.mp hx).1) (suffix_clean i)

theorem lastSuffix_eq (hn : 1 ≤ n) : lastSuffix n = suffix (n - 1) := by
  obtain ⟨m, rfl⟩ := Nat.exists_eq_add_of_le' hn
  rfl

theorem Transition.bit_declared (hc : c = t.largest ∨ c = t.second)
    (hm : m ∈ t.components) : (bit c m).str ∈ t.names := by
  refine t.bits_declared c ?_ m hm
  rcases hc with rfl | rfl <;> simp

theorem Transition.bit_clean (hc : c = t.largest ∨ c = t.second)
    (hx : x ∈ t.bitNames c) (n : ℕ) : Solid (x ++ suffix n) := by
  obtain ⟨m, hm, rfl⟩ := (t.mem_bitNames hc).mp hx
  exact (t.name_clean (t.bit_declared hc hm)).append (suffix_clean n)

theorem Transition.mem_ties (hn : 1 ≤ n) (hc : c ∈ t.ties n) : ∃ a b, c = [equation [a, b]] ∧
      (∃ x i, i < n ∧ a = x ++ suffix i ∧ (x ∈ t.bitNames t.largest ∨ x ∈ t.bitNames t.second)) ∧
      ((∃ x i, i < n ∧ b = x ++ suffix i ∧ x ∈ t.bitNames t.second) ∨ b = "#b1".toList ∨
        b = "#b0".toList) := by
  rw [Transition.ties, mem_append, mem_append] at hc
  rcases hc with (hc | hc) | hc
  · obtain ⟨i, _, hc⟩ := mem_flatMap.mp hc
    split_ifs at hc with hi
    · obtain ⟨⟨x, y⟩, hp, rfl⟩ := mem_map.mp hc
      obtain ⟨hx, hy⟩ := of_mem_zip hp
      exact ⟨_, _, rfl, ⟨x, i, by omega, rfl, Or.inl hx⟩, Or.inl ⟨y, i + 1, hi, rfl, hy⟩⟩
    · cases hc
  · obtain ⟨x, hx, rfl⟩ := mem_map.mp hc
    refine ⟨_, _, rfl, ⟨x, n - 1, by omega, ?_, Or.inl hx⟩, Or.inr (Or.inl rfl)⟩
    rw [lastSuffix_eq hn]
  · obtain ⟨⟨x, y⟩, hp, rfl⟩ := mem_map.mp hc
    exact ⟨_, _, rfl, ⟨y, 0, hn, rfl, Or.inr (of_mem_zip hp).2⟩, Or.inr (Or.inr rfl)⟩

theorem Transition.output_printed {n : ℕ} (hn : 1 ≤ n) : ∀ c ∈ t.output n, Printed c := by
  intro c hc
  rw [Transition.output, mem_append, mem_append, mem_append, mem_append] at hc
  rcases hc with (((hc | hc) | hc) | hc) | hc
  · obtain ⟨d, hd, rfl⟩ := mem_map.mp hc
    exact t.wellFormed.decls_printed d (mem_filter.mp hd).1
  · obtain ⟨i, _, hc⟩ := mem_flatMap.mp hc
    obtain ⟨d, hd, rfl⟩ := mem_map.mp hc
    exact (t.renaming i).printed (t.wellFormed.decls_printed d (mem_filter.mp hd).1)
  · exact t.wellFormed.asserts_printed c (mem_filter.mp hc).1
  · obtain ⟨i, _, hc⟩ := mem_flatMap.mp hc
    obtain ⟨a, ha, rfl⟩ := mem_map.mp hc
    exact (t.renaming i).printed (t.wellFormed.asserts_printed a (mem_filter.mp ha).1)
  · have hone : Solid "#b1".toList := forall_chars (by decide)
    have hzero : Solid "#b0".toList := forall_chars (by decide)
    obtain ⟨a, b, rfl, ⟨x, i, _, rfl, hx⟩, hb⟩ := t.mem_ties hn hc
    refine equation_printed (by simp) (forall_mem_cons.mpr ⟨?_, forall_mem_singleton.mpr ?_⟩)
    · exact hx.elim (fun hx => t.bit_clean (Or.inl rfl) hx i) fun hx =>
        t.bit_clean (Or.inr rfl) hx i
    · rcases hb with ⟨y, j, _, rfl, hy⟩ | rfl | rfl
      · exact t.bit_clean (Or.inr rfl) hy j
      · exact hone
      · exact hzero

end Reading

section Meaning

variable {t : Transition}

def Transition.sharedNames (t : Transition) : List Str := t.names.filter fun x => x ∈ t.shared

def Transition.ownNames (t : Transition) : List Str := t.names.filter fun x => x ∉ t.shared

/-- The declarations of the output: the number of a copy and a symbol of the formula. -/
def Transition.places (t : Transition) (n : ℕ) : List (ℕ × Str) :=
  t.sharedNames.map (Prod.mk 0) ++ (List.range n).product t.ownNames

variable {n : ℕ} {x : Str}

theorem Transition.mem_places :
    (i, x) ∈ t.places n ↔ x ∈ t.names ∧ if x ∈ t.shared then i = 0 else i < n := by
  rw [Transition.places, mem_append, pair_mem_product, mem_range]
  by_cases hshared : x ∈ t.shared
  · simp [Transition.sharedNames, Transition.ownNames, hshared, eq_comm]
  · simp [Transition.sharedNames, Transition.ownNames, hshared, and_comm]

theorem Transition.place_lt (hn : 1 ≤ n) (hp : p ∈ t.places n) : p.1 < n ∧ p.2 ∈ t.names := by
  obtain ⟨hname, hi⟩ := t.mem_places.mp hp
  split_ifs at hi
  · exact ⟨hi ▸ hn, hname⟩
  · exact ⟨hi, hname⟩

theorem Transition.exists_place (hi : i < n) (hx : x ∈ t.names) :
    ∃ k, (k, x) ∈ t.places n ∧ t.copyName k x = t.copyName i x := by
  by_cases hshared : x ∈ t.shared
  · refine ⟨0, t.mem_places.mpr ⟨hx, by rw [if_pos hshared]⟩, ?_⟩
    rw [t.copyName_of_shared hshared, t.copyName_of_shared hshared]
  · exact ⟨i, t.mem_places.mpr ⟨hx, by rwa [if_neg hshared]⟩, rfl⟩

theorem Transition.nodup_places : (t.places n).Nodup := by
  have hnames := t.wellFormed.distinct
  refine ((hnames.filter _).map (Prod.mk_right_injective 0)).append
    (nodup_range.product (hnames.filter _)) (disjoint_left.mpr ?_)
  rintro ⟨i, x⟩ hx hown
  obtain ⟨y, hy, he⟩ := mem_map.mp hx
  cases he
  exact of_decide_eq_true (mem_filter.mp (pair_mem_product.mp hown).2).2
    (of_decide_eq_true (mem_filter.mp hy).2)

theorem Transition.ties_assert (hn : 1 ≤ n) : ∀ c ∈ t.ties n, isAssertion c = true := by
  intro c hc
  obtain ⟨a, b, rfl, _⟩ := t.mem_ties hn hc
  exact isAssertion_equation _

theorem Transition.copiedAsserts_assert : ∀ c ∈ t.copiedAsserts n, isAssertion c = true := by
  intro c hc
  obtain ⟨i, _, hc⟩ := mem_flatMap.mp hc
  obtain ⟨a, ha, rfl⟩ := mem_map.mp hc
  exact (t.renaming i).isAssertion (t.wellFormed.asserts_head a (mem_filter.mp ha).1)

theorem Transition.declared_output (hn : 1 ≤ n) :
    declared (t.output n) = (t.places n).map fun p => t.copyName p.1 p.2 := by
  have hshared : declared ((t.decls.filter fun d => d.name.str ∈ t.shared).map Decl.command) =
      (t.sharedNames.map (Prod.mk 0)).map fun p => t.copyName p.1 p.2 := by
    have hkept : ∀ x ∈ t.sharedNames, t.copyName 0 x = id x := fun x hx =>
      t.copyName_of_shared (of_decide_eq_true (mem_filter.mp hx).2)
    rw [map_map, filterMap_decls _ _ id declaredName_command, comp_def, map_congr_left hkept,
      Transition.sharedNames, Formula.names, filter_map]
    rfl
  have hcopied : declared (t.copiedDecls n) =
      ((List.range n).product t.ownNames).map fun p => t.copyName p.1 p.2 := by
    rw [Transition.copiedDecls, declared, filterMap_flatMap, List.product, map_flatMap]
    refine flatMap_congr fun i _ => ?_
    rw [← declared, filterMap_decls _ _ _ (t.renaming i).declaredName, Transition.ownNames,
      Formula.names, filter_map]
    simp only [map_map]
    rfl
  have hnorm : declared (t.asserts.filter fun c => !t.forked c) = [] :=
    declared_assertions fun c hc => t.wellFormed.asserts_head c (mem_filter.mp hc).1
  rw [Transition.output, declared_append, declared_append, declared_append,
    declared_append, hshared,
    hcopied, hnorm, declared_assertions t.copiedAsserts_assert,
    declared_assertions (t.ties_assert hn), Transition.places, map_append]
  simp only [append_nil]

theorem Transition.mem_declared (hn : 1 ≤ n) :
    y ∈ declared (t.output n) ↔ ∃ i < n, ∃ x ∈ t.names, t.copyName i x = y := by
  rw [t.declared_output hn, mem_map]
  constructor
  · rintro ⟨p, hp, rfl⟩
    obtain ⟨hi, hx⟩ := t.place_lt hn hp
    exact ⟨_, hi, _, hx, rfl⟩
  · rintro ⟨i, hi, x, hx, rfl⟩
    obtain ⟨k, hk, he⟩ := t.exists_place hi hx
    exact ⟨_, hk, he⟩

variable {V : Type}

/-- `n` valuations of the formula, connected by the version variables. -/
structure Chain (t : Transition) (n : ℕ) (S : Semantics V) (vs : ℕ → Str → V) : Prop where
  models : ∀ i < n, Satisfies symbol S (vs i) t.commands
  agree : ∀ i < n, ∀ j < n, ∀ x ∈ t.shared, vs i x = vs j x
  tied : ∀ i, i + 1 < n → ∀ m ∈ t.components,
    vs i (bit t.largest m).str = vs (i + 1) (bit t.second m).str
  zeros : ∀ m ∈ t.components, vs 0 (bit t.second m).str = S.literal "#b0".toList
  ones : ∀ m ∈ t.components, vs (n - 1) (bit t.largest m).str = S.literal "#b1".toList

/-- Copy `i` of a symbol has its value in valuation `i`. -/
def Given (t : Transition) (n : ℕ) (v : Str → V) (vs : ℕ → Str → V) : Prop :=
  ∀ i < n, ∀ x ∈ t.names, v (t.copyName i x) = vs i x

/-- The output is the `n`-fold copy of the formula. -/
structure IsCopy (t : Transition) (n : ℕ) (out : Str) : Prop where
  declared_once : ∀ x ∈ used symbol (readScript out), (declared (readScript out)).count x = 1
  satisfies : ∀ (V : Type) (S : Semantics V) (v : Str → V),
    Satisfies symbol S v (readScript out) ↔ ∃ vs, Given t n v vs ∧ Chain t n S vs
  complete : ∀ (V : Type) (S : Semantics V) (vs : ℕ → Str → V), Chain t n S vs →
    ∃ v, Given t n v vs

/-- Symbols of the copies that occur in assertions are plain, so are the version
variables, and no two symbols get the same name. -/
structure Separable (t : Transition) (n : ℕ) : Prop where
  asserted : ∀ c ∈ t.asserts, ∀ x ∈ symbols symbol c, x ∉ t.shared → x.getLast? ≠ some '|'
  bits : ∀ m ∈ t.components, m.quoted = false
  distinct : ∀ i < n, ∀ j < n, ∀ x ∈ t.names, ∀ y ∈ t.names,
    t.copyName i x = t.copyName j y → x = y

variable {S : Semantics V} {v : Str → V}

theorem Transition.holdsAt_norm (hforked : ¬t.forked c = true) (i : ℕ) :
    holdsAt symbol S (v ∘ t.copyName i) c ↔ holdsAt symbol S v c :=
  holdsAt_congr fun _ hx => congrArg v (t.copyName_of_norm hforked hx i)

theorem Transition.copied_mem (hi : i < n) (hc : c ∈ t.asserts) (hforked : t.forked c = true) :
    Command.rename (t.copyName i) c ∈ t.copiedAsserts n :=
  mem_flatMap.mpr ⟨i, mem_range.mpr hi, mem_map_of_mem (mem_filter.mpr ⟨hc, hforked⟩)⟩

theorem Transition.asserted_output (hc : c ∈ t.output n) (hassert : isAssertion c = true) :
    (c ∈ t.asserts ∧ ¬t.forked c = true) ∨
      (∃ i < n, ∃ a ∈ t.asserts, c = Command.rename (t.copyName i) a) ∨ c ∈ t.ties n := by
  rw [Transition.output, mem_append, mem_append, mem_append, mem_append] at hc
  rcases hc with (((hc | hc) | hc) | hc) | hc
  · obtain ⟨d, _, rfl⟩ := mem_map.mp hc
    rw [isAssertion_decl] at hassert
    cases hassert
  · obtain ⟨i, _, hc⟩ := mem_flatMap.mp hc
    obtain ⟨d, _, rfl⟩ := mem_map.mp hc
    rw [(t.renaming i).isAssertion_decl] at hassert
    cases hassert
  · obtain ⟨hc, hforked⟩ := mem_filter.mp hc
    exact Or.inl ⟨hc, by simpa using hforked⟩
  · obtain ⟨i, hi, hc⟩ := mem_flatMap.mp hc
    obtain ⟨a, ha, rfl⟩ := mem_map.mp hc
    exact Or.inr (Or.inl ⟨i, mem_range.mp hi, a, (mem_filter.mp ha).1, rfl⟩)
  · exact Or.inr (Or.inr hc)

theorem Transition.satisfies_output (hn : 1 ≤ n) :
    Satisfies symbol S v (t.output n) ↔
      (∀ i < n, Satisfies symbol S (v ∘ t.copyName i) t.commands) ∧
        ∀ c ∈ t.ties n, holdsAt symbol S v c := by
  have hcopy : ∀ i c, holdsAt symbol S v (Command.rename (t.copyName i) c) ↔
      holdsAt symbol S (v ∘ t.copyName i) c := fun i c =>
    holdsAt_rename ((t.renaming i).symbols) fun x hx => (t.renaming _).keeps x hx
  simp only [t.satisfies_commands]
  constructor
  · intro h
    refine ⟨fun i hi c hc => ?_, fun c hc => ?_⟩
    · by_cases hforked : t.forked c = true
      · rw [← hcopy]
        have hmem := t.copied_mem hi hc hforked
        refine h _ ?_ (t.copiedAsserts_assert _ hmem)
        simp [Transition.output, hmem]
      · rw [t.holdsAt_norm hforked]
        refine h c ?_ (t.wellFormed.asserts_head c hc)
        simp [Transition.output, hc, hforked]
    · refine h c ?_ (t.ties_assert hn c hc)
      simp [Transition.output, hc]
  · rintro ⟨hmodels, hties⟩ c hc hassert
    rcases t.asserted_output hc hassert with ⟨hc, hforked⟩ | ⟨i, hi, a, ha, rfl⟩ | hc
    · rw [← t.holdsAt_norm hforked 0]
      exact hmodels 0 hn c hc
    · rw [hcopy]
      exact hmodels i hi a ha
    · exact hties c hc

def Transition.ordered (t : Transition) : List Component :=
  t.components.insertionSort fun a b => strLe a.field b.field

variable {m : Component}

theorem Transition.mem_ordered : m ∈ t.ordered ↔ m ∈ t.components :=
  (perm_insertionSort _ _).mem_iff

instance : Std.Total fun a b : Str => strLe a b = true := ⟨strLe_total⟩

instance : IsTrans Str fun a b => strLe a b = true := ⟨fun _ _ _ => strLe_trans⟩

instance : Std.Total fun a b : Component => strLe a.field b.field = true :=
  ⟨fun a b => strLe_total a.field b.field⟩

instance : IsTrans Component fun a b => strLe a.field b.field = true :=
  ⟨fun _ _ _ => strLe_trans⟩

variable {c : Copy}

theorem bit_plain (h : m.quoted = false) : (bit c m).str = c.base ++ m.field := by
  show quote m.quoted (c.base ++ m.field) = _
  rw [h]
  rfl

theorem Transition.bitNames_plain (hbits : ∀ m ∈ t.components, m.quoted = false)
    (hc : c = t.largest ∨ c = t.second) : t.bitNames c = t.ordered.map fun m => (bit c m).str := by
  refine @List.Perm.eq_of_pairwise Str (fun a b => strLe a b = true) _ _
    (fun a b _ _ => strLe_antisymm) (pairwise_insertionSort _ _) ?_ ?_
  · rw [pairwise_map]
    refine (pairwise_insertionSort _ t.components).imp_of_mem fun {a b} ha hb h => ?_
    rw [bit_plain (hbits a (t.mem_ordered.mp ha)), bit_plain (hbits b (t.mem_ordered.mp hb)),
      strLe_append]
    exact h
  · exact (t.bitNames_perm hc).trans ((perm_insertionSort _ _).symm.map _)

theorem Transition.pairs_plain (hbits : ∀ m ∈ t.components, m.quoted = false) :
    t.pairs = t.ordered.map fun m => ((bit t.largest m).str, (bit t.second m).str) := by
  rw [Transition.pairs, t.bitNames_plain hbits (Or.inl rfl), t.bitNames_plain hbits (Or.inr rfl),
    zip_map']

theorem Transition.bit_copy (hc : c = t.largest ∨ c = t.second) (hm : m ∈ t.components)
    (hplain : m.quoted = false) (i : ℕ) :
    (bit c m).str ++ suffix i = t.copyName i (bit c m).str := by
  rw [t.copyName_of_unshared (t.bit_declared hc hm) (t.bit_unshared c m), suffixed_str,
    bit_plain hplain]
  show _ = quote m.quoted _
  rw [hplain]
  rfl

theorem Transition.symbol_bit (i : ℕ) (c : Copy) (m : Component) :
    symbol (t.copyName i (bit c m).str) = true := by
  rw [(t.renaming i).symbols, (bit c m).symbol_str]

theorem Transition.holdsAt_tie :
    holdsAt symbol S v [equation [t.copyName i (bit c m).str, t.copyName j (bit c' m).str]] ↔
      v (t.copyName i (bit c m).str) = v (t.copyName j (bit c' m).str) := by
  rw [holdsAt_equation frame_symbol, forall_mem_singleton]
  exact forall_mem_cons.mpr
    ⟨t.symbol_bit _ _ _, forall_mem_singleton.mpr (t.symbol_bit _ _ _)⟩

theorem Transition.holdsAt_ties (hn : 1 ≤ n) (hbits : ∀ m ∈ t.components, m.quoted = false) :
    (∀ c ∈ t.ties n, holdsAt symbol S v c) ↔
      (∀ i, i + 1 < n → ∀ m ∈ t.components,
        v (t.copyName i (bit t.largest m).str) = v (t.copyName (i + 1) (bit t.second m).str)) ∧
      (∀ m ∈ t.components, v (t.copyName (n - 1) (bit t.largest m).str) = S.literal "#b1".toList) ∧
      ∀ m ∈ t.components, v (t.copyName 0 (bit t.second m).str) = S.literal "#b0".toList := by
  have hlargest := fun m hm => t.bit_copy (Or.inl rfl) hm (hbits m hm)
  have hsecond := fun m hm => t.bit_copy (Or.inr rfl) hm (hbits m hm)
  rw [Transition.ties, t.pairs_plain hbits, t.bitNames_plain hbits (Or.inl rfl), lastSuffix_eq hn,
    forall_mem_append, forall_mem_append, and_assoc]
  simp only [map_map, forall_mem_map, comp_def, t.mem_ordered]
  refine and_congr ?_ (and_congr ?_ ?_)
  · simp only [mem_flatMap, mem_range, forall_exists_index, and_imp]
    constructor
    · intro h i hi m hm
      have hmem := h _ i (by omega) (by
        rw [if_pos hi]
        exact mem_map_of_mem (t.mem_ordered.mpr hm))
      rw [hlargest m hm, hsecond m hm, t.holdsAt_tie]
        at hmem
      exact hmem
    · intro h c i _ hc
      split_ifs at hc with hi
      · obtain ⟨m, hm, rfl⟩ := mem_map.mp hc
        have hm := t.mem_ordered.mp hm
        rw [hlargest m hm, hsecond m hm, t.holdsAt_tie]
        exact h i hi m hm
      · cases hc
  · refine forall_congr' fun m => forall_congr' fun hm => ?_
    rw [hlargest m hm, holdsAt_literal frame_symbol (t.symbol_bit _ _ _) (by decide)]
  · refine forall_congr' fun m => forall_congr' fun hm => ?_
    rw [hsecond m hm, holdsAt_literal frame_symbol (t.symbol_bit _ _ _) (by decide)]

theorem suffixed_index {x : Name}
    (h : suffixed (suffix i) x.str = suffixed (suffix j) x.str) : i = j := by
  rw [suffixed_str, suffixed_str] at h
  exact ofNat_injective (append_cancel_left (append_cancel_left (quote_injective h)))

theorem Separable.nodup (hn : 1 ≤ n) (h : Separable t n) : (declared (t.output n)).Nodup := by
  rw [t.declared_output hn]
  refine t.nodup_places.map_on ?_
  rintro ⟨i, x⟩ hp ⟨j, y⟩ hq he
  obtain ⟨hi, hx⟩ := t.place_lt hn hp
  obtain ⟨hj, hy⟩ := t.place_lt hn hq
  obtain rfl : x = y := h.distinct i hi j hj x hx y hy he
  by_cases hshared : x ∈ t.shared
  · have hp := (t.mem_places.mp hp).2
    have hq := (t.mem_places.mp hq).2
    rw [if_pos hshared] at hp hq
    rw [hp, hq]
  · rw [t.copyName_of_unshared hx hshared, t.copyName_of_unshared hx hshared] at he
    obtain ⟨d, _, rfl⟩ := t.exists_name hx
    exact congrArg (·, d.name.str) (suffixed_index he)

theorem Separable.used_declared (hn : 1 ≤ n) (h : Separable t n) {x : Str}
    (hx : x ∈ used symbol (t.output n)) :
    x ∈ declared (t.output n) := by
  rw [t.mem_declared hn]
  obtain ⟨c, hc, hassert, hx⟩ := mem_used.mp hx
  have htie : ∀ {c : Copy} (_ : c = t.largest ∨ c = t.second) {y : Str} {i : ℕ}, i < n →
      y ∈ t.bitNames c → ∃ j < n, ∃ z ∈ t.names, t.copyName j z = y ++ suffix i := by
    intro c hc y i hi hy
    obtain ⟨m, hm, rfl⟩ := (t.mem_bitNames hc).mp hy
    exact ⟨i, hi, _, t.bit_declared hc hm, (t.bit_copy hc hm (h.bits m hm) i).symm⟩
  rcases t.asserted_output hc hassert with ⟨hc, hforked⟩ | ⟨i, hi, a, ha, rfl⟩ | hc
  · exact ⟨0, hn, x, t.wellFormed.covered c hc x hx, t.copyName_of_norm hforked hx 0⟩
  · rw [symbols_rename ((t.renaming i).symbols)] at hx
    obtain ⟨y, hy, rfl⟩ := mem_map.mp hx
    exact ⟨i, hi, y, t.wellFormed.covered a ha y hy, rfl⟩
  · obtain ⟨a, b, rfl, ⟨y, i, hi, rfl, hy⟩, hb⟩ := t.mem_ties hn hc
    obtain ⟨hsymbol, hargs⟩ := (mem_symbols_equation frame_symbol).mp hx
    rcases mem_pair.mp hargs with rfl | rfl
    · exact hy.elim (htie (Or.inl rfl) hi) (htie (Or.inr rfl) hi)
    · rcases hb with ⟨z, j, hj, rfl, hz⟩ | rfl | rfl
      · exact htie (Or.inr rfl) hj hz
      · exact absurd hsymbol (by decide)
      · exact absurd hsymbol (by decide)

end Meaning

section Exactness

variable {t : Transition} {n : ℕ}

theorem mem_zip_of_mem {α β : Type} {l : List α} {r : List β} (h : l.length = r.length) {b : β}
    (hb : b ∈ r) : ∃ a, (a, b) ∈ l.zip r := by
  have hsnd : (l.zip r).map Prod.snd = r := map_snd_zip h.ge
  rw [← hsnd] at hb
  obtain ⟨⟨a, b⟩, hp, rfl⟩ := mem_map.mp hb
  exact ⟨a, hp⟩

variable {x : Str}

theorem Transition.final_mem_ties (hn : 1 ≤ n) (hx : x ∈ t.bitNames t.largest) :
    [equation [x ++ suffix (n - 1), "#b1".toList]] ∈ t.ties n := by
  rw [Transition.ties, lastSuffix_eq hn, mem_append, mem_append]
  exact Or.inl (Or.inr (mem_map_of_mem hx))

theorem Transition.first_mem_ties (hx : x ∈ t.bitNames t.second) :
    [equation [x ++ suffix 0, "#b0".toList]] ∈ t.ties n := by
  have hlength := (t.length_bitNames (Or.inl rfl)).trans (t.length_bitNames (Or.inr rfl)).symm
  obtain ⟨y, hy⟩ := mem_zip_of_mem hlength hx
  rw [Transition.ties, mem_append]
  exact Or.inr (mem_map.mpr ⟨(y, x), hy, rfl⟩)

theorem Transition.ties_mem_output (hc : c ∈ t.ties n) : c ∈ t.output n :=
  mem_append_right _ hc

theorem bar_notMem_suffix (i : ℕ) : '|' ∉ suffix i := bar_notMem_number (by decide) i

theorem Transition.barred (hx : x ∈ t.names) (h : (t.copyName i x).head? = some '|') :
    (t.copyName i x).getLast? = some '|' := by
  obtain ⟨d, _, rfl⟩ := t.exists_name hx
  rw [Transition.copyName] at h ⊢
  split_ifs at h ⊢
  · rw [suffixed_str] at h ⊢
    exact getLast?_quote (by simp [d.name.unbarred, bar_notMem_suffix]) h
  · exact getLast?_quote d.name.unbarred h

theorem two_le_count {α β : Type} [BEq β] [LawfulBEq β] {l : List α} {f : α → β} {a b : α}
    (ha : a ∈ l) (hb : b ∈ l) (hne : a ≠ b) (hf : f a = f b) : 2 ≤ (l.map f).count (f a) := by
  obtain ⟨r, u, rfl⟩ := append_of_mem ha
  have hother : 0 < (r.map f).count (f a) + (u.map f).count (f a) := by
    rcases mem_append.mp hb with hb | hb
    · exact Nat.add_pos_left (count_pos_iff.mpr (hf ▸ mem_map_of_mem hb)) _
    · have hb := (mem_cons.mp hb).resolve_left (Ne.symm hne)
      exact Nat.add_pos_right _ (count_pos_iff.mpr (hf ▸ mem_map_of_mem hb))
  rw [map_append, map_cons, count_append, count_cons_self]
  omega

theorem Transition.clash_count (hn : 1 ≤ n) (hi : i < n) (hj : j < n)
    (hx : x ∈ t.names) (hy : y ∈ t.names) (hne : x ≠ y) (h : t.copyName i x = t.copyName j y) :
    2 ≤ (declared (t.output n)).count (t.copyName i x) := by
  obtain ⟨k, hk, hkx⟩ := t.exists_place hi hx
  obtain ⟨l, hl, hly⟩ := t.exists_place hj hy
  have hf : t.copyName k x = t.copyName l y := by rw [hkx, h, hly]
  rw [t.declared_output hn, ← hkx]
  exact two_le_count (f := fun p : ℕ × Str => t.copyName p.1 p.2) hk hl
    (fun he => hne (Prod.mk.inj he).2) hf

theorem Transition.used_of_asserted (hi : i < n) (hc : c ∈ t.asserts)
    (hx : x ∈ symbols symbol c) : t.copyName i x ∈ used symbol (t.output n) := by
  rw [mem_used]
  by_cases hforked : t.forked c = true
  · have hmem := t.copied_mem hi hc hforked
    refine ⟨_, by simp [Transition.output, hmem], t.copiedAsserts_assert _ hmem, ?_⟩
    rw [symbols_rename ((t.renaming i).symbols)]
    exact mem_map_of_mem hx
  · refine ⟨c, by simp [Transition.output, hc, hforked], t.wellFormed.asserts_head c hc, ?_⟩
    rwa [t.copyName_of_norm hforked hx]

theorem Transition.used_of_tie (hn : 1 ≤ n) (hc : [equation [a, b]] ∈ t.ties n)
    (hsymbol : symbol x = true) (hx : x = a ∨ x = b) : x ∈ used symbol (t.output n) := by
  refine mem_used.mpr ⟨_, t.ties_mem_output hc, t.ties_assert hn _ hc, ?_⟩
  exact (mem_symbols_equation frame_symbol).mpr ⟨hsymbol, mem_pair.mpr hx⟩

theorem Transition.used_of_bit (hn : 1 ≤ n) (hbits : ∀ m ∈ t.components, m.quoted = false)
    (hi : i < n) (hc : c = t.largest ∨ c = t.second)
    (hm : m ∈ t.components) : t.copyName i (bit c m).str ∈ used symbol (t.output n) := by
  have hsymbol := t.symbol_bit i c m
  have htie : ∀ k, k + 1 < n → [equation [(bit t.largest m).str ++ suffix k,
      (bit t.second m).str ++ suffix (k + 1)]] ∈ t.ties n := by
    intro k hk
    rw [Transition.ties, t.pairs_plain hbits, mem_append, mem_append]
    refine Or.inl (Or.inl (mem_flatMap.mpr ⟨k, mem_range.mpr (by omega), ?_⟩))
    rw [if_pos hk]
    exact mem_map.mpr ⟨_, mem_map_of_mem (t.mem_ordered.mpr hm), rfl⟩
  rw [← t.bit_copy hc hm (hbits m hm) i] at hsymbol ⊢
  rcases hc with rfl | rfl
  · by_cases hlast : i + 1 < n
    · exact t.used_of_tie hn (htie i hlast) hsymbol (Or.inl rfl)
    · have hi : i = n - 1 := by omega
      subst hi
      exact t.used_of_tie hn (t.final_mem_ties hn ((t.mem_bitNames (Or.inl rfl)).mpr ⟨m, hm, rfl⟩))
        hsymbol (Or.inl rfl)
  · cases i with
    | zero =>
      exact t.used_of_tie hn (t.first_mem_ties ((t.mem_bitNames (Or.inr rfl)).mpr ⟨m, hm, rfl⟩))
        hsymbol (Or.inl rfl)
    | succ k => exact t.used_of_tie hn (htie k hi) hsymbol (Or.inr rfl)

theorem bits_of_once (hn : 1 ≤ n) (honce : ∀ x ∈ used symbol (t.output n),
    (declared (t.output n)).count x = 1) : ∀ m ∈ t.components, m.quoted = false := by
  intro m hm
  by_contra hquoted
  rw [Bool.not_eq_false] at hquoted
  -- the equation with the last copy appends the suffix behind the closing bar
  have hx : (bit t.largest m).str ∈ t.bitNames t.largest :=
    (t.mem_bitNames (Or.inl rfl)).mpr ⟨m, hm, rfl⟩
  have hhead : ((bit t.largest m).str ++ suffix (n - 1)).head? = some '|' := by
    show (quote m.quoted _ ++ _).head? = _
    rw [hquoted]
    rfl
  have hsymbol : symbol ((bit t.largest m).str ++ suffix (n - 1)) = true := by
    obtain ⟨r, hr⟩ := head?_eq_some_iff.mp hhead
    rw [hr]
    exact symbol_iff.mpr (Or.inr (Or.inr ⟨r, rfl⟩))
  have hcount := honce _ (t.used_of_tie hn (t.final_mem_ties hn hx) hsymbol (Or.inl rfl))
  have hdeclared := count_pos_iff.mp (hcount ▸ Nat.one_pos)
  obtain ⟨i, hi, y, hy, he⟩ := (t.mem_declared hn).mp hdeclared
  rw [← he] at hhead
  have hlast := t.barred hy hhead
  rw [he] at hlast
  exact getLast?_number (by decide) _ _ hlast

theorem distinct_of_copy (hn : 1 ≤ n)
    (honce : ∀ x ∈ used symbol (t.output n), (declared (t.output n)).count x = 1)
    (hcomplete : ∀ (V : Type) (S : Semantics V) (vs : ℕ → Str → V), Chain t n S vs →
      ∃ v, Given t n v vs) :
    ∀ i < n, ∀ j < n, ∀ x ∈ t.names, ∀ y ∈ t.names, t.copyName i x = t.copyName j y → x = y := by
  intro i hi j hj x hx y hy he
  by_contra hne
  have hbits := bits_of_once hn honce
  have hunused : t.copyName i x ∉ used symbol (t.output n) := by
    intro hused
    have hcount := t.clash_count hn hi hj hx hy hne he
    rw [honce _ hused] at hcount
    omega
  have hasserts : ∀ c ∈ t.asserts, x ∉ symbols symbol c := fun c hc h =>
    hunused (t.used_of_asserted hi hc h)
  have hbit : ∀ c, c = t.largest ∨ c = t.second → ∀ m ∈ t.components, (bit c m).str ≠ x :=
    fun c hc m hm h => hunused (h ▸ t.used_of_bit hn hbits hi hc hm)
  -- nothing is said about `x`, so that it may differ from all other symbols
  have hchain : Chain t n (Semantics.free (fun _ => True) fun _ => false) fun _ z =>
      decide (z = x) := by
    refine ⟨?_, fun _ _ _ _ _ _ => rfl, ?_, ?_, ?_⟩
    · intro k _
      rw [t.satisfies_commands]
      intro c hc
      refine holdsAt_free (fun z hz => decide_eq_false ?_) trivial
      rintro rfl
      exact hasserts c hc hz
    · intro k _ m hm
      rw [decide_eq_false (hbit _ (Or.inl rfl) m hm), decide_eq_false (hbit _ (Or.inr rfl) m hm)]
    · exact fun m hm => decide_eq_false (hbit _ (Or.inr rfl) m hm)
    · exact fun m hm => decide_eq_false (hbit _ (Or.inl rfl) m hm)
  obtain ⟨v, hv⟩ := hcomplete Bool _ _ hchain
  have htrue : v (t.copyName i x) = true := (hv i hi x hx).trans (decide_eq_true rfl)
  have hfalse : v (t.copyName j y) = false := (hv j hj y hy).trans (decide_eq_false (Ne.symm hne))
  rw [he, hfalse] at htrue
  cases htrue

theorem Separable.complete (h : Separable t n) {V : Type} {S : Semantics V}
    {vs : ℕ → Str → V} (hchain : Chain t n S vs) : ∃ v, Given t n v vs := by
  let f : {p : ℕ × Str // p.1 < n ∧ p.2 ∈ t.names} → Str := fun p => t.copyName p.1.1 p.1.2
  have hfactors : FactorsThrough (fun p => vs p.1.1 p.1.2) f := by
    rintro ⟨⟨j, y⟩, hj, hy⟩ ⟨⟨i, x⟩, hi, hx⟩ he
    obtain rfl : y = x := h.distinct j hj i hi y hy x hx he
    by_cases hshared : y ∈ t.shared
    · exact hchain.agree j hj i hi y hshared
    · have he : t.copyName j y = t.copyName i y := he
      rw [t.copyName_of_unshared hx hshared, t.copyName_of_unshared hx hshared] at he
      obtain ⟨d, _, rfl⟩ := t.exists_name hx
      exact congrFun (congrArg vs (suffixed_index he)) _
  exact ⟨extend f _ (vs 0), fun i hi x hx => hfactors.extend_apply _ ⟨(i, x), hi, hx⟩⟩

theorem Separable.satisfies (hn : 1 ≤ n) (h : Separable t n) {V : Type} (S : Semantics V)
    (v : Str → V) :
    Satisfies symbol S v (t.output n) ↔ ∃ vs, Given t n v vs ∧ Chain t n S vs := by
  rw [t.satisfies_output hn, t.holdsAt_ties hn h.bits]
  constructor
  · rintro ⟨hmodels, htied, hones, hzeros⟩
    refine ⟨fun i => v ∘ t.copyName i, fun _ _ _ _ => rfl, hmodels, ?_, htied, hzeros, hones⟩
    intro i _ j _ x hx
    rw [comp_apply, comp_apply, t.copyName_of_shared hx, t.copyName_of_shared hx]
  · rintro ⟨vs, hgiven, hchain⟩
    have hlargest := fun m hm => t.bit_declared (Or.inl rfl) (m := m) hm
    have hsecond := fun m hm => t.bit_declared (Or.inr rfl) (m := m) hm
    refine ⟨fun i hi => ?_, fun i hi m hm => ?_, fun m hm => ?_, fun m hm => ?_⟩
    · exact (t.satisfies_congr (hgiven i hi)).mpr (hchain.models i hi)
    · rw [hgiven i (by omega) _ (hlargest m hm), hgiven (i + 1) hi _ (hsecond m hm)]
      exact hchain.tied i hi m hm
    · rw [hgiven (n - 1) (by omega) _ (hlargest m hm)]
      exact hchain.ones m hm
    · rw [hgiven 0 hn _ (hsecond m hm)]
      exact hchain.zeros m hm

/-- The program finishes with the `n`-fold copy of the formula if and only if the symbols
can be told apart and no quoted name stands where the suffix cannot be put inside. -/
theorem concat_copies_iff (t : Transition) {n : ℕ} (hn : 1 ≤ n) :
    (∃ out, concatStates t.text n .off false = some out ∧ IsCopy t n out) ↔ Separable t n := by
  have hread : readScript (scriptText (t.output n)) = t.output n :=
    readScript_scriptText (t.output_printed hn)
  constructor
  · rintro ⟨out, hout, hcopy⟩
    have hbound : ¬t.Unbound := by
      intro h
      rw [t.concatStates_raises hn h] at hout
      cases hout
    rw [t.concatStates_text hbound] at hout
    have honce := hcopy.declared_once
    rw [← Option.some.inj hout, hread] at honce
    refine ⟨?_, bits_of_once hn honce, distinct_of_copy hn honce hcopy.complete⟩
    exact fun c hc x hx hshared hlast => hbound ⟨c, hc, x, hx, hshared, hlast⟩
  · intro h
    have hbound : ¬t.Unbound := fun ⟨c, hc, x, hx, hshared, hlast⟩ =>
      h.asserted c hc x hx hshared hlast
    refine ⟨_, t.concatStates_text hbound, ?_, ?_, ?_⟩
    · rw [hread]
      exact fun x hx => count_eq_one_of_mem (h.nodup hn) (h.used_declared hn hx)
    · intro V S v
      rw [hread]
      exact h.satisfies hn S v
    · exact fun V S vs hchain => h.complete hchain

end Exactness

namespace StackElement

def copy (n : ℕ) : Copy :=
  ⟨n, "PSAImpl_ingress_start_7".toList, by decide, forall_chars (by decide)⟩

def acl : Component := ⟨false, "acl_1".toList, forall_chars (by decide)⟩

def rho : Name := ⟨false, "rho_0".toList, by decide, fun _ => rfl⟩

def element : Name :=
  ⟨true, ".hdrs_2_PSAImpl_ingress_start_7.stack.elements[0].valid__1".toList, by decide, nofun⟩

def flag (x : Name) : Decl := ⟨x, [⟨1, [], 1⟩, ⟨0, "Bool".toList, 1⟩], []⟩

def version (c : Copy) : Decl :=
  ⟨bit c acl, [], [[⟨0, [], 0⟩, ⟨1, [], 1⟩],
    [⟨0, [], 0⟩, ⟨1, "_".toList, 0⟩, ⟨0, "BitVec".toList, 0⟩, ⟨0, "1".toList, 2⟩]]⟩

def decls : List Decl :=
  [flag rho, flag element, version (copy 0), version (copy 1), version (copy 2)]

def entry : Command := [[assertWord, ⟨1, "=>".toList, 0⟩, ⟨0, rho.str, 0⟩, ⟨0, "true".toList, 2⟩]]

def reading (x : Name) : Command := [[assertWord, equalWord, ⟨0, x.str, 0⟩], [⟨0, rho.str, 2⟩]]

def transition (asserts : List Command) (h : check decls asserts = true) : Transition where
  decls := decls
  asserts := asserts
  wellFormed := check_sound h
  largest := copy 2
  second := copy 1
  others := [copy 0]
  components := [acl]
  second_lt := by decide
  others_lt := by decide
  others_nonempty := by decide
  components_nonempty := by simp
  components_distinct := by simp
  bits_declared := by
    show ∀ c ∈ [copy 2, copy 1, copy 0], ∀ m ∈ [acl], (bit c m).str ∈ decls.map fun d => d.name.str
    decide +kernel
  bits_only := by
    show ∀ x ∈ decls.map (fun d => d.name.str), isVersion x = true →
      ∃ c ∈ [copy 2, copy 1, copy 0], ∃ m ∈ [acl], x = (bit c m).str
    decide +kernel

def plain : Transition := transition [entry, reading (bit (copy 2) acl)] (by decide +kernel)

def quoted : Transition := transition [entry, reading element] (by decide +kernel)

end StackElement

theorem plain_states_copied :
    1 ≤ 2 ∧ ∃ out, concatStates StackElement.plain.text 2 .off false = some out ∧
      IsCopy StackElement.plain 2 out :=
  ⟨by decide, (concat_copies_iff StackElement.plain (by decide)).mpr
    ⟨by decide +kernel, by decide +kernel, by decide +kernel⟩⟩

/-- A header stack makes the program stop: its element is quoted and belongs to a copy. -/
theorem stack_element_raises :
    concatStates StackElement.quoted.text 1 .off false = none := by
  decide +kernel

end ConcatStates
