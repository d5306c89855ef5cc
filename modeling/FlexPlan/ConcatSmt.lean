import FlexPlan.PrintedFormula
import Mathlib.Data.List.Nodup

/-!
# The synthesis formula over the stored counterexamples

`concat_smt.py` writes one copy of the template for each stored counterexample and one more. The
version variables of the copies are equated, and copy `i` gets the values of counterexample `i`.
-/
namespace ConcatSmt

open PythonText SynthesizerUtils SmtText PrintedFormula List

section Program

def metered : List Str :=
  ["_meta_REAL", "_meta_DIFF", "VERSION", "LENGTH", "_meta_RESOURCE"].map String.toList

/-- The label that `extract` cuts out of a line, as a number. -/
def label (line : Str) : Option ℤ := do
  let last ← findNth line "_".toList (-1)
  int? (slice line (last + 1) (-1))

def separator : Str := "___".toList

def copySuffix (i : ℕ) : Str := separator ++ ofNat i

/-- `new_var_set` and `version_dict`. -/
structure Declarations where
  vars : List Str
  versions : Dict Str (List Str)

def Declarations.add (iterNum : ℕ) (d : Declarations) (line : Str) : Option Declarations :=
  if isIn "declare-fun".toList line then
    if (metered.any fun m => isIn m line) && (label line).isNone then none
    else some {
      vars := varName line :: d.vars
      versions :=
        if isVersion line then
          (List.range iterNum).foldl
            (fun e i => e.push (versionKey line) (varName line ++ copySuffix i)) d.versions
        else d.versions }
  else some d

def parserMark (name : Str) : Option Str :=
  let mark := if name.getLast? ≠ some '|' then name else slice name 1 (-1)
  if (isIn ".hdr_ParserImpl_".toList mark || isIn ".hdr_MyParser_".toList mark) &&
      !isIn "version.version".toList mark then some mark
  else none

variable (declares : Str → Bool)

def parserMarks (line : Str) : List Str :=
  (tokens line).filterMap fun token =>
    if declares (tokenCore token) then parserMark (tokenCore token) else none

def digits (mark : Str) : ℕ := (mark.reverse.takeWhile Char.isDigit).length

/-- The update of `last_ones`. Without digits at the end the key is empty and the whole
mark is the value. -/
def lastOne (lastOnes : Dict Str Str) (mark : Str) : Option (Dict Str Str) :=
  let key := slice mark 0 (-(digits mark : ℤ))
  let value := sliceFrom mark (-(digits mark : ℤ))
  match lastOnes.get? key with
  | none => some (lastOnes.set key value)
  | some old => do
    let a ← int? old
    let b ← int? value
    return if a < b then lastOnes.set key value else lastOnes

/-- The first copy and the copies made from it by replacing `___0` in the whole text. -/
def copies (iterNum : ℕ) (text : Str) : Str :=
  text ++ (List.range (iterNum - 1)).flatMap fun i =>
    replace "___0".toList (copySuffix (i + 1)) text

def exampleName (index : ℕ) (key : Str) : Str :=
  if isIn ".elements[".toList key then '|' :: (key ++ copySuffix index ++ ['|'])
  else key ++ copySuffix index

abbrev Example := Dict Str Str

def exampleLines (examples : List Example) : List Str :=
  examples.zipIdx.flatMap fun e =>
    e.1.map fun p => equationText [exampleName e.2 p.1, p.2]

def ending : Str := "(check-sat)\n(get-model)".toList

/-- Without `assignments.pickle` the number of copies is the number of the round. -/
def concatSmt (text : Str) (iter : ℕ) (stored : Option (List Example)) : Option Str := do
  let iterNum := (stored.map fun examples => examples.length + 1).getD iter
  let lines := readLines text
  let d ← lines.foldlM (Declarations.add iterNum) ⟨[], []⟩
  let declares := fun x => decide (x ∈ d.vars)
  let _ ← (lines.flatMap (parserMarks declares)).foldlM lastOne []
  let rename := renameLine declares (withSuffix (copySuffix 0))
  let declared ← (lines.takeWhile fun l => !isIn "assert".toList l).mapM rename
  let asserted ← (lines.dropWhile fun l => !isIn "assert".toList l).mapM rename
  let _ ← d.versions.mapM fun e => versionNumber e.1
  let ties := if 2 ≤ iterNum then d.versions.map fun e => equationText e.2 else []
  return copies iterNum declared.flatten ++ copies iterNum asserted.flatten ++
    (ties ++ exampleLines (stored.getD [])).flatten ++ ending

end Program

section Domain

/-- A printed formula without `___`. The version variables belong to a numbered copy of
the headers. -/
structure Template extends Formula where
  unmarked : ∀ c ∈ toFormula.commands, ∀ l ∈ c, ∀ w ∈ l, isIn separator w.core = false
  versions : ∀ d ∈ decls, isVersion d.name.str = true →
    ∃ n r, d.name.text = headers ++ (ofNat n ++ '_' :: r)

variable (t : Template)

def Template.copyName (i : ℕ) (x : Str) : Str :=
  if decide (x ∈ t.names) then suffixed (copySuffix i) x else x

/-- A counterexample names declared symbols without their bars. -/
structure Recorded (e : Example) : Prop where
  names : ∀ p ∈ e, ∃ d ∈ t.decls, d.name.text = p.1
  values : ∀ p ∈ e, (∀ c ∈ p.2, c ∉ " ()\n".toList) ∧ symbol p.2 = false

def Template.parserMarks : List Str :=
  t.commands.flatMap fun c => c.flatten.filterMap fun w =>
    if decide (w.core ∈ t.names) then parserMark w.core else none

variable {V : Type}

/-- A valuation of the template for each counterexample and one more. -/
structure Explains (examples : List Example) (S : Semantics V) (vs : ℕ → Str → V) : Prop where
  models : ∀ i ≤ examples.length, Satisfies symbol S (vs i) t.commands
  versions : ∀ i ≤ examples.length, ∀ j ≤ examples.length, ∀ x ∈ t.names, isVersion x = true →
    vs i x = vs j x
  examples : ∀ i e, examples[i]? = some e → ∀ p ∈ e, ∀ d ∈ t.decls, d.name.text = p.1 →
    vs i d.name.str = S.literal p.2

/-- Copy `i` of a symbol has its value in valuation `i`. -/
def Given (k : ℕ) (v : Str → V) (vs : ℕ → Str → V) : Prop :=
  ∀ i ≤ k, ∀ x ∈ t.names, v (t.copyName i x) = vs i x

/-- The output is the synthesis formula of the template over the counterexamples. -/
structure IsSynthesis (examples : List Example) (out : Str) : Prop where
  declared_once : ∀ x ∈ used symbol (readScript out), (declared (readScript out)).count x = 1
  satisfies : ∀ (V : Type) (S : Semantics V) (v : Str → V),
    Satisfies symbol S v (readScript out) ↔
      ∃ vs, Given t examples.length v vs ∧ Explains t examples S vs
  complete : ∀ (V : Type) (vs : ℕ → Str → V), ∃ v, Given t examples.length v vs

/-- The labels and the parser symbols can be read, and no quoted name stands where the
suffix is put behind it. -/
structure Readable (examples : List Example) : Prop where
  labels : ∀ d ∈ t.decls, (metered.any fun m => isIn m (lineText d.head)) = true →
    (label (lineText d.head)).isSome = true
  parser : (t.parserMarks.filter fun m => digits m = 0).length ≤ 1
  versions : examples ≠ [] → ∀ d ∈ t.decls, isVersion d.name.str = true → d.name.quoted = false
  keys : ∀ e ∈ examples, ∀ p ∈ e, ∀ d ∈ t.decls, d.name.text = p.1 → d.name.quoted = true →
    isIn ".elements[".toList p.1 = true

end Domain

section Scanning

def Labeled (d : Decl) : Prop :=
  (metered.any fun m => isIn m (lineText d.head)) = true → (label (lineText d.head)).isSome = true

variable {n : ℕ}

theorem foldl_push {d : Dict Str (List Str)} {key : Str} (hkey : key ∉ d.map Prod.fst)
    (f : ℕ → Str) (hn : 1 ≤ n) :
    (List.range n).foldl (fun e i => e.push key (f i)) d = d ++ [(key, (List.range n).map f)] := by
  induction n with
  | zero => omega
  | succ n ih =>
    rw [range_succ, foldl_append, map_append]
    by_cases hn : 1 ≤ n
    · rw [ih hn]
      exact Dict.push_last hkey _ _
    · have hzero : n = 0 := by omega
      subst hzero
      exact Dict.push_of_notMem hkey _

/-- The entries of `version_dict`. -/
def versionEntries (n : ℕ) (ds : List Decl) : Dict Str (List Str) :=
  (ds.filter fun d => isVersion d.name.str).map fun d =>
    (d.name.key, (List.range n).map fun i => d.name.str ++ copySuffix i)

theorem Declarations.add_head (hclean : ∀ w ∈ d.head, w.Clean)
    (hsort : ∀ w ∈ d.rest, IsSort w.core) (hn : 1 ≤ n) (hlabel : Labeled d)
    (hkey : isVersion d.name.str = true → ∃ u, d.name.text = ".hdrs".toList ++ u)
    (acc : Declarations) (hversions : d.name.key ∉ acc.versions.map Prod.fst) :
    acc.add n (lineText d.head) =
      some ⟨d.name.str :: acc.vars, acc.versions ++ versionEntries n [d]⟩ := by
  have hreadable : ¬((metered.any fun m => isIn m (lineText d.head)) &&
      (label (lineText d.head)).isNone) = true := by
    intro h
    obtain ⟨hmetered, hnone⟩ := Bool.and_eq_true_iff.mp h
    have hsome := hlabel hmetered
    rw [Option.isSome_iff_ne_none] at hsome
    exact hsome (Option.isNone_iff_eq_none.mp hnone)
  rw [Declarations.add, if_pos Formula.declares_line, if_neg hreadable, d.varName_line hclean hsort,
    Decl.isVersion_line hsort, versionEntries, filter_cons]
  split_ifs with hversion
  · obtain ⟨u, hu⟩ := hkey hversion
    rw [d.versionKey_line hclean hsort hu, foldl_push hversions _ hn]
    rfl
  · rw [filter_nil, map_nil, append_nil]

theorem foldlM_quiet {ls : List Str} (h : ∀ l ∈ ls, isIn "declare-fun".toList l = false)
    (acc : Declarations) : ls.foldlM (Declarations.add n) acc = some acc := by
  induction ls with
  | nil => rfl
  | cons l ls ih =>
    obtain ⟨hl, hls⟩ := forall_mem_cons.mp h
    have hstep : acc.add n l = some acc := by
      rw [Declarations.add, hl, if_neg Bool.false_ne_true]
    rw [foldlM_cons, hstep]
    exact ih hls

theorem sort_quiet (h : ∀ w ∈ l, IsSort w.core) :
    isIn "declare-fun".toList (lineText l) = false := by
  rw [isIn_lineText (by decide) (by decide) (by decide), any_eq_false]
  intro w hw
  rw [isIn_text (by decide) (by decide) (by decide), Bool.not_eq_true]
  exact not_isIn_of_notMem (c := '-') (by decide) fun hc => (h w hw).chars _ hc (by decide)

theorem foldlM_decls {ds : List Decl} (hdistinct : (ds.map fun d => d.name.str).Nodup)
    (hadd : ∀ d ∈ ds, ∀ acc : Declarations, d.name.key ∉ acc.versions.map Prod.fst →
      (commandLines d.command).foldlM (Declarations.add n) acc =
        some ⟨d.name.str :: acc.vars, acc.versions ++ versionEntries n [d]⟩)
    (acc : Declarations) (hversions : ∀ d ∈ ds, d.name.key ∉ acc.versions.map Prod.fst) :
    (ds.flatMap fun d => commandLines d.command).foldlM (Declarations.add n) acc =
      some ⟨(ds.map fun d => d.name.str).reverse ++ acc.vars,
        acc.versions ++ versionEntries n ds⟩ := by
  induction ds generalizing acc with
  | nil => simp [versionEntries]
  | cons d ds ih =>
    obtain ⟨hd, hadd⟩ := forall_mem_cons.mp hadd
    obtain ⟨hv, hversions⟩ := forall_mem_cons.mp hversions
    obtain ⟨hnot, hdistinct⟩ := nodup_cons.mp hdistinct
    rw [flatMap_cons, foldlM_append, hd acc hv, Option.bind_eq_bind, Option.bind_some,
      ih hdistinct hadd]
    · have hentries : versionEntries n (d :: ds) = versionEntries n [d] ++ versionEntries n ds := by
        rw [versionEntries, ← singleton_append, filter_append, map_append]
        rfl
      simp [hentries]
    · intro e he
      have hne : e.name.key ≠ d.name.key := fun h =>
        hnot (mem_map.mpr ⟨e, he, Name.key_injective h⟩)
      rw [map_append, mem_append, not_or]
      refine ⟨hversions e he, fun h => ?_⟩
      obtain ⟨k, hk, hkey⟩ := mem_map.mp h
      obtain ⟨d', hd', rfl⟩ := mem_map.mp hk
      rw [mem_singleton.mp (mem_filter.mp hd').1] at hkey
      exact hne hkey.symm

variable {t : Template}

theorem Template.version_key (hd : d ∈ t.decls) (h : isVersion d.name.str = true) :
    ∃ u, d.name.text = ".hdrs".toList ++ u := by
  obtain ⟨m, r, htext⟩ := t.versions d hd h
  exact ⟨'_' :: (ofNat m ++ '_' :: r), htext⟩

theorem Template.scan (hn : 1 ≤ n) (hlabel : ∀ d ∈ t.decls, Labeled d) :
    (readLines t.text).foldlM (Declarations.add n) ⟨[], []⟩ =
      some ⟨t.names.reverse, versionEntries n t.decls⟩ := by
  rw [t.readLines_text, foldlM_append, Formula.declLines,
    foldlM_decls t.wellFormed.distinct _ _ (by simp),
    Option.bind_eq_bind, Option.bind_some, foldlM_quiet fun l hl => t.quiet_line hl,
      append_nil, nil_append]
  · rfl
  · intro d hd acc hv
    have hs := t.wellFormed.sorts d hd
    have hlines : commandLines d.command = lineText d.head :: d.more.map lineText := rfl
    have hmore : ∀ l ∈ d.more.map lineText, isIn "declare-fun".toList l = false :=
      forall_mem_map.mpr fun l hl => sort_quiet (hs l (mem_cons_of_mem _ hl))
    rw [hlines, foldlM_cons,
      Declarations.add_head (t.head_clean hd) (hs _ mem_cons_self) hn (hlabel d hd)
      (t.version_key hd) acc hv, Option.bind_eq_bind, Option.bind_some, foldlM_quiet hmore]

theorem Template.scan_raises (hd : d ∈ t.decls)
    (hmetered : (metered.any fun m => isIn m (lineText d.head)) = true)
    (hlabel : (label (lineText d.head)).isSome = false) :
    (readLines t.text).foldlM (Declarations.add n) ⟨[], []⟩ = none := by
  refine foldlM_eq_none ⟨lineText d.head, ?_, fun acc => ?_⟩ _
  · rw [t.readLines_text]
    exact mem_append_left _ (mem_flatMap.mpr ⟨d, hd, mem_cons_self⟩)
  · have hnone : (label (lineText d.head)).isNone = true := by
      rw [← Option.not_isSome, hlabel]
      rfl
    rw [Declarations.add, if_pos Formula.declares_line, hmetered, hnone, if_pos (by decide)]

end Scanning

section Parser

theorem split_digits (m : Str) :
    ∃ key value, m = key ++ value ∧ value.length = digits m ∧ ∀ c ∈ value, c.isDigit = true := by
  refine ⟨(m.reverse.dropWhile Char.isDigit).reverse, (m.reverse.takeWhile Char.isDigit).reverse,
    ?_, ?_, ?_⟩
  · rw [← reverse_append, takeWhile_append_dropWhile, reverse_reverse]
  · rw [length_reverse, digits]
  · intro c hc
    exact mem_takeWhile_imp (mem_reverse.mp hc)

theorem slice_ending (a : Str) (hb : b ≠ []) :
    slice (a ++ b) 0 (-(b.length : ℤ)) = a ∧ sliceFrom (a ++ b) (-(b.length : ℤ)) = b := by
  have hlength := length_pos_of_ne_nil hb
  have hclamp : clampIndex (a ++ b).length (-(b.length : ℤ)) = a.length := by
    rw [clampIndex, if_pos (by omega), length_append]
    omega
  have hzero : clampIndex (a ++ b).length 0 = 0 := rfl
  rw [slice, sliceFrom, hclamp, hzero, take_left, drop_left, drop_zero]
  exact ⟨rfl, rfl⟩

/-- The entries of `last_ones`: numbers, and under the empty key the first mark without
digits. -/
structure LastOnes (seen : Bool) (d : Dict Str Str) : Prop where
  numbers : ∀ k v, d.get? k = some v → k ≠ [] → (int? v).isSome = true
  bare : ∀ v, d.get? [] = some v → int? v = none
  seen_iff : (d.get? []).isSome = seen

variable {seen : Bool} {d : Dict Str Str} {m : Str}

theorem LastOnes.number (h : LastOnes seen d) (hdot : '.' ∈ m) (hm : digits m ≠ 0) :
    ∃ d', lastOne d m = some d' ∧ LastOnes seen d' := by
  obtain ⟨key, value, hsplit, hlength, hdigits⟩ := split_digits m
  have hne : value ≠ [] := by
    rintro rfl
    exact hm hlength.symm
  have hkey : key ≠ [] := by
    rintro rfl
    rw [hsplit, nil_append] at hdot
    exact absurd (hdigits _ hdot) (by decide)
  obtain ⟨hslice, hfrom⟩ := slice_ending key hne
  rw [← hsplit, hlength] at hslice hfrom
  have hvalue := int?_digits hne hdigits
  have hset : LastOnes seen (d.set key value) := by
    refine ⟨?_, ?_, ?_⟩
    · intro k v hget hk
      rw [Dict.get?_set] at hget
      split_ifs at hget
      · rw [← Option.some.inj hget, hvalue]
        rfl
      · exact h.numbers k v hget hk
    · intro v hget
      rw [Dict.get?_set, if_neg hkey.symm] at hget
      exact h.bare v hget
    · rw [Dict.get?_set, if_neg hkey.symm]
      exact h.seen_iff
  rw [lastOne, hslice, hfrom]
  cases hget : d.get? key with
  | none => exact ⟨_, rfl, hset⟩
  | some old =>
    obtain ⟨a, ha⟩ := Option.isSome_iff_exists.mp (h.numbers key old hget hkey)
    simp only [ha, hvalue, Option.bind_eq_bind, Option.bind_some]
    refine ⟨_, rfl, ?_⟩
    split_ifs
    · exact hset
    · exact h

theorem lastOne_bare (hm : digits m = 0) :
    slice m 0 (-(digits m : ℤ)) = [] ∧ sliceFrom m (-(digits m : ℤ)) = m := by
  rw [hm]
  exact ⟨rfl, rfl⟩

theorem LastOnes.first (h : LastOnes false d) (hdot : '.' ∈ m) (hm : digits m = 0) :
    ∃ d', lastOne d m = some d' ∧ LastOnes true d' := by
  obtain ⟨hslice, hfrom⟩ := lastOne_bare hm
  have hnone : d.get? [] = none := Option.isNone_iff_eq_none.mp (by
    rw [← Option.not_isSome, h.seen_iff]
    rfl)
  rw [lastOne, hslice, hfrom, hnone]
  refine ⟨_, rfl, ?_, ?_, ?_⟩
  · intro k v hget hk
    rw [Dict.get?_set, if_neg hk] at hget
    exact h.numbers k v hget hk
  · intro v hget
    rw [Dict.get?_set, if_pos rfl] at hget
    rw [← Option.some.inj hget, int?_of_mem hdot (by decide) (by decide)]
  · rw [Dict.get?_set, if_pos rfl]
    rfl

theorem LastOnes.second (h : LastOnes true d) (hm : digits m = 0) : lastOne d m = none := by
  obtain ⟨hslice, hfrom⟩ := lastOne_bare hm
  obtain ⟨old, hold⟩ := Option.isSome_iff_exists.mp h.seen_iff
  rw [lastOne, hslice, hfrom, hold]
  simp only [h.bare old hold, Option.bind_eq_bind, Option.bind_none]

theorem foldlM_lastOne {ms : List Str} (hdot : ∀ m ∈ ms, '.' ∈ m) (h : LastOnes seen d) :
    (ms.foldlM lastOne d).isSome = true ↔
      seen.toNat + (ms.filter fun m => digits m = 0).length ≤ 1 := by
  induction ms generalizing seen d with
  | nil =>
    have hseen := Bool.toNat_le seen
    simpa using hseen
  | cons m ms ih =>
    obtain ⟨hm, hms⟩ := forall_mem_cons.mp hdot
    rw [foldlM_cons, filter_cons]
    by_cases hbare : digits m = 0
    · rw [if_pos (decide_eq_true hbare), length_cons]
      cases seen with
      | false =>
        obtain ⟨d', hd', h'⟩ := h.first hm hbare
        rw [hd', Option.bind_eq_bind, Option.bind_some, ih hms h', Bool.toNat_true,
          Bool.toNat_false]
        omega
      | true =>
        rw [h.second hbare, Bool.toNat_true]
        constructor
        · intro hnone
          cases hnone
        · omega
    · obtain ⟨d', hd', h'⟩ := h.number hm hbare
      rw [if_neg (by simpa using hbare), hd', Option.bind_eq_bind, Option.bind_some, ih hms h']

theorem dot_of_parserMark (h : parserMark x = some m) : '.' ∈ m := by
  obtain ⟨y, hy⟩ : ∃ y, (if x.getLast? ≠ some '|' then x else slice x 1 (-1)) = y := ⟨_, rfl⟩
  rw [parserMark, hy] at h
  split_ifs at h with hmark
  obtain ⟨hin, _⟩ := Bool.and_eq_true_iff.mp hmark
  rw [← Option.some.inj h]
  rcases Bool.or_eq_true_iff.mp hin with hin | hin
  · exact (isIn_iff.mp hin).subset (by decide)
  · exact (isIn_iff.mp hin).subset (by decide)

variable {t : Template}

theorem parserMarks_line (hc : Printed c) (hl : l ∈ c) : parserMarks p (lineText l) =
      l.filterMap fun w => if p w.core then parserMark w.core else none := by
  rw [parserMarks, hc.tokens hl, filterMap_map]
  refine filterMap_congr fun w hw => ?_
  rw [Function.comp_apply, tokenCore_word (hc.clean l hl w hw)]

theorem Template.parserMarks_lines :
    (readLines t.text).flatMap (ConcatSmt.parserMarks fun x => decide (x ∈ t.names)) =
      t.parserMarks := by
  rw [Formula.text, readLines_scriptText t.printed, flatMap_assoc, Template.parserMarks]
  refine flatMap_congr fun c hc => ?_
  rw [commandLines, flatMap_map, filterMap_flatten, flatMap_def]
  congr 1
  exact map_congr_left fun l hl => parserMarks_line (t.printed c hc) hl

theorem Template.lastOnes :
    (t.parserMarks.foldlM lastOne []).isSome = true ↔
      (t.parserMarks.filter fun m => digits m = 0).length ≤ 1 := by
  have hdot : ∀ m ∈ t.parserMarks, '.' ∈ m := by
    intro m hm
    obtain ⟨c, _, hm⟩ := mem_flatMap.mp hm
    obtain ⟨w, _, hw⟩ := mem_filterMap.mp hm
    split_ifs at hw
    exact dot_of_parserMark hw
  have hempty : LastOnes false [] := ⟨nofun, nofun, rfl⟩
  rw [foldlM_lastOne hdot hempty, Bool.toNat_false, Nat.zero_add]

end Parser

section Copies

def firstSuffix : Str := "___0".toList

theorem firstSuffix_eq : copySuffix 0 = firstSuffix := rfl

theorem firstSuffix_ne_nil : firstSuffix ≠ [] := by decide

theorem copySuffix_clean (i : ℕ) : Solid (copySuffix i) := Solid.number (forall_chars (by decide)) i

variable {x : Str}

theorem not_isIn_firstSuffix (h : isIn separator x = false) : isIn firstSuffix x = false := by
  rw [Bool.eq_false_iff] at h ⊢
  intro hin
  have hpart : separator <:+: firstSuffix := ⟨[], ['0'], by decide⟩
  exact h (isIn_iff.mpr (hpart.trans (isIn_iff.mp hin)))

theorem replace_firstSuffix (h : isIn separator x = false) (new : Str) :
    replace firstSuffix new (x ++ firstSuffix) = x ++ new := by
  induction x with
  | nil =>
    have hmatch := replace_match firstSuffix_ne_nil new []
    rw [replace_nil firstSuffix_ne_nil, append_nil, append_nil] at hmatch
    exact hmatch
  | cons c x ih =>
    have hx : isIn separator x = false := by
      rw [isIn, Bool.or_eq_false_iff] at h
      exact h.2
    have hkeep : ¬firstSuffix <+: c :: (x ++ firstSuffix) := by
      intro hprefix
      have hfirst : firstSuffix = ['_', '_', '_', '0'] := rfl
      rw [hfirst] at hprefix
      -- an earlier match would end in an underscore or contain the separator
      rcases x with _ | ⟨a, _ | ⟨b, _ | ⟨e, x⟩⟩⟩
      · simp [cons_prefix_cons] at hprefix
      · simp [cons_prefix_cons] at hprefix
      · simp [cons_prefix_cons] at hprefix
      · simp only [cons_append, cons_prefix_cons] at hprefix
        obtain ⟨rfl, rfl, rfl, _⟩ := hprefix
        have hin : isIn separator ('_' :: '_' :: '_' :: e :: x) = true :=
          isIn_iff.mpr (List.IsPrefix.isInfix ⟨e :: x, rfl⟩)
        rw [hin] at h
        cases h
    rw [cons_append, replace_keep firstSuffix_ne_nil new hkeep, ih hx, cons_append]

variable {t : Template}

theorem Template.renaming (i : ℕ) : Renaming (t.copyName i) :=
  renaming_suffixed (fun _ hx => of_decide_eq_true hx) (copySuffix_clean i)

theorem Template.copyName_of_mem (h : x ∈ t.names) :
    t.copyName i x = suffixed (copySuffix i) x := if_pos (decide_eq_true h)

theorem Template.copyName_str (hd : d ∈ t.decls) :
    t.copyName i d.name.str = quote d.name.quoted (d.name.text ++ copySuffix i) := by
  rw [t.copyName_of_mem (mem_map_of_mem hd), suffixed_str]

theorem Template.copyName_of_notMem (h : x ∉ t.names) : t.copyName i x = x :=
  if_neg (by simpa using h)

theorem Template.text_unmarked (hd : d ∈ t.decls) : isIn separator d.name.text = false := by
  have hcommand : d.command ∈ t.commands := mem_append_left _ (mem_map_of_mem hd)
  have hstr := t.unmarked d.command hcommand d.head mem_cons_self ⟨0, d.name.str, 0⟩
    (by simp [Decl.head])
  rw [Bool.eq_false_iff] at hstr ⊢
  exact fun h => hstr (Name.isIn_str h)

theorem Template.replace_name (h : isIn separator x = false) (i : ℕ) :
    replace firstSuffix (copySuffix i) (t.copyName 0 x) = t.copyName i x := by
  by_cases hx : x ∈ t.names
  · obtain ⟨d, hd, rfl⟩ := t.exists_name hx
    have htext := replace_firstSuffix (t.text_unmarked hd) (copySuffix i)
    have hbar : '|' ∉ firstSuffix := by decide
    rw [t.copyName_str hd, t.copyName_str hd, firstSuffix_eq, quote, quote]
    split_ifs
    · have hopen := replace_append_cons firstSuffix_ne_nil hbar (copySuffix i) []
        (d.name.text ++ firstSuffix ++ ['|'])
      have hclose := replace_append_cons firstSuffix_ne_nil hbar (copySuffix i)
        (d.name.text ++ firstSuffix) []
      rw [replace_nil firstSuffix_ne_nil] at hopen hclose
      rw [hclose, htext] at hopen
      exact hopen
    · exact htext
  · rw [t.copyName_of_notMem hx, t.copyName_of_notMem hx,
      replace_of_not_isIn firstSuffix_ne_nil _ (not_isIn_firstSuffix h)]

theorem replace_parens (hc : c ∉ firstSuffix) (new : Str) (n : ℕ) (s : Str) :
    replace firstSuffix new (replicate n c ++ s) =
      replicate n c ++ replace firstSuffix new s := by
  induction n with
  | zero => rfl
  | succ n ih =>
    have hstep := replace_append_cons firstSuffix_ne_nil hc new [] (replicate n c ++ s)
    rw [replace_nil firstSuffix_ne_nil, nil_append, nil_append, ih] at hstep
    rw [replicate_succ, cons_append, hstep, cons_append]

theorem replace_closing (hc : c ∉ firstSuffix) (new : Str) (n : ℕ) (s : Str) :
    replace firstSuffix new (s ++ replicate n c) =
      replace firstSuffix new s ++ replicate n c := by
  cases n with
  | zero => simp
  | succ n =>
    have hrest := replace_parens hc new n []
    rw [replace_nil firstSuffix_ne_nil, append_nil] at hrest
    rw [replicate_succ, replace_append_cons firstSuffix_ne_nil hc, hrest]

theorem Template.replace_word {w : Word} (h : isIn separator w.core = false) (i : ℕ) :
    replace firstSuffix (copySuffix i) (w.rename (t.copyName 0)).text =
      (w.rename (t.copyName i)).text := by
  rw [Word.text, Word.text, append_assoc, replace_parens (by decide),
    replace_closing (by decide), ← append_assoc]
  show _ ++ PythonText.replace _ _ (t.copyName 0 w.core) ++ _ = _
  rw [t.replace_name h]
  rfl

theorem Template.replace_line {l : List Word} (h : ∀ w ∈ l, isIn separator w.core = false) (i : ℕ)
    (rest : Str) :
    replace firstSuffix (copySuffix i) (lineText (l.map (Word.rename (t.copyName 0))) ++ rest) =
      lineText (l.map (Word.rename (t.copyName i))) ++ replace firstSuffix (copySuffix i) rest := by
  have hend : '\n' ∉ firstSuffix := by decide
  have hblank : ' ' ∉ firstSuffix := by decide
  induction l with
  | nil =>
    have hline := replace_append_cons firstSuffix_ne_nil hend (copySuffix i) [] rest
    rw [replace_nil firstSuffix_ne_nil] at hline
    exact hline
  | cons w l ih =>
    obtain ⟨hw, hl⟩ := forall_mem_cons.mp h
    cases l with
    | nil =>
      rw [map_singleton, map_singleton, lineText_singleton, lineText_singleton,
        append_assoc, singleton_append, replace_append_cons firstSuffix_ne_nil hend,
        t.replace_word hw, append_assoc, singleton_append]
    | cons u l =>
      have htail := ih hl
      rw [map_cons, map_cons] at htail
      rw [map_cons, map_cons, map_cons, map_cons, lineText_cons, lineText_cons,
        append_assoc, cons_append, replace_append_cons firstSuffix_ne_nil hblank,
        t.replace_word hw, htail, append_assoc, cons_append]

theorem Template.replace_script {cs : List Command} (h : ∀ c ∈ cs, c ∈ t.commands) (i : ℕ) :
    replace firstSuffix (copySuffix i) (scriptText (cs.map (Command.rename (t.copyName 0)))) =
      scriptText (cs.map (Command.rename (t.copyName i))) := by
  have hlines : ∀ ls : List (List Word), (∀ l ∈ ls, ∀ w ∈ l, isIn separator w.core = false) →
      replace firstSuffix (copySuffix i)
        (ls.map fun l => lineText (l.map (Word.rename (t.copyName 0)))).flatten =
      (ls.map fun l => lineText (l.map (Word.rename (t.copyName i)))).flatten := by
    intro ls hls
    induction ls with
    | nil => exact replace_nil firstSuffix_ne_nil _
    | cons l ls ih =>
      obtain ⟨hl, hls⟩ := forall_mem_cons.mp hls
      rw [map_cons, map_cons, flatten_cons, flatten_cons, t.replace_line hl,
        ih hls]
  have hscript : ∀ j, scriptText (cs.map (Command.rename (t.copyName j))) =
      (cs.flatten.map fun l => lineText (l.map (Word.rename (t.copyName j)))).flatten := by
    intro j
    rw [scriptText, flatMap_map, map_flatten, flatMap_def]
    congr 2
    refine map_congr_left fun c _ => ?_
    rw [commandLines, Command.rename, map_map]
    rfl
  rw [hscript, hscript]
  refine hlines _ fun l hl w hw => ?_
  obtain ⟨c, hc, hl⟩ := mem_flatten.mp hl
  exact t.unmarked c (h c hc) l hl w hw

def Template.copied (t : Template) (n : ℕ) (cs : List Command) : List Command :=
  (List.range n).flatMap fun i => cs.map (Command.rename (t.copyName i))

theorem scriptText_flatMap {α : Type} (l : List α) (f : α → List Command) :
    scriptText (l.flatMap f) = l.flatMap fun a => scriptText (f a) := by
  induction l with
  | nil => rfl
  | cons a l ih => rw [flatMap_cons, flatMap_cons, scriptText_append, ih]

theorem Template.copies_script (h : ∀ c ∈ cs, c ∈ t.commands) (k : ℕ) :
    copies (k + 1) (scriptText (cs.map (Command.rename (t.copyName 0)))) =
      scriptText (t.copied (k + 1) cs) := by
  rw [Template.copied, scriptText_flatMap, range_succ_eq_map, flatMap_cons,
    flatMap_map, copies, Nat.add_sub_cancel]
  congr 1
  exact flatMap_congr fun i _ => t.replace_script h (i + 1)

end Copies

section Output

variable {t : Template}

theorem span_commands {p : Str → Bool} {cs : List Command}
    (h : ∀ c ∈ cs, (∀ l ∈ commandLines c, p l = true) ∨ ∃ l ls, commandLines c = l :: ls ∧
      p l = false) :
    ∃ early late, cs = early ++ late ∧
      (cs.flatMap commandLines).takeWhile p = early.flatMap commandLines ∧
      (cs.flatMap commandLines).dropWhile p = late.flatMap commandLines := by
  induction cs with
  | nil => exact ⟨[], [], rfl, rfl, rfl⟩
  | cons c cs ih =>
    obtain ⟨hc, hcs⟩ := forall_mem_cons.mp h
    rcases hc with hall | ⟨l, ls, hlines, hl⟩
    · obtain ⟨early, late, rfl, htake, hdrop⟩ := ih hcs
      refine ⟨c :: early, late, rfl, ?_, ?_⟩
      · rw [flatMap_cons, takeWhile_append_of_pos hall, htake, flatMap_cons]
      · rw [flatMap_cons, dropWhile_append_of_pos hall, hdrop]
    · have hnot : ¬p l = true := by simp [hl]
      refine ⟨[], c :: cs, rfl, ?_, ?_⟩
      · rw [flatMap_cons, hlines, cons_append, takeWhile_cons_of_neg hnot]
        rfl
      · rw [flatMap_cons, hlines, cons_append, dropWhile_cons_of_neg hnot]

theorem isIn_assert (l : List Word) (h : ∀ w ∈ l, IsSort w.core) :
    isIn "assert".toList (lineText l) = false := by
  rw [isIn_lineText (by decide) (by decide) (by decide), any_eq_false]
  intro w hw
  rw [isIn_assert_sort (h w hw)]
  exact Bool.false_ne_true

theorem isIn_of_open (h : isIn "(assert".toList s = true) :
    isIn "assert".toList s = true := by
  by_contra hnot
  rw [not_isIn_open (Bool.eq_false_iff.mpr hnot)] at h
  cases h

theorem Template.span_lines :
    ∃ early late, t.commands = early ++ late ∧
      (readLines t.text).takeWhile (fun l => !isIn "assert".toList l) =
        early.flatMap commandLines ∧
      (readLines t.text).dropWhile (fun l => !isIn "assert".toList l) =
        late.flatMap commandLines := by
  rw [Formula.text, readLines_scriptText t.printed]
  refine span_commands fun c hc => ?_
  rcases mem_append.mp hc with hc | hc
  · obtain ⟨d, hd, rfl⟩ := mem_map.mp hc
    have hlines : commandLines d.command = lineText d.head :: d.more.map lineText := rfl
    cases hhead : isIn "assert".toList (lineText d.head) with
    | true => exact Or.inr ⟨_, _, hlines, by rw [hhead]; rfl⟩
    | false =>
      left
      rw [hlines, forall_mem_cons, forall_mem_map, hhead]
      refine ⟨rfl, fun l hl => ?_⟩
      rw [isIn_assert l (t.wellFormed.sorts d hd l (mem_cons_of_mem _ hl))]
      rfl
  · obtain ⟨ws, ls, rfl⟩ := t.assert_line hc
    refine Or.inr ⟨_, _, rfl, ?_⟩
    rw [isIn_of_open (isIn_assert_line ws)]
    rfl

theorem Template.rename_lines {cs : List Command} (h : ∀ c ∈ cs, c ∈ t.commands) :
    (cs.flatMap commandLines).mapM
        (renameLine (fun x => decide (x ∈ t.names)) (withSuffix (copySuffix 0))) =
      some ((cs.map (Command.rename (t.copyName 0))).flatMap commandLines) := by
  rw [flatMap_map]
  refine mapM_flatMap fun c hc => ?_
  refine renameLine_command (t.printed c (h c hc)) fun l hl w hw hname => ?_
  exact withSuffix_eq (ne_nil_of_symbol (t.symbol_of_mem (of_decide_eq_true hname)))

def tieNames (n : ℕ) (x : Name) : List Str := (List.range n).map fun i => x.str ++ copySuffix i

/-- The equations between the copies of the version variables. -/
def Template.ties (t : Template) (n : ℕ) : List Command :=
  if 2 ≤ n then
    (t.decls.filter fun d => isVersion d.name.str).map fun d => [equation (tieNames n d.name)]
  else []

def pins (examples : List Example) : List Command :=
  examples.zipIdx.flatMap fun e => e.1.map fun p => [equation [exampleName e.2 p.1, p.2]]

theorem tieNames_ne_nil (hn : 2 ≤ n) (x : Name) : tieNames n x ≠ [] := by
  have hlength : (tieNames n x).length = n := by simp [tieNames]
  intro hnil
  rw [hnil, length_nil] at hlength
  omega

theorem Template.ties_lines (n : ℕ) :
    (if 2 ≤ n then (versionEntries n t.decls).map fun e => equationText e.2 else []) =
      (t.ties n).flatMap commandLines := by
  rw [Template.ties]
  split_ifs with hn
  · rw [versionEntries, map_map, flatMap_map, map_eq_flatMap]
    refine flatMap_congr fun d _ => ?_
    rw [commandLines, map_singleton, lineText_equation (tieNames_ne_nil hn _)]
    rfl
  · rfl

theorem pins_lines (examples : List Example) :
    exampleLines examples = (pins examples).flatMap commandLines := by
  rw [exampleLines, pins, flatMap_assoc]
  refine flatMap_congr fun e _ => ?_
  rw [flatMap_map, map_eq_flatMap]
  refine flatMap_congr fun p _ => ?_
  rw [commandLines, map_singleton, lineText_equation (by simp)]

theorem Template.version_numbers (n : ℕ) :
    ∃ numbers, (versionEntries n t.decls).mapM (fun e => versionNumber e.1) = some numbers := by
  rw [versionEntries, mapM_map]
  refine ⟨_, mapM_eq_some (g := fun d : Decl => (versionNumber d.name.key).getD 0) fun d hd => ?_⟩
  obtain ⟨hd, hversion⟩ := mem_filter.mp hd
  obtain ⟨m, r, htext⟩ := t.versions d hd (by simpa using hversion)
  rw [Function.comp_apply, versionNumber_name htext]
  rfl

/-- The counterexamples that the script finds: none in the first round, where the file is
missing. -/
def Finds (examples : List Example) (iter : ℕ) (stored : Option (List Example)) : Prop :=
  stored = some examples ∨ (stored = none ∧ iter = 1 ∧ examples = [])

variable {examples : List Example} {iter : ℕ} {stored : Option (List Example)}

theorem Finds.iterNum (h : Finds examples iter stored) :
    (stored.map fun examples => examples.length + 1).getD iter = examples.length + 1 ∧
      stored.getD [] = examples := by
  rcases h with rfl | ⟨rfl, rfl, rfl⟩
  · exact ⟨rfl, rfl⟩
  · exact ⟨rfl, rfl⟩

def Template.output (t : Template) (examples : List Example) (early late : List Command) :
    List Command :=
  t.copied (examples.length + 1) early ++ t.copied (examples.length + 1) late ++
    t.ties (examples.length + 1) ++ pins examples

/-- The output as it is read back. -/
def Template.script (t : Template) (examples : List Example) (early late : List Command) :
    List Command :=
  t.output examples early late ++ readScript ending

theorem declares_eq : (fun x => decide (x ∈ t.names.reverse)) = fun x => decide (x ∈ t.names) := by
  funext x
  exact decide_eq_decide.mpr mem_reverse

theorem Template.early_commands {early late : List Command} (h : t.commands = early ++ late) :
    ∀ c ∈ early, c ∈ t.commands :=
  fun _ hc => h ▸ mem_append_left _ hc

theorem Template.late_commands {early late : List Command} (h : t.commands = early ++ late) :
    ∀ c ∈ late, c ∈ t.commands :=
  fun _ hc => h ▸ mem_append_right _ hc

theorem Template.concatSmt_text (hfinds : Finds examples iter stored)
    (hlabel : ∀ d ∈ t.decls, Labeled d)
    (hparser : (t.parserMarks.filter fun m => digits m = 0).length ≤ 1) :
    ∃ early late, t.commands = early ++ late ∧
      concatSmt t.text iter stored =
        some (scriptText (t.output examples early late) ++ ending) := by
  obtain ⟨early, late, hcommands, htake, hdrop⟩ := t.span_lines
  have hearly := t.early_commands hcommands
  have hlate := t.late_commands hcommands
  obtain ⟨lastOnes, hlast⟩ := Option.isSome_iff_exists.mp (t.lastOnes.mpr hparser)
  obtain ⟨numbers, hnumbers⟩ := t.version_numbers (examples.length + 1)
  obtain ⟨hiter, hstored⟩ := hfinds.iterNum
  refine ⟨early, late, hcommands, ?_⟩
  unfold concatSmt
  simp only [hiter, t.scan (Nat.le_add_left 1 _) hlabel, Option.bind_eq_bind, Option.bind_some,
    declares_eq, t.parserMarks_lines, hlast, htake, hdrop, t.rename_lines hearly,
    t.rename_lines hlate, hnumbers, t.ties_lines, hstored, pins_lines]
  rw [← flatMap_append, ← scriptText, ← scriptText, ← scriptText, t.copies_script hearly,
    t.copies_script hlate, ← scriptText_append, ← scriptText_append, Template.output,
    append_assoc _ (t.ties _) (pins _)]
  rfl

theorem Template.concatSmt_raises (hfinds : Finds examples iter stored)
    (h : ¬((∀ d ∈ t.decls, Labeled d) ∧ (t.parserMarks.filter fun m => digits m = 0).length ≤ 1)) :
    concatSmt t.text iter stored = none := by
  obtain ⟨hiter, _⟩ := hfinds.iterNum
  by_cases hlabel : ∀ d ∈ t.decls, Labeled d
  · have hlast : t.parserMarks.foldlM lastOne [] = none := by
      rw [← Option.not_isSome_iff_eq_none, t.lastOnes]
      exact fun hparser => h ⟨hlabel, hparser⟩
    unfold concatSmt
    simp only [hiter, t.scan (Nat.le_add_left 1 _) hlabel, Option.bind_eq_bind, Option.bind_some,
      declares_eq, t.parserMarks_lines, hlast, Option.bind_none]
  · simp only [Labeled, not_forall] at hlabel
    obtain ⟨d, hd, hmetered, hnone⟩ := hlabel
    unfold concatSmt
    simp only [t.scan_raises hd hmetered (Bool.eq_false_iff.mpr hnone), Option.bind_eq_bind,
      Option.bind_none]

end Output

section Reading

variable {t : Template} {c : Command}

theorem Template.mem_copied :
    c ∈ t.copied n cs ↔ ∃ i < n, ∃ a ∈ cs, Command.rename (t.copyName i) a = c := by
  simp [Template.copied]

theorem Template.mem_ties : c ∈ t.ties n ↔ 2 ≤ n ∧ ∃ d ∈ t.decls, isVersion d.name.str = true ∧
      c = [equation (tieNames n d.name)] := by
  rw [Template.ties]
  split_ifs with hn
  · rw [mem_map]
    constructor
    · rintro ⟨d, hd, rfl⟩
      obtain ⟨hd, hversion⟩ := mem_filter.mp hd
      exact ⟨hn, d, hd, hversion, rfl⟩
    · rintro ⟨_, d, hd, hversion, rfl⟩
      exact ⟨d, mem_filter.mpr ⟨hd, hversion⟩, rfl⟩
  · exact ⟨nofun, fun h => absurd h.1 hn⟩

theorem mem_pins {examples : List Example} :
    c ∈ pins examples ↔ ∃ i e, examples[i]? = some e ∧ ∃ p ∈ e,
      c = [equation [exampleName i p.1, p.2]] := by
  rw [pins, mem_flatMap]
  constructor
  · rintro ⟨⟨e, i⟩, he, hc⟩
    obtain ⟨p, hp, rfl⟩ := mem_map.mp hc
    exact ⟨i, e, mem_zipIdx_iff_getElem?.mp he, p, hp, rfl⟩
  · rintro ⟨i, e, he, p, hp, rfl⟩
    exact ⟨(e, i), mem_zipIdx_iff_getElem?.mpr he, mem_map.mpr ⟨p, hp, rfl⟩⟩

theorem Template.ties_assert (hc : c ∈ t.ties n) : isAssertion c = true := by
  obtain ⟨_, d, _, _, rfl⟩ := t.mem_ties.mp hc
  exact isAssertion_equation _

theorem pins_assert {examples : List Example} (hc : c ∈ pins examples) : isAssertion c = true := by
  obtain ⟨i, e, _, p, _, rfl⟩ := mem_pins.mp hc
  exact isAssertion_equation _

theorem exampleName_clean {key : Str} (h : Solid key) (i : ℕ) : Solid (exampleName i key) := by
  have hkey := h.append (copySuffix_clean i)
  rw [exampleName]
  split_ifs
  · exact bar_solid.append (hkey.append bar_solid)
  · exact hkey

variable {examples : List Example} {early late : List Command}

theorem Template.output_printed (hcommands : t.commands = early ++ late)
    (hrecorded : ∀ e ∈ examples, Recorded t e) : ∀ c ∈ t.output examples early late, Printed c := by
  have hcopied : ∀ cs, (∀ c ∈ cs, c ∈ t.commands) →
      ∀ c ∈ t.copied (examples.length + 1) cs, Printed c := by
    intro cs hcs c hc
    obtain ⟨i, _, a, ha, rfl⟩ := t.mem_copied.mp hc
    exact (t.renaming i).printed (t.printed a (hcs a ha))
  intro c hc
  rw [Template.output, mem_append, mem_append, mem_append] at hc
  rcases hc with ((hc | hc) | hc) | hc
  · exact hcopied early (t.early_commands hcommands) c hc
  · exact hcopied late (t.late_commands hcommands) c hc
  · obtain ⟨hn, d, hd, _, rfl⟩ := t.mem_ties.mp hc
    refine equation_printed (tieNames_ne_nil hn _) fun a ha => ?_
    obtain ⟨i, _, rfl⟩ := mem_map.mp ha
    exact (t.name_clean (mem_map_of_mem hd)).append (copySuffix_clean i)
  · obtain ⟨i, e, he, p, hp, rfl⟩ := mem_pins.mp hc
    have hrec := hrecorded e (mem_of_getElem? he)
    obtain ⟨d, hd, htext⟩ := hrec.names p hp
    refine equation_printed (by simp) (forall_mem_cons.mpr ⟨?_, forall_mem_singleton.mpr ?_⟩)
    · rw [← htext]
      exact exampleName_clean (d.name.text_solid (t.name_clean (mem_map_of_mem hd))) i
    · exact (hrec.values p hp).1

theorem ending_quiet : ∀ c ∈ readScript ending, isAssertion c = false ∧ declaredName c = none := by
  decide

theorem Template.read_output (hcommands : t.commands = early ++ late)
    (hrecorded : ∀ e ∈ examples, Recorded t e) :
    readScript (scriptText (t.output examples early late) ++ ending) =
      t.script examples early late :=
  readScript_append (t.output_printed hcommands hrecorded) ending

theorem copySuffix_inj (h : a ++ copySuffix i = b ++ copySuffix j) : a = b ∧ i = j := by
  have hsplit : ∀ (x : Str) (k : ℕ), x ++ copySuffix k = (x ++ "__".toList) ++ '_' :: ofNat k := by
    intro x k
    rw [append_assoc]
    rfl
  rw [hsplit, hsplit] at h
  obtain ⟨hname, hnumber⟩ := append_cons_inj (notMem_ofNat (by decide) i)
    (notMem_ofNat (by decide) j) h
  exact ⟨append_cancel_right hname, ofNat_injective hnumber⟩

theorem text_copy_unbarred (x : Name) (i : ℕ) : '|' ∉ x.text ++ copySuffix i := by
  rw [mem_append, not_or]
  exact ⟨x.unbarred, bar_notMem_number (by decide) i⟩

theorem Template.copyName_inj (hx : x ∈ t.names) (hy : y ∈ t.names)
    (h : t.copyName i x = t.copyName j y) : i = j ∧ x = y := by
  obtain ⟨d, hd, rfl⟩ := t.exists_name hx
  obtain ⟨e, he, rfl⟩ := t.exists_name hy
  rw [t.copyName_str hd, t.copyName_str he] at h
  obtain ⟨hquoted, htext⟩ := quote_inj (text_copy_unbarred _ _) (text_copy_unbarred _ _) h
  obtain ⟨htext, hij⟩ := copySuffix_inj htext
  refine ⟨hij, ?_⟩
  rw [Name.str, Name.str, hquoted, htext]

theorem Template.declared_copied (h : ∀ c ∈ cs, c ∈ t.commands) :
    declared (t.copied n cs) = (List.range n).flatMap fun i =>
      (declared cs).map (t.copyName i) := by
  rw [Template.copied, declared, filterMap_flatMap]
  refine flatMap_congr fun i _ => ?_
  rw [filterMap_map, declared, map_filterMap]
  refine filterMap_congr fun c hc => ?_
  exact (t.renaming i).declaredName_command (h c hc)

theorem Template.declared_output (hcommands : t.commands = early ++ late) :
    (declared (t.script examples early late)).Perm
      ((List.range (examples.length + 1)).flatMap fun i => t.names.map (t.copyName i)) := by
  have hties : declared (t.ties (examples.length + 1)) = [] :=
    declared_assertions fun c hc => t.ties_assert hc
  have hpins : declared (pins examples) = [] := declared_assertions fun c hc => pins_assert hc
  have hend : declared (readScript ending) = [] :=
    filterMap_eq_nil_iff.mpr fun c hc => (ending_quiet c hc).2
  have hnames : t.names = declared early ++ declared late := by
    rw [← declared_append, ← hcommands, t.declared_commands]
  rw [Template.script, Template.output, declared_append, declared_append, declared_append,
    declared_append, hties,
    hpins, hend, append_nil, append_nil, append_nil,
    t.declared_copied (t.early_commands hcommands),
    t.declared_copied (t.late_commands hcommands), hnames]
  simp only [map_append]
  exact flatMap_append_perm _ _ _

theorem Template.nodup_copies (n : ℕ) :
    ((List.range n).flatMap fun i => t.names.map (t.copyName i)).Nodup := by
  refine nodup_flatMap.mpr ⟨fun i _ => ?_, ?_⟩
  · exact t.wellFormed.distinct.map_on fun x hx y hy h => (t.copyName_inj hx hy h).2
  · refine List.Nodup.pairwise_of_forall_ne nodup_range fun i _ j _ hij => ?_
    refine disjoint_left.mpr fun z hz hz' => ?_
    obtain ⟨x, hx, rfl⟩ := mem_map.mp hz
    obtain ⟨y, hy, he⟩ := mem_map.mp hz'
    exact hij (t.copyName_inj hy hx he).1.symm

theorem Template.mem_declared (hcommands : t.commands = early ++ late) :
    y ∈ declared (t.script examples early late) ↔
      ∃ i ≤ examples.length, ∃ x ∈ t.names, t.copyName i x = y := by
  rw [(t.declared_output hcommands).mem_iff]
  simp only [mem_flatMap, mem_range, Nat.lt_succ_iff, mem_map]

theorem Template.mem_used (hcommands : t.commands = early ++ late) :
    y ∈ used symbol (t.script examples early late) ↔
      (∃ i ≤ examples.length, ∃ x ∈ used symbol t.commands, t.copyName i x = y) ∨
      (∃ c ∈ t.ties (examples.length + 1), y ∈ symbols symbol c) ∨
      ∃ c ∈ pins examples, y ∈ symbols symbol c := by
  have hcopied : ∀ {cs c}, (∀ c ∈ cs, c ∈ t.commands) → c ∈ t.copied (examples.length + 1) cs →
      isAssertion c = true → y ∈ symbols symbol c →
      ∃ i ≤ examples.length, ∃ x ∈ used symbol t.commands, t.copyName i x = y := by
    intro cs c hcs hc hassert hy
    obtain ⟨i, hi, a, ha, rfl⟩ := t.mem_copied.mp hc
    rw [(t.renaming i).isAssertion_command (hcs a ha)] at hassert
    rw [symbols_rename (t.renaming i).symbols] at hy
    obtain ⟨x, hx, rfl⟩ := mem_map.mp hy
    exact ⟨i, by omega, x, SmtText.mem_used.mpr ⟨a, hcs a ha, hassert, hx⟩, rfl⟩
  rw [SmtText.mem_used]
  constructor
  · rintro ⟨c, hc, hassert, hy⟩
    simp only [Template.script, Template.output, mem_append] at hc
    rcases hc with (((hc | hc) | hc) | hc) | hc
    · exact Or.inl (hcopied (t.early_commands hcommands) hc hassert hy)
    · exact Or.inl (hcopied (t.late_commands hcommands) hc hassert hy)
    · exact Or.inr (Or.inl ⟨c, hc, hy⟩)
    · exact Or.inr (Or.inr ⟨c, hc, hy⟩)
    · rw [(ending_quiet c hc).1] at hassert
      cases hassert
  · rintro (⟨i, hi, x, hx, rfl⟩ | ⟨c, hc, hy⟩ | ⟨c, hc, hy⟩)
    · obtain ⟨a, ha, hassert, hx⟩ := SmtText.mem_used.mp hx
      refine ⟨Command.rename (t.copyName i) a, ?_, ?_, ?_⟩
      · have hmem : ∀ {cs}, a ∈ cs →
            Command.rename (t.copyName i) a ∈ t.copied (examples.length + 1) cs := fun h =>
          t.mem_copied.mpr ⟨i, by omega, a, h, rfl⟩
        rw [hcommands] at ha
        simp only [Template.script, Template.output, mem_append]
        exact Or.inl (Or.inl (Or.inl ((mem_append.mp ha).imp hmem hmem)))
      · rw [(t.renaming i).isAssertion_command ha, hassert]
      · rw [symbols_rename (t.renaming i).symbols]
        exact mem_map_of_mem hx
    · exact ⟨c, by simp [Template.script, Template.output, hc], t.ties_assert hc, hy⟩
    · exact ⟨c, by simp [Template.script, Template.output, hc], pins_assert hc, hy⟩

end Reading

section Meaning

variable {t : Template} {examples : List Example} {early late : List Command}

theorem str_copySuffix (hd : d ∈ t.decls) (hplain : d.name.quoted = false) (i : ℕ) :
    d.name.str ++ copySuffix i = t.copyName i d.name.str := by
  rw [t.copyName_str hd, Name.str, hplain]
  rfl

theorem quoted_of_elements (hd : d ∈ t.decls)
    (h : isIn ".elements[".toList d.name.text = true) : d.name.quoted = true := by
  rw [t.wellFormed.quoting d hd, any_eq_true]
  exact ⟨'[', (isIn_iff.mp h).subset (by decide), by decide⟩

theorem Readable.exampleName_eq (h : Readable t examples) (he : e ∈ examples) (hp : p ∈ e)
    (hd : d ∈ t.decls)
    (htext : d.name.text = p.1) (i : ℕ) : exampleName i p.1 = t.copyName i d.name.str := by
  rw [t.copyName_str hd, exampleName, htext]
  split_ifs with helements
  · rw [quoted_of_elements hd (htext ▸ helements)]
    rfl
  · have hplain : d.name.quoted = false := by
      rw [Bool.eq_false_iff]
      exact fun hquoted => helements (h.keys e he p hp d hd htext hquoted)
    rw [hplain]
    rfl

theorem Readable.tieNames_eq (h : Readable t examples) (hne : examples ≠ [])
    (hd : d ∈ t.decls) (hversion : isVersion d.name.str = true) (n : ℕ) :
    tieNames n d.name = (List.range n).map fun i => t.copyName i d.name.str :=
  map_congr_left fun i _ => str_copySuffix hd (h.versions hne d hd hversion) i

theorem examples_ne_nil (h : 2 ≤ examples.length + 1) : examples ≠ [] := by
  rintro rfl
  simp at h

theorem Readable.used_declared (h : Readable t examples) (hrecorded : ∀ e ∈ examples, Recorded t e)
    (hcommands : t.commands = early ++ late) (hy : y ∈ used symbol (t.script examples early late)) :
    y ∈ declared (t.script examples early late) := by
  rw [t.mem_declared hcommands]
  rcases (t.mem_used hcommands).mp hy with ⟨i, hi, x, hx, rfl⟩ | ⟨c, hc, hy⟩ | ⟨c, hc, hy⟩
  · obtain ⟨a, ha, hassert, hx⟩ := mem_used.mp hx
    refine ⟨i, hi, x, ?_, rfl⟩
    rcases mem_append.mp ha with ha | ha
    · obtain ⟨d, _, rfl⟩ := mem_map.mp ha
      rw [isAssertion_decl] at hassert
      cases hassert
    · exact t.wellFormed.covered a ha x hx
  · obtain ⟨hn, d, hd, hversion, rfl⟩ := t.mem_ties.mp hc
    obtain ⟨_, hargs⟩ := (mem_symbols_equation frame_symbol).mp hy
    rw [h.tieNames_eq (examples_ne_nil hn) hd hversion] at hargs
    obtain ⟨i, hi, rfl⟩ := mem_map.mp hargs
    exact ⟨i, Nat.lt_succ_iff.mp (mem_range.mp hi), _, mem_map_of_mem hd, rfl⟩
  · obtain ⟨i, e, he, p, hp, rfl⟩ := mem_pins.mp hc
    have hmem := mem_of_getElem? he
    obtain ⟨hsymbol, hargs⟩ := (mem_symbols_equation frame_symbol).mp hy
    obtain ⟨d, hd, htext⟩ := (hrecorded e hmem).names p hp
    rcases mem_pair.mp hargs with rfl | rfl
    · have hi := (List.getElem?_eq_some_iff.mp he).1
      exact ⟨i, hi.le, _, mem_map_of_mem hd, (h.exampleName_eq hmem hp hd htext i).symm⟩
    · rw [((hrecorded e hmem).values p hp).2] at hsymbol
      cases hsymbol

variable {V : Type} {S : Semantics V} {v : Str → V}

theorem Template.satisfies_output (hcommands : t.commands = early ++ late) :
    Satisfies symbol S v (t.script examples early late) ↔
      (∀ i ≤ examples.length, Satisfies symbol S (v ∘ t.copyName i) t.commands) ∧
      (∀ c ∈ t.ties (examples.length + 1), holdsAt symbol S v c) ∧
      ∀ c ∈ pins examples, holdsAt symbol S v c := by
  have hrename : ∀ i c, holdsAt symbol S v (Command.rename (t.copyName i) c) ↔
      holdsAt symbol S (v ∘ t.copyName i) c := fun i c =>
    holdsAt_rename (t.renaming i).symbols (t.renaming i).keeps
  have hcopied : ∀ cs, (∀ c ∈ cs, c ∈ t.commands) →
      ((∀ c ∈ t.copied (examples.length + 1) cs, isAssertion c = true → holdsAt symbol S v c) ↔
        ∀ i ≤ examples.length, ∀ c ∈ cs, isAssertion c = true →
          holdsAt symbol S (v ∘ t.copyName i) c) := by
    intro cs hcs
    constructor
    · intro h i hi c hc hassert
      rw [← hrename]
      refine h _ (t.mem_copied.mpr ⟨i, by omega, c, hc, rfl⟩) ?_
      rw [(t.renaming i).isAssertion_command (hcs c hc), hassert]
    · intro h c hc hassert
      obtain ⟨i, hi, a, ha, rfl⟩ := t.mem_copied.mp hc
      rw [(t.renaming i).isAssertion_command (hcs a ha)] at hassert
      rw [hrename]
      exact h i (by omega) a ha hassert
  have hend : ∀ c ∈ readScript ending, isAssertion c = true → holdsAt symbol S v c := by
    intro c hc hassert
    rw [(ending_quiet c hc).1] at hassert
    cases hassert
  have hearly := hcopied early (t.early_commands hcommands)
  have hlate := hcopied late (t.late_commands hcommands)
  simp only [Satisfies, Template.script, Template.output, forall_mem_append]
  rw [hearly, hlate, hcommands]
  simp only [forall_mem_append]
  constructor
  · rintro ⟨⟨⟨⟨h₁, h₂⟩, h₃⟩, h₄⟩, _⟩
    exact ⟨fun i hi => ⟨h₁ i hi, h₂ i hi⟩, fun c hc => h₃ c hc (t.ties_assert hc),
      fun c hc => h₄ c hc (pins_assert hc)⟩
  · rintro ⟨h₁, h₃, h₄⟩
    exact ⟨⟨⟨⟨fun i hi => (h₁ i hi).1, fun i hi => (h₁ i hi).2⟩, fun c hc _ => h₃ c hc⟩,
      fun c hc _ => h₄ c hc⟩, hend⟩

theorem Readable.holdsAt_ties (h : Readable t examples) :
    (∀ c ∈ t.ties (examples.length + 1), holdsAt symbol S v c) ↔
      ∀ i ≤ examples.length, ∀ j ≤ examples.length, ∀ x ∈ t.names, isVersion x = true →
        v (t.copyName i x) = v (t.copyName j x) := by
  by_cases hn : 2 ≤ examples.length + 1
  · have htie : ∀ d ∈ t.decls, isVersion d.name.str = true →
        (holdsAt symbol S v [equation (tieNames (examples.length + 1) d.name)] ↔
          ∀ i ≤ examples.length, ∀ j ≤ examples.length,
            v (t.copyName i d.name.str) = v (t.copyName j d.name.str)) := by
      intro d hd hversion
      rw [h.tieNames_eq (examples_ne_nil hn) hd hversion,
        holdsAt_allEqual frame_symbol (by simpa using hn)]
      · simp only [mem_map, mem_range, Nat.lt_succ_iff, forall_exists_index, and_imp,
          forall_apply_eq_imp_iff₂]
      · intro x hx
        obtain ⟨i, _, rfl⟩ := mem_map.mp hx
        rw [(t.renaming i).symbols, d.name.symbol_str]
    constructor
    · intro hall i hi j hj x hx hversion
      obtain ⟨d, hd, rfl⟩ := t.exists_name hx
      exact (htie d hd hversion).mp (hall _ (t.mem_ties.mpr ⟨hn, d, hd, hversion, rfl⟩)) i hi j hj
    · intro hall c hc
      obtain ⟨_, d, hd, hversion, rfl⟩ := t.mem_ties.mp hc
      exact (htie d hd hversion).mpr fun i hi j hj =>
        hall i hi j hj _ (mem_map_of_mem hd) hversion
  · constructor
    · intro _ i hi j hj x _ _
      rw [show i = j by omega]
    · intro _ c hc
      exact absurd (t.mem_ties.mp hc).1 hn

theorem Readable.holdsAt_pins (h : Readable t examples) (hrecorded : ∀ e ∈ examples, Recorded t e) :
    (∀ c ∈ pins examples, holdsAt symbol S v c) ↔
      ∀ i e, examples[i]? = some e → ∀ p ∈ e, ∀ d ∈ t.decls, d.name.text = p.1 →
        v (t.copyName i d.name.str) = S.literal p.2 := by
  have hpin : ∀ i e, examples[i]? = some e → ∀ p ∈ e, ∀ d ∈ t.decls, d.name.text = p.1 →
      (holdsAt symbol S v [equation [exampleName i p.1, p.2]] ↔
        v (t.copyName i d.name.str) = S.literal p.2) := by
    intro i e he p hp d hd htext
    have hmem := mem_of_getElem? he
    have hsymbol : symbol (t.copyName i d.name.str) = true := by
      rw [(t.renaming i).symbols, d.name.symbol_str]
    rw [h.exampleName_eq hmem hp hd htext,
      holdsAt_literal frame_symbol hsymbol ((hrecorded e hmem).values p hp).2]
  constructor
  · intro hall i e he p hp d hd htext
    exact (hpin i e he p hp d hd htext).mp (hall _ (mem_pins.mpr ⟨i, e, he, p, hp, rfl⟩))
  · intro hall c hc
    obtain ⟨i, e, he, p, hp, rfl⟩ := mem_pins.mp hc
    obtain ⟨d, hd, htext⟩ := (hrecorded e (mem_of_getElem? he)).names p hp
    exact (hpin i e he p hp d hd htext).mpr (hall i e he p hp d hd htext)

theorem Readable.satisfies (h : Readable t examples) (hrecorded : ∀ e ∈ examples, Recorded t e)
    (hcommands : t.commands = early ++ late) :
    Satisfies symbol S v (t.script examples early late) ↔
      ∃ vs, Given t examples.length v vs ∧ Explains t examples S vs := by
  rw [t.satisfies_output hcommands, h.holdsAt_ties, h.holdsAt_pins hrecorded]
  constructor
  · rintro ⟨hmodels, hversions, hexamples⟩
    exact ⟨fun i => v ∘ t.copyName i, fun _ _ _ _ => rfl, hmodels, hversions, hexamples⟩
  · rintro ⟨vs, hgiven, hexplains⟩
    refine ⟨fun i hi => ?_, fun i hi j hj x hx hversion => ?_, fun i e he p hp d hd htext => ?_⟩
    · exact (t.satisfies_congr (hgiven i hi)).mpr (hexplains.models i hi)
    · rw [hgiven i hi x hx, hgiven j hj x hx]
      exact hexplains.versions i hi j hj x hx hversion
    · have hi := (List.getElem?_eq_some_iff.mp he).1
      rw [hgiven i hi.le _ (mem_map_of_mem hd)]
      exact hexplains.examples i e he p hp d hd htext

theorem Template.complete (k : ℕ) (vs : ℕ → Str → V) : ∃ v, Given t k v vs := by
  let f : {p : ℕ × Str // p.2 ∈ t.names} → Str := fun p => t.copyName p.1.1 p.1.2
  have hfactors : Function.FactorsThrough (fun p => vs p.1.1 p.1.2) f := by
    rintro ⟨⟨j, y⟩, hy⟩ ⟨⟨i, x⟩, hx⟩ he
    obtain ⟨rfl, rfl⟩ := t.copyName_inj hy hx he
    rfl
  exact ⟨Function.extend f _ (vs 0), fun i _ x hx => hfactors.extend_apply _ ⟨(i, x), hx⟩⟩

end Meaning

section Exactness

variable {t : Template} {examples : List Example} {early late : List Command}

theorem versions_of_once (hcommands : t.commands = early ++ late)
    (honce : ∀ x ∈ used symbol (t.script examples early late),
      x ∈ declared (t.script examples early late))
    (hne : examples ≠ []) : ∀ d ∈ t.decls, isVersion d.name.str = true → d.name.quoted = false := by
  intro d hd hversion
  by_contra hquoted
  rw [Bool.not_eq_false] at hquoted
  have hn : 2 ≤ examples.length + 1 := by
    have hlength := length_pos_of_ne_nil hne
    omega
  have hstr : d.name.str ++ copySuffix 0 = '|' :: (d.name.text ++ ['|'] ++ copySuffix 0) := by
    rw [Name.str, hquoted]
    rfl
  have hsymbol : symbol (d.name.str ++ copySuffix 0) = true := by
    rw [hstr]
    exact symbol_iff.mpr (Or.inr (Or.inr ⟨_, rfl⟩))
  have harg : d.name.str ++ copySuffix 0 ∈ tieNames (examples.length + 1) d.name :=
    mem_map.mpr ⟨0, mem_range.mpr (Nat.succ_pos _), rfl⟩
  have hused := (t.mem_used hcommands).mpr (Or.inr (Or.inl ⟨_,
    t.mem_ties.mpr ⟨hn, d, hd, hversion, rfl⟩,
    (mem_symbols_equation frame_symbol).mpr ⟨hsymbol, harg⟩⟩))
  obtain ⟨i, _, x, hx, he⟩ := (t.mem_declared hcommands).mp (honce _ hused)
  obtain ⟨e, hmem, rfl⟩ := t.exists_name hx
  rw [t.copyName_str hmem] at he
  have hhead : (quote e.name.quoted (e.name.text ++ copySuffix i)).head? = some '|' := by
    rw [he, hstr]
    rfl
  have hlast := getLast?_quote (text_copy_unbarred e.name i) hhead
  rw [he] at hlast
  exact getLast?_number (by decide) _ _ hlast

theorem not_declared_plain (hd : d ∈ t.decls) (hquoted : d.name.quoted = true) (hx : x ∈ t.names) :
    t.copyName j x ≠ d.name.text ++ copySuffix i := by
  intro he
  obtain ⟨e, hmem, rfl⟩ := t.exists_name hx
  have hquote : d.name.text ++ copySuffix i = quote false (d.name.text ++ copySuffix i) := rfl
  rw [t.copyName_str hmem, hquote] at he
  obtain ⟨hplain, htext⟩ := quote_inj (text_copy_unbarred e.name j)
    (text_copy_unbarred d.name i) he
  have hname := (copySuffix_inj htext).1
  rw [t.wellFormed.quoting e hmem, hname, ← t.wellFormed.quoting d hd, hquoted] at hplain
  cases hplain

theorem isIn_copySuffix (x : Str) (i : ℕ) : isIn separator (x ++ copySuffix i) = true :=
  isIn_append_right x (isIn_append_left (by decide) (ofNat i))

def literalPin (name value : Str) : List (Piece Unit) :=
  [.text 1 "assert".toList 0, .text 1 "=".toList 0, .text 0 name 0, .text 0 value 2]

theorem literalPin_not_fixed (name value : Str) : ¬Fixed (literalPin name value) := by
  rintro (⟨vs, h⟩ | ⟨a, u, h⟩)
  · have hargs := (cons.inj (cons.inj h).2).2
    rcases vs with _ | ⟨a, _ | ⟨b, vs⟩⟩ <;> simp [values] at hargs
  · simp [literalPin] at h

theorem keys_of_synthesis (hrecorded : ∀ e ∈ examples, Recorded t e)
    (hcommands : t.commands = early ++ late)
    (honce : ∀ x ∈ used symbol (t.script examples early late),
      x ∈ declared (t.script examples early late))
    (hsatisfies : ∀ (V : Type) (S : Semantics V) (v : Str → V),
      Satisfies symbol S v (t.script examples early late) ↔
        ∃ vs, Given t examples.length v vs ∧ Explains t examples S vs) :
    ∀ e ∈ examples, ∀ p ∈ e, ∀ d ∈ t.decls, d.name.text = p.1 → d.name.quoted = true →
      isIn ".elements[".toList p.1 = true := by
  intro e he p hp d hd htext hquoted
  by_contra helements
  obtain ⟨i, hi⟩ := mem_iff_getElem?.mp he
  have hname : exampleName i p.1 = d.name.text ++ copySuffix i := by
    rw [exampleName, if_neg helements, htext]
  have hmem : [equation [exampleName i p.1, p.2]] ∈ pins examples :=
    mem_pins.mpr ⟨i, e, hi, p, hp, rfl⟩
  have hvalue := ((hrecorded e he).values p hp).2
  cases hsymbol : symbol (exampleName i p.1) with
  | true =>
    have hused := (t.mem_used hcommands).mpr (Or.inr (Or.inr ⟨_, hmem,
      (mem_symbols_equation frame_symbol).mpr ⟨hsymbol, mem_cons_self⟩⟩))
    obtain ⟨j, _, x, hx, hcopy⟩ := (t.mem_declared hcommands).mp (honce _ hused)
    exact not_declared_plain hd hquoted hx (hcopy.trans hname)
  | false =>
    -- without a symbol in it the equation may be false, whatever the template says
    let S := Semantics.free (fun ps => ps ≠ literalPin (exampleName i p.1) p.2) fun _ => ()
    have hmodels : Satisfies symbol S (fun _ => ()) t.commands := by
      rw [t.satisfies_commands]
      intro c hc
      refine holdsAt_free (fun _ _ => rfl) fun hpieces => ?_
      have hpiece : Piece.text 0 (exampleName i p.1) 0 ∈
          c.flatten.map (Word.piece symbol fun _ => ()) := by
        rw [hpieces]
        simp [literalPin]
      obtain ⟨w, hw, hword⟩ := mem_map.mp hpiece
      obtain ⟨l, hl, hw⟩ := mem_flatten.mp hw
      rw [Word.piece] at hword
      split_ifs at hword
      have hmarked := t.unmarked c (mem_append_right _ hc) l hl w hw
      rw [(Piece.text.inj hword).2.1, hname, isIn_copySuffix] at hmarked
      cases hmarked
    have hall := (hsatisfies Unit S fun _ => ()).mpr ⟨fun _ _ => (), fun _ _ _ _ => rfl,
      fun _ _ => hmodels, fun _ _ _ _ _ _ _ => rfl, fun _ _ _ _ _ _ _ _ => rfl⟩
    have hholds := ((t.satisfies_output hcommands).mp hall).2.2 _ hmem
    have hpieces : [equation [exampleName i p.1, p.2]].flatten.map
        (Word.piece symbol fun _ => ()) = literalPin (exampleName i p.1) p.2 := by
      have hargs : (arguments [exampleName i p.1, p.2]).map (Word.piece symbol fun _ => ()) =
          [.text 0 (exampleName i p.1) 0, .text 0 p.2 2] := by
        simp [arguments, Word.piece, hsymbol, hvalue]
      rw [flatten_singleton, equation, map_cons, map_cons, frame_symbol.piece_assert,
        frame_symbol.piece_equal, hargs]
      rfl
    rw [holdsAt, hpieces] at hholds
    exact hholds.2.2 (literalPin_not_fixed _ _) rfl

/-- The program finishes with the synthesis formula if and only if labels, parser symbols
and quoted names have the form that the script expects. -/
theorem synthesis_iff (t : Template) {examples : List Example} {iter : ℕ}
    {stored : Option (List Example)}
    (hrecorded : ∀ e ∈ examples, Recorded t e) (hfinds : Finds examples iter stored) :
    (∃ out, concatSmt t.text iter stored = some out ∧ IsSynthesis t examples out) ↔
      Readable t examples := by
  constructor
  · rintro ⟨out, hout, hsynthesis⟩
    obtain ⟨hlabels, hparser⟩ : (∀ d ∈ t.decls, Labeled d) ∧
        (t.parserMarks.filter fun m => digits m = 0).length ≤ 1 := by
      by_contra h
      rw [t.concatSmt_raises hfinds h] at hout
      cases hout
    obtain ⟨early, late, hcommands, htext⟩ := t.concatSmt_text hfinds hlabels hparser
    rw [htext] at hout
    have honce := hsynthesis.declared_once
    have hsatisfies := hsynthesis.satisfies
    rw [← Option.some.inj hout, t.read_output hcommands hrecorded] at honce hsatisfies
    have hdeclared := fun x hx => count_pos_iff.mp (honce x hx ▸ Nat.one_pos)
    exact ⟨hlabels, hparser, versions_of_once hcommands hdeclared,
      keys_of_synthesis hrecorded hcommands hdeclared hsatisfies⟩
  · intro h
    obtain ⟨early, late, hcommands, htext⟩ := t.concatSmt_text hfinds h.labels h.parser
    refine ⟨_, htext, ?_, ?_, fun V vs => t.complete _ vs⟩
    · rw [t.read_output hcommands hrecorded]
      intro x hx
      have hnodup : (declared (t.script examples early late)).Nodup :=
        (t.declared_output hcommands).nodup_iff.mpr (t.nodup_copies _)
      exact count_eq_one_of_mem hnodup (h.used_declared hrecorded hcommands hx)
    · intro V S v
      rw [t.read_output hcommands hrecorded]
      exact h.satisfies hrecorded hcommands

end Exactness

namespace TwoRounds

def version : Name :=
  ⟨false, ".hdrs_0_PSAImpl_ingress_start_7.version.version_acl_1".toList, by decide, fun _ => rfl⟩

def element : Name :=
  ⟨true, ".hdr_ParserImpl_3.stack.elements[0].ttl_1".toList, by decide, nofun⟩

def counter : Name := ⟨false, ".metas_0_PSAImpl_VERSION_1".toList, by decide, fun _ => rfl⟩

def oneLine (x : Name) : Decl := ⟨x, [⟨1, [], 1⟩, ⟨0, "Bool".toList, 1⟩], []⟩

def twoLines (x : Name) : Decl := ⟨x, [], [[⟨0, [], 0⟩, ⟨1, [], 1⟩, ⟨0, "Bool".toList, 1⟩]]⟩

def asserts : List Command :=
  [[[assertWord, ⟨1, "=>".toList, 0⟩, ⟨0, version.str, 0⟩], [⟨0, element.str, 2⟩]]]

def template (counterDecl : Decl)
    (h : check [oneLine version, oneLine element, counterDecl] asserts = true)
    (hmarked : (([oneLine version, oneLine element, counterDecl].map Decl.command ++ asserts).all
      fun c => c.all fun l => l.all fun w => !isIn separator w.core) = true)
    (hcounter : isVersion counterDecl.name.str = false) : Template where
  decls := [oneLine version, oneLine element, counterDecl]
  asserts := asserts
  wellFormed := check_sound h
  unmarked := by
    intro c hc l hl w hw
    have hline := all_eq_true.mp (all_eq_true.mp hmarked c hc) l hl
    simpa using all_eq_true.mp hline w hw
  versions := by
    intro d hd hversion
    simp only [mem_cons, not_mem_nil, or_false] at hd
    rcases hd with rfl | rfl | rfl
    · exact ⟨0, "PSAImpl_ingress_start_7.version.version_acl_1".toList, rfl⟩
    · exact absurd hversion (by decide +kernel)
    · rw [hcounter] at hversion
      cases hversion

def split : Template :=
  template (twoLines counter) (by decide +kernel) (by decide +kernel) (by decide +kernel)

def joined : Template :=
  template (oneLine counter) (by decide +kernel) (by decide +kernel) (by decide +kernel)

def examples : List Example := [[(element.text, "false".toList)]]

theorem recorded : ∀ e ∈ examples, Recorded split e := by
  intro e he
  rw [mem_singleton.mp he]
  refine ⟨?_, ?_⟩
  · exact forall_mem_singleton.mpr ⟨oneLine element, mem_cons_of_mem _ mem_cons_self, rfl⟩
  · exact forall_mem_singleton.mpr ⟨forall_chars (by decide), by decide⟩

end TwoRounds

theorem two_rounds_synthesized :
    (∀ e ∈ TwoRounds.examples, Recorded TwoRounds.split e) ∧
      Finds TwoRounds.examples 2 (some TwoRounds.examples) ∧
      ∃ out, concatSmt TwoRounds.split.text 2 (some TwoRounds.examples) = some out ∧
        IsSynthesis TwoRounds.split TwoRounds.examples out :=
  ⟨TwoRounds.recorded, Or.inl rfl,
    (synthesis_iff TwoRounds.split TwoRounds.recorded (Or.inl rfl)).mpr
      ⟨by decide +kernel, by decide +kernel, by decide +kernel, by decide +kernel⟩⟩

/-- The sort on the line of the name is read as a part of the label. -/
theorem one_line_label_raises : concatSmt TwoRounds.joined.text 1 none = none := by
  decide +kernel

end ConcatSmt
