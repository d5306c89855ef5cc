import FlexPlan.AssertionReader
import FlexPlan.StableSort
import FlexPlan.VersionNames
import Mathlib.Data.List.ProdSigma

/-!
# What the learned cores say about a plan

`concat_smt` adds clauses for the learned unsat cores to the synthesis formula. The
literals of all copies are collected in one list, sorted twice, and cut into slices of the
length of the core.
-/
namespace CoreClauses

open PythonText SynthesizerUtils VersionNames AssertionReader StableSort List

abbrev Literal := Str × Str

section Program

def matching (keys : List Str) (core : List Literal) : List Literal :=
  core.flatMap fun l =>
    (keys.filter fun key => isIn (l.1 ++ "99000".toList) key).map fun key => (key, l.2)

def copyNumber (key : Str) : Option ℤ :=
  int? (slice key (find ".hdrs_".toList key + 6) (find "_PSA".toList key))

def byNumber (literals : List Literal) : Option (List Literal) :=
  (literals.mapM fun l => (copyNumber l.1).map fun n => (n, l)).map fun rows =>
    (rows.insertionSort fun a b => a.1 ≤ b.1).map Prod.snd

def bySuffix (literals : List Literal) : List Literal :=
  literals.insertionSort fun a b =>
    strLe (sliceFrom a.1 (find "99000".toList a.1)) (sliceFrom b.1 (find "99000".toList b.1))

def literalLe (a b : Literal) : Bool :=
  (a.1 ≠ b.1 && strLe a.1 b.1) || (a.1 = b.1 && strLe a.2 b.2)

def chunk {α : Type} (size i : ℕ) (l : List α) : List α := (l.drop (i * size)).take size

def equation (l : Literal) : Str := "(= ".toList ++ (l.1 ++ "___0 ".toList ++ l.2 ++ ")".toList)

def equationLine (l : Literal) : Str := "    ".toList ++ equation l ++ "\n".toList

def negationLine (l : Literal) : Str := "    (not ".toList ++ equation l ++ ")\n".toList

def plainClause (size : ℕ) (literals : List Literal) : Str :=
  if 1 < size then "(assert (not (and\n".toList ++ literals.flatMap equationLine ++ ")))\n".toList
  else "(assert (not\n".toList ++ literals.flatMap equationLine ++ "))\n".toList

/-- The clauses of a core of a single define; the last two copies are left out. An empty
core raises. -/
def plainCore (keys : List Str) (core : List Literal) : Option Str :=
  if core = [] then none
  else (byNumber (matching keys core)).map fun literals =>
    (List.range (literals.length / core.length - 2)).flatMap fun i =>
      plainClause core.length (chunk core.length i (bySuffix literals))

def definePart (size : ℕ) (literals : List Literal) : Str :=
  if 1 < size then "    (not (and\n".toList ++ literals.flatMap equationLine ++ "))\n".toList
  else literals.flatMap negationLine

def defineOrder (keys : List Str) (core : List Literal) : List Literal :=
  bySuffix ((matching keys core).insertionSort fun a b => literalLe a b)

/-- The texts for the copies; the first core of the first define fixes their number. -/
def addOld (keys : List Str) (stats : Option (List Str)) (core : List Literal) :
    Option (Option (List Str)) :=
  if core = [] then none
  else
    let literals := defineOrder keys core
    let count := literals.length / core.length
    let texts := stats.getD (List.replicate count "(assert (or (and \n".toList)
    if texts.length < count then none
    else some (some (texts.zipIdx.map fun x =>
      if x.2 < count then x.1 ++ definePart core.length (chunk core.length x.2 literals) else x.1))

def addNew (keys : List Str) (texts : List Str) (core : List Literal) : Option (List Str) :=
  let literals := defineOrder keys core
  if literals.length < texts.length * core.length then none
  else some (texts.zipIdx.map fun x =>
    x.1 ++ definePart core.length (chunk core.length x.2 literals))

/-- The text that is added for the cores of single defines and of two joined defines. -/
def coreClauses (keys : List Str) (plain old new : List (List Literal)) : Option Str := do
  let resultUnsat ← plain.mapM (plainCore keys)
  let stats ← old.foldlM (addOld keys) none
  let texts ← new.foldlM (addNew keys) ((stats.getD []).map fun s => s ++ ")\n(and \n".toList)
  some (resultUnsat.flatten ++ texts.flatMap fun s => s ++ ")))\n".toList)

end Program

section Domain

/-- The version variables of a formula, in any order. -/
structure Declared where
  tail : Tail
  copies : List Copy
  components : List Str
  keys : List Str
  distinct : (copies.map Copy.id).Nodup
  identifiers : ∀ c ∈ components, Identifier c
  once : components.Nodup
  complete : keys.Perm ((copies.product components).map fun x => versionName tail x.1 x.2)
  enough : 3 ≤ copies.length

/-- The mark of a transition stands in the common suffix only. -/
structure Declared.Unmarked (D : Declared) : Prop where
  copies : ∀ i ∈ D.copies, isIn mark i.front = false
  components : ∀ c ∈ D.components, isIn mark c = false

abbrev Core := List (Str × Bool)

variable (D : Declared)

namespace Declared

/-- Cores are not empty and speak about declared components. -/
def IsCore (core : Core) : Prop := core ≠ [] ∧ ∀ l ∈ core, l.1 ∈ D.components

def element (c : Str) : Str := "version.version__".toList ++ (c ++ '_' :: ofNat D.tail.number)

def coreText (core : Core) : List Literal := core.map fun l => (D.element l.1, bitText l.2)

def bitName (i : Copy) (c : Str) : Str := versionName D.tail i c ++ "___0".toList

def Contains (v : Str → Str) (i : Copy) (core : Core) : Prop :=
  ∀ l ∈ core, v (D.bitName i l.1) = bitText l.2

def numbered : List Copy := D.copies.insertionSort fun i j => i.id ≤ j.id

def inner : List Copy := D.numbered.take (D.copies.length - 2)

end Declared

end Domain

section Names

variable (D : Declared)

theorem isPrefixOf_component (hd : isIn mark d = false) :
    (c ++ '_' :: (ofNat n ++ mark)).isPrefixOf (d ++ '_' :: (ofNat n ++ (mark ++ ofNat k))) =
      decide (c = d) := by
  have hdigits : '_' ∉ ofNat n ++ (mark ++ ofNat k) := by
    rw [mem_append, mem_append, not_or, not_or]
    exact ⟨notMem_ofNat (by decide) _, by decide, notMem_ofNat (by decide) _⟩
  have hmark : '_' ∉ ofNat n ++ mark := by
    rw [mem_append, not_or]
    exact ⟨notMem_ofNat (by decide) _, by decide⟩
  rw [Bool.eq_iff_iff, decide_eq_true_iff, List.isPrefixOf_iff_prefix]
  constructor
  · rintro ⟨r, hr⟩
    rw [append_assoc, cons_append] at hr
    rcases append_eq_append_iff.mp hr with ⟨z, rfl, hz⟩ | ⟨z, rfl, hz⟩
    · -- the longer component would hold the mark
      cases z with
      | nil => exact (append_nil c).symm
      | cons x z =>
        rw [cons_append, List.cons.injEq] at hz
        rcases append_eq_append_iff.mp hz.2 with ⟨y, rfl, hy⟩ | ⟨y, hy, hy'⟩
        · have hin : isIn mark (c ++ x :: (ofNat n ++ mark ++ y)) = true := by
            refine isIn_iff.mpr ⟨c ++ x :: ofNat n, y, ?_⟩
            simp only [append_assoc, cons_append]
          rw [hin] at hd
          cases hd
        · cases y with
          | nil =>
            have hin : isIn mark (c ++ x :: z) = true := by
              rw [append_nil] at hy
              refine isIn_iff.mpr ⟨c ++ x :: ofNat n, [], ?_⟩
              rw [← hy]
              simp only [append_assoc, cons_append, append_nil]
            rw [hin] at hd
            cases hd
          | cons y ys =>
            rw [cons_append, List.cons.injEq] at hy'
            refine absurd ?_ hmark
            rw [hy, ← hy'.1]
            exact mem_append_right z mem_cons_self
    · cases z with
      | nil => exact append_nil d
      | cons x z =>
        rw [cons_append, List.cons.injEq] at hz
        refine absurd ?_ hdigits
        rw [hz.2]
        exact mem_append_right z mem_cons_self
  · rintro rfl
    refine ⟨ofNat k, ?_⟩
    simp only [append_assoc, cons_append]

theorem isIn_element (hd : Identifier d) (hmark : isIn mark d = false) (i : Copy) :
    isIn (D.element c ++ "99000".toList) (versionName D.tail i d) = decide (c = d) := by
  have hword : "version.version__".toList = 'v' :: "ersion.version__".toList := by decide
  have hfield : ".version.version__".toList = '.' :: 'v' :: "ersion.version__".toList := by decide
  have hsplit : "ersion.version__".toList = "ersion.".toList ++ "version__".toList := by decide
  have hneedle : D.element c ++ "99000".toList =
      'v' :: ("ersion.version__".toList ++ (c ++ '_' :: (ofNat D.tail.number ++ mark))) := by
    have helement : D.element c = ('v' :: "ersion.version__".toList) ++
        (c ++ '_' :: ofNat D.tail.number) :=
      congrArg (· ++ (c ++ '_' :: ofNat D.tail.number)) hword
    rw [helement]
    simp only [append_assoc, cons_append]
    rfl
  have hhay : versionName D.tail i d =
      (i.front ++ ['.']) ++ 'v' :: ("ersion.version__".toList ++ (d ++ D.tail.text)) := by
    have hname : field D.tail d = ('.' :: 'v' :: "ersion.version__".toList) ++ (d ++ D.tail.text) :=
      congrArg (· ++ (d ++ D.tail.text)) hfield
    rw [versionName, hname]
    simp only [append_assoc, cons_append, nil_append]
  have hfront : 'v' ∉ i.front ++ ['.'] := by
    rw [mem_append, not_or]
    exact ⟨notMem_front i (by decide) (by decide), by decide⟩
  have hrest : isIn ('v' ::
    ("ersion.version__".toList ++ (c ++ '_' :: (ofNat D.tail.number ++ mark))))
      ("ersion.version__".toList ++ (d ++ D.tail.text)) = false := by
    have hdot : '.' ∉ "version__".toList ++ (d ++ D.tail.text) := by
      rw [mem_append, mem_append, not_or, not_or]
      exact ⟨by decide, notMem_component hd (by decide) (by decide),
        notMem_tail _ (by decide) (by decide)⟩
    have hin : '.' ∈ 'v' ::
        ("ersion.version__".toList ++ (c ++ '_' :: (ofNat D.tail.number ++ mark))) :=
      mem_cons_of_mem _ (mem_append_left _ (by decide))
    have hnot := not_isIn_of_notMem hin hdot
    have htext : "ersion.version__".toList ++ (d ++ D.tail.text) =
        "ersion.".toList ++ ("version__".toList ++ (d ++ D.tail.text)) := by
      rw [hsplit, append_assoc]
    rw [htext, isIn_append_of_head (by decide)]
    exact hnot
  have hprefix : ("ersion.version__".toList ++
    (c ++ '_' :: (ofNat D.tail.number ++ mark))).isPrefixOf
      ("ersion.version__".toList ++ (d ++ D.tail.text)) = decide (c = d) := by
    rw [← isPrefixOf_component (n := D.tail.number) (k := D.tail.transition) hmark, Bool.eq_iff_iff,
      List.isPrefixOf_iff_prefix, List.isPrefixOf_iff_prefix, prefix_append_right_inj]
    rfl
  rw [hneedle, hhay, isIn_from hfront, hrest, Bool.or_false, hprefix]

theorem copyNumber_eq (i : Copy) (c : Str) :
    copyNumber (versionName D.tail i c) = some (i.id : ℤ) := by
  have hhdrs : find ".hdrs_".toList (versionName D.tail i c) = 0 := find_hdrs i _
  have hpsa : find "_PSA".toList (versionName D.tail i c) = 6 + (ofNat i.id).length := find_psa i _
  have hslice : slice (versionName D.tail i c) 6 (6 + (ofNat i.id).length) = ofNat i.id :=
    slice_id i _
  rw [copyNumber, hhdrs, hpsa, Int.zero_add, hslice, int?_ofNat]

theorem suffix_eq (hi : isIn mark i.front = false) (hc : isIn mark c = false) :
    sliceFrom (versionName D.tail i c) (find mark (versionName D.tail i c)) =
      sliceFrom D.tail.text (find mark D.tail.text) := by
  have hword : ".version.version__".toList = '.' ::
    ("version.version_".toList ++ ['_']) := by decide
  have hname : versionName D.tail i c =
      (i.front ++ '.' :: ("version.version_".toList ++ '_' :: c)) ++ D.tail.text := by
    have hfield : field D.tail c = ('.' :: ("version.version_".toList ++ ['_'])) ++
        (c ++ D.tail.text) :=
      congrArg (· ++ (c ++ D.tail.text)) hword
    rw [versionName, hfield]
    simp only [append_assoc, cons_append, nil_append]
  have hnot : isIn mark (i.front ++ '.' :: ("version.version_".toList ++ '_' :: c)) = false := by
    rw [isIn_append_cons (by decide) (by decide), hi, Bool.false_or,
      isIn_append_cons (by decide) (by decide), hc]
    decide
  rw [hname]
  generalize i.front ++ '.' :: ("version.version_".toList ++ '_' :: c) = front at hnot ⊢
  have hskip : index? mark (front ++ D.tail.text) =
      (index? mark D.tail.text).map (· + front.length) :=
    index?_skip (by decide) hnot
  cases hindex : index? mark D.tail.text with
  | none =>
    have hin : isIn mark D.tail.text = true := by
      refine isIn_iff.mpr ⟨'_' :: ofNat D.tail.number, ofNat D.tail.transition, ?_⟩
      simp only [append_assoc, cons_append]
      rfl
    rw [index?_eq_none_iff.mp hindex] at hin
    cases hin
  | some n =>
    rw [hindex, Option.map_some] at hskip
    have hle : n ≤ D.tail.text.length := by
      have hlength := (prefix_of_index? hindex).length_le
      rw [length_drop] at hlength
      have hfive : mark.length = 5 := by decide
      omega
    rw [find_of_index? hskip, find_of_index? hindex, sliceFrom, sliceFrom,
      clampIndex_natCast hle, clampIndex_natCast (by rw [length_append]; omega), Nat.add_comm,
      drop_length_add_append]

end Names

section Ordering

variable {D : Declared}

namespace Declared

variable {i j : Copy}

theorem copy_eq (hi : i ∈ D.copies) (hj : j ∈ D.copies) (h : i.id = j.id) : i = j :=
  inj_on_of_nodup_map D.distinct hi hj h

variable (D) in
def IsName (key : Str) : Prop := ∃ i ∈ D.copies, ∃ c ∈ D.components, key = versionName D.tail i c

theorem mem_keys {key : Str} : key ∈ D.keys ↔ D.IsName key := by
  rw [D.complete.mem_iff, mem_map]
  constructor
  · rintro ⟨x, hx, rfl⟩
    obtain ⟨hi, hc⟩ := mem_product.mp hx
    exact ⟨x.1, hi, x.2, hc, rfl⟩
  · rintro ⟨i, hi, c, hc, rfl⟩
    exact ⟨(i, c), mem_product.mpr ⟨hi, hc⟩, rfl⟩

theorem versionName_inj (hi : i ∈ D.copies) (hj : j ∈ D.copies)
    (h : versionName D.tail i c = versionName D.tail j d) : i = j ∧ c = d := by
  have hnumber := congrArg copyNumber h
  rw [copyNumber_eq, copyNumber_eq] at hnumber
  obtain rfl := D.copy_eq hi hj (Int.ofNat.inj (Option.some.inj hnumber))
  exact ⟨rfl, field_injective D.tail (append_cancel_left h)⟩

theorem keys_nodup : D.keys.Nodup := by
  have hproduct := (List.Nodup.of_map _ D.distinct).product D.once
  rw [D.complete.nodup_iff]
  refine hproduct.map_on fun x hx y hy h => ?_
  obtain ⟨hi, hc⟩ := D.versionName_inj (mem_product.mp hx).1 (mem_product.mp hy).1 h
  exact Prod.ext hi hc

variable (D) in
def literal (i : Copy) (l : Str × Bool) : Literal := (versionName D.tail i l.1, bitText l.2)

variable {core : Core}

theorem filter_matching (h : D.Unmarked) (hcore : D.IsCore core) (hi : i ∈ D.copies)
    {q : Str → Bool}
    (hq : ∀ j ∈ D.copies, ∀ c ∈ D.components, q (versionName D.tail j c) = decide (j = i)) :
    ((matching D.keys (D.coreText core)).filter fun l => q l.1) = core.map (D.literal i) := by
  rw [matching, coreText, flatMap_map, filter_flatMap]
  have hone : ∀ l ∈ core,
    (((D.keys.filter fun key => isIn (D.element l.1 ++ "99000".toList) key).map
      fun key => (key, bitText l.2)).filter fun l => q l.1) = [D.literal i l] := by
    intro l hl
    have hc := hcore.2 l hl
    have hname : versionName D.tail i l.1 ∈ D.keys := mem_keys.mpr ⟨i, hi, l.1, hc, rfl⟩
    have hfilter : ((D.keys.filter fun key => isIn (D.element l.1 ++ "99000".toList) key).filter
        fun key => q key) = [versionName D.tail i l.1] := by
      rw [filter_filter]
      have hsame : ∀ key ∈ D.keys, (q key && isIn (D.element l.1 ++ "99000".toList) key) =
          decide (key = versionName D.tail i l.1) := by
        intro key hkey
        obtain ⟨j, hj, d, hd, rfl⟩ := mem_keys.mp hkey
        rw [hq j hj d hd, isIn_element D (D.identifiers d hd) (h.components d hd),
          ← Bool.decide_and,
          decide_eq_decide]
        constructor
        · rintro ⟨rfl, rfl⟩
          rfl
        · intro hsame
          obtain ⟨rfl, rfl⟩ := D.versionName_inj hj hi hsame
          exact ⟨rfl, rfl⟩
      rw [filter_congr hsame, filter_eq, count_eq_one_of_mem D.keys_nodup hname]
      rfl
    rw [filter_map]
    have hcomp : ((fun l : Literal => q l.1) ∘ fun key => (key, bitText l.2)) = fun key => q key :=
      rfl
    rw [hcomp, hfilter]
    rfl
  rw [flatMap_def, map_congr_left (f := fun l => _) (g := fun l => [D.literal i l]) hone,
    ← flatMap_def]
  exact map_eq_flatMap.symm

theorem mem_matching (hl : l ∈ matching D.keys (D.coreText core)) : D.IsName l.1 := by
  rw [matching] at hl
  obtain ⟨_, -, hl⟩ := mem_flatMap.mp hl
  obtain ⟨key, hkey, rfl⟩ := mem_map.mp hl
  exact mem_keys.mp (mem_filter.mp hkey).1

theorem bySuffix_eq (h : D.Unmarked) {literals : List Literal} (hl : ∀ l ∈ literals, D.IsName l.1) :
    bySuffix literals = literals := by
  have hsame : ∀ l ∈ literals, sliceFrom l.1 (find "99000".toList l.1) =
      sliceFrom D.tail.text (find mark D.tail.text) := by
    intro l hmem
    obtain ⟨i, hi, c, hc, hname⟩ := hl l hmem
    rw [hname]
    exact suffix_eq D (h.copies i hi) (h.components c hc)
  refine List.Pairwise.insertionSort_eq ?_
  refine (pairwise_of_forall (R := fun _ _ => True) fun _ _ => trivial).imp_of_mem ?_
  intro a b ha hb _
  rw [hsame a ha, hsame b hb]
  exact (strLe_total _ _).elim id id

theorem numbered_perm : D.numbered.Perm D.copies := perm_insertionSort _ _

theorem pairwise_numbered : D.numbered.Pairwise fun i j => i.id ≤ j.id := by
  refine pairwise_insertionSort ?_ ?_ _
  · exact fun _ _ _ => le_trans
  · exact fun _ _ => le_total _ _

def number (key : Str) : ℤ := (copyNumber key).getD 0

variable (D) in
theorem number_eq (i : Copy) (c : Str) : number (versionName D.tail i c) = i.id := by
  rw [number, copyNumber_eq]
  rfl

theorem byNumber_eq (h : D.Unmarked) (hcore : D.IsCore core) :
    byNumber (matching D.keys (D.coreText core)) =
      some (D.numbered.flatMap fun i => core.map (D.literal i)) := by
  have hrows : ((matching D.keys (D.coreText core)).mapM fun l =>
      (copyNumber l.1).map fun n => (n, l)) =
      some ((matching D.keys (D.coreText core)).map fun l => (number l.1, l)) := by
    refine mapM_eq_some fun l hl => ?_
    obtain ⟨i, -, c, -, hname⟩ := D.mem_matching hl
    rw [number, hname, copyNumber_eq]
    rfl
  have hsort : (((matching D.keys (D.coreText core)).map fun l => (number l.1, l)).insertionSort
      fun a b => a.1 ≤ b.1).map Prod.snd =
        (matching D.keys (D.coreText core)).insertionSort fun a b => number a.1 ≤ number b.1 := by
    rw [← map_insertionSort (fun a b : Literal => number a.1 ≤ number b.1) (fun a b => a.1 ≤ b.1)
      (fun l : Literal => (number l.1, l)) _ fun _ _ _ _ => Iff.rfl, map_map]
    exact map_id _
  have hsorted : ((matching D.keys (D.coreText core)).insertionSort
      fun a b => number a.1 ≤ number b.1).Pairwise fun a b => number a.1 ≤ number b.1 := by
    refine pairwise_insertionSort ?_ ?_ _
    · exact fun _ _ _ => le_trans
    · exact fun _ _ => le_total _ _
  have hns : (D.numbered.map fun i => (i.id : ℤ)).Pairwise fun m n => m ≤ n := by
    rw [pairwise_map]
    exact D.pairwise_numbered.imp fun h => Int.ofNat_le.mpr h
  have hnodup : (D.numbered.map fun i => (i.id : ℤ)).Nodup := by
    have hids := (D.numbered_perm.map Copy.id).nodup_iff.mpr D.distinct
    have hcast : (D.numbered.map fun i => (i.id : ℤ)) = (D.numbered.map Copy.id).map Int.ofNat := by
      rw [map_map]
      rfl
    rw [hcast]
    exact hids.map fun _ _ => Int.ofNat.inj
  have hclasses := eq_flatMap_filter (f := fun l : Literal => number l.1) (fun m n => le_antisymm)
    hns hnodup hsorted ?_
  · rw [byNumber, hrows, Option.map_some, hsort, hclasses, flatMap_map]
    refine congrArg some ?_
    rw [flatMap_def, flatMap_def]
    refine congrArg List.flatten (map_congr_left fun i hi => ?_)
    have hi := D.numbered_perm.mem_iff.mp hi
    rw [filter_insertionSort]
    · refine filter_matching h hcore hi
        (q := fun key => decide (number key = i.id)) fun j hj c _ => ?_
      rw [number_eq, decide_eq_decide]
      constructor
      · exact fun h => D.copy_eq hj hi (Int.ofNat.inj h)
      · rintro rfl
        rfl
    · intro a b ha hb
      rw [of_decide_eq_true ha, of_decide_eq_true hb]
  · intro l hl
    obtain ⟨i, hi, c, -, hname⟩ := D.mem_matching ((mem_insertionSort _).mp hl)
    rw [hname, number_eq]
    exact mem_map_of_mem (D.numbered_perm.mem_iff.mpr hi)

theorem literalLe_iff : literalLe a b = true ↔
    Then (fun a b : Literal => strLe a.1 b.1 = true) (fun a b => strLe a.2 b.2 = true) a b :=
      strLe_then_iff

def frontOf (key : Str) : Str := slice key 0 (find ".version".toList key)

variable (D) in
theorem frontOf_eq (i : Copy) (c : Str) : frontOf (versionName D.tail i c) = i.front := by
  have hfind := find_version i D.tail c []
  rw [append_nil] at hfind
  have hslice := slice_natCast (i.front ++ field D.tail c) 0 i.front.length
  rw [frontOf, hfind, versionName]
  refine hslice.trans ?_
  rw [take_left, drop_zero]

theorem front_inj (hi : i ∈ D.copies) (hj : j ∈ D.copies) (h : j.front <+: i.front) : i = j := by
  have hid : decide (j.id = i.id) = true := ?_
  · exact D.copy_eq hi hj (of_decide_eq_true hid).symm
  rw [← isIn_front]
  obtain ⟨r, hr⟩ := h
  refine isIn_iff.mpr ⟨".hdrs".toList, "_start".toList ++ j.label ++ r, ?_⟩
  rw [← hr, Copy.front]
  simp only [append_assoc]

theorem strLe_front (hi : i ∈ D.copies) (hj : j ∈ D.copies)
    (h : strLe (versionName D.tail i c) (versionName D.tail j d) = true) :
    strLe i.front j.front = true := by
  rcases strLe_of_append h with h | h
  · exact h
  · rw [D.front_inj hi hj h]
    exact (strLe_total _ _).elim id id

variable (D) in
def named : List Copy := D.copies.insertionSort fun i j => strLe i.front j.front

theorem named_perm : D.named.Perm D.copies := perm_insertionSort _ _

variable (D) in
def block (core : Core) (i : Copy) : List Literal :=
  (defineOrder D.keys (D.coreText core)).filter fun l => frontOf l.1 = i.front

theorem defineOrder_perm (keys : List Str) (core : List Literal) :
    (defineOrder keys core).Perm (matching keys core) :=
  (perm_insertionSort _ _).trans (perm_insertionSort _ _)

theorem block_perm (h : D.Unmarked) (hcore : D.IsCore core) (hi : i ∈ D.copies) :
    (D.block core i).Perm (core.map (D.literal i)) := by
  have hfilter := filter_matching h hcore hi (q := fun key => decide (frontOf key = i.front)) ?_
  · rw [← hfilter]
    exact (defineOrder_perm _ _).filter _
  · intro j hj c _
    rw [frontOf_eq, decide_eq_decide]
    constructor
    · exact fun h => D.front_inj hj hi (h ▸ prefix_rfl)
    · rintro rfl
      rfl

theorem defineOrder_eq (h : D.Unmarked) (core : Core) :
    defineOrder D.keys (D.coreText core) = D.named.flatMap (D.block core) := by
  have hmem : ∀ l ∈ defineOrder D.keys (D.coreText core), D.IsName l.1 := by
    intro l hl
    exact D.mem_matching ((defineOrder_perm _ _).mem_iff.mp hl)
  have hsorted : (defineOrder D.keys (D.coreText core)).Pairwise fun a b =>
      literalLe a b = true := by
    rw [defineOrder, D.bySuffix_eq h fun l hl => D.mem_matching ((mem_insertionSort _).mp hl)]
    refine pairwise_insertionSort ?_ ?_ _
    · intro a b c hab hbc
      rw [literalLe_iff] at hab hbc ⊢
      refine Then.trans ?_ ?_ hab hbc
      · exact fun _ _ _ => strLe_trans
      · exact fun _ _ _ => strLe_trans
    · intro a b
      rw [literalLe_iff, literalLe_iff]
      exact Then.total (fun _ _ => strLe_total _ _) (fun _ _ => strLe_total _ _) a b
  have hfronts : (defineOrder D.keys (D.coreText core)).Pairwise fun a b =>
      strLe (frontOf a.1) (frontOf b.1) = true := by
    refine hsorted.imp_of_mem fun {a b} ha hb hab => ?_
    obtain ⟨i, hi, c, -, hname⟩ := hmem a ha
    obtain ⟨j, hj, d, -, hname'⟩ := hmem b hb
    have hle : strLe a.1 b.1 = true := (literalLe_iff.mp hab).1
    rw [hname, hname'] at hle ⊢
    rw [frontOf_eq, frontOf_eq]
    exact D.strLe_front hi hj hle
  have hns : (D.named.map Copy.front).Pairwise fun a b => strLe a b = true := by
    rw [pairwise_map]
    refine pairwise_insertionSort ?_ ?_ _
    · exact fun _ _ _ => strLe_trans
    · exact fun _ _ => strLe_total _ _
  have hnodup : (D.named.map Copy.front).Nodup := by
    rw [(D.named_perm.map Copy.front).nodup_iff]
    refine (List.Nodup.of_map _ D.distinct).map_on fun i hi j hj h => ?_
    exact D.front_inj hi hj (h ▸ prefix_rfl)
  have hclasses := eq_flatMap_filter (f := fun l : Literal => frontOf l.1)
    (fun a b => strLe_antisymm) hns hnodup hfronts ?_
  · rw [flatMap_map] at hclasses
    exact hclasses
  · intro l hl
    obtain ⟨i, hi, c, -, hname⟩ := hmem l hl
    rw [hname, frontOf_eq]
    exact mem_map_of_mem (D.named_perm.mem_iff.mpr hi)

end Declared

end Ordering

section Chunks

variable {α β : Type} {size : ℕ}

theorem chunk_zero (hb : b.length = size) (rest : List α) : chunk size 0 (b ++ rest) = b := by
  rw [chunk, Nat.zero_mul, drop_zero]
  exact take_left' hb

theorem chunk_succ (hb : b.length = size) (i : ℕ) (rest : List α) :
    chunk size (i + 1) (b ++ rest) = chunk size i rest := by
  rw [chunk, chunk, Nat.add_mul, Nat.one_mul, Nat.add_comm, ← hb, drop_length_add_append]

variable {g : β → List α} {ns : List β}

variable (hg : ∀ n ∈ ns, (g n).length = size)

include hg

theorem map_chunk {count : ℕ} (hcount : count ≤ ns.length) :
    (List.range count).map (fun i => chunk size i (ns.flatMap g)) = (ns.take count).map g := by
  induction ns generalizing count with
  | nil =>
    obtain rfl : count = 0 := Nat.le_zero.mp hcount
    rfl
  | cons n ns ih =>
    obtain ⟨hn, hns⟩ := forall_mem_cons.mp hg
    cases count with
    | zero => rfl
    | succ count =>
      rw [range_succ_eq_map, map_cons, map_map, take_succ_cons, map_cons, flatMap_cons,
        chunk_zero hn]
      refine congrArg (g n :: ·) ((map_congr_left fun i _ => ?_).trans (ih hns ?_))
      · exact chunk_succ hn i _
      · rw [length_cons] at hcount
        omega

theorem map_zipIdx_chunk {γ δ : Type} (T : β → γ) (F : γ → List α → δ) :
    ((ns.map T).zipIdx.map fun x => F x.1 (chunk size x.2 (ns.flatMap g))) =
      ns.map fun n => F (T n) (g n) := by
  induction ns with
  | nil => rfl
  | cons n ns ih =>
    obtain ⟨hn, hns⟩ := forall_mem_cons.mp hg
    rw [map_cons, zipIdx_cons, map_cons, map_cons, flatMap_cons, chunk_zero hn, zipIdx_succ,
      map_map, ← ih hns]
    refine congrArg (F (T n) (g n) :: ·) (map_congr_left fun x _ => ?_)
    exact congrArg (F x.1) (chunk_succ hn x.2 _)

theorem length_flatMap_const : (ns.flatMap g).length = ns.length * size := by
  rw [length_flatMap, map_congr_left hg, map_const', sum_replicate_nat]

end Chunks

section Texts

variable {D : Declared}

namespace Declared

variable {core : Core}

variable (D) in
def plainText (core : Core) : Str :=
  D.inner.flatMap fun i => plainClause core.length (core.map (D.literal i))

section

variable (h : D.Unmarked) (hcore : D.IsCore core)

include h hcore

theorem plainCore_eq : plainCore D.keys (D.coreText core) = some (D.plainText core) := by
  have hlength : (D.coreText core).length = core.length := length_map _
  have hne : D.coreText core ≠ [] := mt map_eq_nil_iff.mp hcore.1
  have hpos : 0 < core.length := length_pos_of_ne_nil hcore.1
  have hg : ∀ i ∈ D.numbered, (core.map (D.literal i)).length = core.length :=
    fun _ _ => length_map _
  have hmem : ∀ l ∈ D.numbered.flatMap fun i => core.map (D.literal i), D.IsName l.1 := by
    intro l hl
    obtain ⟨i, hi, hl⟩ := mem_flatMap.mp hl
    obtain ⟨x, hx, rfl⟩ := mem_map.mp hl
    exact ⟨i, D.numbered_perm.mem_iff.mp hi, x.1, hcore.2 x hx, rfl⟩
  have hcount : (D.numbered.flatMap fun i => core.map (D.literal i)).length / core.length - 2 =
      D.copies.length - 2 := by
    rw [length_flatMap_const hg, Nat.mul_div_cancel _ hpos, D.numbered_perm.length_eq]
  have hle : D.copies.length - 2 ≤ D.numbered.length := by
    rw [D.numbered_perm.length_eq]
    omega
  rw [plainCore, if_neg hne, byNumber_eq h hcore, Option.map_some, hlength,
    bySuffix_eq h hmem, hcount,
    plainText, inner, flatMap_def, flatMap_def]
  refine congrArg (fun x => some (List.flatten x)) ?_
  have hchunks := congrArg (List.map (plainClause core.length)) (map_chunk hg hle)
  rw [map_map, map_map] at hchunks
  exact hchunks

variable (D) in
def partText (cores : List Core) (i : Copy) : Str :=
  cores.flatMap fun core => definePart core.length (D.block core i)

theorem block_length : ∀ i ∈ D.named, (D.block core i).length = core.length := by
  intro i hi
  rw [(block_perm h hcore (D.named_perm.mem_iff.mp hi)).length_eq, length_map]

theorem defineOrder_length :
    (defineOrder D.keys (D.coreText core)).length = D.named.length * core.length := by
  rw [defineOrder_eq h, length_flatMap_const (block_length h hcore)]

theorem addOld_eq {stats : Option (List Str)}
    (hstats : stats.getD (List.replicate D.named.length "(assert (or (and \n".toList) =
      D.named.map T) :
    addOld D.keys stats (D.coreText core) =
      some (some (D.named.map fun i => T i ++ definePart core.length (D.block core i))) := by
  have hlength : (D.coreText core).length = core.length := length_map _
  have hne : D.coreText core ≠ [] := mt map_eq_nil_iff.mp hcore.1
  have hcount : (defineOrder D.keys (D.coreText core)).length / core.length = D.named.length := by
    rw [defineOrder_length h hcore, Nat.mul_div_cancel _ (length_pos_of_ne_nil hcore.1)]
  unfold addOld
  dsimp only
  rw [if_neg hne, hlength, hcount, hstats, length_map, if_neg (Nat.lt_irrefl _)]
  refine congrArg (fun x => some (some x)) ?_
  rw [← map_zipIdx_chunk (block_length h hcore) T fun s b => s ++ definePart core.length b,
    defineOrder_eq h]
  refine map_congr_left fun x hx => ?_
  have hlt := snd_lt_of_mem_zipIdx hx
  rw [length_map, Nat.add_zero] at hlt
  exact if_pos hlt

theorem addNew_eq (T : Copy → Str) : addNew D.keys (D.named.map T) (D.coreText core) =
      some (D.named.map fun i => T i ++ definePart core.length (D.block core i)) := by
  have hlength : (D.coreText core).length = core.length := length_map _
  unfold addNew
  dsimp only
  rw [hlength, length_map, defineOrder_length h hcore, if_neg (Nat.lt_irrefl _)]
  refine congrArg some ?_
  rw [← map_zipIdx_chunk (block_length h hcore) T fun s b => s ++ definePart core.length b,
    defineOrder_eq h]

end

theorem foldlM_parts {σ : Type} {f : σ → List Literal → Option σ} {w : List Str → σ}
    (hf : ∀ core T, D.IsCore core → f (w (D.named.map T)) (D.coreText core) =
      some (w (D.named.map fun i => T i ++ definePart core.length (D.block core i))))
    {l : List Core} (hl : ∀ core ∈ l, D.IsCore core) (T : Copy → Str) :
    (l.map D.coreText).foldlM f (w (D.named.map T)) =
      some (w (D.named.map fun i => T i ++ D.partText l i)) := by
  induction l generalizing T with
  | nil => simp [partText]
  | cons core l ih =>
    obtain ⟨hcore, hl⟩ := forall_mem_cons.mp hl
    rw [map_cons, foldlM_cons, hf core T hcore, Option.bind_eq_bind, Option.bind_some, ih hl]
    simp [partText, append_assoc]

theorem foldlM_addOld (h : D.Unmarked) (hcores : ∀ core ∈ cores, D.IsCore core)
    {stats : Option (List Str)}
    (hstats : stats.getD (List.replicate D.named.length "(assert (or (and \n".toList) =
      D.named.map T)
    (hne : stats = none → cores ≠ []) : (cores.map D.coreText).foldlM (addOld D.keys) stats =
      some (some (D.named.map fun i => T i ++ D.partText cores i)) := by
  have hparts := fun {l} => foldlM_parts (f := addOld D.keys) (w := some) (l := l)
    fun core T hcore => addOld_eq h hcore rfl
  cases cores with
  | nil =>
    cases stats with
    | none => exact absurd rfl (hne rfl)
    | some texts =>
      rw [Option.getD_some] at hstats
      rw [hstats]
      exact hparts hcores T
  | cons core cores =>
    obtain ⟨hcore, hcores⟩ := forall_mem_cons.mp hcores
    rw [map_cons, foldlM_cons, addOld_eq h hcore hstats, Option.bind_eq_bind, Option.bind_some,
      hparts hcores]
    simp [partText, append_assoc]

variable (D) in
def joinedText (old new : List Core) (i : Copy) : Str :=
  "(assert (or (and \n".toList ++ D.partText old i ++ ")\n(and \n".toList ++ D.partText new i ++
    ")))\n".toList

variable (D) in
def joined (old : List Core) : List Copy := if old = [] then [] else D.named

theorem mem_joined {old : List Core} (hi : i ∈ D.joined old) : i ∈ D.copies := by
  unfold joined at hi
  split_ifs at hi
  · cases hi
  · exact D.named_perm.mem_iff.mp hi

theorem coreClauses_eq (h : D.Unmarked) {plain old new : List Core}
    (hplain : ∀ core ∈ plain, D.IsCore core)
    (hold : ∀ core ∈ old, D.IsCore core) (hnew : ∀ core ∈ new, D.IsCore core)
    (hboth : old = [] ↔ new = []) :
    coreClauses D.keys (plain.map D.coreText) (old.map D.coreText) (new.map D.coreText) =
      some (plain.flatMap D.plainText ++ (D.joined old).flatMap (D.joinedText old new)) := by
  have hresult : (plain.map D.coreText).mapM (plainCore D.keys) = some (plain.map D.plainText) := by
    rw [mapM_map]
    exact mapM_eq_some fun core hcore => plainCore_eq h (hplain core hcore)
  by_cases hempty : old = []
  · obtain rfl := hempty
    obtain rfl := hboth.mp rfl
    rw [coreClauses, hresult, joined, if_pos rfl]
    rfl
  · have hstats : (old.map D.coreText).foldlM (addOld D.keys) none =
        some (some (D.named.map fun i => "(assert (or (and \n".toList ++ D.partText old i)) :=
      foldlM_addOld h hold (map_const' ..).symm fun _ => hempty
    have hopen : (D.named.map fun i => "(assert (or (and \n".toList ++ D.partText old i).map
        (fun s => s ++ ")\n(and \n".toList) =
          D.named.map fun i => "(assert (or (and \n".toList ++ D.partText old i ++
            ")\n(and \n".toList :=
      map_map
    have hnews := foldlM_parts (w := (·)) (fun core T hcore => addNew_eq h hcore T) hnew fun i =>
      "(assert (or (and \n".toList ++ D.partText old i ++ ")\n(and \n".toList
    rw [coreClauses, hresult, hstats, joined, if_neg hempty]
    simp only [Option.bind_eq_bind, Option.bind_some, Option.getD_some]
    rw [hopen, hnews, Option.bind_some, flatMap_map, flatMap_def (f := D.plainText)]
    rfl

end Declared

end Texts

section Meaning

/-- Literals that are read as a symbol and a value. -/
structure Readable (l : Literal) : Prop where
  name : ∀ c ∈ l.1, isDelimiter c = false
  start : l.1.head? = some '.'
  value : ∀ c ∈ l.2, isDelimiter c = false
  hash : l.2.head? = some '#'

def equalExpr (l : Literal) : Expr := .equal (l.1 ++ "___0".toList) l.2

def refutation : List Literal → Expr
  | [l] => .not (equalExpr l)
  | literals => .not (.all (literals.map equalExpr))

variable {literals : List Literal}

theorem refutation_of_long (h : 1 < literals.length) :
    refutation literals = .not (.all (literals.map equalExpr)) := by
  rcases literals with _ | ⟨a, _ | ⟨b, l⟩⟩
  · cases h
  · cases Nat.lt_irrefl _ h
  · rfl

theorem eq_singleton (hne : literals ≠ []) (h : ¬1 < literals.length) : ∃ l, literals = [l] := by
  have hpos := length_pos_of_ne_nil hne
  exact length_eq_one_iff.mp (by omega)

variable {l : Literal}

theorem tokens_equation (h : Readable l) (rest : Str) :
    tokens (equation l ++ rest) = (equalExpr l).tokens ++ tokens rest := by
  have hfour : "___0 ".toList = "___0".toList ++ [' '] := by decide
  have hspace : l.1 ++ "___0 ".toList = l.1 ++ "___0".toList ++ [' '] :=
    (congrArg (l.1 ++ ·) hfour).trans (append_assoc ..).symm
  have htext : equation l ++ rest = "(= ".toList ++
      (l.1 ++ "___0".toList ++ ' ' :: (l.2 ++ ')' :: rest)) := by
    rw [equation, hspace]
    simp only [append_assoc, cons_append, nil_append]
    rfl
  have hfirst : tokens ("(= ".toList) = [.opening, .word "=".toList] := by decide
  have hname : ∀ c ∈ l.1 ++ "___0".toList, isDelimiter c = false := by
    intro c hc
    rcases mem_append.mp hc with hc | hc
    · exact h.name c hc
    · have hall : ∀ c ∈ "___0".toList, isDelimiter c = false := forall_chars (by decide)
      exact hall c hc
  have hne : l.1 ++ "___0".toList ≠ [] := by
    intro hnil
    have hstart := h.start
    rw [(append_eq_nil_iff.mp hnil).1] at hstart
    cases hstart
  have hvalue : l.2 ≠ [] := by
    intro hnil
    have hhash := h.hash
    rw [hnil] at hhash
    cases hhash
  rw [htext, tokens_append (c := ' ') (by decide) (by decide), hfirst,
    tokens_word hne hname (by decide), tokens_word hvalue h.value (by decide)]
  rfl

theorem tokens_equationLine (h : Readable l) : tokens (equationLine l) = (equalExpr l).tokens := by
  have hblank : tokens "    ".toList = [] := by decide
  have hline : tokens "\n".toList = [] := by decide
  rw [equationLine, append_assoc, tokens_append (c := ' ') (by decide) (by decide),
    tokens_equation h, hblank, hline, append_nil, nil_append]

theorem tokens_negationLine (h : Readable l) :
    tokens (negationLine l) = (Expr.not (equalExpr l)).tokens := by
  have hfirst : tokens "    (not ".toList = [.opening, .word "not".toList] := by decide
  have hlast : tokens ")\n".toList = [.closing] := by decide
  have htext : tokens ("    (not ".toList ++ (equation l ++ ")\n".toList)) =
      tokens "    (not ".toList ++ tokens (equation l ++ ")\n".toList) :=
    tokens_append (c := ' ') (by decide) (by decide) _
  have hline : negationLine l = "    (not ".toList ++ (equation l ++ ")\n".toList) :=
    append_assoc ..
  rw [hline, htext, tokens_equation h, hfirst, hlast, tokens_not]
  exact (append_assoc ..).symm

theorem getLast?_equationLine (l : Literal) : (equationLine l).getLast? = some '\n' :=
  getLast?_append (by decide) _

theorem tokens_equationLines (h : ∀ l ∈ literals, Readable l) (rest : Str) :
    tokens (literals.flatMap equationLine ++ rest) =
      (literals.map equalExpr).flatMap Expr.tokens ++ tokens rest := by
  rw [tokens_flatMap (by decide) fun l _ => getLast?_equationLine l, flatMap_map,
    flatMap_def, map_congr_left fun l hl => tokens_equationLine (h l hl), ← flatMap_def]

theorem tokens_framed (h : ∀ l ∈ literals, Readable l) {first last : Str}
    (hend : first.getLast? = some '\n') :
    tokens (first ++ literals.flatMap equationLine ++ last) =
      tokens first ++ ((literals.map equalExpr).flatMap Expr.tokens ++ tokens last) := by
  rw [append_assoc, tokens_append (by decide) hend, tokens_equationLines h]

theorem tokens_plainClause (hne : literals ≠ []) (h : ∀ l ∈ literals, Readable l) :
    tokens (plainClause literals.length literals) = assertTokens (refutation literals) := by
  by_cases hlong : 1 < literals.length
  · have hfirst : tokens "(assert (not (and\n".toList = [.opening, .word "assert".toList, .opening,
        .word "not".toList, .opening, .word "and".toList] := by decide
    have hlast : tokens ")))\n".toList = [.closing, .closing, .closing] := by decide
    rw [plainClause, if_pos hlong, refutation_of_long hlong, tokens_framed h (by decide),
      hfirst, hlast,
      assertTokens, tokens_not, tokens_all]
    simp only [append_assoc, cons_append, nil_append]
  · obtain ⟨l, rfl⟩ := eq_singleton hne hlong
    have hfirst : tokens "(assert (not\n".toList = [.opening, .word "assert".toList, .opening,
        .word "not".toList] := by decide
    have hlast : tokens "))\n".toList = [.closing, .closing] := by decide
    rw [plainClause, if_neg hlong, refutation, tokens_framed h (by decide), hfirst, hlast,
      assertTokens, tokens_not]
    simp only [append_assoc, cons_append, nil_append, map_cons, map_nil, flatMap_cons, flatMap_nil]

theorem tokens_definePart (hne : literals ≠ []) (h : ∀ l ∈ literals, Readable l) :
    tokens (definePart literals.length literals) = (refutation literals).tokens := by
  by_cases hlong : 1 < literals.length
  · have hfirst : tokens "    (not (and\n".toList = [.opening, .word "not".toList, .opening,
        .word "and".toList] := by decide
    have hlast : tokens "))\n".toList = [.closing, .closing] := by decide
    rw [definePart, if_pos hlong, refutation_of_long hlong, tokens_framed h (by decide),
      hfirst, hlast,
      tokens_not, tokens_all]
    simp only [append_assoc, cons_append, nil_append]
  · obtain ⟨l, rfl⟩ := eq_singleton hne hlong
    rw [definePart, if_neg hlong, refutation, flatMap_cons, flatMap_nil, append_nil]
    exact tokens_negationLine (h l mem_cons_self)

theorem getLast?_plainClause (size : ℕ) (literals : List Literal) :
    (plainClause size literals).getLast? = some '\n' := by
  unfold plainClause
  split_ifs
  · exact getLast?_append (by decide) _
  · exact getLast?_append (by decide) _

theorem getLast?_definePart (hne : literals ≠ []) :
    (definePart literals.length literals).getLast? = some '\n' := by
  unfold definePart
  split_ifs with hlong
  · exact getLast?_append (by decide) _
  · obtain ⟨l, rfl⟩ := eq_singleton hne hlong
    rw [flatMap_cons, flatMap_nil, append_nil]
    exact getLast?_append (by decide) _

theorem eval_equalExpr (h : Readable l) (v : Str → Str) :
    (equalExpr l).eval v = true ↔ v (l.1 ++ "___0".toList) = l.2 := by
  have hname : (l.1 ++ "___0".toList).head? ≠ some '#' := by
    rw [head?_append, h.start]
    decide
  rw [equalExpr, Expr.eval, decide_eq_true_iff, AssertionReader.value, AssertionReader.value,
    if_neg hname, if_pos h.hash]

theorem eval_refutation (h : ∀ l ∈ literals, Readable l) (v : Str → Str) :
    (refutation literals).eval v = true ↔ ¬∀ l ∈ literals, v (l.1 ++ "___0".toList) = l.2 := by
  have hall : evalAll v (literals.map equalExpr) = true ↔
      ∀ l ∈ literals, v (l.1 ++ "___0".toList) = l.2 := by
    rw [evalAll_iff, forall_mem_map]
    exact forall₂_congr fun l hl => eval_equalExpr (h l hl) v
  have hnot : ∀ b : Bool, (!b) = true ↔ ¬b = true := by decide
  by_cases hone : ∃ l, literals = [l]
  · obtain ⟨l, rfl⟩ := hone
    rw [refutation, Expr.eval, hnot, eval_equalExpr (h l mem_cons_self), forall_mem_singleton]
  · have hshape : refutation literals = .not (.all (literals.map equalExpr)) := by
      rcases literals with _ | ⟨a, _ | ⟨b, l⟩⟩
      · rfl
      · exact absurd ⟨a, rfl⟩ hone
      · rfl
    rw [hshape, Expr.eval, Expr.eval, hnot, hall]

theorem symbols_refutation (h : ∀ l ∈ literals, Readable l)
    (hw : w ∈ (refutation literals).symbols) :
    ∃ l ∈ literals, w = l.1 ++ "___0".toList := by
  have hone : ∀ l ∈ literals, w ∈ (equalExpr l).symbols → w = l.1 ++ "___0".toList := by
    intro l hl hmem
    rw [equalExpr, Expr.symbols, mem_filter] at hmem
    obtain ⟨hmem, hhash⟩ := hmem
    rcases mem_cons.mp hmem with hmem | hmem
    · exact hmem
    · rw [mem_singleton.mp hmem] at hhash
      exact absurd (h l hl).hash (of_decide_eq_true hhash)
  unfold refutation at hw
  split at hw
  · rename_i l
    exact ⟨l, mem_cons_self, hone l mem_cons_self hw⟩
  · rw [Expr.symbols, Expr.symbols, mem_allSymbols] at hw
    obtain ⟨e, he, hw⟩ := hw
    obtain ⟨l, hl, rfl⟩ := mem_map.mp he
    exact ⟨l, hl, hone l hl hw⟩

variable {D : Declared}

namespace Declared

theorem readable_literal (i : Copy) {l : Str × Bool} (hl : l.1 ∈ D.components) :
    Readable (D.literal i l) where
  name := by
    intro c hc
    have hd := D.identifiers l.1 hl
    by_contra hdelimiter
    rw [Bool.not_eq_false, isDelimiter] at hdelimiter
    simp only [Bool.or_eq_true, decide_eq_true_eq] at hdelimiter
    rcases hdelimiter with ((rfl | rfl) | rfl) | rfl
    all_goals
      exact notMem_versionName i _ hd (by decide) (by decide) (by decide) hc
  start := by
    obtain ⟨t, ht, -⟩ := i.front_cons
    rw [literal, versionName, ht]
    rfl
  value := by
    have hall : ∀ b : Bool, ((bitText b).all fun c => isDelimiter c = false) = true := by decide
    intro c hc
    exact of_decide_eq_true (all_eq_true.mp (hall l.2) c hc)
  hash := by
    have hall : ∀ b : Bool, (bitText b).head? = some '#' := by decide
    exact hall l.2

variable {core : Core}

theorem readable_core (hcore : D.IsCore core) (i : Copy) :
    ∀ l ∈ core.map (D.literal i), Readable l := by
  intro l hl
  obtain ⟨x, hx, rfl⟩ := mem_map.mp hl
  exact readable_literal i (hcore.2 x hx)

variable {i : Copy}

theorem contains_iff (hperm : literals.Perm (core.map (D.literal i)))
    (v : Str → Str) : (∀ l ∈ literals, v (l.1 ++ "___0".toList) = l.2) ↔ D.Contains v i core := by
  have hsame : (∀ l ∈ literals, v (l.1 ++ "___0".toList) = l.2) ↔
      ∀ l ∈ core.map (D.literal i), v (l.1 ++ "___0".toList) = l.2 :=
    forall_congr' fun l => imp_congr_left hperm.mem_iff
  rw [hsame, forall_mem_map]
  rfl

theorem refutation_spec (hcore : D.IsCore core) (hperm : literals.Perm (core.map (D.literal i))) :
    (∀ w ∈ (refutation literals).symbols, ∃ c ∈ D.components, w = D.bitName i c) ∧
      ∀ v, (refutation literals).eval v = true ↔ ¬D.Contains v i core := by
  have hread : ∀ l ∈ literals, Readable l :=
    fun l hl => readable_core hcore i l (hperm.mem_iff.mp hl)
  constructor
  · intro w hw
    obtain ⟨l, hl, rfl⟩ := symbols_refutation hread hw
    obtain ⟨x, hx, rfl⟩ := mem_map.mp (hperm.mem_iff.mp hl)
    exact ⟨x.1, hcore.2 x hx, rfl⟩
  · intro v
    rw [eval_refutation hread, contains_iff hperm]

variable (D) in
def plainExprs (core : Core) : List Expr := D.inner.map fun i => refutation (core.map (D.literal i))

variable (D) in
def partExpr (cores : List Core) (i : Copy) : Expr :=
  .all (cores.map fun core => refutation (D.block core i))

variable (D) in
def joinedExpr (old new : List Core) (i : Copy) : Expr := .any [D.partExpr old i, D.partExpr new i]

theorem tokens_plain (hcore : D.IsCore core) (rest : Str) :
    tokens (D.plainText core ++ rest) = (D.plainExprs core).flatMap assertTokens ++
      tokens rest := by
  have hclause : ∀ i ∈ D.inner, tokens (plainClause core.length (core.map (D.literal i))) =
      assertTokens (refutation (core.map (D.literal i))) := by
    intro i _
    have hne : core.map (D.literal i) ≠ [] := mt map_eq_nil_iff.mp hcore.1
    have htokens := tokens_plainClause hne (readable_core hcore i)
    rw [length_map] at htokens
    exact htokens
  rw [plainText, tokens_flatMap (by decide) fun i _ => getLast?_plainClause _ _, plainExprs,
    flatMap_map,
    flatMap_def, map_congr_left hclause, ← flatMap_def]

variable {cores : List Core}

section

variable (h : D.Unmarked)

include h

theorem tokens_part (hcores : ∀ core ∈ cores, D.IsCore core) (hi : i ∈ D.copies) (rest : Str) :
    tokens (D.partText cores i ++ rest) =
      (cores.map fun core => refutation (D.block core i)).flatMap Expr.tokens ++ tokens rest := by
  have hblock : ∀ core ∈ cores, D.block core i ≠ [] ∧ (D.block core i).length = core.length ∧
      ∀ l ∈ D.block core i, Readable l := by
    intro core hcore
    have hperm := block_perm h (hcores core hcore) hi
    have hlength : (D.block core i).length = core.length := by rw [hperm.length_eq, length_map]
    refine ⟨?_, hlength, fun l hl => readable_core (hcores core hcore) i l (hperm.mem_iff.mp hl)⟩
    rw [← length_pos_iff, hlength]
    exact length_pos_of_ne_nil (hcores core hcore).1
  have hlast : ∀ core ∈ cores, (definePart core.length (D.block core i)).getLast? = some '\n' := by
    intro core hcore
    obtain ⟨hne, hlength, -⟩ := hblock core hcore
    rw [← hlength]
    exact getLast?_definePart hne
  have htokens : ∀ core ∈ cores, tokens (definePart core.length (D.block core i)) =
      (refutation (D.block core i)).tokens := by
    intro core hcore
    obtain ⟨hne, hlength, hread⟩ := hblock core hcore
    rw [← hlength]
    exact tokens_definePart hne hread
  rw [partText, tokens_flatMap (by decide) hlast, flatMap_map, flatMap_def,
    map_congr_left htokens, ← flatMap_def]

theorem tokens_joined {old new : List Core} (hold : ∀ core ∈ old, D.IsCore core)
    (hnew : ∀ core ∈ new, D.IsCore core) (hi : i ∈ D.copies) :
    tokens (D.joinedText old new i) = assertTokens (D.joinedExpr old new i) := by
  have hfirst : tokens "(assert (or (and \n".toList = [.opening, .word "assert".toList,
      .opening, .word "or".toList, .opening, .word "and".toList] := by decide
  have hmiddle : tokens ")\n(and \n".toList = [.closing, .opening, .word "and".toList] := by decide
  have hlast : tokens ")))\n".toList = [.closing, .closing, .closing] := by decide
  have hassoc : ∀ a b c d e : Str, a ++ b ++ c ++ d ++ e = a ++ (b ++ (c ++ (d ++ e))) := by
    intro a b c d e
    simp only [append_assoc]
  have htext : D.joinedText old new i = "(assert (or (and \n".toList ++ (D.partText old i ++
      (")\n(and \n".toList ++ (D.partText new i ++ ")))\n".toList))) :=
    hassoc _ _ _ _ _
  rw [htext, tokens_append (c := '\n') (by decide) (by decide), tokens_part h hold hi,
    tokens_append (c := '\n') (by decide) (by decide), tokens_part h hnew hi, hfirst,
    hmiddle, hlast,
    joinedExpr, assertTokens, tokens_any, flatMap_cons, flatMap_cons, flatMap_nil,
    partExpr, tokens_all, partExpr, tokens_all]
  simp only [append_assoc, cons_append, nil_append]

theorem tokens_clauses {plain old new : List Core} (hplain : ∀ core ∈ plain, D.IsCore core)
    (hold : ∀ core ∈ old, D.IsCore core) (hnew : ∀ core ∈ new, D.IsCore core) :
    tokens (plain.flatMap D.plainText ++ (D.joined old).flatMap (D.joinedText old new)) =
    (plain.flatMap D.plainExprs ++ (D.joined old).map (D.joinedExpr old new)).flatMap
      assertTokens := by
  induction plain with
  | nil =>
    have hlast : ∀ i ∈ D.joined old, (D.joinedText old new i).getLast? = some '\n' :=
      fun i _ => getLast?_append (by decide) _
    have htokens := tokens_flatMap (by decide) hlast []
    rw [append_nil] at htokens
    rw [flatMap_nil, nil_append, flatMap_nil, nil_append, htokens, flatMap_map,
      flatMap_def, map_congr_left fun i hi => tokens_joined h hold hnew (mem_joined hi),
      ← flatMap_def]
    exact append_nil _
  | cons core plain ih =>
    obtain ⟨hcore, hplain⟩ := forall_mem_cons.mp hplain
    rw [flatMap_cons, append_assoc, tokens_plain hcore, ih hplain, flatMap_cons, append_assoc]
    exact flatMap_append.symm

theorem eval_partExpr (hcores : ∀ core ∈ cores, D.IsCore core) (hi : i ∈ D.copies)
    (v : Str → Str) : (D.partExpr cores i).eval v = true ↔
    ∀ core ∈ cores, ¬D.Contains v i core := by
  rw [partExpr, Expr.eval, evalAll_iff, forall_mem_map]
  exact forall₂_congr fun core hcore =>
    (refutation_spec (hcores core hcore) (block_perm h (hcores core hcore) hi)).2 v

theorem symbols_partExpr (hcores : ∀ core ∈ cores, D.IsCore core) (hi : i ∈ D.copies)
    (hw : w ∈ (D.partExpr cores i).symbols) : ∃ c ∈ D.components, w = D.bitName i c := by
  rw [partExpr, Expr.symbols, mem_allSymbols] at hw
  obtain ⟨e, he, hw⟩ := hw
  obtain ⟨core, hcore, rfl⟩ := mem_map.mp he
  exact (refutation_spec (hcores core hcore) (block_perm h (hcores core hcore) hi)).1 w hw

end

theorem mem_inner (hi : i ∈ D.inner) : i ∈ D.copies :=
  D.numbered_perm.mem_iff.mp (mem_of_mem_take hi)

end Declared

open Declared

/-- The added text is read as clauses that each speak about one copy. They hold iff no copy
but the last two contains a core, and every copy contains no core of the one or of the other
of two joined defines. -/
theorem coreClauses_meaning (h : D.Unmarked) {plain old new : List Core}
    (hplain : ∀ core ∈ plain, D.IsCore core) (hold : ∀ core ∈ old, D.IsCore core)
    (hnew : ∀ core ∈ new, D.IsCore core) (hboth : old = [] ↔ new = []) :
    ∃ text exprs,
      coreClauses D.keys (plain.map D.coreText) (old.map D.coreText)
        (new.map D.coreText) = some text ∧
      assertions text = some exprs ∧
      (∀ e ∈ exprs, ∃ i ∈ D.copies, ∀ w ∈ e.symbols, ∃ c ∈ D.components, w = D.bitName i c) ∧
      ∀ v, (∀ e ∈ exprs, e.eval v = true) ↔
        (∀ i ∈ D.inner, ∀ core ∈ plain, ¬D.Contains v i core) ∧
        ∀ i ∈ D.copies, (∀ core ∈ old, ¬D.Contains v i core) ∨
          ∀ core ∈ new, ¬D.Contains v i core := by
  refine ⟨_, _, coreClauses_eq h hplain hold hnew hboth,
    assertions_eq (tokens_clauses h hplain hold hnew), ?_, ?_⟩
  · intro e he
    rcases mem_append.mp he with he | he
    · obtain ⟨core, hcore, he⟩ := mem_flatMap.mp he
      obtain ⟨i, hi, rfl⟩ := mem_map.mp he
      exact ⟨i, mem_inner hi, (refutation_spec (hplain core hcore) (.refl _)).1⟩
    · obtain ⟨i, hi, rfl⟩ := mem_map.mp he
      have hi := mem_joined hi
      refine ⟨i, hi, fun w hw => ?_⟩
      rw [joinedExpr, Expr.symbols, mem_allSymbols] at hw
      obtain ⟨e, he, hw⟩ := hw
      rcases mem_pair.mp he with rfl | rfl
      · exact symbols_partExpr h hold hi hw
      · exact symbols_partExpr h hnew hi hw
  · intro v
    have hone : (∀ e ∈ plain.flatMap D.plainExprs, e.eval v = true) ↔
        ∀ i ∈ D.inner, ∀ core ∈ plain, ¬D.Contains v i core := by
      constructor
      · intro hall i hi core hcore
        refine ((refutation_spec (hplain core hcore) (.refl _)).2 v).mp (hall _ ?_)
        exact mem_flatMap.mpr ⟨core, hcore, mem_map_of_mem hi⟩
      · intro hall e he
        obtain ⟨core, hcore, he⟩ := mem_flatMap.mp he
        obtain ⟨i, hi, rfl⟩ := mem_map.mp he
        exact ((refutation_spec (hplain core hcore) (.refl _)).2 v).mpr (hall i hi core hcore)
    have heval : ∀ i ∈ D.copies, (D.joinedExpr old new i).eval v = true ↔
        (∀ core ∈ old, ¬D.Contains v i core) ∨ ∀ core ∈ new, ¬D.Contains v i core := by
      intro i hi
      rw [joinedExpr, Expr.eval, evalAny, evalAny, evalAny, Bool.or_false, Bool.or_eq_true,
        eval_partExpr h hold hi, eval_partExpr h hnew hi]
    have hjoined : (∀ e ∈ (D.joined old).map (D.joinedExpr old new), e.eval v = true) ↔
        ∀ i ∈ D.copies, (∀ core ∈ old, ¬D.Contains v i core) ∨
          ∀ core ∈ new, ¬D.Contains v i core := by
      rw [forall_mem_map, joined]
      split_ifs with hempty
      · refine ⟨fun _ i _ => Or.inl fun core hcore => ?_, fun _ i hi => absurd hi not_mem_nil⟩
        rw [hempty] at hcore
        cases hcore
      · refine forall_congr' fun i => ?_
        rw [D.named_perm.mem_iff]
        exact forall_congr' fun hi => heval i hi
    rw [← hone, ← hjoined, forall_mem_append]

end Meaning

namespace ThreeCopies

def copy (n : ℕ) : Copy := ⟨n, "_0".toList, zero_label_plain, zero_label_short⟩

def acl : Str := "acl".toList

def declared (a b c : ℕ) (h : [a, b, c].Nodup) : Declared where
  tail := ⟨2, 1⟩
  copies := [copy a, copy b, copy c]
  components := [acl]
  keys := [versionName ⟨2, 1⟩ (copy a) acl, versionName ⟨2, 1⟩ (copy b) acl,
    versionName ⟨2, 1⟩ (copy c) acl]
  distinct := h
  identifiers := by
    intro c hc
    rw [mem_singleton.mp hc]
    exact forall_chars (by decide)
  once := nodup_singleton _
  complete := .refl _
  enough := Nat.le_refl 3

def nat : Str := "nat".toList

/-- Two components, declared copy by copy. -/
def small : Declared where
  tail := ⟨2, 1⟩
  copies := [copy 0, copy 1, copy 2]
  components := [acl, nat]
  keys := ([copy 0, copy 1, copy 2].product [acl, nat]).map fun x => versionName ⟨2, 1⟩ x.1 x.2
  distinct := by decide
  identifiers := forall_mem_cons.mpr ⟨forall_chars (by decide),
    forall_mem_singleton.mpr (forall_chars (by decide))⟩
  once := by decide
  complete := .refl _
  enough := Nat.le_refl 3

def marked : Declared := declared 99000 100000 100001 (by decide)

def core : Core := [(acl, true)]

/-- The only copy with the component is the one with the smallest number. -/
def valuation (w : Str) : Str :=
  if w = marked.bitName (copy 99000) acl then "#b1".toList else "#b0".toList

end ThreeCopies

open ThreeCopies

/-- The mark in the number of a copy moves its literal behind the others, and the clause of
another copy is written in its place. -/
theorem marked_copy_not_excluded :
    ((coreClauses marked.keys [marked.coreText core] [] []).bind assertions).map
        (fun es => es.all fun e => e.eval valuation) = some true ∧
      copy 99000 ∈ marked.inner ∧ marked.Contains valuation (copy 99000) core := by
  refine ⟨by decide +kernel, by decide +kernel, fun l hl => ?_⟩
  rw [mem_singleton.mp hl]
  exact if_pos rfl

theorem small_copies_meaning : small.inner = [copy 0] ∧ ∃ text exprs,
    coreClauses small.keys [small.coreText [(acl, true), (nat, false)]]
      [small.coreText [(nat, true)]]
      [small.coreText [(nat, false), (acl, true)]] = some text ∧
    assertions text = some exprs ∧
    (∀ e ∈ exprs, ∃ i ∈ small.copies, ∀ w ∈ e.symbols, ∃ c ∈ small.components,
      w = small.bitName i c) ∧
    ∀ v, (∀ e ∈ exprs, e.eval v = true) ↔
      (∀ i ∈ small.inner, ∀ c ∈ [[(acl, true), (nat, false)]], ¬small.Contains v i c) ∧
      ∀ i ∈ small.copies, (∀ c ∈ [[(nat, true)]], ¬small.Contains v i c) ∨
        ∀ c ∈ [[(nat, false), (acl, true)]], ¬small.Contains v i c := by
  have hunmarked : small.Unmarked := by
    refine ⟨?_, ?_⟩
    · decide +kernel
    · decide +kernel
  have hplain : ∀ c ∈ [[(acl, true), (nat, false)]], small.IsCore c :=
    forall_mem_singleton.mpr ⟨cons_ne_nil _ _, by decide +kernel⟩
  have hold : ∀ c ∈ [[(nat, true)]], small.IsCore c :=
    forall_mem_singleton.mpr ⟨cons_ne_nil _ _, by decide +kernel⟩
  have hnew : ∀ c ∈ [[(nat, false), (acl, true)]], small.IsCore c :=
    forall_mem_singleton.mpr ⟨cons_ne_nil _ _, by decide +kernel⟩
  have hboth : [[(nat, true)]] = [] ↔ [[(nat, false), (acl, true)]] = [] := by simp
  exact ⟨by decide +kernel, coreClauses_meaning hunmarked hplain hold hnew hboth⟩

end CoreClauses
