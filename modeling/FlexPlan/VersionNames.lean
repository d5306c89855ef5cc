import FlexPlan.SynthesizerUtils

/-!
# Names of version bits

The name of a bit holds the number of the copy and a label of the compiler, the component, and a
tail with an assignment number and the number of the transition behind the mark `99000`.
-/
namespace VersionNames

open PythonText SynthesizerUtils List

structure Copy where
  id : ℕ
  label : Str
  label_plain : ∀ c ∈ label, c.isDigit = true ∨ c = '_'
  label_short : isIn "___".toList label = false
  deriving DecidableEq

/-- The part of a name by which the scripts tell copies apart. -/
def Copy.ele (i : Copy) : Str := '_' :: (ofNat i.id ++ "_PSAImpl_ingress".toList)

def Copy.front (i : Copy) : Str := ".hdrs".toList ++ i.ele ++ ("_start".toList ++ i.label)

/-- Components are named by letters, digits and underscores. -/
def Identifier (s : Str) : Prop := ∀ c ∈ s, c.isAlphanum = true ∨ c = '_'

structure Tail where
  number : ℕ
  transition : ℕ
  deriving DecidableEq

def mark : Str := "99000".toList

def Tail.text (t : Tail) : Str := '_' :: (ofNat t.number ++ (mark ++ ofNat t.transition))

def field (t : Tail) (component : Str) : Str := ".version.version__".toList ++ (component ++ t.text)

def versionName (t : Tail) (i : Copy) (component : Str) : Str := i.front ++ field t component

/-- The name with the mark of the first copy of the formula. -/
def planKey (t : Tail) (i : Copy) (component : Str) : Str :=
  versionName t i component ++ "___0".toList

def bitText (b : Bool) : Str := if b then "#b1".toList else "#b0".toList

theorem zero_label_plain : ∀ c ∈ "_0".toList, c.isDigit = true ∨ c = '_' := forall_chars (by decide)

theorem zero_label_short : isIn "___".toList "_0".toList = false := by decide

section Characters

variable {c : Char}

theorem notMem_ele (i : Copy) (hdigit : c.isDigit = false) (hc : c ∉ "__PSAImpl_ingress".toList) :
    c ∉ i.ele := by
  have htext : "__PSAImpl_ingress".toList = '_' :: "_PSAImpl_ingress".toList := by decide
  rw [htext, mem_cons, not_or] at hc
  rw [Copy.ele, mem_cons, not_or, mem_append, not_or]
  exact ⟨hc.1, notMem_ofNat hdigit _, hc.2⟩

theorem notMem_label (i : Copy) (hdigit : c.isDigit = false) (hc : c ≠ '_') : c ∉ i.label := by
  intro hmem
  rcases i.label_plain c hmem with h | h
  · rw [hdigit] at h
    cases h
  · exact hc h

theorem notMem_tail (t : Tail) (hdigit : c.isDigit = false) (hc : c ≠ '_') : c ∉ t.text := by
  have hmark : c ∉ mark := by
    intro hmem
    have hall : ∀ c ∈ mark, c.isDigit = true := forall_chars (by decide)
    rw [hall c hmem] at hdigit
    cases hdigit
  rw [Tail.text, mem_cons, mem_append, mem_append, not_or, not_or, not_or]
  exact ⟨hc, notMem_ofNat hdigit _, hmark, notMem_ofNat hdigit _⟩

theorem notMem_component (h : Identifier s) (halnum : c.isAlphanum = false)
    (hc : c ≠ '_') : c ∉ s := by
  intro hmem
  rcases h c hmem with h | h
  · rw [halnum] at h
    cases h
  · exact hc h

end Characters

section Reading

variable (i : Copy) (r : Str)

/-- What stands behind the number of the copy. -/
def Copy.rest : Str := "PSAImpl_ingress".toList ++ ("_start".toList ++ i.label)

theorem Copy.rest_eq : i.rest = "PSAImpl_ingress".toList ++ ("_start".toList ++ i.label) := rfl

theorem Copy.front_eq : i.front = ".hdrs".toList ++ '_' :: (ofNat i.id ++ '_' :: i.rest) := by
  have hword : "_PSAImpl_ingress".toList = '_' :: "PSAImpl_ingress".toList := by decide
  rw [Copy.front, Copy.ele, i.rest_eq, hword]
  simp only [append_assoc, cons_append]

theorem exists_ofNat_cons (hc : c.isDigit = false) (n : ℕ) : ∃ d ds, ofNat n = d :: ds ∧ c ≠ d := by
  obtain ⟨d, ds, hd⟩ := exists_cons_of_ne_nil (ofNat_ne_nil n)
  refine ⟨d, ds, hd, ?_⟩
  rintro rfl
  have hdigit : c.isDigit = true := isDigit_of_mem_ofNat (n := n) (by rw [hd]; exact mem_cons_self)
  rw [hc] at hdigit
  cases hdigit

theorem not_prefix_ofNat (hc : c.isDigit = false) (n : ℕ) (s : Str) :
    (c :: w).isPrefixOf (ofNat n ++ s) = false := by
  obtain ⟨d, ds, hd, hne⟩ := exists_ofNat_cons hc n
  rw [hd, cons_append, List.isPrefixOf]
  simp [hne]

theorem find_underscore : find "_".toList (i.front ++ r) = 5 := by
  have h := index?_append (t := [])
    (show '_' ∉ ".hdrs".toList by decide) (ofNat i.id ++ '_' :: i.rest ++ r)
  rw [i.front_eq]
  rw [append_assoc] at h
  rw [append_assoc]
  exact find_of_index? h

theorem not_isIn_start :
    isIn "_start".toList (".hdrs".toList ++ i.ele ++ "_star".toList) = false := by
  have htext : ".hdrs".toList ++ i.ele ++ "_star".toList = ".hdrs".toList ++ '_' ::
    (ofNat i.id ++ '_' ::
      "PSAImpl_ingress_star".toList) := by
    have hword : "_PSAImpl_ingress".toList ++ "_star".toList = '_' ::
        "PSAImpl_ingress_star".toList := by
      decide
    rw [Copy.ele, append_assoc, cons_append, append_assoc, hword]
  have hneedle : "_start".toList = '_' :: "start".toList := by decide
  have hstart : "start".toList = 's' :: "tart".toList := by decide
  rw [htext, hneedle, isIn_from (by decide), isIn_from (notMem_ofNat (by decide) _), hstart,
    not_prefix_ofNat (by decide)]
  decide

theorem find_start : find "_start".toList (i.front ++ r) = (".hdrs".toList ++ i.ele).length := by
  have hdrop : "_start".toList.dropLast = "_star".toList := by decide
  have h := index?_first (a := ".hdrs".toList ++ i.ele)
    (by rw [hdrop]; exact not_isIn_start i) (i.label ++ r)
  rw [Copy.front]
  simp only [append_assoc] at h ⊢
  exact find_of_index? h

theorem slice_ele : slice (i.front ++ r) (find "_".toList (i.front ++ r))
    (find "_start".toList (i.front ++ r)) = i.ele := by
  have hmiddle := slice_middle ".hdrs".toList i.ele ("_start".toList ++ i.label ++ r)
  rw [find_underscore, find_start]
  have htext : i.front ++ r = ".hdrs".toList ++ i.ele ++ ("_start".toList ++ i.label ++ r) := by
    rw [Copy.front]
    simp only [append_assoc]
  rw [htext]
  exact hmiddle

theorem Copy.front_cons : ∃ t, i.front = '.' :: 'h' :: t ∧ '.' ∉ t := by
  refine ⟨"drs".toList ++ i.ele ++ ("_start".toList ++ i.label), ?_, ?_⟩
  · have hword : ".hdrs".toList = '.' :: 'h' :: "drs".toList := by decide
    rw [Copy.front, hword]
    rfl
  · simp only [mem_append, not_or]
    exact ⟨⟨by decide, notMem_ele i (by decide) (by decide)⟩, by decide,
      notMem_label i (by decide) (by decide)⟩

theorem index?_front (hlead : '.' ∉ a) (b : Str) :
    index? ('.' :: 'v' :: w) (a ++ i.front ++ '.' :: b) =
      if ('v' :: w).isPrefixOf b then some (a ++ i.front).length
      else (index? ('.' :: 'v' :: w) b).map (· + ((a ++ i.front).length + 1)) := by
  obtain ⟨t, ht, hdot⟩ := i.front_cons
  have hfirst : ¬('v' :: w).isPrefixOf ('h' :: (t ++ '.' :: b)) = true := by simp [List.isPrefixOf]
  have hsecond : '.' ∉ 'h' :: t := by
    rw [mem_cons, not_or]
    exact ⟨by decide, hdot⟩
  have htext : a ++ i.front ++ '.' :: b = a ++ '.' :: ('h' :: t ++ '.' :: b) := by
    rw [ht]
    simp
  rw [htext, index?_from hlead, cons_append, if_neg hfirst, ← cons_append, index?_from hsecond, ht]
  split_ifs
  · simp only [Option.map_some, length_append, length_cons]
    congr 1
    omega
  · rw [Option.map_map]
    refine congrArg (fun f => Option.map f _) (funext fun n => ?_)
    simp only [Function.comp_apply, length_append, length_cons]
    omega

variable (t : Tail)

theorem field_eq (component : Str) : field t component =
    '.' :: ("version".toList ++ '.' :: ("version__".toList ++ (component ++ t.text))) := by
  have hword : ".version.version__".toList = ('.' :: "version".toList) ++ '.' ::
      "version__".toList := by
    decide
  have hfield : field t component = ('.' :: "version".toList ++ '.' :: "version__".toList) ++
      (component ++ t.text) := congrArg (· ++ (component ++ t.text)) hword
  rw [hfield, append_assoc]
  rfl

theorem find_version (component r : Str) :
    find ".version".toList (versionName t i component ++ r) = i.front.length := by
  have hneedle : ".version".toList = '.' :: 'v' :: "ersion".toList := by decide
  have hword : "version".toList = 'v' :: "ersion".toList := by decide
  have hindex := index?_front i (a := []) (w := "ersion".toList) not_mem_nil
    ('v' :: "ersion".toList ++ '.' :: ("version__".toList ++ (component ++ t.text)) ++ r)
  have hprefix : ('v' :: "ersion".toList).isPrefixOf
      ('v' :: "ersion".toList ++ '.' :: ("version__".toList ++ (component ++ t.text)) ++ r) =
        true := by
    rw [List.isPrefixOf_iff_prefix, append_assoc]
    exact prefix_append _ _
  rw [if_pos hprefix, nil_append] at hindex
  rw [versionName, field_eq, append_assoc, cons_append, hneedle, hword]
  exact find_of_index? hindex

theorem find_hdrs : find ".hdrs_".toList (i.front ++ r) = 0 := by
  have hneedle : ".hdrs_".toList = '.' :: "hdrs_".toList := by decide
  have hword : ".hdrs".toList ++ ['_'] = '.' :: "hdrs_".toList := by decide
  have h := index?_append (c := '.') (t := "hdrs_".toList) not_mem_nil
    (ofNat i.id ++ '_' :: i.rest ++ r)
  have htext : i.front ++ r = [] ++ ('.' :: "hdrs_".toList) ++
      (ofNat i.id ++ '_' :: i.rest ++ r) := by
    rw [i.front_eq, nil_append, ← hword]
    simp only [append_assoc, cons_append, nil_append]
  rw [htext, hneedle]
  exact find_of_index? h

theorem slice_id : slice (i.front ++ r) 6 (6 + (ofNat i.id).length) = ofNat i.id := by
  have h := slice_middle (".hdrs".toList ++ ['_']) (ofNat i.id) ('_' :: i.rest ++ r)
  have hlength : (".hdrs".toList ++ ['_']).length = 6 := by decide
  have hend : (".hdrs".toList ++ ['_'] ++ ofNat i.id).length = 6 + (ofNat i.id).length := by
    rw [length_append, hlength]
  rw [hend, hlength] at h
  have htext : i.front ++ r = ".hdrs".toList ++ ['_'] ++ ofNat i.id ++ ('_' :: i.rest ++ r) := by
    rw [i.front_eq]
    simp only [append_assoc, cons_append, nil_append]
  rw [htext]
  exact h

theorem find_second : findNth (i.front ++ r) "_".toList 2 = some (6 + (ofNat i.id).length : ℤ) := by
  have h := findNth_two (r := i.rest ++ r)
    (show '_' ∉ ".hdrs".toList by decide) (notMem_ofNat (c := '_') (by decide) i.id)
  have hlength : ".hdrs".toList.length = 5 := by decide
  have htext : i.front ++ r = ".hdrs".toList ++ '_' :: (ofNat i.id ++ '_' :: (i.rest ++ r)) := by
    rw [i.front_eq]
    simp only [append_assoc, cons_append]
  rw [hlength] at h
  rw [htext]
  exact h

theorem find_psa : find "_PSA".toList (i.front ++ r) = 6 + (ofNat i.id).length := by
  have hnot : isIn "_PSA".toList
      ((".hdrs_".toList ++ ofNat i.id) ++ "_PSA".toList.dropLast) = false := by
    refine not_isIn_of_notMem (c := 'A') (by decide) ?_
    rw [mem_append, mem_append, not_or, not_or]
    exact ⟨⟨by decide, notMem_ofNat (by decide) _⟩, by decide⟩
  have h := index?_first hnot ("Impl_ingress".toList ++ ("_start".toList ++ i.label) ++ r)
  have htext : i.front ++ r = (".hdrs_".toList ++ ofNat i.id) ++ "_PSA".toList ++
      ("Impl_ingress".toList ++ ("_start".toList ++ i.label) ++ r) := by
    have hword : ".hdrs_".toList = ".hdrs".toList ++ ['_'] := by decide
    have hname : "_PSA".toList ++ "Impl_ingress".toList = '_' ::
      "PSAImpl_ingress".toList := by decide
    rw [i.front_eq, i.rest_eq, hword, append_assoc _ "_PSA".toList, ← append_assoc "_PSA".toList,
      ← append_assoc "_PSA".toList, hname]
    simp only [append_assoc, cons_append, nil_append]
  have hlength : (".hdrs_".toList ++ ofNat i.id).length = 6 + (ofNat i.id).length := by
    rw [length_append]
    rfl
  rw [htext, find_of_index? h, hlength]
  omega

theorem not_isIn_mark : isIn "___0".toList i.front = false := by
  have hneedle : "___0".toList = '_' :: "__0".toList := by decide
  have hsecond : "__0".toList = '_' :: "_0".toList := by decide
  have hword : "_start".toList = "_star".toList ++ ['t'] := by decide
  have hname : "PSAImpl_ingress".toList = 'P' :: "SAImpl_ingress".toList := by decide
  have htext : i.front = (".hdrs".toList ++ '_' :: (ofNat i.id ++ '_' :: [])) ++ 'P' ::
      ("SAImpl_ingress".toList ++ "_star".toList ++ 't' :: i.label) := by
    rw [i.front_eq, i.rest_eq, hword, hname]
    simp only [append_assoc, cons_append, nil_append]
  have hfront : isIn "___0".toList
      (".hdrs".toList ++ '_' :: (ofNat i.id ++ '_' :: [])) = false := by
    rw [hneedle, isIn_from (by decide), isIn_from (notMem_ofNat (by decide) _), hsecond,
      not_prefix_ofNat (by decide)]
    decide
  have hlabel : isIn "___0".toList i.label = false := by
    have hshort := i.label_short
    rw [Bool.eq_false_iff, Ne, isIn_iff] at hshort ⊢
    have hinside : "___".toList <:+: "___0".toList := isIn_iff.mp (by decide)
    exact fun h => hshort (hinside.trans h)
  rw [htext, isIn_append_cons (by decide) (by decide), hfront,
    isIn_append_cons (by decide) (by decide), hlabel]
  decide

theorem isPrefixOf_ofNat (n m : ℕ) (w s : Str) (hw : w.isPrefixOf s = true) :
    (ofNat n ++ '_' :: w).isPrefixOf (ofNat m ++ '_' :: s) = decide (n = m) := by
  rw [Bool.eq_iff_iff, decide_eq_true_iff]
  constructor
  · intro h
    obtain ⟨r, hr⟩ := List.isPrefixOf_iff_prefix.mp h
    rw [append_assoc, cons_append] at hr
    exact ofNat_injective
      (cons_append_inj (notMem_ofNat (by decide) _) (notMem_ofNat (by decide) _) hr).1
  · rintro rfl
    rw [List.isPrefixOf_iff_prefix, prefix_append_right_inj, cons_prefix_cons]
    exact ⟨rfl, List.isPrefixOf_iff_prefix.mp hw⟩

theorem ofNat_not_prefix (hc : c.isDigit = false) (n : ℕ) (w s : Str) :
    (ofNat n ++ w).isPrefixOf (c :: s) = false := by
  obtain ⟨d, ds, hd, hne⟩ := exists_ofNat_cons hc n
  rw [hd, cons_append, List.isPrefixOf]
  simp [hne.symm]

theorem Copy.ele_eq : i.ele = '_' :: (ofNat i.id ++ '_' :: "PSAImpl_ingress".toList) := rfl

theorem isIn_front (j : Copy) : isIn i.ele j.front = decide (i.id = j.id) := by
  have hele := i.ele_eq
  have hrest : isIn i.ele j.rest = false := by
    have hname : "PSAImpl_ingress".toList = "PSAImpl".toList ++ '_' :: 'i' ::
      "ngress".toList := by decide
    have hnone : isIn i.ele ('i' :: ("ngress".toList ++ ("_start".toList ++ j.label))) = false := by
      refine not_isIn_of_notMem (c := 'P') ?_ ?_
      · rw [hele]
        simp
      · rw [mem_cons, mem_append, mem_append, not_or, not_or, not_or]
        exact ⟨by decide, by decide, by decide, notMem_label j (by decide) (by decide)⟩
    have htext : j.rest =
        "PSAImpl".toList ++ '_' :: ('i' :: ("ngress".toList ++ ("_start".toList ++ j.label))) := by
      rw [j.rest_eq, hname]
      simp only [append_assoc, cons_append]
    rw [htext, hele, isIn_from (by decide), ← hele, hnone, ofNat_not_prefix (by decide),
      Bool.or_false]
  have hP : "PSAImpl_ingress".toList = 'P' :: "SAImpl_ingress".toList := by decide
  have hword : "PSAImpl_ingress".toList.isPrefixOf j.rest = true :=
    List.isPrefixOf_iff_prefix.mpr (prefix_append _ _)
  rw [j.front_eq, hele, isIn_from (by decide), isPrefixOf_ofNat _ _ _ _ hword,
    isIn_from (notMem_ofNat (by decide) _), ← hele, hrest]
  rw [j.rest_eq, hP, cons_append, ofNat_not_prefix (by decide), Bool.or_false, Bool.or_false]

theorem isIn_planKey (j : Copy) {component : Str} :
    isIn i.ele (planKey t j component) =
      (decide (i.id = j.id) || isIn i.ele ('_' :: component)) := by
  have hele := i.ele_eq
  have hdot : '.' ∉ i.ele := notMem_ele i (by decide) (by decide)
  have hne : i.ele ≠ [] := cons_ne_nil _ _
  have hversion : isIn i.ele "version".toList = false :=
    not_isIn_of_notMem (c := '_') mem_cons_self (by decide)
  have hlast : i.ele.getLast? = some 's' := by
    have hword : "PSAImpl_ingress".toList = "PSAImpl_ingres".toList ++ ['s'] := by decide
    have htext : i.ele = '_' :: (ofNat i.id ++ '_' :: "PSAImpl_ingres".toList) ++ ['s'] := by
      rw [hele, hword]
      simp
    rw [htext, getLast?_concat]
  have hend : 's' ∉ t.text ++ "___0".toList := by
    rw [mem_append, not_or]
    exact ⟨notMem_tail t (by decide) (by decide), by decide⟩
  have hword : "version__".toList = "version".toList ++ '_' :: ['_'] := by decide
  have htail : isIn i.ele ("version__".toList ++ (component ++ t.text) ++ "___0".toList) =
      isIn i.ele ('_' :: component) := by
    have htext : "version__".toList ++ (component ++ t.text) ++ "___0".toList =
        ("version".toList ++ '_' :: ('_' :: component)) ++ (t.text ++ "___0".toList) := by
      rw [hword]
      simp only [append_assoc, cons_append, nil_append]
    rw [htext, isIn_append_of_last hlast hend]
    rw [hele, isIn_from (by decide), ofNat_not_prefix (by decide), Bool.false_or]
  rw [planKey, versionName, field_eq, append_assoc, cons_append,
    isIn_append_cons hdot hne, isIn_front, append_assoc, cons_append,
    isIn_append_cons hdot hne, hversion, Bool.false_or, htail]

theorem notMem_front (hdigit : c.isDigit = false)
    (hc : c ∉ ".hdrs__PSAImpl_ingress_start".toList) : c ∉ i.front := by
  have hword : ".hdrs__PSAImpl_ingress_start".toList =
      ".hdrs".toList ++ ("__PSAImpl_ingress".toList ++ "_start".toList) := by decide
  rw [hword] at hc
  obtain ⟨hhdrs, hrest⟩ := not_or.mp (mt mem_append.mpr hc)
  obtain ⟨hele, hstart⟩ := not_or.mp (mt mem_append.mpr hrest)
  have hne : c ≠ '_' := by
    rintro rfl
    exact hstart mem_cons_self
  intro hmem
  rcases mem_append.mp hmem with hmem | hmem
  · rcases mem_append.mp hmem with hmem | hmem
    · exact hhdrs hmem
    · exact notMem_ele i hdigit hele hmem
  · rcases mem_append.mp hmem with hmem | hmem
    · exact hstart hmem
    · exact notMem_label i hdigit hne hmem

theorem isIn_word {component w : Str} (hlast : (c :: w).getLast? = some d)
    (hdigit : c.isDigit = false) (hc : c ∉ ".hdrs__PSAImpl_ingress_start".toList)
    (hc' : c ∉ ".version.version__".toList) (hdigit' : d.isDigit = false) (hd : d ≠ '_') :
    isIn (c :: w) (planKey t i component) = isIn (c :: w) component := by
  have hfront : c ∉ i.front ++ ".version.version__".toList := by
    intro hmem
    rcases mem_append.mp hmem with hmem | hmem
    · exact notMem_front i hdigit hc hmem
    · exact hc' hmem
  have hend : d ∉ t.text ++ "___0".toList := by
    intro hmem
    rcases mem_append.mp hmem with hmem | hmem
    · exact notMem_tail t hdigit' hd hmem
    · have hall : ∀ x ∈ "___0".toList, x.isDigit = true ∨ x = '_' := forall_chars (by decide)
      rcases hall d hmem with h | h
      · rw [hdigit'] at h
        cases h
      · exact hd h
  have htext : planKey t i component =
      (i.front ++ ".version.version__".toList) ++ (component ++ (t.text ++ "___0".toList)) := by
    rw [planKey, versionName]
    unfold field
    generalize ".version.version__".toList = word
    simp only [append_assoc]
  rw [htext, isIn_append_of_head hfront, isIn_append_of_last hlast hend]

/-- Names hold letters, digits, points and underscores only. -/
theorem notMem_planKey {component : Str} (hcomponent : Identifier component)
    (halnum : c.isAlphanum = false) (hdot : c ≠ '.') (hc : c ≠ '_') :
    c ∉ planKey t i component := by
  have hdigit : c.isDigit = false := (Bool.or_eq_false_iff.mp halnum).2
  have hword : ∀ w : Str, (∀ x ∈ w, x.isAlphanum = true ∨ x = '.' ∨ x = '_') → c ∉ w := by
    intro w hw hmem
    simpa [halnum, hdot, hc] using hw c hmem
  intro hmem
  rcases mem_append.mp hmem with hmem | hmem
  · rcases mem_append.mp hmem with hmem | hmem
    · exact notMem_front i hdigit (hword _ (forall_chars (by decide))) hmem
    · rcases mem_append.mp hmem with hmem | hmem
      · exact hword _ (forall_chars (by decide)) hmem
      · exact (mem_append.mp hmem).elim (notMem_component hcomponent halnum hc)
          (notMem_tail t hdigit hc)
  · exact hword _ (forall_chars (by decide)) hmem

theorem notMem_versionName {component : Str} (hcomponent : Identifier component)
    (halnum : c.isAlphanum = false) (hdot : c ≠ '.') (hc : c ≠ '_') :
    c ∉ versionName t i component :=
  fun hmem => notMem_planKey i t hcomponent halnum hdot hc (mem_append_left _ hmem)

theorem isIn_version (component : Str) :
    isIn "version.version".toList (planKey t i component) = true := by
  have hword : ".version.version__".toList = '.' ::
    ("version.version".toList ++ "__".toList) := by decide
  have hinside : "version.version".toList <:+: ".version.version__".toList :=
    ⟨['.'], "__".toList, by rw [hword]; rfl⟩
  refine isIn_append_left (isIn_append_right _ ?_) _
  exact isIn_append_left (isIn_iff.mpr hinside) _

theorem field_injective : Function.Injective (field t) := by
  intro c c' h
  exact append_cancel_right (append_cancel_left h)

theorem id_of_ele {i j : Copy} (h : i.ele = j.ele) : i.id = j.id :=
  ofNat_injective (append_cancel_right (List.cons.inj h).2)

end Reading

end VersionNames
