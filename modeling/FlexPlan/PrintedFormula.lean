import FlexPlan.SynthesizerUtils
import FlexPlan.SmtText

/-!
# The formulas that bf4 prints

A printed formula declares its symbols and then asserts. A declaration stands on one line or has
its sort on lines of its own.
-/
namespace PrintedFormula

open PythonText SynthesizerUtils SmtText List

def nameStart (line : Str) : ℤ :=
  if isIn " rho_".toList line then find " rho_".toList line + 1
  else if isIn " .".toList line then find " .".toList line + 1
  else if isIn " |".toList line then find " |".toList line + 1
  else -1

-- The loop from -1 on looks at the last character first.
def nameEnd (line : Str) (start : ℤ) : ℤ :=
  if start < 0 then if line.getLast? = some ' ' then -1 else find " ".toList line
  else findFrom " ".toList line start.toNat

def varName (line : Str) : Str := slice line (nameStart line) (nameEnd line (nameStart line))

def isVersion (text : Str) : Bool :=
  isIn "version.version_".toList text && isIn "PSAImpl_ingress_start".toList text

/-- The key of a version variable in `version_dict`. -/
def versionKey (line : Str) : Str :=
  slice line (find ".hdrs".toList line) (nameEnd line (nameStart line))

def versionNumber (key : Str) : Option ℤ := do
  let start ← findNth key "_".toList 1
  let stop ← findNth key "_".toList 2
  int? (slice key (start + 1) stop)

/-- A suffix goes behind a plain name and in front of the closing bar of a quoted one. -/
def withSuffix (suffix name : Str) : Option Str :=
  name.getLast?.map fun c =>
    if c ≠ '|' then name ++ suffix else slice name 0 (-1) ++ suffix ++ [c]

def plainStart (x : Str) : Bool := "rho_".toList.isPrefixOf x || ".".toList.isPrefixOf x

def symbol (x : Str) : Bool := plainStart x || "|".toList.isPrefixOf x

def quote (quoted : Bool) (x : Str) : Str := if quoted then '|' :: (x ++ ['|']) else x

structure Name where
  quoted : Bool
  text : Str
  unbarred : '|' ∉ text
  plain : quoted = false → plainStart text = true

def Name.str (x : Name) : Str := quote x.quoted x.text

def Name.key (x : Name) : Str := if x.quoted then x.text ++ ['|'] else x.text

def suffixed (suffix name : Str) : Str := (withSuffix suffix name).getD name

def special (c : Char) : Bool := !(c.isAlphanum || c ∈ "~!@$%^&*_-+=<>.?/".toList)

structure Decl where
  name : Name
  rest : List Word
  more : List (List Word)

def Decl.head (d : Decl) : List Word :=
  declareWord :: ⟨0, d.name.str, 0⟩ :: d.rest

def Decl.command (d : Decl) : Command := d.head :: d.more

/-- What the scripts look for in the lines of a declaration. -/
def marks : List Str :=
  ["rho_", "assert", "PSAImpl_ingress_start", "REAL", "DIFF", "VERSION", "LENGTH", "RESOURCE",
    "CURR", "hdr_"].map String.toList

/-- A word of a sort. -/
structure IsSort (x : Str) : Prop where
  chars : ∀ c ∈ x, c ∉ ".|-".toList
  marks : ∀ m ∈ marks, isIn m x = false

structure WellFormed (decls : List Decl) (asserts : List Command) : Prop where
  decls_printed : ∀ d ∈ decls, Printed d.command
  asserts_printed : ∀ c ∈ asserts, Printed c
  asserts_head : ∀ c ∈ asserts, isAssertion c = true
  distinct : (decls.map fun d => d.name.str).Nodup
  quoting : ∀ d ∈ decls, d.name.quoted = d.name.text.any special
  sorts : ∀ d ∈ decls, ∀ l ∈ d.rest :: d.more, ∀ w ∈ l, IsSort w.core
  quiet : ∀ c ∈ asserts, ∀ l ∈ c, ∀ w ∈ l, isIn "declare-fun".toList w.core = false
  covered : ∀ c ∈ asserts, ∀ x ∈ symbols symbol c, x ∈ decls.map fun d => d.name.str

structure Formula where
  decls : List Decl
  asserts : List Command
  wellFormed : WellFormed decls asserts

def Formula.names (f : Formula) : List Str := f.decls.map fun d => d.name.str

def Formula.commands (f : Formula) : List Command := f.decls.map Decl.command ++ f.asserts

def Formula.text (f : Formula) : Str := scriptText f.commands

section Checking

def isSort (x : Str) : Bool := x.all (· ∉ ".|-".toList) && marks.all fun m => !isIn m x

theorem isSort_sound (h : isSort x = true) : IsSort x := by
  obtain ⟨hchars, hmarks⟩ := Bool.and_eq_true_iff.mp h
  refine ⟨forall_chars hchars, fun m hm => ?_⟩
  simpa using all_eq_true.mp hmarks m hm

def check (decls : List Decl) (asserts : List Command) : Bool :=
  (decls.all fun d => isPrinted d.command && (d.name.quoted == d.name.text.any special) &&
      (d.rest :: d.more).all fun l => l.all fun w => isSort w.core) &&
    (asserts.all fun c => isPrinted c && isAssertion c &&
      (c.all fun l => l.all fun w => !isIn "declare-fun".toList w.core) &&
      (symbols symbol c).all fun x => x ∈ decls.map fun d => d.name.str) &&
    decide (decls.map fun d => d.name.str).Nodup

theorem check_sound {decls : List Decl} {asserts : List Command}
    (h : check decls asserts = true) : WellFormed decls asserts := by
  obtain ⟨hparts, hdistinct⟩ := Bool.and_eq_true_iff.mp h
  obtain ⟨hdecls, hasserts⟩ := Bool.and_eq_true_iff.mp hparts
  have hdecl := fun d hd => Bool.and_eq_true_iff.mp (all_eq_true.mp hdecls d hd)
  have hfirst := fun d hd => Bool.and_eq_true_iff.mp (hdecl d hd).1
  have hassert := fun c hc => Bool.and_eq_true_iff.mp (all_eq_true.mp hasserts c hc)
  have hhead := fun c hc => Bool.and_eq_true_iff.mp (hassert c hc).1
  have hprinted := fun c hc => Bool.and_eq_true_iff.mp (hhead c hc).1
  refine ⟨fun d hd => printed_of_isPrinted (hfirst d hd).1,
    fun c hc => printed_of_isPrinted (hprinted c hc).1, fun c hc => (hprinted c hc).2,
    of_decide_eq_true hdistinct, fun d hd => eq_of_beq (hfirst d hd).2, fun d hd l hl w hw => ?_,
    fun c hc l hl w hw => ?_,
    fun c hc x hx => of_decide_eq_true (all_eq_true.mp (hassert c hc).2 x hx)⟩
  · exact isSort_sound (all_eq_true.mp (all_eq_true.mp (hdecl d hd).2 l hl) w hw)
  · simpa using all_eq_true.mp (all_eq_true.mp (hhead c hc).2 l hl) w hw

end Checking

section Names

variable {x : Str}

theorem plainStart_iff : plainStart x = true ↔ "rho_".toList <+: x ∨ ".".toList <+: x := by
  rw [plainStart, Bool.or_eq_true, List.isPrefixOf_iff_prefix, List.isPrefixOf_iff_prefix]

theorem symbol_iff :
    symbol x = true ↔ "rho_".toList <+: x ∨ ".".toList <+: x ∨ "|".toList <+: x := by
  rw [symbol, Bool.or_eq_true, plainStart_iff, List.isPrefixOf_iff_prefix, or_assoc]

theorem symbol_quote (h : q = false → plainStart x = true) : symbol (quote q x) = true := by
  cases q with
  | false => rw [quote, if_neg Bool.false_ne_true, symbol, h rfl, Bool.true_or]
  | true => exact symbol_iff.mpr (Or.inr (Or.inr ⟨x ++ ['|'], rfl⟩))

theorem plainStart_append (h : plainStart x = true) (y : Str) : plainStart (x ++ y) = true := by
  rw [plainStart_iff] at h ⊢
  exact h.imp (·.trans (prefix_append x y)) (·.trans (prefix_append x y))

theorem Name.symbol_str (x : Name) : symbol x.str = true := symbol_quote x.plain

theorem Name.text_ne_nil (x : Name) (h : x.quoted = false) : x.text ≠ [] := by
  intro he
  have hstart := x.plain h
  rw [he] at hstart
  cases hstart

theorem quote_inj (hx : '|' ∉ x) (hy : '|' ∉ y) (h : quote q x = quote q' y) : q = q' ∧ x = y := by
  have hbar : ∀ {x y : Str}, '|' ∉ x → x ≠ '|' :: (y ++ ['|']) := fun hx h => hx (h ▸ mem_cons_self)
  cases q <;> cases q'
  · exact ⟨rfl, h⟩
  · exact absurd h (hbar hx)
  · exact absurd h.symm (hbar hy)
  · exact ⟨rfl, append_cancel_right (List.cons.inj h).2⟩

theorem Name.str_injective {x y : Name} (h : x.str = y.str) :
    x.quoted = y.quoted ∧ x.text = y.text :=
  quote_inj x.unbarred y.unbarred h

theorem Name.isIn_str {x : Name} (h : isIn s x.text = true) : isIn s x.str = true := by
  rw [Name.str, quote]
  split_ifs
  · exact isIn_append_right ['|'] (isIn_append_left h ['|'])
  · exact h

theorem Name.key_injective {x y : Name} (h : x.key = y.key) : x.str = y.str := by
  have hbar : ∀ {x y : Name}, x.text ++ ['|'] ≠ y.text := fun {x y} h =>
    y.unbarred (h ▸ mem_append_right _ mem_cons_self)
  rw [Name.key, Name.key] at h
  rw [Name.str, Name.str]
  cases hx : x.quoted <;> cases hy : y.quoted <;> simp only [hx, hy, if_true] at h
  · rw [show x.text = y.text from h]
  · exact absurd h.symm hbar
  · exact absurd h hbar
  · rw [append_cancel_right h]

theorem ne_nil_of_symbol (h : symbol x = true) : x ≠ [] := by
  rintro rfl
  cases h

theorem withSuffix_eq (h : x ≠ []) : withSuffix s x = some (suffixed s x) := by
  rw [suffixed, withSuffix, getLast?_eq_some_getLast h]
  rfl

theorem suffixed_str (s : Str) (x : Name) : suffixed s x.str = quote x.quoted (x.text ++ s) := by
  rw [suffixed, withSuffix, Name.str]
  cases hq : x.quoted with
  | false =>
    have hne := x.text_ne_nil hq
    have hlast : x.text.getLast hne ≠ '|' := fun h => x.unbarred (h ▸ getLast_mem hne)
    rw [quote, if_neg Bool.false_ne_true, getLast?_eq_some_getLast hne, Option.map_some,
      if_pos hlast]
    rfl
  | true =>
    have hstr : quote true x.text = '|' :: x.text ++ ['|'] := rfl
    have hlast : ('|' :: x.text ++ ['|']).getLast? = some '|' := getLast?_concat
    rw [hstr, hlast, Option.map_some, if_neg (by simp), slice_line]
    simp [quote]

theorem quote_injective (h : quote q x = quote q y) : x = y := by
  rw [quote, quote] at h
  split_ifs at h
  · exact append_cancel_right (List.cons.inj h).2
  · exact h

theorem getLast?_quote (hx : '|' ∉ x) (h : (quote q x).head? = some '|') :
    (quote q x).getLast? = some '|' := by
  cases q with
  | false => exact absurd (mem_of_head? h) hx
  | true => exact getLast?_concat (l := '|' :: x)

theorem bar_solid : Solid "|".toList := forall_chars (by decide)

theorem Name.text_solid {x : Name} (h : Solid x.str) : Solid x.text := by
  intro c hc
  refine h c ?_
  rw [Name.str, quote]
  split_ifs
  · exact mem_cons_of_mem _ (mem_append_left _ hc)
  · exact hc

theorem suffixed_clean {x : Name} (hx : Solid x.str) (hs : Solid s) : Solid (suffixed s x.str) := by
  have htext : Solid (x.text ++ s) := x.text_solid hx |>.append hs
  rw [suffixed_str, quote]
  split_ifs
  · exact bar_solid.append (htext.append bar_solid)
  · exact htext

theorem bar_notMem_number {mark : Str} (h : '|' ∉ mark) (n : ℕ) : '|' ∉ mark ++ ofNat n := by
  rw [mem_append, not_or]
  exact ⟨h, notMem_ofNat (by decide) n⟩

theorem getLast?_number {mark : Str} (h : '|' ∉ mark) (x : Str) (n : ℕ) :
    (x ++ (mark ++ ofNat n)).getLast? ≠ some '|' := by
  intro hlast
  rw [getLast?_append_of_ne_nil _ (append_ne_nil_of_right_ne_nil _ (ofNat_ne_nil n))] at hlast
  exact bar_notMem_number h n (mem_of_getLast? hlast)

def headers : Str := ".hdrs_".toList

theorem versionNumber_headers (n : ℕ) (r : Str) :
    versionNumber (headers ++ (ofNat n ++ '_' :: r)) = some (n : ℤ) := by
  have hdot : '_' ∉ ".hdrs".toList := by decide
  have hone : find "_".toList (headers ++ (ofNat n ++ '_' :: r)) = 5 :=
    find_of_index? (index?_append (t := []) hdot _)
  have htwo : findNth (headers ++ (ofNat n ++ '_' :: r)) "_".toList 2 =
      some ((headers ++ ofNat n).length : ℤ) := by
    refine (findNth_two hdot (notMem_ofNat (by decide) n)).trans ?_
    rw [length_append, Nat.cast_add]
    rfl
  have hslice := slice_middle headers (ofNat n) ('_' :: r)
  rw [append_assoc] at hslice
  rw [versionNumber, findNth_one, hone, htwo]
  show int? (slice _ headers.length _) = _
  rw [hslice, int?_ofNat]

theorem versionNumber_name {x : Name}
    (htext : x.text = headers ++ (ofNat n ++ '_' :: r)) : versionNumber x.key = some (n : ℤ) := by
  have hkey : ∃ u, x.key = headers ++ (ofNat n ++ '_' :: u) := by
    rw [Name.key, htext]
    split_ifs
    · exact ⟨r ++ ['|'], by simp⟩
    · exact ⟨r, rfl⟩
  obtain ⟨u, hu⟩ := hkey
  rw [hu, versionNumber_headers]

theorem symbol_of_isSort (h : IsSort x) : symbol x = false := by
  rw [Bool.eq_false_iff, Ne, symbol_iff]
  have hchars : ∀ c ∈ ".|-".toList, c ∉ x := fun c hc hx => h.chars c hx hc
  rintro (hrho | hdot | hbar)
  · have hnot := h.marks "rho_".toList (by simp [marks])
    rw [isIn_iff.mpr hrho.isInfix] at hnot
    cases hnot
  · exact hchars '.' (by decide) (hdot.subset (by decide))
  · exact hchars '|' (by decide) (hbar.subset (by decide))

end Names

section FirstLine

variable {d : Decl} (hclean : ∀ w ∈ d.head, w.Clean) (hsort : ∀ w ∈ d.rest, IsSort w.core)

def Decl.tail (d : Decl) : Str :=
  match d.rest with
  | [] => "\n".toList
  | ws => ' ' :: lineText ws

def keyword : Str := "(declare-fun".toList

def opening : Str := "(declare-fun ".toList

theorem opening_eq : opening = keyword ++ [' '] := rfl

theorem Decl.line_eq (d : Decl) : lineText d.head = opening ++ d.name.str ++ d.tail := by
  have hopen : declareWord.text ++ [' '] = opening := rfl
  have hname : Word.text ⟨0, d.name.str, 0⟩ = d.name.str := by simp [Word.text]
  rw [Decl.head, lineText_cons, ← hopen, Decl.tail]
  cases d.rest with
  | nil => simp [lineText_singleton, hname]
  | cons w ws => simp [lineText_cons, hname]

include hclean in
theorem Decl.blank_notMem : ' ' ∉ d.name.str := by
  have hname : (⟨0, d.name.str, 0⟩ : Word).Clean := hclean _ (by simp [Decl.head])
  exact fun h => hname _ h (by decide)

include hclean hsort in
theorem Decl.isIn_blank (hne : t ≠ []) (ht : ∀ c ∈ " ()\n".toList, c ∉ t)
    (hsymbol : ∀ x, t <+: x → symbol x = true) :
    isIn (' ' :: t) (lineText d.head) = t.isPrefixOf d.name.str := by
  have hrest : d.rest.any (fun u => t.isPrefixOf u.text) = false := by
    rw [any_eq_false]
    intro u hu hprefix
    have hcore := prefix_core hne
      (ht _ (by decide)) (ht _ (by decide)) (List.isPrefixOf_iff_prefix.mp hprefix)
    have hnot := symbol_of_isSort (hsort u hu)
    rw [hsymbol _ hcore] at hnot
    cases hnot
  have hname : Word.text ⟨0, d.name.str, 0⟩ = d.name.str := by simp [Word.text]
  rw [Decl.head, SmtText.isIn_blank (ht _ (by decide)) (ht _ (by decide)) (hclean _ mem_cons_self)
    (fun u hu => hclean u (mem_cons_of_mem _ hu)), any_cons, hrest, Bool.or_false, hname]

include hclean hsort in
theorem Decl.nameStart_line : nameStart (lineText d.head) = opening.length := by
  have hrho := d.isIn_blank hclean hsort (t := "rho_".toList) (by decide)
    (forall_chars (by decide)) fun x h => symbol_iff.mpr (Or.inl h)
  have hdot := d.isIn_blank hclean hsort (t := ".".toList) (by decide)
    (forall_chars (by decide)) fun x h => symbol_iff.mpr (Or.inr (Or.inl h))
  have hbar := d.isIn_blank hclean hsort (t := "|".toList) (by decide)
    (forall_chars (by decide)) fun x h => symbol_iff.mpr (Or.inr (Or.inr h))
  -- the first blank of the line stands in front of the name
  have hfind : ∀ t : Str, t.isPrefixOf d.name.str = true →
      find (' ' :: t) (lineText d.head) + 1 = opening.length := by
    intro t ht
    obtain ⟨u, hu⟩ := List.isPrefixOf_iff_prefix.mp ht
    have hline : lineText d.head = keyword ++ (' ' :: t) ++ (u ++ d.tail) := by
      rw [d.line_eq, ← hu, opening_eq]
      simp
    have hfirst : ' ' ∉ keyword := by decide
    rw [hline, find, index?_append hfirst]
    rfl
  have hsymbol := d.name.symbol_str
  rw [symbol, plainStart] at hsymbol
  rw [nameStart]
  show (if isIn (' ' :: "rho_".toList) _ = true then _ else if isIn (' ' :: ".".toList) _ = true
    then _ else if isIn (' ' :: "|".toList) _ = true then _ else _) = _
  rw [hrho, hdot, hbar]
  split_ifs with h1 h2 h3
  · exact hfind _ h1
  · exact hfind _ h2
  · exact hfind _ h3
  · rw [Bool.or_eq_true, Bool.or_eq_true] at hsymbol
    exact absurd hsymbol (not_or.mpr ⟨not_or.mpr ⟨h1, h2⟩, h3⟩)

include hclean in
theorem Decl.slice_end (hname : d.name.str = a ++ b) :
    slice (lineText d.head) ((opening ++ a).length : ℕ)
      (nameEnd (lineText d.head) opening.length) = b := by
  have hblank := d.blank_notMem hclean
  have hdrop : (lineText d.head).drop opening.length = d.name.str ++ d.tail := by
    rw [d.line_eq, append_assoc, drop_left]
  have hend : nameEnd (lineText d.head) opening.length =
      findFrom " ".toList (lineText d.head) opening.length := by
    rw [nameEnd, if_neg (by decide)]
    rfl
  have hlong : ¬(lineText d.head).length < opening.length := by
    rw [d.line_eq, append_assoc, length_append]
    omega
  rw [hend, findFrom, if_neg hlong, hdrop]
  cases hrest : d.rest with
  | nil =>
    have htail : d.tail = ['\n'] := by
      rw [Decl.tail, hrest]
      rfl
    have hnone : index? " ".toList (d.name.str ++ ['\n']) = none := by
      refine index?_eq_none_iff.mpr (not_isIn_of_notMem mem_cons_self ?_)
      rw [mem_append, not_or]
      exact ⟨hblank, by decide⟩
    have hline : lineText d.head = (opening ++ a) ++ b ++ ['\n'] := by
      rw [d.line_eq, htail, hname]
      simp
    rw [htail, hnone, hline, slice, clampIndex_last, take_left,
      clampIndex_natCast (by simp), drop_left]
  | cons w ws =>
    have htail : d.tail = ' ' :: lineText (w :: ws) := by
      rw [Decl.tail, hrest]
    have hsome : index? " ".toList (d.name.str ++ d.tail) = some d.name.str.length := by
      have h := index?_append (t := []) hblank (lineText (w :: ws))
      rwa [append_assoc, singleton_append, ← htail] at h
    have hline : lineText d.head = (opening ++ a) ++ b ++ d.tail := by
      rw [d.line_eq, hname]
      simp
    have hlength : opening.length + d.name.str.length = ((opening ++ a) ++ b).length := by
      rw [hname]
      simp only [length_append]
      omega
    have hmiddle := slice_middle (opening ++ a) b d.tail
    rw [← hlength, ← hline] at hmiddle
    rw [hsome]
    exact hmiddle

include hclean hsort in
theorem Decl.varName_line : varName (lineText d.head) = d.name.str := by
  rw [varName, d.nameStart_line hclean hsort]
  exact d.slice_end hclean (nil_append _).symm

include hsort in
theorem Decl.isIn_name (hne : t ≠ []) (ht : ∀ c ∈ " ()\n".toList, c ∉ t)
    (hword : isIn t declareWord.core = false) (hnot : ∀ x, IsSort x → isIn t x = false) :
    isIn t (lineText d.head) = isIn t d.name.str := by
  have htext := isIn_text hne (ht _ (by decide)) (ht _ (by decide))
  have hrest : d.rest.any (fun u => isIn t u.text) = false := by
    rw [any_eq_false]
    intro u hu
    rw [htext, hnot _ (hsort u hu)]
    exact Bool.false_ne_true
  rw [isIn_lineText hne (ht _ (by decide)) (ht _ (by decide)), Decl.head, any_cons,
    any_cons, hrest, htext, htext, hword, Bool.false_or, Bool.or_false]

include hsort in
theorem Decl.isVersion_line : isVersion (lineText d.head) = isVersion d.name.str := by
  have hdot := Decl.isIn_name hsort (t := "version.version_".toList) (by decide)
    (forall_chars (by decide)) (by decide) fun x h => by
      exact not_isIn_of_notMem (c := '.') (by decide) fun hx => h.chars _ hx (by decide)
  have hstart := Decl.isIn_name hsort (t := "PSAImpl_ingress_start".toList) (by decide)
    (forall_chars (by decide)) (by decide) fun x h => h.marks _ (by simp [marks])
  rw [isVersion, isVersion, hdot, hstart]

include hclean hsort in
theorem Decl.versionKey_line (hname : d.name.text = ".hdrs".toList ++ t) :
    versionKey (lineText d.head) = d.name.key := by
  have hkey : ∀ pre post, d.name.str = pre ++ (d.name.text ++ post) → '.' ∉ opening ++ pre →
      versionKey (lineText d.head) = d.name.text ++ post := by
    intro pre post hstr hdot
    have hline : lineText d.head = (opening ++ pre) ++ ('.' :: "hdrs".toList) ++
        (t ++ post ++ d.tail) := by
      rw [d.line_eq, hstr, hname]
      simp
    have hfind : find ('.' :: "hdrs".toList) (lineText d.head) = (opening ++ pre).length := by
      rw [hline, find, index?_append hdot]
    rw [versionKey, d.nameStart_line hclean hsort]
    show slice _ (find ('.' :: "hdrs".toList) _) _ = _
    rw [hfind, d.slice_end hclean hstr]
  rw [Name.key]
  cases hq : d.name.quoted with
  | false =>
    have hstr : d.name.str = [] ++ (d.name.text ++ []) := by
      rw [Name.str, hq, append_nil]
      rfl
    rw [hkey [] [] hstr (by decide), append_nil]
    rfl
  | true =>
    have hstr : d.name.str = ['|'] ++ (d.name.text ++ ['|']) := by
      rw [Name.str, hq]
      rfl
    exact hkey _ _ hstr (by decide)

end FirstLine

section Lines

variable (f : Formula)

theorem Formula.printed : ∀ c ∈ f.commands, Printed c := by
  intro c hc
  rcases mem_append.mp hc with hc | hc
  · obtain ⟨d, hd, rfl⟩ := mem_map.mp hc
    exact f.wellFormed.decls_printed d hd
  · exact f.wellFormed.asserts_printed c hc

def Formula.declLines : List Str := f.decls.flatMap fun d => commandLines d.command

def Formula.assertLines : List Str := f.asserts.flatMap commandLines

theorem Formula.readLines_text : readLines f.text = f.declLines ++ f.assertLines := by
  rw [Formula.text, readLines_scriptText f.printed, Formula.commands, flatMap_append, flatMap_map]
  rfl

variable {f} {d : Decl}

theorem Formula.head_clean (hd : d ∈ f.decls) : ∀ w ∈ d.head, w.Clean :=
  (f.wellFormed.decls_printed d hd).clean _ mem_cons_self

theorem Formula.rest_sort (hd : d ∈ f.decls) : ∀ w ∈ d.rest, IsSort w.core :=
  f.wellFormed.sorts d hd _ mem_cons_self

theorem Formula.declares_line : isIn "declare-fun".toList (lineText d.head) = true := by
  rw [d.line_eq, append_assoc]
  exact isIn_append_left (by decide) _

theorem Formula.quiet_line (hl : l ∈ f.assertLines) : isIn "declare-fun".toList l = false := by
  obtain ⟨c, hc, hl⟩ := mem_flatMap.mp hl
  obtain ⟨ws, hws, rfl⟩ := mem_map.mp hl
  rw [isIn_lineText (by decide) (by decide) (by decide), any_eq_false]
  intro w hw
  rw [isIn_text (by decide) (by decide) (by decide), f.wellFormed.quiet c hc ws hws w hw]
  exact Bool.false_ne_true

variable {x : Str}

theorem Formula.exists_name (h : x ∈ f.names) : ∃ d ∈ f.decls, d.name.str = x := mem_map.mp h

theorem Formula.symbol_of_mem (h : x ∈ f.names) : symbol x = true := by
  obtain ⟨d, _, rfl⟩ := f.exists_name h
  exact d.name.symbol_str

theorem Formula.sort_not_declared (h : IsSort x) : x ∉ f.names := by
  intro hx
  have hsymbol := symbol_of_isSort h
  rw [f.symbol_of_mem hx] at hsymbol
  cases hsymbol

theorem Formula.declared_word (hd : d ∈ f.decls) (hl : l ∈ d.command) (hw : w ∈ l)
    (h : w.core ∈ f.names) : w.core = d.name.str := by
  have hsort := f.wellFormed.sorts d hd
  rcases mem_cons.mp hl with rfl | hl
  · rcases mem_cons.mp hw with rfl | hw
    · exact absurd (f.symbol_of_mem h) (by decide)
    · rcases mem_cons.mp hw with rfl | hw
      · rfl
      · exact absurd h (f.sort_not_declared (hsort _ mem_cons_self w hw))
  · exact absurd h (f.sort_not_declared (hsort _ (mem_cons_of_mem _ hl) w hw))

theorem frame_symbol : Frame symbol := ⟨by decide, by decide⟩

theorem Formula.name_clean (h : x ∈ f.names) : Solid x := by
  obtain ⟨d, hd, rfl⟩ := f.exists_name h
  exact f.head_clean hd ⟨0, d.name.str, 0⟩ (by simp [Decl.head])

theorem Formula.takeGroups_decls :
    takeGroups (isIn "declare-fun".toList) (readLines f.text).length (readLines f.text) =
      some (f.decls.map fun d => commandLines d.command) := by
  have hquiet : takeGroups (isIn "declare-fun".toList) f.assertLines.length f.assertLines =
      some [] := by
    have h := takeGroups_skip (n := 0) (fun l hl => f.quiet_line hl) []
    rwa [append_nil, Nat.add_zero] at h
  have hprinted : ∀ c ∈ f.decls.map Decl.command, Printed c := fun c hc =>
    f.printed c (mem_append_left _ hc)
  have hstarts : ∀ c ∈ f.decls.map Decl.command, ∀ l ∈ (commandLines c).head?,
      isIn "declare-fun".toList l = true := by
    intro c hc l hl
    obtain ⟨d, hd, rfl⟩ := mem_map.mp hc
    rw [← Option.some.inj hl]
    exact Formula.declares_line
  have h := takeGroups_commands hprinted hstarts hquiet
  rw [flatMap_map, map_map, append_nil, ← length_append] at h
  rw [f.readLines_text]
  exact h

theorem Formula.assert_line (hc : c ∈ f.asserts) : ∃ ws ls, c = (assertWord :: ws) :: ls := by
  have hhead := f.wellFormed.asserts_head c hc
  cases c with
  | nil => cases hhead
  | cons l ls =>
    cases l with
    | nil => exact absurd rfl ((f.wellFormed.asserts_printed _ hc).nonempty [] mem_cons_self)
    | cons w ws =>
      have hw : w = assertWord := by simpa [isAssertion] using hhead
      exact ⟨ws, ls, by rw [hw]⟩

theorem isIn_assert_line (ws : List Word) :
    isIn "(assert".toList (lineText (assertWord :: ws)) = true := by
  have hword : isIn "(assert".toList (assertWord.text) = true := by decide
  rw [isIn_lineText (by decide) (by decide) (by decide), any_cons, hword, Bool.true_or]

theorem isIn_assert_sort {w : Word} (h : IsSort w.core) : isIn "assert".toList w.text = false := by
  rw [isIn_text (by decide) (by decide) (by decide)]
  exact h.marks _ (by simp [marks])

theorem not_isIn_open (h : isIn "assert".toList t = false) : isIn "(assert".toList t = false := by
  rw [Bool.eq_false_iff] at h ⊢
  intro hopen
  have hpart : "assert".toList <:+: "(assert".toList := ⟨['('], [], by decide⟩
  exact h (isIn_iff.mpr (hpart.trans (isIn_iff.mp hopen)))

theorem Formula.decl_line (hl : l ∈ f.declLines) : isIn "(assert".toList l = false := by
  obtain ⟨d, hd, hl⟩ := mem_flatMap.mp hl
  obtain ⟨ws, hws, rfl⟩ := mem_map.mp hl
  have hsort := f.wellFormed.sorts d hd
  rw [isIn_lineText (by decide) (by decide) (by decide), any_eq_false]
  intro w hw
  rw [Bool.not_eq_true]
  rcases mem_cons.mp hws with rfl | hws
  · rcases mem_cons.mp hw with rfl | hw
    · decide
    · rcases mem_cons.mp hw with rfl | hw
      · have hname : (⟨0, d.name.str, 0⟩ : Word).Clean :=
          f.head_clean hd _ (mem_cons_of_mem _ mem_cons_self)
        refine not_isIn_of_notMem (c := '(') (by decide) fun hmem => hname '(' ?_ (by decide)
        simpa [Word.text] using hmem
      · exact not_isIn_open (isIn_assert_sort (hsort _ mem_cons_self w hw))
  · exact not_isIn_open (isIn_assert_sort (hsort _ (mem_cons_of_mem _ hws) w hw))

theorem Formula.dropWhile_lines :
    (readLines f.text).dropWhile (fun l => !isIn "(assert".toList l) = f.assertLines := by
  have hdecls : ∀ l ∈ f.declLines, (!isIn "(assert".toList l) = true := by
    intro l hl
    rw [f.decl_line hl]
    rfl
  rw [f.readLines_text, dropWhile_append_of_pos hdecls]
  cases hasserts : f.asserts with
  | nil => simp [Formula.assertLines, hasserts]
  | cons c cs =>
    obtain ⟨ws, ls, hc⟩ := f.assert_line (hasserts ▸ mem_cons_self)
    have hopen := isIn_assert_line ws
    rw [Formula.assertLines, hasserts, flatMap_cons, hc, commandLines, map_cons,
      cons_append, dropWhile_cons_of_neg (by rw [hopen]; decide)]

theorem Formula.takeGroups_asserts :
    takeGroups (fun _ => true) f.assertLines.length f.assertLines =
      some (f.asserts.map commandLines) := by
  have hend : takeGroups (fun _ => true) 0 [] = some [] := rfl
  have h := takeGroups_commands f.wellFormed.asserts_printed (fun _ _ _ _ => rfl) hend
  rwa [append_nil, append_nil, Nat.add_zero] at h

end Lines

section Renaming

/-- Symbols become other symbols, the other words stay. -/
structure Renaming (g : Str → Str) : Prop where
  keeps : ∀ x, symbol x = false → g x = x
  symbols : ∀ x, symbol (g x) = symbol x
  clean : ∀ x, (∀ c ∈ x, c ∉ " ()\n".toList) → ∀ c ∈ g x, c ∉ " ()\n".toList

variable {g : Str → Str} {c : Command}

section

variable (h : Renaming g)

include h

theorem Renaming.printed (hc : Printed c) : Printed (Command.rename g c) :=
  hc.rename fun l hl w hw => h.clean _ (hc.clean l hl w hw)

theorem Renaming.declareWord : declareWord.rename g = declareWord := by
  rw [Word.rename, h.keeps _ (by decide)]

theorem Renaming.declaredName (d : Decl) :
    declaredName (Command.rename g d.command) = some (g d.name.str) := by
  rw [SmtText.declaredName, flatten_rename]
  simp [Decl.command, Decl.head, h.declareWord]
  rfl

theorem Renaming.isAssertion_decl (d : Decl) :
    isAssertion (Command.rename g d.command) = false := by
  have hne : SmtText.declareWord ≠ assertWord := by decide
  refine decide_eq_false ?_
  rw [flatten_rename]
  simp [Decl.command, Decl.head, h.declareWord, hne]

theorem Renaming.isAssertion (hc : isAssertion c = true) :
    isAssertion (Command.rename g c) = true :=
  isAssertion_rename (fun x hx => h.keeps x hx) frame_symbol hc

end

theorem declaredName_command (d : Decl) : declaredName d.command = some d.name.str := by
  simp [declaredName, Decl.command, Decl.head]

theorem isAssertion_decl (d : Decl) : isAssertion d.command = false := by
  have hne : declareWord ≠ assertWord := by decide
  simp [isAssertion, Decl.command, Decl.head, hne]

theorem filterMap_decls (ds : List Decl) (g : Decl → Command) (f : Str → Str)
    (h : ∀ d, declaredName (g d) = some (f d.name.str)) :
    declared (ds.map g) = (ds.map fun d => d.name.str).map f := by
  rw [declared, filterMap_map, map_map]
  induction ds with
  | nil => rfl
  | cons d ds ih =>
    rw [filterMap_cons, Function.comp_apply, h, ih]
    rfl

variable {f : Formula}

theorem Formula.declared_commands : declared f.commands = f.names := by
  rw [Formula.commands, declared_append, declared_assertions f.wellFormed.asserts_head,
    filterMap_decls _ _ id declaredName_command, map_id, append_nil]
  rfl

theorem Renaming.declaredName_command (h : Renaming g) (hc : c ∈ f.commands) :
    SmtText.declaredName (Command.rename g c) = (SmtText.declaredName c).map g := by
  rcases mem_append.mp hc with hc | hc
  · obtain ⟨d, _, rfl⟩ := mem_map.mp hc
    rw [h.declaredName, PrintedFormula.declaredName_command, Option.map_some]
  · have hassert := f.wellFormed.asserts_head c hc
    rw [declaredName_of_isAssertion hassert, declaredName_of_isAssertion (h.isAssertion hassert)]
    rfl

theorem Renaming.isAssertion_command (h : Renaming g) (hc : c ∈ f.commands) :
    SmtText.isAssertion (Command.rename g c) = SmtText.isAssertion c := by
  rcases mem_append.mp hc with hc | hc
  · obtain ⟨d, _, rfl⟩ := mem_map.mp hc
    rw [h.isAssertion_decl, PrintedFormula.isAssertion_decl]
  · have hassert := f.wellFormed.asserts_head c hc
    rw [hassert, h.isAssertion hassert]

theorem renaming_suffixed {p : Str → Bool} (hp : ∀ x, p x = true → x ∈ f.names)
    (hs : Solid s) : Renaming fun x => if p x then suffixed s x else x where
  keeps := by
    intro x hx
    refine if_neg fun hpx => ?_
    rw [f.symbol_of_mem (hp x hpx)] at hx
    cases hx
  symbols := by
    intro x
    split_ifs with hpx
    · obtain ⟨d, _, rfl⟩ := f.exists_name (hp x hpx)
      rw [suffixed_str, d.name.symbol_str]
      exact symbol_quote fun hq => plainStart_append (d.name.plain hq) _
    · rfl
  clean := by
    intro x hx
    split_ifs with hpx
    · obtain ⟨d, _, rfl⟩ := f.exists_name (hp x hpx)
      exact suffixed_clean hx hs
    · exact hx

variable {V : Type}

theorem Formula.satisfies_commands :
    Satisfies symbol S v f.commands ↔ ∀ c ∈ f.asserts, holdsAt symbol S v c := by
  constructor
  · intro h c hc
    exact h c (mem_append_right _ hc) (f.wellFormed.asserts_head c hc)
  · intro h c hc hassert
    rcases mem_append.mp hc with hc | hc
    · obtain ⟨d, _, rfl⟩ := mem_map.mp hc
      rw [isAssertion_decl] at hassert
      cases hassert
    · exact h c hc

theorem Formula.satisfies_congr (h : ∀ x ∈ f.names, v x = w x) :
    Satisfies symbol S v f.commands ↔ Satisfies symbol S w f.commands := by
  rw [f.satisfies_commands, f.satisfies_commands]
  refine forall_congr' fun c => forall_congr' fun hc => holdsAt_congr fun x hx => ?_
  exact h x (f.wellFormed.covered c hc x hx)

end Renaming

end PrintedFormula
