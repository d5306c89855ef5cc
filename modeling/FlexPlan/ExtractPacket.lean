import FlexPlan.SolverOutput
import Mathlib.Data.List.Sort
import Mathlib.Order.MinMax

/-!
# Packet variables of the synthesis and the verification formula

`extract_packet` pairs the versions of the packet fields that the two formulas declare by their
rank. `extract_simple` takes from a model the value of the last version of each field, and stores
it under the name that the mapping gives.
-/
namespace ExtractPacket

open PythonText SynthesizerUtils SolverOutput List

section Source

inductive Kind where
  | metadata
  | parser
  deriving DecidableEq

abbrev Key := Str × Kind

def metadataMark : Str := "metas__parse_and_run".toList

def isDeclaration (line : Str) : Bool :=
  (isIn ".hdr_ParserImpl_".toList line || isIn metadataMark line) &&
    !isIn "version.version".toList line &&
    (isIn "___0".toList line || !isIn "___".toList line) && isIn "declare".toList line

/-- The local variables of `process_output`. -/
structure Scan where
  vardict : Dict Key (List ℤ) := []
  prefixMeta : Str := []
  prefixParse : Str := []

def Scan.front (s : Scan) : Kind → Str
  | .metadata => s.prefixMeta
  | .parser => s.prefixParse

def nameEnd (line : Str) : Option ℤ :=
  if isIn "___0".toList line then some (find "___0".toList line)
  else if isIn "elements".toList line then findNth line "|".toList (-1)
  else some (find " ()".toList line)

def Scan.record (s : Scan) (front field : Str) (label : ℤ) : Kind → Scan
  | .metadata => { s with
      prefixMeta := front, vardict := s.vardict.push (field, .metadata) label }
  | .parser => { s with
      prefixParse := front, vardict := s.vardict.push (field, .parser) label }

def kindOf (line : Str) : Kind := if isIn metadataMark line then .metadata else .parser

def Scan.declaration (s : Scan) (line : Str) : Option Scan := do
  let e ← nameEnd line
  let name := slice line (find ".".toList line) e
  let dot ← findNth name ".".toList 2
  let cut ← findNth name "_".toList (-1)
  let label ← int? (sliceFrom name (cut + 1))
  some (s.record (slice name 0 dot) (slice name (dot + 1) cut) label (kindOf line))

def processLine (s : Scan) (line : Str) : Option Scan :=
  if isDeclaration line then s.declaration line else some s

def processOutput (text : Str) : Option Scan := (readLines text).foldlM processLine {}

def variableName (front field : Str) (version : ℤ) : Str :=
  front ++ ".".toList ++ field ++ "_".toList ++ ofInt version

def sorted (labels : List ℤ) : List ℤ := labels.insertionSort (· ≤ ·)

/-- The assignments to `mapping` for one field. -/
def fieldLinks (s₁ s₂ : Scan) (e : Key × List ℤ) : List (Str × Str) :=
  match s₂.vardict.get? e.1 with
  | none => []
  | some labels => ((sorted e.2).zip (sorted labels)).map fun p =>
      (variableName (s₂.front e.1.2) e.1.1 p.2, variableName (s₁.front e.1.2) e.1.1 p.1)

/-- The dictionary stored in `mapping.pickle`; `none` stands for a raised error. -/
def extractPacket (solve verify : Str) : Option (Dict Str Str) := do
  let s₁ ← processOutput solve
  let s₂ ← processOutput verify
  some ((s₁.vardict.flatMap (fieldLinks s₁ s₂)).foldl (fun m e => m.set e.1 e.2) [])

end Source

section Domain

/-- A declared version of a packet field. -/
structure Declaration where
  field : Str
  kind : Kind
  version : ℕ
  marked : Bool
  quoted : Bool
  ending : Str

/-- What the names of the two kinds of variables begin with. -/
structure Fronts where
  metadata : Str
  parser : Str
  shape : ∀ s ∈ [metadata, parser], ∃ t, s = '.' :: t ∧ '.' ∉ t
  distinct : metadata ≠ parser

def Fronts.get (f : Fronts) : Kind → Str
  | .metadata => f.metadata
  | .parser => f.parser

namespace Declaration

variable (f : Fronts) (d : Declaration)

def key : Key := (d.field, d.kind)

def name : Str := variableName (f.get d.kind) d.field d.version

def bar : Str := if d.quoted then "|".toList else []

def mark : Str := if d.marked then "___0".toList else []

def lead : Str := "(declare-fun ".toList ++ d.bar

def rest : Str := d.mark ++ d.bar ++ d.ending

def line : Str := d.lead ++ d.name f ++ d.rest

/-- How declarations are printed: on one line or broken behind the name; names with brackets
are quoted; the synthesis formula marks the variables of its first copy. -/
structure Printed : Prop where
  clean : ∀ c ∈ d.name f, c ∉ " ()|\n".toList
  unmarked : isIn "___".toList (d.name f) = false
  marks : isIn "___".toList (d.line f) = d.marked
  packet : isIn ".hdr_ParserImpl_".toList (d.line f) = true ∨ d.kind = .metadata
  kind : isIn metadataMark (d.line f) = decide (d.kind = .metadata)
  field : isIn "version.version".toList (d.line f) = false
  quotes : d.marked = false → d.quoted = isIn "elements".toList (d.line f)
  ending_line : IsLine d.ending
  ending_clean : ∀ c ∈ d.ending, c ∉ "|".toList
  ending_shape : d.ending = "\n".toList ∨ ∃ t, d.ending = " ()".toList ++ t

end Declaration

inductive Item where
  | declaration (d : Declaration)
  | other (line : Str)

def Item.declaration? : Item → Option Declaration
  | .declaration d => some d
  | .other _ => none

def Item.line (f : Fronts) : Item → Str
  | .declaration d => d.line f
  | .other l => l

/-- A formula with its packet variables and whatever else it contains. -/
structure Formula where
  fronts : Fronts
  items : List Item
  printed : ∀ d, .declaration d ∈ items → d.Printed fronts
  others : ∀ l, .other l ∈ items → IsLine l ∧ isDeclaration l = false
  once : ((items.filterMap Item.declaration?).map fun d => (d.key, d.version)).Nodup

namespace Formula

variable (F : Formula)

def text : Str := (F.items.map (Item.line F.fronts)).flatten

def decls : List Declaration := F.items.filterMap Item.declaration?

def versions (key : Key) : List ℤ :=
  (F.decls.filter fun d => d.key = key).map fun d => (d.version : ℤ)

def Declares (key : Key) : Prop := F.versions key ≠ []

/-- The last version of a field, the one that `extract_simple` looks for. -/
def last (key : Key) : Str := variableName (F.fronts.get key.2) key.1 (lastLabel (F.versions key))

end Formula

/-- A model of the verification formula is handed over to the synthesis formula. -/
structure Transfers (F G : Formula) (mapping : Dict Str Str) : Prop where
  last : ∀ key, F.Declares key → G.Declares key → mapping.get? (G.last key) = some (F.last key)
  injective : ∀ x x' y, mapping.get? x = some y → mapping.get? x' = some y → x = x'

end Domain

section Names

theorem Fronts.eq_cons (f : Fronts) (k : Kind) : ∃ t, f.get k = '.' :: t ∧ '.' ∉ t := by
  cases k with
  | metadata | parser => exact f.shape _ (by simp [Fronts.get])

theorem Fronts.get_injective (f : Fronts) : Function.Injective f.get := by
  intro k k' h
  cases k <;> cases k'
  · rfl
  · exact absurd h f.distinct
  · exact absurd h.symm f.distinct
  · rfl

theorem variableName_natCast (front field : Str) (v : ℕ) :
    variableName front field v = front ++ '.' :: (field ++ '_' :: ofNat v) := by
  rw [variableName, ofInt_natCast]
  simp

theorem variableName_inj {f : Fronts} {k k' : Key} {v v' : ℕ}
    (h : variableName (f.get k.2) k.1 v = variableName (f.get k'.2) k'.1 v') : k = k' ∧ v = v' := by
  obtain ⟨t, ht, hdot⟩ := f.eq_cons k.2
  obtain ⟨t', ht', hdot'⟩ := f.eq_cons k'.2
  rw [variableName_natCast, variableName_natCast, ht, ht', cons_append, cons_append,
    List.cons.injEq] at h
  obtain ⟨hfront, hrest⟩ := cons_append_inj hdot hdot' h.2
  obtain ⟨hfield, hversion⟩ :=
    append_cons_inj (notMem_ofNat (by decide) v) (notMem_ofNat (by decide) v') hrest
  have hkind : k.2 = k'.2 := f.get_injective (by rw [ht, ht', hfront])
  exact ⟨Prod.ext hfield hkind, ofNat_injective hversion⟩

end Names

section Reading

theorem not_isIn_mark (h : isIn "___".toList a = false) :
    isIn "___0".toList (a ++ "___".toList) = false := by
  rw [Bool.eq_false_iff] at h ⊢
  intro hin
  rcases infix_append_iff_ne_nil.mp (isIn_iff.mp hin) with ha | hb | ⟨l, m, _, hm, heq, _, hp⟩
  · exact h (isIn_iff.mpr (List.IsInfix.trans ⟨[], ['0'], rfl⟩ ha))
  · exact absurd (isIn_iff.mpr hb) (by decide)
  · have hlast : m.getLast? = some '0' := by
      have hwhole : (l ++ m).getLast? = some '0' := by rw [← heq]; rfl
      rwa [getLast?_append_of_ne_nil l hm] at hwhole
    exact absurd (hp.subset (mem_of_getLast? hlast)) (by decide)

namespace Declaration

variable {f : Fronts} {d : Declaration}

theorem name_eq (f : Fronts) (d : Declaration) :
    d.name f = f.get d.kind ++ '.' :: (d.field ++ '_' :: ofNat d.version) :=
  variableName_natCast _ _ _

theorem notMem_lead (d : Declaration) (hc : c ∉ "(declare-fun ".toList)
    (hbar : c ∉ "|".toList) : c ∉ d.lead := by
  unfold lead bar
  intro hmem
  rcases mem_append.mp hmem with hmem | hmem
  · exact hc hmem
  · split at hmem
    · exact hbar hmem
    · cases hmem

theorem find_dot (f : Fronts) (d : Declaration) : find ".".toList (d.line f) = d.lead.length := by
  obtain ⟨t, ht, -⟩ := f.eq_cons d.kind
  have hline : d.line f = d.lead ++ ['.'] ++
      (t ++ '.' :: (d.field ++ '_' :: ofNat d.version) ++ d.rest) := by
    rw [line, name_eq, ht]
    simp
  have hindex := index?_append (t := []) (d.notMem_lead (c := '.') (by decide) (by decide))
    (t ++ '.' :: (d.field ++ '_' :: ofNat d.version) ++ d.rest)
  rw [find, hline, show ".".toList = ['.'] from rfl, hindex]

namespace Printed

variable (h : d.Printed f)
include h

theorem unmarked_front : isIn "___".toList (d.lead ++ d.name f) = false := by
  have hname := h.unmarked
  have hlead : isIn "___".toList d.lead.dropLast = false ∧
      ∃ c ∉ "___".toList, d.lead = d.lead.dropLast ++ [c] := by
    unfold lead bar
    cases d.quoted
    · exact ⟨by decide, ' ', by decide, by decide⟩
    · exact ⟨by decide, '|', by decide, by decide⟩
  obtain ⟨hfront, c, hc, heq⟩ := hlead
  have hsplit : isIn "___".toList (d.lead.dropLast ++ c :: d.name f) =
      (isIn "___".toList d.lead.dropLast || isIn "___".toList (d.name f)) :=
    isIn_append_cons hc (by decide)
  rw [heq, append_assoc, singleton_append, hsplit, hfront, hname]
  rfl

theorem isIn_mark : isIn "___0".toList (d.line f) = d.marked := by
  cases hmarked : d.marked with
  | true =>
    refine isIn_iff.mpr ⟨d.lead ++ d.name f, d.bar ++ d.ending, ?_⟩
    rw [line, rest, mark, if_pos hmarked]
    simp
  | false =>
    have hmarks := h.marks
    rw [hmarked, Bool.eq_false_iff] at hmarks
    rw [Bool.eq_false_iff]
    exact fun hin => hmarks (isIn_iff.mpr (List.IsInfix.trans ⟨[], ['0'], rfl⟩ (isIn_iff.mp hin)))

theorem closing_notMem : ')' ∉ d.lead ++ d.name f ++ " (".toList := by
  rw [mem_append, mem_append, not_or, not_or]
  exact ⟨⟨d.notMem_lead (by decide) (by decide), fun hmem => h.clean _ hmem (by decide)⟩, by decide⟩

theorem read_name : ∃ e, nameEnd (d.line f) = some e ∧
    slice (d.line f) (find ".".toList (d.line f)) e = d.name f := by
  have hmiddle : slice (d.line f) (find ".".toList (d.line f)) (d.lead ++ d.name f).length =
      d.name f := by
    rw [find_dot, line]
    exact slice_middle _ _ _
  unfold nameEnd
  rw [h.isIn_mark]
  by_cases hmarked : d.marked = true
  · have hline : d.line f = d.lead ++ d.name f ++ "___0".toList ++ (d.bar ++ d.ending) := by
      rw [line, rest, mark, if_pos hmarked]
      simp
    have hfind : find "___0".toList (d.line f) = (d.lead ++ d.name f).length := by
      rw [hline, find, index?_first (not_isIn_mark h.unmarked_front)]
    rw [if_pos hmarked, hfind]
    exact ⟨_, rfl, hmiddle⟩
  · have hquotes := h.quotes (Bool.eq_false_iff.mpr hmarked)
    rw [if_neg hmarked, ← hquotes]
    have hrest : d.rest = d.bar ++ d.ending := by
      rw [rest, mark, if_neg hmarked]
      rfl
    by_cases hquoted : d.quoted = true
    · have hline : d.line f = d.lead ++ d.name f ++ '|' :: d.ending := by
        rw [line, hrest, bar, if_pos hquoted]
        rfl
      have hend : '|' ∉ d.ending := fun hmem => h.ending_clean _ hmem (by decide)
      refine ⟨(d.lead ++ d.name f).length, ?_, hmiddle⟩
      rw [if_pos hquoted, hline]
      exact findNth_last hend
    · rw [if_neg hquoted]
      have hline : d.line f = d.lead ++ d.name f ++ d.ending := by
        rw [line, hrest, bar, if_neg hquoted]
        rfl
      rcases h.ending_shape with hbreak | ⟨t, ht⟩
      · -- the name stands alone on its line, whose end is cut off
        have hnone : find " ()".toList (d.line f) = -1 := by
          have hnotMem : ')' ∉ d.line f := by
            rw [hline, hbreak, mem_append, not_or]
            exact ⟨fun hmem => h.closing_notMem (mem_append_left _ hmem), by decide⟩
          rw [find, index?_eq_none_iff.mpr (not_isIn_of_notMem (c := ')') (by decide) hnotMem)]
        refine ⟨_, rfl, ?_⟩
        rw [hnone, find_dot, hline, hbreak, slice, clampIndex_natCast (by simp),
          show "\n".toList = ['\n'] from rfl, clampIndex_last, take_left, drop_left]
      · have hfind : find " ()".toList (d.line f) = (d.lead ++ d.name f).length := by
          rw [hline, ht, ← append_assoc, find, index?_first]
          exact not_isIn_of_notMem (c := ')') (by decide) h.closing_notMem
        rw [hfind]
        exact ⟨_, rfl, hmiddle⟩

theorem isDeclaration_line : isDeclaration (d.line f) = true := by
  have hdeclare : isIn "declare".toList (d.line f) = true := by
    have hlead : isIn "declare".toList d.lead = true := by
      unfold lead
      exact isIn_append_left (by decide) _
    exact isIn_append_left (isIn_append_left hlead _) _
  have hpacket : (isIn ".hdr_ParserImpl_".toList (d.line f) || isIn metadataMark (d.line f)) =
      true := by
    rcases h.packet with hparser | hkind
    · rw [hparser, Bool.true_or]
    · rw [h.kind, hkind, decide_eq_true rfl, Bool.or_true]
  rw [isDeclaration, hpacket, h.field, h.isIn_mark, h.marks, hdeclare]
  cases d.marked <;> rfl

theorem read_declaration (s : Scan) :
    s.declaration (d.line f) = some (s.record (f.get d.kind) d.field d.version d.kind) := by
  obtain ⟨e, he, hname⟩ := h.read_name
  obtain ⟨t, ht, hdot⟩ := f.eq_cons d.kind
  have hsecond : findNth (d.name f) ".".toList 2 = some ((f.get d.kind).length : ℤ) := by
    have h := findNth_two (r := d.field ++ '_' :: ofNat d.version) not_mem_nil hdot
    rw [name_eq, ht, length_cons]
    simpa [Int.add_comm] using h
  have htext : d.name f = (f.get d.kind ++ '.' :: d.field) ++ '_' :: ofNat d.version := by
    rw [name_eq]
    simp
  have hcut : findNth (d.name f) "_".toList (-1) =
      some ((f.get d.kind ++ '.' :: d.field).length : ℤ) := by
    rw [htext]
    exact findNth_last (notMem_ofNat (by decide) _)
  have hlabel : sliceFrom (d.name f) ((f.get d.kind ++ '.' :: d.field).length + 1) =
      ofNat d.version := by
    have hright := sliceFrom_right (f.get d.kind ++ '.' :: d.field ++ ['_']) (ofNat d.version)
    rw [htext]
    simpa [Int.add_assoc] using hright
  have hfront : slice (d.name f) 0 (f.get d.kind).length = f.get d.kind := by
    rw [name_eq]
    exact slice_left _ _
  have hfield : slice (d.name f) ((f.get d.kind).length + 1)
      (f.get d.kind ++ '.' :: d.field).length = d.field := by
    have hmiddle := slice_middle (f.get d.kind ++ ['.']) d.field ('_' :: ofNat d.version)
    rw [htext]
    simpa using hmiddle
  have hkind : kindOf (d.line f) = d.kind := by
    rw [kindOf, h.kind]
    cases d.kind <;> rfl
  unfold Scan.declaration
  simp only [he, Option.bind_eq_bind, Option.bind_some, hname, hsecond, hcut, hlabel, int?_ofNat,
    hfront, hfield, hkind]

theorem isLine : IsLine (d.line f) := by
  have hfront : '\n' ∉ d.lead ++ d.name f ++ (d.mark ++ d.bar) := by
    have hmark : '\n' ∉ d.mark := by
      unfold mark
      cases d.marked <;> decide
    have hbar : '\n' ∉ d.bar := by
      unfold bar
      cases d.quoted <;> decide
    simp only [mem_append, not_or]
    exact ⟨⟨d.notMem_lead (by decide) (by decide), fun hmem => h.clean _ hmem (by decide)⟩,
      hmark, hbar⟩
  have hline : d.line f = d.lead ++ d.name f ++ (d.mark ++ d.bar) ++ d.ending := by
    rw [line, rest]
    simp only [append_assoc]
  rw [hline]
  exact h.ending_line.append hfront

end Printed

end Declaration

end Reading

section Scanning

variable (F : Formula)

theorem Scan.record_vardict (s : Scan) (front field : Str) (label : ℤ) (k : Kind) :
    (s.record front field label k).vardict = s.vardict.push (field, k) label := by
  cases k <;> rfl

theorem Scan.record_front (s : Scan) (front field : Str) (label : ℤ) (k k' : Kind) :
    (s.record front field label k).front k' = if k' = k then front else s.front k' := by
  cases k <;> cases k' <;> rfl

namespace Formula

def scan (decls : List Declaration) (s : Scan) : Scan :=
  decls.foldl (fun s d => s.record (F.fronts.get d.kind) d.field d.version d.kind) s

theorem isLine_items : ∀ l ∈ F.items.map (Item.line F.fronts), IsLine l := by
  intro l hl
  obtain ⟨item, hitem, rfl⟩ := mem_map.mp hl
  cases item with
  | declaration d => exact (F.printed d hitem).isLine
  | other l => exact (F.others l hitem).1

theorem processOutput_text : processOutput F.text = some (F.scan F.decls {}) := by
  have hgo : ∀ items, items ⊆ F.items →
      ∀ s : Scan, (items.map (Item.line F.fronts)).foldlM processLine s =
      some (F.scan (items.filterMap Item.declaration?) s) := by
    intro items
    induction items with
    | nil => intro _ s; rfl
    | cons item items ih =>
      intro hsub s
      obtain ⟨hitem, hitems⟩ := cons_subset.mp hsub
      rw [map_cons, foldlM_cons]
      cases item with
      | declaration d =>
        have hprinted := F.printed d hitem
        rw [Item.line, processLine, if_pos hprinted.isDeclaration_line, hprinted.read_declaration]
        exact ih hitems _
      | other l =>
        rw [Item.line, processLine, (F.others l hitem).2, if_neg Bool.false_ne_true]
        exact ih hitems s
  rw [processOutput, text, readLines_flatten F.isLine_items]
  exact hgo F.items (List.Subset.refl _) {}

theorem scan_vardict : (F.scan F.decls {}).vardict =
    (F.decls.map fun d => (d.key, (d.version : ℤ))).foldl (fun m e => Dict.push m e.1 e.2) [] := by
  rw [foldl_map]
  exact (foldl_hom Scan.vardict fun s d => (s.record_vardict _ _ _ _).symm).symm

theorem scan_front (hd : d ∈ F.decls) : (F.scan F.decls {}).front d.kind = F.fronts.get d.kind := by
  obtain ⟨before, after, hsplit⟩ := append_of_mem hd
  rw [scan, hsplit, foldl_append, foldl_cons]
  refine foldlRecOn (motive := fun s : Scan => s.front d.kind = F.fronts.get d.kind) after _ ?_ ?_
  · rw [Scan.record_front, if_pos rfl]
  · intro s hs x _
    rw [Scan.record_front]
    split
    · rename_i hkind
      rw [hkind]
    · exact hs

theorem mem_vardict {key : Key} :
    (key, labels) ∈ (F.scan F.decls {}).vardict ↔ labels ≠ [] ∧ labels = F.versions key := by
  rw [scan_vardict, Dict.mem_foldl_push]
  have hfilter : ((F.decls.map fun d => (d.key, (d.version : ℤ))).filter fun e => e.1 = key).map
      Prod.snd = F.versions key := by
    rw [filter_map, map_map]
    rfl
  rw [hfilter]

theorem get?_vardict {key : Key} :
    (F.scan F.decls {}).vardict.get? key = some labels ↔ labels ≠ [] ∧ labels = F.versions key := by
  have hnodup : ((F.scan F.decls {}).vardict.map Prod.fst).Nodup := by
    rw [scan_vardict]
    exact Dict.nodup_keys_foldl_push _ nodup_nil
  rw [Dict.get?_eq_some_iff hnodup, mem_vardict]

theorem front_of_declares {key : Key} (h : F.Declares key) :
    (F.scan F.decls {}).front key.2 = F.fronts.get key.2 := by
  obtain ⟨v, hv⟩ := exists_mem_of_ne_nil _ h
  obtain ⟨d, hd, -⟩ := mem_map.mp hv
  obtain ⟨hmem, hkey⟩ := mem_filter.mp hd
  obtain rfl : d.key = key := by simpa using hkey
  exact F.scan_front hmem

theorem nodup_versions (key : Key) : (F.versions key).Nodup := by
  have hsublist : ((F.decls.filter fun d => d.key = key).map fun d => (d.key, d.version)).Nodup :=
    F.once.sublist (filter_sublist.map _)
  have hkey : ((F.decls.filter fun d => d.key = key).map fun d => (d.key, d.version)) =
      ((F.decls.filter fun d => d.key = key).map fun d => d.version).map fun v => (key, v) := by
    rw [map_map]
    refine map_congr_left fun d hd => ?_
    have hd := (mem_filter.mp hd).2
    simp [show d.key = key by simpa using hd]
  rw [hkey] at hsublist
  have hcast : Function.Injective fun v : ℕ => (v : ℤ) := fun a b hab => Int.ofNat.inj hab
  have hversions := (hsublist.of_map _).map hcast
  rw [map_map] at hversions
  exact hversions

end Formula

end Scanning

section Pairing

theorem perm_sorted (labels : List ℤ) : (sorted labels).Perm labels := perm_insertionSort _ _

theorem getElem_sorted_eq_iff (hnodup : labels.Nodup) (hm : m ∈ labels) (hmax : ∀ x ∈ labels, x ≤ m)
    (hi : i < (sorted labels).length) : (sorted labels)[i] = m ↔ i + 1 = labels.length := by
  have hperm := perm_sorted labels
  have hsorted : (sorted labels).Pairwise (· ≤ ·) := pairwise_insertionSort _ _
  have hdistinct : (sorted labels).Nodup := hperm.nodup_iff.mpr hnodup
  obtain ⟨j, hj, hjm⟩ := mem_iff_getElem.mp (hperm.mem_iff.mpr hm)
  -- the largest element cannot be followed by another one
  have hlast : j + 1 = labels.length := by
    rw [← hperm.length_eq]
    by_contra hne
    have hnext : j + 1 < (sorted labels).length := by omega
    have hle := pairwise_iff_getElem.mp hsorted j (j + 1) hj hnext (Nat.lt_succ_self j)
    have hge := hmax _ (hperm.mem_iff.mp (getElem_mem hnext))
    have heq : (sorted labels)[j] = (sorted labels)[j + 1] := le_antisymm hle (hjm ▸ hge)
    have := (hdistinct.getElem_inj_iff).mp heq
    omega
  rw [← hjm, hdistinct.getElem_inj_iff]
  omega

theorem lastLabel_mem (h : labels ≠ []) :
    lastLabel labels ∈ labels ∧ ∀ x ∈ labels, x ≤ lastLabel labels := by
  obtain ⟨a, labels, rfl⟩ := exists_cons_of_ne_nil h
  apply max?_eq_some_iff.mp
  rw [max?_cons', lastLabel, headD_cons, foldl_cons, max_self]

variable {l m : List ℤ}

theorem last_mem_zip_iff (hl : l ≠ []) (hm : m ≠ []) (hnodup : l.Nodup) (hnodup' : m.Nodup) :
    (lastLabel l, lastLabel m) ∈ (sorted l).zip (sorted m) ↔ l.length = m.length := by
  obtain ⟨hmem, hmax⟩ := lastLabel_mem hl
  obtain ⟨hmem', hmax'⟩ := lastLabel_mem hm
  have hlength := (perm_sorted l).length_eq
  have hlength' := (perm_sorted m).length_eq
  constructor
  · intro h
    obtain ⟨i, hi, heq⟩ := mem_iff_getElem.mp h
    rw [length_zip] at hi
    rw [getElem_zip, Prod.mk.injEq] at heq
    have hfirst := (getElem_sorted_eq_iff hnodup hmem hmax (by omega)).mp heq.1
    have hsecond := (getElem_sorted_eq_iff hnodup' hmem' hmax' (by omega)).mp heq.2
    omega
  · intro h
    have hpos : 0 < l.length := length_pos_of_ne_nil hl
    have hi : l.length - 1 < ((sorted l).zip (sorted m)).length := by
      rw [length_zip]
      omega
    refine mem_iff_getElem.mpr ⟨l.length - 1, hi, ?_⟩
    rw [getElem_zip, Prod.mk.injEq]
    exact ⟨(getElem_sorted_eq_iff hnodup hmem hmax _).mpr (by omega),
      (getElem_sorted_eq_iff hnodup' hmem' hmax' _).mpr (by omega)⟩

theorem zip_unique (hp : p ∈ l.zip m) (hq : q ∈ l.zip m)
    (h : l.Nodup ∧ p.1 = q.1 ∨ m.Nodup ∧ p.2 = q.2) : p = q := by
  obtain ⟨i, hi, rfl⟩ := mem_iff_getElem.mp hp
  obtain ⟨j, hj, rfl⟩ := mem_iff_getElem.mp hq
  simp only [getElem_zip] at h ⊢
  obtain rfl : i = j :=
    h.elim (fun h => h.1.getElem_inj_iff.mp h.2) fun h => h.1.getElem_inj_iff.mp h.2
  rfl

end Pairing

section Mapping

variable (F G : Formula)

def links : List (Str × Str) :=
  (F.scan F.decls {}).vardict.flatMap (fieldLinks (F.scan F.decls {}) (G.scan G.decls {}))

theorem extractPacket_text : extractPacket F.text G.text =
    some ((links F G).foldl (fun m e => Dict.set m e.1 e.2) []) := by
  unfold extractPacket
  rw [F.processOutput_text, G.processOutput_text]
  rfl

variable {F G}

/-- A variable of the verification formula is linked to the variable of the same field that
has the same rank in the synthesis formula. -/
theorem mem_links : (x, y) ∈ links F G ↔ ∃ key, F.Declares key ∧ G.Declares key ∧
    ∃ v w, (v, w) ∈ (sorted (F.versions key)).zip (sorted (G.versions key)) ∧
      x = variableName (G.fronts.get key.2) key.1 w ∧
      y = variableName (F.fronts.get key.2) key.1 v := by
  unfold links
  rw [mem_flatMap]
  constructor
  · rintro ⟨⟨key, labels⟩, hmem, hlink⟩
    obtain ⟨hne, rfl⟩ := F.mem_vardict.mp hmem
    unfold fieldLinks at hlink
    cases hget : (G.scan G.decls {}).vardict.get? key with
    | none => simp [hget] at hlink
    | some labels =>
      obtain ⟨hne', rfl⟩ := G.get?_vardict.mp hget
      simp only [hget, mem_map, Prod.mk.injEq, F.front_of_declares hne,
        G.front_of_declares hne'] at hlink
      obtain ⟨⟨v, w⟩, hvw, rfl, rfl⟩ := hlink
      exact ⟨key, hne, hne', v, w, hvw, rfl, rfl⟩
  · rintro ⟨key, hne, hne', v, w, hvw, rfl, rfl⟩
    refine ⟨(key, F.versions key), F.mem_vardict.mpr ⟨hne, rfl⟩, ?_⟩
    have hget : (G.scan G.decls {}).vardict.get? key = some (G.versions key) :=
      G.get?_vardict.mpr ⟨hne', rfl⟩
    unfold fieldLinks
    simp only [hget, mem_map, Prod.mk.injEq, F.front_of_declares hne, G.front_of_declares hne']
    exact ⟨(v, w), hvw, rfl, rfl⟩

theorem Formula.natCast_of_mem {key : Key} (h : v ∈ sorted (F.versions key)) : ∃ n : ℕ, v = n := by
  obtain ⟨d, -, rfl⟩ := mem_map.mp ((perm_sorted _).mem_iff.mp h)
  exact ⟨d.version, rfl⟩

theorem Formula.nodup_sorted (F : Formula) (key : Key) : (sorted (F.versions key)).Nodup :=
  (perm_sorted _).nodup_iff.mpr (F.nodup_versions key)

theorem Formula.variableName_inj {key key' : Key} {v v' : ℤ} (hv : v ∈ sorted (F.versions key))
    (hv' : v' ∈ sorted (F.versions key'))
    (h : variableName (F.fronts.get key.2) key.1 v = variableName (F.fronts.get key'.2) key'.1 v') :
    key = key' ∧ v = v' := by
  obtain ⟨n, rfl⟩ := natCast_of_mem hv
  obtain ⟨n', rfl⟩ := natCast_of_mem hv'
  obtain ⟨hkey, rfl⟩ := ExtractPacket.variableName_inj h
  exact ⟨hkey, rfl⟩

theorem links_functional (h : (x, y) ∈ links F G) (h' : (x, y') ∈ links F G) : y = y' := by
  obtain ⟨key, -, -, v, w, hvw, rfl, rfl⟩ := mem_links.mp h
  obtain ⟨key', -, -, v', w', hvw', heq, rfl⟩ := mem_links.mp h'
  obtain ⟨rfl, rfl⟩ := G.variableName_inj (of_mem_zip hvw).2 (of_mem_zip hvw').2 heq
  cases zip_unique hvw hvw' (Or.inr ⟨G.nodup_sorted key, rfl⟩)
  rfl

theorem links_injective (h : (x, y) ∈ links F G) (h' : (x', y) ∈ links F G) : x = x' := by
  obtain ⟨key, -, -, v, w, hvw, rfl, rfl⟩ := mem_links.mp h
  obtain ⟨key', -, -, v', w', hvw', rfl, heq⟩ := mem_links.mp h'
  obtain ⟨rfl, rfl⟩ := F.variableName_inj (of_mem_zip hvw).1 (of_mem_zip hvw').1 heq
  cases zip_unique hvw hvw' (Or.inl ⟨F.nodup_sorted key, rfl⟩)
  rfl

theorem last_linked_iff {key : Key} (hF : F.Declares key) (hG : G.Declares key) :
    (G.last key, F.last key) ∈ links F G ↔ (F.versions key).length = (G.versions key).length := by
  rw [← last_mem_zip_iff hF hG (F.nodup_versions key) (G.nodup_versions key), mem_links]
  have hlastF := (perm_sorted _).mem_iff.mpr (lastLabel_mem hF).1
  have hlastG := (perm_sorted _).mem_iff.mpr (lastLabel_mem hG).1
  constructor
  · rintro ⟨key', -, -, v, w, hvw, hw, hv⟩
    obtain ⟨rfl, rfl⟩ := G.variableName_inj hlastG (of_mem_zip hvw).2 hw
    obtain ⟨-, rfl⟩ := F.variableName_inj hlastF (of_mem_zip hvw).1 hv
    exact hvw
  · intro h
    exact ⟨key, hF, hG, _, _, h, rfl, rfl⟩

/-- The values of a counterexample reach the last versions of the synthesis formula exactly if
both formulas declare equally many versions of every field that they share. -/
theorem transfers_iff (F G : Formula) :
    (∃ mapping, extractPacket F.text G.text = some mapping ∧ Transfers F G mapping) ↔
      ∀ key, F.Declares key → G.Declares key →
        (F.versions key).length = (G.versions key).length := by
  have hget : ∀ x y, ((links F G).foldl (fun m e => Dict.set m e.1 e.2) []).get? x = some y ↔
      (x, y) ∈ links F G := fun x y =>
    Dict.get?_foldl_set_iff fun _ _ _ => links_functional
  rw [extractPacket_text]
  constructor
  · rintro ⟨mapping, hmapping, htransfers⟩ key hF hG
    obtain rfl := Option.some.inj hmapping
    exact (last_linked_iff hF hG).mp ((hget _ _).mp (htransfers.last key hF hG))
  · intro h
    refine ⟨_, rfl, fun key hF hG => ?_, fun x x' y hx hx' => ?_⟩
    · exact (hget _ _).mpr ((last_linked_iff hF hG).mpr (h key hF hG))
    · exact links_injective ((hget _ _).mp hx) ((hget _ _).mp hx')

end Mapping

namespace TimeToLive

def key : Key := ("ip.ttl".toList, .parser)

def fronts : Fronts where
  metadata := ".metas__parse_and_run_0".toList
  parser := ".hdr_ParserImpl_start_0".toList
  shape := by
    intro s hs
    simp only [mem_cons, not_mem_nil, or_false] at hs
    rcases hs with rfl | rfl
    · exact ⟨"metas__parse_and_run_0".toList, by decide, by decide⟩
    · exact ⟨"hdr_ParserImpl_start_0".toList, by decide, by decide⟩
  distinct := by decide

def declaration (marked : Bool) (version : ℕ) : Declaration :=
  ⟨"ip.ttl".toList, .parser, version, marked, false, " () (_ BitVec 8))\n".toList⟩

theorem printed (marked : Bool) :
    ∀ version ∈ [1, 2, 3], (declaration marked version).Printed fronts := by
  intro version hversion
  simp only [mem_cons, not_mem_nil, or_false] at hversion
  rcases hversion with rfl | rfl | rfl <;> cases marked <;>
    exact ⟨forall_chars (by decide +kernel), by decide +kernel, by decide +kernel,
      Or.inl (by decide +kernel), by decide +kernel, by decide +kernel, by decide +kernel,
      by decide +kernel, forall_chars (by decide +kernel), Or.inr ⟨_, rfl⟩⟩

def formula (marked : Bool) (versions : List ℕ) (h : versions ⊆ [1, 2, 3])
    (hnodup : versions.Nodup) :
    Formula where
  fronts := fronts
  items := versions.map fun v => .declaration (declaration marked v)
  printed := by
    intro d hd
    obtain ⟨v, hv, heq⟩ := mem_map.mp hd
    obtain rfl := Item.declaration.inj heq
    exact printed marked v (h hv)
  others := by
    intro l hl
    obtain ⟨v, -, heq⟩ := mem_map.mp hl
    cases heq
  once := by
    have hmap : ((versions.map fun v => Item.declaration (declaration marked v)).filterMap
        Item.declaration?).map (fun d => (d.key, d.version)) = versions.map fun v => (key, v) := by
      simp [filterMap_map, Function.comp_def, Item.declaration?, declaration, Declaration.key, key]
    rw [hmap]
    exact hnodup.map fun a b hab => (Prod.mk.inj hab).2

def synthesis : Formula := formula true [1, 2] (by decide) (by decide)

def verification : Formula := formula false [3] (by decide) (by decide)

end TimeToLive

/-- The only version of the verification formula is linked to the first one of the synthesis
formula. -/
theorem single_version_misses_last :
    TimeToLive.synthesis.Declares TimeToLive.key ∧ TimeToLive.verification.Declares TimeToLive.key ∧
    (extractPacket TimeToLive.synthesis.text TimeToLive.verification.text).bind
        (fun mapping => mapping.get? (TimeToLive.verification.last TimeToLive.key)) =
      some ".hdr_ParserImpl_start_0.ip.ttl_1".toList ∧
    TimeToLive.synthesis.last TimeToLive.key = ".hdr_ParserImpl_start_0.ip.ttl_2".toList := by
  refine ⟨?_, ?_, ?_, ?_⟩
  · unfold Formula.Declares
    decide +kernel
  · unfold Formula.Declares
    decide +kernel
  · decide +kernel
  · decide +kernel

end ExtractPacket
