import FlexPlan.PythonText

/-!
# Resource files

`random_annotation` writes one line for each changing component, with its old and its new
size, and `synthesizer_spec` reads the file back. The reader cuts the last character of
every line.
-/
namespace ResourceFile

open PythonText List

section Program

def Plain (s : Str) : Prop := ∀ c ∈ s, c ≠ ' ' ∧ c ≠ '\n' ∧ c ≠ '\r'

abbrev Name := {s : Str // Plain s}

structure Resource where
  name : Name
  old : ℕ
  new : ℕ

def Resource.text (r : Resource) : Str := r.name.1 ++ ' ' :: (ofNat r.old ++ ' ' :: ofNat r.new)

def Resource.line (r : Resource) : Str := r.text ++ ['\n']

/-- How the last line of a file ends. -/
inductive Layout where
  | generated
  | terminated
  | unterminated
  deriving DecidableEq

def written (rs : List Resource) : Layout → Str
  | .generated => slice (rs.flatMap Resource.line) 0 (-1) ++ " ".toList
  | .terminated => rs.flatMap Resource.line
  | .unterminated => slice (rs.flatMap Resource.line) 0 (-1)

inductive Change where
  | add
  | delete
  | change
  deriving DecidableEq

def Change.sizes : Change → Str
  | .add => " 0 100\n".toList
  | .delete => " 100 0\n".toList
  | .change => " 100 100\n".toList

def generateResourceTxt (tableVersionDict : Dict Name Change) : Str :=
  let result := tableVersionDict.flatMap fun e => "version_".toList ++ e.1.1 ++ e.2.sizes
  slice result 0 (-1) ++ " ".toList

def readItem (line : Str) : Option (Str × Str × Str) :=
  match split " ".toList (slice line 0 (-1)) with
  | a :: b :: c :: _ => some (a, b, c)
  | _ => none

/-- The resource dictionary; a line with fewer than three parts raises. -/
def getFiles (text : Str) : Option (Dict Str (Str × Str)) :=
  (readLines text).foldlM (fun d line => (readItem line).map fun item => d.set item.1 item.2) []

end Program

section Reading

theorem plain_version (n : Name) : Plain ("version_".toList ++ n.1) := by
  intro c hc
  rcases mem_append.mp hc with hc | hc
  · have hall : ∀ c ∈ "version_".toList, c ≠ ' ' ∧ c ≠ '\n' ∧ c ≠ '\r' := forall_chars (by decide)
    exact hall c hc
  · exact n.2 c hc

def Change.old : Change → ℕ
  | .add => 0
  | .delete | .change => 100

def Change.new : Change → ℕ
  | .add => 100
  | .delete => 0
  | .change => 100

def tableResource (e : Name × Change) : Resource :=
  ⟨⟨"version_".toList ++ e.1.1, plain_version e.1⟩, e.2.old, e.2.new⟩

theorem sizes_eq (c : Change) : c.sizes = ' ' :: (ofNat c.old ++ ' ' :: ofNat c.new) ++ ['\n'] := by
  cases c <;> decide

theorem generateResourceTxt_eq (d : Dict Name Change) :
    generateResourceTxt d = written (d.map tableResource) .generated := by
  have hline : (fun e : Name × Change => "version_".toList ++ e.1.1 ++ e.2.sizes) =
      fun e => (tableResource e).line := by
    funext e
    rw [sizes_eq]
    exact (append_assoc ..).symm
  rw [generateResourceTxt, hline, written, flatMap_map]

def Resource.row (r : Resource) : Str × Str × Str := (r.name.1, ofNat r.old, ofNat r.new)

section

variable (r : Resource)

include r

theorem Resource.blank_notMem : ' ' ∉ r.name.1 := fun h => (r.name.2 _ h).1 rfl

theorem Resource.newline_notMem : '\n' ∉ r.text := by
  have hnumber : ∀ n, '\n' ∉ ofNat n := notMem_ofNat (by decide)
  have hname : '\n' ∉ r.name.1 := fun h => (r.name.2 _ h).2.1 rfl
  simp [Resource.text, hnumber, hname]

theorem Resource.text_ne_nil : r.text ≠ [] := by
  rw [Resource.text]
  simp

theorem readItem_eq {number : Str} (h : ' ' ∉ number) (c : Char) :
    readItem (r.name.1 ++ ' ' :: (ofNat r.old ++ ' ' :: number) ++ [c]) =
      some (r.name.1, ofNat r.old, number) := by
  have hblank : " ".toList = [' '] := by decide
  have hold : ' ' ∉ ofNat r.old := notMem_ofNat (by decide) _
  rw [readItem, slice_line, hblank, split_append_char, split_append_char,
    split_of_notMem r.blank_notMem, split_of_notMem hold, split_of_notMem h]
  rfl

theorem readItem_text (c : Char) : readItem (r.text ++ [c]) = some r.row :=
  readItem_eq r (notMem_ofNat (by decide) _) c

theorem isLine_line : IsLine r.line := isLine_concat r.newline_notMem

end

variable (rs : List Resource)

theorem readLines_lines (rest : Str) :
    readLines (rs.flatMap Resource.line ++ rest) = rs.map Resource.line ++ readLines rest := by
  exact readLines_append (forall_mem_map.mpr fun r _ => isLine_line r) rest

theorem slice_lines (r : Resource) :
    slice ((rs ++ [r]).flatMap Resource.line) 0 (-1) = rs.flatMap Resource.line ++ r.text := by
  rw [flatMap_append, flatMap_singleton, Resource.line, ← append_assoc, slice_line]

def store (d : Dict Str (Str × Str)) (item : Str × Str × Str) : Dict Str (Str × Str) :=
  d.set item.1 item.2

theorem foldlM_lines (d : Dict Str (Str × Str)) :
    (rs.map Resource.line).foldlM
      (fun d line => (readItem line).map fun item => d.set item.1 item.2) d =
      some ((rs.map Resource.row).foldl store d) := by
  induction rs generalizing d with
  | nil => rfl
  | cons r rs ih =>
    rw [map_cons, foldlM_cons, Resource.line, readItem_text]
    exact ih _

theorem getFiles_last {last : Str} {item : Str × Str × Str} (hne : last ≠ []) (hlast : '\n' ∉ last)
    (hitem : readItem last = some item) :
    getFiles (rs.flatMap Resource.line ++ last) =
      some ((rs.map Resource.row ++ [item]).foldl store []) := by
  rw [getFiles, readLines_lines, readLines_last hlast hne, foldlM_append, foldlM_lines,
    Option.bind_eq_bind, Option.bind_some, foldlM_cons, hitem, foldl_append]
  rfl

theorem getFiles_terminated :
    getFiles (written rs .terminated) = some ((rs.map Resource.row).foldl store []) := by
  have hread := readLines_lines rs []
  rw [append_nil, readLines, append_nil] at hread
  rw [getFiles, written, hread, foldlM_lines]

theorem getFiles_generated {rs : List Resource} (hne : rs ≠ []) :
    getFiles (written rs .generated) = some ((rs.map Resource.row).foldl store []) := by
  obtain ⟨rs, r, rfl⟩ := (eq_nil_or_concat' rs).resolve_left hne
  have hnewline : '\n' ∉ r.text ++ [' '] := by
    rw [mem_append, not_or]
    exact ⟨r.newline_notMem, by decide⟩
  have hread := getFiles_last rs (append_ne_nil_of_left_ne_nil r.text_ne_nil _) hnewline
    (readItem_text r ' ')
  rw [written, slice_lines, append_assoc, map_append]
  exact hread

theorem getFiles_unterminated (r : Resource) :
    getFiles (written (rs ++ [r]) .unterminated) =
      some ((rs.map Resource.row ++ [(r.name.1, ofNat r.old, (ofNat r.new).dropLast)]).foldl
        store []) := by
  have hsplit : (ofNat r.new).dropLast ++ [(ofNat r.new).getLast (ofNat_ne_nil _)] = ofNat r.new :=
    dropLast_append_getLast _
  have htext : r.text = r.name.1 ++ ' ' :: (ofNat r.old ++ ' ' :: (ofNat r.new).dropLast) ++
      [(ofNat r.new).getLast (ofNat_ne_nil _)] := by
    rw [Resource.text]
    nth_rewrite 1 [← hsplit]
    simp
  have hblank : ' ' ∉ (ofNat r.new).dropLast :=
    fun h => notMem_ofNat (by decide) r.new (mem_of_mem_dropLast h)
  have hitem : readItem r.text = some (r.name.1, ofNat r.old, (ofNat r.new).dropLast) := by
    rw [htext]
    exact readItem_eq r hblank _
  rw [written, slice_lines]
  exact getFiles_last rs r.text_ne_nil r.newline_notMem hitem

end Reading

section RoundTrip

def ReadsBack (rs : List Resource) (layout : Layout) : Prop :=
  ∃ d, getFiles (written rs layout) = some d ∧
    ∀ name sizes, d.get? name = some sizes ↔ (name, sizes) ∈ rs.map Resource.row

def Consistent (rs : List Resource) : Prop :=
  ∀ r ∈ rs, ∀ s ∈ rs, r.name = s.name → r.old = s.old ∧ r.new = s.new

variable {rs : List Resource}

theorem row_injective (h : Consistent rs) (name : Str) (x y : Str × Str)
    (hx : (name, x) ∈ rs.map Resource.row) (hy : (name, y) ∈ rs.map Resource.row) : x = y := by
  obtain ⟨r, hr, hrow⟩ := mem_map.mp hx
  obtain ⟨s, hs, hrow'⟩ := mem_map.mp hy
  cases hrow
  have hname : s.name = r.name := Subtype.ext (congrArg Prod.fst hrow')
  obtain ⟨hold, hnew⟩ := h r hr s hs hname.symm
  have hsizes : (ofNat s.old, ofNat s.new) = y := congrArg Prod.snd hrow'
  rw [← hsizes, hold, hnew]

theorem ReadsBack.consistent {layout : Layout} (h : ReadsBack rs layout) : Consistent rs := by
  obtain ⟨d, -, hd⟩ := h
  intro r hr s hs hname
  have hfirst := (hd r.name.1 (ofNat r.old, ofNat r.new)).mpr (mem_map_of_mem hr)
  have hsecond := (hd s.name.1 (ofNat s.old, ofNat s.new)).mpr (mem_map_of_mem hs)
  rw [hname, hsecond] at hfirst
  have hsizes := Prod.mk.inj (Option.some.inj hfirst)
  exact ⟨(ofNat_injective hsizes.1).symm, (ofNat_injective hsizes.2).symm⟩

theorem readsBack_of_eq {layout : Layout} (h : Consistent rs)
    (hread : getFiles (written rs layout) = some ((rs.map Resource.row).foldl store [])) :
    ReadsBack rs layout :=
  ⟨_, hread, fun _ _ => Dict.get?_foldl_set_iff (row_injective h)⟩

theorem not_readsBack_unterminated (rs : List Resource) (r : Resource) :
    ¬ReadsBack (rs ++ [r]) .unterminated := by
  rintro ⟨d, hread, hd⟩
  rw [getFiles_unterminated, Option.some.injEq] at hread
  have hget : d.get? r.name.1 = some (ofNat r.old, (ofNat r.new).dropLast) := by
    rw [← hread, foldl_append, foldl_cons, foldl_nil, store, Dict.get?_set, if_pos rfl]
  have hmem : (r.name.1, ofNat r.old, ofNat r.new) ∈ (rs ++ [r]).map Resource.row :=
    mem_map_of_mem (mem_append_right _ (mem_singleton_self r))
  rw [(hd _ _).mpr hmem, Option.some.injEq, Prod.mk.injEq] at hget
  have hlength := congrArg List.length hget.2
  have hpos := length_pos_of_ne_nil (ofNat_ne_nil r.new)
  rw [length_dropLast] at hlength
  omega

/-- A resource file is read back exactly if its last line ends with a line break or with the
blank of the generator, and the generator had something to write. -/
theorem readsBack_iff (rs : List Resource) (layout : Layout) : ReadsBack rs layout ↔
    Consistent rs ∧ (layout = .generated → rs ≠ []) ∧ (layout = .unterminated → rs = []) := by
  constructor
  · intro h
    refine ⟨h.consistent, ?_, ?_⟩
    · rintro rfl rfl
      obtain ⟨d, hread, -⟩ := h
      cases hread
    · rintro rfl
      rcases eq_nil_or_concat' rs with hnil | ⟨rs, r, rfl⟩
      · exact hnil
      · exact absurd h (not_readsBack_unterminated rs r)
  · rintro ⟨hconsistent, hgenerated, hunterminated⟩
    cases layout with
    | generated => exact readsBack_of_eq hconsistent (getFiles_generated (hgenerated rfl))
    | terminated => exact readsBack_of_eq hconsistent (getFiles_terminated rs)
    | unterminated =>
      obtain rfl := hunterminated rfl
      exact readsBack_of_eq hconsistent rfl

/-- What `random_annotation` writes is read back, unless nothing changes: then the file is
a single blank and the reader fails. -/
theorem generated_readsBack (d : Dict Name Change) (hd : ∀ e ∈ d, ∀ f ∈ d, e.1 = f.1 → e = f) :
    (d = [] ∧ generateResourceTxt d = [' '] ∧ getFiles (generateResourceTxt d) = none) ∨
    ∃ m, getFiles (generateResourceTxt d) = some m ∧ ∀ name sizes, m.get? name = some sizes ↔
      ∃ e ∈ d, "version_".toList ++ e.1.1 = name ∧ (ofNat e.2.old, ofNat e.2.new) = sizes := by
  rcases eq_or_ne d [] with rfl | hne
  · exact Or.inl ⟨rfl, by decide, by decide⟩
  have hconsistent : Consistent (d.map tableResource) := by
    refine forall_mem_map.mpr fun e he => forall_mem_map.mpr fun f hf hname => ?_
    obtain rfl := hd e he f hf (Subtype.ext (append_cancel_left (congrArg Subtype.val hname)))
    exact ⟨rfl, rfl⟩
  obtain ⟨m, hread, hm⟩ :=
    readsBack_of_eq hconsistent (getFiles_generated (mt map_eq_nil_iff.mp hne))
  refine Or.inr ⟨m, (congrArg getFiles (generateResourceTxt_eq d)).trans hread,
    fun name sizes => ?_⟩
  rw [hm, map_map, mem_map]
  exact exists_congr fun e => and_congr_right fun _ => Iff.of_eq (Prod.mk.injEq ..)

theorem plain_acl : Plain "version_acl".toList := by
  have hall : ∀ c ∈ "version_acl".toList, c ≠ ' ' ∧ c ≠ '\n' ∧ c ≠ '\r' := forall_chars (by decide)
  exact hall

def acl : Resource := ⟨⟨"version_acl".toList, plain_acl⟩, 0, 100⟩

/-- The size 100 is read as 10. -/
theorem unterminated_size_shortened :
    written [acl] .unterminated = "version_acl 0 100".toList ∧
    getFiles "version_acl 0 100".toList = some [("version_acl".toList, "0".toList, "10".toList)] ∧
    ¬ReadsBack [acl] .unterminated :=
  ⟨by decide, by decide, not_readsBack_unterminated [] acl⟩

theorem plain_nat : Plain "version_nat".toList := by
  have hall : ∀ c ∈ "version_nat".toList, c ≠ ' ' ∧ c ≠ '\n' ∧ c ≠ '\r' := forall_chars (by decide)
  exact hall

def nat : Name := ⟨"version_nat".toList, plain_nat⟩

theorem acl_readsBack : ∃ m,
    getFiles (generateResourceTxt [(acl.name, .add), (nat, .delete)]) = some m ∧
    m.get? "version_version_acl".toList = some ("0".toList, "100".toList) ∧
    m.get? "version_version_nat".toList = some ("100".toList, "0".toList) := by
  have hdistinct : acl.name ≠ nat := by decide
  have h := generated_readsBack [(acl.name, .add), (nat, .delete)]
    (by simp [hdistinct, hdistinct.symm])
  obtain ⟨m, hread, hm⟩ := h.resolve_left fun h => cons_ne_nil _ _ h.1
  exact ⟨m, hread, (hm _ _).mpr ⟨_, mem_cons_self, by decide, by decide⟩,
    (hm _ _).mpr ⟨_, mem_cons_of_mem _ mem_cons_self, by decide, by decide⟩⟩

end RoundTrip

end ResourceFile
