import FlexPlan.IncrementalVerify
import FlexPlan.VersionNames
import Mathlib.Data.List.Perm.Subperm
import Mathlib.Data.List.ProdSigma

/-!
# One formula for every mixed copy of a plan

A plan gives every component one bit in every copy, and the copies with both bits are the
snapshots that need verification. `incremental_verify` finds the bits of a copy by
substring search in their names.
-/
namespace SnapshotVerify

open PythonText SynthesizerUtils PlanExtraction IncrementalVerify VersionNames List

/-- A plan in the order in which it lists its bits. Whatever else it lists has no version
field in its name. -/
structure Plan where
  tail : Tail
  copies : List Copy
  components : List Str
  bit : Copy → Str → Bool
  order : List (Copy × Str)
  assignments : Dict Str Str
  distinct : (copies.map Copy.id).Nodup
  identifiers : ∀ c ∈ components, Identifier c
  once : components.Nodup
  complete : order.Perm (copies.product components)
  versions : (assignments.filter fun e => isIn "version.version".toList e.1) =
    order.map fun x => (planKey tail x.1 x.2, bitText (bit x.1 x.2))

/-- The base formula declares the version fields of the current copy. -/
structure Base where
  text : Str
  current : Copy
  number : current.id = 0
  declared : ∃ line ∈ readLines text, isVersionDeclaration line = true
  declarations : ∀ line ∈ readLines text, isVersionDeclaration line = true →
    ∃ lead rest, '.' ∉ lead ∧ line = lead ++ current.front ++ (".version.".toList ++ rest)

namespace Plan

variable (p : Plan) (B : Base)

def IsMixed (i : Copy) : Prop :=
  (∃ c ∈ p.components, p.bit i c = true) ∧ ∃ c ∈ p.components, p.bit i c = false

instance (i : Copy) : Decidable (p.IsMixed i) := inferInstanceAs (Decidable (_ ∧ _))

def mixed : List Copy := p.copies.filter fun i => p.IsMixed i

def equation (i : Copy) (c : Str) : Str :=
  assertEqual (versionName p.tail B.current c) (bitText (p.bit i c))

def Pins (i : Copy) (text : Str) : Prop :=
  ∃ cs : List Str, cs.Perm p.components ∧ text = B.text ++ cs.flatMap (p.equation B i) ++ ending

/-- There is one file for every mixed copy, which pins the bits of that copy. -/
def Covers : Prop :=
  ∃ states files, transitionStates p.assignments = some states ∧
    incrementalVerify B.text p.assignments = some files ∧
    ∃ copies : List Copy, copies.Perm p.mixed ∧ copies.map Copy.ele = states.map Prod.fst ∧
      List.Forall₂ (fun i f => p.Pins B i f.simple) copies files

/-- The part of a name that the script takes for its suffix. -/
def suffix (i : Copy) (c : Str) : Str :=
  sliceFrom (planKey p.tail i c) (find mark (planKey p.tail i c))

def MixedAt (i : Copy) (m : Str) : Prop :=
  (∃ c ∈ p.components, p.suffix i c = m ∧ p.bit i c = true) ∧
    ∃ c ∈ p.components, p.suffix i c = m ∧ p.bit i c = false

instance (i : Copy) (m : Str) : Decidable (p.MixedAt i m) := inferInstanceAs (Decidable (_ ∧ _))

/-- What the names of components must not hold for a copy to be read. -/
structure Readable (i : Copy) : Prop where
  ghost : ∀ c ∈ p.components, isIn "VERSION".toList c = false ∧ isIn "LENGTH".toList c = false
  copied : ∀ c ∈ p.components, isIn "___0".toList (field p.tail c) = false
  alone : ∀ j ∈ p.copies, j ≠ i → ∀ c ∈ p.components, isIn i.ele ('_' :: c) = false
  grouped : ∃! m, p.MixedAt i m

end Plan

section Base

variable (B : Base)

theorem slice_declaration {i : Copy} {lead : Str} (hlead : '.' ∉ lead) (rest : Str) :
    slice (lead ++ i.front ++ (".version.".toList ++ rest))
        (find ".".toList (lead ++ i.front ++ (".version.".toList ++ rest)))
        (find ".version.".toList (lead ++ i.front ++ (".version.".toList ++ rest))) = i.front := by
  obtain ⟨t, ht, -⟩ := i.front_cons
  have hneedle : ".version.".toList = '.' :: 'v' :: "ersion.".toList := by decide
  have hdot : find ".".toList (lead ++ i.front ++ (".version.".toList ++ rest)) = lead.length := by
    have h := index?_append (t := []) hlead ('h' :: t ++ (".version.".toList ++ rest))
    rw [ht]
    rw [append_assoc] at h ⊢
    exact find_of_index? h
  have hversion : find ".version.".toList (lead ++ i.front ++ (".version.".toList ++ rest)) =
      (lead ++ i.front).length := by
    have h := index?_front i (w := "ersion.".toList) hlead ('v' :: "ersion.".toList ++ rest)
    rw [if_pos (List.isPrefixOf_iff_prefix.mpr (prefix_append _ _))] at h
    rw [hneedle]
    exact find_of_index? h
  rw [hdot, hversion]
  exact slice_middle lead i.front (".version.".toList ++ rest)

theorem foldl_assigned {α β : Type*} {q : α → Bool} {f : α → β} {w : β} {l : List α}
    (h : ∀ x ∈ l, q x = true → f x = w) {v : β} (hv : v = w ∨ ∃ x ∈ l, q x = true) :
    l.foldl (fun v x => if q x then f x else v) v = w := by
  rw [foldl_last]
  cases hfind : l.reverse.find? q with
  | none =>
    exact hv.resolve_right fun ⟨x, hx, hq⟩ => find?_eq_none.mp hfind x (mem_reverse.mpr hx) hq
  | some x => exact h x (mem_reverse.mp (mem_of_find?_eq_some hfind)) (find?_some hfind)

theorem prefixOf_base : prefixOf B.text = B.current.front := by
  have hall : ∀ line ∈ readLines B.text, isVersionDeclaration line = true →
      slice line (find ".".toList line) (find ".version.".toList line) = B.current.front := by
    intro line hline hdeclaration
    obtain ⟨lead, rest, hlead, rfl⟩ := B.declarations line hline hdeclaration
    exact slice_declaration hlead rest
  exact foldl_assigned hall (Or.inr B.declared)

end Base

section Fields

variable (v : Str) (t : Tail) (i : Copy) {c : Str}

theorem fieldName_planKey : ∃ n, index? "___0".toList (field t c ++ "___0".toList) = some n ∧
    fieldName v (planKey t i c) = v ++ (field t c ++ "___0".toList).take n := by
  have hskip : index? "___0".toList (i.front ++ (field t c ++ "___0".toList)) =
      (index? "___0".toList (field t c ++ "___0".toList)).map (· + i.front.length) := by
    rw [field_eq, cons_append]
    exact index?_skip (by decide) (not_isIn_mark i)
  cases hindex : index? "___0".toList (field t c ++ "___0".toList) with
  | none =>
    have hin : isIn "___0".toList (field t c ++ "___0".toList) = true :=
      isIn_append_right _ (by decide)
    rw [index?_eq_none_iff.mp hindex] at hin
    cases hin
  | some n =>
    refine ⟨n, rfl, ?_⟩
    have hle : n ≤ (field t c ++ "___0".toList).length := by
      have hlength := (prefix_of_index? hindex).length_le
      rw [length_drop] at hlength
      have hfour : "___0".toList.length = 4 := by decide
      omega
    rw [hindex, Option.map_some] at hskip
    have hfirst := find_version i t c "___0".toList
    have hkey : planKey t i c = i.front ++ (field t c ++ "___0".toList) := by
      rw [planKey, versionName, append_assoc]
    have hend : find "___0".toList (planKey t i c) = (n + i.front.length : ℕ) := by
      rw [hkey]
      exact find_of_index? hskip
    rw [fieldName, hend]
    rw [← planKey] at hfirst
    rw [hfirst, hkey]
    have hmiddle := slice_middle i.front ((field t c ++ "___0".toList).take n)
      ((field t c ++ "___0".toList).drop n)
    rw [append_assoc, take_append_drop, length_append, length_take,
      Nat.min_eq_left hle, Nat.add_comm] at hmiddle
    rw [hmiddle]

theorem fieldName_of_not_isIn (h : isIn "___0".toList (field t c) = false) :
    fieldName v (planKey t i c) = v ++ field t c := by
  obtain ⟨n, hindex, hname⟩ := fieldName_planKey v t i (c := c)
  have hdrop : "___0".toList.dropLast = "___".toList := by decide
  have hnone : isIn "___0".toList (field t c ++ "___0".toList.dropLast) = false := by
    rw [hdrop, isIn_append_of_last (c := '0') (by decide) (by decide)]
    exact h
  have hfirst := index?_first hnone []
  rw [append_nil, hindex] at hfirst
  rw [hname, Option.some.inj hfirst, take_left]

theorem not_isIn_of_fieldName {d : Str} (h : fieldName v (planKey t i c) = v ++ field t d) :
    isIn "___0".toList (field t d) = false := by
  obtain ⟨n, hindex, hname⟩ := fieldName_planKey v t i (c := c)
  rw [hname] at h
  rw [← append_cancel_left h]
  exact not_isIn_take (by decide) hindex

end Fields

section Groups

theorem isTransition_iff {bits : List Str} :
    isTransition bits = true ↔ "#b1".toList ∈ bits ∧ ∃ b ∈ bits, b ≠ "#b1".toList := by
  unfold isTransition
  generalize "#b1".toList = one
  have hall : bits.length = bits.count one ↔ ∀ b ∈ bits, b = one := by
    rw [eq_comm, count_eq_length]
    exact forall₂_congr fun b _ => eq_comm
  simp only [Bool.and_eq_true, decide_eq_true_eq, ne_eq, hall, count_eq_zero, not_not]
  rw [and_comm]
  push Not
  rfl

theorem bitText_eq_one : bitText b = "#b1".toList ↔ b = true := by
  cases b <;> decide

variable (p : Plan)

namespace Plan

theorem copy_eq (hi : i ∈ p.copies) (hj : j ∈ p.copies) (h : i.id = j.id) : i = j :=
  inj_on_of_nodup_map p.distinct hi hj h

theorem mem_order : x ∈ p.order ↔ x.1 ∈ p.copies ∧ x.2 ∈ p.components := by
  rw [p.complete.mem_iff]
  exact mem_product

theorem order_nodup : p.order.Nodup := by
  rw [p.complete.nodup_iff]
  exact (List.Nodup.of_map _ p.distinct).product p.once

def entry (x : Copy × Str) : Str × Str := (planKey p.tail x.1 x.2, bitText (p.bit x.1 x.2))

def group (x : Copy × Str) : (Str × Str) × Str :=
  ((x.1.ele, p.suffix x.1 x.2), bitText (p.bit x.1 x.2))

theorem groupStates_eq : groupStates p.assignments =
    some ((p.order.map p.group).foldl (fun d e => Dict.push d e.1 e.2) []) := by
  have hstep : groupStates p.assignments = some ((p.assignments.filter fun e =>
      isIn "version.version".toList e.1).foldl (fun (d : Dict (Str × Str) (List Str)) e =>
        d.push (slice e.1 (find "_".toList e.1) (find "_start".toList e.1),
          sliceFrom e.1 (find "99000".toList e.1)) e.2) []) := by
    refine foldlM_filter ?_ ?_ []
    · intro e _ he b
      rw [if_pos he, findNth_one, findNth_one]
      rfl
    · intro e _ he b
      rw [if_neg (by rw [he]; decide)]
  rw [hstep, p.versions, foldl_map, foldl_map]
  refine congrArg some (foldl_ext _ _ _ fun d x _ => ?_)
  have hele : slice (planKey p.tail x.1 x.2) (find "_".toList (planKey p.tail x.1 x.2))
      (find "_start".toList (planKey p.tail x.1 x.2)) = x.1.ele := by
    have h := slice_ele x.1 (field p.tail x.2 ++ "___0".toList)
    rw [← append_assoc] at h
    exact h
  rw [hele]
  rfl

theorem isTransition_group :
    isTransition (((p.order.map p.group).filter fun e => e.1 = k).map Prod.snd) = true ↔
      ∃ i ∈ p.copies, k.1 = i.ele ∧ p.MixedAt i k.2 := by
  have hmem : ∀ v, v ∈ ((p.order.map p.group).filter fun e => e.1 = k).map Prod.snd ↔
      ∃ i ∈ p.copies, ∃ c ∈ p.components, k = (i.ele, p.suffix i c) ∧ bitText (p.bit i c) = v := by
    intro v
    simp only [mem_map, mem_filter, decide_eq_true_eq]
    constructor
    · rintro ⟨_, ⟨⟨x, hx, rfl⟩, hk⟩, rfl⟩
      exact ⟨x.1, (p.mem_order.mp hx).1, x.2, (p.mem_order.mp hx).2, hk.symm, rfl⟩
    · rintro ⟨i, hi, c, hc, hk, rfl⟩
      exact ⟨p.group (i, c), ⟨⟨(i, c), p.mem_order.mpr ⟨hi, hc⟩, rfl⟩, hk.symm⟩, rfl⟩
  rw [isTransition_iff]
  constructor
  · rintro ⟨hone, b, hb, hne⟩
    obtain ⟨i, hi, c, hc, hk, hbit⟩ := (hmem _).mp hone
    obtain ⟨j, hj, d, hd, hk', rfl⟩ := (hmem _).mp hb
    have hsame : i.ele = j.ele := by
      have h := hk.symm.trans hk'
      exact (Prod.mk.inj h).1
    obtain rfl := p.copy_eq hi hj (id_of_ele hsame)
    refine ⟨i, hi, by rw [hk], ⟨c, hc, by rw [hk], bitText_eq_one.mp hbit⟩, d, hd, by rw [hk'], ?_⟩
    rwa [Ne, bitText_eq_one, Bool.not_eq_true] at hne
  · rintro ⟨i, hi, hele, ⟨c, hc, hsuffix, hbit⟩, d, hd, hsuffix', hbit'⟩
    refine ⟨(hmem _).mpr ⟨i, hi, c, hc, Prod.ext hele hsuffix.symm, bitText_eq_one.mpr hbit⟩, _,
      (hmem _).mpr ⟨i, hi, d, hd, Prod.ext hele hsuffix'.symm, rfl⟩, ?_⟩
    rw [Ne, bitText_eq_one, hbit']
    decide

theorem transitionStates_spec :
    ∃ states, transitionStates p.assignments = some states ∧ states.Nodup ∧
    ∀ s, s ∈ states ↔ ∃ i ∈ p.copies, s.1 = i.ele ∧ p.MixedAt i s.2 := by
  have hnodup := Dict.nodup_keys_foldl_push (p.order.map p.group) (d := []) nodup_nil
  unfold transitionStates
  rw [p.groupStates_eq]
  refine ⟨_, rfl, ?_, fun s => ?_⟩
  · rw [(perm_insertionSort _ _).nodup_iff]
    exact hnodup.sublist (filter_sublist.map _)
  · rw [(perm_insertionSort _ _).mem_iff, ← isTransition_group, mem_map]
    constructor
    · rintro ⟨⟨k, vs⟩, hg, rfl⟩
      obtain ⟨hg, htransition⟩ := mem_filter.mp hg
      obtain ⟨-, rfl⟩ := Dict.mem_foldl_push.mp hg
      exact htransition
    · intro htransition
      refine ⟨(s, _), mem_filter.mpr ⟨Dict.mem_foldl_push.mpr ⟨?_, rfl⟩, htransition⟩, rfl⟩
      intro hnil
      rw [hnil] at htransition
      cases htransition

end Plan

end Groups

section Pinning

variable (p : Plan) (B : Base)

namespace Plan

def taken (i : Copy) : List (Copy × Str) := p.order.filter fun x => isPin i.ele (p.entry x)

def written (x : Copy × Str) : Str :=
  assertEqual (fieldName B.current.front (p.entry x).1) (p.entry x).2

variable (i : Copy)

theorem isPin_entry (x : Copy × Str) : isPin i.ele (p.entry x) =
    ((decide (i.id = x.1.id) || isIn i.ele ('_' :: x.2)) && !isIn "VERSION".toList x.2 &&
      !isIn "LENGTH".toList x.2) := by
  have hversion : isIn "VERSION".toList (planKey p.tail x.1 x.2) = isIn "VERSION".toList x.2 :=
    isIn_word x.1 p.tail (w := "ERSION".toList) (d := 'N')
      (by decide) (by decide) (by decide) (by decide)
      (by decide) (by decide)
  have hlength : isIn "LENGTH".toList (planKey p.tail x.1 x.2) = isIn "LENGTH".toList x.2 :=
    isIn_word x.1 p.tail (w := "ENGTH".toList) (d := 'H')
      (by decide) (by decide) (by decide) (by decide)
      (by decide) (by decide)
  unfold isPin entry
  rw [isIn_planKey, hversion, hlength, isIn_version, Bool.and_true]

theorem pinned_taken :
    pinned B.text p.assignments i.ele = B.text ++ (p.taken i).flatMap (p.written B) := by
  have hfilter : p.assignments.filter (isPin i.ele) = (p.taken i).map p.entry := by
    have hboth : p.assignments.filter (isPin i.ele) =
        (p.assignments.filter fun e => isIn "version.version".toList e.1).filter (isPin i.ele) := by
      rw [filter_filter]
      refine filter_congr fun e _ => ?_
      unfold isPin
      generalize "version.version".toList = word
      cases isIn word e.1 <;> simp
    rw [hboth, p.versions, taken]
    exact filter_map ..
  rw [pinned, hfilter, prefixOf_base, flatMap_map]
  rfl

variable {x : Copy × Str}

theorem mem_taken {i : Copy} : x ∈ p.taken i ↔ (x.1 ∈ p.copies ∧ x.2 ∈ p.components) ∧
    (i.id = x.1.id ∨ isIn i.ele ('_' :: x.2) = true) ∧ isIn "VERSION".toList x.2 = false ∧
      isIn "LENGTH".toList x.2 = false := by
  rw [taken, mem_filter, p.mem_order, p.isPin_entry]
  simp only [Bool.and_eq_true, Bool.or_eq_true, decide_eq_true_eq, Bool.not_eq_true', and_assoc]

variable {c : Str}

theorem notMem_fieldName {i j : Copy} (hc : Identifier c) {x : Char} (halnum : x.isAlphanum = false)
    (hdot : x ≠ '.') (hx : x ≠ '_') : x ∉ fieldName i.front (planKey p.tail j c) := by
  obtain ⟨n, -, hname⟩ := fieldName_planKey i.front p.tail j (c := c)
  have hkey : ∀ k : Copy, x ∉ k.front ∧ x ∉ field p.tail c ++ "___0".toList := by
    intro k
    rw [← not_or, ← mem_append, ← append_assoc]
    exact notMem_planKey k p.tail hc halnum hdot hx
  rw [hname, mem_append, not_or]
  exact ⟨(hkey i).1, fun h => (hkey j).2 (mem_of_mem_take h)⟩

theorem isLine_assertEqual {name : Str} (hname : '\n' ∉ name) (b : Bool) :
    IsLine (assertEqual name (bitText b)) := by
  have hline : IsLine (" ".toList ++ bitText b ++ "))\n".toList) := by cases b <;> decide
  have hrest := hline.append hname
  have hall := hrest.append (show '\n' ∉ "(assert (= ".toList by decide)
  unfold assertEqual
  generalize "(assert (= ".toList = lead, "))\n".toList = rest at hall ⊢
  rw [append_assoc, append_assoc name, ← append_assoc " ".toList]
  exact hall

theorem assertEqual_inj {a b u v : Str} (ha : ' ' ∉ a) (hb : ' ' ∉ b)
    (h : assertEqual a u = assertEqual b v) : a = b ∧ u = v := by
  unfold assertEqual at h
  generalize "(assert (= ".toList = lead, "))\n".toList = rest at h
  have h := append_cancel_right (append_cancel_left h)
  rw [append_assoc, append_assoc] at h
  exact cons_append_inj ha hb h

theorem written_isLine (hx : x.2 ∈ p.components) : IsLine (p.written B x) :=
  isLine_assertEqual (p.notMem_fieldName (p.identifiers _ hx) (by decide) (by decide) (by decide)) _

theorem equation_isLine (hc : c ∈ p.components) : IsLine (p.equation B i c) :=
  isLine_assertEqual (notMem_versionName _ _ (p.identifiers _ hc)
    (by decide) (by decide) (by decide)) _

theorem pins_taken_iff : p.Pins B i (pinned B.text p.assignments i.ele ++ ending) ↔
    ∃ cs : List Str, cs.Perm p.components ∧
      (p.taken i).map (p.written B) = cs.map (p.equation B i) := by
  rw [pinned_taken]
  constructor
  · rintro ⟨cs, hcs, htext⟩
    refine ⟨cs, hcs, ?_⟩
    have htext := append_cancel_left (append_cancel_right htext)
    have hleft : readLines ((p.taken i).map (p.written B)).flatten = _ :=
      readLines_flatten fun l hl => by
      obtain ⟨x, hx, rfl⟩ := mem_map.mp hl
      exact p.written_isLine B (p.mem_taken.mp hx).1.2
    have hright : readLines (cs.map (p.equation B i)).flatten = _ :=
      readLines_flatten fun l hl => by
      obtain ⟨c, hc, rfl⟩ := mem_map.mp hl
      exact p.equation_isLine B i (hcs.subset hc)
    rw [flatMap_def, flatMap_def] at htext
    rw [htext] at hleft
    exact hleft.symm.trans hright
  · rintro ⟨cs, hcs, hlines⟩
    refine ⟨cs, hcs, ?_⟩
    rw [flatMap_def, hlines, ← flatMap_def]

theorem equation_eq_written {i : Copy} (hx : x.2 ∈ p.components) (hc : c ∈ p.components)
    (h : p.written B x = p.equation B i c) :
    fieldName B.current.front (planKey p.tail x.1 x.2) = B.current.front ++ field p.tail c :=
  (assertEqual_inj (p.notMem_fieldName (p.identifiers _ hx) (by decide) (by decide) (by decide))
    (notMem_versionName _ _ (p.identifiers _ hc) (by decide) (by decide) (by decide)) h).1

theorem written_eq (h : isIn "___0".toList (field p.tail x.2) = false) :
    p.written B x = p.equation B x.1 x.2 := by
  unfold written equation entry
  rw [fieldName_of_not_isIn _ _ _ h]
  rfl

variable {p B} {i : Copy}

theorem Readable.pins (h : p.Readable i) (hi : i ∈ p.copies) :
    p.Pins B i (pinned B.text p.assignments i.ele ++ ending) := by
  have hmem : ∀ x, x ∈ p.taken i ↔ x.1 = i ∧ x.2 ∈ p.components := by
    intro x
    rw [p.mem_taken]
    constructor
    · rintro ⟨⟨hcopy, hcomponent⟩, hin, -⟩
      refine ⟨?_, hcomponent⟩
      rcases hin with hin | hin
      · exact p.copy_eq hcopy hi hin.symm
      · by_contra hne
        rw [h.alone x.1 hcopy hne x.2 hcomponent] at hin
        cases hin
    · rintro ⟨hcopy, hcomponent⟩
      exact ⟨⟨hcopy ▸ hi, hcomponent⟩, Or.inl (by rw [hcopy]), h.ghost x.2 hcomponent⟩
  rw [pins_taken_iff]
  refine ⟨(p.taken i).map Prod.snd, ?_, ?_⟩
  · rw [perm_ext_iff_of_nodup _ p.once]
    · intro c
      rw [mem_map]
      constructor
      · rintro ⟨x, hx, rfl⟩
        exact ((hmem x).mp hx).2
      · exact fun hc => ⟨(i, c), (hmem _).mpr ⟨rfl, hc⟩, rfl⟩
    · refine (p.order_nodup.filter _).map_on fun x hx y hy hxy => ?_
      exact Prod.ext (((hmem x).mp hx).1.trans ((hmem y).mp hy).1.symm) hxy
  · rw [map_map]
    refine map_congr_left fun x hx => ?_
    obtain ⟨hcopy, hcomponent⟩ := (hmem x).mp hx
    rw [p.written_eq B (h.copied x.2 hcomponent), hcopy]
    rfl

theorem readable_of_pins (hi : i ∈ p.copies) (hgroup : ∃! m, p.MixedAt i m)
    (h : p.Pins B i (pinned B.text p.assignments i.ele ++ ending)) : p.Readable i := by
  obtain ⟨cs, hcs, hlines⟩ := (p.pins_taken_iff B i).mp h
  have hfrom : ∀ c ∈ p.components, ∃ x ∈ p.taken i, p.written B x = p.equation B i c := by
    intro c hc
    have hmem : p.equation B i c ∈ (p.taken i).map (p.written B) := by
      rw [hlines]
      exact mem_map_of_mem (hcs.mem_iff.mpr hc)
    exact mem_map.mp hmem
  have hcopied : ∀ c ∈ p.components, isIn "___0".toList (field p.tail c) = false := by
    intro c hc
    obtain ⟨x, hx, hwritten⟩ := hfrom c hc
    exact not_isIn_of_fieldName _ _ _ (p.equation_eq_written B (p.mem_taken.mp hx).1.2 hc hwritten)
  have hghost : ∀ c ∈ p.components, isIn "VERSION".toList c = false ∧
      isIn "LENGTH".toList c = false := by
    intro c hc
    obtain ⟨x, hx, hwritten⟩ := hfrom c hc
    obtain ⟨⟨-, hcomponent⟩, -, hghost⟩ := p.mem_taken.mp hx
    have hname := p.equation_eq_written B hcomponent hc hwritten
    rw [fieldName_of_not_isIn _ _ _ (hcopied _ hcomponent)] at hname
    rwa [field_injective p.tail (append_cancel_left hname)] at hghost
  refine ⟨hghost, hcopied, fun j hj hne c hc => ?_, hgroup⟩
  by_contra hin
  rw [Bool.not_eq_false] at hin
  -- there are as many equations as components, and those of the copy are among them
  have hlength : (p.taken i).length = p.components.length := by
    have h := congrArg List.length hlines
    rw [length_map, length_map] at h
    rw [h, hcs.length_eq]
  have hnodup : ((j, c) :: p.components.map (Prod.mk i)).Nodup := by
    rw [nodup_cons]
    refine ⟨fun hmem => ?_, p.once.map fun _ _ h => (Prod.mk.inj h).2⟩
    obtain ⟨d, -, hd⟩ := mem_map.mp hmem
    exact hne (Prod.mk.inj hd).1.symm
  have hsubset : (j, c) :: p.components.map (Prod.mk i) ⊆ p.taken i := by
    intro x hx
    rcases mem_cons.mp hx with rfl | hx
    · exact p.mem_taken.mpr ⟨⟨hj, hc⟩, Or.inr hin, hghost c hc⟩
    · obtain ⟨d, hd, rfl⟩ := mem_map.mp hx
      exact p.mem_taken.mpr ⟨⟨hi, hd⟩, Or.inl rfl, hghost d hd⟩
  have hle := (subperm_of_subset hnodup hsubset).length_le
  rw [length_cons, length_map, hlength] at hle
  omega

end Plan

end Pinning

section Covering

variable (p : Plan) (B : Base) {i : Copy}

theorem Plan.isMixed_of_mixedAt (h : p.MixedAt i m) : p.IsMixed i := by
  obtain ⟨⟨c, hc, -, hone⟩, d, hd, -, hzero⟩ := h
  exact ⟨⟨c, hc, hone⟩, d, hd, hzero⟩

theorem Plan.mem_mixed : i ∈ p.mixed ↔ i ∈ p.copies ∧ p.IsMixed i := by
  rw [Plan.mixed, mem_filter, decide_eq_true_iff]

theorem Plan.mixed_ele_nodup : (p.mixed.map Copy.ele).Nodup := by
  have hmixed : p.mixed.Nodup := (List.Nodup.of_map _ p.distinct).filter _
  refine hmixed.map_on fun i hi j hj h => ?_
  exact p.copy_eq (p.mem_mixed.mp hi).1 (p.mem_mixed.mp hj).1 (id_of_ele h)

variable {states : List (Str × Str)}

theorem Plan.mem_state (hmem : ∀ s, s ∈ states ↔ ∃ i ∈ p.copies, s.1 = i.ele ∧ p.MixedAt i s.2)
    (hi : i ∈ p.copies) : (i.ele, m) ∈ states ↔ p.MixedAt i m := by
  rw [hmem]
  constructor
  · rintro ⟨j, hj, hele, hmixed⟩
    rwa [p.copy_eq hi hj (id_of_ele hele)]
  · exact fun h => ⟨i, hi, rfl, h⟩

def Plan.files (ele : Str) : Files :=
  writeFiles (p.assignments.foldl (passStep (prefixOf B.text) ele) { result := B.text })

theorem Plan.files_simple (ele : Str) :
    (p.files B ele).simple = pinned B.text p.assignments ele ++ ending := by
  rw [← pinned_eq]
  rfl

theorem Plan.written_files (h : transitionStates p.assignments = some states) :
    incrementalVerify B.text p.assignments = some ((states.map Prod.fst).map (p.files B)) := by
  rw [incrementalVerify, h, Option.map_some, writeStates_eq states rfl, map_map]
  rfl

theorem Plan.Covers.readable {p : Plan} {B : Base} (h : p.Covers B) (hi : i ∈ p.mixed) :
    p.Readable i := by
  obtain ⟨states, hstates, -, hmem⟩ := p.transitionStates_spec
  obtain ⟨states', files, hstates', hfiles, copies, hperm, hele, hpins⟩ := h
  rw [hstates] at hstates'
  obtain rfl := Option.some.inj hstates'
  rw [p.written_files B hstates, ← hele] at hfiles
  obtain rfl := Option.some.inj hfiles
  rw [map_map, forall₂_map_right_iff, forall₂_same] at hpins
  have hcopy := (p.mem_mixed.mp hi).1
  have hpin := hpins i (hperm.mem_iff.mpr hi)
  rw [Function.comp_apply, p.files_simple] at hpin
  refine Plan.readable_of_pins hcopy ?_ hpin
  have hin : i.ele ∈ states.map Prod.fst := hele ▸ mem_map_of_mem (hperm.mem_iff.mpr hi)
  obtain ⟨⟨ele, m⟩, hs, rfl⟩ := mem_map.mp hin
  refine ⟨m, (p.mem_state hmem hcopy).mp hs, fun m' hm' => ?_⟩
  have hfst : (states.map Prod.fst).Nodup := by
    rw [← hele, (hperm.map Copy.ele).nodup_iff]
    exact p.mixed_ele_nodup
  have h := inj_on_of_nodup_map hfst ((p.mem_state hmem hcopy).mpr hm') hs rfl
  exact (Prod.mk.inj h).2

theorem Plan.states_perm (hnodup : states.Nodup)
    (hmem : ∀ s, s ∈ states ↔ ∃ i ∈ p.copies, s.1 = i.ele ∧ p.MixedAt i s.2)
    (h : ∀ i ∈ p.mixed, ∃! m, p.MixedAt i m) :
    (states.map Prod.fst).Perm (p.mixed.map Copy.ele) := by
  have hcopy : ∀ {s}, s ∈ states → ∃ i ∈ p.mixed, s.1 = i.ele ∧ p.MixedAt i s.2 := by
    intro s hs
    obtain ⟨i, hi, hele, hmixed⟩ := (hmem s).mp hs
    exact ⟨i, p.mem_mixed.mpr ⟨hi, p.isMixed_of_mixedAt hmixed⟩, hele, hmixed⟩
  have hfst : (states.map Prod.fst).Nodup := by
    refine hnodup.map_on fun s hs s' hs' hss => ?_
    obtain ⟨i, hi, hele, hmixed⟩ := hcopy hs
    have hmixed' : p.MixedAt i s'.2 := by
      rw [← p.mem_state hmem (p.mem_mixed.mp hi).1, ← hele, hss]
      exact hs'
    exact Prod.ext hss ((h i hi).unique hmixed hmixed')
  rw [perm_ext_iff_of_nodup hfst p.mixed_ele_nodup]
  intro ele
  rw [mem_map, mem_map]
  constructor
  · rintro ⟨s, hs, rfl⟩
    obtain ⟨i, hi, hele, -⟩ := hcopy hs
    exact ⟨i, hi, hele.symm⟩
  · rintro ⟨i, hi, rfl⟩
    obtain ⟨m, hm, -⟩ := h i hi
    exact ⟨(i.ele, m), (p.mem_state hmem (p.mem_mixed.mp hi).1).mpr hm, rfl⟩

theorem Plan.covers_of_readable (h : ∀ i ∈ p.mixed, p.Readable i) : p.Covers B := by
  obtain ⟨states, hstates, hnodup, hmem⟩ := p.transitionStates_spec
  have hperm := p.states_perm hnodup hmem fun i hi => (h i hi).grouped
  have hpairs : List.Forall₂ (fun ele i => ele = Copy.ele i) (p.mixed.map Copy.ele) p.mixed := by
    rw [forall₂_map_left_iff, forall₂_same]
    exact fun _ _ => rfl
  obtain ⟨copies, hcopies, hmixed⟩ := perm_comp_forall₂ hperm hpairs
  have hele : copies.map Copy.ele = states.map Prod.fst := by
    rw [← forall₂_eq_eq_eq, forall₂_map_left_iff]
    exact hcopies.flip.imp fun _ _ h => h.symm
  refine ⟨states, _, hstates, p.written_files B hstates, copies, hmixed, hele, ?_⟩
  rw [← hele, map_map, forall₂_map_right_iff, forall₂_same]
  intro i hi
  have hi := hmixed.mem_iff.mp hi
  rw [Function.comp_apply, p.files_simple]
  exact (h i hi).pins (p.mem_mixed.mp hi).1

/-- Every mixed copy gets its file if and only if the names of the components do not
collide with what the script looks for. -/
theorem covers_iff : p.Covers B ↔ ∀ i ∈ p.mixed, p.Readable i :=
  ⟨fun h _ hi => h.readable hi, p.covers_of_readable B⟩

end Covering

namespace HalfDone

def copy : Copy := ⟨1, "_0".toList, zero_label_plain, zero_label_short⟩

def plan (second : Str) (hsecond : Identifier second) (hne : second ≠ "acl".toList) : Plan where
  tail := ⟨2, 1⟩
  copies := [copy]
  components := ["acl".toList, second]
  bit := fun _ c => c = "acl".toList
  order := [(copy, "acl".toList), (copy, second)]
  assignments := [(planKey ⟨2, 1⟩ copy "acl".toList, "#b1".toList),
    (planKey ⟨2, 1⟩ copy second, "#b0".toList)]
  distinct := nodup_singleton _
  identifiers := by
    intro c hc
    rcases mem_pair.mp hc with rfl | rfl
    · exact forall_chars (by decide)
    · exact hsecond
  once := by
    rw [nodup_cons, mem_singleton]
    exact ⟨hne.symm, nodup_singleton _⟩
  complete := .refl _
  versions := by
    rw [filter_eq_self.mpr]
    · simp only [map_cons, map_nil, decide_true, decide_eq_false hne]
      rfl
    · intro e he
      rcases mem_pair.mp he with rfl | rfl <;> exact isIn_version _ _ _

def declaration : Str :=
  "(declare-fun ".toList ++ ".hdrs_0_PSAImpl_ingress_start_0".toList ++
    (".version.".toList ++ "version__acl_2990001 () (_ BitVec 1))\n".toList)

def base : Base where
  text := declaration
  current := ⟨0, "_0".toList, zero_label_plain, zero_label_short⟩
  number := rfl
  declared := ⟨declaration, by decide +kernel, by decide +kernel⟩
  declarations := by
    intro line hline _
    have hlines : readLines declaration = [declaration] := by decide +kernel
    rw [hlines, mem_singleton] at hline
    exact ⟨"(declare-fun ".toList, "version__acl_2990001 () (_ BitVec 1))\n".toList,
      by decide, hline⟩

def lengthPlan : Plan := plan "MAX_LENGTH".toList (forall_chars (by decide)) (by decide)

def routePlan : Plan := plan "route".toList (forall_chars (by decide)) (by decide)

end HalfDone

open HalfDone

/-- A component with `LENGTH` in its name is taken for a ghost field and not pinned. -/
theorem length_component_not_pinned : lengthPlan.mixed = [copy] ∧ ¬lengthPlan.Covers base ∧
    ∃ f, incrementalVerify base.text lengthPlan.assignments = some [f] ∧
      isIn "MAX_LENGTH".toList f.simple = false := by
  have hmixed : lengthPlan.mixed = [copy] := by decide +kernel
  refine ⟨hmixed, fun h => ?_, ?_⟩
  · have hreadable : lengthPlan.Readable copy := h.readable (hmixed ▸ mem_singleton_self _)
    have hghost := (hreadable.ghost "MAX_LENGTH".toList (by decide +kernel)).2
    exact absurd hghost (by decide)
  · exact ⟨_, rfl, by decide +kernel⟩

theorem route_component_pinned : routePlan.mixed = [copy] ∧ routePlan.Covers base := by
  have hmixed : routePlan.mixed = [copy] := by decide +kernel
  refine ⟨hmixed, (covers_iff routePlan base).mpr fun i hi => ?_⟩
  obtain rfl : i = copy := by simpa [hmixed] using hi
  have hsuffix : ∀ c ∈ routePlan.components, routePlan.suffix copy c = "990001___0".toList := by
    decide +kernel
  refine ⟨by decide +kernel, by decide +kernel, fun j hj hne => ?_, "990001___0".toList,
    by decide +kernel, ?_⟩
  · exact absurd (mem_singleton.mp hj) hne
  · rintro m ⟨⟨c, hc, hm, -⟩, -⟩
    exact hm.symm.trans (hsuffix c hc)

end SnapshotVerify
