import FlexPlan.SpecInterpret

/-!
# What a violation condition says

The assertions of a block are negated correctly. The guard in front of them is what is written of
the last assumption line alone, and in a disjunction it covers the first literal only.
-/
namespace SpecViolation

open PythonText ConditionText SpecLanguage SpecParser SpecInterpret List

variable {n : Copies} {τ σ : Atom → Bool} {action : Str → Option Str}

theorem emitted {ls : List (Literal Term)}
    (h : ∀ l ∈ ls, action (raw l).text = none ∨ Translated action τ σ l) :
    ∃ ps : List (Str × Bool), (ls.map fun l => (raw l).text).filterMap action = ps.map Prod.fst ∧
      ps.map Prod.snd = (ls.filter fun l => (action (raw l).text).isSome).map
        (fun l => (raw l).holds τ) ∧
      ∀ p ∈ ps, Reads (literalValue σ) p.1 p.2 := by
  induction ls with
  | nil => exact ⟨[], rfl, rfl, fun _ h => nomatch h⟩
  | cons l ls ih =>
    obtain ⟨hl, hls⟩ := forall_mem_cons.mp h
    obtain ⟨ps, htexts, hvalues, hreads⟩ := ih hls
    rcases hl with hnone | ⟨out, htext, hterms, hvalue⟩
    · refine ⟨ps, ?_, ?_, hreads⟩
      · rw [map_cons, filterMap_cons_none hnone, htexts]
      · rw [filter_cons_of_neg (by simp [hnone]), hvalues]
    · refine ⟨(out.text, out.holds σ) :: ps, ?_, ?_,
        forall_mem_cons.mpr ⟨reads_text hterms, hreads⟩⟩
      · rw [map_cons, filterMap_cons_some htext, htexts]
        rfl
      · rw [filter_cons_of_pos (by simp [htext]), map_cons, map_cons, hvalues, hvalue]

variable {c : Clause}

theorem filter_translated (h : ∀ l ∈ c.literals, Translated action τ σ l) :
    (c.literals.filter fun l => (action (raw l).text).isSome) = c.literals := by
  refine filter_eq_self.mpr fun l hl => ?_
  obtain ⟨out, htext, -⟩ := h l hl
  simp [htext]

theorem emitted_clause (h : ∀ l ∈ c.literals, Translated action τ σ l) :
    ∃ p ps, (clauseTexts c).filterMap action = (p :: ps).map Prod.fst ∧
      p.2 = (raw c.first).holds τ ∧ ps.map Prod.snd = c.rest.map (fun l => (raw l).holds τ) ∧
      ∀ q ∈ p :: ps, Reads (literalValue σ) q.1 q.2 := by
  obtain ⟨ps, htexts, hvalues, hreads⟩ := emitted fun l hl => Or.inr (h l hl)
  rw [filter_translated h] at hvalues
  cases ps with
  | nil => cases hvalues
  | cons p ps =>
    obtain ⟨hfirst, hrest⟩ := List.cons.inj hvalues
    exact ⟨p, ps, htexts, hfirst, hrest, hreads⟩

theorem reads_list (hone : c.rest = [] → ps = [])
    (h : ∀ q ∈ p :: ps, Reads (literalValue σ) q.1 q.2) :
    Reads (literalValue σ) ("(".toList ++ kindJoin (kind c) ((p :: ps).map Prod.fst) ++ ")".toList)
      (c.connective.apply ((p :: ps).map Prod.snd)) := by
  have hsingle : ∀ q : Str × Bool, Reads (literalValue σ) q.1 q.2 →
      Reads (literalValue σ) ("(".toList ++ q.1 ++ ")".toList) q.2 := by
    intro q hq
    have hmem : ∀ r ∈ [q], Reads (literalValue σ) r.1 r.2 := by
      intro r hr
      rw [mem_singleton.mp hr]
      exact hq
    simpa [join] using reads_group hmem
  obtain ⟨first, rest, conn⟩ := c
  cases rest with
  | nil =>
    obtain rfl : ps = [] := hone rfl
    have hp := hsingle p (h p mem_cons_self)
    cases conn <;> simpa [kind, kindJoin, join, Connective.apply] using hp
  | cons l ls =>
    cases conn with
    | and =>
      rw [Connective.apply, all_map]
      exact hsingle (_, _) (reads_join_and h)
    | or =>
      rw [Connective.apply, any_map]
      exact reads_group h

/-- A guard text in front of the first literal. -/
inductive Guards (σ : Atom → Bool) : Str → Bool → Prop where
  | none : Guards σ [] true
  | text {s : Str} {v : Bool} (h : Reads (literalValue σ) s v) : Guards σ (s ++ " && ".toList) v

theorem Guards.reads {guard s : Str} (hg : Guards σ guard g)
    (hs : Reads (literalValue σ) s v) : Reads (literalValue σ) (guard ++ s) (g && v) := by
  cases hg with
  | none => exact hs
  | text h => exact reads_and h hs

/-- What a condition says: the guard is a conjunct of the first literal. -/
def guarded (g : Bool) (τ : Atom → Bool) (c : Clause) : Bool :=
  c.connective.apply ((g && (raw c.first).holds τ) :: c.rest.map fun l => (raw l).holds τ)

theorem guarded_true (c : Clause) : guarded true τ c = c.holds τ := by
  rw [guarded, Bool.true_and]
  rfl

/-- The literals of a disjunction that escape a false guard. -/
def escapes (τ : Atom → Bool) (c : Clause) : Bool :=
  match c.connective with
  | .and => false
  | .or => c.rest.any fun l => (raw l).holds τ

theorem guarded_false (c : Clause) : guarded false τ c = escapes τ c := by
  rw [guarded, escapes]
  cases c.connective with
  | and => rfl
  | or => simp [Connective.apply]

theorem append_kindJoin (a p : Str) (ps : List Str) (k : Kind) :
    a ++ kindJoin k (p :: ps) = kindJoin k ((a ++ p) :: ps) := by
  have hjoin : ∀ sep : Str, a ++ join sep (p :: ps) = join sep ((a ++ p) :: ps) := by
    intro sep
    cases ps with
    | nil => simp [join]
    | cons q qs => simp [join, intercalate_cons_cons]
  cases k <;> exact hjoin _

def lineText (action : Str → Option Str) (guard : Str) (c : Clause) : Str :=
  "(".toList ++ guard ++ kindJoin (kind c) ((clauseTexts c).filterMap action) ++ ")".toList

theorem reads_line {guard : Str} (hg : Guards σ guard g)
    (h : ∀ l ∈ c.literals, Translated action τ σ l) :
    Reads (literalValue σ) (lineText action guard c) (guarded g τ c) := by
  obtain ⟨p, ps, htexts, hfirst, hrest, hreads⟩ := emitted_clause h
  obtain ⟨hp, hps⟩ := forall_mem_cons.mp hreads
  have hone : c.rest = [] → ps = [] := by
    intro hnil
    rw [hnil] at hrest
    exact map_eq_nil_iff.mp hrest
  have hlist := reads_list (c := c) (p := (guard ++ p.1, g && p.2)) hone
    (forall_mem_cons.mpr ⟨hg.reads hp, hps⟩)
  rw [map_cons, map_cons, ← append_kindJoin, hrest, hfirst, ← append_assoc] at hlist
  rw [lineText, htexts]
  exact hlist

section Assumptions

/-- The literals of an assumption line that are not skipped. -/
def written (n : Copies) (c : Clause) : List (Literal Term) :=
  c.literals.filter fun l => (assumeAction n (raw l).text).isSome

/-- The value of the guard: what is written of a line overwrites the lines before. -/
def guardValue (n : Copies) (τ : Atom → Bool) (assumes : List Clause) : Bool :=
  assumes.foldl (fun g c => if (written n c).isEmpty then g
    else c.connective.apply ((written n c).map fun l => (raw l).holds τ)) true

/-- A literal of an assumption line is skipped, or written with its value. -/
def Handled (n : Copies) (τ σ : Atom → Bool) (l : Literal Term) : Prop :=
  assumeAction n (raw l).text = none ∨ Translated (assumeAction n) τ σ l

variable {c : Clause}

theorem assumeLine_skipped (h : written n c = []) (before : Str) :
    assumeLine n before (clauseTexts c, kind c) = before := by
  have hnone : (clauseTexts c).filterMap (assumeAction n) = [] := by
    rw [filterMap_eq_nil_iff]
    intro t ht
    obtain ⟨l, hl, rfl⟩ := mem_map.mp ht
    simpa using filter_eq_nil_iff.mp h l hl
  rw [assumeLine, hnone]

theorem assumeLine_written (h : ∀ l ∈ c.literals, Handled n τ σ l) (hne : written n c ≠ [])
    (before : Str) : Guards σ (assumeLine n before (clauseTexts c, kind c))
      (c.connective.apply ((written n c).map fun l => (raw l).holds τ)) := by
  obtain ⟨ps, htexts, hvalues, hreads⟩ := emitted h
  cases ps with
  | nil => exact absurd (map_eq_nil_iff.mp hvalues.symm) hne
  | cons p ps =>
    have hone : c.rest = [] → ps = [] := by
      intro hnil
      have hle := length_filter_le (fun l => (assumeAction n (raw l).text).isSome) c.literals
      have hlength := congrArg List.length hvalues
      rw [length_map, length_map] at hlength
      rw [← hlength, Clause.literals, hnil, length_cons, length_cons] at hle
      exact length_eq_zero_iff.mp (by simpa using hle)
    have hline := reads_list hone hreads
    have htext : assumeLine n before (clauseTexts c, kind c) =
        "(".toList ++ kindJoin (kind c) ((p :: ps).map Prod.fst) ++ ")".toList ++
          " && ".toList := by
      rw [assumeLine, clauseTexts, htexts]
      simp
    rw [htext, written, ← hvalues]
    exact .text hline

variable {assumes : List Clause}

theorem guards_assumes (h : ∀ c ∈ assumes, ∀ l ∈ c.literals, Handled n τ σ l) :
    Guards σ (assumeString n (assumes.map fun c => (clauseTexts c, kind c)))
      (guardValue n τ assumes) := by
  -- the invariant relates the text and the value behind any number of lines
  have hfold : ∀ (cs : List Clause) (text : Str) (g : Bool), Guards σ text g →
      (∀ c ∈ cs, ∀ l ∈ c.literals, Handled n τ σ l) →
      Guards σ ((cs.map fun c => (clauseTexts c, kind c)).foldl (assumeLine n) text)
        (cs.foldl (fun g c => if (written n c).isEmpty then g
          else c.connective.apply ((written n c).map fun l => (raw l).holds τ)) g) := by
    intro cs
    induction cs with
    | nil => intro text g hg _; exact hg
    | cons c cs ih =>
      intro text g hg hcs
      obtain ⟨hc, hcs⟩ := forall_mem_cons.mp hcs
      rw [map_cons, foldl_cons, foldl_cons]
      by_cases hwritten : written n c = []
      · rw [assumeLine_skipped hwritten, if_pos (List.isEmpty_iff.mpr hwritten)]
        exact ih _ _ hg hcs
      · rw [if_neg (mt List.isEmpty_iff.mp hwritten)]
        exact ih _ _ (assumeLine_written hc hwritten text) hcs
  exact hfold assumes [] true .none h

def lastHolds (τ : Atom → Bool) (assumes : List Clause) : Bool :=
  (assumes.getLast?.map fun c => c.holds τ).getD true

theorem guardValue_last (h : ∀ c ∈ assumes, ∀ l ∈ c.literals, Translated (assumeAction n) τ σ l) :
    guardValue n τ assumes = lastHolds τ assumes := by
  induction assumes using List.reverseRecOn with
  | nil => rfl
  | append_singleton cs c _ =>
    have hc : written n c = c.literals :=
      filter_translated (h c (mem_append_right _ mem_cons_self))
    rw [guardValue, foldl_append, foldl_cons, foldl_nil, hc, lastHolds, getLast?_concat]
    rfl

end Assumptions

section Conditions

theorem assertEntry_parts (guard : Str) (parts : List Part) (s : Conditions) (c : Connective)
    (hs : s.concatenator = c.text) :
    (parts.map Part.entry).foldl (assertEntry n guard) s = { s with
        violationCond := s.violationCond ++
        (parts.filterMap Part.line?).map (lineText (assertAction n) guard)
        concatenator := (parts.foldl Part.next c).text } := by
  induction parts generalizing s c with
  | nil => simp [← hs]
  | cons p parts ih =>
    rw [map_cons, foldl_cons]
    cases p with
    | line d =>
      rw [ih (assertEntry n guard s (Part.line d).entry) c hs]
      simp [assertEntry, Part.entry, Part.line?, Part.next, lineText]
    | connective d =>
      rw [ih (assertEntry n guard s (Part.connective d).entry) d rfl]
      simp [assertEntry, Part.entry, Part.line?, Part.next, filterMap_cons]

variable (specAssert : Str)

theorem condition_eq (mode : Mode) (p : Parsed) :
    condition n specAssert mode p.entity =
      join p.connective.text (p.lines.map (lineText (assertAction n)
        (assumeString n (p.assumes.map fun c => (clauseTexts c, kind c))))) := by
  have hparts := assertEntry_parts (n := n)
    (assumeString n (p.assumes.map fun c => (clauseTexts c, kind c))) p.parts
    ⟨[], [], [], " || ".toList, 0⟩ .or rfl
  have hsingle : (decide ([p.entity].length = 2) && isIn "||".toList specAssert) = false := rfl
  have hfields : (interpret n [p.entity] specAssert [] mode).violationCond =
        p.lines.map (lineText (assertAction n)
          (assumeString n (p.assumes.map fun c => (clauseTexts c, kind c)))) ∧
      (interpret n [p.entity] specAssert [] mode).concatenator = p.connective.text := by
    rw [interpret, hsingle, foldl_cons, foldl_nil, interpretEntity, Parsed.entity, hparts]
    cases mode <;> exact ⟨rfl, rfl⟩
  rw [condition, hfields.1, hfields.2]

def combined (p : Parsed) (v : Clause → Bool) : Bool :=
  !p.lines.isEmpty && p.connective.apply (p.lines.map v)

theorem evaluate_join {α : Type} (conn : Connective) {text : α → Str} {v : α → Bool} {c : α}
    {cs : List α} (h : ∀ d ∈ c :: cs, Reads (literalValue σ) (text d) (v d)) :
    evaluate (literalValue σ) (join conn.text ((c :: cs).map text)) =
      some (conn.apply ((c :: cs).map v)) := by
  have hreads : ∀ q ∈ (text c, v c) :: cs.map (fun d => (text d, v d)),
      Reads (literalValue σ) q.1 q.2 := by
    intro q hq
    obtain ⟨d, hd, rfl⟩ := mem_map.mp (show q ∈ (c :: cs).map fun d => (text d, v d) from hq)
    exact h d hd
  have htexts : ((text c, v c) :: cs.map fun d => (text d, v d)).map Prod.fst =
    (c :: cs).map text := by simp
  have hvalues : ((text c, v c) :: cs.map fun d => (text d, v d)).map Prod.snd = (c :: cs).map v :=
    by simp
  rw [← htexts, ← hvalues]
  cases conn with
  | and =>
    rw [Connective.apply, all_map]
    exact evaluate_and hreads
  | or =>
    rw [Connective.apply, any_map]
    exact evaluate_or hreads

theorem evaluate_condition (mode : Mode)
    (hg : Guards σ (assumeString n (p.assumes.map fun c => (clauseTexts c, kind c))) g)
    (hb : ∀ c ∈ p.lines, ∀ l ∈ c.literals, Translated (assertAction n) τ σ l) :
    evaluate (literalValue σ) (condition n specAssert mode p.entity) =
      if p.lines = [] then none else some (combined p (guarded g τ)) := by
  rw [condition_eq, combined]
  cases hlines : p.lines with
  | nil => rfl
  | cons c cs =>
    rw [hlines] at hb
    rw [evaluate_join p.connective fun d hd => reads_line hg (hb d hd)]
    simp

theorem evaluate_condition_iff (mode : Mode)
    (hg : Guards σ (assumeString n (p.assumes.map fun c => (clauseTexts c, kind c))) g)
    (hb : ∀ c ∈ p.lines, ∀ l ∈ c.literals, Translated (assertAction n) τ σ l) :
    evaluate (literalValue σ) (condition n specAssert mode p.entity) = some true ↔
      combined p (guarded g τ) = true := by
  rw [evaluate_condition specAssert mode hg hb]
  by_cases hlines : p.lines = []
  · simp [hlines, combined]
  · simp [hlines]

end Conditions

section Assertions

theorem lines_parsed (b : Block) : (parsed b).lines = b.assertions.map Assertion.violation := by
  rw [Parsed.lines, parsed, Block.assertions, filterMap_map, map_filterMap]
  refine congrArg (fun f => b.items.filterMap f) (funext fun i => ?_)
  cases i <;> rfl

theorem next_separated {c : Connective} {is : List Item} (h : Separated c is) :
    (is.map part).foldl Part.next c.dual = c.dual := by
  induction h with
  | last a => rfl
  | next a _ ih => exact ih

theorem next_juxtaposed {is : List Item} (h : ∀ i ∈ is, i.separator? = none) (c : Connective) :
    (is.map part).foldl Part.next c = c := by
  induction is with
  | nil => rfl
  | cons i is ih =>
    obtain ⟨hi, his⟩ := forall_mem_cons.mp h
    cases i with
    | assertion a => exact ih his
    | separator d => cases hi

theorem connective_parsed (h : b.Uniform) : (parsed b).connective = b.connective.dual := by
  rw [Parsed.connective, parsed, Block.connective]
  rw [Block.Uniform] at h
  generalize b.items = is at h ⊢
  rcases h with h | ⟨c, h⟩
  · rw [next_juxtaposed h, findSome?_eq_none_iff.mpr h]
    rfl
  · cases h with
    | last a => rfl
    | next a h => exact next_separated h

theorem combined_parsed (h : b.Uniform) (hne : b.assertions ≠ []) :
    combined (parsed b) (guarded true τ) = !b.holds τ := by
  have hvalues : (parsed b).lines.map (guarded true τ) =
      (b.assertions.map fun a => a.holds τ).map (!·) := by
    rw [lines_parsed, map_map, map_map]
    refine map_congr_left fun a _ => ?_
    exact (guarded_true _).trans (a.violation_holds τ)
  have hlines : (parsed b).lines.isEmpty = false := by
    rw [lines_parsed]
    simpa using hne
  rw [combined, hlines, hvalues, connective_parsed h, Connective.apply_not]
  rfl

theorem violation_translated {a : Assertion}
    (hmeta : ∀ l ∈ a.clause.literals, isIn ".meta.".toList (raw l).text = false)
    (hatom : ∀ l ∈ a.clause.literals, σ (assertLiteral n (raw l)).atom = τ (raw l).atom) :
    ∀ l ∈ a.violation.literals, Translated (assertAction n) τ σ l := by
  obtain ⟨c, negated⟩ := a
  cases negated with
  | true =>
    intro l hl
    exact assert_translated (hmeta l hl) (hatom l hl)
  | false =>
    intro l hl
    have hl : l ∈ c.literals.map Literal.negate := hl
    obtain ⟨k, hk, rfl⟩ := mem_map.mp hl
    exact assert_translated_negate (hmeta k hk) (hatom k hk)

theorem combined_empty (h : b.Uniform) (hne : b.assertions = []) :
    b.holds τ = true ∧ ∀ v, combined (parsed b) v = false := by
  refine ⟨?_, fun v => by simp [combined, lines_parsed, hne]⟩
  have hconnective : b.connective = .and := by
    rw [Block.connective]
    rw [Block.assertions] at hne
    rw [Block.Uniform] at h
    generalize b.items = is at h hne ⊢
    rcases h with h | ⟨c, h⟩
    · rw [findSome?_eq_none_iff.mpr h]
      rfl
    · cases h <;> cases hne
  rw [Block.holds, hne, hconnective]
  rfl

theorem combined_guarded (h : b.Uniform) (g : Bool) :
    combined (parsed b) (guarded g τ) =
      if g then !b.holds τ else combined (parsed b) (escapes τ) := by
  cases g with
  | true =>
    by_cases hne : b.assertions = []
    · obtain ⟨hholds, hnone⟩ := combined_empty (τ := τ) h hne
      rw [hnone, hholds]
      rfl
    · exact combined_parsed h hne
  | false =>
    have hfalse : guarded false τ = escapes τ := funext guarded_false
    rw [hfalse]
    rfl

theorem holds_of_escapes (h : escapes τ c = true) : c.holds τ = true := by
  rw [escapes] at h
  rw [Clause.holds]
  cases hconn : c.connective with
  | and =>
    rw [hconn] at h
    cases h
  | or =>
    rw [hconn] at h
    have hrest : (c.rest.map fun l => (raw l).holds τ).any id = true := by
      rw [any_map]
      exact h
    rw [Clause.literals, map_cons, Connective.apply, any_cons, hrest, Bool.or_true]

/-- A violation behind a false guard is one. -/
theorem fails_of_escapes (h : b.Uniform) (hescapes : combined (parsed b) (escapes τ) = true) :
    b.holds τ = false := by
  by_cases hne : b.assertions = []
  · cases hescapes.symm.trans ((combined_empty (τ := τ) h hne).2 _)
  · have hholds : combined (parsed b) (guarded true τ) = true := by
      rw [combined, Bool.and_eq_true] at hescapes ⊢
      refine ⟨hescapes.1, ?_⟩
      have hlines := hescapes.2
      cases hconn : (parsed b).connective with
      | and =>
        simp only [hconn, Connective.apply, all_map, all_eq_true, Function.comp_def,
          id_eq] at hlines ⊢
        exact fun c hc => (guarded_true c).trans (holds_of_escapes (hlines c hc))
      | or =>
        simp only [hconn, Connective.apply, any_map, any_eq_true, Function.comp_def,
          id_eq] at hlines ⊢
        obtain ⟨c, hc, hvalue⟩ := hlines
        exact ⟨c, hc, (guarded_true c).trans (holds_of_escapes hvalue)⟩
    rw [combined_parsed h hne] at hholds
    simpa using hholds

/-- The last line of which anything is written is a disjunction that holds by skipped literals
only. -/
def OnlySkipped (n : Copies) (τ : Atom → Bool) (assumes : List Clause) : Prop :=
  ∃ c ∈ (assumes.filter fun c => written n c ≠ []).getLast?,
    c.connective = .or ∧ ∀ l ∈ written n c, (raw l).holds τ = false

theorem guardValue_concat (n : Copies) (assumes : List Clause) (c : Clause) :
    guardValue n τ (assumes ++ [c]) = if (written n c).isEmpty then guardValue n τ assumes
      else c.connective.apply ((written n c).map fun l => (raw l).holds τ) := by
  rw [guardValue, foldl_append]
  rfl

/-- What is written of a conjunction that holds is true. -/
theorem apply_written (h : c.holds τ = true) :
    c.connective.apply ((written n c).map fun l => (raw l).holds τ) = false ↔
      c.connective = .or ∧ ∀ l ∈ written n c, (raw l).holds τ = false := by
  rw [Clause.holds] at h
  cases hconn : c.connective with
  | and =>
    rw [hconn, Connective.apply, all_map, all_eq_true] at h
    have hall : ((written n c).map fun l => (raw l).holds τ).all id = true := by
      rw [all_map, all_eq_true]
      exact fun l hl => h l (mem_filter.mp hl).1
    simp [Connective.apply, hall]
  | or => simp [Connective.apply]

theorem guardValue_eq_false (h : ∀ c ∈ assumes, c.holds τ = true) :
    guardValue n τ assumes = false ↔ OnlySkipped n τ assumes := by
  induction assumes using List.reverseRecOn with
  | nil => simp [guardValue, OnlySkipped]
  | append_singleton cs c ih =>
    obtain ⟨hcs, hc⟩ := forall_mem_append.mp h
    rw [guardValue_concat, OnlySkipped, filter_append]
    by_cases hwritten : written n c = []
    · rw [if_pos (List.isEmpty_iff.mpr hwritten), ih hcs, OnlySkipped]
      simp [hwritten]
    · rw [if_neg (mt List.isEmpty_iff.mp hwritten), apply_written (hc c mem_cons_self)]
      simp [hwritten]

namespace Example

def field (text : String) (h : IsTerm text.toList ∧
    text.toList.all (· ∉ ";\x7b\x7d>\n".toList) = true ∧ text.toList.getLast? ≠ some ' ') : Term :=
  ⟨text.toList, h.1, forall_chars h.2.1, fun _ hc heq => h.2.2 (heq ▸ hc)⟩

def valid : Literal Term :=
  ⟨true, .unary (field "$cur.in.ipv4.isValid()" (by decide))⟩

def samePacket : Literal Term :=
  ⟨true, .equal (field "$cur.in.packet" (by decide))
    (field "$old.in.packet" (by decide))⟩

def samePort : Literal Term :=
  ⟨true, .equal (field "$cur.eg.sm.egress_spec" (by decide))
    (field "$new.eg.sm.egress_spec" (by decide))⟩

def removed : Literal Term :=
  ⟨false, .unary (field "$cur.eg.tcp.isValid()" (by decide))⟩

def sawOld : Literal Term :=
  ⟨true, .equal (field "$cur.eg.sawOld" (by decide))
    (field "1w1" (by decide))⟩

def sawNew : Literal Term :=
  ⟨true, .equal (field "$cur.eg.sawNew" (by decide))
    (field "1w1" (by decide))⟩

def consistency : Block where
  name := "consistency".toList
  name_ne_nil := by decide
  name_chars := forall_chars (by decide)
  header := ⟨4, 0⟩
  assumeLines := [(⟨8, 1⟩, some ⟨samePacket, [valid], .and⟩)]
  arrow := ⟨8, 1⟩
  body := [(⟨8, 0⟩, some (.assertion ⟨⟨samePort, [removed], .and⟩, false⟩)),
    (⟨8, 0⟩, some (.separator .or)),
    (⟨8, 0⟩, some (.assertion ⟨⟨sawOld, [sawNew], .or⟩, true⟩))]
  footer := ⟨4, 0⟩

def copies : Copies := ⟨[], 1, 2, 3⟩

/-- Headers are valid, the packets are the same and the old path was seen; other fields differ. -/
def source : Atom → Bool
  | .truth _ => true
  | .equal a _ => a = "$cur.eg.sawOld".toList || a = "$cur.in.packet".toList

def target : Atom → Bool
  | .truth _ => true
  | .equal a _ => a = "hdrs_1.version.sawOld".toList

/-- The same packets, or a valid header. -/
def alternative : Block :=
  { consistency with assumeLines := [(⟨8, 1⟩, some ⟨samePacket, [valid], .or⟩)] }

/-- No header is valid, the packets are the same and the old path was seen; other fields differ. -/
def invalid : Atom → Bool
  | .truth _ => false
  | .equal a b => source (.equal a b)

def invalidTarget : Atom → Bool
  | .truth _ => false
  | .equal a b => target (.equal a b)

end Example

end Assertions

/-- A condition is false outside the assumptions exactly in three cases: there is no such
assignment, the last assumption line holds and the assertion with it, or the last line
fails and no disjunction has a true literal behind the first. -/
theorem guard_covers_iff (n : Copies) (specAssert : Str) (mode : Mode) {lines : List Str}
    {p : Parsed} (hp : parseEntity lines = some p.entity) (τ σ : Atom → Bool)
    (hassume : ∀ c ∈ p.assumes, ∀ l ∈ c.literals, Translated (assumeAction n) τ σ l)
    (hassert : ∀ c ∈ p.lines, ∀ l ∈ c.literals, Translated (assertAction n) τ σ l) :
    ((∃ c ∈ p.assumes, c.holds τ = false) → ∀ e ∈ parseEntity lines,
        evaluate (literalValue σ) (condition n specAssert mode e) ≠ some true) ↔
      (∀ c ∈ p.assumes, c.holds τ = true) ∨
      (lastHolds τ p.assumes = true ∧ combined p (fun c => c.holds τ) = false) ∨
      (lastHolds τ p.assumes = false ∧ combined p (escapes τ) = false) := by
  have hguard := guards_assumes fun c hc l hl => Or.inr (hassume c hc l hl)
  rw [guardValue_last hassume] at hguard
  have hcond : (∀ e ∈ parseEntity lines,
      evaluate (literalValue σ) (condition n specAssert mode e) ≠ some true) ↔
      combined p (guarded (lastHolds τ p.assumes) τ) = false := by
    rw [hp, ← Bool.not_eq_true, ← evaluate_condition_iff specAssert mode hguard hassert]
    simp
  have hall : (∃ c ∈ p.assumes, c.holds τ = false) ↔ ¬∀ c ∈ p.assumes, c.holds τ = true := by
    simp
  have hvalue : combined p (guarded (lastHolds τ p.assumes) τ) = false ↔
      (lastHolds τ p.assumes = true ∧ combined p (fun c => c.holds τ) = false) ∨
      (lastHolds τ p.assumes = false ∧ combined p (escapes τ) = false) := by
    cases lastHolds τ p.assumes with
    | true =>
      have htrue : guarded true τ = fun c => c.holds τ := funext guarded_true
      simp [htrue]
    | false =>
      have hfalse : guarded false τ = escapes τ := funext guarded_false
      simp [hfalse]
  rw [hcond, hall, ← or_iff_not_imp_left, hvalue]

namespace Counterexample

open Example (field)

def ipv4Valid : Literal Term :=
  ⟨true, .unary (field "$cur.in.ipv4.isValid()" (by decide))⟩

def tcpValid : Literal Term :=
  ⟨true, .unary (field "$cur.in.tcp.isValid()" (by decide))⟩

def sameTtl : Literal Term :=
  ⟨true, .equal (field "$cur.eg.ipv4.ttl" (by decide)) (field "$old.eg.ipv4.ttl" (by decide))⟩

def keepsTtl : Block where
  name := "keeps_ttl".toList
  name_ne_nil := by decide
  name_chars := forall_chars (by decide)
  header := ⟨4, 0⟩
  assumeLines := [(⟨8, 0⟩, some ⟨ipv4Valid, [], .and⟩), (⟨8, 0⟩, some ⟨tcpValid, [], .and⟩)]
  arrow := ⟨8, 0⟩
  body := [(⟨8, 0⟩, some (.assertion ⟨⟨sameTtl, [], .and⟩, false⟩))]
  footer := ⟨4, 0⟩

def copies : Copies := ⟨[], 1, 2, 3⟩

/-- A TCP header without an IPv4 header, and different fields. -/
def source (a : Atom) : Bool := a = .truth "$cur.in.tcp.isValid()".toList

def target (a : Atom) : Bool := a = .truth "hdrs_.tcp.isValid()".toList

end Counterexample

open Counterexample in
theorem unmet_assumptions_guard :
    (∃ c ∈ keepsTtl.assumes, c.holds (fun _ => false) = false) ∧
    ∀ e ∈ parseEntity keepsTtl.lines,
      evaluate (literalValue fun _ => false) (condition copies "keeps_ttl".toList .synthesis e) ≠
        some true := by
  have hunmet : ∃ c ∈ (parsed keepsTtl).assumes, c.holds (fun _ => false) = false := by
    decide +kernel
  have hassume : ∀ c ∈ (parsed keepsTtl).assumes, ∀ l ∈ c.literals, Ordinary (raw l).text := by
    decide +kernel
  have hassert : ∀ c ∈ (parsed keepsTtl).lines, ∀ l ∈ c.literals,
      isIn ".meta.".toList (raw l).text = false := by decide +kernel
  exact ⟨hunmet, (guard_covers_iff copies "keeps_ttl".toList .synthesis (parse_lines keepsTtl)
    (fun _ => false) (fun _ => false)
    (fun c hc l hl => ordinary_translated (hassume c hc l hl) rfl)
    (fun c hc l hl => assert_translated (hassert c hc l hl) rfl)).mpr
      (Or.inr (Or.inr ⟨by decide +kernel, by decide +kernel⟩)) hunmet⟩

open Counterexample in
theorem second_assumption_overwrites_first :
    (∃ c ∈ keepsTtl.assumes, c.holds source = false) ∧
    (∀ c ∈ keepsTtl.assumes, ∀ l ∈ c.literals, Ordinary (raw l).text ∧
      (assumeAction copies (raw l).text).bind (literalValue target) = some ((raw l).holds source)) ∧
    (parseEntity keepsTtl.lines).map
        (fun e => condition copies "keeps_ttl".toList .synthesis e) =
      some "((hdrs_.tcp.isValid()) && hdrs_1.ipv4.ttl != hdrs_2.ipv4.ttl)".toList ∧
    evaluate (literalValue target)
        "((hdrs_.tcp.isValid()) && hdrs_1.ipv4.ttl != hdrs_2.ipv4.ttl)".toList = some true := by
  decide +kernel

end SpecViolation
