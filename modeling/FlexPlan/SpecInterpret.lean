import FlexPlan.SpecParser

/-!
# Interpreting parsed blocks

References are translated by textual replacement, assumption lines become a guard text and every
assertion entry one parenthesized condition.
-/
namespace SpecInterpret

open PythonText ConditionText SpecLanguage SpecParser List

inductive Mode where
  | synthesis
  | verify
  | distill
  deriving DecidableEq, Repr

/-- The copies of the program and the metadata fields they have. -/
structure Copies where
  metadataRealList : List Str
  indexCur : ℕ
  indexOld : ℕ
  indexNew : ℕ

abbrev Rules := List (Str × Str)

def rewriteAll (rules : Rules) (text : Str) : Str :=
  rules.foldl (fun text r => replace r.1 r.2 text) text

variable (n : Copies)

def standardRules : Rules :=
  [("$cur.eg.sm".toList, "sm_".toList ++ ofNat n.indexCur),
   ("$old.eg.sm".toList, "sm_".toList ++ ofNat n.indexOld),
   ("$new.eg.sm".toList, "sm_".toList ++ ofNat n.indexNew)]

def headerRules : Rules :=
  [("$cur.eg".toList, "hdrs_".toList ++ ofNat n.indexCur),
   ("$old.eg".toList, "hdrs_".toList ++ ofNat n.indexOld),
   ("$new.eg".toList, "hdrs_".toList ++ ofNat n.indexNew),
   ("$cur.in".toList, "hdrs_".toList),
   ("$old.in".toList, "hdrs_".toList),
   ("$new.in".toList, "hdrs_".toList)]

def metaRules : Rules :=
  [("$cur.eg.meta".toList, "metas_".toList ++ ofNat n.indexCur),
   ("$old.eg.meta".toList, "metas_".toList ++ ofNat n.indexOld),
   ("$new.eg.meta".toList, "metas_".toList ++ ofNat n.indexNew)]

def inputMetaRules : Rules :=
  [("$cur.eg.meta".toList, "metas_".toList),
   ("$old.eg.meta".toList, "metas_".toList),
   ("$new.eg.meta".toList, "metas_".toList)]

def sawNewRules : Rules :=
  [("$cur.eg.sawNew".toList, "hdrs_".toList ++ ofNat n.indexCur ++ ".version.sawNew".toList)]

def sawOldRules : Rules :=
  [("$cur.eg.sawOld".toList, "hdrs_".toList ++ ofNat n.indexCur ++ ".version.sawOld".toList)]

/-- Where the name of a metadata field begins; a reference on neither side is skipped. -/
def metaStart? (action : Str) : Option ℤ :=
  if isIn ".eg.".toList action then some (find ".eg.meta.".toList action + 9)
  else if isIn ".ig.".toList action then some (find ".ig.meta.".toList action + 9)
  else none

/-- Metadata fields are looked up under their flattened names. -/
def metaAction (rules : Rules) (action : Str) : Option Str :=
  (metaStart? action).map fun start =>
    let varName := slice action start (find " ".toList action)
    let target := join "_".toList (split ".".toList varName)
    rewriteAll rules (n.metadataRealList.foldl
      (fun action elem => if isIn target elem then replace varName elem action else action) action)

def hitAction (action : Str) : Str :=
  if isIn "hit__".toList action then
    if isIn "!".toList action then sliceFrom action 1 ++ " == 8w0".toList
    else action ++ " == 8w1".toList
  else action

def assumeAction (action : Str) : Option Str :=
  if action = "placeholder".toList || isIn "packet".toList action then none
  else if isIn "sm.".toList (hitAction action) then
    some (rewriteAll (standardRules n) (hitAction action))
  else if isIn ".meta.".toList (hitAction action) then
    metaAction n (metaRules n ++ inputMetaRules) (hitAction action)
  else some (rewriteAll (headerRules n) (hitAction action))

def assertAction (action : Str) : Option Str :=
  if isIn "sawNew".toList action then some (rewriteAll (sawNewRules n) action)
  else if isIn "sawOld".toList action then some (rewriteAll (sawOldRules n) action)
  else if isIn "sm.".toList action then some (rewriteAll (standardRules n) action)
  else if isIn ".meta.".toList action then metaAction n (metaRules n) action
  else some (rewriteAll (headerRules n) action)

def kindJoin : Kind → List Str → Str
  | .and, parts => join " && ".toList parts
  | .or, parts => join " || ".toList parts
  | .unary, parts => join " ".toList parts

/-- A line with an effect replaces the text of the lines before. -/
def assumeLine (before : Str) (a : List Str × Kind) : Str :=
  match a.1.filterMap (assumeAction n) with
  | [] => before
  | c :: cs => "(".toList ++ kindJoin a.2 (c :: cs) ++ ") && ".toList

def assumeString (assumes : List (List Str × Kind)) : Str := assumes.foldl (assumeLine n) []

structure Conditions where
  violationCond : List Str
  violationCondOld : List Str
  violationCondNew : List Str
  concatenator : Str
  countTemp : ℕ
  deriving DecidableEq, Repr

def assertEntry (guard : Str) (s : Conditions) : Entry → Conditions
  | .concat connective => { s with concatenator := connective }
  | .items texts kind =>
    { s with violationCond := s.violationCond ++
        ["(".toList ++ guard ++ kindJoin kind (texts.filterMap (assertAction n)) ++ ")".toList] }

/-- Two blocks under a disjunction go into separate programs when cores are learned. -/
def separate (twoDefines : Bool) (s : Conditions) : Conditions :=
  let moved :=
    if !twoDefines then s
    else if s.countTemp = 0 then
      { s with violationCondOld := s.violationCond, violationCond := [] }
    else if s.countTemp = 1 then
      { s with violationCondNew := s.violationCond, violationCond := [] }
    else s
  { moved with countTemp := s.countTemp + 1 }

def interpretEntity (mode : Mode) (twoDefines : Bool) (s : Conditions) (e : Entity) : Conditions :=
  let t := e.asserts.foldl (assertEntry n (assumeString n e.assumes)) s
  if mode = .distill then separate twoDefines t else t

def interpret (specList : List Entity) (specAssert : Str) (violationCond : List Str)
    (mode : Mode) : Conditions :=
  let twoDefines := specList.length = 2 && isIn "||".toList specAssert
  specList.foldl (interpretEntity n mode twoDefines) ⟨violationCond, [], [], " || ".toList, 0⟩

/-- The condition under which a state of the program is marked as a violation. -/
def condition (specAssert : Str) (mode : Mode) (e : Entity) : Str :=
  let c := interpret n [e] specAssert [] mode
  join c.concatenator c.violationCond

section Rewriting

/-- Replacements that keep operators and parentheses where they are. -/
def Clean (rules : Rules) : Prop := ∀ r ∈ rules, IsName r.1 ∧ IsName r.2

theorem isName_iff : IsName s ↔ s ≠ [] ∧ s.all (· ∉ "() !=&|".toList) = true :=
  ⟨fun h => ⟨h.ne_nil, all_eq_true.mpr fun c hc => decide_eq_true (h.chars c hc)⟩,
    fun h => ⟨h.1, forall_chars h.2⟩⟩

instance (s : Str) : Decidable (IsName s) := decidable_of_iff' _ isName_iff

theorem isName_indexed (hs : IsName s) (k : ℕ) : IsName (s ++ ofNat k) := by
  refine ⟨append_ne_nil_of_left_ne_nil hs.ne_nil _, ?_⟩
  intro c hc
  rcases mem_append.mp hc with hc | hc
  · exact hs.chars c hc
  · have hdigit : c.isDigit = true :=
      Nat.isDigit_of_mem_toDigits (b := 10) (by decide) (by decide) hc
    have hnot : ∀ x ∈ "() !=&|".toList, x.isDigit = false := forall_chars (by decide)
    intro hop
    rw [hnot c hop] at hdigit
    cases hdigit

theorem isName_append (hs : IsName s) (ht : IsName t) : IsName (s ++ t) := by
  refine ⟨append_ne_nil_of_left_ne_nil hs.ne_nil _, ?_⟩
  intro c hc
  exact (mem_append.mp hc).elim (hs.chars c) (ht.chars c)

theorem clean_indexed {a b c new : Str} (ha : IsName a) (hb : IsName b) (hc : IsName c)
    (hnew : IsName new)
    (i j k : ℕ) : Clean [(a, new ++ ofNat i), (b, new ++ ofNat j), (c, new ++ ofNat k)] := by
  intro r hr
  simp only [mem_cons, not_mem_nil, or_false] at hr
  rcases hr with rfl | rfl | rfl
  · exact ⟨ha, isName_indexed hnew i⟩
  · exact ⟨hb, isName_indexed hnew j⟩
  · exact ⟨hc, isName_indexed hnew k⟩

theorem clean_standard : Clean (standardRules n) :=
  clean_indexed (by decide) (by decide) (by decide) (by decide) _ _ _

theorem clean_header : Clean (headerRules n) := by
  have hindexed : Clean [("$cur.eg".toList, "hdrs_".toList ++ ofNat n.indexCur),
      ("$old.eg".toList, "hdrs_".toList ++ ofNat n.indexOld),
      ("$new.eg".toList, "hdrs_".toList ++ ofNat n.indexNew)] :=
    clean_indexed (by decide) (by decide) (by decide) (by decide) _ _ _
  have hinput : Clean [("$cur.in".toList, "hdrs_".toList), ("$old.in".toList, "hdrs_".toList),
      ("$new.in".toList, "hdrs_".toList)] := by
    unfold Clean
    decide
  intro r hr
  exact (mem_append.mp hr).elim (hindexed r) (hinput r)

theorem clean_saw {old new : Str} (hold : IsName old) (hnew : IsName new) :
    Clean [(old, "hdrs_".toList ++ ofNat n.indexCur ++ new)] := by
  intro r hr
  rw [mem_singleton.mp hr]
  exact ⟨hold, isName_append (isName_indexed (by decide) _) hnew⟩

theorem IsName.disjoint (hs : IsName s) : ∀ c ∈ marks, c ∉ s := by
  intro c hc h
  have hsub : ∀ x ∈ marks, x ∈ "() !=&|".toList := forall_chars (by decide)
  exact hs.chars c h (hsub c hc)

theorem map_comp (f g : Str → Str) (l : Literal Str) : (l.map f).map g = l.map (g ∘ f) := by
  obtain ⟨positive, shape⟩ := l
  cases shape <;> rfl

theorem rewriteAll_text {rules : Rules} (h : Clean rules) (l : Literal Str) :
    rewriteAll rules l.text = (l.map (rewriteAll rules)).text := by
  induction rules generalizing l with
  | nil =>
    obtain ⟨positive, shape⟩ := l
    cases shape <;> rfl
  | cons r rules ih =>
    obtain ⟨hr, hrules⟩ := forall_mem_cons.mp h
    have hstep := Literal.replace_text hr.1.ne_nil (IsName.disjoint hr.1) r.2 l
    calc rewriteAll (r :: rules) l.text = rewriteAll rules (replace r.1 r.2 l.text) := rfl
      _ = ((l.map (replace r.1 r.2)).map (rewriteAll rules)).text := by rw [hstep, ih hrules]
      _ = (l.map (rewriteAll (r :: rules))).text := by rw [map_comp]; rfl

theorem isTerm_rewriteAll {rules : Rules} (h : Clean rules) (ht : IsTerm t) :
    IsTerm (rewriteAll rules t) := by
  induction rules generalizing t with
  | nil => exact ht
  | cons r rules ih =>
    obtain ⟨hr, hrules⟩ := forall_mem_cons.mp h
    exact ih hrules (ht.replace hr.1 hr.2)

theorem terms_map (f : Str → Str) (l : Literal Str) : (l.map f).terms = l.terms.map f := by
  obtain ⟨positive, shape⟩ := l
  cases shape <;> rfl

end Rewriting

section Translation

/-- The text emitted for a literal is a literal over terms that has the same truth value. -/
def Translated (action : Str → Option Str) (τ σ : Atom → Bool) (l : Literal Term) : Prop :=
  ∃ out : Literal Str, action (raw l).text = some out.text ∧ (∀ t ∈ out.terms, IsTerm t) ∧
    out.holds σ = (raw l).holds τ

variable {τ σ : Atom → Bool} {l : Literal Term}

theorem translated_of_rules {action : Str → Option Str} {rules : Rules} (hclean : Clean rules)
    (haction : action (raw l).text = some (rewriteAll rules (raw l).text))
    (hatom : σ ((raw l).map (rewriteAll rules)).atom = τ (raw l).atom) :
    Translated action τ σ l := by
  refine ⟨(raw l).map (rewriteAll rules), ?_, ?_, ?_⟩
  · rw [haction, rewriteAll_text hclean]
  · intro t ht
    rw [terms_map] at ht
    obtain ⟨s, hs, rfl⟩ := mem_map.mp ht
    exact isTerm_rewriteAll hclean (isTerm_raw l s hs)
  · rw [Literal.holds, Literal.holds, hatom]
    rfl

/-- The replacements for an assertion without metadata fields. -/
def assertRules (action : Str) : Rules :=
  if isIn "sawNew".toList action then sawNewRules n
  else if isIn "sawOld".toList action then sawOldRules n
  else if isIn "sm.".toList action then standardRules n
  else headerRules n

/-- The replacements for an assumption about header fields or standard metadata. -/
def assumeRules (action : Str) : Rules :=
  if isIn "sm.".toList action then standardRules n else headerRules n

theorem clean_assert (action : Str) : Clean (assertRules n action) := by
  unfold assertRules
  split_ifs
  · exact clean_saw n (by decide) (by decide)
  · exact clean_saw n (by decide) (by decide)
  · exact clean_standard n
  · exact clean_header n

theorem clean_assume (action : Str) : Clean (assumeRules n action) := by
  unfold assumeRules
  split_ifs
  · exact clean_standard n
  · exact clean_header n

theorem assertAction_eq {action : Str} (h : isIn ".meta.".toList action = false) :
    assertAction n action = some (rewriteAll (assertRules n action) action) := by
  rw [assertAction, assertRules]
  by_cases hnew : isIn "sawNew".toList action = true
  · rw [if_pos hnew, if_pos hnew]
  rw [if_neg hnew, if_neg hnew]
  by_cases hold : isIn "sawOld".toList action = true
  · rw [if_pos hold, if_pos hold]
  rw [if_neg hold, if_neg hold]
  by_cases hsm : isIn "sm.".toList action = true
  · rw [if_pos hsm, if_pos hsm]
  · rw [if_neg hsm, if_neg hsm, h, if_neg (by decide)]

/-- An assumption that is neither skipped nor a table hit nor about metadata. -/
structure Ordinary (action : Str) : Prop where
  not_placeholder : action ≠ "placeholder".toList
  not_packet : isIn "packet".toList action = false
  not_hit : isIn "hit__".toList action = false
  not_meta : isIn ".meta.".toList action = false

instance (action : Str) : Decidable (Ordinary action) :=
  decidable_of_iff (action ≠ "placeholder".toList ∧ isIn "packet".toList action = false ∧
      isIn "hit__".toList action = false ∧ isIn ".meta.".toList action = false)
    ⟨fun h => ⟨h.1, h.2.1, h.2.2.1, h.2.2.2⟩,
      fun h => ⟨h.not_placeholder, h.not_packet, h.not_hit, h.not_meta⟩⟩

theorem assumeAction_eq {action : Str} (h : Ordinary action) :
    assumeAction n action = some (rewriteAll (assumeRules n action) action) := by
  have hhit : hitAction action = action := by
    rw [hitAction, h.not_hit]
    rfl
  have hkept : (decide (action = "placeholder".toList) || isIn "packet".toList action) = false := by
    rw [h.not_packet, decide_eq_false h.not_placeholder]
    rfl
  rw [assumeAction, assumeRules, hkept, hhit, if_neg (by decide)]
  by_cases hsm : isIn "sm.".toList action = true
  · rw [if_pos hsm, if_pos hsm]
  · rw [if_neg hsm, if_neg hsm, h.not_meta, if_neg (by decide)]

def assertLiteral (l : Literal Str) : Literal Str := l.map (rewriteAll (assertRules n l.text))

def assumeLiteral (l : Literal Str) : Literal Str := l.map (rewriteAll (assumeRules n l.text))

variable {n}

theorem ordinary_translated (h : Ordinary (raw l).text)
    (hatom : σ (assumeLiteral n (raw l)).atom = τ (raw l).atom) :
    Translated (assumeAction n) τ σ l :=
  translated_of_rules (clean_assume n _) (assumeAction_eq n h) hatom

theorem assert_translated (h : isIn ".meta.".toList (raw l).text = false)
    (hatom : σ (assertLiteral n (raw l)).atom = τ (raw l).atom) :
    Translated (assertAction n) τ σ l :=
  translated_of_rules (clean_assert n _) (assertAction_eq n h) hatom

theorem isIn_negate {needle : Str} (h : IsName needle) (l : Literal Str) :
    isIn needle l.negate.text = isIn needle l.text := by
  rw [Literal.isIn_text h.ne_nil (IsName.disjoint h),
    Literal.isIn_text h.ne_nil (IsName.disjoint h)]
  rfl

theorem assertRules_negate (l : Literal Str) :
    assertRules n l.negate.text = assertRules n l.text := by
  unfold assertRules
  rw [isIn_negate (by decide), isIn_negate (by decide), isIn_negate (by decide)]

theorem assert_translated_negate (h : isIn ".meta.".toList (raw l).text = false)
    (hatom : σ (assertLiteral n (raw l)).atom = τ (raw l).atom) :
    Translated (assertAction n) τ σ l.negate := by
  have hmeta : isIn ".meta.".toList (raw l.negate).text = false := by
    rw [raw_negate, isIn_negate (by decide)]
    exact h
  refine assert_translated hmeta ?_
  rw [raw_negate, assertLiteral, assertRules_negate]
  exact hatom

end Translation

end SpecInterpret
