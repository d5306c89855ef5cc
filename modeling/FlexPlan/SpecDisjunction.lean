import FlexPlan.SpecViolation

/-!
# Two blocks under a disjunction

When cores are learned the conditions of `assert A || B` go into two programs; when a plan is
synthesized they are joined in one list. One concatenator, the last one written in either block,
joins all of them.
-/
namespace SpecDisjunction

open PythonText ConditionText SpecLanguage SpecParser SpecInterpret SpecViolation List

/-- The test under which `synthesizer_spec` marks an intermediate state. -/
def subviolation (n : Copies) (specList : List Entity) (specAssert : Str) : Str :=
  let c := interpret n specList specAssert [] .synthesis
  join c.concatenator c.violationCond

/-- The test in the program that `distill_spec` writes for the first block. -/
def distillOld (n : Copies) (specList : List Entity) (specAssert : Str) : Str :=
  let c := interpret n specList specAssert [] .distill
  join c.concatenator c.violationCondOld

def distillNew (n : Copies) (specList : List Entity) (specAssert : Str) : Str :=
  let c := interpret n specList specAssert [] .distill
  join c.concatenator c.violationCondNew

def assertText (p q : Parsed) : Str := p.name ++ (" || ".toList ++ q.name)

def lastConnective (p q : Parsed) : Connective := q.parts.foldl Part.next p.connective

def guardText (n : Copies) (p : Parsed) : Str :=
  assumeString n (p.assumes.map fun c => (clauseTexts c, kind c))

def lineTexts (n : Copies) (p : Parsed) : List Str :=
  p.lines.map (lineText (assertAction n) (guardText n p))

theorem isIn_assertText (p q : Parsed) : isIn "||".toList (assertText p q) = true := by
  rw [isIn_iff]
  exact ⟨p.name ++ " ".toList, " ".toList ++ q.name, by simp [assertText]⟩

section Lists

variable (n : Copies) (p q : Parsed)

theorem subviolation_eq :
    subviolation n [p.entity, q.entity] (assertText p q) =
      join (lastConnective p q).text (lineTexts n p ++ lineTexts n q) := by
  have hp := assertEntry_parts (n := n) (guardText n p) p.parts
    ⟨[], [], [], " || ".toList, 0⟩ .or rfl
  have hq := assertEntry_parts (n := n) (guardText n q) q.parts
    ⟨lineTexts n p, [], [], p.connective.text, 0⟩ p.connective rfl
  have hinterpret : interpret n [p.entity, q.entity] (assertText p q) [] .synthesis =
      ⟨lineTexts n p ++ lineTexts n q, [], [], (lastConnective p q).text, 0⟩ :=
    (congrArg (fun s => (q.parts.map Part.entry).foldl (assertEntry n (guardText n q)) s) hp).trans
      hq
  rw [subviolation, hinterpret]

theorem interpret_distill :
    interpret n [p.entity, q.entity] (assertText p q) [] .distill =
      ⟨[], lineTexts n p, lineTexts n q, (lastConnective p q).text, 2⟩ := by
  have hp := assertEntry_parts (n := n) (guardText n p) p.parts
    ⟨[], [], [], " || ".toList, 0⟩ .or rfl
  have hq := assertEntry_parts (n := n) (guardText n q) q.parts
    ⟨[], lineTexts n p, [], p.connective.text, 1⟩ p.connective rfl
  have htwo : (decide ([p.entity, q.entity].length = 2) && isIn "||".toList (assertText p q)) =
      true := by
    rw [isIn_assertText]
    rfl
  have hfirst : interpretEntity n .distill true ⟨[], [], [], " || ".toList, 0⟩ p.entity =
      ⟨[], lineTexts n p, [], p.connective.text, 1⟩ :=
    congrArg (separate true) hp
  have hsecond : interpretEntity n .distill true
      ⟨[], lineTexts n p, [], p.connective.text, 1⟩ q.entity =
      ⟨[], lineTexts n p, lineTexts n q, (lastConnective p q).text, 2⟩ :=
    congrArg (separate true) hq
  rw [interpret, htwo, foldl_cons, foldl_cons, foldl_nil, hfirst, hsecond]

theorem distillOld_eq :
    distillOld n [p.entity, q.entity] (assertText p q) =
      join (lastConnective p q).text (lineTexts n p) := by
  rw [distillOld, interpret_distill]

theorem distillNew_eq :
    distillNew n [p.entity, q.entity] (assertText p q) =
      join (lastConnective p q).text (lineTexts n q) := by
  rw [distillNew, interpret_distill]

end Lists

section Values

theorem assumeAction_none (n m : Copies) (action : Str) :
    assumeAction n action = none ↔ assumeAction m action = none := by
  unfold assumeAction metaAction
  split_ifs <;> simp

theorem written_copies (n m : Copies) (c : Clause) : written n c = written m c := by
  refine filter_congr fun l _ => ?_
  rw [Bool.eq_iff_iff, ← Option.ne_none_iff_isSome, ← Option.ne_none_iff_isSome]
  exact not_congr (assumeAction_none n m (raw l).text)

theorem guardValue_copies (n m : Copies) (τ : Atom → Bool) (assumes : List Clause) :
    guardValue n τ assumes = guardValue m τ assumes := by
  unfold guardValue
  simp only [written_copies n m]

/-- The emitted texts of a block have the values of its literals. -/
structure Agrees (n : Copies) (τ σ : Atom → Bool) (p : Parsed) : Prop where
  assumes : ∀ c ∈ p.assumes, ∀ l ∈ c.literals, Handled n τ σ l
  lines : ∀ c ∈ p.lines, ∀ l ∈ c.literals, Translated (assertAction n) τ σ l

def lineValue (n : Copies) (τ : Atom → Bool) (p : Parsed) (c : Clause) : Bool :=
  guarded (guardValue n τ p.assumes) τ c

/-- The violation of a block whose conditions are joined by a connective. -/
def violated (conn : Connective) (n : Copies) (τ : Atom → Bool) (p : Parsed) : Bool :=
  !p.lines.isEmpty && conn.apply (p.lines.map (lineValue n τ p))

variable (conn : Connective)

theorem violated_copies (n m : Copies) (τ : Atom → Bool) (p : Parsed) :
    violated conn n τ p = violated conn m τ p := by
  unfold violated lineValue
  rw [guardValue_copies n m]

variable {n : Copies} {τ σ : Atom → Bool} {p q : Parsed}

def conditions (n : Copies) (τ : Atom → Bool) (p : Parsed) : List (Str × Bool) :=
  p.lines.map fun c => (lineText (assertAction n) (guardText n p) c, lineValue n τ p c)

theorem conditions_fst : (conditions n τ p).map Prod.fst = lineTexts n p := by
  simp [conditions, lineTexts]

theorem conditions_snd : (conditions n τ p).map Prod.snd = p.lines.map (lineValue n τ p) := by
  simp [conditions]

theorem conditions_eq_nil : conditions n τ p = [] ↔ p.lines = [] := by
  simp [conditions]

theorem Agrees.reads (h : Agrees n τ σ p) :
    ∀ r ∈ conditions n τ p, Reads (literalValue σ) r.1 r.2 := by
  intro r hr
  obtain ⟨c, hc, rfl⟩ := mem_map.mp hr
  exact reads_line (guards_assumes h.assumes) (h.lines c hc)

theorem evaluate_conditions (h : ∀ r ∈ ps, Reads (literalValue σ) r.1 r.2) :
    evaluate (literalValue σ) (join conn.text (ps.map Prod.fst)) = some true ↔
      ps ≠ [] ∧ conn.apply (ps.map Prod.snd) = true := by
  cases ps with
  | nil =>
    have hnone : evaluate (literalValue σ) (join conn.text []) = none := rfl
    simp [hnone]
  | cons r rs =>
    have hjoin : evaluate (literalValue σ) (join conn.text ((r :: rs).map Prod.fst)) =
        some (conn.apply ((r :: rs).map Prod.snd)) := evaluate_join conn h
    rw [hjoin]
    simp

theorem violated_iff :
    violated conn n τ p = true ↔ p.lines ≠ [] ∧
      conn.apply (p.lines.map (lineValue n τ p)) = true := by
  simp [violated]

theorem evaluate_block (h : Agrees n τ σ p) :
    evaluate (literalValue σ) (join conn.text (lineTexts n p)) = some true ↔
      violated conn n τ p = true := by
  rw [← conditions_fst (τ := τ), evaluate_conditions conn h.reads, conditions_snd, Ne,
    conditions_eq_nil, violated_iff]

theorem evaluate_both (hp : Agrees n τ σ p) (hq : Agrees n τ σ q) :
    evaluate (literalValue σ) (join conn.text (lineTexts n p ++ lineTexts n q)) = some true ↔
      (p.lines ≠ [] ∨ q.lines ≠ []) ∧
        conn.apply (p.lines.map (lineValue n τ p) ++ q.lines.map (lineValue n τ q)) = true := by
  have hreads : ∀ r ∈ conditions n τ p ++ conditions n τ q, Reads (literalValue σ) r.1 r.2 :=
    fun r hr => (mem_append.mp hr).elim (hp.reads r) (hq.reads r)
  rw [← conditions_fst (τ := τ), ← conditions_fst (τ := τ), ← map_append,
    evaluate_conditions conn hreads, map_append, conditions_snd, conditions_snd, Ne,
    append_eq_nil_iff, conditions_eq_nil, conditions_eq_nil, not_and_or]

end Values

theorem Connective.apply_append (conn : Connective) (us vs : List Bool) :
    conn.apply (us ++ vs) =
      match conn with
      | .and => Connective.and.apply us && Connective.and.apply vs
      | .or => Connective.or.apply us || Connective.or.apply vs := by
  cases conn <;> simp [Connective.apply]

/-- One joined list says that both parts are violated exactly in two cases: it is a
conjunction and no part alone is missing, or the parts have the same value. -/
theorem joined_iff_both (conn : Connective) (us vs : List Bool) :
    (((us ≠ [] ∨ vs ≠ []) ∧ conn.apply (us ++ vs) = true ↔
        (us ≠ [] ∧ conn.apply us = true) ∧ (vs ≠ [] ∧ conn.apply vs = true))) ↔
      (conn = .and ∧ (us = [] ↔ vs = [])) ∨
        ((us ≠ [] ∧ conn.apply us = true) ↔ (vs ≠ [] ∧ conn.apply vs = true)) := by
  rw [Connective.apply_append]
  by_cases hu : us = []
  · subst hu
    cases conn <;> by_cases hv : vs = [] <;> simp [hv, Connective.apply]
  · by_cases hv : vs = []
    · subst hv
      cases conn <;> simp [hu, Connective.apply]
    · cases conn with
      | and => simp [hu, hv]
      | or =>
        cases Connective.or.apply us <;> cases Connective.or.apply vs <;> simp [hu, hv]

/-- The state is marked exactly where both programs of `distill_spec` report a violation
if and only if the connective in force behind the blocks is a conjunction (and neither
block alone has no condition), or the two blocks have the same violation value. -/
theorem subviolation_iff_both (n m : Copies) {old new : List Str} {p q : Parsed}
    (hp : parseEntity old = some p.entity) (hq : parseEntity new = some q.entity)
    (τ σ ρ : Atom → Bool)
    (hpn : Agrees n τ σ p) (hqn : Agrees n τ σ q) (hpm : Agrees m τ ρ p) (hqm : Agrees m τ ρ q) :
    (∀ a ∈ parseEntity old, ∀ b ∈ parseEntity new,
      (evaluate (literalValue σ) (subviolation n [a, b] (assertText p q)) = some true ↔
        evaluate (literalValue ρ) (distillOld m [a, b] (assertText p q)) = some true ∧
        evaluate (literalValue ρ) (distillNew m [a, b] (assertText p q)) = some true)) ↔
      (lastConnective p q = .and ∧ (p.lines = [] ↔ q.lines = [])) ∨
        violated (lastConnective p q) n τ p = violated (lastConnective p q) n τ q := by
  have hmap : ∀ r : Parsed, r.lines.map (lineValue n τ r) = [] ↔ r.lines = [] := fun r =>
    map_eq_nil_iff
  have hboth := joined_iff_both (lastConnective p q) (p.lines.map (lineValue n τ p))
    (q.lines.map (lineValue n τ q))
  rw [Ne, Ne, hmap, hmap, ← violated_iff, ← violated_iff, ← evaluate_both _ hpn hqn,
    ← Bool.eq_iff_iff] at hboth
  rw [hp, hq]
  simp only [Option.mem_some_iff, forall_eq']
  rw [subviolation_eq, distillOld_eq, distillNew_eq, evaluate_block _ hpm, evaluate_block _ hqm,
    violated_copies _ m n, violated_copies _ m n]
  exact hboth

namespace ProgramSpec

open SpecViolation.Example (field sawOld sawNew)

def placeholder : Clause :=
  ⟨⟨true, .unary (field "placeholder" (by decide))⟩, [], .and⟩

/-- The blocks of `program.spec`. -/
def programAllOld : Block where
  name := "program_all_old".toList
  name_ne_nil := by decide
  name_chars := forall_chars (by decide)
  header := ⟨4, 0⟩
  assumeLines := [(⟨8, 0⟩, some placeholder)]
  arrow := ⟨8, 1⟩
  body := [(⟨8, 0⟩, some (.assertion ⟨⟨sawNew, [], .and⟩, true⟩))]
  footer := ⟨4, 0⟩

def programAllNew : Block where
  name := "program_all_new".toList
  name_ne_nil := by decide
  name_chars := forall_chars (by decide)
  header := ⟨4, 0⟩
  assumeLines := [(⟨8, 0⟩, some placeholder)]
  arrow := ⟨8, 0⟩
  body := [(⟨8, 0⟩, some (.assertion ⟨⟨sawOld, [], .and⟩, true⟩))]
  footer := ⟨4, 0⟩

def state : Copies := ⟨[], 1, 3, 4⟩

def learning : Copies := ⟨[], 2, 3, 4⟩

def source (a : Atom) : Bool := a = .equal "$cur.eg.sawNew".toList "1w1".toList

def target (copy : String) (a : Atom) : Bool :=
  a = .equal (copy.toList ++ ".version.sawNew".toList) "1w1".toList

def mixed (_ : Atom) : Bool := true

theorem agrees_mixed (n : Copies)
    (hassume : ∀ c ∈ (parsed b).assumes, ∀ l ∈ c.literals, (raw l).text = "placeholder".toList)
    (hassert : ∀ c ∈ (parsed b).lines, ∀ l ∈ c.literals,
      isIn ".meta.".toList (raw l).text = false) :
    Agrees n mixed mixed (parsed b) where
  assumes c hc l hl := by
    left
    rw [assumeAction, hassume c hc l hl]
    rfl
  lines c hc l hl := assert_translated (hassert c hc l hl) rfl

end ProgramSpec

open ProgramSpec in
theorem mixed_packet_subviolation :
    violated .or state mixed (parsed programAllOld) =
      violated .or state mixed (parsed programAllNew) ∧
    ∀ a ∈ parseEntity programAllOld.lines, ∀ b ∈ parseEntity programAllNew.lines,
      (evaluate (literalValue mixed)
          (subviolation state [a, b] (assertText (parsed programAllOld) (parsed programAllNew))) =
          some true ↔
        evaluate (literalValue mixed)
            (distillOld learning [a, b]
              (assertText (parsed programAllOld) (parsed programAllNew))) =
              some true ∧
        evaluate (literalValue mixed)
            (distillNew learning [a, b]
              (assertText (parsed programAllOld) (parsed programAllNew))) =
              some true) := by
  have hequal : violated .or state mixed (parsed programAllOld) =
      violated .or state mixed (parsed programAllNew) := by decide +kernel
  have hold : ∀ n, Agrees n mixed mixed (parsed programAllOld) := fun n =>
    agrees_mixed n (by decide +kernel) (by decide +kernel)
  have hnew : ∀ n, Agrees n mixed mixed (parsed programAllNew) := fun n =>
    agrees_mixed n (by decide +kernel) (by decide +kernel)
  exact ⟨hequal, (subviolation_iff_both state learning (parse_lines programAllOld)
    (parse_lines programAllNew) mixed mixed mixed (hold _) (hnew _) (hold _) (hnew _)).mpr
      (Or.inr hequal)⟩

open ProgramSpec in
theorem new_code_alone_subviolation :
    programAllOld.lines.flatten =
      ("    define program_all_old = \x7b\n        placeholder;\n        => \n" ++
      "        !($cur.eg.sawNew == 1w1);\n    \x7d\n").toList ∧
    programAllNew.lines.flatten =
      ("    define program_all_new = \x7b\n        placeholder;\n        =>\n" ++
      "        !($cur.eg.sawOld == 1w1);\n    \x7d\n").toList ∧
    (programAllOld.holds source, programAllNew.holds source) = (false, true) ∧
    ∃ a b, parseEntity programAllOld.lines = some a ∧ parseEntity programAllNew.lines = some b ∧
      subviolation state [a, b] "program_all_old || program_all_new".toList =
        "(hdrs_1.version.sawNew == 1w1) || (hdrs_1.version.sawOld == 1w1)".toList ∧
      evaluate (literalValue (target "hdrs_1"))
        (subviolation state [a, b] "program_all_old || program_all_new".toList) = some true ∧
      distillNew learning [a, b] "program_all_old || program_all_new".toList =
        "(hdrs_2.version.sawOld == 1w1)".toList ∧
      evaluate (literalValue (target "hdrs_2"))
        (distillNew learning [a, b] "program_all_old || program_all_new".toList) = some false := by
  refine ⟨by decide +kernel, by decide +kernel, by decide +kernel, _, _, parse_lines programAllOld,
    parse_lines programAllNew, ?_⟩
  decide +kernel

end SpecDisjunction
