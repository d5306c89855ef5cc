import FlexPlan.PythonText

/-!
# Reading structured statements from text

An `else` belongs to the nearest condition that has none, and an annotation stands in front of a
block. Other words in front of a brace decide about their block as a condition does. What
annotations, statements and conditions mean is a parameter.
-/
namespace StatementText

open PythonText List

variable {α : Type}

inductive Token (α : Type) where
  | stmt (text : Str)
  | head (cond : Str)
  | otherwise
  | open
  | close
  | ann (a : α)
  deriving DecidableEq

section Scanning

/-- Where the scanner stands; buffers are reversed. -/
inductive Mode where
  | boundary
  | word (buf : Str)
  | condition (depth : ℕ) (buf : Str)
  | sign (buf : Str)
  | broken
  deriving DecidableEq

def blank (c : Char) : Bool := c ∈ " \t\r\n".toList

variable (decode : Str → Option α)

def wordStep (buf : Str) (c : Char) : List (Token α) × Mode :=
  if c = ';' then ([.stmt buf.reverse], .boundary)
  else if c = '(' ∧ strip " \t\r\n".toList buf.reverse = "if".toList then ([], .condition 0 [])
  else if c = '\x7b' then
    ([if buf.reverse = "else".toList then .otherwise else .head buf.reverse, .open], .boundary)
  else if c = '\x7d' ∨ c = '@' then ([], .broken)
  else if blank c ∧ buf.reverse = "else".toList then ([.otherwise], .boundary)
  else ([], .word (c :: buf))

def conditionStep (depth : ℕ) (buf : Str) (c : Char) : List (Token α) × Mode :=
  if c = '(' then ([], .condition (depth + 1) (c :: buf))
  else if c = ')' then
    if depth = 0 then ([.head buf.reverse], .boundary) else ([], .condition (depth - 1) (c :: buf))
  else if c ∈ "\x7b\x7d;@".toList ∨ (c = ',' ∧ depth = 0) then ([], .broken)
  else ([], .condition depth (c :: buf))

def step : Mode → Char → List (Token α) × Mode
  | .boundary, c =>
    if blank c then ([], .boundary)
    else if c = '\x7b' then ([.open], .boundary)
    else if c = '\x7d' then ([.close], .boundary)
    else if c = ';' then ([.stmt []], .boundary)
    else if c = '@' then ([], .sign [c])
    else ([], .word [c])
  | .word buf, c => wordStep buf c
  | .condition depth buf, c => conditionStep depth buf c
  | .sign buf, c =>
    if c = ')' then
      match decode buf.reverse with
      | some a => ([.ann a], .boundary)
      | none => ([], .broken)
    else if c ∈ "\x7b\x7d;@".toList then ([], .broken)
    else ([], .sign (c :: buf))
  | .broken, _ => ([], .broken)

def scan : Mode → Str → List (Token α) × Mode
  | m, [] => ([], m)
  | m, c :: cs => ((step decode m c).1 ++ (scan (step decode m c).2 cs).1,
      (scan (step decode m c).2 cs).2)

variable {decode}

theorem scan_append (m : Mode) (s t : Str) :
    scan decode m (s ++ t) = ((scan decode m s).1 ++ (scan decode (scan decode m s).2 t).1,
      (scan decode (scan decode m s).2 t).2) := by
  induction s generalizing m with
  | nil => rfl
  | cons c s ih => simp [scan, ih]

theorem scan_broken (s : Str) : scan decode .broken s = ([], .broken) := by
  induction s with
  | nil => rfl
  | cons c s ih => simp [scan, step, ih]

theorem scan_blanks (h : ∀ c ∈ s, blank c = true) (t : Str) :
    scan decode .boundary (s ++ t) = scan decode .boundary t := by
  induction s with
  | nil => rfl
  | cons c s ih =>
    obtain ⟨hc, hs⟩ := forall_mem_cons.mp h
    simp [scan, step, hc, ih hs]

/-- Characters that only fill the buffer of a mode. -/
theorem scan_buffer {mode : Str → Mode}
    (h : ∀ c ∈ s, ∀ buf, step decode (mode buf) c = ([], mode (c :: buf)))
    (buf t : Str) : scan decode (mode buf) (s ++ t) = scan decode (mode (s.reverse ++ buf)) t := by
  induction s generalizing buf with
  | nil => rfl
  | cons c s ih =>
    obtain ⟨hc, hs⟩ := forall_mem_cons.mp h
    rw [cons_append, scan, hc, ih hs]
    simp

theorem scan_if (h : ∀ c ∈ s, c ∉ "(),\x7b\x7d;@".toList) (t : Str) :
    scan decode .boundary
      ("if (".toList ++ s ++ t) = scan decode (.condition 0 (s.reverse ++ [])) t := by
  have hif : scan decode .boundary "if (".toList = ([], .condition 0 []) := rfl
  rw [append_assoc, scan_append, hif]
  refine scan_buffer (fun c hc buf => ?_) [] t
  have hc := h c hc
  simp only [String.reduceToList, mem_cons, not_mem_nil, or_false, not_or] at hc
  simp [step, conditionStep, hc]

theorem scan_sign (h : ∀ c ∈ s, c ∉ ")\x7b\x7d;@".toList) (buf t : Str) :
    scan decode (.sign buf) (s ++ t) = scan decode (.sign (s.reverse ++ buf)) t := by
  refine scan_buffer (fun c hc buf => ?_) buf t
  have hc := h c hc
  simp only [String.reduceToList, mem_cons, not_mem_nil, or_false, not_or] at hc
  simp [step, hc]

theorem scan_test (h : ∀ c ∈ s, c ∉ "(),\x7b\x7d;@".toList) (t : Str) :
    scan decode .boundary ("if (".toList ++ s ++ ")".toList ++ t) =
      (.head s :: (scan decode .boundary t).1, (scan decode .boundary t).2) := by
  have hclose : step decode (.condition 0 (s.reverse ++ [])) ')' = ([.head s], .boundary) := by
    simp [step, conditionStep]
  rw [append_assoc, scan_if h, show ")".toList ++ t = ')' :: t from rfl, scan, hclose]
  rfl

theorem scan_comma (h : ∀ c ∈ s, c ∉ "(),\x7b\x7d;@".toList) (t : Str) :
    scan decode .boundary ("if (".toList ++ s ++ ",".toList ++ t) = ([], .broken) := by
  have hcomma : step decode (.condition 0 (s.reverse ++ [])) ',' = ([], .broken) := by
    simp [step, conditionStep]
  rw [append_assoc, scan_if h, show ",".toList ++ t = ',' :: t from rfl, scan, hcomma]
  dsimp only
  rw [scan_broken]
  rfl

theorem scan_ann (h : ∀ c ∈ s, c ∉ ")\x7b\x7d;@".toList)
    (ha : decode ('@' :: s) = some a) (t : Str) :
    scan decode .boundary ('@' :: s ++ ")".toList ++ t) =
      (.ann a :: (scan decode .boundary t).1, (scan decode .boundary t).2) := by
  have hstart : step decode .boundary '@' = ([], .sign ['@']) := rfl
  have hclose : step decode (.sign (s.reverse ++ ['@'])) ')' = ([.ann a], .boundary) := by
    simp [step, ha]
  rw [append_assoc, cons_append, scan, hstart]
  dsimp only
  rw [scan_sign h, show ")".toList ++ t = ')' :: t from rfl, scan, hclose]
  rfl

def Mode.inSign : Mode → Bool
  | .sign _ => true
  | _ => false

def Token.isAnn : Token α → Bool
  | .ann _ => true
  | _ => false

variable (decode) in
theorem step_plain (hm : m.inSign = false) (hc : c ≠ '@') :
    (∀ t ∈ (step decode m c).1, t.isAnn = false) ∧ (step decode m c).2.inSign = false := by
  cases m with
  | boundary =>
    simp only [step]
    split_ifs <;> simp [Token.isAnn, Mode.inSign, *]
  | word buf =>
    simp only [step, wordStep]
    split_ifs <;> simp [Token.isAnn, Mode.inSign]
  | condition depth buf =>
    simp only [step, conditionStep]
    split_ifs <;> simp [Token.isAnn, Mode.inSign]
  | sign buf => cases hm
  | broken => simp [step, Mode.inSign]

theorem scan_plain (h : '@' ∉ s) (hm : m.inSign = false) :
    (∀ t ∈ (scan decode m s).1, t.isAnn = false) ∧ (scan decode m s).2.inSign = false := by
  induction s generalizing m with
  | nil => exact ⟨by simp [scan], hm⟩
  | cons c s ih =>
    obtain ⟨hc, hs⟩ := not_or.mp (mt mem_cons.mpr h)
    obtain ⟨htokens, hmode⟩ := step_plain decode hm (Ne.symm hc)
    obtain ⟨hrest, hfinal⟩ := ih hs hmode
    refine ⟨fun t ht => ?_, hfinal⟩
    rcases mem_append.mp ht with ht | ht
    · exact htokens t ht
    · exact hrest t ht

end Scanning

section Parsing

/-- Statements and sequences of statements. -/
inductive Code (α : Type) where
  | skip
  | simple (text : Str)
  | block (ann : Option α) (body : Code α)
  | cond (c : Str) (body : Code α)
  | condElse (c : Str) (body other : Code α)
  | seq (first rest : Code α)
  deriving DecidableEq

abbrev Parsed (α : Type) := Option (Code α × List (Token α))

def closing : Code α × List (Token α) → Parsed α
  | (b, .close :: r) => some (.block none b, r)
  | _ => none

def annotate (a : α) : Code α × List (Token α) → Parsed α
  | (.block none b, r) => some (.block (some a) b, r)
  | _ => none

/-- The `else` of a condition, if there is one. -/
def alternative (parse : List (Token α) → Parsed α) (c : Str) :
    Code α × List (Token α) → Parsed α
  | (s, .otherwise :: r) => (parse r).map fun q => (.condElse c s q.1, q.2)
  | (s, r) => some (.cond c s, r)

mutual

def parseStmt : ℕ → List (Token α) → Parsed α
  | _ + 1, .stmt t :: r => some (.simple t, r)
  | k + 1, .open :: r => (parseSeq k r).bind closing
  | k + 1, .ann a :: r => (parseStmt k r).bind (annotate a)
  | k + 1, .head c :: r => (parseStmt k r).bind (alternative (parseStmt k) c)
  | _, _ => none

def parseSeq : ℕ → List (Token α) → Parsed α
  | _ + 1, [] => some (.skip, [])
  | _ + 1, .close :: r => some (.skip, .close :: r)
  | k + 1, ts => (parseStmt k ts).bind fun p => (parseSeq k p.2).map fun q => (.seq p.1 q.1, q.2)
  | 0, _ => none

end

def parse (ts : List (Token α)) : Option (Code α) :=
  match parseSeq (2 * ts.length + 2) ts with
  | some (s, []) => some s
  | _ => none

def readCode (decode : Str → Option α) (text : Str) : Option (Code α) :=
  match scan decode .boundary text with
  | (ts, .boundary) => parse ts
  | _ => none

def anns (ts : List (Token α)) : List α :=
  ts.filterMap fun
    | .ann a => some a
    | _ => none

def Code.anns : Code α → List α
  | .skip | .simple _ => []
  | .block a b => a.toList ++ b.anns
  | .cond _ b => b.anns
  | .condElse _ b e => b.anns ++ e.anns
  | .seq s t => s.anns ++ t.anns

theorem parseSeq_otherwise (k : ℕ) (ts : List (Token α)) :
    parseSeq k (.otherwise :: ts) = none := by
  rcases k with _ | _ | k <;> simp [parseSeq, parseStmt]

theorem alternative_cond (h : r.head? ≠ some .otherwise) :
    alternative f c (s, r) = some (.cond c s, r) := by
  rcases r with _ | ⟨t, r⟩
  · rfl
  · cases t with
    | otherwise => exact absurd rfl h
    | stmt | head | «open» | close | ann => rfl

theorem parseSeq_next {ts : List (Token α)} (hne : ts ≠ []) (hclose : ∀ r, ts ≠ .close :: r)
    (k : ℕ) : parseSeq (k + 1) ts = (parseStmt k ts).bind fun p =>
      (parseSeq k p.2).map fun q => (.seq p.1 q.1, q.2) := by
  rcases ts with _ | ⟨t, ts⟩
  · exact absurd rfl hne
  · cases t with
    | close => exact absurd rfl (hclose ts)
    | stmt | head | «open» | otherwise | ann => rfl

theorem parse_rule {P Q : ℕ → List (Token α) → Code α → List (Token α) → Prop}
    (simple : ∀ k t r, P (k + 1) (.stmt t :: r) (.simple t) r)
    (block : ∀ k ts b r, Q k ts b (.close :: r) → P (k + 1) (.open :: ts) (.block none b) r)
    (annotated : ∀ k a ts b r, P k ts (.block none b) r →
      P (k + 1) (.ann a :: ts) (.block (some a) b) r)
    (condElse : ∀ k c ts s ts' e r, P k ts s (.otherwise :: ts') → P k ts' e r →
      P (k + 1) (.head c :: ts) (.condElse c s e) r)
    (cond : ∀ k c ts s r, P k ts s r → r.head? ≠ some .otherwise →
      P (k + 1) (.head c :: ts) (.cond c s) r)
    (stop : ∀ k ts, (ts = [] ∨ ∃ r, ts = .close :: r) → Q (k + 1) ts .skip ts)
    (seq : ∀ k ts s r t r', ts ≠ [] → (∀ r, ts ≠ .close :: r) → P k ts s r →
      r.head? ≠ some .otherwise → Q k r t r' → Q (k + 1) ts (.seq s t) r') :
    ∀ k ts s r, (parseStmt k ts = some (s, r) → P k ts s r) ∧
      (parseSeq k ts = some (s, r) → Q k ts s r) := by
  intro k
  induction k with
  | zero => simp [parseStmt, parseSeq]
  | succ k ih =>
    intro ts s r
    constructor
    · intro h
      rcases ts with _ | ⟨t, ts⟩
      · cases h
      cases t with
      | stmt t =>
        obtain ⟨rfl, rfl⟩ := Prod.mk.inj (Option.some.inj h)
        exact simple k t ts
      | «open» =>
        obtain ⟨⟨b, _ | ⟨t, r'⟩⟩, hb, hclose⟩ := Option.bind_eq_some_iff.mp h
        · cases hclose
        cases t with
        | close =>
          obtain ⟨rfl, rfl⟩ := Prod.mk.inj (Option.some.inj hclose)
          exact block k ts b r' ((ih _ _ _).2 hb)
        | stmt | head | otherwise | «open» | ann => cases hclose
      | ann a =>
        obtain ⟨⟨b, r'⟩, hb, hann⟩ := Option.bind_eq_some_iff.mp h
        cases b with
        | block o b =>
          cases o with
          | none =>
            obtain ⟨rfl, rfl⟩ := Prod.mk.inj (Option.some.inj hann)
            exact annotated k a ts b r' ((ih _ _ _).1 hb)
          | some _ => cases hann
        | skip | simple | cond | condElse | seq => cases hann
      | head c =>
        obtain ⟨⟨b, r'⟩, hb, halt⟩ := Option.bind_eq_some_iff.mp h
        by_cases helse : r'.head? = some .otherwise
        · obtain ⟨r', rfl⟩ := head?_eq_some_iff.mp helse
          obtain ⟨⟨e, r''⟩, he, heq⟩ := Option.map_eq_some_iff.mp halt
          obtain ⟨rfl, rfl⟩ := Prod.mk.inj heq
          exact condElse k c ts b r' e r'' ((ih _ _ _).1 hb) ((ih _ _ _).1 he)
        · obtain ⟨rfl, rfl⟩ :=
            Prod.mk.inj (Option.some.inj ((alternative_cond helse).symm.trans halt))
          exact cond k c ts b r' ((ih _ _ _).1 hb) helse
      | otherwise | close => cases h
    · intro h
      by_cases hstop : ts = [] ∨ ∃ r, ts = .close :: r
      · have hskip : some (Code.skip, ts) = some (s, r) := by
          rcases hstop with rfl | ⟨r', rfl⟩ <;> exact h
        obtain ⟨rfl, rfl⟩ := Prod.mk.inj (Option.some.inj hskip)
        exact stop k ts hstop
      · obtain ⟨hne, hclose⟩ := not_or.mp hstop
        have hclose := not_exists.mp hclose
        rw [parseSeq_next hne hclose] at h
        obtain ⟨⟨s₁, r₁⟩, hs, h⟩ := Option.bind_eq_some_iff.mp h
        obtain ⟨⟨s₂, r₂⟩, hr, heq⟩ := Option.map_eq_some_iff.mp h
        obtain ⟨rfl, rfl⟩ := Prod.mk.inj heq
        refine seq k ts s₁ r₁ s₂ r₂ hne hclose ((ih _ _ _).1 hs) ?_ ((ih _ _ _).2 hr)
        intro helse
        obtain ⟨r', rfl⟩ := head?_eq_some_iff.mp helse
        rw [parseSeq_otherwise] at hr
        cases hr

end Parsing

section Guarding

variable (test : α → Str)

def guardToken : Token α → Token α
  | .ann a => .head (test a)
  | t => t

def Code.guarded : Code α → Code α
  | .skip => .skip
  | .simple t => .simple t
  | .block none b => .block none b.guarded
  | .block (some a) b => .cond (test a) (.block none b.guarded)
  | .cond c b => .cond c b.guarded
  | .condElse c b e => .condElse c b.guarded e.guarded
  | .seq s t => .seq s.guarded t.guarded

def Code.endsAnnotated : Code α → Bool
  | .block a _ => a.isSome
  | .cond _ b => b.endsAnnotated
  | .condElse _ _ e => e.endsAnnotated
  | _ => false

/-- No `else` follows an annotated block. -/
def Code.Tidy : Code α → Prop
  | .skip | .simple _ => True
  | .block _ b | .cond _ b => b.Tidy
  | .condElse _ b e => b.endsAnnotated = false ∧ b.Tidy ∧ e.Tidy
  | .seq s t => s.Tidy ∧ t.Tidy

/-- The statement ends with a condition that could take an `else`. -/
def Code.endsOpen : Code α → Bool
  | .cond _ _ => true
  | .condElse _ _ e => e.endsOpen
  | _ => false

/-- Every `else` belongs to the nearest condition. -/
def Code.Bound : Code α → Prop
  | .skip | .simple _ => True
  | .block _ b | .cond _ b => b.Bound
  | .condElse _ b e => b.endsOpen = false ∧ b.Bound ∧ e.Bound
  | .seq s t => s.Bound ∧ t.Bound

variable {test}

theorem head?_guardToken {r : List (Token α)} (h : r.head? ≠ some .otherwise) :
    (r.map (guardToken test)).head? ≠ some .otherwise := by
  rcases r with _ | ⟨t, r⟩
  · simp
  · cases t <;> simp_all [guardToken]

variable {ts : List (Token α)}

theorem map_guardToken (h : ∀ t ∈ ts, t.isAnn = false) : ts.map (guardToken test) = ts := by
  have hid : ∀ t ∈ ts, guardToken test t = id t := by
    intro t ht
    cases t with
    | ann a => cases h _ ht
    | stmt | head | otherwise | «open» | close => rfl
  rw [map_congr_left hid, map_id]

theorem anns_plain (h : ∀ t ∈ ts, t.isAnn = false) : anns ts = [] := by
  rw [anns, filterMap_eq_nil_iff]
  intro t ht
  cases t with
  | ann a => cases h _ ht
  | stmt | head | otherwise | «open» | close => rfl

theorem anns_append (ts us : List (Token α)) : anns (ts ++ us) = anns ts ++ anns us :=
  filterMap_append

variable {s : Code α}

/-- Replacing annotations by tests is replacing annotated blocks by conditions, as long as
no `else` follows one. -/
theorem parse_guarded (k : ℕ) (ts : List (Token α)) (s : Code α) (r : List (Token α)) :
    (parseStmt k ts = some (s, r) → s.Tidy →
      (s.endsAnnotated = true → r.head? ≠ some .otherwise) →
      parseStmt k (ts.map (guardToken test)) = some (s.guarded test, r.map (guardToken test))) ∧
    (parseSeq k ts = some (s, r) → s.Tidy →
      parseSeq k (ts.map (guardToken test)) = some (s.guarded test, r.map (guardToken test))) := by
  refine parse_rule
    (P := fun k ts s r => s.Tidy → (s.endsAnnotated = true → r.head? ≠ some .otherwise) →
      parseStmt k (ts.map (guardToken test)) = some (s.guarded test, r.map (guardToken test)))
    (Q := fun k ts s r => s.Tidy →
      parseSeq k (ts.map (guardToken test)) = some (s.guarded test, r.map (guardToken test)))
    ?_ ?_ ?_ ?_ ?_ ?_ ?_ k ts s r
  · intro k t r _ _
    rfl
  · intro k ts b r ih htidy _
    simp only [map_cons, guardToken]
    rw [parseStmt, ih htidy]
    rfl
  · intro k a ts b r ih htidy hends
    simp only [map_cons, guardToken]
    rw [parseStmt, ih htidy (by simp [Code.endsAnnotated])]
    exact alternative_cond (head?_guardToken (hends rfl))
  · intro k c ts s ts' e r ihs ihe htidy hends
    obtain ⟨hopen, hs, he⟩ := htidy
    simp only [map_cons, guardToken]
    rw [parseStmt, ihs hs (by simp [hopen])]
    simp only [map_cons, guardToken, Option.bind_some, alternative]
    rw [ihe he hends]
    rfl
  · intro k c ts s r ih hhead htidy _
    simp only [map_cons, guardToken]
    rw [parseStmt, ih htidy fun _ => hhead]
    exact alternative_cond (head?_guardToken hhead)
  · rintro k ts (rfl | ⟨r, rfl⟩) _ <;> rfl
  · intro k ts s r t r' hne hclose ihs hhead iht htidy
    have hclose' : ∀ r, ts.map (guardToken test) ≠ .close :: r := by
      intro r hr
      obtain ⟨x, ts, rfl, hx, -⟩ := map_eq_cons_iff.mp hr
      cases x with
      | close => exact hclose ts rfl
      | stmt | head | «open» | otherwise | ann => cases hx
    rw [parseSeq_next (mt map_eq_nil_iff.mp hne) hclose', ihs htidy.1 fun _ => hhead,
      Option.bind_some, iht htidy.2]
    rfl

theorem parse_bound (k : ℕ) (ts : List (Token α)) (s : Code α) (r : List (Token α)) :
    (parseStmt k ts = some (s, r) → s.Bound ∧ (s.endsOpen = true → r.head? ≠ some .otherwise)) ∧
    (parseSeq k ts = some (s, r) → s.Bound) := by
  refine parse_rule
    (P := fun _ _ s r => s.Bound ∧ (s.endsOpen = true → r.head? ≠ some .otherwise))
    (Q := fun _ _ s _ => s.Bound) ?_ ?_ ?_ ?_ ?_ ?_ ?_ k ts s r
  · intro k t r
    exact ⟨trivial, by simp [Code.endsOpen]⟩
  · intro k ts b r ih
    exact ⟨ih, by simp [Code.endsOpen]⟩
  · intro k a ts b r ih
    exact ⟨ih.1, by simp [Code.endsOpen]⟩
  · intro k c ts s ts' e r ihs ihe
    refine ⟨⟨?_, ihs.1, ihe.1⟩, ihe.2⟩
    by_contra hopen
    exact ihs.2 (eq_true_of_ne_false hopen) rfl
  · intro k c ts s r ih hhead
    exact ⟨ih.1, fun _ => hhead⟩
  · intro k ts _
    trivial
  · intro k ts s r t r' _ _ ihs _ iht
    exact ⟨ihs.1, iht⟩

theorem parse_anns (k : ℕ) (ts : List (Token α)) (s : Code α) (r : List (Token α)) :
    (parseStmt k ts = some (s, r) → anns ts = s.anns ++ anns r) ∧
    (parseSeq k ts = some (s, r) → anns ts = s.anns ++ anns r) := by
  refine parse_rule (P := fun _ ts s r => anns ts = s.anns ++ anns r)
    (Q := fun _ ts s r => anns ts = s.anns ++ anns r) ?_ ?_ ?_ ?_ ?_ ?_ ?_ k ts s r
  · intro k t r
    rfl
  · intro k ts b r ih
    exact ih
  · intro k a ts b r ih
    simpa [anns, Code.anns] using ih
  · intro k c ts s ts' e r ihs ihe
    have hs : anns ts = s.anns ++ anns ts' := ihs
    simp only [anns, Code.anns] at hs ihe ⊢
    rw [filterMap_cons, hs, ihe, append_assoc]
  · intro k c ts s r ih _
    exact ih
  · intro k ts _
    rfl
  · intro k ts s r t r' _ _ ihs _ iht
    rw [ihs, iht, Code.anns, append_assoc]

theorem endsOpen_guarded (h : s.endsAnnotated = true) : (s.guarded test).endsOpen = true := by
  induction s with
  | block a b =>
    cases a with
    | none => cases h
    | some a => rfl
  | cond c b ih => rfl
  | condElse c b e _ ih => exact ih h
  | skip | simple | seq => cases h

theorem tidy_of_bound (h : (s.guarded test).Bound) : s.Tidy := by
  induction s with
  | skip | simple => trivial
  | block a b ih =>
    cases a with
    | none | some a => exact ih h
  | cond c b ih => exact ih h
  | condElse c b e ihb ihe =>
    obtain ⟨hopen, hb, he⟩ := h
    refine ⟨?_, ihb hb, ihe he⟩
    by_contra hends
    rw [endsOpen_guarded (eq_true_of_ne_false hends)] at hopen
    cases hopen
  | seq s t ihs iht => exact ⟨ihs h.1, iht h.2⟩

theorem parse_eq_some : parse ts = some s ↔ parseSeq (2 * ts.length + 2) ts = some (s, []) := by
  rw [parse]
  constructor
  · intro h
    split at h
    · rename_i s' hs
      rw [hs, Option.some.inj h]
    · cases h
  · intro h
    rw [h]

theorem parse_guarded_iff (h : parse ts = some s) :
    parse (ts.map (guardToken test)) = some (s.guarded test) ↔ s.Tidy := by
  rw [parse_eq_some, length_map]
  rw [parse_eq_some] at h
  constructor
  · intro hguarded
    exact tidy_of_bound ((parse_bound _ _ _ _).2 hguarded)
  · intro htidy
    exact (parse_guarded _ _ _ _).2 h htidy

end Guarding

section Execution

/-- What statements do and when conditions hold. -/
structure Meaning (σ : Type) where
  effect : Str → σ → σ
  holds : Str → σ → Bool

variable {σ : Type}

def run (M : Meaning σ) : Code α → σ → σ
  | .skip, x => x
  | .simple t, x => M.effect t x
  | .block _ b, x => run M b x
  | .cond c b, x => if M.holds c x then run M b x else x
  | .condElse c b e, x => if M.holds c x then run M b x else run M e x
  | .seq s t, x => run M t (run M s x)

/-- The code without the annotated blocks that are not selected. -/
def Code.select (p : α → Bool) : Code α → Code α
  | .skip => .skip
  | .simple t => .simple t
  | .block none b => .block none (b.select p)
  | .block (some a) b => if p a then .block none (b.select p) else .skip
  | .cond c b => .cond c (b.select p)
  | .condElse c b e => .condElse c (b.select p) (e.select p)
  | .seq s t => .seq (s.select p) (t.select p)

theorem run_guarded {test : α → Str} {M : Meaning σ} {p : α → Bool} {s : Code α}
    (h : ∀ a ∈ s.anns, ∀ x, M.holds (test a) x = p a) :
    run M (s.guarded test) = run M (s.select p) := by
  funext x
  induction s generalizing x with
  | skip | simple => rfl
  | block a b ih =>
    cases a with
    | none => exact ih h x
    | some a =>
      have hb : ∀ a ∈ b.anns, ∀ x, M.holds (test a) x = p a := fun a ha =>
        h a (mem_append_right _ ha)
      have ha : M.holds (test a) x = p a := h a (mem_append_left _ (by simp)) x
      simp only [Code.guarded, run, Code.select, ha]
      by_cases hp : p a = true
      · simp [hp, run, ih hb]
      · simp [hp, run]
  | cond c b ih =>
    simp only [Code.guarded, run, Code.select]
    rw [ih h]
  | condElse c b e ihb ihe =>
    simp only [Code.guarded, run, Code.select]
    rw [ihb fun a ha => h a (mem_append_left _ ha), ihe fun a ha => h a (mem_append_right _ ha)]
  | seq s t ihs iht =>
    simp only [Code.guarded, run, Code.select]
    rw [ihs fun a ha => h a (mem_append_left _ ha), iht fun a ha => h a (mem_append_right _ ha)]

end Execution

end StatementText
