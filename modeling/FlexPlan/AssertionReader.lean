import FlexPlan.PythonText

/-!
# Reading assertions

A text of assertions is cut into words and parentheses and read as a list of trees. A word that
begins with `#` is a value and stands for itself.
-/
namespace AssertionReader

open PythonText List

inductive Token where
  | opening
  | closing
  | word (s : Str)
  deriving DecidableEq

def isDelimiter (c : Char) : Bool := c = '(' || c = ')' || c = ' ' || c = '\n'

def delimiter (c : Char) : List Token :=
  if c = '(' then [.opening] else if c = ')' then [.closing] else []

-- The characters of the current word are collected in reverse.
def flush : Str → List Token
  | [] => []
  | c :: cs => [.word (c :: cs).reverse]

def scan : Str → Str → List Token
  | cur, [] => flush cur
  | cur, c :: cs =>
    if isDelimiter c then flush cur ++ (delimiter c ++ scan [] cs) else scan (c :: cur) cs

def tokens (s : Str) : List Token := scan [] s

inductive Sexp where
  | atom (s : Str)
  | list (es : List Sexp)

mutual

def Sexp.tokens : Sexp → List Token
  | .atom s => [.word s]
  | .list es => .opening :: (allTokens es ++ [.closing])

def allTokens : List Sexp → List Token
  | [] => []
  | e :: es => e.tokens ++ allTokens es

end

/-- The open lists are kept on a stack, with their elements in reverse. -/
def parseGo : List (List Sexp) → List Token → Option (List Sexp)
  | [top], [] => some top.reverse
  | top :: stack, .opening :: ts => parseGo ([] :: top :: stack) ts
  | top :: stack, .word w :: ts => parseGo ((.atom w :: top) :: stack) ts
  | top :: next :: stack, .closing :: ts => parseGo ((.list top.reverse :: next) :: stack) ts
  | _, _ => none

def parse (s : Str) : Option (List Sexp) := parseGo [[]] (tokens s)

/-- Formulas over equations. -/
inductive Expr where
  | equal (a b : Str)
  | not (e : Expr)
  | all (es : List Expr)
  | any (es : List Expr)

def value (v : Str → Str) (w : Str) : Str := if w.head? = some '#' then w else v w

mutual

def Expr.eval (v : Str → Str) : Expr → Bool
  | .equal a b => value v a = value v b
  | .not e => !e.eval v
  | .all es => evalAll v es
  | .any es => evalAny v es

def evalAll (v : Str → Str) : List Expr → Bool
  | [] => true
  | e :: es => e.eval v && evalAll v es

def evalAny (v : Str → Str) : List Expr → Bool
  | [] => false
  | e :: es => e.eval v || evalAny v es

end

mutual

def Expr.symbols : Expr → List Str
  | .equal a b => [a, b].filter fun w => w.head? ≠ some '#'
  | .not e => e.symbols
  | .all es | .any es => allSymbols es

def allSymbols : List Expr → List Str
  | [] => []
  | e :: es => e.symbols ++ allSymbols es

end

def equation? : List Sexp → Option Expr
  | [.atom a, .atom b] => some (.equal a b)
  | _ => none

def negation? : List Expr → Option Expr
  | [e] => some (.not e)
  | _ => none

def connective? (op : Str) (es : List Expr) : Option Expr :=
  if op = "and".toList then some (.all es)
  else if op = "or".toList then some (.any es)
  else if op = "not".toList then negation? es
  else none

mutual

def expr? : Sexp → Option Expr
  | .list (.atom op :: args) =>
    if op = "=".toList then equation? args else (exprs? args).bind (connective? op)
  | _ => none

def exprs? : List Sexp → Option (List Expr)
  | [] => some []
  | e :: es => do
    let a ← expr? e
    let as ← exprs? es
    some (a :: as)

end

def assertion? : Sexp → Option Expr
  | .list [.atom op, e] => if op = "assert".toList then expr? e else none
  | _ => none

def assertions (s : Str) : Option (List Expr) := do
  let es ← parse s
  es.mapM assertion?

section Reading

mutual

theorem parseGo_tokens (e : Sexp) (top : List Sexp) (stack : List (List Sexp)) (ts : List Token) :
    parseGo (top :: stack) (e.tokens ++ ts) = parseGo ((e :: top) :: stack) ts := by
  cases e with
  | atom w => rw [Sexp.tokens, singleton_append, parseGo]
  | list es =>
    rw [Sexp.tokens, cons_append, append_assoc, parseGo, parseGo_allTokens es [] _ _,
      append_nil, singleton_append, parseGo, reverse_reverse]

theorem parseGo_allTokens (es top : List Sexp) (stack : List (List Sexp)) (ts : List Token) :
    parseGo (top :: stack) (allTokens es ++ ts) = parseGo ((es.reverse ++ top) :: stack) ts := by
  cases es with
  | nil => rfl
  | cons e es =>
    rw [allTokens, append_assoc, parseGo_tokens e _ _ _, parseGo_allTokens es _ _ _,
      reverse_cons, append_assoc, singleton_append]

end

mutual

def Expr.sexp : Expr → Sexp
  | .equal a b => .list [.atom "=".toList, .atom a, .atom b]
  | .not e => .list [.atom "not".toList, e.sexp]
  | .all es => .list (.atom "and".toList :: sexps es)
  | .any es => .list (.atom "or".toList :: sexps es)

def sexps : List Expr → List Sexp
  | [] => []
  | e :: es => e.sexp :: sexps es

end

mutual

theorem expr?_sexp (e : Expr) : expr? e.sexp = some e := by
  cases e with
  | equal a b =>
    rw [Expr.sexp, expr?, if_pos rfl]
    rfl
  | not e =>
    have h : exprs? [e.sexp] = some [e] := by
      rw [exprs?, expr?_sexp e]
      rfl
    rw [Expr.sexp, expr?, if_neg (by decide), h]
    rfl
  | all es | any es =>
    rw [Expr.sexp, expr?, if_neg (by decide), exprs?_sexps es]
    rfl

theorem exprs?_sexps (es : List Expr) : exprs? (sexps es) = some es := by
  cases es with
  | nil => rfl
  | cons e es =>
    rw [sexps, exprs?, expr?_sexp e, exprs?_sexps es]
    rfl

end

variable (es : List Expr)

theorem sexps_eq : sexps es = es.map Expr.sexp := by
  induction es with
  | nil => rfl
  | cons e es ih => rw [sexps, ih, map_cons]

theorem allTokens_eq (es : List Sexp) : allTokens es = es.flatMap Sexp.tokens := by
  induction es with
  | nil => rfl
  | cons e es ih => rw [allTokens, ih, flatMap_cons]

def Expr.tokens (e : Expr) : List Token := e.sexp.tokens

theorem tokens_not (e : Expr) :
    (Expr.not e).tokens = [.opening, .word "not".toList] ++ e.tokens ++ [.closing] := by
  simp [Expr.tokens, Expr.sexp, Sexp.tokens, allTokens]

theorem tokens_all :
    (Expr.all es).tokens = [.opening, .word "and".toList] ++ es.flatMap Expr.tokens ++
      [.closing] := by
  rw [Expr.tokens, Expr.sexp, sexps_eq, Sexp.tokens, allTokens, allTokens_eq, flatMap_map]
  rfl

theorem tokens_any :
    (Expr.any es).tokens = [.opening, .word "or".toList] ++ es.flatMap Expr.tokens ++
      [.closing] := by
  rw [Expr.tokens, Expr.sexp, sexps_eq, Sexp.tokens, allTokens, allTokens_eq, flatMap_map]
  rfl

def assertTokens (e : Expr) : List Token :=
  [.opening, .word "assert".toList] ++ e.tokens ++ [.closing]

theorem assertions_eq {es : List Expr} (h : tokens s = es.flatMap assertTokens) :
    assertions s = some es := by
  have htokens : tokens s = allTokens
      (es.map fun e => .list [.atom "assert".toList, e.sexp]) ++ [] := by
    rw [h, append_nil, allTokens_eq, flatMap_map]
    refine congrArg List.flatten (map_congr_left fun e _ => ?_)
    rw [assertTokens, Sexp.tokens, allTokens_eq]
    simp [Sexp.tokens, Expr.tokens]
  have hparse : parse s = some (es.map fun e => .list [.atom "assert".toList, e.sexp]) := by
    rw [parse, htokens, parseGo_allTokens, parseGo, append_nil, reverse_reverse]
  have hread : ∀ e : Expr, assertion? (.list [.atom "assert".toList, e.sexp]) = some e := by
    intro e
    rw [assertion?, if_pos rfl, expr?_sexp]
  rw [assertions, hparse, Option.bind_eq_bind, Option.bind_some, mapM_map]
  refine (mapM_eq_some fun e _ => hread e).trans ?_
  rw [map_id']

end Reading

section Scanning

variable {c : Char}

theorem scan_append (hc : isDelimiter c = true) (s t cur : Str) :
    scan cur (s ++ c :: t) = scan cur (s ++ [c]) ++ tokens t := by
  induction s generalizing cur with
  | nil =>
    rw [nil_append, nil_append, scan, if_pos hc, scan, if_pos hc, scan, flush]
    simp [tokens]
  | cons x s ih =>
    rw [cons_append, cons_append, scan, scan]
    by_cases hx : isDelimiter x = true
    · rw [if_pos hx, if_pos hx, ih, append_assoc, append_assoc]
    · rw [if_neg hx, if_neg hx, ih]

theorem tokens_append (hc : isDelimiter c = true) (hlast : s.getLast? = some c) (t : Str) :
    tokens (s ++ t) = tokens s ++ tokens t := by
  obtain ⟨a, rfl⟩ := getLast?_eq_some_iff.mp hlast
  rw [append_assoc, singleton_append]
  exact scan_append hc a t []

theorem scan_word (hw : ∀ c ∈ w, isDelimiter c = false) (cur rest : Str) :
    scan cur (w ++ rest) = scan (w.reverse ++ cur) rest := by
  induction w generalizing cur with
  | nil => rfl
  | cons c w ih =>
    obtain ⟨hc, hw⟩ := forall_mem_cons.mp hw
    rw [cons_append, scan, if_neg (by rw [hc]; decide), ih hw, reverse_cons, append_assoc,
      singleton_append]

theorem tokens_word (hne : w ≠ []) (hw : ∀ c ∈ w, isDelimiter c = false) (hc : isDelimiter c = true)
    (rest : Str) : tokens (w ++ c :: rest) = .word w :: (delimiter c ++ tokens rest) := by
  have hflush : flush w.reverse = [.word w] := by
    obtain ⟨d, ds, hd⟩ := exists_cons_of_ne_nil (mt reverse_eq_nil_iff.mp hne)
    rw [hd, flush, ← hd, reverse_reverse]
  rw [tokens, scan_word hw, append_nil, scan, if_pos hc, hflush]
  rfl

theorem tokens_flatMap {α : Type} {f : α → Str} {l : List α} (hc : isDelimiter c = true)
    (hlast : ∀ a ∈ l, (f a).getLast? = some c) (rest : Str) :
    tokens (l.flatMap f ++ rest) = (l.flatMap fun a => tokens (f a)) ++ tokens rest := by
  induction l with
  | nil => rfl
  | cons a l ih =>
    obtain ⟨ha, hl⟩ := forall_mem_cons.mp hlast
    rw [flatMap_cons, append_assoc, tokens_append hc ha, ih hl, flatMap_cons, append_assoc]

theorem getLast?_append (ht : t.getLast? = some c) (s : Str) : (s ++ t).getLast? = some c := by
  rw [List.getLast?_append, ht]
  rfl

end Scanning

section Meaning

variable {v : Str → Str}

theorem evalAll_iff : evalAll v es = true ↔ ∀ e ∈ es, e.eval v = true := by
  induction es with
  | nil => simp [evalAll]
  | cons e es ih => rw [evalAll, Bool.and_eq_true, ih, forall_mem_cons]

theorem mem_allSymbols : w ∈ allSymbols es ↔ ∃ e ∈ es, w ∈ e.symbols := by
  induction es with
  | nil => simp [allSymbols]
  | cons e es ih => rw [allSymbols, mem_append, ih, exists_mem_cons_iff]

end Meaning

end AssertionReader
