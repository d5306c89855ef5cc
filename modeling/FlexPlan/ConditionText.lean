import FlexPlan.PythonText

/-!
# Reading conditions with operator precedence

Negation binds tightest, then conjunction, then disjunction. A parenthesis behind the first
character of an operand belongs to a call; every other one groups.
-/
namespace ConditionText

open PythonText List

inductive Token where
  | lit (text : Str)
  | and
  | or
  | lp (negated : Bool)
  | rp
  deriving DecidableEq, Repr

def unstarted (buf : Str) : Bool := buf.all fun c => c = ' ' || c = '!'

def flush (buf : Str) : List Token := if buf.all (· = ' ') then [] else [.lit buf.reverse]

-- The buffer holds the characters of the current operand in reverse, `depth` the calls
-- that are open in it.
def lexGo : ℕ → Str → Str → List Token
  | _, buf, [] => flush buf
  | _, buf, '&' :: '&' :: cs => flush buf ++ .and :: lexGo 0 [] cs
  | _, buf, '|' :: '|' :: cs => flush buf ++ .or :: lexGo 0 [] cs
  | depth, buf, c :: cs =>
    if c = '(' then
      if unstarted buf then .lp (buf.count '!' % 2 = 1) :: lexGo 0 [] cs
      else lexGo (depth + 1) (c :: buf) cs
    else if c = ')' then
      if depth = 0 then flush buf ++ .rp :: lexGo 0 [] cs else lexGo (depth - 1) (c :: buf) cs
    else lexGo depth (c :: buf) cs

/-- An open group: the disjuncts before the current one, the conjuncts before the current
operand, and whether an operand must follow. -/
structure Frame where
  negated : Bool
  disj : Bool
  conj : Bool
  waiting : Bool
  deriving DecidableEq, Repr

namespace Frame

def start (negated : Bool) : Frame := ⟨negated, false, true, true⟩

def take (f : Frame) (v : Bool) : Frame := { f with conj := f.conj && v, waiting := false }

def next (f : Frame) : Frame :=
  { f with disj := f.disj || f.conj, conj := true, waiting := true }

def result (f : Frame) : Bool := xor f.negated (f.disj || f.conj)

def takeAny : Bool → List Bool → Frame → Frame
  | v, [], f => f.take v
  | v, w :: ws, f => takeAny w ws (f.take v).next

theorem take_take (f : Frame) (v w : Bool) :
    ({ f.take v with waiting := true } : Frame).take w = f.take (v && w) := by
  simp [take, Bool.and_assoc]

theorem takeAny_result (f : Frame) (v : Bool) (vs : List Bool) :
    (takeAny v vs f).result = xor f.negated (f.disj || (f.conj && v) || vs.any id) := by
  induction vs generalizing f v with
  | nil => simp [takeAny, take, result]
  | cons w ws ih => simp [takeAny, ih, take, next, Bool.or_assoc]

theorem takeAny_waiting (f : Frame) (v : Bool) (vs : List Bool) :
    (takeAny v vs f).waiting = false := by
  induction vs generalizing f v with
  | nil => rfl
  | cons w ws ih => exact ih _ _

end Frame

variable (value : Str → Option Bool)

def step : List Frame → Token → Option (List Frame)
  | f :: fs, .lit t => if f.waiting then (value t).map fun v => f.take v :: fs else none
  | f :: fs, .and => if f.waiting then none else some ({ f with waiting := true } :: fs)
  | f :: fs, .or => if f.waiting then none else some (f.next :: fs)
  | f :: fs, .lp negated => if f.waiting then some (.start negated :: f :: fs) else none
  | f :: g :: fs, .rp => if f.waiting then none else some (g.take f.result :: fs)
  | _, _ => none

def run (stack : List Frame) (ts : List Token) : Option (List Frame) := ts.foldlM (step value) stack

def evaluate (text : Str) : Option Bool :=
  match run value [.start false] (lexGo 0 [] text) with
  | some [f] => if f.waiting then none else some f.result
  | _ => none

/-- What may follow an operand. -/
inductive Delimited : Str → Prop where
  | stop : Delimited []
  | close (rest) : Delimited (')' :: rest)
  | and (rest) : Delimited (" && ".toList ++ rest)
  | or (rest) : Delimited (" || ".toList ++ rest)

/-- In every context that waits for an operand, the text is read as a conjunct of the
given value. -/
def Reads (s : Str) (v : Bool) : Prop :=
  ∀ pad rest f fs, (∀ c ∈ pad, c = ' ') → Delimited rest → f.waiting = true →
    run value (f :: fs) (lexGo 0 pad (s ++ rest)) = run value (f.take v :: fs) (lexGo 0 [] rest)

theorem lexGo_char (hc : c ∉ "()&|".toList) (d : ℕ) (buf cs : Str) :
    lexGo d buf (c :: cs) = lexGo d (c :: buf) cs := by
  simp only [String.reduceToList, mem_cons, not_mem_nil, or_false, not_or] at hc
  rw [lexGo, if_neg hc.1, if_neg hc.2.1]
  · rintro _ rfl
    exact absurd rfl hc.2.2.1
  · rintro _ rfl
    exact absurd rfl hc.2.2.2

theorem lexGo_and (d : ℕ) (buf cs : Str) :
    lexGo d buf ('&' :: '&' :: cs) = flush buf ++ .and :: lexGo 0 [] cs := by
  rw [lexGo]

theorem lexGo_or (d : ℕ) (buf cs : Str) :
    lexGo d buf ('|' :: '|' :: cs) = flush buf ++ .or :: lexGo 0 [] cs := by
  rw [lexGo]

theorem lexGo_close (buf cs : Str) :
    lexGo 0 buf (')' :: cs) = flush buf ++ .rp :: lexGo 0 [] cs := by
  rw [lexGo] <;> simp

variable {buf : Str}

theorem lexGo_group (hbuf : ∀ c ∈ buf, c = ' ') (d : ℕ) (cs : Str) :
    lexGo d buf ('(' :: cs) = .lp false :: lexGo 0 [] cs := by
  have hblank : unstarted buf = true := by
    simp only [unstarted, all_eq_true]
    intro c hc
    simp [hbuf c hc]
  have hcount : buf.count '!' = 0 := count_eq_zero.mpr fun h => by
    cases hbuf _ h
  rw [lexGo, if_pos rfl, if_pos hblank, hcount]
  all_goals simp

theorem lexGo_call (hbuf : unstarted buf = false) (d : ℕ) (cs : Str) :
    lexGo d buf ('(' :: cs) = lexGo (d + 1) ('(' :: buf) cs := by
  rw [lexGo, if_pos rfl, if_neg (Bool.eq_false_iff.mp hbuf)]
  all_goals simp

theorem lexGo_return (hd : d ≠ 0) (buf cs : Str) :
    lexGo d buf (')' :: cs) = lexGo (d - 1) (')' :: buf) cs := by
  rw [lexGo] <;> simp [hd]

/-- The calls open behind a text, if it closes none that it did not open. -/
def depthAfter : ℕ → Str → Option ℕ
  | d, [] => some d
  | d, c :: cs =>
    if c = '(' then depthAfter (d + 1) cs
    else if c = ')' then if d = 0 then none else depthAfter (d - 1) cs
    else depthAfter d cs

theorem unstarted_cons (c : Char) (h : unstarted buf = false) : unstarted (c :: buf) = false := by
  simp only [unstarted, all_cons, Bool.and_eq_false_iff] at h ⊢
  exact Or.inr h

theorem lexGo_operand (hs : ∀ c ∈ s, c ≠ '&' ∧ c ≠ '|') (hd : depthAfter d s = some e)
    (hbuf : unstarted buf = false) (rest : Str) :
    lexGo d buf (s ++ rest) = lexGo e (s.reverse ++ buf) rest := by
  induction s generalizing d buf with
  | nil =>
    cases hd
    rfl
  | cons c s ih =>
    obtain ⟨hc, htail⟩ := forall_mem_cons.mp hs
    rw [reverse_cons, append_assoc, singleton_append]
    rw [depthAfter] at hd
    split_ifs at hd with hopen hclose hzero
    · subst hopen
      rw [cons_append, lexGo_call hbuf]
      exact ih htail hd (unstarted_cons _ hbuf)
    · subst hclose
      rw [cons_append, lexGo_return hzero]
      exact ih htail hd (unstarted_cons _ hbuf)
    · rw [cons_append, lexGo_char (by simp [hopen, hclose, hc])]
      exact ih htail hd (unstarted_cons _ hbuf)

variable {value}

@[simp] theorem run_nil (stack : List Frame) : run value stack [] = some stack := rfl

@[simp] theorem run_cons (stack : List Frame) (t : Token) (ts : List Token) :
    run value stack (t :: ts) = (step value stack t).bind fun s => run value s ts := rfl

theorem flush_blank (h : ∀ c ∈ buf, c = ' ') : flush buf = [] := if_pos (by simpa using h)

theorem lexGo_conjunction (buf : Str) (h : ∀ c ∈ buf, c = ' ') (rest : Str) :
    lexGo 0 buf (" && ".toList ++ rest) = .and :: lexGo 0 [' '] rest := by
  have hsp : ∀ c ∈ ' ' :: buf, c = ' ' := forall_mem_cons.mpr ⟨rfl, h⟩
  show lexGo 0 buf (' ' :: '&' :: '&' :: ' ' :: rest) = _
  rw [lexGo_char (by decide), lexGo_and, flush_blank hsp, lexGo_char (by decide)]
  rfl

theorem lexGo_disjunction (buf : Str) (h : ∀ c ∈ buf, c = ' ') (rest : Str) :
    lexGo 0 buf (" || ".toList ++ rest) = .or :: lexGo 0 [' '] rest := by
  have hsp : ∀ c ∈ ' ' :: buf, c = ' ' := forall_mem_cons.mpr ⟨rfl, h⟩
  show lexGo 0 buf (' ' :: '|' :: '|' :: ' ' :: rest) = _
  rw [lexGo_char (by decide), lexGo_or, flush_blank hsp, lexGo_char (by decide)]
  rfl

theorem lexGo_delimited (hbuf : unstarted buf = false) {rest : Str} (hrest : Delimited rest) :
    ∃ pad, (∀ c ∈ pad, c = ' ') ∧ lexGo 0 buf rest = .lit (buf.reverse ++ pad) ::
      lexGo 0 [] rest := by
  have hflush : ∀ pad : Str, flush (pad ++ buf) = [.lit (buf.reverse ++ pad.reverse)] := by
    intro pad
    rw [flush, if_neg, reverse_append]
    intro hall
    rw [unstarted, all_eq_false] at hbuf
    obtain ⟨c, hc, hne⟩ := hbuf
    have hblank := all_eq_true.mp hall c (mem_append_right _ hc)
    exact hne (by simp [of_decide_eq_true hblank])
  cases hrest with
  | stop => exact ⟨[], by simp, hflush []⟩
  | close rest =>
    refine ⟨[], by simp, ?_⟩
    rw [lexGo_close, lexGo_close]
    exact congrArg (· ++ Token.rp :: lexGo 0 [] rest) (hflush [])
  | and rest =>
    refine ⟨[' '], by simp, ?_⟩
    rw [lexGo_conjunction [] (by simp)]
    show lexGo 0 buf (' ' :: '&' :: '&' :: ' ' :: rest) = _
    rw [lexGo_char (by decide), lexGo_and, lexGo_char (by decide)]
    exact congrArg (· ++ _) (hflush [' '])
  | or rest =>
    refine ⟨[' '], by simp, ?_⟩
    rw [lexGo_disjunction [] (by simp)]
    show lexGo 0 buf (' ' :: '|' :: '|' :: ' ' :: rest) = _
    rw [lexGo_char (by decide), lexGo_or, lexGo_char (by decide)]
    exact congrArg (· ++ _) (hflush [' '])

/-- The shape of a literal: negations, then an operand whose calls are balanced. -/
structure IsLiteral (s : Str) : Prop where
  shape : ∃ bangs c t, s = bangs ++ c :: t ∧ (∀ b ∈ bangs, b = '!') ∧ c ∉ " !()&|".toList ∧
    (∀ x ∈ t, x ≠ '&' ∧ x ≠ '|') ∧ depthAfter 0 t = some 0

theorem reads_literal (hs : IsLiteral s)
    (hv : ∀ p q : Str, (∀ c ∈ p, c = ' ') → (∀ c ∈ q, c = ' ') → value (p ++ s ++ q) = some v) :
    Reads value s v := by
  obtain ⟨bangs, c, t, rfl, hbangs, hc, ht, hdepth⟩ := hs.shape
  intro pad rest f fs hpad hrest hwait
  have hstart : ∀ (bs : Str) (buf tail : Str), (∀ b ∈ bs, b = '!') →
      lexGo 0 buf (bs ++ tail) = lexGo 0 (bs.reverse ++ buf) tail := by
    intro bs
    induction bs with
    | nil => intro buf tail _; rfl
    | cons b bs ih =>
      intro buf tail hb
      obtain ⟨rfl, htail⟩ := forall_mem_cons.mp hb
      rw [cons_append, lexGo_char (by decide), ih _ _ htail]
      simp
  have hbuf : unstarted (c :: (bangs.reverse ++ pad)) = false := by
    have hne : ¬(c = ' ' ∨ c = '!') := by
      rintro (rfl | rfl) <;> exact hc (by decide)
    simp [unstarted, hne]
  have hlex : lexGo 0 pad (bangs ++ c :: t ++ rest) =
      lexGo 0 ((bangs ++ c :: t).reverse ++ pad) rest := by
    have hchar : c ∉ "()&|".toList := fun h => hc (mem_cons_of_mem _ (mem_cons_of_mem _ h))
    rw [append_assoc, cons_append, hstart _ _ _ hbangs, lexGo_char hchar,
      lexGo_operand ht hdepth hbuf]
    simp
  have hstarted : unstarted ((bangs ++ c :: t).reverse ++ pad) = false := by
    rw [unstarted, all_eq_false] at hbuf ⊢
    obtain ⟨x, hx, hne⟩ := hbuf
    refine ⟨x, ?_, hne⟩
    simp only [mem_cons, mem_append, mem_reverse] at hx ⊢
    tauto
  obtain ⟨q, hq, hlit⟩ := lexGo_delimited hstarted hrest
  rw [hlex, hlit, run_cons]
  have htext : ((bangs ++ c :: t).reverse ++ pad).reverse ++ q =
      pad.reverse ++ (bangs ++ c :: t) ++ q := by simp
  rw [htext, step, if_pos hwait, hv _ _ (by simpa using hpad) hq]
  rfl

theorem reads_and (hs : Reads value s v) (ht : Reads value t w) :
    Reads value (s ++ " && ".toList ++ t) (v && w) := by
  intro pad rest f fs hpad hrest hwait
  rw [append_assoc, append_assoc, hs pad _ f fs hpad (.and _) hwait,
    lexGo_conjunction [] (by simp), run_cons]
  have hstep : step value (f.take v :: fs) .and = some ({ f.take v with waiting := true } :: fs) :=
    rfl
  rw [hstep, Option.bind_some, ht [' '] rest _ fs (by simp) hrest rfl, Frame.take_take]

variable {ps : List (Str × Bool)} {p : Str × Bool}

section

variable (h : ∀ q ∈ p :: ps, Reads value q.1 q.2)

include h

theorem reads_join_and :
    Reads value (join " && ".toList ((p :: ps).map Prod.fst)) ((p :: ps).all Prod.snd) := by
  induction ps generalizing p with
  | nil => simpa [join] using h p mem_cons_self
  | cons q qs ih =>
    obtain ⟨hp, hqs⟩ := forall_mem_cons.mp h
    rw [join, map_cons, map_cons, intercalate_cons_cons]
    exact reads_and hp (ih hqs)

theorem run_join_or (pad rest : Str) (f : Frame) (fs : List Frame)
    (hpad : ∀ c ∈ pad, c = ' ') (hrest : Delimited rest) (hwait : f.waiting = true) :
    run value (f :: fs) (lexGo 0 pad (join " || ".toList ((p :: ps).map Prod.fst) ++ rest)) =
      run value (f.takeAny p.2 (ps.map Prod.snd) :: fs) (lexGo 0 [] rest) := by
  induction ps generalizing p pad f with
  | nil =>
    simpa [join, Frame.takeAny] using h p mem_cons_self pad rest f fs hpad hrest hwait
  | cons q qs ih =>
    obtain ⟨hp, hqs⟩ := forall_mem_cons.mp h
    rw [join, map_cons, map_cons, intercalate_cons_cons, append_assoc,
      append_assoc, hp pad _ f fs hpad (.or _) hwait, lexGo_disjunction [] (by simp),
      run_cons]
    have hstep : step value (f.take p.2 :: fs) .or = some ((f.take p.2).next :: fs) := rfl
    rw [hstep, Option.bind_some]
    exact ih hqs [' '] _ (by simp) rfl

theorem reads_group :
    Reads value ("(".toList ++ join " || ".toList ((p :: ps).map Prod.fst) ++ ")".toList)
      ((p :: ps).any Prod.snd) := by
  intro pad rest f fs hpad hrest hwait
  have hsplit : "(".toList ++ join " || ".toList ((p :: ps).map Prod.fst) ++ ")".toList ++ rest =
      '(' :: (join " || ".toList ((p :: ps).map Prod.fst) ++ ')' :: rest) := by simp
  rw [hsplit, lexGo_group hpad, run_cons, step, if_pos hwait, Option.bind_some,
    run_join_or h [] _ _ _ (by simp) (.close rest) rfl, lexGo_close, flush_blank (by simp)]
  simp only [nil_append, run_cons, step, Frame.takeAny_waiting, Frame.takeAny_result]
  simp [Frame.start, any_map]

theorem evaluate_or :
    evaluate value (join " || ".toList ((p :: ps).map Prod.fst)) =
      some ((p :: ps).any Prod.snd) := by
  have hrun := run_join_or h [] [] (.start false) [] (by simp) .stop rfl
  rw [append_nil] at hrun
  rw [evaluate, hrun]
  simp [lexGo, flush, Frame.takeAny_waiting, Frame.takeAny_result, Frame.start, any_map]

theorem evaluate_and :
    evaluate value (join " && ".toList ((p :: ps).map Prod.fst)) =
      some ((p :: ps).all Prod.snd) := by
  have hrun := reads_join_and h [] [] (.start false) [] (by simp) .stop rfl
  rw [append_nil] at hrun
  rw [evaluate, hrun]
  simp [lexGo, flush, Frame.take, Frame.start, Frame.result]

end

theorem depthAfter_append (d : ℕ) (a b : Str) :
    depthAfter d (a ++ b) = (depthAfter d a).bind fun e => depthAfter e b := by
  induction a generalizing d with
  | nil => rfl
  | cons c a ih =>
    simp only [cons_append, depthAfter]
    split_ifs
    · exact ih _
    · rfl
    · exact ih _
    · exact ih _

section Literals

/-- What a literal is about: the truth of a term, or the equality of two. -/
inductive Atom where
  | truth (t : Str)
  | equal (a b : Str)
  deriving DecidableEq, Repr

def trim (s : Str) : Str := strip [' '] s

theorem trim_pad {p q : Str} (hp : ∀ c ∈ p, c = ' ') (hq : ∀ c ∈ q, c = ' ') (s : Str) :
    trim (p ++ s ++ q) = trim s :=
  strip_pad (by simpa using hp) (by simpa using hq) s

variable (σ : Atom → Bool)

def atomValue (s : Str) : Bool :=
  match index? "==".toList s with
  | some i => σ (.equal (trim (s.take i)) (trim (s.drop (i + 2))))
  | none =>
    match index? "!=".toList s with
    | some i => !σ (.equal (trim (s.take i)) (trim (s.drop (i + 2))))
    | none => σ (.truth (trim s))

def literalValue : Str → Option Bool
  | [] => none
  | c :: cs =>
    if c = ' ' then literalValue cs
    else if c = '!' then if '=' ∈ cs then none else (literalValue cs).map (!·)
    else some (atomValue σ (c :: cs))

/-- A term without operators whose parentheses belong to calls. -/
structure IsTerm (x : Str) : Prop where
  head : ∃ c t, x = c :: t ∧ c ∉ " ()".toList
  chars : ∀ c ∈ x, c ∉ "!=&|".toList
  calls : depthAfter 0 x = some 0

variable {x : Str}

theorem isTerm_iff : IsTerm x ↔ x.head?.any (· ∉ " ()".toList) = true ∧
    x.all (· ∉ "!=&|".toList) = true ∧ depthAfter 0 x = some 0 := by
  constructor
  · rintro ⟨⟨c, t, rfl, hc⟩, hchars, hcalls⟩
    exact ⟨decide_eq_true hc, all_eq_true.mpr fun y hy => decide_eq_true (hchars y hy), hcalls⟩
  · rintro ⟨hhead, hchars, hcalls⟩
    cases x with
    | nil => cases hhead
    | cons c t => exact ⟨⟨c, t, rfl, of_decide_eq_true hhead⟩, forall_chars hchars, hcalls⟩

instance (x : Str) : Decidable (IsTerm x) := decidable_of_iff' _ isTerm_iff

inductive Shape (α : Type) where
  | unary (t : α)
  | equal (a b : α)

structure Literal (α : Type) where
  positive : Bool
  shape : Shape α

namespace Literal

variable {α β : Type}

def terms (l : Literal α) : List α :=
  match l.shape with
  | .unary t => [t]
  | .equal a b => [a, b]

def map (f : α → β) (l : Literal α) : Literal β :=
  ⟨l.positive, match l.shape with
    | .unary t => .unary (f t)
    | .equal a b => .equal (f a) (f b)⟩

def negate (l : Literal α) : Literal α := ⟨!l.positive, l.shape⟩

def text (l : Literal Str) : Str :=
  match l.shape, l.positive with
  | .unary t, true => t
  | .unary t, false => '!' :: t
  | .equal a b, true => a ++ " == ".toList ++ b
  | .equal a b, false => a ++ " != ".toList ++ b

def atom (l : Literal Str) : Atom :=
  match l.shape with
  | .unary t => .truth (trim t)
  | .equal a b => .equal (trim a) (trim b)

def holds (l : Literal Str) : Bool := σ l.atom == l.positive

theorem holds_negate (l : Literal Str) : l.negate.holds σ = !l.holds σ := by
  unfold holds negate atom
  cases l.positive <;> simp

end Literal

theorem literalValue_pad {p : Str} (hp : ∀ c ∈ p, c = ' ') (s : Str) :
    literalValue σ (p ++ s) = literalValue σ s := by
  induction p with
  | nil => rfl
  | cons c p ih =>
    obtain ⟨rfl, htail⟩ := forall_mem_cons.mp hp
    rw [cons_append, literalValue, if_pos rfl, ih htail]

variable {σ}

theorem IsTerm.notMem (hx : IsTerm x) (hc : c ∈ "!=&|".toList) : c ∉ x := fun h => hx.chars c h hc

theorem notMem_blank {q : Str} (hq : ∀ c ∈ q, c = ' ') {c : Char} (hc : c ≠ ' ') : c ∉ q :=
  fun h => hc (hq c h)

theorem literalValue_atom (hx : IsTerm x) (rest : Str) :
    literalValue σ (x ++ rest) = some (atomValue σ (x ++ rest)) := by
  obtain ⟨c, t, rfl, hc⟩ := hx.head
  have hsp : c ≠ ' ' := by rintro rfl; exact hc (by decide)
  have hbang : c ≠ '!' := by rintro rfl; exact hx.chars _ mem_cons_self (by decide)
  rw [cons_append, literalValue, if_neg hsp, if_neg hbang]

theorem atomValue_truth (hx : IsTerm x) (hq : ∀ c ∈ q, c = ' ') :
    atomValue σ (x ++ q) = σ (.truth (trim x)) := by
  have hnone : ∀ n : Str, '=' ∈ n → index? n (x ++ q) = none := by
    intro n hn
    refine index?_eq_none_iff.mpr (not_isIn_of_notMem hn fun h => ?_)
    rcases mem_append.mp h with h | h
    · exact hx.notMem (by decide) h
    · exact notMem_blank hq (by decide) h
  rw [atomValue, hnone _ (by decide), hnone _ (by decide)]
  exact congrArg (fun t => σ (.truth t)) (trim_pad (p := []) (by simp) hq x)

private theorem comparison_sides (hq : ∀ c ∈ q, c = ' ') (a b : Char) :
    trim ((x ++ [' ', a, b, ' '] ++ y ++ q).take (x.length + 1)) = trim x ∧
    trim ((x ++ [' ', a, b, ' '] ++ y ++ q).drop (x.length + 1 + 2)) = trim y := by
  have htake : (x ++ [' ', a, b, ' '] ++ y ++ q).take (x.length + 1) = [] ++ x ++ [' '] := by
    have h : x ++ [' ', a, b, ' '] ++ y ++ q = (x ++ [' ']) ++ ([a, b, ' '] ++ y ++ q) := by simp
    rw [h, take_left' (by simp)]
    rfl
  have hdrop : (x ++ [' ', a, b, ' '] ++ y ++ q).drop (x.length + 1 + 2) = [' '] ++ y ++ q := by
    have h : x ++ [' ', a, b, ' '] ++ y ++ q = (x ++ [' ', a, b]) ++ ([' '] ++ y ++ q) := by simp
    rw [h, drop_left' (by simp)]
  rw [htake, hdrop]
  exact ⟨trim_pad (by simp) (by simp) x, trim_pad (by simp) hq y⟩

private theorem comparison_index (ha : a ∉ x) (hsp : a ≠ ' ') (rest : Str) :
    index? [a, b] (x ++ [' ', a, b, ' '] ++ rest) = some (x.length + 1) := by
  have hmem : a ∉ x ++ [' '] := by simp [ha, hsp]
  have h := index?_append (t := [b]) hmem (' ' :: rest)
  simpa using h

theorem atomValue_equal (hx : IsTerm x) (hq : ∀ c ∈ q, c = ' ') :
    atomValue σ (x ++ " == ".toList ++ y ++ q) = σ (.equal (trim x) (trim y)) := by
  have hidx := comparison_index (b := '=') (hx.notMem (by decide : '=' ∈ _)) (by decide) (y ++ q)
  obtain ⟨hleft, hright⟩ := comparison_sides (x := x) (y := y) hq '=' '='
  rw [← append_assoc] at hidx
  show atomValue σ (x ++ [' ', '=', '=', ' '] ++ y ++ q) = _
  rw [atomValue, show "==".toList = ['=', '='] from rfl, hidx]
  simp only [hleft, hright]

theorem atomValue_different (hx : IsTerm x) (hy : IsTerm y) (hq : ∀ c ∈ q, c = ' ') :
    atomValue σ (x ++ " != ".toList ++ y ++ q) = !σ (.equal (trim x) (trim y)) := by
  have hidx := comparison_index (b := '=') (hx.notMem (by decide : '!' ∈ _)) (by decide) (y ++ q)
  obtain ⟨hleft, hright⟩ := comparison_sides (x := x) (y := y) hq '!' '='
  have hnone : index? ['=', '='] (x ++ [' ', '!', '=', ' '] ++ y ++ q) = none := by
    have hyq : '=' ∉ y ++ q := by
      intro h
      rcases mem_append.mp h with h | h
      · exact hy.notMem (by decide) h
      · exact notMem_blank hq (by decide) h
    have hsplit : x ++ [' ', '!', '=', ' '] ++ y ++ q = x ++ ' ' ::
        (['!', '='] ++ ' ' :: (y ++ q)) := by
      simp
    rw [index?_eq_none_iff, hsplit, isIn_append_cons (by decide) (by decide),
      isIn_append_cons (by decide) (by decide),
      not_isIn_of_notMem (c := '=') (by decide) (hx.notMem (by decide)),
      not_isIn_of_notMem (c := '=') (by decide) hyq]
    rfl
  rw [← append_assoc] at hidx
  show atomValue σ (x ++ [' ', '!', '=', ' '] ++ y ++ q) = _
  rw [atomValue, show "==".toList = ['=', '='] from rfl, hnone,
    show "!=".toList = ['!', '='] from rfl, hidx]
  simp only [hleft, hright]

theorem IsTerm.isLiteral (hx : IsTerm x) (bangs rest : Str) (hb : ∀ b ∈ bangs, b = '!')
    (hrest : ∀ c ∈ rest, c ≠ '&' ∧ c ≠ '|') (hd : depthAfter 0 rest = some 0) :
    IsLiteral (bangs ++ (x ++ rest)) := by
  obtain ⟨c, t, rfl, hc⟩ := hx.head
  simp only [String.reduceToList, mem_cons, not_mem_nil, or_false, not_or] at hc
  have hcalls := hx.calls
  rw [depthAfter, if_neg hc.2.1, if_neg hc.2.2] at hcalls
  have hclean : ∀ y ∈ c :: t, y ≠ '&' ∧ y ≠ '|' := fun y hy =>
    ⟨fun h => hx.notMem (by decide) (h ▸ hy), fun h => hx.notMem (by decide) (h ▸ hy)⟩
  refine ⟨bangs, c, t ++ rest, by simp, hb, ?_, ?_, ?_⟩
  · have hne : c ≠ '!' := by
      rintro rfl
      exact hx.notMem (by decide) mem_cons_self
    simp [hc, hne, hclean c mem_cons_self]
  · intro y hy
    rcases mem_append.mp hy with hy | hy
    · exact hclean y (mem_cons_of_mem _ hy)
    · exact hrest y hy
  · rw [depthAfter_append, hcalls]
    exact hd

theorem reads_truth (ht : IsTerm t) : Reads (literalValue σ) t (σ (.truth (trim t))) := by
  have hlit := ht.isLiteral [] [] (by simp) (by simp) rfl
  rw [nil_append, append_nil] at hlit
  refine reads_literal hlit fun p q hp hq => ?_
  rw [append_assoc, literalValue_pad σ hp, literalValue_atom ht, atomValue_truth ht hq]

theorem reads_not (ht : IsTerm t) : Reads (literalValue σ) ('!' :: t) (!σ (.truth (trim t))) := by
  have hlit := ht.isLiteral ['!'] [] (by simp) (by simp) rfl
  rw [append_nil] at hlit
  refine reads_literal hlit fun p q hp hq => ?_
  have heq : '=' ∉ t ++ q := by
    intro h
    rcases mem_append.mp h with h | h
    · exact ht.notMem (by decide) h
    · exact notMem_blank hq (by decide) h
  rw [append_assoc, literalValue_pad σ hp]
  show literalValue σ ('!' :: (t ++ q)) = _
  rw [literalValue, if_neg (by decide), if_pos rfl, if_neg heq, literalValue_atom ht,
    atomValue_truth ht hq]
  rfl

private theorem comparison_isLiteral (ha : IsTerm a) (hb : IsTerm b)
    (hc : c ∉ "()&|".toList) : IsLiteral (a ++ [' ', c, '=', ' '] ++ b) := by
  simp only [String.reduceToList, mem_cons, not_mem_nil, or_false, not_or] at hc
  suffices h : IsLiteral ([] ++ (a ++ ([' ', c, '=', ' '] ++ b))) by simpa using h
  refine ha.isLiteral [] _ (by simp) ?_ ?_
  · intro x hx
    simp only [cons_append, nil_append, mem_cons] at hx
    rcases hx with rfl | rfl | rfl | rfl | hx
    · decide
    · exact ⟨hc.2.2.1, hc.2.2.2⟩
    · decide
    · decide
    · exact ⟨fun h => hb.notMem (by decide) (h ▸ hx), fun h => hb.notMem (by decide) (h ▸ hx)⟩
  · simp [depthAfter, hc, hb.calls]

theorem reads_comparison (ha : IsTerm a) (hb : IsTerm b) (hc : c ∉ "()&|".toList)
    (hv : ∀ q : Str, (∀ c ∈ q, c = ' ') → atomValue σ (a ++ [' ', c, '=', ' '] ++ b ++ q) = v) :
    Reads (literalValue σ) (a ++ [' ', c, '=', ' '] ++ b) v := by
  refine reads_literal (comparison_isLiteral ha hb hc) fun p q hp hq => ?_
  have h := literalValue_atom (σ := σ) ha ([' ', c, '=', ' '] ++ b ++ q)
  rw [← append_assoc, ← append_assoc] at h
  rw [append_assoc, literalValue_pad σ hp, h, hv q hq]

theorem reads_equal (ha : IsTerm a) (hb : IsTerm b) :
    Reads (literalValue σ) (a ++ " == ".toList ++ b) (σ (.equal (trim a) (trim b))) :=
  reads_comparison ha hb (by decide) fun _ hq => atomValue_equal ha hq

theorem reads_different (ha : IsTerm a) (hb : IsTerm b) :
    Reads (literalValue σ) (a ++ " != ".toList ++ b) (!σ (.equal (trim a) (trim b))) :=
  reads_comparison ha hb (by decide) fun _ hq => atomValue_different ha hb hq

theorem reads_text {l : Literal Str} (hl : ∀ t ∈ l.terms, IsTerm t) :
    Reads (literalValue σ) l.text (l.holds σ) := by
  obtain ⟨positive, shape⟩ := l
  cases shape with
  | unary t =>
    have ht : IsTerm t := hl t mem_cons_self
    cases positive with
    | true =>
      have h := reads_truth (σ := σ) ht
      rwa [← beq_true (σ (.truth (trim t)))] at h
    | false =>
      have h := reads_not (σ := σ) ht
      rwa [← beq_false (σ (.truth (trim t)))] at h
  | equal a b =>
    have ha : IsTerm a := hl a mem_cons_self
    have hb : IsTerm b := hl b (mem_cons_of_mem _ mem_cons_self)
    cases positive with
    | true =>
      have h := reads_equal (σ := σ) ha hb
      rwa [← beq_true (σ (.equal (trim a) (trim b)))] at h
    | false =>
      have h := reads_different (σ := σ) ha hb
      rwa [← beq_false (σ (.equal (trim a) (trim b)))] at h

section Texts

variable {needle old new : Str}

def marks : Str := "! =".toList

theorem Literal.mem_text {l : Literal Str} {c : Char} (h : c ∈ l.text) :
    (∃ t ∈ l.terms, c ∈ t) ∨ c ∈ marks := by
  obtain ⟨positive, shape⟩ := l
  cases shape with
  | unary t =>
    cases positive with
    | true => exact Or.inl ⟨t, mem_cons_self, h⟩
    | false =>
      rcases mem_cons.mp h with rfl | h
      · exact Or.inr (by decide)
      · exact Or.inl ⟨t, mem_cons_self, h⟩
  | equal a b =>
    have hsplit : ∀ op : Str, (∀ x ∈ op, x ∈ marks) → c ∈ a ++ op ++ b →
        (∃ t ∈ [a, b], c ∈ t) ∨ c ∈ marks := by
      intro op hop hc
      rcases mem_append.mp hc with hc | hc
      · rcases mem_append.mp hc with hc | hc
        · exact Or.inl ⟨a, mem_cons_self, hc⟩
        · exact Or.inr (hop c hc)
      · exact Or.inl ⟨b, mem_cons_of_mem _ mem_cons_self, hc⟩
    cases positive with
    | true | false => exact hsplit _ (forall_chars (by decide)) h

theorem isIn_spaced (hne : needle ≠ []) (hsp : ' ' ∉ needle) (a op b : Str) :
    isIn needle (a ++ (' ' :: op ++ " ".toList) ++ b) =
      (isIn needle a || (isIn needle op || isIn needle b)) := by
  have hsplit : a ++ (' ' :: op ++ " ".toList) ++ b = a ++ ' ' :: (op ++ ' ' :: b) := by simp
  rw [hsplit, isIn_append_cons hsp hne, isIn_append_cons hsp hne]

theorem Literal.isIn_text (hne : needle ≠ []) (hmarks : ∀ c ∈ marks, c ∉ needle)
    (l : Literal Str) : isIn needle l.text = l.terms.any (isIn needle) := by
  have hsp : ' ' ∉ needle := hmarks _ (by decide)
  have hop : ∀ op : Str, (∀ c ∈ op, c ∈ marks) → isIn needle op = false := by
    intro op h
    obtain ⟨x, xs, rfl⟩ := exists_cons_of_ne_nil hne
    exact not_isIn_of_notMem mem_cons_self fun hx => hmarks x (h x hx) mem_cons_self
  obtain ⟨positive, shape⟩ := l
  cases shape with
  | unary t =>
    cases positive with
    | true => exact (Bool.or_false _).symm
    | false =>
      have h := isIn_append_cons (a := []) (b := t) (hmarks '!' (by decide)) hne
      rw [hop [] (by simp), Bool.false_or] at h
      exact h.trans (Bool.or_false _).symm
  | equal a b =>
    have hcmp : ∀ op : Str, (∀ c ∈ op, c ∈ marks) →
        isIn needle (a ++ (' ' :: op ++ " ".toList) ++ b) = [a, b].any (isIn needle) := by
      intro op h
      rw [isIn_spaced hne hsp, hop op h]
      simp
    cases positive with
    | true => exact hcmp "==".toList (forall_chars (by decide))
    | false => exact hcmp "!=".toList (forall_chars (by decide))

theorem Literal.replace_text (hne : old ≠ []) (hmarks : ∀ c ∈ marks, c ∉ old)
    (new : Str) (l : Literal Str) : replace old new l.text = (l.map (replace old new)).text := by
  have hsp : ' ' ∉ old := hmarks _ (by decide)
  obtain ⟨positive, shape⟩ := l
  cases shape with
  | unary t =>
    cases positive with
    | true => rfl
    | false =>
      have h := replace_append_cons hne (hmarks '!' (by decide)) new [] t
      rw [replace_nil hne] at h
      exact h
  | equal a b =>
    have hcmp : ∀ op : Str, (∀ c ∈ op, c ∈ marks) →
        replace old new (a ++ (' ' :: op ++ " ".toList) ++ b) =
          replace old new a ++ (' ' :: op ++ " ".toList) ++ replace old new b := by
      intro op h
      have hsplit : ∀ u v : Str, u ++ (' ' :: op ++ " ".toList) ++ v = u ++ ' ' ::
          (op ++ ' ' :: v) := by
        intro u v
        simp
      rw [hsplit, hsplit, replace_append_cons hne hsp, replace_append_cons hne hsp,
        replace_disjoint hne new fun c hc => hmarks c (h c hc)]
    cases positive with
    | true => exact hcmp "==".toList (forall_chars (by decide))
    | false => exact hcmp "!=".toList (forall_chars (by decide))

/-- Names without operators and parentheses that may replace one another inside terms. -/
structure IsName (s : Str) : Prop where
  ne_nil : s ≠ []
  chars : ∀ c ∈ s, c ∉ "() !=&|".toList

theorem depthAfter_name (hs : IsName s) (d : ℕ) (rest : Str) :
    depthAfter d (s ++ rest) = depthAfter d rest := by
  have hchars := hs.chars
  clear hs
  induction s with
  | nil => rfl
  | cons c s ih =>
    obtain ⟨hc, hs⟩ := forall_mem_cons.mp hchars
    have hopen : c ≠ '(' := by rintro rfl; exact hc (by decide)
    have hclose : c ≠ ')' := by rintro rfl; exact hc (by decide)
    rw [cons_append, depthAfter, if_neg hopen, if_neg hclose, ih hs]

theorem IsTerm.replace (hx : IsTerm x) (hold : IsName old) (hnew : IsName new) :
    IsTerm (replace old new x) := by
  have hcalls : ∀ d, depthAfter d (PythonText.replace old new x) = depthAfter d x := by
    refine replace_induction hold.ne_nil (P := fun s r => ∀ d, depthAfter d r = depthAfter d s)
      (fun _ => rfl) ?_ ?_ x
    · intro rest r ih d
      rw [depthAfter_name hnew, depthAfter_name hold, ih]
    · intro c cs r ih d
      simp only [depthAfter, ih]
  have hchars : ∀ c ∈ PythonText.replace old new x, c ∈ x ∨ c ∈ new := by
    refine replace_induction hold.ne_nil (P := fun s r => ∀ c ∈ r, c ∈ s ∨ c ∈ new)
      (fun c hc => nomatch hc) ?_ ?_ x
    · intro rest r ih c hc
      rcases mem_append.mp hc with hc | hc
      · exact Or.inr hc
      · exact (ih c hc).imp_left (mem_append_right old)
    · intro y cs r ih c hc
      rcases mem_cons.mp hc with rfl | hc
      · exact Or.inl mem_cons_self
      · exact (ih c hc).imp_left (mem_cons_of_mem y)
  obtain ⟨n, ns, hn⟩ := exists_cons_of_ne_nil hnew.ne_nil
  have hnhead : n ∉ " ()".toList := by
    intro h
    refine hnew.chars n (hn ▸ mem_cons_self) ?_
    simp only [String.reduceToList, mem_cons, not_mem_nil, or_false] at h ⊢
    tauto
  refine ⟨?_, ?_, (hcalls 0).trans hx.calls⟩
  · refine replace_induction hold.ne_nil (P := fun s r => (∃ c t, s = c :: t ∧ c ∉ " ()".toList) →
      ∃ c t, r = c :: t ∧ c ∉ " ()".toList) ?_ ?_ ?_ x hx.head
    · exact id
    · intro rest r _ _
      exact ⟨n, ns ++ r, by rw [hn, cons_append], hnhead⟩
    · rintro c cs r _ ⟨c', t, he, hc⟩
      obtain ⟨rfl, rfl⟩ := List.cons.inj he
      exact ⟨c, r, rfl, hc⟩
  · intro c hc hop
    rcases hchars c hc with hc | hc
    · exact hx.chars c hc hop
    · refine hnew.chars c hc ?_
      simp only [String.reduceToList, mem_cons, not_mem_nil, or_false] at hop ⊢
      tauto

end Texts

end Literals

end ConditionText
