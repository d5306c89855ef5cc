import FlexPlan.BalancedText
import FlexPlan.PythonText

/-!
# Merging the egress pipeline into the ingress pipeline

`ingres_egress_merge` collects the declarations and the apply block of the egress control, and
writes them into the ingress control, behind what it finds there. The lines of a control are
counted by their braces.
-/
namespace IngressEgressMerge

open PythonText BalancedText List

section Source

inductive Region where
  | outside
  | egress
  | ingress
  deriving DecidableEq

def applyMark : Str := "apply \x7b".toList

def egressMark : Str := "control egress(".toList

def ingressMark : Str := "control ingress(".toList

def braceDepth (s : Str) : ℤ := depth '\x7b' '\x7d' s

/-- The entries of `ghost_dict`: name, width and initial value. -/
abbrev Ghosts := Dict Str (Str × Str × Str)

/-- The local variables, with the loop the program is in. -/
structure Scan where
  region : Region := .outside
  depth : ℤ := 0
  flagApply : Bool := false
  result : Str := []
  egressName : Str := []
  egressApply : Str := []
  deriving DecidableEq

def initialization (name value : Str) : Str :=
  "        hdr.version.".toList ++ (name ++ " = ".toList ++ value ++ ";\n".toList)

def fixedGhosts : List (Str × Str) :=
  [("HITS".toList, "8w0".toList), ("VERSION".toList, "8w0".toList),
    ("LENGTH".toList, "8w0".toList), ("CONTROL".toList, "7w0".toList),
    ("VIOLATION".toList, "1w0".toList)]

def initializations (ghosts : Ghosts) : List Str :=
  (fixedGhosts ++ ghosts.map fun e => (e.2.1, e.2.2.2)).map fun g => initialization g.1 g.2

/-- `"\n".join(s.split("\n")[:-2]) + "\n"`. -/
def dropLastLine (s : Str) : Str :=
  join "\n".toList ((split "\n".toList s).take ((split "\n".toList s).length - 2)) ++ "\n".toList

/-- `"\n".join(s.split("\n")[1:])`. -/
def dropFirstLine (s : Str) : Str := join "\n".toList ((split "\n".toList s).drop 1)

variable (ghosts : Ghosts) (s : Scan) (line : Str)

/-- The tests in front of the two inner loops, which start with fresh flags. -/
def enter : Scan :=
  if s.region = .outside then
    if isIn egressMark line then { s with region := .egress, depth := 0, flagApply := false }
    else if isIn ingressMark line then
      { s with region := .ingress, depth := 0, flagApply := false }
    else s
  else s

def egressLine : Scan :=
  let flagApply := s.flagApply || isIn applyMark line
  if isIn egressMark line then { s with flagApply, result := s.result ++ line }
  else if line.head? = some '\x7d' then
    { s with flagApply, result := s.result ++ "apply\x7b\x7d\n".toList ++ line }
  else if flagApply then { s with flagApply, egressApply := s.egressApply ++ line }
  else { s with flagApply, egressName := s.egressName ++ line }

def ingressLine : Scan :=
  let named := if isIn applyMark line then s.result ++ s.egressName else s.result
  let closed :=
    if line.head? = some '\x7d' then dropLastLine named ++ dropFirstLine s.egressApply else named
  let written := closed ++ line
  { s with
    result := if isIn applyMark line then written ++ (initializations ghosts).flatten
      else written }

def track : Scan :=
  { s with
    depth := s.depth + braceDepth line
    region := if s.depth + braceDepth line = 0 then .outside else s.region }

def scanLine : Scan :=
  match (enter s line).region with
  | .outside => { enter s line with result := s.result ++ line }
  | .egress => track (egressLine (enter s line) line) line
  | .ingress => track (ingressLine ghosts (enter s line) line) line

/-- The merged text; the inner loops raise if the text ends inside of a control. -/
def ingresEgressMerge (text : Str) : Option Str :=
  let s := (readLines text).foldl (scanLine ghosts) {}
  if s.region = .outside then some s.result else none

end Source

section Layout

def applyLine : Str := "    apply \x7b\n".toList

def applyEnd : Str := "    \x7d\n".toList

def controlEnd : Str := "\x7d\n".toList

/-- Declarations or statements, as they are printed inside of a control. -/
structure Body (ls : List Str) : Prop where
  lines : ∀ l ∈ ls, IsLine l
  indented : ∀ l ∈ ls, l.head? ≠ some '\x7d'
  quiet : ∀ l ∈ ls, isIn applyMark l = false ∧ isIn egressMark l = false
  balanced : Balanced '\x7b' '\x7d' ls.flatten

/-- Everything between and around the two controls. -/
structure Outside (ls : List Str) : Prop where
  lines : ∀ l ∈ ls, IsLine l
  quiet : ∀ l ∈ ls, isIn egressMark l = false ∧ isIn ingressMark l = false
  balanced : Balanced '\x7b' '\x7d' ls.flatten

/-- The head of a control, up to its brace. -/
structure Header (h : Str) : Prop where
  line : '\n' ∉ h
  plain : '\x7b' ∉ h ∧ '\x7d' ∉ h
  quiet : isIn applyMark (h ++ "\x7b\n".toList) = false

structure Control where
  header : Str
  decls : List Str
  stmts : List Str

def Control.lines (c : Control) : List Str :=
  [c.header ++ "\x7b\n".toList] ++ c.decls ++ [applyLine] ++ c.stmts ++ [applyEnd, controlEnd]

def Control.headLine (c : Control) : Str := c.header ++ "\x7b\n".toList

structure Control.Printed (c : Control) : Prop where
  header : Header c.header
  decls : Body c.decls
  stmts : Body c.stmts

/-- A program with one control of each kind. -/
structure Program where
  before : List Str
  between : List Str
  after : List Str
  egress : Control
  ingress : Control
  egressFirst : Bool
  outside : Outside before ∧ Outside between ∧ Outside after
  egress_printed : egress.Printed
  ingress_printed : ingress.Printed
  egress_named : isIn egressMark (egress.header ++ "\x7b\n".toList) = true
  ingress_named : isIn ingressMark (ingress.header ++ "\x7b\n".toList) = true ∧
    isIn egressMark (ingress.header ++ "\x7b\n".toList) = false

def Program.arrange (p : Program) (egress ingress : List Str) : List Str :=
  if p.egressFirst then p.before ++ egress ++ p.between ++ ingress ++ p.after
  else p.before ++ ingress ++ p.between ++ egress ++ p.after

def Program.text (p : Program) : Str := (p.arrange p.egress.lines p.ingress.lines).flatten

def Braceless (s : Str) : Prop := ∀ c ∈ s, c ≠ '\x7b' ∧ c ≠ '\x7d'

/-- Ghost variables are named and initialised by words without braces. -/
def Plain (ghosts : Ghosts) : Prop :=
  ∀ e ∈ ghosts, ∀ c ∈ e.2.1 ++ e.2.2.2, c ≠ '\x7b' ∧ c ≠ '\x7d'

variable (p : Program) (ghosts : Ghosts)

def Program.merged : Control where
  header := p.ingress.header
  decls := p.ingress.decls ++ p.egress.decls
  stmts := initializations ghosts ++ p.ingress.stmts ++ p.egress.stmts

def Program.emptied : List Str :=
  [p.egress.header ++ "\x7b\n".toList, "apply\x7b\x7d\n".toList, controlEnd]

/-- The text written for a program with the ingress control first. -/
def Program.unmerged : Str :=
  p.before.flatten ++ (p.ingress.headLine ++ p.ingress.decls.flatten ++ applyLine ++
    (initializations ghosts).flatten ++ p.ingress.stmts.flatten ++ controlEnd) ++
  p.between.flatten ++ p.emptied.flatten ++ p.after.flatten

structure Merged (out : Str) : Prop where
  ingress : (p.merged ghosts).lines.flatten <:+: out
  egress : p.emptied.flatten <:+: out
  others : ∀ ls ∈ [p.before, p.between, p.after], ls.flatten <:+: out
  balanced : Balanced '\x7b' '\x7d' out

end Layout

section Lines

theorem dropLastLine_append (hs : s.getLast? = some '\n') (hl : IsLine l) :
    dropLastLine (s ++ l) = s := by
  obtain ⟨t, rfl, ht⟩ := hl.exists_eq
  have hend : s.dropLast ++ ['\n'] = s := dropLast_append_getLast? _ hs
  have hsplit : split "\n".toList (s ++ (t ++ ['\n'])) = split ['\n'] s.dropLast ++ [t, []] := by
    have htext : s ++ (t ++ ['\n']) = s.dropLast ++ '\n' :: (t ++ '\n' :: []) := by
      nth_rewrite 1 [← hend]
      simp
    rw [htext, show "\n".toList = ['\n'] from rfl, split_append_char, split_append_char,
      split_of_notMem ht]
    rfl
  have htake : (split ['\n'] s.dropLast ++ [t, []]).take
      ((split ['\n'] s.dropLast ++ [t, []]).length - 2) = split ['\n'] s.dropLast := by
    rw [length_append]
    exact take_left
  rw [dropLastLine, hsplit, htake, show "\n".toList = ['\n'] from rfl, join_split, hend]

theorem dropFirstLine_append (hl : IsLine l) (s : Str) : dropFirstLine (l ++ s) = s := by
  obtain ⟨t, rfl, ht⟩ := hl.exists_eq
  have htext : t ++ ['\n'] ++ s = t ++ '\n' :: s := by simp
  rw [dropFirstLine, htext, show "\n".toList = ['\n'] from rfl, split_append_char,
    split_of_notMem ht]
  exact join_split '\n' s

theorem getLast?_initialization (name value : Str) :
    (initialization name value).getLast? = some '\n' := by
  unfold initialization
  generalize "        hdr.version.".toList = front
  generalize " = ".toList = middle
  simp

theorem getLast?_append_lines {ls : List Str} (hs : s.getLast? = some '\n')
    (hls : ∀ l ∈ ls, l.getLast? = some '\n') : (s ++ ls.flatten).getLast? = some '\n' := by
  induction ls generalizing s with
  | nil => simpa using hs
  | cons l ls ih =>
    obtain ⟨hl, hls⟩ := forall_mem_cons.mp hls
    rw [flatten_cons, ← append_assoc]
    refine ih ?_ hls
    rw [getLast?_append, hl]
    rfl

end Lines

section Scanning

variable {ghosts : Ghosts} {s : Scan} {ls : List Str}

theorem foldl_outside (hs : s.region = .outside)
    (hquiet : ∀ l ∈ ls, isIn egressMark l = false ∧ isIn ingressMark l = false) :
    ls.foldl (scanLine ghosts) s = { s with result := s.result ++ ls.flatten } := by
  induction ls generalizing s with
  | nil => simp
  | cons l ls ih =>
    obtain ⟨⟨heg, hin⟩, hquiet⟩ := forall_mem_cons.mp hquiet
    have henter : enter s l = s := by
      rw [enter, if_pos hs, if_neg (by simp [heg]), if_neg (by simp [hin])]
    have hstep : scanLine ghosts s l = { s with result := s.result ++ l } := by
      unfold scanLine
      simp only [henter, hs]
    rw [foldl_cons, hstep, ih (s := { s with result := s.result ++ l }) hs hquiet]
    simp

theorem scanLine_egress (hs : s.region = .egress) (l : Str) :
    scanLine ghosts s l = track (egressLine s l) l := by
  have henter : enter s l = s := by rw [enter, if_neg (by simp [hs])]
  unfold scanLine
  simp only [henter, hs]

theorem scanLine_ingress (hs : s.region = .ingress) (l : Str) :
    scanLine ghosts s l = track (ingressLine ghosts s l) l := by
  have henter : enter s l = s := by rw [enter, if_neg (by simp [hs])]
  unfold scanLine
  simp only [henter, hs]

theorem Body.stays (h : Body ls) (hd : 0 < d) (hp : p <+: ls) : 0 < d + braceDepth p.flatten := by
  obtain ⟨q, rfl⟩ := hp
  have habove := h.balanced.above p.flatten (by rw [flatten_append]; exact prefix_append _ _)
  rw [braceDepth]
  omega

theorem Body.depth_zero (h : Body ls) : braceDepth ls.flatten = 0 := h.balanced.settled

theorem braceDepth_append (a b : Str) : braceDepth (a ++ b) = braceDepth a + braceDepth b :=
  depth_append a b

theorem stays_tail (h : ∀ p, p <+: l :: ls → 0 < d + braceDepth p.flatten) :
    0 < d + braceDepth l ∧ ∀ p, p <+: ls → 0 < d + braceDepth l + braceDepth p.flatten := by
  refine ⟨?_, fun p hp => ?_⟩
  · have hfirst := h [l] (cons_prefix_cons.mpr ⟨rfl, nil_prefix⟩)
    rwa [flatten_singleton] at hfirst
  · have hrest := h (l :: p) (cons_prefix_cons.mpr ⟨rfl, hp⟩)
    rw [flatten_cons, braceDepth_append] at hrest
    omega

/-- Where the lines inside of a control are collected. -/
def Scan.write (s : Scan) (text : Str) : Scan :=
  if s.region = .ingress then { s with result := s.result ++ text }
  else if s.flagApply then { s with egressApply := s.egressApply ++ text }
  else { s with egressName := s.egressName ++ text }

theorem scanLine_inside (hs : s.region ≠ .outside) (hl : l.head? ≠ some '\x7d')
    (hquiet : isIn applyMark l = false ∧ isIn egressMark l = false)
    (hd : s.depth + braceDepth l ≠ 0) :
    scanLine ghosts s l = { s.write l with depth := s.depth + braceDepth l } := by
  cases hregion : s.region with
  | outside => exact absurd hregion hs
  | egress =>
    rw [scanLine_egress hregion, egressLine, Scan.write]
    cases s.flagApply <;> simp [hregion, hquiet, hl, track, hd]
  | ingress =>
    rw [scanLine_ingress hregion, ingressLine, Scan.write]
    simp [hregion, hquiet, hl, track, hd]

theorem foldl_inside (hs : s.region ≠ .outside) (hindented : ∀ l ∈ ls, l.head? ≠ some '\x7d')
    (hquiet : ∀ l ∈ ls, isIn applyMark l = false ∧ isIn egressMark l = false)
    (hstays : ∀ p, p <+: ls → 0 < s.depth + braceDepth p.flatten) :
    ls.foldl (scanLine ghosts) s =
      { s.write ls.flatten with depth := s.depth + braceDepth ls.flatten } := by
  induction ls generalizing s with
  | nil => simp [braceDepth, Scan.write]
  | cons l ls ih =>
    obtain ⟨hl, hindented⟩ := forall_mem_cons.mp hindented
    obtain ⟨hline, hquiet⟩ := forall_mem_cons.mp hquiet
    obtain ⟨hfirst, hrest⟩ := stays_tail hstays
    rw [foldl_cons, scanLine_inside hs hl hline hfirst.ne', ih _ hindented hquiet hrest]
    · unfold Scan.write
      split_ifs <;> simp_all [braceDepth_append, add_assoc]
    · unfold Scan.write
      split_ifs <;> exact hs

theorem Body.foldl (h : Body ls) (hs : s.region ≠ .outside) (hd : 0 < s.depth) :
    ls.foldl (scanLine ghosts) s = s.write ls.flatten := by
  rw [foldl_inside hs h.indented h.quiet fun p hp => h.stays hd hp, h.depth_zero,
    add_zero, Scan.write]
  split_ifs <;> rfl

variable {c : Control}

theorem Header.head (h : Header c.header) : c.headLine.head? ≠ some '\x7d' := by
  intro hhead
  rcases mem_append.mp (mem_of_mem_head? hhead) with hmem | hmem
  · exact h.plain.2 hmem
  · revert hmem
    decide

theorem Header.depth_one (h : Header c.header) : braceDepth c.headLine = 1 := by
  have hplain : braceDepth c.header = 0 := depth_of_notMem h.plain.1 h.plain.2
  rw [Control.headLine, braceDepth_append, hplain]
  decide

/-- The region that a line opens. -/
def Opens (l : Str) : Region → Prop
  | .outside => False
  | .egress => isIn egressMark l = true
  | .ingress => isIn ingressMark l = true ∧ isIn egressMark l = false

theorem scanLine_header (h : Header c.header) (hopens : Opens c.headLine r)
    (hs : s.region = .outside) :
    scanLine ghosts s c.headLine = { s with
      region := r, depth := 1, flagApply := false, result := s.result ++ c.headLine } := by
  have hdepth := h.depth_one
  have hquiet : isIn applyMark c.headLine = false := h.quiet
  have hhead := h.head
  generalize c.headLine = l at *
  cases r with
  | outside => exact hopens.elim
  | egress =>
    have hnamed : isIn egressMark l = true := hopens
    simp [scanLine, enter, hs, hnamed, egressLine, hquiet, track, hdepth]
  | ingress =>
    simp [scanLine, enter, hs, hopens.1, hopens.2, ingressLine, hquiet, hhead, track, hdepth]

theorem fixed_lines :
    (isIn applyMark applyLine = true ∧ isIn egressMark applyLine = false ∧
      applyLine.head? ≠ some '\x7d' ∧ braceDepth applyLine = 1) ∧
    (isIn applyMark applyEnd = false ∧ isIn egressMark applyEnd = false ∧
      applyEnd.head? ≠ some '\x7d' ∧ braceDepth applyEnd = -1) ∧
    (isIn applyMark controlEnd = false ∧ isIn egressMark controlEnd = false ∧
      controlEnd.head? = some '\x7d' ∧ braceDepth controlEnd = -1) := by
  decide

theorem scanLine_egress_apply (hs : s.region = .egress) (hd : s.depth = 1) :
    scanLine ghosts s applyLine = { s with
      depth := 2, flagApply := true, egressApply := s.egressApply ++ applyLine } := by
  obtain ⟨⟨happly, heg, hhead, hdepth⟩, -⟩ := fixed_lines
  rw [scanLine_egress hs]
  generalize applyLine = l at *
  simp [egressLine, happly, heg, hhead, track, hd, hdepth]

theorem scanLine_applyEnd (hs : s.region ≠ .outside) (hd : s.depth = 2) :
    scanLine ghosts s applyEnd = { s.write applyEnd with depth := 1 } := by
  obtain ⟨-, ⟨happly, heg, hhead, hdepth⟩, -⟩ := fixed_lines
  rw [scanLine_inside hs hhead ⟨happly, heg⟩ (by rw [hd, hdepth]; decide), hd, hdepth]
  rfl

theorem scanLine_egress_end (hs : s.region = .egress) (hd : s.depth = 1) :
    scanLine ghosts s controlEnd = { s with
      region := .outside
      depth := 0
      result := s.result ++ "apply\x7b\x7d\n".toList ++ controlEnd } := by
  obtain ⟨-, -, happly, heg, hhead, hdepth⟩ := fixed_lines
  rw [scanLine_egress hs]
  generalize controlEnd = l at *
  simp [egressLine, happly, heg, hhead, track, hd, hdepth]

theorem scanLine_ingress_apply (hs : s.region = .ingress) (hd : s.depth = 1) :
    scanLine ghosts s applyLine = { s with
      depth := 2
      result := s.result ++ s.egressName ++ applyLine ++ (initializations ghosts).flatten } := by
  obtain ⟨⟨happly, heg, hhead, hdepth⟩, -⟩ := fixed_lines
  rw [scanLine_ingress hs]
  generalize applyLine = l at *
  simp [ingressLine, happly, hhead, track, hd, hdepth]

theorem scanLine_ingress_end (hs : s.region = .ingress) (hd : s.depth = 1) :
    scanLine ghosts s controlEnd = { s with
      region := .outside
      depth := 0
      result := dropLastLine s.result ++ dropFirstLine s.egressApply ++ controlEnd } := by
  obtain ⟨-, -, happly, heg, hhead, hdepth⟩ := fixed_lines
  rw [scanLine_ingress hs]
  generalize controlEnd = l at *
  simp [ingressLine, happly, hhead, track, hd, hdepth]

theorem Control.lines_eq (c : Control) :
    c.lines = [c.headLine] ++ c.decls ++ [applyLine] ++ c.stmts ++ [applyEnd, controlEnd] := rfl

theorem foldl_egress_control (hc : c.Printed) (hopens : Opens c.headLine .egress)
    (hs : s.region = .outside) :
    c.lines.foldl (scanLine ghosts) s = { s with
      depth := 0
      flagApply := true
      result := s.result ++ [c.headLine, "apply\x7b\x7d\n".toList, controlEnd].flatten
      egressName := s.egressName ++ c.decls.flatten
      egressApply := s.egressApply ++ (applyLine ++ (c.stmts.flatten ++ applyEnd)) } := by
  simp only [c.lines_eq, foldl_append, foldl_cons, foldl_nil]
  rw [scanLine_header hc.header hopens hs, hc.decls.foldl (by simp) one_pos,
    scanLine_egress_apply rfl rfl,
    hc.stmts.foldl (by simp [Scan.write]) (by simp), scanLine_applyEnd (by simp [Scan.write]) rfl,
    scanLine_egress_end rfl rfl]
  simp [hs, Scan.write]

theorem foldl_ingress_control (hc : c.Printed) (hopens : Opens c.headLine .ingress)
    (hs : s.region = .outside) :
    c.lines.foldl (scanLine ghosts) s = { s with
      depth := 0
      flagApply := false
      result := s.result ++ (c.headLine ++ c.decls.flatten ++ s.egressName ++
        applyLine ++ (initializations ghosts).flatten ++ c.stmts.flatten ++
        dropFirstLine s.egressApply ++ controlEnd) } := by
  have hinit : ∀ l ∈ initializations ghosts, l.getLast? = some '\n' := by
    intro l hl
    rw [initializations] at hl
    obtain ⟨g, -, rfl⟩ := mem_map.mp hl
    exact getLast?_initialization g.1 g.2
  have hlast : (s.result ++ c.headLine ++ c.decls.flatten ++ s.egressName ++
      applyLine ++ (initializations ghosts).flatten ++ c.stmts.flatten).getLast? = some '\n' := by
    refine getLast?_append_lines (getLast?_append_lines ?_ hinit) fun l hl =>
      (hc.stmts.lines l hl).1
    rw [getLast?_append]
    rfl
  have hdrop := dropLastLine_append hlast (show IsLine applyEnd by decide)
  simp only [c.lines_eq, foldl_append, foldl_cons, foldl_nil]
  rw [scanLine_header hc.header hopens hs, hc.decls.foldl (by simp) one_pos,
    scanLine_ingress_apply rfl rfl,
    hc.stmts.foldl (by simp [Scan.write]) (by simp), scanLine_applyEnd (by simp [Scan.write]) rfl,
    scanLine_ingress_end rfl rfl]
  simp only [Scan.write, if_true]
  rw [hdrop]
  simp [hs]

end Scanning

section Result

variable (p : Program) (ghosts : Ghosts)

theorem Control.Printed.isLine {c : Control} (hc : c.Printed) : ∀ l ∈ c.lines, IsLine l := by
  intro l hl
  simp only [Control.lines, mem_append, mem_cons, not_mem_nil, or_false] at hl
  rcases hl with (((rfl | hl) | rfl) | hl) | rfl | rfl
  · rw [show "\x7b\n".toList = ['\x7b'] ++ ['\n'] from rfl, ← append_assoc]
    refine isLine_concat ?_
    rw [mem_append, not_or]
    exact ⟨hc.header.line, by decide⟩
  · exact hc.decls.lines l hl
  · decide
  · exact hc.stmts.lines l hl
  · decide
  · decide

theorem Program.readLines_text : readLines p.text = p.arrange p.egress.lines p.ingress.lines := by
  refine readLines_flatten fun l hl => ?_
  have hbefore := p.outside.1.lines l
  have hbetween := p.outside.2.1.lines l
  have hafter := p.outside.2.2.lines l
  have hegress := p.egress_printed.isLine l
  have hingress := p.ingress_printed.isLine l
  unfold Program.arrange at hl
  split at hl
  · simp only [mem_append] at hl
    rcases hl with (((hl | hl) | hl) | hl) | hl
    exacts [hbefore hl, hegress hl, hbetween hl, hingress hl, hafter hl]
  · simp only [mem_append] at hl
    rcases hl with (((hl | hl) | hl) | hl) | hl
    exacts [hbefore hl, hingress hl, hbetween hl, hegress hl, hafter hl]

theorem merge_egress_first (h : p.egressFirst = true) :
    ingresEgressMerge ghosts p.text =
      some (p.arrange p.emptied (p.merged ghosts).lines).flatten := by
  have hstmts := dropFirstLine_append
    (show IsLine applyLine by decide) (p.egress.stmts.flatten ++ applyEnd)
  have harrange : ∀ a b, p.arrange a b = p.before ++ a ++ p.between ++ b ++ p.after :=
    fun _ _ => if_pos h
  unfold ingresEgressMerge
  rw [p.readLines_text, harrange, harrange, foldl_append, foldl_append,
    foldl_append, foldl_append, foldl_outside rfl p.outside.1.quiet,
    foldl_egress_control p.egress_printed p.egress_named rfl,
    foldl_outside rfl p.outside.2.1.quiet,
    foldl_ingress_control p.ingress_printed p.ingress_named rfl,
    foldl_outside rfl p.outside.2.2.quiet]
  simp only [nil_append, hstmts]
  simp [Program.emptied, Program.merged, Control.lines, Control.headLine]

theorem merge_ingress_first (h : p.egressFirst = false) :
    ingresEgressMerge ghosts p.text = some (p.unmerged ghosts) := by
  have harrange : ∀ a b, p.arrange a b = p.before ++ b ++ p.between ++ a ++ p.after := fun _ _ =>
    if_neg (by rw [h]; decide)
  unfold ingresEgressMerge
  rw [p.readLines_text, harrange, foldl_append, foldl_append, foldl_append, foldl_append,
    foldl_outside rfl p.outside.1.quiet,
    foldl_ingress_control p.ingress_printed p.ingress_named rfl,
    foldl_outside rfl p.outside.2.1.quiet,
    foldl_egress_control p.egress_printed p.egress_named rfl,
    foldl_outside rfl p.outside.2.2.quiet]
  have hnone : dropFirstLine [] = [] := by decide
  simp [hnone, Program.unmerged, Program.emptied, Control.headLine]

variable {p ghosts}

theorem Header.wrap {c : Control} (h : Header c.header) {s : Str} (hs : Balanced '\x7b' '\x7d' s) :
    Balanced '\x7b' '\x7d' (c.headLine ++ s ++ controlEnd) := by
  have hclosed : '\x7d' ∉ c.headLine := by
    rw [Control.headLine, mem_append, not_or]
    exact ⟨h.plain.2, by decide⟩
  have hdepth : depth '\x7b' '\x7d' c.headLine + depth '\x7b' '\x7d' controlEnd = 0 := by
    rw [show depth '\x7b' '\x7d' c.headLine = 1 from h.depth_one]
    decide
  exact hs.wrap hclosed (by decide) hdepth

theorem Control.balanced {c : Control} (hheader : Header c.header)
    (hdecls : Balanced '\x7b' '\x7d' c.decls.flatten)
    (hstmts : Balanced '\x7b' '\x7d' c.stmts.flatten) :
    Balanced '\x7b' '\x7d' c.lines.flatten := by
  have happly : Balanced '\x7b' '\x7d' (applyLine ++ c.stmts.flatten ++ applyEnd) :=
    hstmts.wrap (by decide) (by decide) (by decide)
  have hcontrol := hheader.wrap (hdecls.append happly)
  simpa [Control.lines_eq] using hcontrol

theorem initialization_plain {name value : Str} (h : Braceless (name ++ value)) :
    Braceless (initialization name value) := by
  have hfront : Braceless "        hdr.version.".toList := forall_chars (by decide)
  have hmiddle : Braceless " = ".toList := forall_chars (by decide)
  have hend : Braceless ";\n".toList := forall_chars (by decide)
  unfold initialization
  generalize "        hdr.version.".toList = front at *
  generalize " = ".toList = middle at *
  generalize ";\n".toList = ending at *
  intro c hc
  simp only [Braceless, mem_append] at hc h
  rcases hc with hc | ((hc | hc) | hc) | hc
  exacts [hfront c hc, h c (Or.inl hc), hmiddle c hc, h c (Or.inr hc), hend c hc]

theorem initializations_balanced (hplain : Plain ghosts) :
    Balanced '\x7b' '\x7d' (initializations ghosts).flatten := by
  have hchars : fixedGhosts.all (fun g => (g.1 ++ g.2).all fun c => c ≠ '\x7b' ∧ c ≠ '\x7d') =
      true := by
    decide +kernel
  have hfixed : ∀ g ∈ fixedGhosts, Braceless (g.1 ++ g.2) :=
    fun g hg => forall_chars (all_eq_true.mp hchars g hg)
  have hall : Braceless (initializations ghosts).flatten := by
    unfold initializations
    generalize fixedGhosts = fixed at *
    intro c hc
    obtain ⟨l, hl, hc⟩ := mem_flatten.mp hc
    obtain ⟨g, hg, rfl⟩ := mem_map.mp hl
    refine initialization_plain ?_ c hc
    rcases mem_append.mp hg with hg | hg
    · exact hfixed g hg
    · obtain ⟨e, he, rfl⟩ := mem_map.mp hg
      exact hplain e he
  exact balanced_of_notMem (fun h => (hall _ h).1 rfl) fun h => (hall _ h).2 rfl

theorem emptied_balanced (p : Program) : Balanced '\x7b' '\x7d' p.emptied.flatten := by
  have happly : Balanced '\x7b' '\x7d' "apply\x7b\x7d\n".toList := by decide
  have hcontrol := p.egress_printed.header.wrap happly
  simpa [Program.emptied, Control.headLine] using hcontrol

theorem merged_balanced (p : Program) (hplain : Plain ghosts) :
    Balanced '\x7b' '\x7d' (p.merged ghosts).lines.flatten := by
  have hdecls := p.ingress_printed.decls.balanced.append p.egress_printed.decls.balanced
  have hstmts := ((initializations_balanced hplain).append
    p.ingress_printed.stmts.balanced).append p.egress_printed.stmts.balanced
  refine Control.balanced p.ingress_printed.header ?_ ?_
  · simpa [Program.merged] using hdecls
  · simpa [Program.merged] using hstmts

theorem merged_of_egress_first (hplain : Plain ghosts) (h : p.egressFirst = true) :
    Merged p ghosts (p.arrange p.emptied (p.merged ghosts).lines).flatten := by
  obtain ⟨hbefore, hbetween, hafter⟩ := p.outside
  have harrange : p.arrange p.emptied (p.merged ghosts).lines =
      p.before ++ p.emptied ++ p.between ++ (p.merged ghosts).lines ++ p.after := if_pos h
  have hparts : (p.arrange p.emptied (p.merged ghosts).lines).flatten =
    [p.before.flatten, p.emptied.flatten,
      p.between.flatten, (p.merged ghosts).lines.flatten, p.after.flatten].flatten := by
    simp [harrange]
  rw [hparts]
  refine ⟨infix_of_mem_flatten (by simp), infix_of_mem_flatten (by simp),
    fun ls hls => infix_of_mem_flatten ?_, ?_⟩
  · simp only [mem_cons, not_mem_nil, or_false] at hls
    rcases hls with rfl | rfl | rfl <;> simp
  · have hbalanced :=
      (((hbefore.balanced.append (emptied_balanced p)).append hbetween.balanced).append
      (merged_balanced p hplain)).append hafter.balanced
    simpa using hbalanced

theorem depth_ingress_first (hplain : Plain ghosts) : braceDepth (p.unmerged ghosts) = 1 := by
  obtain ⟨hbefore, hbetween, hafter⟩ := p.outside
  have hbefore : braceDepth p.before.flatten = 0 := hbefore.balanced.settled
  have hbetween : braceDepth p.between.flatten = 0 := hbetween.balanced.settled
  have hafter : braceDepth p.after.flatten = 0 := hafter.balanced.settled
  have hemptied : braceDepth p.emptied.flatten = 0 := (emptied_balanced p).settled
  have hinit : braceDepth (initializations ghosts).flatten = 0 :=
    (initializations_balanced hplain).settled
  obtain ⟨⟨-, -, -, happly⟩, -, -, -, -, hend⟩ := fixed_lines
  have hheader := p.ingress_printed.header.depth_one
  have hdecls := p.ingress_printed.decls.depth_zero
  have hstmts := p.ingress_printed.stmts.depth_zero
  simp only [Program.unmerged, braceDepth_append]
  omega

/-- The merge keeps everything, in order and balanced, exactly for programs that declare
their egress control first. -/
theorem merge_iff_egress_first (p : Program) {ghosts : Ghosts} (hplain : Plain ghosts) :
    (∃ out, ingresEgressMerge ghosts p.text = some out ∧ Merged p ghosts out) ↔
      p.egressFirst = true := by
  constructor
  · rintro ⟨out, hout, hmerged⟩
    by_contra hfirst
    rw [merge_ingress_first p ghosts (Bool.eq_false_iff.mpr hfirst)] at hout
    obtain rfl := Option.some.inj hout
    have hdepth := depth_ingress_first (p := p) hplain
    have hbalanced := hmerged.balanced.settled
    rw [braceDepth] at hdepth
    omega
  · intro hfirst
    exact ⟨_, merge_egress_first p ghosts hfirst, merged_of_egress_first hplain hfirst⟩

end Result

namespace Switch

def egress : Control where
  header := "control egress(inout headers hdr) ".toList
  decls := ["    action mark() \x7b\n".toList, "        hdr.ip.tos = 8w1;\n".toList,
    "    \x7d\n".toList]
  stmts := ["        mark();\n".toList]

def ingress : Control where
  header := "control ingress(inout headers hdr) ".toList
  decls := []
  stmts := ["        if (hdr.ip.isValid()) \x7b\n".toList, "            hdr.ip.ttl = 8w3;\n".toList,
    "        \x7d\n".toList]

def program (egressFirst : Bool) : Program where
  before := ["struct headers \x7b\n".toList, "    ip_t ip;\n".toList, "\x7d\n".toList]
  between := []
  after := ["main(ingress(), egress());\n".toList]
  egress := egress
  ingress := ingress
  egressFirst := egressFirst
  outside := ⟨⟨by decide, by decide, by decide⟩, ⟨by decide, by decide, by decide⟩,
    ⟨by decide, by decide, by decide⟩⟩
  egress_printed := ⟨⟨by decide, by decide, by decide⟩,
    ⟨by decide, by decide, by decide, by decide⟩,
    ⟨by decide, by decide, by decide, by decide⟩⟩
  ingress_printed := ⟨⟨by decide, by decide, by decide⟩,
    ⟨by decide, by decide, by decide, by decide⟩,
    ⟨by decide, by decide, by decide, by decide⟩⟩
  egress_named := by decide
  ingress_named := by decide

def ghosts : Ghosts := [("sawOld".toList, "sawOld".toList, "bit<1>".toList, "1w0".toList)]

theorem ghosts_plain : Plain ghosts := by
  intro e he
  obtain rfl := mem_singleton.mp he
  exact forall_chars (by decide)

end Switch

theorem switch_egress_first_merged :
    ∃ out, ingresEgressMerge Switch.ghosts (Switch.program true).text = some out ∧
      Merged (Switch.program true) Switch.ghosts out :=
  (merge_iff_egress_first (Switch.program true) Switch.ghosts_plain).mpr rfl

/-- With the ingress control first, the statement of the egress control is lost and the text
ends inside of a block. -/
theorem switch_ingress_first_unbalanced :
    ∃ out, ingresEgressMerge Switch.ghosts (Switch.program false).text = some out ∧
      isIn "mark();".toList out = false ∧ ¬Balanced '\x7b' '\x7d' out := by
  refine ⟨(ingresEgressMerge Switch.ghosts (Switch.program false).text).getD [], ?_, ?_, ?_⟩ <;>
    decide +kernel

end IngressEgressMerge
