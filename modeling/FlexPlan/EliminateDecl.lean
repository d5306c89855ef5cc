import FlexPlan.BalancedText
import FlexPlan.PythonText

/-!
# Cutting one define out of the assertions of a formula

`eliminate_decl` removes the pairs of lines that compare the version counter with its length, or
with zero. It counts the parentheses of a pair and writes the difference in its place. The counter
is never reset inside of an assertion.
-/
namespace EliminateDecl

open PythonText BalancedText List

section Source

def startsAssertion (line : Str) : Bool := isIn "(assert".toList line

/-- The lines in front of the first assertion, and the lines of each assertion: it ends where
the next one starts. -/
def blocks : List Str → List Str × List (List Str)
  | [] => ([], [])
  | l :: ls =>
    if startsAssertion l then ([], (l :: (blocks ls).1) :: (blocks ls).2)
    else (l :: (blocks ls).1, (blocks ls).2)

def versionMark : Str := "VERSION".toList

/-- What the second line of a pair contains; the file name decides about the define. -/
def partner (src : Str) : Option Str :=
  if isIn "old".toList src then some "LENGTH".toList
  else if isIn "new".toList src then some "#x00".toList
  else none

def patch (count : ℤ) : Str :=
  if 0 < count then List.replicate count.toNat '(' ++ "\n".toList
  else if count < 0 then List.replicate (-count).toNat ')' ++ "\n".toList
  else []

def isPair (mark l m : Str) : Bool := isIn versionMark l && isIn mark m

def pairCount (l m : Str) : ℤ := l.count '(' - m.count ')'

/-- The loop over the lines of an assertion. Both lines of a pair are overwritten, so that
neither can be part of another pair. -/
def cutPairs (mark : Str) : ℤ → List Str → List Str
  | _, [] => []
  | _, [l] => [l]
  | count, l :: m :: ls =>
    if isPair mark l m then
      patch (count + pairCount l m) :: [] :: cutPairs mark (count + pairCount l m) ls
    else l :: cutPairs mark count (m :: ls)

def isAffected (block : List Str) : Bool :=
  block.tail.any (isIn versionMark) && block.tail.any (isIn "LENGTH".toList) &&
    block.tail.any (isIn "SUBVIOLATION".toList)

def cleanBlock (src : Str) (block : List Str) : List Str :=
  if isAffected block then
    match partner src with
    | some mark => cutPairs mark 0 block
    | none => block
  else block

/-- The text of the file with the suffix `-clean`. -/
def eliminateDecl (src text : Str) : Str :=
  (blocks (readLines text)).1.flatten ++
    ((blocks (readLines text)).2.map fun block => (cleanBlock src block).flatten).flatten

end Source

section Pieces

/-- A line that stays or a pair that is cut. -/
inductive Piece where
  | kept (line : Str)
  | pair (first second : Str)
  deriving DecidableEq

def pieces (mark : Str) : List Str → List Piece
  | [] => []
  | [l] => [.kept l]
  | l :: m :: ls =>
    if isPair mark l m then .pair l m :: pieces mark ls else .kept l :: pieces mark (m :: ls)

def openDepth (s : Str) : ℤ := depth '(' ')' s

def Piece.text : Piece → Str
  | .kept l => l
  | .pair l m => l ++ m

def Piece.count : Piece → ℤ
  | .kept _ => 0
  | .pair l m => pairCount l m

def Piece.error (count : ℤ) : Piece → ℤ
  | .kept _ => 0
  | .pair l m => count + pairCount l m - openDepth (l ++ m)

def textDepth (ps : List Piece) : ℤ := openDepth (ps.map Piece.text).flatten

def driftFrom : ℤ → List Piece → ℤ
  | _, [] => 0
  | count, p :: ps => p.error count + driftFrom (count + p.count) ps

/-- By how much the depth has gone wrong behind some pieces. -/
def drift (ps : List Piece) : ℤ := driftFrom 0 ps

/-- The errors of the counter cancel out, and between the cuts the assertion is never less
deep than the error takes away. -/
structure Evened (ps : List Piece) : Prop where
  settled : drift ps = 0
  cuts : ∀ front, front <+: ps → 0 ≤ textDepth front + drift front
  lines : ∀ front l, front ++ [.kept l] <+: ps → Above '(' ')' (textDepth front + drift front) l

def WellFormed (s : Str) : Prop := Balanced '(' ')' s

end Pieces

section Cutting

def Piece.output (count : ℤ) : Piece → Str
  | .kept l => l
  | .pair l m => patch (count + pairCount l m)

def written : ℤ → List Piece → List Str
  | _, [] => []
  | count, p :: ps => p.output count :: written (count + p.count) ps

theorem cutPairs_flatten (mark : Str) (count : ℤ) (ls : List Str) :
    (cutPairs mark count ls).flatten = (written count (pieces mark ls)).flatten := by
  fun_induction pieces mark ls generalizing count with
  | case1 | case2 l => rfl
  | case3 l m ls h ih | case4 l m ls h ih =>
    simp [cutPairs, h, written, Piece.output, Piece.count, ih]

theorem pieces_text (mark : Str) (ls : List Str) :
    ((pieces mark ls).map Piece.text).flatten = ls.flatten := by
  fun_induction pieces mark ls with
  | case1 | case2 l => rfl
  | case3 l m ls h ih => simp [Piece.text, ih]
  | case4 l m ls h ih => simpa [Piece.text] using ih

theorem openDepth_append (a b : Str) : openDepth (a ++ b) = openDepth a + openDepth b :=
  depth_append a b

theorem openDepth_patch (count : ℤ) : openDepth (patch count) = count := by
  have hend : openDepth "\n".toList = 0 := by decide
  unfold patch
  split_ifs with hpos hneg
  · rw [openDepth_append, hend, openDepth, depth, count_replicate_self, count_eq_zero.mpr (by simp)]
    omega
  · rw [openDepth_append, hend, openDepth, depth, count_replicate_self, count_eq_zero.mpr (by simp)]
    omega
  · simp only [openDepth, depth_nil]
    omega

theorem above_patch {d count : ℤ} : Above '(' ')' d (patch count) ↔ 0 ≤ d ∧ 0 ≤ d + count := by
  have hdepth : depth '(' ')' (patch count) = count := openDepth_patch count
  constructor
  · intro h
    have hfinish := h.finish
    rw [hdepth] at hfinish
    exact ⟨h.start, hfinish⟩
  · rintro ⟨hd, hend⟩
    by_cases hpos : 0 < count
    · refine above_of_notMem_close ?_ hd
      rw [patch, if_pos hpos]
      simp
    · refine above_of_notMem_open ?_ (by rw [hdepth]; exact hend)
      rw [patch, if_neg hpos]
      split_ifs
      · simp
      · exact not_mem_nil

theorem openDepth_output (count : ℤ) (p : Piece) :
    openDepth (p.output count) = openDepth p.text + p.error count := by
  cases p with
  | kept l => simp [Piece.output, Piece.text, Piece.error]
  | pair l m =>
    rw [Piece.output, openDepth_patch, Piece.text, Piece.error]
    omega

theorem textDepth_cons (p : Piece) (ps : List Piece) :
    textDepth (p :: ps) = openDepth p.text + textDepth ps := by
  rw [textDepth, map_cons, flatten_cons, openDepth_append, textDepth]

theorem openDepth_written (count : ℤ) (ps : List Piece) :
    openDepth (written count ps).flatten = textDepth ps + driftFrom count ps := by
  induction ps generalizing count with
  | nil => rfl
  | cons p ps ih =>
    rw [written, flatten_cons, openDepth_append, openDepth_output, ih, textDepth_cons, driftFrom]
    omega

/-- The written text stays above ground from depth `d` on. -/
structure Follows (count d : ℤ) (ps : List Piece) : Prop where
  cuts : ∀ front, front <+: ps → 0 ≤ d + (textDepth front + driftFrom count front)
  lines : ∀ front l, front ++ [.kept l] <+: ps →
    Above '(' ')' (d + (textDepth front + driftFrom count front)) l

variable {count d : ℤ}

theorem follows_nil : Follows count d [] ↔ 0 ≤ d := by
  constructor
  · intro h
    simpa [textDepth, driftFrom, openDepth] using h.cuts [] nil_prefix
  · intro h
    refine ⟨fun front hfront => ?_, fun front l hfront => by simp at hfront⟩
    rw [prefix_nil.mp hfront]
    simpa [textDepth, driftFrom, openDepth] using h

theorem follows_cons : Follows count d (p :: ps) ↔ Above '(' ')' d (p.output count) ∧
      Follows (count + p.count) (d + openDepth (p.output count)) ps := by
  have hshift : ∀ front, d + (textDepth (p :: front) + driftFrom count (p :: front)) =
      d + openDepth (p.output count) + (textDepth front + driftFrom (count + p.count) front) := by
    intro front
    rw [textDepth_cons, driftFrom, openDepth_output]
    omega
  constructor
  · intro h
    have hrest : Follows (count + p.count) (d + openDepth (p.output count)) ps := by
      constructor
      · intro front hfront
        rw [← hshift]
        exact h.cuts _ (cons_prefix_cons.mpr ⟨rfl, hfront⟩)
      · intro front l hfront
        rw [← hshift]
        exact h.lines (p :: front) l (cons_prefix_cons.mpr ⟨rfl, hfront⟩)
    refine ⟨?_, hrest⟩
    have hstart : 0 ≤ d := by
      simpa [textDepth, driftFrom, openDepth] using h.cuts [] nil_prefix
    cases p with
    | kept l =>
      have hline := h.lines [] l (cons_prefix_cons.mpr ⟨rfl, nil_prefix⟩)
      simpa [textDepth, driftFrom, openDepth, Piece.output] using hline
    | pair l m =>
      have hend := hrest.cuts [] nil_prefix
      refine above_patch.mpr ⟨hstart, ?_⟩
      rw [Piece.output, openDepth_patch] at hend
      simpa [textDepth, driftFrom, openDepth] using hend
  · rintro ⟨hfirst, hrest⟩
    constructor
    · intro front hfront
      cases front with
      | nil => simpa [textDepth, driftFrom, openDepth] using hfirst.start
      | cons q front =>
        obtain ⟨rfl, htail⟩ := cons_prefix_cons.mp hfront
        rw [hshift]
        exact hrest.cuts front htail
    · intro front l hfront
      cases front with
      | nil =>
        obtain ⟨rfl, -⟩ := cons_prefix_cons.mp hfront
        simpa [textDepth, driftFrom, openDepth, Piece.output] using hfirst
      | cons q front =>
        obtain ⟨rfl, htail⟩ := cons_prefix_cons.mp hfront
        rw [hshift]
        exact hrest.lines front l htail

theorem above_written : Above '(' ')' d (written count ps).flatten ↔ Follows count d ps := by
  induction ps generalizing count d with
  | nil => rw [written, flatten_nil, above_nil, follows_nil]
  | cons p ps ih =>
    rw [written, flatten_cons, above_append, follows_cons]
    exact and_congr_right fun _ => ih

theorem wellFormed_cutPairs_iff {mark : Str} {block : List Str} (h : WellFormed block.flatten) :
    WellFormed (cutPairs mark 0 block).flatten ↔ Evened (pieces mark block) := by
  have hdepth : textDepth (pieces mark block) = 0 := by
    rw [textDepth, pieces_text]
    exact h.settled
  have htotal : openDepth (cutPairs mark 0 block).flatten = drift (pieces mark block) := by
    rw [cutPairs_flatten, openDepth_written, hdepth, zero_add, drift]
  have habove : Above '(' ')' 0 (cutPairs mark 0 block).flatten ↔
      Follows 0 0 (pieces mark block) := by
    rw [cutPairs_flatten]
    exact above_written
  constructor
  · intro hcut
    have hfollows := habove.mp hcut.above
    refine ⟨htotal.symm.trans hcut.settled, ?_, ?_⟩
    · intro front hfront
      simpa [drift] using hfollows.cuts front hfront
    · intro front l hfront
      simpa [drift] using hfollows.lines front l hfront
  · intro heven
    refine ⟨htotal.trans heven.settled, habove.mpr ⟨?_, ?_⟩⟩
    · intro front hfront
      simpa [drift] using heven.cuts front hfront
    · intro front l hfront
      simpa [drift] using heven.lines front l hfront

/-- The counter is right as long as every pair opens on its first line only what it closes on
its second line. -/
theorem evened_of_exact {mark : Str} {block : List Str} (h : WellFormed block.flatten)
    (hdrift : ∀ front, front <+: pieces mark block → drift front = 0) :
    Evened (pieces mark block) := by
  have hsplit : ∀ front, front <+: pieces mark block → ∃ rest, block.flatten =
      (front.map Piece.text).flatten ++ rest ∧ textDepth front + drift front =
        0 + openDepth (front.map Piece.text).flatten := by
    rintro front ⟨back, hback⟩
    refine ⟨(back.map Piece.text).flatten, ?_, ?_⟩
    · rw [← pieces_text mark block, ← hback, map_append, flatten_append]
    · rw [hdrift front ⟨back, hback⟩, textDepth]
      omega
  refine ⟨hdrift _ prefix_rfl, fun front hfront => ?_, fun front l hfront => ?_⟩
  · obtain ⟨rest, htext, hdepth⟩ := hsplit front hfront
    rw [hdepth]
    exact h.above _ (htext ▸ prefix_append _ _)
  · obtain ⟨rest, htext, -⟩ := hsplit _ hfront
    obtain ⟨-, -, hdepth⟩ := hsplit front ((prefix_append _ _).trans hfront)
    have habove := h.above
    rw [htext, map_append, flatten_append, above_append, above_append] at habove
    rw [hdepth]
    simpa [Piece.text, openDepth] using habove.1.2

/-- A file whose assertions are balanced is cleaned into an unchanged beginning and one text
for each assertion. They are all balanced, and none closes what it did not open, exactly if
in each assertion that is cut the errors of the counter even out. -/
theorem cleaned_wellFormed_iff (src text : Str)
    (h : ∀ block ∈ (blocks (readLines text)).2, WellFormed block.flatten) :
    eliminateDecl src text = (blocks (readLines text)).1.flatten ++
        ((blocks (readLines text)).2.map fun block => (cleanBlock src block).flatten).flatten ∧
    ((∀ block ∈ (blocks (readLines text)).2, WellFormed (cleanBlock src block).flatten) ↔
      ∀ block ∈ (blocks (readLines text)).2, isAffected block = true →
        ∀ mark ∈ partner src, Evened (pieces mark block)) := by
  refine ⟨rfl, forall₂_congr fun block hblock => ?_⟩
  unfold cleanBlock
  by_cases haffected : isAffected block = true
  · rw [if_pos haffected]
    cases hpartner : partner src with
    | none => simp [h block hblock]
    | some mark => simp [haffected, wellFormed_cutPairs_iff (h block hblock)]
  · simp [haffected, h block hblock]

end Cutting

namespace Consistency

def disjunct (k : ℕ) : List Str :=
  [" (or (= VERSION_".toList ++ ofNat k ++ "\n".toList,
    " LENGTH_".toList ++ ofNat k ++ ")\n".toList,
    " a)\n".toList]

def block (ks : List ℕ) : List Str :=
  ["(assert (and\n".toList, " SUBVIOLATION_1\n".toList] ++ ks.flatMap disjunct ++ [" a))\n".toList]

def formula (ks : List ℕ) : Str := "(declare-fun a () Bool)\n".toList ++ (block ks).flatten

def src : Str := "direct-p-dis-old-merge.smt".toList

theorem partner_src : partner src = some "LENGTH".toList := by decide +kernel

theorem blocks_formula : (blocks (readLines (formula [1]))).2 = [block [1]] ∧
    (blocks (readLines (formula [1, 2]))).2 = [block [1, 2]] := by
  decide +kernel

end Consistency

theorem one_pair_cleaned :
    (blocks (readLines (Consistency.formula [1]))).2 = [Consistency.block [1]] ∧
    ∀ block ∈ (blocks (readLines (Consistency.formula [1]))).2,
      WellFormed (cleanBlock Consistency.src block).flatten := by
  have hwell : WellFormed (Consistency.block [1]).flatten := by
    unfold WellFormed
    decide +kernel
  refine ⟨Consistency.blocks_formula.1,
    (cleaned_wellFormed_iff Consistency.src (Consistency.formula [1]) ?_).2.mpr ?_⟩
  · rw [Consistency.blocks_formula.1]
    simpa using hwell
  · rw [Consistency.blocks_formula.1]
    intro block hblock _ mark hmark
    obtain rfl := mem_singleton.mp hblock
    rw [Consistency.partner_src] at hmark
    obtain rfl := Option.some.inj hmark
    refine evened_of_exact hwell fun front hfront => ?_
    have hall : ∀ front ∈ (pieces "LENGTH".toList (Consistency.block [1])).inits,
        drift front = 0 := by
      decide +kernel
    exact hall front (mem_inits _ _ |>.mpr hfront)

/-- In the second pair the opening parenthesis of the first one is written once more. -/
theorem two_pairs_unbalanced :
    (∀ block ∈ (blocks (readLines (Consistency.formula [1, 2]))).2, WellFormed block.flatten) ∧
    ¬∀ block ∈ (blocks (readLines (Consistency.formula [1, 2]))).2,
      WellFormed (cleanBlock Consistency.src block).flatten := by
  unfold WellFormed
  rw [Consistency.blocks_formula.2]
  decide +kernel

end EliminateDecl
