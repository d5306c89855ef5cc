import FlexPlan.PythonText

/-! # Helper functions shared by the synthesizer scripts -/
namespace SynthesizerUtils

open PythonText List

-- Continues the search behind the current hit until the remaining count is used up.
def findNthGo (haystack needle : Str) : ℕ → ℤ → ℤ
  | 0, start => start
  | n + 1, start =>
    if 0 ≤ start then
      findNthGo haystack needle n (findFrom needle haystack (start.toNat + needle.length))
    else start

/-- Negative counts search the reversed text for the needle as written and convert
the position afterwards. A count of zero returns nothing. -/
def findNth (haystack needle : Str) (n : ℤ) : Option ℤ :=
  if 0 < n then some (findNthGo haystack needle (n.toNat - 1) (find needle haystack))
  else if n < 0 then
    let reversed := haystack.reverse
    let start := findNthGo reversed needle ((-n).toNat - 1) (find needle reversed)
    some (haystack.length - start - 1)
  else none

theorem findNth_last (hb : c ∉ b) : findNth (a ++ c :: b) [c] (-1) = some (a.length : ℤ) := by
  have hreverse : (a ++ c :: b).reverse = b.reverse ++ [c] ++ a.reverse := by simp
  have hindex : index? [c] (b.reverse ++ [c] ++ a.reverse) = some b.reverse.length :=
    index?_append (by simpa using hb) _
  have hfind : findNthGo (a ++ c :: b).reverse [c] 0 (find [c] (a ++ c :: b).reverse) =
      b.length := by
    rw [findNthGo, hreverse, find, hindex, length_reverse]
  change some (((a ++ c :: b).length : ℤ) -
    findNthGo (a ++ c :: b).reverse [c] 0 (find [c] (a ++ c :: b).reverse) - 1) = _
  rw [hfind, length_append, length_cons]
  congr 1
  omega

theorem findNth_absent (h : c ∉ s) : findNth s [c] (-1) = some (s.length : ℤ) := by
  have hindex : index? [c] s.reverse = none :=
    index?_eq_none_iff.mpr (not_isIn_of_notMem mem_cons_self (by simpa using h))
  have hfind : findNthGo s.reverse [c] 0 (find [c] s.reverse) = -1 := by
    rw [findNthGo, find, hindex]
  change some ((s.length : ℤ) - findNthGo s.reverse [c] 0 (find [c] s.reverse) - 1) = _
  rw [hfind]
  congr 1
  omega

theorem findNth_one (s needle : Str) : findNth s needle 1 = some (find needle s) := rfl

theorem findNth_two (ha : c ∉ a) (hb : c ∉ b) :
    findNth (a ++ c :: (b ++ c :: r)) [c] 2 = some (a.length + 1 + b.length : ℤ) := by
  have hfirst : find [c] (a ++ c :: (b ++ c :: r)) = a.length := by
    have h := index?_append (t := []) ha (b ++ c :: r)
    rw [append_assoc] at h
    exact find_of_index? h
  have hdrop : (a ++ c :: (b ++ c :: r)).drop (a.length + 1) = b ++ [c] ++ r := by
    rw [← drop_drop, drop_left]
    simp
  have hlength : ¬(a ++ c :: (b ++ c :: r)).length < a.length + 1 := by
    rw [length_append, length_cons]
    omega
  have hgo : findNthGo (a ++ c :: (b ++ c :: r)) [c] 1 a.length = a.length + 1 + b.length := by
    rw [findNthGo, if_pos (by omega), findNthGo, findFrom]
    simp only [Int.toNat_natCast, length_singleton, if_neg hlength, hdrop,
      index?_append (t := []) hb r]
    omega
  rw [findNth, if_pos (by decide), hfirst]
  exact congrArg some hgo

/-- Negates one literal of an assertion. The empty text raises. -/
def reverseLiteral : Str → Option Str
  | [] => none
  | c :: cs =>
    let text := c :: cs
    if c = '!' then some cs
    else if isIn "!=".toList text then
      let position := find "!=".toList text
      some (slice text 0 position ++ "==".toList ++ sliceFrom text (position + 2))
    else if isIn "==".toList text then
      let position := find "==".toList text
      some (slice text 0 position ++ "!=".toList ++ sliceFrom text (position + 2))
    else some ('!' :: text)

def reverseOp (tempList : List Str) : Option (List Str) := tempList.mapM reverseLiteral

end SynthesizerUtils
