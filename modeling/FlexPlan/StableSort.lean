import Mathlib.Data.List.Sort

/-!
# Sorting twice

A stable sort keeps the order of an earlier sort among the elements that its own key does
not tell apart.
-/
namespace StableSort

open List

variable {α : Type*} (r s : α → α → Prop)

def Then (a b : α) : Prop := r a b ∧ (r b a → s a b)

instance [DecidableRel r] [DecidableRel s] (a b : α) : Decidable (Then r s a b) :=
  inferInstanceAs (Decidable (_ ∧ _))

variable {r s}

theorem Then.trans (hr : ∀ a b c, r a b → r b c → r a c) (hs : ∀ a b c, s a b → s b c → s a c)
    (hab : Then r s a b) (hbc : Then r s b c) : Then r s a c := by
  refine ⟨hr _ _ _ hab.1 hbc.1, fun hca => ?_⟩
  exact hs _ _ _ (hab.2 (hr _ _ _ hbc.1 hca)) (hbc.2 (hr _ _ _ hca hab.1))

variable [DecidableRel r]

theorem Then.total (hr : ∀ a b, r a b ∨ r b a) (hs : ∀ a b, s a b ∨ s b a) (a b : α) :
    Then r s a b ∨ Then r s b a := by
  by_cases hab : r a b
  · by_cases hba : r b a
    · rcases hs a b with h | h
      · exact Or.inl ⟨hab, fun _ => h⟩
      · exact Or.inr ⟨hba, fun _ => h⟩
    · exact Or.inl ⟨hab, fun h => absurd h hba⟩
  · exact Or.inr ⟨(hr a b).resolve_left hab, fun h => absurd h hab⟩

variable {l : List α}

section

variable (htrans : ∀ a b c, r a b → r b c → r a c) (htotal : ∀ a b, r a b ∨ r b a)

include htrans htotal

theorem pairwise_orderedInsert
    (hl : l.Pairwise (Then r s)) (ha : ∀ b ∈ l, s a b) :
    (l.orderedInsert r a).Pairwise (Then r s) := by
  induction l with
  | nil => exact pairwise_singleton _ a
  | cons b l ih =>
    obtain ⟨hb, hl⟩ := pairwise_cons.mp hl
    obtain ⟨hab, hrest⟩ := forall_mem_cons.mp ha
    by_cases h : r a b
    · rw [orderedInsert_cons_of_le r l h, pairwise_cons]
      refine ⟨fun x hx => ?_, pairwise_cons.mpr ⟨hb, hl⟩⟩
      rcases mem_cons.mp hx with rfl | hx
      · exact ⟨h, fun _ => hab⟩
      · exact ⟨htrans _ _ _ h (hb x hx).1, fun _ => hrest x hx⟩
    · rw [orderedInsert_of_not_le r l h, pairwise_cons]
      refine ⟨fun x hx => ?_, ih hl hrest⟩
      rcases (mem_orderedInsert r).mp hx with rfl | hx
      · exact ⟨(htotal x b).resolve_left h, fun h' => absurd h' h⟩
      · exact hb x hx

theorem pairwise_insertionSort_then (h : l.Pairwise s) :
    (l.insertionSort r).Pairwise (Then r s) := by
  induction l with
  | nil => exact List.Pairwise.nil
  | cons a l ih =>
    obtain ⟨ha, hl⟩ := pairwise_cons.mp h
    refine pairwise_orderedInsert htrans htotal (ih hl) fun b hb => ?_
    exact ha b ((mem_insertionSort r).mp hb)

theorem pairwise_insertionSort (l : List α) : (l.insertionSort r).Pairwise r := by
  have : Std.Total r := ⟨htotal⟩
  have : IsTrans α r := ⟨htrans⟩
  exact List.pairwise_insertionSort r l

end

theorem filter_insertionSort (hq : ∀ a b, q a = true → q b = true → r a b) (l : List α) :
    (l.insertionSort r).filter q = l.filter q := by
  have hinsert : ∀ (a : α) (l : List α), (l.orderedInsert r a).filter q = (a :: l).filter q := by
    intro a l
    induction l with
    | nil => rfl
    | cons b l ih =>
      by_cases h : r a b
      · rw [orderedInsert_cons_of_le r l h]
      · rw [orderedInsert_of_not_le r l h, filter_cons, ih]
        by_cases ha : q a = true
        · have hb : q b = false := by
            rw [Bool.eq_false_iff]
            exact fun hb => h (hq a b ha hb)
          simp [ha, hb]
        · simp [ha, filter_cons]
  induction l with
  | nil => rfl
  | cons a l ih => rw [insertionSort_cons, hinsert, filter_cons, filter_cons, ih]

theorem eq_flatMap_filter {κ : Type*} [DecidableEq κ] {f : α → κ} {le : κ → κ → Prop}
    (hanti : ∀ m n, le m n → le n m → m = n) {ns : List κ} (hns : ns.Pairwise le)
    (hnodup : ns.Nodup)
    (hl : l.Pairwise fun a b => le (f a) (f b)) (hmem : ∀ a ∈ l, f a ∈ ns) :
    l = ns.flatMap fun n => l.filter fun a => f a = n := by
  induction ns generalizing l with
  | nil =>
    cases l with
    | nil => rfl
    | cons a l => exact absurd (hmem a mem_cons_self) not_mem_nil
  | cons n ns ih =>
    obtain ⟨hn, hns⟩ := pairwise_cons.mp hns
    obtain ⟨hnot, hnodup⟩ := nodup_cons.mp hnodup
    -- the first class comes first
    have hsplit : l = (l.filter fun a => f a = n) ++ l.filter fun a => f a ≠ n := by
      clear ih
      induction l with
      | nil => rfl
      | cons a l ihl =>
        obtain ⟨ha, hl⟩ := pairwise_cons.mp hl
        obtain ⟨hmema, hmem⟩ := forall_mem_cons.mp hmem
        have htail := ihl hl hmem
        by_cases h : f a = n
        · simpa [h] using htail
        · have hnone : (l.filter fun a => f a = n) = [] := by
            rw [filter_eq_nil_iff]
            intro b hb hbn
            have hfa : f a ∈ ns := (mem_cons.mp hmema).resolve_left h
            have hle := ha b hb
            rw [of_decide_eq_true hbn] at hle
            exact h (hanti _ _ hle (hn _ hfa))
          rw [hnone, nil_append] at htail
          simpa [h, hnone] using htail
    have hrest : ∀ a ∈ l.filter (fun a => f a ≠ n), f a ∈ ns := by
      intro a ha
      obtain ⟨ha, hne⟩ := mem_filter.mp ha
      exact (mem_cons.mp (hmem a ha)).resolve_left (of_decide_eq_true hne)
    have hclasses := ih hns hnodup (hl.filter _) hrest
    have hsame : (ns.flatMap fun m => (l.filter fun a => f a ≠ n).filter fun a => f a = m) =
        ns.flatMap fun m => l.filter fun a => f a = m := by
      rw [flatMap_def, flatMap_def]
      refine congrArg List.flatten (map_congr_left fun m hm => ?_)
      rw [filter_filter]
      refine filter_congr fun a _ => ?_
      by_cases h : f a = m
      · have hne : f a ≠ n := fun hn => hnot (hn ▸ h ▸ hm)
        simp [h, h ▸ hne]
      · simp [h]
    rw [hsame] at hclasses
    rw [flatMap_cons, ← hclasses]
    exact hsplit

end StableSort
