import Mathlib.Data.Set.Basic
import Mathlib.Logic.Nontrivial.Basic
import Mathlib.Data.Set.BooleanAlgebra
import Mathlib.Order.CompletePartialOrder

/-!
# Effects with footprints

An effect reads some locations and writes others. Effects commute if neither of them writes
what the other one reads or writes.
-/
namespace Footprint

open List

variable {L V ι : Type*} {ins outs ins' outs' : Set L}

/-- What is written depends on the read locations only. A location that may be written can
also be left alone. -/
structure Effect (V : Type*) (ins outs : Set L) where
  update : (L → V) → L → Option V
  reads : ∀ s t, (∀ x ∈ ins, s x = t x) → update s = update t
  writes : ∀ s, ∀ x ∉ outs, update s x = none

namespace Effect

def run (e : Effect V ins outs) (s : L → V) : L → V := fun x => (e.update s x).getD (s x)

variable (e : Effect V ins outs)

theorem run_of_notMem (s : L → V) (hx : x ∉ outs) : e.run s x = s x := by
  rw [run, e.writes s x hx, Option.getD_none]

theorem update_run (f : Effect V ins' outs') (h : Disjoint outs' ins) (s : L → V) :
    e.update (f.run s) = e.update s := by
  refine e.reads _ _ fun x hx => ?_
  exact f.run_of_notMem s fun hout => Set.disjoint_left.mp h hout hx

theorem run_comm (f : Effect V ins' outs') (hread : Disjoint outs ins')
    (hread' : Disjoint outs' ins)
    (hwrite : Disjoint outs outs') (s : L → V) : e.run (f.run s) = f.run (e.run s) := by
  funext x
  have he : e.update (f.run s) x = e.update s x := congrFun (e.update_run f hread' s) x
  have hf : f.update (e.run s) x = f.update s x := congrFun (f.update_run e hread s) x
  by_cases hx : x ∈ outs
  · have hx' : x ∉ outs' := Set.disjoint_left.mp hwrite hx
    rw [f.run_of_notMem _ hx', run, he, f.run_of_notMem s hx']
    rfl
  · rw [e.run_of_notMem _ hx, run, run, hf, e.run_of_notMem s hx]

def skip : Effect V ins outs where
  update _ _ := none
  reads _ _ _ := rfl
  writes _ _ _ := rfl

def store [DecidableEq L] {y : L} (hy : y ∈ outs) (v : V) : Effect V ins outs where
  update _ x := if x = y then some v else none
  reads _ _ _ := rfl
  writes _ x hx := if_neg fun h : x = y => hx (h.symm ▸ hy)

@[simp] theorem run_skip (s : L → V) : (skip : Effect V ins outs).run s = s := rfl

@[simp] theorem run_store [DecidableEq L] (hy : y ∈ outs) (v : V) (s : L → V) :
    (store hy v : Effect V ins outs).run s y = v := by
  simp [run, store]

end Effect

section Sequences

variable {reads writes : ι → Set L} (e : (n : ι) → Effect V (reads n) (writes n))

def runAll (ns : List ι) (s : L → V) : L → V := ns.foldl (fun s n => (e n).run s) s

theorem runAll_append (ns ms : List ι) (s : L → V) :
    runAll e (ns ++ ms) s = runAll e ms (runAll e ns s) := foldl_append

theorem runAll_cons (n : ι) (ns : List ι) (s : L → V) :
    runAll e (n :: ns) s = runAll e ns ((e n).run s) := rfl

variable {e}

theorem runAll_run (h : ∀ m ∈ ms, ∀ s, (e n).run ((e m).run s) = (e m).run ((e n).run s))
    (s : L → V) :
    runAll e ms ((e n).run s) = (e n).run (runAll e ms s) := by
  induction ms generalizing s with
  | nil => rfl
  | cons m ms ih =>
    obtain ⟨hm, hms⟩ := forall_mem_cons.mp h
    rw [runAll_cons, ← hm s, ih hms, runAll_cons]

theorem runAll_append_comm
    (h : ∀ n ∈ ns, ∀ m ∈ ms, ∀ s, (e n).run ((e m).run s) = (e m).run ((e n).run s))
    (s : L → V) : runAll e (ns ++ ms) s = runAll e (ms ++ ns) s := by
  induction ns generalizing s with
  | nil => rw [nil_append, append_nil]
  | cons n ns ih =>
    obtain ⟨hn, hns⟩ := forall_mem_cons.mp h
    rw [cons_append, runAll_cons, ih hns, runAll_append, runAll_append, runAll_run hn, runAll_cons]

theorem runAll_eq_of_write (hkeep : ∀ n ∈ ns, ∀ s, (e n).run s x = v ∨ (e n).run s x = s x)
    (hwrite : s x = v ∨ ∃ n ∈ ns, ∀ s, (e n).run s x = v) : runAll e ns s x = v := by
  induction ns generalizing s with
  | nil =>
    rcases hwrite with h | ⟨n, hn, -⟩
    · exact h
    · cases hn
  | cons n ns ih =>
    obtain ⟨hn, hns⟩ := forall_mem_cons.mp hkeep
    refine ih hns ?_
    rcases hwrite with h | ⟨m, hm, hv⟩
    · left
      rcases hn s with hrun | hrun
      · exact hrun
      · exact hrun.trans h
    · rcases mem_cons.mp hm with rfl | hm
      · exact Or.inl (hv s)
      · exact Or.inr ⟨m, hm, hv⟩

end Sequences

end Footprint
