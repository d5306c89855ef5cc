import FlexPlan.PythonText
import Mathlib.Logic.Function.Basic

/-!
# One file name shared by several processes

Opening for writing truncates the inode in place, removing the name keeps the inode alive for
whoever holds a descriptor, and a buffered write lands at offset zero of the inode that was opened.
-/
namespace SharedFile

open PythonText

structure File where
  entry : Option ℕ
  content : ℕ → Str
  fresh : ℕ

/-- What a reader of the name sees; a missing file counts as empty here. -/
def File.text (f : File) : Str := (f.entry.map f.content).getD []

def File.create (f : File) : File :=
  ⟨some f.fresh, Function.update f.content f.fresh [], f.fresh + 1⟩

def File.truncate (f : File) : File :=
  match f.entry with
  | some i => { f with content := Function.update f.content i [] }
  | none => f.create

/-- The inode behind a descriptor opened on the current name. -/
def File.descriptor (f : File) : ℕ := f.entry.getD f.fresh

def overwrite (old new : Str) : Str := new ++ old.drop new.length

def File.write (f : File) (i : ℕ) (t : Str) : File :=
  { f with content := Function.update f.content i (overwrite (f.content i) t) }

def File.remove (f : File) : File := { f with entry := none }

def File.touch (f : File) : File :=
  match f.entry with
  | some _ => f
  | none => f.create

@[simp] theorem truncate_text (f : File) : f.truncate.text = [] := by
  unfold File.truncate
  cases h : f.entry with
  | none => simp [File.create, File.text]
  | some i => simp [File.text]

@[simp] theorem truncate_entry (f : File) : f.truncate.entry = some f.descriptor := by
  unfold File.truncate File.descriptor
  cases h : f.entry with
  | none => simp [File.create]
  | some i => simp

@[simp] theorem touch_text (f : File) : f.touch.text = f.text := by
  unfold File.touch
  cases h : f.entry with
  | none => simp [File.create, File.text, h]
  | some i => rfl

@[simp] theorem remove_text (f : File) : f.remove.text = [] := rfl

theorem write_text_live {f : File} {i : ℕ} (h : f.entry = some i) (t : Str) :
    (f.write i t).text = overwrite f.text t := by
  simp [File.write, File.text, h]

theorem write_text_unlinked {f : File} {i : ℕ} (h : some i ≠ f.entry) (t : Str) :
    (f.write i t).text = f.text := by
  unfold File.text File.write
  cases he : f.entry with
  | none => simp
  | some j =>
    have hij : j ≠ i := fun hij => h (by rw [he, hij])
    simp [Function.update_of_ne hij]

end SharedFile
