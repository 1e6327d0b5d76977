import Mathlib.Logic.Function.Basic
import Kvtsjl.Lib.Dict

/-
  A file system with the names apart from the files.
  A name leads to a file, a handle to a file and an offset in it. Renaming moves the name alone,
  so a handle follows its file wherever the name goes. No file has two names.
-/

namespace Files

open Assoc (Dict)

abbrev Path := String

abbrev Bytes := List UInt8

structure FileSystem where
  names : Dict Path Nat
  /-- The bytes of each file, named or not. -/
  bytes : Nat → Bytes
  next : Nat
  fresh : ∀ p n, names.get? p = some n → n < next
  single : ∀ p q n, names.get? p = some n → names.get? q = some n → p = q

/-- An open file, and where in it the next bytes go. -/
structure Handle where
  file : Nat
  offset : Nat

namespace FileSystem

def empty : FileSystem := ⟨Dict.empty, fun _ => [], 0, by simp, by simp⟩

/-- What a reader of the name finds. -/
def read (fs : FileSystem) (p : Path) : Option Bytes := (fs.names.get? p).map fs.bytes

/-- Replace the bytes of a file. -/
def setBytes (fs : FileSystem) (n : Nat) (data : Bytes) : FileSystem :=
  { fs with bytes := Function.update fs.bytes n data }

/-- A new file of that name. -/
def create (fs : FileSystem) (p : Path) : FileSystem where
  names := fs.names.set p fs.next
  bytes := Function.update fs.bytes fs.next []
  next := fs.next + 1
  fresh q n hq := by
    rw [Dict.get?_set] at hq
    split at hq
    · cases hq
      omega
    · have hlt := fs.fresh q n hq
      omega
  single q r n hq hr := by
    rw [Dict.get?_set] at hq hr
    split at hq <;> split at hr
    · next hq' hr' => rw [hq', hr']
    · cases hq
      have hlt := fs.fresh r _ hr
      omega
    · cases hr
      have hlt := fs.fresh q _ hq
      omega
    · exact fs.single q r n hq hr

/-- Open for writing: the file of that name, emptied, or a new one. -/
def openWrite (fs : FileSystem) (p : Path) : Handle × FileSystem :=
  match fs.names.get? p with
  | some n => (⟨n, 0⟩, fs.setBytes n [])
  | none => (⟨fs.next, 0⟩, fs.create p)

/-- `data` over what stands at `offset`. A gap before it reads as zeros. -/
def overwrite (old : Bytes) (offset : Nat) (data : Bytes) : Bytes :=
  old.take offset ++ List.replicate (offset - old.length) 0 ++ data ++ old.drop (offset + data.length)

/-- Write at the handle's offset. -/
def write (fs : FileSystem) (h : Handle) (data : Bytes) : Handle × FileSystem :=
  (⟨h.file, h.offset + data.length⟩, fs.setBytes h.file (overwrite (fs.bytes h.file) h.offset data))

/-- Remove the name, if it is there. -/
def unlink (fs : FileSystem) (p : Path) : FileSystem where
  names := fs.names.erase p
  bytes := fs.bytes
  next := fs.next
  fresh q n hq := by
    rw [Dict.get?_erase] at hq
    split at hq
    · cases hq
    · exact fs.fresh q n hq
  single q r n hq hr := by
    rw [Dict.get?_erase] at hq hr
    split at hq
    · cases hq
    · split at hr
      · cases hr
      · exact fs.single q r n hq hr

/-- Give the file of name `p` the name `q` instead, whatever had it. Only a name that is there
    can be given up. -/
def replace (fs : FileSystem) (p q : Path) : Option FileSystem :=
  match h : fs.names.get? p with
  | none => none
  | some n => some
    { names := (fs.names.erase p).set q n
      bytes := fs.bytes
      next := fs.next
      fresh := fun r m hr => by
        rw [Dict.get?_set] at hr
        split at hr
        · cases hr
          exact fs.fresh p n h
        · exact (fs.unlink p).fresh r m hr
      single := fun r s m hr hs => by
        rw [Dict.get?_set, Dict.get?_erase] at hr hs
        split at hr <;> split at hs
        · next hr' hs' => rw [hr', hs']
        · cases hr
          split at hs
          · cases hs
          · next hp => exact absurd (fs.single s p _ hs h) hp
        · cases hs
          split at hr
          · cases hr
          · next hp => exact absurd (fs.single r p _ hr h) hp
        · split at hr
          · cases hr
          · split at hs
            · cases hs
            · exact fs.single r s m hr hs }

variable {fs fs' : FileSystem} {p q : Path} {h : Handle}

/-! ## What each call leaves alone -/

theorem openWrite_offset (fs : FileSystem) (p : Path) : (fs.openWrite p).1.offset = 0 := by
  unfold openWrite
  split <;> rfl

theorem openWrite_name (fs : FileSystem) (p : Path) :
    (fs.openWrite p).2.names.get? p = some (fs.openWrite p).1.file := by
  unfold openWrite
  split
  · next n hn => exact hn
  · next hn =>
    show (fs.names.set p fs.next).get? p = _
    rw [Dict.get?_set, if_pos rfl]

theorem openWrite_empty (fs : FileSystem) (p : Path) :
    (fs.openWrite p).2.bytes (fs.openWrite p).1.file = [] := by
  unfold openWrite
  split <;> exact Function.update_self ..

theorem openWrite_names (hq : q ≠ p) : (fs.openWrite p).2.names.get? q = fs.names.get? q := by
  unfold openWrite
  split
  · rfl
  · show (fs.names.set p fs.next).get? q = _
    rw [Dict.get?_set, if_neg hq]

/-- The file opened is no other name's. -/
theorem openWrite_bytes (hq : q ≠ p) {n : Nat} (hn : fs.names.get? q = some n) :
    (fs.openWrite p).2.bytes n = fs.bytes n := by
  unfold openWrite
  split
  · next m hm =>
    refine Function.update_of_ne ?_ ..
    intro hnm
    rw [hnm] at hn
    exact hq (fs.single q p m hn hm)
  · refine Function.update_of_ne ?_ ..
    have hlt := fs.fresh q n hn
    omega

theorem write_names (fs : FileSystem) (h : Handle) (data : Bytes) :
    (fs.write h data).2.names = fs.names := rfl

theorem write_bytes_other {n : Nat} (hn : n ≠ h.file) (data : Bytes) :
    (fs.write h data).2.bytes n = fs.bytes n := Function.update_of_ne hn ..

/-- At the end of its file, a handle adds to it. -/
theorem write_bytes_end (hend : h.offset = (fs.bytes h.file).length) (data : Bytes) :
    (fs.write h data).2.bytes h.file = fs.bytes h.file ++ data := by
  show Function.update fs.bytes h.file (overwrite (fs.bytes h.file) h.offset data) h.file = _
  rw [Function.update_self]
  unfold overwrite
  rw [hend, List.take_length, Nat.sub_self, List.drop_eq_nil_of_le (by omega)]
  simp

theorem unlink_names (fs : FileSystem) (p q : Path) :
    (fs.unlink p).names.get? q = if q = p then none else fs.names.get? q := Dict.get?_erase ..

theorem replace_names (hr : fs.replace p q = some fs') {r : Path} (hrq : r ≠ q) (hrp : r ≠ p) :
    fs'.names.get? r = fs.names.get? r := by
  unfold replace at hr
  split at hr
  · cases hr
  · cases hr
    show ((fs.names.erase p).set q _).get? r = _
    rw [Dict.get?_set, if_neg hrq, Dict.get?_erase, if_neg hrp]

theorem replace_name (hr : fs.replace p q = some fs') : fs'.names.get? q = fs.names.get? p := by
  unfold replace at hr
  split at hr
  · cases hr
  · next n hn =>
    cases hr
    show ((fs.names.erase p).set q n).get? q = _
    rw [Dict.get?_set, if_pos rfl, hn]

theorem replace_bytes (hr : fs.replace p q = some fs') : fs'.bytes = fs.bytes := by
  unfold replace at hr
  split at hr
  · cases hr
  · cases hr
    rfl

/-! ## What a reader then finds -/

theorem read_openWrite (hq : q ≠ p) : (fs.openWrite p).2.read q = fs.read q := by
  unfold read
  rw [openWrite_names hq]
  cases hn : fs.names.get? q with
  | none => rfl
  | some n => exact congrArg some (openWrite_bytes hq hn)

/-- Writing through the handle of one name shows under no other. -/
theorem read_write (hp : fs.names.get? p = some h.file) (hq : q ≠ p) (data : Bytes) :
    (fs.write h data).2.read q = fs.read q := by
  unfold read
  rw [write_names]
  cases hn : fs.names.get? q with
  | none => rfl
  | some n =>
    refine congrArg some (write_bytes_other ?_ data)
    intro hnf
    rw [hnf] at hn
    exact hq (fs.single q p _ hn hp)

theorem read_unlink (hq : q ≠ p) : (fs.unlink p).read q = fs.read q := by
  unfold read
  rw [unlink_names, if_neg hq]
  rfl

theorem read_replace (hr : fs.replace p q = some fs') : fs'.read q = fs.read p := by
  unfold read
  rw [replace_name hr, replace_bytes hr]

theorem read_replace_other (hr : fs.replace p q = some fs') {r : Path} (hrq : r ≠ q) (hrp : r ≠ p) :
    fs'.read r = fs.read r := by
  unfold read
  rw [replace_names hr hrq hrp, replace_bytes hr]

end FileSystem

end Files
