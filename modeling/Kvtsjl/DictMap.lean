import Kvtsjl.KeyMap

/-
  `DictKeyMap`: a map held in memory, whose every write takes a new number.
  The state carries that the two dictionaries hold the same keys and that no number
  in use is one still to be given out.
-/

namespace Kvtsjl

open Assoc (Dict)
open Effects Prog

/-! ## Conditional writes one entry at a time -/

/-- One conditional write of a batch: `written` with its key, if it was made. -/
def addWritten {σ K T : Type} [DecidableEq K] (write : K → ConditionalWrite T → M σ Bool)
    (written : Finset K) (e : K × ConditionalWrite T) : M σ (Finset K) := do
  return if ← write e.1 e.2 then insert e.1 written else written

/-- A batch of conditional writes made one by one: the keys that were written. -/
def eachConditional {σ K T : Type} [DecidableEq K] (write : K → ConditionalWrite T → M σ Bool)
    (writes : Dict K (ConditionalWrite T)) : M σ (Finset K) :=
  writes.entries.foldlM (addWritten write) ∅

structure DictState (K T : Type) [DecidableEq K] where
  data : Dict K T
  version : Dict K Nat
  /-- The next number of `itertools.count`. -/
  next : Nat
  agree : ∀ k, (data.get? k).isSome = (version.get? k).isSome
  fresh : ∀ k n, version.get? k = some n → n < next

namespace DictState

variable {K T : Type} [DecidableEq K]

def empty : DictState K T := ⟨Dict.empty, Dict.empty, 1, by simp, by simp⟩

def set (s : DictState K T) (key : K) (value : T) : DictState K T where
  data := s.data.set key value
  version := s.version.set key s.next
  next := s.next + 1
  agree k := by
    rw [Dict.get?_set, Dict.get?_set]
    split
    · rfl
    · exact s.agree k
  fresh k n h := by
    rw [Dict.get?_set] at h
    split at h
    · exact Nat.lt_succ_of_le (Option.some.inj h).ge
    · exact Nat.lt_succ_of_lt (s.fresh k n h)

def erase (s : DictState K T) (key : K) : DictState K T where
  data := s.data.erase key
  version := s.version.erase key
  next := s.next
  agree k := by
    rw [Dict.get?_erase, Dict.get?_erase]
    split
    · rfl
    · exact s.agree k
  fresh k n h := by
    rw [Dict.get?_erase] at h
    split at h
    · cases h
    · exact s.fresh k n h

/-- What the map holds for a key: the value, and the number of its write. -/
def entry (s : DictState K T) (key : K) : Option (T × Nat) :=
  (s.data.get? key).bind fun v => (s.version.get? key).map fun n => (v, n)

end DictState

namespace DictKeyMap

variable {K T : Type} [DecidableEq K]

def get (key : K) : M (DictState K T) (Option T) := read fun s => s.data.get? key

def set (key : K) (value : T) : M (DictState K T) Unit := modify fun s => s.set key value

def delete (key : K) : M (DictState K T) Bool := do
  let held ← read fun s : DictState K T => (s.data.get? key).isSome
  when (held = true) (modify fun s => s.erase key)
  return held

def batchReadVersioned (keys : List K) : M (DictState K T) (Dict K (Versioned T)) :=
  read fun s => Dict.ofKeys keys fun k => some
    (match s.version.get? k with
    | none => Versioned.absent
    | some v => ⟨s.data.get? k, some (.number v)⟩)

/-- One compare and write. -/
def writeIfUnchanged (key : K) (w : ConditionalWrite T) : M (DictState K T) Bool := do
  let current ← read fun s : DictState K T => (s.version.get? key).map Token.number
  if current ≠ w.seen.version then return false
  else match w.change with
    | .remove => delete key
    | .put value =>
      set key value
      return true

end DictKeyMap

/-- `DictKeyMap`. What it does not define is the base class's. -/
def dictKeyMap (K T : Type) [DecidableEq K] : KeyMap (DictState K T) K T where
  get := DictKeyMap.get
  batchGet := defaultBatchGet DictKeyMap.get
  existsKey := defaultExists DictKeyMap.get
  batchExists := defaultBatchExists (defaultBatchGet DictKeyMap.get)
  stat := defaultStat (defaultExists DictKeyMap.get)
  batchStat := defaultBatchStat (defaultBatchExists (defaultBatchGet DictKeyMap.get))
  batchReadVersioned := DictKeyMap.batchReadVersioned
  batchWriteIfUnchanged writes _ := eachConditional DictKeyMap.writeIfUnchanged writes
  set key value _ := DictKeyMap.set key value
  batchSet := defaultBatchSet fun key value _ => DictKeyMap.set key value
  delete := DictKeyMap.delete
  batchDelete := countTrue DictKeyMap.delete
  unset := DictKeyMap.delete
  batchUnset := countTrue DictKeyMap.delete
  createsEntries := true

end Kvtsjl
