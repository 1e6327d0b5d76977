import Kvtsjl.Composition
import Kvtsjl.Memory

/-
  The compositions of the source, as nodes of a tree, and memory stores as leaves.
-/

namespace Kvtsjl

namespace Composition

variable {K V : Type}

/-- Two children that hold the whole record, and no index. -/
def pair [DecidableEq V] (typeName : String) (first second : Composition K V)
    (declared : Fin 2 → Declared) : Composition K V :=
  .node typeName none Empty 2 (fun _ => V) (fun _ => inferInstance)
    (fun i => match i with
      | 0 => first
      | 1 => second)
    declared (fun _ => .whole) 0 Fin.elim0 none none

/-- `MirrorKvStore`: reads from the primary, writes to both. -/
def mirror [DecidableEq V] (primary secondary : Composition K V) (syncPolicy : SyncPolicy) :
    Composition K V :=
  pair "MirrorKvStore" primary secondary fun i => match i with
    | 0 => ⟨"primary", .authority, none, false, .required⟩
    | 1 => ⟨"secondary", .dependent, none, false, syncPolicy⟩

/-- `CoalescedKvStore`: reads the secondary where the primary misses, writes to the
    primary only. -/
def fallbackRead [DecidableEq V] (primary secondary : Composition K V) (promote : Bool) :
    Composition K V :=
  pair "CoalescedKvStore" primary secondary fun i => match i with
    | 0 => ⟨"primary", .authority, none, promote, .required⟩
    | 1 => ⟨"secondary", .fallback, none, false, .required⟩

/-- `IndexedKvStore`: a store, and indexes derived from its records. -/
def indexed [DecidableEq V] (underlying : Composition K V) {m : Nat} (indexes : Fin m → IndexLeaf K V)
    (syncPolicy : SyncPolicy) : Composition K V :=
  .node "IndexedKvStore" none Empty 1 (fun _ => V) (fun _ => inferInstance) (fun _ => underlying)
    (fun _ => ⟨"store", .authority, none, false, .required⟩) (fun _ => .whole) m indexes
    (some syncPolicy) none

/-- `ScopeFromKvStore`. Only how it is scoped differs from the store itself. -/
def scopeFrom [DecidableEq V] (underlying : Composition K V) : Composition K V :=
  .node "ScopeFromKvStore" none Empty 1 (fun _ => V) (fun _ => inferInstance) (fun _ => underlying)
    (fun _ => ⟨"store", .authority, none, false, .required⟩) (fun _ => .whole) 0 Fin.elim0 none none

/-- The state of two children, with nothing queued. -/
def pairState {K V : Type} {C : Fin 2 → Type} {I : Fin 0 → Type} (first : C 0) (second : C 1) :
    Node (Media C I) K V Empty :=
  ⟨(fun | ⟨0, _⟩ => first | ⟨1, _⟩ => second, fun j => j.elim0), []⟩

/-! ## Zips -/

/-- One part of a zipped record: its field, its store and its role. -/
structure ZipPart (K V : Type) where
  name : String
  T : Type
  dec : DecidableEq T
  store : Composition K T
  field : V → Option T
  role : Role
  mandatory : Bool

/-- The value of one part, out of what the parts hold. -/
def partValue {n : Nat} {T : Fin n → Type} (held : Parts V (Σ i, T i)) (i : Fin n) : Option (T i) :=
  match held.held i with
  | some (.inr ⟨j, value⟩) => if h : j = i then some (h ▸ value) else none
  | _ => none

/-- `ZipWithKvStore`: a record of which every part has a store. A commit part has the role
    of the authority, the parts named in `after_commit` are dependents, and the others
    components. -/
def zipWith {n : Nat} (parts : Fin n → ZipPart K V) (ctor : (∀ i, Option (parts i).T) → V)
    (createdAtMerge : Option (List (Option Instant) → Option Instant)) : Composition K V :=
  .node "ZipWithKvStore" (some ⟨List.ofFn fun i => (parts i).mandatory, createdAtMerge⟩)
    (Σ i, (parts i).T) n (fun i => (parts i).T) (fun i => (parts i).dec)
    (fun i => (parts i).store)
    (fun i => ⟨(parts i).name, (parts i).role, none, false, .required⟩)
    (fun i => .piece (parts i).field fun value => ⟨i, value⟩) 0 Fin.elim0 none
    (some fun held =>
      if rowPresent (List.ofFn fun i => (partValue held i).isSome)
        (List.ofFn fun i => (parts i).mandatory) then
        some (ctor fun i => partValue held i)
      else none)

/-! ## Leaves in memory -/

/-- A memory store, as a leaf. -/
def memoryLeaf {K V α VB : Type} [DecidableEq K] [DecidableEq α] (b : MemoryKvBackend K V α VB) :
    Leaf K V := ⟨MemoryRoot α VB, b.store⟩

end Composition

end Kvtsjl
