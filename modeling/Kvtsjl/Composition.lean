import Kvtsjl.Views

/-
  Trees of compositions.
  A composition is a leaf store, a view of one, or a node that puts its record in
  several children. Each child of a node has a state of its own, so no two targets
  share a medium. `mirror`, `fallbackRead`, `indexed`, `scopeFrom` and `zipWith` are
  nodes at the declarations of the source.
-/

namespace Kvtsjl

open Assoc (Dict)
open Effects Prog

/-! ## Zips -/

/-- The row exists iff every mandatory slot is present and not all slots are empty. -/
def rowPresent (present mandatory : List Bool) : Bool :=
  present.any id && (present.zip mandatory).all fun p => p.1 || !p.2

/-- The latest of the instants, if there is one. -/
def latest (ts : List Instant) : Option Instant := ts.max?

def earliest (ts : List Instant) : Option Instant := ts.min?

/-- `merge_part_stats`: the expiry agrees with `row_present`. -/
def mergePartStats (slotStats : List (Option RecordStat)) (mandatory : List Bool)
    (createdAtMerge : Option (List (Option Instant) → Option Instant)) : RecordStat :=
  let present := slotStats.filterMap id
  let createdVals := present.map fun s => s.createdAt
  let createdAt := match createdAtMerge with
    | some merge => merge createdVals
    | none => latest (createdVals.filterMap id)
  let expiresAt :=
    if mandatory.any id then
      earliest ((slotStats.zip mandatory).filterMap fun p =>
        if p.2 then p.1.bind fun s => s.expiresAt else none)
    else if present.any fun s => s.expiresAt.isNone then none
    else latest (present.filterMap fun s => s.expiresAt)
  ⟨createdAt, none, expiresAt, false⟩

/-- What a zip's class adds to a composition. -/
structure Zip where
  mandatory : List Bool
  createdAtMerge : Option (List (Option Instant) → Option Instant)

namespace Zip

variable {S K V P : Type} [DecidableEq K]

def stat (z : Zip) (T : Topology S K V P) (key : K) : M S (Option RecordStat) := do
  match ← T.read key with
  | none => return none
  | some _ =>
    let slotStats ← T.parts.mapM fun t => t.stat key
    return if slotStats.all fun m => m.isNone then none
      else some (mergePartStats slotStats z.mandatory z.createdAtMerge)

def batchStat (z : Zip) (T : Topology S K V P) (keys : List K) :
    M S (Dict K RecordStat) := do
  let presentKeys ← T.batchRead keys
  if presentKeys.entries.isEmpty then pure Dict.empty
  else do
    let perPart ← T.parts.mapM fun t => t.batchStat presentKeys.keys
    return Dict.ofKeys presentKeys.keys fun k => some
      (mergePartStats (perPart.map fun d => d.get? k) z.mandatory z.createdAtMerge)

/-- The store of a zip: its own metadata, and no conditional write without a part that
    decides whether the record exists. -/
def store (z : Zip) (T : Topology S K V P) (typeName : String) :
    KvStore (Node S K V P) K V :=
  { T.store typeName with
    stat := fun key => Node.onMedia (z.stat T key)
    batchStat := fun keys => Node.onMedia (z.batchStat T keys)
    batchWriteIfUnchanged := fun writes ttl =>
      if T.authority.isNone then
        raise (.unsupported ("a conditional write — set_if_absent, update — on a zip needs a "
          ++ "commit_part: without one no part decides whether the record exists"))
      else (T.store typeName).batchWriteIfUnchanged writes ttl }

end Zip

/-! ## Trees -/

/-- A leaf store: a state of its own and the operations on it. -/
structure Leaf (K V : Type) where
  State : Type
  store : KvStore State K V

structure IndexLeaf (K V : Type) where
  State : Type
  index : Index State K V

/-- How a child holds the record: the whole of it, or a piece. -/
inductive Shape (V P : Type) : Type → Type 1 where
  | whole : Shape V P V
  | piece {T : Type} (slot : V → Option T) (up : T → P) : Shape V P T

/-- What of the record a child of this shape holds. -/
def Shape.slot {V P : Type} : {T : Type} → Shape V P T → V → Option T
  | _, .whole => some
  | _, .piece slot _ => slot

inductive Composition : Type → Type → Type 1 where
  | leaf {K V : Type} (l : Leaf K V) : Composition K V
  | imap {K T U : Type} (c : Composition K T) (forward : T → U) (inverse : U → T) :
      Composition K U
  | imapKeys {K SK V : Type} (decKeys : DecidableEq SK) (c : Composition SK V)
      (toStore : K → SK) (fromStore : Option (SK → K)) : Composition K V
  /-- A node over `n` children and `m` indexes. `P` is the type its parts are seen at. -/
  | node {K V : Type} (typeName : String) (zip : Option Zip) (P : Type) (n : Nat)
      (part : Fin n → Type) (decParts : ∀ i, DecidableEq (part i))
      (child : ∀ i, Composition K (part i)) (declared : Fin n → Declared)
      (shape : ∀ i, Shape V P (part i)) (m : Nat) (index : Fin m → IndexLeaf K V)
      (indexPolicy : Option SyncPolicy) (assemble : Option (Parts V P → Option V)) :
      Composition K V

/-- The two places of a pair are numerals. -/
instance neZero_two : NeZero 2 := ⟨by decide⟩

/-- The media of a node: one state for each child and each index. -/
abbrev Media {n m : Nat} (C : Fin n → Type) (I : Fin m → Type) : Type :=
  (∀ i, C i) × (∀ j, I j)

namespace Media

variable {n m : Nat} {C : Fin n → Type} {I : Fin m → Type}

def child (i : Fin n) : Lens (Media C I) (C i) where
  get s := s.1 i
  set s t := (Function.update s.1 i t, s.2)
  get_set _ _ := by simp
  set_get _ := by simp
  set_set _ _ _ := by simp

def index (j : Fin m) : Lens (Media C I) (I j) where
  get s := s.2 j
  set s t := (s.1, Function.update s.2 j t)
  get_set _ _ := by simp
  set_get _ := by simp
  set_set _ _ _ := by simp

end Media

namespace Shape

variable {S K V P : Type} [DecidableEq K]

def target? (d : Declared) :
    {T : Type} → [DecidableEq T] → Shape V P T → KvStore S K T → Option (Target S K V V)
  | _, _, .whole, s => some (storeTarget d s some id)
  | _, _, .piece _ _, _ => none

def part? (d : Declared) :
    {T : Type} → [DecidableEq T] → Shape V P T → KvStore S K T → Option (Target S K V P)
  | _, _, .whole, _ => none
  | _, _, .piece slot up, s => some (storeTarget d s slot up)

end Shape

/-- The topology of a node over its children's stores: the whole ones in order, then
    the indexes, and the pieces. -/
def nodeTopology {S K V P : Type} [DecidableEq K] {n : Nat} {part : Fin n → Type}
    [∀ i, DecidableEq (part i)] (stores : ∀ i, KvStore S K (part i)) (declared : Fin n → Declared)
    (shape : ∀ i, Shape V P (part i)) (indexes : List (Index S K V))
    (indexPolicy : Option SyncPolicy) (assemble : Option (Parts V P → Option V)) :
    Topology S K V P where
  targets := ((List.finRange n).filterMap fun i => (shape i).target? (declared i) (stores i))
    ++ (indexPolicy.map fun p => indexesTarget indexes p).toList
  parts := (List.finRange n).filterMap fun i => (shape i).part? (declared i) (stores i)
  assemble := assemble

namespace Composition

/-- The state of the whole tree: a leaf's own, and at a node its media and its queue. -/
def State : {K V : Type} → Composition K V → Type
  | _, _, .leaf l => l.State
  | _, _, .imap c _ _ => c.State
  | _, _, .imapKeys _ c _ _ => c.State
  | K, V, .node _ _ P _ _ _ child _ _ _ index _ _ =>
    Node (Media (fun i => (child i).State) fun j => (index j).State) K V P

/-- The store a tree is. `flag` is applied to what each leaf says of its writes being
    deferred, so that a run can be compared with the run that writes at once. -/
def storeAs (flag : Bool → Bool) : {K V : Type} → [DecidableEq K] → (c : Composition K V) →
    KvStore c.State K V
  | _, _, _, .leaf l => { l.store with writesAreDeferred := flag l.store.writesAreDeferred }
  | _, _, _, .imap c forward inverse => imapStore (c.storeAs flag) forward inverse
  | _, _, _, .imapKeys _ c toStore fromStore => imapKeysStore (c.storeAs flag) toStore fromStore
  | _, _, _, .node typeName zip _ _ _ _ child declared shape _ index indexPolicy assemble =>
    let T := nodeTopology (fun i => ((child i).storeAs flag).zoom (Media.child i)) declared shape
      (List.ofFn fun j => (index j).index.zoom (Media.index j)) indexPolicy assemble
    match zip with
    | none => T.store typeName
    | some z => z.store T typeName

abbrev store {K V : Type} [DecidableEq K] (c : Composition K V) : KvStore c.State K V :=
  c.storeAs id

end Composition

end Kvtsjl
