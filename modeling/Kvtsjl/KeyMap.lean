import Mathlib.Data.Finset.Image
import Kvtsjl.Exceptions

/-
  Keyed maps: what a read shows, what a conditional write carries, and the
  operations every map and every store answers.
  A `KeyMap σ K T` is the operations of one map as programs over its state `σ`.
  Operations a class inherits from the abstract base are the `default…` functions,
  applied to the operations they are written in terms of.
-/

namespace Kvtsjl

open Assoc (Dict)
open Effects (Lens)
open Effects.Prog (Moves)

/-- A point in time, in microseconds since the epoch. -/
abbrev Instant := Int

/-! ## What is read and written -/

/-- A value in a column of a table that is not NULL. -/
inductive Cell where
  | number (n : Int)
  | text (t : String)
deriving DecidableEq, Repr

/-- A medium's own token for one state of an entry. It only compares equal or not. -/
inductive Token where
  | number (n : Nat)
  | identity (n : Nat)
  | text (t : String)
  | bytes (bs : List UInt8)
  /-- The columns of a row that a view writes, NULL as `none`. -/
  | columns (values : List (Option Cell))
deriving DecidableEq, Repr

/-- What a map holds for a key, and a token for exactly that state. The version is
    `none` only where the medium holds nothing. -/
structure Versioned (T : Type) where
  value : Option T
  version : Option Token
deriving DecidableEq

def Versioned.absent {T : Type} : Versioned T := ⟨none, none⟩

inductive Change (T : Type) where
  | put (value : T)
  | remove
deriving DecidableEq

inductive Decision (T : Type) where
  | keep
  | change (c : Change T)
deriving DecidableEq

/-- A change decided against `seen`, made only if the entry is still that. -/
structure ConditionalWrite (T : Type) where
  seen : Versioned T
  change : Change T
  createdAt : Option Instant
deriving DecidableEq

/-- The value a change stores. -/
def Change.value? {T : Type} : Change T → Option T
  | .put v => some v
  | .remove => none

/-- Retention: `none` never expires. The duration is in microseconds. -/
structure TtlPolicy where
  ttlDuration : Option Int
deriving DecidableEq

def TtlPolicy.ttlSeconds (p : TtlPolicy) : Option Int :=
  p.ttlDuration.map fun d => max 1 (d.tdiv 1000000)

/-- The per-write options every target receives. -/
structure WriteOptions where
  ttl : Option TtlPolicy
  createdAt : Option Instant
deriving DecidableEq

def WriteOptions.none : WriteOptions := ⟨.none, .none⟩

/-- What a medium says about a present key. -/
structure RecordStat where
  createdAt : Option Instant
  modifiedAt : Option Instant
  expiresAt : Option Instant
  persistent : Bool
deriving DecidableEq

def RecordStat.blank : RecordStat := ⟨.none, .none, .none, false⟩

/-- The clock a copy of the value carries: the creation time, else the last write. -/
def RecordStat.writeClock (m : RecordStat) : Option Instant := m.createdAt <|> m.modifiedAt

structure ScanQuery (K : Type) where
  keyPrefix : Option K
  includeValues : Bool
  pageSize : Nat

/-- One page of keys a fallback holds, and which of them the record lacks. -/
structure MissingPage (σ K V : Type) where
  listed : List K
  missing : List K
  read : List K → M σ (Dict K V)
  stat : List K → M σ (Dict K RecordStat)

/-! ## Pages of a list -/

theorem flatten_toChunks {α : Type} (n : Nat) (xs : List α) : (xs.toChunks n).flatten = xs := by
  have hgo : ∀ (n : Nat) (xs : List α) (acc : Array α) (pages : Array (List α)),
      (List.toChunks.go n xs acc pages).flatten = pages.toList.flatten ++ acc.toList ++ xs := by
    intro n xs
    induction xs with
    | nil =>
      intro acc pages
      rw [List.toChunks.go]
      simp
    | cons x xs ih =>
      intro acc pages
      rw [List.toChunks.go]
      split
      · rw [ih]
        simp
      · rw [ih]
        simp
  cases xs with
  | nil => cases n <;> rfl
  | cons x xs =>
    cases n with
    | zero => simp [List.toChunks]
    | succ n =>
      rw [List.toChunks, hgo]
      · simp
      · exact fun h => by cases h

/-! ## Maps and stores -/

structure KeyMap (σ K T : Type) where
  get : K → M σ (Option T)
  batchGet : List K → M σ (Dict K T)
  existsKey : K → M σ Bool
  batchExists : List K → M σ (Finset K)
  stat : K → M σ (Option RecordStat)
  batchStat : List K → M σ (Dict K RecordStat)
  batchReadVersioned : List K → M σ (Dict K (Versioned T))
  batchWriteIfUnchanged : Dict K (ConditionalWrite T) → Option TtlPolicy → M σ (Finset K)
  set : K → T → WriteOptions → M σ Unit
  batchSet : Dict K T → WriteOptions → M σ Unit
  delete : K → M σ Bool
  batchDelete : List K → M σ Nat
  unset : K → M σ Bool
  batchUnset : List K → M σ Nat
  createsEntries : Bool

/-- A node of a composed tree, as the operations over the whole tree see it. -/
structure SyncNode (σ : Type) where
  pendingIndexSyncs : σ → Nat
  flushIndexSyncs : M σ Unit
  discardIndexSyncs : M σ Unit

structure KvStore (σ K V : Type) extends KeyMap σ K V, SyncNode σ where
  supportsWriteClock : Bool
  writesAreDeferred : Bool
  expiredKeys : Option Instant → Int → M σ (List K)
  gcExpiredKeys : Int → M σ (List K)
  scanEntries : ScanQuery K → M σ (List (K × Option V))
  missingPages : Nat → M σ (List (MissingPage σ K V))

/-! ## Operations a map inherits -/

section Defaults

variable {σ K T : Type} [DecidableEq K]

def defaultBatchGet (get : K → M σ (Option T)) (keys : List K) : M σ (Dict K T) :=
  keys.foldlM (fun out key => do
    match ← get key with
    | some value => pure (out.set key value)
    | none => pure out) Dict.empty

def defaultExists (get : K → M σ (Option T)) (key : K) : M σ Bool := do
  return (← get key).isSome

def defaultBatchExists (batchGet : List K → M σ (Dict K T)) (keys : List K) :
    M σ (Finset K) := do
  return (← batchGet keys).keys.toFinset

def defaultStat (existsKey : K → M σ Bool) (key : K) : M σ (Option RecordStat) := do
  if ← existsKey key then return some RecordStat.blank else return none

/-- The keys in the order asked. The source iterates a set, in no fixed order. -/
def defaultBatchStat (batchExists : List K → M σ (Finset K)) (keys : List K) :
    M σ (Dict K RecordStat) := do
  let held ← batchExists keys
  return Dict.ofKeys keys fun k => if k ∈ held then some RecordStat.blank else none

def defaultBatchSet (set : K → T → WriteOptions → M σ Unit) (items : Dict K T)
    (options : WriteOptions) : M σ Unit :=
  forM items.entries fun e => set e.1 e.2 options

/-- How many of the keys the operation answers `true` for, asked one by one. -/
def countTrue (op : K → M σ Bool) (keys : List K) : M σ Nat :=
  keys.foldlM (fun n key => do
    if ← op key then pure (n + 1) else pure n) 0

end Defaults

/-! ## Deciding from what is stored -/

namespace KeyMap

variable {σ K T : Type} [DecidableEq K]

/-- What `KvStoreConflict` carries: the keys that lost every attempt, and what the
    other keys of the batch hold. -/
structure Conflict (K T : Type) where
  lost : List K
  held : Dict K T

/-- `batch_write_if_unchanged` of one key: whether it was written. -/
def writeIfUnchanged (m : KeyMap σ K T) (key : K) (seen : Versioned T) (change : Change T)
    (options : WriteOptions) : M σ Bool := do
  let written ← m.batchWriteIfUnchanged (Dict.single key ⟨seen, change, options.createdAt⟩)
    options.ttl
  return decide (key ∈ written)

/-- Write only where the medium holds nothing. -/
def setIfAbsent (m : KeyMap σ K T) (key : K) (value : T) (options : WriteOptions) : M σ Bool :=
  m.writeIfUnchanged key Versioned.absent (.put value) options

/-- `seen[k]`. Every key asked for is answered. -/
def seenAt (seen : Dict K (Versioned T)) (k : K) : Versioned T :=
  (seen.get? k).getD Versioned.absent

/-- The decision for one key of a round. A key left out is kept, and removing what
    is not there writes nothing. -/
def roundWrite (createdAt : Option Instant) (current : Versioned T) :
    Option (Decision T) → Option (ConditionalWrite T)
  | none => none
  | some .keep => none
  | some (.change .remove) =>
    if current.version = none then none else some ⟨current, .remove, createdAt⟩
  | some (.change (.put v)) => some ⟨current, .put v, createdAt⟩

/-- Whether a round leaves the entry as it is, so that what was read is what it holds. -/
def keeps : Option (Decision T) → Bool
  | none => true
  | some .keep => true
  | some (.change _) => false

/-- The conditional writes of one round. -/
def roundWrites (createdAt : Option Instant) (pending : List K) (seen : Dict K (Versioned T))
    (decisions : Dict K (Decision T)) : Dict K (ConditionalWrite T) :=
  Dict.ofKeys pending fun k => roundWrite createdAt (seenAt seen k) (decisions.get? k)

/-- `held` with what the keys the round keeps were read to hold. -/
def heldKept (pending : List K) (seen : Dict K (Versioned T)) (decisions : Dict K (Decision T))
    (held : Dict K T) : Dict K T :=
  held.update (Dict.ofKeys pending fun k =>
    if keeps (decisions.get? k) then (seenAt seen k).value else none)

/-- `held` with the values the round stored. -/
def heldWritten (writes : Dict K (ConditionalWrite T)) (written : Finset K)
    (held : Dict K T) : Dict K T :=
  held.update (writes.collect fun k w => if k ∈ written then w.change.value? else none)

/-- The keys of the round a concurrent writer took. -/
def lostKeys (writes : Dict K (ConditionalWrite T)) (written : Finset K) : List K :=
  writes.keys.filter fun k => k ∉ written

/-- What `decide` is shown. -/
def shown (pending : List K) (seen : Dict K (Versioned T)) : Dict K (Option T) :=
  Dict.ofKeys pending fun k => some (seenAt seen k).value

/-- One round's conditional batch. A round that changes nothing asks nothing. -/
def writeRound (m : KeyMap σ K T) (writes : Dict K (ConditionalWrite T))
    (ttl : Option TtlPolicy) : M σ (Finset K) :=
  if writes.entries.isEmpty then pure ∅ else m.batchWriteIfUnchanged writes ttl

/-- The rounds of `batch_update`, at most `attempts` of them. -/
def batchUpdateRounds (m : KeyMap σ K T)
    (decide : Dict K (Option T) → Dict K (Decision T)) (options : WriteOptions) :
    Nat → List K → Dict K T → M σ (Except (Conflict K T) (Dict K T))
  | 0, pending, held => pure (.error ⟨pending, held⟩)
  | attempts + 1, pending, held => do
    let seen ← m.batchReadVersioned pending
    let decisions := decide (shown pending seen)
    let writes := roundWrites options.createdAt pending seen decisions
    let held := heldKept pending seen decisions held
    let written ← m.writeRound writes options.ttl
    let held := heldWritten writes written held
    match lostKeys writes written with
    | [] => pure (.ok held)
    | pending => m.batchUpdateRounds decide options attempts pending held

/-- Decide for many keys at once: one read and one write per round, and only the keys
    a concurrent writer changed again. A conflict is returned as a value. -/
def batchUpdate (m : KeyMap σ K T) (keys : List K)
    (decide : Dict K (Option T) → Dict K (Decision T)) (options : WriteOptions)
    (attempts : Int) : M σ (Except (Conflict K T) (Dict K T)) :=
  if attempts < 1 then
    Effects.Prog.raise (.valueError ("attempts must be >= 1, got " ++ toString attempts))
  else m.batchUpdateRounds decide options attempts.toNat (Dict.unique keys) Dict.empty

/-- Where reads against versions and conditional batches move along `R`, so does an
    update, which is made of them. -/
theorem moves_batchUpdate (m : KeyMap σ K T) {R : σ → σ → Prop} [Std.Refl R] [IsTrans σ R]
    (hread : ∀ ks, Moves R (m.batchReadVersioned ks))
    (hwrite : ∀ ws ttl, Moves R (m.batchWriteIfUnchanged ws ttl)) (keys : List K)
    (decide : Dict K (Option T) → Dict K (Decision T)) (options : WriteOptions) (attempts : Int) :
    Moves R (m.batchUpdate keys decide options attempts) := by
  have hrounds : ∀ (left : Nat) (pending : List K) (held : Dict K T),
      Moves R (m.batchUpdateRounds decide options left pending held) := by
    intro left
    induction left with
    | zero => exact fun pending held => Moves.pure _
    | succ left ih =>
      intro pending held
      refine (hread pending).bind fun seen => Moves.bind ?_ fun written => ?_
      · unfold writeRound
        split
        · exact Moves.pure _
        · exact hwrite _ _
      · split
        · exact Moves.pure _
        · exact ih _ _
  unfold batchUpdate
  split
  · exact Moves.raise _
  · exact hrounds _ _ _

/-- `batch_update` of one key. -/
def update (m : KeyMap σ K T) (key : K) (decide : Option T → Decision T)
    (options : WriteOptions) (attempts : Int) :
    M σ (Except (Conflict K T) (Option T)) := do
  let held ← m.batchUpdate [key]
    (fun seen => Dict.single key (decide ((seen.get? key).join))) options attempts
  return held.map fun d => d.get? key

/-- The stored value, or the computed one stored only if the key is still absent. -/
def getOrSet (m : KeyMap σ K T) (key : K) (computeValue : Unit → T) :
    M σ (Except (Conflict K T) T) := do
  match ← m.get key with
  | some found => return .ok found
  | none =>
    let stored ← m.update key
      (fun current => if current.isSome then .keep else .change (.put (computeValue ())))
      WriteOptions.none 8
    match stored with
    | .ok (some value) => return .ok value
    | .ok none => Effects.Prog.raise (.kvStoreError "compute_value_fn returned None")
    | .error conflict => return .error conflict

end KeyMap

/-! ## A store over a part of a larger state -/

def SyncNode.zoom {σ τ : Type} (l : Lens σ τ) (n : SyncNode τ) : SyncNode σ where
  pendingIndexSyncs s := n.pendingIndexSyncs (l.get s)
  flushIndexSyncs := l.zoom n.flushIndexSyncs
  discardIndexSyncs := l.zoom n.discardIndexSyncs

def MissingPage.zoom {σ τ K V : Type} (l : Lens σ τ) (p : MissingPage τ K V) :
    MissingPage σ K V where
  listed := p.listed
  missing := p.missing
  read ks := l.zoom (p.read ks)
  stat ks := l.zoom (p.stat ks)

/-- The map, acting on one part of a larger state. -/
def KeyMap.zoom {σ τ K T : Type} (l : Lens σ τ) (m : KeyMap τ K T) : KeyMap σ K T where
  get k := l.zoom (m.get k)
  batchGet ks := l.zoom (m.batchGet ks)
  existsKey k := l.zoom (m.existsKey k)
  batchExists ks := l.zoom (m.batchExists ks)
  stat k := l.zoom (m.stat k)
  batchStat ks := l.zoom (m.batchStat ks)
  batchReadVersioned ks := l.zoom (m.batchReadVersioned ks)
  batchWriteIfUnchanged ws ttl := l.zoom (m.batchWriteIfUnchanged ws ttl)
  set k v o := l.zoom (m.set k v o)
  batchSet items o := l.zoom (m.batchSet items o)
  delete k := l.zoom (m.delete k)
  batchDelete ks := l.zoom (m.batchDelete ks)
  unset k := l.zoom (m.unset k)
  batchUnset ks := l.zoom (m.batchUnset ks)
  createsEntries := m.createsEntries

/-- The store, acting on one part of a larger state. -/
def KvStore.zoom {σ τ K V : Type} (l : Lens σ τ) (s : KvStore τ K V) : KvStore σ K V where
  get k := l.zoom (s.get k)
  batchGet ks := l.zoom (s.batchGet ks)
  existsKey k := l.zoom (s.existsKey k)
  batchExists ks := l.zoom (s.batchExists ks)
  stat k := l.zoom (s.stat k)
  batchStat ks := l.zoom (s.batchStat ks)
  batchReadVersioned ks := l.zoom (s.batchReadVersioned ks)
  batchWriteIfUnchanged ws ttl := l.zoom (s.batchWriteIfUnchanged ws ttl)
  set k v o := l.zoom (s.set k v o)
  batchSet items o := l.zoom (s.batchSet items o)
  delete k := l.zoom (s.delete k)
  batchDelete ks := l.zoom (s.batchDelete ks)
  unset k := l.zoom (s.unset k)
  batchUnset ks := l.zoom (s.batchUnset ks)
  createsEntries := s.createsEntries
  pendingIndexSyncs t := s.pendingIndexSyncs (l.get t)
  flushIndexSyncs := l.zoom s.flushIndexSyncs
  discardIndexSyncs := l.zoom s.discardIndexSyncs
  supportsWriteClock := s.supportsWriteClock
  writesAreDeferred := s.writesAreDeferred
  expiredKeys now limit := l.zoom (s.expiredKeys now limit)
  gcExpiredKeys n := l.zoom (s.gcExpiredKeys n)
  scanEntries query := l.zoom (s.scanEntries query)
  missingPages n := l.zoom (List.map (MissingPage.zoom l) <$> s.missingPages n)

end Kvtsjl
