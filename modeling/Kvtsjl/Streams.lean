import Kvtsjl.Compose

/-
  Streamed reads and writes: `read_stream`, `set_stream`, and how a composition has its
  targets stream.
  A program that is handed an open stream runs on the state and the stream together. So it
  leaves the stream as far on as it read it, also where it raises, and nothing of the stream
  is left to whoever handed it over.
-/

namespace Kvtsjl

open Assoc (Dict)
open Effects Prog

/-- An open stream: the chunks it has still to yield. -/
abbrev ChunkStream (A : Type) : Type := List (List A)

section Streams

variable {σ τ A α : Type}

/-- Hand an open stream to a program, and let go of what it leaves of it. -/
def consuming (chunks : ChunkStream A) (m : M (σ × ChunkStream A) α) : M σ α := fun s =>
  ((m (s, chunks)).1, (m (s, chunks)).2.1)

/-- Read the stream to its end. -/
def drain : M (σ × ChunkStream A) (ChunkStream A) := fun s => (.ok s.2, (s.1, []))

/-- Read the next chunks of the stream, as many as asked. -/
def advance (n : Nat) : M (σ × ChunkStream A) Unit := modify fun s => (s.1, s.2.drop n)

end Streams

/-- What a store that streams reads and writes in chunks. The size is what the caller knows
    of the value's length. -/
structure Streaming (σ K A : Type) where
  readStream : K → M σ (Option (ChunkStream A))
  setStream : K → WriteOptions → Option Nat → M (σ × ChunkStream A) Unit

def Streaming.zoom {σ τ K A : Type} (l : Lens σ τ) (s : Streaming τ K A) : Streaming σ K A where
  readStream key := l.zoom (s.readStream key)
  setStream key options size := l.beside.zoom (s.setStream key options size)

/-! ## Memory stores -/

/-- A memory store whose value serde encodes chunk by chunk what it encodes whole. -/
structure StreamingMemory (K A α B : Type) [DecidableEq α] extends
    MemoryKvBackend K (List A) α (List B) where
  encodeStream : ChunkStream A → ChunkStream B
  encodes : ∀ chunks, (encodeStream chunks).flatten = kvset.valueSerde.serialize chunks.flatten

namespace StreamingMemory

variable {K A α B : Type} [DecidableEq α]

/-- Buffer, then `set`: the store holds values in memory anyway. -/
def setStream (b : StreamingMemory K A α B) (key : K) (options : WriteOptions) (_size : Option Nat) :
    M (MemoryRoot α (List B) × ChunkStream A) Unit := do
  let chunks ← drain
  let value ← Lens.first.zoom (b.deserializeValue (b.encodeStream chunks).flatten)
  Lens.first.zoom (b.set key value options)

/-- Buffer, then yield one chunk. -/
def readStream (b : StreamingMemory K A α B) (key : K) :
    M (MemoryRoot α (List B)) (Option (ChunkStream A)) := do
  match ← b.get key with
  | none => return none
  | some value => return some [value]

def streaming (b : StreamingMemory K A α B) : Streaming (MemoryRoot α (List B)) K A :=
  ⟨b.readStream, b.setStream⟩

end StreamingMemory

/-! ## Targets -/

/-- A target that holds the whole record and streams. -/
structure StreamTarget (S K A : Type) extends Target S K (List A) (List A) where
  readStream : K → M S (Option (ChunkStream A))
  writeStream : K → WriteOptions → Option Nat → M (S × ChunkStream A) Unit

/-- `StoreTarget`, over a store that streams. -/
def streamTarget {S K A : Type} [DecidableEq K] [DecidableEq A] (d : Declared) (s : KvStore S K (List A))
    (streaming : Streaming S K A) : StreamTarget S K A :=
  { storeTarget d s some id with
    readStream := streaming.readStream
    writeStream := streaming.setStream }

/-- The whole targets of a record that is not assembled, each of which streams. -/
structure StreamTopology (S K A : Type) where
  targets : List (StreamTarget S K A)

namespace StreamTopology

variable {S K A : Type}

/-- The topology, without what its targets do in chunks. -/
def topology (T : StreamTopology S K A) : Topology S K (List A) Empty :=
  ⟨T.targets.map fun t => t.toTarget, [], none⟩

/-- The authority. It holds the whole record, as every target does. -/
def wholeAuthority (T : StreamTopology S K A) : Option (StreamTarget S K A) :=
  T.targets.find? fun t => t.role = .authority

def lookups (T : StreamTopology S K A) : List (StreamTarget S K A) :=
  (T.targets.filter fun t => t.lookup = some .beforeAuthority)
    ++ T.wholeAuthority.toList
    ++ T.targets.filter fun t => t.lookup = some .afterAuthority

def dependents (T : StreamTopology S K A) : List (StreamTarget S K A) :=
  T.targets.filter fun t => t.role = .dependent

/-- `_require_whole`. -/
def requireWhole {σ : Type} (T : StreamTopology S K A) (op : String) : M σ (StreamTarget S K A) :=
  match T.wholeAuthority with
  | some t => pure t
  | none => raise (.notImplemented (op ++ ": a record assembled from parts is not one value"))

/-! ## Reads -/

/-- The consulted targets that asked to be filled and lie downstream of `source`. -/
def fillable (source : StreamTarget S K A) (consulted : List (StreamTarget S K A)) :
    List (StreamTarget S K A) :=
  consulted.filter fun t =>
    t.fill && Topology.streamOrder source.role < Topology.streamOrder t.role

/-- The write clock a fill carries, asked for only where a target can keep it. -/
def fillClock (key : K) (source : StreamTarget S K A) (into : List (StreamTarget S K A)) :
    M S (Option Instant) :=
  if into.any fun t => t.supportsWriteClock then do
    return (← source.stat key).bind RecordStat.writeClock
  else pure none

/-- What to go on with after a fill: the target just filled, or the source again where the
    fill failed or what it wrote is not there to read. -/
def afterFill (key : K) (source target : StreamTarget S K A) :
    Except Exn Unit → M S (Option (ChunkStream A))
  | .error e => if e.isUnsupported then raise e else source.readStream key
  | .ok _ => do
    match ← target.readStream key with
    | some again => return some again
    | none => source.readStream key

/-- Fill one target from the stream at hand. -/
def fillOne (key : K) (source : StreamTarget S K A) (clock : Option Instant)
    (current : Option (ChunkStream A)) (target : StreamTarget S K A) : M S (Option (ChunkStream A)) :=
  match current with
  | none => pure none
  | some chunks => do
    let outcome ← attempt (consuming chunks
      (target.writeStream key (target.receives ⟨none, clock⟩) none))
    afterFill key source target outcome

/-- Fill each target from the stream, then serve the last one filled. -/
def fillStream (key : K) (chunks : ChunkStream A) (source : StreamTarget S K A)
    (consulted : List (StreamTarget S K A)) : M S (Option (ChunkStream A)) :=
  if (fillable source consulted).isEmpty then pure (some chunks)
  else do
    let clock ← fillClock key source (fillable source consulted)
    (fillable source consulted).foldlM (fillOne key source clock) (some chunks)

/-- The first of the targets that shows the key, filling those before it. -/
def readStreamFrom (key : K) : List (StreamTarget S K A) → List (StreamTarget S K A) →
    M S (Option (ChunkStream A))
  | [], _ => pure none
  | target :: rest, consulted => do
    match ← target.readStream key with
    | some chunks => fillStream key chunks target consulted
    | none => readStreamFrom key rest (consulted ++ [target])

/-- As `Topology.read`, streaming. -/
def readStream (T : StreamTopology S K A) (key : K) : M S (Option (ChunkStream A)) := do
  let _ ← T.requireWhole "read_stream"
  readStreamFrom key T.lookups []

/-! ## Writes -/

/-- Feed a dependent by reading the authority again. -/
def feed (authority target : StreamTarget S K A) (key : K) (options : WriteOptions) : M S Unit := do
  match ← authority.readStream key with
  | none => pure ()
  | some chunks => consuming chunks (target.writeStream key options none)

/-- A dependent as a streamed write has it: whatever record it is told to write, it takes the
    record from the authority, when its turn comes. -/
def fedFrom [DecidableEq K] (authority target : StreamTarget S K A) : AnyTarget S K (List A) Empty :=
  { target.toTarget.upcast Sum.inl with
    write := fun key _ options => feed authority target key options }

/-- Stream into the authority, then feed each dependent by reading it again. -/
def writeStream [DecidableEq K] (T : StreamTopology S K A) (key : K) (options : WriteOptions)
    (size : Option Nat) : M (Node S K (List A) Empty × ChunkStream A) Unit := do
  let authority ← T.requireWhole "set_stream"
  Node.mediaLens.beside.zoom (runCommitting authority.name authority.role
    (authority.writeStream key (authority.receives options) size))
  Lens.first.zoom (forM T.dependents fun t =>
    T.topology.syncOne (fedFrom authority t) "set_stream" (.write key [] options) none)

/-- `StoreTopologyMixin.read_stream` and `StoreTopologyMixin.set_stream`. -/
def streaming [DecidableEq K] (T : StreamTopology S K A) (typeName : String) :
    Streaming (Node S K (List A) Empty) K A where
  readStream key := Node.onMedia (T.readStream key)
  setStream key options size := do
    T.topology.admitWrite typeName options
    T.writeStream key options size

end StreamTopology

/-! ## Trees -/

/-- A leaf store that streams. A streamed read shows what a plain one does, and a streamed
    write never leaves a part of a value to be read. -/
structure StreamLeaf (K A : Type) extends Leaf K (List A) where
  streaming : Streaming State K A
  reads : ∀ {key x y r}, store.get key x = (.ok r, y) → ∃ c z, streaming.readStream key x = (.ok c, z) ∧
    c.map List.flatten = r ∧ (store.get key z).1 = .ok r
  stats : ∀ {key x y r}, store.get key x = (.ok r, y) → ∃ m z, store.stat key x = (.ok m, z) ∧
    m.isSome = r.isSome ∧ (store.get key z).1 = .ok r
  /-- Whether it returns or raises, and however much of the stream it took. -/
  stores : ∀ {key options size x chunks}, (store.get key x).1 = .ok none →
    (store.get key (streaming.setStream key options size (x, chunks)).2.1).1 = .ok none ∨
      (store.get key (streaming.setStream key options size (x, chunks)).2.1).1 = .ok (some chunks.flatten)
  /-- A write the store can take fails as media fail. -/
  supported : ∀ {key options size x e}, options.ttl = none →
    (options.createdAt = none ∨ store.supportsWriteClock = true) →
    (streaming.setStream key options size x).1 = .error e → e.isUnsupported = false

/-- A composition of whole records over leaves that stream. -/
inductive Streamed (K A : Type) : Type 1 where
  | leaf (l : StreamLeaf K A)
  | node (typeName : String) (n : Nat) (child : Fin n → Streamed K A) (declared : Fin n → Declared)

namespace Streamed

variable {K A : Type} [DecidableEq A]

/-- The composition, as a tree of stores. -/
def plain : Streamed K A → Composition K (List A)
  | .leaf l => .leaf l.toLeaf
  | .node typeName n child declared =>
    .node typeName none Empty n (fun _ => List A) (fun _ => inferInstance) (fun i => (child i).plain)
      declared (fun _ => .whole) 0 Fin.elim0 none none

abbrev State (c : Streamed K A) : Type := c.plain.State

variable [DecidableEq K]

abbrev store (c : Streamed K A) : KvStore c.State K (List A) := c.plain.store

/-- The targets of a node over its children's stores, each on its own part of the media. -/
def targets {n m : Nat} {C : Fin n → Type} {I : Fin m → Type} (stores : ∀ i, KvStore (C i) K (List A))
    (streams : ∀ i, Streaming (C i) K A) (declared : Fin n → Declared) (i : Fin n) :
    StreamTarget (Media C I) K A :=
  streamTarget (declared i) ((stores i).zoom (Media.child i)) ((streams i).zoom (Media.child i))

def nodeStreams {n m : Nat} {C : Fin n → Type} {I : Fin m → Type} (stores : ∀ i, KvStore (C i) K (List A))
    (streams : ∀ i, Streaming (C i) K A) (declared : Fin n → Declared) :
    StreamTopology (Media C I) K A :=
  ⟨(List.finRange n).map (targets stores streams declared)⟩

def streaming : (c : Streamed K A) → Streaming c.State K A
  | .leaf l => l.streaming
  | .node typeName _ child declared =>
    (nodeStreams (fun i => (child i).store) (fun i => (child i).streaming) declared).streaming typeName

end Streamed

end Kvtsjl
