import Kvtsjl.ObjectKeys
import Kvtsjl.ScopedKeys

/-
  `MemoryVectorIndex`: entries under physical ids, and the views that share them.
  An id is the bound scope and the leaf joined as text, and the leaf is not escaped. So a leaf can
  spell the segments a longer scope adds, and the entry of the other key with them
  (`physicalIdBlob_isolates_iff`). Apart from that, a call under one key leaves every other entry
  as it was: `VectorCall.moves` says what a call can do to the collection, whichever call it is.
-/

namespace Kvtsjl

open Assoc (Dict)
open Effects Prog Delimited

/-! ## The wire of an index -/

structure IndexSet (K V α F : Type) [DecidableEq α] where
  name : String
  version : String
  wire : KeyWire α
  idSerde : SerDe K (List α)
  embeddingOf : Option (K → V → Option (List F))
  documentOf : Option (K → V → Option String)
  /-- The metadata fields the view writes, where it owns part of an entry. -/
  ownedFields : Option (List String)
  reuseEmbedding : Bool

/-- What binds the ids, as a collection of records has it. -/
def IndexSet.wireRef {K V α F : Type} [DecidableEq α] (s : IndexSet K V α F) : KvSet K V α V where
  name := s.name
  version := s.version
  wire := s.wire
  keySerde := s.idSerde
  valueSerde := .identity _
  ttlPolicy := ⟨none⟩
  keyLayout := .literal
  scopeSchema := none

/-! ## Entries -/

/-- Metadata of an entry: a dict, whose fields can be dropped, or anything else, which is left whole. -/
class EntryData (D : Type) where
  dropFields : List String → D → D

instance {X : Type} : EntryData (Dict String X) where
  dropFields owned data := owned.foldl (fun remaining field => remaining.erase field) data

structure VectorRecord (D F : Type) where
  data : D
  document : Option String
  embedding : Option (List F)
  /-- Only a search sets it. -/
  score : Option F
deriving DecidableEq

/-- Storage shared by every view of a collection. An entry has a record and its vector. -/
structure VectorRoot (K D α F : Type) [DecidableEq α] where
  vectors : Dict (List α) (List F)
  records : Dict (List α) (K × VectorRecord D F)
  /-- The scope each entry was last written under. The source keeps no such map, and nothing reads it. -/
  writers : Dict (List α) Scope
  same : ∀ pid, (records.get? pid).map (fun e => e.2.embedding) = (vectors.get? pid).map some

namespace VectorRoot

variable {K D α F : Type} [DecidableEq α]

def empty : VectorRoot K D α F := ⟨Dict.empty, Dict.empty, Dict.empty, fun _ => rfl⟩

def put (root : VectorRoot K D α F) (pid : List α) (scope : Scope) (key : K) (data : D)
    (document : Option String) (emb : List F) : VectorRoot K D α F where
  vectors := root.vectors.set pid emb
  records := root.records.set pid (key, ⟨data, document, some emb, none⟩)
  writers := root.writers.set pid scope
  same p := by
    rw [Dict.get?_set, Dict.get?_set]
    split
    · rfl
    · exact root.same p

/-- The entry with other metadata, where there is one. -/
def amend (root : VectorRoot K D α F) (pid : List α) (data : D) : VectorRoot K D α F :=
  match h : root.records.get? pid with
  | none => root
  | some (leaf, stored) =>
    { root with
      records := root.records.set pid (leaf, ⟨data, stored.document, stored.embedding, none⟩)
      same := by
        intro p
        rw [Dict.get?_set]
        split
        · next hp =>
          rw [hp, ← root.same pid, h]
          rfl
        · exact root.same p }

def drop (root : VectorRoot K D α F) (pid : List α) : VectorRoot K D α F where
  vectors := root.vectors.erase pid
  records := root.records.erase pid
  writers := root.writers.erase pid
  same p := by
    rw [Dict.get?_erase, Dict.get?_erase]
    split
    · rfl
    · exact root.same p

theorem records_amend (root : VectorRoot K D α F) (pid : List α) (data : D) (p : List α) :
    (root.amend pid data).records.get? p = if p = pid then
      (root.records.get? pid).map fun e => (e.1, ⟨data, e.2.document, e.2.embedding, none⟩)
    else root.records.get? p := by
  unfold amend
  split
  · next h =>
    split
    · next hp => rw [hp, h]; rfl
    · rfl
  · next leaf stored h =>
    rw [Dict.get?_set, h]
    rfl

theorem vectors_amend (root : VectorRoot K D α F) (pid : List α) (data : D) :
    (root.amend pid data).vectors = root.vectors := by
  unfold amend
  split <;> rfl

theorem writers_amend (root : VectorRoot K D α F) (pid : List α) (data : D) :
    (root.amend pid data).writers = root.writers := by
  unfold amend
  split <;> rfl

/-- An entry's record carries the vector it is found by. -/
theorem vector_of_record {root : VectorRoot K D α F} {pid : List α} {e : K × VectorRecord D F}
    (h : root.records.get? pid = some e) :
    ∃ v, root.vectors.get? pid = some v ∧ e.2.embedding = some v := by
  have hsame := root.same pid
  rw [h] at hsame
  obtain ⟨v, hv, hsome⟩ := Option.map_eq_some_iff.mp hsame.symm
  exact ⟨v, hv, hsome.symm⟩

theorem record_of_vector {root : VectorRoot K D α F} {pid : List α} {v : List F}
    (h : root.vectors.get? pid = some v) :
    ∃ e, root.records.get? pid = some e ∧ e.2.embedding = some v := by
  have hsame := root.same pid
  rw [h] at hsame
  exact Option.map_eq_some_iff.mp hsame

/-- What the collection holds under an id is what it held. -/
def SameAt (pid : List α) (root root' : VectorRoot K D α F) : Prop :=
  root'.vectors.get? pid = root.vectors.get? pid ∧ root'.records.get? pid = root.records.get? pid

instance (pid : List α) : Std.Refl (SameAt (K := K) (D := D) (F := F) pid) := ⟨fun _ => ⟨rfl, rfl⟩⟩

instance (pid : List α) : IsTrans (VectorRoot K D α F) (SameAt pid) :=
  ⟨fun _ _ _ h h' => ⟨h'.1.trans h.1, h'.2.trans h.2⟩⟩

theorem sameAt_put {root : VectorRoot K D α F} {pid other : List α} (h : other ≠ pid) (scope : Scope)
    (key : K) (data : D) (document : Option String) (emb : List F) :
    SameAt other root (root.put pid scope key data document emb) := by
  unfold put SameAt
  rw [Dict.get?_set, Dict.get?_set, if_neg h, if_neg h]
  exact ⟨rfl, rfl⟩

theorem sameAt_amend {root : VectorRoot K D α F} {pid other : List α} (h : other ≠ pid) (data : D) :
    SameAt other root (root.amend pid data) := by
  unfold SameAt
  rw [vectors_amend, records_amend, if_neg h]
  exact ⟨rfl, rfl⟩

theorem sameAt_drop {root : VectorRoot K D α F} {pid other : List α} (h : other ≠ pid) :
    SameAt other root (root.drop pid) := by
  unfold drop SameAt
  rw [Dict.get?_erase, Dict.get?_erase, if_neg h, if_neg h]
  exact ⟨rfl, rfl⟩

end VectorRoot

/-! ## The index -/

/-- One view: its index set, how a value becomes metadata, and the scope it is bound to. -/
structure MemoryVectorIndex (K V D α F Q : Type) [DecidableEq α] where
  indexSet : IndexSet K V α F
  mergeDataFn : K → V → Option D → D
  embedContent : Option (Q → List F)
  scope : Scope

namespace MemoryVectorIndex

variable {K V D α F Q : Type} [DecidableEq K] [DecidableEq α] [EntryData D]

section View

variable (i : MemoryVectorIndex K V D α F Q)

omit [DecidableEq K] [EntryData D] in
def cloneWithScope (scope : Scope) : MemoryVectorIndex K V D α F Q := { i with scope := scope }

def physicalIdBlob (key : K) : List α :=
  i.indexSet.wireRef.joinParts (i.indexSet.wireRef.scopeParts i.scope ++ [i.indexSet.idSerde.serialize key])

def scopeIdPrefix : List α := i.indexSet.wireRef.joinParts (i.indexSet.wireRef.scopeParts i.scope)

def inBoundScopeId (pid : List α) : Bool :=
  if i.scope.segments = [] then true else i.scopeIdPrefix <+: pid

/-- Whether the view owns part of an entry rather than the whole. -/
def isPatchView : Bool := i.indexSet.documentOf.isNone

def patchWriteIsSkippable (previous : Option (VectorRecord D F)) : Bool :=
  i.isPatchView && previous.isNone

def clearOwnedFields (data : D) : Except Exn D :=
  match i.indexSet.ownedFields with
  | none => .error (.indexUnsupported ("MemoryVectorIndex is a patch view with no declared "
      ++ "owned_fields, so deleting from it cannot know which fields "
      ++ "are its own; declare them or delete through the owning view"))
  | some owned => .ok (EntryData.dropFields owned data)

/-- `_can_reuse_embedding`: the previous vector still stands for the document. -/
def canReuseEmbedding (previous : Option (VectorRecord D F)) (document : Option String) : Bool :=
  match previous with
  | none => false
  | some prev => i.indexSet.reuseEmbedding && prev.embedding.isSome && decide (document = prev.document)

def metaOf (key : K) (value : V) (previous : Option (VectorRecord D F)) : VectorRecord D F :=
  let data := i.mergeDataFn key value (previous.map fun prev => prev.data)
  let document := i.indexSet.documentOf.bind fun documentOf => documentOf key value
  let embedding := if i.canReuseEmbedding previous document then previous.bind fun prev => prev.embedding
    else i.indexSet.embeddingOf.bind fun embeddingOf => embeddingOf key value
  match i.indexSet.documentOf, previous with
  -- a view that owns no document carries both forward
  | none, some prev =>
    if i.indexSet.reuseEmbedding then ⟨data, prev.document, embedding.or prev.embedding, none⟩
    else ⟨data, document, embedding, none⟩
  | _, _ => ⟨data, document, embedding, none⟩

def embeddingFor (key : K) (value : V) (record : VectorRecord D F) : Except Exn (List F) :=
  match record.embedding.or (i.indexSet.embeddingOf.bind fun embeddingOf => embeddingOf key value) with
  | some emb => .ok emb
  | none => .error (.indexError "no embedding for key; set IndexSet.embedding_of or pass embedding on meta")

/-! ### Reading and writing -/

/-- What a read hands out is without the score. -/
def get (key : K) : M (VectorRoot K D α F) (Option (VectorRecord D F)) :=
  read fun root => (root.records.get? (i.physicalIdBlob key)).map fun e => { e.2 with score := none }

def batchGet : List K → M (VectorRoot K D α F) (Dict K (VectorRecord D F)) := defaultBatchGet i.get

def upsert (key : K) (value : V) (record : VectorRecord D F) : M (VectorRoot K D α F) Unit := do
  let existing ← read fun root => root.records.get? (i.physicalIdBlob key)
  if i.patchWriteIsSkippable (existing.map Prod.snd) then pure ()
  else do
    let emb ← ofExcept (i.embeddingFor key value record)
    modify fun root => root.put (i.physicalIdBlob key) i.scope key record.data record.document emb

/-- `set`, which replaces an entry and makes none. -/
def set (key : K) (value : VectorRecord D F) : M (VectorRoot K D α F) Unit := do
  match ← read fun root => root.records.get? (i.physicalIdBlob key) with
  | none => raise (.indexError "key is not in the index")
  | some (_, old) =>
    match value.embedding.or old.embedding with
    | none => raise (.indexError "set requires embedding on record or existing index entry")
    | some emb =>
      modify fun root => root.put (i.physicalIdBlob key) i.scope key value.data value.document emb

def delete (key : K) : M (VectorRoot K D α F) Bool := do
  match ← read fun root => root.records.get? (i.physicalIdBlob key) with
  | none => return false
  | some (_, stored) =>
    if i.isPatchView then do
      let data ← ofExcept (i.clearOwnedFields stored.data)
      modify fun root => root.amend (i.physicalIdBlob key) data
      return true
    else do
      modify fun root => root.drop (i.physicalIdBlob key)
      return true

def batchUpsert (items : Dict K (V × VectorRecord D F)) : M (VectorRoot K D α F) Unit :=
  forM items.entries fun e => i.upsert e.1 e.2.1 e.2.2

def sync (key : K) (value : V) : M (VectorRoot K D α F) Unit := do
  let previous ← i.get key
  i.upsert key value (i.metaOf key value previous)

/-- `batch_sync`: every record is read, and made anew, before the first is written. -/
def batchSync (items : Dict K V) : M (VectorRoot K D α F) Unit := do
  let previousByKey ← i.batchGet items.keys
  i.batchUpsert (items.map fun key value => (value, i.metaOf key value (previousByKey.get? key)))

def batchSet (items : Dict K (VectorRecord D F)) : M (VectorRoot K D α F) Unit :=
  forM items.entries fun e => i.set e.1 e.2

def batchDelete : List K → M (VectorRoot K D α F) Nat := countTrue i.delete

def unset (key : K) : M (VectorRoot K D α F) Bool := i.delete key

def batchUnset : List K → M (VectorRoot K D α F) Nat := countTrue i.unset

end View

/-! ### Searching -/

/-- A query vector, or a content to embed. -/
structure Query (Q F : Type) where
  content : Option Q
  embedding : Option (List F)

/-- A hit, with the id of the entry it was made from. -/
structure Scored (K D α F : Type) where
  pid : List α
  rank : F
  key : K
  record : VectorRecord D F

structure IndexHit (K M : Type) where
  key : K
  record : M

def Scored.hit (row : Scored K D α F) : IndexHit K (VectorRecord D F) := ⟨row.key, row.record⟩

/-- `zip` of two vectors, which have to be of one length, and the norm of their difference. -/
def l2Distance (norm : List (F × F) → Except Exn F) (a b : List F) : Except Exn F :=
  (norm (a.zip b)).bind fun total =>
    if a.length = b.length then .ok total
    else if b.length < a.length then .error (.valueError "zip() argument 2 is shorter than argument 1")
    else .error (.valueError "zip() argument 2 is longer than argument 1")

section Search

variable (hasContent : Q → Bool) (norm : List (F × F) → Except Exn F) (i : MemoryVectorIndex K V D α F Q)

/-- `_resolve_query_embedding`. `query_has_content` is a parameter, as the modality is. -/
def resolveQueryEmbedding (query : Query Q F) : Option (List F) :=
  match query.embedding with
  | some embedding => some embedding
  | none =>
    match query.content, i.embedContent with
    | some content, some embedContent => if hasContent content then some (embedContent content) else none
    | _, _ => none

/-- An entry's turn in the loop. -/
def score (root : VectorRoot K D α F) (qEmb : List F) (e : List α × List F) :
    Except Exn (Option (Scored K D α F)) :=
  match root.records.get? e.1 with
  | none => .error (.medium "KeyError")
  | some (key, stored) =>
    if i.inBoundScopeId e.1 then
      (l2Distance norm qEmb e.2).map fun rank => some ⟨e.1, rank, key, { stored with score := some rank }⟩
    else .ok none

/-- Every entry in bound, nearest first. Entries as near as each other stand as they were made. -/
def ranked [LinearOrder F] (root : VectorRoot K D α F) (qEmb : List F) : Except Exn (List (Scored K D α F)) :=
  (root.vectors.entries.mapM (i.score norm root qEmb)).map fun rows =>
    (rows.filterMap id).mergeSort fun a b => decide (a.rank ≤ b.rank)

def found [LinearOrder F] (root : VectorRoot K D α F) (query : Query Q F) (limit : Int) :
    Except Exn (List (Scored K D α F)) :=
  if limit ≤ 0 then .ok []
  else match i.resolveQueryEmbedding hasContent query with
    | none => .ok []
    | some qEmb => (i.ranked norm root qEmb).map fun rows => rows.take limit.toNat

/-- `search`. An id-prefix filter is always there, so no scoped search is refused. -/
def search [LinearOrder F] (root : VectorRoot K D α F) (query : Query Q F) (limit : Int) :
    Except Exn (List (IndexHit K (VectorRecord D F))) :=
  (i.found hasContent norm root query limit).map fun rows => rows.map Scored.hit

omit [DecidableEq K] [EntryData D] in
/-- Only an entry in bound makes a hit, of what the collection holds under its id. -/
theorem score_eq_some {root : VectorRoot K D α F} {qEmb : List F} {e : List α × List F} {row : Scored K D α F} :
    i.score norm root qEmb e = .ok (some row) ↔ i.inBoundScopeId e.1 = true ∧ ∃ key stored rank,
      root.records.get? e.1 = some (key, stored) ∧ l2Distance norm qEmb e.2 = .ok rank ∧
      row = ⟨e.1, rank, key, { stored with score := some rank }⟩ := by
  unfold score
  cases hrec : root.records.get? e.1 with
  | none =>
    refine iff_of_false (fun h => by cases h) ?_
    rintro ⟨-, key, stored, rank, h, -⟩
    cases h
  | some entry =>
    cases hin : i.inBoundScopeId e.1 with
    | false =>
      simp only [Bool.false_eq_true, if_false, false_and, iff_false]
      exact fun h => by cases h
    | true =>
      simp only [if_true, true_and]
      constructor
      · intro h
        cases hd : l2Distance norm qEmb e.2 with
        | error err => rw [hd] at h; cases h
        | ok rank =>
          rw [hd] at h
          exact ⟨entry.1, entry.2, rank, rfl, rfl, (Option.some.inj (Except.ok.inj h)).symm⟩
      · rintro ⟨key, stored, rank, hentry, hd, rfl⟩
        cases hentry
        rw [hd]
        rfl

omit [DecidableEq K] [EntryData D] in
theorem mem_ranked [LinearOrder F] {root : VectorRoot K D α F} {qEmb : List F} {rows : List (Scored K D α F)}
    (h : i.ranked norm root qEmb = .ok rows) (row : Scored K D α F) : row ∈ rows ↔
      ∃ vec, root.vectors.get? row.pid = some vec ∧ i.score norm root qEmb (row.pid, vec) = .ok (some row) := by
  unfold ranked at h
  cases hscored : root.vectors.entries.mapM (i.score norm root qEmb) with
  | error e => rw [hscored] at h; cases h
  | ok scored =>
    rw [hscored] at h
    rw [← Except.ok.inj h, List.mem_mergeSort, List.mem_filterMap]
    have hall := forall₂_of_mapM hscored
    constructor
    · rintro ⟨_, hrow, rfl⟩
      obtain ⟨e, he, hscore⟩ := mem_of_mapM hscored hrow
      have hpid : row.pid = e.1 := by
        obtain ⟨-, key, stored, rank, -, -, rfl⟩ := (score_eq_some norm i).mp hscore
        rfl
      rw [hpid]
      exact ⟨e.2, Dict.mem_entries.mp he, hscore⟩
    · rintro ⟨vec, hvec, hscore⟩
      have hmem := Dict.mem_entries.mpr hvec
      obtain ⟨n, hn, hget⟩ := List.mem_iff_getElem.mp hmem
      have hlen := hall.length_eq
      have hget' := hall.get hn (by omega)
      rw [List.get_eq_getElem, hget, hscore] at hget'
      exact ⟨_, by rw [Except.ok.inj hget']; exact List.get_mem .., rfl⟩

end Search

end MemoryVectorIndex

/-! ## What a call can do -/

/-- A call that may change the collection. -/
inductive VectorCall (K V D F : Type) where
  | upsert (key : K) (value : V) (record : VectorRecord D F)
  | batchUpsert (items : Dict K (V × VectorRecord D F))
  | sync (key : K) (value : V)
  | batchSync (items : Dict K V)
  | set (key : K) (record : VectorRecord D F)
  | batchSet (items : Dict K (VectorRecord D F))
  | delete (key : K)
  | batchDelete (keys : List K)
  | unset (key : K)
  | batchUnset (keys : List K)

namespace VectorCall

variable {K V D α F Q : Type} [DecidableEq K] [DecidableEq α] [EntryData D]

omit [DecidableEq K] [EntryData D] in
/-- The keys the call names. -/
def keys : VectorCall K V D F → List K
  | .upsert key _ _ => [key]
  | .batchUpsert items => items.keys
  | .sync key _ => [key]
  | .batchSync items => items.keys
  | .set key _ => [key]
  | .batchSet items => items.keys
  | .delete key => [key]
  | .batchDelete keys => keys
  | .unset key => [key]
  | .batchUnset keys => keys

def run (i : MemoryVectorIndex K V D α F Q) : VectorCall K V D F → M (VectorRoot K D α F) Unit
  | .upsert key value record => i.upsert key value record
  | .batchUpsert items => i.batchUpsert items
  | .sync key value => i.sync key value
  | .batchSync items => i.batchSync items
  | .set key record => i.set key record
  | .batchSet items => i.batchSet items
  | .delete key => Functor.discard (i.delete key)
  | .batchDelete keys => Functor.discard (i.batchDelete keys)
  | .unset key => Functor.discard (i.unset key)
  | .batchUnset keys => Functor.discard (i.batchUnset keys)

section Moves

variable {R : VectorRoot K D α F → VectorRoot K D α F → Prop} [Std.Refl R]
  {i : MemoryVectorIndex K V D α F Q} {key : K}

omit [DecidableEq K] [EntryData D] in
theorem upsert_moves (hput : ∀ root data document emb, R root (root.put (i.physicalIdBlob key) i.scope key data document emb))
    (value : V) (record : VectorRecord D F) : Moves R (i.upsert key value record) := by
  intro root
  unfold MemoryVectorIndex.upsert
  rw [bind_apply, read_apply]
  dsimp only
  split
  · exact Std.Refl.refl root
  · rw [bind_apply]
    cases i.embeddingFor key value record with
    | error e => exact Std.Refl.refl root
    | ok emb => exact hput root record.data record.document emb

omit [DecidableEq K] [EntryData D] in
theorem set_moves (hput : ∀ root data document emb, R root (root.put (i.physicalIdBlob key) i.scope key data document emb))
    (record : VectorRecord D F) : Moves R (i.set key record) := by
  intro root
  unfold MemoryVectorIndex.set
  rw [bind_apply, read_apply]
  dsimp only
  cases root.records.get? (i.physicalIdBlob key) with
  | none => exact Std.Refl.refl root
  | some e =>
    dsimp only
    cases record.embedding.or e.2.embedding with
    | none => exact Std.Refl.refl root
    | some emb => exact hput root record.data record.document emb

omit [DecidableEq K] in
theorem delete_moves (hamend : ∀ root data, R root (root.amend (i.physicalIdBlob key) data))
    (hdrop : ∀ root, R root (root.drop (i.physicalIdBlob key))) : Moves R (i.delete key) := by
  intro root
  unfold MemoryVectorIndex.delete
  rw [bind_apply, read_apply]
  dsimp only
  cases root.records.get? (i.physicalIdBlob key) with
  | none => exact Std.Refl.refl root
  | some e =>
    dsimp only
    split
    · rw [bind_apply]
      cases i.clearOwnedFields e.2.data with
      | error e => exact Std.Refl.refl root
      | ok data => exact hamend root data
    · exact hdrop root

/-- Whatever the call is, it writes, amends and drops entries of the keys it names, and no others. -/
theorem moves [IsTrans (VectorRoot K D α F) R] (call : VectorCall K V D F)
    (hput : ∀ key ∈ call.keys, ∀ root data document emb,
      R root (root.put (i.physicalIdBlob key) i.scope key data document emb))
    (hamend : ∀ key ∈ call.keys, ∀ root data, R root (root.amend (i.physicalIdBlob key) data))
    (hdrop : ∀ key ∈ call.keys, ∀ root, R root (root.drop (i.physicalIdBlob key))) :
    Moves R (call.run i) := by
  have hupsert : ∀ key ∈ call.keys, ∀ value record, Moves R (i.upsert key value record) := fun key hkey =>
    upsert_moves (hput key hkey)
  have hset : ∀ key ∈ call.keys, ∀ record, Moves R (i.set key record) := fun key hkey =>
    set_moves (hput key hkey)
  have hdelete : ∀ key ∈ call.keys, Moves R (i.delete key) := fun key hkey =>
    delete_moves (hamend key hkey) (hdrop key hkey)
  have hcount : ∀ keys, (∀ key ∈ keys, key ∈ call.keys) → Moves R (countTrue i.delete keys) := by
    intro keys hkeys
    refine Moves.foldlM (fun n key hkey => (hdelete key (hkeys key hkey)).bind fun b => ?_) 0
    split <;> exact Moves.pure _
  have hitems : ∀ items : Dict K (V × VectorRecord D F), (∀ key ∈ items.keys, key ∈ call.keys) →
      Moves R (i.batchUpsert items) := by
    intro items hkeys
    exact Moves.forM fun e he => hupsert e.1 (hkeys e.1 (List.mem_map_of_mem he)) e.2.1 e.2.2
  cases call with
  | upsert key value record => exact hupsert key List.mem_cons_self value record
  | batchUpsert items => exact hitems items fun _ h => h
  | sync key value => exact (Moves.read _).bind fun _ => hupsert key List.mem_cons_self value _
  | batchSync items =>
    refine Moves.bind ?_ fun d => hitems _ fun key hkey => ?_
    · refine Moves.foldlM (fun out key _ => (Moves.read _).bind fun found => ?_) _
      cases found <;> exact Moves.pure _
    · rw [Dict.keys_map] at hkey
      exact hkey
  | set key record => exact hset key List.mem_cons_self record
  | batchSet items => exact Moves.forM fun e he => hset e.1 (List.mem_map_of_mem he) e.2
  | delete key => exact (hdelete key List.mem_cons_self).map
  | batchDelete keys => exact (hcount keys fun _ h => h).map
  | unset key => exact (hdelete key List.mem_cons_self).map
  | batchUnset keys => exact (hcount keys fun _ h => h).map

end Moves

/-- A call leaves the entries of other ids as they are. -/
theorem sameAt_run {i : MemoryVectorIndex K V D α F Q} {call : VectorCall K V D F} {pid : List α}
    (h : ∀ key ∈ call.keys, pid ≠ i.physicalIdBlob key) : Moves (VectorRoot.SameAt pid) (call.run i) :=
  call.moves (fun key hkey _ _ _ _ => VectorRoot.sameAt_put (h key hkey) _ _ _ _ _)
    (fun key hkey _ _ => VectorRoot.sameAt_amend (h key hkey) _)
    fun key hkey _ => VectorRoot.sameAt_drop (h key hkey)

end VectorCall

/-- The calls in turn, each through a view of its own. A call that raises leaves what it had written. -/
def runCalls {K V D α F Q : Type} [DecidableEq K] [DecidableEq α] [EntryData D]
    (calls : List (MemoryVectorIndex K V D α F Q × VectorCall K V D F)) (root : VectorRoot K D α F) :
    VectorRoot K D α F :=
  calls.foldl (fun root c => (c.2.run c.1).after root) root

/-- What every call keeps, a run of them keeps. -/
theorem runCalls_moves {K V D α F Q : Type} [DecidableEq K] [DecidableEq α] [EntryData D]
    {R : VectorRoot K D α F → VectorRoot K D α F → Prop} [Std.Refl R] [IsTrans (VectorRoot K D α F) R]
    {calls : List (MemoryVectorIndex K V D α F Q × VectorCall K V D F)}
    (h : ∀ c ∈ calls, Moves R (c.2.run c.1)) : ∀ root, R root (runCalls calls root) := by
  induction calls with
  | nil => exact fun root => Std.Refl.refl root
  | cons c calls ih =>
    intro root
    have hfirst := h c List.mem_cons_self root
    have hrest := ih (fun d hd => h d (List.mem_cons_of_mem _ hd)) ((c.2.run c.1).after root)
    exact IsTrans.trans _ _ _ hfirst hrest

/-! ## When two entries are one -/

namespace MemoryVectorIndex

variable {K V D α F Q : Type} [DecidableEq K] [DecidableEq α] [EntryData D]

omit [DecidableEq K] [EntryData D] in
/-- Two keys have one id exactly where they merge. -/
theorem physicalIdBlob_eq_iff (i : MemoryVectorIndex K V D α F Q) {scope scope' : Scope} {key key' : K}
    (hne : (scope, key) ≠ (scope', key')) :
    (i.cloneWithScope scope).physicalIdBlob key = (i.cloneWithScope scope').physicalIdBlob key' ↔
      i.indexSet.wire.Merges scope.segments (i.indexSet.idSerde.serialize key) scope'.segments
        (i.indexSet.idSerde.serialize key') := by
  refine i.indexSet.wire.key_eq_iff.trans (or_iff_right fun ⟨hsegments, hleaf⟩ => ?_)
  obtain ⟨gs⟩ := scope
  obtain ⟨gs'⟩ := scope'
  have hscope : gs = gs' := hsegments
  exact hne (by rw [hscope, i.indexSet.idSerde.serialize_injective hleaf])

/-- A view of the same collection: its ids are made in the same way. -/
def SharesIds (i j : MemoryVectorIndex K V D α F Q) : Prop :=
  j.indexSet.wire = i.indexSet.wire ∧ j.indexSet.idSerde = i.indexSet.idSerde

omit [DecidableEq K] [EntryData D] in
theorem SharesIds.physicalIdBlob {i j : MemoryVectorIndex K V D α F Q} (h : i.SharesIds j) (key : K) :
    j.physicalIdBlob key = (i.cloneWithScope j.scope).physicalIdBlob key := by
  unfold MemoryVectorIndex.physicalIdBlob cloneWithScope KvSet.joinParts KvSet.scopeParts KvSet.escapeSegment
    IndexSet.wireRef
  simp only [h.1, h.2]

/-- Calls under one key, through whatever views of the collection. -/
def CallsUnder (i : MemoryVectorIndex K V D α F Q) (scope : Scope) (key : K)
    (calls : List (MemoryVectorIndex K V D α F Q × VectorCall K V D F)) : Prop :=
  ∀ c ∈ calls, i.SharesIds c.1 ∧ c.1.scope = scope ∧ ∀ k ∈ c.2.keys, k = key

/-- The two have ids of their own, and no run of calls under the first changes what a read of the second
    returns, or the hit a search makes of it. -/
def IdIsolated [LinearOrder F] (i : MemoryVectorIndex K V D α F Q) (scope : Scope) (key : K) (scope' : Scope)
    (key' : K) : Prop :=
  (i.cloneWithScope scope).physicalIdBlob key ≠ (i.cloneWithScope scope').physicalIdBlob key' ∧
  ∀ root calls, i.CallsUnder scope key calls →
    ((i.cloneWithScope scope').get key').result (runCalls calls root) =
      ((i.cloneWithScope scope').get key').result root ∧
    ∀ (j : MemoryVectorIndex K V D α F Q) (norm : List (F × F) → Except Exn F) (qEmb : List F)
      (rows rows' : List (Scored K D α F)), j.ranked norm root qEmb = .ok rows →
      j.ranked norm (runCalls calls root) qEmb = .ok rows' →
      ∀ row, row.pid = (i.cloneWithScope scope').physicalIdBlob key' → (row ∈ rows' ↔ row ∈ rows)

/-- Two entries are kept apart exactly where their keys do not merge: where the separator tells segments apart,
    where neither key spells the segments of the other's scope and the other key after them. -/
theorem physicalIdBlob_isolates_iff [LinearOrder F] (i : MemoryVectorIndex K V D α F Q) {scope scope' : Scope}
    {key key' : K} (hne : (scope, key) ≠ (scope', key')) :
    (i.IdIsolated scope key scope' key' ↔
      ¬ i.indexSet.wire.Merges scope.segments (i.indexSet.idSerde.serialize key) scope'.segments
        (i.indexSet.idSerde.serialize key')) ∧
    (i.indexSet.wire.Apart → ¬ i.indexSet.wire.Straddles scope.segments (i.indexSet.idSerde.serialize key)
      scope'.segments (i.indexSet.idSerde.serialize key')) := by
  refine ⟨?_, fun hapart => hapart.not_straddles _ _ _ _⟩
  rw [← physicalIdBlob_eq_iff i hne]
  refine and_iff_left_of_imp fun hids root calls hcalls => ?_
  have hsame : VectorRoot.SameAt ((i.cloneWithScope scope').physicalIdBlob key') root (runCalls calls root) := by
    refine runCalls_moves (fun c hc => VectorCall.sameAt_run fun k hk => ?_) root
    obtain ⟨hshares, hscope, hkeys⟩ := hcalls c hc
    rw [hkeys k hk, hshares.physicalIdBlob, hscope]
    exact Ne.symm hids
  obtain ⟨hvectors, hrecords⟩ := hsame
  constructor
  · unfold MemoryVectorIndex.get Prog.result
    rw [read_apply, read_apply, hrecords]
  · intro j norm qEmb rows rows' hrows hrows' row hpid
    rw [j.mem_ranked norm hrows', j.mem_ranked norm hrows, hpid, hvectors]
    unfold score
    simp only [hrecords]

/-- Text under text, embedded as one number. -/
def notes (scope : Scope) : MemoryVectorIndex (List Char) Int (Dict String String) Char Int String where
  indexSet := ⟨"notes", "1", KeyWire.str, .identity _, some fun _ n => some [n],
    some fun _ _ => some "text", none, true⟩
  mergeDataFn := fun _ _ previous => previous.getD Dict.empty
  embedContent := none
  scope := scope

/-- A key that spells no segment is an entry of its own. -/
theorem physicalIdBlob_isolates_notes : (notes .empty).IdIsolated inA ['x'] inB ['x'] := by
  have hne : (inA, ['x']) ≠ (inB, ['x']) := by decide
  obtain ⟨hisolated, hapart⟩ := (notes .empty).physicalIdBlob_isolates_iff hne
  refine hisolated.mpr ?_
  rintro (⟨more, -, hmore, hleaf⟩ | hspells | hstraddles)
  · have hboth : inA.segments ++ more = inA.segments ++ [⟨"b", "2"⟩] := hmore.symm
    have hlast : more = [⟨"b", "2"⟩] := List.append_cancel_left hboth
    rw [hlast] at hleaf
    exact absurd hleaf (by decide)
  · have hlt : 2 < 1 := hspells.length_lt
    omega
  · exact hapart KeyWire.apart_str hstraddles

/-- `b:2:x` in `a=1`, and `x` in `a=1, b=2`, are one entry. -/
theorem notes_collide : ¬ (notes .empty).IdIsolated inA "b:2:x".toList inB ['x'] := by
  intro h
  exact h.1 (by decide)

end MemoryVectorIndex

end Kvtsjl
