import Kvtsjl.KeyMap

/-
  One place a record lives: what it is to the record, and how to reach it.
  `V` is the record a write hands a target, `P` what the target holds and reads
  back. `keyMapTarget`, `storeTarget` and `indexesTarget` are the kinds the source
  defines. Any other place is a `Target` of its own.
-/

namespace Kvtsjl

open Assoc (Dict)
open Effects Prog

/-- What a target is to the record. The role implies every ordering. -/
inductive Role where
  | component
  | authority
  | dependent
  | fallback
deriving DecidableEq, Repr

/-- When a read consults a target that is neither authority nor component. -/
inductive Lookup where
  | beforeAuthority
  | afterAuthority
  | never
deriving DecidableEq, Repr

/-- How a failure of a dependent after the commit point is treated. -/
inductive SyncPolicy where
  | required
  | bestEffort
deriving DecidableEq, Repr

def defaultLookup : Role → Option Lookup
  | .dependent => some .never
  | .fallback => some .afterAuthority
  | _ => none

structure Target (S K V P : Type) where
  name : String
  role : Role
  lookup : Option Lookup
  fill : Bool
  policy : SyncPolicy
  write : K → V → WriteOptions → M S Unit
  batchReadVersioned : List K → M S (Dict K (Versioned P))
  batchWriteIfUnchanged : Dict K (ConditionalWrite V) → WriteOptions → M S (Finset K)
  /-- Whether the target holds the same for the second record as for the first. -/
  holdsSame : V → V → Bool
  batchWrite : Dict K V → WriteOptions → M S Unit
  delete : K → M S Bool
  batchDelete : List K → M S Nat
  unset : K → M S Bool
  batchUnset : List K → M S Nat
  read : K → M S (Option P)
  batchRead : List K → M S (Dict K P)
  existsKey : K → M S Bool
  batchExists : List K → M S (Finset K)
  stat : K → M S (Option RecordStat)
  batchStat : List K → M S (Dict K RecordStat)
  keys : Nat → M S (List K)
  scanEntries : ScanQuery K → M S (List (K × Option P))
  missingPages : Nat → M S (List (MissingPage S K P))
  expiredKeys : Option Instant → Int → M S (List K)
  gc : Int → M S (List K)
  expires : Bool
  supportsWriteClock : Bool
  writesAreDeferred : Bool
  createsEntries : Bool
  children : List (SyncNode S)

/-- What a target declares of itself. -/
structure Declared where
  name : String
  role : Role
  lookup : Option Lookup
  fill : Bool
  policy : SyncPolicy

namespace Declared

/-- The checks of `Target.__init__`. -/
def check (d : Declared) : Except Exn Unit :=
  if d.lookup.isSome ∧ (d.role = .authority ∨ d.role = .component) then
    .error (.valueError (d.name ++ ": the authority and components are always read; "
      ++ "lookup places the other targets around them"))
  else if d.fill ∧ (d.role = .component ∨ d.role = .fallback) then
    .error (.valueError (d.name ++ ": only a target that is written can be filled"))
  else .ok ()

def lookedUp (d : Declared) : Option Lookup := d.lookup <|> defaultLookup d.role

end Declared

namespace Target

variable {S K V P Q : Type}

/-- The options as this target takes them: without a clock it cannot keep. -/
def receives (t : Target S K V P) (options : WriteOptions) : WriteOptions :=
  if options.createdAt = none ∨ t.supportsWriteClock then options
  else { options with createdAt := none }

def mapPage {K : Type} [DecidableEq K] (f : P → Q) (p : MissingPage S K P) :
    MissingPage S K Q where
  listed := p.listed
  missing := p.missing
  read ks := Dict.map (fun _ v => f v) <$> p.read ks
  stat := p.stat

/-- The target, with what it reads back seen as a larger type. -/
def upcast [DecidableEq K] (f : P → Q) (t : Target S K V P) : Target S K V Q where
  name := t.name
  role := t.role
  lookup := t.lookup
  fill := t.fill
  policy := t.policy
  write := t.write
  batchReadVersioned ks :=
    Dict.map (fun _ s => ⟨s.value.map f, s.version⟩) <$> t.batchReadVersioned ks
  batchWriteIfUnchanged := t.batchWriteIfUnchanged
  holdsSame := t.holdsSame
  batchWrite := t.batchWrite
  delete := t.delete
  batchDelete := t.batchDelete
  unset := t.unset
  batchUnset := t.batchUnset
  read k := Option.map f <$> t.read k
  batchRead ks := Dict.map (fun _ v => f v) <$> t.batchRead ks
  existsKey := t.existsKey
  batchExists := t.batchExists
  stat := t.stat
  batchStat := t.batchStat
  keys := t.keys
  scanEntries query := List.map (fun e => (e.1, e.2.map f)) <$> t.scanEntries query
  missingPages n := List.map (mapPage f) <$> t.missingPages n
  expiredKeys := t.expiredKeys
  gc := t.gc
  expires := t.expires
  supportsWriteClock := t.supportsWriteClock
  writesAreDeferred := t.writesAreDeferred
  createsEntries := t.createsEntries
  children := t.children

/-- The target, acting on one part of a larger state. -/
def zoom {R : Type} (l : Lens R S) (t : Target S K V P) : Target R K V P where
  name := t.name
  role := t.role
  lookup := t.lookup
  fill := t.fill
  policy := t.policy
  write k v o := l.zoom (t.write k v o)
  batchReadVersioned ks := l.zoom (t.batchReadVersioned ks)
  batchWriteIfUnchanged ws o := l.zoom (t.batchWriteIfUnchanged ws o)
  holdsSame := t.holdsSame
  batchWrite items o := l.zoom (t.batchWrite items o)
  delete k := l.zoom (t.delete k)
  batchDelete ks := l.zoom (t.batchDelete ks)
  unset k := l.zoom (t.unset k)
  batchUnset ks := l.zoom (t.batchUnset ks)
  read k := l.zoom (t.read k)
  batchRead ks := l.zoom (t.batchRead ks)
  existsKey k := l.zoom (t.existsKey k)
  batchExists ks := l.zoom (t.batchExists ks)
  stat k := l.zoom (t.stat k)
  batchStat ks := l.zoom (t.batchStat ks)
  keys n := l.zoom (t.keys n)
  scanEntries query := l.zoom (t.scanEntries query)
  missingPages n := l.zoom (List.map (MissingPage.zoom l) <$> t.missingPages n)
  expiredKeys now limit := l.zoom (t.expiredKeys now limit)
  gc n := l.zoom (t.gc n)
  expires := t.expires
  supportsWriteClock := t.supportsWriteClock
  writesAreDeferred := t.writesAreDeferred
  createsEntries := t.createsEntries
  children := t.children.map (SyncNode.zoom l)

end Target

/-! ## A target that is a keymap -/

section KeyMapTarget

variable {S K V T P : Type} [DecidableEq K] [DecidableEq T]

/-- What a conditional write asks of a target that holds `slot` of the record. The
    version is what decides there, so the value read is not passed on. -/
def slottedWrite (slot : V → Option T) (w : ConditionalWrite V) : Option (ConditionalWrite T) :=
  match w.change with
  | .remove => some ⟨⟨none, w.seen.version⟩, .remove, w.createdAt⟩
  | .put v => (slot v).map fun item => ⟨⟨none, w.seen.version⟩, .put item, w.createdAt⟩

/-- The entries a batch stores, and those a record without the part clears. -/
def toSet (slot : V → Option T) (items : Dict K V) : Dict K T := items.collect fun _ v => slot v

def toClear (slot : V → Option T) (items : Dict K V) : List K :=
  (items.filter fun _ v => (slot v).isNone).keys

/-- A target that is a keymap, holding `slot` of the record. A `none` slot unsets the
    entry. `up` is how its part is seen among parts of other types. -/
def keyMapTarget (d : Declared) (m : KeyMap S K T) (slot : V → Option T) (up : T → P)
    (node : List (SyncNode S)) : Target S K V P where
  name := d.name
  role := d.role
  lookup := d.lookedUp
  fill := d.fill
  policy := d.policy
  write key value options :=
    match slot value with
    | none => Functor.discard (m.unset key)
    | some item => m.set key item options
  batchReadVersioned ks :=
    Dict.map (fun _ s => ⟨s.value.map up, s.version⟩) <$> m.batchReadVersioned ks
  batchWriteIfUnchanged writes options :=
    if (writes.collect fun _ w => if (slottedWrite slot w).isNone then some () else none).entries
        ≠ [] then
      raise (.kvStoreError (d.name ++ " decides existence and cannot be None"))
    else m.batchWriteIfUnchanged (writes.collect fun _ w => slottedWrite slot w) options.ttl
  holdsSame before after := decide (slot before = slot after)
  batchWrite items options := do
    when ((toSet slot items).entries ≠ []) (m.batchSet (toSet slot items) options)
    when (toClear slot items ≠ []) (Functor.discard (m.batchUnset (toClear slot items)))
  delete := m.delete
  batchDelete := m.batchDelete
  unset := m.unset
  batchUnset := m.batchUnset
  read k := Option.map up <$> m.get k
  batchRead ks := Dict.map (fun _ v => up v) <$> m.batchGet ks
  existsKey := m.existsKey
  batchExists := m.batchExists
  stat := m.stat
  batchStat := m.batchStat
  keys _ := raise (.unsupported (d.name ++ " cannot list its keys"))
  scanEntries _ := raise (.typeError (d.name ++ " is read for the record but is not a store"))
  missingPages _ := pure []
  expiredKeys _ _ := raise (.typeError (d.name ++ " is read for the record but is not a store"))
  gc _ := pure []
  expires := false
  supportsWriteClock := false
  writesAreDeferred := false
  createsEntries := m.createsEntries
  children := node

/-- A target that is a store: it has a write clock, lists its keys and expires. -/
def storeTarget (d : Declared) (s : KvStore S K T) (slot : V → Option T) (up : T → P) :
    Target S K V P :=
  { keyMapTarget d s.toKeyMap slot up [s.toSyncNode] with
    keys := fun pageSize => List.map Prod.fst <$> s.scanEntries ⟨none, false, pageSize⟩
    scanEntries := fun query => List.map (fun e => (e.1, e.2.map up)) <$> s.scanEntries query
    missingPages := fun n => List.map (Target.mapPage up) <$> s.missingPages n
    expiredKeys := s.expiredKeys
    gc := s.gcExpiredKeys
    expires := true
    supportsWriteClock := s.supportsWriteClock
    writesAreDeferred := s.writesAreDeferred }

end KeyMapTarget

/-! ## The attached indexes -/

/-- An index, as the record it derives from writes it. -/
structure Index (S K V : Type) where
  /-- The label of the index among those attached, stable and unique. -/
  label : String
  syncOnWrite : Bool
  sync : K → V → M S Unit
  batchSync : Dict K V → M S Unit
  delete : K → M S Bool
  batchDelete : List K → M S Nat

def Index.zoom {σ τ K V : Type} (l : Lens σ τ) (i : Index τ K V) : Index σ K V where
  label := i.label
  syncOnWrite := i.syncOnWrite
  sync k v := l.zoom (i.sync k v)
  batchSync items := l.zoom (i.batchSync items)
  delete k := l.zoom (i.delete k)
  batchDelete ks := l.zoom (i.batchDelete ks)

section Indexes

variable {S K V P : Type} [DecidableEq K]

/-- Attempt every index, and collect what the failing ones raise. -/
def eachFailure (indexes : List (Index S K V)) (op : Index S K V → M S Unit) :
    M S (List (String × Exn)) :=
  (indexes.filter fun i => i.syncOnWrite).foldlM (fun failures index => do
    match ← attempt (op index) with
    | .ok _ => pure failures
    | .error e => pure (Assoc.insert index.label e failures)) []

/-- Every index is attempted even when one fails. The failures are reported together. -/
def each (indexes : List (Index S K V)) (op : Index S K V → M S Unit) (what : String) :
    M S Unit := do
  let failures ← eachFailure indexes op
  if failures = [] then pure ()
  else raise (.partialSync
    ("index " ++ what ++ " failed for " ++ toString failures.length ++ " target(s)") failures)

/-- The attached indexes, as one dependent of the record. It holds nothing a read
    could return, so it is only written and deleted. -/
def indexesTarget (indexes : List (Index S K V)) (policy : SyncPolicy) : Target S K V P where
  name := "indexes"
  role := .dependent
  lookup := some .never
  fill := false
  policy := policy
  write key value _ := each indexes (fun i => i.sync key value) "upsert"
  batchReadVersioned _ := raise (.unsupported "indexes has no version to write against")
  batchWriteIfUnchanged _ _ := raise (.unsupported "indexes cannot write conditionally")
  holdsSame _ _ := false
  batchWrite items _ := each indexes (fun i => i.batchSync items) "batch upsert"
  delete key := do
    each indexes (fun i => Functor.discard (i.delete key)) "delete"
    return false
  batchDelete ks := do
    each indexes (fun i => Functor.discard (i.batchDelete ks)) "batch delete"
    return 0
  unset key := do
    each indexes (fun i => Functor.discard (i.delete key)) "delete"
    return false
  batchUnset ks := countTrue (fun key => do
    each indexes (fun i => Functor.discard (i.delete key)) "delete"
    return false) ks
  read _ := raise (.kvStoreError "indexes cannot be read")
  batchRead ks := do
    forM ks fun _ => raise (.kvStoreError "indexes cannot be read")
    return Dict.empty
  existsKey _ := raise (.kvStoreError "indexes cannot be read")
  batchExists ks := do
    forM ks fun _ => raise (.kvStoreError "indexes cannot be read")
    return ∅
  stat _ := raise (.kvStoreError "indexes cannot be read")
  batchStat ks := do
    forM ks fun _ => raise (.kvStoreError "indexes cannot be read")
    return Dict.empty
  keys _ := raise (.unsupported "indexes cannot list its keys")
  scanEntries _ := raise (.typeError "indexes is read for the record but is not a store")
  missingPages _ := pure []
  expiredKeys _ _ := raise (.typeError "indexes is read for the record but is not a store")
  gc _ := pure []
  expires := false
  supportsWriteClock := false
  writesAreDeferred := false
  createsEntries := true
  children := []

end Indexes

/-! ## Attempting every index -/

section Indexes

variable {S K V γ : Type}

/-- Where every index is attempted and none is reported, each returned. -/
theorem each_ok {indexes : List (Index S K V)} {op : Index S K V → M S Unit} {what : String}
    {s s' : S} (h : each indexes op what s = (.ok (), s')) :
    forM (indexes.filter fun i => i.syncOnWrite) op s = (.ok (), s') := by
  have hfold : ∀ (is : List (Index S K V)) (failures : List (String × Exn)) (s s' : S),
      (is.foldlM (fun failures index => do
        match ← attempt (op index) with
        | .ok _ => pure failures
        | .error e => pure (Assoc.insert index.label e failures)) failures :
          M S (List (String × Exn))) s = (.ok [], s') →
      failures = [] ∧ forM is op s = (.ok (), s') := by
    intro is
    induction is with
    | nil =>
      intro failures s s' hs
      obtain ⟨hnil, rfl⟩ := Prod.mk.inj hs
      exact ⟨Except.ok.inj hnil, rfl⟩
    | cons i is ih =>
      intro failures s s' hs
      rw [List.foldlM_cons, bind_assoc, bind_ok (attempt_apply _ s)] at hs
      rcases hi : op i s with ⟨e | u, s1⟩ <;> rw [hi] at hs
      · obtain ⟨hins, -⟩ := ih _ _ _ hs
        exact absurd hins (Assoc.insert_ne_nil _ _ _)
      · obtain ⟨hnil, hrest⟩ := ih _ _ _ hs
        rw [List.forM_cons, bind_ok hi]
        exact ⟨hnil, hrest⟩
  unfold each at h
  rcases hf : eachFailure indexes op s with ⟨e | failures, s1⟩
  · rw [bind_error hf] at h
    cases h
  · rw [bind_ok hf] at h
    by_cases hnil : failures = []
    · rw [if_pos hnil] at h
      obtain ⟨-, rfl⟩ := Prod.mk.inj h
      rw [hnil] at hf
      exact (hfold _ _ _ _ hf).2
    · rw [if_neg hnil] at h
      cases h

end Indexes

end Kvtsjl
