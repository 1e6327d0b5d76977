import Mathlib.Data.Finset.Card
import Kvtsjl.Topology

/-
  Writes, conditional writes and removals of a topology, in the order its roles imply.
  `DependentSyncs` is the queue of the node the programs run at: what comes after the
  commit point is run there at once, or waits for `flush`.
-/

namespace Kvtsjl

open Assoc (Dict)
open Effects Prog

namespace Topology

variable {S K V P : Type} [DecidableEq K]

/-! ## Writes -/

/-- Components, then the authority, then dependents. -/
def write (T : Topology S K V P) (key : K) (value : V) (options : WriteOptions) :
    M (Node S K V P) Unit := do
  forM T.committing fun t =>
    Node.onMedia (runCommitting t.name t.role (t.write key value (t.receives options)))
  T.toDependents "set" (.write key value options) none

/-- As `write`, one batch per target. -/
def batchWrite (T : Topology S K V P) (items : Dict K V) (options : WriteOptions) :
    M (Node S K V P) Unit :=
  when (items.entries ≠ []) do
    forM T.committing fun t =>
      Node.onMedia (runCommitting t.name t.role (t.batchWrite items (t.receives options)))
    T.toDependents "batch set" (.batchWrite items options) none

/-! ## Conditional writes -/

/-- The write clock a key's write carries. -/
def clockOf (writes : Dict K (ConditionalWrite V)) (k : K) : Option Instant :=
  (writes.get? k).bind fun w => w.createdAt

/-- `groups.setdefault(clock, {})[k] = v`. -/
def fileUnder (writes : Dict K (ConditionalWrite V)) (groups : Dict (Option Instant) (Dict K V))
    (e : K × V) : Dict (Option Instant) (Dict K V) :=
  groups.set (clockOf writes e.1)
    (((groups.get? (clockOf writes e.1)).getD Dict.empty).set e.1 e.2)

/-- The values grouped by the write clock each carries, so each group is one batch. -/
def byClock (values : Dict K V) (writes : Dict K (ConditionalWrite V)) :
    List (Option Instant × Dict K V) :=
  (values.entries.foldl (fileUnder writes) Dict.empty).entries

/-- The value is in the group of the clock. -/
def Filed (groups : Dict (Option Instant) (Dict K V)) (c : Option Instant) (k : K) (v : V) :
    Prop :=
  ((groups.get? c).bind fun d => d.get? k) = some v

theorem filed_fileUnder (writes : Dict K (ConditionalWrite V))
    (groups : Dict (Option Instant) (Dict K V)) {e : K × V}
    (he : ∀ c v, ¬ Filed groups c e.1 v) (c : Option Instant) (k : K) (v : V) :
    Filed (fileUnder writes groups e) c k v ↔
      Filed groups c k v ∨ (k, v) = e ∧ c = clockOf writes k := by
  obtain ⟨j, w⟩ := e
  unfold Filed fileUnder at *
  rw [Dict.get?_set]
  by_cases hc : c = clockOf writes j
  · subst hc
    by_cases hk : k = j
    · subst hk
      have hn : ∀ v, ((groups.get? (clockOf writes k)).bind fun d => d.get? k) ≠ some v :=
        fun v => he _ v
      simp [Dict.get?_set, hn, eq_comm]
    · cases hg : groups.get? (clockOf writes j) <;> simp [Dict.get?_set, hk]
  · simp only [if_neg hc, Prod.mk.injEq]
    constructor
    · exact .inl
    · rintro (h | ⟨⟨rfl, rfl⟩, rfl⟩)
      · exact h
      · exact absurd rfl hc

theorem filed_foldl (writes : Dict K (ConditionalWrite V)) (es : List (K × V))
    (groups : Dict (Option Instant) (Dict K V)) (hn : (es.map Prod.fst).Nodup)
    (hg : ∀ k ∈ es.map Prod.fst, ∀ c v, ¬ Filed groups c k v) (c : Option Instant) (k : K) (v : V) :
    Filed (es.foldl (fileUnder writes) groups) c k v ↔
      Filed groups c k v ∨ (k, v) ∈ es ∧ c = clockOf writes k := by
  induction es generalizing groups with
  | nil => simp
  | cons e es ih =>
    rw [List.map_cons, List.nodup_cons] at hn
    rw [List.foldl_cons, ih _ hn.2, filed_fileUnder writes groups (hg e.1 (by simp)),
      List.mem_cons, or_and_right, or_assoc]
    intro j hj c v hf
    rcases (filed_fileUnder writes groups (hg e.1 (by simp)) c j v).mp hf with h | ⟨h, -⟩
    · exact hg j (List.mem_cons_of_mem _ hj) c v h
    · exact hn.1 (by rwa [← h])

/-- The groups hold the values, each under its own clock. -/
theorem mem_byClock {values : Dict K V} {writes : Dict K (ConditionalWrite V)}
    {g : Option Instant × Dict K V} (hg : g ∈ byClock values writes) {k : K} {v : V}
    (hk : g.2.get? k = some v) : values.get? k = some v ∧ g.1 = clockOf writes k := by
  have hf : Filed (values.entries.foldl (fileUnder writes) Dict.empty) g.1 k v := by
    unfold Filed
    rw [Dict.mem_entries.mp hg]
    exact hk
  rw [filed_foldl writes _ _ values.nodup (by simp [Filed])] at hf
  rcases hf with h | ⟨h, hc⟩
  · simp [Filed] at h
  · exact ⟨Dict.mem_entries.mp h, hc⟩

theorem exists_byClock {values : Dict K V} {writes : Dict K (ConditionalWrite V)} {k : K} {v : V}
    (hk : values.get? k = some v) :
    ∃ g ∈ byClock values writes, g.1 = clockOf writes k ∧ g.2.get? k = some v := by
  have hf : Filed (values.entries.foldl (fileUnder writes) Dict.empty) (clockOf writes k) k v := by
    rw [filed_foldl writes _ _ values.nodup (by simp [Filed])]
    exact .inr ⟨Dict.mem_entries.mpr hk, rfl⟩
  obtain ⟨d, hd, hv⟩ := Option.bind_eq_some_iff.mp hf
  exact ⟨(clockOf writes k, d), Dict.mem_entries.mpr hd, rfl, hv⟩

/-- Whether a write changes what the target holds of the record: always for an insert,
    and for a replace where its part differs from the stored record's. -/
def changes (target : AnyTarget S K V P) (seen : Versioned V) (after : V) : Bool :=
  match seen.value with
  | none => true
  | some before => seen.version.isNone || !target.holdsSame before after

/-- The records whose part in the target a write changes. -/
def changed (target : AnyTarget S K V P) (puts : Dict K V)
    (writes : Dict K (ConditionalWrite V)) : Dict K V :=
  puts.filter fun k v => ((writes.get? k).map fun w => changes target w.seen v).getD false

/-- The values a batch of conditional writes stores. -/
def putsOf (writes : Dict K (ConditionalWrite V)) : Dict K V :=
  writes.collect fun _ w => w.change.value?

/-- Whether one of the records is written against a version. -/
def versioned (writes : Dict K (ConditionalWrite V)) (items : Dict K V) : Bool :=
  items.keys.any fun k => ((writes.get? k).bind fun w => w.seen.version).isSome

/-- Everything removed after the commit point, in removal order. -/
def removedAfterCommit (T : Topology S K V P) : List (AnyTarget S K V P) :=
  if T.authority.isNone then T.dependents else T.components ++ T.dependents

/-- The components a conditional batch changes of a record that is stored. -/
def replaced (T : Topology S K V P) (writes : Dict K (ConditionalWrite V)) : List String :=
  (T.components.filter fun t => versioned writes (changed t (putsOf writes) writes)).map
    fun t => t.name

/-- One batch to a target for each write clock. -/
def batchWriteChanged (writes : Dict K (ConditionalWrite V)) (options : WriteOptions)
    (t : AnyTarget S K V P) : M (Node S K V P) Unit :=
  forM (byClock (changed t (putsOf writes) writes) writes) fun g =>
    Node.onMedia (runCommitting t.name t.role
      (t.batchWrite g.2 (t.receives ⟨options.ttl, g.1⟩)))

/-- The keys the authority removed. -/
def removedKeys (writes : Dict K (ConditionalWrite V)) (written : Finset K) : List K :=
  writes.keys.filter fun k => k ∈ written ∧ ((putsOf writes).get? k).isNone

/-- The records the authority stored. -/
def storedPuts (writes : Dict K (ConditionalWrite V)) (written : Finset K) : Dict K V :=
  (putsOf writes).filter fun k _ => k ∈ written

theorem get?_putsOf {writes : Dict K (ConditionalWrite V)} {k : K} {v : V} :
    (putsOf writes).get? k = some v ↔
      ∃ w, writes.get? k = some w ∧ w.change = .put v := by
  unfold putsOf
  rw [Dict.get?_collect, Option.bind_eq_some_iff]
  refine exists_congr fun w => and_congr_right fun _ => ?_
  cases w.change <;> simp [Change.value?]

theorem get?_storedPuts {writes : Dict K (ConditionalWrite V)} {written : Finset K} {k : K} {v : V} :
    (storedPuts writes written).get? k = some v ↔
      (putsOf writes).get? k = some v ∧ k ∈ written := by
  unfold storedPuts
  rw [Dict.get?_filter, Option.filter_eq_some_iff, decide_eq_true_iff]

theorem mem_removedKeys {writes : Dict K (ConditionalWrite V)} {written : Finset K} {k : K} :
    k ∈ removedKeys writes written ↔
      k ∈ written ∧ ∃ w, writes.get? k = some w ∧ w.change = .remove := by
  unfold removedKeys putsOf
  rw [List.mem_filter, Dict.mem_keys, decide_eq_true_iff, Dict.get?_collect]
  constructor
  · rintro ⟨⟨w, hw⟩, hk, hnone⟩
    refine ⟨hk, w, hw, ?_⟩
    rw [hw] at hnone
    cases hc : w.change with
    | put v => simp [hc, Change.value?] at hnone
    | remove => rfl
  · rintro ⟨hk, w, hw, hc⟩
    exact ⟨⟨w, hw⟩, hk, by simp [hw, hc, Change.value?]⟩

/-- The stored records reach a dependent they change. -/
def syncChanged (T : Topology S K V P) (writes : Dict K (ConditionalWrite V))
    (options : WriteOptions) (written : Finset K) (t : AnyTarget S K V P) :
    M (Node S K V P) Unit :=
  forM (byClock (changed t (storedPuts writes written) writes) writes) fun g =>
    T.syncOne t "batch set" (.batchWrite g.2 ⟨options.ttl, g.1⟩) none

/-- What follows the authority's answer: the removed records leave every other target,
    and the stored ones reach the dependents they change. -/
def afterConditional (T : Topology S K V P) (writes : Dict K (ConditionalWrite V))
    (options : WriteOptions) (written : Finset K) : M (Node S K V P) Unit := do
  when (removedKeys writes written ≠ []) do
    forM T.removedAfterCommit fun t =>
      T.syncOne t "batch delete" (.batchDelete (removedKeys writes written)) none
  forM T.dependents (T.syncChanged writes options written)

/-- Make each change only if the record's authority is still what was seen. -/
def batchWriteIfUnchanged (T : Topology S K V P) (writes : Dict K (ConditionalWrite V))
    (options : WriteOptions) : M (Node S K V P) (Finset K) := do
  let authority ← T.requireAuthority "write_if_unchanged"
  if T.replaced writes ≠ [] then
    raise (.unsupported (reprNames (T.replaced writes)
      ++ " are written before the commit point and could not be "
      ++ "taken back if the record changed; declare them after_commit to update them"))
  else do
    forM T.components (batchWriteChanged writes options)
    let written ← Node.onMedia (runCommitting authority.name authority.role
      (authority.batchWriteIfUnchanged (received authority writes) options))
    T.afterConditional writes options written
    return written

/-! ## Removals -/

/-- Removing a record, or only a target's own part of it. -/
inductive Removal where
  | delete
  | unset
deriving DecidableEq

namespace Removal

def point {R : Type} (r : Removal) (t : Target S K V R) (key : K) : M S Bool :=
  match r with
  | delete => t.delete key
  | unset => t.unset key

def batch {R : Type} (r : Removal) (t : Target S K V R) (keys : List K) : M S Nat :=
  match r with
  | delete => t.batchDelete keys
  | unset => t.batchUnset keys

def what : Removal → String
  | delete => "delete"
  | unset => "unset"

def batchWhat : Removal → String
  | delete => "batch delete"
  | unset => "batch unset"

def pointOp : Removal → K → SyncOp K V
  | delete, key => .delete key
  | unset, key => .unset key

def batchOp : Removal → List K → SyncOp K V
  | delete, keys => .batchDelete keys
  | unset, keys => .batchUnset keys

end Removal

/-- The authority alone, or, with no commit point, every component. -/
def removedNow (T : Topology S K V P) : List (AnyTarget S K V P) :=
  match T.authority with
  | some authority => [authority]
  | none => T.components

/-- The authority first, then everything else. Never stops early. -/
def remove (T : Topology S K V P) (r : Removal) (key : K) : M (Node S K V P) Bool := do
  let removed ← T.removedNow.mapM fun t => Node.onMedia (r.point t key)
  forM T.removedAfterCommit fun t => T.syncOne t r.what (r.pointOp key) none
  return if T.authority.isSome then removed.headD false else removed.any id

/-- With no authority, the keys any component holds, probed before deleting. -/
def heldBefore (T : Topology S K V P) (keys : List K) : M S (Finset K) :=
  if T.authority.isNone then
    T.components.foldlM (fun held t => do return held ∪ (← t.batchExists keys)) ∅
  else pure ∅

/-- As `remove`, one batch per target. With no authority it counts the keys any
    component held. -/
def batchRemove (T : Topology S K V P) (r : Removal) (keys : List K)
    (policy : Option SyncPolicy) : M (Node S K V P) Nat :=
  if keys.isEmpty then pure 0
  else do
    let held ← Node.onMedia (T.heldBefore (Dict.unique keys))
    let counts ← T.removedNow.mapM fun t => Node.onMedia (r.batch t (Dict.unique keys))
    forM T.removedAfterCommit fun t =>
      T.syncOne t r.batchWhat (r.batchOp (Dict.unique keys)) policy
    return if T.authority.isSome then counts.headD 0 else held.card

/-! ## Expiry -/

/-- What one dependent collects of its own expired entries, best-effort. -/
def gcOwn (t : AnyTarget S K V P) (maxEntries : Int) : M (Node S K V P) (List K) :=
  Node.onMedia (settle t.name "gc" .bestEffort false [] (t.gc maxEntries))

/-- Collect expired entries: the authority and each component their own, and the
    dependents what the authority collected and their own. -/
def gc (T : Topology S K V P) (maxEntries : Int) (policy : SyncPolicy) :
    M (Node S K V P) (List K) :=
  if maxEntries < 1 then
    raise (.valueError ("max_entries must be >= 1, got " ++ toString maxEntries))
  else do
    let own ← (T.byRole [.authority, .component]).mapM fun t => do
      return (t.role, ← Node.onMedia (t.gc maxEntries))
    let expired := (own.filter fun p => p.1 = .authority).flatMap fun p => p.2
    when (expired ≠ []) (T.toDependents "gc" (.batchDelete expired) (some policy))
    let copies ← (T.dependents.filter fun t => t.expires).mapM fun t => gcOwn t maxEntries
    return Dict.unique ((own.flatMap fun p => p.2) ++ copies.flatten)

/-! ## What the fallbacks hold -/

/-- The keys of a page none of the targets ahead holds. -/
def absentFrom (page : List K) (ahead : List (Target S K V V)) : M S (List K) :=
  ahead.foldlM (fun absent t =>
    if absent.isEmpty then pure absent
    else do
      let held ← t.batchExists absent
      return absent.filter fun k => k ∉ held) page

/-- The pages of each fallback in turn, against the targets a read reaches before it. -/
def fallbackPages (pageSize : Nat) :
    List (Target S K V V) → List (Target S K V V) → M S (List (MissingPage S K V))
  | _, [] => pure []
  | ahead, fallback :: rest => do
    let listed ← fallback.keys pageSize
    let pages ← (listed.toChunks pageSize).mapM fun page => do
      return ⟨page, ← absentFrom page ahead, fallback.batchRead, fallback.batchStat⟩
    return pages ++ (← fallbackPages pageSize (ahead ++ [fallback]) rest)

/-- What a read finds through a fallback that the record does not hold, down the chain
    of authorities first. -/
def missingPages (T : Topology S K V P) (pageSize : Nat) :
    M S (List (MissingPage S K V)) :=
  match T.wholeAuthority with
  | none => pure []
  | some authority => do
    let below ← authority.missingPages pageSize
    return below ++ (← fallbackPages pageSize [authority]
      (T.lookups.filter fun t => t.role = .fallback))

/-! ## The queue -/

/-- Run every queued operation, even past failures. The queue clears either way. -/
def flushQueue : List (Queued S K V P) → Nat → List (String × Exn) → M S (List (String × Exn))
  | [], _, failures => pure failures
  | q :: rest, position, failures => do
    match ← attempt (settle q.name q.what q.policy false () q.run) with
    | .ok _ => flushQueue rest (position + 1) failures
    | .error (.partialSync _ more) =>
      flushQueue rest (position + 1) (updateFailures failures (more.map fun p =>
        (q.what ++ "#" ++ toString position ++ ":" ++ p.1, p.2)))
    | .error e => raise e

/-- `DependentSyncs.flush`. -/
def flushSyncs : M (Node S K V P) Unit := do
  let queued ← Prog.read fun n : Node S K V P => n.syncs
  modify fun n : Node S K V P => { n with syncs := [] }
  let failures ← Node.onMedia (flushQueue queued 0 [])
  when (failures ≠ []) (raise (.partialSync "deferred syncs failed after commit" failures))

/-- `DependentSyncs.discard`. -/
def discardSyncs : M (Node S K V P) Unit := modify fun n => { n with syncs := [] }

end Topology

/-! ## The whole tree -/

/-- Flush every node, even when one fails, and report the failures together. -/
def flushAll {S : Type} : List (M S Unit) → List (String × Exn) → M S (List (String × Exn))
  | [], failures => pure failures
  | flush :: rest, failures => do
    match ← attempt flush with
    | .ok _ => flushAll rest failures
    | .error (.partialSync _ more) => flushAll rest (updateFailures failures more)
    | .error e => raise e

/-- `SyncTreeNode.flush_index_syncs`. -/
def flushEach {S : Type} (flushes : List (M S Unit)) : M S Unit := do
  let failures ← flushAll flushes []
  when (failures ≠ [])
    (raise (.partialSync "deferred index syncs failed after commit" failures))

end Kvtsjl
