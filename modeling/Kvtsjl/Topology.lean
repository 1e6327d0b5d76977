import Kvtsjl.Target

/-
  A record's targets, and the order of every operation their roles imply.
  `targets` hold the whole record, `parts` a piece of it, and `assemble` builds the
  record from what the parts hold. Operations on the media are programs over `S`.
  Those that may queue work for the caller's commit are programs over a `Node`,
  which is the media and the queue of one composed node.
-/

namespace Kvtsjl

open Assoc (Dict)
open Effects Prog

/-! ## The queue of a node -/

/-- An operation on a target that comes after the commit point. -/
inductive SyncOp (K V : Type) where
  | write (key : K) (value : V) (options : WriteOptions)
  | batchWrite (items : Dict K V) (options : WriteOptions)
  | delete (key : K)
  | unset (key : K)
  | batchDelete (keys : List K)
  | batchUnset (keys : List K)

/-- The operation, on one target. -/
def SyncOp.on {S K V P : Type} (t : Target S K V P) : SyncOp K V → M S Unit
  | .write key value options => t.write key value (t.receives options)
  | .batchWrite items options => t.batchWrite items (t.receives options)
  | .delete key => Functor.discard (t.delete key)
  | .unset key => Functor.discard (t.unset key)
  | .batchDelete keys => Functor.discard (t.batchDelete keys)
  | .batchUnset keys => Functor.discard (t.batchUnset keys)

/-- A target among those of a topology, whole or part: what it reads back is one or
    the other. -/
abbrev AnyTarget (S K V P : Type) : Type := Target S K V (V ⊕ P)

structure Queued (S K V P : Type) where
  name : String
  what : String
  policy : SyncPolicy
  target : AnyTarget S K V P
  op : SyncOp K V

def Queued.run {S K V P : Type} (q : Queued S K V P) : M S Unit := q.op.on q.target

/-- The state of a composed node: its media, and the operations it holds for the
    caller's commit. -/
structure Node (S K V P : Type) where
  media : S
  syncs : List (Queued S K V P)

namespace Node

variable {S K V P α : Type}

def mediaLens : Lens (Node S K V P) S where
  get n := n.media
  set n s := { n with media := s }
  get_set _ _ := rfl
  set_get _ := rfl
  set_set _ _ _ := rfl

/-- A program of the media, run at the node. -/
def onMedia (m : M S α) : M (Node S K V P) α := mediaLens.zoom m

theorem onMedia_apply (m : M S α) (n : Node S K V P) :
    onMedia m n = ((m n.media).1, { n with media := (m n.media).2 }) := rfl

theorem onMedia_does {m : M S α} {n : Node S K V P} {Q : α → Node S K V P → Prop}
    (h : Does m n.media fun a s => Q a ⟨s, n.syncs⟩) : Does (onMedia m) n Q := by
  refine (Lens.zoom_does h).weaken ?_
  rintro a _ ⟨t, rfl, hq⟩
  exact hq

def enqueue (q : Queued S K V P) : M (Node S K V P) Unit :=
  modify fun n => { n with syncs := n.syncs ++ [q] }

theorem enqueue_apply (q : Queued S K V P) (n : Node S K V P) :
    enqueue q n = (.ok (), { n with syncs := n.syncs ++ [q] }) := rfl

end Node

/-! ## What a failure means -/

section Failures

variable {S α : Type}

/-- Run a write on or before the commit point, reclassifying a failure. A component's
    is before the commit point. An authority's keeps a child composition's answer. -/
def runCommitting (name : String) (role : Role) (run : M S α) : M S α :=
  catching run fun e =>
    if role = .authority ∧ e.isRecordWriteError then raise e
    else raise (.uncommitted (name ++ " failed before the record was committed") [(name, e)])

/-- Run an operation that follows the authority's write, under `policy`. A failure
    that is logged answers `otherwise`. -/
def settle (name what : String) (policy : SyncPolicy) (beforeCommit : Bool) (otherwise : α)
    (run : M S α) : M S α :=
  catching run fun e =>
    if policy = .bestEffort ∧ ¬ e.isUnsupported then pure otherwise
    else if beforeCommit then
      if e.isUncommitted then raise e
      else raise (.uncommitted (name ++ " " ++ what
        ++ " failed inside a commit the caller has not made; roll it back") [(name, e)])
    else if e.isPartialSync then raise e
    else raise (.partialSync (name ++ " " ++ what ++ " failed after the record was committed")
      [(name, e)])

/-- A fill is best-effort, but loud when unsupported. -/
def tryFill (run : M S α) : M S Unit :=
  catching (Functor.discard run) fun e => if e.isUnsupported then raise e else pure ()

end Failures

/-! ## The declaration -/

/-- What a record's parts hold for one key, filed under the place of each part among
    the topology's targets. -/
abbrev Parts (V P : Type) : Type := List (Nat × Option (V ⊕ P))

/-- What the part at place `i` holds for the key. -/
def Parts.held {V P : Type} (parts : Parts V P) (i : Nat) : Option (V ⊕ P) :=
  (Assoc.lookup i parts).join

structure Topology (S K V P : Type) where
  targets : List (Target S K V V)
  parts : List (Target S K V P)
  assemble : Option (Parts V P → Option V)

namespace Topology

variable {S K V P : Type} [DecidableEq K]

def all (T : Topology S K V P) : List (AnyTarget S K V P) :=
  T.targets.map (Target.upcast Sum.inl) ++ T.parts.map (Target.upcast Sum.inr)

/-- Targets with these roles, phase by phase, declared order within. -/
def byRole (T : Topology S K V P) (roles : List Role) : List (AnyTarget S K V P) :=
  roles.flatMap fun r => T.all.filter fun t => t.role = r

def authority (T : Topology S K V P) : Option (AnyTarget S K V P) :=
  T.all.find? fun t => t.role = .authority

/-- The authority, when it holds the whole record. -/
def wholeAuthority (T : Topology S K V P) : Option (Target S K V V) :=
  T.targets.find? fun t => t.role = .authority

def components (T : Topology S K V P) : List (AnyTarget S K V P) :=
  (T.parts.map (Target.upcast Sum.inr)).filter fun t => t.role = .component

/-- Whether a read builds the record from parts rather than finding it whole. -/
def assembled (T : Topology S K V P) : Bool := !T.parts.isEmpty

/-- The targets the record is committed to: components, then the authority. -/
def committing (T : Topology S K V P) : List (AnyTarget S K V P) :=
  T.byRole [.component, .authority]

def createsEntries (T : Topology S K V P) : Bool := T.committing.all fun t => t.createsEntries

def supportsWriteClock (T : Topology S K V P) : Bool :=
  T.committing.all fun t => t.supportsWriteClock

/-- Whether the commit is the caller's to make, so dependents must wait. -/
def deferred (T : Topology S K V P) : Bool := T.committing.any fun t => t.writesAreDeferred

/-- The order a read consults whole targets: before, the authority, after. -/
def lookups (T : Topology S K V P) : List (Target S K V V) :=
  (T.targets.filter fun t => t.lookup = some .beforeAuthority)
    ++ T.wholeAuthority.toList
    ++ T.targets.filter fun t => t.lookup = some .afterAuthority

/-- Targets written after the commit point: copies, and parts that refer to it. -/
def dependents (T : Topology S K V P) : List (AnyTarget S K V P) := T.byRole [.dependent]

def children (T : Topology S K V P) : List (SyncNode S) := T.all.flatMap fun t => t.children

/-- The checks of `Topology.__post_init__`. -/
def postInit (T : Topology S K V P) : Except Exn Unit :=
  let authorities := (T.all.filter fun t => t.role = .authority).map fun t => t.name
  let misplaced := (T.targets.filter fun t => t.role = .component).map fun t => t.name
  let fallbackParts := (T.parts.filter fun t => t.role = .fallback).map fun t => t.name
  let uncreating := (T.committing.filter fun t => !t.createsEntries).map fun t => t.name
  let lookedUp := (T.targets.filter fun t =>
    t.lookup = some .beforeAuthority ∨ t.lookup = some .afterAuthority).map fun t => t.name
  if 1 < authorities.length then
    .error (.valueError ("a record has one authority, got " ++ reprNames authorities))
  else if misplaced ≠ [] then
    .error (.valueError ("a component holds a part of the record: " ++ reprNames misplaced))
  else if fallbackParts ≠ [] then
    .error (.valueError ("a fallback is read whole, not as a part: " ++ reprNames fallbackParts))
  else if authorities = [] ∧ T.parts.any fun t => t.role = .dependent then
    .error (.valueError "a dependent part comes after a commit point; there is none")
  else if authorities = [] ∧ T.parts.isEmpty then
    .error (.valueError "a record needs an authority or components")
  else if authorities = [] ∧ T.targets.any fun t => t.role = .fallback then
    .error (.valueError "a fallback is consulted when the authority misses")
  else if uncreating ≠ [] ∧ uncreating.length < T.committing.length then
    .error (.valueError (reprNames uncreating ++ " only write into entries another part creates, so "
      ++ "a new record would be written without them; put them after the "
      ++ "commit point (a zip's after_commit)"))
  else if T.assembled ≠ T.assemble.isSome then
    .error (.valueError "parts and assemble go together")
  else if T.assembled ∧ lookedUp ≠ [] then
    .error (.valueError ("an assembled record is read from its parts, not " ++ reprNames lookedUp))
  else .ok ()

/-- What the constructor accepts. -/
structure Accepted (T : Topology S K V P) : Prop where
  oneAuthority : (T.all.filter fun t => t.role = .authority).length ≤ 1
  noWholeComponent : ∀ t ∈ T.targets, t.role ≠ .component
  noFallbackPart : ∀ t ∈ T.parts, t.role ≠ .fallback
  dependentPart : T.authority = none → ∀ t ∈ T.parts, t.role ≠ .dependent
  fallbackTarget : T.authority = none → ∀ t ∈ T.targets, t.role ≠ .fallback
  together : T.assembled = T.assemble.isSome
  notLookedUp : T.assembled → ∀ t ∈ T.targets,
    t.lookup ≠ some .beforeAuthority ∧ t.lookup ≠ some .afterAuthority

omit [DecidableEq K] in
theorem names_eq_nil {R : Type} {ts : List (Target S K V R)} {p : Target S K V R → Bool}
    (h : (ts.filter p).map (fun t => t.name) = []) : ∀ t ∈ ts, p t = false := by
  intro t ht
  by_contra hp
  have hm : t ∈ ts.filter p := List.mem_filter.mpr ⟨ht, by simpa using hp⟩
  rw [List.map_eq_nil_iff] at h
  rw [h] at hm
  cases hm

theorem authority_eq_none {T : Topology S K V P} :
    T.authority = none ↔ (T.all.filter fun t => t.role = .authority) = [] := by
  simp [authority, List.filter_eq_nil_iff]

theorem accepted {T : Topology S K V P} (h : T.postInit = .ok ()) : T.Accepted := by
  unfold postInit at h
  simp only at h
  split_ifs at h with h1 h2 h3 h4 h5 h6 h7 h8 h9
  have hnone : T.authority = none →
      ((T.all.filter fun t => t.role = .authority).map fun t => t.name) = [] := by
    intro hn
    rw [authority_eq_none.mp hn]; rfl
  refine ⟨by simpa using h1, ?_, ?_, ?_, ?_, by simpa using h8, ?_⟩
  · intro t ht
    simpa using names_eq_nil (not_not.mp h2) t ht
  · intro t ht
    simpa using names_eq_nil (not_not.mp h3) t ht
  · intro hn t ht hd
    exact h4 ⟨hnone hn, List.any_eq_true.mpr ⟨t, ht, by simpa using hd⟩⟩
  · intro hn t ht hd
    exact h6 ⟨hnone hn, List.any_eq_true.mpr ⟨t, ht, by simpa using hd⟩⟩
  · intro ha t ht
    have := names_eq_nil (not_not.mp fun hne => h9 ⟨ha, hne⟩) t ht
    simpa using this

/-- Only parts are components. -/
theorem components_byRole {T : Topology S K V P} (h : T.Accepted) :
    T.components = T.byRole [.component] := by
  have hwhole : (T.targets.map (Target.upcast Sum.inl) : List (AnyTarget S K V P)).filter
      (fun t => t.role = .component) = [] := by
    rw [List.filter_eq_nil_iff]
    intro t ht
    obtain ⟨t', ht', rfl⟩ := List.mem_map.mp ht
    exact fun hr => h.noWholeComponent t' ht' (of_decide_eq_true hr)
  unfold byRole components all
  rw [List.flatMap_singleton, List.filter_append, hwhole, List.nil_append]

def requireAuthority {σ : Type} (T : Topology S K V P) (op : String) :
    M σ (AnyTarget S K V P) :=
  match T.authority with
  | some t => pure t
  | none => raise (.unsupported (op ++ " needs a target that decides whether the record exists"))

def requireWhole {σ : Type} (T : Topology S K V P) (op : String) : M σ (Target S K V V) :=
  match T.wholeAuthority with
  | some t => pure t
  | none => raise (.notImplemented (op ++ ": a record assembled from parts is not one value"))

/-! ## After the commit point -/

/-- `DependentSyncs.run`: queue the operation for the commit, or run it now. -/
def runSync (name what : String) (policy : SyncPolicy) (target : AnyTarget S K V P)
    (op : SyncOp K V) (defer beforeCommit : Bool) : M (Node S K V P) Unit :=
  if defer then Node.enqueue ⟨name, what, policy, target, op⟩
  else Node.onMedia (settle name what policy beforeCommit () (op.on target))

/-- One whose own writes are deferred joins the caller's commit, so it runs now,
    before that commit. Any other waits for it. -/
def syncOne (T : Topology S K V P) (target : AnyTarget S K V P) (what : String)
    (op : SyncOp K V) (policy : Option SyncPolicy) : M (Node S K V P) Unit :=
  runSync target.name what (policy.getD target.policy) target op
    (T.deferred && !target.writesAreDeferred) T.deferred

def toDependents (T : Topology S K V P) (what : String) (op : SyncOp K V)
    (policy : Option SyncPolicy) : M (Node S K V P) Unit :=
  forM T.dependents fun t => T.syncOne t what op policy

/-! ## Fills -/

/-- Fallback, then authority, then dependents: values flow downstream only. -/
def streamOrder : Role → Nat
  | .fallback => 0
  | .authority => 1
  | .component => 1
  | .dependent => 2

/-- The consulted targets that asked to be filled and lie downstream of `source`. -/
def fillable (source : Target S K V V) (consulted : List (Target S K V V)) :
    List (Target S K V V) :=
  consulted.filter fun t => t.fill && streamOrder source.role < streamOrder t.role

/-- As `Target.receives`, per write: without the clocks it cannot keep. -/
def received {R : Type} (t : Target S K V R) (writes : Dict K (ConditionalWrite V)) :
    Dict K (ConditionalWrite V) :=
  if t.supportsWriteClock then writes
  else writes.map fun _ w => { w with createdAt := none }

/-- The metadata a fill carries its write clocks from. -/
def fillStats (hits : Dict K V) (source : Target S K V V) (into : List (Target S K V V)) :
    M S (Dict K RecordStat) :=
  if into.any fun t => t.supportsWriteClock then source.batchStat hits.keys else pure Dict.empty

/-- The fill of each value, with its record's write clock. -/
def fillWrites (hits : Dict K V) (stats : Dict K RecordStat) : Dict K (ConditionalWrite V) :=
  hits.map fun k v => ⟨Versioned.absent, .put v, (stats.get? k).bind RecordStat.writeClock⟩

/-- Give each value to every target that asked for it, unless it has one now. -/
def batchFill (hits : Dict K V) (source : Target S K V V) (consulted : List (Target S K V V)) :
    M S Unit :=
  when (fillable source consulted ≠ []) do
    let stats ← fillStats hits source (fillable source consulted)
    forM (fillable source consulted) fun t =>
      tryFill (t.batchWriteIfUnchanged (received t (fillWrites hits stats)) WriteOptions.none)

/-! ## Reads -/

/-- The first of the targets that holds the key, filling those before it. -/
def readFrom (key : K) : List (Target S K V V) → List (Target S K V V) → M S (Option V)
  | [], _ => pure none
  | target :: rest, consulted => do
    match ← target.read key with
    | some value =>
      batchFill (Dict.single key value) target consulted
      return some value
    | none => readFrom key rest (consulted ++ [target])

/-- The parts other than the authority, each with its place among the targets. -/
def unanchoredParts (T : Topology S K V P) : List (AnyTarget S K V P × Nat) :=
  (T.all.zipIdx.drop T.targets.length).filter fun p => p.1.role ≠ .authority

/-- The authority, with its place among the targets. -/
def anchored (T : Topology S K V P) : Option (AnyTarget S K V P × Nat) :=
  T.all.zipIdx.find? fun p => p.1.role = .authority

def requireAssemble (T : Topology S K V P) : M S (Parts V P → Option V) :=
  match T.assemble with
  | some f => pure f
  | none => raise (.medium "AssertionError")

def readParts (T : Topology S K V P) (key : K) : M S (Parts V P) :=
  T.unanchoredParts.mapM fun p => do return (p.2, ← p.1.read key)

def assembleOne (T : Topology S K V P) (key : K) : M S (Option V) := do
  let assemble ← T.requireAssemble
  match T.anchored with
  | none => return assemble (← T.readParts key)
  | some (authority, i) =>
    match ← authority.read key with
    | none => return none
    | some value => return assemble ((i, some value) :: (← T.readParts key))

/-- What each part holds for the wanted keys. -/
def batchReadParts (T : Topology S K V P) (wanted : List K) :
    M S (List (Nat × Dict K (V ⊕ P))) :=
  T.unanchoredParts.mapM fun p =>
    if wanted.isEmpty then pure (p.2, Dict.empty)
    else do return (p.2, ← p.1.batchRead wanted)

/-- The records the parts found make. -/
def assembleFound (assemble : Parts V P → Option V) (wanted : List K)
    (found : List (Nat × Dict K (V ⊕ P))) : Dict K V :=
  Dict.ofKeys wanted fun k => assemble (found.map fun p => (p.1, p.2.get? k))

/-- The authority's values, read unless they are given. -/
def anchorHits (authority : AnyTarget S K V P) (wanted : List K) :
    Option (Dict K (V ⊕ P)) → M S (Dict K (V ⊕ P))
  | some hits => pure hits
  | none => authority.batchRead wanted

/-- The keys the authority holds. -/
def anchoredKeys (hits : Dict K (V ⊕ P)) (wanted : List K) : List K :=
  wanted.filter fun k => (hits.get? k).isSome

/-- Each record from its parts. `anchors` are the authority's values, if read. -/
def assembleMany (T : Topology S K V P) (keys : List K) (anchors : Option (Dict K (V ⊕ P))) :
    M S (Dict K V) := do
  let assemble ← T.requireAssemble
  if keys.isEmpty then pure Dict.empty
  else match T.anchored with
    | none =>
      return assembleFound assemble (Dict.unique keys) (← T.batchReadParts (Dict.unique keys))
    | some (authority, i) => do
      let hits ← anchorHits authority (Dict.unique keys) anchors
      let wanted := anchoredKeys hits (Dict.unique keys)
      return assembleFound assemble wanted ((i, hits) :: (← T.batchReadParts wanted))

def read (T : Topology S K V P) (key : K) : M S (Option V) :=
  if T.assembled then T.assembleOne key else readFrom key T.lookups []

/-- As `readFrom`, asking each target only about keys still missing. -/
def batchReadFrom (keys : List K) :
    List (Target S K V V) → List (Target S K V V) → Dict K V → M S (Dict K V)
  | [], _, found => pure found
  | target :: rest, consulted, found =>
    let missing := keys.filter fun k => (found.get? k).isNone
    if missing.isEmpty then pure found
    else do
      let hits ← target.batchRead missing
      when (hits.entries ≠ []) (batchFill hits target consulted)
      batchReadFrom keys rest (consulted ++ [target]) (found.update hits)

def batchRead (T : Topology S K V P) (keys : List K) : M S (Dict K V) :=
  if T.assembled then T.assembleMany keys none else batchReadFrom keys T.lookups [] Dict.empty

def existsFrom (key : K) : List (Target S K V V) → M S Bool
  | [] => pure false
  | target :: rest => do
    if ← target.existsKey key then return true else existsFrom key rest

/-- Whether `read` would return a record, without filling anything. -/
def existsKey (T : Topology S K V P) (key : K) : M S Bool :=
  if T.assembled then do return (← T.read key).isSome else existsFrom key T.lookups

/-- As `exists`, asking each target only about keys still missing. -/
def batchExists (T : Topology S K V P) (keys : List K) : M S (Finset K) :=
  if T.assembled then do return (← T.batchRead keys).keys.toFinset
  else T.lookups.foldlM (fun found target =>
    let missing := keys.filter fun k => k ∉ found
    if missing.isEmpty then pure found
    else do return found ∪ (← target.batchExists missing)) ∅

def statFrom (key : K) : List (Target S K V V) → M S (Option RecordStat)
  | [] => pure none
  | target :: rest => do
    match ← target.stat key with
    | some m => return some m
    | none => statFrom key rest

/-- The first target in lookup order with metadata for the key. -/
def stat (T : Topology S K V P) (key : K) : M S (Option RecordStat) := statFrom key T.lookups

def batchStat (T : Topology S K V P) (keys : List K) : M S (Dict K RecordStat) :=
  T.lookups.foldlM (fun found target =>
    let missing := keys.filter fun k => (found.get? k).isNone
    if missing.isEmpty then pure found
    else do return found.update (← target.batchStat missing)) Dict.empty

/-- What the fallbacks hold of the keys the authority lacks, in lookup order. -/
def readFallbacks (T : Topology S K V P) (keys : List K) (values : Dict K V) : M S (Dict K V) :=
  (T.lookups.filter fun t => t.role = .fallback).foldlM (fun values fallback =>
    let missing := keys.filter fun k => (values.get? k).isNone
    if missing.isEmpty then pure values
    else do return values.update (← fallback.batchRead missing)) values

/-- The records read, with the versions seen. -/
def versionRecords (keys : List K) (records : Dict K V) {R : Type} (seen : Dict K (Versioned R)) :
    Dict K (Versioned V) :=
  Dict.ofKeys keys fun k => some ⟨records.get? k, (KeyMap.seenAt seen k).version⟩

/-- The values among what was seen. -/
def seenValues {R : Type} (seen : Dict K (Versioned R)) : Dict K R := seen.collect fun _ v => v.value

/-- The records as a read sees them, versioned by their authority. A fallback's value
    is the record's where the authority misses. A cache is not asked. -/
def batchReadVersioned (T : Topology S K V P) (keys : List K) :
    M S (Dict K (Versioned V)) :=
  if T.assembled then do
    let authority ← T.requireAuthority "read_versioned"
    let seen ← authority.batchReadVersioned (Dict.unique keys)
    let records ← T.assembleMany (seenValues seen).keys (some (seenValues seen))
    return versionRecords (Dict.unique keys) records seen
  else do
    let whole ← T.requireWhole "read_versioned"
    let seen ← whole.batchReadVersioned (Dict.unique keys)
    let values ← T.readFallbacks (Dict.unique keys) (seenValues seen)
    return versionRecords (Dict.unique keys) values seen

end Topology

end Kvtsjl
