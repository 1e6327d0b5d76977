import Kvtsjl.RedisStore
import Kvtsjl.Concurrent

/-
  Updates on a Redis server with several clients.
  A conditional batch is many commands: an insert for each key of which nothing was seen, and for
  the others a `WATCH`, a read and an `EXEC` per chunk. Whatever other clients send in between, a
  key that is changed held the bytes the change was decided against (`Made`), and the keys a
  batch reports are those it changed (`Changed`). `updates_atomic` says so of every run of
  any number of clients.
-/

namespace Kvtsjl

open Assoc (Dict)
open Effects Prog

/-! ## Calls -/

inductive RedisCall (K V : Type) where
  | batchUpdate (keys : List K) (decide : Dict K (Option V) → Dict K (Decision V))
      (options : WriteOptions) (attempts : Int)
  | writeIfUnchanged (writes : Dict K (ConditionalWrite V)) (ttl : Option TtlPolicy)
  | set (key : K) (value : V) (options : WriteOptions)
  | delete (key : K)

inductive RedisAnswer (K V : Type) where
  | held (r : Except (KeyMap.Conflict K V) (Dict K V))
  | written (keys : Finset K)
  | done
  | deleted (found : Bool)

namespace RedisKvBackend

variable {K V α : Type} [DecidableEq K] [DecidableEq α] (b : RedisKvBackend K V α)

/-- One round's conditional batch. A round that changes nothing asks nothing. -/
def writeRound (writes : Dict K (ConditionalWrite V)) (ttl : Option TtlPolicy) :
    RedisScript K V α (Finset K) :=
  if writes.entries.isEmpty then pure ∅ else b.batchWriteIfUnchanged writes ttl

/-- The rounds of `batch_update`. -/
def updateRounds (decide : Dict K (Option V) → Dict K (Decision V)) (options : WriteOptions) :
    Nat → List K → Dict K V → RedisScript K V α (Except (KeyMap.Conflict K V) (Dict K V))
  | 0, pending, held => pure (.error ⟨pending, held⟩)
  | attempts + 1, pending, held => do
    let seen ← b.batchReadVersioned pending
    let decisions := decide (KeyMap.shown pending seen)
    let writes := KeyMap.roundWrites options.createdAt pending seen decisions
    let held := KeyMap.heldKept pending seen decisions held
    let written ← b.writeRound writes options.ttl
    let held := KeyMap.heldWritten writes written held
    match KeyMap.lostKeys writes written with
    | [] => pure (.ok held)
    | pending => updateRounds decide options attempts pending held

def batchUpdate (keys : List K) (decide : Dict K (Option V) → Dict K (Decision V))
    (options : WriteOptions) (attempts : Int) :
    RedisScript K V α (Except (KeyMap.Conflict K V) (Dict K V)) :=
  if attempts < 1 then
    Script.done (.error (.valueError ("attempts must be >= 1, got " ++ toString attempts)))
  else b.updateRounds decide options attempts.toNat (Dict.unique keys) Dict.empty

def callScript : RedisCall K V → RedisScript K V α (RedisAnswer K V)
  | .batchUpdate keys decide options attempts => do
    return .held (← b.batchUpdate keys decide options attempts)
  | .writeIfUnchanged writes ttl => do return .written (← b.batchWriteIfUnchanged writes ttl)
  | .set key value options => do
    let _ ← b.set key value options
    return .done
  | .delete key => do return .deleted (← b.delete key)

/-- With nobody else about, the rounds are those of any map with these reads and batches. -/
theorem updateRounds_run (m : KeyMap (RedisServer α) K V)
    (hread : ∀ ks, m.batchReadVersioned ks = (b.batchReadVersioned ks).run)
    (hwrite : ∀ ws ttl, m.batchWriteIfUnchanged ws ttl = (b.batchWriteIfUnchanged ws ttl).run)
    (decide : Dict K (Option V) → Dict K (Decision V)) (options : WriteOptions) (attempts : Nat)
    (pending : List K) (held : Dict K V) :
    (b.updateRounds decide options attempts pending held).run =
      m.batchUpdateRounds decide options attempts pending held := by
  induction attempts generalizing pending held with
  | zero => rfl
  | succ attempts ih =>
    unfold updateRounds KeyMap.batchUpdateRounds
    rw [Script.run_bind, hread]
    refine congrArg (_ >>= ·) (funext fun seen => ?_)
    rw [Script.run_bind]
    have hround : ∀ ws, (b.writeRound ws options.ttl).run = m.writeRound ws options.ttl := by
      intro ws
      unfold writeRound KeyMap.writeRound
      split
      · rfl
      · rw [hwrite]
    rw [hround]
    refine congrArg (_ >>= ·) (funext fun written => ?_)
    dsimp only
    generalize KeyMap.lostKeys _ written = lost
    cases lost with
    | nil => rfl
    | cons k lost => exact ih _ _

/-- `batch_update` of `KeyMap`, cut into commands. -/
theorem batchUpdate_run (m : KeyMap (RedisServer α) K V)
    (hread : ∀ ks, m.batchReadVersioned ks = (b.batchReadVersioned ks).run)
    (hwrite : ∀ ws ttl, m.batchWriteIfUnchanged ws ttl = (b.batchWriteIfUnchanged ws ttl).run)
    (keys : List K) (decide : Dict K (Option V) → Dict K (Decision V)) (options : WriteOptions)
    (attempts : Int) :
    (b.batchUpdate keys decide options attempts).run =
      m.batchUpdate keys decide options attempts := by
  unfold batchUpdate KeyMap.batchUpdate
  split
  · rfl
  · exact b.updateRounds_run m hread hwrite ..

/-! ## What a call may do to a key -/

/-- What stands under a physical key: a flat key, or a field of the collection's hash. -/
def heldAt (s : RedisServer α) (p : List α) : Option RedisBytes :=
  match b.binding.collection with
  | some name => (s.fields name).get? p
  | none => (s.strings.get? p).map (·.value)

/-- What stands for a key. -/
def held (s : RedisServer α) (k : K) : Option RedisBytes :=
  match b.physicalKeyBlob k with
  | .ok p => b.heldAt s p
  | .error _ => none

/-- What a write made now leaves: its value, unless its expiry is past. -/
def left (ttl : Option TtlPolicy) (now : Instant) (w : ConditionalWrite V) : Option RedisBytes :=
  match w.change with
  | .remove => none
  | .put value =>
    if ((expiryOf (b.resolveTtlSeconds ttl) w.createdAt).due now).any (· ≤ now) then none
    else some (b.kvset.valueSerde.serialize value)

end RedisKvBackend

/-- The action notes a write of the key. -/
def changes {K V α : Type} [DecidableEq K] [DecidableEq α] (k : K)
    (a : Action (RedisServer α) (RedisNote K V α)) : Bool :=
  a.notes.any fun
    | .changed key _ => key = k
    | _ => false

namespace RedisCall

variable {K V : Type} [DecidableEq K]

/-- The options under which the call makes conditional writes, if it makes any. -/
def ttl? : RedisCall K V → Option (Option TtlPolicy)
  | batchUpdate _ _ options _ => some options.ttl
  | writeIfUnchanged _ ttl => some ttl
  | set _ _ _ => none
  | delete _ => none

/-- The call makes that write of the key, where `raw` stands: as it was asked to, or as it decided
    from the value this is. -/
def Means (deserialize : RedisBytes → Option V) (q : RedisCall K V) (k : K)
    (raw : Option RedisBytes) (w : ConditionalWrite V) : Prop :=
  match q with
  | batchUpdate _ decide _ _ => ∃ shown, shown.get? k = some (raw.bind deserialize) ∧
      (decide shown).get? k = some (.change w.change)
  | writeIfUnchanged writes _ => writes.get? k = some w
  | _ => False

end RedisCall

/-- One action of a call: each key it notes held exactly what its write was decided against, and
    now holds what this leaves. It changes no other key. -/
structure Made {K V α : Type} [DecidableEq K] [DecidableEq α] (b : RedisKvBackend K V α)
    (q : RedisCall K V) (ttl : Option TtlPolicy) (a : Action (RedisServer α) (RedisNote K V α)) :
    Prop where
  changed : ∀ k w, .changed k w ∈ a.notes →
    (b.held a.before k).map Token.bytes = w.seen.version ∧
      b.held a.after k = b.left ttl a.before.clock w ∧
      q.Means b.kvset.valueSerde.deserialize k (b.held a.before k) w
  kept : ∀ k, (∀ w, .changed k w ∉ a.notes) → b.held a.after k = b.held a.before k

/-! ## One command of a conditional batch -/

namespace RedisKvBackend

variable {K V α : Type} [DecidableEq K] [DecidableEq α] (b : RedisKvBackend K V α)

/-- The name a connection watches for a physical key. -/
def nameOf (p : List α) : RedisName α :=
  match b.binding.collection with
  | some name => .hash name
  | none => .flat p

omit [DecidableEq K] in
theorem heldAt_same {s s' : RedisServer α} {p : List α} (h : s.SameAt s' (b.nameOf p)) :
    b.heldAt s' p = b.heldAt s p := by
  unfold nameOf at h
  unfold heldAt RedisServer.fields
  cases hb : b.binding.collection with
  | some name =>
    rw [hb] at h
    have hsame : s'.hashes.get? name = s.hashes.get? name := h
    dsimp only
    rw [hsame]
  | none =>
    rw [hb] at h
    have hsame : s'.strings.get? p = s.strings.get? p := h
    dsimp only
    rw [hsame]

omit [DecidableEq K] in
/-- A hash collection has no expiry to set. -/
theorem secs_of_hash {ttl : Option TtlPolicy} (h : b.requireExplicitTtlSupported ttl = .ok ())
    {name : String} (hb : b.binding.collection = some name) : b.resolveTtlSeconds ttl = none := by
  have huse : b.useHash = true := by
    unfold useHash
    rw [hb]
    rfl
  unfold requireExplicitTtlSupported at h
  cases ttl with
  | some policy =>
    rw [huse] at h
    cases h
  | none => exact b.unexpiring huse

/-- What one command may do to the records: to change that of `p` to `raw`, or nothing. -/
structure Stores (s s' : RedisServer α) (p : List α) (raw : Option RedisBytes) : Prop where
  later : RedisServer.Later s s'
  clock : s'.clock = s.clock
  held : b.heldAt s' p = raw
  others : ∀ q, q ≠ p → b.heldAt s' q = b.heldAt s q

omit [DecidableEq K] in
theorem Stores.refl (s : RedisServer α) (p : List α) : b.Stores s s p (b.heldAt s p) :=
  ⟨Std.Refl.refl s, rfl, rfl, fun _ _ => rfl⟩

omit [DecidableEq K] in
/-- `SET` of a flat key. -/
theorem stores_set (hb : b.binding.collection = none) (s : RedisServer α) (p : List α)
    (o : Option (RedisObject RedisBytes)) :
    b.Stores s (s.putString p o) p ((o.filter fun o => !o.lapsed s.clock).map (·.value)) := by
  refine ⟨s.later_putString p o, rfl, ?_, fun q hq => ?_⟩
  · unfold heldAt
    rw [hb]
    dsimp only
    rw [RedisServer.strings_putString, if_pos rfl]
  · unfold heldAt
    rw [hb]
    dsimp only
    rw [RedisServer.strings_putString, if_neg hq]

omit [DecidableEq K] in
/-- A field of the collection's hash. -/
theorem stores_field {name : String} (hb : b.binding.collection = some name) (s : RedisServer α)
    (p : List α) (fields : Dict (List α) RedisBytes) (raw : Option RedisBytes)
    (hp : fields.get? p = raw) (hq : ∀ q, q ≠ p → fields.get? q = (s.fields name).get? q) :
    b.Stores s (s.withFields name fields) p raw := by
  refine ⟨s.later_withFields name fields, rfl, ?_, fun q hne => ?_⟩
  · unfold heldAt
    rw [hb]
    dsimp only
    rw [RedisServer.fields_withFields, hp]
  · unfold heldAt
    rw [hb]
    dsimp only
    rw [RedisServer.fields_withFields, hq q hne]

omit [DecidableEq K] in
theorem left_put {ttl : Option TtlPolicy} {w : ConditionalWrite V} {value : V}
    (hc : w.change = .put value) (now : Instant) :
    b.left ttl now w = ((some ⟨b.kvset.valueSerde.serialize value,
      (expiryOf (b.resolveTtlSeconds ttl) w.createdAt).due now⟩ :
        Option (RedisObject RedisBytes)).filter fun o => !o.lapsed now).map (·.value) := by
  unfold left RedisObject.lapsed
  rw [hc, Option.filter_some]
  dsimp only
  split
  · next hdue => rw [if_neg (by simp [hdue])]; rfl
  · next hdue => rw [if_pos (by simpa using hdue)]; rfl

omit [DecidableEq K] in
theorem left_unexpiring {ttl : Option TtlPolicy} (hsecs : b.resolveTtlSeconds ttl = none)
    {w : ConditionalWrite V} {value : V} (hc : w.change = .put value) (now : Instant) :
    b.left ttl now w = some (b.kvset.valueSerde.serialize value) := by
  unfold left
  rw [hc, hsecs]
  rfl

omit [DecidableEq K] in
/-- What one write of an `EXEC` does: what its key now holds, where the server took it. -/
theorem queueWrite_spec {ttl : Option TtlPolicy} (httl : b.requireExplicitTtlSupported ttl = .ok ())
    (x : Swap K V α) (s : RedisServer α) :
    b.Stores s (b.queueWrite (b.resolveTtlSeconds ttl) x s).2 x.2
      (match (b.queueWrite (b.resolveTtlSeconds ttl) x s).1 with
        | .ok _ => b.left ttl s.clock x.1.2
        | .error _ => b.heldAt s x.2) := by
  unfold queueWrite
  cases hb : b.binding.collection with
  | none =>
    cases hc : x.1.2.change with
    | put value =>
      dsimp only
      rw [RedisServer.set_run, b.left_put hc]
      split
      · exact Stores.refl b s x.2
      · exact b.stores_set hb s x.2 _
    | remove =>
      have hleft : b.left ttl s.clock x.1.2 = none := by
        unfold left
        rw [hc]
      rw [hleft]
      dsimp only
      by_cases hheld : (s.strings.get? x.2).isSome = true
      · have hdel : RedisServer.del x.2 s = (.ok true, s.putString x.2 none) := by
          rw [RedisServer.del_run, if_pos hheld]
        rw [bind_ok hdel]
        exact b.stores_set hb s x.2 none
      · have hdel : RedisServer.del x.2 s = (.ok false, s) := by
          rw [RedisServer.del_run, if_neg hheld]
        rw [bind_ok hdel]
        have hnone : b.heldAt s x.2 = none := by
          unfold heldAt
          rw [hb]
          dsimp only
          rw [Option.not_isSome_iff_eq_none.mp hheld]
          rfl
        have hsame := Stores.refl b s x.2
        rw [hnone] at hsame
        exact hsame
  | some name =>
    cases hc : x.1.2.change with
    | put value =>
      rw [b.secs_of_hash httl hb, b.left_unexpiring (b.secs_of_hash httl hb) hc]
      show b.Stores s (s.withFields name ((s.fields name).set x.2
        (b.kvset.valueSerde.serialize value))) x.2 (some (b.kvset.valueSerde.serialize value))
      refine b.stores_field hb s x.2 _ _ ?_ fun q hq => ?_
      · rw [Dict.get?_set, if_pos rfl]
      · rw [Dict.get?_set, if_neg hq]
    | remove =>
      have hleft : b.left ttl s.clock x.1.2 = none := by
        unfold left
        rw [hc]
      rw [hleft]
      dsimp only
      by_cases hheld : ((s.fields name).get? x.2).isSome = true
      · have hdel : RedisServer.hdel name x.2 s =
            (.ok true, s.withFields name ((s.fields name).erase x.2)) := by
          rw [RedisServer.hdel_run, if_pos hheld]
        rw [bind_ok hdel]
        refine b.stores_field hb s x.2 _ _ ?_ fun q hq => ?_
        · rw [Dict.get?_erase, if_pos rfl]
          rfl
        · rw [Dict.get?_erase, if_neg hq]
      · have hdel : RedisServer.hdel name x.2 s = (.ok false, s) := by
          rw [RedisServer.hdel_run, if_neg hheld]
        rw [bind_ok hdel]
        have hnone : b.heldAt s x.2 = none := by
          unfold heldAt
          rw [hb]
          exact Option.not_isSome_iff_eq_none.mp hheld
        have hsame := Stores.refl b s x.2
        rw [hnone] at hsame
        exact hsame

omit [DecidableEq K] in
/-- What the writes of an `EXEC` do, each to its own key. -/
theorem queueWrites_spec {ttl : Option TtlPolicy} (httl : b.requireExplicitTtlSupported ttl = .ok ())
    {queued : List (Swap K V α)} (hn : (queued.map (·.2)).Nodup) (s : RedisServer α) :
    ∃ replies s', (queued.mapM fun x => attempt (b.queueWrite (b.resolveTtlSeconds ttl) x)) s =
        (.ok replies, s') ∧
      RedisServer.Later s s' ∧ s'.clock = s.clock ∧ replies.length = queued.length ∧
      (∀ q, q ∉ queued.map (·.2) → b.heldAt s' q = b.heldAt s q) ∧
      ∀ e ∈ queued.zip replies, b.heldAt s' e.1.2 = match e.2 with
        | .ok _ => b.left ttl s.clock e.1.1.2
        | .error _ => b.heldAt s e.1.2 := by
  induction queued generalizing s with
  | nil => exact ⟨[], s, rfl, Std.Refl.refl s, rfl, rfl, fun _ _ => rfl, by simp⟩
  | cons x queued ih =>
    rw [List.map_cons, List.nodup_cons] at hn
    have hone := b.queueWrite_spec httl x s
    obtain ⟨replies, s', hrun, hlater, hclock, hlen, hothers, hmade⟩ :=
      ih hn.2 (b.queueWrite (b.resolveTtlSeconds ttl) x s).2
    refine ⟨(b.queueWrite (b.resolveTtlSeconds ttl) x s).1 :: replies, s', ?_,
      IsTrans.trans _ _ _ hone.later hlater, hclock.trans hone.clock, by simp [hlen],
      fun q hq => ?_, fun e he => ?_⟩
    · rw [List.mapM_cons, bind_ok (attempt_apply _ s), bind_ok hrun]
      rfl
    · rw [List.map_cons, List.mem_cons, not_or] at hq
      rw [hothers q hq.2, hone.others q hq.1]
    · rw [List.zip_cons_cons] at he
      rcases List.mem_cons.mp he with rfl | he
      · rw [hothers x.2 hn.1]
        exact hone.held
      · have hne : e.1.2 ≠ x.2 := by
          intro heq
          refine hn.1 ?_
          rw [← heq]
          exact List.mem_map_of_mem (List.of_mem_zip he).1
        have hheld := hmade e he
        rw [hone.clock, hone.others e.1.2 hne] at hheld
        exact hheld

/-! ## Made, action by action -/

variable {b} {q : RedisCall K V} {ttl : Option TtlPolicy}

omit [DecidableEq K] in
theorem held_ok {k : K} {p : List α} (h : b.physicalKeyBlob k = .ok p) (s : RedisServer α) :
    b.held s k = b.heldAt s p := by
  unfold held
  rw [h]

/-- An action that changes no record. -/
theorem made_quiet {s s' : RedisServer α} (h : ∀ p, b.heldAt s' p = b.heldAt s p) :
    Made b q ttl ⟨s, [], s'⟩ := by
  refine ⟨fun k w hmem => absurd hmem List.not_mem_nil, fun k _ => ?_⟩
  unfold held
  cases b.physicalKeyBlob k with
  | error e => rfl
  | ok p => exact h p

/-- Actions that change the records of some keys, each as its write means. -/
theorem made_of {s s' : RedisServer α} {notes : List (RedisNote K V α)}
    (hchanged : ∀ k w, .changed k w ∈ notes → ∃ p, b.physicalKeyBlob k = .ok p ∧
      (b.heldAt s p).map Token.bytes = w.seen.version ∧ b.heldAt s' p = b.left ttl s.clock w ∧
      q.Means b.kvset.valueSerde.deserialize k (b.heldAt s p) w)
    (hkept : ∀ k p, b.physicalKeyBlob k = .ok p → (∀ w, .changed k w ∉ notes) →
      b.heldAt s' p = b.heldAt s p) : Made b q ttl ⟨s, notes, s'⟩ := by
  refine ⟨fun k w hmem => ?_, fun k hnone => ?_⟩
  · obtain ⟨p, hp, hseen, hleft, hmeans⟩ := hchanged k w hmem
    show (b.held s k).map Token.bytes = _ ∧ b.held s' k = _ ∧ RedisCall.Means _ q k (b.held s k) w
    rw [held_ok hp, held_ok hp]
    exact ⟨hseen, hleft, hmeans⟩
  · show b.held s' k = b.held s k
    cases hp : b.physicalKeyBlob k with
    | error e =>
      unfold held
      rw [hp]
    | ok p =>
      rw [held_ok hp, held_ok hp]
      exact hkept k p hp hnone

omit [DecidableEq K] in
theorem mem_changedNotes_changed {secs : Option Int} {p : List α} {key k : K}
    {w w' : ConditionalWrite V} :
    .changed k w' ∈ b.changedNotes secs p key w ↔ k = key ∧ w' = w := by
  unfold changedNotes
  split <;> simp

/-- The `EXEC` of a chunk, where what was read still stands. -/
theorem made_exec (httl : b.requireExplicitTtlSupported ttl = .ok ()) {queued : List (Swap K V α)}
    (hn : (queued.map (·.2)).Nodup) {s : RedisServer α}
    (hkeys : ∀ x ∈ queued, b.physicalKeyBlob x.1.1 = .ok x.2)
    (hseen : ∀ x ∈ queued, (b.heldAt s x.2).map Token.bytes = x.1.2.seen.version)
    (hmeans : ∀ x ∈ queued, q.Means b.kvset.valueSerde.deserialize x.1.1 (b.heldAt s x.2) x.1.2) :
    ∃ replies s', (queued.mapM fun x => attempt (b.queueWrite (b.resolveTtlSeconds ttl) x)) s =
        (.ok replies, s') ∧ RedisServer.Later s s' ∧ replies.length = queued.length ∧
      Made b q ttl ⟨s, b.execNotes (b.resolveTtlSeconds ttl) queued (some replies), s'⟩ := by
  obtain ⟨replies, s', hrun, hlater, -, hlen, hothers, hmade⟩ := b.queueWrites_spec httl hn s
  have hmem : ∀ k w, RedisNote.changed k w ∈
      b.execNotes (b.resolveTtlSeconds ttl) queued (some replies) ↔
        ∃ x, (x, .ok ()) ∈ queued.zip replies ∧ k = x.1.1 ∧ w = x.1.2 := by
    intro k w
    unfold execNotes
    dsimp only
    rw [List.mem_flatMap]
    constructor
    · rintro ⟨⟨x, r⟩, hx, hin⟩
      cases r with
      | error e => cases hin
      | ok u => exact ⟨x, hx, mem_changedNotes_changed.mp hin⟩
    · rintro ⟨x, hx, hkw⟩
      exact ⟨_, hx, mem_changedNotes_changed.mpr hkw⟩
  refine ⟨replies, s', hrun, hlater, hlen, made_of (fun k w hin => ?_) fun k p hp hnone => ?_⟩
  · obtain ⟨x, hx, rfl, rfl⟩ := (hmem k w).mp hin
    have hxq := (List.of_mem_zip hx).1
    exact ⟨x.2, hkeys x hxq, hseen x hxq, hmade _ hx, hmeans x hxq⟩
  · by_cases hin : p ∈ queued.map (·.2)
    · obtain ⟨x, hx, rfl⟩ := List.mem_map.mp hin
      have hkey : k = x.1.1 := b.physicalKeyBlob_injective hp (hkeys x hx)
      have hfst : x ∈ (queued.zip replies).map Prod.fst := by
        rw [List.map_fst_zip (by omega)]
        exact hx
      obtain ⟨⟨y, r⟩, hzip, rfl⟩ := List.mem_map.mp hfst
      have hheld := hmade _ hzip
      cases r with
      | ok u => exact absurd ((hmem k y.1.2).mpr ⟨y, hzip, hkey, rfl⟩) (hnone y.1.2)
      | error e => exact hheld
    · exact hothers p hin

theorem mem_zip_map {β γ δ : Type} {f : γ → δ} {xs : List β} {ys : List γ} {e : (β × γ) × δ}
    (h : e ∈ (xs.zip ys).zip (ys.map f)) : e.2 = f e.1.2 := by
  induction xs generalizing ys with
  | nil => simp at h
  | cons x xs ih =>
    cases ys with
    | nil => simp at h
    | cons y ys =>
      rw [List.zip_cons_cons, List.map_cons, List.zip_cons_cons] at h
      rcases List.mem_cons.mp h with rfl | h
      · rfl
      · exact ih h

omit [DecidableEq K] in
/-- The physical keys of different keys are different. -/
theorem nodup_physical {chunk : List (K × ConditionalWrite V)} (hn : (chunk.map (·.1)).Nodup)
    {ps : List (List α)} (hps : chunk.mapM (fun e => b.physicalKeyBlob e.1) = .ok ps) :
    ps.Nodup := by
  refine nodup_of_mapM hps ?_
  have hkeys : chunk.Pairwise fun e e' => e.1 ≠ e'.1 := List.pairwise_map.mp hn
  exact hkeys.imp fun hne p hp hp' => hne (b.physicalKeyBlob_injective hp hp')

omit [DecidableEq K] [DecidableEq α] in
/-- The keys of a chunk are different. -/
theorem nodup_against {writes : Dict K (ConditionalWrite V)} {size : Nat}
    {chunks : List (List (K × ConditionalWrite V))}
    (h : chunkSequence (against writes) size = .ok chunks) {chunk : List (K × ConditionalWrite V)}
    (hc : chunk ∈ chunks) : (chunk.map (·.1)).Nodup := by
  have hsub : chunk.Sublist writes.entries :=
    (sublist_of_chunkSequence h hc).trans List.filter_sublist
  exact (hsub.map (·.1)).nodup writes.nodup

/-! ## Upheld, whoever acts in between -/

theorem upholds_command {β : Type} {m : M (RedisServer α) β} {Q : β → RedisServer α → Prop}
    {s : RedisServer α} (h : ∀ s', RedisServer.Later s s' → ∃ x, m s' = (.ok x, s') ∧ Q x s') :
    (command m : RedisScript K V α β).Upholds RedisServer.Later (Made b q ttl) Q s := by
  refine Script.Upholds.one fun s' hs => ?_
  obtain ⟨x, hm, hx⟩ := h s' hs
  exact ⟨x, s', hm, Std.Refl.refl s', made_quiet fun _ => rfl, hx⟩

theorem upholds_readRaw (ps : List (List α)) (s : RedisServer α) :
    (b.readRaw ps : RedisScript K V α _).Upholds RedisServer.Later (Made b q ttl)
      (fun raws s' => raws = ps.map (b.heldAt s')) s := by
  unfold readRaw
  cases hb : b.binding.collection with
  | some name =>
    refine upholds_command fun s' _ => ⟨_, rfl, ?_⟩
    refine List.map_congr_left fun p _ => ?_
    unfold heldAt
    rw [hb]
  | none =>
    refine upholds_command fun s' _ => ⟨_, rfl, ?_⟩
    refine List.map_congr_left fun p _ => ?_
    unfold heldAt
    rw [hb]

omit [DecidableEq K] in
/-- A step that may raise before any command. -/
theorem upholds_checked {β γ : Type} {r : Except Exn β} {f : β → RedisScript K V α γ}
    {Q : γ → RedisServer α → Prop} {G : Action (RedisServer α) (RedisNote K V α) → Prop}
    {s : RedisServer α} (hf : ∀ x, r = .ok x → (f x).Upholds RedisServer.Later G Q s) :
    (Script.done r >>= f).Upholds RedisServer.Later G Q s := by
  cases r with
  | error e => trivial
  | ok x => exact hf x rfl

theorem upholds_swapIfUnchanged (httl : b.requireExplicitTtlSupported ttl = .ok ())
    {chunk : List (K × ConditionalWrite V)} (hn : (chunk.map (·.1)).Nodup)
    (hmeans : ∀ e ∈ chunk, ∀ raw : Option RedisBytes, raw.map Token.bytes = e.2.seen.version →
      q.Means b.kvset.valueSerde.deserialize e.1 raw e.2) (written : Finset K) (s : RedisServer α) :
    (b.swapIfUnchanged (b.resolveTtlSeconds ttl) written chunk).Upholds RedisServer.Later
      (Made b q ttl) (fun _ _ => True) s := by
  unfold swapIfUnchanged
  refine upholds_checked fun ps hps => ?_
  have hwatch : ∀ s1 s2 s3 : RedisServer α, RedisServer.Later s1 s2 → RedisServer.Later s2 s3 →
      s3.dirty ((match b.binding.collection with
        | some name => [RedisName.hash name]
        | none => ps.map .flat).map fun n => (n, s1.touched n)) = false →
      ∀ p ∈ ps, b.heldAt s3 p = b.heldAt s2 p := by
    intro s1 s2 s3 h12 h23 hclean p hp
    refine b.heldAt_same ((h23 (b.nameOf p)).2 ?_)
    have hnamed : b.nameOf p ∈ (match b.binding.collection with
        | some name => [RedisName.hash name]
        | none => ps.map .flat) := by
      unfold nameOf
      cases b.binding.collection with
      | some name => exact List.mem_singleton.mpr rfl
      | none => exact List.mem_map_of_mem hp
    have hsame : s3.touched (b.nameOf p) = s1.touched (b.nameOf p) := by
      have hall := List.any_eq_false.mp hclean _ (List.mem_map_of_mem hnamed)
      simpa using hall
    have h1 := (h12 (b.nameOf p)).1
    have h2 := (h23 (b.nameOf p)).1
    omega
  have hzip : ∀ e ∈ chunk.zip ps, e.1 ∈ chunk ∧ e.2 ∈ ps ∧ b.physicalKeyBlob e.1.1 = .ok e.2 :=
    fun e he => ⟨(List.of_mem_zip he).1, (List.of_mem_zip he).2, zip_of_mapM hps he⟩
  refine Script.Upholds.bind (Q := fun watched s1 => watched = (match b.binding.collection with
        | some name => [RedisName.hash name]
        | none => ps.map .flat).map fun n => (n, s1.touched n))
    (upholds_command fun s1 _ => ⟨_, rfl, rfl⟩) fun watched s1 _ hwatched => ?_
  refine (upholds_readRaw ps s1).after.bind fun current s2 _ hread => ?_
  dsimp only
  split
  · exact Script.Upholds.pure trivial
  · refine Script.Upholds.bind (Q := fun _ _ => True) (Script.Upholds.one fun s3 h23 => ?_)
      fun replies s4 _ _ => ?_
    · rw [RedisServer.exec_run]
      cases hdirty : s3.dirty watched with
      | true => exact ⟨none, s3, rfl, Std.Refl.refl s3, made_quiet fun _ => rfl, trivial⟩
      | false =>
        rw [if_neg (by simp)]
        rw [hwatched] at hdirty
        have hstill := hwatch s1 s2 s3 hread.1 h23 hdirty
        have hqueued : ∀ x ∈ unchanged (chunk.zip ps) current, x ∈ chunk.zip ps ∧
            (b.heldAt s3 x.2).map Token.bytes = x.1.2.seen.version := by
          intro x hx
          obtain ⟨raw, hraw, hversion⟩ := mem_unchanged hx
          have hx' := (List.of_mem_zip hraw).1
          refine ⟨hx', ?_⟩
          rw [hread.2] at hraw
          have hat : raw = b.heldAt s2 x.2 := mem_zip_map hraw
          rw [hstill x.2 (hzip x hx').2.1, ← hversion, hat]
        have hnodup : ((unchanged (chunk.zip ps) current).map (·.2)).Nodup := by
          have hsnd : (chunk.zip ps).map (·.2) = ps :=
            List.map_snd_zip (Nat.le_of_eq (forall₂_of_mapM hps).length_eq.symm)
          have hps' := nodup_physical hn hps
          rw [← hsnd] at hps'
          exact ((unchanged_sublist _ current).map (·.2)).nodup hps'
        obtain ⟨replies, s4, hrun, hlater, -, hmade⟩ := made_exec (q := q) httl hnodup
          (fun x hx => (hzip x (hqueued x hx).1).2.2) (fun x hx => (hqueued x hx).2)
          fun x hx => hmeans x.1 (hzip x (hqueued x hx).1).1 _ (hqueued x hx).2
        exact ⟨some replies, s4, by rw [map_apply, hrun]; rfl, hlater, hmade, trivial⟩
    · cases replies with
      | none => exact Script.Upholds.pure trivial
      | some replies => exact upholds_checked fun _ _ => Script.Upholds.pure trivial

/-- One insert of a pipeline. -/
theorem made_insert (httl : b.requireExplicitTtlSupported ttl = .ok ()) (row : List α × Insert K V)
    (hkey : b.physicalKeyBlob row.2.key = .ok row.1) (hseen : row.2.write.seen.version = none)
    (hput : row.2.write.change = .put row.2.value)
    (hmeans : q.Means b.kvset.valueSerde.deserialize row.2.key none row.2.write) (s : RedisServer α) :
    RedisServer.Later s (b.insertCommand (b.resolveTtlSeconds ttl) row s).2 ∧
      Made b q ttl ⟨s, okNotes (b.insertNotes (b.resolveTtlSeconds ttl) row)
        (b.insertCommand (b.resolveTtlSeconds ttl) row s).1,
        (b.insertCommand (b.resolveTtlSeconds ttl) row s).2⟩ := by
  have hmade : ∀ s', b.heldAt s row.1 = none →
      b.Stores s s' row.1 (b.left ttl s.clock row.2.write) →
      RedisServer.Later s s' ∧ Made b q ttl ⟨s, b.changedNotes (b.resolveTtlSeconds ttl) row.1
        row.2.key row.2.write, s'⟩ := by
    intro s' hnone hstores
    refine ⟨hstores.later, made_of (fun k w hin => ?_) fun k p hp hin => ?_⟩
    · obtain ⟨rfl, rfl⟩ := mem_changedNotes_changed.mp hin
      refine ⟨row.1, hkey, ?_, hstores.held, ?_⟩
      · rw [hnone, hseen]
        rfl
      · rw [hnone]
        exact hmeans
    · refine hstores.others p fun hpp => ?_
      have hk : k = row.2.key := b.physicalKeyBlob_injective (by rw [← hpp]; exact hp) hkey
      exact hin row.2.write (mem_changedNotes_changed.mpr ⟨hk, rfl⟩)
  have hquiet : RedisServer.Later s s ∧ Made b q ttl ⟨s, [], s⟩ :=
    ⟨Std.Refl.refl s, made_quiet fun _ => rfl⟩
  cases hb : b.binding.collection with
  | none =>
    have hcommand : b.insertCommand (b.resolveTtlSeconds ttl) row s = RedisServer.setNx row.1
        (b.kvset.valueSerde.serialize row.2.value)
        (expiryOf (b.resolveTtlSeconds ttl) row.2.write.createdAt) s := by
      unfold insertCommand
      rw [hb]
    rw [hcommand, RedisServer.setNx_run]
    split
    · exact hquiet
    · split
      · exact hquiet
      · next hheld =>
        have hnone : b.heldAt s row.1 = none := by
          unfold heldAt
          rw [hb]
          dsimp only
          rw [Option.not_isSome_iff_eq_none.mp hheld]
          rfl
        have hstores := b.stores_set hb s row.1 (some ⟨b.kvset.valueSerde.serialize row.2.value,
          (expiryOf (b.resolveTtlSeconds ttl) row.2.write.createdAt).due s.clock⟩)
        rw [← b.left_put hput] at hstores
        exact hmade _ hnone hstores
  | some name =>
    have hcommand : b.insertCommand (b.resolveTtlSeconds ttl) row s =
        RedisServer.hsetnx name row.1 (b.kvset.valueSerde.serialize row.2.value) s := by
      unfold insertCommand
      rw [hb]
    rw [hcommand, RedisServer.hsetnx_run]
    split
    · exact hquiet
    · next hheld =>
      have hnone : b.heldAt s row.1 = none := by
        unfold heldAt
        rw [hb]
        exact Option.not_isSome_iff_eq_none.mp hheld
      refine hmade _ hnone ?_
      rw [b.left_unexpiring (b.secs_of_hash httl hb) hput]
      refine b.stores_field hb s row.1 _ _ ?_ fun p hp => ?_
      · rw [Dict.get?_set, if_pos rfl]
      · rw [Dict.get?_set, if_neg hp]

theorem upholds_insertIfAbsent (httl : b.requireExplicitTtlSupported ttl = .ok ())
    {chunk : List (Insert K V)} (hinsert : ∀ e ∈ chunk, e.write.seen.version = none ∧
      e.write.change = .put e.value ∧
      q.Means b.kvset.valueSerde.deserialize e.key none e.write) (written : Finset K)
    (s : RedisServer α) :
    (b.insertIfAbsent (b.resolveTtlSeconds ttl) written chunk).Upholds RedisServer.Later
      (Made b q ttl) (fun _ _ => True) s := by
  unfold insertIfAbsent
  refine upholds_checked fun rows hrows => ?_
  refine Script.Upholds.bind (Q := fun _ _ => True) ?_ fun wrote s1 _ _ => ?_
  · unfold pipeline
    refine Script.Upholds.bind (Q := fun _ _ => True) ?_ fun replies s1 _ _ => ?_
    · refine Script.Upholds.foldlM (fun replies row hmem s1 _ => ?_) trivial
      obtain ⟨e, he, hp⟩ := mem_of_mapM hrows hmem
      obtain ⟨hseen, hput, hmeans⟩ := hinsert e he
      cases hkey : b.physicalKeyBlob e.key with
      | error x =>
        rw [hkey] at hp
        cases hp
      | ok p =>
        rw [hkey] at hp
        cases hp
        refine Script.Upholds.bind (Q := fun _ _ => True) ?_ fun _ _ _ _ => Script.Upholds.pure trivial
        refine Script.Upholds.one fun s2 _ => ?_
        obtain ⟨hlater, hmade⟩ := made_insert httl (p, e) hkey hseen hput hmeans s2
        exact ⟨_, _, rfl, hlater, hmade, trivial⟩
    · exact Script.Upholds.ofExcept fun _ _ => trivial
  · refine Script.Upholds.bind (Q := fun _ _ => True) ?_ fun _ _ _ _ => Script.Upholds.pure trivial
    unfold expireInserted
    cases hb : b.binding.collection with
    | none => exact Script.Upholds.pure trivial
    | some name =>
      dsimp only
      split
      · exact Script.Upholds.pure trivial
      · rw [b.secs_of_hash httl hb]
        exact Script.Upholds.pure trivial

/-- The writes a call means, each against what it was decided from. -/
theorem upholds_batchWriteIfUnchanged (writes : Dict K (ConditionalWrite V))
    (hmeans : ∀ k w, writes.get? k = some w → ∀ raw : Option RedisBytes,
      raw.map Token.bytes = w.seen.version → q.Means b.kvset.valueSerde.deserialize k raw w)
    (s : RedisServer α) :
    (b.batchWriteIfUnchanged writes ttl).Upholds RedisServer.Later (Made b q ttl)
      (fun _ _ => True) s := by
  unfold batchWriteIfUnchanged
  refine upholds_checked fun u httl => upholds_checked fun _ _ => ?_
  cases u
  refine upholds_checked fun insertChunks hinserts => upholds_checked fun againstChunks hagainst => ?_
  refine Script.Upholds.bind (Q := fun _ _ => True) ?_ fun written s1 _ _ => ?_
  · refine Script.Upholds.foldlM (fun written chunk hchunk s1 _ => ?_) trivial
    refine upholds_insertIfAbsent httl (fun e he => ?_) written s1
    obtain ⟨hget, hseen, hput⟩ := mem_inserts (mem_of_chunkSequence hinserts hchunk he)
    exact ⟨hseen, hput, hmeans e.key e.write hget none (by rw [hseen]; rfl)⟩
  · refine Script.Upholds.foldlM (fun written chunk hchunk s1 _ => ?_) trivial
    refine upholds_swapIfUnchanged httl (nodup_against hagainst hchunk) (fun e he raw hraw => ?_)
      written s1
    have hmem := mem_of_chunkSequence hagainst hchunk he
    exact hmeans e.1 e.2 (Dict.mem_entries.mp (List.mem_filter.mp hmem).1) raw hraw

/-! ## Upheld by the rounds of an update -/

omit [DecidableEq K] in
theorem versioned_eq {raw : Option RedisBytes} {v : Versioned V} (h : b.versioned raw = .ok v) :
    v = ⟨raw.bind b.kvset.valueSerde.deserialize, raw.map Token.bytes⟩ := by
  unfold versioned deserializeValue at h
  cases raw with
  | none =>
    cases h
    rfl
  | some raw =>
    dsimp only at h
    cases hd : b.kvset.valueSerde.deserialize raw with
    | none =>
      rw [hd] at h
      cases h
    | some value =>
      rw [hd] at h
      cases h
      rw [Option.bind_some, hd]
      rfl

/-- What a dictionary of read values shows of each key is what some bytes stand for. -/
def Shows (b : RedisKvBackend K V α) (seen : Dict K (Versioned V)) : Prop :=
  ∀ k, ∃ raw : Option RedisBytes,
    KeyMap.seenAt seen k = ⟨raw.bind b.kvset.valueSerde.deserialize, raw.map Token.bytes⟩

theorem shows_empty : b.Shows Dict.empty := fun _ => ⟨none, rfl⟩

theorem shows_foldlM {rows : List (K × Option RedisBytes)} {seen seen' : Dict K (Versioned V)}
    (h : b.Shows seen) (hfold : rows.foldlM b.addVersioned seen = .ok seen') : b.Shows seen' := by
  induction rows generalizing seen with
  | nil =>
    cases hfold
    exact h
  | cons row rows ih =>
    rw [List.foldlM_cons] at hfold
    unfold addVersioned at hfold
    cases hv : b.versioned row.2 with
    | error e =>
      rw [hv] at hfold
      cases hfold
    | ok v =>
      rw [hv] at hfold
      have hset : b.Shows (seen.set row.1 v) := by
        intro k
        unfold KeyMap.seenAt
        rw [Dict.get?_set]
        split
        · exact ⟨row.2, versioned_eq hv⟩
        · exact h k
      exact ih hset hfold

theorem upholds_batchReadVersioned (ks : List K) (s : RedisServer α) :
    (b.batchReadVersioned ks).Upholds RedisServer.Later (Made b q ttl) (fun seen _ => b.Shows seen)
      s := by
  unfold batchReadVersioned
  refine upholds_checked fun chunks _ => ?_
  refine Script.Upholds.foldlM (fun out chunk _ s1 hout => ?_) shows_empty
  unfold readChunk
  refine upholds_checked fun ps _ => ?_
  refine (upholds_readRaw ps s1).bind fun raws s2 _ _ => ?_
  exact Script.Upholds.ofExcept fun out' hfold => shows_foldlM hout hfold

/-- What a round writes it decided from the value that stands wherever its write is made. -/
theorem upholds_writeRound {decide : Dict K (Option V) → Dict K (Decision V)}
    (hq : ∀ k raw w, (∃ shown, shown.get? k = some (raw.bind b.kvset.valueSerde.deserialize) ∧
      (decide shown).get? k = some (.change w.change)) →
      q.Means b.kvset.valueSerde.deserialize k raw w)
    (createdAt : Option Instant) (pending : List K) {seen : Dict K (Versioned V)}
    (hseen : b.Shows seen) (s : RedisServer α) :
    (b.writeRound (KeyMap.roundWrites createdAt pending seen
      (decide (KeyMap.shown pending seen))) ttl).Upholds RedisServer.Later (Made b q ttl)
      (fun _ _ => True) s := by
  unfold writeRound
  split
  · exact Script.Upholds.pure trivial
  · refine upholds_batchWriteIfUnchanged _ (fun k w hw raw hraw => ?_) s
    obtain ⟨hp, hwseen, hdec⟩ := Versioning.get?_roundWrites hw
    obtain ⟨seenRaw, hat⟩ := hseen k
    rw [hwseen, hat] at hraw
    have hsame : raw = seenRaw := Option.map_injective (fun _ _ h => Token.bytes.inj h) hraw
    refine hq k raw w ⟨KeyMap.shown pending seen, ?_, hdec⟩
    unfold KeyMap.shown
    rw [Dict.get?_ofKeys, if_pos hp, hat, hsame]

theorem upholds_updateRounds (decide : Dict K (Option V) → Dict K (Decision V))
    (options : WriteOptions) (hq : ∀ k raw w,
      (∃ shown, shown.get? k = some (raw.bind b.kvset.valueSerde.deserialize) ∧
        (decide shown).get? k = some (.change w.change)) →
      q.Means b.kvset.valueSerde.deserialize k raw w)
    (attempts : Nat) (pending : List K) (held : Dict K V) (s : RedisServer α) :
    (b.updateRounds decide options attempts pending held).Upholds RedisServer.Later
      (Made b q options.ttl) (fun _ _ => True) s := by
  induction attempts generalizing pending held s with
  | zero => exact Script.Upholds.pure trivial
  | succ attempts ih =>
    unfold updateRounds
    refine (upholds_batchReadVersioned pending s).bind fun seen s1 _ hseen => ?_
    refine (upholds_writeRound hq options.createdAt pending hseen s1).bind fun written s2 _ _ => ?_
    dsimp only
    generalize KeyMap.lostKeys _ written = lost
    cases lost with
    | nil => exact Script.Upholds.pure trivial
    | cons k lost => exact ih (k :: lost) _ s2

/-! ## Upheld by a call -/

omit [DecidableEq K] in
/-- A command that moves the server on. -/
theorem upholds_moves {β : Type} {m : M (RedisServer α) β} {note : β → List (RedisNote K V α)}
    (h : Moves RedisServer.Later m) (s : RedisServer α) :
    (Script.one m note).Upholds RedisServer.Later (fun _ => True) (fun _ _ => True) s := by
  intro s' _
  have hs := h s'
  rcases hm : m s' with ⟨e | x, s''⟩ <;> rw [hm] at hs
  · exact ⟨hs, trivial⟩
  · exact ⟨hs, trivial, trivial⟩

theorem moves_flat (c : FlatCommand α) : Moves RedisServer.Later c.run := by
  cases c with
  | set p raw expiry =>
    intro s
    show RedisServer.Later s (RedisServer.set p raw expiry s).2
    rw [RedisServer.set_run]
    split
    · exact Std.Refl.refl s
    · exact s.later_putString p _
  | setBare p raw seconds =>
    intro s
    show RedisServer.Later s (RedisServer.set p raw .never s).2
    rw [RedisServer.set_run]
    split
    · exact Std.Refl.refl s
    · exact s.later_putString p _
  | expireat p seconds =>
    refine Moves.bind (fun s => ?_) fun _ => Moves.pure _
    unfold RedisServer.expireat
    rw [bind_apply, read_apply]
    dsimp only
    cases s.strings.get? p with
    | none => exact Std.Refl.refl s
    | some o => exact s.later_putString p _

theorem moves_expire (name : String) (seconds : Int) :
    Moves RedisServer.Later (RedisServer.expire name seconds : M (RedisServer α) Bool) := by
  intro s
  unfold RedisServer.expire
  rw [bind_apply, read_apply]
  dsimp only
  cases s.hashes.get? name with
  | none => exact Std.Refl.refl s
  | some o => exact s.later_putHash name _

theorem moves_del (p : List α) :
    Moves RedisServer.Later (RedisServer.del p : M (RedisServer α) Bool) := by
  intro s
  rw [RedisServer.del_run]
  split
  · exact s.later_putString p none
  · exact Std.Refl.refl s

theorem moves_hdel (name : String) (p : List α) :
    Moves RedisServer.Later (RedisServer.hdel name p : M (RedisServer α) Bool) := by
  intro s
  rw [RedisServer.hdel_run]
  split
  · exact s.later_withFields name _
  · exact Std.Refl.refl s

omit [DecidableEq K] in
theorem upholds_set (key : K) (value : V) (options : WriteOptions) (s : RedisServer α) :
    (b.set key value options).Upholds RedisServer.Later (fun _ => True) (fun _ _ => True) s := by
  unfold set
  refine upholds_checked fun p _ => upholds_checked fun _ _ => upholds_checked fun _ _ => ?_
  cases b.binding.collection with
  | none => exact Script.Upholds.foldlM (fun _ c _ s1 _ => upholds_moves (moves_flat c) s1) trivial
  | some name =>
    dsimp only
    refine (upholds_moves (fun s => s.later_withFields name _) s).bind fun _ s1 _ _ => ?_
    unfold expireHash
    split
    · exact Script.Upholds.pure trivial
    · refine (upholds_moves (moves_expire name _) s1).bind fun _ _ _ _ => ?_
      exact Script.Upholds.pure trivial

omit [DecidableEq K] in
theorem upholds_delete (key : K) (s : RedisServer α) :
    (b.delete key).Upholds RedisServer.Later (fun _ => True) (fun _ _ => True) s := by
  unfold delete
  refine upholds_checked fun p _ => ?_
  cases b.binding.collection with
  | none => exact upholds_moves (moves_del p) s
  | some name => exact upholds_moves (moves_hdel name p) s

/-- What a call that makes conditional writes guarantees of each of its actions. -/
def Guarantees (b : RedisKvBackend K V α) (q : RedisCall K V)
    (_ : List (Action (RedisServer α) (RedisNote K V α)))
    (a : Action (RedisServer α) (RedisNote K V α)) : Prop :=
  ∀ ttl, q.ttl? = some ttl → Made b q ttl a

theorem upholds_call (q : RedisCall K V) (s : RedisServer α) :
    (b.callScript q).Upholds RedisServer.Later (b.Guarantees q []) (fun _ _ => True) s := by
  unfold callScript
  cases q with
  | batchUpdate keys decide options attempts =>
    refine Script.Upholds.bind (Q := fun _ _ => True) ?_ fun _ _ _ _ => Script.Upholds.pure trivial
    unfold batchUpdate
    split
    · trivial
    · have h := upholds_updateRounds (b := b) (q := .batchUpdate keys decide options attempts)
        decide options (fun k raw w h => h) attempts.toNat (Dict.unique keys) Dict.empty s
      refine h.guarantee fun a ha ttl httl => ?_
      cases httl
      exact ha
  | writeIfUnchanged writes ttl =>
    refine Script.Upholds.bind (Q := fun _ _ => True) ?_ fun _ _ _ _ => Script.Upholds.pure trivial
    have h : (b.batchWriteIfUnchanged writes ttl).Upholds RedisServer.Later
        (Made b (.writeIfUnchanged writes ttl) ttl) (fun _ _ => True) s :=
      upholds_batchWriteIfUnchanged (b := b) (q := .writeIfUnchanged writes ttl) writes
        (fun k w hw _ _ => hw) s
    refine h.guarantee fun a ha ttl' httl => ?_
    cases httl
    exact ha
  | set key value options =>
    refine Script.Upholds.bind (Q := fun _ _ => True) ?_ fun _ _ _ _ => Script.Upholds.pure trivial
    exact (b.upholds_set key value options s).guarantee fun a _ ttl httl => by cases httl
  | delete key =>
    refine Script.Upholds.bind (Q := fun _ _ => True) ?_ fun _ _ _ _ => Script.Upholds.pure trivial
    exact (b.upholds_delete key s).guarantee fun a _ ttl httl => by cases httl

/-! ## What a batch reports -/

/-- How many of the actions changed the key. -/
def changedBy (k : K) (acts : List (Action (RedisServer α) (RedisNote K V α))) : Nat :=
  acts.countP (changes k)

theorem changedBy_append (k : K) (acts more : List (Action (RedisServer α) (RedisNote K V α))) :
    changedBy k (acts ++ more) = changedBy k acts + changedBy k more := List.countP_append

/-- The actions changed each key of `won` exactly once, and no other. -/
def Changed (won : Finset K) (acts : List (Action (RedisServer α) (RedisNote K V α))) : Prop :=
  ∀ k, changedBy k acts = if k ∈ won then 1 else 0

theorem Changed.nil : Changed ∅ ([] : List (Action (RedisServer α) (RedisNote K V α))) :=
  fun k => by simp [changedBy]

theorem Changed.append {won won' : Finset K} {acts more : List (Action (RedisServer α) (RedisNote K V α))}
    (h : Changed won acts) (h' : Changed won' more) (hd : Disjoint won won') :
    Changed (won ∪ won') (acts ++ more) := by
  intro k
  rw [changedBy_append, h k, h' k]
  have hk : ¬ (k ∈ won ∧ k ∈ won') := fun ⟨hl, hr⟩ => Finset.disjoint_left.mp hd hl hr
  by_cases hl : k ∈ won
  · have hr : k ∉ won' := fun hr => hk ⟨hl, hr⟩
    rw [if_pos hl, if_neg hr, if_pos (Finset.mem_union_left _ hl)]
  · by_cases hr : k ∈ won'
    · rw [if_neg hl, if_pos hr, if_pos (Finset.mem_union_right _ hr)]
    · rw [if_neg hl, if_neg hr, if_neg (by simp [hl, hr])]

/-- A script that adds to what a batch has written so far what it changed itself: some of `keys`. -/
def Adds (keys : List K) (written : Finset K)
    (acts : List (Action (RedisServer α) (RedisNote K V α))) (res : Except Exn (Finset K)) : Prop :=
  ∀ all, res = .ok all → ∃ won, all = written ∪ won ∧ (∀ k ∈ won, k ∈ keys) ∧ Changed won acts

theorem Adds.error (keys : List K) (written : Finset K)
    (acts : List (Action (RedisServer α) (RedisNote K V α))) (e : Exn) :
    Adds keys written acts (.error e) := fun _ h => by cases h

theorem Adds.nothing {keys : List K} {written : Finset K}
    {acts : List (Action (RedisServer α) (RedisNote K V α))} (h : Changed ∅ acts) :
    Adds keys written acts (.ok written) := by
  intro all hall
  cases hall
  exact ⟨∅, (Finset.union_empty _).symm, by simp, h⟩

/-- Scripts one after the other, about different keys. -/
theorem Adds.append {keys keys' : List K} {written all : Finset K}
    {acts more : List (Action (RedisServer α) (RedisNote K V α))} {res : Except Exn (Finset K)}
    (h : Adds keys written acts (.ok all)) (h' : Adds keys' all more res)
    (hd : ∀ k ∈ keys, k ∉ keys') : Adds (keys ++ keys') written (acts ++ more) res := by
  intro all' hall'
  obtain ⟨won, rfl, hsub, hwon⟩ := h all rfl
  obtain ⟨won', rfl, hsub', hwon'⟩ := h' all' hall'
  refine ⟨won ∪ won', Finset.union_assoc .., fun k hk => ?_, hwon.append hwon' ?_⟩
  · rcases Finset.mem_union.mp hk with hk | hk
    · exact List.mem_append_left _ (hsub k hk)
    · exact List.mem_append_right _ (hsub' k hk)
  · exact Finset.disjoint_left.mpr fun k hk hk' => hd k (hsub k hk) (hsub' k hk')

/-- Chunk by chunk, where the keys of all the chunks are different. -/
theorem adds_foldlM {γ : Type} {key : γ → K} {f : Finset K → List γ → RedisScript K V α (Finset K)}
    (hf : ∀ written chunk, (chunk.map key).Nodup →
      (f written chunk).Goes (Adds (chunk.map key) written)) {chunks : List (List γ)}
    (hn : (chunks.flatten.map key).Nodup) (written : Finset K) :
    (chunks.foldlM f written).Goes (Adds (chunks.flatten.map key) written) := by
  induction chunks generalizing written with
  | nil => exact Script.Goes.done (Adds.nothing Changed.nil)
  | cons chunk chunks ih =>
    rw [List.flatten_cons, List.map_append] at hn ⊢
    obtain ⟨hchunk, hrest, hapart⟩ := List.nodup_append.mp hn
    rw [List.foldlM_cons]
    refine (hf written chunk hchunk).bind (fun acts all h => ?_) fun acts e _ => Adds.error _ _ _ e
    refine (ih hrest all).weaken fun more res h' => ?_
    exact h.append h' fun k hk hk' => hapart k hk k hk' rfl

omit [DecidableEq K] in
/-- A pipeline notes what each of its commands notes, by its own reply. -/
theorem goes_pipeline {β γ : Type} (queued : List γ) (m : γ → M (RedisServer α) β)
    (note : γ → β → List (RedisNote K V α)) :
    (pipeline queued m note).Goes fun acts res => ∃ replies : List (Except Exn β),
      replies.length = queued.length ∧ res = replies.mapM id ∧
        acts.map Action.notes = (queued.zip replies).map fun e => okNotes (note e.1) e.2 := by
  have hqueue : ∀ before : List (Except Exn β), (queued.foldlM (fun replies c => do
      let reply ← Script.one (attempt (m c)) (okNotes (note c))
      return replies ++ [reply]) before : RedisScript K V α _).Goes fun acts res =>
        ∃ replies : List (Except Exn β), replies.length = queued.length ∧
          res = .ok (before ++ replies) ∧
          acts.map Action.notes = (queued.zip replies).map fun e => okNotes (note e.1) e.2 := by
    induction queued with
    | nil => exact fun before => Script.Goes.done ⟨[], rfl, by rw [List.append_nil], rfl⟩
    | cons c queued ih =>
      intro before
      rw [List.foldlM_cons]
      have hone : (do
          let reply ← Script.one (attempt (m c)) (okNotes (note c))
          return before ++ [reply] : RedisScript K V α _).Goes fun acts res =>
            ∃ reply, res = .ok (before ++ [reply]) ∧
              acts.map Action.notes = [okNotes (note c) reply] := by
        have hsent : (Script.one (attempt (m c)) (okNotes (note c)) : RedisScript K V α _).Goes
            fun acts res => ∃ reply, res = .ok reply ∧
              acts.map Action.notes = [okNotes (note c) reply] :=
          Script.Goes.one (fun s reply s' _ => ⟨reply, rfl, rfl⟩) fun s e s' hm => by cases hm
        refine hsent.bind (fun acts reply h => Script.Goes.done ?_) fun acts e h => ?_
        · obtain ⟨_, heq, hnotes⟩ := h
          cases heq
          exact ⟨reply, rfl, by rw [List.append_nil]; exact hnotes⟩
        · obtain ⟨_, heq, -⟩ := h
          cases heq
      refine hone.bind (fun acts all h => ?_) fun acts e h => ?_
      · obtain ⟨reply, heq, hnotes⟩ := h
        cases heq
        refine (ih (before ++ [reply])).weaken fun more res hrest => ?_
        obtain ⟨replies, hlen, rfl, hmore⟩ := hrest
        refine ⟨reply :: replies, by simp [hlen], by simp, ?_⟩
        rw [List.map_append, hnotes, hmore]
        rfl
      · obtain ⟨_, heq, -⟩ := h
        cases heq
  unfold pipeline
  refine (hqueue []).bind (fun acts all h => Script.Goes.done ?_) fun acts e h => ?_
  · obtain ⟨replies, hlen, heq, hnotes⟩ := h
    cases heq
    exact ⟨replies, hlen, rfl, by rw [List.append_nil]; exact hnotes⟩
  · obtain ⟨_, -, heq, -⟩ := h
    cases heq

/-- The replies of a pipeline none of which was refused. -/
theorem replies_ok {β : Type} {replies : List (Except Exn β)} {xs : List β}
    (h : replies.mapM id = .ok xs) : replies = xs.map .ok := by
  have hall := forall₂_of_mapM h
  clear h
  induction hall with
  | nil => rfl
  | cons hx _ ih =>
    rw [List.map_cons, ih]
    exact congrArg (· :: _) hx

theorem changes_quiet {k : K} {a : Action (RedisServer α) (RedisNote K V α)} (h : a.notes = []) :
    changes k a = false := by
  unfold changes
  rw [h]
  rfl

theorem changed_none {a : Action (RedisServer α) (RedisNote K V α)} (h : a.notes = []) :
    Changed ∅ [a] := by
  intro k
  rw [changedBy, List.countP_singleton, changes_quiet h]
  rfl

theorem changed_one {key : K} {a : Action (RedisServer α) (RedisNote K V α)}
    (h : ∀ k, changes k a = decide (key = k)) : Changed {key} [a] := by
  intro k
  rw [changedBy, List.countP_singleton, h k]
  simp [eq_comm]

theorem goes_command_quiet {β : Type} (m : M (RedisServer α) β) :
    (command m : RedisScript K V α β).Goes fun acts _ => Changed ∅ acts :=
  Script.Goes.one (fun _ _ _ _ => changed_none rfl) fun _ _ _ _ => changed_none rfl

theorem goes_readRaw (ps : List (List α)) :
    (b.readRaw ps : RedisScript K V α _).Goes fun acts _ => Changed ∅ acts := by
  unfold readRaw
  split
  · exact goes_command_quiet _
  · exact goes_command_quiet _

theorem changed_quiet_append {won : Finset K}
    {acts more : List (Action (RedisServer α) (RedisNote K V α))} (h : Changed ∅ acts)
    (h' : Changed won more) : Changed won (acts ++ more) := by
  have happ := h.append h' (Finset.disjoint_empty_left won)
  rw [Finset.empty_union] at happ
  exact happ

theorem any_changedNotes (secs : Option Int) (p : List α) (key k : K) (w : ConditionalWrite V) :
    (b.changedNotes secs p key w).any (fun
      | .changed key _ => key = k
      | _ => false) = decide (key = k) := by
  unfold changedNotes
  split <;> simp

/-- The inserts of a pipeline change the keys they were told they wrote. -/
theorem changed_inserts (secs : Option Int) {rows : List (List α × Insert K V)} {wrote : List Bool}
    (hn : (rows.map (·.2.key)).Nodup) {acts : List (Action (RedisServer α) (RedisNote K V α))}
    (hacts : acts.map Action.notes =
      (rows.zip wrote).map fun e => b.insertNotes secs e.1 e.2) :
    Changed ((rows.zip wrote).filterMap fun e => if e.2 then some e.1.2.key else none).toFinset
      acts := by
  induction rows generalizing wrote acts with
  | nil =>
    rw [List.zip_nil_left, List.map_nil, List.map_eq_nil_iff] at hacts
    rw [hacts, List.zip_nil_left]
    exact Changed.nil
  | cons row rows ih =>
    cases wrote with
    | nil =>
      rw [List.zip_nil_right, List.map_nil, List.map_eq_nil_iff] at hacts
      rw [hacts, List.zip_nil_right]
      exact Changed.nil
    | cons x wrote =>
      cases acts with
      | nil => cases hacts
      | cons a acts =>
        rw [List.zip_cons_cons, List.map_cons, List.map_cons] at hacts
        injection hacts with ha hacts
        rw [List.map_cons, List.nodup_cons] at hn
        have hrest := ih hn.2 hacts
        rw [List.zip_cons_cons, List.filterMap_cons]
        cases x with
        | false => exact changed_quiet_append (changed_none ha) hrest
        | true =>
          have hone : Changed {row.2.key} [a] := by
            refine changed_one fun k => ?_
            rw [changes, ha]
            exact any_changedNotes secs row.1 row.2.key k row.2.write
          dsimp only
          rw [if_pos rfl, List.toFinset_cons, Finset.insert_eq]
          refine hone.append hrest (Finset.disjoint_singleton_left.mpr fun hmem => hn.1 ?_)
          obtain ⟨e, he, hkey⟩ := List.mem_filterMap.mp (List.mem_toFinset.mp hmem)
          split at hkey
          · rw [← Option.some.inj hkey]
            exact List.mem_map_of_mem (List.of_mem_zip he).1
          · cases hkey

theorem goes_adds {β : Type} {r : Except Exn β} {f : β → RedisScript K V α (Finset K)}
    {keys : List K} {written : Finset K} (hf : ∀ x, r = .ok x → (f x).Goes (Adds keys written)) :
    (Script.done r >>= f).Goes (Adds keys written) := by
  cases r with
  | error e => exact Script.Goes.done (Adds.error _ _ _ e)
  | ok x => exact hf x rfl

/-- A first part that changes no key adds nothing. -/
theorem goes_adds_bind {β : Type} {t : RedisScript K V α β} {f : β → RedisScript K V α (Finset K)}
    {keys : List K} {written : Finset K} (ht : t.Goes fun acts _ => Changed ∅ acts)
    (hf : ∀ x, (f x).Goes (Adds keys written)) : (t >>= f).Goes (Adds keys written) := by
  refine ht.bind (fun acts x h => ?_) fun acts e _ => Adds.error _ _ _ e
  refine (hf x).weaken fun more res h' all hall => ?_
  obtain ⟨won, heq, hsub, hwon⟩ := h' all hall
  exact ⟨won, heq, hsub, changed_quiet_append h hwon⟩

omit [DecidableEq K] in
/-- The rows of the inserts are theirs. -/
theorem rows_inserts {chunk : List (Insert K V)} {rows : List (List α × Insert K V)}
    (h : chunk.mapM (fun e => (b.physicalKeyBlob e.key).map fun p => (p, e)) = .ok rows) :
    rows.map (·.2) = chunk := by
  have hall := forall₂_of_mapM h
  clear h
  induction hall with
  | nil => rfl
  | @cons e row _ _ hrow _ ih =>
    rw [List.map_cons, ih]
    cases hp : b.physicalKeyBlob e.key with
    | error x =>
      rw [hp] at hrow
      cases hrow
    | ok p =>
      rw [hp] at hrow
      cases hrow
      rfl

theorem goes_insertIfAbsent_adds (secs : Option Int) (written : Finset K)
    {chunk : List (Insert K V)} (hn : (chunk.map (·.key)).Nodup) :
    (b.insertIfAbsent secs written chunk).Goes (Adds (chunk.map (·.key)) written) := by
  unfold insertIfAbsent
  refine goes_adds fun rows hrows => ?_
  have hkeys : rows.map (·.2.key) = chunk.map (·.key) := by
    rw [← rows_inserts hrows, List.map_map]
    rfl
  rw [← hkeys] at hn
  refine (goes_pipeline rows _ _).bind (fun acts wrote h => ?_) fun acts e _ => Adds.error _ _ _ e
  obtain ⟨replies, -, heq, hnotes⟩ := h
  rw [replies_ok heq.symm, List.zip_map_right, List.map_map] at hnotes
  have hwon := b.changed_inserts secs hn hnotes
  have hquiet : ∀ won, (b.expireInserted secs won : RedisScript K V α Unit).Goes
      fun acts _ => Changed ∅ acts := by
    intro won
    unfold expireInserted
    split
    · split
      · exact Script.Goes.done Changed.nil
      · unfold expireHash
        split
        · exact Script.Goes.done Changed.nil
        · refine (goes_command_quiet _).bind (fun acts _ h => Script.Goes.done ?_) fun _ _ h => h
          rw [List.append_nil]
          exact h
    · exact Script.Goes.done Changed.nil
  refine (hquiet _).bind (fun more _ hmore => Script.Goes.done fun all hall => ?_)
    fun more e _ => Adds.error _ _ _ e
  cases hall
  refine ⟨_, rfl, fun k hk => ?_, ?_⟩
  · obtain ⟨e, he, hkey⟩ := List.mem_filterMap.mp (List.mem_toFinset.mp hk)
    rw [← hkeys]
    split at hkey
    · rw [← Option.some.inj hkey]
      exact List.mem_map_of_mem (List.of_mem_zip he).1
    · cases hkey
  · rw [List.append_nil]
    have happ := hwon.append hmore (Finset.disjoint_empty_right _)
    rw [Finset.union_empty] at happ
    exact happ

/-- The keys an `EXEC` notes are those of its writes. -/
theorem any_execNotes (secs : Option Int) {queued : List (Swap K V α)}
    {replies : List (Except Exn Unit)} {units : List Unit} (hok : replies.mapM id = .ok units)
    (hlen : replies.length = queued.length) (k : K) :
    (b.execNotes secs queued (some replies)).any (fun
      | .changed key _ => key = k
      | _ => false) = decide (k ∈ (queued.map (·.1.1)).toFinset) := by
  rw [replies_ok hok] at hlen ⊢
  clear hok replies
  unfold execNotes
  dsimp only
  induction queued generalizing units with
  | nil => rfl
  | cons x queued ih =>
    cases units with
    | nil => cases hlen
    | cons u units =>
      rw [List.length_map, List.length_cons, List.length_cons] at hlen
      rw [List.map_cons, List.zip_cons_cons, List.flatMap_cons, List.any_append,
        ih (by rw [List.length_map]; omega)]
      dsimp only [okNotes]
      rw [any_changedNotes, List.map_cons, List.toFinset_cons]
      by_cases hk : x.1.1 = k
      · simp [hk]
      · simp [hk, Ne.symm hk]

omit [DecidableEq K] in
/-- Each command of an `EXEC` has its reply. -/
theorem length_attempts {β γ : Type} {m : γ → M (RedisServer α) β} {queued : List γ}
    {replies : List (Except Exn β)} {s s' : RedisServer α}
    (h : (queued.mapM fun c => attempt (m c)) s = (.ok replies, s')) :
    replies.length = queued.length := by
  induction queued generalizing replies s with
  | nil =>
    cases h
    rfl
  | cons c queued ih =>
    rw [List.mapM_cons, bind_ok (attempt_apply _ s)] at h
    rcases hrest : (queued.mapM fun c => attempt (m c)) (m c s).2 with ⟨e | rest, s''⟩
    · rw [bind_error hrest] at h
      cases h
    · rw [bind_ok hrest] at h
      cases h
      rw [List.length_cons, List.length_cons, ih hrest]

theorem goes_swapIfUnchanged_adds (secs : Option Int) (written : Finset K)
    (chunk : List (K × ConditionalWrite V)) :
    (b.swapIfUnchanged secs written chunk).Goes (Adds (chunk.map (·.1)) written) := by
  unfold swapIfUnchanged
  refine goes_adds fun ps _ => goes_adds_bind (goes_command_quiet _) fun watched => ?_
  refine goes_adds_bind (b.goes_readRaw ps) fun current => ?_
  dsimp only
  split
  · exact Script.Goes.done (Adds.nothing Changed.nil)
  · have hexec : (Script.one (RedisServer.exec watched (unchanged (chunk.zip ps) current)
        (b.queueWrite secs)) (b.execNotes secs (unchanged (chunk.zip ps) current)) :
        RedisScript K V α _).Goes fun acts replies => ∃ a, acts = [a] ∧
          ∀ answer, replies = .ok answer →
            a.notes = b.execNotes secs (unchanged (chunk.zip ps) current) answer ∧
            ∀ rs, answer = some rs → rs.length = (unchanged (chunk.zip ps) current).length := by
      refine Script.Goes.one (fun s answer s' hm => ⟨_, rfl, fun x hx => ?_⟩)
        fun s e s' _ => ⟨_, rfl, fun x hx => by cases hx⟩
      cases hx
      refine ⟨rfl, fun rs hrs => ?_⟩
      rw [RedisServer.exec_run, hrs] at hm
      split at hm
      · cases hm
      · rcases hrun : ((unchanged (chunk.zip ps) current).mapM fun c =>
          attempt (b.queueWrite secs c)) s with ⟨e | rs', s''⟩
        · rw [map_apply, hrun] at hm
          cases hm
        · rw [map_apply, hrun] at hm
          cases hm
          exact length_attempts hrun
    refine hexec.bind (fun acts answer h => ?_) fun acts e _ => Adds.error _ _ _ e
    obtain ⟨a, rfl, h⟩ := h
    obtain ⟨hnotes, hlen⟩ := h answer rfl
    cases answer with
    | none => exact Script.Goes.done (Adds.nothing (changed_none hnotes))
    | some replies =>
      dsimp only
      cases hok : replies.mapM id with
      | error e => exact Script.Goes.done (Adds.error _ _ _ e)
      | ok units =>
        refine Script.Goes.done fun all hall => ?_
        cases hall
        refine ⟨_, rfl, fun k hk => ?_, fun k => ?_⟩
        · obtain ⟨x, hx, rfl⟩ := List.mem_map.mp (List.mem_toFinset.mp hk)
          have hx' := (unchanged_sublist _ current).subset hx
          exact List.mem_map_of_mem (List.of_mem_zip hx').1
        · rw [List.append_nil, changedBy, List.countP_singleton, changes, hnotes,
            any_execNotes secs hok (hlen replies rfl) k]
          exact if_congr decide_eq_true_iff rfl rfl

omit [DecidableEq K] [DecidableEq α] in
theorem keys_inserts (writes : Dict K (ConditionalWrite V)) :
    ((inserts writes).map (·.key)).Sublist writes.keys := by
  unfold inserts Dict.keys
  induction writes.entries with
  | nil => exact List.Sublist.slnil
  | cons e entries ih =>
    rw [List.filterMap_cons, List.map_cons]
    split
    · exact ih.cons e.1
    · next x hx =>
      split at hx
      · cases hx
        exact ih.cons_cons e.1
      · cases hx

omit [DecidableEq K] [DecidableEq α] in
theorem keys_against (writes : Dict K (ConditionalWrite V)) :
    ((against writes).map (·.1)).Sublist writes.keys := by
  have hsub : (against writes).Sublist writes.entries := List.filter_sublist
  exact hsub.map Prod.fst

omit [DecidableEq α] in
/-- Where nothing was seen of a key, it is not written against a version. -/
theorem nodup_kinds (writes : Dict K (ConditionalWrite V)) :
    ((inserts writes).map (·.key)).Nodup ∧ ((against writes).map (·.1)).Nodup ∧
      ∀ k ∈ (inserts writes).map (·.key), k ∉ (against writes).map (·.1) := by
  refine ⟨(keys_inserts writes).nodup writes.nodup,
    (keys_against writes).nodup writes.nodup, fun k hk hk' => ?_⟩
  obtain ⟨e, he, rfl⟩ := List.mem_map.mp hk
  obtain ⟨⟨k, w⟩, hmem, heq⟩ := List.mem_map.mp hk'
  obtain ⟨hget, hseen, -⟩ := mem_inserts he
  obtain ⟨hentry, hversion⟩ := List.mem_filter.mp hmem
  have hsame := Dict.mem_entries.mp hentry
  dsimp only at heq hversion
  rw [heq, hget] at hsame
  cases hsame
  rw [hseen] at hversion
  cases hversion

theorem goes_batchWriteIfUnchanged_adds (writes : Dict K (ConditionalWrite V))
    (ttl : Option TtlPolicy) :
    (b.batchWriteIfUnchanged writes ttl).Goes (Adds writes.keys ∅) := by
  unfold batchWriteIfUnchanged
  refine goes_adds fun _ _ => goes_adds fun _ _ => goes_adds fun insertChunks hinserts =>
    goes_adds fun againstChunks hagainst => ?_
  obtain ⟨hn, hn', hapart⟩ := nodup_kinds writes
  rw [← flatten_of_chunkSequence hinserts] at hn hapart
  rw [← flatten_of_chunkSequence hagainst] at hn' hapart
  have hinserted := adds_foldlM (fun written chunk hchunk =>
    b.goes_insertIfAbsent_adds (b.resolveTtlSeconds ttl) written hchunk) hn ∅
  refine hinserted.bind (fun acts written h => ?_) fun acts e _ => Adds.error _ _ _ e
  have hswapped := adds_foldlM (fun written chunk _ =>
    b.goes_swapIfUnchanged_adds (b.resolveTtlSeconds ttl) written chunk) hn' written
  refine hswapped.weaken fun more res h' all hall => ?_
  obtain ⟨won, heq, hsub, hwon⟩ := h.append h' hapart all hall
  refine ⟨won, heq, fun k hk => ?_, hwon⟩
  rw [flatten_of_chunkSequence hinserts, flatten_of_chunkSequence hagainst] at hsub
  rcases List.mem_append.mp (hsub k hk) with hk | hk
  · exact (keys_inserts writes).subset hk
  · exact (keys_against writes).subset hk

/-- Whatever happens in between, a batch changed once each key it reports, and no other. -/
theorem goes_batchWriteIfUnchanged_reports (writes : Dict K (ConditionalWrite V))
    (ttl : Option TtlPolicy) :
    (b.batchWriteIfUnchanged writes ttl).Goes fun acts res =>
      ∀ written, res = .ok written → Changed written acts ∧ ∀ k ∈ written, k ∈ writes.keys := by
  refine (b.goes_batchWriteIfUnchanged_adds writes ttl).weaken fun acts res h written hres => ?_
  obtain ⟨won, rfl, hsub, hwon⟩ := h written hres
  rw [Finset.empty_union]
  exact ⟨hwon, hsub⟩

/-! ## What an update reports -/

/-- Whatever it is shown, the decision puts a value for the key. -/
def AlwaysPuts (decide : Dict K (Option V) → Dict K (Decision V)) (k : K) : Prop :=
  ∀ shown, ∃ v, (decide shown).get? k = some (.change (.put v))

/-- The actions of an update: each key is changed at most once, none that is lost or was not asked
    for, and each that is always put and not lost. -/
structure Updated (puts : K → Prop) (keys lost : List K)
    (acts : List (Action (RedisServer α) (RedisNote K V α))) : Prop where
  asked : ∀ k ∈ lost, k ∈ keys
  once : ∀ k, changedBy k acts ≤ 1
  spared : ∀ k, k ∈ lost ∨ k ∉ keys → changedBy k acts = 0
  put : ∀ k ∈ keys, k ∉ lost → puts k → changedBy k acts = 1

theorem goes_batchReadVersioned (ks : List K) :
    (b.batchReadVersioned ks).Goes fun acts _ => Changed ∅ acts := by
  have hchecked : ∀ {β γ : Type} {r : Except Exn β} {f : β → RedisScript K V α γ},
      (∀ x, (f x).Goes fun acts _ => Changed ∅ acts) →
      (Script.done r >>= f).Goes fun acts _ => Changed ∅ acts := by
    intro β γ r f hf
    cases r with
    | error e => exact Script.Goes.done Changed.nil
    | ok x => exact hf x
  unfold batchReadVersioned
  refine hchecked fun chunks => ?_
  refine Script.Goes.foldlM (I := fun acts _ => Changed ∅ acts) (fun first out hfirst chunk _ => ?_)
    Changed.nil
  have hchunk : (b.readChunk out chunk).Goes fun acts _ => Changed ∅ acts := by
    unfold readChunk
    refine hchecked fun ps => ?_
    refine (b.goes_readRaw ps).bind (fun acts raws h => Script.Goes.done ?_) fun _ _ h => h
    rw [List.append_nil]
    exact h
  exact hchunk.weaken fun more _ h => changed_quiet_append hfirst h

/-- One round changes the keys its batch reports, all of them keys it wrote. -/
theorem goes_writeRound (writes : Dict K (ConditionalWrite V)) (ttl : Option TtlPolicy) :
    (b.writeRound writes ttl).Goes fun acts res =>
      ∀ written, res = .ok written → Changed written acts ∧ ∀ k ∈ written, k ∈ writes.keys := by
  unfold writeRound
  split
  · refine Script.Goes.done fun written hres => ?_
    cases hres
    exact ⟨Changed.nil, by simp⟩
  · exact b.goes_batchWriteIfUnchanged_reports writes ttl

/-- A round and the rounds after it, which deal with the keys it lost. -/
theorem Updated.round {puts : K → Prop} {pending lost : List K} {writes : Dict K (ConditionalWrite V)}
    {written : Finset K} {acts more : List (Action (RedisServer α) (RedisNote K V α))}
    (hkeys : ∀ k ∈ writes.keys, k ∈ pending) (hputs : ∀ k ∈ pending, puts k → k ∈ writes.keys)
    (hsub : ∀ k ∈ written, k ∈ writes.keys) (h : Changed written acts)
    (hrest : Updated puts (KeyMap.lostKeys writes written) lost more) :
    Updated puts pending lost (acts ++ more) := by
  have hmem : ∀ k, k ∈ KeyMap.lostKeys writes written ↔ k ∈ writes.keys ∧ k ∉ written := by
    intro k
    simp [KeyMap.lostKeys]
  refine ⟨fun k hk => hkeys k ((hmem k).mp (hrest.asked k hk)).1, fun k => ?_, fun k hk => ?_,
      fun k hk hlost hput => ?_⟩ <;>
    rw [changedBy_append, h k]
  · by_cases hw : k ∈ written
    · have hspared := hrest.spared k (.inr fun hl => ((hmem k).mp hl).2 hw)
      rw [if_pos hw, hspared]
    · have honce := hrest.once k
      rw [if_neg hw]
      omega
  · have hw : k ∉ written := by
      intro hw
      rcases hk with hk | hk
      · exact ((hmem k).mp (hrest.asked k hk)).2 hw
      · exact hk (hkeys k (hsub k hw))
    have hspared : changedBy k more = 0 := by
      refine hrest.spared k ?_
      rcases hk with hk | hk
      · exact .inl hk
      · exact .inr fun hl => hk (hkeys k ((hmem k).mp hl).1)
    rw [if_neg hw, hspared]
  · have hwrites := hputs k hk hput
    by_cases hw : k ∈ written
    · have hspared := hrest.spared k (.inr fun hl => ((hmem k).mp hl).2 hw)
      rw [if_pos hw, hspared]
    · rw [if_neg hw, hrest.put k ((hmem k).mpr ⟨hwrites, hw⟩) hlost hput]

/-- A key whose decision is to put is written in every round it is pending in. -/
theorem AlwaysPuts.mem_roundWrites {decide : Dict K (Option V) → Dict K (Decision V)} {k : K}
    (h : AlwaysPuts decide k) (createdAt : Option Instant) {pending : List K} (seen : Dict K (Versioned V))
    (hk : k ∈ pending) :
    k ∈ (KeyMap.roundWrites createdAt pending seen (decide (KeyMap.shown pending seen))).keys := by
  obtain ⟨v, hv⟩ := h (KeyMap.shown pending seen)
  refine Dict.mem_keys.mpr ⟨⟨KeyMap.seenAt seen k, .put v, createdAt⟩, ?_⟩
  unfold KeyMap.roundWrites
  rw [Dict.get?_ofKeys, if_pos hk, hv]
  rfl

theorem goes_updateRounds (decide : Dict K (Option V) → Dict K (Decision V)) (options : WriteOptions)
    (attempts : Nat) (pending : List K) (held : Dict K V) :
    (b.updateRounds decide options attempts pending held).Goes fun acts res =>
      ∀ r, res = .ok r → Updated (AlwaysPuts decide) pending (lostOf r) acts := by
  induction attempts generalizing pending held with
  | zero =>
    refine Script.Goes.done fun r hr => ?_
    cases hr
    exact ⟨fun k hk => hk, fun k => by simp [changedBy], fun k _ => rfl, fun k hk hlost => absurd hk hlost⟩
  | succ attempts ih =>
    unfold updateRounds
    refine (b.goes_batchReadVersioned pending).bind (fun acts seen h => ?_)
      fun _ e _ r hr => by cases hr
    refine (b.goes_writeRound _ options.ttl).bind (fun more written h' => ?_)
      fun _ e _ r hr => by cases hr
    obtain ⟨hchanged, hsub⟩ := h' written rfl
    have hround := changed_quiet_append h hchanged
    have hkeys : ∀ k ∈ (KeyMap.roundWrites options.createdAt pending seen
        (decide (KeyMap.shown pending seen))).keys, k ∈ pending := fun k => keys_roundWrites _ _ _ _
    have hputs := fun k (hk : k ∈ pending) (h : AlwaysPuts decide k) =>
      h.mem_roundWrites options.createdAt seen hk
    generalize KeyMap.roundWrites options.createdAt pending seen
      (decide (KeyMap.shown pending seen)) = writes at hsub hkeys hputs ⊢
    dsimp only
    have hrest : ∀ {rest} {res : Except Exn (Except (KeyMap.Conflict K V) (Dict K V))}, (∀ r, res = .ok r →
        Updated (AlwaysPuts decide) (KeyMap.lostKeys writes written) (lostOf r) rest) →
        ∀ r, res = .ok r → Updated (AlwaysPuts decide) pending (lostOf r) (acts ++ (more ++ rest)) := by
      intro rest res hall r hr
      rw [← List.append_assoc]
      exact Updated.round hkeys hputs hsub hround (hall r hr)
    generalize KeyMap.lostKeys writes written = lost at hrest ⊢
    cases lost with
    | nil =>
      refine Script.Goes.done (hrest fun r hr => ?_)
      cases hr
      exact ⟨by simp [lostOf], fun k => by simp [changedBy], fun k _ => rfl,
        fun k hk => absurd hk List.not_mem_nil⟩
    | cons k lost => exact (ih (k :: lost) _).weaken fun rest res h => hrest h

theorem goes_batchUpdate (keys : List K) (decide : Dict K (Option V) → Dict K (Decision V))
    (options : WriteOptions) (attempts : Int) :
    (b.batchUpdate keys decide options attempts).Goes fun acts res =>
      ∀ r, res = .ok r → Updated (AlwaysPuts decide) keys (lostOf r) acts := by
  unfold batchUpdate
  split
  · exact Script.Goes.done fun r hr => by cases hr
  · refine (b.goes_updateRounds decide options _ _ _).weaken fun acts res h r hr => ?_
    have hround := h r hr
    refine ⟨fun k hk => Dict.mem_unique.mp (hround.asked k hk), hround.once, fun k hk => ?_,
      fun k hk => hround.put k (Dict.mem_unique.mpr hk)⟩
    exact hround.spared k (hk.imp_right fun hk hmem => hk (Dict.mem_unique.mp hmem))

/-! ## Every run of any clients -/

/-- No action changed the key. -/
def Unchanged (b : RedisKvBackend K V α) (k : K)
    (acts : List (Action (RedisServer α) (RedisNote K V α))) : Prop :=
  ∀ a ∈ acts, b.held a.after k = b.held a.before k

/-- One action changed the key, from the very bytes its write was decided against to what this
    leaves, and no other did. -/
def ChangedOnce (b : RedisKvBackend K V α) (q : RedisCall K V) (ttl : Option TtlPolicy) (k : K)
    (acts : List (Action (RedisServer α) (RedisNote K V α))) : Prop :=
  ∃ before a after w, acts = before ++ a :: after ∧
    (b.held a.before k).map Token.bytes = w.seen.version ∧
    q.Means b.kvset.valueSerde.deserialize k (b.held a.before k) w ∧
    b.held a.after k = b.left ttl a.before.clock w ∧ b.Unchanged k (before ++ after)

/-- What a finished call did to each key, by what it returned. -/
def Accounts (b : RedisKvBackend K V α) (q : RedisCall K V)
    (acts : List (Action (RedisServer α) (RedisNote K V α))) (answer : RedisAnswer K V) : Prop :=
  match q, answer with
  | .writeIfUnchanged _ ttl, .written written => ∀ k,
      if k ∈ written then b.ChangedOnce q ttl k acts else b.Unchanged k acts
  | .batchUpdate keys decide options _, .held r => ∀ k,
      (b.Unchanged k acts ∨ b.ChangedOnce q options.ttl k acts) ∧
      (k ∈ lostOf r ∨ k ∉ keys → b.Unchanged k acts) ∧
      (k ∈ keys → k ∉ lostOf r → AlwaysPuts decide k → b.ChangedOnce q options.ttl k acts)
  | _, _ => True

/-- With time alone passing, a key holds what it held, or has expired. -/
def Passes (b : RedisKvBackend K V α) (s s' : RedisServer α) : Prop :=
  ∀ k, b.held s' k = b.held s k ∨ b.held s' k = none

instance : Std.Refl b.Passes := ⟨fun _ _ => .inl rfl⟩

instance : IsTrans (RedisServer α) b.Passes := ⟨by
  intro s s' s'' h h' k
  rcases h' k with h' | h'
  · rw [h']
    exact h k
  · exact .inr h'⟩

omit [DecidableEq K] in
theorem passes_advance (d : Nat) (s : RedisServer α) : b.Passes s (s.advance d) := by
  have hpass : ∀ {J B : Type} [DecidableEq J] (dict : Dict J (RedisObject B)) (j : J),
      (RedisServer.unlapsed dict (s.clock + d)).get? j = dict.get? j ∨
        (RedisServer.unlapsed dict (s.clock + d)).get? j = none := by
    intro J B _ dict j
    unfold RedisServer.unlapsed
    rw [Dict.get?_filter]
    cases hj : dict.get? j with
    | none => exact .inr rfl
    | some o =>
      rw [Option.filter_some]
      split
      · exact .inl rfl
      · exact .inr rfl
  have hstrings : (s.advance d).strings = RedisServer.unlapsed s.strings (s.clock + d) := rfl
  have hhashes : (s.advance d).hashes = RedisServer.unlapsed s.hashes (s.clock + d) := rfl
  intro k
  unfold held
  cases hp : b.physicalKeyBlob k with
  | error e => exact .inl rfl
  | ok p =>
    dsimp only
    unfold heldAt RedisServer.fields
    cases b.binding.collection with
    | none =>
      dsimp only
      rw [hstrings]
      rcases hpass s.strings p with h | h
      · exact .inl (by rw [h])
      · exact .inr (by rw [h]; rfl)
    | some name =>
      dsimp only
      rw [hhashes]
      rcases hpass s.hashes name with h | h
      · exact .inl (by rw [h])
      · exact .inr (by rw [h]; exact Dict.get?_empty p)

theorem changes_iff {k : K} {a : Action (RedisServer α) (RedisNote K V α)} :
    changes k a = true ↔ ∃ w, .changed k w ∈ a.notes := by
  unfold changes
  rw [List.any_eq_true]
  constructor
  · rintro ⟨note, hmem, hnote⟩
    split at hnote
    · next key w =>
      rw [of_decide_eq_true hnote] at hmem
      exact ⟨w, hmem⟩
    · cases hnote
  · rintro ⟨w, hmem⟩
    exact ⟨_, hmem, by simp⟩

theorem unchanged_of_changedBy {k : K} {acts : List (Action (RedisServer α) (RedisNote K V α))}
    (hmade : ∀ a ∈ acts, Made b q ttl a) (h : changedBy k acts = 0) : b.Unchanged k acts := by
  intro a ha
  refine (hmade a ha).kept k fun w hw => ?_
  exact List.countP_eq_zero.mp h a ha (changes_iff.mpr ⟨w, hw⟩)

theorem changedOnce_of_changedBy {k : K} {acts : List (Action (RedisServer α) (RedisNote K V α))}
    (hmade : ∀ a ∈ acts, Made b q ttl a) (h : changedBy k acts = 1) : b.ChangedOnce q ttl k acts := by
  have hpos : 0 < acts.countP (changes k) := by
    unfold changedBy at h
    omega
  obtain ⟨a, ha, hchanges⟩ := List.countP_pos_iff.mp hpos
  obtain ⟨w, hw⟩ := changes_iff.mp hchanges
  obtain ⟨hseen, hleft, hmeans⟩ := (hmade a ha).changed k w hw
  obtain ⟨before, after, rfl⟩ := List.append_of_mem ha
  refine ⟨before, a, after, w, rfl, hseen, hmeans, hleft, ?_⟩
  have hothers : changedBy k (before ++ after) = 0 := by
    unfold changedBy at h ⊢
    rw [List.countP_append, List.countP_cons_of_pos hchanges] at h
    rw [List.countP_append]
    omega
  refine unchanged_of_changedBy (fun a' ha' => hmade a' ?_) hothers
  rcases List.mem_append.mp ha' with ha' | ha'
  · exact List.mem_append_left _ ha'
  · exact List.mem_append_right _ (List.mem_cons_of_mem _ ha')

/-- What a call returns accounts for all it did. -/
theorem accounts_of_path (call : RedisCall K V)
    {acts : List (Action (RedisServer α) (RedisNote K V α))} {answer : RedisAnswer K V}
    (hpath : (b.callScript call).Path acts (.ok answer))
    (hmade : ∀ a ∈ acts, ∀ ttl, call.ttl? = some ttl → Made b call ttl a) :
    b.Accounts call acts answer := by
  have hrest : ∀ {β : Type} {t : RedisScript K V α β} {f : β → RedisAnswer K V}
      {Q : List (Action (RedisServer α) (RedisNote K V α)) → β → Prop},
      (t.Goes fun acts res => ∀ x, res = .ok x → Q acts x) →
      (t >>= fun x => (pure (f x) : RedisScript K V α _)).Path acts (.ok answer) →
      ∃ x, Q acts x ∧ answer = f x := by
    intro β t f Q ht h
    have hgoes : (t >>= fun x => (pure (f x) : RedisScript K V α _)).Goes fun acts res =>
        ∀ answer, res = .ok answer → ∃ x, Q acts x ∧ answer = f x := by
      refine ht.bind (fun first x hx => Script.Goes.done fun answer ha => ?_)
        fun acts e _ answer ha => by cases ha
      cases ha
      exact ⟨x, by rw [List.append_nil]; exact hx x rfl, rfl⟩
    exact hgoes acts _ h answer rfl
  cases call with
  | batchUpdate keys decide options attempts =>
    obtain ⟨r, hupdated, rfl⟩ := hrest (b.goes_batchUpdate keys decide options attempts) hpath
    have hmade' := fun a ha => hmade a ha options.ttl rfl
    refine fun k => ⟨?_, fun hk => unchanged_of_changedBy hmade' (hupdated.spared k hk),
      fun hk hlost hput => changedOnce_of_changedBy hmade' (hupdated.put k hk hlost hput)⟩
    rcases Nat.le_one_iff_eq_zero_or_eq_one.mp (hupdated.once k) with h | h
    · exact .inl (unchanged_of_changedBy hmade' h)
    · exact .inr (changedOnce_of_changedBy hmade' h)
  | writeIfUnchanged writes ttl =>
    obtain ⟨written, ⟨hchanged, -⟩, rfl⟩ :=
      hrest (b.goes_batchWriteIfUnchanged_reports writes ttl) hpath
    have hmade' := fun a ha => hmade a ha ttl rfl
    intro k
    have hcount := hchanged k
    split at hcount
    · next hk =>
      rw [if_pos hk]
      exact changedOnce_of_changedBy hmade' hcount
    · next hk =>
      rw [if_neg hk]
      exact unchanged_of_changedBy hmade' hcount
  | set key value options => trivial
  | delete key => trivial

/-- Whatever other clients send between the commands of a batch, it changes each key it reports
    in one command and no other key; and in every run each changed key held, right before, the
    very bytes its write was decided against. -/
theorem updates_atomic {K V α : Type} [DecidableEq K] [DecidableEq α] (b : RedisKvBackend K V α) :
    (∀ writes ttl acts written, (b.batchWriteIfUnchanged writes ttl).Path acts (.ok written) →
      ∀ k, changedBy k acts = if k ∈ written then 1 else 0) ∧
    ∀ (ι : Type) [DecidableEq ι] (first : RedisServer α) (requests : ι → List (RedisCall K V))
      (schedule : List (ι ⊕ Nat)),
      let w := (World.start first requests).run b.callScript RedisServer.advance schedule
      World.Guaranteed b.Guarantees w.log ∧ World.History b.Passes first w.log w.store ∧
      ∀ i turn q answer, (w.clients i).finished[turn]? = some (q, .ok answer) →
        b.Accounts q (World.callActions w.log i turn) answer := by
  refine ⟨fun writes ttl acts written hpath => ?_, ?_⟩
  · exact (b.goes_batchWriteIfUnchanged_reports writes ttl acts _ hpath written rfl).1
  · intro ι _ first requests schedule w
    have hinv : World.Invariant b.callScript RedisServer.Later b.Passes b.Guarantees first w :=
      World.invariant_run (fun q s => (upholds_call q s).keeps [])
        (fun d s => s.later_advance d) (fun d s => b.passes_advance d s)
        (World.invariant_start first requests) schedule
    refine ⟨hinv.guaranteed, hinv.history, fun i turn q answer h => ?_⟩
    refine accounts_of_path q (hinv.finished i turn _ h) fun a ha ttl httl => ?_
    obtain ⟨_, hguar⟩ := (World.credited_run b.callScript RedisServer.advance first requests
      schedule).guaranteed hinv.guaranteed h ha
    exact hguar ttl httl

end RedisKvBackend

end Kvtsjl
