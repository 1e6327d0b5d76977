import Kvtsjl.Lib.Script
import Kvtsjl.KeyMap

/-
  Clients that update one map at the same time.
  A request is the same code as in `KeyMap`, cut at its reads and writes: each of them is
  one action, and between two of them any other client may act. `Request.run_script` says
  that, with nobody else about, the cut request is the request.

  A map `Versions` its entries when a version names one state of an entry. `no_lost_update`
  says what the clients of such a map may rely on.
-/

namespace Kvtsjl

open Assoc (Dict)
open Effects Prog

/-! ## Requests, cut into actions -/

/-- What a round does with a key. -/
inductive Note (K T : Type) where
  /-- Left as it is, as decided from what was shown. -/
  | kept (key : K) (shown : Dict K (Option T))
  /-- Written, as decided from what was shown. -/
  | wrote (key : K) (shown : Dict K (Option T)) (change : Change T)
  | refused (key : K)

/-- The key is dealt with: written, or left as it is. -/
def Note.settles {K T : Type} [DecidableEq K] (k : K) : Note K T → Bool
  | .kept key _ => key = k
  | .wrote key _ _ => key = k
  | .refused _ => false

inductive Request (K T : Type) where
  | batchUpdate (keys : List K) (decide : Dict K (Option T) → Dict K (Decision T))
      (options : WriteOptions) (attempts : Int)
  | update (key : K) (decide : Option T → Decision T) (options : WriteOptions) (attempts : Int)
  | getOrSet (key : K) (computeValue : Unit → T)
  | set (key : K) (value : T) (options : WriteOptions)
  | delete (key : K)

/-- What a request returns. -/
inductive Answer (K T : Type) where
  | held (r : Except (KeyMap.Conflict K T) (Dict K T))
  | value (r : Except (KeyMap.Conflict K T) (Option T))
  | stored (r : Except (KeyMap.Conflict K T) T)
  | done
  | deleted (found : Bool)

section Scripts

variable {σ K T : Type} [DecidableEq K]

/-- The keys a round reads and leaves as they are. -/
def keptNotes (shown : Dict K (Option T)) (pending : List K)
    (writes : Dict K (ConditionalWrite T)) : List (Note K T) :=
  (pending.filter fun k => k ∉ writes.keys).map fun k => .kept k shown

def writeNotes (shown : Dict K (Option T)) (writes : Dict K (ConditionalWrite T))
    (written : Finset K) : List (Note K T) :=
  writes.entries.map fun e => if e.1 ∈ written then .wrote e.1 shown e.2.change else .refused e.1

/-- `batch_update`'s rounds: one action reads, the next writes. -/
def roundsScript (m : KeyMap σ K T) (decide : Dict K (Option T) → Dict K (Decision T))
    (options : WriteOptions) : Nat → List K → Dict K T →
    Script Exn σ (Note K T) (Except (KeyMap.Conflict K T) (Dict K T))
  | 0, pending, held => .done (.ok (.error ⟨pending, held⟩))
  | attempts + 1, pending, held =>
    .act (m.batchReadVersioned pending)
      (fun seen => keptNotes (KeyMap.shown pending seen) pending
        (KeyMap.roundWrites options.createdAt pending seen (decide (KeyMap.shown pending seen))))
      fun seen =>
        let decisions := decide (KeyMap.shown pending seen)
        let writes := KeyMap.roundWrites options.createdAt pending seen decisions
        let held := KeyMap.heldKept pending seen decisions held
        if writes.entries.isEmpty then .done (.ok (.ok (KeyMap.heldWritten writes ∅ held)))
        else .act (m.batchWriteIfUnchanged writes options.ttl)
          (writeNotes (KeyMap.shown pending seen) writes)
          fun written =>
            match KeyMap.lostKeys writes written with
            | [] => .done (.ok (.ok (KeyMap.heldWritten writes written held)))
            | lost => roundsScript m decide options attempts lost
                (KeyMap.heldWritten writes written held)

def batchUpdateScript (m : KeyMap σ K T) (keys : List K)
    (decide : Dict K (Option T) → Dict K (Decision T)) (options : WriteOptions) (attempts : Int) :
    Script Exn σ (Note K T) (Except (KeyMap.Conflict K T) (Dict K T)) :=
  if attempts < 1 then
    .done (.error (.valueError ("attempts must be >= 1, got " ++ toString attempts)))
  else roundsScript m decide options attempts.toNat (Dict.unique keys) Dict.empty

namespace Request

/-- `update`'s decision, as a decision for a batch of one key. -/
def decideOne (key : K) (decide : Option T → Decision T) (seen : Dict K (Option T)) :
    Dict K (Decision T) := Dict.single key (decide ((seen.get? key).join))

/-- `get_or_set` stores only where it finds nothing. -/
def decideAbsent (computeValue : Unit → T) (current : Option T) : Decision T :=
  if current.isSome then .keep else .change (.put (computeValue ()))

/-- What the request decides by, if it decides. -/
def decides : Request K T → Option (Dict K (Option T) → Dict K (Decision T))
  | batchUpdate _ decide _ _ => some decide
  | update key decide _ _ => some (decideOne key decide)
  | getOrSet key computeValue => some (decideOne key (decideAbsent computeValue))
  | set _ _ _ => none
  | delete _ => none

/-- The keys the request decides about. -/
def keys : Request K T → List K
  | batchUpdate keys _ _ _ => keys
  | update key _ _ _ => [key]
  | getOrSet key _ => [key]
  | set _ _ _ => []
  | delete _ => []

/-- The end of `get_or_set`, once it has updated. -/
def storedAnswer (key : K) (r : Except (KeyMap.Conflict K T) (Dict K T)) :
    Except Exn (Answer K T) :=
  match r with
  | .ok held =>
    match held.get? key with
    | some value => .ok (.stored (.ok value))
    | none => .error (.kvStoreError "compute_value_fn returned None")
  | .error conflict => .ok (.stored (.error conflict))

def script (m : KeyMap σ K T) : Request K T → Script Exn σ (Note K T) (Answer K T)
  | batchUpdate keys decide options attempts =>
    (batchUpdateScript m keys decide options attempts).andThen fun r => .ok (.held r)
  | update key decide options attempts =>
    (batchUpdateScript m [key] (decideOne key decide) options attempts).andThen fun r =>
      .ok (.value (r.map fun d => d.get? key))
  | getOrSet key computeValue =>
    .act (m.get key)
      (fun found => if found.isSome then [.kept key (Dict.single key found)] else []) fun found =>
      match found with
      | some value => .done (.ok (.stored (.ok value)))
      | none => (batchUpdateScript m [key] (decideOne key (decideAbsent computeValue))
          WriteOptions.none 8).andThen (storedAnswer key)
  | set key value options =>
    .act (m.set key value options) (fun _ => []) fun _ => .done (.ok .done)
  | delete key => .act (m.delete key) (fun _ => []) fun found => .done (.ok (.deleted found))

/-- The request as `KeyMap` runs it. -/
def run (m : KeyMap σ K T) : Request K T → M σ (Answer K T)
  | batchUpdate keys decide options attempts =>
    Answer.held <$> m.batchUpdate keys decide options attempts
  | update key decide options attempts => Answer.value <$> m.update key decide options attempts
  | getOrSet key computeValue => Answer.stored <$> m.getOrSet key computeValue
  | set key value options => (fun _ => Answer.done) <$> m.set key value options
  | delete key => Answer.deleted <$> m.delete key

end Request

theorem run_roundsScript (m : KeyMap σ K T) (decide : Dict K (Option T) → Dict K (Decision T))
    (options : WriteOptions) (attempts : Nat) (pending : List K) (held : Dict K T) :
    (roundsScript m decide options attempts pending held).run =
      m.batchUpdateRounds decide options attempts pending held := by
  induction attempts generalizing pending held with
  | zero => rfl
  | succ attempts ih =>
    unfold roundsScript KeyMap.batchUpdateRounds
    rw [Script.run]
    congr 1
    funext seen
    unfold KeyMap.writeRound
    simp only
    split
    · next hempty =>
      have hlost : KeyMap.lostKeys (KeyMap.roundWrites options.createdAt pending seen
          (decide (KeyMap.shown pending seen))) ∅ = [] := by
        unfold KeyMap.lostKeys Dict.keys
        rw [List.isEmpty_iff.mp hempty]
        rfl
      rw [pure_bind, hlost]
      rfl
    · rw [Script.run]
      congr 1
      funext written
      generalize KeyMap.lostKeys _ written = lost
      cases lost with
      | nil => rfl
      | cons k lost => exact ih _ _

theorem run_batchUpdateScript (m : KeyMap σ K T) (keys : List K)
    (decide : Dict K (Option T) → Dict K (Decision T)) (options : WriteOptions) (attempts : Int) :
    (batchUpdateScript m keys decide options attempts).run =
      m.batchUpdate keys decide options attempts := by
  unfold batchUpdateScript KeyMap.batchUpdate
  split
  · rfl
  · exact run_roundsScript ..

/-- With nobody else about, the cut request is the request. -/
theorem Request.run_script (m : KeyMap σ K T) (q : Request K T) : (q.script m).run = q.run m := by
  cases q with
  | batchUpdate keys decide options attempts =>
    rw [script, run, Script.run_andThen, run_batchUpdateScript, map_eq_pure_bind]
    rfl
  | update key decide options attempts =>
    rw [script, run, Script.run_andThen, run_batchUpdateScript, KeyMap.update, map_bind]
    rfl
  | set key value options => rfl
  | delete key => rfl
  | getOrSet key computeValue =>
    rw [script, run, Script.run, KeyMap.getOrSet, map_bind]
    congr 1
    funext found
    cases found with
    | some value => rfl
    | none =>
      simp only
      unfold KeyMap.update
      rw [Script.run_andThen, run_batchUpdateScript, bind_assoc, map_bind]
      congr 1
      funext r
      cases r with
      | error conflict => rfl
      | ok held =>
        rw [pure_bind]
        unfold storedAnswer
        cases h : held.get? key <;> simp only [Except.map, h] <;> rfl

end Scripts

/-! ## Every key is dealt with once -/

section Settled

variable {σ K T : Type} [DecidableEq K]

/-- The keys an answer reports as lost. -/
def Answer.lost : Answer K T → List K
  | held (.error c) => c.lost
  | value (.error c) => c.lost
  | stored (.error c) => c.lost
  | _ => []

/-- The notes leave the lost keys alone and deal with every other key exactly once. -/
structure Settled (keys lost : List K) (notes : List (Note K T)) : Prop where
  asked : ∀ k ∈ lost, k ∈ keys
  dealt : ∀ k ∈ keys, notes.countP (Note.settles k) = if k ∈ lost then 0 else 1
  others : ∀ k, k ∉ keys → notes.countP (Note.settles k) = 0

theorem countP_keptNotes (shown : Dict K (Option T)) {pending : List K} (hn : pending.Nodup)
    (writes : Dict K (ConditionalWrite T)) (k : K) :
    (keptNotes shown pending writes).countP (Note.settles k) =
      if k ∈ pending ∧ k ∉ writes.keys then 1 else 0 := by
  have hcount : (keptNotes shown pending writes).countP (Note.settles k) =
      (pending.filter fun k => k ∉ writes.keys).count k := by
    unfold keptNotes
    rw [List.countP_map]
    rfl
  rw [hcount, (hn.filter _).count]
  simp

theorem countP_writeNotes (shown : Dict K (Option T)) (writes : Dict K (ConditionalWrite T))
    (written : Finset K) (k : K) :
    (writeNotes shown writes written).countP (Note.settles k) =
      if k ∈ writes.keys ∧ k ∈ written then 1 else 0 := by
  have hcount : (writeNotes shown writes written).countP (Note.settles k) =
      (writes.keys.filter fun j => j ∈ written).count k := by
    unfold writeNotes Dict.keys
    rw [List.countP_map, List.filter_map, List.count, List.countP_map, List.countP_filter]
    refine List.countP_congr fun e _ => ?_
    by_cases h : e.1 ∈ written <;> simp [h, Note.settles]
  have hnd : writes.keys.Nodup := writes.nodup
  rw [hcount, (hnd.filter _).count]
  simp

theorem keys_roundWrites (createdAt : Option Instant) (pending : List K)
    (seen : Dict K (Versioned T)) (decisions : Dict K (Decision T)) {k : K}
    (hk : k ∈ (KeyMap.roundWrites createdAt pending seen decisions).keys) : k ∈ pending := by
  obtain ⟨w, hw⟩ := Dict.mem_keys.mp hk
  unfold KeyMap.roundWrites at hw
  rw [Dict.get?_ofKeys] at hw
  by_contra hp
  rw [if_neg hp] at hw
  cases hw

/-- What `batch_update` reports as lost. -/
def lostOf (r : Except (KeyMap.Conflict K T) (Dict K T)) : List K :=
  match r with
  | .ok _ => []
  | .error c => c.lost

/-- The rounds deal with every pending key exactly once, the lost ones apart. -/
theorem settled_rounds (m : KeyMap σ K T) (decide : Dict K (Option T) → Dict K (Decision T))
    (options : WriteOptions) {attempts : Nat} {pending : List K} {held : Dict K T}
    {notes : List (Note K T)} {r : Except (KeyMap.Conflict K T) (Dict K T)}
    (h : (roundsScript m decide options attempts pending held).Traces notes (.ok r))
    (hn : pending.Nodup) : Settled pending (lostOf r) notes := by
  induction attempts generalizing pending held notes with
  | zero =>
    obtain ⟨rfl, hr⟩ := h
    cases hr
    exact ⟨fun _ hk => hk, fun k hk => by simp [lostOf, hk], fun _ _ => rfl⟩
  | succ attempts ih =>
    rcases h with ⟨seen, more, rfl, h⟩ | ⟨-, e, he⟩
    swap
    · cases he
    simp only at h ⊢
    have hkept := countP_keptNotes (KeyMap.shown pending seen) hn
      (KeyMap.roundWrites options.createdAt pending seen (decide (KeyMap.shown pending seen)))
    have hsub : ∀ k, k ∈ (KeyMap.roundWrites options.createdAt pending seen
      (decide (KeyMap.shown pending seen))).keys → k ∈ pending := fun k => keys_roundWrites _ _ _ _
    generalize KeyMap.roundWrites options.createdAt pending seen
      (decide (KeyMap.shown pending seen)) = writes at h hkept hsub ⊢
    split at h
    · -- Nothing to write: every key is kept.
      next hempty =>
      obtain ⟨rfl, hr⟩ := h
      cases hr
      have hno : ∀ k, k ∉ writes.keys := by
        unfold Dict.keys
        rw [List.isEmpty_iff.mp hempty]
        simp
      refine ⟨by simp [lostOf], fun k hk => ?_, fun k hk => ?_⟩ <;>
        rw [List.append_nil, hkept] <;> simp [hk, hno, lostOf]
    · rcases h with ⟨written, more, rfl, h⟩ | ⟨-, e, he⟩
      swap
      · cases he
      have hwrote := countP_writeNotes (KeyMap.shown pending seen) writes written
      have hmem : ∀ k, k ∈ KeyMap.lostKeys writes written ↔ k ∈ writes.keys ∧ k ∉ written := by
        intro k
        simp [KeyMap.lostKeys]
      have hrest : Settled (KeyMap.lostKeys writes written) (lostOf r) more := by
        simp only at h
        have hnd : (KeyMap.lostKeys writes written).Nodup :=
          List.Nodup.filter _ (show writes.keys.Nodup from writes.nodup)
        generalize KeyMap.lostKeys writes written = lost at h hnd
        cases lost with
        | nil =>
          cases h.1
          cases h.2
          exact ⟨by simp [lostOf], by simp, fun _ _ => rfl⟩
        | cons k lost => exact ih h hnd
      refine ⟨fun k hk => hsub k ((hmem k).mp (hrest.asked k hk)).1, fun k hk => ?_, fun k hk => ?_⟩ <;>
        rw [List.countP_append, List.countP_append, hkept, hwrote]
      · by_cases hw : k ∈ writes.keys
        · by_cases hd : k ∈ written
          · have hl : k ∉ KeyMap.lostKeys writes written := fun hm => ((hmem k).mp hm).2 hd
            have hlost : k ∉ lostOf r := fun hm => hl (hrest.asked k hm)
            rw [hrest.others k hl]
            simp [hw, hd, hlost]
          · rw [hrest.dealt k ((hmem k).mpr ⟨hw, hd⟩)]
            simp [hw, hd]
        · have hl : k ∉ KeyMap.lostKeys writes written := fun hm => hw ((hmem k).mp hm).1
          have hlost : k ∉ lostOf r := fun hm => hl (hrest.asked k hm)
          rw [hrest.others k hl]
          simp [hk, hw, hlost]
      · have hw : k ∉ writes.keys := fun hm => hk (hsub k hm)
        have hl : k ∉ KeyMap.lostKeys writes written := fun hm => hw ((hmem k).mp hm).1
        rw [hrest.others k hl]
        simp [hk, hw]

theorem settled_batchUpdate (m : KeyMap σ K T) (keys : List K)
    (decide : Dict K (Option T) → Dict K (Decision T)) (options : WriteOptions) (attempts : Int)
    {notes : List (Note K T)} {r : Except (KeyMap.Conflict K T) (Dict K T)}
    (h : (batchUpdateScript m keys decide options attempts).Traces notes (.ok r)) :
    Settled keys (lostOf r) notes := by
  unfold batchUpdateScript at h
  split at h
  · cases h.2
  · have hs := settled_rounds m decide options h (Dict.nodup_unique keys)
    exact ⟨fun k hk => Dict.mem_unique.mp (hs.asked k hk),
      fun k hk => hs.dealt k (Dict.mem_unique.mpr hk),
      fun k hk => hs.others k (fun hm => hk (Dict.mem_unique.mp hm))⟩

/-- Whatever answers a request gets, where it returns it has dealt with each of its keys
    exactly once, the lost ones apart. -/
theorem settled_request (m : KeyMap σ K T) (q : Request K T) {notes : List (Note K T)}
    {answer : Answer K T} (h : (q.script m).Traces notes (.ok answer)) :
    Settled q.keys answer.lost notes := by
  cases q with
  | batchUpdate keys decide options attempts =>
    obtain ⟨_ | r, hr, ha⟩ := Script.traces_andThen h
    · cases ha
    · cases ha
      have hs := settled_batchUpdate m keys decide options attempts hr
      cases r <;> exact hs
  | update key decide options attempts =>
    obtain ⟨_ | r, hr, ha⟩ := Script.traces_andThen h
    · cases ha
    · cases ha
      have hs := settled_batchUpdate m [key] _ options attempts hr
      cases r <;> exact hs
  | getOrSet key computeValue =>
    rcases h with ⟨found, more, rfl, h⟩ | ⟨-, e, he⟩
    swap
    · cases he
    cases found with
    | some value =>
      obtain ⟨rfl, ha⟩ := h
      cases ha
      refine ⟨by simp [Answer.lost], fun k hk => ?_, fun k hk => ?_⟩
      · simp [Answer.lost, Note.settles, List.mem_singleton.mp hk]
      · have hne : key ≠ k := fun he => hk (by rw [he]; exact List.mem_singleton.mpr rfl)
        simp [Note.settles, hne]
    | none =>
      obtain ⟨_ | r, hr, ha⟩ := Script.traces_andThen h
      · cases ha
      · have hs := settled_batchUpdate m [key] _ _ _ hr
        cases r with
        | error c =>
          cases ha
          exact hs
        | ok held =>
          simp only [Except.bind, Request.storedAnswer] at ha
          split at ha
          · cases ha; exact hs
          · cases ha
  | set key value options =>
    rcases h with ⟨b, more, rfl, rfl, ha⟩ | ⟨-, e, he⟩
    · cases ha
      exact ⟨by simp [Answer.lost], by simp [Request.keys], fun _ _ => rfl⟩
    · cases he
  | delete key =>
    rcases h with ⟨b, more, rfl, rfl, ha⟩ | ⟨-, e, he⟩
    · cases ha
      exact ⟨by simp [Answer.lost], by simp [Request.keys], fun _ _ => rfl⟩
    · cases he

end Settled

/-! ## Versions that name what they were read from -/

/-- The entry holds what the change stores. -/
def Stored {E T : Type} (value : E → Option T) : Change T → Option E → Prop
  | .put v, e => ∃ x, e = some x ∧ value x = some v
  | .remove, e => e = none

/-- A map whose entries carry versions: no entry that was ever there for a key has the
    version of another. `Later` is the order in which the map's states follow each other. -/
structure Versioning {σ K T : Type} [DecidableEq K] (m : KeyMap σ K T) where
  E : Type
  entry : σ → K → Option E
  version : E → Token
  value : E → Option T
  /-- What a read shows of an entry: its value, or nothing once it has expired. -/
  live : σ → E → Option T
  Later : σ → σ → Prop
  later_refl : ∀ s, Later s s
  later_trans : ∀ s s' s'', Later s s' → Later s' s'' → Later s s''
  shows : ∀ s e v, live s e = some v → value e = some v
  names : ∀ s s' k e e', Later s s' → entry s k = some e → entry s' k = some e' →
    version e = version e' → e = e'
  read : ∀ ks s, Later s (m.batchReadVersioned ks s).2 ∧
    (∀ k, entry (m.batchReadVersioned ks s).2 k = entry s k) ∧
    ∀ seen, (m.batchReadVersioned ks s).1 = .ok seen → ∀ k ∈ ks,
      seen.get? k = some ⟨(entry s k).bind (live s), (entry s k).map version⟩
  write : ∀ ws ttl s, Later s (m.batchWriteIfUnchanged ws ttl s).2 ∧
    match (m.batchWriteIfUnchanged ws ttl s).1 with
    | .ok written => ∀ k,
        if k ∈ written then ∃ w, ws.get? k = some w ∧ w.seen.version = (entry s k).map version ∧
          Stored value w.change (entry (m.batchWriteIfUnchanged ws ttl s).2 k)
        else entry (m.batchWriteIfUnchanged ws ttl s).2 k = entry s k
    | .error _ => ∀ k, entry (m.batchWriteIfUnchanged ws ttl s).2 k = entry s k
  found : ∀ k s x, (m.get k s).1 = .ok x → x = (entry s k).bind (live s)
  get : ∀ k s, Later s (m.get k s).2 ∧ ∀ j, entry (m.get k s).2 j = entry s j ∨
    entry (m.get k s).2 j = none ∧ ∃ e, entry s j = some e ∧ live s e = none
  set : ∀ k v o, Moves Later (m.set k v o)
  delete : ∀ k, Moves Later (m.delete k)

namespace Versioning

variable {σ K T : Type} [DecidableEq K] {m : KeyMap σ K T}

/-- The entry is as it was, or had expired and is gone. -/
def Kept (v : Versioning m) (s s' : σ) (k : K) : Prop :=
  v.entry s' k = v.entry s k ∨ v.entry s' k = none ∧ ∃ e, v.entry s k = some e ∧ v.live s e = none

/-- No key's entry differs. -/
def SameEntries (v : Versioning m) (s s' : σ) : Prop := ∀ k, v.entry s' k = v.entry s k

/-- The write of a key was decided from what it replaced: `shown`, which the request read
    when the entry was the very entry now replaced. -/
structure Serial (v : Versioning m) (q : Request K T) (past : List (Action σ (Note K T)))
    (a : Action σ (Note K T)) (k : K) (shown : Dict K (Option T)) (change : Change T) : Prop where
  decided : ∃ decide, q.decides = some decide ∧ (decide shown).get? k = some (.change change)
  replaced : ∃ r ∈ past, v.entry r.before k = v.entry a.before k ∧
    shown.get? k = some ((v.entry a.before k).bind (v.live r.before))
  stored : Stored v.value change (v.entry a.after k)

/-- A key is left as it is by what was decided from its entry: it is to be kept, or is not
    spoken of, or is to be removed where there is nothing. -/
structure Skipped (v : Versioning m) (q : Request K T) (a : Action σ (Note K T)) (k : K)
    (shown : Dict K (Option T)) : Prop where
  decided : ∃ decide, q.decides = some decide ∧ ((decide shown).get? k = none ∨
    (decide shown).get? k = some .keep ∨
    (decide shown).get? k = some (.change .remove) ∧ v.entry a.before k = none)
  held : shown.get? k = some ((v.entry a.before k).bind (v.live a.before))

/-- What every action of a request that decides guarantees. -/
structure Guarantee (v : Versioning m) (q : Request K T) (past : List (Action σ (Note K T)))
    (a : Action σ (Note K T)) : Prop where
  wrote : ∀ k shown change, .wrote k shown change ∈ a.notes → v.Serial q past a k shown change
  skipped : ∀ k shown, .kept k shown ∈ a.notes → v.Skipped q a k shown
  kept : q.decides.isSome → ∀ k, (∀ shown change, .wrote k shown change ∉ a.notes) →
    v.Kept a.before a.after k

theorem reflInst (v : Versioning m) : Std.Refl v.Later := ⟨v.later_refl⟩

theorem transInst (v : Versioning m) : IsTrans σ v.Later := ⟨v.later_trans⟩

/-- An entry with the version that was seen is the entry that was seen. -/
theorem entry_eq (v : Versioning m) {s s' : σ} {k : K} (h : v.Later s s')
    (hv : (v.entry s k).map v.version = (v.entry s' k).map v.version) :
    v.entry s k = v.entry s' k := by
  cases h1 : v.entry s k with
  | none =>
    cases h2 : v.entry s' k with
    | none => rfl
    | some e' => rw [h1, h2] at hv; cases hv
  | some e =>
    cases h2 : v.entry s' k with
    | none => rw [h1, h2] at hv; cases hv
    | some e' =>
      rw [h1, h2] at hv
      rw [v.names s s' k e e' h h1 h2 (Option.some.inj hv)]

/-- The write of a round was decided from the value it was read against. -/
theorem get?_roundWrites {createdAt : Option Instant} {pending : List K}
    {seen : Dict K (Versioned T)} {decisions : Dict K (Decision T)} {k : K}
    {w : ConditionalWrite T}
    (h : (KeyMap.roundWrites createdAt pending seen decisions).get? k = some w) :
    k ∈ pending ∧ w.seen = KeyMap.seenAt seen k ∧
      decisions.get? k = some (.change w.change) := by
  unfold KeyMap.roundWrites at h
  rw [Dict.get?_ofKeys] at h
  split at h
  · next hk =>
    refine ⟨hk, ?_⟩
    unfold KeyMap.roundWrite at h
    split at h
    · cases h
    · cases h
    · next hd =>
      split at h
      · cases h
      · cases h; exact ⟨rfl, hd⟩
    · next hd => cases h; exact ⟨rfl, hd⟩
  · cases h

/-- A key of a round that is not written is one the decisions leave as it is. -/
theorem not_mem_roundWrites {createdAt : Option Instant} {pending : List K}
    {seen : Dict K (Versioned T)} {decisions : Dict K (Decision T)} {k : K} (hk : k ∈ pending)
    (h : k ∉ (KeyMap.roundWrites createdAt pending seen decisions).keys) :
    decisions.get? k = none ∨ decisions.get? k = some .keep ∨
      decisions.get? k = some (.change .remove) ∧ (KeyMap.seenAt seen k).version = none := by
  have hnone : KeyMap.roundWrite createdAt (KeyMap.seenAt seen k) (decisions.get? k) = none := by
    have hget := Dict.get?_eq_none.mpr h
    unfold KeyMap.roundWrites at hget
    rwa [Dict.get?_ofKeys, if_pos hk] at hget
  cases hd : decisions.get? k with
  | none => exact .inl rfl
  | some decision =>
    rw [hd] at hnone
    cases decision with
    | keep => exact .inr (.inl rfl)
    | change change =>
      cases change with
      | put value => cases hnone
      | remove =>
        refine .inr (.inr ⟨rfl, ?_⟩)
        by_contra hversion
        unfold KeyMap.roundWrite at hnone
        rw [if_neg hversion] at hnone
        cases hnone

/-- What a round is shown of a key is what its entry held. -/
theorem seenAt_read (v : Versioning m) {pending : List K} {s : σ} {seen : Dict K (Versioned T)}
    (hseen : (m.batchReadVersioned pending s).1 = .ok seen) {k : K} (hk : k ∈ pending) :
    KeyMap.seenAt seen k = ⟨(v.entry s k).bind (v.live s), (v.entry s k).map v.version⟩ := by
  unfold KeyMap.seenAt
  rw [(v.read pending s).2.2 seen hseen k hk]
  rfl

theorem get?_shown (v : Versioning m) {pending : List K} {s : σ} {seen : Dict K (Versioned T)}
    (hseen : (m.batchReadVersioned pending s).1 = .ok seen) {k : K} (hk : k ∈ pending) :
    (KeyMap.shown pending seen).get? k = some ((v.entry s k).bind (v.live s)) := by
  unfold KeyMap.shown
  rw [Dict.get?_ofKeys, if_pos hk, v.seenAt_read hseen hk]

theorem mem_writeNotes {shown shown' : Dict K (Option T)} {writes : Dict K (ConditionalWrite T)}
    {written : Finset K} {k : K} {change : Change T}
    (h : Note.wrote k shown' change ∈ writeNotes shown writes written) :
    shown' = shown ∧ k ∈ written ∧ ∃ w, writes.get? k = some w ∧ w.change = change := by
  obtain ⟨e, he, hn⟩ := List.mem_map.mp h
  split at hn
  · next hw =>
    cases hn
    exact ⟨rfl, hw, e.2, Dict.mem_entries.mp he, rfl⟩
  · cases hn

theorem wrote_mem_writeNotes {shown : Dict K (Option T)} {writes : Dict K (ConditionalWrite T)}
    {written : Finset K} {k : K} {w : ConditionalWrite T} (hw : writes.get? k = some w)
    (hk : k ∈ written) : Note.wrote k shown w.change ∈ writeNotes shown writes written :=
  List.mem_map.mpr ⟨(k, w), Dict.mem_entries.mpr hw, if_pos hk⟩

/-- An action that notes nothing and changes no entry guarantees. -/
theorem guarantee_quiet (v : Versioning m) (q : Request K T) (past : List (Action σ (Note K T)))
    {s s' : σ} (h : ∀ k, v.Kept s s' k) : v.Guarantee q past ⟨s, [], s'⟩ :=
  ⟨fun _ _ _ hnote => absurd hnote List.not_mem_nil, fun _ _ hnote => absurd hnote List.not_mem_nil,
    fun _ k _ => h k⟩

/-- Reading guarantees: nothing changes, and what the round leaves as it is was decided so. -/
theorem guarantee_read (v : Versioning m) {q : Request K T}
    {decide : Dict K (Option T) → Dict K (Decision T)} (hq : q.decides = some decide)
    (options : WriteOptions) (past : List (Action σ (Note K T))) {pending : List K} {s : σ}
    {seen : Dict K (Versioned T)} (hseen : (m.batchReadVersioned pending s).1 = .ok seen) :
    v.Guarantee q past ⟨s, keptNotes (KeyMap.shown pending seen) pending
      (KeyMap.roundWrites options.createdAt pending seen (decide (KeyMap.shown pending seen))),
      (m.batchReadVersioned pending s).2⟩ := by
  refine ⟨fun k shown change h => ?_, fun k shown h => ?_, fun _ k _ => .inl ((v.read pending s).2.1 k)⟩
  · obtain ⟨_, -, hnote⟩ := List.mem_map.mp h
    cases hnote
  · obtain ⟨j, hj, hnote⟩ := List.mem_map.mp h
    cases hnote
    have hmem := List.mem_filter.mp hj
    refine ⟨⟨decide, hq, ?_⟩, v.get?_shown hseen hmem.1⟩
    rcases not_mem_roundWrites hmem.1 (of_decide_eq_true hmem.2) with hd | hd | ⟨hd, hversion⟩
    · exact .inl hd
    · exact .inr (.inl hd)
    · rw [v.seenAt_read hseen hmem.1] at hversion
      exact .inr (.inr ⟨hd, Option.map_eq_none_iff.mp hversion⟩)

/-- Writing what was decided from a read guarantees: each key that is written still held
    what was read, and no other key changes. -/
theorem guarantee_write (v : Versioning m) {q : Request K T}
    {decide : Dict K (Option T) → Dict K (Decision T)} (hq : q.decides = some decide)
    (options : WriteOptions) {pending : List K} {past : List (Action σ (Note K T))}
    {r : Action σ (Note K T)} (hr : r ∈ past) {seen : Dict K (Versioned T)} {s : σ}
    (hseen : (m.batchReadVersioned pending r.before).1 = .ok seen) (hs : v.Later r.before s) :
    let writes := KeyMap.roundWrites options.createdAt pending seen
      (decide (KeyMap.shown pending seen))
    match m.batchWriteIfUnchanged writes options.ttl s with
    | (.ok written, s') => v.Guarantee q past
        ⟨s, writeNotes (KeyMap.shown pending seen) writes written, s'⟩
    | (.error _, s') => v.Guarantee q past ⟨s, [], s'⟩ := by
  intro writes
  have hw := (v.write writes options.ttl s).2
  rcases hm : m.batchWriteIfUnchanged writes options.ttl s with ⟨e | written, s'⟩ <;> rw [hm] at hw
  · exact v.guarantee_quiet q past fun k => .inl (hw k)
  · refine ⟨fun k shown change h => ?_, fun k shown h => ?_, fun _ k hk => .inl ?_⟩
    · obtain ⟨rfl, hk, w, hwk, rfl⟩ := mem_writeNotes h
      have hwrite := hw k
      rw [if_pos hk] at hwrite
      obtain ⟨w', hw', hver, hstored⟩ := hwrite
      cases hwk.symm.trans hw'
      obtain ⟨hp, hwseen, hdec⟩ := get?_roundWrites hwk
      have hent : v.entry r.before k = v.entry s k := by
        refine v.entry_eq hs ?_
        rw [← hver, hwseen, v.seenAt_read hseen hp]
      refine ⟨⟨decide, hq, hdec⟩, ⟨r, hr, hent, ?_⟩, hstored⟩
      rw [v.get?_shown hseen hp, hent]
    · obtain ⟨_, -, hnote⟩ := List.mem_map.mp h
      split at hnote <;> cases hnote
    · have hwrite := hw k
      split at hwrite
      · next hmem =>
        obtain ⟨w, hwk, -, -⟩ := hwrite
        exact absurd (wrote_mem_writeNotes hwk hmem) (hk _ _)
      · exact hwrite

theorem keeps_rounds (v : Versioning m) {q : Request K T}
    {decide : Dict K (Option T) → Dict K (Decision T)} (hq : q.decides = some decide)
    (options : WriteOptions) (attempts : Nat) (pending : List K) (held : Dict K T)
    (past : List (Action σ (Note K T))) (s : σ) :
    (roundsScript m decide options attempts pending held).Keeps v.Later (v.Guarantee q) past s := by
  induction attempts generalizing pending held past s with
  | zero => trivial
  | succ attempts ih =>
    intro s1 hs1
    obtain ⟨hread, hsame, -⟩ := v.read pending s1
    rcases hm : m.batchReadVersioned pending s1 with ⟨e | seen, s2⟩ <;> rw [hm] at hread hsame
    · exact ⟨hread, v.guarantee_quiet q past fun k => .inl (hsame k)⟩
    · have hg := v.guarantee_read hq options past (congrArg Prod.fst hm)
      rw [hm] at hg
      refine ⟨hread, hg, ?_⟩
      simp only
      split
      · trivial
      · intro s3 hs3
        have hlater := (v.write (KeyMap.roundWrites options.createdAt pending seen
          (decide (KeyMap.shown pending seen))) options.ttl s3).1
        have hgw := v.guarantee_write (r := ⟨s1, keptNotes (KeyMap.shown pending seen) pending
            (KeyMap.roundWrites options.createdAt pending seen (decide (KeyMap.shown pending seen))), s2⟩) hq options
          (List.mem_append_right past (List.mem_singleton.mpr rfl)) (congrArg Prod.fst hm)
          (v.later_trans _ _ _ hread hs3)
        simp only at hgw
        rcases hm3 : m.batchWriteIfUnchanged (KeyMap.roundWrites options.createdAt pending seen
          (decide (KeyMap.shown pending seen))) options.ttl s3 with ⟨e | written, s4⟩ <;>
          rw [hm3] at hlater hgw
        · exact ⟨hlater, hgw⟩
        · refine ⟨hlater, hgw, ?_⟩
          simp only
          generalize KeyMap.lostKeys _ written = lost
          cases lost with
          | nil => trivial
          | cons k lost => exact ih _ _ _ _

theorem keeps_batchUpdate (v : Versioning m) {q : Request K T}
    {decide : Dict K (Option T) → Dict K (Decision T)} (hq : q.decides = some decide)
    (keys : List K) (options : WriteOptions) (attempts : Int)
    (past : List (Action σ (Note K T))) (s : σ) :
    (batchUpdateScript m keys decide options attempts).Keeps v.Later (v.Guarantee q) past s := by
  unfold batchUpdateScript
  split
  · trivial
  · exact v.keeps_rounds hq ..

/-- Every request keeps to the guarantee, whatever the others do. -/
theorem keeps_request (v : Versioning m) (q : Request K T) (s : σ) :
    (q.script m).Keeps v.Later (v.Guarantee q) [] s := by
  cases q with
  | batchUpdate keys decide options attempts =>
    exact (v.keeps_batchUpdate rfl keys options attempts [] s).andThen _
  | update key decide options attempts =>
    exact (v.keeps_batchUpdate rfl [key] options attempts [] s).andThen _
  | getOrSet key computeValue =>
    intro s1 hs1
    obtain ⟨hlater, hkept⟩ := v.get key s1
    rcases hm : m.get key s1 with ⟨e | found, s2⟩ <;> rw [hm] at hlater hkept
    · exact ⟨hlater, v.guarantee_quiet _ _ hkept⟩
    · have hfound := v.found key s1 found (congrArg Prod.fst hm)
      cases found with
      | some value =>
        refine ⟨hlater, ⟨fun k shown change h => ?_, fun k shown h => ?_, fun _ k _ => hkept k⟩, trivial⟩
        · cases List.mem_singleton.mp h
        · cases List.mem_singleton.mp h
          exact ⟨⟨_, rfl, .inr (.inl (by simp [Request.decideOne, Request.decideAbsent]))⟩, by simp [hfound]⟩
      | none =>
        exact ⟨hlater, v.guarantee_quiet _ _ hkept, (v.keeps_batchUpdate rfl [key] _ _ _ _).andThen _⟩
  | set key value options =>
    intro s1 hs1
    have hset := v.set key value options s1
    rcases hm : m.set key value options s1 with ⟨e | u, s2⟩ <;> rw [hm] at hset
    · exact ⟨hset, by simp, by simp, by simp [Request.decides]⟩
    · exact ⟨hset, ⟨by simp, by simp, by simp [Request.decides]⟩, trivial⟩
  | delete key =>
    intro s1 hs1
    have hdel := v.delete key s1
    rcases hm : m.delete key s1 with ⟨e | found, s2⟩ <;> rw [hm] at hdel
    · exact ⟨hdel, by simp, by simp, by simp [Request.decides]⟩
    · exact ⟨hdel, ⟨by simp, by simp, by simp [Request.decides]⟩, trivial⟩

/-- No update is lost, in any order of the clients' steps: each write of a request that
    decides was decided from the very entry it replaced; a key it leaves as it is was
    decided so from the entry it read; what such a request does not write it leaves alone;
    each action finds the entries the one before it left; and a request that returns has
    dealt with each of its keys exactly once, but for those it reports as lost, which none
    of its actions wrote. -/
def NoLostUpdate (v : Versioning m) {δ : Type} (move : δ → σ → σ) : Prop :=
  ∀ (ι : Type) [DecidableEq ι] (requests : ι → List (Request K T)) (s : σ)
    (schedule : List (ι ⊕ δ)),
    let w := (World.start s requests).run (Request.script m) move schedule
    World.Guaranteed v.Guarantee w.log ∧
    World.History v.SameEntries s w.log w.store ∧
    ∀ i turn q answer, (w.clients i).finished[turn]? = some (q, .ok answer) →
      Settled q.keys answer.lost (World.callNotes w.log i turn)

theorem noLostUpdate (v : Versioning m) {δ : Type} (move : δ → σ → σ)
    (hlater : ∀ d s, v.Later s (move d s)) (hsame : ∀ d s, v.SameEntries s (move d s)) :
    v.NoLostUpdate move := by
  intro ι _ requests s schedule w
  have := v.reflInst
  have := v.transInst
  have : Std.Refl v.SameEntries := ⟨fun _ _ => rfl⟩
  have : IsTrans σ v.SameEntries := ⟨fun _ _ _ h h' k => (h' k).trans (h k)⟩
  have hinv : World.Invariant (Request.script m) v.Later v.SameEntries v.Guarantee s w :=
    World.invariant_run v.keeps_request hlater hsame (World.invariant_start s requests) schedule
  refine ⟨hinv.guaranteed, hinv.history, fun i turn q answer h => ?_⟩
  rw [World.callNotes_eq]
  exact settled_request m q (hinv.finished i turn _ h).traces

end Versioning

end Kvtsjl
