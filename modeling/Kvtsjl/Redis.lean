import Kvtsjl.Lib.Script
import Kvtsjl.Keys

/-
  A Redis server, command by command.
  Each command is atomic. Keys are gone once they expire. `touched` counts the changes under a
  name, and an `EXEC` does nothing where the count of a watched name is not what it was at the
  `WATCH`. `Later` is the order in which the states of a server follow each other: what was not
  touched is what it was.
-/

namespace Kvtsjl

open Assoc (Dict)
open Effects Prog

abbrev RedisBytes := List UInt8

/-- What a connection watches: a flat key, or a whole hash. -/
inductive RedisName (α : Type) where
  | flat (p : List α)
  | hash (name : String)
deriving DecidableEq

structure RedisObject (B : Type) where
  value : B
  expiresAt : Option Instant
deriving DecidableEq

def RedisObject.lapsed {B : Type} (o : RedisObject B) (now : Instant) : Bool :=
  o.expiresAt.any fun at_ => at_ ≤ now

/-- The expiry a `SET` carries, in seconds: none, `EX` from now on, or `EXAT` since the epoch. -/
inductive RedisExpiry where
  | never
  | ex (seconds : Int)
  | exat (seconds : Int)
deriving DecidableEq

namespace RedisExpiry

/-- When it falls due, for a command that runs now. -/
def due (e : RedisExpiry) (now : Instant) : Option Instant :=
  match e with
  | never => none
  | ex seconds => some (now + seconds * 1000000)
  | exat seconds => some (seconds * 1000000)

/-- The server refuses it. -/
def invalid : RedisExpiry → Bool
  | never => false
  | ex seconds => decide (seconds ≤ 0)
  | exat seconds => decide (seconds ≤ 0)

end RedisExpiry

/-- The object under a key, unless it has lapsed by now: then there is none. -/
def putLive {K B : Type} [DecidableEq K] (d : Dict K (RedisObject B)) (k : K)
    (o : Option (RedisObject B)) (now : Instant) : Dict K (RedisObject B) :=
  match o.filter fun o => !o.lapsed now with
  | some o => d.set k o
  | none => d.erase k

theorem get?_putLive {K B : Type} [DecidableEq K] (d : Dict K (RedisObject B)) (k j : K)
    (o : Option (RedisObject B)) (now : Instant) :
    (putLive d k o now).get? j = if j = k then o.filter fun o => !o.lapsed now else d.get? j := by
  unfold putLive
  cases o.filter fun o => !o.lapsed now with
  | none => exact Dict.get?_erase ..
  | some o => exact Dict.get?_set ..

theorem live_putLive {K B : Type} [DecidableEq K] {d : Dict K (RedisObject B)} {now : Instant}
    (hd : ∀ k o, d.get? k = some o → o.lapsed now = false) (k : K) (o : Option (RedisObject B)) :
    ∀ j o', (putLive d k o now).get? j = some o' → o'.lapsed now = false := by
  intro j o' ho
  rw [get?_putLive] at ho
  split at ho
  · simpa using (Option.filter_eq_some_iff.mp ho).2
  · exact hd j o' ho

structure RedisServer (α : Type) [DecidableEq α] where
  strings : Dict (List α) (RedisObject RedisBytes)
  hashes : Dict String (RedisObject (Dict (List α) RedisBytes))
  /-- How many times what the name holds was changed. -/
  touched : RedisName α → Nat
  clock : Instant
  liveStrings : ∀ p o, strings.get? p = some o → o.lapsed clock = false
  liveHashes : ∀ name o, hashes.get? name = some o → o.lapsed clock = false

namespace RedisServer

variable {α : Type} [DecidableEq α]

def empty (clock : Instant) : RedisServer α :=
  ⟨Dict.empty, Dict.empty, fun _ => 0, clock, by simp, by simp⟩

/-- Something under the name has changed. -/
def touch (s : RedisServer α) (n : RedisName α) : RedisServer α :=
  { s with touched := Function.update s.touched n (s.touched n + 1) }

/-- A flat key now holds `o`. -/
def putString (s : RedisServer α) (p : List α) (o : Option (RedisObject RedisBytes)) :
    RedisServer α :=
  { s.touch (.flat p) with
    strings := putLive s.strings p o s.clock
    liveStrings := live_putLive s.liveStrings p o }

/-- A hash now holds `o`. A hash without fields is none. -/
def putHash (s : RedisServer α) (name : String)
    (o : Option (RedisObject (Dict (List α) RedisBytes))) : RedisServer α :=
  { s.touch (.hash name) with
    hashes := putLive s.hashes name (o.filter fun o => !o.value.entries.isEmpty) s.clock
    liveHashes := live_putLive s.liveHashes name _ }

/-- What the name holds will have lapsed by `now`. -/
def lapses (s : RedisServer α) (now : Instant) : RedisName α → Bool
  | .flat p => (s.strings.get? p).any (·.lapsed now)
  | .hash name => (s.hashes.get? name).any (·.lapsed now)

/-- What has not lapsed by then. -/
def unlapsed {K B : Type} [DecidableEq K] (d : Dict K (RedisObject B)) (now : Instant) :
    Dict K (RedisObject B) := d.filter fun _ o => !o.lapsed now

theorem live_unlapsed {K B : Type} [DecidableEq K] (d : Dict K (RedisObject B)) (now : Instant) :
    ∀ k o, (unlapsed d now).get? k = some o → o.lapsed now = false := by
  intro k o ho
  unfold unlapsed at ho
  rw [Dict.get?_filter] at ho
  simpa using (Option.filter_eq_some_iff.mp ho).2

/-- Time passes, and what lapses is removed. -/
def advance (microseconds : Nat) (s : RedisServer α) : RedisServer α where
  strings := unlapsed s.strings (s.clock + microseconds)
  hashes := unlapsed s.hashes (s.clock + microseconds)
  touched n := if s.lapses (s.clock + microseconds) n then s.touched n + 1 else s.touched n
  clock := s.clock + microseconds
  liveStrings := live_unlapsed s.strings _
  liveHashes := live_unlapsed s.hashes _

def fields (s : RedisServer α) (name : String) : Dict (List α) RedisBytes :=
  match s.hashes.get? name with
  | some o => o.value
  | none => Dict.empty

/-! ## Commands on flat keys -/

def get (p : List α) : M (RedisServer α) (Option RedisBytes) :=
  read fun s => (s.strings.get? p).map (·.value)

def mget (ps : List (List α)) : M (RedisServer α) (List (Option RedisBytes)) :=
  read fun s => ps.map fun p => (s.strings.get? p).map (·.value)

def existsKey (p : List α) : M (RedisServer α) Bool := read fun s => (s.strings.get? p).isSome

def invalidExpire : Exn := .medium "invalid expire time in 'set' command"

def set (p : List α) (raw : RedisBytes) (expiry : RedisExpiry) : M (RedisServer α) Unit :=
  if expiry.invalid then raise invalidExpire
  else modify fun s => s.putString p (some ⟨raw, expiry.due s.clock⟩)

/-- `SET NX`: whether it was stored. -/
def setNx (p : List α) (raw : RedisBytes) (expiry : RedisExpiry) : M (RedisServer α) Bool := do
  if expiry.invalid then raise invalidExpire
  else match ← read fun s : RedisServer α => s.strings.get? p with
    | some _ => return false
    | none =>
      modify fun s => s.putString p (some ⟨raw, expiry.due s.clock⟩)
      return true

theorem setNx_run (p : List α) (raw : RedisBytes) (expiry : RedisExpiry) (s : RedisServer α) :
    setNx p raw expiry s =
      if expiry.invalid then (.error invalidExpire, s)
      else if (s.strings.get? p).isSome then (.ok false, s)
      else (.ok true, s.putString p (some ⟨raw, expiry.due s.clock⟩)) := by
  unfold setNx
  split
  · rfl
  · rw [bind_apply, read_apply]
    cases s.strings.get? p <;> rfl

theorem set_run (p : List α) (raw : RedisBytes) (expiry : RedisExpiry) (s : RedisServer α) :
    set p raw expiry s = if expiry.invalid then (.error invalidExpire, s)
      else (.ok (), s.putString p (some ⟨raw, expiry.due s.clock⟩)) := by
  unfold set
  split <;> rfl

/-- `EXPIREAT`, on a key that is there. -/
def expireat (p : List α) (seconds : Int) : M (RedisServer α) Bool := do
  match ← read fun s : RedisServer α => s.strings.get? p with
  | none => return false
  | some o =>
    modify fun s => s.putString p (some { o with expiresAt := some (seconds * 1000000) })
    return true

def del (p : List α) : M (RedisServer α) Bool := do
  match ← read fun s : RedisServer α => s.strings.get? p with
  | none => return false
  | some _ =>
    modify fun s => s.putString p none
    return true

theorem del_run (p : List α) (s : RedisServer α) :
    del p s = if (s.strings.get? p).isSome then (.ok true, s.putString p none) else (.ok false, s) := by
  unfold del
  rw [bind_apply, read_apply]
  cases s.strings.get? p <;> rfl

/-! ## Commands on hashes -/

def hget (name : String) (p : List α) : M (RedisServer α) (Option RedisBytes) :=
  read fun s => (s.fields name).get? p

def hmget (name : String) (ps : List (List α)) : M (RedisServer α) (List (Option RedisBytes)) :=
  read fun s => ps.map (s.fields name).get?

/-- The hash with other fields, its expiry kept. -/
def withFields (s : RedisServer α) (name : String) (fields : Dict (List α) RedisBytes) :
    RedisServer α :=
  s.putHash name (some ⟨fields, (s.hashes.get? name).bind (·.expiresAt)⟩)

def hset (name : String) (items : List (List α × RedisBytes)) : M (RedisServer α) Unit :=
  modify fun s => s.withFields name (items.foldl (fun d e => d.set e.1 e.2) (s.fields name))

/-- `HSETNX`: whether the field was stored. -/
def hsetnx (name : String) (p : List α) (raw : RedisBytes) : M (RedisServer α) Bool := do
  match ← read fun s : RedisServer α => (s.fields name).get? p with
  | some _ => return false
  | none =>
    modify fun s => s.withFields name ((s.fields name).set p raw)
    return true

def hdel (name : String) (p : List α) : M (RedisServer α) Bool := do
  match ← read fun s : RedisServer α => (s.fields name).get? p with
  | none => return false
  | some _ =>
    modify fun s => s.withFields name ((s.fields name).erase p)
    return true

theorem hsetnx_run (name : String) (p : List α) (raw : RedisBytes) (s : RedisServer α) :
    hsetnx name p raw s = if ((s.fields name).get? p).isSome then (.ok false, s)
      else (.ok true, s.withFields name ((s.fields name).set p raw)) := by
  unfold hsetnx
  rw [bind_apply, read_apply]
  cases (s.fields name).get? p <;> rfl

theorem hdel_run (name : String) (p : List α) (s : RedisServer α) :
    hdel name p s = if ((s.fields name).get? p).isSome then
      (.ok true, s.withFields name ((s.fields name).erase p)) else (.ok false, s) := by
  unfold hdel
  rw [bind_apply, read_apply]
  cases (s.fields name).get? p <;> rfl

/-- `EXPIRE` of a hash. -/
def expire (name : String) (seconds : Int) : M (RedisServer α) Bool := do
  match ← read fun s : RedisServer α => s.hashes.get? name with
  | none => return false
  | some o =>
    modify fun s => s.putHash name (some { o with expiresAt := some (s.clock + seconds * 1000000) })
    return true

/-! ## Transactions -/

/-- How often each name was touched so far. A connection keeps it until its `EXEC`. -/
def watch (names : List (RedisName α)) : M (RedisServer α) (List (RedisName α × Nat)) :=
  read fun s => names.map fun n => (n, s.touched n)

/-- A name the connection watches was touched. -/
def dirty (s : RedisServer α) (watched : List (RedisName α × Nat)) : Bool :=
  watched.any fun e => s.touched e.1 ≠ e.2

/-- `EXEC`: all of the commands in one step, each with its own reply, or none of them where a
    watched name was touched. -/
def exec {β γ : Type} (watched : List (RedisName α × Nat)) (queued : List β)
    (command : β → M (RedisServer α) γ) : M (RedisServer α) (Option (List (Except Exn γ))) := do
  if ← read fun s : RedisServer α => s.dirty watched then return none
  else return some (← queued.mapM fun c => attempt (command c))

theorem exec_run {β γ : Type} (watched : List (RedisName α × Nat)) (queued : List β)
    (command : β → M (RedisServer α) γ) (s : RedisServer α) :
    exec watched queued command s = if s.dirty watched then (.ok none, s)
      else (some <$> queued.mapM fun c => attempt (command c)) s := by
  unfold exec
  rw [bind_apply, read_apply]
  dsimp only
  split <;> rfl

/-! ## What later states keep -/

/-- The name holds what it held. -/
def SameAt (s s' : RedisServer α) : RedisName α → Prop
  | .flat p => s'.strings.get? p = s.strings.get? p
  | .hash name => s'.hashes.get? name = s.hashes.get? name

def Later (s s' : RedisServer α) : Prop :=
  ∀ n, s.touched n ≤ s'.touched n ∧ (s.touched n = s'.touched n → s.SameAt s' n)

theorem SameAt.trans {s s' s'' : RedisServer α} {n : RedisName α} (h : s.SameAt s' n)
    (h' : s'.SameAt s'' n) : s.SameAt s'' n := by
  cases n with
  | flat p => exact Eq.trans h' h
  | hash name => exact Eq.trans h' h

theorem SameAt.refl (s : RedisServer α) (n : RedisName α) : s.SameAt s n := by
  cases n <;> rfl

instance : Std.Refl (@Later α _) := ⟨fun s n => ⟨Nat.le_refl _, fun _ => SameAt.refl s n⟩⟩

instance : IsTrans (RedisServer α) Later := ⟨by
  intro s s' s'' h h' n
  have hle := (h n).1
  have hle' := (h' n).1
  refine ⟨by omega, fun heq => ?_⟩
  exact ((h n).2 (by omega)).trans ((h' n).2 (by omega))⟩

section Put

variable (s : RedisServer α)

theorem strings_putString (p q : List α) (o : Option (RedisObject RedisBytes)) :
    (s.putString p o).strings.get? q =
      if q = p then o.filter fun o => !o.lapsed s.clock else s.strings.get? q := get?_putLive ..

@[simp] theorem hashes_putString (p : List α) (o : Option (RedisObject RedisBytes)) :
    (s.putString p o).hashes = s.hashes := rfl

@[simp] theorem clock_putString (p : List α) (o : Option (RedisObject RedisBytes)) :
    (s.putString p o).clock = s.clock := rfl

theorem hashes_putHash (name other : String) (o : Option (RedisObject (Dict (List α) RedisBytes))) :
    (s.putHash name o).hashes.get? other = if other = name then
      (o.filter fun o => !o.value.entries.isEmpty).filter fun o => !o.lapsed s.clock
      else s.hashes.get? other := get?_putLive ..

@[simp] theorem strings_putHash (name : String)
    (o : Option (RedisObject (Dict (List α) RedisBytes))) :
    (s.putHash name o).strings = s.strings := rfl

@[simp] theorem clock_putHash (name : String)
    (o : Option (RedisObject (Dict (List α) RedisBytes))) :
    (s.putHash name o).clock = s.clock := rfl

/-- What changes nothing but what one name holds, and touches that. -/
theorem later_touch {s s' : RedisServer α} {n : RedisName α}
    (ht : s'.touched = (s.touch n).touched) (h : ∀ m, m ≠ n → s.SameAt s' m) : Later s s' := by
  intro m
  rw [ht]
  dsimp only [touch]
  by_cases hm : m = n
  · rw [hm, Function.update_self]
    exact ⟨Nat.le_succ _, fun heq => by omega⟩
  · rw [Function.update_of_ne hm]
    exact ⟨Nat.le_refl _, fun _ => h m hm⟩

theorem later_putString (p : List α) (o : Option (RedisObject RedisBytes)) :
    Later s (s.putString p o) := by
  refine later_touch (n := .flat p) rfl fun m hm => ?_
  cases m with
  | flat q =>
    show (s.putString p o).strings.get? q = s.strings.get? q
    rw [strings_putString, if_neg fun h => hm (by rw [h])]
  | hash name =>
    show (s.putString p o).hashes.get? name = s.hashes.get? name
    rw [hashes_putString]

theorem later_putHash (name : String) (o : Option (RedisObject (Dict (List α) RedisBytes))) :
    Later s (s.putHash name o) := by
  refine later_touch (n := .hash name) rfl fun m hm => ?_
  cases m with
  | flat q =>
    show (s.putHash name o).strings.get? q = s.strings.get? q
    rw [strings_putHash]
  | hash other =>
    show (s.putHash name o).hashes.get? other = s.hashes.get? other
    rw [hashes_putHash, if_neg fun h => hm (by rw [h])]

theorem later_withFields (name : String) (fields : Dict (List α) RedisBytes) :
    Later s (s.withFields name fields) := s.later_putHash name _

theorem get?_unlapsed {K B : Type} [DecidableEq K] {d : Dict K (RedisObject B)} {k : K} {now : Instant}
    (h : (d.get? k).any (·.lapsed now) = false) : (unlapsed d now).get? k = d.get? k := by
  unfold unlapsed
  rw [Dict.get?_filter]
  cases hd : d.get? k with
  | none => rfl
  | some o =>
    rw [hd] at h
    have ho : o.lapsed now = false := h
    simp [Option.filter, ho]

/-- What time removes, it touches. -/
theorem later_advance (d : Nat) : Later s (s.advance d) := by
  intro n
  have hif : (s.advance d).touched n =
      if s.lapses (s.clock + d) n then s.touched n + 1 else s.touched n := rfl
  rw [hif]
  cases hn : s.lapses (s.clock + d) n with
  | true => exact ⟨Nat.le_succ _, fun heq => absurd heq (by simp)⟩
  | false =>
    refine ⟨Nat.le_refl _, fun _ => ?_⟩
    cases n with
    | flat p => exact get?_unlapsed hn
    | hash name => exact get?_unlapsed hn

/-- The fields of a hash that was given new ones. -/
theorem fields_withFields (name : String) (fields : Dict (List α) RedisBytes) (p : List α) :
    ((s.withFields name fields).fields name).get? p = fields.get? p := by
  have hheld := s.hashes_putHash name name (some ⟨fields, (s.hashes.get? name).bind (·.expiresAt)⟩)
  rw [if_pos rfl] at hheld
  have hlive : (⟨fields, (s.hashes.get? name).bind (·.expiresAt)⟩ :
      RedisObject (Dict (List α) RedisBytes)).lapsed s.clock = false := by
    cases h : s.hashes.get? name with
    | none => rfl
    | some o => exact s.liveHashes name o h
  unfold withFields RedisServer.fields
  cases hempty : fields.entries.isEmpty with
  | true =>
    have hnil : fields.entries = [] := List.isEmpty_iff.mp hempty
    rw [Option.filter_some, if_neg (by simp [hempty]), Option.filter_none] at hheld
    rw [hheld]
    show none = Assoc.lookup p fields.entries
    rw [hnil]
    rfl
  | false =>
    rw [Option.filter_some, if_pos (by simp [hempty]), Option.filter_some,
      if_pos (by simp [hlive])] at hheld
    rw [hheld]

end Put

end RedisServer

end Kvtsjl
