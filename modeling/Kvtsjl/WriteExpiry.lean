import Kvtsjl.RedisStore

/-
  Expiries on a Redis server with several writers of flat keys.
  A value stands with the expiry of the write that put it there (`Belongs`), or its writer still
  has to send that expiry (`Owes`). Between the two commands of such a write no other value may be
  put under its key: where that holds of a run, `expiry_of_write` says that each key holds
  what one write left. `expiry_strayed` is a run in which the expiry of one write falls on the
  value of another.
-/

namespace Kvtsjl

open Assoc (Dict)
open Effects Prog

inductive RedisWrite (K V : Type) where
  | set (key : K) (value : V) (options : WriteOptions)
  | batchSet (items : Dict K V) (options : WriteOptions)
  | writeIfUnchanged (writes : Dict K (ConditionalWrite V)) (ttl : Option TtlPolicy)

namespace RedisKvBackend

variable {K V α : Type} [DecidableEq α] (b : RedisKvBackend K V α)

def writeScript [DecidableEq K] : RedisWrite K V → RedisScript K V α Unit
  | .set key value options => b.set key value options
  | .batchSet items options => b.batchSet items options
  | .writeIfUnchanged writes ttl => do
    let _ ← b.batchWriteIfUnchanged writes ttl
    return ()

/-- The request writes `value` with that expiry, if it stores anything under the key. -/
def Asks [DecidableEq K] (q : RedisWrite K V) (key : K) (value : V) (expiry : RedisExpiry) : Prop :=
  match q with
  | .set k v options =>
    k = key ∧ v = value ∧ expiry = expiryOf (b.resolveTtlSeconds options.ttl) options.createdAt
  | .batchSet items options => items.get? key = some value ∧
      expiry = expiryOf (b.resolveTtlSeconds options.ttl) options.createdAt
  | .writeIfUnchanged writes ttl => ∃ w, writes.get? key = some w ∧ w.change = .put value ∧
      expiry = expiryOf (b.resolveTtlSeconds ttl) w.createdAt

/-- As `Asks`, on the wire. -/
def Puts [DecidableEq K] (q : RedisWrite K V) (p : List α) (raw : RedisBytes)
    (expiry : RedisExpiry) : Prop :=
  ∃ key value, b.physicalKeyBlob key = .ok p ∧ raw = b.kvset.valueSerde.serialize value ∧
    b.Asks q key value expiry

end RedisKvBackend

/-! ## What one action leaves -/

section NotedPuts

variable {K V α : Type} [DecidableEq α]

abbrev RedisAction (K V α : Type) [DecidableEq α] := Action (RedisServer α) (RedisNote K V α)

/-- The action puts under flat keys what it notes, with the expiry it notes, or without where the
    expiry is owed, and dates only what is there. -/
structure NotedPuts (P : List α → RedisBytes → RedisExpiry → Prop) (a : RedisAction K V α) : Prop where
  asked : ∀ p raw e owed, .put p raw e owed ∈ a.notes → P p raw e
  bare : ∀ p raw e, .put p raw e true ∈ a.notes → ∀ o, a.after.strings.get? p = some o →
    o = ⟨raw, none⟩
  dated : ∀ p seconds, .dated p seconds ∈ a.notes → ∀ o, a.after.strings.get? p = some o →
    ∃ old, a.before.strings.get? p = some old ∧ o = { old with expiresAt := some (seconds * 1000000) }
  other : ∀ p o, a.after.strings.get? p = some o → a.before.strings.get? p = some o ∨
    (∃ raw e, .put p raw e false ∈ a.notes ∧ o = ⟨raw, e.due a.before.clock⟩) ∨
    (∃ raw e, .put p raw e true ∈ a.notes) ∨ ∃ seconds, .dated p seconds ∈ a.notes

/-- The action leaves nothing owed and pays nothing. -/
def Plain (a : RedisAction K V α) : Prop :=
  (∀ p raw e, .put p raw e true ∉ a.notes) ∧ ∀ p seconds, .dated p seconds ∉ a.notes

/-- Whatever expiry an action leaves owed, the next action sends. -/
inductive Paid : List (RedisAction K V α) → Prop where
  | nil : Paid []
  | plain {a : RedisAction K V α} {l : List (RedisAction K V α)} (ha : Plain a) (hl : Paid l) :
      Paid (a :: l)
  | pair {a a' : RedisAction K V α} {l : List (RedisAction K V α)} {p : List α} {raw : RedisBytes}
      {seconds : Int} (ha : a.notes = [.put p raw (.exat seconds) true])
      (ha' : a'.notes = [.dated p seconds]) (hl : Paid l) : Paid (a :: a' :: l)

theorem Paid.append {l l' : List (RedisAction K V α)} (h : Paid l) (h' : Paid l') :
    Paid (l ++ l') := by
  induction h with
  | nil => exact h'
  | plain ha _ ih => exact .plain ha ih
  | pair ha ha' _ ih => exact .pair ha ha' ih

/-- The action leaves an expiry owed under `p`. -/
def Leaves (a : RedisAction K V α) (p : List α) : Prop := ∃ raw e, .put p raw e true ∈ a.notes

/-- The last action leaves nothing owed. -/
theorem Paid.last {l : List (RedisAction K V α)} (h : Paid l) {a : RedisAction K V α}
    (ha : l.getLast? = some a) (p : List α) : ¬ Leaves a p := by
  induction h with
  | nil => cases ha
  | @plain x l hx hl ih =>
    cases l with
    | nil =>
      cases ha
      rintro ⟨raw, e, hmem⟩
      exact hx.1 p raw e hmem
    | cons y l => exact ih (by rwa [List.getLast?_cons_cons] at ha)
  | @pair x y l q raw seconds hx hy hl ih =>
    rw [List.getLast?_cons_cons] at ha
    cases l with
    | nil =>
      cases ha
      rintro ⟨raw', e, hmem⟩
      have hput : RedisNote.put p raw' e true ∈ y.notes := hmem
      rw [hy] at hput
      simp at hput
    | cons z l => exact ih (by rwa [List.getLast?_cons_cons] at ha)

/-- An action after others either has nothing to do with what is owed, or leaves an expiry owed
    where none was, or pays what the action before it left. -/
theorem Paid.next {l more : List (RedisAction K V α)} {a : RedisAction K V α}
    (h : Paid (l ++ a :: more)) :
    (Plain a ∨ ∃ p raw seconds, a.notes = [.put p raw (.exat seconds) true]) ∧
        (∀ x p, l.getLast? = some x → ¬ Leaves x p) ∨
      ∃ x p raw seconds, l.getLast? = some x ∧ x.notes = [.put p raw (.exat seconds) true] ∧
        a.notes = [.dated p seconds] := by
  generalize hall : l ++ a :: more = all at h
  induction h generalizing l with
  | nil => simp at hall
  | @plain x rest hx hrest ih =>
    cases l with
    | nil =>
      cases hall
      exact .inl ⟨.inl hx, fun _ _ hn => by cases hn⟩
    | cons y l =>
      obtain ⟨hyx, hrest⟩ := List.cons.inj hall
      cases l with
      | nil =>
        refine (ih hrest).imp (fun hfirst => ⟨hfirst.1, fun z p hz => ?_⟩) ?_
        · cases hz
          rintro ⟨raw, e, hmem⟩
          exact hx.1 p raw e (hyx ▸ hmem)
        · rintro ⟨z, _, _, _, hz, -⟩
          cases hz
      | cons z l =>
        rw [List.getLast?_cons_cons]
        exact ih hrest
  | @pair x y rest p raw seconds hx hy hrest ih =>
    cases l with
    | nil =>
      cases hall
      exact .inl ⟨.inr ⟨p, raw, seconds, hx⟩, fun _ _ hn => by cases hn⟩
    | cons u l =>
      obtain ⟨hux, htail⟩ := List.cons.inj hall
      cases l with
      | nil =>
        obtain ⟨hay, -⟩ := List.cons.inj htail
        exact .inr ⟨u, p, raw, seconds, rfl, by rw [hux, hx], by rw [hay, hy]⟩
      | cons v l =>
        obtain ⟨hvy, hrest⟩ := List.cons.inj htail
        rw [List.getLast?_cons_cons]
        cases l with
        | nil =>
          refine (ih hrest).imp (fun hfirst => ⟨hfirst.1, fun z q hz => ?_⟩) ?_
          · cases hz
            rintro ⟨raw', e, hmem⟩
            have hv : v.notes = [.dated p seconds] := by rw [hvy, hy]
            have hput : RedisNote.put q raw' e true ∈ v.notes := hmem
            rw [hv] at hput
            simp at hput
          · rintro ⟨z, _, _, _, hz, -⟩
            cases hz
        | cons z l =>
          rw [List.getLast?_cons_cons]
          exact ih hrest

/-- A list of actions that all land and leave nothing owed. -/
def Fair (P : List α → RedisBytes → RedisExpiry → Prop) (l : List (RedisAction K V α)) : Prop :=
  Paid l ∧ ∀ a ∈ l, NotedPuts P a

theorem Fair.nil {P : List α → RedisBytes → RedisExpiry → Prop} :
    Fair P ([] : List (RedisAction K V α)) := ⟨.nil, by simp⟩

theorem Fair.append {P : List α → RedisBytes → RedisExpiry → Prop} {l l' : List (RedisAction K V α)}
    (h : Fair P l) (h' : Fair P l') : Fair P (l ++ l') :=
  ⟨h.1.append h'.1, fun a ha => (List.mem_append.mp ha).elim (h.2 a) (h'.2 a)⟩

theorem Fair.one {P : List α → RedisBytes → RedisExpiry → Prop} {a : RedisAction K V α}
    (hp : Plain a) (ha : NotedPuts P a) : Fair P [a] := by
  refine ⟨.plain hp .nil, fun x hx => ?_⟩
  rw [List.mem_singleton.mp hx]
  exact ha

/-- An action that puts nothing under any flat key. -/
theorem Fair.quiet {P : List α → RedisBytes → RedisExpiry → Prop} {a : RedisAction K V α}
    (hn : a.notes = []) (h : ∀ p o, a.after.strings.get? p = some o →
      a.before.strings.get? p = some o) : Fair P [a] := by
  refine Fair.one ?_ ⟨?_, ?_, ?_, fun p o ho => .inl (h p o ho)⟩ <;> simp [Plain, hn]

end NotedPuts

/-! ## What the scripts go through -/

section Scripts

variable {K V α β γ : Type} [DecidableEq α] {P : List α → RedisBytes → RedisExpiry → Prop}

theorem goes_done (r : Except Exn β) :
    (Script.done r : RedisScript K V α β).Goes fun acts _ => Fair P acts :=
  Script.Goes.done Fair.nil

/-- A command that puts nothing under any flat key. -/
theorem goes_command {m : M (RedisServer α) β}
    (h : ∀ s p o, (m s).2.strings.get? p = some o → s.strings.get? p = some o) :
    (command m : RedisScript K V α β).Goes fun acts _ => Fair P acts := by
  refine Script.Goes.one (fun s b s' hm => ?_) fun s e s' hm => ?_
  · exact Fair.quiet rfl fun p o ho => h s p o (by rw [hm]; exact ho)
  · exact Fair.quiet rfl fun p o ho => h s p o (by rw [hm]; exact ho)

/-- A script is fair whose parts are. -/
theorem goes_bind {t : RedisScript K V α β} {f : β → RedisScript K V α γ}
    (ht : t.Goes fun acts _ => Fair P acts) (hf : ∀ a, (f a).Goes fun acts _ => Fair P acts) :
    (t >>= f).Goes fun acts _ => Fair P acts := by
  refine ht.bind (fun first a hfirst => ?_) fun acts e h => h
  exact (hf a).weaken fun more res hmore => hfirst.append hmore

theorem goes_foldlM {f : β → γ → RedisScript K V α β} {xs : List γ}
    (hf : ∀ acc, ∀ x ∈ xs, (f acc x).Goes fun acts _ => Fair P acts) (acc : β) :
    (xs.foldlM f acc).Goes fun acts _ => Fair P acts := by
  refine Script.Goes.foldlM (I := fun acts (_ : Except Exn β) => Fair P acts) ?_ Fair.nil
  intro first acc' hfirst x hx
  exact (hf acc' x hx).weaken fun more res hmore => hfirst.append hmore

/-! ### Storing a value -/

/-- What the command does to the server, as an action. -/
def FlatCommand.acted (c : FlatCommand α) (s : RedisServer α) : RedisAction K V α :=
  ⟨s, okNotes (fun _ => c.notes) (c.run s).1, (c.run s).2⟩

/-- The script sends the command, and goes on if the server took it. -/
def Sends (t : RedisScript K V α β) (c : FlatCommand α) : Prop :=
  t.Goes fun acts res => ∃ s, acts = [c.acted s] ∧ ((c.run s).1 = .ok () → ∃ a, res = .ok a)

theorem goes_queued {m : M (RedisServer α) β} {note : β → List (RedisNote K V α)}
    (h : ∀ s, Fair P [⟨s, okNotes note (m s).1, (m s).2⟩]) (replies : List (Except Exn β)) :
    (do
      let reply ← Script.one (attempt m) (okNotes note)
      return replies ++ [reply] : RedisScript K V α (List (Except Exn β))).Goes
        fun acts _ => Fair P acts := by
  refine goes_bind (Script.Goes.one (fun s reply s' hm => ?_) fun s e s' hm => by cases hm)
    fun _ => goes_done _
  cases hm
  exact h s

theorem sends_one (c : FlatCommand α) :
    Sends (Script.one c.run fun _ => c.notes : RedisScript K V α Unit) c := by
  refine Script.Goes.one (fun s a s' hm => ⟨s, ?_, fun _ => ⟨a, rfl⟩⟩) fun s e s' hm => ⟨s, ?_, ?_⟩
  · unfold FlatCommand.acted
    rw [hm]
    rfl
  · unfold FlatCommand.acted
    rw [hm]
    rfl
  · intro hok
    rw [hm] at hok
    cases hok

/-- As a command of a pipeline. -/
theorem sends_queued (c : FlatCommand α) (replies : List (Except Exn Unit)) :
    Sends (do
      let reply ← Script.one (attempt c.run) (okNotes fun _ => c.notes)
      return replies ++ [reply] : RedisScript K V α (List (Except Exn Unit))) c := by
  refine Script.Goes.bind (Q := fun acts res => ∃ s, acts = [c.acted s] ∧ ∃ reply, res = .ok reply)
    ?_ ?_ ?_
  · refine Script.Goes.one (fun s a s' hm => ⟨s, ?_, a, rfl⟩) fun s e s' hm => by cases hm
    cases hm
    rfl
  · intro first a hfirst
    obtain ⟨s, hs, -⟩ := hfirst
    refine Script.Goes.done ⟨s, ?_, fun _ => ⟨_, rfl⟩⟩
    rw [hs, List.append_nil]
  · intro acts e h
    obtain ⟨s, -, reply, hr⟩ := h
    cases hr

/-- What `SET` leaves under the keys. -/
theorem strings_set {p q : List α} {raw : RedisBytes} {due : Option Instant} {s : RedisServer α}
    {o : RedisObject RedisBytes} (h : (s.putString p (some ⟨raw, due⟩)).strings.get? q = some o) :
    q = p ∧ o = ⟨raw, due⟩ ∨ q ≠ p ∧ s.strings.get? q = some o := by
  rw [RedisServer.strings_putString] at h
  split at h
  · next hq => exact .inl ⟨hq, (Option.some.inj (Option.eq_some_of_filter_eq_some h)).symm⟩
  · next hq => exact .inr ⟨hq, h⟩

theorem fair_set {p : List α} {raw : RedisBytes} {e : RedisExpiry} (he : P p raw e)
    (s : RedisServer α) : Fair P [((FlatCommand.set p raw e).acted s : RedisAction K V α)] := by
  have hrun : (FlatCommand.set p raw e).run s = RedisServer.set p raw e s := rfl
  cases hinvalid : e.invalid with
  | true =>
    have hacted : ((FlatCommand.set p raw e).acted s : RedisAction K V α) = ⟨s, [], s⟩ := by
      unfold FlatCommand.acted
      rw [hrun, RedisServer.set_run, if_pos hinvalid]
      rfl
    rw [hacted]
    exact Fair.quiet rfl fun q o ho => ho
  | false =>
    have hacted : ((FlatCommand.set p raw e).acted s : RedisAction K V α) =
        ⟨s, [.put p raw e false], s.putString p (some ⟨raw, e.due s.clock⟩)⟩ := by
      unfold FlatCommand.acted
      rw [hrun, RedisServer.set_run, if_neg (by rw [hinvalid]; decide)]
      rfl
    rw [hacted]
    refine Fair.one ⟨by simp, by simp⟩ ⟨?_, by simp, by simp, fun q o ho => ?_⟩
    · intro q raw' e' owed hmem
      simp only [List.mem_singleton, RedisNote.put.injEq] at hmem
      obtain ⟨rfl, rfl, rfl, -⟩ := hmem
      exact he
    · rcases strings_set ho with ⟨rfl, rfl⟩ | ⟨hq, ho⟩
      · exact .inr (.inl ⟨raw, e, by simp, rfl⟩)
      · exact .inl ho

theorem acted_bare (p : List α) (raw : RedisBytes) (seconds : Int) (s : RedisServer α) :
    ((FlatCommand.setBare p raw seconds).acted s : RedisAction K V α) =
      ⟨s, [.put p raw (.exat seconds) true], s.putString p (some ⟨raw, none⟩)⟩ := rfl

theorem notedPuts_bare {p : List α} {raw : RedisBytes} {seconds : Int} (he : P p raw (.exat seconds))
    (s : RedisServer α) :
    NotedPuts P ((FlatCommand.setBare p raw seconds).acted s : RedisAction K V α) := by
  rw [acted_bare]
  refine ⟨?_, ?_, by simp, fun q o ho => ?_⟩
  · intro q raw' e' owed hmem
    simp only [List.mem_singleton, RedisNote.put.injEq] at hmem
    obtain ⟨rfl, rfl, rfl, -⟩ := hmem
    exact he
  · intro q raw' e' hmem o ho
    simp only [List.mem_singleton, RedisNote.put.injEq] at hmem
    obtain ⟨rfl, rfl, -, -⟩ := hmem
    rcases strings_set ho with ⟨-, rfl⟩ | ⟨hq, -⟩
    · rfl
    · exact absurd rfl hq
  · rcases strings_set ho with ⟨rfl, -⟩ | ⟨hq, ho⟩
    · exact .inr (.inr (.inl ⟨raw, .exat seconds, by simp⟩))
    · exact .inl ho

theorem expireat_run (p : List α) (seconds : Int) (s : RedisServer α) :
    (FlatCommand.expireat p seconds).run s =
      (.ok (), match s.strings.get? p with
        | none => s
        | some o => s.putString p (some { o with expiresAt := some (seconds * 1000000) })) := by
  unfold FlatCommand.run RedisServer.expireat
  simp only [bind_apply, read_apply]
  cases s.strings.get? p <;> rfl

theorem acted_expireat (p : List α) (seconds : Int) (s : RedisServer α) :
    ((FlatCommand.expireat p seconds).acted s : RedisAction K V α) =
      ⟨s, [.dated p seconds], match s.strings.get? p with
        | none => s
        | some o => s.putString p (some { o with expiresAt := some (seconds * 1000000) })⟩ := by
  unfold FlatCommand.acted
  rw [expireat_run]
  rfl

theorem notedPuts_expireat (p : List α) (seconds : Int) (s : RedisServer α) :
    NotedPuts P ((FlatCommand.expireat p seconds).acted s : RedisAction K V α) := by
  rw [acted_expireat]
  refine ⟨by simp, by simp, ?_, fun q o ho => ?_⟩
  · intro q seconds' hmem o ho
    simp at hmem
    obtain ⟨rfl, rfl⟩ := hmem
    cases hold : s.strings.get? q with
    | none =>
      simp only [hold] at ho
      cases ho
    | some old =>
      simp only [hold] at ho
      rcases strings_set ho with ⟨-, rfl⟩ | ⟨hq, -⟩
      · exact ⟨old, rfl, rfl⟩
      · exact absurd rfl hq
  · cases hold : s.strings.get? p with
    | none =>
      simp only [hold] at ho
      exact .inl ho
    | some old =>
      simp only [hold] at ho
      rcases strings_set ho with ⟨rfl, -⟩ | ⟨hq, ho⟩
      · exact .inr (.inr (.inr ⟨seconds, by simp⟩))
      · exact .inl ho

/-- The commands that store one value are fair, whoever acts between them. -/
theorem goes_storing {f : β → FlatCommand α → RedisScript K V α β}
    (hf : ∀ acc c, Sends (f acc c) c) {p : List α} {raw : RedisBytes} {secs : Option Int}
    {createdAt : Option Instant} (he : P p raw (RedisKvBackend.expiryOf secs createdAt)) (acc : β) :
    ((RedisKvBackend.storing p raw secs createdAt).foldlM f acc).Goes fun acts _ => Fair P acts := by
  have hone : ∀ e, P p raw e → ([FlatCommand.set p raw e].foldlM f acc).Goes
      fun acts _ => Fair P acts := by
    intro e he
    rw [List.foldlM_cons]
    refine goes_bind ((hf acc _).weaken fun acts res h => ?_) fun _ => goes_done _
    obtain ⟨s, hs, -⟩ := h
    rw [hs]
    exact fair_set he s
  have hpaid : ∀ s s' seconds, P p raw (.exat seconds) →
      Fair P [((FlatCommand.setBare p raw seconds).acted s : RedisAction K V α),
        (FlatCommand.expireat p seconds).acted s'] := by
    intro s s' seconds he
    refine ⟨.pair (by rw [acted_bare]) (by rw [acted_expireat]) .nil, fun a ha => ?_⟩
    rcases List.mem_cons.mp ha with rfl | ha
    · exact notedPuts_bare he s
    · rw [List.mem_singleton.mp ha]
      exact notedPuts_expireat p seconds s'
  cases secs with
  | none => exact hone _ he
  | some secs =>
    cases createdAt with
    | none => exact hone _ he
    | some t =>
      show ([FlatCommand.setBare p raw (RedisKvBackend.expireAt t secs),
        FlatCommand.expireat p (RedisKvBackend.expireAt t secs)].foldlM f acc).Goes _
      rw [List.foldlM_cons]
      refine (hf acc _).bind (fun first acc' hfirst => ?_) fun acts e h => ?_
      · obtain ⟨s, rfl, -⟩ := hfirst
        rw [List.foldlM_cons]
        refine (hf acc' _).bind (fun second acc'' hsecond => ?_) fun acts e h => ?_
        · obtain ⟨s', rfl, -⟩ := hsecond
          exact Script.Goes.done (hpaid s s' _ he)
        · obtain ⟨s', rfl, -⟩ := h
          exact hpaid s s' _ he
      · obtain ⟨s, -, hok⟩ := h
        obtain ⟨a, ha⟩ := hok rfl
        cases ha

/-- A step that may raise before any command. -/
theorem goes_checked {r : Except Exn β} {f : β → RedisScript K V α γ}
    (hf : ∀ a, r = .ok a → (f a).Goes fun acts _ => Fair P acts) :
    (Script.done r >>= f).Goes fun acts _ => Fair P acts := by
  cases r with
  | error e => exact goes_done _
  | ok a => exact hf a rfl

end Scripts

/-- A loop over the lists made of the elements of a list, one list after the other. -/
theorem foldlM_flatMap {m : Type → Type 1} [Monad m] [LawfulMonad m] {β γ δ : Type} (g : γ → List δ)
    (f : β → δ → m β) (xs : List γ) (acc : β) :
    (xs.flatMap g).foldlM f acc = xs.foldlM (fun acc x => (g x).foldlM f acc) acc := by
  induction xs generalizing acc with
  | nil => rfl
  | cons x xs ih =>
    rw [List.flatMap_cons, List.foldlM_append, List.foldlM_cons]
    exact congrArg (_ >>= ·) (funext ih)

namespace RedisKvBackend

variable {K V α : Type} [DecidableEq α] [DecidableEq K] (b : RedisKvBackend K V α)

theorem goes_set (hflat : b.binding.collection = none) (key : K) (value : V) (options : WriteOptions) :
    (b.set key value options).Goes fun acts _ => Fair (b.Puts (.set key value options)) acts := by
  unfold set
  refine goes_checked fun p hp => goes_checked fun _ _ => goes_checked fun _ _ => ?_
  rw [hflat]
  exact goes_storing (fun _ c => sends_one c) ⟨key, value, hp, rfl, rfl, rfl, rfl⟩ ()

theorem goes_batchSet (hflat : b.binding.collection = none) (items : Dict K V)
    (options : WriteOptions) :
    (b.batchSet items options).Goes fun acts _ => Fair (b.Puts (.batchSet items options)) acts := by
  unfold batchSet
  refine goes_checked fun _ _ => goes_checked fun _ _ => goes_checked fun chunks hchunks => ?_
  refine goes_foldlM (fun _ chunk hchunk => ?_) ()
  unfold setChunk
  refine goes_checked fun rows hrows => ?_
  rw [hflat]
  refine goes_bind (goes_bind ?_ fun _ => goes_done _) fun _ => goes_done _
  have hrow : ∀ row ∈ rows, b.Puts (.batchSet items options) row.1 row.2
      (expiryOf (b.resolveTtlSeconds options.ttl) options.createdAt) := by
    intro row hrow
    obtain ⟨e, he, hp⟩ := mem_of_mapM hrows hrow
    have hitem : items.get? e.1 = some e.2 :=
      Dict.mem_entries.mp (mem_of_chunkSequence hchunks hchunk he)
    cases hkey : b.physicalKeyBlob e.1 with
    | error x =>
      rw [hkey] at hp
      cases hp
    | ok p =>
      rw [hkey] at hp
      cases hp
      exact ⟨e.1, e.2, hkey, rfl, hitem, rfl⟩
  rw [foldlM_flatMap]
  exact goes_foldlM (fun _ row hmem => goes_storing (fun replies c => sends_queued c replies)
    (hrow row hmem) _) []

omit [DecidableEq K] in
/-- What a conditional write notes of a flat key. -/
theorem mem_changedNotes {b : RedisKvBackend K V α} {secs : Option Int} {p q : List α} {key : K}
    {w : ConditionalWrite V} {raw : RedisBytes} {e : RedisExpiry} {owed : Bool}
    (h : .put q raw e owed ∈ b.changedNotes secs p key w) :
    q = p ∧ owed = false ∧ e = expiryOf secs w.createdAt ∧
      ∃ value, w.change = .put value ∧ raw = b.kvset.valueSerde.serialize value := by
  unfold changedNotes at h
  cases hb : b.binding.collection with
  | some name =>
    rw [hb] at h
    simp at h
  | none =>
    rw [hb] at h
    cases hc : w.change with
    | put value =>
      rw [hc] at h
      simp only [List.mem_cons, RedisNote.put.injEq, List.not_mem_nil, or_false, reduceCtorEq] at h
      obtain ⟨rfl, rfl, rfl, rfl⟩ := h
      exact ⟨rfl, rfl, rfl, value, rfl, rfl⟩
    | remove =>
      rw [hc] at h
      simp at h

omit [DecidableEq K] in
theorem dated_changedNotes (secs : Option Int) (p q : List α) (key : K) (w : ConditionalWrite V)
    (seconds : Int) : .dated q seconds ∉ b.changedNotes secs p key w := by
  unfold changedNotes
  split <;> simp

omit [DecidableEq K] in
theorem put_mem_changedNotes (hflat : b.binding.collection = none) (secs : Option Int) (p : List α)
    (key : K) {w : ConditionalWrite V} {value : V} (hc : w.change = .put value) :
    .put p (b.kvset.valueSerde.serialize value) (expiryOf secs w.createdAt) false ∈
      b.changedNotes secs p key w := by
  unfold changedNotes
  rw [hflat, hc]
  simp

omit [DecidableEq K] in
/-- An action that makes conditional writes, each of which noted what it did to its flat key. -/
theorem fair_changed {P : List α → RedisBytes → RedisExpiry → Prop} (secs : Option Int)
    {made : List (Swap K V α)} {s s' : RedisServer α} (hflat : b.binding.collection = none)
    (hP : ∀ x ∈ made, ∀ value, x.1.2.change = .put value →
      P x.2 (b.kvset.valueSerde.serialize value) (expiryOf secs x.1.2.createdAt))
    (h : ∀ q o, s'.strings.get? q = some o → s.strings.get? q = some o ∨
      ∃ x ∈ made, q = x.2 ∧ ∃ value, x.1.2.change = .put value ∧
        o = ⟨b.kvset.valueSerde.serialize value, (expiryOf secs x.1.2.createdAt).due s.clock⟩) :
    Fair P [⟨s, made.flatMap fun x => b.changedNotes secs x.2 x.1.1 x.1.2, s'⟩] := by
  have hnotes : ∀ q raw e owed, RedisNote.put q raw e owed ∈
      (made.flatMap fun x => b.changedNotes secs x.2 x.1.1 x.1.2) →
      ∃ x ∈ made, q = x.2 ∧ owed = false ∧ e = expiryOf secs x.1.2.createdAt ∧
        ∃ value, x.1.2.change = .put value ∧ raw = b.kvset.valueSerde.serialize value := by
    intro q raw e owed hmem
    obtain ⟨x, hx, hin⟩ := List.mem_flatMap.mp hmem
    exact ⟨x, hx, mem_changedNotes hin⟩
  have hbare : ∀ q raw e, RedisNote.put q raw e true ∉
      (made.flatMap fun x => b.changedNotes secs x.2 x.1.1 x.1.2) := by
    intro q raw e hmem
    obtain ⟨x, -, -, howed, -⟩ := hnotes q raw e true hmem
    cases howed
  have hdated : ∀ q seconds, RedisNote.dated q seconds ∉
      (made.flatMap fun x => b.changedNotes secs x.2 x.1.1 x.1.2) := by
    intro q seconds hmem
    obtain ⟨x, -, hin⟩ := List.mem_flatMap.mp hmem
    exact b.dated_changedNotes secs _ q _ _ seconds hin
  refine Fair.one ⟨hbare, hdated⟩ ⟨?_, fun q raw e hmem => absurd hmem (hbare q raw e),
    fun q seconds hmem => absurd hmem (hdated q seconds), fun q o ho => ?_⟩
  · intro q raw e owed hmem
    obtain ⟨x, hx, rfl, -, rfl, value, hc, rfl⟩ := hnotes q raw e owed hmem
    exact hP x hx value hc
  · refine (h q o ho).imp id fun hput => .inl ?_
    obtain ⟨x, hx, rfl, value, hc, rfl⟩ := hput
    exact ⟨_, _, List.mem_flatMap.mpr ⟨x, hx, b.put_mem_changedNotes hflat secs x.2 x.1.1 hc⟩, rfl⟩

omit [DecidableEq K] in
/-- An insert stores its value where nothing is. -/
theorem fair_insert (hflat : b.binding.collection = none)
    {P : List α → RedisBytes → RedisExpiry → Prop} {secs : Option Int} {row : List α × Insert K V}
    (hput : row.2.write.change = .put row.2.value)
    (hP : P row.1 (b.kvset.valueSerde.serialize row.2.value) (expiryOf secs row.2.write.createdAt))
    (s : RedisServer α) :
    Fair P [⟨s, okNotes (b.insertNotes secs row) (b.insertCommand secs row s).1,
      (b.insertCommand secs row s).2⟩] := by
  have hcommand : b.insertCommand secs row s = RedisServer.setNx row.1
      (b.kvset.valueSerde.serialize row.2.value) (expiryOf secs row.2.write.createdAt) s := by
    unfold insertCommand
    rw [hflat]
  rw [hcommand, RedisServer.setNx_run]
  split
  · exact Fair.quiet rfl fun q o ho => ho
  · split
    · exact Fair.quiet rfl fun q o ho => ho
    · have hmade : b.changedNotes secs row.1 row.2.key row.2.write =
          [((row.2.key, row.2.write), row.1)].flatMap fun x =>
            b.changedNotes secs x.2 x.1.1 x.1.2 := by simp
      show Fair P [⟨s, b.changedNotes secs row.1 row.2.key row.2.write, _⟩]
      rw [hmade]
      refine b.fair_changed secs hflat ?_ fun q o ho => ?_
      · intro x hx value hc
        rw [List.mem_singleton.mp hx] at hc ⊢
        rw [hput] at hc
        cases hc
        exact hP
      · rcases strings_set ho with ⟨rfl, rfl⟩ | ⟨-, ho⟩
        · exact .inr ⟨_, List.mem_singleton.mpr rfl, rfl, row.2.value, hput, rfl⟩
        · exact .inl ho

theorem goes_insertIfAbsent (hflat : b.binding.collection = none)
    {writes : Dict K (ConditionalWrite V)} {ttl : Option TtlPolicy} (written : Finset K)
    {chunk : List (Insert K V)} (hchunk : ∀ e ∈ chunk, e ∈ inserts writes) :
    (b.insertIfAbsent (b.resolveTtlSeconds ttl) written chunk).Goes
      fun acts _ => Fair (b.Puts (.writeIfUnchanged writes ttl)) acts := by
  unfold insertIfAbsent
  refine goes_checked fun rows hrows => ?_
  refine goes_bind (goes_bind (goes_foldlM (fun replies row hmem => ?_) []) fun _ => goes_done _)
    fun won => goes_bind ?_ fun _ => goes_done _
  · obtain ⟨e, he, hp⟩ := mem_of_mapM hrows hmem
    obtain ⟨hwrite, -, hput⟩ := mem_inserts (hchunk e he)
    cases hkey : b.physicalKeyBlob e.key with
    | error x =>
      rw [hkey] at hp
      cases hp
    | ok p =>
      rw [hkey] at hp
      cases hp
      exact goes_queued (b.fair_insert hflat hput
        ⟨e.key, e.value, hkey, rfl, e.write, hwrite, hput, rfl⟩) replies
  · unfold expireInserted
    rw [hflat]
    exact goes_done _

omit [DecidableEq K] in
/-- One command of an `EXEC`. -/
theorem queueWrite_strings (hflat : b.binding.collection = none) (secs : Option Int)
    (x : Swap K V α) (s : RedisServer α) :
    (b.queueWrite secs x s).2.clock = s.clock ∧
      ∀ q o, (b.queueWrite secs x s).2.strings.get? q = some o → s.strings.get? q = some o ∨
        (b.queueWrite secs x s).1 = .ok () ∧ q = x.2 ∧ ∃ value, x.1.2.change = .put value ∧
          o = ⟨b.kvset.valueSerde.serialize value, (expiryOf secs x.1.2.createdAt).due s.clock⟩ := by
  cases hc : x.1.2.change with
  | put value =>
    have hrun : b.queueWrite secs x s = RedisServer.set x.2 (b.kvset.valueSerde.serialize value)
        (expiryOf secs x.1.2.createdAt) s := by
      unfold queueWrite
      rw [hflat, hc]
    rw [hrun, RedisServer.set_run]
    split
    · exact ⟨rfl, fun q o ho => .inl ho⟩
    · refine ⟨s.clock_putString .., fun q o ho => ?_⟩
      rcases strings_set ho with ⟨rfl, rfl⟩ | ⟨-, ho⟩
      · exact .inr ⟨rfl, rfl, value, rfl, rfl⟩
      · exact .inl ho
  | remove =>
    have hrun : b.queueWrite secs x s = (do
        let _ ← RedisServer.del x.2
        return () : M (RedisServer α) Unit) s := by
      unfold queueWrite
      rw [hflat, hc]
    by_cases hheld : (s.strings.get? x.2).isSome = true
    · have hdel : RedisServer.del x.2 s = (.ok true, s.putString x.2 none) := by
        rw [RedisServer.del_run, if_pos hheld]
      rw [hrun, bind_ok hdel]
      refine ⟨s.clock_putString .., fun q o ho => .inl ?_⟩
      have hq : (s.putString x.2 none).strings.get? q = some o := ho
      rw [RedisServer.strings_putString] at hq
      split at hq
      · cases hq
      · exact hq
    · have hdel : RedisServer.del x.2 s = (.ok false, s) := by
        rw [RedisServer.del_run, if_neg hheld]
      rw [hrun, bind_ok hdel]
      exact ⟨rfl, fun q o ho => .inl ho⟩

omit [DecidableEq K] in
theorem queueWrites_strings (hflat : b.binding.collection = none) (secs : Option Int)
    (queued : List (Swap K V α)) (s : RedisServer α) :
    ∃ replies s', (queued.mapM fun x => attempt (b.queueWrite secs x)) s = (.ok replies, s') ∧
      s'.clock = s.clock ∧ ∀ q o, s'.strings.get? q = some o → s.strings.get? q = some o ∨
        ∃ x, (x, .ok ()) ∈ queued.zip replies ∧ q = x.2 ∧ ∃ value, x.1.2.change = .put value ∧
          o = ⟨b.kvset.valueSerde.serialize value, (expiryOf secs x.1.2.createdAt).due s.clock⟩ := by
  induction queued generalizing s with
  | nil => exact ⟨[], s, rfl, rfl, fun q o ho => .inl ho⟩
  | cons x queued ih =>
    obtain ⟨hclock, hone⟩ := b.queueWrite_strings hflat secs x s
    obtain ⟨replies, s', hrun, hclock', hmore⟩ := ih (b.queueWrite secs x s).2
    refine ⟨(b.queueWrite secs x s).1 :: replies, s', ?_, hclock'.trans hclock, fun q o ho => ?_⟩
    · rw [List.mapM_cons, bind_ok (attempt_apply _ s), bind_ok hrun]
      rfl
    · rcases hmore q o ho with ho | ⟨y, hy, hput⟩
      · refine (hone q o ho).imp id fun hput => ?_
        refine ⟨x, ?_, hput.2⟩
        rw [hput.1]
        simp
      · rw [hclock] at hput
        exact .inr ⟨y, by simp [hy], hput⟩

omit [DecidableEq K] in
/-- The commands of one `EXEC`. -/
theorem fair_exec (hflat : b.binding.collection = none)
    {P : List α → RedisBytes → RedisExpiry → Prop} {secs : Option Int}
    (watched : List (RedisName α × Nat)) {queued : List (Swap K V α)}
    (hP : ∀ x ∈ queued, ∀ value, x.1.2.change = .put value →
      P x.2 (b.kvset.valueSerde.serialize value) (expiryOf secs x.1.2.createdAt)) :
    (Script.one (RedisServer.exec watched queued (b.queueWrite secs)) (b.execNotes secs queued) :
      RedisScript K V α _).Goes fun acts _ => Fair P acts := by
  have hrun : ∀ s, ∃ replies s', RedisServer.exec watched queued (b.queueWrite secs) s =
      (.ok replies, s') ∧ Fair P [⟨s, b.execNotes secs queued replies, s'⟩] := by
    intro s
    rw [RedisServer.exec_run]
    split
    · exact ⟨none, s, rfl, Fair.quiet rfl fun q o ho => ho⟩
    · obtain ⟨replies, s', hrun, -, hstrings⟩ := b.queueWrites_strings hflat secs queued s
      refine ⟨some replies, s', by rw [map_apply, hrun]; rfl, ?_⟩
      have hnotes : ∀ l : List (Swap K V α × Except Exn Unit),
          (l.flatMap fun e => okNotes (fun _ => b.changedNotes secs e.1.2 e.1.1.1 e.1.1.2) e.2) =
            (l.filterMap fun e => e.2.toOption.map fun _ => e.1).flatMap fun x =>
              b.changedNotes secs x.2 x.1.1 x.1.2 := by
        intro l
        induction l with
        | nil => rfl
        | cons e l ih =>
          obtain ⟨x, r⟩ := e
          rw [List.flatMap_cons, ih]
          cases r <;> rfl
      show Fair P [⟨s, (queued.zip replies).flatMap _, s'⟩]
      rw [hnotes]
      refine b.fair_changed secs hflat ?_ fun q o ho => (hstrings q o ho).imp id ?_
      · intro x hx
        obtain ⟨e, he, hex⟩ := List.mem_filterMap.mp hx
        obtain ⟨-, -, rfl⟩ := Option.map_eq_some_iff.mp hex
        exact hP e.1 (List.of_mem_zip he).1
      · rintro ⟨x, hx, hput⟩
        exact ⟨x, List.mem_filterMap.mpr ⟨_, hx, rfl⟩, hput⟩
  refine Script.Goes.one (fun s a s' hm => ?_) fun s e s' hm => ?_
  · obtain ⟨replies, s'', hexec, hfair⟩ := hrun s
    rw [hm] at hexec
    cases hexec
    exact hfair
  · obtain ⟨replies, s'', hexec, -⟩ := hrun s
    rw [hm] at hexec
    cases hexec

theorem goes_swapIfUnchanged (hflat : b.binding.collection = none)
    {writes : Dict K (ConditionalWrite V)} {ttl : Option TtlPolicy} (written : Finset K)
    {chunk : List (K × ConditionalWrite V)} (hchunk : ∀ e ∈ chunk, e ∈ against writes) :
    (b.swapIfUnchanged (b.resolveTtlSeconds ttl) written chunk).Goes
      fun acts _ => Fair (b.Puts (.writeIfUnchanged writes ttl)) acts := by
  unfold swapIfUnchanged
  refine goes_checked fun ps hps => ?_
  refine goes_bind (goes_command fun s p o ho => ho) fun watched => ?_
  refine goes_bind ?_ fun current => ?_
  · unfold readRaw
    rw [hflat]
    exact goes_command fun s p o ho => ho
  · dsimp only
    split
    · exact goes_done _
    · refine goes_bind (b.fair_exec hflat watched ?_) fun replies => ?_
      · intro x hx value hc
        obtain ⟨raw, hzip, -⟩ := mem_unchanged hx
        have hpair : (x.1, x.2) ∈ chunk.zip ps := (List.of_mem_zip hzip).1
        have hwrite := Dict.mem_entries.mp
          (List.mem_filter.mp (hchunk x.1 (List.of_mem_zip hpair).1)).1
        exact ⟨x.1.1, value, zip_of_mapM hps hpair, rfl, x.1.2, hwrite, hc, rfl⟩
      · cases replies with
        | none => exact goes_done _
        | some replies => exact goes_bind (goes_done _) fun _ => goes_done _

theorem goes_batchWriteIfUnchanged (hflat : b.binding.collection = none)
    (writes : Dict K (ConditionalWrite V)) (ttl : Option TtlPolicy) :
    (b.batchWriteIfUnchanged writes ttl).Goes
      fun acts _ => Fair (b.Puts (.writeIfUnchanged writes ttl)) acts := by
  unfold batchWriteIfUnchanged
  refine goes_checked fun _ _ => goes_checked fun _ _ => ?_
  refine goes_checked fun insertChunks hinserts => goes_checked fun againstChunks hagainst => ?_
  refine goes_bind (goes_foldlM (fun written chunk hchunk => ?_) ∅) fun written =>
    goes_foldlM (fun written chunk hchunk => ?_) written
  · exact b.goes_insertIfAbsent hflat written fun e he => mem_of_chunkSequence hinserts hchunk he
  · exact b.goes_swapIfUnchanged hflat written fun e he => mem_of_chunkSequence hagainst hchunk he

/-- Every request is fair. -/
theorem goes_writeScript (hflat : b.binding.collection = none) (q : RedisWrite K V) :
    (b.writeScript q).Goes fun acts _ => Fair (b.Puts q) acts := by
  cases q with
  | set key value options => exact b.goes_set hflat key value options
  | batchSet items options => exact b.goes_batchSet hflat items options
  | writeIfUnchanged writes ttl =>
    exact goes_bind (b.goes_batchWriteIfUnchanged hflat writes ttl) fun _ => goes_done _

end RedisKvBackend

/-! ## Runs -/

section Runs

variable {ι K V α : Type} [DecidableEq ι] [DecidableEq K] [DecidableEq α]

abbrev RedisTick (ι K V α : Type) [DecidableEq α] :=
  Tick ι (RedisServer α) (RedisNote K V α) (RedisWrite K V)

/-- The last thing client `i` did in some call is to put `raw` under `p` without the expiry of
    its write. -/
def Owes (log : List (RedisTick ι K V α)) (i : ι) (p : List α) (raw : RedisBytes)
    (e : RedisExpiry) : Prop :=
  ∃ turn a, (World.callActions log i turn).getLast? = some a ∧ .put p raw e true ∈ a.notes

/-- No value is put under a key for which another client still has to send an expiry. -/
def PutsApart (log : List (RedisTick ι K V α)) : Prop :=
  Guarded (fun before t => ∀ p raw e owed, .put p raw e owed ∈ t.notes →
    ∀ i raw' e', i ≠ t.who → ¬ Owes before i p raw' e') log

/-- What a key holds is the value of one write with exactly its expiry, or was there at first. -/
def Belongs (b : RedisKvBackend K V α) (first : RedisServer α) (log : List (RedisTick ι K V α))
    (p : List α) (o : RedisObject RedisBytes) : Prop :=
  first.strings.get? p = some o ∨ ∃ t ∈ log, ∃ raw e owed, .put p raw e owed ∈ t.notes ∧
    b.Puts t.asked p raw e ∧ o = ⟨raw, e.due t.before.clock⟩

structure Fits (b : RedisKvBackend K V α) (first : RedisServer α) (log : List (RedisTick ι K V α))
    (s : RedisServer α) : Prop where
  held : ∀ p o, s.strings.get? p = some o →
    Belongs b first log p o ∨ ∃ i raw e, Owes log i p raw e
  owed : ∀ i p raw e, Owes log i p raw e → ∀ o, s.strings.get? p = some o → o = ⟨raw, none⟩
  single : ∀ i j p raw e raw' e', Owes log i p raw e → Owes log j p raw' e' → i = j

variable {b : RedisKvBackend K V α} {first : RedisServer α} {log : List (RedisTick ι K V α)}
  {t : RedisTick ι K V α}

omit [DecidableEq ι] in
theorem Belongs.mono {p : List α} {o : RedisObject RedisBytes} (h : Belongs b first log p o) :
    Belongs b first (log ++ [t]) p o := by
  refine h.imp id fun hput => ?_
  obtain ⟨t', ht', hrest⟩ := hput
  exact ⟨t', List.mem_append_left _ ht', hrest⟩

omit [DecidableEq K] in
theorem Owes.mono {i : ι} {p : List α} {raw : RedisBytes} {e : RedisExpiry}
    (h : Owes log i p raw e) (hi : i ≠ t.who) : Owes (log ++ [t]) i p raw e := by
  obtain ⟨turn, a, ha, hput⟩ := h
  refine ⟨turn, a, ?_, hput⟩
  rw [World.callActions_concat, if_neg fun hwho => hi hwho.1.symm, List.append_nil]
  exact ha

omit [DecidableEq K] in
theorem Owes.new {p : List α} {raw : RedisBytes} {e : RedisExpiry}
    (h : .put p raw e true ∈ t.notes) : Owes (log ++ [t]) t.who p raw e := by
  refine ⟨t.turn, t.toAction, ?_, h⟩
  rw [World.callActions_concat, if_pos ⟨rfl, rfl⟩, List.getLast?_concat]

omit [DecidableEq K] in
/-- Who owes something after a step does so by that step, or did before and it was not theirs. -/
theorem owes_concat (hquiet : ∀ turn, turn ≠ t.turn → Paid (World.callActions log t.who turn))
    {i : ι} {p : List α} {raw : RedisBytes} {e : RedisExpiry} (h : Owes (log ++ [t]) i p raw e) :
    (i = t.who ∧ .put p raw e true ∈ t.notes) ∨ (i ≠ t.who ∧ Owes log i p raw e) := by
  obtain ⟨turn, a, ha, hput⟩ := h
  rw [World.callActions_concat] at ha
  split at ha
  · next hwho =>
    rw [List.getLast?_concat] at ha
    cases ha
    exact .inl ⟨hwho.1.symm, hput⟩
  · next hwho =>
    rw [List.append_nil] at ha
    refine .inr ⟨fun hi => ?_, turn, a, ha, hput⟩
    have hturn : turn ≠ t.turn := fun heq => hwho ⟨hi.symm, heq.symm⟩
    rw [hi] at ha
    exact (hquiet turn hturn).last ha p ⟨raw, e, hput⟩

/-- The client owes nothing before the step, and the step dates nothing. -/
structure Free (log : List (RedisTick ι K V α)) (t : RedisTick ι K V α) : Prop where
  owes : ∀ p raw e, ¬ Owes log t.who p raw e
  dates : ∀ p seconds, .dated p seconds ∉ t.notes

/-- The step sends what the client owes, which is an expiry for `p`. -/
structure Pays (log : List (RedisTick ι K V α)) (t : RedisTick ι K V α) (p : List α)
    (raw : RedisBytes) (seconds : Int) : Prop where
  dates : t.notes = [.dated p seconds]
  owes : Owes log t.who p raw (.exat seconds)
  only : ∀ q raw' e, Owes log t.who q raw' e → q = p
  put : ∃ t' ∈ log, .put p raw (.exat seconds) true ∈ t'.notes

omit [DecidableEq K] in
theorem free_or_pays {more : List (RedisAction K V α)}
    (hpaid : Paid (World.callActions log t.who t.turn ++ t.toAction :: more))
    (hquiet : ∀ turn, turn ≠ t.turn → Paid (World.callActions log t.who turn)) :
    Free log t ∨ ∃ p raw seconds, Pays log t p raw seconds := by
  have hturn : ∀ {p raw e turn a}, (World.callActions log t.who turn).getLast? = some a →
      .put p raw e true ∈ a.notes → turn = t.turn := by
    intro p raw e turn a ha hput
    by_contra hne
    exact (hquiet turn hne).last ha p ⟨raw, e, hput⟩
  rcases hpaid.next with ⟨hnew, hlast⟩ | ⟨x, p, raw, seconds, hx, hput, hdated⟩
  · refine .inl ⟨?_, fun p seconds hmem => ?_⟩
    · rintro p raw e ⟨turn, a, ha, hput⟩
      rw [hturn ha hput] at ha
      exact hlast a p ha ⟨raw, e, hput⟩
    · rcases hnew with hplain | ⟨q, raw, seconds', hput⟩
      · exact hplain.2 p seconds hmem
      · have hnotes : t.notes = [.put q raw (.exat seconds') true] := hput
        rw [hnotes] at hmem
        simp at hmem
  · refine .inr ⟨p, raw, seconds, hdated, ⟨t.turn, x, hx, by rw [hput]; simp⟩, ?_, ?_⟩
    · rintro q raw' e ⟨turn, a, ha, hput'⟩
      rw [hturn ha hput', hx] at ha
      cases ha
      rw [hput] at hput'
      simp only [List.mem_singleton, RedisNote.put.injEq] at hput'
      exact hput'.1
    · obtain ⟨t', ht', rfl⟩ := List.mem_map.mp (List.mem_of_getLast? hx)
      refine ⟨t', (List.mem_filter.mp ht').1, ?_⟩
      have hnotes : t'.notes = [.put p raw (.exat seconds) true] := hput
      rw [hnotes]
      simp

/-- One step keeps it. -/
theorem Fits.acted {more : List (RedisAction K V α)} (h : Fits b first log t.before)
    (hlands : ∀ t' ∈ log ++ [t], NotedPuts (b.Puts t'.asked) t'.toAction)
    (hapart : ∀ p raw e owed, .put p raw e owed ∈ t.notes →
      ∀ i raw' e', i ≠ t.who → ¬ Owes log i p raw' e')
    (hpaid : Paid (World.callActions log t.who t.turn ++ t.toAction :: more))
    (hquiet : ∀ turn, turn ≠ t.turn → Paid (World.callActions log t.who turn)) :
    Fits b first (log ++ [t]) t.after := by
  have hland : NotedPuts (b.Puts t.asked) t.toAction := hlands t (by simp)
  have hcases := free_or_pays hpaid hquiet
  -- whose expiry a step sends: that of the client itself, and nobody else owes one for the key
  have hdated : ∀ p seconds, .dated p seconds ∈ t.notes → ∃ raw,
      Pays log t p raw seconds := by
    intro p seconds hmem
    rcases hcases with hfree | ⟨q, raw, seconds', hpays⟩
    · exact absurd hmem (hfree.dates p seconds)
    · have hmem' := hmem
      rw [hpays.dates] at hmem'
      simp only [List.mem_singleton, RedisNote.dated.injEq] at hmem'
      obtain ⟨rfl, rfl⟩ := hmem'
      exact ⟨raw, hpays⟩
  have hpaidup : ∀ p seconds, .dated p seconds ∈ t.notes → ∀ o, t.after.strings.get? p = some o →
      Belongs b first (log ++ [t]) p o := by
    intro p seconds hmem o ho
    obtain ⟨raw, hpays⟩ := hdated p seconds hmem
    obtain ⟨old, hold, rfl⟩ := hland.dated p seconds hmem o ho
    obtain ⟨t', ht', hput⟩ := hpays.put
    have hraw : old = ⟨raw, none⟩ := h.owed t.who p raw _ hpays.owes old hold
    refine .inr ⟨t', List.mem_append_left _ ht', raw, _, true, hput, ?_, by rw [hraw]; rfl⟩
    exact (hlands t' (List.mem_append_left _ ht')).asked p raw _ true hput
  refine ⟨fun p o ho => ?_, fun i p raw e howes o ho => ?_, fun i j p raw e raw' e' hi hj => ?_⟩
  · rcases hland.other p o ho with hbefore | ⟨raw, e, hput, rfl⟩ | ⟨raw, e, hput⟩ | ⟨seconds, hmem⟩
    · rcases h.held p o hbefore with hbelongs | ⟨i, raw, e, howes⟩
      · exact .inl hbelongs.mono
      · by_cases hi : i = t.who
        · rw [hi] at howes
          rcases hcases with hfree | ⟨q, raw', seconds, hpays⟩
          · exact absurd howes (hfree.owes p raw e)
          · have hmem : .dated p seconds ∈ t.notes := by
              rw [hpays.dates, hpays.only p raw e howes]
              simp
            exact .inl (hpaidup p seconds hmem o ho)
        · exact .inr ⟨i, raw, e, howes.mono hi⟩
    · exact .inl (.inr ⟨t, by simp, raw, e, false, hput, hland.asked p raw e false hput, rfl⟩)
    · exact .inr ⟨t.who, raw, e, Owes.new hput⟩
    · exact .inl (hpaidup p seconds hmem o ho)
  · rcases owes_concat hquiet howes with ⟨-, hput⟩ | ⟨hi, howes⟩
    · exact hland.bare p raw e hput o ho
    · rcases hland.other p o ho with hbefore | ⟨raw', e', hput, -⟩ | ⟨raw', e', hput⟩ | ⟨seconds, hmem⟩
      · exact h.owed i p raw e howes o hbefore
      · exact absurd howes (hapart p raw' e' false hput i raw e hi)
      · exact absurd howes (hapart p raw' e' true hput i raw e hi)
      · obtain ⟨raw', hpays⟩ := hdated p seconds hmem
        exact absurd (h.single i t.who p _ _ _ _ howes hpays.owes) hi
  · rcases owes_concat hquiet hi with ⟨rfl, hput⟩ | ⟨hne, hi⟩
    · rcases owes_concat hquiet hj with ⟨rfl, -⟩ | ⟨hne', hj⟩
      · rfl
      · exact absurd hj (hapart p raw e true hput j _ _ hne')
    · rcases owes_concat hquiet hj with ⟨rfl, hput⟩ | ⟨hne', hj⟩
      · exact absurd hi (hapart p raw' e' true hput i _ _ hne)
      · exact h.single i j p _ _ _ _ hi hj

/-- Time only takes values away. -/
theorem Fits.elapsed {s s' : RedisServer α} (h : Fits b first log s)
    (hs : ∀ p o, s'.strings.get? p = some o → s.strings.get? p = some o) : Fits b first log s' :=
  ⟨fun p o ho => h.held p o (hs p o ho), fun i p raw e howes o ho => h.owed i p raw e howes o (hs p o ho),
    h.single⟩

/-- Any number of clients of the server, time passing in between. -/
def writersRun (b : RedisKvBackend K V α) (first : RedisServer α) (requests : ι → List (RedisWrite K V))
    (schedule : List (ι ⊕ Nat)) : World ι Exn (RedisServer α) (RedisNote K V α) Unit (RedisWrite K V) :=
  (World.start first requests).run b.writeScript RedisServer.advance schedule

/-- What was under a flat key is still there, or nothing is. -/
def Elapsed (s s' : RedisServer α) : Prop :=
  ∀ p o, s'.strings.get? p = some o → s.strings.get? p = some o

theorem elapsed_advance (d : Nat) (s : RedisServer α) : Elapsed s (s.advance d) := by
  intro p o ho
  have hfilter : (s.strings.filter fun _ o => !o.lapsed (s.clock + d)).get? p = some o := ho
  rw [Dict.get?_filter] at hfilter
  exact Option.eq_some_of_filter_eq_some hfilter

variable {requests : ι → List (RedisWrite K V)} {schedule : List (ι ⊕ Nat)}

theorem writersRun_invariant (hflat : b.binding.collection = none) :
    World.Invariant b.writeScript (fun _ _ => True) Elapsed (fun q _ a => NotedPuts (b.Puts q) a) first
      (writersRun b first requests schedule) := by
  have : Std.Refl (fun _ _ : RedisServer α => True) := ⟨fun _ => trivial⟩
  have : IsTrans (RedisServer α) (fun _ _ => True) := ⟨fun _ _ _ _ _ => trivial⟩
  have : Std.Refl (@Elapsed α _) := ⟨fun _ _ _ h => h⟩
  have : IsTrans (RedisServer α) Elapsed := ⟨fun _ _ _ h h' p o ho => h p o (h' p o ho)⟩
  refine World.invariant_run (fun q s => ?_) (fun _ _ => trivial) elapsed_advance
    (World.invariant_start first requests) schedule
  exact ((b.goes_writeScript hflat q).weaken fun acts _ h => h.2).keeps [] s

/-- A client whose calls have all returned owes nothing. -/
theorem Paid.settled (hflat : b.binding.collection = none) {i : ι}
    (hi : ((writersRun b first requests schedule).clients i).running = none) {p : List α}
    {raw : RedisBytes} {e : RedisExpiry} :
    ¬ Owes (writersRun b first requests schedule).log i p raw e := by
  rintro ⟨turn, a, ha, hput⟩
  obtain ⟨more, hpaid, hmore⟩ := (writersRun_invariant hflat).goes Paid.nil
    (fun q => (b.goes_writeScript hflat q).weaken fun acts _ h => h.1) i turn
  have hnone : more = [] := hmore.resolve_left fun hrun => by rw [hi] at hrun; cases hrun.2
  rw [hnone, List.append_nil] at hpaid
  exact hpaid.last ha p ⟨raw, e, hput⟩

theorem fits_run (hflat : b.binding.collection = none)
    (hapart : PutsApart (writersRun b first requests schedule).log) :
    Fits b first (writersRun b first requests schedule).log
      (writersRun b first requests schedule).store := by
  induction schedule using List.reverseRecOn with
  | nil =>
    have hnone : ∀ i p raw e, ¬ Owes ([] : List (RedisTick ι K V α)) i p raw e := by
      rintro i p raw e ⟨turn, a, ha, -⟩
      cases ha
    exact ⟨fun p o ho => .inl (.inl ho), fun i p raw e h => absurd h (hnone i p raw e),
      fun i j p raw e raw' e' h => absurd h (hnone i p raw e)⟩
  | append_singleton schedule x ih =>
    have hstep : writersRun b first requests (schedule ++ [x]) =
        (writersRun b first requests schedule).step b.writeScript RedisServer.advance x :=
      World.run_concat ..
    have hbefore : World.Invariant b.writeScript _ _ _ first (writersRun b first requests schedule) :=
      writersRun_invariant hflat
    have hafter : World.Invariant b.writeScript _ _ _ first
        (writersRun b first requests (schedule ++ [x])) := writersRun_invariant hflat
    have hgoes : ∀ q, (b.writeScript q).Goes fun acts _ => Paid acts :=
      fun q => (b.goes_writeScript hflat q).weaken fun acts _ h => h.1
    rcases World.step_cases b.writeScript RedisServer.advance (writersRun b first requests schedule) x
      with ⟨hlog, hstore⟩ | ⟨t, hlog, hat, hstore, hfin, hturn⟩
    · rw [hstep, hlog] at hapart
      rw [hstep, hlog]
      rcases hstore with hsame | ⟨d, hmoved⟩
      · rw [hsame]
        exact ih hapart
      · rw [hmoved]
        exact (ih hapart).elapsed (elapsed_advance d _)
    · rw [← hstep] at hlog hstore hfin
      rw [hlog] at hapart
      rw [hlog, hstore]
      have hfits := ih hapart.left
      rw [← hat] at hfits
      obtain ⟨more, hpaid, -⟩ := hafter.goes Paid.nil hgoes t.who t.turn
      rw [hlog, World.callActions_concat, if_pos ⟨rfl, rfl⟩, List.append_assoc] at hpaid
      refine hfits.acted (fun t' ht' => ?_) ?_ hpaid fun turn hne => ?_
      · obtain ⟨l, l', hsplit⟩ := List.append_of_mem ht'
        exact hafter.guaranteed l t' l' (by rw [hlog, hsplit])
      · exact fun p raw e owed hput i raw' e' hi => hapart _ t [] rfl p raw e owed hput i raw' e' hi
      · obtain ⟨rest, hrest, hnone⟩ := hbefore.goes Paid.nil hgoes t.who turn
        have hempty : rest = [] := hnone.resolve_left fun hrun => hne (hrun.1.trans hturn.symm)
        rw [hempty, List.append_nil] at hrest
        exact hrest

/-- In every run that puts no value under a key between another client's value for it and the
    expiry this client sends after it: at every moment each key holds the value of one write
    with exactly its expiry, or with none while its own writer still has to send it, and
    once all calls have returned it is the former. -/
theorem expiry_of_write (b : RedisKvBackend K V α) (hflat : b.binding.collection = none)
    (first : RedisServer α) (requests : ι → List (RedisWrite K V)) (schedule : List (ι ⊕ Nat))
    (hapart : PutsApart (writersRun b first requests schedule).log) :
    let w := writersRun b first requests schedule
    (∀ p o, w.store.strings.get? p = some o → Belongs b first w.log p o ∨
      ∃ i raw e, Owes w.log i p raw e ∧ o = ⟨raw, none⟩) ∧
    ((∀ i, (w.clients i).running = none) → ∀ p o, w.store.strings.get? p = some o →
      Belongs b first w.log p o) := by
  have hfits := fits_run hflat hapart
  refine ⟨fun p o ho => (hfits.held p o ho).imp id fun howes => ?_, fun hidle p o ho => ?_⟩
  · obtain ⟨i, raw, e, h⟩ := howes
    exact ⟨i, raw, e, h, hfits.owed i p raw e h o ho⟩
  · refine (hfits.held p o ho).resolve_right fun howes => ?_
    obtain ⟨i, raw, e, h⟩ := howes
    exact Paid.settled hflat (hidle i) h

end Runs

/-! ## Two writers of one key -/

/-- A set of texts under texts, without a scope. -/
def texts : KvSet (List Char) RedisBytes Char RedisBytes where
  name := "texts"
  version := "1"
  wire := KeyWire.str
  keySerde := .identity _
  valueSerde := .identity _
  ttlPolicy := ⟨none⟩
  keyLayout := .literal
  scopeSchema := none

def flatTexts : RedisKvBackend (List Char) RedisBytes Char where
  kvset := texts
  scope := .empty
  binding := keyPrefixBinder texts
  valid := rfl
  batchSize := 500
  unexpiring h := by cases h

/-- One writes with an hour to live, counted from a write clock, the other without a limit. -/
def rivalSets : Bool → List (RedisWrite (List Char) RedisBytes)
  | true => [.set ['k'] [1] ⟨some ⟨some 3600000000⟩, some 1000000⟩]
  | false => [.set ['k'] [2] .none]

/-- One call after the other. -/
def setsInTurn : List (Bool ⊕ Nat) :=
  [.inl true, .inl true, .inl true, .inl true, .inl false, .inl false, .inl false]

/-- The second value comes between the first and its expiry. -/
def setsAmid : List (Bool ⊕ Nat) :=
  [.inl true, .inl true, .inl false, .inl false, .inl false, .inl true, .inl true]

/-- The key under which both write. -/
def rivalKey : List Char := "texts:v1:k".toList

theorem expiry_of_write_inTurn :
    let w := writersRun flatTexts (.empty 0) rivalSets setsInTurn
    (∀ p o, w.store.strings.get? p = some o → Belongs flatTexts (.empty 0) w.log p o ∨
      ∃ i raw e, Owes w.log i p raw e ∧ o = ⟨raw, none⟩) ∧
    ((∀ i, (w.clients i).running = none) → ∀ p o, w.store.strings.get? p = some o →
      Belongs flatTexts (.empty 0) w.log p o) := by
  have hapart : PutsApart (writersRun flatTexts (.empty 0) rivalSets setsInTurn).log := by
    intro before t after h p raw e owed hput i raw' e' hi howes
    have hlen : before.length < 3 := by
      have hlength := congrArg List.length h
      rw [List.length_append, List.length_cons] at hlength
      have hthree : (writersRun flatTexts (.empty 0) rivalSets setsInTurn).log.length = 3 := rfl
      omega
    have htake : (writersRun flatTexts (.empty 0) rivalSets setsInTurn).log.take before.length =
        before := by
      rw [h]
      simp
    have hget : (writersRun flatTexts (.empty 0) rivalSets setsInTurn).log[before.length]? = some t := by
      rw [h]
      simp
    have hn : before.length = 0 ∨ before.length = 1 ∨ before.length = 2 := by omega
    rcases hn with hn | hn | hn
    · rw [List.length_eq_zero_iff.mp hn] at howes
      obtain ⟨turn, a, ha, -⟩ := howes
      cases ha
    · have hnotes : ((writersRun flatTexts (.empty 0) rivalSets setsInTurn).log[1]?).map (·.notes) =
          some [.dated rivalKey 3601] := rfl
      rw [← hn, hget] at hnotes
      have hdated : t.notes = [.dated rivalKey 3601] := Option.some.inj hnotes
      rw [hdated] at hput
      simp at hput
    · -- the first call has returned by then
      have hidle : ∀ j, ((writersRun flatTexts (.empty 0) rivalSets (setsInTurn.take 4)).clients
          j).running = none := by
        intro j
        cases j <;> rfl
      have hlog : (writersRun flatTexts (.empty 0) rivalSets (setsInTurn.take 4)).log = before := by
        rw [← htake, hn]
        rfl
      rw [← hlog] at howes
      exact Paid.settled rfl (hidle i) howes
  exact expiry_of_write flatTexts rfl (.empty 0) rivalSets setsInTurn hapart

/-- The second value stands under the first write's expiry, and both calls have returned. -/
theorem expiry_strayed : ¬ ∀ {ι : Type} [DecidableEq ι]
    (requests : ι → List (RedisWrite (List Char) RedisBytes)) (schedule : List (ι ⊕ Nat)),
    let w := writersRun flatTexts (.empty 0) requests schedule
    (∀ i, (w.clients i).running = none) → ∀ p o, w.store.strings.get? p = some o →
      Belongs flatTexts (.empty 0) w.log p o := by
  intro hall
  have hidle : ∀ i, ((writersRun flatTexts (.empty 0) rivalSets setsAmid).clients i).running = none := by
    intro i
    cases i <;> rfl
  have hheld : (writersRun flatTexts (.empty 0) rivalSets setsAmid).store.strings.get? rivalKey =
      some ⟨[2], some 3601000000⟩ := by
    decide
  -- every write of the value 2 was without an expiry
  have hputs : (writersRun flatTexts (.empty 0) rivalSets setsAmid).log.all (fun t => t.notes.all fun
      | .put _ raw e _ => raw ≠ [2] || e = .never
      | _ => true) = true := by
    decide
  rcases hall rivalSets setsAmid hidle rivalKey _ hheld with hfirst | ⟨t, ht, raw, e, owed, hput, -, ho⟩
  · cases hfirst
  · have hnote := List.all_eq_true.mp (List.all_eq_true.mp hputs t ht) _ hput
    have hraw : raw = [2] := (congrArg RedisObject.value ho).symm
    rw [hraw] at hnote
    have hnever : e = .never := by simpa using hnote
    rw [hnever] at ho
    cases congrArg RedisObject.expiresAt ho

end Kvtsjl
