import Kvtsjl.KeySteps
import Kvtsjl.KeyViews
import Kvtsjl.Lib.Ledger
import Kvtsjl.ZipLife

/-
  Stores that are maps whose entries expire.
  `IsMap` says it of a store: an operation leaves the keys it does not name as they were, whatever comes of it,
  and where it returns a read answers what it wrote, for as long as that is shown. A memory store is such a map,
  and a view of a map is.
-/

namespace Kvtsjl

open Assoc (Dict)
open Effects Prog

/-! ## What an operation leaves -/

/-- What the reader of a value finds at an instant, of a value written with these options at an earlier one. -/
abbrev Showing (V : Type) : Type := V → WriteOptions → Instant → Instant → Option V

/-- What is found of what was left: a value written with its options, or nothing. -/
def Showing.found {V : Type} (shown : Showing V) (left : Option (V × WriteOptions)) (now u : Instant) : Option V :=
  left.bind fun w => shown w.1 w.2 now u

section Leaves

variable {σ K V : Type}

/-- What an operation that returns leaves under a key. Of a conditional write that depends on what was stored. -/
def RecordOp.leaves [DecidableEq K] : RecordOp K V → K → Option (Option (V × WriteOptions))
  | .set key value options, k => if k = key then some (some (value, options)) else none
  | .batchSet items options, k => (items.get? k).map fun value => some (value, options)
  | .writeIfUnchanged _ _, _ => none
  | .delete key, k => if k = key then some none else none
  | .batchDelete keys, k => if k ∈ keys then some none else none
  | .unset key, k => if k = key then some none else none
  | .batchUnset keys, k => if k ∈ keys then some none else none

/-- What a read of the key answers. -/
def KvStore.answer (s : KvStore σ K V) (k : K) (st : σ) : Except Exn (Option V) := (s.get k st).1

/-- No time passes, and every key answers in the second state as it would have in the first. -/
structure KvStore.Quiet (s : KvStore σ K V) (clock : Clock Instant σ) (st st' : σ) : Prop where
  stays : clock.Stays st st'
  spares : ∀ k, clock.Spares (s.answer k) st st'

instance quiet_refl (s : KvStore σ K V) (clock : Clock Instant σ) : Std.Refl (s.Quiet clock) :=
  ⟨fun st => ⟨Std.Refl.refl st, fun _ => Std.Refl.refl st⟩⟩

instance quiet_trans (s : KvStore σ K V) (clock : Clock Instant σ) : IsTrans σ (s.Quiet clock) :=
  ⟨fun _ _ _ h h' => ⟨IsTrans.trans _ _ _ h.stays h'.stays, fun k => IsTrans.trans _ _ _ (h.spares k) (h'.spares k)⟩⟩

/-- What else a store is asked, and writes nothing for: its versions, its scans and its expired keys. -/
structure KvStore.Looks (s : KvStore σ K V) (Q : ∀ {α : Type}, M σ α → Prop) : Prop where
  versions : ∀ ks, Q (s.batchReadVersioned ks)
  scan : ∀ query, Q (s.scanEntries query)
  expired : ∀ now limit, Q (s.expiredKeys now limit)

/-- The store is a map of entries that expire. `shown` is what a read finds of a value, and when. -/
structure KvStore.IsMap [DecidableEq K] (clock : Clock Instant σ) (shown : Showing V) (s : KvStore σ K V) : Prop where
  atOnce : s.writesAreDeferred = false
  now : ∀ k t st, clock.Shows t st → s.answer k (clock.goTo t st) = s.answer k st
  reads : s.Reads (Moves (s.Quiet clock))
  looks : s.Looks (Moves (s.Quiet clock))
  spares : ∀ k (op : RecordOp K V), k ∉ op.keys → Moves (clock.Spares (s.answer k)) (op.run s)
  stays : ∀ op : RecordOp K V, Moves clock.Stays (op.run s)
  leaves : ∀ (op : RecordOp K V) k left, op.leaves k = some left → ∀ t st st', clock.Shows t st →
    op.run s st = (.ok (), st') → clock.Foretells (s.answer k) t (fun u => .ok (shown.found left t u)) st'

end Leaves

/-! ## One by one -/

section OneByOne

variable {σ γ K V : Type}

/-- A loop that returns has brought about what one of its steps does, and the others keep. -/
theorem forM_brings {xs : List γ} {f : γ → M σ Unit} {x : γ} {I P : σ → Prop} (hx : x ∈ xs)
    (hI : ∀ y ∈ xs, ∀ s s', I s → f y s = (.ok (), s') → I s') (hP : ∀ s s', I s → f x s = (.ok (), s') → P s')
    (hkeep : ∀ y ∈ xs, y ≠ x → ∀ s s', I s → P s → f y s = (.ok (), s') → P s') {s s' : σ} (hs : I s)
    (h : forM xs f s = (.ok (), s')) : P s' := by
  have hrest : ∀ ys : List γ, (∀ y ∈ ys, y ∈ xs) → ∀ s, I s → (x ∈ ys ∨ P s) → forM ys f s = (.ok (), s') → P s' := by
    intro ys
    induction ys with
    | nil =>
      intro _ s _ hor hrun
      obtain ⟨-, rfl⟩ := Prod.mk.inj hrun
      exact hor.resolve_left List.not_mem_nil
    | cons y ys ih =>
      intro hsub s hs hor hrun
      rw [List.forM_cons] at hrun
      rcases hy : f y s with ⟨e | u, s1⟩
      · rw [bind_error hy] at hrun
        cases hrun
      · rw [bind_ok hy] at hrun
        have hmem := hsub y List.mem_cons_self
        refine ih (fun z hz => hsub z (List.mem_cons_of_mem _ hz)) s1 (hI y hmem s s1 hs hy) ?_ hrun
        by_cases hyx : y = x
        · rw [hyx] at hy
          exact .inr (hP s s1 hs hy)
        · rcases hor with hin | hp
          · exact .inl ((List.mem_cons.mp hin).resolve_left (Ne.symm hyx))
          · exact .inr (hkeep y hmem hyx s s1 hs hp hy)
  exact hrest xs (fun _ hy => hy) s hs (.inl hx) h

/-- Counting the keys answered `true`, where the count is dropped. -/
theorem discard_countTrue (op : K → M σ Bool) (ks : List K) :
    (Functor.discard (countTrue op ks) : M σ Unit) = forM ks fun k => Functor.discard (op k) := by
  have hfrom : ∀ n : Nat, (Functor.discard (ks.foldlM (fun n key => do
      if ← op key then pure (n + 1) else pure n : Nat → K → M σ Nat) n) : M σ Unit) =
        forM ks fun k => Functor.discard (op k) := by
    induction ks with
    | nil => exact fun n => rfl
    | cons k ks ih =>
      intro n
      rw [List.foldlM_cons, List.forM_cons, bind_assoc, discard_bind, discard_then]
      refine bind_congr fun b => ?_
      cases b with
      | false => exact ih n
      | true => exact ih (n + 1)
  exact hfrom 0

variable {clock : Clock Instant σ} {ask : σ → Except Exn (Option V)} {T : Type} {t : Instant}
  {answer : Instant → Except Exn (Option V)}

/-- Steps of which one brings the answer about, and the others are about other keys. -/
theorem forM_foretells {xs : List γ} {f : γ → M σ Unit} {x : γ} (hx : x ∈ xs) (hstays : ∀ y, Moves clock.Stays (f y))
    (hself : ∀ s s', clock.Shows t s → f x s = (.ok (), s') → clock.Foretells ask t answer s')
    (hother : ∀ y ∈ xs, y ≠ x → Moves (clock.Spares ask) (f y)) {s s' : σ} (hs : clock.Shows t s)
    (h : forM xs f s = (.ok (), s')) : clock.Foretells ask t answer s' := by
  refine forM_brings (I := clock.Shows t) hx (fun y _ s s' hs hy => ?_) hself (fun y hy hne s s' hs hp hrun => ?_) hs h
  · have hstay := hstays y s t hs
    rwa [hy] at hstay
  · have hspare := hother y hy hne s
    rw [hrun] at hspare
    exact hspare.foretells hs hp

end OneByOne

/-! ## Views -/

section Views

variable {σ K SK T U V : Type} [DecidableEq K] [DecidableEq SK] {clock : Clock Instant σ}

section Asking

variable {shown : Showing V} {s : KvStore σ K V} (h : s.IsMap clock shown)

include h

omit [DecidableEq SK]

theorem KvStore.IsMap.about_other (k : K) : s.About (fun j => j ≠ k) (clock.Spares (s.answer k)) where
  op op hp := h.spares k op fun hk => hp k hk rfl
  probe ks st := (h.reads.batchExists ks st).spares k

theorem KvStore.IsMap.about_any : s.About (fun _ => True) clock.Stays where
  op op _ := h.stays op
  probe ks st := (h.reads.batchExists ks st).stays

end Asking

/-- What a value view shows of what it wrote. -/
def Showing.imap (shown : Showing T) (forward : T → U) (inverse : U → T) : Showing U :=
  fun value options now u => (shown (inverse value) options now u).map forward

omit [DecidableEq K] [DecidableEq SK] in
theorem Showing.found_imap (shown : Showing T) (forward : T → U) (inverse : U → T) (left : Option (U × WriteOptions))
    (now u : Instant) : (shown.imap forward inverse).found left now u =
      (shown.found (left.map fun w => (inverse w.1, w.2)) now u).map forward := by
  cases left <;> rfl

theorem of_ite_some {α : Type} {p : Prop} [Decidable p] {x y : α} (h : (if p then some x else none) = some y) :
    p ∧ x = y := by
  obtain ⟨hp, hxy⟩ := Option.ite_none_right_eq_some.mp h
  exact ⟨hp, Option.some.inj hxy⟩

/-- What a view of keys and values asks of the store behind it. `passed` is what it makes of conditional writes. -/
def viewAsks (toStore : K → SK) (inverse : U → T)
    (passed : Dict K (ConditionalWrite U) → Dict SK (ConditionalWrite T)) : RecordOp K U → List (RecordOp SK T)
  | .set key value options => [.set (toStore key) (inverse value) options]
  | .batchSet items options => items.entries.map fun e => .set (toStore e.1) (inverse e.2) options
  | .writeIfUnchanged writes ttl => [.writeIfUnchanged (passed writes) ttl]
  | .delete key => [.delete (toStore key)]
  | .batchDelete keys => keys.map fun key => .delete (toStore key)
  | .unset key => [.unset (toStore key)]
  | .batchUnset keys => [.batchUnset (keys.map toStore)]

section Asked

variable {toStore : K → SK} (hinj : Function.Injective toStore) (inverse : U → T)
  (passed : Dict K (ConditionalWrite U) → Dict SK (ConditionalWrite T))

include hinj

omit [DecidableEq SK] in
/-- A view asks nothing of keys it is not asked about. -/
theorem viewAsks_names (hpassed : ∀ writes k, k ∉ writes.keys → toStore k ∉ (passed writes).keys) {op : RecordOp K U}
    {k : K} (hk : k ∉ op.keys) : ∀ a ∈ viewAsks toStore inverse passed op, toStore k ∉ a.keys := by
  have hone : ∀ key, k ≠ key → toStore k ∉ [toStore key] := fun key hne hmem => hne (hinj (List.mem_singleton.mp hmem))
  intro a ha
  cases op with
  | batchSet items options =>
    obtain ⟨e, he, rfl⟩ := List.mem_map.mp ha
    refine hone e.1 fun hke => hk ?_
    rw [hke]
    exact Dict.mem_keys.mpr ⟨e.2, Dict.mem_entries.mp he⟩
  | batchDelete keys =>
    obtain ⟨j, hj, rfl⟩ := List.mem_map.mp ha
    refine hone j fun hkj => hk ?_
    rw [hkj]
    exact hj
  | writeIfUnchanged writes ttl =>
    obtain rfl := List.mem_singleton.mp ha
    exact hpassed writes k hk
  | batchUnset keys =>
    obtain rfl := List.mem_singleton.mp ha
    intro hmem
    obtain ⟨j, hj, hkj⟩ := List.mem_map.mp hmem
    exact hk (hinj hkj ▸ hj)
  | _ =>
    obtain rfl := List.mem_singleton.mp ha
    exact hone _ fun hke => hk (List.mem_singleton.mpr hke)

/-- Of what a view asks, one operation leaves under the stored key what is to be left under the caller's, and the
    others are about other keys. -/
theorem viewAsks_leaves {op : RecordOp K U} {k : K} {left : Option (U × WriteOptions)}
    (hleft : op.leaves k = some left) :
    ∃ a ∈ viewAsks toStore inverse passed op, a.leaves (toStore k) = some (left.map fun w => (inverse w.1, w.2)) ∧
      ∀ b ∈ viewAsks toStore inverse passed op, b ≠ a → toStore k ∉ b.keys := by
  have halone : ∀ {a : RecordOp SK T}, ∀ b ∈ [a], b ≠ a → toStore k ∉ b.keys :=
    fun {a} b hb hne => absurd (List.mem_singleton.mp hb) hne
  cases op with
  | set key value options =>
    obtain ⟨rfl, rfl⟩ := of_ite_some hleft
    exact ⟨_, List.mem_singleton_self _, if_pos rfl, halone⟩
  | batchSet items options =>
    obtain ⟨value, hvalue, rfl⟩ := Option.map_eq_some_iff.mp hleft
    refine ⟨_, List.mem_map.mpr ⟨(k, value), Dict.mem_entries.mpr hvalue, rfl⟩, if_pos rfl, fun b hb hne hmem => ?_⟩
    obtain ⟨⟨j, other⟩, hj, rfl⟩ := List.mem_map.mp hb
    obtain rfl := hinj (List.mem_singleton.mp hmem)
    obtain rfl : other = value := Option.some.inj ((Dict.mem_entries.mp hj).symm.trans hvalue)
    exact hne rfl
  | writeIfUnchanged writes ttl => cases hleft
  | delete key =>
    obtain ⟨rfl, rfl⟩ := of_ite_some hleft
    exact ⟨_, List.mem_singleton_self _, if_pos rfl, halone⟩
  | batchDelete keys =>
    obtain ⟨hk, rfl⟩ := of_ite_some hleft
    refine ⟨_, List.mem_map.mpr ⟨k, hk, rfl⟩, if_pos rfl, fun b hb hne hmem => ?_⟩
    obtain ⟨j, hj, rfl⟩ := List.mem_map.mp hb
    obtain rfl := hinj (List.mem_singleton.mp hmem)
    exact hne rfl
  | unset key =>
    obtain ⟨rfl, rfl⟩ := of_ite_some hleft
    exact ⟨_, List.mem_singleton_self _, if_pos rfl, halone⟩
  | batchUnset keys =>
    obtain ⟨hk, rfl⟩ := of_ite_some hleft
    exact ⟨_, List.mem_singleton_self _, if_pos (List.mem_map.mpr ⟨k, hk, rfl⟩), halone⟩

variable {s : KvStore σ SK T} {view : KvStore σ K U} {shown : Showing T} {forward : T → U}

/-- A view that asks a map for its part of an operation, and reads what the map answers, is a map. -/
theorem view_isMap (h : s.IsMap clock shown) (hatOnce : view.writesAreDeferred = false)
    (hpassed : ∀ writes k, k ∉ writes.keys → toStore k ∉ (passed writes).keys)
    (hrun : ∀ op, op.run view = forM (viewAsks toStore inverse passed op) fun a => a.run s)
    (hanswer : ∀ k st, view.answer k st = (s.answer (toStore k) st).map (Option.map forward))
    (hreads : ∀ {Q : ∀ {α : Type}, M σ α → Prop}, Closed Q → s.Reads Q → view.Reads Q)
    (hlooks : ∀ {Q : ∀ {α : Type}, M σ α → Prop}, Closed Q → s.Looks Q → view.Looks Q) :
    view.IsMap clock (shown.imap forward inverse) := by
  have hquiet : ∀ {α : Type} {m : M σ α}, Moves (s.Quiet clock) m → Moves (view.Quiet clock) m := fun {_ _} hm st =>
    ⟨(hm st).stays, fun k => ((hm st).spares (toStore k)).made _ (hanswer k)⟩
  refine ⟨hatOnce, fun k t st ht => ?_, ?_, ?_, fun k op hk => ?_, fun op => ?_,
    fun op k left hleft t st st' ht hst => ?_⟩
  · rw [hanswer, hanswer, h.now _ t st ht]
  · exact KvStore.isRead_reads fun {α} {m} hm => hquiet ((hreads (moves_closed _) h.reads).isRead hm)
  · have hview := hlooks (moves_closed _) h.looks
    exact ⟨fun ks => hquiet (hview.versions ks), fun query => hquiet (hview.scan query),
      fun now limit => hquiet (hview.expired now limit)⟩
  · rw [hrun]
    refine Moves.forM fun a ha st => Clock.Spares.made ?_ _ (hanswer k)
    exact h.spares _ a (viewAsks_names hinj inverse passed hpassed hk a ha) st
  · rw [hrun]
    exact Moves.forM fun a _ => h.stays a
  · obtain ⟨a, ha, hleaves, hother⟩ := viewAsks_leaves hinj inverse passed hleft
    rw [hrun] at hst
    have hstored : clock.Foretells (s.answer (toStore k)) t _ st' := forM_foretells ha h.stays
      (fun s1 s2 h1 h2 => h.leaves a (toStore k) _ hleaves t s1 s2 h1 h2)
      (fun b hb hne => h.spares _ b (hother b hb hne)) ht hst
    intro u hu
    show view.answer k (clock.goTo u st') = .ok ((shown.imap forward inverse).found left t u)
    rw [hanswer, hstored u hu, Showing.found_imap]
    rfl

end Asked

omit [DecidableEq K] [DecidableEq SK] in
theorem forM_one {γ : Type} (f : γ → M σ Unit) (x : γ) : forM [x] f = f x := by
  rw [List.forM_cons]
  exact bind_pure _

omit [DecidableEq K] [DecidableEq SK] in
theorem discard_countTrue_map {γ : Type} (op : K → M σ Bool) (f : γ → M σ Unit) (g : K → γ)
    (h : ∀ k, Functor.discard (op k) = f (g k)) (ks : List K) :
    (Functor.discard (countTrue op ks) : M σ Unit) = forM (ks.map g) f := by
  rw [discard_countTrue, forM_map]
  exact congrArg (forM ks) (funext h)

omit [DecidableEq K] [DecidableEq SK] in
theorem defaultExpiredKeys_closed {Q : ∀ {α : Type}, M σ α → Prop} (hc : Closed Q) (limit : Int) :
    Q (defaultExpiredKeys limit : M σ (List K)) := by
  unfold defaultExpiredKeys
  split
  · exact hc.raise _
  · exact hc.pure _

omit [DecidableEq K] [DecidableEq SK] in
theorem requireFromStore_closed {Q : ∀ {α : Type}, M σ α → Prop} (hc : Closed Q) (fromStore : Option (SK → K)) :
    Q (requireFromStore fromStore : M σ (SK → K)) := by
  cases fromStore with
  | none => exact hc.raise _
  | some outward => exact hc.pure _

/-- A value view of a map is a map. -/
theorem imapStore_isMap {s : KvStore σ K T} {shown : Showing T} (h : s.IsMap clock shown) (forward : T → U)
    (inverse : U → T) : (imapStore s forward inverse).IsMap clock (shown.imap forward inverse) := by
  refine view_isMap Function.injective_id inverse (fun writes => writes.map fun _ w => inverseWrite inverse w) h rfl
    (fun writes k hk => ?_) (fun op => ?_) (fun k st => ?_) (fun hc hreads => imapStore_reads hc hreads forward inverse)
    fun hc hlooks => ⟨fun ks => hc.map (hlooks.versions ks) _, fun query => hc.map (hlooks.scan _) _,
      fun _ limit => defaultExpiredKeys_closed hc limit⟩
  · rwa [Dict.keys_map]
  · cases op with
    | batchSet items options => exact (forM_map _ _ _).symm ▸ rfl
    | batchDelete keys => exact discard_countTrue_map s.delete (RecordOp.run s) RecordOp.delete (fun _ => rfl) keys
    | batchUnset keys =>
      rw [viewAsks, List.map_id]
      exact (forM_one _ _).symm
    | _ => exact (forM_one _ _).symm
  · show ((Option.map forward <$> s.get k) st).1 = _
    rw [map_apply]
    rfl

omit [DecidableEq K] [DecidableEq SK] in
theorem Showing.imap_id (shown : Showing V) : shown.imap id id = shown := by
  funext value options now u
  exact Option.map_id_apply

/-- A key view of a map is a map, where no two keys are stored as one. -/
theorem imapKeysStore_isMap {s : KvStore σ SK V} {shown : Showing V} (h : s.IsMap clock shown) {toStore : K → SK}
    (hinj : Function.Injective toStore) (fromStore : Option (SK → K)) :
    (imapKeysStore s toStore fromStore).IsMap clock shown := by
  have hview : (imapKeysStore s toStore fromStore).IsMap clock (shown.imap id id) := by
    refine view_isMap hinj id (storedWrites toStore) h rfl (fun writes k hk hmem => ?_) (fun op => ?_)
      (fun k st => ?_) (fun hc hreads => imapKeysStore_reads hc hreads toStore fromStore)
      fun hc hlooks => ⟨fun ks => hc.map (hlooks.versions _) _, fun query => ?_, fun now limit => ?_⟩
    · obtain ⟨w, hw⟩ := Dict.mem_keys.mp hmem
      obtain ⟨j, hj, hjk⟩ := storedWrites_get? hw
      exact hk (Dict.mem_keys.mpr ⟨w, hinj hjk ▸ hj⟩)
    · cases op with
      | batchSet items options => exact (forM_map _ _ _).symm ▸ rfl
      | writeIfUnchanged writes ttl =>
        refine Eq.trans ?_ (forM_one _ _).symm
        exact discard_bind_pure _ _
      | batchDelete keys =>
        exact discard_countTrue_map (fun key => s.delete (toStore key)) (RecordOp.run s)
          (fun key => RecordOp.delete (toStore key)) (fun _ => rfl) keys
      | _ => exact (forM_one _ _).symm
    · rw [Option.map_id]
      exact (Except.map_id.symm ▸ rfl)
    · refine hc.bind (requireFromStore_closed hc fromStore) fun outward => ?_
      split
      · exact hc.bind (hc.raise _) fun _ => hc.map (hlooks.scan _) _
      · exact hc.map (hlooks.scan _) _
    · exact hc.bind (requireFromStore_closed hc fromStore) fun outward => hc.map (hlooks.expired now limit) _
  rwa [Showing.imap_id] at hview

end Views

/-! ## A memory store -/

namespace MemoryKvBackend

variable {K V α VB : Type} [DecidableEq α] (b : MemoryKvBackend K V α VB)

/-- The time of a memory store. -/
def timer : Clock Instant (MemoryRoot α VB) :=
  ⟨fun t r => r.clock = t, MemoryRoot.goTo, fun _ _ => rfl, fun _ _ _ => rfl⟩

/-- A value is found until its time to live is over, counted from `created_at` or else from the write. -/
def shows : Showing V := fun value options now u =>
  match b.resolveTtlSeconds options.ttl with
  | none => some value
  | some secs => if u < options.createdAt.getD now + secs * 1000000 then some value else none

variable {b}

theorem expired_later {e : Entry VB} {t u : Instant} (h : expired e t = true) (hle : t ≤ u) : expired e u = true := by
  rw [expired_eq_true] at h ⊢
  exact fun halive => h (halive.earlier hle)

/-- A key's answers are spared where its entry is as it was, or was over and has gone. -/
theorem timer_spares [DecidableEq K] {k : K} {r r' : MemoryRoot α VB} (hclock : r'.clock = r.clock)
    (h : ∀ p, b.physicalKeyBlob k = .ok p → b.entryAt r' p = b.entryAt r p ∨
      b.entryAt r' p = none ∧ ∃ e, b.entryAt r p = some e ∧ expired e r.clock = true) :
    timer.Spares (b.store.answer k) r r' := by
  rintro t rfl
  refine ⟨hclock, fun u hu => ?_⟩
  show (b.get k (r'.goTo u)).1 = (b.get k (r.goTo u)).1
  rw [b.get_eq, b.get_eq]
  refine congrArg (Except.bind · _) ?_
  cases hp : b.physicalKeyBlob k with
  | error e => rw [b.liveEntry_error hp, b.liveEntry_error hp]
  | ok p =>
    rw [b.liveEntry_ok hp, b.liveEntry_ok hp]
    show Except.ok ((b.entryAt r' p).filter fun e => !expired e u) = .ok ((b.entryAt r p).filter fun e => !expired e u)
    rcases h p hp with hsame | ⟨hnone, e, he, hx⟩
    · rw [hsame]
    · rw [hnone, he, Option.filter_some, expired_later hx hu]
      rfl

theorem quiet_of_fades [DecidableEq K] {γ : Type} {m : M (MemoryRoot α VB) γ} (h : Moves b.Fades m) :
    Moves (b.store.Quiet timer) m := fun r =>
  ⟨fun _ ht => (h r).1.trans ht, fun _ => timer_spares (h r).1 fun p _ => (h r).2 p⟩

/-- What is done at one key spares the answers of the others. -/
theorem spares_of_entry [DecidableEq K] {k : K} {r r' : MemoryRoot α VB} (hclock : r'.clock = r.clock)
    (h : b.entry r' k = b.entry r k) : timer.Spares (b.store.answer k) r r' := by
  refine timer_spares hclock fun p hp => .inl ?_
  rwa [← b.entry_eq hp, ← b.entry_eq hp]

theorem set_spares [DecidableEq K] {k j : K} (hne : k ≠ j) (v : V) (o : WriteOptions) :
    Moves (timer.Spares (b.store.answer k)) (b.set j v o) := by
  intro r
  cases hp : b.physicalKeyBlob j with
  | ok p =>
    rw [b.set_apply hp]
    exact spares_of_entry rfl ((b.entry_put hp _ _ _ _ k).2 hne)
  | error e =>
    unfold set
    rw [b.physicalKey_error hp, raise_bind]
    exact Std.Refl.refl r

theorem delete_spares [DecidableEq K] {k j : K} (hne : k ≠ j) :
    Moves (timer.Spares (b.store.answer k)) (b.delete j) := by
  intro r
  cases hp : b.physicalKeyBlob j with
  | ok p =>
    rw [b.delete_apply hp]
    exact spares_of_entry rfl ((b.entry_pop hp _ k).2 hne)
  | error e =>
    unfold delete
    rw [b.physicalKey_error hp, raise_bind]
    exact Std.Refl.refl r

theorem set_stays (j : K) (v : V) (o : WriteOptions) : Moves timer.Stays (b.set j v o) := by
  intro r
  cases hp : b.physicalKeyBlob j with
  | ok p =>
    rw [b.set_apply hp]
    exact fun t ht => ht
  | error e =>
    unfold set
    rw [b.physicalKey_error hp, raise_bind]
    exact fun t ht => ht

theorem delete_stays (j : K) : Moves timer.Stays (b.delete j) := by
  intro r
  cases hp : b.physicalKeyBlob j with
  | ok p =>
    rw [b.delete_apply hp]
    exact fun t ht => ht
  | error e =>
    unfold delete
    rw [b.physicalKey_error hp, raise_bind]
    exact fun t ht => ht

section Moving

variable {R : MemoryRoot α VB → MemoryRoot α VB → Prop} [Std.Refl R] [IsTrans _ R]

theorem writeIfUnchanged_moves {j : K} (hset : ∀ v o, Moves R (b.set j v o)) (hdelete : Moves R (b.delete j))
    (ttl : Option TtlPolicy) (w : ConditionalWrite V) : Moves R (b.writeIfUnchanged ttl j w) := by
  unfold writeIfUnchanged physicalKey
  refine Moves.bind (by split; exacts [Moves.pure _, Moves.raise _]) fun p =>
    Moves.bind (Moves.read _) fun current => ?_
  split
  · exact Moves.pure _
  · split
    · exact hdelete
    · exact (hset _ _).bind fun _ => Moves.pure _

/-- An operation of a memory store is made of sets and deletes of the keys it names. -/
theorem op_moves [DecidableEq K] (op : RecordOp K V) (hset : ∀ j ∈ op.keys, ∀ v o, Moves R (b.set j v o))
    (hdelete : ∀ j ∈ op.keys, Moves R (b.delete j)) : Moves R (op.run b.store) := by
  have hcount : ∀ keys : List K, (∀ j ∈ keys, Moves R (b.delete j)) →
      Moves R (Functor.discard (countTrue b.delete keys)) := by
    intro keys h
    rw [discard_countTrue]
    exact Moves.forM fun j hj => moves_discard (h j hj)
  cases op with
  | set key value options => exact hset key (List.mem_singleton_self key) value options
  | batchSet items options =>
    exact Moves.forM fun e he => hset e.1 (Dict.mem_keys.mpr ⟨e.2, Dict.mem_entries.mp he⟩) _ _
  | writeIfUnchanged writes ttl =>
    refine moves_discard (Moves.foldlM (fun written e he => Moves.bind ?_ fun _ => Moves.pure _) _)
    have hmem : e.1 ∈ writes.keys := Dict.mem_keys.mpr ⟨e.2, Dict.mem_entries.mp he⟩
    exact writeIfUnchanged_moves (hset _ hmem) (hdelete _ hmem) ttl e.2
  | delete key => exact moves_discard (hdelete key (List.mem_singleton_self key))
  | batchDelete keys => exact hcount keys hdelete
  | unset key => exact moves_discard (hdelete key (List.mem_singleton_self key))
  | batchUnset keys => exact hcount keys hdelete

end Moving

theorem answer_live [DecidableEq K] {k : K} {p : List α} (hp : b.physicalKeyBlob k = .ok p) {r : MemoryRoot α VB}
    {u : Instant} {e : Entry VB} {v : V} (he : b.entryAt r p = some e) (hlive : expired e u = false)
    (hv : b.kvset.valueSerde.deserialize e.valueBlob = some v) :
    b.store.answer k (timer.goTo u r) = .ok (some v) := by
  have hentry : b.entryAt (r.goTo u) p = some e := he
  show (b.get k (r.goTo u)).1 = _
  rw [b.get_eq, b.liveEntry_ok hp, hentry, Option.filter_some]
  show Except.bind (.ok (if !expired e u then some e else none)) _ = _
  rw [hlive]
  simp [Except.bind, hv]

theorem answer_gone [DecidableEq K] {k : K} {p : List α} (hp : b.physicalKeyBlob k = .ok p) {r : MemoryRoot α VB}
    {u : Instant} (h : ∀ e, b.entryAt r p = some e → expired e u = true) :
    b.store.answer k (timer.goTo u r) = .ok none := by
  have hentry : b.entryAt (r.goTo u) p = b.entryAt r p := rfl
  show (b.get k (r.goTo u)).1 = _
  rw [b.get_eq, b.liveEntry_ok hp, hentry]
  cases he : b.entryAt r p with
  | none => rfl
  | some e =>
    rw [Option.filter_some]
    show Except.bind (.ok (if !expired e u then some e else none)) _ = _
    rw [h e he]
    rfl

/-- A value written is shown until its time to live is over. -/
theorem set_shows [DecidableEq K] {k : K} {v : V} {o : WriteOptions} {t : Instant} {r r' : MemoryRoot α VB}
    (ht : timer.Shows t r) (h : b.set k v o r = (.ok (), r')) :
    timer.Foretells (b.store.answer k) t (fun u => .ok (b.shows v o t u)) r' := by
  obtain rfl : r.clock = t := ht
  intro u _
  show _ = Except.ok (b.shows v o r.clock u)
  cases hp : b.physicalKeyBlob k with
  | error e =>
    unfold set at h
    rw [b.physicalKey_error hp, raise_bind] at h
    cases h
  | ok p =>
    rw [b.set_apply hp] at h
    obtain ⟨-, rfl⟩ := Prod.mk.inj h
    have hentry : b.entryAt (r.put b.collection p (b.kvset.valueSerde.serialize v) (b.expiresAt r o.ttl o.createdAt)
        (clockBase r o.createdAt)) p = some ⟨r.nextId, b.kvset.valueSerde.serialize v,
          b.expiresAt r o.ttl o.createdAt, clockBase r o.createdAt, r.clock⟩ := by
      rw [entryAt, MemoryRoot.get?_put, if_pos rfl]
    have hvalue := b.kvset.valueSerde.roundtrip v
    unfold shows
    cases hsecs : b.resolveTtlSeconds o.ttl with
    | none => exact answer_live hp hentry (by simp [expired, expiresAt, hsecs]) hvalue
    | some secs =>
      by_cases hu : u < o.createdAt.getD r.clock + secs * 1000000
      · show _ = Except.ok (if _ then _ else _)
        rw [if_pos hu]
        exact answer_live hp hentry (by simpa [expired, expiresAt, hsecs, clockBase] using hu) hvalue
      · show _ = Except.ok (if _ then _ else _)
        rw [if_neg hu]
        refine answer_gone hp fun e he => ?_
        obtain rfl := Option.some.inj (hentry.symm.trans he)
        simpa [expired, expiresAt, hsecs, clockBase] using hu

/-- Nothing is found of a deleted key. -/
theorem delete_shows [DecidableEq K] {k : K} {t : Instant} {r r' : MemoryRoot α VB}
    (h : (Functor.discard (b.delete k) : M _ Unit) r = (.ok (), r')) :
    timer.Foretells (b.store.answer k) t (fun _ => .ok none) r' := by
  intro u _
  rw [discard_apply] at h
  cases hp : b.physicalKeyBlob k with
  | error e =>
    unfold delete at h
    rw [b.physicalKey_error hp, raise_bind] at h
    cases h
  | ok p =>
    rw [b.delete_apply hp] at h
    obtain ⟨-, rfl⟩ := Prod.mk.inj h
    refine answer_gone hp fun e he => ?_
    rw [entryAt, MemoryRoot.get?_pop, if_pos rfl] at he
    cases he

theorem lazyDelete_fades {r : MemoryRoot α VB} {p : List α} {e : Entry VB} (he : b.entryAt r p = some e)
    (hx : expired e r.clock = true) : b.Fades r (b.lazyDelete p r).2 := by
  unfold lazyDelete Prog.when
  split
  · refine ⟨rfl, fun q => ?_⟩
    show b.entryAt (r.pop b.collection p) q = _ ∨ b.entryAt (r.pop b.collection p) q = none ∧ _
    by_cases hq : q = p
    · subst hq
      refine .inr ⟨?_, e, he, hx⟩
      rw [entryAt, MemoryRoot.get?_pop, if_pos rfl]
    · refine .inl ?_
      rw [entryAt, MemoryRoot.get?_pop, if_neg hq]
      rfl
  · exact Std.Refl.refl r

theorem scanOne_fades (query : ScanQuery K) (p : List α) : Moves b.Fades (b.scanOne query p) := by
  intro r
  unfold scanOne
  rw [bind_apply, read_apply]
  dsimp only
  cases h : b.entryAt r p with
  | none => exact Std.Refl.refl r
  | some e =>
    dsimp only
    split
    · next hexpired =>
      have hgone := lazyDelete_fades h hexpired
      rw [bind_apply]
      rcases hrun : b.lazyDelete p r with ⟨e' | u, r'⟩
      · rw [hrun] at hgone
        exact hgone
      · rw [hrun] at hgone
        exact hgone
    · split
      · exact Std.Refl.refl r
      · cases b.decodeKeyFromPhysical p with
        | none => exact Std.Refl.refl r
        | some key =>
          dsimp only
          split
          · have hread : Moves b.Fades (b.deserializeValue e.valueBlob) := by
              unfold deserializeValue
              split
              · exact Moves.pure _
              · exact Moves.raise _
            exact (hread.bind fun _ => Moves.pure _) r
          · exact Std.Refl.refl r

theorem looks_fade [DecidableEq K] : b.store.Looks (Moves b.Fades) where
  versions ks := by
    refine Moves.foldlM (fun out j _ => Moves.bind (fun r => ?_) fun _ => Moves.pure _) _
    rw [(b.readVersioned_spec j r).1]
    exact Std.Refl.refl r
  scan query := (Moves.read _).bind fun _ => (Moves.mapM fun p _ => scanOne_fades query p).bind fun _ => Moves.pure _
  expired now limit := by
    show Moves b.Fades (b.expiredKeys now limit)
    unfold expiredKeys
    split
    · exact Moves.raise _
    · exact Moves.read _

theorem countTrue_delete_shows [DecidableEq K] {k : K} {keys : List K} (hk : k ∈ keys) {t : Instant}
    {r r' : MemoryRoot α VB} (ht : timer.Shows t r)
    (h : (Functor.discard (countTrue b.delete keys) : M (MemoryRoot α VB) Unit) r = (.ok (), r')) :
    timer.Foretells (b.store.answer k) t (fun _ => .ok none) r' := by
  rw [discard_countTrue] at h
  exact forM_foretells hk (fun j => moves_discard (delete_stays j)) (fun s1 s2 _ hrun => delete_shows hrun)
    (fun j _ hne => moves_discard (delete_spares (Ne.symm hne))) ht h

theorem batchSet_shows [DecidableEq K] {items : Dict K V} {k : K} {v : V} (hv : items.get? k = some v)
    {o : WriteOptions} {t : Instant} {r r' : MemoryRoot α VB} (ht : timer.Shows t r)
    (h : forM items.entries (fun e => b.set e.1 e.2 o) r = (.ok (), r')) :
    timer.Foretells (b.store.answer k) t (fun u => .ok (b.shows v o t u)) r' := by
  refine forM_foretells (Dict.mem_entries.mpr hv) (fun e => set_stays e.1 e.2 o)
    (fun s1 s2 h1 h2 => set_shows h1 h2) (fun e he hne => set_spares (fun hke => hne ?_) e.2 o) ht h
  have hother := Dict.mem_entries.mp he
  rw [← hke, hv] at hother
  exact Prod.ext hke.symm (Option.some.inj hother).symm

/-- Where an operation of the store returns, its key shows what was left under it. -/
theorem store_foretells [DecidableEq K] {op : RecordOp K V} {k : K} {left : Option (V × WriteOptions)}
    (hleft : op.leaves k = some left) {t : Instant} {r r' : MemoryRoot α VB} (ht : timer.Shows t r)
    (hrun : op.run b.store r = (.ok (), r')) :
    timer.Foretells (b.store.answer k) t (fun u => .ok (left.bind fun w => b.shows w.1 w.2 t u)) r' := by
  cases op with
  | set key value options =>
    obtain ⟨rfl, rfl⟩ := of_ite_some hleft
    exact set_shows ht hrun
  | batchSet items options =>
    obtain ⟨value, hvalue, rfl⟩ := Option.map_eq_some_iff.mp hleft
    exact batchSet_shows hvalue ht hrun
  | writeIfUnchanged writes ttl => cases hleft
  | delete key =>
    obtain ⟨rfl, rfl⟩ := of_ite_some hleft
    exact delete_shows hrun
  | batchDelete keys =>
    obtain ⟨hk, rfl⟩ := of_ite_some hleft
    exact countTrue_delete_shows hk ht hrun
  | unset key =>
    obtain ⟨rfl, rfl⟩ := of_ite_some hleft
    exact delete_shows hrun
  | batchUnset keys =>
    obtain ⟨hk, rfl⟩ := of_ite_some hleft
    exact countTrue_delete_shows hk ht hrun

/-- A memory store is a map whose entries expire. -/
theorem store_isMap [DecidableEq K] (b : MemoryKvBackend K V α VB) : b.store.IsMap timer b.shows := by
  refine ⟨rfl, fun k t r ht => ?_, ?_, ?_, fun k op hk => ?_, fun op => ?_,
    fun op k left hleft t r r' ht hrun => store_foretells hleft ht hrun⟩
  · obtain rfl : r.clock = t := ht
    rfl
  · exact KvStore.isRead_reads fun {γ} {m} hm => quiet_of_fades (reads_fade.isRead hm)
  · exact ⟨fun ks => quiet_of_fades (looks_fade.versions ks), fun query => quiet_of_fades (looks_fade.scan query),
      fun now limit => quiet_of_fades (looks_fade.expired now limit)⟩
  · have hne : ∀ j ∈ op.keys, k ≠ j := fun j hj hkj => hk (by rwa [hkj])
    exact op_moves op (fun j hj => set_spares (hne j hj)) fun j hj => delete_spares (hne j hj)
  · exact op_moves op (fun j _ => set_stays j) fun j _ => delete_stays j

end MemoryKvBackend

end Kvtsjl
