import Kvtsjl.Answers
import Kvtsjl.IndexedSearch
import Kvtsjl.Lib.Paging
import Kvtsjl.ZipLife
import Kvtsjl.Zoomed

/-
  Searches of an indexed memory store that meet postings left behind.
  A record that expires, or that a read removes as expired, leaves its key in the index.
  `Covers` is what a history keeps all the same: the postings file a value for every key,
  and it is the stored one where there is any. So a live record is posted under exactly its
  terms (`hit_iff`), and a search brings the live ones among the keys it looks up
  (`search_rows`). It cuts the posted keys at its limit first, and
  `search_countsLive_iff` says when that costs it a record.
-/

namespace Kvtsjl

open Assoc (Dict)
open Effects Prog

/-! ## Every blob can be read back -/

namespace MemoryKvBackend

variable {K V α VB : Type} [DecidableEq α] (b : MemoryKvBackend K V α VB)

/-- Every blob of the bucket reads back as a value. -/
def Decoded (r : MemoryRoot α VB) : Prop :=
  ∀ p e, b.entryAt r p = some e → (b.kvset.valueSerde.deserialize e.valueBlob).isSome = true

def KeepsDecoded (r r' : MemoryRoot α VB) : Prop := b.Decoded r → b.Decoded r'

instance : Std.Refl b.KeepsDecoded := ⟨fun _ h => h⟩

instance : IsTrans (MemoryRoot α VB) b.KeepsDecoded := ⟨fun _ _ _ h h' hr => h' (h hr)⟩

theorem keepsDecoded_pop (r : MemoryRoot α VB) (p : List α) : b.KeepsDecoded r (r.pop b.collection p) := by
  intro hr q e he
  have hpop : (if q = p then none else b.entryAt r q) = some e := by
    rw [← he]
    unfold entryAt
    rw [MemoryRoot.get?_pop]
  split at hpop
  · cases hpop
  · exact hr q e hpop

theorem keepsDecoded_put (r : MemoryRoot α VB) (p : List α) (v : V) (expiresAt : Option Instant)
    (createdAt : Instant) :
    b.KeepsDecoded r (r.put b.collection p (b.kvset.valueSerde.serialize v) expiresAt createdAt) := by
  intro hr q e he
  unfold entryAt at he
  rw [MemoryRoot.get?_put] at he
  split at he
  · have hblob : e.valueBlob = b.kvset.valueSerde.serialize v := by rw [← Option.some.inj he]
    rw [hblob, b.kvset.valueSerde.roundtrip]
    rfl
  · exact hr q e he

theorem keepsDecoded_physicalKey (k : K) : Moves b.KeepsDecoded (b.physicalKey k) := by
  unfold physicalKey
  split
  · exact Moves.pure _
  · exact Moves.raise _

theorem keepsDecoded_set (k : K) (v : V) (o : WriteOptions) : Moves b.KeepsDecoded (b.set k v o) :=
  Moves.bind (b.keepsDecoded_physicalKey k) fun p r => b.keepsDecoded_put r p v _ _

theorem keepsDecoded_delete (k : K) : Moves b.KeepsDecoded (b.delete k) :=
  Moves.bind (b.keepsDecoded_physicalKey k) fun p => Moves.bind (Moves.read _) fun _ =>
    Moves.bind (fun r => b.keepsDecoded_pop r p) fun _ => Moves.pure _

theorem keepsDecoded_conditional (ttl : Option TtlPolicy) (k : K) (w : ConditionalWrite V) :
    Moves b.KeepsDecoded (b.writeIfUnchanged ttl k w) := by
  unfold writeIfUnchanged
  refine Moves.bind (b.keepsDecoded_physicalKey k) fun p => Moves.bind (Moves.read _) fun current => ?_
  split
  · exact Moves.pure _
  · split
    · exact b.keepsDecoded_delete k
    · exact Moves.bind (b.keepsDecoded_set k _ _) fun _ => Moves.pure _

theorem Fades.keepsDecoded {r r' : MemoryRoot α VB} (h : b.Fades r r') : b.KeepsDecoded r r' := by
  intro hr p e he
  rcases h.2 p with hsame | ⟨hnone, -⟩
  · rw [hsame] at he
    exact hr p e he
  · rw [hnone] at he
    cases he

/-- Nothing a composition asks of the store leaves a blob that cannot be read back. -/
theorem keepsDecoded [DecidableEq K] : b.store.Is (Moves b.KeepsDecoded) := by
  have hreads : b.store.Reads (Moves b.KeepsDecoded) := KvStore.isRead_reads fun hm =>
    (reads_fade.isRead hm).weaken fun _ _ h => h.keepsDecoded
  have hdelete := fun ks => countTrue_is (moves_closed b.KeepsDecoded) b.keepsDecoded_delete ks
  exact { hreads with
    set := b.keepsDecoded_set
    batchSet := fun items o => Moves.forM fun e _ => b.keepsDecoded_set e.1 e.2 o
    conditional := fun ws ttl => Moves.foldlM (fun written e _ =>
      Moves.bind (b.keepsDecoded_conditional ttl e.1 e.2) fun _ => Moves.pure _) _
    delete := b.keepsDecoded_delete
    batchDelete := hdelete
    unset := b.keepsDecoded_delete
    batchUnset := hdelete }

end MemoryKvBackend

namespace IndexedSearch

variable {K V α VB P : Type} [DecidableEq K] [DecidableEq V] [DecidableEq α]
  (b : MemoryKvBackend K V α VB) (label : String) (termsOf : K → V → List String) (policy : SyncPolicy)

/-! ## Reads and collection -/

/-- The store moves, the index stays. -/
def OnStore (R : MemoryRoot α VB → MemoryRoot α VB → Prop) (s s' : Media K α VB) : Prop :=
  R s.1 s'.1 ∧ s'.2 = s.2

instance {R : MemoryRoot α VB → MemoryRoot α VB → Prop} [Std.Refl R] : Std.Refl (OnStore (K := K) R) :=
  ⟨fun s => ⟨Std.Refl.refl s.1, rfl⟩⟩

instance {R : MemoryRoot α VB → MemoryRoot α VB → Prop} [IsTrans _ R] : IsTrans _ (OnStore (K := K) R) :=
  ⟨fun _ _ _ h h' => ⟨IsTrans.trans _ _ _ h.1 h'.1, h'.2.trans h.2⟩⟩

/-- What the reads of the composition are made of. Nothing is filled. -/
theorem readers : Readers (topology b label termsOf policy : Topology _ K V P)
    (Moves (OnStore b.Fades)) where
  closed := moves_closed _
  reads t ht := by
    have hstore : (b.store.zoom (Lens.first : Lens (Media K α VB) _)).Reads (Moves (OnStore b.Fades)) :=
      MemoryKvBackend.reads_fade.zoom _ fun hm s => ⟨hm s.1, rfl⟩
    have hall : (topology b label termsOf policy : Topology _ K V P).all =
        [authorityTarget b, indexTarget label termsOf policy] := rfl
    rw [hall] at ht
    rcases List.mem_pair.mp ht with rfl | rfl
    · exact (storeTarget_reads (moves_closed _) hstore _ _ _).upcast (moves_closed _) Sum.inl
    · exact (indexesTarget_reads (moves_closed _) _ _).upcast (moves_closed _) Sum.inl
  whole t ht := by
    have hstore : (b.store.zoom (Lens.first : Lens (Media K α VB) _)).Reads (Moves (OnStore b.Fades)) :=
      MemoryKvBackend.reads_fade.zoom _ fun hm s => ⟨hm s.1, rfl⟩
    rcases List.mem_pair.mp ht with rfl | rfl
    · exact storeTarget_reads (moves_closed _) hstore _ _ _
    · exact indexesTarget_reads (moves_closed _) _ _
  fills t ht hfill := by
    rcases List.mem_pair.mp ht with rfl | rfl <;> cases hfill

theorem store_reads : (store b label termsOf policy : KvStore (Node (Media K α VB) K V P) K V).Reads
    (Moves fun (n n' : Node (Media K α VB) K V P) => OnStore b.Fades n.media n'.media) :=
  topologyStore_reads (readers b label termsOf policy)
    (fun hm (n : Node (Media K α VB) K V P) => hm n.media) _

omit [DecidableEq V] in
/-- The keys a collection returns are those it removed. -/
theorem gcExpiredKeys_does (maxEntries : Int) (r : MemoryRoot α VB) :
    Does (b.gcExpiredKeys maxEntries) r fun keys s =>
      b.value s = left (b.value r) (.batchDelete keys) := by
  unfold MemoryKvBackend.gcExpiredKeys MemoryKvBackend.expiredKeys
  split
  · exact .inr ⟨_, rfl⟩
  · have hread : ∀ keys : List K, Does (do
        when (keys ≠ []) (Functor.discard (countTrue b.delete keys))
        return keys : M (MemoryRoot α VB) (List K)) r fun found s =>
          b.value s = left (b.value r) (.batchDelete found) := by
      intro keys
      by_cases hnil : keys = []
      · rw [hnil]
        exact .inl ⟨[], r, rfl, rfl⟩
      · unfold when
        rw [if_pos hnil]
        rcases b.batchDelete_sets keys r with ⟨⟨count, hcount⟩, hval⟩ | ⟨e, he⟩
        · refine .inl ⟨keys, (countTrue b.delete keys r).2, ?_, funext hval⟩
          rw [bind_apply, discard_apply, hcount]
          rfl
        · refine .inr ⟨e, ?_⟩
          rw [bind_apply, discard_apply, he]
          rfl
    exact hread _

theorem gc_tracks (maxEntries : Int) :
    Moves (Tracks b termsOf) ((topology b label termsOf policy : Topology _ K V P).gc
      maxEntries .bestEffort) := by
  intro n
  unfold Topology.gc
  split
  · exact Std.Refl.refl n
  have hauthority : (topology b label termsOf policy : Topology _ K V P).byRole [.authority, .component] =
      [authorityTarget b] := rfl
  have hcopies : (topology b label termsOf policy : Topology _ K V P).dependents.filter
      (fun t => t.expires) = [] := rfl
  have hcommit : Does (Lens.first.zoom (b.gcExpiredKeys maxEntries)) n.media fun keys s =>
      Owes b termsOf [.batchDelete keys] n ⟨s, n.syncs⟩ := by
    refine (Lens.zoom_does (gcExpiredKeys_does b maxEntries n.media.1)).weaken ?_
    rintro keys _ ⟨r, rfl, hval⟩
    exact ⟨[], rfl, hval⟩
  rw [hauthority, hcopies, mapM_single, bind_assoc, bind_assoc]
  refine (Node.onMedia_does hcommit).after_bind (p := Tracks b termsOf n) (Std.Refl.refl n)
    fun keys n' howed => ?_
  have hexpired : (List.flatMap (fun p => p.2) (List.filter (fun p => decide (p.1 = Role.authority))
      [((authorityTarget b : AnyTarget (Media K α VB) K V P).role, keys)])) = keys := List.append_nil keys
  simp only [pure_bind]
  rw [hexpired]
  unfold when
  split
  · unfold Topology.toDependents
    rw [dependents_eq, forM_single]
    obtain ⟨n'', hs, htracks⟩ := syncOne_owes b label termsOf policy (by trivial) howed "gc"
      (some .bestEffort)
    rw [bind_ok hs]
    exact htracks
  · next hnil =>
    obtain ⟨told, hposted, hleft⟩ := howed
    refine ⟨told, hposted, ?_⟩
    rw [not_not.mp hnil, List.foldl_append] at hleft
    rw [List.append_nil]
    exact hleft

/-! ## Histories -/

/-- One step of a history: a step of a run, a read of the store, or a collection. -/
inductive Event (K V : Type) where
  | op (op : Op K V)
  | get (key : K)
  | batchGet (keys : List K)
  | existsKey (key : K)
  | batchExists (keys : List K)
  | stat (key : K)
  | batchStat (keys : List K)
  | gcExpiredKeys (maxEntries : Int)

/-- The node after the step, whatever it returned or raised. -/
def Event.after (event : Event K V) (n : Node (Media K α VB) K V P) : Node (Media K α VB) K V P :=
  let s : KvStore (Node (Media K α VB) K V P) K V := store b label termsOf policy
  match event with
  | op o => o.after b label termsOf policy n
  | get key => (s.get key n).2
  | batchGet keys => (s.batchGet keys n).2
  | existsKey key => (s.existsKey key n).2
  | batchExists keys => (s.batchExists keys n).2
  | stat key => (s.stat key n).2
  | batchStat keys => (s.batchStat keys n).2
  | gcExpiredKeys maxEntries => (s.gcExpiredKeys maxEntries n).2

def history (events : List (Event K V)) (n : Node (Media K α VB) K V P) : Node (Media K α VB) K V P :=
  events.foldl (fun n event => event.after b label termsOf policy n) n

/-- The postings file a value for every key, which is the stored one where the store still
    holds any. What they file for the others was left behind. -/
structure Covers (n : Node (Media K α VB) K V P) : Prop where
  coherent : n.media.2.Coherent
  filed : ∃ values, Files termsOf n.media.2 values ∧
    (∀ k v, b.value n.media.1 k = some v → values k = some v) ∧
    ∀ k v, values k = some v → ∃ p, b.physicalKeyBlob k = .ok p
  decoded : b.Decoded n.media.1

omit [DecidableEq V] [DecidableEq α] in
/-- An operation overwrites what a key had or leaves it. -/
theorem left_mono {f g : K → Option V} (h : ∀ k v, f k = some v → g k = some v) (op : SyncOp K V)
    (k : K) (v : V) (hv : left f op k = some v) : left g op k = some v := by
  cases op with
  | batchWrite items o =>
    simp only [left] at hv ⊢
    cases hi : items.get? k with
    | none =>
      rw [hi] at hv
      exact h k v hv
    | some w =>
      rw [hi] at hv
      exact hv
  | write key value o =>
    simp only [left] at hv ⊢
    split at hv
    · next hk => rw [if_pos hk, hv]
    · next hk =>
      rw [if_neg hk]
      exact h k v hv
  | _ =>
    simp only [left] at hv ⊢
    split at hv
    · cases hv
    · next hk =>
      rw [if_neg hk]
      exact h k v hv

omit [DecidableEq V] [DecidableEq α] in
theorem foldl_left_mono (ops : List (SyncOp K V)) {f g : K → Option V}
    (h : ∀ k v, f k = some v → g k = some v) :
    ∀ k v, ops.foldl left f k = some v → ops.foldl left g k = some v := by
  induction ops generalizing f g with
  | nil => exact h
  | cons op ops ih => exact ih (left_mono h op)

omit [DecidableEq K] [DecidableEq V] in
/-- Where no key can be written, none has a value. -/
theorem value_unwritable {e : Exn} (he : ∀ k, b.physicalKeyBlob k = .error e) (r : MemoryRoot α VB) :
    b.value r = fun _ => none := by
  funext k
  unfold MemoryKvBackend.value MemoryKvBackend.entry
  rw [he k]
  rfl

omit [DecidableEq V] in
theorem Tracks.covers {n n' : Node (Media K α VB) K V P} (h : Tracks b termsOf n n')
    (hdecoded : b.KeepsDecoded n.media.1 n'.media.1) (hn : Covers b termsOf n) : Covers b termsOf n' := by
  obtain ⟨told, hposted, hleft⟩ := h
  obtain ⟨values, hfiles, hstored, hwritten⟩ := hn.filed
  rw [List.append_nil] at hleft
  refine ⟨?_, ⟨told.foldl left values, ?_, ?_, ?_⟩, ?_⟩
  · rw [hposted]
    exact coherent_foldl termsOf hn.coherent told
  · rw [hposted]
    exact files_foldl termsOf hfiles told
  · rw [hleft]
    exact foldl_left_mono told hstored
  · intro k v hv
    rcases b.physicalKeyBlob_total with ⟨f, -, hf⟩ | ⟨e, he⟩
    · exact ⟨f k, hf k⟩
    · -- no key was ever written, so nothing is filed either
      have hnone : values = b.value n.media.1 := by
        rw [value_unwritable b he]
        funext j
        cases hj : values j with
        | none => rfl
        | some w =>
          obtain ⟨p, hp⟩ := hwritten j w hj
          rw [he j] at hp
          cases hp
      rw [hnone, ← hleft, value_unwritable b he] at hv
      cases hv
  · exact hdecoded hn.decoded

omit [DecidableEq K] [DecidableEq V] in
theorem value_fades {r r' : MemoryRoot α VB} (h : b.Fades r r') (k : K) (v : V)
    (hv : b.value r' k = some v) : b.value r k = some v := by
  unfold MemoryKvBackend.value at hv ⊢
  cases hp : b.physicalKeyBlob k with
  | error e =>
    unfold MemoryKvBackend.entry at hv
    rw [hp] at hv
    cases hv
  | ok p =>
    rw [b.entry_eq hp] at hv ⊢
    rcases h.2 p with hsame | ⟨hnone, -⟩
    · rw [← hsame]
      exact hv
    · rw [hnone] at hv
      cases hv

omit [DecidableEq V] in
theorem OnStore.covers {n n' : Node (Media K α VB) K V P} (h : OnStore b.Fades n.media n'.media)
    (hn : Covers b termsOf n) : Covers b termsOf n' := by
  obtain ⟨values, hfiles, hstored, hwritten⟩ := hn.filed
  refine ⟨?_, ⟨values, ?_, fun k v hv => hstored k v (value_fades b h.1 k v hv), hwritten⟩, ?_⟩
  · rw [h.2]
    exact hn.coherent
  · rw [h.2]
    exact hfiles
  · exact MemoryKvBackend.Fades.keepsDecoded b h.1 hn.decoded

/-- What the operations leave of the store's media can be read back. -/
def StaysDecoded (n n' : Node (Media K α VB) K V P) : Prop := b.KeepsDecoded n.media.1 n'.media.1

instance : Std.Refl (StaysDecoded (K := K) (P := P) b) := ⟨fun _ h => h⟩

instance : IsTrans _ (StaysDecoded (K := K) (P := P) b) := ⟨fun _ _ _ h h' hn => h' (h hn)⟩

omit [DecidableEq K] [DecidableEq V] in
theorem decoded_onMedia {β : Type} {m : M (Media K α VB) β}
    (h : Moves (fun s s' => b.KeepsDecoded s.1 s'.1) m) :
    Moves (StaysDecoded (P := P) b) (Node.onMedia m) := moves_onMedia fun s _ => h s

/-- The writes of the authority store what reads back, and the index's store nothing. -/
theorem target_decoded : ∀ t ∈ (topology b label termsOf policy : Topology _ K V P).all,
    t.Writes (Moves fun s s' => b.KeepsDecoded s.1 s'.1) := by
  intro t ht
  have hall : (topology b label termsOf policy : Topology _ K V P).all =
      [authorityTarget b, indexTarget label termsOf policy] := rfl
  rw [hall] at ht
  rcases List.mem_pair.mp ht with rfl | rfl
  · have hstore : (b.store.zoom (Lens.first : Lens (Media K α VB) _)).Writes
        (Moves fun s s' => b.KeepsDecoded s.1 s'.1) :=
      b.keepsDecoded.writes.zoom _ fun hm s => hm s.1
    exact (storeTarget_writes (moves_closed _) hstore _ _ _).upcast Sum.inl
  · have hindex : (indexesTarget [memoryTermIndex label termsOf true] policy : Target _ K V V).Writes
        (Moves fun _ _ => True) :=
      ⟨fun _ _ _ _ => trivial, fun _ _ _ => trivial, fun _ _ _ => trivial, fun _ _ => trivial,
        fun _ _ => trivial, fun _ _ => trivial, fun _ _ => trivial⟩
    have hzoom : ((indexesTarget [memoryTermIndex label termsOf true] policy : Target _ K V V).zoom
        (Lens.second : Lens (Media K α VB) (TermPostings K))).Writes
          (Moves fun s s' => b.KeepsDecoded s.1 s'.1) :=
      hindex.zoom _ fun _ _ hr => hr
    rw [← indexesTarget_zoom] at hzoom
    exact hzoom.upcast Sum.inl

theorem syncOne_decoded {t : AnyTarget (Media K α VB) K V P}
    (ht : t ∈ (topology b label termsOf policy : Topology _ K V P).dependents) (what : String)
    (op : SyncOp K V) (syncPolicy : Option SyncPolicy) :
    Moves (StaysDecoded b) ((topology b label termsOf policy).syncOne t what op syncPolicy) := by
  rw [dependents_eq, List.mem_singleton] at ht
  rw [ht]
  have hop := (target_decoded (P := P) b label termsOf policy _ (List.mem_cons_of_mem _ List.mem_cons_self)).on
    (moves_closed _) op
  exact decoded_onMedia b (moves_settle hop _ _ _ _ _)

theorem store_decoded :
    (store b label termsOf policy : KvStore (Node (Media K α VB) K V P) K V).Writes
      (Moves (StaysDecoded b)) := by
  refine topologyStore_writes (writers_of (moves_closed _) (fun hm => decoded_onMedia b hm)
    (fun name role hm => moves_runCommitting hm name role) (fun hnone => by cases hnone)
    (target_decoded b label termsOf policy) fun t ht hrole what op => ?_) _
  refine syncOne_decoded b label termsOf policy ?_ what op none
  have hall : (topology b label termsOf policy : Topology _ K V P).all =
      [authorityTarget b, indexTarget label termsOf policy] := rfl
  rw [hall] at ht
  rcases List.mem_pair.mp ht with rfl | rfl
  · exact absurd rfl hrole
  · exact List.mem_cons_self

theorem gc_decoded (maxEntries : Int) :
    Moves (StaysDecoded b) ((topology b label termsOf policy : Topology _ K V P).gc
      maxEntries .bestEffort) := by
  have hgc : Moves b.KeepsDecoded (b.gcExpiredKeys maxEntries) := by
    unfold MemoryKvBackend.gcExpiredKeys MemoryKvBackend.expiredKeys
    split
    · exact Moves.raise _
    · exact Moves.bind (Moves.read _) fun keys => Moves.bind
        (Moves.when (moves_discard (b.keepsDecoded.batchDelete keys))) fun _ => Moves.pure _
  have hcopies : (topology b label termsOf policy : Topology _ K V P).dependents.filter
      (fun t => t.expires) = [] := rfl
  unfold Topology.gc
  split
  · exact Moves.raise _
  rw [hcopies]
  refine Moves.bind (Moves.mapM fun t ht => ?_) fun own => Moves.bind (Moves.when ?_) fun _ =>
    Moves.bind (Moves.pure _) fun _ => Moves.pure _
  · have hauthority : t = authorityTarget b := List.mem_singleton.mp ht
    rw [hauthority]
    exact Moves.bind (decoded_onMedia b fun s => hgc s.1) fun _ => Moves.pure _
  · exact Moves.forM fun t ht => syncOne_decoded b label termsOf policy ht _ _ _

theorem event_covers (event : Event K V) {n : Node (Media K α VB) K V P} (hn : Covers b termsOf n) :
    Covers b termsOf (event.after b label termsOf policy n) := by
  have hreads := store_reads (P := P) b label termsOf policy
  cases event with
  | op o =>
    refine (op_tracks b label termsOf policy o n).covers b termsOf ?_ hn
    have hw := store_decoded (P := P) b label termsOf policy
    exact op_moves (R := StaysDecoded b) b label termsOf policy hw.set hw.batchSet hw.delete
      hw.batchDelete hw.conditional (fun _ _ hr => hr) o n
  | get key => exact (hreads.get key n).covers b termsOf hn
  | batchGet keys => exact (hreads.batchGet keys n).covers b termsOf hn
  | existsKey key => exact (hreads.existsKey key n).covers b termsOf hn
  | batchExists keys => exact (hreads.batchExists keys n).covers b termsOf hn
  | stat key => exact (hreads.stat key n).covers b termsOf hn
  | batchStat keys => exact (hreads.batchStat keys n).covers b termsOf hn
  | gcExpiredKeys maxEntries =>
    refine (gc_tracks b label termsOf policy maxEntries n).covers b termsOf ?_ hn
    exact gc_decoded b label termsOf policy maxEntries n

theorem history_covers (events : List (Event K V)) {n : Node (Media K α VB) K V P}
    (hn : Covers b termsOf n) : Covers b termsOf (history b label termsOf policy events n) := by
  induction events generalizing n with
  | nil => exact hn
  | cons event events ih => exact ih (event_covers b label termsOf policy event hn)

omit [DecidableEq V] in
theorem fresh_covers (clock : Instant) : Covers (P := P) b termsOf (fresh clock) := by
  refine ⟨TermPostings.coherent_empty, ⟨fun _ => none, fun _ => rfl, fun k v hv => ?_, fun k v hv => ?_⟩, ?_⟩
  · have hnone : b.value (MemoryRoot.empty clock) k = none := by
      unfold MemoryKvBackend.value MemoryKvBackend.entry
      cases b.physicalKeyBlob k <;> rfl
    have hsome := hnone.symm.trans hv
    cases hsome
  · cases hv
  · intro p e he
    cases he

/-! ## What a search brings -/

/-- `search` with the keys: the records of the first posted keys, as a batch read finds
    them. `iterated` are the posted keys in the order in which the set iterates them. -/
def search (iterated : List K) (limit : Int) : M (Node (Media K α VB) K V P) (List (K × V)) :=
  let hits := if limit ≤ 0 then [] else iterated.take limit.toNat
  if hits.isEmpty then pure []
  else do
    let found ← (store b label termsOf policy).batchGet hits
    return hits.filterMap fun key => (found.get? key).map fun value => (key, value)

/-- A live record that matches the query. -/
def Hit (n : Node (Media K α VB) K V P) (query : String) (key : K) (value : V) : Prop :=
  ((store b label termsOf policy).get key n).1 = .ok (some value) ∧ query ∈ termsOf key value

/-- A live record, whatever it matches. -/
def Live (n : Node (Media K α VB) K V P) (key : K) : Prop :=
  ∃ value, ((store b label termsOf policy).get key n).1 = .ok (some value)

/-- The result holds as many of the live records that match as were asked for. -/
def CountsLive (n : Node (Media K α VB) K V P) (query : String) (limit : Int)
    (result : Except Exn (List (K × V))) : Prop :=
  ∃ (rows : List (K × V)) (live : List K), result = .ok rows ∧ live.Nodup ∧
    (∀ key, key ∈ live ↔ ∃ value, Hit b label termsOf policy n query key value) ∧
    (rows.map Prod.fst).Nodup ∧ rows.length = min limit.toNat live.length ∧
    ∀ row ∈ rows, Hit b label termsOf policy n query row.1 row.2

/-- What a read of the store shows of a key. -/
def reading (r : MemoryRoot α VB) (k : K) : Option V :=
  ((b.entry r k).filter fun e => !MemoryKvBackend.expired e r.clock).bind fun e =>
    b.kvset.valueSerde.deserialize e.valueBlob

omit [DecidableEq K] [DecidableEq V] in
theorem get_reading {r : MemoryRoot α VB} (hr : b.Decoded r) {k : K} {p : List α}
    (hp : b.physicalKeyBlob k = .ok p) : (b.get k r).1 = .ok (reading b r k) := by
  rw [b.get_eq, b.liveEntry_ok hp]
  unfold reading
  rw [b.entry_eq hp]
  cases he : (b.entryAt r p).filter fun e => !MemoryKvBackend.expired e r.clock with
  | none => rfl
  | some e =>
    obtain ⟨v, hv⟩ := Option.isSome_iff_exists.mp (hr p e (Option.filter_eq_some_iff.mp he).1)
    simp [Except.bind, hv]

omit [DecidableEq K] [DecidableEq V] in
theorem reading_fades {r r' : MemoryRoot α VB} (h : b.Fades r r') {k : K} {p : List α}
    (hp : b.physicalKeyBlob k = .ok p) : reading b r' k = reading b r k := by
  unfold reading
  rw [b.entry_eq hp, b.entry_eq hp, MemoryKvBackend.Faded.live h p]

omit [DecidableEq K] [DecidableEq V] in
theorem value_reading {r : MemoryRoot α VB} {k : K} {v : V} (h : reading b r k = some v) :
    b.value r k = some v := by
  obtain ⟨e, he, hv⟩ := Option.bind_eq_some_iff.mp h
  unfold MemoryKvBackend.value
  rw [(Option.filter_eq_some_iff.mp he).1]
  exact hv

/-- A batch read of the composition finds what each key shows. -/
theorem batchGet_reading {n : Node (Media K α VB) K V P} (hn : b.Decoded n.media.1) (keys : List K)
    (hkeys : ∀ k, ∃ p, b.physicalKeyBlob k = .ok p) :
    ∃ d, ((store b label termsOf policy : KvStore (Node _ K V P) K V).batchGet keys n).1 = .ok d ∧
      ∀ k ∈ keys, d.get? k = reading b n.media.1 k := by
  have hget : ∀ k t, b.Fades n.media.1 t → (b.get k t).1 = .ok (reading b n.media.1 k) ∧
      b.Fades t (b.get k t).2 := by
    intro k t ht
    obtain ⟨p, hp⟩ := hkeys k
    rw [← reading_fades b ht hp]
    exact ⟨get_reading b (ht.keepsDecoded b hn) hp, MemoryKvBackend.reads_fade.get k t⟩
  obtain ⟨d, hd, hfound⟩ := batchGet_answers hget keys
  have hlookups : (topology b label termsOf policy : Topology _ K V P).lookups =
      [storeTarget ⟨"store", .authority, none, false, .required⟩ (b.store.zoom Lens.first) some id] :=
    rfl
  have hmissing : (keys.filter fun k => ((Dict.empty : Dict K V).get? k).isNone) = keys :=
    List.filter_eq_self.mpr fun _ _ => rfl
  have hread : (storeTarget (P := V) ⟨"store", .authority, none, false, .required⟩
      (b.store.zoom (Lens.first : Lens (Media K α VB) _)) some id).batchRead keys n.media =
        (.ok (d.map fun _ v => v), ((b.batchGet keys n.media.1).2, n.media.2)) := by
    have hzoom : Lens.first.zoom (b.batchGet keys) n.media =
        (.ok d, ((b.batchGet keys n.media.1).2, n.media.2)) := by
      rw [Lens.zoom_apply]
      exact Prod.ext hd rfl
    show (Dict.map _ <$> Lens.first.zoom (b.batchGet keys)) n.media = _
    rw [map_apply, hzoom]
    rfl
  by_cases hnil : keys = []
  · subst hnil
    exact ⟨Dict.empty, rfl, fun k hk => absurd hk List.not_mem_nil⟩
  refine ⟨Dict.empty.update (d.map fun _ v => v), ?_, fun k hk => ?_⟩
  · show (Node.onMedia ((topology b label termsOf policy).batchRead keys) n).1 = _
    unfold Topology.batchRead
    rw [if_neg (by simp [Topology.assembled, topology]), hlookups, Node.onMedia_apply]
    unfold Topology.batchReadFrom
    simp only
    rw [hmissing, if_neg (by simpa using hnil), bind_ok hread]
    -- nothing was consulted before the store, so nothing is filled
    have hfill : (when ((d.map fun _ v => v).entries ≠ []) (Topology.batchFill (d.map fun _ v => v)
        (storeTarget (P := V) ⟨"store", .authority, none, false, .required⟩
          (b.store.zoom (Lens.first : Lens (Media K α VB) _)) some id) [])) = pure () := by
      unfold when
      split <;> rfl
    rw [hfill, pure_bind]
    rfl
  · rw [Dict.get?_update, Dict.get?_map, hfound k, if_pos hk]
    cases reading b n.media.1 k <;> rfl

theorem store_get {n : Node (Media K α VB) K V P} (hn : b.Decoded n.media.1) {key : K} {value : V} :
    ((store b label termsOf policy).get key n).1 = .ok (some value) ↔
      reading b n.media.1 key = some value := by
  rw [get_eq]
  cases hp : b.physicalKeyBlob key with
  | error e =>
    have hnone : reading b n.media.1 key = none := by
      unfold reading MemoryKvBackend.entry
      rw [hp]
      rfl
    rw [b.get_eq, b.liveEntry_error hp, hnone]
    exact ⟨fun h => (nomatch h), fun h => (nomatch h)⟩
  | ok p =>
    rw [get_reading b hn hp]
    exact ⟨fun h => Except.ok.inj h, fun h => by rw [h]⟩

/-- A live record matches where its key is posted under the query. -/
theorem hit_iff {n : Node (Media K α VB) K V P} (hn : Covers b termsOf n) {query : String} {key : K}
    {value : V} : Hit b label termsOf policy n query key value ↔
      key ∈ n.media.2.keys query ∧ reading b n.media.1 key = some value := by
  unfold Hit
  rw [store_get b label termsOf policy hn.decoded]
  obtain ⟨values, hfiles, hstored, -⟩ := hn.filed
  have hposted : reading b n.media.1 key = some value →
      (key ∈ n.media.2.keys query ↔ query ∈ termsOf key value) := by
    intro hread
    have hvalue := hstored key value (value_reading b hread)
    rw [hn.coherent.agree key query, hfiles key, hvalue]
    exact Dict.mem_unique
  exact ⟨fun h => ⟨(hposted h.1).mpr h.2, h.1⟩, fun h => ⟨h.2, (hposted h.2).mp h.1⟩⟩

omit [DecidableEq V] in
theorem posted_writable {n : Node (Media K α VB) K V P} (hn : Covers b termsOf n) {query : String}
    {key : K} (h : key ∈ n.media.2.keys query) : ∀ k, ∃ p, b.physicalKeyBlob k = .ok p := by
  obtain ⟨values, hfiles, -, hwritten⟩ := hn.filed
  rw [hn.coherent.agree key query, hfiles key] at h
  cases hv : values key with
  | none =>
    rw [hv] at h
    exact absurd h List.not_mem_nil
  | some v =>
    obtain ⟨p, hp⟩ := hwritten key v hv
    rcases b.physicalKeyBlob_total with ⟨f, -, hf⟩ | ⟨e, he⟩
    · exact fun k => ⟨f k, hf k⟩
    · rw [he key] at hp
      cases hp

/-- The records a search brings: the live ones among the first posted. -/
theorem search_rows {n : Node (Media K α VB) K V P} (hn : Covers b termsOf n) {query : String}
    {iterated : List K} (hposted : ∀ k ∈ iterated, k ∈ n.media.2.keys query) (limit : Int) :
    (search b label termsOf policy iterated limit n).1 = .ok ((iterated.take limit.toNat).filterMap
      fun key => (reading b n.media.1 key).map fun value => (key, value)) := by
  have hhits : (if limit ≤ 0 then [] else iterated.take limit.toNat) = iterated.take limit.toNat := by
    split
    · next hle => rw [Int.toNat_of_nonpos hle, List.take_zero]
    · rfl
  unfold search
  simp only [hhits]
  split
  · next hempty =>
    rw [List.isEmpty_iff.mp hempty]
    rfl
  · next hne =>
    obtain ⟨key, hkey⟩ := List.exists_mem_of_ne_nil _ fun h => hne (List.isEmpty_iff.mpr h)
    have hkeys := posted_writable b termsOf hn (hposted key (List.mem_of_mem_take hkey))
    obtain ⟨d, hd, hfound⟩ := batchGet_reading b label termsOf policy hn.decoded
      (iterated.take limit.toNat) hkeys
    rw [bind_ok (Prod.ext hd rfl)]
    refine congrArg Except.ok (List.filterMap_congr fun k hk => ?_)
    rw [hfound k hk]

/-- In every state a history reaches, whichever order the posted keys are iterated in: a
    search brings as many live records as it was asked for, or all that match, exactly
    where every key it looks up is live or none is beyond those. -/
theorem search_countsLive_iff (clock : Instant) (events : List (Event K V)) (query : String)
    (limit : Int) (iterated : List K)
    (hiterated : iterated.Perm
      ((history (P := P) b label termsOf policy events (fresh clock)).media.2.keys query)) :
    let n : Node (Media K α VB) K V P := history b label termsOf policy events (fresh clock)
    CountsLive b label termsOf policy n query limit
        (search b label termsOf policy iterated limit n).1 ↔
      (∀ key ∈ iterated.take limit.toNat, Live b label termsOf policy n key) ∨
      ∀ key ∈ iterated.drop limit.toNat, ¬ Live b label termsOf policy n key := by
  intro n
  have hn : Covers b termsOf n := history_covers b label termsOf policy events (fresh_covers b termsOf clock)
  have hposted : ∀ k ∈ iterated, k ∈ n.media.2.keys query := fun k hk => hiterated.mem_iff.mp hk
  have hnodup : iterated.Nodup :=
    hiterated.nodup_iff.mpr (Dict.Filled.nodup_bucket hn.coherent.filled query)
  have hlive : ∀ k, Live b label termsOf policy n k ↔ (reading b n.media.1 k).isSome = true := by
    intro k
    rw [Option.isSome_iff_exists]
    exact exists_congr fun v => store_get b label termsOf policy hn.decoded
  have hhit : ∀ k, (∃ v, Hit b label termsOf policy n query k v) ↔
      k ∈ iterated.filter fun k => (reading b n.media.1 k).isSome := by
    intro k
    rw [List.mem_filter, hiterated.mem_iff, Option.isSome_iff_exists, ← exists_and_left]
    exact exists_congr fun v => hit_iff b label termsOf policy hn
  have hcut : (∀ key ∈ iterated.take limit.toNat, Live b label termsOf policy n key) ∨
      (∀ key ∈ iterated.drop limit.toNat, ¬ Live b label termsOf policy n key) ↔
      ((iterated.take limit.toNat).filter fun k => (reading b n.media.1 k).isSome).length =
        min limit.toNat (iterated.filter fun k => (reading b n.media.1 k).isSome).length := by
    rw [Paging.length_filter_take_iff]
    simp only [hlive, Bool.not_eq_true]
  have hkeys : ((iterated.take limit.toNat).filterMap fun key =>
      (reading b n.media.1 key).map fun value => (key, value)).map Prod.fst =
        (iterated.take limit.toNat).filter fun k => (reading b n.media.1 k).isSome := by
    rw [List.map_filterMap, ← List.filterMap_eq_filter]
    refine List.filterMap_congr fun k _ => ?_
    cases hread : reading b n.media.1 k <;> simp [Option.guard, hread]
  rw [hcut, search_rows b label termsOf policy hn hposted limit, ← hkeys, List.length_map]
  constructor
  · rintro ⟨rows, live, hrows, hdistinct, hmem, -, hlength, -⟩
    have hperm : live.Perm (iterated.filter fun k => (reading b n.media.1 k).isSome) :=
      (List.perm_ext_iff_of_nodup hdistinct (hnodup.filter _)).mpr fun k =>
        (hmem k).trans (hhit k)
    rw [Except.ok.inj hrows, hlength, hperm.length_eq]
  · intro hlength
    refine ⟨_, iterated.filter fun k => (reading b n.media.1 k).isSome, rfl, hnodup.filter _,
      fun k => (hhit k).symm, ?_, hlength, fun row hrow => ?_⟩
    · rw [hkeys]
      exact (hnodup.sublist (List.take_sublist _ _)).filter _
    · obtain ⟨k, hk, hvalue⟩ := List.mem_filterMap.mp hrow
      obtain ⟨v, hv, rfl⟩ := Option.map_eq_some_iff.mp hvalue
      exact (hit_iff b label termsOf policy hn).mpr ⟨hposted k (List.mem_of_mem_take hk), hv⟩

/-- One record that has expired and one that has not, both posted under the query. -/
def halfExpired : Node (Media (List Char) Char String) (List Char) String Empty :=
  history (MemoryKvBackend.plain String) "words" (fun _ _ => ["w"]) .required
    [.op (.set ['a'] "x" ⟨some ⟨some 5000000⟩, none⟩), .op (.set ['b'] "y" .none), .op (.wait 10000000)]
    (fresh 0)

/-- A limit that takes in both. -/
theorem search_countsLive_iff_both :
    CountsLive (MemoryKvBackend.plain String) "words" (fun _ _ => ["w"]) .required halfExpired "w" 2
        (search (MemoryKvBackend.plain String) "words" (fun _ _ => ["w"]) .required [['a'], ['b']] 2
          halfExpired).1 :=
  (search_countsLive_iff (P := Empty) (MemoryKvBackend.plain String) "words" (fun _ _ => ["w"]) .required 0
    [.op (.set ['a'] "x" ⟨some ⟨some 5000000⟩, none⟩), .op (.set ['b'] "y" .none), .op (.wait 10000000)] "w" 2
    [['a'], ['b']] (List.Perm.refl _)).mpr (.inr fun _ hcut => absurd hcut List.not_mem_nil)

/-- Asked for one record, a search that iterates the expired one first brings none. -/
theorem search_shortOfLive : ¬ CountsLive (MemoryKvBackend.plain String) "words" (fun _ _ => ["w"])
    .required halfExpired "w" 1 (search (MemoryKvBackend.plain String) "words" (fun _ _ => ["w"]) .required
      [['a'], ['b']] 1 halfExpired).1 := by
  rintro ⟨rows, live, hrows, -, hmem, -, hlength, -⟩
  have hnone : (search (MemoryKvBackend.plain String) "words" (fun _ _ => ["w"]) .required
      [['a'], ['b']] 1 halfExpired).1 = .ok [] := rfl
  have hb : ['b'] ∈ live := (hmem ['b']).mpr ⟨"y", rfl, List.mem_singleton_self "w"⟩
  have hsome : 0 < live.length := List.length_pos_of_mem hb
  rw [hnone] at hrows
  rw [← Except.ok.inj hrows, List.length_nil, Int.toNat_one] at hlength
  omega

end IndexedSearch

end Kvtsjl
