import Kvtsjl.Compose
import Kvtsjl.MemoryValues
import Kvtsjl.Reads
import Kvtsjl.Tree

/-
  Existence is a read, at any depth.
  Views and nodes keep `Agrees` of what they are made of, so every tree has it of its
  leaves. A memory store has it.
-/

namespace Kvtsjl

open Assoc (Dict)
open Effects Prog

/-! ## A leaf in memory -/

section OneByOne

variable {σ K V : Type} [DecidableEq K]

/-- A batch that asks key by key, where no question changes an answer. -/
theorem defaultBatchGet_get? {get : K → M σ (Option V)}
    (hsame : ∀ k, Moves (fun s s' => ∀ j, (get j s').1 = (get j s).1) (get k)) {keys : List K} {s : σ}
    {d : Dict K V} (h : (defaultBatchGet get keys s).1 = .ok d) (k : K) :
    (k ∉ keys → d.get? k = none) ∧ ∀ v, k ∈ keys → (get k s).1 = .ok v → d.get? k = v := by
  have hloop : ∀ step : Dict K V → K → M σ (Dict K V),
      (∀ out key, step out key = get key >>= fun r => pure (r.elim out (out.set key))) →
      ∀ (keys : List K) (out : Dict K V) (s : σ) (d : Dict K V), (keys.foldlM step out s).1 = .ok d →
      (k ∉ keys → d.get? k = out.get? k) ∧ ∀ v, (get k s).1 = .ok v →
        (out.get? k = v → d.get? k = v) ∧ (k ∈ keys → out.get? k = none → d.get? k = v) := by
    intro step hstep keys
    induction keys with
    | nil =>
      intro out s d hd
      rw [← Except.ok.inj hd]
      exact ⟨fun _ => rfl, fun v _ => ⟨id, fun hk => by cases hk⟩⟩
    | cons key keys ih =>
      intro out s d hd
      rw [List.foldlM_cons, hstep, bind_assoc] at hd
      rcases hg : get key s with ⟨e | r, s'⟩
      · rw [bind_error hg] at hd
        cases hd
      rw [bind_ok hg] at hd
      have hk := hsame key s k
      rw [hg] at hk
      cases r with
      | none =>
        rw [pure_bind] at hd
        have hrest := ih out s' d hd
        refine ⟨fun hn => hrest.1 fun hm => hn (List.mem_cons_of_mem _ hm), fun v hv => ?_⟩
        have hrest := hrest.2 v (hk.trans hv)
        refine ⟨hrest.1, fun hm hout => ?_⟩
        rcases List.mem_cons.mp hm with rfl | hm
        · rw [hg] at hv
          have hnone : none = v := Except.ok.inj hv
          exact hrest.1 (by rw [hout, hnone])
        · exact hrest.2 hm hout
      | some w =>
        rw [pure_bind] at hd
        have hrest := ih (out.set key w) s' d hd
        rw [Dict.get?_set] at hrest
        by_cases hkey : k = key
        · rw [if_pos hkey] at hrest
          refine ⟨fun hn => absurd (by rw [hkey]; exact List.mem_cons_self) hn, fun v hv => ?_⟩
          have hsome : v = some w := by
            rw [hkey, hg] at hv
            exact (Except.ok.inj hv).symm
          have hlast := (hrest.2 v (hk.trans hv)).1 hsome.symm
          exact ⟨fun _ => hlast, fun _ _ => hlast⟩
        · rw [if_neg hkey] at hrest
          refine ⟨fun hn => hrest.1 fun hm => hn (List.mem_cons_of_mem _ hm), fun v hv => ?_⟩
          have hrest := hrest.2 v (hk.trans hv)
          exact ⟨hrest.1, fun hm => hrest.2 ((List.mem_cons.mp hm).resolve_left hkey)⟩
  have hall := hloop _ (fun out key => bind_congr fun r => by cases r <;> rfl) keys Dict.empty s d h
  exact ⟨hall.1, fun v hk hv => (hall.2 v hv).2 hk rfl⟩

/-- A batch that asks key by key who is held. -/
theorem foldlM_insert_mem {holds : K → M σ Bool}
    (hsame : ∀ k, Moves (fun s s' => ∀ j, (holds j s').1 = (holds j s).1) (holds k)) (keys : List K)
    (out : Finset K) {found : Finset K} {s : σ}
    (h : (keys.foldlM (fun out key => do
      if ← holds key then pure (insert key out) else pure out : Finset K → K → M σ (Finset K))
        out s).1 = .ok found) (k : K) :
    k ∈ found ↔ k ∈ out ∨ k ∈ keys ∧ (holds k s).1 = .ok true := by
  induction keys generalizing out s with
  | nil =>
    rw [← Except.ok.inj h]
    simp
  | cons key keys ih =>
    rw [List.foldlM_cons, bind_assoc] at h
    rcases hb : holds key s with ⟨e | b, s'⟩
    · rw [bind_error hb] at h
      cases h
    rw [bind_ok hb] at h
    have hk := hsame key s k
    rw [hb] at hk
    have hrest : k ∈ found ↔ k ∈ (if b = true then insert key out else out) ∨
        k ∈ keys ∧ (holds k s).1 = .ok true := by
      rw [← hk]
      cases b <;> exact ih _ h
    rw [hrest, List.mem_cons]
    by_cases hkey : k = key
    · subst hkey
      rw [hb]
      cases b <;> simp
    · cases b <;> simp [hkey]

end OneByOne

namespace MemoryKvBackend

variable {K V α VB : Type} [DecidableEq α] (b : MemoryKvBackend K V α VB)

/-- Every key's live entry is as it was. -/
def SameLive (r r' : MemoryRoot α VB) : Prop := ∀ j, (b.liveEntry j r').1 = (b.liveEntry j r).1

theorem liveEntry_ok {k : K} {p : List α} (h : b.physicalKeyBlob k = .ok p) (r : MemoryRoot α VB) :
    (b.liveEntry k r).1 = .ok ((b.entryAt r p).filter fun e => !expired e r.clock) := by
  unfold liveEntry
  rw [b.physicalKey_ok h, pure_bind, bind_apply, read_apply]
  simp only
  cases b.entryAt r p with
  | none => rfl
  | some e =>
    simp only [Option.filter_some]
    cases hx : expired e r.clock with
    | false => rfl
    | true =>
      unfold lazyDelete Prog.when
      rw [if_pos rfl]
      split <;> rfl

theorem liveEntry_error {k : K} {e : Exn} (h : b.physicalKeyBlob k = .error e)
    (r : MemoryRoot α VB) : (b.liveEntry k r).1 = .error e := by
  unfold liveEntry
  rw [b.physicalKey_error h, raise_bind]
  rfl

/-- A live read shows the same to every later one: what it removes was expired. -/
theorem liveEntry_sameLive (k : K) : Moves b.SameLive (b.liveEntry k) := by
  intro r j
  rcases b.liveEntry_state k r with hsame | ⟨p, e, -, he, hx, hpop⟩
  · rw [hsame]
  rw [hpop]
  cases hj : b.physicalKeyBlob j with
  | error e => rw [b.liveEntry_error hj, b.liveEntry_error hj]
  | ok q =>
    rw [b.liveEntry_ok hj, b.liveEntry_ok hj, MemoryRoot.clock_pop]
    unfold entryAt at he ⊢
    rw [MemoryRoot.get?_pop]
    by_cases hq : q = p
    · rw [if_pos hq, hq, he, Option.filter_some, hx]
      rfl
    · rw [if_neg hq]

/-- What a get answers is made of the key's live entry. -/
theorem get_eq (k : K) (r : MemoryRoot α VB) : (b.get k r).1 =
    (b.liveEntry k r).1.bind fun entry =>
      match entry with
      | none => .ok none
      | some e => match b.kvset.valueSerde.deserialize e.valueBlob with
        | some v => .ok (some v)
        | none => .error (.serDeError "deserialize failed") := by
  unfold get
  rcases h : b.liveEntry k r with ⟨e | entry, r'⟩
  · rw [bind_error h]
    rfl
  · rw [bind_ok h]
    cases entry with
    | none => rfl
    | some e =>
      show ((b.deserializeValue e.valueBlob >>= fun v => pure (some v) : M _ _) r').1 = _
      unfold deserializeValue
      cases hd : b.kvset.valueSerde.deserialize e.valueBlob with
      | none => simp only [Except.bind, hd]; rfl
      | some v => simp [Except.bind, hd]

theorem existsKey_eq (k : K) (r : MemoryRoot α VB) :
    (b.existsKey k r).1 = (b.liveEntry k r).1.map Option.isSome := by
  show ((Option.isSome <$> b.liveEntry k) r).1 = _
  rw [map_apply]

theorem exists_of_get {k : K} {r : MemoryRoot α VB} {v : Option V} (h : (b.get k r).1 = .ok v) :
    (b.existsKey k r).1 = .ok v.isSome := by
  rw [b.get_eq] at h
  rw [b.existsKey_eq]
  cases hl : (b.liveEntry k r).1 with
  | error e =>
    rw [hl] at h
    cases h
  | ok entry =>
    rw [hl] at h
    cases entry with
    | none =>
      rw [← Except.ok.inj h]
      rfl
    | some e =>
      cases hd : b.kvset.valueSerde.deserialize e.valueBlob with
      | none =>
        simp [Except.bind, hd] at h
      | some w =>
        simp only [Except.bind, hd] at h
        rw [← Except.ok.inj h]
        rfl

/-- A memory store's answers agree. -/
theorem agree [DecidableEq K] : b.store.Agree where
  existsKey _ _ _ hv := b.exists_of_get hv
  batchExists ks r found hfound k := by
    have hsame : ∀ k, Moves (fun s s' => ∀ j, (b.existsKey j s').1 = (b.existsKey j s).1)
        (b.existsKey k) := by
      intro k r j
      have hstate : (b.existsKey k r).2 = (b.liveEntry k r).2 := by
        show ((Option.isSome <$> b.liveEntry k) r).2 = _
        rw [map_apply]
      rw [b.existsKey_eq, b.existsKey_eq, hstate, b.liveEntry_sameLive k r j]
    have hmem := foldlM_insert_mem hsame ks ∅ hfound k
    refine ⟨fun hk => ((hmem.mp hk).resolve_left (by simp)).1, fun v hk hv => ?_⟩
    rw [hmem, b.exists_of_get hv]
    simp [hk]
  batchGet ks r d hd k := by
    have hsame : ∀ k, Moves (fun s s' => ∀ j, (b.get j s').1 = (b.get j s).1) (b.get k) := by
      intro k r j
      rw [b.get_eq, b.get_eq, b.get_state, b.liveEntry_sameLive k r j]
    exact defaultBatchGet_get? hsame hd k

end MemoryKvBackend

/-! ## Views -/

section ViewsAgree

variable {σ K SK T U V : Type} [DecidableEq K] [DecidableEq SK]

omit [DecidableEq SK] in
theorem imapStore_agree {s : KvStore σ K T} (h : s.Agree) (forward : T → U) (inverse : U → T) :
    (imapStore s forward inverse).Agree := by
  have hmap := h.map forward
  refine ⟨hmap.existsKey, hmap.batchExists, fun ks st d hd k => ?_⟩
  have hget : (imapStore s forward inverse).batchGet ks = if ks.isEmpty then pure Dict.empty
      else mapValues forward <$> s.batchGet (Dict.unique ks) := rfl
  rw [hget] at hd
  split at hd
  · next hempty =>
    rw [← Except.ok.inj hd]
    refine ⟨fun _ => rfl, fun v hk => ?_⟩
    rw [List.isEmpty_iff.mp hempty] at hk
    cases hk
  · have hk := hmap.batchGet (Dict.unique ks) st d hd k
    rw [Dict.mem_unique] at hk
    exact hk

omit [DecidableEq K] in
/-- A stored key stands for the one caller's key that maps to it. -/
theorem get?_callerKeys {toStore : K → SK} (hinj : Function.Injective toStore) (keys : List K)
    (sk : SK) (k : K) :
    (callerKeys toStore keys).get? sk = some k ↔ k ∈ keys ∧ toStore k = sk := by
  have hloop : ∀ (keys : List K) (d : Dict SK K), (∀ sk k, d.get? sk = some k → toStore k = sk) →
      ((keys.foldl (fun d key => d.set (toStore key) key) d).get? sk = some k ↔
        (d.get? sk = some k ∨ k ∈ keys) ∧ toStore k = sk) := by
    intro keys
    induction keys with
    | nil =>
      intro d hd
      simp only [List.foldl_nil, List.not_mem_nil, or_false]
      exact ⟨fun h => ⟨h, hd sk k h⟩, And.left⟩
    | cons key keys ih =>
      intro d hd
      rw [List.foldl_cons, ih _ fun sk k h => ?_, Dict.get?_set, List.mem_cons]
      · by_cases hsk : sk = toStore key
        · rw [if_pos hsk]
          constructor
          · rintro ⟨h | h, hk⟩
            · exact ⟨.inr (.inl (Option.some.inj h).symm), hk⟩
            · exact ⟨.inr (.inr h), hk⟩
          · rintro ⟨-, hk⟩
            have hkey : k = key := hinj (hk.trans hsk)
            exact ⟨.inl (by rw [hkey]), hk⟩
        · rw [if_neg hsk]
          have hne : toStore k = sk → k ≠ key := fun hk hkey => hsk (by rw [← hk, hkey])
          constructor
          · rintro ⟨h, hk⟩
            exact ⟨h.imp_right .inr, hk⟩
          · rintro ⟨h, hk⟩
            exact ⟨h.imp_right fun h => h.resolve_left (hne hk), hk⟩
      · rw [Dict.get?_set] at h
        split at h
        · next hsk => rw [hsk, Option.some.inj h]
        · exact hd sk k h
  unfold callerKeys
  rw [hloop keys Dict.empty (fun sk k h => by cases h)]
  simp

theorem imapKeysStore_agree {s : KvStore σ SK V} (h : s.Agree) {toStore : K → SK}
    (hinj : Function.Injective toStore) (fromStore : Option (SK → K)) :
    (imapKeysStore s toStore fromStore).Agree where
  existsKey k st v hv := h.existsKey (toStore k) st v hv
  batchExists ks st found hfound k := by
    obtain ⟨held, hheld, rfl⟩ := map_ok hfound
    have hk := h.batchExists _ st held hheld (toStore k)
    have hmem : k ∈ (callerKeys toStore ks).entries.filterMap (fun e =>
        if e.1 ∈ held then some e.2 else none) ↔ k ∈ ks ∧ toStore k ∈ held := by
      rw [List.mem_filterMap]
      constructor
      · rintro ⟨⟨sk, k'⟩, he, hsome⟩
        split at hsome
        · next hin =>
          obtain ⟨hks, hsk⟩ := (get?_callerKeys hinj ks sk k').mp (Dict.mem_entries.mp he)
          have hkk : k' = k := Option.some.inj hsome
          rw [← hkk, hsk]
          exact ⟨hks, hin⟩
        · cases hsome
      · rintro ⟨hks, hin⟩
        refine ⟨(toStore k, k), Dict.mem_entries.mpr ((get?_callerKeys hinj ks _ k).mpr ⟨hks, rfl⟩), ?_⟩
        rw [if_pos hin]
    rw [List.mem_toFinset, hmem]
    refine ⟨And.left, fun v hks hv => ?_⟩
    have hkeys : toStore k ∈ (callerKeys toStore ks).keys :=
      Dict.mem_keys.mpr ⟨k, (get?_callerKeys hinj ks _ k).mpr ⟨hks, rfl⟩⟩
    rw [← hk.2 v hkeys hv]
    exact and_iff_right hks
  batchGet ks st d hd k := by
    have hget : (imapKeysStore s toStore fromStore).batchGet ks = if ks.isEmpty then pure Dict.empty
        else (fun found : Dict SK V => Dict.ofKeys ks fun key => found.get? (toStore key)) <$>
          s.batchGet (Dict.unique ((Dict.unique ks).map toStore)) := rfl
    rw [hget] at hd
    split at hd
    · next hempty =>
      rw [← Except.ok.inj hd]
      refine ⟨fun _ => rfl, fun v hk => ?_⟩
      rw [List.isEmpty_iff.mp hempty] at hk
      cases hk
    · obtain ⟨found, hfound, rfl⟩ := map_ok hd
      rw [Dict.get?_ofKeys]
      refine ⟨fun hk => if_neg hk, fun v hk hv => ?_⟩
      rw [if_pos hk]
      refine (h.batchGet _ st found hfound (toStore k)).2 v ?_ hv
      rw [Dict.mem_unique]
      exact List.mem_map.mpr ⟨k, Dict.mem_unique.mpr hk, rfl⟩

end ViewsAgree

/-! ## Trees -/

section AgreeTrees

variable {S K V P T : Type} [DecidableEq K]

theorem storeTarget_agree {s : KvStore S K T} [DecidableEq T] (h : s.Agree) (d : Declared)
    (slot : V → Option T) (up : T → P) : (storeTarget d s slot up : Target S K V P).Agree :=
  h.map up

theorem upcast_agree {Q : Type} {t : Target S K V P} (h : t.Agree) (f : P → Q) :
    (t.upcast f).Agree := h.map f

theorem Shape.target_agree (d : Declared) :
    ∀ {T : Type} [DecidableEq T] (sh : Shape V P T) {s : KvStore S K T}, s.Agree →
      (sh.target d s).Agree
  | _, _, .whole, _, h => upcast_agree (storeTarget_agree h d some id) Sum.inl
  | _, _, .piece slot up, _, h => upcast_agree (storeTarget_agree h d slot up) Sum.inr

/-- The attached indexes hold nothing, and say so of every key. -/
theorem indexesTarget_agree (indexes : List (Index S K V)) (policy : SyncPolicy) :
    (indexesTarget indexes policy : Target S K V P).Agree where
  existsKey k s v hv := by cases hv
  batchExists ks s found hfound k := by
    cases ks with
    | nil =>
      rw [← Except.ok.inj hfound]
      exact ⟨fun hk => absurd hk (Finset.notMem_empty k), fun v hk => by cases hk⟩
    | cons k ks => cases hfound
  batchGet ks s d hd k := by
    cases ks with
    | nil =>
      rw [← Except.ok.inj hd]
      exact ⟨fun _ => rfl, fun v hk => by cases hk⟩
    | cons k ks => cases hd

theorem Shape.target?_agree (d : Declared) :
    ∀ {T : Type} [DecidableEq T] (sh : Shape V P T) {s : KvStore S K T}, s.Agree →
      ∀ t ∈ sh.target? d s, t.Agree
  | _, _, .whole, _, h, _, ht => by
    rw [← Option.some.inj ht]
    exact storeTarget_agree h d some id
  | _, _, .piece _ _, _, _, _, ht => by cases ht

/-- A child that holds the whole record acts on its own part of the media. -/
theorem Shape.target?_zoom {R : Type} (l : Lens R S) (d : Declared) :
    ∀ {T : Type} [DecidableEq T] (sh : Shape V P T) {s : KvStore S K T},
      ∀ t ∈ sh.target? d (s.zoom l), ∃ t' : Target S K V V, t = t'.zoom l
  | _, _, .whole, s, t, ht => by
    rw [← Option.some.inj ht]
    exact ⟨storeTarget d s some id, storeTarget_zoom l d s some id⟩
  | _, _, .piece _ _, _, _, ht => by cases ht

theorem Shape.target?_lookup (d : Declared) :
    ∀ {T : Type} [DecidableEq T] (sh : Shape V P T) {s : KvStore S K T},
      ∀ t ∈ sh.target? d s, t.role = d.role ∧ t.lookup = d.lookedUp
  | _, _, .whole, _, t, ht => by
    rw [← Option.some.inj ht]
    exact ⟨rfl, rfl⟩
  | _, _, .piece _ _, _, _, ht => by cases ht

variable {n m : Nat} {C : Fin n → Type} {I : Fin m → Type} {part : Fin n → Type}
  [∀ i, DecidableEq (part i)] {stores : ∀ i, KvStore (C i) K (part i)} {declared : Fin n → Declared}
  {shape : ∀ i, Shape V P (part i)} {index : ∀ j, Index (I j) K V}
  {indexPolicy : Option SyncPolicy} {assemble : Option (Parts V P → Option V)}

/-- The targets at two places of a node do not disturb each other. -/
theorem mediaTarget_separate {p q : Option (Fin n)} (h : p ≠ q) :
    Target.Separate (mediaTarget stores declared shape index indexPolicy p)
      (mediaTarget stores declared shape index indexPolicy q) := by
  have hspares : ∀ p q : Option (Fin n), p ≠ q →
      (mediaTarget stores declared shape index indexPolicy p).Spares
        (mediaTarget stores declared shape index indexPolicy q) := by
    intro p q h
    cases p with
    | none =>
      cases q with
      | none => exact absurd rfl h
      | some j =>
        rw [mediaTarget_indexes, mediaTarget_child]
        exact Target.spares_zoom (Media.indexes_apart_child j) _ _
    | some i =>
      rw [mediaTarget_child]
      cases q with
      | none =>
        rw [mediaTarget_indexes]
        exact Target.spares_zoom (Media.child_apart_indexes i) _ _
      | some j =>
        rw [mediaTarget_child]
        exact Target.spares_zoom (Media.child_apart fun hji => h (by rw [hji])) _ _
  exact ⟨hspares p q h, hspares q p (Ne.symm h)⟩

theorem mediaTopology_readable (hagree : ∀ i, (stores i).Agree)
    (hcheck : ∀ i, (declared i).check = .ok ()) :
    (mediaTopology stores declared shape index indexPolicy assemble).Readable where
  agree t ht := by
    rw [all_eq] at ht
    obtain ⟨p, -, rfl⟩ := List.mem_map.mp ht
    cases p with
    | none => exact upcast_agree (indexesTarget_agree _ _) _
    | some i => exact Shape.target_agree _ _ ((hagree i).zoom (Media.child i))
  agreeWhole t ht := by
    rcases List.mem_append.mp ht with ht | ht
    · obtain ⟨i, -, ht⟩ := List.mem_filterMap.mp ht
      exact Shape.target?_agree _ _ ((hagree i).zoom (Media.child i)) t ht
    · obtain ⟨policy, -, rfl⟩ := Option.map_eq_some_iff.mp (Option.mem_toList.mp ht)
      exact indexesTarget_agree _ _
  separate := by
    rw [all_eq, List.pairwise_map]
    exact (nodup_nodePlaces shape indexPolicy).imp mediaTarget_separate
  separateWhole := by
    show List.Pairwise _ (_ ++ _)
    rw [List.pairwise_append, List.pairwise_filterMap]
    refine ⟨(List.nodup_finRange n).imp ?_, ?_, ?_⟩
    · intro i j hij t ht u hu
      obtain ⟨t', rfl⟩ := Shape.target?_zoom (Media.child i) _ _ t ht
      obtain ⟨u', rfl⟩ := Shape.target?_zoom (Media.child j) _ _ u hu
      exact ⟨Target.spares_zoom (Media.child_apart (Ne.symm hij)) _ _,
        Target.spares_zoom (Media.child_apart hij) _ _⟩
    · cases indexPolicy with
      | none => exact List.Pairwise.nil
      | some policy => exact List.pairwise_singleton _ _
    · intro t ht u hu
      obtain ⟨i, -, ht⟩ := List.mem_filterMap.mp ht
      obtain ⟨t', rfl⟩ := Shape.target?_zoom (Media.child i) _ _ t ht
      obtain ⟨policy, -, rfl⟩ := Option.map_eq_some_iff.mp (Option.mem_toList.mp hu)
      have hindexes : (List.ofFn fun j => (index j).zoom (Media.index j : Lens (Media C I) (I j))) =
          (nodeIndexes index).map (Index.zoom Lens.second) := by
        unfold nodeIndexes
        rw [List.map_ofFn]
        rfl
      rw [hindexes, indexesTarget_zoom]
      exact ⟨Target.spares_zoom (Media.child_apart_indexes i) _ _,
        Target.spares_zoom (Media.indexes_apart_child i) _ _⟩
  unplaced t ht hrole := by
    rcases List.mem_append.mp ht with ht | ht
    · obtain ⟨i, -, ht⟩ := List.mem_filterMap.mp ht
      obtain ⟨hr, hl⟩ := Shape.target?_lookup _ _ t ht
      have hc := hcheck i
      unfold Declared.check at hc
      rw [hl]
      unfold Declared.lookedUp
      rw [hr] at hrole
      cases hd : (declared i).lookup with
      | none =>
        rw [hrole]
        rfl
      | some l =>
        rw [hd, hrole, if_pos ⟨rfl, .inl rfl⟩] at hc
        cases hc
    · obtain ⟨policy, -, rfl⟩ := Option.map_eq_some_iff.mp (Option.mem_toList.mp ht)
      cases hrole

end AgreeTrees

/-- A leaf's own answers agree. -/
structure Leaf.Agree {K V : Type} (l : Leaf K V) : Prop where
  agree : ∀ [DecidableEq K], l.store.Agree

namespace Composition

theorem memoryLeaf_agree {K V α VB : Type} [inst : DecidableEq K] [DecidableEq α]
    (b : MemoryKvBackend K V α VB) : (memoryLeaf b).Agree := by
  refine ⟨?_⟩
  intro inst'
  obtain rfl : inst' = inst := Subsingleton.elim _ _
  exact b.agree

/-- No view of the tree maps two keys to one. -/
def KeysInjective : {K V : Type} → Composition K V → Prop
  | _, _, .leaf _ => True
  | _, _, .imap c _ _ => c.KeysInjective
  | _, _, .imapKeys _ c toStore _ => Function.Injective toStore ∧ c.KeysInjective
  | _, _, .node _ _ _ _ _ _ child _ _ _ _ _ _ => ∀ i, (child i).KeysInjective

theorem agree {K V : Type} (c : Composition K V) (hleaf : c.Leaves Leaf.Agree)
    (hkeys : c.KeysInjective) : ∀ [DecidableEq K], c.Constructed → c.store.Agree := by
  induction c with
  | leaf l =>
    intro _ _
    exact hleaf.agree
  | imap c f g ih =>
    intro _ hcon
    exact imapStore_agree (ih hleaf hkeys hcon) f g
  | imapKeys dec c f g ih =>
    intro _ hcon
    exact imapKeysStore_agree (ih hleaf hkeys.2 hcon) hkeys.1 g
  | node name zip P n part dec child declared shape m index policy assemble ih =>
    intro _ hcon
    have hread : (topologyOf child declared shape index policy assemble).Readable :=
      mediaTopology_readable (fun i => ih i (hleaf i) (hkeys i) (hcon.2.2 i)) hcon.1
    cases zip <;> exact (Topology.agrees hread).zoom Node.mediaLens

/-- Existence is a read: the answers to `exists` and `batch_exists` are those of `get`. -/
theorem existence_is_a_read {K V : Type} [DecidableEq K] (c : Composition K V)
    (hleaf : c.Leaves Leaf.Agree) (hkeys : c.KeysInjective) (hcon : c.Constructed) (s : c.State) :
    (∀ k v s', c.store.get k s = (.ok v, s') → (c.store.existsKey k s).1 = .ok v.isSome) ∧
    ∀ ks found s', c.store.batchExists ks s = (.ok found, s') → ∀ k,
      (k ∈ found → k ∈ ks) ∧
      ∀ v s'', k ∈ ks → c.store.get k s = (.ok v, s'') → (k ∈ found ↔ v.isSome = true) := by
  have hagree := agree c hleaf hkeys hcon
  refine ⟨fun k v s' hget => hagree.existsKey k s v (by rw [hget]), fun ks found s' hfound k => ?_⟩
  have hbatch := hagree.batchExists ks s found (by rw [hfound]) k
  exact ⟨hbatch.1, fun v s'' hk hget => hbatch.2 v hk (by rw [hget])⟩

/-- A record that only the fallback holds exists: a read finds it. -/
theorem existence_is_a_read_fallback :
    let b := MemoryKvBackend.plain String
    let c := fallbackRead (leaf (memoryLeaf b)) (leaf (memoryLeaf b)) true
    let s : c.State := pairState (MemoryRoot.empty 0) ((MemoryRoot.empty 0).put "items:v1" ['a'] "x" none 0)
    (c.store.existsKey ['a'] s).1 = .ok true ∧ (c.store.existsKey ['b'] s).1 = .ok false := by
  intro b c s
  have hleaf : c.Leaves Leaf.Agree
    | ⟨0, _⟩ => memoryLeaf_agree b
    | ⟨1, _⟩ => memoryLeaf_agree b
  have hkeys : c.KeysInjective
    | ⟨0, _⟩ => trivial
    | ⟨1, _⟩ => trivial
  have hcon : c.Constructed :=
    ⟨fun | ⟨0, _⟩ => rfl | ⟨1, _⟩ => rfl, rfl, fun | ⟨0, _⟩ => trivial | ⟨1, _⟩ => trivial⟩
  have h := (existence_is_a_read c hleaf hkeys hcon s).1
  exact ⟨h ['a'] (some "x") _ rfl, h ['b'] none _ rfl⟩

end Composition

end Kvtsjl
