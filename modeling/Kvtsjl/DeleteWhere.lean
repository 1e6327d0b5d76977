import Kvtsjl.Collection
import Kvtsjl.MemorySource

/-
  `delete_where` of a leaf, and `gc_expired`.
  A predicate made of `Expired` alone is a collection. Any other is a scan for keys, and what the
  scan gives is deleted in one batch. Over a memory store whose keys are listed where they are
  written, exactly what is selected goes (`deleteWhere_removes`).
-/

namespace Kvtsjl

open Assoc (Dict)
open Effects Prog

/-! ## The operation -/

section Mixin

variable {S K V : Type}

/-- `is_gc_predicate` -/
def Predicate.isGc : Predicate K V → Bool
  | .stat name _ => name = "Expired"
  | .and l r => l.isGc && r.isGc
  | .or l r => l.isGc && r.isGc
  | _ => false

/-- `Expired`, judged at an instant. A row without a stat has not expired. -/
def Predicate.expired (now : Instant) : Predicate K V :=
  .stat "Expired" fun _ stat => (stat.bind fun stat => stat.expiresAt).any (· ≤ now)

theorem orders_by_nothing : ([] : List SqlRows.OrderBy) ≠ [] →
    ScanOrder.unordered = .unordered ∧ (none : Option String) = none := fun h => absurd rfl h

/-- The keys that match. -/
def ScanSpec.selecting (where_ : Predicate K V) (limit : Option Int) : ScanSpec K V where
  where_ := where_
  refine := none
  project := .keys
  order := .unordered
  limit := limit
  pageSize := 100
  cursor := none
  onUnsupported := .clientSide
  orderBy := []
  one_order := orders_by_nothing

/-- What `delete_where` calls of a store. -/
structure Expiring (S K V : Type) extends Scannable S K V where
  gcExpiredKeys : Int → M S (List K)
  batchDelete : List K → M S Nat

namespace Expiring

/-- `delete_where` -/
def deleteWhere (store : Expiring S K V) (where_ : Predicate K V) (limit : Option Int) : M S Nat :=
  if where_.isGc then
    let maxEntries := limit.getD 2147483647
    if maxEntries < 1 then raise (.valueError ("limit must be >= 1 for GC, got " ++ toString maxEntries))
    else do return (← store.gcExpiredKeys maxEntries).length
  else do
    let rows ← store.scanRows (.selecting where_ limit)
    let keys := rows.map fun row => row.key
    if keys = [] then return 0 else store.batchDelete keys

/-- `gc_expired`, at an instant. -/
def gcExpired (store : Expiring S K V) (now : Instant) (maxEntries : Int) : M S Nat :=
  if maxEntries < 1 then raise (.valueError ("max_entries must be >= 1, got " ++ toString maxEntries))
  else store.deleteWhere (.expired now) (some maxEntries)

end Expiring

end Mixin

/-! ## Over a memory store -/

namespace MemoryKvBackend

variable {K V α VB : Type} [DecidableEq α] [DecidableEq K] [ScanKey K] (b : MemoryKvBackend K V α VB)

/-- What the mixin finds of a memory store. -/
def expiring : Expiring (MemoryRoot α VB) K V where
  toScannable := b.leafStore.scannable
  gcExpiredKeys := b.gcExpiredKeys
  batchDelete := countTrue b.delete

/-- Keys are listed where they are written, and under the prefixes they start with. -/
structure ListsOwnKeys (r : MemoryRoot α VB) : Prop where
  writes : ∀ k, b.physicalKeyBlob k = .ok (b.keyBlob k)
  shows : ∀ p k, p ∈ (r.bucket b.collection).keys → b.shownBy none p = some k → p = b.keyBlob k
  begins : ∀ p pre, p ∈ (r.bucket b.collection).keys → b.shownBy (some pre) p =
    (b.shownBy none p).filter fun k => ScanKey.startsWith k pre

/-- The live keys that match, up to the limit, in the order of the bucket. A value predicate sees the value
    kept, and a stat predicate no stat. -/
def selected (r : MemoryRoot α VB) (where_ : Predicate K V) (limit : Option Int) : List K :=
  cutAt limit (((b.livePlaces r).filterMap (b.shownBy none)).filter fun k =>
    where_.evaluate ⟨k, b.valueAt r (b.keyBlob k), none⟩)

/-- What `delete_where` is to remove. -/
def chosen (r : MemoryRoot α VB) (where_ : Predicate K V) (limit : Option Int) : List K :=
  if where_.isGc then b.comesTo r (limit.getD 2147483647) else b.selected r where_ limit

/-- The entries of the keys are gone, and every other live entry is as it was. -/
structure Removed (keys : List K) (r r' : MemoryRoot α VB) : Prop where
  clock : r'.clock = r.clock
  gone : ∀ k ∈ keys, b.entryAt r' (b.keyBlob k) = none
  rest : ∀ p e, expired e r.clock = false →
    (b.entryAt r' p = some e ↔ b.entryAt r p = some e ∧ p ∉ keys.map b.keyBlob)

variable {b}

/-- Places read as the keys they are of are read as different keys. -/
theorem nodup_of_places {P X : Type} {places : List P} (hplaces : places.Nodup) {shown : P → Option X} {own : X → P}
    (h : ∀ p ∈ places, ∀ x, shown p = some x → p = own x) : (places.filterMap shown).Nodup := by
  have hown : (places.filterMap shown).map own = places.filter fun p => (shown p).isSome := by
    rw [List.map_filterMap, ← List.filterMap_eq_filter]
    refine List.filterMap_congr fun p hp => ?_
    cases hx : shown p with
    | none => simp [Option.guard, hx]
    | some x => simp [Option.guard, hx, ← h p hp x hx]
  refine List.Nodup.of_map own ?_
  rw [hown]
  exact hplaces.filter _

/-! ### The batch -/

omit [DecidableEq K] [ScanKey K] in
/-- A batch of different keys that are all there counts them all. -/
theorem batchDelete_present (hf : ∀ k, b.physicalKeyBlob k = .ok (b.keyBlob k)) {keys : List K} (hnodup : keys.Nodup)
    {r : MemoryRoot α VB} (hpresent : ∀ k ∈ keys, (b.entryAt r (b.keyBlob k)).isSome = true) :
    countTrue b.delete keys r = (.ok keys.length, b.without r keys) := by
  have hinj : Function.Injective b.keyBlob := by
    rcases b.physicalKeyBlob_total with ⟨f, hinj, hf'⟩ | ⟨e, he⟩
    · intro k k' heq
      have hk := (hf k).symm.trans (hf' k)
      have hk' := (hf k').symm.trans (hf' k')
      exact hinj (by rw [← Except.ok.inj hk, ← Except.ok.inj hk', heq])
    · intro k
      have hk := (hf k).symm.trans (he k)
      cases hk
  suffices hloop : ∀ n, (keys.foldlM (fun n key => do
      if ← b.delete key then pure (n + 1) else pure n) n : M (MemoryRoot α VB) Nat) r =
        (.ok (n + keys.length), b.without r keys) by
    rw [← Nat.zero_add keys.length]
    exact hloop 0
  induction keys generalizing r with
  | nil => exact fun n => rfl
  | cons k keys ih =>
    intro n
    rw [List.nodup_cons] at hnodup
    have hk : (b.entry r k).isSome = true := by
      rw [b.entry_eq (hf k)]
      exact hpresent k List.mem_cons_self
    have hlater : ∀ j ∈ keys, (b.entryAt (r.pop b.collection (b.keyBlob k)) (b.keyBlob j)).isSome = true := by
      intro j hj
      have hne : b.keyBlob j ≠ b.keyBlob k := fun heq => hnodup.1 (hinj heq ▸ hj)
      have hpop : b.entryAt (r.pop b.collection (b.keyBlob k)) (b.keyBlob j) = b.entryAt r (b.keyBlob j) :=
        (MemoryRoot.get?_pop r b.collection (b.keyBlob k) (b.keyBlob j)).trans (if_neg hne)
      rw [hpop]
      exact hpresent j (List.mem_cons_of_mem k hj)
    rw [List.foldlM_cons, bind_assoc, bind_ok (b.delete_apply (hf k) r), without_cons hf, hk]
    rw [if_pos rfl, pure_bind, ih hnodup.2 hlater (n + 1), List.length_cons, Nat.add_right_comm, Nat.add_assoc]

/-! ### The scan -/

/-- What a read of a live key returns. -/
def liveValue (b : MemoryKvBackend K V α VB) (r : MemoryRoot α VB) (k : K) : Option V :=
  if b.LiveAt r (b.keyBlob k) then b.valueAt r (b.keyBlob k) else none

omit [DecidableEq K] in
/-- A key listed without its value is judged with it. -/
theorem judge_bareRow {where_ residual : Predicate K V} {limit : Option Int} {content : K → Option V} {k : K} {v : V}
    (h : content k = some v) :
    (judge ((ScanSpec.selecting where_ limit).call residual) content (bareRow (k, none))).map (fun row => row.key) =
      if residual.evaluate ⟨k, some v, none⟩ then some k else none := by
  have hrefined : ∀ row, ((ScanSpec.selecting where_ limit).call residual).refined row = true := fun _ => rfl
  have hresidual : ((ScanSpec.selecting where_ limit).call residual).residual = residual := rfl
  unfold judge
  rw [hresidual]
  by_cases hneeds : residual.needs.value = true
  · have hcame : ((bareRow (k, none) : ScanRow K V).value <|> content (bareRow (k, none) : ScanRow K V).key) =
      some v := h
    rw [if_pos hneeds, hcame, Option.map_some, Option.bind_some, hrefined, Bool.and_true]
    show Option.map _ (if residual.evaluate ⟨k, some v, none⟩ = true then _ else _) = _
    by_cases hpass : residual.evaluate ⟨k, some v, none⟩ = true
    · rw [if_pos hpass, if_pos hpass]
      rfl
    · rw [if_neg hpass, if_neg hpass]
      rfl
  · have hsame : residual.evaluate (bareRow (k, none)) = residual.evaluate ⟨k, some v, none⟩ :=
      Predicate.evaluate_of_needs (Bool.eq_false_iff.mpr hneeds) rfl (.inr rfl)
    rw [if_neg hneeds, hrefined, Bool.and_true, hsame]
    by_cases hpass : residual.evaluate ⟨k, some v, none⟩ = true
    · rw [if_pos hpass, if_pos hpass]
      rfl
    · rw [if_neg hpass, if_neg hpass]
      rfl

section Scan

variable {r : MemoryRoot α VB} (hown : b.ListsOwnKeys r) (hvalues : b.ValuesRead r)

include hown hvalues

omit [DecidableEq K] in
theorem get_liveValue (k : K) : Returns (b.SameRows r) (b.get k) fun v => v = b.liveValue r k := by
  intro t ht
  refine ⟨IsTrans.trans _ _ _ ht (b.get_sameRows k t), b.liveValue r k, ?_, rfl⟩
  rw [b.get_eq, b.liveEntry_ok (hown.writes k)]
  unfold liveValue
  by_cases hlive : b.LiveAt r (b.keyBlob k)
  · obtain ⟨e, he, hexpired⟩ := hlive
    have heq : b.entryAt t (b.keyBlob k) = some e := (ht.1.2 _ e hexpired).mpr he
    obtain ⟨v, hv⟩ := hvalues _ e he
    rw [if_pos ⟨e, he, hexpired⟩, heq, Option.filter_some, ht.1.1, hexpired, Bool.not_false, if_pos rfl]
    have hvalue : b.valueAt r (b.keyBlob k) = some v := by
      unfold valueAt
      rw [he, Option.bind_some, hv]
    rw [hvalue]
    dsimp only [Except.bind]
    rw [hv]
  · have hdead : (b.entryAt t (b.keyBlob k)).filter (fun e => !expired e t.clock) = none := by
      rw [Option.filter_eq_none_iff]
      intro e he hexpired
      refine hlive ((ht.1.liveAt b _).mp ⟨e, he, by simpa using hexpired⟩)
    rw [if_neg hlive, hdead]
    rfl

theorem steady_batchGet : Steady (b.SameRows r) (b.liveValue r) b.batchGet := by
  intro keys t ht
  obtain ⟨ht', found, hrun, hfound⟩ := ReadStore.defaultBatchGet_returns (get_liveValue hown hvalues) keys t ht
  refine ⟨found, (b.batchGet keys t).2, Prod.ext hrun rfl, ht', fun k hk => ?_⟩
  rw [hfound k, if_pos hk]

omit [DecidableEq K] hvalues in
/-- What is listed under a prefix are the keys that start with it. -/
theorem filterMap_shownBy (pre : Option K) : (b.livePlaces r).filterMap (b.shownBy pre) =
    ((b.livePlaces r).filterMap (b.shownBy none)).filter fun k => pre.all fun pre => ScanKey.startsWith k pre := by
  cases pre with
  | none => exact (List.filter_eq_self.mpr fun k _ => rfl).symm
  | some pre =>
    rw [List.filter_filterMap]
    refine List.filterMap_congr fun p hp => ?_
    rw [hown.begins p pre (List.mem_filter.mp hp).1]
    rfl

omit [DecidableEq K] hvalues in
theorem listed_live {k : K} (h : k ∈ (b.livePlaces r).filterMap (b.shownBy none)) : b.LiveAt r (b.keyBlob k) := by
  obtain ⟨p, hp, hk⟩ := List.mem_filterMap.mp h
  rw [← hown.shows p k (List.mem_filter.mp hp).1 hk]
  exact (b.mem_livePlaces).mp hp

omit [DecidableEq K] hvalues in
theorem nodup_listed : ((b.livePlaces r).filterMap (b.shownBy none)).Nodup :=
  nodup_of_places ((r.bucket b.collection).nodup.filter _) fun p hp k => hown.shows p k (List.mem_filter.mp hp).1

omit [DecidableEq K] in
/-- Of keys listed without values, those that match. -/
theorem given_selected (where_ : Predicate K V) (limit : Option Int) :
    (cut ((ScanSpec.selecting where_ limit).call where_.peelKeyPrefix.2)
      ((((b.livePlaces r).filterMap (b.shownBy where_.peelKeyPrefix.1)).map fun k => bareRow (k, none)).filterMap
        (judge ((ScanSpec.selecting where_ limit).call where_.peelKeyPrefix.2) (b.liveValue r)))).map
          (fun row => row.key) = b.selected r where_ limit := by
  have hcut : ∀ rows : List (ScanRow K V),
      (cut ((ScanSpec.selecting where_ limit).call where_.peelKeyPrefix.2) rows).map (fun row => row.key) =
        cutAt limit (rows.map fun row => row.key) := fun rows => (cutAt_map limit (fun row => row.key) rows).symm
  unfold selected
  rw [hcut, filterMap_shownBy hown, List.map_filterMap, List.filterMap_map, List.filterMap_filter,
    ← List.filterMap_eq_filter]
  refine congrArg _ (List.filterMap_congr fun k hk => ?_)
  have hlive := listed_live hown hk
  obtain ⟨e, he, hexpired⟩ := id hlive
  obtain ⟨v, hv⟩ := hvalues _ e he
  have hvalue : b.valueAt r (b.keyBlob k) = some v := by
    unfold valueAt
    rw [he, Option.bind_some, hv]
  have hjudged := @judge_bareRow _ _ _ where_ where_.peelKeyPrefix.2 limit (b.liveValue r) k v
    ((if_pos hlive).trans hvalue)
  have hguard : Option.guard (fun k => where_.evaluate ⟨k, b.valueAt r (b.keyBlob k), none⟩) k =
      if where_.evaluate ⟨k, b.valueAt r (b.keyBlob k), none⟩ then some k else none := rfl
  rw [hguard, hvalue, Predicate.evaluate_peelKeyPrefix, Function.comp_apply, hjudged]
  cases where_.peelKeyPrefix.1.all fun pre => ScanKey.startsWith k pre with
  | false => rfl
  | true => rfl

/-- The scan gives the keys that match. -/
theorem scan_selected (where_ : Predicate K V) (limit : Option Int) :
    Returns (b.SameRows r) (b.leafStore.scanRows (.selecting where_ limit))
      fun rows => rows.map (fun row => row.key) = b.selected r where_ limit := by
  have hentries : Returns (b.SameRows r) (b.scanEntries ⟨where_.peelKeyPrefix.1, false, 100⟩) fun entries =>
      entries = ((b.livePlaces r).filterMap (b.shownBy where_.peelKeyPrefix.1)).map fun k => (k, none) := by
    intro t ht
    have hrows := (b.scanEntries_query (q := ⟨where_.peelKeyPrefix.1, false, 100⟩) (r := t) fun hasked => by
      cases hasked).1
    refine ⟨IsTrans.trans _ _ _ ht (b.scanEntries_sameRows _ t), _, hrows, ?_⟩
    rw [ht.2, List.map_filterMap]
    rfl
  have hlisted : Returns (b.SameRows r) (do
      let entries ← b.scanEntries ⟨where_.peelKeyPrefix.1, false, 100⟩
      return afterCursor (none : Option String) (entries.map bareRow))
      fun rows => rows =
        ((b.livePlaces r).filterMap (b.shownBy where_.peelKeyPrefix.1)).map fun k => bareRow (k, none) := by
    refine hentries.bind fun entries h => Returns.pure ?_
    rw [h, List.map_map]
    rfl
  have hnodup : ((((b.livePlaces r).filterMap (b.shownBy where_.peelKeyPrefix.1)).map fun k =>
      (bareRow (k, none) : ScanRow K V)).map fun row => row.key).Nodup := by
    rw [List.map_map, show _ ∘ _ = id from rfl, List.map_id, filterMap_shownBy hown]
    exact (nodup_listed hown).filter _
  have hcascade : Returns (b.SameRows r) (do
      let rows ← (do
        let entries ← b.scanEntries ⟨where_.peelKeyPrefix.1, false, 100⟩
        return afterCursor (none : Option String) (entries.map bareRow))
      applyCascade ((ScanSpec.selecting where_ limit).call where_.peelKeyPrefix.2) (some b.batchGet) rows)
      fun rows => rows.map (fun row => row.key) = b.selected r where_ limit := by
    refine hlisted.bind fun rows hrows => ?_
    rw [← hrows] at hnodup
    have hrun := cascade_returns ((ScanSpec.selecting where_ limit).call where_.peelKeyPrefix.2) _
      (steady_batchGet hown hvalues) rows (noneTwice_of_listed hnodup)
    refine hrun.congr fun out hout => ?_
    rw [hout, hrows, given_selected hown hvalues]
  exact hcascade

end Scan

/-! ### What goes -/

section Removal

variable {r : MemoryRoot α VB} (hown : b.ListsOwnKeys r)

include hown

omit [DecidableEq K] in
theorem removed_without {t : MemoryRoot α VB} (ht : b.SamePlaces r t) (keys : List K) :
    b.Removed keys r (b.without t keys) := by
  have hclock : ∀ (keys : List K) (t : MemoryRoot α VB), (b.without t keys).clock = t.clock := by
    intro keys
    induction keys with
    | nil => exact fun t => rfl
    | cons k keys ih =>
      intro t
      rw [without_cons hown.writes, ih]
      rfl
  refine ⟨(hclock keys t).trans ht.1, fun k hk => ?_, fun p e hlive => ?_⟩
  · rw [entryAt_without hown.writes, if_pos (List.mem_map_of_mem hk)]
  · rw [entryAt_without hown.writes]
    by_cases hp : p ∈ keys.map b.keyBlob
    · rw [if_pos hp]
      exact iff_of_false (fun h => by cases h) fun h => h.2 hp
    · rw [if_neg hp, ht.2 p e hlive, and_iff_left hp]

omit [DecidableEq K] in
/-- A collection comes to keys' own places. -/
theorem comesToOwn (maxEntries : Int) : b.ComesToOwn r maxEntries := by
  have hplace : ∀ p ∈ (r.bucket b.collection).keys, ∀ k, b.expiredKey r none p = some k → p = b.keyBlob k := by
    intro p hp k hk
    refine hown.shows p k hp ?_
    unfold expiredKey at hk
    unfold KvBackend.shownBy
    cases he : b.entryAt r p with
    | none =>
      rw [he] at hk
      cases hk
    | some e =>
      rw [he] at hk
      dsimp only at hk
      split at hk
      · cases hk
      · split at hk
        · cases hk
        · next hunder =>
          rw [if_pos (not_not.mp hunder)]
          exact hk
  refine ⟨(nodup_of_places (r.bucket b.collection).nodup hplace).sublist (List.take_sublist _ _), fun k hk => ?_⟩
  obtain ⟨p, hp, hdue⟩ := List.mem_filterMap.mp (List.mem_of_mem_take hk)
  refine ⟨p, ?_, List.mem_filter.mpr ⟨hp, by rw [hdue]; rfl⟩⟩
  rw [hplace p hp k hdue]
  exact hown.writes k

/-- A collection removes what has expired, as much of it as it comes to. -/
theorem deleteWhere_collects {where_ : Predicate K V} (hgc : where_.isGc = true) {limit : Option Int}
    (hlimit : 1 ≤ limit.getD 2147483647) : ∃ r', b.expiring.deleteWhere where_ limit r =
      (.ok (b.comesTo r (limit.getD 2147483647)).length, r') ∧ (b.comesTo r (limit.getD 2147483647)).Nodup ∧
      b.Removed (b.comesTo r (limit.getD 2147483647)) r r' ∧
      ∀ k ∈ b.comesTo r (limit.getD 2147483647), b.LapsedAt r k := by
  have hcomes := comesToOwn hown (limit.getD 2147483647)
  refine ⟨_, ?_, hcomes.1, removed_without hown (b.samePlaces_refl r) _, fun k hk => hcomes.lapsed hk⟩
  unfold Expiring.deleteWhere
  rw [if_pos hgc, if_neg (not_lt.mpr hlimit)]
  show (b.gcExpiredKeys _ >>= _ : M (MemoryRoot α VB) Nat) r = _
  rw [bind_ok (gcExpiredKeys_run hlimit hcomes.collectable)]
  rfl

theorem gcExpired_collects (now : Instant) {maxEntries : Int} (hmax : 1 ≤ maxEntries) :
    ∃ r', b.expiring.gcExpired now maxEntries r = (.ok (b.comesTo r maxEntries).length, r') ∧
      b.Removed (b.comesTo r maxEntries) r r' ∧ ∀ k ∈ b.comesTo r maxEntries, b.LapsedAt r k := by
  obtain ⟨r', hrun, -, hremoved, hlapsed⟩ := @deleteWhere_collects _ _ _ _ _ _ _ b r hown (.expired now) rfl
    (some maxEntries) hmax
  refine ⟨r', ?_, hremoved, hlapsed⟩
  unfold Expiring.gcExpired
  rw [if_neg (not_lt.mpr hmax), hrun]
  rfl

end Removal

/-- `delete_where` removes exactly what it selects and says how many that is: the expired entries it comes to
    first if the predicate is a collection, or else the first live ones, in the order of the bucket, that the
    predicate holds for as they are kept. -/
theorem deleteWhere_removes {r : MemoryRoot α VB} (hown : b.ListsOwnKeys r) (hvalues : b.ValuesRead r)
    (where_ : Predicate K V) (limit : Option Int) (hlimit : where_.isGc = true → 1 ≤ limit.getD 2147483647) :
    ∃ r', b.expiring.deleteWhere where_ limit r = (.ok (b.chosen r where_ limit).length, r') ∧
      (b.chosen r where_ limit).Nodup ∧ b.Removed (b.chosen r where_ limit) r r' ∧
      (where_.isGc = true → ∀ k ∈ b.chosen r where_ limit, b.LapsedAt r k) := by
  unfold chosen
  by_cases hgc : where_.isGc = true
  · obtain ⟨r', hrun, hnodup, hremoved, hlapsed⟩ := deleteWhere_collects hown hgc (hlimit hgc)
    rw [if_pos hgc]
    exact ⟨r', hrun, hnodup, hremoved, fun _ => hlapsed⟩
  · rw [if_neg hgc]
    obtain ⟨hsame, rows, hrows, hkeys⟩ := scan_selected hown hvalues where_ limit r (Std.Refl.refl (r := b.SameRows) r)
    have hlive : ∀ k ∈ b.selected r where_ limit, b.LiveAt r (b.keyBlob k) := fun k hk =>
      listed_live hown (List.mem_filter.mp (cutAt_subset limit _ hk)).1
    have hnodup : (b.selected r where_ limit).Nodup := by
      have hall := (nodup_listed hown).filter fun k => where_.evaluate ⟨k, b.valueAt r (b.keyBlob k), none⟩
      unfold selected cutAt
      cases limit with
      | none => exact hall
      | some n => exact hall.sublist (List.take_sublist _ _)
    refine ⟨b.without (b.leafStore.scanRows (.selecting where_ limit) r).2 (b.selected r where_ limit), ?_, hnodup,
      removed_without hown hsame.1 _, fun h => absurd h hgc⟩
    unfold Expiring.deleteWhere
    rw [if_neg hgc]
    show (b.leafStore.scanRows (.selecting where_ limit) >>= _) r = _
    rw [bind_ok (Prod.ext hrows rfl), hkeys]
    by_cases hnil : b.selected r where_ limit = []
    · rw [if_pos hnil, hnil]
      rfl
    · rw [if_neg hnil]
      refine batchDelete_present hown.writes hnodup fun k hk => ?_
      obtain ⟨e, he, hexpired⟩ := hlive k hk
      rw [(hsame.1.2 _ e hexpired).mpr he]
      rfl

/-! ### A store of its own -/

theorem plain_listsOwnKeys {V : Type} (r : MemoryRoot Char V) : (plain V).ListsOwnKeys r := by
  have hblob : ∀ k, (plain V).keyBlob k = k := fun k => rfl
  have hshown : ∀ p, (plain V).shownBy none p = some p := fun p => rfl
  refine ⟨fun k => rfl, fun p k _ hk => ?_, fun p pre _ => ?_⟩
  · rw [hblob]
    exact Option.some.inj ((hshown p).symm.trans hk)
  · have hunder : (plain V).shownBy (some pre) p = if pre <+: p then some p else none := rfl
    rw [hunder, hshown, Option.filter_some]
    show _ = if pre.isPrefixOf p = true then _ else _
    by_cases h : pre <+: p
    · rw [if_pos h, if_pos (List.isPrefixOf_iff_prefix.mpr h)]
    · rw [if_neg h, if_neg fun hp => h (List.isPrefixOf_iff_prefix.mp hp)]

theorem plain_valuesRead {V : Type} (r : MemoryRoot Char V) : (plain V).ValuesRead r := fun _ e _ => ⟨e.valueBlob, rfl⟩

/-- Two live entries under `a`, one of which is even, and one that has expired. -/
def counted : MemoryRoot Char Nat :=
  ((((MemoryRoot.empty 0).put "items:v1" ['a', '1'] 2 none 0).put "items:v1" ['a', '2'] 3 none 0).put "items:v1"
    ['a', '3'] 4 (some 5) 0).goTo 9

def evenUnder (pre : List Char) : Predicate (List Char) Nat :=
  .and (.keyPrefix pre) (.value "ValueWhere" fun row => row.value.any fun n => n % 2 == 0)

theorem deleteWhere_removes_even : ((plain Nat).expiring.deleteWhere (evenUnder ['a']) none counted).1 = .ok 1 := by
  obtain ⟨r', hrun, -⟩ := deleteWhere_removes (plain_listsOwnKeys counted) (plain_valuesRead counted) (evenUnder ['a'])
    none fun h => by cases h
  rw [hrun]
  rfl

end MemoryKvBackend

end Kvtsjl
