import Kvtsjl.SqlExpiry
import Kvtsjl.ObjectStore

/-
  Lazy expiry beside other clients' writes.
  An entry whose time is up is removed in two steps, one that sees it expired and one that
  deletes its key. `sets_stay` says when no set is undone by it: where a set that completed between
  the two steps is followed by another look. `set_undone` is a read that deletes what was set.
-/

namespace Kvtsjl

open Assoc (Dict)
open Effects Medium World

namespace ObjectStoreKvBackend

variable {K V : Type} (b : ObjectStoreKvBackend K V)

/-- The store takes the object to be past its time. -/
def Expired (blob : Blob) (now : Instant) : Prop := b.isExpired blob.stat now = true

theorem expired_mono (blob : Blob) (now later : Instant) (h : now ≤ later)
    (he : b.Expired blob now) : b.Expired blob later := by
  unfold Expired isExpired TtlSource.isExpired at he ⊢
  rw [Option.any_eq_true] at he ⊢
  obtain ⟨death, hd, hle⟩ := he
  rw [decide_eq_true_eq] at hle
  exact ⟨death, hd, decide_eq_true (Int.le_trans hle h)⟩

/-- `t` accounts for what it does, by what the store takes to be expired. -/
abbrev Accounts {α : Type} (t : BlobScript α) (Q : α → Medium String Blob → Prop)
    (s : Medium String Blob) : Prop := Medium.Accounts b.Expired t Q s

variable {s : Medium String Blob}

theorem readBlob_accounts (objectKey : String) :
    b.Accounts (readBlob objectKey) (fun _ _ => True) s := by
  apply Accounts.bind (fetch_upholds ?_)
  · exact fun _ _ _ _ => Accounts.pure trivial
  · intro objects e he
    split at he
    · next blob hblob =>
      rw [List.mem_singleton.mp he]
      exact hblob
    · cases he

theorem collectBlob_accounts (objectKey : String) {seen : Blob} (h : b.Expired seen s.clock) :
    b.Accounts (collectBlob objectKey seen) (fun _ _ => True) s := by
  apply change_upholds b.expired_mono
  · simp
  · intro objects p e he
    obtain ⟨rfl, rfl⟩ := Deed.collected.inj (List.mem_singleton.mp he)
    exact h
  · intro objects p _ _ hp
    have hne : p ≠ objectKey := by
      rintro rfl
      exact hp seen (by simp)
    rw [Dict.get?_erase, if_neg hne]

/-- A change of one object, made or not, that notes what it was if it was made. -/
theorem changeOne_accounts (objectKey : String) {deed : Deed String Blob}
    (hdeed : deed = .wrote objectKey ∨ deed = .deleted objectKey)
    {f : Int → Dict String Blob → Bool × Dict String Blob}
    (hother : ∀ now objects p, p ≠ objectKey → (f now objects).2.get? p = objects.get? p)
    (hundone : ∀ now objects, (f now objects).1 = false → (f now objects).2 = objects) :
    b.Accounts (changeAt f fun done => if done then [deed] else []) (fun _ _ => True) s := by
  have hnote : ∀ (done : Bool), ∀ x ∈ (if done then [deed] else []), x = deed := by
    intro done x hx
    cases done
    · cases hx
    · exact List.mem_singleton.mp hx
  apply changeAt_upholds b.expired_mono
  · intro now objects p e he
    rcases hdeed with rfl | rfl <;> cases hnote _ _ he
  · intro now objects p e he
    rcases hdeed with rfl | rfl <;> cases hnote _ _ he
  · intro now objects p hw hd _
    cases hdone : (f now objects).1 with
    | false => rw [hundone now objects hdone]
    | true =>
      rw [hdone] at hw hd
      apply hother
      rintro rfl
      rcases hdeed with rfl | rfl
      · exact hw (by simp)
      · exact hd (by simp)

theorem writeBlobIfVersion_accounts (objectKey : String) (data : List UInt8)
    (version : Option String) (headers : Headers) :
    b.Accounts (b.writeBlobIfVersion objectKey data version headers) (fun _ _ => True) s := by
  unfold writeBlobIfVersion
  split
  · trivial
  · apply b.changeOne_accounts objectKey (.inl rfl)
    · intro now objects p hp
      split
      · rw [Dict.get?_set, if_neg hp]
      · rfl
    · intro now objects h
      split at h
      · cases h
      · next hc => rw [if_neg hc]

theorem deleteBlobIfVersion_accounts (objectKey version : String) :
    b.Accounts (b.deleteBlobIfVersion objectKey version) (fun _ _ => True) s := by
  unfold deleteBlobIfVersion
  split
  · trivial
  · apply b.changeOne_accounts objectKey (.inr rfl)
    · intro now objects p hp
      split
      · rw [Dict.get?_erase, if_neg hp]
      · rfl
    · intro now objects h
      split at h
      · cases h
      · next hc => rw [if_neg hc]

/-- A change of one object that is always made. -/
theorem changeAlways_accounts {α : Type} (objectKey : String) {deed : Deed String Blob}
    (hdeed : deed = .wrote objectKey ∨ deed = .deleted objectKey)
    {f : Int → Dict String Blob → α × Dict String Blob}
    (hother : ∀ now objects p, p ≠ objectKey → (f now objects).2.get? p = objects.get? p) :
    b.Accounts (changeAt f fun _ => [deed]) (fun _ _ => True) s := by
  apply changeAt_upholds b.expired_mono
  · intro now objects p e he
    rcases hdeed with rfl | rfl <;> cases List.mem_singleton.mp he
  · intro now objects p e he
    rcases hdeed with rfl | rfl <;> cases List.mem_singleton.mp he
  · intro now objects p hw hd _
    apply hother
    rintro rfl
    rcases hdeed with rfl | rfl
    · exact hw (by simp)
    · exact hd (by simp)

theorem deleteBlob_accounts (objectKey : String) :
    b.Accounts (deleteBlob objectKey) (fun _ _ => True) s := by
  unfold deleteBlob change
  apply b.changeAlways_accounts objectKey (.inr rfl)
  intro now objects p hp
  rw [Dict.get?_erase, if_neg hp]

theorem writeBlob_accounts (objectKey : String) (data : List UInt8) (headers : Headers) :
    b.Accounts (b.writeBlob objectKey data headers) (fun _ _ => True) s := by
  apply b.changeAlways_accounts objectKey (.inl rfl)
  intro now objects p hp
  rw [Dict.get?_set, if_neg hp]

theorem liveBlob_accounts (objectKey : String) :
    b.Accounts (b.liveBlob objectKey) (fun _ _ => True) s := by
  apply Accounts.bind (b.readBlob_accounts objectKey)
  intro found s' _ _
  cases found with
  | none => exact Accounts.pure trivial
  | some blob =>
    apply Accounts.bind time_upholds
    intro now s' _ hnow
    split
    · next he =>
      split
      · apply Accounts.bind (b.collectBlob_accounts objectKey (b.expired_mono blob now _ hnow he))
        exact fun _ _ _ _ => Accounts.pure trivial
      · exact Accounts.pure trivial
    · exact Accounts.pure trivial

/-- What is deleted at once is gone, and nothing else. -/
theorem get?_bulkDelete (objects : Dict String Blob) (objectKeys : List String) (p : String) (n : Nat) :
    (objectKeys.foldl (fun (deleted, objects) k =>
      match objects.get? k with
      | some _ => (deleted + 1, objects.erase k)
      | none => (deleted, objects)) (n, objects)).2.get? p =
      if p ∈ objectKeys then none else objects.get? p := by
  have hstep : ∀ (deleted : Nat) (objects : Dict String Blob) (k : String), (match objects.get? k with
      | some _ => (deleted + 1, objects.erase k)
      | none => (deleted, objects)).2 = objects.erase k ∨ objects.get? k = none ∧
      (match objects.get? k with
      | some _ => (deleted + 1, objects.erase k)
      | none => (deleted, objects)).2 = objects := by
    intro deleted objects k
    cases objects.get? k with
    | none => exact .inr ⟨rfl, rfl⟩
    | some blob => exact .inl rfl
  by_cases hp : p ∈ objectKeys
  · rw [if_pos hp]
    exact (Dict.get?_foldl_erase (fun c d k => hstep c d k) objectKeys p (n, objects)).1 hp
  · rw [if_neg hp]
    exact (Dict.get?_foldl_erase (fun c d k => hstep c d k) objectKeys p (n, objects)).2 hp

theorem bulkDelete_other (objects : Dict String Blob) {objectKeys : List String} {p : String}
    (h : p ∉ objectKeys) (n : Nat) :
    (objectKeys.foldl (fun (deleted, objects) k =>
      match objects.get? k with
      | some _ => (deleted + 1, objects.erase k)
      | none => (deleted, objects)) (n, objects)).2.get? p = objects.get? p := by
  rw [get?_bulkDelete, if_neg h]

/-- What is deleted at once is deleted for a reason that names it: a caller's own, or an
    earlier look that showed its time to be up. -/
theorem bulkDelete_accounts (objectKeys : List String) {why : String → Deed String Blob}
    (hwhy : ∀ p, why p = .deleted p ∨ ∃ seen, why p = .collected p seen ∧
      b.Expired seen s.clock) :
    b.Accounts (bulkDelete objectKeys why) (fun _ _ => True) s := by
  apply change_upholds b.expired_mono
  · intro objects p e he
    obtain ⟨k, -, hk⟩ := List.mem_map.mp he
    rcases hwhy k with h | ⟨seen, h, -⟩ <;> rw [h] at hk <;> cases hk
  · intro objects p e he
    obtain ⟨k, -, hk⟩ := List.mem_map.mp he
    rcases hwhy k with h | ⟨seen, h, hexp⟩ <;> rw [h] at hk <;> cases hk
    exact hexp
  · intro objects p _ hd hc
    refine bulkDelete_other objects (fun hp => ?_) 0
    rcases hwhy p with h | ⟨seen, h, -⟩
    · exact hd (List.mem_map.mpr ⟨p, hp, h⟩)
    · exact hc seen (List.mem_map.mpr ⟨p, hp, h⟩)

theorem liveKey_accounts {α : Type} (key : K) (f : Option Blob → BlobScript α)
    (hf : ∀ found s, b.Accounts (f found) (fun _ _ => True) s) :
    b.Accounts (do
      let objectKey ← Script.done (b.encodePhysical key)
      let found ← b.liveBlob objectKey
      f found) (fun _ _ => True) s := by
  apply Accounts.bind (Accounts.ofExcept _)
  intro objectKey s' _ _
  apply Accounts.bind (b.liveBlob_accounts objectKey)
  exact fun found s' _ _ => hf found s'

theorem get_accounts (key : K) : b.Accounts (b.get key) (fun _ _ => True) s :=
  b.liveKey_accounts key _ fun _ _ => Accounts.ofExcept _

theorem existsKey_accounts (key : K) : b.Accounts (b.existsKey key) (fun _ _ => True) s :=
  b.liveKey_accounts key _ fun _ _ => Accounts.pure trivial

theorem stat_accounts (key : K) : b.Accounts (b.stat key) (fun _ _ => True) s :=
  b.liveKey_accounts key _ fun _ _ => Accounts.pure trivial

theorem presentIn_accounts (chunk : List K) :
    b.Accounts (b.presentIn chunk) (fun _ _ => True) s := by
  refine Accounts.bind (Q := fun _ _ => True) (Accounts.foldlM (fun out key s => ?_) _ _)
    fun _ _ _ _ => Accounts.pure trivial
  refine Accounts.bind (Q := fun _ _ => True) ?_ fun found _ _ _ => ?_
  · apply Accounts.bind (b.existsKey_accounts key)
    exact fun _ _ _ _ => Accounts.pure trivial
  · cases found with
    | none => exact Accounts.pure trivial
    | some _ => exact Accounts.pure trivial

theorem readVersioned_accounts (key : K) :
    b.Accounts (b.readVersioned key) (fun _ _ => True) s := by
  apply Accounts.bind (Accounts.ofExcept _)
  intro objectKey s' _ _
  apply Accounts.bind (b.readBlob_accounts objectKey)
  intro found s' _ _
  cases found with
  | none => exact Accounts.pure trivial
  | some blob =>
    dsimp only
    split
    · trivial
    · apply Accounts.bind time_upholds
      intro now s' _ _
      apply Accounts.bind (Accounts.ofExcept _)
      exact fun _ _ _ _ => Accounts.pure trivial

/-! ### Writes and deletes -/

theorem writeHeaders_accounts (ttl : Option TtlPolicy) (createdAt : Option Instant) :
    b.Accounts (b.writeHeaders ttl createdAt) (fun _ _ => True) s := by
  unfold writeHeaders
  split
  · trivial
  · split
    · trivial
    · refine Accounts.bind (Q := fun _ _ => True) ?_ fun _ _ _ _ => Accounts.pure trivial
      unfold clockBase
      split
      · exact Accounts.pure trivial
      · exact Accounts.weaken time_upholds

theorem set_accounts (key : K) (value : V) (options : WriteOptions) :
    b.Accounts (b.set key value options) (fun _ _ => True) s := by
  apply Accounts.bind (Accounts.ofExcept _)
  intro objectKey s' _ _
  apply Accounts.bind (b.writeHeaders_accounts _ _)
  exact fun headers _ _ _ => b.writeBlob_accounts objectKey _ headers

theorem writeIfUnchanged_accounts (key : K) (w : ConditionalWrite V) (ttl : Option TtlPolicy) :
    b.Accounts (b.writeIfUnchanged key w ttl) (fun _ _ => True) s := by
  apply Accounts.bind (Accounts.ofExcept _)
  intro objectKey s' _ _
  dsimp only
  split
  · split
    · exact Accounts.pure trivial
    · exact b.deleteBlobIfVersion_accounts objectKey _
  · apply Accounts.bind (b.writeHeaders_accounts _ _)
    exact fun headers _ _ _ => b.writeBlobIfVersion_accounts objectKey _ _ headers

theorem delete_accounts (key : K) : b.Accounts (b.delete key) (fun _ _ => True) s := by
  apply Accounts.bind (Accounts.ofExcept _)
  exact fun objectKey _ _ _ => b.deleteBlob_accounts objectKey

/-- A reason that names the object, and holds from `m` on. -/
def Reasons (why : String → Deed String Blob) (m : Medium String Blob) : Prop :=
  ∀ p, why p = .deleted p ∨ ∃ seen, why p = .collected p seen ∧ b.Expired seen m.clock

theorem Reasons.later {why : String → Deed String Blob} {m m' : Medium String Blob}
    (h : b.Reasons why m) (hm : m.Later m') : b.Reasons why m' := by
  intro p
  rcases h p with h | ⟨seen, h, hexp⟩
  · exact .inl h
  · exact .inr ⟨seen, h, b.expired_mono seen _ _ hm hexp⟩

theorem deleteBatch_accounts [DecidableEq K] {why : String → Deed String Blob}
    (hwhy : b.Reasons why s) (keys : List K) :
    b.Accounts (b.deleteBatch why keys) (fun _ _ => True) s := by
  apply Accounts.bind (Script.Upholds.after (Accounts.ofExcept _))
  intro chunks s' _ hs
  refine Accounts.weaken (Q := fun _ m => b.Reasons why m) ?_
  refine Script.Upholds.foldlM (I := fun _ m => b.Reasons why m) (fun n chunk _ m hm => ?_)
    (hwhy.later b hs.1)
  apply Accounts.bind (Q := fun _ m => b.Reasons why m)
  · apply Accounts.bind (Script.Upholds.after (b.presentIn_accounts chunk))
    intro present m1 _ hm1
    apply Accounts.bind (Script.Upholds.after (Accounts.ofExcept _))
    intro toDelete m2 _ hm2
    have hm2' := (hm.later b hm1.1).later b hm2.1
    split
    · exact Accounts.pure hm2'
    · refine Script.Upholds.weaken (Script.Upholds.after (b.bulkDelete_accounts toDelete hm2')) ?_
      exact fun _ m3 hm3 => hm2'.later b hm3.1
  · exact fun _ _ _ h => Accounts.pure h

theorem batchDelete_accounts [DecidableEq K] (keys : List K) :
    b.Accounts (b.batchDelete keys) (fun _ _ => True) s := by
  unfold batchDelete
  split
  · exact Accounts.pure trivial
  · exact b.deleteBatch_accounts (fun _ => .inl rfl) keys

/-! ### Listings -/

theorem enrichListStat_accounts (listed : String × Blob) :
    b.Accounts (b.enrichListStat listed) (fun _ _ => True) s := by
  unfold enrichListStat
  split
  · exact b.readBlob_accounts listed.1
  · exact Accounts.pure trivial

/-- Walking a listing keeps what each turn keeps of its accumulator. -/
theorem walk_accounts {α : Type} {I : α → Medium String Blob → Prop}
    (hI : ∀ {acc m m'}, I acc m → m.Later m' → I acc m')
    {step : α → String × Blob → BlobScript (α × Bool)}
    (hstep : ∀ acc listed m, I acc m → b.Accounts (step acc listed) (fun r m => I r.1 m) m)
    (listing : String) (pages : Nat) (after : Option String) {acc : α} (h : I acc s) :
    b.Accounts (b.walk listing step pages after acc) I s := by
  induction pages generalizing after acc s with
  | zero => exact Accounts.pure h
  | succ pages ih =>
    unfold walk
    apply Accounts.bind (Script.Upholds.after (fetch_upholds ?_))
    · intro page s1 _ hs1
      apply Accounts.bind (Q := fun r m => I r.1 m)
      · refine Script.Upholds.foldlM (I := fun (r : α × Bool) m => I r.1 m)
          (fun r listed _ m hm => ?_) (hI h hs1.1)
        dsimp only
        split
        · exact hstep r.1 listed m hm
        · exact Accounts.pure hm
      · intro r s2 _ hr
        dsimp only
        split
        · exact Accounts.pure hr
        · split
          · exact ih _ hr
          · exact Accounts.pure hr
    · intro objects e he
      exact Dict.mem_entries.mp (List.mem_filter.mp (List.mem_mergeSort.mp (List.mem_of_mem_take he))).1

theorem drawListed_accounts (userPrefix : Option K) (includeValues : Bool) (draws : Option Nat)
    (rows : List (K × Option V)) (listed : String × Blob) :
    b.Accounts (b.drawListed userPrefix includeValues draws rows listed) (fun _ _ => True) s := by
  apply Accounts.bind (b.enrichListStat_accounts listed)
  intro found s' _ _
  cases found with
  | none => exact Accounts.pure trivial
  | some blob =>
    apply Accounts.bind time_upholds
    intro now s' _ hnow
    split
    · next he =>
      split
      · apply Accounts.bind (b.collectBlob_accounts listed.1 (b.expired_mono blob now _ hnow he))
        exact fun _ _ _ _ => Accounts.pure trivial
      · exact Accounts.pure trivial
    · split
      · exact Accounts.pure trivial
      · split
        · apply Accounts.bind (b.liveBlob_accounts listed.1)
          intro found s' _ _
          cases found with
          | none => exact Accounts.pure trivial
          | some blob =>
            apply Accounts.bind (Accounts.ofExcept _)
            exact fun _ _ _ _ => Accounts.pure trivial
        · exact Accounts.pure trivial

theorem scan_accounts (keyPrefix : Option K) (includeValues : Bool) (draws : Option Nat)
    (pages : Nat) : b.Accounts (b.scan keyPrefix includeValues draws pages) (fun _ _ => True) s := by
  unfold scan
  split
  · trivial
  · apply Accounts.bind (Accounts.ofExcept _)
    intro listing s' _ _
    split
    · exact Accounts.pure trivial
    · exact b.walk_accounts (I := fun _ _ => True) (fun h _ => h)
        (fun rows listed m _ => b.drawListed_accounts keyPrefix includeValues draws rows listed)
        listing pages none trivial

/-- The objects found were past their time when they were found. -/
def Found (found : List (K × String × Blob)) (m : Medium String Blob) : Prop :=
  ∀ e ∈ found, b.Expired e.2.2 m.clock

theorem Found.later {found : List (K × String × Blob)} {m m' : Medium String Blob}
    (h : b.Found found m) (hm : m.Later m') : b.Found found m' :=
  fun e he => b.expired_mono e.2.2 _ _ hm (h e he)

theorem findListed_accounts (limit : Nat) {found : List (K × String × Blob)}
    (listed : String × Blob) (h : b.Found found s) :
    b.Accounts (b.findListed limit found listed) (fun r m => b.Found r.1 m) s := by
  unfold findListed
  split
  · exact Accounts.pure h
  · apply Accounts.bind (Script.Upholds.after (b.enrichListStat_accounts listed))
    intro blob s1 _ hs1
    have h1 := h.later b hs1.1
    cases blob with
    | none => exact Accounts.pure h1
    | some blob =>
      apply Accounts.bind (Script.Upholds.after time_upholds)
      intro now s2 _ hs2
      have h2 := h1.later b hs2.1
      split
      · next he =>
        split
        · exact Accounts.pure h2
        · apply Accounts.pure
          intro e hmem
          rcases List.mem_append.mp hmem with hmem | hmem
          · exact h2 e hmem
          · rw [List.mem_singleton.mp hmem]
            exact b.expired_mono blob now _ hs2.2 he
      · exact Accounts.pure h2

theorem expiredListed_accounts (limit : Int) (pages : Nat) :
    b.Accounts (b.expiredListed limit pages) (fun found m => b.Found found m) s := by
  unfold expiredListed
  split
  · trivial
  · apply Accounts.bind (Accounts.ofExcept _)
    intro listing s' _ _
    exact b.walk_accounts (fun h hm => h.later b hm)
      (fun found listed m h => b.findListed_accounts limit.toNat listed h) listing pages none
      fun e he => by cases he

theorem expiredKeys_accounts (limit : Int) (pages : Nat) :
    b.Accounts (b.expiredKeys limit pages) (fun _ _ => True) s := by
  apply Accounts.bind (b.expiredListed_accounts limit pages)
  exact fun _ _ _ _ => Accounts.pure trivial

theorem gcExpiredKeys_accounts [DecidableEq K] (maxEntries : Int) (pages : Nat) :
    b.Accounts (b.gcExpiredKeys maxEntries pages) (fun _ _ => True) s := by
  unfold gcExpiredKeys
  split
  · trivial
  · apply Accounts.bind (b.expiredListed_accounts maxEntries pages)
    intro found s' _ hfound
    split
    · exact Accounts.pure trivial
    · apply Accounts.bind (b.deleteBatch_accounts (fun p => ?_) _)
      · exact fun _ _ _ _ => Accounts.pure trivial
      · unfold collectedFor
        cases he : found.find? fun e => e.2.1 = p with
        | none => exact .inl rfl
        | some e => exact .inr ⟨e.2.2, rfl, hfound e (List.mem_of_find?_eq_some he)⟩

end ObjectStoreKvBackend

/-! ## Clients -/

/-- What a client asks of an object store. A batch is its keys, asked by as many clients: the
    store runs them side by side. -/
inductive BlobRequest (K V : Type) where
  | get (key : K)
  | existsKey (key : K)
  | stat (key : K)
  | readVersioned (key : K)
  | scan (keyPrefix : Option K) (includeValues : Bool) (draws : Option Nat) (pages : Nat)
  | expiredKeys (limit : Int) (pages : Nat)
  | gcExpiredKeys (maxEntries : Int) (pages : Nat)
  | set (key : K) (value : V) (options : WriteOptions)
  | writeIfUnchanged (key : K) (w : ConditionalWrite V) (ttl : Option TtlPolicy)
  | delete (key : K)
  | batchDelete (keys : List K)

namespace BlobRequest

variable {K V : Type} [DecidableEq K]

/-- The request, for what it does to the objects. -/
def script (b : ObjectStoreKvBackend K V) : BlobRequest K V → BlobScript Unit
  | get key => do let _ ← b.get key; return ()
  | existsKey key => do let _ ← b.existsKey key; return ()
  | stat key => do let _ ← b.stat key; return ()
  | readVersioned key => do let _ ← b.readVersioned key; return ()
  | scan keyPrefix includeValues draws pages => do
    let _ ← b.scan keyPrefix includeValues draws pages; return ()
  | expiredKeys limit pages => do let _ ← b.expiredKeys limit pages; return ()
  | gcExpiredKeys maxEntries pages => do let _ ← b.gcExpiredKeys maxEntries pages; return ()
  | set key value options => b.set key value options
  | writeIfUnchanged key w ttl => do let _ ← b.writeIfUnchanged key w ttl; return ()
  | delete key => do let _ ← b.delete key; return ()
  | batchDelete keys => do let _ ← b.batchDelete keys; return ()

/-- Every request accounts for what it does. -/
theorem script_accounts (b : ObjectStoreKvBackend K V) (q : BlobRequest K V)
    (s : Medium String Blob) : b.Accounts (q.script b) (fun _ _ => True) s := by
  cases q with
  | get key => exact (b.get_accounts key).drop
  | existsKey key => exact (b.existsKey_accounts key).drop
  | stat key => exact (b.stat_accounts key).drop
  | readVersioned key => exact (b.readVersioned_accounts key).drop
  | scan keyPrefix includeValues draws pages =>
    exact (b.scan_accounts keyPrefix includeValues draws pages).drop
  | expiredKeys limit pages => exact (b.expiredKeys_accounts limit pages).drop
  | gcExpiredKeys maxEntries pages => exact (b.gcExpiredKeys_accounts maxEntries pages).drop
  | set key value options => exact b.set_accounts key value options
  | writeIfUnchanged key w ttl => exact (b.writeIfUnchanged_accounts key w ttl).drop
  | delete key => exact (b.delete_accounts key).drop
  | batchDelete keys => exact (b.batchDelete_accounts keys).drop

end BlobRequest

/-! ## A store of strings -/

/-- A table of one key column and one value column, with no TTL. -/
def itemsTable : SqlDbKvBackend String String where
  sqlKvset := .keyed "items" "v" false
  adapter := ⟨"SqliteSqlDbClientAdapter", true, true, true, true, true, true, true, true⟩
  expiryGc := .lazyDelete
  batchSize := 500
  ttlPolicy := ⟨none⟩
  keyLayout := .literal
  scope := Dict.empty
  leafKeyRow key := .ok [.text key]
  decodeLeafKey
    | [.text key] => some key
    | _ => none
  leafPrefixMap
    | none => Dict.empty
    | some pre => Dict.single "k" pre
  decodeCursor := .ok
  serialize value column := if column = "v" then some (.text value) else none
  deserialize _ row := match row "v" with
    | some (.text value) => .ok value
    | _ => .error (.serDeError "no value")
  parseTimestamp text := .error (.valueError text)
  reprKey key := "'" ++ key ++ "'"

/-- A table that holds one row, past its time. -/
def expiredItem : Medium SqlKey SqlDbRow :=
  ⟨Dict.single [.text "a"] fun column =>
    if column = "v" then some (.text "old") else if column = "expires_at" then some (.number 5)
    else none, 10⟩

/-- A store of objects under their keys, each dying at the native time the medium gives it. -/
def itemsObjects : ObjectStoreKvBackend String String where
  typeName := "ObjectStoreKvBackend"
  driver := ⟨"driver", 1, true, 1000, fun key data _ now => ⟨key, some now, none, some data.length, none, none⟩⟩
  ttlSource := .azureMetadata
  expiryGc := .lazyDelete
  batchSize := 500
  ttlPolicy := ⟨none⟩
  keyLayout := .literal
  encodePhysical := .ok
  decodeIfPrefix key _ := some key
  listingPrefix pre := .ok (pre.getD "")
  serialize value := value.toUTF8.toList
  deserialize _ := .ok ""

/-- One object, past its time. -/
def expiredObject : Medium String Blob :=
  ⟨Dict.single "a" ⟨[], "a", some 0, some 5, some 0, none, none⟩, 10⟩

/-- One client gets the key, another sets it. -/
def getAndSet : Bool → List (SqlRequest String String)
  | true => [.get "a"]
  | false => [.set "a" "new" WriteOptions.none]

def getAndSetObject : Bool → List (BlobRequest String String)
  | true => [.get "a"]
  | false => [.set "a" "new" WriteOptions.none]

/-- The read fetches the expired entry and deletes it, and then the set completes. -/
def undisturbed : List (Bool ⊕ Nat) :=
  [.inl true, .inl true, .inl true, .inl true, .inl false, .inl false, .inl false]

/-- The read fetches the expired entry, the set completes, and the read deletes the key. -/
def overtaken : List (Bool ⊕ Nat) :=
  [.inl true, .inl true, .inl true, .inl false, .inl false, .inl false, .inl true]

/-! ## Sets that stay -/

/-- A read's fetch, its reading of the clock and its removal, and then a set's two actions. -/
theorem prompt_looked {ι P E Q : Type} [DecidableEq P] {f c t u v : Tick ι (Medium P E) (Deed P E) Q}
    {p q : P} {e : E} (hwho : f.who = t.who) (hturn : f.turn = t.turn)
    (hf : f.notes = [.fetched p e]) (hc : c.notes = []) (ht : t.notes = [.collected p e])
    (hu : u.notes = []) (hv : v.notes = [.wrote q]) :
    Guarded Prompt ([] ++ [f] ++ [c] ++ [t] ++ [u] ++ [v]) := by
  have silent : ∀ {log} {x : Tick ι (Medium P E) (Deed P E) Q},
      (∀ p e, .collected p e ∉ x.notes) → Prompt log x :=
    fun h p e hx => absurd hx (h p e)
  refine ((((guarded_nil.concat (silent ?_)).concat (silent ?_)).concat ?_).concat
    (silent ?_)).concat (silent ?_)
  · rw [hf]; simp
  · rw [hc]; simp
  · intro p' e' hx
    rw [ht] at hx
    obtain ⟨rfl, rfl⟩ := Deed.collected.inj (List.mem_singleton.mp hx)
    refine ⟨[], f, [c], rfl, hwho, hturn, by rw [hf]; simp, fun x hx => ?_⟩
    rw [List.mem_singleton.mp hx, hc]
    simp
  · rw [hu]; simp
  · rw [hv]; simp

/-- Where every removal of an expired entry comes of a look that no completed write of the key has
    overtaken, what was written stays until it is deleted, written over or past its own time:
    for any clients of a table or of an object store, in any order of their steps. -/
theorem sets_stay {ι K V : Type} [DecidableEq ι] [DecidableEq K] (table : SqlDbKvBackend K V)
    (objects : ObjectStoreKvBackend K V) (rows : Medium SqlKey SqlDbRow)
    (blobs : Medium String Blob) (asked : ι → List (SqlRequest K V))
    (asked' : ι → List (BlobRequest K V)) (schedule : List (ι ⊕ Nat)) :
    (let w := run (SqlRequest.script table) wait schedule (start rows asked)
     Guarded Prompt w.log → PutsStay table.Expired w.log w.store) ∧
    (let w := run (BlobRequest.script objects) wait schedule (start blobs asked')
     Guarded Prompt w.log → PutsStay objects.Expired w.log w.store) :=
  ⟨run_puts_stay table.expired_mono (SqlRequest.script_accounts table) rows asked schedule,
    run_puts_stay objects.expired_mono (BlobRequest.script_accounts objects) blobs asked' schedule⟩

theorem sets_stay_undisturbed :
    PutsStay itemsTable.Expired
      (run (SqlRequest.script itemsTable) wait undisturbed (start expiredItem getAndSet)).log
      (run (SqlRequest.script itemsTable) wait undisturbed (start expiredItem getAndSet)).store ∧
    PutsStay itemsObjects.Expired
      (run (BlobRequest.script itemsObjects) wait undisturbed (start expiredObject getAndSetObject)).log
      (run (BlobRequest.script itemsObjects) wait undisturbed
        (start expiredObject getAndSetObject)).store := by
  have h := sets_stay itemsTable itemsObjects expiredItem expiredObject getAndSet getAndSetObject
    undisturbed
  exact ⟨h.1 (prompt_looked rfl rfl rfl rfl rfl rfl rfl), h.2 (prompt_looked rfl rfl rfl rfl rfl rfl rfl)⟩

/-- The read deletes what was set after it had looked. -/
theorem set_undone : ¬ ∀ {ι : Type} [DecidableEq ι] (asked : ι → List (SqlRequest String String))
    (schedule : List (ι ⊕ Nat)),
    let w := run (SqlRequest.script itemsTable) wait schedule (start expiredItem asked)
    PutsStay itemsTable.Expired w.log w.store := by
  intro h
  have hsince : ∀ {u : Tick Bool (Medium SqlKey SqlDbRow) (Deed SqlKey SqlDbRow)
      (SqlRequest String String)} {row : SqlDbRow}, u.notes = [.collected [.text "a"] row] →
      .wrote [.text "a"] ∉ u.notes ∧ .deleted [.text "a"] ∉ u.notes := by
    intro u row hu
    rw [hu]
    simp
  have hstay := h getAndSet overtaken [_, _, _] _ [_] [.text "a"] _ rfl (List.mem_singleton.mpr rfl)
    rfl fun u hu => by
      obtain rfl := List.mem_singleton.mp hu
      exact hsince rfl
  rcases hstay with hthere | hview | ⟨death, hdeath, -⟩
  · cases hthere
  · cases hview
  · cases hdeath

end Kvtsjl
