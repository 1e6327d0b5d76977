import Kvtsjl.LazyExpiry
import Kvtsjl.PrefixScans

/-
  Collection on an object store.
  `gc_expired_keys` lists the expired objects and hands their keys to `batch_delete`, which asks
  first which of the keys exist. Where expired objects are hidden that says none does, and they stay;
  where they are deleted lazily the question itself deletes them (`collection_iff`).
-/

namespace Kvtsjl

open Assoc (Dict)
open Effects Prog

namespace ObjectStoreKvBackend

variable {K V : Type} (b : ObjectStoreKvBackend K V)

/-! ## What is found -/

section Found

/-- An expired object of a listing, with the key it is read as. -/
def foundRow (now : Instant) (x : String × Blob) : Option (K × String × Blob) :=
  if b.isExpired x.2.stat now then (b.decodeIfPrefix x.1 none).map fun key => (key, x.1, x.2) else none

/-- The keys a collection of `limit` reports. -/
def foundKeys (listing : String) (limit : Int) (m : Medium String Blob) : List K :=
  (((listed listing none m.entries).filterMap (b.foundRow m.clock)).take limit.toNat).map (·.1)

variable {b}

theorem findListed_run {limit : Nat} {found : List (K × String × Blob)} {x : String × Blob} {m : Medium String Blob}
    (hheld : m.entries.get? x.1 = some x.2) : (b.findListed limit found x).run m =
      (.ok (if limit ≤ found.length then (found, false) else (found ++ (b.foundRow m.clock x).toList, true)), m) := by
  have htime : (Medium.time : BlobScript Int).run m = (.ok m.clock, m) := rfl
  unfold findListed foundRow
  split
  · rfl
  · rw [Script.run_bind, bind_ok (b.enrichListStat_run hheld)]
    dsimp only
    rw [Script.run_bind, bind_ok htime]
    split
    · cases b.decodeIfPrefix x.1 none with
      | none =>
        show (Except.ok (found, true), m) = (Except.ok (found ++ [], true), m)
        rw [List.append_nil]
      | some key => rfl
    · show (Except.ok (found, true), m) = (Except.ok (found ++ [], true), m)
      rw [List.append_nil]

/-- A page adds what it holds up to the limit, and says to stop only once that is reached. -/
theorem findPage_run (limit : Nat) (m : Medium String Blob) (page : List (String × Blob)) :
    (∀ x ∈ page, m.entries.get? x.1 = some x.2) → ∀ (found : List (K × String × Blob)) (more : Bool),
      (more = false → limit ≤ found.length) →
      ∃ more', (page.foldlM (fun (found, more) listed =>
          if more then b.findListed limit found listed else pure (found, more)) (found, more) :
            BlobScript (List (K × String × Blob) × Bool)).run m =
        (.ok (found ++ (page.filterMap (b.foundRow m.clock)).take (limit - found.length), more'), m) ∧
        (more' = false →
          limit ≤ (found ++ (page.filterMap (b.foundRow m.clock)).take (limit - found.length)).length) := by
  induction page with
  | nil =>
    intro _ found more hmore
    refine ⟨more, ?_, ?_⟩
    · rw [List.filterMap_nil, List.take_nil, List.append_nil]
      rfl
    · rw [List.filterMap_nil, List.take_nil, List.append_nil]
      exact hmore
  | cons x page ih =>
    intro hheld found more hmore
    have hpage := ih fun y hy => hheld y (List.mem_cons_of_mem _ hy)
    rw [List.foldlM_cons, Script.run_bind]
    by_cases hfull : limit ≤ found.length
    · have hstop : (if more = true then b.findListed limit found x else pure (found, more)).run m =
          (.ok (found, false), m) := by
        cases more with
        | false => rfl
        | true =>
          rw [if_pos rfl, findListed_run (hheld x List.mem_cons_self), if_pos hfull]
      obtain ⟨more', hrun, hlast⟩ := hpage found false fun _ => hfull
      have hzero : limit - found.length = 0 := by omega
      rw [hzero, List.take_zero, List.append_nil] at hrun hlast ⊢
      refine ⟨more', ?_, hlast⟩
      rw [bind_ok hstop]
      exact hrun
    · have hgoes : more = true := by
        cases more with
        | true => rfl
        | false => exact absurd (hmore rfl) hfull
      subst hgoes
      have hstep : (if true = true then b.findListed limit found x else pure (found, true)).run m =
          (.ok (found ++ (b.foundRow m.clock x).toList, true), m) := by
        rw [if_pos rfl, findListed_run (hheld x List.mem_cons_self), if_neg hfull]
      obtain ⟨more', hrun, hlast⟩ := hpage (found ++ (b.foundRow m.clock x).toList) true fun h => by cases h
      have hsame : found ++ (b.foundRow m.clock x).toList ++ (page.filterMap (b.foundRow m.clock)).take
          (limit - (found ++ (b.foundRow m.clock x).toList).length) =
          found ++ ((x :: page).filterMap (b.foundRow m.clock)).take (limit - found.length) := by
        rw [List.append_assoc, List.length_append, List.filterMap_cons]
        cases b.foundRow m.clock x with
        | none => rfl
        | some row =>
          have hmore : limit - found.length = limit - (found.length + 1) + 1 := by omega
          show found ++ ([row] ++ (page.filterMap (b.foundRow m.clock)).take (limit - (found.length + 1))) = _
          rw [hmore, List.take_succ_cons]
          rfl
      rw [hsame] at hrun hlast
      refine ⟨more', ?_, hlast⟩
      rw [bind_ok hstep]
      exact hrun

/-- All pages together find what there is, up to the limit, and change nothing. -/
theorem findWalk_run (hpage : 1 ≤ b.driver.listPageSize) (limit : Nat) (listing : String) (m : Medium String Blob)
    (pages : Nat) : ∀ (after : Option String) (found : List (K × String × Blob)),
      (listed listing after m.entries).length < pages →
      (b.walk listing (b.findListed limit) pages after found).run m =
        (.ok (found ++ ((listed listing after m.entries).filterMap (b.foundRow m.clock)).take
          (limit - found.length)), m) := by
  induction pages with
  | zero => exact fun after found hlt => absurd hlt (Nat.not_lt_zero _)
  | succ pages ih =>
    intro after found hlt
    have hsorted := listed_sorted listing after m.entries
    generalize hrest : listed listing after m.entries = rest at hlt hsorted ⊢
    have hfetch : (b.listPage listing after).run m = (.ok (rest.take b.driver.listPageSize), m) := by
      rw [← hrest]
      rfl
    have hheld : ∀ x ∈ rest.take b.driver.listPageSize, m.entries.get? x.1 = some x.2 := by
      intro x hx
      have hin := List.mem_of_mem_take hx
      rw [← hrest] at hin
      exact (mem_listed.mp hin).1
    obtain ⟨more, hrows, hstop⟩ := findPage_run (b := b) limit m _ hheld found true fun h => by cases h
    rw [walk, Script.run_bind, bind_ok hfetch, Script.run_bind, bind_ok hrows]
    dsimp only
    cases hlast : (rest.take b.driver.listPageSize).getLast? with
    | none =>
      have hempty : rest = [] := by
        rw [List.getLast?_eq_none_iff, List.take_eq_nil_iff] at hlast
        rcases hlast with hzero | hnil
        · omega
        · exact hnil
      rw [hempty, List.take_nil]
      rfl
    | some last =>
      dsimp only
      have hsplit : rest.filterMap (b.foundRow m.clock) =
          (rest.take b.driver.listPageSize).filterMap (b.foundRow m.clock) ++
            (rest.drop b.driver.listPageSize).filterMap (b.foundRow m.clock) := by
        rw [← List.filterMap_append, List.take_append_drop]
      rw [hsplit]
      generalize hfirst : (rest.take b.driver.listPageSize).filterMap (b.foundRow m.clock) = first at hstop hrows ⊢
      generalize hmore : (rest.drop b.driver.listPageSize).filterMap (b.foundRow m.clock) = later
      rw [List.length_append, List.length_take] at hstop
      rw [List.take_append]
      cases more with
      | false =>
        have hreached := hstop rfl
        have hzero : limit - found.length - first.length = 0 := by omega
        rw [hzero, List.take_zero, List.append_nil]
        rfl
      | true =>
        rw [Bool.true_and]
        by_cases hfull : (rest.take b.driver.listPageSize).length = b.driver.listPageSize
        · have hlater : listed listing (some last.1) m.entries = rest.drop b.driver.listPageSize := by
            refine Paging.after_page (fun x y hxy => String.lt_asymm hxy) hsorted (listed_sorted _ _ _) hlast
              fun x => ?_
            have hlastkey := mem_listed.mp (hrest ▸ List.mem_of_mem_take (List.mem_of_getLast? hlast))
            rw [← hrest, mem_listed, mem_listed]
            constructor
            · rintro ⟨hget, hstarts, hafter⟩
              have hlt := hafter last.1 rfl
              exact ⟨⟨hget, hstarts, fun a ha => String.lt_trans (hlastkey.2.2 a ha) hlt⟩, hlt⟩
            · rintro ⟨⟨hget, hstarts, -⟩, hlt⟩
              exact ⟨hget, hstarts, fun a ha => Option.some.inj ha ▸ hlt⟩
          have hshort : (listed listing (some last.1) m.entries).length < pages := by
            rw [hlater, List.length_drop]
            rw [List.length_take] at hfull
            omega
          rw [if_pos (by rw [decide_eq_true hfull]), ih _ _ hshort, hlater, hmore, List.length_append,
            List.length_take, List.append_assoc]
          have hleft : limit - (found.length + min (limit - found.length) first.length) =
              limit - found.length - first.length := by omega
          rw [hleft]
        · rw [if_neg (by rw [decide_eq_true_eq]; exact hfull)]
          have hdrop : rest.drop b.driver.listPageSize = [] := by
            rw [List.length_take] at hfull
            exact List.drop_eq_nil_of_le (by omega)
          rw [← hmore, hdrop, List.filterMap_nil, List.take_nil, List.append_nil]
          rfl

theorem expiredListed_run (hpage : 1 ≤ b.driver.listPageSize) {listing : String}
    (hlisting : b.listingPrefix none = .ok listing) {limit : Int} (hlimit : 1 ≤ limit) {pages : Nat}
    {m : Medium String Blob} (hpages : m.entries.entries.length < pages) :
    (b.expiredListed limit pages).run m =
      (.ok (((listed listing none m.entries).filterMap (b.foundRow m.clock)).take limit.toNat), m) := by
  have hlength : (listed listing none m.entries).length < pages := by
    have hfilter := List.length_filter_le (fun e : String × Blob => e.1.startsWith listing &&
      (none : Option String).all (· < e.1)) m.entries.entries
    unfold listed
    rw [List.length_mergeSort]
    exact Nat.lt_of_le_of_lt hfilter hpages
  unfold expiredListed
  rw [if_neg (by omega), hlisting]
  exact (findWalk_run hpage limit.toNat listing m pages none [] hlength).trans rfl

end Found

/-! ## What a deletion leaves -/

section Deletion

/-- An object past its time is kept there. -/
def ExpiredAt (m : Medium String Blob) (p : String) : Prop :=
  ∃ blob, m.entries.get? p = some blob ∧ b.isExpired blob.stat m.clock = true

/-- Whether an object is kept there that has not expired. -/
def isLive (m : Medium String Blob) (p : String) : Bool :=
  (m.entries.get? p).any fun blob => !b.isExpired blob.stat m.clock

/-- Of some objects those are gone that a test picks, and the others are as they were. -/
structure Removes (among : List String) (picks : Instant → Blob → Bool) (m m' : Medium String Blob) : Prop where
  clock : m'.clock = m.clock
  entries : ∀ p, m'.entries.get? p =
    if p ∈ among then (m.entries.get? p).filter fun blob => !picks m.clock blob else m.entries.get? p

variable {b} {object : K → String} {picks : Instant → Blob → Bool}

theorem Removes.none (m : Medium String Blob) : Removes [] picks m m :=
  ⟨rfl, fun p => by rw [if_neg List.not_mem_nil]⟩

theorem Removes.append {xs ys : List String} {m m' m'' : Medium String Blob} (h : Removes xs picks m m')
    (h' : Removes ys picks m' m'') : Removes (xs ++ ys) picks m m'' := by
  refine ⟨h'.clock.trans h.clock, fun p => ?_⟩
  rw [h'.entries, h.entries, h.clock, if_congr List.mem_append rfl rfl]
  by_cases hx : p ∈ xs
  · rw [if_pos hx, if_pos (Or.inl hx), Option.filter_filter]
    simp only [Bool.and_self]
    exact ite_self _
  · rw [if_neg hx]
    exact if_congr (or_iff_right hx).symm rfl rfl

/-- What a deletion of objects past their time leaves is live as before. -/
theorem Removes.isLive {among : List String} {m m' : Medium String Blob} (h : Removes among picks m m')
    (hpicks : ∀ blob, picks m.clock blob = true → b.isExpired blob.stat m.clock = true) (p : String) :
    b.isLive m' p = b.isLive m p := by
  unfold ObjectStoreKvBackend.isLive
  rw [h.entries, h.clock]
  by_cases hp : p ∈ among
  · rw [if_pos hp, Option.any_filter]
    refine congrArg (fun f => (m.entries.get? p).any f) (funext fun blob => ?_)
    cases hpick : picks m.clock blob with
    | true => rw [hpicks blob hpick]; rfl
    | false => rfl
  · rw [if_neg hp]

/-- What a look deletes: an object past its time, where deletion is lazy. -/
def lazily (now : Instant) (blob : Blob) : Bool := b.expiryGc = .lazyDelete && b.isExpired blob.stat now

theorem existsKey_run {key : K} {p : String} (hkey : b.encodePhysical key = .ok p) (m : Medium String Blob) :
    ∃ m', (b.existsKey key).run m = (.ok (b.isLive m p), m') ∧ Removes [p] b.lazily m m' := by
  have htime : (Medium.time : BlobScript Int).run m = (.ok m.clock, m) := rfl
  have hsame : ∀ m' : Medium String Blob, m'.clock = m.clock →
      (∀ q, q ≠ p → m'.entries.get? q = m.entries.get? q) →
      m'.entries.get? p = (m.entries.get? p).filter (fun blob => !b.lazily m.clock blob) →
      Removes [p] b.lazily m m' := by
    intro m' hclock hothers hown
    refine ⟨hclock, fun q => ?_⟩
    rw [if_congr List.mem_singleton rfl rfl]
    by_cases hq : q = p
    · rw [if_pos hq, hq]
      exact hown
    · rw [if_neg hq]
      exact hothers q hq
  have hlook : ∃ m', (b.liveBlob p).run m = (.ok ((m.entries.get? p).filter fun blob =>
      !b.isExpired blob.stat m.clock), m') ∧ Removes [p] b.lazily m m' := by
    unfold liveBlob
    rw [Script.run_bind, bind_ok (readBlob_run p m)]
    cases hget : m.entries.get? p with
    | none =>
      refine ⟨m, rfl, hsame m rfl (fun _ _ => rfl) ?_⟩
      rw [hget]
      rfl
    | some blob =>
      dsimp only
      rw [Script.run_bind, bind_ok htime]
      cases hexpired : b.isExpired blob.stat m.clock with
      | true =>
        rw [if_pos rfl, Option.filter_some, hexpired]
        by_cases hlazy : b.expiryGc = .lazyDelete
        · rw [if_pos hlazy]
          refine ⟨{ m with entries := m.entries.erase p }, rfl, hsame _ rfl (fun q hq => ?_) ?_⟩
          · show (m.entries.erase p).get? q = _
            rw [Dict.get?_erase, if_neg hq]
          · show (m.entries.erase p).get? p = _
            rw [Dict.get?_erase, if_pos rfl, hget, Option.filter_some, lazily, decide_eq_true hlazy, hexpired]
            rfl
        · rw [if_neg hlazy]
          refine ⟨m, rfl, hsame m rfl (fun _ _ => rfl) ?_⟩
          rw [hget, Option.filter_some, lazily, decide_eq_false hlazy]
          rfl
      | false =>
        rw [if_neg Bool.false_ne_true, Option.filter_some, hexpired]
        refine ⟨m, rfl, hsame m rfl (fun _ _ => rfl) ?_⟩
        rw [hget, Option.filter_some, lazily, hexpired, Bool.and_false]
        rfl
  obtain ⟨m', hrun, hremoves⟩ := hlook
  refine ⟨m', ?_, hremoves⟩
  unfold existsKey
  rw [hkey]
  show (b.liveBlob p >>= fun blob => pure blob.isSome : BlobScript Bool).run m = _
  rw [Script.run_bind, bind_ok hrun]
  show (Except.ok ((m.entries.get? p).filter fun blob => !b.isExpired blob.stat m.clock).isSome, m') = _
  unfold ObjectStoreKvBackend.isLive
  rw [Option.isSome_filter]

theorem lazily_expired (m : Medium String Blob) (blob : Blob) (h : b.lazily m.clock blob = true) :
    b.isExpired blob.stat m.clock = true := by
  unfold lazily at h
  exact (Bool.and_eq_true _ _ ▸ h).2

/-- The keys of a chunk that are live, asked for one by one. -/
theorem askEach_run {α : Type} {a : α} {ask : K → BlobScript (Option α)} (hask : ∀ k m p,
      b.encodePhysical k = .ok p → ∃ m', (ask k).run m = (.ok (if b.isLive m p then some a else none), m') ∧
        Removes [p] b.lazily m m') (chunk : List K) :
    (∀ k ∈ chunk, b.encodePhysical k = .ok (object k)) → ∀ (m : Medium String Blob) (out : List (K × α)), ∃ m',
      (chunk.foldlM (fun out key => do
        match ← ask key with
        | some a => return out ++ [(key, a)]
        | none => return out) out : BlobScript (List (K × α))).run m =
        (.ok (out ++ (chunk.filter fun k => b.isLive m (object k)).map fun k => (k, a)), m') ∧
      Removes (chunk.map object) b.lazily m m' := by
  induction chunk with
  | nil =>
    intro _ m out
    refine ⟨m, ?_, Removes.none m⟩
    rw [List.filter_nil, List.map_nil, List.append_nil]
    rfl
  | cons k chunk ih =>
    intro hchunk m out
    obtain ⟨m1, hasked, hfirst⟩ := hask k m _ (hchunk k List.mem_cons_self)
    obtain ⟨m2, hrest, hlater⟩ := ih (fun j hj => hchunk j (List.mem_cons_of_mem _ hj)) m1
      (out ++ if b.isLive m (object k) then [(k, a)] else [])
    have hsame := hfirst.isLive (lazily_expired m)
    refine ⟨m2, ?_, hfirst.append hlater⟩
    rw [List.foldlM_cons, Script.run_bind]
    have hstep : (do
        match ← ask k with
        | some a => return out ++ [(k, a)]
        | none => return out : BlobScript (List (K × α))).run m =
        (.ok (out ++ if b.isLive m (object k) then [(k, a)] else []), m1) := by
      rw [Script.run_bind, bind_ok hasked]
      cases b.isLive m (object k) with
      | true => rfl
      | false =>
        show (Except.ok out, m1) = (Except.ok (out ++ []), m1)
        rw [List.append_nil]
    rw [bind_ok hstep, hrest, List.append_assoc]
    simp only [hsame]
    cases hlive : b.isLive m (object k) with
    | true =>
      have hkept : (k :: chunk).filter (fun k => b.isLive m (object k)) =
          k :: chunk.filter fun k => b.isLive m (object k) := List.filter_cons_of_pos hlive
      rw [hkept, if_pos rfl]
      rfl
    | false =>
      have hpassed : (k :: chunk).filter (fun k => b.isLive m (object k)) =
          chunk.filter fun k => b.isLive m (object k) :=
        List.filter_cons_of_neg (by rw [hlive]; exact Bool.false_ne_true)
      rw [hpassed, if_neg Bool.false_ne_true]
      rfl

theorem presentIn_run {chunk : List K} (hobject : ∀ k ∈ chunk, b.encodePhysical k = .ok (object k))
    (m : Medium String Blob) : ∃ m', (b.presentIn chunk).run m =
        (.ok (chunk.filter fun k => b.isLive m (object k)), m') ∧ Removes (chunk.map object) b.lazily m m' := by
  unfold presentIn askEach
  generalize hasks : (fun key => do return if ← b.existsKey key then some () else none :
    K → BlobScript (Option Unit)) = ask
  have hask : ∀ k m p, b.encodePhysical k = .ok p →
      ∃ m', (ask k).run m = (.ok (if b.isLive m p then some () else none), m') ∧ Removes [p] b.lazily m m' := by
    intro k m p hp
    obtain ⟨m', hrun, hremoves⟩ := existsKey_run hp m
    refine ⟨m', ?_, hremoves⟩
    rw [← hasks]
    dsimp only
    rw [Script.run_bind, bind_ok hrun]
    rfl
  obtain ⟨m', hfold, hremoves⟩ := askEach_run hask chunk hobject m []
  refine ⟨m', ?_, hremoves⟩
  rw [Script.run_bind]
  refine (bind_ok hfold).trans ?_
  show (Except.ok (List.map _ ([] ++ List.map _ _)), m') = _
  rw [List.nil_append, List.map_map]
  exact congrArg (fun ks => (Except.ok ks, m')) (List.map_id _)

theorem bulkDelete_run (objectKeys : List String) (why : String → Deed String Blob) (m : Medium String Blob) :
    ∃ n m', (bulkDelete objectKeys why).run m = (.ok n, m') ∧ Removes objectKeys (fun _ _ => true) m m' := by
  refine ⟨_, _, rfl, rfl, fun p => ?_⟩
  refine (get?_bulkDelete m.entries objectKeys p 0).trans (if_congr Iff.rfl ?_ rfl)
  cases m.entries.get? p <;> rfl

/-- What a batch deletes: what is live, and what the look before deletes. -/
def reached (now : Instant) (blob : Blob) : Bool :=
  b.expiryGc = .lazyDelete || !b.isExpired blob.stat now

theorem deleteChunk_run (why : String → Deed String Blob) {chunk : List K}
    (hobject : ∀ k ∈ chunk, b.encodePhysical k = .ok (object k)) (m : Medium String Blob) :
    ∃ n m', (b.deleteChunk why chunk).run m = (.ok n, m') ∧ Removes (chunk.map object) b.reached m m' := by
  obtain ⟨m1, hpresent, hlooked⟩ := presentIn_run hobject m
  generalize hlives : (chunk.filter fun k => b.isLive m (object k)) = lives at hpresent
  have hencodes : ∀ k ∈ lives, b.encodePhysical k = .ok (object k) := by
    intro k hk
    rw [← hlives] at hk
    exact hobject k (List.mem_of_mem_filter hk)
  have hencoded : lives.mapM b.encodePhysical = .ok (lives.map object) := by
    clear hpresent hlives
    induction lives with
    | nil => rfl
    | cons k lives ih =>
      rw [List.mapM_cons, hencodes k List.mem_cons_self, ih fun j hj => hencodes j (List.mem_cons_of_mem _ hj)]
      rfl
  have hmem : ∀ p, p ∈ lives.map object ↔ p ∈ chunk.map object ∧ b.isLive m p = true := by
    intro p
    rw [← hlives, List.mem_map, List.mem_map]
    constructor
    · rintro ⟨k, hk, rfl⟩
      rw [List.mem_filter] at hk
      exact ⟨⟨k, hk.1, rfl⟩, hk.2⟩
    · rintro ⟨⟨k, hk, rfl⟩, hlive⟩
      exact ⟨k, List.mem_filter.mpr ⟨hk, hlive⟩, rfl⟩
  have hdeleted : ∃ n m2, (if (lives.map object).isEmpty then return 0
      else bulkDelete (lives.map object) why : BlobScript Nat).run m1 = (.ok n, m2) ∧
      Removes (lives.map object) (fun _ _ => true) m1 m2 := by
    cases hnone : (lives.map object).isEmpty with
    | true =>
      rw [List.isEmpty_iff.mp hnone]
      exact ⟨0, m1, rfl, Removes.none m1⟩
    | false =>
      rw [if_neg Bool.false_ne_true]
      exact bulkDelete_run _ why m1
  obtain ⟨n, m2, hrun, hremoved⟩ := hdeleted
  refine ⟨n, m2, ?_, hremoved.clock.trans hlooked.clock, fun p => ?_⟩
  · unfold deleteChunk
    rw [Script.run_bind, bind_ok hpresent, hencoded]
    exact hrun
  · rw [hremoved.entries, hlooked.entries, if_congr (hmem p) rfl rfl]
    by_cases hp : p ∈ chunk.map object
    · rw [if_pos hp, if_pos hp, if_congr (and_iff_right hp) rfl rfl]
      unfold isLive reached lazily
      cases m.entries.get? p with
      | none => exact ite_self _
      | some blob =>
        rw [Option.any_some, Option.filter_some, Option.filter_some]
        cases b.isExpired blob.stat m.clock <;> cases decide (b.expiryGc = .lazyDelete) <;> rfl
    · rw [if_neg hp, if_neg hp, if_neg fun h => hp h.1]

theorem deleteChunks_run (why : String → Deed String Blob) (chunks : List (List K)) :
    (∀ chunk ∈ chunks, ∀ k ∈ chunk, b.encodePhysical k = .ok (object k)) → ∀ (m : Medium String Blob) (n : Nat),
      ∃ n' m', (chunks.foldlM (fun n chunk => do return n + (← b.deleteChunk why chunk)) n : BlobScript Nat).run m =
        (.ok n', m') ∧ Removes (chunks.flatten.map object) b.reached m m' := by
  induction chunks with
  | nil => exact fun _ m n => ⟨n, m, rfl, Removes.none m⟩
  | cons chunk chunks ih =>
    intro hobject m n
    obtain ⟨one, m1, hone, hfirst⟩ := deleteChunk_run why (hobject chunk List.mem_cons_self) m
    obtain ⟨n', m2, hrest, hlater⟩ := ih (fun c hc => hobject c (List.mem_cons_of_mem _ hc)) m1 (n + one)
    refine ⟨n', m2, ?_, ?_⟩
    · have hstep : (do return n + (← b.deleteChunk why chunk) : BlobScript Nat).run m = (.ok (n + one), m1) := by
        rw [Script.run_bind, bind_ok hone]
        rfl
      rw [List.foldlM_cons, Script.run_bind, bind_ok hstep]
      exact hrest
    · rw [List.flatten_cons, List.map_append]
      exact hfirst.append hlater

variable [DecidableEq K]

theorem deleteBatch_run (hsize : 1 ≤ min b.batchSize b.driver.maxBulkDelete) (why : String → Deed String Blob)
    {ks : List K} (hobject : ∀ k ∈ ks, b.encodePhysical k = .ok (object k)) (m : Medium String Blob) :
    ∃ n m', (b.deleteBatch why ks).run m = (.ok n, m') ∧ Removes (ks.map object) b.reached m m' := by
  have hchunks : chunkSequence (Dict.unique ks) (min b.batchSize b.driver.maxBulkDelete) =
      .ok ((Dict.unique ks).toChunks (min b.batchSize b.driver.maxBulkDelete)) := if_neg (by omega)
  have hflat := flatten_of_chunkSequence hchunks
  have hin : ∀ chunk ∈ (Dict.unique ks).toChunks (min b.batchSize b.driver.maxBulkDelete),
      ∀ k ∈ chunk, b.encodePhysical k = .ok (object k) := fun chunk hchunk k hk =>
    hobject k (Dict.mem_unique.mp (mem_of_chunkSequence hchunks hchunk hk))
  obtain ⟨n, m', hrun, hremoves⟩ := deleteChunks_run why _ hin m 0
  refine ⟨n, m', ?_, hremoves.clock, fun p => ?_⟩
  · unfold deleteBatch
    rw [hchunks]
    exact hrun
  · have hmem : p ∈ (Dict.unique ks).map object ↔ p ∈ ks.map object := by
      simp only [List.mem_map, Dict.mem_unique]
    rw [hremoves.entries, hflat, if_congr hmem rfl rfl]

omit [DecidableEq K] in
theorem delete_run {key : K} {p : String} (hkey : b.encodePhysical key = .ok p) (m : Medium String Blob) :
    ∃ deleted m', (b.delete key).run m = (.ok deleted, m') ∧ Removes [p] (fun _ _ => true) m m' := by
  refine ⟨(m.entries.get? p).isSome, { m with entries := m.entries.erase p }, ?_, rfl, fun q => ?_⟩
  · unfold delete
    rw [hkey]
    rfl
  · show (m.entries.erase p).get? q = _
    rw [Dict.get?_erase, if_congr List.mem_singleton rfl rfl]
    refine if_congr Iff.rfl ?_ rfl
    cases m.entries.get? q <;> rfl

variable (b) in
/-- `delete` of each key in turn. -/
def deleteEach : List K → BlobScript Unit
  | [] => pure ()
  | key :: ks => do
    let _ ← b.delete key
    deleteEach ks

omit [DecidableEq K] in
/-- Deleting key by key returns if every key has an object, and then those are gone. -/
theorem deleteEach_run (ks : List K) : (∀ k ∈ ks, b.encodePhysical k = .ok (object k)) →
    ∀ m : Medium String Blob, ∃ m', (b.deleteEach ks).run m = (.ok (), m') ∧
      Removes (ks.map object) (fun _ _ => true) m m' := by
  induction ks with
  | nil => exact fun _ m => ⟨m, rfl, Removes.none m⟩
  | cons k ks ih =>
    intro hobject m
    obtain ⟨deleted, m1, hone, hfirst⟩ := delete_run (hobject k List.mem_cons_self) m
    obtain ⟨m2, hrest, hlater⟩ := ih (fun j hj => hobject j (List.mem_cons_of_mem _ hj)) m1
    refine ⟨m2, ?_, hfirst.append hlater⟩
    rw [deleteEach, Script.run_bind, bind_ok hone]
    exact hrest

omit [DecidableEq K] in
theorem encodes_of_deleteEach (ks : List K) : ∀ m m' : Medium String Blob,
    (b.deleteEach ks).run m = (.ok (), m') → ∀ k ∈ ks, ∃ p, b.encodePhysical k = .ok p := by
  induction ks with
  | nil => exact fun _ _ _ k hk => absurd hk List.not_mem_nil
  | cons j ks ih =>
    intro m m' hrun
    rw [deleteEach, Script.run_bind] at hrun
    cases hkey : b.encodePhysical j with
    | error e =>
      unfold delete at hrun
      rw [hkey] at hrun
      cases (Prod.mk.inj hrun).1
    | ok p =>
      intro k hk
      rcases List.mem_cons.mp hk with rfl | hk
      · exact ⟨p, hkey⟩
      · obtain ⟨deleted, m1, hone, -⟩ := delete_run hkey m
        rw [bind_ok hone] at hrun
        exact ih m1 m' hrun k hk

end Deletion

/-! ## Collecting -/

section Collecting

/-- Some of at most `maxEntries` expired keys are reported, each once and now gone, and no live
    object is touched. -/
def Collects (maxEntries : Int) (m : Medium String Blob) (result : Except Exn (List K) × Medium String Blob) :
    Prop :=
  ∃ keys m', result = (.ok keys, m') ∧ (keys.length : Int) ≤ maxEntries ∧ keys.Nodup ∧
    (∀ k ∈ keys, ∃ p, b.encodePhysical k = .ok p ∧ b.ExpiredAt m p ∧ m'.entries.get? p = none) ∧
    ∀ p, b.LiveAt m p → m'.entries.get? p = m.entries.get? p

/-- A batch and the same keys one by one leave the same objects. -/
def DeletesAlike [DecidableEq K] (ks : List K) (m : Medium String Blob) : Prop :=
  ∃ n m' m'', (b.batchDelete ks).run m = (.ok n, m') ∧ (b.deleteEach ks).run m = (.ok (), m'') ∧
    ∀ p, m'.entries.get? p = m''.entries.get? p

/-- The object of a key that has one. -/
def objectOf (key : K) : String := (b.encodePhysical key).toOption.getD ""

variable {b}

theorem objectOf_eq {key : K} {p : String} (h : b.encodePhysical key = .ok p) : b.objectOf key = p := by
  unfold objectOf
  rw [h]
  rfl

theorem encodes_objectOf {key : K} (h : ∃ p, b.encodePhysical key = .ok p) :
    b.encodePhysical key = .ok (b.objectOf key) := by
  obtain ⟨p, hp⟩ := h
  rw [objectOf_eq hp]
  exact hp

theorem reached_of_live {m m' : Medium String Blob} {among : List String} (h : Removes among b.reached m m')
    {p : String} (hlive : b.LiveAt m p) : m'.entries.get? p = if p ∈ among then none else m.entries.get? p := by
  obtain ⟨blob, hget, hexpired⟩ := hlive
  rw [h.entries, hget, Option.filter_some, reached, hexpired, Bool.not_false, Bool.or_true]
  rfl

theorem reached_of_expired {m m' : Medium String Blob} {among : List String} (h : Removes among b.reached m m')
    {p : String} (hexpired : b.ExpiredAt m p) (hp : p ∈ among) :
    m'.entries.get? p = none ↔ b.expiryGc = .lazyDelete := by
  obtain ⟨blob, hget, hexpired⟩ := hexpired
  rw [h.entries, if_pos hp, hget, Option.filter_some, reached, hexpired, Bool.not_true, Bool.or_false]
  by_cases hlazy : b.expiryGc = .lazyDelete
  · rw [decide_eq_true hlazy]
    exact iff_of_true rfl hlazy
  · rw [decide_eq_false hlazy]
    exact iff_of_false (fun hsome => by cases hsome) hlazy

theorem foundKeys_length (listing : String) (limit : Int) (m : Medium String Blob) (hlimit : 1 ≤ limit) :
    ((b.foundKeys listing limit m).length : Int) ≤ limit := by
  unfold foundKeys
  rw [List.length_map, List.length_take]
  omega

/-- Where each object listed is read as its own key, what is found are different expired keys. -/
theorem foundKeys_own {listing : String} {m : Medium String Blob}
    (hown : ∀ x ∈ listed listing none m.entries, ∀ k, b.isExpired x.2.stat m.clock = true →
      b.decodeIfPrefix x.1 none = some k → b.encodePhysical k = .ok x.1) (limit : Int) :
    (∀ k ∈ b.foundKeys listing limit m, ∃ p, b.encodePhysical k = .ok p ∧ b.ExpiredAt m p) ∧
      (b.foundKeys listing limit m).Nodup := by
  have hrow : ∀ x ∈ listed listing none m.entries, ∀ row, b.foundRow m.clock x = some row →
      b.encodePhysical row.1 = .ok x.1 ∧ b.ExpiredAt m x.1 := by
    intro x hx row hrow
    unfold foundRow at hrow
    split at hrow
    · next hexpired =>
      obtain ⟨k, hk, rfl⟩ := Option.map_eq_some_iff.mp hrow
      exact ⟨hown x hx k hexpired hk, x.2, (mem_listed.mp hx).1, hexpired⟩
    · cases hrow
  unfold foundKeys
  constructor
  · intro k hk
    obtain ⟨row, hmem, rfl⟩ := List.mem_map.mp hk
    obtain ⟨x, hx, hfound⟩ := List.mem_filterMap.mp (List.mem_of_mem_take hmem)
    exact ⟨x.1, hrow x hx row hfound⟩
  · have hdistinct : ((listed listing none m.entries).filterMap (b.foundRow m.clock)).Pairwise
        fun r r' => r.1 ≠ r'.1 := by
      refine List.pairwise_filterMap.mpr ((listed_sorted listing none m.entries).imp_of_mem ?_)
      intro x y hx hy hlt row hrowx row' hrowy hsame
      have hkeys := (hrow x hx row hrowx).1
      rw [hsame, (hrow y hy row' hrowy).1] at hkeys
      rw [Except.ok.inj hkeys] at hlt
      exact String.lt_irrefl _ hlt
    exact List.pairwise_map.mpr (hdistinct.sublist (List.take_sublist _ _))

theorem foundKeys_eq_nil {listing : String} {m : Medium String Blob} {limit : Int} (hlimit : 1 ≤ limit) :
    b.foundKeys listing limit m = [] ↔ ∀ x ∈ listed listing none m.entries,
      b.isExpired x.2.stat m.clock = true → b.decodeIfPrefix x.1 none = none := by
  unfold foundKeys
  have hlimit : limit.toNat ≠ 0 := by omega
  rw [List.map_eq_nil_iff, List.take_eq_nil_iff, or_iff_right hlimit, List.filterMap_eq_nil_iff]
  refine forall₂_congr fun x _ => ?_
  unfold foundRow
  split
  · next hexpired => rw [Option.map_eq_none_iff, forall_prop_of_true hexpired]
  · next hlive => exact iff_of_true rfl fun hexpired => absurd hexpired hlive

variable [DecidableEq K]

theorem gcExpiredKeys_refused {maxEntries : Int} (h : ¬ 1 ≤ maxEntries) (pages : Nat) (m : Medium String Blob) :
    ∃ e, (b.gcExpiredKeys maxEntries pages).run m = (.error e, m) := by
  unfold gcExpiredKeys
  rw [if_pos (by omega)]
  exact ⟨_, rfl⟩

/-- Where its keys have objects, the collection reports what it finds and deletes it as a batch. -/
theorem gcExpiredKeys_run (hpage : 1 ≤ b.driver.listPageSize) (hsize : 1 ≤ min b.batchSize b.driver.maxBulkDelete)
    {listing : String} (hlisting : b.listingPrefix none = .ok listing) {maxEntries : Int} (hmax : 1 ≤ maxEntries)
    {pages : Nat} {m : Medium String Blob} (hpages : m.entries.entries.length < pages)
    (hencodes : ∀ k ∈ b.foundKeys listing maxEntries m, ∃ p, b.encodePhysical k = .ok p) :
    ∃ m', (b.gcExpiredKeys maxEntries pages).run m = (.ok (b.foundKeys listing maxEntries m), m') ∧
      Removes ((b.foundKeys listing maxEntries m).map b.objectOf) b.reached m m' := by
  have hfound := expiredListed_run hpage hlisting hmax hpages
  unfold foundKeys at hencodes ⊢
  unfold gcExpiredKeys
  rw [if_neg (by omega), Script.run_bind, bind_ok hfound]
  generalize hrows : ((listed listing none m.entries).filterMap (b.foundRow m.clock)).take maxEntries.toNat = rows
    at hencodes ⊢
  cases hnone : rows.isEmpty with
  | true =>
    rw [List.isEmpty_iff.mp hnone]
    exact ⟨m, rfl, Removes.none m⟩
  | false =>
    obtain ⟨n, m', hrun, hremoves⟩ := deleteBatch_run hsize (collectedFor rows)
      (fun k hk => encodes_objectOf (hencodes k hk)) m
    refine ⟨m', ?_, hremoves⟩
    rw [if_neg Bool.false_ne_true, Script.run_bind, bind_ok hrun]
    rfl

/-- What a collection that returns reports. -/
theorem keys_of_gcExpiredKeys (hpage : 1 ≤ b.driver.listPageSize) {maxEntries : Int} {pages : Nat}
    {m m' : Medium String Blob} (hpages : m.entries.entries.length < pages) {keys : List K}
    (hrun : (b.gcExpiredKeys maxEntries pages).run m = (.ok keys, m')) :
    1 ≤ maxEntries ∧ ∃ listing, b.listingPrefix none = .ok listing ∧ keys = b.foundKeys listing maxEntries m := by
  by_cases hmax : 1 ≤ maxEntries
  · refine ⟨hmax, ?_⟩
    cases hlisting : b.listingPrefix none with
    | error e =>
      have hraises : (b.expiredListed maxEntries pages).run m = (.error e, m) := by
        unfold expiredListed
        rw [if_neg (by omega), hlisting]
        rfl
      unfold gcExpiredKeys at hrun
      rw [if_neg (by omega), Script.run_bind, bind_error hraises] at hrun
      cases (Prod.mk.inj hrun).1
    | ok listing =>
      refine ⟨listing, rfl, ?_⟩
      unfold gcExpiredKeys at hrun
      rw [if_neg (by omega), Script.run_bind, bind_ok (expiredListed_run hpage hlisting hmax hpages)] at hrun
      unfold foundKeys
      generalize ((listed listing none m.entries).filterMap (b.foundRow m.clock)).take maxEntries.toNat = rows
        at hrun ⊢
      cases hnone : rows.isEmpty with
      | true =>
        rw [hnone, if_pos rfl] at hrun
        rw [List.isEmpty_iff.mp hnone]
        exact (Except.ok.inj (Prod.mk.inj hrun).1).symm
      | false =>
        rw [hnone, if_neg Bool.false_ne_true, Script.run_bind] at hrun
        generalize hdeleted : (b.deleteBatch (collectedFor rows) (rows.map (·.1))).run m = deleted at hrun
        obtain ⟨result, m''⟩ := deleted
        cases result with
        | error e =>
          rw [bind_error hdeleted] at hrun
          cases (Prod.mk.inj hrun).1
        | ok n =>
          rw [bind_ok hdeleted] at hrun
          exact (Except.ok.inj (Prod.mk.inj hrun).1).symm
  · obtain ⟨e, hraises⟩ := gcExpiredKeys_refused (b := b) hmax pages m
    rw [hraises] at hrun
    cases (Prod.mk.inj hrun).1

/-- The collection removes what it reports exactly where deletion is lazy or nothing is found, and
    what is found are different expired keys. -/
theorem collects_iff (hpage : 1 ≤ b.driver.listPageSize) (hsize : 1 ≤ min b.batchSize b.driver.maxBulkDelete)
    (maxEntries : Int) {pages : Nat} {m : Medium String Blob} (hpages : m.entries.entries.length < pages) :
    b.Collects maxEntries m ((b.gcExpiredKeys maxEntries pages).run m) ↔
      1 ≤ maxEntries ∧ ∃ listing, b.listingPrefix none = .ok listing ∧
        (∀ k ∈ b.foundKeys listing maxEntries m, ∃ p, b.encodePhysical k = .ok p ∧ b.ExpiredAt m p) ∧
        (b.foundKeys listing maxEntries m).Nodup ∧
        (b.expiryGc = .lazyDelete ∨ b.foundKeys listing maxEntries m = []) := by
  constructor
  · rintro ⟨keys, m', hrun, -, hnodup, hgone, -⟩
    obtain ⟨hmax, listing, hlisting, rfl⟩ := keys_of_gcExpiredKeys hpage hpages hrun
    refine ⟨hmax, listing, hlisting, fun k hk => ?_, hnodup, ?_⟩
    · obtain ⟨p, hp, hexpired, -⟩ := hgone k hk
      exact ⟨p, hp, hexpired⟩
    · by_cases hnone : b.foundKeys listing maxEntries m = []
      · exact .inr hnone
      · obtain ⟨k, hk⟩ := List.exists_mem_of_ne_nil _ hnone
        obtain ⟨m'', hrun', hremoves⟩ := gcExpiredKeys_run hpage hsize hlisting hmax hpages fun k hk =>
          (hgone k hk).imp fun _ h => h.1
        have hsame : m' = m'' := (Prod.mk.inj (hrun.symm.trans hrun')).2
        obtain ⟨p, hp, hexpired, herased⟩ := hgone k hk
        refine .inl ((reached_of_expired hremoves hexpired ?_).mp (hsame ▸ herased))
        exact List.mem_map.mpr ⟨k, hk, objectOf_eq hp⟩
  · rintro ⟨hmax, listing, hlisting, hexpired, hnodup, hmode⟩
    obtain ⟨m', hrun, hremoves⟩ := gcExpiredKeys_run hpage hsize hlisting hmax hpages fun k hk =>
      (hexpired k hk).imp fun _ h => h.1
    refine ⟨_, m', hrun, foundKeys_length listing maxEntries m hmax, hnodup, fun k hk => ?_, fun p hlive => ?_⟩
    · obtain ⟨p, hp, hdead⟩ := hexpired k hk
      have hlazy : b.expiryGc = .lazyDelete := hmode.resolve_right (List.ne_nil_of_mem hk)
      exact ⟨p, hp, hdead, (reached_of_expired hremoves hdead (List.mem_map.mpr ⟨k, hk, objectOf_eq hp⟩)).mpr hlazy⟩
    · rw [reached_of_live hremoves hlive, if_neg]
      intro hp
      obtain ⟨k, hk, rfl⟩ := List.mem_map.mp hp
      obtain ⟨p, hp, blob, hget, hdead⟩ := hexpired k hk
      obtain ⟨blob', hget', hlives⟩ := hlive
      rw [objectOf_eq hp, hget] at hget'
      rw [← Option.some.inj hget', hdead] at hlives
      cases hlives

/-- A batch deletes what `delete` would, but for the expired objects that are only hidden. -/
theorem deletesAlike_iff (hsize : 1 ≤ min b.batchSize b.driver.maxBulkDelete) (ks : List K) (m : Medium String Blob) :
    b.DeletesAlike ks m ↔ (∀ k ∈ ks, ∃ p, b.encodePhysical k = .ok p) ∧
      (b.expiryGc = .lazyDelete ∨ ∀ k ∈ ks, ∀ p, b.encodePhysical k = .ok p → ¬ b.ExpiredAt m p) := by
  have hruns : (∀ k ∈ ks, ∃ p, b.encodePhysical k = .ok p) → ∃ n m' m'',
      (b.batchDelete ks).run m = (.ok n, m') ∧ (b.deleteEach ks).run m = (.ok (), m'') ∧
      Removes (ks.map b.objectOf) b.reached m m' ∧ Removes (ks.map b.objectOf) (fun _ _ => true) m m'' := by
    intro hencodes
    obtain ⟨m'', heach, hremoved⟩ := deleteEach_run ks (fun k hk => encodes_objectOf (hencodes k hk)) m
    have hbatch : ∃ n m', (b.batchDelete ks).run m = (.ok n, m') ∧ Removes (ks.map b.objectOf) b.reached m m' := by
      unfold batchDelete
      cases hnone : ks.isEmpty with
      | true =>
        rw [List.isEmpty_iff.mp hnone]
        exact ⟨0, m, rfl, Removes.none m⟩
      | false =>
        rw [if_neg Bool.false_ne_true]
        exact deleteBatch_run hsize _ (fun k hk => encodes_objectOf (hencodes k hk)) m
    obtain ⟨n, m', hrun, hremoves⟩ := hbatch
    exact ⟨n, m', m'', hrun, heach, hremoves, hremoved⟩
  constructor
  · rintro ⟨n, m', m'', hbatch, heach, hsame⟩
    have hencodes := encodes_of_deleteEach ks m m'' heach
    refine ⟨hencodes, ?_⟩
    obtain ⟨n1, m1, m2, hbatch1, heach1, hremoves, hremoved⟩ := hruns hencodes
    by_cases hlazy : b.expiryGc = .lazyDelete
    · exact .inl hlazy
    · refine .inr fun k hk p hp hexpired => hlazy ?_
      have hmem : p ∈ ks.map b.objectOf := List.mem_map.mpr ⟨k, hk, objectOf_eq hp⟩
      refine (reached_of_expired hremoves hexpired hmem).mp ?_
      rw [← (Prod.mk.inj (hbatch.symm.trans hbatch1)).2, hsame, (Prod.mk.inj (heach.symm.trans heach1)).2,
        hremoved.entries, if_pos hmem]
      cases m.entries.get? p <;> rfl
  · rintro ⟨hencodes, hmode⟩
    obtain ⟨n, m', m'', hbatch, heach, hremoves, hremoved⟩ := hruns hencodes
    refine ⟨n, m', m'', hbatch, heach, fun p => ?_⟩
    rw [hremoves.entries, hremoved.entries]
    by_cases hp : p ∈ ks.map b.objectOf
    · rw [if_pos hp, if_pos hp]
      cases hget : m.entries.get? p with
      | none => rfl
      | some blob =>
        have hreached : b.reached m.clock blob = true := by
          unfold reached
          rcases hmode with hlazy | hlives
          · rw [decide_eq_true hlazy]
            rfl
          · obtain ⟨k, hk, rfl⟩ := List.mem_map.mp hp
            have hlive : b.isExpired blob.stat m.clock = false := Bool.eq_false_iff.mpr fun hexpired =>
              hlives k hk _ (encodes_objectOf (hencodes k hk)) ⟨blob, hget, hexpired⟩
            rw [hlive, Bool.not_false, Bool.or_true]
        rw [Option.filter_some, Option.filter_some, hreached]
    · rw [if_neg hp, if_neg hp]

end Collecting

/-- `gc_expired_keys` removes what it reports exactly where deletion is lazy or nothing is found, what
    is found being different expired keys, as it is where each object listed is read as its own key.
    And `batch_delete` removes what `delete` would exactly there, or where it names nothing expired. -/
theorem collection_iff {K V : Type} [DecidableEq K] (b : ObjectStoreKvBackend K V)
    (hpage : 1 ≤ b.driver.listPageSize) (hsize : 1 ≤ min b.batchSize b.driver.maxBulkDelete) {pages : Nat}
    {m : Medium String Blob} (hpages : m.entries.entries.length < pages) :
    (∀ maxEntries, b.Collects maxEntries m ((b.gcExpiredKeys maxEntries pages).run m) ↔
      1 ≤ maxEntries ∧ ∃ listing, b.listingPrefix none = .ok listing ∧
        (∀ k ∈ b.foundKeys listing maxEntries m, ∃ p, b.encodePhysical k = .ok p ∧ b.ExpiredAt m p) ∧
        (b.foundKeys listing maxEntries m).Nodup ∧
        (b.expiryGc = .lazyDelete ∨ b.foundKeys listing maxEntries m = [])) ∧
    (∀ listing, b.listingPrefix none = .ok listing →
      (∀ x ∈ listed listing none m.entries, ∀ k, b.isExpired x.2.stat m.clock = true →
        b.decodeIfPrefix x.1 none = some k → b.encodePhysical k = .ok x.1) →
      ∀ maxEntries, b.Collects maxEntries m ((b.gcExpiredKeys maxEntries pages).run m) ↔
        1 ≤ maxEntries ∧ (b.expiryGc = .lazyDelete ∨ ∀ x ∈ listed listing none m.entries,
          b.isExpired x.2.stat m.clock = true → b.decodeIfPrefix x.1 none = none)) ∧
    ∀ ks, b.DeletesAlike ks m ↔ (∀ k ∈ ks, ∃ p, b.encodePhysical k = .ok p) ∧
      (b.expiryGc = .lazyDelete ∨ ∀ k ∈ ks, ∀ p, b.encodePhysical k = .ok p → ¬ b.ExpiredAt m p) := by
  refine ⟨fun maxEntries => collects_iff hpage hsize maxEntries hpages, ?_, fun ks => deletesAlike_iff hsize ks m⟩
  intro listing hlisting hown maxEntries
  rw [collects_iff hpage hsize maxEntries hpages]
  refine and_congr_right fun hmax => ?_
  rw [← foundKeys_eq_nil hmax]
  constructor
  · rintro ⟨listing', hlisting', -, -, hmode⟩
    rw [hlisting] at hlisting'
    rw [Except.ok.inj hlisting']
    exact hmode
  · intro hmode
    obtain ⟨hexpired, hnodup⟩ := foundKeys_own hown maxEntries
    exact ⟨listing, hlisting, hexpired, hnodup, hmode⟩

/-- Objects named by their keys that live for a second, and whether they are deleted or hidden then. -/
def shortLived (expiryGc : ExpiryGc) : ObjectStoreKvBackend (List Char) String :=
  { textObjects with
    expiryGc
    ttlPolicy := ⟨some 1000000⟩
    decodeIfPrefix := fun objectKey _ => some objectKey.toList }

def agedBlob : Blob := ⟨[], "k", some 5, none, some 0, none, none⟩

/-- One object, written at 5, two seconds later. -/
def agedObject : Medium String Blob := ⟨Dict.single "k" agedBlob, 2000005⟩

/-- Another, written a second later, is not expired yet. -/
def besideAged : Medium String Blob :=
  ⟨agedObject.entries.set "new" ⟨[], "new", some 1000006, none, some 0, none, none⟩, 2000005⟩

theorem collection_iff_agedObject :
    (shortLived .lazyDelete).Collects 1 besideAged (((shortLived .lazyDelete).gcExpiredKeys 1 3).run besideAged) := by
  have hpages : besideAged.entries.entries.length < 3 := by decide
  obtain ⟨-, hown, -⟩ := (shortLived .lazyDelete).collection_iff (by decide) (by decide) hpages
  refine (hown "" rfl ?_ 1).mpr ⟨by decide, .inl rfl⟩
  intro x _ k _ hk
  rw [← Option.some.inj hk]
  show Except.ok (String.ofList x.1.toList) = _
  rw [String.ofList_toList]

/-- A hidden object is reported as collected and stays, and `batch_delete` leaves it where `delete`
    would not. -/
theorem collection_reports_hidden :
    ¬ (shortLived .hide).Collects 1 agedObject (((shortLived .hide).gcExpiredKeys 1 2).run agedObject) ∧
      ¬ (shortLived .hide).DeletesAlike [['k']] agedObject := by
  have hget : agedObject.entries.get? "k" = some agedBlob := by rfl
  have hdead : (shortLived .hide).isExpired agedBlob.stat agedObject.clock = true := by
    decide
  constructor
  · rw [collects_iff (by decide) (by decide) 1 (by decide)]
    rintro ⟨-, listing, hlisting, -, -, hlazy | hnone⟩
    · cases hlazy
    · have hlisted : ("k", agedBlob) ∈ listed listing none agedObject.entries := by
        refine mem_listed.mpr ⟨hget, ?_, fun a ha => by cases ha⟩
        rw [← Except.ok.inj hlisting, String.startsWith_string_iff]
        exact List.nil_prefix
      cases (foundKeys_eq_nil (by decide)).mp hnone _ hlisted hdead
  · rw [deletesAlike_iff (by decide)]
    rintro ⟨-, hlazy | hlives⟩
    · cases hlazy
    · exact hlives _ List.mem_cons_self "k" rfl ⟨_, hget, hdead⟩

end ObjectStoreKvBackend

end Kvtsjl
