import Kvtsjl.PrefixScans

/-
  What a scan of a memory store comes to, whatever it asks for.
  It goes over the bucket once, in its order, and gives what each live entry is read as
  (`scanEntries_query`). It deletes nothing that is live.
-/

namespace Kvtsjl

open Assoc (Dict)
open Effects Prog

namespace KvBackend

variable {K V α VB : Type} [DecidableEq α] (b : KvBackend K V α VB)

/-- What a blob is shown as, under a prefix or under none. -/
def shownBy (pre : Option K) (blob : List α) : Option K :=
  if b.scanPrefixBlob pre <+: blob then b.decodeKeyFromPhysical blob else none

end KvBackend

namespace MemoryKvBackend

variable {K V α VB : Type} [DecidableEq α] (b : MemoryKvBackend K V α VB)

/-- The value kept at a place, as it is read. -/
def valueAt (r : MemoryRoot α VB) (p : List α) : Option V :=
  (b.entryAt r p).bind fun e => b.kvset.valueSerde.deserialize e.valueBlob

/-- Every value can be read. -/
def ValuesRead (r : MemoryRoot α VB) : Prop :=
  ∀ p e, b.entryAt r p = some e → ∃ v, b.kvset.valueSerde.deserialize e.valueBlob = some v

/-- What a scan gives for a place. -/
def entryRow (q : ScanQuery K) (r : MemoryRoot α VB) (p : List α) : Option (K × Option V) :=
  (b.shownBy q.keyPrefix p).map fun k => (k, if q.includeValues then b.valueAt r p else none)

theorem samePlaces_refl (r : MemoryRoot α VB) : b.SamePlaces r r := ⟨rfl, fun _ _ _ => Iff.rfl⟩

/-- What a scan makes of a place. A value it is asked for and cannot read, it raises. -/
def rowAt (q : ScanQuery K) (r : MemoryRoot α VB) (p : List α) : Except Exn (Option (K × Option V)) :=
  if b.LiveAt r p then
    match b.shownBy q.keyPrefix p with
    | none => .ok none
    | some key =>
      if q.includeValues then
        match b.valueAt r p with
        | some v => .ok (some (key, some v))
        | none => .error (.serDeError "deserialize failed")
      else .ok (some (key, none))
  else .ok none

theorem rowAt_error {q : ScanQuery K} {r : MemoryRoot α VB} {p : List α} {e : Exn} (h : b.rowAt q r p = .error e) :
    e = .serDeError "deserialize failed" := by
  unfold rowAt at h
  split at h
  · split at h
    · cases h
    · split at h
      · split at h
        · cases h
        · exact (Except.error.inj h).symm
      · cases h
  · cases h

theorem rowAt_query {q : ScanQuery K} {r : MemoryRoot α VB} {p : List α}
    (hvalue : q.includeValues = true → b.LiveAt r p → (b.shownBy q.keyPrefix p).isSome = true →
      (b.valueAt r p).isSome = true) :
    b.rowAt q r p = .ok (if b.LiveAt r p then b.entryRow q r p else none) := by
  unfold rowAt entryRow
  by_cases hlive : b.LiveAt r p
  · rw [if_pos hlive, if_pos hlive]
    cases hshown : b.shownBy q.keyPrefix p with
    | none => rfl
    | some key =>
      dsimp only
      rw [Option.map_some]
      cases hasked : q.includeValues with
      | false => rfl
      | true =>
        obtain ⟨v, hv⟩ := Option.isSome_iff_exists.mp (hvalue hasked hlive (by rw [hshown]; rfl))
        rw [if_pos rfl, if_pos rfl, hv]
  · rw [if_neg hlive, if_neg hlive]

/-- A place that is listed is live, and its value is asked for only where it is shown. -/
theorem scanOne_rowAt {q : ScanQuery K} {r : MemoryRoot α VB} (p : List α) (t : MemoryRoot α VB)
    (ht : b.SamePlaces r t) :
    (b.scanOne q p t).1 = b.rowAt q r p ∧ b.SamePlaces r (b.scanOne q p t).2 := by
  unfold scanOne rowAt
  rw [bind_apply, read_apply]
  dsimp only
  cases h : b.entryAt t p with
  | none =>
    have hdead : ¬ b.LiveAt r p := by
      rw [← ht.liveAt]
      intro ⟨e, he, _⟩
      rw [h] at he
      cases he
    rw [if_neg hdead]
    exact ⟨rfl, ht⟩
  | some e =>
    dsimp only
    cases hexpired : expired e t.clock with
    | true =>
      have hdead : ¬ b.LiveAt r p := by
        rw [← ht.liveAt]
        intro ⟨e', he', hlive⟩
        rw [h] at he'
        rw [← Option.some.inj he', hexpired] at hlive
        cases hlive
      obtain ⟨t', hrun, hsame⟩ := b.samePlaces_lazyDelete h hexpired
      rw [if_pos rfl, if_neg hdead, bind_ok hrun]
      exact ⟨rfl, ht.trans b hsame⟩
    | false =>
      have hclock : expired e r.clock = false := by
        rw [← ht.1]
        exact hexpired
      have hheld : b.entryAt r p = some e := (ht.2 p e hclock).mp h
      have hlive : b.LiveAt r p := ⟨e, hheld, hclock⟩
      rw [if_neg Bool.false_ne_true, if_pos hlive]
      unfold KvBackend.shownBy
      by_cases hfound : b.scanPrefixBlob q.keyPrefix <+: p
      · rw [if_neg (not_not.mpr hfound), if_pos hfound]
        cases b.decodeKeyFromPhysical p with
        | none => exact ⟨rfl, ht⟩
        | some key =>
          dsimp only
          cases hasked : q.includeValues with
          | false => exact ⟨rfl, ht⟩
          | true =>
            have hvalue : b.valueAt r p = b.kvset.valueSerde.deserialize e.valueBlob := by
              unfold valueAt
              rw [hheld]
              rfl
            rw [if_pos rfl, if_pos rfl, hvalue]
            unfold deserializeValue
            cases b.kvset.valueSerde.deserialize e.valueBlob with
            | none => exact ⟨rfl, ht⟩
            | some v => exact ⟨rfl, ht⟩
      · rw [if_pos hfound, if_neg hfound]
        exact ⟨rfl, ht⟩

/-- A scan makes rows of the places, one by one in the order of the bucket. -/
theorem scanEntries_rowAt (q : ScanQuery K) (r : MemoryRoot α VB) :
    (b.scanEntries q r).1 = ((r.bucket b.collection).keys.mapM (b.rowAt q r)).map (List.filterMap id) ∧
      b.SamePlaces r (b.scanEntries q r).2 := by
  obtain ⟨hrows, hsame⟩ := mapM_answers (b.scanOne_rowAt (q := q) (r := r)) (r.bucket b.collection).keys r
    (b.samePlaces_refl r)
  unfold scanEntries
  rw [bind_apply, read_apply]
  dsimp only
  rw [bind_apply]
  rcases hrun : (r.bucket b.collection).keys.mapM (b.scanOne q) r with ⟨e | rows, t⟩
  · rw [hrun] at hrows hsame
    rw [← show Except.error e = List.mapM _ _ from hrows]
    exact ⟨rfl, hsame⟩
  · rw [hrun] at hrows hsame
    rw [← show Except.ok rows = List.mapM _ _ from hrows]
    exact ⟨rfl, hsame⟩

/-- A scan that can read all it shows gives what the live places are read as. -/
theorem scanEntries_shown {q : ScanQuery K} {r : MemoryRoot α VB}
    (hvalues : q.includeValues = true → ∀ p, b.LiveAt r p → (b.shownBy q.keyPrefix p).isSome = true →
      (b.valueAt r p).isSome = true) :
    (b.scanEntries q r).1 = .ok ((b.livePlaces r).filterMap (b.entryRow q r)) := by
  rw [(b.scanEntries_rowAt q r).1, exceptMapM_ok fun p _ => b.rowAt_query fun hasked => hvalues hasked p]
  show (Except.ok _ : Except Exn _) = _
  unfold livePlaces
  rw [List.filterMap_map, List.filterMap_filter]
  refine congrArg _ (List.filterMap_congr fun p _ => ?_)
  by_cases hlive : b.LiveAt r p
  · simp [hlive]
  · simp [hlive]

/-- A scan that shows a place whose value cannot be read raises. -/
theorem scanEntries_unread {q : ScanQuery K} (hasked : q.includeValues = true) {r : MemoryRoot α VB} {p : List α}
    (hlive : b.LiveAt r p) (hshown : (b.shownBy q.keyPrefix p).isSome = true) (hvalue : b.valueAt r p = none) :
    (b.scanEntries q r).1 = .error (.serDeError "deserialize failed") := by
  have hlisted : p ∈ (r.bucket b.collection).keys := by
    obtain ⟨e, he, _⟩ := hlive
    exact Dict.mem_keys.mpr ⟨e, he⟩
  have hrow : b.rowAt q r p = .error (.serDeError "deserialize failed") := by
    obtain ⟨key, hkey⟩ := Option.isSome_iff_exists.mp hshown
    unfold rowAt
    rw [if_pos hlive, hkey]
    dsimp only
    rw [if_pos hasked, hvalue]
  rw [(b.scanEntries_rowAt q r).1, exceptMapM_error hlisted hrow fun _ _ _ h => b.rowAt_error h]
  rfl

/-- A scan gives what the live places are read as, in the order of the bucket. -/
theorem scanEntries_query {q : ScanQuery K} {r : MemoryRoot α VB} (hvalues : q.includeValues = true → b.ValuesRead r) :
    (b.scanEntries q r).1 = .ok ((b.livePlaces r).filterMap (b.entryRow q r)) ∧
      b.SamePlaces r (b.scanEntries q r).2 := by
  refine ⟨b.scanEntries_shown fun hasked p ⟨e, he, _⟩ _ => ?_, (b.scanEntries_rowAt q r).2⟩
  obtain ⟨v, hv⟩ := hvalues hasked p e he
  unfold valueAt
  rw [he, Option.bind_some, hv]
  rfl

/-- The keys a memory store lists are those its live places are read as, in the order of the bucket. -/
theorem listedKeys_leafStore [DecidableEq K] [ScanKey K] {r : MemoryRoot α VB} {project : Projection}
    (hvalues : project = .entries → b.ValuesRead r) (pre : Option K) (pageSize : Nat) :
    (ScanView.leaf b.leafStore).listedKeys r pre project none pageSize =
      some ((b.livePlaces r).filterMap (b.shownBy pre)) := by
  let q : ScanQuery K := ⟨pre, project = .entries, pageSize⟩
  have hcompiled : b.leafStore.listing.compileScan (.ofPrefix pre project .unordered none pageSize) =
      .ok ⟨b.scanEntries q >>= fun entries => pure (entries.map fun e => ⟨e.1, e.2, none⟩), .alwaysTrue⟩ := by
    cases pre <;> rfl
  have hscan : b.scanEntries q r = (.ok ((b.livePlaces r).filterMap (b.entryRow q r)), (b.scanEntries q r).2) :=
    Prod.ext (b.scanEntries_query fun hasked => hvalues (of_decide_eq_true hasked)).1 rfl
  rw [ScanView.listedKeys_of_rows hcompiled (congrArg Prod.fst (bind_ok hscan)), List.map_map, List.map_filterMap]
  refine congrArg some (List.filterMap_congr fun p _ => ?_)
  unfold entryRow
  rw [Option.map_map]
  exact Option.map_id'

/-- What is live is kept, with its value, through a scan. -/
theorem SamePlaces.valueAt {r t : MemoryRoot α VB} (h : b.SamePlaces r t) {p : List α} (hlive : b.LiveAt r p) :
    b.valueAt t p = b.valueAt r p := by
  obtain ⟨e, he, hexpired⟩ := hlive
  unfold MemoryKvBackend.valueAt
  rw [he, (h.2 p e hexpired).mpr he]

end MemoryKvBackend

end Kvtsjl
