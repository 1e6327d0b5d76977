import Kvtsjl.Cascade
import Kvtsjl.SqlScans

/-
  What `batch_get` of a table reads.
  A row counts while its time is not up and the view holds it. A read may delete rows whose time is up,
  and nothing else, so the reads of one instant agree (`batchGet_steady`).
-/

namespace Kvtsjl

open Assoc (Dict)
open Effects Prog

namespace SqlDbKvBackend

variable {K V : Type} (b : SqlDbKvBackend K V)

/-- The state but for rows whose time is up, which may be gone. -/
def Kept (m s : Medium SqlKey SqlDbRow) : Prop :=
  s.clock = m.clock ∧ ∀ k, s.entries.get? k = m.entries.get? k ∨
    s.entries.get? k = none ∧ ∃ row, m.entries.get? k = some row ∧ b.rowExpiredAt row m.clock = .ok true

/-- The live row of a place. -/
def liveAt (m : Medium SqlKey SqlDbRow) (k : SqlKey) : Option (SqlKey × SqlDbRow) :=
  ((m.entries.get? k).filter (b.isLive m.clock)).map fun row => (k, row)

/-- The value read for a key, written at its place. -/
def content (place : K → SqlKey) (m : Medium SqlKey SqlDbRow) (key : K) : Option V :=
  (b.liveAt m (place key)).bind fun row => (b.readRow row).toOption

/-- The live rows can be read, and their columns of time are times. -/
structure Readable (m : Medium SqlKey SqlDbRow) : Prop where
  timed : ∀ row ∈ m.entries.entries, b.Timed row.2
  values : ∀ row ∈ m.entries.entries, b.isLive m.clock row.2 = true → ∃ v, b.readRow row = .ok v

theorem kept_refl (m : Medium SqlKey SqlDbRow) : b.Kept m m := ⟨rfl, fun _ => .inl rfl⟩

variable {b} {m : Medium SqlKey SqlDbRow}

theorem isLive_expired {row : SqlDbRow} {now : Instant} (h : b.rowExpiredAt row now = .ok true) :
    b.isLive now row = false := by
  unfold isLive
  rw [h]
  rfl

theorem isLive_unexpired {row : SqlDbRow} {now : Instant} (h : b.rowExpiredAt row now = .ok false) :
    b.isLive now row = b.holds row := by
  unfold isLive
  rw [h]
  rfl

theorem liveAt_eq_some {k : SqlKey} {row : SqlKey × SqlDbRow} : b.liveAt m k = some row ↔
    row.1 = k ∧ row ∈ m.entries.entries ∧ b.isLive m.clock row.2 = true := by
  unfold liveAt
  rw [Option.map_eq_some_iff]
  simp only [Option.filter_eq_some_iff]
  constructor
  · intro ⟨row', ⟨hrow, hlive⟩, heq⟩
    rw [← heq]
    exact ⟨rfl, Dict.mem_entries.mpr hrow, hlive⟩
  · intro ⟨hk, hrow, hlive⟩
    rw [← hk]
    exact ⟨row.2, ⟨Dict.mem_entries.mp hrow, hlive⟩, rfl⟩

/-- A row that was fetched, looked at again. -/
theorem liveRow_run (hread : b.Readable m) {s₀ s : Medium SqlKey SqlDbRow} (hs₀ : b.Kept m s₀) (hs : b.Kept m s)
    (k : SqlKey) : ∃ s', (b.liveRow ((s₀.entries.get? k).map fun row => (k, row))).run s = (.ok (b.liveAt m k), s') ∧
      b.Kept m s' := by
  cases hfetched : s₀.entries.get? k with
  | none =>
    have hdead : b.liveAt m k = none := by
      unfold liveAt
      rcases hs₀.2 k with hsame | ⟨_, row, hrow, hexpired⟩
      · rw [← hsame, hfetched]
        rfl
      · rw [hrow, Option.filter_some, isLive_expired hexpired]
        rfl
    rw [hdead]
    exact ⟨s, rfl, hs⟩
  | some row =>
    have hrow : m.entries.get? k = some row := by
      rcases hs₀.2 k with hsame | ⟨hgone, _⟩
      · rw [← hsame, hfetched]
      · rw [hfetched] at hgone
        cases hgone
    obtain ⟨expired, hat, hrun⟩ := rowExpired_run (hread.timed _ (Dict.mem_entries.mpr hrow)) s
    have hat' : b.rowExpiredAt row m.clock = .ok expired := by
      rw [← hs.1]
      exact hat
    have hlive : b.liveAt m k = (if expired then none else if b.holds row then some (k, row) else none) := by
      unfold liveAt
      rw [hrow, Option.filter_some]
      cases expired with
      | true =>
        rw [isLive_expired hat']
        rfl
      | false =>
        rw [isLive_unexpired hat']
        cases b.holds row <;> rfl
    rw [hlive, Option.map_some]
    show ∃ s', (Script.run (do
      if !(← b.rowExpired row) then return if b.holds row then some (k, row) else none
      else if b.expiryGc = .lazyDelete then
        let _ ← collectRows [(k, row)]
        return none
      else return none : SqlScript (Option (SqlKey × SqlDbRow))) s) = _ ∧ _
    rw [Script.run_bind, bind_ok hrun]
    cases expired with
    | false => exact ⟨s, rfl, hs⟩
    | true =>
      by_cases hgc : b.expiryGc = .lazyDelete
      · refine ⟨{ s with entries := (SqlRows.deleteByKeys s.entries [k]).2 }, ?_, hs.1, fun j => ?_⟩
        · rw [Bool.not_true, if_neg Bool.false_ne_true, if_pos hgc]
          rfl
        · show (SqlRows.deleteByKeys s.entries [k]).2.get? j = _ ∨ (SqlRows.deleteByKeys s.entries [k]).2.get? j = none ∧ _
          rw [SqlRows.get?_deleteByKeys]
          by_cases hj : j = k
          · rw [if_pos (List.mem_singleton.mpr hj), hj]
            exact .inr ⟨rfl, row, hrow, hat'⟩
          · rw [if_neg fun hmem => hj (List.mem_singleton.mp hmem)]
            exact hs.2 j
      · refine ⟨s, ?_, hs⟩
        rw [Bool.not_true, if_neg Bool.false_ne_true, if_neg hgc]
        rfl

variable [DecidableEq K] {place : K → SqlKey}

/-- What is read of one key is put with the rest. -/
def addContent (b : SqlDbKvBackend K V) (place : K → SqlKey) (m : Medium SqlKey SqlDbRow) (out : Dict K V) (key : K) :
    Dict K V :=
  match b.content place m key with
  | some v => out.set key v
  | none => out

omit [DecidableEq K] in
theorem content_of_liveAt (hread : b.Readable m) {key : K} {row : SqlKey × SqlDbRow}
    (h : b.liveAt m (place key) = some row) : ∃ v, b.readRow row = .ok v ∧ b.content place m key = some v := by
  obtain ⟨_, hrow, hlive⟩ := liveAt_eq_some.mp h
  obtain ⟨v, hv⟩ := hread.values row hrow hlive
  refine ⟨v, hv, ?_⟩
  unfold content
  rw [h, Option.bind_some, hv]
  rfl

theorem find?_fetchByKeys (t : SqlRows) {keys : List SqlKey} {k : SqlKey} (hk : k ∈ keys) :
    ((SqlRows.fetchByKeys t keys).find? fun e => decide (e.1 = k)) = (t.get? k).map fun row => (k, row) := by
  unfold SqlRows.fetchByKeys
  induction keys with
  | nil => cases hk
  | cons j keys ih =>
    by_cases hj : k = j
    · rw [← hj]
      cases hget : t.get? k with
      | none =>
        rw [List.filterMap_cons_none (by rw [hget]; rfl), Option.map_none]
        refine List.find?_eq_none.mpr fun e he => ?_
        obtain ⟨i, -, heq⟩ := List.mem_filterMap.mp he
        obtain ⟨row, hrow, rfl⟩ := Option.map_eq_some_iff.mp heq
        rw [decide_eq_true_eq]
        rintro rfl
        rw [hget] at hrow
        cases hrow
      | some row =>
        rw [List.filterMap_cons_some (b := (k, row)) (by rw [hget]; rfl)]
        exact List.find?_cons_of_pos (decide_eq_true rfl)
    · have hmem := (List.mem_cons.mp hk).resolve_left hj
      cases hget : t.get? j with
      | none =>
        rw [List.filterMap_cons_none (by rw [hget]; rfl)]
        exact ih hmem
      | some row =>
        rw [List.filterMap_cons_some (b := (j, row)) (by rw [hget]; rfl), List.find?_cons_of_neg]
        · exact ih hmem
        · rw [decide_eq_true_eq]
          exact fun heq => hj heq.symm

/-- What a live row of the chunk adds. -/
def addLive {α : Type} (f : α → K → SqlKey × SqlDbRow → Except Exn α) (found : List (SqlKey × SqlDbRow)) (out : α)
    (x : K × SqlKey) : SqlScript α := do
  match ← b.liveRow (found.find? fun e => e.1 = x.2) with
  | some row => .done (f out x.1 row)
  | none => return out

theorem liveChunk_run (hread : b.Readable m) (hplace : ∀ key, b.fullKeyRow key = .ok (place key)) (out : Dict K V)
    (chunk : List K) {s : Medium SqlKey SqlDbRow} (hs : b.Kept m s) :
    ∃ s', (b.liveChunk (fun out key row => do return out.set key (← b.readRow row)) out chunk).run s =
      (.ok (chunk.foldl (b.addContent place m) out), s') ∧ b.Kept m s' := by
  have hrows : chunk.mapM b.fullKeyRow = .ok (chunk.map place) := exceptMapM_ok fun key _ => hplace key
  have hloop : ∀ (keys : List K) (out : Dict K V) (s' : Medium SqlKey SqlDbRow), (∀ key ∈ keys, key ∈ chunk) →
      b.Kept m s' → ∃ s'', (Script.run ((keys.zip (keys.map place)).foldlM
        (b.addLive (fun out key row => do return Dict.set out key (← b.readRow row))
          (SqlRows.fetchByKeys s.entries (chunk.map place))) out : SqlScript (Dict K V)) s') =
        (.ok (keys.foldl (b.addContent place m) out), s'') ∧ b.Kept m s'' := by
    intro keys
    induction keys with
    | nil => exact fun out s' _ hs' => ⟨s', rfl, hs'⟩
    | cons key keys ih =>
      intro out s' hin hs'
      have hfound := find?_fetchByKeys s.entries
        (List.mem_map_of_mem (f := place) (hin key List.mem_cons_self))
      obtain ⟨s₁, hrun, hs₁⟩ := liveRow_run hread hs hs' (place key)
      rw [← hfound] at hrun
      obtain ⟨s₂, hrest, hs₂⟩ := ih (b.addContent place m out key) s₁ (fun k hk => hin k (List.mem_cons_of_mem _ hk)) hs₁
      refine ⟨s₂, ?_, hs₂⟩
      rw [List.map_cons, List.zip_cons_cons, List.foldlM_cons, Script.run_bind]
      have hstep : (Script.run (b.addLive (fun out key row => do return Dict.set out key (← b.readRow row))
          (SqlRows.fetchByKeys s.entries (chunk.map place)) out (key, place key))) s' =
            (.ok (b.addContent place m out key), s₁) := by
        unfold addLive
        rw [Script.run_bind, bind_ok hrun]
        unfold addContent
        cases hlive : b.liveAt m (place key) with
        | none =>
          have hnone : b.content place m key = none := by
            unfold content
            rw [hlive]
            rfl
          rw [hnone]
          rfl
        | some row =>
          obtain ⟨v, hv, hcontent⟩ := content_of_liveAt hread hlive
          rw [hcontent]
          dsimp only
          rw [hv]
          rfl
      rw [List.foldl_cons, ← hrest]
      exact bind_ok hstep
  obtain ⟨s', hrun, hs'⟩ := hloop chunk out s (fun _ h => h) hs
  refine ⟨s', ?_, hs'⟩
  unfold liveChunk
  rw [hrows]
  exact hrun

theorem get?_foldl_addContent (keys : List K) (out : Dict K V) (key : K) :
    (keys.foldl (b.addContent place m) out).get? key =
      if key ∈ keys then (b.content place m key).or (out.get? key) else out.get? key := by
  induction keys generalizing out with
  | nil => rfl
  | cons k keys ih =>
    have hadd : (b.addContent place m out k).get? key =
        if key = k then (b.content place m key).or (out.get? key) else out.get? key := by
      unfold addContent
      by_cases hk : key = k
      · rw [if_pos hk, hk]
        cases b.content place m k with
        | none => rfl
        | some v => rw [Dict.get?_set, if_pos rfl]; rfl
      · rw [if_neg hk]
        cases b.content place m k with
        | none => rfl
        | some v => rw [Dict.get?_set, if_neg hk]
    rw [List.foldl_cons, ih, hadd]
    by_cases hk : key = k
    · rw [if_pos hk, if_pos (List.mem_cons.mpr (.inl hk))]
      split
      · cases b.content place m key <;> rfl
      · rfl
    · rw [if_neg hk]
      by_cases hmem : key ∈ keys
      · rw [if_pos hmem, if_pos (List.mem_cons_of_mem _ hmem)]
      · rw [if_neg hmem, if_neg fun h => hmem ((List.mem_cons.mp h).resolve_left hk)]

/-- From a state that keeps the live rows, `batch_get` answers with what they hold, and keeps them. -/
theorem batchGet_steady (hread : b.Readable m) (hplace : ∀ key, b.fullKeyRow key = .ok (place key))
    (hbatch : 1 ≤ b.batchSize) : Steady (b.Kept m) (b.content place m) fun keys => (b.batchGet keys).run := by
  intro keys s hs
  have hchunks : chunkSequence keys b.batchSize = .ok (keys.toChunks b.batchSize) := by
    unfold chunkSequence
    rw [if_neg (by omega)]
  have hloop : ∀ (chunks : List (List K)) (out : Dict K V) (s : Medium SqlKey SqlDbRow), b.Kept m s →
      ∃ s', (Script.run (chunks.foldlM (b.liveChunk fun out key row => do return Dict.set out key (← b.readRow row)) out) s) =
        (.ok (chunks.flatten.foldl (b.addContent place m) out), s') ∧ b.Kept m s' := by
    intro chunks
    induction chunks with
    | nil => exact fun out s hs => ⟨s, rfl, hs⟩
    | cons chunk chunks ih =>
      intro out s hs
      obtain ⟨s₁, hrun, hs₁⟩ := liveChunk_run hread hplace out chunk hs
      obtain ⟨s₂, hrest, hs₂⟩ := ih (chunk.foldl (b.addContent place m) out) s₁ hs₁
      refine ⟨s₂, ?_, hs₂⟩
      rw [List.foldlM_cons, Script.run_bind, bind_ok hrun, hrest, List.flatten_cons, List.foldl_append]
  obtain ⟨s', hrun, hs'⟩ := hloop (keys.toChunks b.batchSize) Dict.empty s hs
  rw [flatten_toChunks] at hrun
  refine ⟨keys.foldl (b.addContent place m) Dict.empty, s', ?_, hs', fun key hkey => ?_⟩
  · dsimp only
    unfold batchGet liveBatch
    rw [hchunks]
    exact hrun
  · rw [get?_foldl_addContent, if_pos hkey]
    cases b.content place m key <;> rfl

end SqlDbKvBackend

end Kvtsjl
