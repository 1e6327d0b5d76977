import Kvtsjl.SqlExpiry

/-
  A table several views share, used through a view that does not own its rows.
  `SqlRows.Frame` is what such a view may do: rows are neither made nor removed, and only the
  columns it declares change. `shared_rows_kept` says every run keeps to it whose reads and
  collections meet no row they would remove for being expired. `shared_row_removed` is one that does.
-/

namespace Kvtsjl

open Assoc (Dict)
open Effects Medium

/-! ## Frames -/

namespace SqlRows

/-- The same rows, and the same values outside `columns`. -/
structure Frame (columns : List String) (t t' : SqlRows) : Prop where
  rows : ∀ k, (t'.get? k).isSome = (t.get? k).isSome
  cells : ∀ k row row', t.get? k = some row → t'.get? k = some row' →
    ∀ c, c ∉ columns → row' c = row c

variable {columns : List String} {t t' t'' : SqlRows}

theorem Frame.refl (columns : List String) (t : SqlRows) : Frame columns t t where
  rows _ := rfl
  cells k row row' h h' c _ := by
    obtain rfl := Option.some.inj (h.symm.trans h')
    rfl

theorem Frame.trans (h : Frame columns t t') (h' : Frame columns t' t'') : Frame columns t t'' where
  rows k := (h'.rows k).trans (h.rows k)
  cells k row row'' hr hr'' c hc := by
    have hsome : (t'.get? k).isSome := by rw [h.rows, hr]; rfl
    obtain ⟨row', hr'⟩ := Option.isSome_iff_exists.mp hsome
    rw [h'.cells k row' row'' hr' hr'' c hc, h.cells k row row' hr hr' c hc]

theorem Frame.mono {more : List String} (h : Frame columns t t') (hc : columns ⊆ more) :
    Frame more t t' :=
  ⟨h.rows, fun k row row' hr hr' c hn => h.cells k row row' hr hr' c fun hm => hn (hc hm)⟩

/-- A row that is there, with new values in `columns`. -/
theorem frame_set {k : SqlKey} {row : SqlDbRow} (h : t.get? k = some row) (values : SqlDbRow) :
    Frame columns t (t.set k (assign columns values row)) where
  rows j := by
    rw [Dict.get?_set]
    split
    · next hj => rw [hj, h]; rfl
    · rfl
  cells j row₁ row₂ h₁ h₂ c hc := by
    rw [Dict.get?_set] at h₂
    split at h₂
    · next hj =>
      rw [hj, h] at h₁
      cases h₁
      cases h₂
      unfold assign
      rw [if_neg hc]
    · obtain rfl := Option.some.inj (h₁.symm.trans h₂)
      rfl

/-- A loop each of whose rounds keeps a frame keeps it. -/
theorem foldl_frame {γ σ : Type} {step : σ → γ → σ} (table : σ → SqlRows)
    (hstep : ∀ s x, Frame columns (table s) (table (step s x))) (xs : List γ) (s : σ) :
    Frame columns (table s) (table (xs.foldl step s)) := by
  induction xs generalizing s with
  | nil => exact Frame.refl columns _
  | cons x xs ih => exact (hstep s x).trans (ih (step s x))

theorem updateRows_frame (t : SqlRows) (columns : List String) (rows : List (SqlKey × SqlDbRow)) :
    Frame columns t (updateRows t columns rows).2 := by
  refine foldl_frame (fun s : List SqlKey × SqlRows => s.2) (fun s x => ?_) rows ([], t)
  dsimp only
  split
  · next row hrow => exact frame_set hrow x.2
  · exact Frame.refl columns s.2

theorem clearColumns_frame (t : SqlRows) (columns : List String) (keys : List SqlKey) :
    Frame columns t (clearColumns t columns keys).2 := by
  refine foldl_frame (fun s : List SqlKey × SqlRows => s.2) (fun s x => ?_) keys ([], t)
  dsimp only
  split
  · next row hrow =>
    split
    · exact frame_set hrow _
    · exact Frame.refl columns s.2
  · exact Frame.refl columns s.2

theorem replaceEachIf_frame (t : SqlRows) (columns : List String)
    (rows : List (Expected × SqlDbRow)) : Frame columns t (replaceEachIf t columns rows).2 := by
  refine foldl_frame (fun s : List (SqlKey × Bool) × SqlRows => s.2) (fun s x => ?_) rows ([], t)
  dsimp only
  split
  · next row hrow =>
    split
    · exact frame_set hrow x.2
    · exact Frame.refl columns s.2
  · exact Frame.refl columns s.2

end SqlRows

open SqlRows (Frame)

/-- The tables before and after keep a frame. -/
def Framed (columns : List String) (m m' : Medium SqlKey SqlDbRow) : Prop :=
  Frame columns m.entries m'.entries

instance (columns : List String) : Std.Refl (Framed columns) := ⟨fun _ => Frame.refl columns _⟩
instance (columns : List String) : IsTrans (Medium SqlKey SqlDbRow) (Framed columns) :=
  ⟨fun _ _ _ h h' => Frame.trans h h'⟩

/-! ## Scripts within a frame -/

/-- Whatever the answers, `t` keeps the frame. -/
def Within {α : Type} (columns : List String) (t : SqlScript α) : Prop :=
  ∀ m, t.Upholds (Framed columns) (fun _ => True) (fun _ _ => True) m

section Within

variable {columns : List String} {α β γ : Type}

theorem Within.pure (a : α) : Within columns (Pure.pure a : SqlScript α) := fun _ => trivial

theorem Within.ofExcept (r : Except Exn α) : Within columns (.done r : SqlScript α) :=
  fun _ => Script.Upholds.ofExcept fun _ _ => trivial

theorem Within.bind {t : SqlScript α} {f : α → SqlScript β} (h : Within columns t)
    (hf : ∀ a, Within columns (f a)) : Within columns (t >>= f) :=
  fun m => (h m).bind fun a m' _ _ => hf a m'

theorem Within.foldlM {f : β → γ → SqlScript β} (hf : ∀ acc x, Within columns (f acc x))
    (xs : List γ) (acc : β) : Within columns (xs.foldlM f acc) :=
  fun _ => Script.Upholds.foldlM (I := fun _ _ => True) (fun acc x _ s _ => hf acc x s) trivial

theorem Within.time : Within columns (time : SqlScript Instant) := fun _ =>
  Script.Upholds.one fun m _ => ⟨m.clock, m, rfl, Std.Refl.refl m, trivial, trivial⟩

theorem Within.fetch (f : SqlRows → List (SqlKey × SqlDbRow)) :
    Within columns (fetch f : SqlScript _) := fun _ =>
  Script.Upholds.one fun m _ => ⟨f m.entries, m, rfl, Std.Refl.refl m, trivial, trivial⟩

theorem Within.ask (f : SqlRows → α) : Within columns (ask f : SqlScript α) := fun _ =>
  Script.Upholds.one fun m _ => ⟨f m.entries, m, rfl, Std.Refl.refl m, trivial, trivial⟩

theorem Within.change {f : SqlRows → α × SqlRows} {note : α → List (Deed SqlKey SqlDbRow)}
    (h : ∀ t, Frame columns t (f t).2) : Within columns (change f note : SqlScript α) := fun _ =>
  Script.Upholds.one fun m _ => ⟨(f m.entries).1, _, rfl, h m.entries, trivial, trivial⟩

/-- Alone, the script keeps the frame. -/
theorem Within.moves {t : SqlScript α} (h : Within columns t) :
    Prog.Moves (Framed columns) t.run := fun m => (h m).run.1

/-- What comes after `t` need only keep the frame for what `t` returns here. -/
theorem Within.thenAt {m : Medium SqlKey SqlDbRow} {t : SqlScript α} {f : α → SqlScript β}
    (h : Within columns t) (hf : ∀ a, (t.run m).1 = .ok a → Within columns (f a)) :
    Framed columns m ((t >>= f).run m).2 := by
  have hm := h.moves m
  rw [Script.run_bind, Prog.bind_apply]
  rcases ht : t.run m with ⟨e | a, m'⟩ <;> rw [ht] at hm
  · exact hm
  · exact IsTrans.trans _ _ _ hm ((hf a (by rw [ht])).moves m')

/-- Throwing the result away changes nothing. -/
theorem drop_run (t : SqlScript α) (m : Medium SqlKey SqlDbRow) :
    ((do let _ ← t; return () : SqlScript Unit).run m).2 = (t.run m).2 := by
  rw [Script.run_bind, Prog.bind_apply]
  rcases t.run m with ⟨e | a, m'⟩ <;> rfl

end Within

namespace SqlDbKvBackend

variable {K V : Type} (b : SqlDbKvBackend K V)

/-- The clock columns of a row. -/
def clockColumns : List String := [b.sqlKvset.updatedAtField, b.sqlKvset.expiresAtField]

theorem setColumns_subset :
    b.sqlKvset.setColumns ⊆ b.sqlKvset.ownColumns ++ b.clockColumns := by
  have hfold : ∀ (cols names : List String) (c : String),
      c ∈ cols.foldl (fun names col => if col ∈ names then names else names ++ [col]) names →
        c ∈ names ∨ c ∈ cols := by
    intro cols
    induction cols with
    | nil => exact fun names c h => .inl h
    | cons col cols ih =>
      intro names c h
      rcases ih _ c h with h | h
      · dsimp only at h
        split at h
        · exact .inl h
        · rcases List.mem_append.mp h with h | h
          · exact .inl h
          · exact .inr (by simp [List.mem_singleton.mp h])
      · exact .inr (by simp [h])
  intro c hc
  obtain ⟨hw, hkey⟩ := List.mem_filter.mp hc
  have hkey : c ∉ b.sqlKvset.keyFields := of_decide_eq_true hkey
  rcases hfold _ _ c hw with h | h
  · obtain ⟨f, hf, rfl⟩ := List.mem_map.mp h
    obtain ⟨hmem, hro⟩ := List.mem_filter.mp hf
    refine List.mem_append_left _ (List.mem_map.mpr ⟨f, List.mem_filter.mpr ⟨hmem, ?_⟩, rfl⟩)
    rw [hro, Bool.true_and]
    exact decide_eq_true hkey
  · rcases List.mem_append.mp h with h | h
    · exact absurd h hkey
    · exact List.mem_append_right _ h

variable {columns : List String}

/-! ### Reads that collect nothing -/

theorem rowExpired_within (row : SqlDbRow) : Within columns (b.rowExpired row) :=
  Within.time.bind fun _ => Within.ofExcept _

theorem clockBase_within (createdAt : Option Instant) : Within columns (clockBase createdAt) := by
  cases createdAt with
  | some t => exact Within.pure t
  | none => exact Within.time

theorem batchReadVersioned_within [DecidableEq K] (keys : List K) :
    Within columns (b.batchReadVersioned keys) := by
  refine (Within.ofExcept _).bind fun chunks => Within.foldlM (fun out chunk => ?_) _ _
  refine (Within.ofExcept _).bind fun keyRows => (Within.fetch _).bind fun found => ?_
  refine Within.foldlM (fun out key => Within.bind ?_ fun _ => Within.pure _) _ _
  cases found.find? fun e => e.1 = key.2 with
  | none => exact Within.pure _
  | some row =>
    refine (b.rowExpired_within row.2).bind fun expired => ?_
    exact (Within.ofExcept _).bind fun _ => Within.pure _

theorem expiredRows_within (checked : Bool) (now : Option Instant) (limit : Int) :
    Within columns (b.expiredRows checked now limit) := by
  unfold expiredRows
  split
  · exact Within.ofExcept _
  · refine Within.bind ?_ fun _ => (clockBase_within now).bind fun epoch =>
      (Within.ofExcept _).bind fun exact => ?_
    · unfold ensureEarlyBindingSafe
      dsimp only
      split
      · exact Within.pure _
      · refine (Within.ofExcept _).bind fun exact => (Within.ask _).bind fun found => ?_
        split
        · exact Within.ofExcept _
        · exact Within.pure _
    · split
      · exact Within.fetch _
      · refine (Within.fetch _).bind fun rows => ?_
        exact (Within.ofExcept _).bind fun _ => Within.pure _

theorem drawRow_within (collect includeValues : Bool) (limit draws : Option Nat) (d : Drawn K V)
    (row : SqlKey × SqlDbRow) :
    Within columns (b.drawRow collect includeValues limit draws d row) := by
  unfold drawRow
  split
  · exact Within.pure _
  · refine (b.rowExpired_within row.2).bind fun expired => ?_
    split
    · exact Within.pure _
    · split
      · exact Within.pure _
      · split
        · exact Within.pure _
        · exact (Within.ofExcept _).bind fun _ => Within.pure _

theorem keysetRows_within (exact : Dict String Cell) (prefixes : Dict String String)
    (pageSize : Nat) (includeValues : Bool) (limit draws : Option Nat) (pages : Nat)
    (after : Option SqlKey) (d : Drawn K V) :
    Within columns (b.keysetRows exact prefixes pageSize includeValues limit draws pages after d) := by
  induction pages generalizing after d with
  | zero => exact Within.pure _
  | succ pages ih =>
    unfold keysetRows
    refine (Within.fetch _).bind fun page => ?_
    split
    · exact Within.pure _
    · refine (Within.foldlM (fun d row => b.drawRow_within _ _ _ _ d row) _ _).bind fun d => ?_
      split
      · exact Within.pure _
      · split
        · exact Within.ofExcept _
        · split
          · exact Within.pure _
          · exact ih _ d

theorem draw_within (spec : SqlScan K) (draws : Option Nat) (pages : Nat) :
    Within columns (b.draw spec draws pages) := by
  unfold draw
  split
  · exact Within.ofExcept _
  · split
    · split
      · refine (Within.ofExcept _).bind fun after => ?_
        split
        · exact Within.pure _
        · unfold iterKeysetRows
          split
          · exact Within.ofExcept _
          · exact (Within.ofExcept _).bind fun exact =>
              b.keysetRows_within _ _ _ _ _ _ pages after _
      · split
        · exact Within.pure _
        · refine (Within.ofExcept _).bind fun exact => (Within.fetch _).bind fun rows => ?_
          exact Within.foldlM (fun d row => b.drawRow_within _ _ _ _ d row) _ _
    · refine (Within.ofExcept _).bind fun orderBy => ?_
      split
      · exact Within.pure _
      · refine Within.time.bind fun now => (Within.ofExcept _).bind fun exact =>
          (Within.fetch _).bind fun rows => ?_
        exact Within.foldlM (fun d row => b.drawRow_within _ _ _ _ d row) _ _

/-! ### Writes and removals through a view that does not own its rows -/

section NotOwner

variable {b} (hshares : b.sqlKvset.sharesTable = true) (howns : b.sqlKvset.ownsRows = false)

/-- What a write may change: the view's own columns and the clock. -/
def writtenColumns (b : SqlDbKvBackend K V) : List String :=
  b.sqlKvset.ownColumns ++ b.clockColumns

include hshares howns

theorem writeRows_within (rows : List (SqlKey × SqlDbRow)) :
    Within b.writtenColumns (b.writeRows rows) := by
  unfold writeRows
  dsimp only
  rw [if_pos (by rw [hshares, howns]; rfl)]
  split
  · exact Within.ofExcept _
  · refine (Within.change fun t => ?_).bind fun _ => Within.pure _
    exact (SqlRows.updateRows_frame t _ rows).mono b.setColumns_subset

omit hshares howns in
theorem buildWriteRow_within (key : K) (value : V) (ttl : Option TtlPolicy)
    (createdAt : Option Instant) : Within columns (b.buildWriteRow key value ttl createdAt) := by
  refine (Within.ofExcept _).bind fun keyRow => (clockBase_within createdAt).bind fun base =>
    Within.bind ?_ fun _ => Within.pure _
  unfold expiresAtColumn
  split
  · exact (clockBase_within createdAt).bind fun _ => Within.pure _
  · exact Within.pure _

theorem set_within (key : K) (value : V) (options : WriteOptions) :
    Within b.writtenColumns (b.set key value options) :=
  (buildWriteRow_within _ _ _ _).bind fun _ =>
    (writeRows_within hshares howns _).bind fun _ => Within.pure _

theorem batchSet_within [DecidableEq K] (items : Dict K V) (options : WriteOptions) :
    Within b.writtenColumns (b.batchSet items options) := by
  refine (Within.ofExcept _).bind fun chunks => Within.foldlM (fun _ chunk => ?_) _ _
  refine Within.bind (Within.foldlM (fun rows item => ?_) _ _) fun rows => ?_
  · exact (buildWriteRow_within _ _ _ _).bind fun _ => Within.pure _
  · exact (writeRows_within hshares howns _).bind fun _ => Within.pure _

/-- The view creates no row, so a batch with an insert is refused; what it removes are its
    own columns. -/
theorem batchWriteIfUnchanged_within [DecidableEq K] (writes : Dict K (ConditionalWrite V))
    (ttl : Option TtlPolicy) : Within b.writtenColumns (b.batchWriteIfUnchanged writes ttl) := by
  have hcreates : b.createsEntries = false := by unfold createsEntries; rw [howns, hshares]; rfl
  have hdeletes : b.sqlKvset.deletesRows = false := by
    unfold SqlDbKvSet.deletesRows
    rw [howns, hshares]
    rfl
  unfold batchWriteIfUnchanged
  split
  · exact Within.ofExcept _
  · next hrefusal =>
    have hinserts : inserts writes = [] := by
      cases h : inserts writes with
      | nil => rfl
      | cons first rest =>
        unfold refusal at hrefusal
        rw [h] at hrefusal
        dsimp only at hrefusal
        rw [hcreates] at hrefusal
        cases hrefusal
    refine Within.bind ?_ fun _ => Within.bind ?_ fun _ => Within.bind ?_ fun _ => Within.pure _
    · unfold insertAbsent
      rw [hinserts]
      exact Within.pure _
    · unfold removeUnchanged
      dsimp only
      split
      · exact Within.pure _
      · refine (Within.ofExcept _).bind fun expected => (Within.change fun t => ?_).bind fun _ =>
          Within.pure _
        rw [hdeletes]
        exact (SqlRows.replaceEachIf_frame t _ _).mono (List.subset_append_left _ _)
    · unfold replaceUnchanged
      dsimp only
      split
      · exact Within.pure _
      · refine (Within.ofExcept _).bind fun expected => Within.bind (Within.foldlM ?_ _ _) fun rows =>
          (Within.change fun t => ?_).bind fun _ => Within.pure _
        · intro rows e
          split
          · exact (buildWriteRow_within _ _ _ _).bind fun _ => Within.pure _
          · exact Within.pure _
        · exact (SqlRows.replaceEachIf_frame t _ _).mono b.setColumns_subset

omit hshares howns in
theorem clearOwnColumns_within (keys : List K) :
    Within b.sqlKvset.ownColumns (b.clearOwnColumns keys) := by
  unfold clearOwnColumns
  dsimp only
  split
  · exact Within.ofExcept _
  · split
    · exact Within.ofExcept _
    · refine (Within.ofExcept _).bind fun chunks => Within.foldlM (fun n chunk => ?_) _ _
      refine (Within.ofExcept _).bind fun keyRows => Within.bind ?_ fun _ => Within.pure _
      refine (Within.change fun t => ?_).bind fun _ => Within.pure _
      exact SqlRows.clearColumns_frame t _ keyRows

theorem batchDelete_within (keys : List K) :
    Within b.sqlKvset.ownColumns (b.batchDelete keys) := by
  unfold batchDelete SqlDbKvSet.deletesRows
  rw [howns, hshares]
  exact clearOwnColumns_within keys

omit howns in
theorem batchUnset_within (keys : List K) : Within b.sqlKvset.ownColumns (b.batchUnset keys) := by
  unfold batchUnset
  rw [hshares]
  exact clearOwnColumns_within keys

end NotOwner

/-! ### Reads that meet no expired row -/

/-- From `m` the script leaves `m` as it is, and returns what meets `Q`. -/
def Stays {α : Type} (m : Medium SqlKey SqlDbRow) (Q : α → Prop) (t : SqlScript α) : Prop :=
  t.Upholds (fun m m' => m = m') (fun _ => True) (fun a m' => m' = m ∧ Q a) m

section Stays

variable {α β γ : Type} {m : Medium SqlKey SqlDbRow}

theorem Stays.pure {a : α} {Q : α → Prop} (h : Q a) : Stays m Q (Pure.pure a) := ⟨rfl, h⟩

theorem Stays.ofExcept {r : Except Exn α} {Q : α → Prop} (h : ∀ a, r = .ok a → Q a) :
    Stays m Q (.done r) := Script.Upholds.ofExcept fun a ha => ⟨rfl, h a ha⟩

theorem Stays.bind {t : SqlScript α} {f : α → SqlScript β} {Q : α → Prop} {Q' : β → Prop}
    (h : Stays m Q t) (hf : ∀ a, Q a → Stays m Q' (f a)) : Stays m Q' (t >>= f) := by
  refine Script.Upholds.bind h fun a m' _ hm => ?_
  obtain ⟨rfl, ha⟩ := hm
  exact hf a ha

theorem Stays.foldlM {f : β → γ → SqlScript β} {xs : List γ} {Q : β → Prop}
    (hf : ∀ acc, ∀ x ∈ xs, Q acc → Stays m Q (f acc x)) {acc : β} (h : Q acc) : Stays m Q (xs.foldlM f acc) := by
  refine Script.Upholds.foldlM (I := fun acc m' => m' = m ∧ Q acc) (fun acc x hx m' hm => ?_) ⟨rfl, h⟩
  obtain ⟨rfl, hacc⟩ := hm
  exact hf acc x hx hacc

theorem Stays.time : Stays m (· = m.clock) time := by
  refine Script.Upholds.one fun m' hm => ⟨m'.clock, m', rfl, rfl, trivial, hm.symm, ?_⟩
  rw [hm]

theorem Stays.fetch (f : SqlRows → List (SqlKey × SqlDbRow)) :
    Stays m (· = f m.entries) (fetch f) := by
  refine Script.Upholds.one fun m' hm => ⟨f m'.entries, m', rfl, rfl, trivial, hm.symm, ?_⟩
  rw [hm]

/-- Alone, the script leaves the table as it is. -/
theorem Stays.run {t : SqlScript α} {Q : α → Prop} (h : Stays m Q t) : (t.run m).2 = m :=
  (Script.Upholds.run h).1.symm

theorem Stays.answer {t : SqlScript α} {Q : α → Prop} (h : Stays m Q t) {a : α} (ha : (t.run m).1 = .ok a) : Q a :=
  ((Script.Upholds.run h).2 a ha).2

end Stays

/-- The row a read finds is not one it would collect: it is not past its time, or the view
    only hides those that are. -/
def Spared (m : Medium SqlKey SqlDbRow) (key : K) : Prop :=
  b.expiryGc = .lazyDelete → ∀ keyRow row, b.fullKeyRow key = .ok keyRow →
    m.entries.get? keyRow = some row → b.rowExpiredAt row m.clock ≠ .ok true

variable {m : Medium SqlKey SqlDbRow}

theorem rowExpired_stays (row : SqlDbRow) :
    Stays m (fun expired => expired = true → b.rowExpiredAt row m.clock = .ok true) (b.rowExpired row) := by
  refine Stays.time.bind fun now hnow => Stays.ofExcept fun expired hr he => ?_
  rw [hnow, he] at hr
  exact hr

theorem liveRow_stays {row : Option (SqlKey × SqlDbRow)}
    (h : b.expiryGc = .lazyDelete → ∀ r, row = some r → b.rowExpiredAt r.2 m.clock ≠ .ok true) :
    Stays m (fun _ => True) (b.liveRow row) := by
  cases row with
  | none => exact Stays.pure trivial
  | some row =>
    refine (b.rowExpired_stays row.2).bind fun expired he => ?_
    split
    · exact Stays.pure trivial
    · next hc =>
      split
      · next hgc => exact absurd (he (by simpa using hc)) (h hgc row rfl)
      · exact Stays.pure trivial

theorem liveOne_stays {α : Type} {key : K} (h : b.Spared m key)
    (f : Option (SqlKey × SqlDbRow) → Except Exn α) :
    Stays m (fun _ => True) (b.liveOne key f) := by
  refine (Stays.ofExcept (Q := fun keyRow => b.fullKeyRow key = .ok keyRow) fun _ => id).bind
    fun keyRow hkey => (Stays.fetch _).bind fun found hfound => ?_
  refine (b.liveRow_stays fun hgc r hr => ?_).bind fun row _ => Stays.ofExcept fun _ _ => trivial
  rw [hfound] at hr
  have hmem := List.mem_of_mem_head? hr
  refine h hgc keyRow r.2 hkey ?_
  rw [← List.mem_singleton.mp (SqlRows.fetchByKeys_asked m.entries _ r hmem)]
  exact SqlRows.fetchByKeys_held m.entries _ r hmem

theorem liveBatch_stays {α : Type} {keys : List K} (h : ∀ key ∈ keys, b.Spared m key)
    (f : α → K → SqlKey × SqlDbRow → Except Exn α) (out : α) :
    Stays m (fun _ => True) (b.liveBatch keys f out) := by
  refine (Stays.ofExcept (Q := fun chunks => chunkSequence keys b.batchSize = .ok chunks)
    fun _ => id).bind fun chunks hchunks => Stays.foldlM (fun out chunk hchunk _ => ?_) trivial
  refine (Stays.ofExcept (Q := fun keyRows => chunk.mapM b.fullKeyRow = .ok keyRows) fun _ => id).bind
    fun keyRows hkeys => (Stays.fetch _).bind fun found hfound =>
      Stays.foldlM (fun out pair hpair _ => ?_) trivial
  have hkey := zip_of_mapM hkeys hpair
  have hasked := mem_of_chunkSequence hchunks hchunk (List.of_mem_zip hpair).1
  refine (b.liveRow_stays fun hgc r hr => ?_).bind fun row _ => ?_
  · rw [hfound] at hr
    have hat : r.1 = pair.2 := by
      have hfound := List.find?_some hr
      exact of_decide_eq_true hfound
    refine h pair.1 hasked hgc pair.2 r.2 hkey ?_
    rw [← hat]
    exact SqlRows.fetchByKeys_held m.entries _ r (List.mem_of_find?_eq_some hr)
  · cases row with
    | none => exact Stays.pure trivial
    | some row => exact Stays.ofExcept fun _ _ => trivial

/-! ### What a scan or a collection meets -/

/-- The row is in the table, and past its time. -/
def Due (m : Medium SqlKey SqlDbRow) (row : SqlKey × SqlDbRow) : Prop :=
  m.entries.get? row.1 = some row.2 ∧ b.Expired row.2 m.clock

theorem drawRow_due (collect includeValues : Bool) (limit draws : Option Nat) {d : Drawn K V}
    {row : SqlKey × SqlDbRow} (hrow : m.entries.get? row.1 = some row.2) (h : ∀ e ∈ d.expired, b.Due m e) :
    Stays m (fun d => ∀ e ∈ d.expired, b.Due m e) (b.drawRow collect includeValues limit draws d row) := by
  unfold drawRow
  split
  · exact Stays.pure h
  · refine (b.rowExpired_stays row.2).bind fun expired he => ?_
    split
    · next hexpired =>
      apply Stays.pure
      split
      · intro e hmem
        rcases List.mem_append.mp hmem with hmem | hmem
        · exact h e hmem
        · rw [List.mem_singleton.mp hmem]
          exact ⟨hrow, .inl (he hexpired)⟩
      · exact h
    · split
      · exact Stays.pure h
      · split
        · exact Stays.pure h
        · exact (Stays.ofExcept (Q := fun _ => True) fun _ _ => trivial).bind fun _ _ => Stays.pure h

theorem drawRows_due (collect includeValues : Bool) (limit draws : Option Nat) {rows : List (SqlKey × SqlDbRow)}
    (hrows : ∀ row ∈ rows, m.entries.get? row.1 = some row.2) {d : Drawn K V} (h : ∀ e ∈ d.expired, b.Due m e) :
    Stays m (fun d => ∀ e ∈ d.expired, b.Due m e) (rows.foldlM (b.drawRow collect includeValues limit draws) d) :=
  Stays.foldlM (fun _ row hrow hd => b.drawRow_due collect includeValues limit draws (hrows row hrow) hd) h

/-- By induction on the pages waited for. -/
theorem keysetRows_due (exact : Dict String Cell) (prefixes : Dict String String) (pageSize : Nat)
    (includeValues : Bool) (limit draws : Option Nat) (pages : Nat) (after : Option SqlKey) {d : Drawn K V}
    (h : ∀ e ∈ d.expired, b.Due m e) : Stays m (fun d => ∀ e ∈ d.expired, b.Due m e)
      (b.keysetRows exact prefixes pageSize includeValues limit draws pages after d) := by
  induction pages generalizing after d with
  | zero => exact Stays.pure h
  | succ pages ih =>
    unfold keysetRows
    refine (Stays.fetch _).bind fun page hpage => ?_
    have hheld : ∀ row ∈ page, m.entries.get? row.1 = some row.2 := by
      rw [hpage]
      exact SqlRows.scanPageByKeyParts_held m.entries _ _ _ _ _
    split
    · exact Stays.pure h
    · refine (b.drawRows_due b.collects includeValues limit draws hheld h).bind fun d hd => ?_
      split
      · exact Stays.pure hd
      · split
        · exact Stays.ofExcept fun _ hraised => by cases hraised
        · split
          · exact Stays.pure hd
          · exact ih _ hd

/-- The rows a scan holds to be deleted are past their time. -/
theorem draw_due (spec : SqlScan K) (draws : Option Nat) (pages : Nat) :
    Stays m (fun d => ∀ e ∈ d.expired, b.Due m e) (b.draw spec draws pages) := by
  have hnone : ∀ state, ∀ e ∈ (⟨[], [], state⟩ : Drawn K V).expired, b.Due m e := fun _ e he => by cases he
  have hraises : ∀ e, Stays m (fun d : Drawn K V => ∀ e ∈ d.expired, b.Due m e) (.done (.error e)) :=
    fun _ => Stays.ofExcept fun _ hraised => by cases hraised
  have hdone : ∀ {α : Type} (r : Except Exn α), Stays m (fun _ => True) (.done r : SqlScript α) :=
    fun _ => Stays.ofExcept fun _ _ => trivial
  unfold draw
  split
  · exact hraises _
  · split
    · split
      · refine (hdone _).bind fun after _ => ?_
        split
        · exact Stays.pure (hnone _)
        · unfold iterKeysetRows
          split
          · exact hraises _
          · exact (hdone _).bind fun _ _ => b.keysetRows_due _ _ _ _ _ _ pages after (hnone _)
      · split
        · exact Stays.pure (hnone _)
        · refine (hdone _).bind fun _ _ => (Stays.fetch _).bind fun rows hrows => ?_
          refine b.drawRows_due _ _ _ _ (fun row hrow => ?_) (hnone _)
          exact SqlRows.scanByKeyParts_held m.entries _ _ _ row (hrows ▸ hrow)
    · refine (hdone _).bind fun orderBy _ => ?_
      split
      · exact Stays.pure (hnone _)
      · refine Stays.time.bind fun now _ => (hdone _).bind fun _ _ => (Stays.fetch _).bind fun rows hrows => ?_
        refine b.drawRows_due _ _ _ _ (fun row hrow => ?_) (hnone _)
        exact SqlRows.scanOrdered_held m.entries _ _ _ _ _ _ row (hrows ▸ hrow)

/-- The rows a collection finds are past their time. -/
theorem expiredRows_due (checked : Bool) (limit : Int) :
    Stays m (fun rows => ∀ e ∈ rows, b.Due m e) (b.expiredRows checked none limit) := by
  have hdone : ∀ {α : Type} (r : Except Exn α), Stays m (fun _ => True) (.done r : SqlScript α) :=
    fun _ => Stays.ofExcept fun _ _ => trivial
  have hguard : Stays m (fun _ => True) (b.ensureEarlyBindingSafe checked) := by
    unfold ensureEarlyBindingSafe
    dsimp only
    split
    · exact Stays.pure trivial
    · refine (hdone _).bind fun _ _ => Stays.bind (Q := fun _ => True) ?_ fun unsafeRows _ => ?_
      · exact Script.Upholds.one fun m' hm => ⟨_, m', rfl, rfl, trivial, hm.symm, trivial⟩
      · split
        · exact hdone _
        · exact Stays.pure trivial
  unfold expiredRows
  split
  · exact Stays.ofExcept fun _ hraised => by cases hraised
  · refine hguard.bind fun _ _ => Stays.time.bind fun epoch hepoch => (hdone _).bind fun exact _ => ?_
    subst hepoch
    split
    · refine Script.Upholds.weaken (Stays.fetch _) fun rows m' hm => ⟨hm.1, fun e he => ?_⟩
      rw [hm.2] at he
      obtain ⟨hmem, death, hd, hle⟩ := SqlRows.mem_scanExpired he
      exact ⟨SqlRows.get?_of_mem hmem, .inr ⟨death, hd, hle⟩⟩
    · refine (Stays.fetch _).bind fun rows hrows => ?_
      refine Stays.bind (Q := fun scored => b.scoreExpired m.clock rows = .ok scored) (Stays.ofExcept fun _ => id)
        fun scored hscored => Stays.pure fun e he => ?_
      obtain ⟨hlisted, hexpired⟩ := b.mem_scoreExpired hscored e (List.mem_of_mem_take he)
      rw [hrows] at hlisted
      exact ⟨SqlRows.scanByKeyParts_held m.entries _ _ _ e hlisted, hexpired⟩

/-! ### The view as a map -/

/-- The view's operations with nobody else about. -/
def keyMap [DecidableEq K] : KeyMap (Medium SqlKey SqlDbRow) K V where
  get key := (b.get key).run
  batchGet keys := (b.batchGet keys).run
  existsKey key := (b.existsKey key).run
  batchExists keys := (b.batchExists keys).run
  stat key := (b.stat key).run
  batchStat keys := (b.batchStat keys).run
  batchReadVersioned keys := (b.batchReadVersioned keys).run
  batchWriteIfUnchanged writes ttl := (b.batchWriteIfUnchanged writes ttl).run
  set key value options := (b.set key value options).run
  batchSet items options := (b.batchSet items options).run
  delete key := (b.delete key).run
  batchDelete keys := (b.batchDelete keys).run
  unset key := (b.unset key).run
  batchUnset keys := (b.batchUnset keys).run
  createsEntries := b.createsEntries

end SqlDbKvBackend

/-! ## Runs -/

/-- What is asked of a view, one thing after another. -/
inductive SqlOperation (K V : Type) where
  | ask (q : SqlRequest K V)
  | update (key : K) (decide : Option V → Decision V) (options : WriteOptions) (attempts : Int)
  | batchUpdate (keys : List K) (decide : Dict K (Option V) → Dict K (Decision V))
      (options : WriteOptions) (attempts : Int)
  | getOrSet (key : K) (computeValue : Unit → V)
  | setIfAbsent (key : K) (value : V) (options : WriteOptions)
  /-- Time passes before the next operation. -/
  | wait (t : Nat)

namespace SqlOperation

variable {K V : Type} [DecidableEq K] (b : SqlDbKvBackend K V)

/-- The table after the operation, whether it returned or raised. -/
def after (m : Medium SqlKey SqlDbRow) : SqlOperation K V → Medium SqlKey SqlDbRow
  | ask q => ((q.script b).run m).2
  | update key decide options attempts => (b.keyMap.update key decide options attempts m).2
  | batchUpdate keys decide options attempts =>
    (b.keyMap.batchUpdate keys decide options attempts m).2
  | getOrSet key computeValue => (b.keyMap.getOrSet key computeValue m).2
  | setIfAbsent key value options => (b.keyMap.setIfAbsent key value options m).2
  | wait t => m.wait t

def run (ops : List (SqlOperation K V)) (m : Medium SqlKey SqlDbRow) : Medium SqlKey SqlDbRow :=
  ops.foldl (fun m op => op.after b m) m

/-- The columns the operation is there to change: none for a read or a collection, the view's
    own for a removal, and the row's clock besides for a write. -/
def columns : SqlOperation K V → List String
  | ask (.set ..) => b.writtenColumns
  | ask (.batchSet ..) => b.writtenColumns
  | ask (.batchWriteIfUnchanged ..) => b.writtenColumns
  | ask (.delete ..) => b.sqlKvset.ownColumns
  | ask (.batchDelete ..) => b.sqlKvset.ownColumns
  | ask (.unset ..) => b.sqlKvset.ownColumns
  | ask (.batchUnset ..) => b.sqlKvset.ownColumns
  | update .. => b.writtenColumns
  | batchUpdate .. => b.writtenColumns
  | getOrSet .. => b.writtenColumns
  | setIfAbsent .. => b.writtenColumns
  | _ => []

/-- The operation meets no row it would remove for being expired: no row a lazily collecting
    read asks for is, the generator of a scan meets none or is closed before it ends, and
    a collection finds none. -/
def Spares (m : Medium SqlKey SqlDbRow) : SqlOperation K V → Prop
  | ask (.get key) => b.Spared m key
  | ask (.existsKey key) => b.Spared m key
  | ask (.stat key) => b.Spared m key
  | ask (.batchGet keys) => ∀ key ∈ keys, b.Spared m key
  | ask (.batchExists keys) => ∀ key ∈ keys, b.Spared m key
  | ask (.batchStat keys) => ∀ key ∈ keys, b.Spared m key
  | ask (.scan spec draws pages) => ∀ d, ((b.draw spec draws pages).run m).1 = .ok d →
      d.expired = [] ∨ d.state = .closed
  | ask (.gcExpiredKeys checked maxEntries) => ∀ rows,
      ((b.expiredRows checked none maxEntries).run m).1 = .ok rows → rows = []
  | getOrSet key _ => b.Spared m key
  | _ => True

omit [DecidableEq K] in
/-- Every operation is such over a table no row of which is past its time. -/
theorem spares_of_alive {m : Medium SqlKey SqlDbRow}
    (halive : ∀ keyRow row, m.entries.get? keyRow = some row → ¬ b.Expired row m.clock) (op : SqlOperation K V) :
    op.Spares b m := by
  have hkey : ∀ key, b.Spared m key := fun key _ keyRow row _ hrow hexpired => halive keyRow row hrow (.inl hexpired)
  have hnone : ∀ {rows : List (SqlKey × SqlDbRow)}, (∀ e ∈ rows, b.Due m e) → rows = [] := fun hdue =>
    List.eq_nil_iff_forall_not_mem.mpr fun e he => halive e.1 e.2 (hdue e he).1 (hdue e he).2
  cases op with
  | ask q =>
    cases q with
    | get key => exact hkey key
    | existsKey key => exact hkey key
    | stat key => exact hkey key
    | batchGet keys => exact fun key _ => hkey key
    | batchExists keys => exact fun key _ => hkey key
    | batchStat keys => exact fun key _ => hkey key
    | scan spec draws pages => exact fun d hd => .inl (hnone ((b.draw_due spec draws pages).answer hd))
    | gcExpiredKeys checked maxEntries =>
      exact fun rows hrows => hnone ((b.expiredRows_due checked maxEntries).answer hrows)
    | _ => trivial
  | getOrSet key computeValue => exact hkey key
  | _ => trivial

variable {b} (hshares : b.sqlKvset.sharesTable = true) (howns : b.sqlKvset.ownsRows = false)

include hshares howns

theorem ask_framed {m : Medium SqlKey SqlDbRow} {q : SqlRequest K V}
    (h : (ask q).Spares b m) : Framed ((ask q).columns b) m ((ask q).after b m) := by
  have dropped : ∀ {columns : List String} {α : Type} {t : SqlScript α},
      Framed columns m (t.run m).2 →
      Framed columns m ((do let _ ← t; return () : SqlScript Unit).run m).2 := by
    intro columns α t ht
    rw [drop_run]
    exact ht
  have within : ∀ {columns : List String} {α : Type} {t : SqlScript α}, Within columns t →
      Framed columns m ((do let _ ← t; return () : SqlScript Unit).run m).2 :=
    fun ht => dropped (ht.moves m)
  have stays : ∀ {columns : List String} {α : Type} {t : SqlScript α},
      SqlDbKvBackend.Stays m (fun _ => True) t →
      Framed columns m ((do let _ ← t; return () : SqlScript Unit).run m).2 := by
    intro columns α t ht
    refine dropped ?_
    rw [ht.run]
    exact Std.Refl.refl m
  cases q with
  | get key => exact stays (b.liveOne_stays h _)
  | existsKey key => exact stays (b.liveOne_stays h _)
  | stat key => exact stays (b.liveOne_stays h _)
  | batchGet keys => exact stays (b.liveBatch_stays h _ _)
  | batchExists keys => exact stays (b.liveBatch_stays h _ _)
  | batchStat keys => exact stays (b.liveBatch_stays h _ _)
  | batchReadVersioned keys => exact within (b.batchReadVersioned_within keys)
  | scan spec draws pages =>
    refine dropped ((b.draw_within spec draws pages).thenAt fun d hd => ?_)
    unfold SqlDbKvBackend.finishRows
    rw [if_pos]
    · exact Within.pure _
    · rcases h d hd with hnone | hclosed
      · rw [hnone]; simp
      · rw [hclosed]; rfl
  | expiredKeys checked now limit =>
    exact within ((b.expiredRows_within checked now limit).bind fun _ => Within.pure _)
  | gcExpiredKeys checked maxEntries =>
    refine dropped ((b.expiredRows_within checked none maxEntries).thenAt fun rows hrows => ?_)
    rw [h rows hrows]
    exact Within.pure _
  | set key value options => exact (SqlDbKvBackend.set_within hshares howns key value options).moves m
  | batchSet items options => exact (SqlDbKvBackend.batchSet_within hshares howns items options).moves m
  | batchWriteIfUnchanged writes ttl =>
    exact within (SqlDbKvBackend.batchWriteIfUnchanged_within hshares howns writes ttl)
  | delete key =>
    exact within ((SqlDbKvBackend.batchDelete_within hshares howns [key]).bind fun _ => Within.pure _)
  | batchDelete keys => exact within (SqlDbKvBackend.batchDelete_within hshares howns keys)
  | unset key =>
    exact within ((SqlDbKvBackend.batchUnset_within hshares [key]).bind fun _ => Within.pure _)
  | batchUnset keys => exact within (SqlDbKvBackend.batchUnset_within hshares keys)

omit [DecidableEq K] hshares howns in
theorem columns_subset (op : SqlOperation K V) : op.columns b ⊆ b.writtenColumns := by
  have hown : b.sqlKvset.ownColumns ⊆ b.writtenColumns := List.subset_append_left _ _
  cases op with
  | ask q => cases q <;> first | exact List.Subset.refl _ | exact hown | exact List.nil_subset _
  | wait t => exact List.nil_subset _
  | _ => exact List.Subset.refl _

/-- One operation. -/
theorem after_framed {m : Medium SqlKey SqlDbRow} {op : SqlOperation K V} (h : op.Spares b m) :
    Framed (op.columns b) m (op.after b m) := by
  have hread : ∀ keys, Prog.Moves (Framed b.writtenColumns) (b.keyMap.batchReadVersioned keys) :=
    fun keys => (b.batchReadVersioned_within keys).moves
  have hwrite : ∀ writes ttl, Prog.Moves (Framed b.writtenColumns)
      (b.keyMap.batchWriteIfUnchanged writes ttl) :=
    fun writes ttl => (SqlDbKvBackend.batchWriteIfUnchanged_within hshares howns writes ttl).moves
  have hbatch := b.keyMap.moves_batchUpdate hread hwrite
  have hupdate : ∀ key decide options attempts, Prog.Moves (Framed b.writtenColumns)
      (b.keyMap.update key decide options attempts) :=
    fun key decide options attempts => Prog.Moves.bind (hbatch _ _ options attempts) fun _ =>
      Prog.Moves.pure _
  cases op with
  | ask q => exact ask_framed hshares howns h
  | update key decide options attempts => exact hupdate key decide options attempts m
  | batchUpdate keys decide options attempts => exact hbatch keys decide options attempts m
  | getOrSet key computeValue =>
    have hget : (b.keyMap.get key m).2 = m := (b.liveOne_stays h _).run
    show Framed b.writtenColumns m (b.keyMap.getOrSet key computeValue m).2
    unfold KeyMap.getOrSet
    rw [Prog.bind_apply]
    rcases hfound : b.keyMap.get key m with ⟨e | found, m'⟩ <;> rw [hfound] at hget <;>
      dsimp only at hget <;> subst hget
    · exact Std.Refl.refl _
    · cases found with
      | some value => exact Std.Refl.refl _
      | none =>
        refine Prog.Moves.bind (hupdate key _ _ 8) (fun stored => ?_) m'
        split
        · exact Prog.Moves.pure _
        · exact Prog.Moves.raise _
        · exact Prog.Moves.pure _
  | setIfAbsent key value options =>
    exact Prog.Moves.bind (hwrite _ options.ttl) (fun _ => Prog.Moves.pure _) m
  | wait t => exact Frame.refl [] m.entries

end SqlOperation

/-- Through a view that shares its table and does not own its rows, in every run whose operations
    meet no row they would remove for being expired, every operation makes and removes no row
    and changes only the columns it is there to change; and so does the whole run. -/
theorem shared_rows_kept {K V : Type} [DecidableEq K] (b : SqlDbKvBackend K V)
    (hshares : b.sqlKvset.sharesTable = true) (howns : b.sqlKvset.ownsRows = false)
    (m : Medium SqlKey SqlDbRow) (ops : List (SqlOperation K V))
    (hspares : Guarded (fun done op => op.Spares b (SqlOperation.run b done m)) ops) :
    Guarded (fun done op => Framed (op.columns b) (SqlOperation.run b done m)
      (SqlOperation.run b (done ++ [op]) m)) ops ∧
    Framed b.writtenColumns m (SqlOperation.run b ops m) := by
  have hstep : Guarded (fun done op => Framed (op.columns b) (SqlOperation.run b done m)
      (SqlOperation.run b (done ++ [op]) m)) ops := by
    intro done op rest hops
    have hop := SqlOperation.after_framed hshares howns (hspares done op rest hops)
    unfold SqlOperation.run at hop ⊢
    rw [List.foldl_append]
    exact hop
  refine ⟨hstep, ?_⟩
  clear hspares
  induction ops using List.reverseRecOn with
  | nil => exact Std.Refl.refl m
  | append_singleton ops op ih =>
    have hops : Framed b.writtenColumns m (SqlOperation.run b ops m) := by
      refine ih fun done x rest h => hstep done x (rest ++ [op]) ?_
      rw [h]
      simp
    exact Frame.trans hops (Frame.mono (hstep ops op [] rfl) (SqlOperation.columns_subset op))

/-! ## A shared table with one row past its time -/

/-- The reviews kept beside the prices of the table `quotes`, whose rows the prices own. -/
def reviews : SqlDbKvBackend String String where
  sqlKvset := .keyed "quotes" "review" true
  adapter := ⟨"SqliteSqlDbClientAdapter", true, true, true, true, true, true, true, true⟩
  expiryGc := .lazyDelete
  batchSize := 500
  ttlPolicy := ⟨none⟩
  keyLayout := .literal
  scope := Dict.empty
  leafKeyRow key := .ok [.text key]
  decodeLeafKey
    | [.text key] => some key
    | _ => none
  leafPrefixMap
    | none => Dict.empty
    | some pre => Dict.single "k" pre
  decodeCursor := .ok
  serialize value column := if column = "review" then some (.text value) else none
  deserialize _ row := match row "review" with
    | some (.text value) => .ok value
    | _ => .error (.serDeError "no value")
  parseTimestamp text := .error (.valueError text)
  reprKey key := "'" ++ key ++ "'"

def agedQuote : Medium SqlKey SqlDbRow :=
  ⟨Dict.single [.text "a"] fun column =>
    if column = "price" then some (.number 3) else if column = "expires_at" then some (.number 5)
    else none, 10⟩

/-- Setting the review gives the row a new life, and the read then removes nothing. -/
def setThenGet : List (SqlOperation String String) :=
  [.ask (.set "a" "new" WriteOptions.none), .ask (.get "a")]

theorem shared_rows_kept_setThenGet :
    Guarded (fun done op => Framed (op.columns reviews) (SqlOperation.run reviews done agedQuote)
      (SqlOperation.run reviews (done ++ [op]) agedQuote)) setThenGet ∧
    Framed reviews.writtenColumns agedQuote (SqlOperation.run reviews setThenGet agedQuote) := by
  have hset : (SqlOperation.ask (.set "a" "new" WriteOptions.none)).Spares reviews
      (SqlOperation.run reviews [] agedQuote) := trivial
  have hget : (SqlOperation.ask (.get "a")).Spares reviews
      (SqlOperation.run reviews [.ask (.set "a" "new" WriteOptions.none)] agedQuote) := by
    intro _ keyRow row hkey hrow hexp
    cases hkey
    cases hrow
    cases hexp
  exact shared_rows_kept reviews rfl rfl agedQuote setThenGet
    ((guarded_nil.concat hset).concat hget)

/-- A read through the view removes the row, and the price with it. -/
theorem shared_row_removed : ¬ ∀ (b : SqlDbKvBackend String String),
    b.sqlKvset.sharesTable = true → b.sqlKvset.ownsRows = false →
    ∀ (m : Medium SqlKey SqlDbRow) (ops : List (SqlOperation String String)),
      Framed b.writtenColumns m (SqlOperation.run b ops m) := by
  intro h
  have hrows := (h reviews rfl rfl agedQuote [.ask (.get "a")]).rows [.text "a"]
  cases hrows

end Kvtsjl
