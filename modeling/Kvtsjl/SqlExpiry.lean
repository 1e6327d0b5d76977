import Kvtsjl.SqlStore

/-
  What the operations of `SqlDbKvStore` do to a table other clients use at the same time.
  Each of them accounts for what it does, and collects no row but one whose time was up
  when it looked. `SqlRequest` is what a client may ask.
-/

namespace Kvtsjl

open Assoc (Dict)
open Effects Medium

namespace SqlDbKvBackend

variable {K V : Type} (b : SqlDbKvBackend K V)

/-- When the database takes a row to die. -/
def foundDeath (row : SqlDbRow) : Option Instant :=
  SqlRows.deathTime b.sqlKvset (b.relativeTtlForExpiryScan.map (· * 1000000)) row

/-- The row is past its time, to the view or to the database that looks for it. -/
def Expired (row : SqlDbRow) (now : Instant) : Prop :=
  b.rowExpiredAt row now = .ok true ∨ ∃ death, b.foundDeath row = some death ∧ death ≤ now

theorem rowExpiredAt_iff {row : SqlDbRow} {now : Instant} :
    b.rowExpiredAt row now = .ok true ↔ ∃ death, b.deathTime row = .ok (some death) ∧ death ≤ now := by
  unfold rowExpiredAt
  cases b.deathTime row with
  | error e => simp [Except.map]
  | ok death => cases death <;> simp [Except.map]

theorem expired_mono (row : SqlDbRow) (now later : Instant) (h : now ≤ later)
    (he : b.Expired row now) : b.Expired row later := by
  refine he.imp (fun hview => ?_) fun ⟨death, hd, hle⟩ => ⟨death, hd, Int.le_trans hle h⟩
  obtain ⟨death, hd, hle⟩ := b.rowExpiredAt_iff.mp hview
  exact b.rowExpiredAt_iff.mpr ⟨death, hd, Int.le_trans hle h⟩

/-- `t` accounts for what it does, by what is past its time. -/
abbrev Accounts {α : Type} (t : SqlScript α) (Q : α → Medium SqlKey SqlDbRow → Prop)
    (s : Medium SqlKey SqlDbRow) : Prop := Medium.Accounts b.Expired t Q s

variable {s : Medium SqlKey SqlDbRow}

/-! ## Reads -/

theorem collectRows_accounts {rows : List (SqlKey × SqlDbRow)}
    (h : ∀ e ∈ rows, b.Expired e.2 s.clock) : b.Accounts (collectRows rows) (fun _ _ => True) s := by
  apply Medium.change_upholds b.expired_mono
  · simp
  · intro d p e he
    obtain ⟨x, hx, hxe⟩ := List.mem_map.mp he
    obtain ⟨rfl, rfl⟩ := Deed.collected.inj hxe
    exact h x hx
  · intro d p _ _ hp
    refine SqlRows.deleteByKeys_other d fun hmem => ?_
    obtain ⟨x, hx, rfl⟩ := List.mem_map.mp hmem
    exact hp x.2 (List.mem_map.mpr ⟨x, hx, rfl⟩)

theorem fetchByKeys_accounts (keys : List SqlKey) :
    b.Accounts (fetchByKeys keys) (fun _ _ => True) s :=
  Accounts.weaken (Medium.fetch_upholds fun d => SqlRows.fetchByKeys_held d keys)

/-- What is judged expired is so from then on. -/
theorem rowExpired_accounts (row : SqlDbRow) :
    b.Accounts (b.rowExpired row) (fun expired m => expired = true → b.Expired row m.clock) s := by
  apply Accounts.bind Medium.time_upholds
  intro now s' _ hnow
  apply Script.Upholds.ofExcept
  intro expired hr he
  subst he
  exact b.expired_mono row now _ hnow (.inl hr)

theorem liveRow_accounts (row : Option (SqlKey × SqlDbRow)) :
    b.Accounts (b.liveRow row) (fun _ _ => True) s := by
  cases row with
  | none => exact Accounts.pure trivial
  | some row =>
    apply Accounts.bind (b.rowExpired_accounts row.2)
    intro expired s' _ hexp
    split
    · exact Accounts.pure trivial
    · next hc =>
      split
      · apply Accounts.bind (b.collectRows_accounts ?_)
        · exact fun _ _ _ _ => Accounts.pure trivial
        · intro e he
          rw [List.mem_singleton.mp he]
          exact hexp (by simpa using hc)
      · exact Accounts.pure trivial

theorem liveOne_accounts {α : Type} (key : K) (f : Option (SqlKey × SqlDbRow) → Except Exn α) :
    b.Accounts (b.liveOne key f) (fun _ _ => True) s := by
  apply Accounts.bind (Accounts.ofExcept _)
  intro keyRow s' _ _
  apply Accounts.bind (b.fetchByKeys_accounts _)
  intro found s' _ _
  apply Accounts.bind (b.liveRow_accounts _)
  exact fun row s' _ _ => Accounts.ofExcept _

theorem liveBatch_accounts {α : Type} (keys : List K)
    (f : α → K → SqlKey × SqlDbRow → Except Exn α) (out : α) :
    b.Accounts (b.liveBatch keys f out) (fun _ _ => True) s := by
  apply Accounts.bind (Accounts.ofExcept _)
  intro chunks s' _ _
  apply Accounts.foldlM
  intro out chunk s
  apply Accounts.bind (Accounts.ofExcept _)
  intro keyRows s' _ _
  apply Accounts.bind (b.fetchByKeys_accounts _)
  intro found s' _ _
  apply Accounts.foldlM
  intro out key s
  apply Accounts.bind (b.liveRow_accounts _)
  intro row s' _ _
  cases row with
  | none => exact Accounts.pure trivial
  | some row => exact Accounts.ofExcept _

/-! ## Writes -/

/-- A call that writes accounts for the keys it says it wrote. -/
theorem write_accounts {α : Type} {f : SqlRows → α × SqlRows} (keys : α → List SqlKey)
    (h : ∀ t k, k ∉ keys (f t).1 → (f t).2.get? k = t.get? k) :
    b.Accounts (Medium.change f fun a => (keys a).map Deed.wrote) (fun _ _ => True) s := by
  apply Medium.change_upholds b.expired_mono
  · simp
  · simp
  · intro d p hp _ _
    exact h d p fun hk => hp (List.mem_map_of_mem hk)

/-- A call that deletes accounts for the keys it says it deleted. -/
theorem delete_accounts {α : Type} {f : SqlRows → α × SqlRows} (keys : α → List SqlKey)
    (h : ∀ t k, k ∉ keys (f t).1 → (f t).2.get? k = t.get? k) :
    b.Accounts (Medium.change f fun a => (keys a).map Deed.deleted) (fun _ _ => True) s := by
  apply Medium.change_upholds b.expired_mono
  · simp
  · simp
  · intro d p _ hp _
    exact h d p fun hk => hp (List.mem_map_of_mem hk)

theorem clockBase_accounts (createdAt : Option Instant) :
    b.Accounts (clockBase createdAt) (fun _ _ => True) s := by
  cases createdAt with
  | some t => exact Accounts.pure trivial
  | none => exact Accounts.weaken Medium.time_upholds

theorem buildWriteRow_accounts (key : K) (value : V) (ttl : Option TtlPolicy)
    (createdAt : Option Instant) :
    b.Accounts (b.buildWriteRow key value ttl createdAt) (fun _ _ => True) s := by
  apply Accounts.bind (Accounts.ofExcept _)
  intro keyRow s' _ _
  apply Accounts.bind (b.clockBase_accounts _)
  intro base s' _ _
  refine Accounts.bind (Q := fun _ _ => True) ?_ fun _ _ _ _ => Accounts.pure trivial
  unfold expiresAtColumn
  split
  · apply Accounts.bind (b.clockBase_accounts _)
    exact fun _ _ _ _ => Accounts.pure trivial
  · exact Accounts.pure trivial

theorem writeRows_accounts (rows : List (SqlKey × SqlDbRow)) :
    b.Accounts (b.writeRows rows) (fun _ _ => True) s := by
  unfold writeRows
  dsimp only
  split
  · split
    · exact Accounts.ofExcept _
    · apply Accounts.bind (b.write_accounts id ?_)
      · exact fun _ _ _ _ => Accounts.pure trivial
      · exact fun t k => SqlRows.updateRows_other t _ rows
  · split
    · exact Accounts.ofExcept _
    · refine Accounts.bind (Q := fun _ _ => True) ?_ fun _ _ _ _ => Accounts.pure trivial
      have hw := b.write_accounts (s := s) (fun _ : Unit => rows.map (·.1))
        (f := fun t => ((), SqlRows.upsertRows t b.sqlKvset.setColumns rows))
        fun t k hk => SqlRows.upsertRows_other t _ hk
      simp only [List.map_map] at hw
      exact hw

theorem set_accounts (key : K) (value : V) (options : WriteOptions) :
    b.Accounts (b.set key value options) (fun _ _ => True) s := by
  apply Accounts.bind (b.buildWriteRow_accounts ..)
  intro row s' _ _
  apply Accounts.bind (b.writeRows_accounts _)
  exact fun _ _ _ _ => Accounts.pure trivial

theorem batchSet_accounts [DecidableEq K] (items : Dict K V) (options : WriteOptions) :
    b.Accounts (b.batchSet items options) (fun _ _ => True) s := by
  apply Accounts.bind (Accounts.ofExcept _)
  intro chunks s' _ _
  apply Accounts.foldlM
  intro _ chunk s
  refine Accounts.bind (Q := fun _ _ => True) (Accounts.foldlM (fun rows item s => ?_) _ _) ?_
  · apply Accounts.bind (b.buildWriteRow_accounts ..)
    exact fun _ _ _ _ => Accounts.pure trivial
  · intro rows s' _ _
    apply Accounts.bind (b.writeRows_accounts _)
    exact fun _ _ _ _ => Accounts.pure trivial

theorem versionedRow_accounts (row : Option (SqlKey × SqlDbRow)) :
    b.Accounts (b.versionedRow row) (fun _ _ => True) s := by
  cases row with
  | none => exact Accounts.pure trivial
  | some row =>
    apply Accounts.bind (b.rowExpired_accounts row.2)
    intro expired s' _ _
    apply Accounts.bind (Accounts.ofExcept _)
    exact fun _ _ _ _ => Accounts.pure trivial

theorem batchReadVersioned_accounts [DecidableEq K] (keys : List K) :
    b.Accounts (b.batchReadVersioned keys) (fun _ _ => True) s := by
  apply Accounts.bind (Accounts.ofExcept _)
  intro chunks s' _ _
  apply Accounts.foldlM
  intro out chunk s
  apply Accounts.bind (Accounts.ofExcept _)
  intro keyRows s' _ _
  apply Accounts.bind (b.fetchByKeys_accounts _)
  intro found s' _ _
  apply Accounts.foldlM
  intro out key s
  apply Accounts.bind (b.versionedRow_accounts _)
  exact fun _ _ _ _ => Accounts.pure trivial

section Conditional

variable [DecidableEq K]

omit [DecidableEq K] in
theorem writeRowsOf_accounts (ttl : Option TtlPolicy) (puts : List (K × ConditionalWrite V)) :
    b.Accounts (b.writeRowsOf ttl puts) (fun _ _ => True) s := by
  apply Accounts.foldlM
  intro rows e s
  split
  · apply Accounts.bind (b.buildWriteRow_accounts ..)
    exact fun _ _ _ _ => Accounts.pure trivial
  · exact Accounts.pure trivial

theorem insertAbsent_accounts (writes : Dict K (ConditionalWrite V)) (ttl : Option TtlPolicy) :
    b.Accounts (b.insertAbsent writes ttl) (fun _ _ => True) s := by
  unfold insertAbsent
  dsimp only
  split
  · exact Accounts.pure trivial
  · split
    · exact Accounts.ofExcept _
    · apply Accounts.bind (b.writeRowsOf_accounts ttl _)
      intro rows s' _ _
      apply Accounts.bind (b.write_accounts SqlRows.flagged ?_)
      · exact fun _ _ _ _ => Accounts.pure trivial
      · exact fun t k => SqlRows.insertEachIfAbsent_other t _ rows

theorem removeUnchanged_accounts (writes : Dict K (ConditionalWrite V)) :
    b.Accounts (b.removeUnchanged writes) (fun _ _ => True) s := by
  unfold removeUnchanged
  dsimp only
  split
  · exact Accounts.pure trivial
  · apply Accounts.bind (Accounts.ofExcept _)
    intro expected s' _ _
    apply Accounts.bind (b.delete_accounts SqlRows.flagged ?_)
    · exact fun _ _ _ _ => Accounts.pure trivial
    · intro t k hk
      split at hk
      · next hd => rw [if_pos hd]; exact SqlRows.deleteEachIf_other t _ hk
      · next hd => rw [if_neg hd]; exact SqlRows.replaceEachIf_other t _ _ hk

theorem replaceUnchanged_accounts (writes : Dict K (ConditionalWrite V)) (ttl : Option TtlPolicy) :
    b.Accounts (b.replaceUnchanged writes ttl) (fun _ _ => True) s := by
  unfold replaceUnchanged
  dsimp only
  split
  · exact Accounts.pure trivial
  · apply Accounts.bind (Accounts.ofExcept _)
    intro expected s' _ _
    apply Accounts.bind (b.writeRowsOf_accounts ttl _)
    intro rows s' _ _
    apply Accounts.bind (b.write_accounts SqlRows.flagged ?_)
    · exact fun _ _ _ _ => Accounts.pure trivial
    · exact fun t k => SqlRows.replaceEachIf_other t _ _

theorem batchWriteIfUnchanged_accounts (writes : Dict K (ConditionalWrite V))
    (ttl : Option TtlPolicy) : b.Accounts (b.batchWriteIfUnchanged writes ttl) (fun _ _ => True) s := by
  unfold batchWriteIfUnchanged
  split
  · exact Accounts.ofExcept _
  · apply Accounts.bind (b.insertAbsent_accounts ..)
    intro inserted s' _ _
    apply Accounts.bind (b.removeUnchanged_accounts ..)
    intro removed s' _ _
    apply Accounts.bind (b.replaceUnchanged_accounts ..)
    exact fun _ _ _ _ => Accounts.pure trivial

end Conditional

/-! ## Removals and collection -/

theorem sumChunks_accounts (keys : List K) {step : List SqlKey → SqlScript Nat}
    (h : ∀ keyRows s, b.Accounts (step keyRows) (fun _ _ => True) s) :
    b.Accounts (b.sumChunks keys step) (fun _ _ => True) s := by
  apply Accounts.bind (Accounts.ofExcept _)
  intro chunks s' _ _
  apply Accounts.foldlM
  intro n chunk s
  apply Accounts.bind (Accounts.ofExcept _)
  intro keyRows s' _ _
  apply Accounts.bind (h keyRows s')
  exact fun _ _ _ _ => Accounts.pure trivial

theorem deleteRows_accounts (keys : List K) :
    b.Accounts (b.deleteRows keys) (fun _ _ => True) s := by
  apply b.sumChunks_accounts
  intro keyRows s
  apply b.delete_accounts (fun _ => keyRows)
  exact fun t k => SqlRows.deleteByKeys_other t

theorem clearOwnColumns_accounts (keys : List K) :
    b.Accounts (b.clearOwnColumns keys) (fun _ _ => True) s := by
  unfold clearOwnColumns
  dsimp only
  split
  · exact Accounts.ofExcept _
  · split
    · exact Accounts.ofExcept _
    · apply b.sumChunks_accounts
      intro keyRows s
      apply Accounts.bind (b.delete_accounts id ?_)
      · exact fun _ _ _ _ => Accounts.pure trivial
      · exact fun t k => SqlRows.clearColumns_other t _ keyRows

theorem batchDelete_accounts (keys : List K) :
    b.Accounts (b.batchDelete keys) (fun _ _ => True) s := by
  unfold batchDelete
  split
  · exact b.deleteRows_accounts keys
  · exact b.clearOwnColumns_accounts keys

theorem batchUnset_accounts (keys : List K) :
    b.Accounts (b.batchUnset keys) (fun _ _ => True) s := by
  unfold batchUnset
  split
  · exact b.deleteRows_accounts keys
  · exact b.clearOwnColumns_accounts keys

theorem deleteOne_accounts (key : K) : b.Accounts (b.delete key) (fun _ _ => True) s :=
  (b.batchDelete_accounts [key]).bind fun _ _ _ _ => Accounts.pure trivial

theorem unsetOne_accounts (key : K) : b.Accounts (b.unset key) (fun _ _ => True) s :=
  (b.batchUnset_accounts [key]).bind fun _ _ _ _ => Accounts.pure trivial

theorem ensureEarlyBindingSafe_accounts (checked : Bool) :
    b.Accounts (b.ensureEarlyBindingSafe checked) (fun _ _ => True) s := by
  unfold ensureEarlyBindingSafe
  dsimp only
  split
  · exact Accounts.pure trivial
  · apply Accounts.bind (Accounts.ofExcept _)
    intro exact s' _ _
    apply Accounts.bind Medium.ask_upholds
    intro found s' _ _
    split
    · exact Accounts.ofExcept _
    · exact Accounts.pure trivial

/-- What a loop that does not raise keeps. -/
theorem foldlM_ok {α γ ε : Type} {f : α → γ → Except ε α} {I : α → Prop}
    {xs : List γ} (hf : ∀ acc x out, x ∈ xs → I acc → f acc x = .ok out → I out) {acc out : α} (h : I acc)
    (hr : xs.foldlM f acc = .ok out) : I out := by
  induction xs generalizing acc with
  | nil =>
    cases hr
    exact h
  | cons x xs ih =>
    rw [List.foldlM_cons] at hr
    cases hx : f acc x with
    | error e => rw [hx] at hr; cases hr
    | ok next =>
      rw [hx] at hr
      exact ih (fun acc y out hy => hf acc y out (List.mem_cons_of_mem _ hy)) (hf acc x next List.mem_cons_self h hx) hr

theorem mem_scoreExpired {now : Instant} {rows scored : List (SqlKey × SqlDbRow)}
    (h : b.scoreExpired now rows = .ok scored) : ∀ e ∈ scored, e ∈ rows ∧ b.Expired e.2 now := by
  unfold scoreExpired at h
  cases hfound : rows.foldlM (b.scoreRow now) [] with
  | error e => rw [hfound] at h; cases h
  | ok found =>
    rw [hfound] at h
    cases h
    have hall : ∀ x ∈ found, x.2 ∈ rows ∧ b.Expired x.2.2 now := by
      refine foldlM_ok (f := b.scoreRow now) (I := fun scored => ∀ x ∈ scored, x.2 ∈ rows ∧ b.Expired x.2.2 now)
        (fun acc row out hrow hacc hout => ?_) (by simp) hfound
      unfold scoreRow at hout
      cases hd : b.deathTime row.2 with
      | error e => rw [hd] at hout; cases hout
      | ok death =>
        rw [hd] at hout
        cases death with
        | none => cases hout; exact hacc
        | some death =>
          cases hout
          intro x hx
          split at hx
          · next hle =>
            rcases List.mem_append.mp hx with hx | hx
            · exact hacc x hx
            · rw [List.mem_singleton.mp hx]
              exact ⟨hrow, .inl (b.rowExpiredAt_iff.mpr ⟨death, hd, hle⟩)⟩
          · exact hacc x hx
    intro e he
    obtain ⟨x, hx, rfl⟩ := List.mem_map.mp he
    exact hall x (List.mem_mergeSort.mp hx)

/-- The rows collection finds are past their time at the instant it goes by. -/
theorem expiredRows_accounts (checked : Bool) (now : Option Instant) (limit : Int) :
    b.Accounts (b.expiredRows checked now limit)
      (fun rows m => ∃ epoch, (now = none → epoch ≤ m.clock) ∧ ∀ e ∈ rows, b.Expired e.2 epoch)
      s := by
  unfold expiredRows
  split
  · trivial
  · apply Accounts.bind (b.ensureEarlyBindingSafe_accounts checked)
    intro _ s' _ _
    apply Accounts.bind (Q := fun epoch m => now = none → epoch ≤ m.clock)
    · cases now with
      | some t => exact Accounts.pure fun h => by cases h
      | none => exact Script.Upholds.weaken Medium.time_upholds fun _ _ h _ => h
    intro epoch s1 _ hepoch
    apply Accounts.bind (Script.Upholds.after (Accounts.ofExcept _))
    intro exact s2 _ hs2
    have hlater : ∀ {m : Medium SqlKey SqlDbRow}, s2.Later m → now = none → epoch ≤ m.clock :=
      fun hm hnow => Int.le_trans (hepoch hnow) (Int.le_trans hs2.1 hm)
    split
    · refine Script.Upholds.weaken (Script.Upholds.after (Medium.fetch_upholds fun d e he => ?_)) ?_
      · exact SqlRows.get?_of_mem (SqlRows.mem_scanExpired he).1
      · intro rows m hm
        obtain ⟨hm, d, rfl⟩ := hm
        refine ⟨epoch, hlater hm, fun e he => ?_⟩
        obtain ⟨-, death, hd, hle⟩ := SqlRows.mem_scanExpired he
        exact .inr ⟨death, hd, hle⟩
    · apply Accounts.bind (Script.Upholds.after (Medium.fetch_upholds ?_))
      · intro rows s3 _ hs3
        apply Accounts.bind (Q := fun scored m => s3.Later m ∧ b.scoreExpired epoch rows = .ok scored)
          (Script.Upholds.ofExcept fun scored hscored => ⟨Std.Refl.refl s3, hscored⟩)
        intro scored s4 _ hs4
        refine Accounts.pure ⟨epoch, fun hnow => ?_, fun e he => ?_⟩
        · exact Int.le_trans (hlater hs3.1 hnow) hs4.1
        · exact (b.mem_scoreExpired hs4.2 e (List.mem_of_mem_take he)).2
      · exact fun d e he => SqlRows.scanByKeyParts_held d _ _ _ e he

theorem expiredKeys_accounts (checked : Bool) (now : Option Instant) (limit : Int) :
    b.Accounts (b.expiredKeys checked now limit) (fun _ _ => True) s := by
  apply Accounts.bind (b.expiredRows_accounts ..)
  exact fun _ _ _ _ => Accounts.pure trivial

theorem gcExpiredKeys_accounts (checked : Bool) (maxEntries : Int) :
    b.Accounts (b.gcExpiredKeys checked maxEntries) (fun _ _ => True) s := by
  apply Accounts.bind (b.expiredRows_accounts ..)
  intro rows s' _ hrows
  obtain ⟨epoch, hepoch, hexp⟩ := hrows
  split
  · exact Accounts.pure trivial
  · apply Accounts.bind (b.collectRows_accounts fun e he => ?_)
    · exact fun _ _ _ _ => Accounts.pure trivial
    · exact b.expired_mono e.2 _ _ (hepoch rfl) (hexp e he)

/-! ## Scans -/

/-- The rows a generator holds to be deleted were past their time when it met them. -/
def Drawn.Due (d : Drawn K V) (m : Medium SqlKey SqlDbRow) : Prop :=
  ∀ e ∈ d.expired, b.Expired e.2 m.clock

theorem Drawn.Due.later {d : Drawn K V} {m m' : Medium SqlKey SqlDbRow} (h : Drawn.Due b d m)
    (hm : m.Later m') : Drawn.Due b d m' :=
  fun e he => b.expired_mono e.2 _ _ hm (h e he)

theorem drawRow_accounts (collect includeValues : Bool) (limit draws : Option Nat) (d : Drawn K V)
    (row : SqlKey × SqlDbRow) (h : Drawn.Due b d s) :
    b.Accounts (b.drawRow collect includeValues limit draws d row) (Drawn.Due b) s := by
  unfold drawRow
  split
  · exact Accounts.pure h
  · apply Accounts.bind (b.rowExpired_accounts row.2)
    intro expired s' hs hexp
    have h' := h.later b hs
    split
    · next he =>
      apply Accounts.pure
      split
      · intro e hmem
        rcases List.mem_append.mp hmem with hmem | hmem
        · exact h' e hmem
        · rw [List.mem_singleton.mp hmem]
          exact hexp he
      · exact h'
    · split
      · exact Accounts.pure h'
      · split
        · exact Accounts.pure h'
        · apply Accounts.bind (Script.Upholds.after (Accounts.ofExcept _))
          exact fun _ _ _ hs => Accounts.pure (h'.later b hs.1)

theorem drawRows_accounts (collect includeValues : Bool) (limit draws : Option Nat)
    (rows : List (SqlKey × SqlDbRow)) (d : Drawn K V) (h : Drawn.Due b d s) :
    b.Accounts (rows.foldlM (b.drawRow collect includeValues limit draws) d) (Drawn.Due b) s :=
  Script.Upholds.foldlM (fun d row _ _ hd => b.drawRow_accounts collect includeValues limit draws d
    row hd) h

/-- By induction on the pages waited for. What is to be deleted stays due between pages. -/
theorem keysetRows_accounts (exact : Dict String Cell) (prefixes : Dict String String)
    (pageSize : Nat) (includeValues : Bool) (limit draws : Option Nat) (pages : Nat)
    (after : Option SqlKey) (d : Drawn K V) (h : Drawn.Due b d s) :
    b.Accounts (b.keysetRows exact prefixes pageSize includeValues limit draws pages after d)
      (Drawn.Due b) s := by
  induction pages generalizing after d s with
  | zero => exact Accounts.pure h
  | succ pages ih =>
    unfold keysetRows
    apply Accounts.bind (Medium.fetch_upholds ?_)
    · intro page s' hs _
      have h' := h.later b hs
      split
      · exact Accounts.pure h'
      · apply Accounts.bind (b.drawRows_accounts _ _ _ _ page d h')
        intro d s' _ hd
        split
        · exact Accounts.pure hd
        · split
          · trivial
          · split
            · exact Accounts.pure hd
            · exact ih _ d hd
    · exact fun t e he => SqlRows.scanPageByKeyParts_held t _ _ _ _ _ e he

theorem draw_accounts (spec : SqlScan K) (draws : Option Nat) (pages : Nat) :
    b.Accounts (b.draw spec draws pages) (Drawn.Due b) s := by
  have hnone : ∀ {state : Draw} {m : Medium SqlKey SqlDbRow},
      Drawn.Due b (⟨[], [], state⟩ : Drawn K V) m := fun e he => by cases he
  unfold draw
  split
  · trivial
  · split
    · split
      · apply Accounts.bind (Accounts.ofExcept _)
        intro after s' _ _
        split
        · exact Accounts.pure hnone
        · unfold iterKeysetRows
          split
          · trivial
          · apply Accounts.bind (Accounts.ofExcept _)
            exact fun _ _ _ _ => b.keysetRows_accounts _ _ _ _ _ _ pages after _ hnone
      · split
        · exact Accounts.pure hnone
        · apply Accounts.bind (Accounts.ofExcept _)
          intro exact s' _ _
          apply Accounts.bind (Medium.fetch_upholds ?_)
          · exact fun rows _ _ _ => b.drawRows_accounts _ _ _ _ rows _ hnone
          · exact fun t e he => SqlRows.scanByKeyParts_held t _ _ _ e he
    · apply Accounts.bind (Accounts.ofExcept _)
      intro orderBy s' _ _
      split
      · exact Accounts.pure hnone
      · apply Accounts.bind Medium.time_upholds
        intro now s' _ _
        apply Accounts.bind (Accounts.ofExcept _)
        intro exact s' _ _
        apply Accounts.bind (Medium.fetch_upholds ?_)
        · exact fun rows _ _ _ => b.drawRows_accounts _ _ _ _ rows _ hnone
        · exact fun t e he => SqlRows.scanOrdered_held t _ _ _ _ _ _ e he

theorem finishRows_accounts {d : Drawn K V} (h : Drawn.Due b d s) :
    b.Accounts (finishRows d) (fun _ _ => True) s := by
  unfold finishRows
  split
  · exact Accounts.pure trivial
  · apply Accounts.bind (b.collectRows_accounts h)
    exact fun _ _ _ _ => Accounts.pure trivial

theorem scan_accounts (spec : SqlScan K) (draws : Option Nat) (pages : Nat) :
    b.Accounts (b.scan spec draws pages) (fun _ _ => True) s := by
  apply Accounts.bind (b.draw_accounts spec draws pages)
  exact fun _ _ _ hd => b.finishRows_accounts hd

end SqlDbKvBackend

/-! ## Clients -/

/-- What a client asks of a table. -/
inductive SqlRequest (K V : Type) where
  | get (key : K)
  | existsKey (key : K)
  | stat (key : K)
  | batchGet (keys : List K)
  | batchExists (keys : List K)
  | batchStat (keys : List K)
  | batchReadVersioned (keys : List K)
  | scan (spec : SqlDbKvBackend.SqlScan K) (draws : Option Nat) (pages : Nat)
  | expiredKeys (checked : Bool) (now : Option Instant) (limit : Int)
  | gcExpiredKeys (checked : Bool) (maxEntries : Int)
  | set (key : K) (value : V) (options : WriteOptions)
  | batchSet (items : Dict K V) (options : WriteOptions)
  | batchWriteIfUnchanged (writes : Dict K (ConditionalWrite V)) (ttl : Option TtlPolicy)
  | delete (key : K)
  | batchDelete (keys : List K)
  | unset (key : K)
  | batchUnset (keys : List K)

namespace SqlRequest

variable {K V : Type} [DecidableEq K]

/-- The request, for what it does to the table. -/
def script (b : SqlDbKvBackend K V) : SqlRequest K V → SqlScript Unit
  | get key => do let _ ← b.get key; return ()
  | existsKey key => do let _ ← b.existsKey key; return ()
  | stat key => do let _ ← b.stat key; return ()
  | batchGet keys => do let _ ← b.batchGet keys; return ()
  | batchExists keys => do let _ ← b.batchExists keys; return ()
  | batchStat keys => do let _ ← b.batchStat keys; return ()
  | batchReadVersioned keys => do let _ ← b.batchReadVersioned keys; return ()
  | scan spec draws pages => do let _ ← b.scan spec draws pages; return ()
  | expiredKeys checked now limit => do let _ ← b.expiredKeys checked now limit; return ()
  | gcExpiredKeys checked maxEntries => do let _ ← b.gcExpiredKeys checked maxEntries; return ()
  | set key value options => b.set key value options
  | batchSet items options => b.batchSet items options
  | batchWriteIfUnchanged writes ttl => do let _ ← b.batchWriteIfUnchanged writes ttl; return ()
  | delete key => do let _ ← b.delete key; return ()
  | batchDelete keys => do let _ ← b.batchDelete keys; return ()
  | unset key => do let _ ← b.unset key; return ()
  | batchUnset keys => do let _ ← b.batchUnset keys; return ()

/-- Every request accounts for what it does. -/
theorem script_accounts (b : SqlDbKvBackend K V) (q : SqlRequest K V)
    (s : Medium SqlKey SqlDbRow) : b.Accounts (q.script b) (fun _ _ => True) s := by
  cases q with
  | get key => exact (b.liveOne_accounts key _).drop
  | existsKey key => exact (b.liveOne_accounts key _).drop
  | stat key => exact (b.liveOne_accounts key _).drop
  | batchGet keys => exact (b.liveBatch_accounts keys _ _).drop
  | batchExists keys => exact (b.liveBatch_accounts keys _ _).drop
  | batchStat keys => exact (b.liveBatch_accounts keys _ _).drop
  | batchReadVersioned keys => exact (b.batchReadVersioned_accounts keys).drop
  | scan spec draws pages => exact (b.scan_accounts spec draws pages).drop
  | expiredKeys checked now limit => exact (b.expiredKeys_accounts checked now limit).drop
  | gcExpiredKeys checked maxEntries => exact (b.gcExpiredKeys_accounts checked maxEntries).drop
  | set key value options => exact b.set_accounts key value options
  | batchSet items options => exact b.batchSet_accounts items options
  | batchWriteIfUnchanged writes ttl => exact (b.batchWriteIfUnchanged_accounts writes ttl).drop
  | delete key =>
    exact (b.deleteOne_accounts key).drop
  | batchDelete keys => exact (b.batchDelete_accounts keys).drop
  | unset key =>
    exact (b.unsetOne_accounts key).drop
  | batchUnset keys => exact (b.batchUnset_accounts keys).drop

end SqlRequest

end Kvtsjl
