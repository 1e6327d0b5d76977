import Kvtsjl.SqlPrefixScans

/-
  The guard of early binding.
  A view with a relative TTL that is bound early refuses to collect while rows of its scope have no
  death time of their own. It notes that it has looked before it looks, so a call that is refused lets
  the next one through, whatever has become of the rows (`guard_iff`).
-/

namespace Kvtsjl

open Assoc (Dict)
open Effects Prog

/-- A call that looks for what has expired. -/
inductive ExpiryCall where
  | expiredKeys (now : Option Instant) (limit : Int)
  | gcExpiredKeys (maxEntries : Int)

def ExpiryCall.limit : ExpiryCall → Int
  | expiredKeys _ limit => limit
  | gcExpiredKeys maxEntries => maxEntries

/-- A call and what came of it. -/
structure Asked (K : Type) where
  call : ExpiryCall
  before : Medium SqlKey SqlDbRow
  result : Except Exn (List K)
  after : Medium SqlKey SqlDbRow

namespace SqlDbKvBackend

variable {K V : Type} (b : SqlDbKvBackend K V)

def ask (checked : Bool) : ExpiryCall → SqlScript (List K)
  | .expiredKeys now limit => b.expiredKeys checked now limit
  | .gcExpiredKeys maxEntries => b.gcExpiredKeys checked maxEntries

def asked (checked : Bool) (call : ExpiryCall) (m : Medium SqlKey SqlDbRow) : Asked K :=
  ⟨call, m, ((b.ask checked call).run m).1, ((b.ask checked call).run m).2⟩

/-- The calls of a store, and what changes the table before each. A call that gets as far as the guard
    leaves it noted as checked. -/
def history (checked : Bool) (m : Medium SqlKey SqlDbRow) :
    List ((Medium SqlKey SqlDbRow → Medium SqlKey SqlDbRow) × ExpiryCall) → List (Asked K)
  | [] => []
  | (change, call) :: rest =>
    b.asked checked call (change m) ::
      history (checked || decide (1 ≤ call.limit)) (b.asked checked call (change m)).after rest

/-- A call that gets as far as the guard, when no row of the scope is without a death time. -/
def Clear (inScope : SqlKey → Prop) (a : Asked K) : Prop :=
  1 ≤ a.call.limit ∧
    ∀ row ∈ a.before.entries.entries, inScope row.1 → row.2 b.sqlKvset.expiresAtField ≠ none

/-- A call returns only if it or one before it found the scope clear, and until then each is refused
    and leaves the table as it is. -/
def HoldsBack (inScope : SqlKey → Prop) (calls : List (Asked K)) : Prop :=
  ∀ earlier a later, calls = earlier ++ a :: later →
    ((∃ keys, a.result = .ok keys) → ∃ c ∈ earlier ++ [a], b.Clear inScope c) ∧
    ((∀ c ∈ earlier ++ [a], ¬ b.Clear inScope c) →
      (∃ message, a.result = .error (.kvStoreError message)) ∧ a.after = a.before)

/-- The first call finds the scope clear, or is refused and the one after it does. -/
def SoonClear (inScope : SqlKey → Prop) : List (Asked K) → Prop
  | [] => True
  | [a] => 1 ≤ a.call.limit
  | a :: c :: _ => 1 ≤ a.call.limit ∧ (b.Clear inScope a ∨ b.Clear inScope c)

variable {b}

/-! ## One call -/

section Call

theorem ask_below {call : ExpiryCall} (h : ¬ 1 ≤ call.limit) (checked : Bool) (m : Medium SqlKey SqlDbRow) :
    (b.ask checked call).run m =
      (.error (.valueError ("limit must be >= 1, got " ++ toString call.limit)), m) := by
  have hrows : ∀ now, (b.expiredRows checked now call.limit).run m =
      (.error (.valueError ("limit must be >= 1, got " ++ toString call.limit)), m) := by
    intro now
    unfold expiredRows
    rw [if_pos (by omega)]
    rfl
  cases call with
  | expiredKeys now limit =>
    show (b.expiredKeys checked now limit).run m = _
    unfold expiredKeys
    rw [Script.run_bind]
    exact bind_error (hrows now)
  | gcExpiredKeys maxEntries =>
    show (b.gcExpiredKeys checked maxEntries).run m = _
    unfold gcExpiredKeys
    rw [Script.run_bind]
    exact bind_error (hrows none)

theorem ensureEarlyBindingSafe_refuses (hearly : b.sqlKvset.expiryBinding = .early) {ttl : Int}
    (httl : b.ttlSeconds = some ttl) {m : Medium SqlKey SqlDbRow}
    (hnull : SqlRows.hasNullExpiresAt m.entries b.sqlKvset b.scopeCells = true) :
    (b.ensureEarlyBindingSafe false).run m =
      (.error (.kvStoreError "expiry_binding='early' but un-backfilled rows remain"), m) := by
  have hguards : ¬ ((false || decide (b.sqlKvset.expiryBinding ≠ .early) || b.ttlSeconds.isNone) = true) := by
    rw [httl, decide_eq_false (not_not.mpr hearly)]
    exact Bool.false_ne_true
  have hask : (Medium.ask fun t => SqlRows.hasNullExpiresAt t b.sqlKvset b.scopeCells : SqlScript Bool).run m =
      (.ok true, m) := by
    rw [← hnull]
    rfl
  unfold ensureEarlyBindingSafe
  rw [if_neg hguards, scopeKeyRow_false]
  show (do
    if ← (Medium.ask fun t => SqlRows.hasNullExpiresAt t b.sqlKvset b.scopeCells : SqlScript Bool) then
      (.done (.error (.kvStoreError "expiry_binding='early' but un-backfilled rows remain")) : SqlScript Unit)
    else pure ()).run m = _
  rw [Script.run_bind, bind_ok hask]
  rfl

/-- A first look that finds a row without a death time refuses. -/
theorem ask_refuses (hearly : b.sqlKvset.expiryBinding = .early) {ttl : Int} (httl : b.ttlSeconds = some ttl)
    {call : ExpiryCall} (hlimit : 1 ≤ call.limit) {m : Medium SqlKey SqlDbRow}
    (hnull : SqlRows.hasNullExpiresAt m.entries b.sqlKvset b.scopeCells = true) :
    (b.ask false call).run m =
      (.error (.kvStoreError "expiry_binding='early' but un-backfilled rows remain"), m) := by
  have hrows : ∀ now, (b.expiredRows false now call.limit).run m =
      (.error (.kvStoreError "expiry_binding='early' but un-backfilled rows remain"), m) := by
    intro now
    unfold expiredRows
    rw [if_neg (by omega)]
    dsimp only
    rw [Script.run_bind]
    exact bind_error (ensureEarlyBindingSafe_refuses hearly httl hnull)
  cases call with
  | expiredKeys now limit =>
    show (b.expiredKeys false now limit).run m = _
    unfold expiredKeys
    rw [Script.run_bind]
    exact bind_error (hrows now)
  | gcExpiredKeys maxEntries =>
    show (b.gcExpiredKeys false maxEntries).run m = _
    unfold gcExpiredKeys
    rw [Script.run_bind]
    exact bind_error (hrows none)

/-! ### After a look -/

/-- A text that is no time is a `ValueError`. -/
def ParsesTimes (b : SqlDbKvBackend K V) : Prop :=
  ∀ text e, b.parseTimestamp text = .error e → ∃ message, e = .valueError message

variable (hparse : b.ParsesTimes)

include hparse

theorem asTimestamp_error {cell : Option Cell} {e : Exn} (h : b.asTimestamp cell = .error e) :
    ∃ message, e = .valueError message := by
  rcases cell with _ | ⟨n⟩ | ⟨text⟩
  · cases h
  · cases h
  · have hmap : (b.parseTimestamp text).map some = .error e := h
    cases hread : b.parseTimestamp text with
    | error e' =>
      rw [hread] at hmap
      rw [← Except.error.inj hmap]
      exact hparse text e' hread
    | ok t =>
      rw [hread] at hmap
      cases hmap

theorem deathTime_error {row : SqlDbRow} {e : Exn} (h : b.deathTime row = .error e) :
    ∃ message, e = .valueError message := by
  unfold deathTime at h
  cases hexpires : b.asTimestamp (row b.sqlKvset.expiresAtField) with
  | error e' =>
    rw [hexpires] at h
    rw [← Except.error.inj h]
    exact asTimestamp_error hparse hexpires
  | ok expires =>
    rw [hexpires] at h
    cases expires with
    | some t => cases h
    | none =>
      cases httl : b.ttlSeconds with
      | none =>
        rw [httl] at h
        cases h
      | some ttl =>
        rw [httl] at h
        cases hupdated : b.asTimestamp (row b.sqlKvset.updatedAtField) with
        | error e' =>
          rw [hupdated] at h
          rw [← Except.error.inj h]
          exact asTimestamp_error hparse hupdated
        | ok updated =>
          rw [hupdated] at h
          cases h

theorem scoreExpired_error {now : Instant} {rows : List (SqlKey × SqlDbRow)} {e : Exn}
    (h : b.scoreExpired now rows = .error e) : ∃ message, e = .valueError message := by
  have hfold : ∀ (rows : List (SqlKey × SqlDbRow)) scored, rows.foldlM (b.scoreRow now) scored = .error e →
      ∃ message, e = .valueError message := by
    intro rows
    induction rows with
    | nil => exact fun scored h => by cases h
    | cons row rows ih =>
      intro scored h
      rw [List.foldlM_cons] at h
      cases hdeath : b.deathTime row.2 with
      | error e' =>
        have hrow : b.scoreRow now scored row = .error e' := by
          unfold scoreRow
          rw [hdeath]
          rfl
        rw [hrow] at h
        rw [← Except.error.inj h]
        exact deathTime_error hparse hdeath
      | ok death =>
        have hrow : ∃ scored', b.scoreRow now scored row = .ok scored' := by
          unfold scoreRow
          rw [hdeath]
          cases death <;> exact ⟨_, rfl⟩
        obtain ⟨scored', hrow⟩ := hrow
        rw [hrow] at h
        exact ih scored' h
  unfold scoreExpired at h
  cases hscored : rows.foldlM (b.scoreRow now) [] with
  | error e' =>
    rw [hscored] at h
    refine hfold rows [] ?_
    rw [hscored]
    exact congrArg Except.error (Except.error.inj h)
  | ok scored =>
    rw [hscored] at h
    cases h

/-- A store that has looked finds rows, or a text that is no time, and never refuses. -/
theorem expiredRows_raises (now : Option Instant) (limit : Int) :
    Raises (fun e => ∃ message, e = .valueError message) (b.expiredRows true now limit).run := by
  unfold expiredRows
  split
  · exact Raises.raise ⟨_, rfl⟩
  · have hclock : Raises (fun e => ∃ message, e = Exn.valueError message) (clockBase now).run := by
      intro m e he
      cases now <;> cases he
    have hguard : (b.ensureEarlyBindingSafe true).run = (pure () : Prog Exn _ Unit) := rfl
    dsimp only
    rw [Script.run_bind, hguard, pure_bind, Script.run_bind]
    refine hclock.bind fun nowEpoch => ?_
    rw [scopeKeyRow_false, Script.run_bind]
    refine Raises.bind (Raises.pure _) fun exact => ?_
    split
    · exact fun m e he => by cases he
    · rw [Script.run_bind]
      refine Raises.bind (fun m e he => by cases he) fun rows => ?_
      rw [Script.run_bind]
      refine Raises.bind (fun m e he => scoreExpired_error hparse he) fun scored => ?_
      exact Raises.pure _

theorem ask_raises (call : ExpiryCall) :
    Raises (fun e => ∃ message, e = .valueError message) (b.ask true call).run := by
  cases call with
  | expiredKeys now limit =>
    show Raises _ (b.expiredKeys true now limit).run
    unfold expiredKeys
    rw [Script.run_bind]
    exact (expiredRows_raises hparse now limit).bind fun rows => Raises.pure _
  | gcExpiredKeys maxEntries =>
    show Raises _ (b.gcExpiredKeys true maxEntries).run
    unfold gcExpiredKeys
    rw [Script.run_bind]
    refine (expiredRows_raises hparse none maxEntries).bind fun rows => ?_
    split
    · exact Raises.pure _
    · rw [Script.run_bind]
      exact Raises.bind (fun m e he => by cases he) fun _ => Raises.pure _

end Call

/-! ## A run of calls -/

section Run

variable {inScope : SqlKey → Prop}

/-- A first call that is not clear is refused, or did not ask for anything. -/
theorem asked_first (hearly : b.sqlKvset.expiryBinding = .early) {ttl : Int} (httl : b.ttlSeconds = some ttl)
    (hscope : ∀ key, inScope key → SqlRows.selects b.sqlKvset.keyFields b.scopeCells Dict.empty key = true)
    {call : ExpiryCall} (hlimit : 1 ≤ call.limit) {m : Medium SqlKey SqlDbRow}
    (hclear : ¬ b.Clear inScope (b.asked false call m)) :
    (∃ message, (b.asked false call m).result = .error (.kvStoreError message)) ∧
      (b.asked false call m).after = m := by
  have hnull : SqlRows.hasNullExpiresAt m.entries b.sqlKvset b.scopeCells = true := by
    by_contra hnone
    refine hclear ⟨hlimit, fun row hrow hin hempty => hnone ?_⟩
    refine List.any_eq_true.mpr ⟨row, hrow, ?_⟩
    rw [hscope row.1 hin, hempty]
    rfl
  have hrun := ask_refuses hearly httl hlimit hnull
  unfold asked
  rw [hrun]
  exact ⟨⟨_, rfl⟩, rfl⟩

/-- Where the first call is clear, or refused and the second clear, the guard holds back until one is. -/
theorem holdsBack_of_soonClear (hearly : b.sqlKvset.expiryBinding = .early) {ttl : Int}
    (httl : b.ttlSeconds = some ttl)
    (hscope : ∀ key, inScope key → SqlRows.selects b.sqlKvset.keyFields b.scopeCells Dict.empty key = true)
    (m : Medium SqlKey SqlDbRow) (calls : List ((Medium SqlKey SqlDbRow → Medium SqlKey SqlDbRow) × ExpiryCall))
    (hsoon : b.SoonClear inScope (b.history false m calls)) : b.HoldsBack inScope (b.history false m calls) := by
  intro earlier a later heq
  by_cases hclear : ∃ c ∈ earlier ++ [a], b.Clear inScope c
  · refine ⟨fun _ => hclear, fun hnone => ?_⟩
    obtain ⟨c, hc, hclear⟩ := hclear
    exact absurd hclear (hnone c hc)
  · -- nothing clear so far: this is the first call
    have hnone : ∀ c ∈ earlier ++ [a], ¬ b.Clear inScope c := fun c hc hclear' => hclear ⟨c, hc, hclear'⟩
    have hfirst : ∃ change call rest, calls = (change, call) :: rest ∧ earlier = [] ∧ 1 ≤ call.limit := by
      cases calls with
      | nil =>
        cases earlier <;> cases heq
      | cons step rest =>
        obtain ⟨change, call⟩ := step
        rw [history] at heq hsoon
        cases earlier with
        | nil =>
          refine ⟨change, call, rest, rfl, rfl, ?_⟩
          cases hrest : b.history (false || decide (1 ≤ call.limit))
              (b.asked false call (change m)).after rest with
          | nil =>
            rw [hrest] at hsoon
            exact hsoon
          | cons c more =>
            rw [hrest] at hsoon
            exact hsoon.1
        | cons c earlier =>
          obtain ⟨hhead, htail⟩ := List.cons.inj heq
          rw [htail, hhead] at hsoon
          cases earlier with
          | nil =>
            rcases hsoon.2 with hc | ha
            · exact absurd hc (hnone c List.mem_cons_self)
            · exact absurd ha (hnone a (by simp))
          | cons d earlier =>
            rcases hsoon.2 with hc | hd
            · exact absurd hc (hnone c List.mem_cons_self)
            · exact absurd hd (hnone d (by simp))
    obtain ⟨change, call, rest, rfl, rfl, hlimit⟩ := hfirst
    rw [history] at heq
    obtain ⟨rfl, -⟩ := List.cons.inj heq
    obtain ⟨⟨message, hrefused⟩, hsame⟩ := asked_first hearly httl hscope hlimit
      (hnone (b.asked false call (change m)) (by simp))
    refine ⟨fun ⟨keys, hkeys⟩ => ?_, fun _ => ⟨⟨message, hrefused⟩, hsame⟩⟩
    rw [hrefused] at hkeys
    cases hkeys

/-- A store that has looked does not refuse, and one that asks for nothing does not either. -/
theorem asked_passes (hparse : b.ParsesTimes) {call : ExpiryCall} {checked : Bool}
    (hchecked : checked = true ∨ ¬ 1 ≤ call.limit) (m : Medium SqlKey SqlDbRow) (message : String) :
    (b.asked checked call m).result ≠ .error (.kvStoreError message) := by
  intro hrefused
  unfold asked at hrefused
  rcases hchecked with rfl | hlimit
  · obtain ⟨message', hvalue⟩ := ask_raises hparse call m _ hrefused
    cases hvalue
  · rw [ask_below hlimit] at hrefused
    cases Except.error.inj hrefused

theorem soonClear_of_holdsBack (hparse : b.ParsesTimes) (m : Medium SqlKey SqlDbRow)
    (calls : List ((Medium SqlKey SqlDbRow → Medium SqlKey SqlDbRow) × ExpiryCall))
    (hholds : b.HoldsBack inScope (b.history false m calls)) : b.SoonClear inScope (b.history false m calls) := by
  cases calls with
  | nil => exact trivial
  | cons step rest =>
    obtain ⟨change, call⟩ := step
    have hlimit : 1 ≤ call.limit := by
      by_contra hlimit
      have hclear : ∀ c ∈ ([] : List (Asked K)) ++ [b.asked false call (change m)], ¬ b.Clear inScope c := by
        intro c hc hclear
        rw [List.nil_append, List.mem_singleton] at hc
        exact hlimit (hc ▸ hclear).1
      obtain ⟨⟨message, hrefused⟩, -⟩ := (hholds [] _ _ rfl).2 hclear
      exact asked_passes hparse (.inr hlimit) (change m) message hrefused
    cases rest with
    | nil => exact hlimit
    | cons step' rest =>
      obtain ⟨change', call'⟩ := step'
      refine ⟨hlimit, ?_⟩
      by_contra hclear
      rw [not_or] at hclear
      have hchecked : (false || decide (1 ≤ call.limit)) = true := by
        rw [decide_eq_true hlimit]
        rfl
      generalize hsecond : b.asked (false || decide (1 ≤ call.limit)) call'
        (change' (b.asked false call (change m)).after) = second at hclear
      have hnone : ∀ c ∈ [b.asked false call (change m)] ++ [second], ¬ b.Clear inScope c := by
        intro c hc
        rcases List.mem_cons.mp hc with rfl | hc
        · exact hclear.1
        · rw [List.mem_singleton.mp hc]
          exact hclear.2
      have hsplit : b.history false m ((change, call) :: (change', call') :: rest) =
          [b.asked false call (change m)] ++ second ::
            b.history (false || decide (1 ≤ call.limit) || decide (1 ≤ call'.limit)) second.after rest := by
        rw [← hsecond]
        rfl
      obtain ⟨⟨message, hrefused⟩, -⟩ := (hholds _ _ _ hsplit).2 hnone
      rw [← hsecond] at hrefused
      exact asked_passes hparse (.inl hchecked) _ message hrefused

end Run

/-- Over every run of calls, whatever changes the table between them, a store bound early under a
    relative TTL holds back until a call finds no row of its scope without a death time exactly where
    the first call asks for something, and it or the second call finds none. -/
theorem guard_iff (hearly : b.sqlKvset.expiryBinding = .early) (httl : b.ttlSeconds ≠ none)
    (hparse : b.ParsesTimes) {inScope : SqlKey → Prop}
    (hscope : ∀ key, inScope key → SqlRows.selects b.sqlKvset.keyFields b.scopeCells Dict.empty key = true)
    (m : Medium SqlKey SqlDbRow)
    (calls : List ((Medium SqlKey SqlDbRow → Medium SqlKey SqlDbRow) × ExpiryCall)) :
    b.HoldsBack inScope (b.history false m calls) ↔ b.SoonClear inScope (b.history false m calls) := by
  obtain ⟨ttl, hsome⟩ := Option.ne_none_iff_exists'.mp httl
  exact ⟨soonClear_of_holdsBack hparse m calls, holdsBack_of_soonClear hearly hsome hscope m calls⟩

/-- Notes that live for half a minute, in a table bound early. -/
def earlyNotes : SqlDbKvBackend (List Char) String :=
  { textNotes.base with
    sqlKvset := { textNotes.base.sqlKvset with expiryBinding := .early }
    ttlPolicy := ⟨some 30000000⟩ }

/-- A note that says itself when it dies. -/
def datedNote : Medium SqlKey SqlDbRow :=
  ⟨Dict.single [.text "k"] fun c => if c = "expires_at" then some (.number 5) else none, 0⟩

theorem guard_iff_datedNote : earlyNotes.HoldsBack (fun _ => True) (earlyNotes.history false (noteAt "k")
    [(id, .expiredKeys none 10), (fun _ => datedNote, .gcExpiredKeys 10)]) := by
  have hparse : earlyNotes.ParsesTimes := fun text e he => ⟨text, (Except.error.inj he).symm⟩
  refine (guard_iff rfl (by decide) hparse (fun key _ => ?_) _ _).mpr ⟨by decide, .inr ⟨by decide, ?_⟩⟩
  · refine List.all_eq_true.mpr fun x _ => ?_
    rfl
  · intro row hrow _ hnull
    rw [List.mem_singleton.mp hrow] at hnull
    cases hnull

/-- Asked again, it returns, though the same row is still without a death time. -/
theorem guard_lets_go : ¬ earlyNotes.HoldsBack (fun _ => True) (earlyNotes.history false (noteAt "k")
    [(id, .expiredKeys none 10), (id, .expiredKeys none 10)]) := by
  have hparse : earlyNotes.ParsesTimes := fun text e he => ⟨text, (Except.error.inj he).symm⟩
  intro hholds
  rcases (soonClear_of_holdsBack hparse _ _ hholds).2 with hclear | hclear
  · exact hclear.2 _ List.mem_cons_self trivial rfl
  · exact hclear.2 _ List.mem_cons_self trivial rfl

end SqlDbKvBackend

end Kvtsjl
