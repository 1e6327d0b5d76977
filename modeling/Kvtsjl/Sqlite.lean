import Mathlib.Algebra.GroupWithZero.Nat
import Kvtsjl.Lib.Session
import Kvtsjl.CompareAndWrite

/-
  The SQLite adapter on its connection, statement by statement, and the batch writes of a
  store through it.
  Here a statement may be refused, by any constraint of the schema. The adapter commits
  after the last statement of a call and rolls nothing back, so what stood before the
  refused one stays in the connection's open transaction. `batch_all_or_nothing` says
  exactly which batches that raise are all or nothing all the same.
-/

namespace Kvtsjl

open Assoc (Dict)
open Effects Prog

/-! ## Statements -/

/-- The rows of a table under their keys. -/
abbrev SqlTable := SqlKey → Option SqlDbRow

abbrev SqliteConnection := Session SqlKey SqlDbRow

/-- Batches of row writes, each committed. One may raise before it writes. -/
abbrev SqliteBatches := List (Except Exn (List (RowWrite Exn SqlKey SqlDbRow)))

/-- The batches of what is worked out first, and may raise. -/
def SqliteBatches.of {α : Type} (r : Except Exn α) (g : α → SqliteBatches) : SqliteBatches :=
  match r with
  | .ok x => g x
  | .error e => [.error e]

/-- A write statement. `columns` are those it sets. -/
inductive Statement where
  /-- `INSERT … ON CONFLICT(key) DO UPDATE`, or `DO NOTHING` where there is nothing to set. -/
  | upsert (columns : List String) (key : SqlKey) (values : SqlDbRow)
  /-- `INSERT … ON CONFLICT(key) DO NOTHING` -/
  | insert (columns : List String) (key : SqlKey) (values : SqlDbRow)
  | update (columns : List String) (key : SqlKey) (values : SqlDbRow)
  | updateIf (columns : List String) (want : SqlRows.Expected) (values : SqlDbRow)
  | delete (key : SqlKey)
  | deleteIf (want : SqlRows.Expected)
  /-- `UPDATE … SET c=NULL, … WHERE key AND (c IS NOT NULL OR …)` -/
  | clear (columns : List String) (key : SqlKey)

namespace Statement

def key : Statement → SqlKey
  | upsert _ k _ => k
  | insert _ k _ => k
  | update _ k _ => k
  | updateIf _ want _ => want.key
  | delete k => k
  | deleteIf want => want.key
  | clear _ k => k

/-- Whether the statement finds a row to change, or a place to put one. -/
def meets : Statement → Option SqlDbRow → Bool
  | upsert _ _ _, _ => true
  | insert _ _ _, row => row.isNone
  | update _ _ _, row => row.isSome
  | updateIf _ want _, row => row.any (SqlRows.stillHolds want.columns)
  | delete _, row => row.isSome
  | deleteIf want, row => row.any (SqlRows.stillHolds want.columns)
  | clear columns _, row => row.any fun r => columns.any fun c => (r c).isSome

/-- What becomes of the row, or of none, where the statement meets it. -/
def made : Statement → Option SqlDbRow → Option SqlDbRow
  | upsert columns _ values, row => some (SqlRows.assign columns values (row.getD fun _ => none))
  | insert columns _ values, _ => some (SqlRows.inserted columns values)
  | update columns _ values, row => row.map (SqlRows.assign columns values)
  | updateIf columns _ values, row => row.map (SqlRows.assign columns values)
  | delete _, _ => none
  | deleteIf _, _ => none
  | clear columns _, row => row.map (SqlRows.assign columns fun _ => none)

/-- What the row of the key is afterwards. -/
def effect (s : Statement) (row : Option SqlDbRow) : Option SqlDbRow :=
  if s.meets row then s.made row else row

theorem effect_met {s : Statement} {row : Option SqlDbRow} (h : s.meets row = true) :
    s.effect row = s.made row := if_pos h

theorem effect_unmet {s : Statement} {row : Option SqlDbRow} (h : s.meets row = false) :
    s.effect row = row := by
  unfold effect
  rw [h]
  rfl

/-- `rowcount` -/
def rowcount (s : Statement) (row : Option SqlDbRow) : Nat := if s.meets row then 1 else 0

/-- The statements one after the other, none refused. -/
def applied (ss : List Statement) (t : SqlTable) : SqlTable :=
  ss.foldl (fun t s => Function.update t s.key (s.effect (t s.key))) t

end Statement

/-! ## The adapter -/

/-- How many times an update and an insert are tried in turn. -/
def keyRaceAttempts : Nat := 8

structure SqliteSqlDbClientAdapter where
  autocommit : Bool
  beginOnWrite : Bool
  /-- The constraints of the schema: the statements a table raises at, and with what. -/
  refuses : Statement → SqlTable → Option Exn
  table : String
  reprKey : SqlKey → String
  commits : ¬ (autocommit = true ∧ beginOnWrite = true)

namespace SqliteSqlDbClientAdapter

variable (a : SqliteSqlDbClientAdapter)

def ensureWriteTxn : M SqliteConnection Unit := fun c =>
  if a.autocommit || c.working.isSome then (.ok (), c)
  else if a.beginOnWrite then (.ok (), { c with working := some c.committed })
  else (.error (.kvStoreError "no open transaction; write would never commit"), c)

def afterWrite : M SqliteConnection Unit := Prog.when (a.autocommit = true) (Prog.modify Session.commit)

/-- `execute` of a write. A transaction is opened for it where none is; a refused statement
    changes nothing, and leaves the transaction open. -/
def execute (s : Statement) : M SqliteConnection Nat := fun c =>
  match a.refuses s c.current with
  | some e => (.error e, { c with working := some c.current })
  | none =>
    (.ok (s.rowcount (c.current s.key)),
      { c with working := some (Function.update c.current s.key (s.effect (c.current s.key))) })

/-- What every write helper but one does: a statement a row, and the commit. -/
def writeEach {α : Type} (ss : List Statement) (f : List Nat → α) : M SqliteConnection α :=
  if ss.isEmpty then pure (f [])
  else do
    a.ensureWriteTxn
    let counts ← ss.mapM a.execute
    a.afterWrite
    return f counts

def upsertRows (columns : List String) (rows : List (SqlKey × SqlDbRow)) : M SqliteConnection Unit :=
  a.writeEach (rows.map fun e => .upsert columns e.1 e.2) fun _ => ()

def updateRows (columns : List String) (rows : List (SqlKey × SqlDbRow)) : M SqliteConnection Nat :=
  a.writeEach (rows.map fun e => .update columns e.1 e.2) List.sum

def deleteByKeys (keys : List SqlKey) : M SqliteConnection Nat :=
  a.writeEach (keys.map .delete) List.sum

def clearColumns (columns : List String) (keys : List SqlKey) : M SqliteConnection Nat :=
  if columns.isEmpty then pure 0 else a.writeEach (keys.map (.clear columns)) List.sum

/-- Whether each statement changed a row. -/
def flags (counts : List Nat) : List Bool := counts.map (0 < ·)

def insertEachIfAbsent (columns : List String) (rows : List (SqlKey × SqlDbRow)) :
    M SqliteConnection (List Bool) :=
  a.writeEach (rows.map fun e => .insert columns e.1 e.2) flags

def replaceEachIf (columns : List String) (rows : List (SqlRows.Expected × SqlDbRow)) :
    M SqliteConnection (List Bool) :=
  a.writeEach (rows.map fun e => .updateIf columns e.1 e.2) flags

def deleteEachIf (expected : List SqlRows.Expected) : M SqliteConnection (List Bool) :=
  a.writeEach (expected.map .deleteIf) flags

/-- Update; else insert; else another writer took the key between the two, so update again. -/
def updateElseInsert (columns : List String) (row : SqlKey × SqlDbRow) : Nat → M SqliteConnection Unit
  | 0 => raise (.kvStoreError (a.table ++ ": the row for " ++ a.reprKey row.1 ++
      " was neither updated nor inserted in " ++ toString keyRaceAttempts ++ " attempts"))
  | attempts + 1 => do
    if (← a.execute (.update columns row.1 row.2)) ≠ 0 then return ()
    else if (← a.execute (.insert columns row.1 row.2)) ≠ 0 then return ()
    else updateElseInsert columns row attempts

def upsertRowsUpdateFirst (columns : List String) (rows : List (SqlKey × SqlDbRow)) :
    M SqliteConnection Unit :=
  if rows.isEmpty then pure ()
  else do
    a.ensureWriteTxn
    forM rows fun row => a.updateElseInsert columns row keyRaceAttempts
    a.afterWrite

/-! ### Each call as a batch of row writes -/

/-- A statement as a write of its row. -/
def write (s : Statement) : RowWrite Exn SqlKey SqlDbRow := ⟨s.key, s.effect, a.refuses s⟩

/-- An update, or else an insert, as one write. -/
def writeFirst (columns : List String) (row : SqlKey × SqlDbRow) : RowWrite Exn SqlKey SqlDbRow where
  key := row.1
  effect := (Statement.upsert columns row.1 row.2).effect
  refusal t := (a.refuses (.update columns row.1 row.2) t).or
    (if (t row.1).isSome then none else a.refuses (.insert columns row.1 row.2) t)

/-- The program comes to those batches, and then at most returns something. -/
def ComesTo {α : Type} (m : M SqliteConnection α) (gs : SqliteBatches) : Prop :=
  ∀ c, (m c).1.map (fun _ => ()) = (Session.perform gs c).1 ∧ (m c).2 = (Session.perform gs c).2

theorem discard_execute (s : Statement) :
    Functor.discard (a.execute s) = Session.exec (a.write s) := by
  funext c
  rw [discard_apply]
  unfold execute Session.exec RowWrite.run write
  dsimp only
  cases a.refuses s c.current with
  | some e => rfl
  | none => rfl

/-- One update or insert: after an update that met no row, the insert meets none either. -/
theorem updateElseInsert_eq (columns : List String) (row : SqlKey × SqlDbRow) (attempts : Nat) :
    a.updateElseInsert columns row (attempts + 1) = Session.exec (a.writeFirst columns row) := by
  funext c
  unfold updateElseInsert Session.exec RowWrite.run writeFirst
  dsimp only
  cases hupdate : a.refuses (.update columns row.1 row.2) c.current with
  | some e =>
    have hrun : a.execute (.update columns row.1 row.2) c =
        (.error e, { c with working := some c.current }) := by unfold execute; rw [hupdate]
    rw [bind_error hrun, Option.some_or]
  | none =>
    rw [Option.none_or]
    cases hrow : c.current row.1 with
    | some r =>
      have hrun : a.execute (.update columns row.1 row.2) c = (.ok 1, ⟨c.committed,
          some (Function.update c.current row.1 (some (SqlRows.assign columns row.2 r)))⟩) := by
        unfold execute
        rw [hupdate]
        simp only [Statement.key, hrow]
        rfl
      rw [bind_ok hrun, if_pos (by decide)]
      rfl
    | none =>
      have hrun : a.execute (.update columns row.1 row.2) c =
          (.ok 0, { c with working := some c.current }) := by
        unfold execute
        rw [hupdate]
        simp only [Statement.key, hrow]
        have hsame : Function.update c.current row.1 none = c.current := by
          rw [← hrow, Function.update_eq_self]
        exact congrArg (fun t => (Except.ok 0, { c with working := some t })) hsame
      rw [bind_ok hrun, if_neg (by decide)]
      simp only [Option.isSome_none, Bool.false_eq_true, if_false]
      have hseen : ({ c with working := some c.current } : SqliteConnection).current = c.current := rfl
      cases hinsert : a.refuses (.insert columns row.1 row.2) c.current with
      | some e =>
        have hrun' : a.execute (.insert columns row.1 row.2) { c with working := some c.current } =
            (.error e, { c with working := some c.current }) := by
          unfold execute
          rw [hseen, hinsert]
        rw [bind_error hrun']
      | none =>
        have hrun' : a.execute (.insert columns row.1 row.2) { c with working := some c.current } =
            (.ok 1, ⟨c.committed,
              some (Function.update c.current row.1 (some (SqlRows.inserted columns row.2)))⟩) := by
          unfold execute
          rw [hseen, hinsert]
          simp only [Statement.key, hrow]
          rfl
        rw [bind_ok hrun', if_pos (by decide)]
        rfl

section ComesTo

variable {α β γ : Type} {gs hs : SqliteBatches}

theorem ComesTo.pure (x : α) : ComesTo (Pure.pure x : M SqliteConnection α) [] := fun _ => ⟨rfl, rfl⟩

theorem ComesTo.error (e : Exn) : ComesTo (raise e : M SqliteConnection α) [.error e] := fun _ => ⟨rfl, rfl⟩

theorem ComesTo.bind {m : M SqliteConnection α} {f : α → M SqliteConnection β} (hm : ComesTo m gs)
    (hf : ∀ x, ComesTo (f x) hs) : ComesTo (m >>= f) (gs ++ hs) := by
  intro c
  obtain ⟨hres, hstate⟩ := hm c
  have happend : Session.perform (gs ++ hs) c =
      (Session.perform gs >>= fun _ => Session.perform hs) c := by
    unfold Session.perform
    rw [List.forM_append]
  rw [happend, bind_apply, bind_apply]
  rcases hrun : m c with ⟨e | x, c'⟩
  · rw [hrun] at hres hstate
    have hgs : Session.perform gs c = (.error e, c') := Prod.ext hres.symm hstate.symm
    rw [hgs]
    exact ⟨rfl, rfl⟩
  · rw [hrun] at hres hstate
    have hgs : Session.perform gs c = (.ok (), c') := Prod.ext hres.symm hstate.symm
    rw [hgs]
    exact hf x c'

theorem ComesTo.map {m : M SqliteConnection α} (hm : ComesTo m gs) (f : α → β) :
    ComesTo (m >>= fun x => Pure.pure (f x)) gs := by
  rw [← List.append_nil gs]
  exact hm.bind fun x => ComesTo.pure (f x)

/-- A loop does what its rounds do. -/
theorem ComesTo.foldlM {f : β → γ → M SqliteConnection β}
    {g : γ → SqliteBatches} (hf : ∀ acc x, ComesTo (f acc x) (g x))
    (xs : List γ) (acc : β) : ComesTo (xs.foldlM f acc) (xs.flatMap g) := by
  induction xs generalizing acc with
  | nil => exact ComesTo.pure acc
  | cons x xs ih =>
    rw [List.foldlM_cons, List.flatMap_cons]
    exact (hf acc x).bind fun acc' => ih acc'

/-- What is worked out first, and may raise. -/
theorem ComesTo.ofExcept (r : Except Exn α) {f : α → M SqliteConnection β}
    {g : α → SqliteBatches} (hf : ∀ x, ComesTo (f x) (g x)) :
    ComesTo (Prog.ofExcept r >>= f) (SqliteBatches.of r g) := by
  cases r with
  | ok x => exact hf x
  | error e => exact ComesTo.error e

end ComesTo

theorem perform_one (ws : List (RowWrite Exn SqlKey SqlDbRow)) :
    Session.perform [.ok ws] = Session.transact ws := by
  funext c
  unfold Session.perform
  rw [List.forM_cons, List.forM_nil]
  show (Session.transact ws >>= fun _ => Pure.pure ()) c = _
  rw [bind_pure_unit]

theorem discard_mapM_execute (ss : List Statement) :
    Functor.discard (ss.mapM a.execute) = forM (ss.map a.write) Session.exec := by
  induction ss with
  | nil => rfl
  | cons s ss ih =>
    rw [List.mapM_cons, List.map_cons, List.forM_cons, ← a.discard_execute, ← ih]
    funext c
    rw [discard_apply, bind_apply, bind_apply, discard_apply]
    rcases a.execute s c with ⟨e | n, c'⟩
    · rfl
    · dsimp only [Except.map]
      rw [bind_apply, discard_apply]
      rcases ss.mapM a.execute c' with ⟨e | ns, c''⟩ <;> rfl

variable (h : a.autocommit = true)
include h

theorem ensureWriteTxn_autocommit (c : SqliteConnection) : a.ensureWriteTxn c = (.ok (), c) := by
  unfold ensureWriteTxn
  rw [h]
  rfl

theorem afterWrite_autocommit : a.afterWrite = Prog.modify Session.commit := by
  unfold afterWrite Prog.when
  rw [if_pos h]

/-- A call commits after its last statement. -/
theorem writeEach_comesTo {α : Type} (ss : List Statement) (f : List Nat → α) :
    ComesTo (a.writeEach ss f) [.ok (ss.map a.write)] := by
  intro c
  rw [perform_one]
  unfold writeEach Session.transact Prog.when
  split
  · next hnone =>
    rw [List.isEmpty_iff.mp hnone]
    exact ⟨rfl, rfl⟩
  · next hsome =>
    have hne : ss.map a.write ≠ [] := by
      intro hnil
      exact hsome (List.isEmpty_iff.mpr (List.map_eq_nil_iff.mp hnil))
    rw [if_pos hne, bind_ok (a.ensureWriteTxn_autocommit h c), a.afterWrite_autocommit h,
      ← a.discard_mapM_execute, bind_apply, bind_apply, discard_apply]
    rcases ss.mapM a.execute c with ⟨e | counts, c'⟩ <;> exact ⟨rfl, rfl⟩

theorem upsertRowsUpdateFirst_comesTo (columns : List String) (rows : List (SqlKey × SqlDbRow)) :
    ComesTo (a.upsertRowsUpdateFirst columns rows) [.ok (rows.map (a.writeFirst columns))] := by
  intro c
  rw [perform_one]
  unfold upsertRowsUpdateFirst Session.transact Prog.when
  split
  · next hnone =>
    rw [List.isEmpty_iff.mp hnone]
    exact ⟨rfl, rfl⟩
  · next hsome =>
    have hne : rows.map (a.writeFirst columns) ≠ [] := by
      intro hnil
      exact hsome (List.isEmpty_iff.mpr (List.map_eq_nil_iff.mp hnil))
    have heach : (forM rows fun row => a.updateElseInsert columns row keyRaceAttempts) =
        forM (rows.map (a.writeFirst columns)) Session.exec := by
      rw [Prog.forM_map]
      exact Prog.forM_congr fun row _ => a.updateElseInsert_eq columns row 7
    rw [if_pos hne, bind_ok (a.ensureWriteTxn_autocommit h c), a.afterWrite_autocommit h, heach]
    rw [bind_apply]
    rcases forM (rows.map (a.writeFirst columns)) Session.exec c with ⟨e | u, c'⟩ <;> exact ⟨rfl, rfl⟩

theorem clearColumns_comesTo {columns : List String} (hcolumns : columns.isEmpty = false)
    (keys : List SqlKey) :
    ComesTo (a.clearColumns columns keys) [.ok ((keys.map (Statement.clear columns)).map a.write)] := by
  unfold clearColumns
  rw [hcolumns]
  exact a.writeEach_comesTo h _ _

end SqliteSqlDbClientAdapter

/-! ## The calls on a table, statement by statement -/

namespace Statement

/-- A loop whose rounds each do what a statement does. -/
theorem applied_foldl {γ σ : Type} {step : σ → γ → σ} (table : σ → SqlRows) (stmt : γ → Statement)
    (hstep : ∀ s x, (table (step s x)).get? = Function.update (table s).get? (stmt x).key
      ((stmt x).effect ((table s).get? (stmt x).key))) (xs : List γ) (s : σ) :
    (table (xs.foldl step s)).get? = applied (xs.map stmt) (table s).get? := by
  induction xs generalizing s with
  | nil => rfl
  | cons x xs ih =>
    rw [List.foldl_cons, ih, hstep]
    rfl

/-- Statements of which none is refused are the statements applied. -/
theorem reached_applied (a : SqliteSqlDbClientAdapter) {ss : List Statement}
    (h : ∀ s ∈ ss, ∀ t, a.refuses s t = none) (t : SqlTable) :
    Session.reached ((ss.map a.write).map .ok) t = (.ok (), applied ss t) := by
  induction ss generalizing t with
  | nil => rfl
  | cons s ss ih =>
    have hrun : (a.write s).run t = .ok (Function.update t s.key (s.effect (t s.key))) := by
      unfold RowWrite.run SqliteSqlDbClientAdapter.write
      dsimp only
      rw [h s (by simp)]
    have hattempt : Session.attempted (.ok (a.write s)) t =
        .ok (Function.update t s.key (s.effect (t s.key))) := hrun
    rw [List.map_cons, List.map_cons, Session.reached, hattempt]
    exact ih (fun s hs => h s (List.mem_cons_of_mem _ hs)) _

/-- A call none of whose statements is refused commits them applied. -/
theorem writeEach_applied (a : SqliteSqlDbClientAdapter) (hauto : a.autocommit = true) {α : Type}
    {ss : List Statement} (h : ∀ s ∈ ss, ∀ t, a.refuses s t = none) (f : List Nat → α)
    (c : SqliteConnection) :
    (a.writeEach ss f c).2.current = applied ss c.current := by
  have hstate := (a.writeEach_comesTo hauto ss f c).2
  rw [SqliteSqlDbClientAdapter.perform_one] at hstate
  rw [hstate, (Session.transact_current _ c).2, reached_applied a h]

theorem get?_set_eq (t : SqlRows) (k : SqlKey) (row : SqlDbRow) :
    (t.set k row).get? = Function.update t.get? k (some row) := by
  funext j
  rw [Dict.get?_set, Function.update_apply]

theorem get?_erase_eq (t : SqlRows) (k : SqlKey) :
    (t.erase k).get? = Function.update t.get? k none := by
  funext j
  rw [Dict.get?_erase, Function.update_apply]

theorem get?_same {t : SqlRows} {k : SqlKey} {row : Option SqlDbRow} (h : row = t.get? k) :
    t.get? = Function.update t.get? k row := by
  rw [h, Function.update_eq_self]

theorem applied_upsertRows (t : SqlRows) (columns : List String) (rows : List (SqlKey × SqlDbRow)) :
    (t.upsertRows columns rows).get? =
      applied (rows.map fun e => .upsert columns e.1 e.2) t.get? := by
  refine applied_foldl id _ (fun t x => ?_) rows t
  dsimp only [id, key]
  split
  · next row hrow =>
    rw [get?_set_eq, hrow]
    rfl
  · next hrow =>
    rw [get?_set_eq, hrow]
    rfl

theorem applied_updateRows (t : SqlRows) (columns : List String) (rows : List (SqlKey × SqlDbRow)) :
    (t.updateRows columns rows).2.get? =
      applied (rows.map fun e => .update columns e.1 e.2) t.get? := by
  refine applied_foldl (fun s : List SqlKey × SqlRows => s.2) _ (fun s x => ?_) rows ([], t)
  dsimp only [key]
  split
  · next row hrow =>
    rw [get?_set_eq, hrow]
    rfl
  · next hrow => exact get?_same (by rw [hrow]; rfl)

theorem applied_deleteByKeys (t : SqlRows) (keys : List SqlKey) :
    (t.deleteByKeys keys).2.get? = applied (keys.map .delete) t.get? := by
  refine applied_foldl (fun s : Nat × SqlRows => s.2) _ (fun s x => ?_) keys (0, t)
  dsimp only [key]
  split
  · next row hrow =>
    rw [get?_erase_eq, hrow]
    rfl
  · next hrow => exact get?_same (by rw [hrow]; rfl)

theorem applied_clearColumns (t : SqlRows) (columns : List String) (keys : List SqlKey) :
    (t.clearColumns columns keys).2.get? = applied (keys.map (.clear columns)) t.get? := by
  refine applied_foldl (fun s : List SqlKey × SqlRows => s.2) _ (fun s x => ?_) keys ([], t)
  dsimp only [key]
  split
  · next row hrow =>
    split
    · next hheld =>
      rw [get?_set_eq, hrow, effect_met]
      · rfl
      · exact hheld
    · next hheld =>
      refine get?_same ?_
      rw [hrow, effect_unmet]
      exact Bool.eq_false_iff.mpr hheld
  · next hrow => exact get?_same (by rw [hrow]; rfl)

theorem applied_insertEachIfAbsent (t : SqlRows) (columns : List String)
    (rows : List (SqlKey × SqlDbRow)) :
    (t.insertEachIfAbsent columns rows).2.get? =
      applied (rows.map fun e => .insert columns e.1 e.2) t.get? := by
  refine applied_foldl (fun s : List (SqlKey × Bool) × SqlRows => s.2) _ (fun s x => ?_) rows ([], t)
  dsimp only [key]
  split
  · next row hrow => exact get?_same (by rw [hrow]; rfl)
  · next hrow =>
    rw [get?_set_eq, hrow]
    rfl

theorem applied_replaceEachIf (t : SqlRows) (columns : List String)
    (rows : List (SqlRows.Expected × SqlDbRow)) :
    (t.replaceEachIf columns rows).2.get? =
      applied (rows.map fun e => .updateIf columns e.1 e.2) t.get? := by
  refine applied_foldl (fun s : List (SqlKey × Bool) × SqlRows => s.2) _ (fun s x => ?_) rows ([], t)
  dsimp only [key]
  split
  · next row hrow =>
    split
    · next hheld =>
      rw [get?_set_eq, hrow, effect_met]
      · rfl
      · exact hheld
    · next hheld =>
      refine get?_same ?_
      rw [hrow, effect_unmet]
      exact Bool.eq_false_iff.mpr hheld
  · next hrow => exact get?_same (by rw [hrow]; rfl)

theorem applied_deleteEachIf (t : SqlRows) (expected : List SqlRows.Expected) :
    (t.deleteEachIf expected).2.get? = applied (expected.map .deleteIf) t.get? := by
  refine applied_foldl (fun s : List (SqlKey × Bool) × SqlRows => s.2) _ (fun s x => ?_) expected
    ([], t)
  dsimp only [key]
  split
  · next row hrow =>
    split
    · next hheld =>
      rw [get?_erase_eq, hrow, effect_met]
      · rfl
      · exact hheld
    · next hheld =>
      refine get?_same ?_
      rw [hrow, effect_unmet]
      exact Bool.eq_false_iff.mpr hheld
  · next hrow => exact get?_same (by rw [hrow]; rfl)

end Statement

/-! ## The batch writes of a store -/

namespace SqlDbKvBackend

variable {K V : Type} (b : SqlDbKvBackend K V) (a : SqliteSqlDbClientAdapter) (now : K → Instant)

/-- `_build_write_row`, at the time it comes to the key. -/
def rowAt (key : K) (value : V) (ttl : Option TtlPolicy) (createdAt : Option Instant) :
    Except Exn (SqlKey × SqlDbRow) :=
  (b.fullKeyRow key).map fun p => (p, b.builtRow value ttl createdAt (now key))

theorem rowAt_run {key : K} {p : SqlKey} (h : b.fullKeyRow key = .ok p) (value : V)
    (ttl : Option TtlPolicy) (createdAt : Option Instant) (t : SqlRows) :
    ((b.buildWriteRow key value ttl createdAt).run ⟨t, now key⟩).1 =
      b.rowAt now key value ttl createdAt := by
  unfold rowAt
  rw [b.buildWriteRow_run h, h]
  rfl

/-- `_write_rows` -/
def sqliteWriteRows (rows : List (SqlKey × SqlDbRow)) : M SqliteConnection Nat :=
  let sk := b.sqlKvset
  if sk.sharesTable && !sk.ownsRows then
    if !b.adapter.supportsUpdateRows then
      raise (.unsupported (b.adapter.name ++ " does not support update_rows, which a view " ++
        "of a shared table that does not own its rows requires"))
    else a.updateRows sk.setColumns rows
  else if !sk.sharesTable then do
    a.upsertRows sk.setColumns rows
    return rows.length
  else if !b.adapter.supportsUpdateFirst then
    raise (.unsupported (b.adapter.name ++ " does not support upsert_rows_update_first, " ++
      "which shares_table=True requires"))
  else do
    a.upsertRowsUpdateFirst sk.setColumns rows
    return rows.length

def sqliteBatchSet (items : Dict K V) (options : WriteOptions) : M SqliteConnection Unit := do
  let chunks ← Prog.ofExcept (chunkSequence items.entries b.batchSize)
  chunks.foldlM (fun _ chunk => do
    let rows ← Prog.ofExcept (chunk.mapM fun item =>
      b.rowAt now item.1 item.2 options.ttl options.createdAt)
    let _ ← b.sqliteWriteRows a rows
    return ()) ()

/-- Ask `step` of each chunk's key rows, and add up. -/
def sqliteSumChunks (keys : List K) (step : List SqlKey → M SqliteConnection Nat) :
    M SqliteConnection Nat := do
  let chunks ← Prog.ofExcept (chunkSequence keys b.batchSize)
  chunks.foldlM (fun n chunk => do
    let keyRows ← Prog.ofExcept (chunk.mapM b.fullKeyRow)
    let more ← step keyRows
    return n + more) 0

def sqliteDeleteRows (keys : List K) : M SqliteConnection Nat := b.sqliteSumChunks keys a.deleteByKeys

def sqliteClearOwnColumns (keys : List K) : M SqliteConnection Nat :=
  let sk := b.sqlKvset
  if sk.ownColumns.isEmpty then
    raise (.unsupported (sk.tableName ++ ": this view writes no columns of its own, so " ++
      "clearing it could only delete a row its siblings share"))
  else if !b.adapter.supportsClearColumns then
    raise (.unsupported (b.adapter.name ++ " does not support clear_columns, which " ++
      "unsetting a view of a shared table requires"))
  else b.sqliteSumChunks keys (a.clearColumns sk.ownColumns)

def sqliteBatchDelete (keys : List K) : M SqliteConnection Nat :=
  if b.sqlKvset.deletesRows then b.sqliteDeleteRows a keys else b.sqliteClearOwnColumns a keys

section Conditional

variable [DecidableEq K]

/-- The row of each put. -/
def putRows (ttl : Option TtlPolicy) (puts : List (K × ConditionalWrite V)) :
    Except Exn (List (SqlKey × SqlDbRow)) :=
  (puts.filterMap fun e => e.2.change.value?.map fun v => (e, v)).mapM fun x =>
    b.rowAt now x.1.1 x.2 ttl x.1.2.createdAt

/-- The keys whose write took place, by position. -/
def won (keys : List K) (flags : List Bool) : Finset K :=
  ((keys.zip flags).filterMap fun e => if e.2 then some e.1 else none).toFinset

def sqliteInsertAbsent (writes : Dict K (ConditionalWrite V)) (ttl : Option TtlPolicy) :
    M SqliteConnection (Finset K) :=
  let inserts := inserts writes
  if inserts.isEmpty then pure ∅
  else if !b.adapter.supportsInsertIfAbsent then
    raise (.unsupported (b.adapter.name ++ " does not support insert_each_if_absent, which " ++
      "set_if_absent — inserting only where no row is — requires; it will not fall back to a " ++
      "get-then-set"))
  else do
    let rows ← Prog.ofExcept (b.putRows now ttl inserts)
    let flags ← a.insertEachIfAbsent b.sqlKvset.setColumns rows
    return won (inserts.map (·.1)) flags

def sqliteRemoveUnchanged (writes : Dict K (ConditionalWrite V)) : M SqliteConnection (Finset K) :=
  let removals := removals writes
  if removals.isEmpty then pure ∅
  else do
    let expected ← Prog.ofExcept (removals.mapM fun e => b.expected e.1 e.2.seen)
    let flags ← if b.sqlKvset.deletesRows then a.deleteEachIf expected
      else a.replaceEachIf b.sqlKvset.ownColumns (expected.map fun e => (e, fun _ => none))
    return won (removals.map (·.1)) flags

def sqliteReplaceUnchanged (writes : Dict K (ConditionalWrite V)) (ttl : Option TtlPolicy) :
    M SqliteConnection (Finset K) :=
  let replaces := replaces writes
  if replaces.isEmpty then pure ∅
  else do
    let expected ← Prog.ofExcept (replaces.mapM fun e => b.expected e.1 e.2.seen)
    let rows ← Prog.ofExcept (b.putRows now ttl replaces)
    let flags ← a.replaceEachIf b.sqlKvset.setColumns (expected.zip (rows.map (·.2)))
    return won (replaces.map (·.1)) flags

def sqliteBatchWriteIfUnchanged (writes : Dict K (ConditionalWrite V)) (ttl : Option TtlPolicy) :
    M SqliteConnection (Finset K) :=
  match b.refusal writes with
  | some e => raise e
  | none => do
    let inserted ← b.sqliteInsertAbsent a now writes ttl
    let removed ← b.sqliteRemoveUnchanged a writes
    let replaced ← b.sqliteReplaceUnchanged a now writes ttl
    return inserted ∪ removed ∪ replaced

end Conditional

/-! ### Their row writes -/

open SqliteSqlDbClientAdapter (ComesTo)

/-- Those of `_write_rows`. -/
def rowWrites (rows : List (SqlKey × SqlDbRow)) : SqliteBatches :=
  let sk := b.sqlKvset
  if sk.sharesTable && !sk.ownsRows then
    if !b.adapter.supportsUpdateRows then
      [.error (.unsupported (b.adapter.name ++ " does not support update_rows, which a view " ++
        "of a shared table that does not own its rows requires"))]
    else [.ok ((rows.map fun e => Statement.update sk.setColumns e.1 e.2).map a.write)]
  else if !sk.sharesTable then
    [.ok ((rows.map fun e => Statement.upsert sk.setColumns e.1 e.2).map a.write)]
  else if !b.adapter.supportsUpdateFirst then
    [.error (.unsupported (b.adapter.name ++ " does not support upsert_rows_update_first, " ++
      "which shares_table=True requires"))]
  else [.ok (rows.map (a.writeFirst sk.setColumns))]

def setWrites (items : Dict K V) (options : WriteOptions) : SqliteBatches :=
  SqliteBatches.of (chunkSequence items.entries b.batchSize) fun chunks => chunks.flatMap fun chunk =>
    SqliteBatches.of (chunk.mapM fun item => b.rowAt now item.1 item.2 options.ttl options.createdAt)
      (b.rowWrites a)

/-- A statement for each key, a batch for each chunk. -/
def keyWrites (keys : List K) (stmt : SqlKey → Statement) : SqliteBatches :=
  SqliteBatches.of (chunkSequence keys b.batchSize) fun chunks => chunks.flatMap fun chunk =>
    SqliteBatches.of (chunk.mapM b.fullKeyRow) fun keyRows => [.ok ((keyRows.map stmt).map a.write)]

def deleteWrites (keys : List K) : SqliteBatches :=
  let sk := b.sqlKvset
  if sk.deletesRows then b.keyWrites a keys .delete
  else if sk.ownColumns.isEmpty then
    [.error (.unsupported (sk.tableName ++ ": this view writes no columns of its own, so " ++
      "clearing it could only delete a row its siblings share"))]
  else if !b.adapter.supportsClearColumns then
    [.error (.unsupported (b.adapter.name ++ " does not support clear_columns, which " ++
      "unsetting a view of a shared table requires"))]
  else b.keyWrites a keys (.clear sk.ownColumns)

section Conditional

variable [DecidableEq K]

def insertWrites (writes : Dict K (ConditionalWrite V)) (ttl : Option TtlPolicy) : SqliteBatches :=
  if (inserts writes).isEmpty then []
  else if !b.adapter.supportsInsertIfAbsent then
    [.error (.unsupported (b.adapter.name ++ " does not support insert_each_if_absent, which " ++
      "set_if_absent — inserting only where no row is — requires; it will not fall back to a " ++
      "get-then-set"))]
  else SqliteBatches.of (b.putRows now ttl (inserts writes)) fun rows =>
    [.ok ((rows.map fun e => Statement.insert b.sqlKvset.setColumns e.1 e.2).map a.write)]

def removeWrites (writes : Dict K (ConditionalWrite V)) : SqliteBatches :=
  if (removals writes).isEmpty then []
  else SqliteBatches.of ((removals writes).mapM fun e => b.expected e.1 e.2.seen) fun expected =>
    [.ok ((if b.sqlKvset.deletesRows then expected.map Statement.deleteIf
      else expected.map fun e => Statement.updateIf b.sqlKvset.ownColumns e fun _ => none).map a.write)]

def replaceWrites (writes : Dict K (ConditionalWrite V)) (ttl : Option TtlPolicy) : SqliteBatches :=
  if (replaces writes).isEmpty then []
  else SqliteBatches.of ((replaces writes).mapM fun e => b.expected e.1 e.2.seen) fun expected =>
    SqliteBatches.of (b.putRows now ttl (replaces writes)) fun rows =>
      [.ok (((expected.zip (rows.map (·.2))).map fun e =>
        Statement.updateIf b.sqlKvset.setColumns e.1 e.2).map a.write)]

def conditionalWrites (writes : Dict K (ConditionalWrite V)) (ttl : Option TtlPolicy) : SqliteBatches :=
  match b.refusal writes with
  | some e => [.error e]
  | none => b.insertWrites a now writes ttl ++ (b.removeWrites a writes ++ b.replaceWrites a now writes ttl)

end Conditional

section ComesTo

variable {a} (h : a.autocommit = true)
include h

theorem sqliteWriteRows_comesTo (rows : List (SqlKey × SqlDbRow)) :
    ComesTo (b.sqliteWriteRows a rows) (b.rowWrites a rows) := by
  unfold sqliteWriteRows rowWrites
  dsimp only
  split
  · split
    · exact ComesTo.error _
    · exact a.writeEach_comesTo h _ _
  · split
    · exact (a.writeEach_comesTo h _ _).map _
    · split
      · exact ComesTo.error _
      · exact (a.upsertRowsUpdateFirst_comesTo h _ _).map _

theorem sqliteBatchSet_comesTo (items : Dict K V) (options : WriteOptions) :
    ComesTo (b.sqliteBatchSet a now items options) (b.setWrites a now items options) := by
  refine ComesTo.ofExcept _ fun chunks => ComesTo.foldlM (fun _ chunk => ?_) chunks ()
  refine ComesTo.ofExcept _ fun rows => ?_
  exact (b.sqliteWriteRows_comesTo h rows).map fun _ => ()

omit h in
theorem sqliteSumChunks_comesTo (keys : List K) {step : List SqlKey → M SqliteConnection Nat}
    {stmt : SqlKey → Statement}
    (hstep : ∀ keyRows, ComesTo (step keyRows) [.ok ((keyRows.map stmt).map a.write)]) :
    ComesTo (b.sqliteSumChunks keys step) (b.keyWrites a keys stmt) := by
  refine ComesTo.ofExcept _ fun chunks => ComesTo.foldlM (fun n chunk => ?_) chunks 0
  refine ComesTo.ofExcept _ fun keyRows => ?_
  exact (hstep keyRows).map fun more => n + more

theorem sqliteBatchDelete_comesTo (keys : List K) :
    ComesTo (b.sqliteBatchDelete a keys) (b.deleteWrites a keys) := by
  unfold sqliteBatchDelete deleteWrites sqliteDeleteRows sqliteClearOwnColumns
  dsimp only
  split
  · exact b.sqliteSumChunks_comesTo keys fun keyRows => a.writeEach_comesTo h _ _
  · split
    · exact ComesTo.error _
    · next hcolumns =>
      split
      · exact ComesTo.error _
      · exact b.sqliteSumChunks_comesTo keys fun keyRows =>
          a.clearColumns_comesTo h (Bool.eq_false_iff.mpr hcolumns) keyRows

variable [DecidableEq K]

theorem sqliteInsertAbsent_comesTo (writes : Dict K (ConditionalWrite V)) (ttl : Option TtlPolicy) :
    ComesTo (b.sqliteInsertAbsent a now writes ttl) (b.insertWrites a now writes ttl) := by
  unfold sqliteInsertAbsent insertWrites
  dsimp only
  split
  · exact ComesTo.pure _
  · split
    · exact ComesTo.error _
    · exact ComesTo.ofExcept _ fun rows => (a.writeEach_comesTo h _ _).map _

theorem sqliteRemoveUnchanged_comesTo (writes : Dict K (ConditionalWrite V)) :
    ComesTo (b.sqliteRemoveUnchanged a writes) (b.removeWrites a writes) := by
  unfold sqliteRemoveUnchanged removeWrites
  dsimp only
  split
  · exact ComesTo.pure _
  · refine ComesTo.ofExcept _ fun expected => ?_
    split
    · exact (a.writeEach_comesTo h _ _).map _
    · unfold SqliteSqlDbClientAdapter.replaceEachIf
      rw [List.map_map]
      exact (a.writeEach_comesTo h _ _).map _

theorem sqliteReplaceUnchanged_comesTo (writes : Dict K (ConditionalWrite V)) (ttl : Option TtlPolicy) :
    ComesTo (b.sqliteReplaceUnchanged a now writes ttl) (b.replaceWrites a now writes ttl) := by
  unfold sqliteReplaceUnchanged replaceWrites
  dsimp only
  split
  · exact ComesTo.pure _
  · refine ComesTo.ofExcept _ fun expected => ComesTo.ofExcept _ fun rows => ?_
    exact (a.writeEach_comesTo h _ _).map _

theorem sqliteBatchWriteIfUnchanged_comesTo (writes : Dict K (ConditionalWrite V))
    (ttl : Option TtlPolicy) :
    ComesTo (b.sqliteBatchWriteIfUnchanged a now writes ttl) (b.conditionalWrites a now writes ttl) := by
  unfold sqliteBatchWriteIfUnchanged conditionalWrites
  split
  · exact ComesTo.error _
  · refine (b.sqliteInsertAbsent_comesTo now h writes ttl).bind fun inserted => ?_
    refine (b.sqliteRemoveUnchanged_comesTo h writes).bind fun removed => ?_
    exact (b.sqliteReplaceUnchanged_comesTo now h writes ttl).map _

end ComesTo

/-! ### Writes of different rows -/

theorem writes_one (ws : List (RowWrite Exn SqlKey SqlDbRow)) :
    Session.writes [.ok ws] = ws.map .ok := by
  unfold Session.writes
  rw [List.flatMap_singleton]

theorem writes_append (gs hs : SqliteBatches) :
    Session.writes (gs ++ hs) = Session.writes gs ++ Session.writes hs := by
  unfold Session.writes
  rw [List.flatMap_append]

/-- The writes are those of some of the keys, in order. -/
inductive Along : List K → List (Except Exn (RowWrite Exn SqlKey SqlDbRow)) → Prop where
  | nil : Along [] []
  | write {key ks w xs} : b.fullKeyRow key = .ok w.key → Along ks xs → Along (key :: ks) (.ok w :: xs)
  | raised {ks e xs} : Along ks xs → Along ks (.error e :: xs)
  | skip {key ks xs} : Along ks xs → Along (key :: ks) xs

namespace Along

variable {b} {ks ks' : List K} {xs ys : List (Except Exn (RowWrite Exn SqlKey SqlDbRow))}

theorem append (h : b.Along ks xs) (h' : b.Along ks' ys) : b.Along (ks ++ ks') (xs ++ ys) := by
  induction h with
  | nil => exact h'
  | write hkey _ ih => exact .write hkey ih
  | raised _ ih => exact .raised ih
  | skip _ ih => exact .skip ih

theorem none (ks : List K) : b.Along ks [] := by
  induction ks with
  | nil => exact .nil
  | cons k ks ih => exact .skip ih

theorem error (ks : List K) (e : Exn) : b.Along ks [.error e] := .raised (none ks)

/-- A write that is there is the write of a key. -/
theorem key_of_mem (h : b.Along ks xs) {w : RowWrite Exn SqlKey SqlDbRow} (hw : .ok w ∈ xs) :
    ∃ k ∈ ks, b.fullKeyRow k = .ok w.key := by
  induction h with
  | nil => cases hw
  | @write key ks v xs hkey _ ih =>
    rcases List.mem_cons.mp hw with heq | hw
    · cases heq
      exact ⟨key, by simp, hkey⟩
    · obtain ⟨k, hk, hrow⟩ := ih hw
      exact ⟨k, List.mem_cons_of_mem _ hk, hrow⟩
  | raised _ ih =>
    rcases List.mem_cons.mp hw with heq | hw
    · cases heq
    · exact ih hw
  | skip _ ih =>
    obtain ⟨k, hk, hrow⟩ := ih hw
    exact ⟨k, List.mem_cons_of_mem _ hk, hrow⟩

/-- Distinct keys have rows of their own, so no write touches what another made. -/
theorem spares (h : b.Along ks xs) (hn : ks.Nodup)
    (hinj : ∀ k k' r, b.fullKeyRow k = .ok r → b.fullKeyRow k' = .ok r → k = k') :
    xs.Pairwise fun x y => ∀ v w, x = .ok v → y = .ok w → v.Spares w := by
  induction h with
  | nil => exact List.Pairwise.nil
  | @write key ks v xs hkey hrest ih =>
    obtain ⟨hfirst, hn⟩ := List.nodup_cons.mp hn
    refine List.Pairwise.cons (fun y hy v' w hv hw => ?_) (ih hn)
    cases hv
    subst hw
    obtain ⟨k, hk, hrow⟩ := hrest.key_of_mem hy
    refine .inl fun heq => hfirst ?_
    rw [hinj key k v.key hkey (heq ▸ hrow)]
    exact hk
  | raised _ ih =>
    refine List.Pairwise.cons (fun y _ v w hv _ => ?_) (ih hn)
    cases hv
  | skip _ ih => exact ih (List.nodup_cons.mp hn).2

/-- What is worked out for each key, with a write of it. -/
theorem of_mapM {γ δ : Type} {key : γ → K} {f : γ → Except Exn δ} {w : δ → RowWrite Exn SqlKey SqlDbRow}
    {items : List γ} {ds : List δ} (h : items.mapM f = .ok ds)
    (hf : ∀ x d, f x = .ok d → b.fullKeyRow (key x) = .ok (w d).key) :
    b.Along (items.map key) ((ds.map w).map .ok) := by
  have hall := forall₂_of_mapM h
  clear h
  induction hall with
  | nil => exact .nil
  | cons hxd _ ih => exact .write (hf _ _ hxd) ih

/-- The same, each write with something more. -/
theorem of_zip {γ δ ζ : Type} {key : γ → K} {row : δ → SqlKey} {w : δ × ζ → RowWrite Exn SqlKey SqlDbRow}
    (hw : ∀ p, (w p).key = row p.1) {items : List γ} {ds : List δ}
    (h : List.Forall₂ (fun x d => b.fullKeyRow (key x) = .ok (row d)) items ds) (vs : List ζ) :
    b.Along (items.map key) (((ds.zip vs).map w).map .ok) := by
  induction h generalizing vs with
  | nil => exact .nil
  | @cons x d items ds hxd hrest ih =>
    cases vs with
    | nil => exact none _
    | cons v vs =>
      refine .write ?_ (ih vs)
      rw [hw]
      exact hxd

theorem skips (pre : List K) (h : b.Along ks xs) : b.Along (pre ++ ks) xs := by
  induction pre with
  | nil => exact h
  | cons k pre ih => exact .skip ih

theorem sublist (h : b.Along ks xs) (hks : ks.Sublist ks') : b.Along ks' xs := by
  induction h generalizing ks' with
  | nil => exact none ks'
  | @write key ks w xs hkey _ ih =>
    obtain ⟨before, after, rfl, hmem, hrest⟩ := List.cons_sublist_iff.mp hks
    obtain ⟨s, t, rfl⟩ := List.append_of_mem hmem
    rw [List.append_assoc, List.cons_append]
    exact skips s (.write hkey (ih (hrest.trans (List.sublist_append_right _ _))))
  | raised _ ih => exact .raised (ih hks)
  | skip _ ih => exact ih ((List.sublist_cons_self _ _).trans hks)

theorem flatMap {γ : Type} {keys : γ → List K} {gs : γ → SqliteBatches} {xs : List γ}
    (h : ∀ x ∈ xs, b.Along (keys x) (Session.writes (gs x))) :
    b.Along (xs.flatMap keys) (Session.writes (xs.flatMap gs)) := by
  induction xs with
  | nil => exact .nil
  | cons x xs ih =>
    have happend : Session.writes ((x :: xs).flatMap gs) =
        Session.writes (gs x) ++ Session.writes (xs.flatMap gs) := by
      unfold Session.writes
      rw [List.flatMap_cons, List.flatMap_append]
    rw [happend, List.flatMap_cons]
    exact (h x (by simp)).append (ih fun y hy => h y (List.mem_cons_of_mem _ hy))

/-- What may raise before it writes anything. -/
theorem of_except {α : Type} {r : Except Exn α} {g : α → SqliteBatches}
    (h : ∀ x, r = .ok x → b.Along ks (Session.writes (g x))) :
    b.Along ks (Session.writes (SqliteBatches.of r g)) := by
  cases r with
  | ok x => exact h x rfl
  | error e => exact error ks e

end Along

section Along

variable {b a now}

theorem rowAt_key {key : K} {value : V} {ttl : Option TtlPolicy} {createdAt : Option Instant}
    {row : SqlKey × SqlDbRow} (h : b.rowAt now key value ttl createdAt = .ok row) :
    b.fullKeyRow key = .ok row.1 := by
  unfold rowAt at h
  cases hkey : b.fullKeyRow key with
  | error e =>
    rw [hkey] at h
    cases h
  | ok p =>
    rw [hkey] at h
    cases h
    rfl

theorem rowWrites_along {items : List (K × V)} {options : WriteOptions}
    {rows : List (SqlKey × SqlDbRow)}
    (h : items.mapM (fun item => b.rowAt now item.1 item.2 options.ttl options.createdAt) = .ok rows) :
    b.Along (items.map Prod.fst) (Session.writes (b.rowWrites a rows)) := by
  have hone : ∀ w : SqlKey × SqlDbRow → RowWrite Exn SqlKey SqlDbRow, (∀ row, (w row).key = row.1) →
      b.Along (items.map Prod.fst) (Session.writes [.ok (rows.map w)]) := by
    intro w hw
    rw [writes_one]
    refine Along.of_mapM h fun item row hrow => ?_
    rw [hw]
    exact rowAt_key hrow
  unfold rowWrites
  dsimp only
  split
  · split
    · exact Along.error _ _
    · rw [List.map_map]
      exact hone _ fun _ => rfl
  · split
    · rw [List.map_map]
      exact hone _ fun _ => rfl
    · split
      · exact Along.error _ _
      · exact hone _ fun _ => rfl

variable (b a now) in
theorem setWrites_along (items : Dict K V) (options : WriteOptions) :
    ∃ ks : List K, ks.Nodup ∧ b.Along ks (Session.writes (b.setWrites a now items options)) := by
  refine ⟨items.keys, items.nodup, Along.of_except fun chunks hchunks => ?_⟩
  have hkeys : items.keys = chunks.flatMap fun chunk => chunk.map Prod.fst := by
    unfold Dict.keys
    rw [← flatten_of_chunkSequence hchunks, List.map_flatten, List.flatMap_def]
  rw [hkeys]
  exact Along.flatMap fun chunk _ => Along.of_except fun rows hrows => rowWrites_along hrows

theorem expected_key {key : K} {seen : Versioned V} {want : SqlRows.Expected}
    (h : b.expected key seen = .ok want) : b.fullKeyRow key = .ok want.key := by
  unfold expected at h
  split at h
  · cases hkey : b.fullKeyRow key with
    | error e =>
      rw [hkey] at h
      cases h
    | ok p =>
      rw [hkey] at h
      dsimp only [bind, Except.bind] at h
      split at h
      · cases h
        rfl
      · cases h
  · cases h

theorem puts_sublist (puts : List (K × ConditionalWrite V)) :
    ((puts.filterMap fun e => e.2.change.value?.map fun v => (e, v)).map Prod.fst).Sublist puts := by
  induction puts with
  | nil => exact List.Sublist.slnil
  | cons e puts ih =>
    rw [List.filterMap_cons]
    cases e.2.change.value? with
    | none => exact ih.cons e
    | some v => exact ih.cons_cons e

theorem putRows_along {ttl : Option TtlPolicy} {puts : List (K × ConditionalWrite V)}
    {rows : List (SqlKey × SqlDbRow)} (h : b.putRows now ttl puts = .ok rows)
    {w : SqlKey × SqlDbRow → RowWrite Exn SqlKey SqlDbRow} (hw : ∀ row, (w row).key = row.1) :
    b.Along (puts.map Prod.fst) ((rows.map w).map .ok) := by
  have hall : b.Along ((puts.filterMap fun e => e.2.change.value?.map fun v => (e, v)).map
      fun x => x.1.1) ((rows.map w).map .ok) := by
    refine Along.of_mapM h fun x row hrow => ?_
    rw [hw]
    exact rowAt_key hrow
  have hkeys := (puts_sublist puts).map (Prod.fst : K × ConditionalWrite V → K)
  rw [List.map_map] at hkeys
  exact hall.sublist hkeys

/-- Writes of different kinds are of different keys. -/
theorem picked_apart (writes : Dict K (ConditionalWrite V)) {p q : ConditionalWrite V → Bool}
    (hpq : ∀ w, p w = true → q w = false) :
    ∀ k ∈ (picked writes p).map Prod.fst, k ∉ (picked writes q).map Prod.fst := by
  intro k hk hk'
  obtain ⟨e, he, rfl⟩ := List.mem_map.mp hk
  obtain ⟨e', he', heq⟩ := List.mem_map.mp hk'
  obtain ⟨hmem, hp⟩ := List.mem_filter.mp he
  obtain ⟨hmem', hq⟩ := List.mem_filter.mp he'
  have hsame : e = e' := List.inj_on_of_nodup_map writes.nodup hmem hmem' heq.symm
  rw [← hsame, hpq e.2 hp] at hq
  cases hq

theorem nodup_picked (writes : Dict K (ConditionalWrite V)) (p : ConditionalWrite V → Bool) :
    ((picked writes p).map Prod.fst).Nodup :=
  (List.filter_sublist.map Prod.fst).nodup writes.nodup

theorem nodup_kinds (writes : Dict K (ConditionalWrite V)) :
    ((inserts writes).map Prod.fst ++ ((removals writes).map Prod.fst ++
      (replaces writes).map Prod.fst)).Nodup := by
  refine List.nodup_append.mpr ⟨nodup_picked writes _, List.nodup_append.mpr
    ⟨nodup_picked writes _, nodup_picked writes _, fun k hk k' hk' heq => ?_⟩, fun k hk k' hk' heq => ?_⟩
  · refine picked_apart writes (fun w hw => ?_) k hk (heq ▸ hk')
    cases hc : w.change.value? <;> simp [hc] at hw ⊢
  · subst heq
    rcases List.mem_append.mp hk' with hk' | hk'
    · refine picked_apart writes (fun w hw => ?_) k hk hk'
      cases hv : w.seen.version <;> simp [hv] at hw ⊢
    · refine picked_apart writes (fun w hw => ?_) k hk hk'
      cases hv : w.seen.version <;> simp [hv] at hw ⊢

variable (b a now) in
theorem conditionalWrites_along [DecidableEq K] (writes : Dict K (ConditionalWrite V)) (ttl : Option TtlPolicy) :
    ∃ ks : List K, ks.Nodup ∧
      b.Along ks (Session.writes (b.conditionalWrites a now writes ttl)) := by
  refine ⟨(inserts writes).map Prod.fst ++ ((removals writes).map Prod.fst ++
    (replaces writes).map Prod.fst), nodup_kinds writes, ?_⟩
  · unfold conditionalWrites
    split
    · exact Along.error _ _
    · rw [writes_append, writes_append]
      refine Along.append ?_ (Along.append ?_ ?_)
      · unfold insertWrites
        split
        · exact Along.none _
        · split
          · exact Along.error _ _
          · refine Along.of_except fun rows hrows => ?_
            have hrows' := putRows_along (w := fun e => a.write (.insert b.sqlKvset.setColumns e.1 e.2))
              hrows fun _ => rfl
            rw [writes_one]
            simpa only [List.map_map, Function.comp_def] using hrows'
      · unfold removeWrites
        split
        · exact Along.none _
        · refine Along.of_except fun expected hexpected => ?_
          rw [writes_one]
          split
          · have hwants := Along.of_mapM (w := fun want => a.write (.deleteIf want)) hexpected
              fun e want hwant => expected_key hwant
            simpa only [List.map_map, Function.comp_def] using hwants
          · have hwants := Along.of_mapM
              (w := fun want => a.write (.updateIf b.sqlKvset.ownColumns want fun _ => none)) hexpected
              fun e want hwant => expected_key hwant
            simpa only [List.map_map, Function.comp_def] using hwants
      · unfold replaceWrites
        split
        · exact Along.none _
        · refine Along.of_except fun expected hexpected => Along.of_except fun rows _ => ?_
          have hwants := Along.of_zip (w := fun p : SqlRows.Expected × SqlDbRow =>
            a.write (.updateIf b.sqlKvset.setColumns p.1 p.2)) (fun p => (rfl : _ = p.1.key))
            ((forall₂_of_mapM hexpected).imp fun e want hwant => expected_key hwant) (rows.map (·.2))
          rw [writes_one]
          simpa only [List.map_map, Function.comp_def] using hwants

end Along

/-! ### Deletions -/

theorem effect_delete (k k' : SqlKey) (row : Option SqlDbRow) :
    (Statement.delete k').effect ((Statement.delete k).effect row) = (Statement.delete k).effect row := by
  cases row <;> rfl

/-- Columns that are cleared hold nothing to clear. -/
theorem effect_clear (columns : List String) (k k' : SqlKey) (row : Option SqlDbRow) :
    (Statement.clear columns k').effect ((Statement.clear columns k).effect row) =
      (Statement.clear columns k).effect row := by
  by_cases hmeets : (Statement.clear columns k).meets row = true
  · rw [Statement.effect_met hmeets]
    refine Statement.effect_unmet ?_
    cases row with
    | none => rfl
    | some row =>
      show (columns.any fun c => (SqlRows.assign columns (fun _ => none) row c).isSome) = false
      refine List.any_eq_false.mpr fun c hc => ?_
      unfold SqlRows.assign
      rw [if_pos hc]
      exact Bool.false_ne_true
  · rw [Statement.effect_unmet (Bool.eq_false_iff.mpr hmeets)]
    exact Statement.effect_unmet (Bool.eq_false_iff.mpr hmeets)

/-- Writes that do nothing to what one of them made. -/
theorem keyWrites_spares {keys : List K} {stmt : SqlKey → Statement}
    (hstmt : ∀ k k' row, (stmt k').effect ((stmt k).effect row) = (stmt k).effect row) :
    (Session.writes (b.keyWrites a keys stmt)).Pairwise
      fun x y => ∀ v w, x = .ok v → y = .ok w → v.Spares w := by
  have hmem : ∀ w, .ok w ∈ Session.writes (b.keyWrites a keys stmt) → ∃ k, w = a.write (stmt k) := by
    intro w hw
    obtain ⟨g, hg, hw⟩ := List.mem_flatMap.mp hw
    unfold keyWrites at hg
    cases hchunks : chunkSequence keys b.batchSize with
    | error e =>
      rw [hchunks] at hg
      rw [List.mem_singleton.mp hg] at hw
      exact nomatch List.mem_singleton.mp hw
    | ok chunks =>
      rw [hchunks] at hg
      obtain ⟨chunk, -, hg⟩ := List.mem_flatMap.mp hg
      cases hrows : chunk.mapM b.fullKeyRow with
      | error e =>
        rw [hrows] at hg
        rw [List.mem_singleton.mp hg] at hw
        exact nomatch List.mem_singleton.mp hw
      | ok keyRows =>
        rw [hrows] at hg
        rw [List.mem_singleton.mp hg] at hw
        dsimp only at hw
        obtain ⟨v, hv, hvw⟩ := List.mem_map.mp hw
        cases hvw
        obtain ⟨s, hs, rfl⟩ := List.mem_map.mp hv
        obtain ⟨k, -, rfl⟩ := List.mem_map.mp hs
        exact ⟨k, rfl⟩
  refine List.pairwise_of_forall_mem_list fun x hx y hy v w hv hw => ?_
  subst hv hw
  obtain ⟨k, rfl⟩ := hmem v hx
  obtain ⟨k', rfl⟩ := hmem w hy
  exact .inr fun row => hstmt k k' row

/-! ### Batches that raise -/

/-- A batch write of the store. -/
inductive Batch (K V : Type) where
  | set (items : Dict K V) (options : WriteOptions)
  | delete (keys : List K)
  | writeIfUnchanged (writes : Dict K (ConditionalWrite V)) (ttl : Option TtlPolicy)

variable [DecidableEq K]

def runBatch : Batch K V → M SqliteConnection Unit
  | .set items options => b.sqliteBatchSet a now items options
  | .delete keys => do
    let _ ← b.sqliteBatchDelete a keys
    return ()
  | .writeIfUnchanged writes ttl => do
    let _ ← b.sqliteBatchWriteIfUnchanged a now writes ttl
    return ()

/-- Its row writes, a batch for each call of the adapter. -/
def batchWrites : Batch K V → SqliteBatches
  | .set items options => b.setWrites a now items options
  | .delete keys => b.deleteWrites a keys
  | .writeIfUnchanged writes ttl => b.conditionalWrites a now writes ttl

theorem runBatch_comesTo (h : a.autocommit = true) (batch : Batch K V) :
    ComesTo (b.runBatch a now batch) (b.batchWrites a now batch) := by
  cases batch with
  | set items options => exact b.sqliteBatchSet_comesTo now h items options
  | delete keys => exact (b.sqliteBatchDelete_comesTo h keys).map fun _ => ()
  | writeIfUnchanged writes ttl =>
    exact (b.sqliteBatchWriteIfUnchanged_comesTo now h writes ttl).map fun _ => ()

theorem batchWrites_spares (batch : Batch K V)
    (hinj : ∀ k k' r, b.fullKeyRow k = .ok r → b.fullKeyRow k' = .ok r → k = k') :
    (Session.writes (b.batchWrites a now batch)).Pairwise
      fun x y => ∀ v w, x = .ok v → y = .ok w → v.Spares w := by
  cases batch with
  | set items options =>
    obtain ⟨ks, hn, halong⟩ := setWrites_along b a now items options
    exact halong.spares hn hinj
  | delete keys =>
    show (Session.writes (b.deleteWrites a keys)).Pairwise _
    unfold deleteWrites
    dsimp only
    split
    · exact b.keyWrites_spares a effect_delete
    · split
      · exact List.pairwise_singleton _ _
      · split
        · exact List.pairwise_singleton _ _
        · exact b.keyWrites_spares a (effect_clear _)
  | writeIfUnchanged writes ttl =>
    obtain ⟨ks, hn, halong⟩ := conditionalWrites_along b a now writes ttl
    exact halong.spares hn hinj

/-- A batch that raises leaves nothing of itself, for this connection or anyone else, now or
    after later calls, where the first of its row writes that does anything to the table as it
    stood is refused. Where distinct keys have distinct rows it is so only there. -/
theorem batch_all_or_nothing (hauto : a.autocommit = true) (batch : Batch K V) (c : SqliteConnection)
    {e : Exn} (hraise : (b.runBatch a now batch c).1 = .error e) :
    (Session.Barren (Session.writes (b.batchWrites a now batch)) c.current →
      Session.LeavesNothing Exn c (b.runBatch a now batch c).2) ∧
    ((∀ k k' r, b.fullKeyRow k = .ok r → b.fullKeyRow k' = .ok r → k = k') →
      Session.LeavesNothing Exn c (b.runBatch a now batch c).2 →
      Session.Barren (Session.writes (b.batchWrites a now batch)) c.current) := by
  obtain ⟨hres, hstate⟩ := b.runBatch_comesTo a now hauto batch c
  rw [hraise] at hres
  rw [hstate]
  exact ⟨fun h => h.leavesNothing, fun hinj h =>
    h.barren (b.batchWrites_spares a now batch hinj) hres.symm⟩

/-! ### Notes that may not be empty -/

/-- SQLite with a check on the notes. -/
def checkedNotes : SqliteSqlDbClientAdapter where
  autocommit := true
  beginOnWrite := false
  refuses
    | .upsert _ _ values, _ =>
      if values "v" = some (.text "") then some (.medium "CHECK constraint failed: v") else none
    | _, _ => none
  table := "notes"
  reprKey _ := "['k']"
  commits := by decide

def noNotes : SqliteConnection := ⟨fun _ => none, none⟩

/-- The empty note is the first. -/
def emptyFirst : Batch String String := .set ((Dict.single "a" "").set "b" "more") WriteOptions.none

theorem batch_all_or_nothing_emptyFirst :
    Session.LeavesNothing Exn noNotes (notes.runBatch checkedNotes (fun _ => 10) emptyFirst noNotes).2 := by
  have hraise : (notes.runBatch checkedNotes (fun _ => 10) emptyFirst noNotes).1 =
      .error (.medium "CHECK constraint failed: v") := rfl
  refine (notes.batch_all_or_nothing checkedNotes (fun _ => 10) rfl emptyFirst noNotes hraise).1 ?_
  exact ⟨[], _, _, rfl, by simp, _, rfl⟩

/-- The empty note is the second. -/
def emptySecond : Batch String String := .set ((Dict.single "a" "more").set "b" "") WriteOptions.none

/-- A batch that raised has written its first note, and the next call commits it. -/
theorem batch_half_written : ¬ ∀ (a : SqliteSqlDbClientAdapter) (batch : Batch String String)
    (c : SqliteConnection) (e : Exn), a.autocommit = true →
      (notes.runBatch a (fun _ => 10) batch c).1 = .error e →
      Session.LeavesNothing Exn c (notes.runBatch a (fun _ => 10) batch c).2 := by
  intro hall
  have hraise : (notes.runBatch checkedNotes (fun _ => 10) emptySecond noNotes).1 =
      .error (.medium "CHECK constraint failed: v") := rfl
  have hnothing := hall checkedNotes emptySecond noNotes _ rfl hraise
    [[checkedNotes.write (.delete [.text "c"])]]
  rcases hnothing.2 with hcommitted | ⟨-, hcommitted⟩
  · exact nomatch congrFun hcommitted [.text "a"]
  · exact nomatch congrFun hcommitted [.text "a"]

end SqlDbKvBackend

end Kvtsjl
