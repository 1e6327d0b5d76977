import Kvtsjl.Lib.Prog

/-
  One session of a database over a table, and batches of writes to its rows.
  The first write of a batch opens a transaction where none is open, and a batch that
  gets through commits. A refused write raises and leaves the transaction open, with
  what the writes before it did: a later batch of the session commits that too.

  `leavesNothing_iff` says which of the batches that raise are as if they had never been.
-/

namespace Effects

open Prog

/-- What is committed, and what the open transaction, if there is one, has made of it. -/
structure Session (P R : Type) where
  committed : P → Option R
  working : Option (P → Option R)

/-- A write of one row: what becomes of it, and which tables refuse it. -/
structure RowWrite (ε P R : Type) where
  key : P
  effect : Option R → Option R
  refusal : (P → Option R) → Option ε

namespace RowWrite

variable {ε P R : Type} [DecidableEq P]

def run (w : RowWrite ε P R) (t : P → Option R) : Except ε (P → Option R) :=
  match w.refusal t with
  | some e => .error e
  | none => .ok (Function.update t w.key (w.effect (t w.key)))

/-- Where `v` has made a row, `w` makes no other of it. -/
def Spares (v w : RowWrite ε P R) : Prop :=
  v.key ≠ w.key ∨ ∀ r, w.effect (v.effect r) = v.effect r

end RowWrite

namespace Session

variable {ε P R : Type} [DecidableEq P]

/-- What the session sees. -/
def current (c : Session P R) : P → Option R := c.working.getD c.committed

def commit (c : Session P R) : Session P R := ⟨c.current, none⟩

omit [DecidableEq P] in
@[simp] theorem current_commit (c : Session P R) : c.commit.current = c.current := rfl

/-- A write, in the open transaction or one that it opens. -/
def exec (w : RowWrite ε P R) : Prog ε (Session P R) Unit := fun c =>
  match w.run c.current with
  | .ok t => (.ok (), { c with working := some t })
  | .error e => (.error e, { c with working := some c.current })

/-- A batch: its writes in order, and a commit. One of no writes does nothing. -/
def transact (ws : List (RowWrite ε P R)) : Prog ε (Session P R) Unit := do
  forM ws exec
  Prog.when (ws ≠ []) (Prog.modify commit)

/-- Batches one after the other, until one raises. One may raise before its first write. -/
def perform (gs : List (Except ε (List (RowWrite ε P R)))) : Prog ε (Session P R) Unit :=
  forM gs fun g => Prog.ofExcept g >>= transact

/-- Batches of their own, whatever becomes of each. -/
def later (calls : List (List (RowWrite ε P R))) (c : Session P R) : Session P R :=
  calls.foldl (fun c ws => (transact ws c).2) c

/-- Going on from `c'` is as going on from `c`: the session sees the same, and what it commits
    is the same. Until it commits, others see what either saw at `c`. -/
def LeavesNothing (ε : Type) {P R : Type} [DecidableEq P] (c c' : Session P R) : Prop :=
  ∀ calls : List (List (RowWrite ε P R)), (later calls c').current = (later calls c).current ∧
    ((later calls c').committed = (later calls c).committed ∨
      (later calls c).committed = c.committed ∧ (later calls c').committed = c.current)

/-! ## The writes of batches, one by one -/

/-- The writes of the batches. A batch that raises before its first is a write that does. -/
def writes (gs : List (Except ε (List (RowWrite ε P R)))) : List (Except ε (RowWrite ε P R)) :=
  gs.flatMap fun
    | .ok ws => ws.map .ok
    | .error e => [.error e]

def attempted (x : Except ε (RowWrite ε P R)) (t : P → Option R) : Except ε (P → Option R) :=
  x.bind fun w => w.run t

/-- The first of the writes to do anything to the table is refused. -/
def Barren (xs : List (Except ε (RowWrite ε P R))) (t : P → Option R) : Prop :=
  ∃ before x after, xs = before ++ x :: after ∧ (∀ y ∈ before, attempted y t = .ok t) ∧
    ∃ e, attempted x t = .error e

/-- How far the writes get on a table. -/
def reached : List (Except ε (RowWrite ε P R)) → (P → Option R) → Except ε Unit × (P → Option R)
  | [], t => (.ok (), t)
  | x :: xs, t =>
    match attempted x t with
    | .ok t' => reached xs t'
    | .error e => (.error e, t)

theorem reached_append (xs ys : List (Except ε (RowWrite ε P R))) (t : P → Option R) :
    reached (xs ++ ys) t =
      match reached xs t with
      | (.ok (), t') => reached ys t'
      | (.error e, t') => (.error e, t') := by
  induction xs generalizing t with
  | nil => rfl
  | cons x xs ih =>
    rw [List.cons_append, reached, reached]
    cases attempted x t with
    | ok t' => exact ih t'
    | error e => rfl

theorem forM_exec (ws : List (RowWrite ε P R)) (c : Session P R) :
    forM ws exec c = ((reached (ws.map .ok) c.current).1,
      if ws = [] then c else ⟨c.committed, some (reached (ws.map .ok) c.current).2⟩) := by
  induction ws generalizing c with
  | nil => rfl
  | cons w ws ih =>
    rw [List.forM_cons, List.map_cons, reached, if_neg (by simp)]
    have hattempt : attempted (.ok w) c.current = w.run c.current := rfl
    rw [hattempt]
    cases hrun : w.run c.current with
    | ok t =>
      have hexec : exec w c = (.ok (), { c with working := some t }) := by unfold exec; rw [hrun]
      rw [bind_ok hexec, ih]
      cases ws with
      | nil => rfl
      | cons v ws => rfl
    | error e =>
      have hexec : exec w c = (.error e, { c with working := some c.current }) := by
        unfold exec; rw [hrun]
      rw [bind_error hexec]

/-- A batch that gets through commits what it comes to. -/
theorem transact_ok {ws : List (RowWrite ε P R)} {c : Session P R} {t : P → Option R}
    (h : reached (ws.map .ok) c.current = (.ok (), t)) :
    transact ws c = (.ok (), if ws = [] then c else ⟨t, none⟩) := by
  have hrun := forM_exec ws c
  rw [h] at hrun
  unfold transact Prog.when
  rw [bind_ok hrun]
  by_cases hws : ws = []
  · rw [if_pos hws, if_neg (not_not.mpr hws), if_pos hws]
    rfl
  · rw [if_neg hws, if_pos hws, if_neg hws]
    rfl

/-- One that does not leaves it uncommitted. -/
theorem transact_error {ws : List (RowWrite ε P R)} {c : Session P R} {t : P → Option R} {e : ε}
    (h : reached (ws.map .ok) c.current = (.error e, t)) :
    transact ws c = (.error e, ⟨c.committed, some t⟩) := by
  have hws : ws ≠ [] := by
    rintro rfl
    cases h
  have hrun := forM_exec ws c
  rw [h, if_neg hws] at hrun
  unfold transact
  rw [bind_error hrun]

theorem transact_current (ws : List (RowWrite ε P R)) (c : Session P R) :
    (transact ws c).1 = (reached (ws.map .ok) c.current).1 ∧
    (transact ws c).2.current = (reached (ws.map .ok) c.current).2 := by
  rcases hr : reached (ws.map .ok) c.current with ⟨e | u, t⟩
  · rw [transact_error hr]
    exact ⟨rfl, rfl⟩
  · rw [transact_ok hr]
    by_cases hws : ws = []
    · subst hws
      cases hr
      exact ⟨rfl, rfl⟩
    · rw [if_neg hws]
      exact ⟨rfl, rfl⟩

theorem perform_current (gs : List (Except ε (List (RowWrite ε P R)))) (c : Session P R) :
    (perform gs c).1 = (reached (writes gs) c.current).1 ∧
    (perform gs c).2.current = (reached (writes gs) c.current).2 := by
  induction gs generalizing c with
  | nil => exact ⟨rfl, rfl⟩
  | cons g gs ih =>
    unfold perform
    rw [List.forM_cons]
    cases g with
    | error e => exact ⟨rfl, rfl⟩
    | ok ws =>
      have hwrites : writes (.ok ws :: gs) = ws.map .ok ++ writes gs := rfl
      obtain ⟨hres, hcur⟩ := transact_current ws c
      rw [hwrites, reached_append]
      rcases hr : reached (ws.map .ok) c.current with ⟨e | u, t⟩
      · rw [hr] at hres hcur
        have hrun : (Prog.ofExcept (.ok ws) >>= transact : Prog ε (Session P R) Unit) c =
            (.error e, (transact ws c).2) := Prod.ext hres rfl
        rw [bind_error hrun]
        exact ⟨rfl, hcur⟩
      · rw [hr] at hres hcur
        have hrun : (Prog.ofExcept (.ok ws) >>= transact : Prog ε (Session P R) Unit) c =
            (.ok (), (transact ws c).2) := Prod.ext hres rfl
        rw [bind_ok hrun]
        obtain ⟨hres', hcur'⟩ := ih (transact ws c).2
        rw [hcur] at hres' hcur'
        exact ⟨hres', hcur'⟩

/-! ## Batches that leave nothing -/

/-- Two sessions that see the same go on the same. -/
theorem later_agree (calls : List (List (RowWrite ε P R))) (c c' : Session P R) {t t₀ : P → Option R}
    (hcur : c'.current = c.current)
    (hcom : c'.committed = c.committed ∨ c.committed = t ∧ c'.committed = t₀) :
    (later calls c').current = (later calls c).current ∧
      ((later calls c').committed = (later calls c).committed ∨
        (later calls c).committed = t ∧ (later calls c').committed = t₀) := by
  induction calls generalizing c c' with
  | nil => exact ⟨hcur, hcom⟩
  | cons ws calls ih =>
    refine ih (transact ws c).2 (transact ws c').2 ?_ ?_
    · rw [(transact_current ws c').2, (transact_current ws c).2, hcur]
    · rcases hr : reached (ws.map .ok) c.current with ⟨e | u, t'⟩
      · rw [transact_error hr, transact_error (hcur ▸ hr)]
        exact hcom
      · rw [transact_ok hr, transact_ok (hcur ▸ hr)]
        by_cases hws : ws = []
        · rw [if_pos hws, if_pos hws]
          exact hcom
        · rw [if_neg hws, if_neg hws]
          exact .inl rfl

/-- Writes the table is left alone by, and then one that is refused. -/
theorem Barren.reached {xs : List (Except ε (RowWrite ε P R))} {t : P → Option R}
    (h : Barren xs t) : ∃ e, reached xs t = (.error e, t) := by
  obtain ⟨before, x, after, rfl, hbefore, e, hx⟩ := h
  induction before with
  | nil =>
    refine ⟨e, ?_⟩
    rw [List.nil_append, Session.reached, hx]
  | cons y before ih =>
    obtain ⟨e', he'⟩ := ih fun z hz => hbefore z (List.mem_cons_of_mem _ hz)
    refine ⟨e', ?_⟩
    rw [List.cons_append, Session.reached, hbefore y (by simp)]
    exact he'

/-- The writes of a batch that got through, with more after them, do nothing. -/
theorem Barren.rest {xs ys : List (Except ε (RowWrite ε P R))} {t t' : P → Option R}
    (h : Barren (xs ++ ys) t) (hr : Session.reached xs t = (.ok (), t')) : t' = t ∧ Barren ys t := by
  induction xs generalizing t' with
  | nil =>
    cases hr
    exact ⟨rfl, h⟩
  | cons x xs ih =>
    rw [Session.reached] at hr
    obtain ⟨before, y, after, hsplit, hbefore, e, hy⟩ := h
    cases before with
    | nil =>
      obtain ⟨rfl, -⟩ := List.cons.inj hsplit
      rw [hy] at hr
      cases hr
    | cons z before =>
      obtain ⟨rfl, hrest⟩ := List.cons.inj hsplit
      rw [hbefore x (by simp)] at hr
      exact ih ⟨before, y, after, hrest, fun w hw => hbefore w (List.mem_cons_of_mem _ hw), e, hy⟩ hr

theorem perform_barren {gs : List (Except ε (List (RowWrite ε P R)))} {c : Session P R}
    (h : Barren (writes gs) c.current) :
    (perform gs c).2.committed = c.committed ∨ (perform gs c).2.committed = c.current := by
  induction gs generalizing c with
  | nil => exact .inl rfl
  | cons g gs ih =>
    unfold perform
    rw [List.forM_cons]
    cases g with
    | error e => exact .inl rfl
    | ok ws =>
      rcases hr : reached (ws.map .ok) c.current with ⟨e | u, t⟩
      · have hrun : (Prog.ofExcept (.ok ws) >>= transact : Prog ε (Session P R) Unit) c =
            (.error e, ⟨c.committed, some t⟩) := transact_error hr
        rw [bind_error hrun]
        exact .inl rfl
      · have hrun : (Prog.ofExcept (.ok ws) >>= transact : Prog ε (Session P R) Unit) c =
            (.ok (), if ws = [] then c else ⟨t, none⟩) := transact_ok hr
        rw [bind_ok hrun]
        have hwrites : Barren (ws.map .ok ++ writes gs) c.current := h
        obtain ⟨rfl, hrest⟩ := hwrites.rest hr
        by_cases hws : ws = []
        · rw [if_pos hws]
          exact ih hrest
        · rw [if_neg hws]
          rcases ih (c := ⟨c.current, none⟩) hrest with hcom | hcom
          · exact .inr hcom
          · exact .inr hcom

/-- Where each write spares what those before it made, one row once changed stays so. -/
theorem reached_spared {v : RowWrite ε P R} {xs : List (Except ε (RowWrite ε P R))}
    {t : P → Option R} {r : Option R} (hspares : ∀ w, .ok w ∈ xs → v.Spares w)
    (ht : t v.key = v.effect r) : (reached xs t).2 v.key = v.effect r := by
  induction xs generalizing t with
  | nil => exact ht
  | cons x xs ih =>
    rw [reached]
    cases hx : attempted x t with
    | error e => exact ht
    | ok t' =>
      refine ih (fun w hw => hspares w (List.mem_cons_of_mem _ hw)) ?_
      cases x with
      | error e => cases hx
      | ok w =>
        have hrun : w.run t = .ok t' := hx
        unfold RowWrite.run at hrun
        split at hrun
        · cases hrun
        · cases hrun
          by_cases hkey : v.key = w.key
          · rcases hspares w (by simp) with hne | hsame
            · exact absurd hkey hne
            · rw [hkey, Function.update_self, ← hkey, ht, hsame]
          · rw [Function.update_of_ne hkey]
            exact ht

/-- Writes that end up with the table they began with, and raise: none did anything. -/
theorem barren_of_reached {xs : List (Except ε (RowWrite ε P R))} {t : P → Option R} {e : ε}
    (hspares : xs.Pairwise fun x y => ∀ v w, x = .ok v → y = .ok w → v.Spares w)
    (h : reached xs t = (.error e, t)) : Barren xs t := by
  induction xs with
  | nil => cases h
  | cons x xs ih =>
    obtain ⟨hfirst, hrest⟩ := List.pairwise_cons.mp hspares
    rw [reached] at h
    cases hx : attempted x t with
    | error e' => exact ⟨[], x, xs, rfl, by simp, e', hx⟩
    | ok t' =>
      rw [hx] at h
      have hsame : t' = t := by
        cases x with
        | error e' => cases hx
        | ok v =>
          have hrun : v.run t = .ok t' := hx
          unfold RowWrite.run at hrun
          split at hrun
          · cases hrun
          · cases hrun
            have hkept : (reached xs (Function.update t v.key (v.effect (t v.key)))).2 v.key =
                v.effect (t v.key) :=
              reached_spared (fun w hw => hfirst _ hw v w rfl rfl) (Function.update_self ..)
            dsimp only at h
            rw [h] at hkept
            rw [← hkept, Function.update_eq_self]
      rw [hsame] at h hx
      obtain ⟨before, y, after, rfl, hbefore, hy⟩ := ih hrest h
      refine ⟨x :: before, y, after, rfl, fun z hz => ?_, hy⟩
      rcases List.mem_cons.mp hz with rfl | hz
      · exact hx
      · exact hbefore z hz

/-- Batches of which one raises are as if they had never been where the first write of all
    that does anything is refused. -/
theorem Barren.leavesNothing {gs : List (Except ε (List (RowWrite ε P R)))} {c : Session P R}
    (h : Barren (writes gs) c.current) : LeavesNothing ε c (perform gs c).2 := by
  intro calls
  obtain ⟨e, hr⟩ := h.reached
  refine later_agree calls c _ ?_ ?_
  · rw [(perform_current gs c).2, hr]
  · rcases perform_barren h with hcom | hcom
    · exact .inl hcom
    · exact .inr ⟨rfl, hcom⟩

/-- And only there. -/
theorem LeavesNothing.barren {gs : List (Except ε (List (RowWrite ε P R)))} {c : Session P R} {e : ε}
    (hspares : (writes gs).Pairwise fun x y => ∀ v w, x = .ok v → y = .ok w → v.Spares w)
    (hraise : (perform gs c).1 = .error e) (h : LeavesNothing ε c (perform gs c).2) :
    Barren (writes gs) c.current := by
  obtain ⟨hres, hcur⟩ := perform_current gs c
  have hsame : (perform gs c).2.current = c.current := (h []).1
  refine barren_of_reached (e := e) hspares (Prod.ext ?_ ?_)
  · rw [← hres, hraise]
  · rw [← hcur, hsame]

end Session

end Effects
