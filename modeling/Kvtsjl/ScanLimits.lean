import Kvtsjl.LeafScan

/-
  A limit counts the rows that pass. The cascade with a limit does what the cascade without one
  does until the limit is reached, whatever the store answers (`applyCascade_limit`). What the
  leaf does with the limit besides is another matter: the keyset pages of a SQL store count the
  rows that come.
-/

namespace Kvtsjl

open Assoc (Dict)
open Effects Prog

section Cascade

variable {S K V : Type} [DecidableEq K] [ScanKey K] {q : CascadeCall K V}

def CascadeCall.unlimited (q : CascadeCall K V) : CascadeCall K V := { q with limit := none }

/-- What is given out, cut at the limit. -/
def cutWaits (q : CascadeCall K V) (w : Waits K V) : Waits K V := { w with out := cut q w.out }

omit [ScanKey K] in
theorem cutWaits_of_not_reached {w : Waits K V} (h : q.reached w.out.length = false) :
    cutWaits q w = w := by
  unfold cutWaits
  rw [cut_of_not_reached q h]

theorem giveFound_append (found : Dict K V) (snap : Dict K (ScanRow K V)) (keys : List K) :
    ∀ out : List (ScanRow K V), ∃ more, giveFound q found snap keys out = out ++ more := by
  induction keys with
  | nil => exact fun out => ⟨[], (List.append_nil out).symm⟩
  | cons key keys ih =>
    intro out
    rw [giveFound]
    cases found.get? key with
    | none => exact ih out
    | some value =>
      dsimp only
      split
      · exact ih out
      · split
        · exact ih out
        · split
          · exact ⟨_, rfl⟩
          · obtain ⟨more, hmore⟩ := ih (out ++ [projectRow
              ⟨key, some value, (snap.get? key).bind fun base => base.stat⟩ q.project])
            exact ⟨_, by rw [hmore, List.append_assoc]⟩

/-- The rows found, up to the limit, are the rows found without one, cut. -/
theorem giveFound_cut (found : Dict K V) (snap : Dict K (ScanRow K V)) (keys : List K) :
    ∀ {out : List (ScanRow K V)}, q.reached out.length = false →
      giveFound q found snap keys out = cut q (giveFound q.unlimited found snap keys out) := by
  induction keys with
  | nil => exact fun hreached => (cut_of_not_reached q hreached).symm
  | cons key keys ih =>
    intro out hreached
    have hskip := ih hreached
    rw [giveFound, giveFound]
    cases found.get? key with
    | none => exact hskip
    | some value =>
      dsimp only
      have hrefined : q.unlimited.refined = q.refined := rfl
      have hvalueP : q.unlimited.valueP = q.valueP := rfl
      have hproject : q.unlimited.project = q.project := rfl
      have hnever : ∀ n, ¬ q.unlimited.reached n = true := fun n => Bool.false_ne_true
      rw [hrefined, hvalueP, hproject]
      split
      · exact hskip
      · split
        · exact hskip
        · rw [if_neg (hnever _)]
          split
          · next hlast =>
            obtain ⟨more, hmore⟩ := giveFound_append (q := q.unlimited) found snap keys
              (out ++ [projectRow ⟨key, some value, (snap.get? key).bind fun base => base.stat⟩ q.project])
            rw [hmore, cut_append_of_reached q hlast (cut_concat q hreached _)]
          · next hmore => exact ih (Bool.eq_false_iff.mpr hmore)

theorem flush_cut (get : List K → M S (Dict K V)) {w : Waits K V} (h : q.reached w.out.length = false) :
    flush q get w = cutWaits q <$> flush q.unlimited get w := by
  unfold flush
  split
  · rw [map_pure, cutWaits_of_not_reached h]
  · rw [map_bind]
    refine bind_congr fun r => ?_
    rw [map_bind]
    refine bind_congr fun found => ?_
    rw [map_pure, giveFound_cut found r.1 w.pendingKeys h]
    rfl

theorem flushFirst_cut (batchGet : Option (List K → M S (Dict K V))) {w : Waits K V}
    (h : q.reached w.out.length = false) :
    flushFirst q batchGet w = cutWaits q <$> flushFirst q.unlimited batchGet w := by
  unfold flushFirst
  have hvalueP : q.unlimited.valueP = q.valueP := rfl
  rw [hvalueP]
  split
  · rw [map_pure, cutWaits_of_not_reached h]
  · split
    · rw [map_pure, cutWaits_of_not_reached h]
    · exact flush_cut _ h

omit [DecidableEq K] [ScanKey K] in
theorem reached_cut (out : List (ScanRow K V)) : q.reached (cut q out).length = q.reached out.length := by
  have hlength := reached_cut_append q out []
  rw [List.append_nil, List.append_nil] at hlength
  exact hlength

omit [DecidableEq K] [ScanKey K] in
/-- Past the limit, what follows is cut off. -/
theorem cut_past {out : List (ScanRow K V)} (h : q.reached out.length = true) (more : List (ScanRow K V)) :
    cut q (out ++ more) = cut q out := by
  have hreached : q.reached (cut q out).length = true := by
    rw [reached_cut, h]
  have hidem : cut q (cut q out) = cut q out := by
    have htwice := cut_cut_append q out []
    rw [List.append_nil, List.append_nil] at htwice
    exact htwice
  rw [← cut_cut_append, cut_append_of_reached q hreached hidem]

theorem giveRow_append (row : ScanRow K V) (w : Waits K V) :
    ∃ more, giveRow q row w = { w with out := w.out ++ more } := by
  have hsame : w = { w with out := w.out ++ [] } := by
    rw [List.append_nil]
  unfold giveRow
  split
  · exact ⟨[], hsame⟩
  · split
    · exact ⟨[], hsame⟩
    · split
      · exact ⟨[], hsame⟩
      · exact ⟨_, rfl⟩

theorem giveRow_cut {row : ScanRow K V} {w : Waits K V}
    (h : q.valueP.isEmpty = true → q.reached w.out.length = false) :
    giveRow q row (cutWaits q w) = cutWaits q (giveRow q.unlimited row w) := by
  cases hreached : q.reached w.out.length with
  | true =>
    have hvalue : q.valueP.isEmpty = false := by
      by_contra hempty
      rw [h (Bool.not_eq_false _ ▸ hempty)] at hreached
      cases hreached
    have hstops : q.reached (cut q w.out).length = true := by
      rw [reached_cut, hreached]
    obtain ⟨more, hmore⟩ := giveRow_append (q := q.unlimited) row w
    have hout : cutWaits q { w with out := w.out ++ more } = cutWaits q w := by
      unfold cutWaits
      rw [cut_past hreached]
    rw [hmore, hout]
    unfold giveRow
    rw [if_pos (by rw [hvalue]; exact hstops)]
  | false =>
    rw [cutWaits_of_not_reached hreached]
    unfold giveRow
    have hnever : ∀ n, q.unlimited.reached n = false := fun n => rfl
    have hrefined : q.unlimited.refined = q.refined := rfl
    have hvalueP : q.unlimited.valueP = q.valueP := rfl
    have hproject : q.unlimited.project = q.project := rfl
    rw [hnever, hreached, hrefined, hvalueP, hproject, Bool.and_false, if_neg Bool.false_ne_true]
    split
    · exact (cutWaits_of_not_reached hreached).symm
    · split
      · exact (cutWaits_of_not_reached hreached).symm
      · unfold cutWaits
        rw [cut_concat q hreached]

variable (batchGet : Option (List K → M S (Dict K V)))

/-- Before the limit is reached, a row does what it does without a limit, up to the limit. -/
theorem cascadeRow_cut {w : Waits K V} (h : q.reached w.out.length = false) (row : ScanRow K V) :
    cascadeRow q batchGet w row = cutWaits q <$> cascadeRow q.unlimited batchGet w row := by
  have hpure : (pure w : M S (Waits K V)) = cutWaits q <$> (pure w : M S (Waits K V)) := by
    rw [map_pure, cutWaits_of_not_reached h]
  have hnever : ∀ n, q.unlimited.reached n = false := fun n => rfl
  have hkeyP : q.unlimited.keyP = q.keyP := rfl
  have hstatP : q.unlimited.statP = q.statP := rfl
  have hwaits : q.unlimited.waits row = q.waits row := rfl
  unfold cascadeRow
  rw [h, hnever, if_neg Bool.false_ne_true, if_neg Bool.false_ne_true, hkeyP, hstatP, hwaits]
  split
  · exact hpure
  · split
    · exact hpure
    · split
      · unfold await
        split
        · rfl
        · dsimp only
          split
          · exact flush_cut _ h
          · rw [map_pure]
            exact congrArg pure (@cutWaits_of_not_reached _ _ _ q
              ⟨w.out, w.pendingKeys ++ [row.key], w.pendingRows.set row.key row⟩ h).symm
      · cases hvalue : q.valueP.isEmpty with
        | true =>
          have hfirst : flushFirst q batchGet w = pure w := by
            unfold flushFirst
            rw [if_pos hvalue]
          have hfirst' : flushFirst q.unlimited batchGet w = pure w := by
            unfold flushFirst
            exact if_pos hvalue
          rw [hfirst, hfirst', pure_bind, pure_bind, map_pure, ← giveRow_cut fun _ => h,
            cutWaits_of_not_reached h]
        | false =>
          rw [flushFirst_cut batchGet h, map_bind, map_eq_pure_bind, bind_assoc]
          refine bind_congr fun w' => ?_
          rw [pure_bind, map_pure, giveRow_cut fun hempty => by rw [hvalue] at hempty; cases hempty]

theorem flush_append (get : List K → M S (Dict K V)) (w : Waits K V) :
    Gives (fun w' => ∃ more, w'.out = w.out ++ more) (flush q get w) := by
  unfold flush
  split
  · exact Gives.pure ⟨[], (List.append_nil _).symm⟩
  · exact (Gives.trivial _).bind fun r _ => (Gives.trivial _).bind fun found _ =>
      Gives.pure (giveFound_append _ _ _ _)

theorem flushFirst_append (w : Waits K V) :
    Gives (fun w' => ∃ more, w'.out = w.out ++ more) (flushFirst q batchGet w) := by
  unfold flushFirst
  split
  · exact Gives.pure ⟨[], (List.append_nil _).symm⟩
  · split
    · exact Gives.pure ⟨[], (List.append_nil _).symm⟩
    · exact flush_append _ w

/-- What is given out stays. -/
theorem cascadeRow_append (w : Waits K V) (row : ScanRow K V) :
    Gives (fun w' => ∃ more, w'.out = w.out ++ more) (cascadeRow q batchGet w row) := by
  have hpure : Gives (fun w' : Waits K V => ∃ more, w'.out = w.out ++ more)
      (pure w : M S (Waits K V)) := Gives.pure ⟨[], (List.append_nil _).symm⟩
  unfold cascadeRow
  split
  · exact hpure
  · split
    · exact hpure
    · split
      · exact hpure
      · split
        · unfold await
          split
          · exact Gives.raise _
          · dsimp only
            split
            · exact flush_append _ _
            · exact Gives.pure ⟨[], (List.append_nil _).symm⟩
        · refine (flushFirst_append batchGet w).bind fun w' ⟨more, hmore⟩ => Gives.pure ?_
          obtain ⟨more', hmore'⟩ := giveRow_append (q := q) row w'
          exact ⟨more ++ more', by rw [hmore', hmore, List.append_assoc]⟩

theorem finish_append (w : Waits K V) :
    Gives (fun all => ∃ more, all = w.out ++ more) (finish q batchGet w) := by
  unfold finish
  split
  · exact Gives.pure ⟨[], (List.append_nil _).symm⟩
  · exact (flushFirst_append batchGet w).bind fun w' hw' => Gives.pure hw'

theorem run_append (rows : List (ScanRow K V)) (w : Waits K V) :
    Gives (fun all => ∃ more, all = w.out ++ more)
      (rows.foldlM (cascadeRow q batchGet) w >>= finish q batchGet) := by
  have hrows : Gives (fun w' : Waits K V => ∃ more, w'.out = w.out ++ more)
      (rows.foldlM (cascadeRow q batchGet) w) := by
    refine @Gives.foldlM _ _ _ _ (fun _ w' => ∃ more, w'.out = w.out ++ more) _ ?_ rows [] w
      ⟨[], (List.append_nil _).symm⟩
    intro past w' row ⟨more, hmore⟩
    refine (cascadeRow_append batchGet w' row).weaken fun w'' ⟨more', hmore'⟩ => ?_
    exact ⟨more ++ more', by rw [hmore', hmore, List.append_assoc]⟩
  refine hrows.bind fun w' ⟨more, hmore⟩ => (finish_append batchGet w').weaken fun all ⟨more', hall⟩ => ?_
  exact ⟨more ++ more', by rw [hall, hmore, List.append_assoc]⟩

/-- Once the limit is reached nothing is done. -/
theorem run_reached {w : Waits K V} (h : q.reached w.out.length = true) (rows : List (ScanRow K V)) :
    (rows.foldlM (cascadeRow q batchGet) w >>= finish q batchGet) = pure w.out := by
  induction rows with
  | nil =>
    rw [List.foldlM_nil, pure_bind]
    unfold finish
    rw [if_pos h]
  | cons row rows ih =>
    have hstop : cascadeRow q batchGet w row = pure w := by
      unfold cascadeRow
      rw [if_pos h]
    rw [List.foldlM_cons, hstop, pure_bind, ih]

/-- A limit cuts off what the cascade gives without it. -/
theorem applyCascade_limit {rows all : List (ScanRow K V)} {s s' : S}
    (h : applyCascade q.unlimited batchGet rows s = (.ok all, s')) :
    (applyCascade q batchGet rows s).1 = .ok (cut q all) := by
  have hrun : ∀ (rows : List (ScanRow K V)) (w : Waits K V) (s : S),
      (rows.foldlM (cascadeRow q.unlimited batchGet) w >>= finish q.unlimited batchGet) s = (.ok all, s') →
      ((rows.foldlM (cascadeRow q batchGet) (cutWaits q w) >>= finish q batchGet) s).1 = .ok (cut q all) := by
    intro rows
    induction rows with
    | nil =>
      intro w s hall
      rw [List.foldlM_nil, pure_bind] at hall ⊢
      cases hreached : q.reached w.out.length with
      | true =>
        obtain ⟨more, rfl⟩ := finish_append batchGet _ _ _ _ hall
        unfold finish
        rw [if_pos (by rw [← hreached]; exact reached_cut _), cut_past hreached]
        rfl
      | false =>
        have hnever : q.unlimited.reached w.out.length = false := rfl
        unfold finish at hall ⊢
        rw [cutWaits_of_not_reached hreached, hreached, if_neg Bool.false_ne_true,
          flushFirst_cut batchGet hreached]
        rw [hnever, if_neg Bool.false_ne_true] at hall
        obtain ⟨w', t, hflush, hout⟩ := bind_eq_ok hall
        cases hout
        rw [bind_apply, map_apply, hflush]
        rfl
    | cons row rows ih =>
      intro w s hall
      cases hreached : q.reached w.out.length with
      | true =>
        obtain ⟨more, rfl⟩ := run_append batchGet _ _ _ _ _ hall
        rw [run_reached batchGet (by rw [← hreached]; exact reached_cut _), cut_past hreached]
        rfl
      | false =>
        rw [List.foldlM_cons, bind_assoc] at hall
        obtain ⟨w', t, hrow, hrest⟩ := bind_eq_ok hall
        have hcut := congrFun (cascadeRow_cut batchGet hreached row) s
        rw [map_apply, hrow] at hcut
        rw [cutWaits_of_not_reached hreached, List.foldlM_cons, bind_assoc, bind_ok hcut]
        exact ih w' t hrest
  have hnil : cutWaits q ⟨[], [], .empty⟩ = (⟨[], [], .empty⟩ : Waits K V) := by
    show (⟨cut q [], [], .empty⟩ : Waits K V) = _
    rw [cut_nil]
  have happly := hrun rows ⟨[], [], .empty⟩ s h
  rw [hnil] at happly
  exact happly

end Cascade

end Kvtsjl
