import Kvtsjl.Answers
import Kvtsjl.Scan

/-
  `apply_cascade`: what a leaf could not push down is decided here, row by row.
  Rows that came without a value they need wait, and are read a page at a time: when a hundred
  wait, before a row that carries its value, and at the end. `pagesOf` cuts the rows where the code
  reads them. A key that waits twice in one page raises (`applyCascade_iff`).
-/

namespace Kvtsjl

open Assoc (Dict)
open Effects Prog

/-! ## The cascade -/

/-- What a scan asks of its rows. -/
structure CascadeCall (K V : Type) where
  residual : Predicate K V
  refine : Option (ScanRow K V → Bool)
  limit : Option Int
  project : Projection

/-- `_project_row` -/
def projectRow {K V : Type} (row : ScanRow K V) : Projection → ScanRow K V
  | .keys => ⟨row.key, none, none⟩
  | .stats => ⟨row.key, none, row.stat⟩
  | .entries => row

namespace CascadeCall

variable {K V : Type} (q : CascadeCall K V)

def keyP : List (Predicate K V) := q.residual.partitionByNeeds.1

def statP : List (Predicate K V) := q.residual.partitionByNeeds.2.1

def valueP : List (Predicate K V) := q.residual.partitionByNeeds.2.2

def refined (row : ScanRow K V) : Bool := q.refine.all fun refine => refine row

/-- `value_p and row.value is None` -/
def waits (row : ScanRow K V) : Bool := !q.valueP.isEmpty && row.value.isNone

/-- `limit is not None and yielded >= limit` -/
def reached (yielded : Nat) : Bool := q.limit.any fun limit => decide (limit ≤ (yielded : Int))

end CascadeCall

/-- The rows given out, and those that wait for their value. -/
structure Waits (K V : Type) [DecidableEq K] where
  out : List (ScanRow K V)
  pendingKeys : List K
  pendingRows : Dict K (ScanRow K V)

def keyError : Exn := .medium "KeyError"

section Cascade

variable {S K V : Type} [DecidableEq K] [ScanKey K]

/-- `{k: pending_rows.pop(k) for k in keys}`, and the rows left. -/
def popAll : List K → Dict K (ScanRow K V) → Dict K (ScanRow K V) →
    Except Exn (Dict K (ScanRow K V) × Dict K (ScanRow K V))
  | [], rows, snap => .ok (snap, rows)
  | k :: keys, rows, snap =>
    match rows.get? k with
    | none => .error keyError
    | some row => popAll keys (rows.erase k) (snap.set k row)

variable (q : CascadeCall K V)

/-- The rows found, up to the limit. -/
def giveFound (found : Dict K V) (snap : Dict K (ScanRow K V)) :
    List K → List (ScanRow K V) → List (ScanRow K V)
  | [], out => out
  | key :: keys, out =>
    match found.get? key with
    | none => giveFound found snap keys out
    | some value =>
      let row : ScanRow K V := ⟨key, some value, (snap.get? key).bind fun base => base.stat⟩
      if !Predicate.allPass q.valueP row then giveFound found snap keys out
      else if !q.refined row then giveFound found snap keys out
      else
        let out := out ++ [projectRow row q.project]
        if q.reached out.length then out else giveFound found snap keys out

/-- `flush` -/
def flush (batchGet : List K → M S (Dict K V)) (w : Waits K V) : M S (Waits K V) :=
  if w.pendingKeys = [] then pure w
  else do
    let (snap, rest) ← ofExcept (popAll w.pendingKeys w.pendingRows .empty)
    let found ← batchGet w.pendingKeys
    pure ⟨giveFound q found snap w.pendingKeys w.out, [], rest⟩

/-- A row that waits for its value. -/
def await (batchGet : Option (List K → M S (Dict K V))) (row : ScanRow K V) (w : Waits K V) :
    M S (Waits K V) :=
  match batchGet with
  | none => raise (.scanUnsupported "VALUE residual requires a store for batch_get cascade")
  | some batchGet =>
    let w : Waits K V := ⟨w.out, w.pendingKeys ++ [row.key], w.pendingRows.set row.key row⟩
    if 100 ≤ w.pendingKeys.length then flush q batchGet w else pure w

/-- The rows that wait are read before one that carries its value, so the order holds. -/
def flushFirst (batchGet : Option (List K → M S (Dict K V))) (w : Waits K V) : M S (Waits K V) :=
  if q.valueP.isEmpty then pure w
  else match batchGet with
    | none => pure w
    | some batchGet => flush q batchGet w

/-- A row that has all it needs. -/
def giveRow (row : ScanRow K V) (w : Waits K V) : Waits K V :=
  if !q.valueP.isEmpty && q.reached w.out.length then w
  else if !Predicate.allPass q.valueP row then w
  else if !q.refined row then w
  else { w with out := w.out ++ [projectRow row q.project] }

def cascadeRow (batchGet : Option (List K → M S (Dict K V))) (w : Waits K V) (row : ScanRow K V) :
    M S (Waits K V) :=
  if q.reached w.out.length then pure w
  else if !Predicate.allPass q.keyP row then pure w
  else if !Predicate.allPass q.statP row then pure w
  else if q.waits row then await q batchGet row w
  else do
    let w ← flushFirst q batchGet w
    pure (giveRow q row w)

/-- Once the limit is reached, nothing more is done. -/
def finish (batchGet : Option (List K → M S (Dict K V))) (w : Waits K V) :
    M S (List (ScanRow K V)) :=
  if q.reached w.out.length then pure w.out
  else do
    let w ← flushFirst q batchGet w
    pure w.out

/-- `apply_cascade` -/
def applyCascade (batchGet : Option (List K → M S (Dict K V))) (rows : List (ScanRow K V)) :
    M S (List (ScanRow K V)) := do
  let w ← rows.foldlM (cascadeRow q batchGet) ⟨[], [], .empty⟩
  finish q batchGet w

/-! ## What is to be given -/

/-- The row that is given for a row, if it passes: on its own value, else on the store's. -/
def judge (content : K → Option V) (row : ScanRow K V) : Option (ScanRow K V) :=
  if q.residual.needs.value then
    ((row.value <|> content row.key).map fun value => { row with value := some value }).bind fun row =>
      if q.residual.evaluate row && q.refined row then some (projectRow row q.project) else none
  else if q.residual.evaluate row && q.refined row then some (projectRow row q.project)
  else none

/-- Cut at the limit. -/
def cut (rows : List (ScanRow K V)) : List (ScanRow K V) :=
  match q.limit with
  | none => rows
  | some limit => rows.take limit.toNat

/-- From a state with `I` the store answers from its content, and keeps `I`. -/
def Steady (I : S → Prop) (content : K → Option V) (batchGet : List K → M S (Dict K V)) : Prop :=
  ∀ keys s, I s → ∃ found s', batchGet keys s = (.ok found, s') ∧ I s' ∧
    ∀ k ∈ keys, found.get? k = content k

/-- The rows that pass what can be decided before their value is known. -/
def considered (rows : List (ScanRow K V)) : List (ScanRow K V) :=
  rows.filter fun row => Predicate.allPass q.keyP row && Predicate.allPass q.statP row

/-- The rows cut where they are read: a page of rows that wait for their values ends with the
    hundredth, or before a row that waits for nothing. -/
def pagesOf : List (ScanRow K V) → List (ScanRow K V) → List (List (ScanRow K V))
  | page, [] => [page]
  | page, row :: rows =>
    if q.waits row then
      if 100 ≤ page.length + 1 then (page ++ [row]) :: pagesOf [] rows
      else pagesOf (page ++ [row]) rows
    else page :: [row] :: pagesOf [] rows

/-- No key is twice in a page that is read before the limit is reached. -/
def NoneTwice (content : K → Option V) (out : List (ScanRow K V)) (rows : List (List (ScanRow K V))) :
    Prop :=
  ∀ before page after, rows = before ++ page :: after →
    q.reached (out ++ before.flatten.filterMap (judge q content)).length = false →
      (page.map fun row => row.key).Nodup

end Cascade

/-! ### The limit -/

section Limit

variable {K V : Type} (q : CascadeCall K V)

theorem reached_eq_true {n : Nat} : q.reached n = true ↔ ∃ limit, q.limit = some limit ∧ limit.toNat ≤ n := by
  unfold CascadeCall.reached
  cases q.limit with
  | none => simp
  | some limit => simp

theorem cut_cut_append (out rows : List (ScanRow K V)) : cut q (cut q out ++ rows) = cut q (out ++ rows) := by
  unfold cut
  cases q.limit with
  | none => rfl
  | some limit =>
    have hrest : limit.toNat - min limit.toNat out.length = limit.toNat - out.length := by omega
    simp only
    rw [List.take_append, List.take_append, List.take_take, List.length_take, Nat.min_self, hrest]

theorem reached_cut_append (out rows : List (ScanRow K V)) :
    q.reached (cut q out ++ rows).length = q.reached (out ++ rows).length := by
  rw [Bool.eq_iff_iff, reached_eq_true, reached_eq_true]
  refine exists_congr fun limit => and_congr_right fun hlimit => ?_
  have hlength : (cut q out).length = min limit.toNat out.length := by
    unfold cut
    rw [hlimit]
    exact List.length_take
  rw [List.length_append, List.length_append, hlength]
  omega

theorem cut_append_of_reached {out : List (ScanRow K V)} (h : q.reached out.length = true)
    (hcut : cut q out = out) (rows : List (ScanRow K V)) : cut q (out ++ rows) = out := by
  obtain ⟨limit, hlimit, hle⟩ := (reached_eq_true q).mp h
  unfold cut at hcut ⊢
  rw [hlimit] at hcut ⊢
  simp only at hcut ⊢
  rw [List.take_append_of_le_length hle]
  exact hcut

theorem cut_concat {out : List (ScanRow K V)} (h : q.reached out.length = false) (row : ScanRow K V) :
    cut q (out ++ [row]) = out ++ [row] := by
  unfold cut
  cases hlimit : q.limit with
  | none => rfl
  | some limit =>
    refine List.take_of_length_le ?_
    by_contra hlong
    rw [List.length_append, List.length_singleton] at hlong
    rw [(reached_eq_true q).mpr ⟨limit, hlimit, by omega⟩] at h
    cases h

theorem cut_of_not_reached {out : List (ScanRow K V)} (h : q.reached out.length = false) :
    cut q out = out := by
  unfold cut
  cases hlimit : q.limit with
  | none => rfl
  | some limit =>
    refine List.take_of_length_le ?_
    by_contra hlong
    rw [(reached_eq_true q).mpr ⟨limit, hlimit, by omega⟩] at h
    cases h

theorem cut_nil : cut q [] = ([] : List (ScanRow K V)) := by
  unfold cut
  cases q.limit with
  | none => rfl
  | some limit => exact List.take_nil

end Limit

/-! ### The rows that wait -/

section Waiting

variable {K V : Type} [DecidableEq K]

/-- The rows of a page by their keys. -/
def rowsOf (page : List (ScanRow K V)) : Dict K (ScanRow K V) :=
  page.foldl (fun rows row => rows.set row.key row) .empty

theorem rowsOf_concat (page : List (ScanRow K V)) (row : ScanRow K V) :
    rowsOf (page ++ [row]) = (rowsOf page).set row.key row := by
  unfold rowsOf
  rw [List.foldl_append]
  rfl

theorem get?_rowsOf_isSome {page : List (ScanRow K V)} {k : K} (h : k ∈ page.map fun row => row.key) :
    ((rowsOf page).get? k).isSome = true := by
  induction page using List.reverseRecOn with
  | nil => cases h
  | append_singleton page row ih =>
    rw [rowsOf_concat, Dict.get?_set]
    split
    · rfl
    · next hne =>
      rw [List.map_append, List.mem_append] at h
      exact ih (h.resolve_right fun hk => hne (List.mem_singleton.mp hk))

theorem get?_rowsOf_none {page : List (ScanRow K V)} {k : K} (h : k ∉ page.map fun row => row.key) :
    (rowsOf page).get? k = none := by
  induction page using List.reverseRecOn with
  | nil => rfl
  | append_singleton page row ih =>
    rw [List.map_append, List.mem_append, not_or] at h
    rw [rowsOf_concat, Dict.get?_set, if_neg fun hk => h.2 (List.mem_singleton.mpr hk), ih h.1]

theorem get?_rowsOf {page : List (ScanRow K V)} (hnodup : (page.map fun row => row.key).Nodup)
    {row : ScanRow K V} (h : row ∈ page) : (rowsOf page).get? row.key = some row := by
  induction page using List.reverseRecOn with
  | nil => cases h
  | append_singleton page last ih =>
    rw [List.map_append, List.map_singleton, List.nodup_append] at hnodup
    rw [rowsOf_concat, Dict.get?_set]
    rcases List.mem_append.mp h with hmem | hlast
    · have hne : row.key ≠ last.key :=
        hnodup.2.2 _ (List.mem_map_of_mem hmem) _ List.mem_cons_self
      rw [if_neg hne, ih hnodup.1 hmem]
    · rw [List.mem_singleton.mp hlast, if_pos rfl]

theorem popAll_missing {keys : List K} : ∀ {rows : Dict K (ScanRow K V)} (snap : Dict K (ScanRow K V)),
    (∃ k ∈ keys, rows.get? k = none) → popAll keys rows snap = .error keyError := by
  induction keys with
  | nil =>
    intro rows snap ⟨k, hk, _⟩
    cases hk
  | cons j keys ih =>
    intro rows snap ⟨k, hk, hnone⟩
    rw [popAll]
    cases hj : rows.get? j with
    | none => rfl
    | some row =>
      have hne : k ≠ j := by
        rintro rfl
        rw [hnone] at hj
        cases hj
      refine ih _ ⟨k, (List.mem_cons.mp hk).resolve_left hne, ?_⟩
      rw [Dict.get?_erase, if_neg hne, hnone]

/-- A key that waits twice is not there to be popped again. -/
theorem popAll_twice {keys : List K} (h : ¬ keys.Nodup) :
    ∀ (rows snap : Dict K (ScanRow K V)), popAll keys rows snap = .error keyError := by
  induction keys with
  | nil => exact absurd List.nodup_nil h
  | cons j keys ih =>
    intro rows snap
    rw [popAll]
    cases hj : rows.get? j with
    | none => rfl
    | some row =>
      by_cases hmem : j ∈ keys
      · refine popAll_missing _ ⟨j, hmem, ?_⟩
        rw [Dict.get?_erase, if_pos rfl]
      · exact ih (fun hnodup => h (List.nodup_cons.mpr ⟨hmem, hnodup⟩)) _ _

theorem popAll_ok {keys : List K} (h : keys.Nodup) : ∀ {rows : Dict K (ScanRow K V)}
    (snap : Dict K (ScanRow K V)), (∀ k ∈ keys, (rows.get? k).isSome = true) →
      ∃ snap' rest, popAll keys rows snap = .ok (snap', rest) ∧
        (∀ k, snap'.get? k = if k ∈ keys then rows.get? k else snap.get? k) ∧
        ∀ k, rest.get? k = if k ∈ keys then none else rows.get? k := by
  induction keys with
  | nil => exact fun snap _ => ⟨snap, _, rfl, fun _ => rfl, fun _ => rfl⟩
  | cons j keys ih =>
    intro rows snap hin
    rw [List.nodup_cons] at h
    obtain ⟨row, hrow⟩ := Option.isSome_iff_exists.mp (hin j List.mem_cons_self)
    have herase : ∀ k ∈ keys, ((rows.erase j).get? k).isSome = true := by
      intro k hk
      have hne : k ≠ j := fun he => h.1 (he ▸ hk)
      rw [Dict.get?_erase, if_neg hne]
      exact hin k (List.mem_cons_of_mem _ hk)
    obtain ⟨snap', rest, hpop, hsnap, hrest⟩ := ih h.2 (snap.set j row) herase
    refine ⟨snap', rest, ?_, fun k => ?_, fun k => ?_⟩
    · rw [popAll, hrow]
      exact hpop
    · rw [hsnap, Dict.get?_set, Dict.get?_erase]
      by_cases hj : k = j
      · rw [hj, if_neg h.1, if_pos rfl, if_pos List.mem_cons_self, hrow]
      · by_cases hk : k ∈ keys <;> simp [hj, hk]
    · rw [hrest, Dict.get?_erase]
      by_cases hj : k = j
      · rw [hj, if_neg h.1, if_pos rfl, if_pos List.mem_cons_self]
      · by_cases hk : k ∈ keys <;> simp [hj, hk]

/-- A page whose keys are different is popped whole. -/
theorem popAll_rowsOf {page : List (ScanRow K V)} (h : (page.map fun row => row.key).Nodup) :
    ∃ snap, popAll (page.map fun row => row.key) (rowsOf page) .empty = .ok (snap, .empty) ∧
      ∀ row ∈ page, snap.get? row.key = some row := by
  obtain ⟨snap, rest, hpop, hsnap, hrest⟩ := popAll_ok h .empty fun k hk => get?_rowsOf_isSome hk
  have hnone : ∀ k, rest.get? k = none := by
    intro k
    rw [hrest]
    split
    · rfl
    · next hnot => exact get?_rowsOf_none hnot
  have hkeys : rest.entries.map Prod.fst = [] :=
    List.eq_nil_iff_forall_not_mem.mpr fun k => Dict.get?_eq_none.mp (hnone k)
  have hempty : rest = .empty := Dict.ext (List.map_eq_nil_iff.mp hkeys)
  refine ⟨snap, by rw [hpop, hempty], fun row hrow => ?_⟩
  rw [hsnap, if_pos (List.mem_map_of_mem hrow), get?_rowsOf h hrow]

end Waiting

/-! ### What a row is judged by -/

section Judging

variable {K V : Type} [ScanKey K] (q : CascadeCall K V)

omit [ScanKey K] in
theorem needs_value (p : Predicate K V) :
    p.needs.value = p.flattenAnd.any fun part => part.needs.value := by
  induction p with
  | and l r ihl ihr =>
    show (l.needs.value || r.needs.value) = (l.flattenAnd ++ r.flattenAnd).any _
    rw [List.any_append, ihl, ihr]
  | alwaysTrue => rfl
  | _ => exact (Bool.or_false _).symm

omit [ScanKey K] in
/-- There are value conjuncts exactly if the residual needs values. -/
theorem isEmpty_valueP : q.valueP.isEmpty = !q.residual.needs.value := by
  rw [needs_value]
  unfold CascadeCall.valueP Predicate.partitionByNeeds
  simp only
  rw [Bool.eq_iff_iff, List.isEmpty_iff, List.filter_eq_nil_iff, Bool.not_eq_true', List.any_eq_false]

theorem allPass_withValue (preds : List (Predicate K V)) (h : ∀ p ∈ preds, p.needs.value = false)
    (row : ScanRow K V) (value : Option V) :
    Predicate.allPass preds { row with value := value } = Predicate.allPass preds row := by
  unfold Predicate.allPass
  rw [Bool.eq_iff_iff, List.all_eq_true, List.all_eq_true]
  refine forall₂_congr fun p hp => ?_
  have hsame : p.evaluate { row with value := value } = p.evaluate row :=
    Predicate.evaluate_of_needs (h p hp) rfl (.inr rfl)
  rw [hsame]

/-- The value makes no difference to what is decided without it. -/
theorem evaluate_withValue (row : ScanRow K V) (value : Option V) :
    q.residual.evaluate { row with value := value } = (Predicate.allPass q.keyP row &&
      Predicate.allPass q.statP row && Predicate.allPass q.valueP { row with value := value }) := by
  have hkey := allPass_withValue q.keyP (fun p hp => (Predicate.needs_keyPart hp).1) row value
  have hstat := allPass_withValue q.statP (fun p hp => Predicate.needs_statPart hp) row value
  rw [← hkey, ← hstat]
  exact Predicate.evaluate_partitionByNeeds _ _

theorem judge_waits {row : ScanRow K V} (hkey : Predicate.allPass q.keyP row = true)
    (hstat : Predicate.allPass q.statP row = true) (hwaits : q.waits row = true) (content : K → Option V) :
    judge q content row = (content row.key).bind fun value =>
      if Predicate.allPass q.valueP ⟨row.key, some value, row.stat⟩ &&
          q.refined ⟨row.key, some value, row.stat⟩ then
        some (projectRow ⟨row.key, some value, row.stat⟩ q.project)
      else none := by
  unfold CascadeCall.waits at hwaits
  rw [Bool.and_eq_true, isEmpty_valueP, Bool.not_not, Option.isNone_iff_eq_none] at hwaits
  unfold judge
  rw [if_pos hwaits.1, hwaits.2]
  show ((content row.key).map _).bind _ = _
  rw [Option.bind_map]
  refine Option.bind_congr fun value _ => ?_
  show (if q.residual.evaluate { row with value := some value } && _ then _ else _) = _
  rw [evaluate_withValue, hkey, hstat]
  rfl

theorem judge_gives {row : ScanRow K V} (hkey : Predicate.allPass q.keyP row = true)
    (hstat : Predicate.allPass q.statP row = true) (hwaits : q.waits row = false) (content : K → Option V) :
    judge q content row = if Predicate.allPass q.valueP row && q.refined row then
      some (projectRow row q.project) else none := by
  have hself : q.residual.evaluate row = Predicate.allPass q.valueP row := by
    have hall := evaluate_withValue q row row.value
    rw [hkey, hstat] at hall
    exact hall
  unfold judge
  split
  · next hneeds =>
    unfold CascadeCall.waits at hwaits
    rw [isEmpty_valueP, Bool.not_not, hneeds, Bool.true_and, Option.isNone_eq_false_iff,
      Option.isSome_iff_exists] at hwaits
    obtain ⟨value, hvalue⟩ := hwaits
    have hrow : { row with value := some value } = row := by
      rw [← hvalue]
    rw [hvalue]
    show (if q.residual.evaluate { row with value := some value } && _ then _ else _) = _
    simp only [hrow, hself]
  · rw [hself]

/-- A row that is not considered is not given. -/
theorem judge_dropped {row : ScanRow K V}
    (h : (Predicate.allPass q.keyP row && Predicate.allPass q.statP row) = false)
    (content : K → Option V) : judge q content row = none := by
  have hfails : ∀ value : Option V, q.residual.evaluate { row with value := value } = false := by
    intro value
    rw [evaluate_withValue, h]
    rfl
  unfold judge
  split
  · cases row.value <|> content row.key with
    | none => rfl
    | some value =>
      show (if q.residual.evaluate { row with value := some value } && _ then _ else _) = _
      rw [hfails (some value)]
      rfl
  · have hself : q.residual.evaluate row = false := hfails row.value
    rw [hself]
    rfl

variable {q} {content : K → Option V}

theorem noneTwice_cons {page : List (ScanRow K V)} {rows : List (List (ScanRow K V))}
    {out : List (ScanRow K V)} (h : q.reached out.length = false) :
    NoneTwice q content out (page :: rows) ↔ (page.map fun row => row.key).Nodup ∧
      NoneTwice q content (cut q (out ++ page.filterMap (judge q content))) rows := by
  constructor
  · intro hnone
    refine ⟨hnone [] page rows rfl (by simpa using h), fun before later after hrows hreached => ?_⟩
    refine hnone (page :: before) later after (by rw [hrows]; rfl) ?_
    rw [reached_cut_append] at hreached
    rw [List.flatten_cons, List.filterMap_append, ← List.append_assoc]
    exact hreached
  · intro ⟨hnodup, hnone⟩ before later after hrows hreached
    cases before with
    | nil =>
      rw [List.nil_append, List.cons.injEq] at hrows
      rw [← hrows.1]
      exact hnodup
    | cons first before =>
      rw [List.cons_append, List.cons.injEq] at hrows
      refine hnone before later after hrows.2 ?_
      rw [reached_cut_append, hrows.1]
      rw [List.flatten_cons, List.filterMap_append, ← List.append_assoc] at hreached
      exact hreached

end Judging

/-! ### What a run gives -/

section Run

variable {S K V : Type} [DecidableEq K] [ScanKey K] (q : CascadeCall K V) (content : K → Option V)

/-- The pages read one by one, until the limit is reached. -/
def readPages : List (List (ScanRow K V)) → List (ScanRow K V) → Except Exn (List (ScanRow K V))
  | [], out => .ok out
  | page :: rows, out =>
    if q.reached out.length then .ok out
    else if (page.map fun row => row.key).Nodup then
      readPages rows (cut q (out ++ page.filterMap (judge q content)))
    else .error keyError

theorem readPages_of_reached (rows : List (List (ScanRow K V))) {out : List (ScanRow K V)}
    (h : q.reached out.length = true) : readPages q content rows out = .ok out := by
  cases rows with
  | nil => rfl
  | cons page rows => rw [readPages, if_pos h]

variable {q content}

/-- The pages give all that passes exactly if no key is twice in a page that is read. -/
theorem readPages_eq {rows : List (List (ScanRow K V))} : ∀ {out : List (ScanRow K V)}, cut q out = out →
    (NoneTwice q content out rows →
      readPages q content rows out = .ok (cut q (out ++ rows.flatten.filterMap (judge q content)))) ∧
    (¬ NoneTwice q content out rows → readPages q content rows out = .error keyError) := by
  induction rows with
  | nil =>
    intro out hcut
    refine ⟨fun _ => ?_, fun hnot => absurd ?_ hnot⟩
    · rw [List.flatten_nil, List.filterMap_nil, List.append_nil, hcut]
      rfl
    · intro before page after hrows
      cases before <;> cases hrows
  | cons page rows ih =>
    intro out hcut
    cases hreached : q.reached out.length with
    | true =>
      rw [readPages_of_reached q content _ hreached, cut_append_of_reached q hreached hcut]
      refine ⟨fun _ => rfl, fun hnot => absurd ?_ hnot⟩
      intro before later after hrows hlater
      obtain ⟨limit, hlimit, hle⟩ := (reached_eq_true q).mp hreached
      have hstill := (reached_eq_true q).mpr ⟨limit, hlimit, Nat.le_trans hle
        (by rw [List.length_append]; omega : out.length ≤
          (out ++ before.flatten.filterMap (judge q content)).length)⟩
      rw [hlater] at hstill
      cases hstill
    | false =>
      have hidem : cut q (cut q (out ++ page.filterMap (judge q content))) =
          cut q (out ++ page.filterMap (judge q content)) := by
        have htwice := cut_cut_append q (out ++ page.filterMap (judge q content)) []
        rw [List.append_nil, List.append_nil] at htwice
        exact htwice
      obtain ⟨hgives, hraises⟩ := ih hidem
      rw [noneTwice_cons hreached, readPages, hreached, if_neg Bool.false_ne_true]
      refine ⟨fun ⟨hnodup, hnone⟩ => ?_, fun hnot => ?_⟩
      · rw [if_pos hnodup, hgives hnone, cut_cut_append, List.append_assoc, ← List.filterMap_append]
        rfl
      · split
        · next hnodup => exact hraises fun hnone => hnot ⟨hnodup, hnone⟩
        · rfl

variable {I : S → Prop} {batchGet : List K → M S (Dict K V)}

/-- The rows found of a page are those of it that pass, up to the limit. -/
theorem giveFound_eq {found : Dict K V} {snap : Dict K (ScanRow K V)} {page : List (ScanRow K V)}
    (hpage : ∀ row ∈ page, q.waits row = true ∧ Predicate.allPass q.keyP row = true ∧
      Predicate.allPass q.statP row = true ∧ found.get? row.key = content row.key ∧
      snap.get? row.key = some row) :
    ∀ {out : List (ScanRow K V)}, q.reached out.length = false →
      giveFound q found snap (page.map fun row => row.key) out =
        cut q (out ++ page.filterMap (judge q content)) := by
  induction page with
  | nil =>
    intro out hreached
    rw [List.filterMap_nil, List.append_nil, cut_of_not_reached q hreached]
    rfl
  | cons row page ih =>
    intro out hreached
    obtain ⟨hwaits, hkey, hstat, hfound, hsnap⟩ := hpage row List.mem_cons_self
    have hrest := @ih fun later hlater => hpage later (List.mem_cons_of_mem _ hlater)
    rw [List.map_cons, giveFound, List.filterMap_cons, judge_waits q hkey hstat hwaits, hfound, hsnap]
    cases content row.key with
    | none => exact hrest hreached
    | some value =>
      simp only [Option.bind_some]
      cases hvalue : Predicate.allPass q.valueP ⟨row.key, some value, row.stat⟩ with
      | false => exact hrest hreached
      | true =>
        cases hrefined : q.refined ⟨row.key, some value, row.stat⟩ with
        | false => exact hrest hreached
        | true =>
          simp only [Bool.not_true, Bool.false_eq_true, if_false, Bool.and_true, if_true]
          split
          · next hlast =>
            have hcut := cut_concat q hreached (projectRow ⟨row.key, some value, row.stat⟩ q.project)
            have hstop := cut_append_of_reached q hlast hcut (page.filterMap (judge q content))
            rw [List.append_assoc] at hstop
            exact hstop.symm
          · next hmore =>
            rw [hrest (Bool.eq_false_iff.mpr hmore), List.append_assoc]
            rfl

/-- A page of rows that wait, as they stand before the page is read. -/
structure Waiting (q : CascadeCall K V) (page : List (ScanRow K V)) (w : Waits K V) : Prop where
  keys : w.pendingKeys = page.map fun row => row.key
  rows : w.pendingRows = rowsOf page
  waits : ∀ row ∈ page, q.waits row = true ∧ Predicate.allPass q.keyP row = true ∧
    Predicate.allPass q.statP row = true
  open_ : page ≠ [] → q.reached w.out.length = false

/-- Reading a page. -/
theorem flush_page (h : Steady I content batchGet) {s : S} (hs : I s) {w : Waits K V}
    {page : List (ScanRow K V)} (hw : Waiting q page w) (hreached : q.reached w.out.length = false) :
    ∃ s', I s' ∧ flush q batchGet w s =
      (if (page.map fun row => row.key).Nodup then
        .ok ⟨cut q (w.out ++ page.filterMap (judge q content)), [], .empty⟩ else .error keyError, s') := by
  by_cases hempty : page = []
  · subst hempty
    refine ⟨s, hs, ?_⟩
    obtain ⟨out, keys, rows⟩ := w
    obtain rfl : keys = [] := hw.keys
    obtain rfl : rows = .empty := hw.rows
    have hcut : cut q out = out := cut_of_not_reached q hreached
    show (Except.ok _, s) = (Except.ok (⟨cut q (out ++ []), [], .empty⟩ : Waits K V), s)
    rw [List.append_nil, hcut]
  · unfold flush
    rw [hw.keys, hw.rows, if_neg fun hnil => hempty (List.map_eq_nil_iff.mp hnil)]
    by_cases hnodup : (page.map fun row => row.key).Nodup
    · obtain ⟨snap, hpop, hsnap⟩ := popAll_rowsOf hnodup
      obtain ⟨found, s', hget, hs', hfound⟩ := h (page.map fun row => row.key) s hs
      refine ⟨s', hs', ?_⟩
      have hgive : giveFound q found snap (page.map fun row => row.key) w.out =
          cut q (w.out ++ page.filterMap (judge q content)) :=
        giveFound_eq (fun row hrow => ⟨(hw.waits row hrow).1, (hw.waits row hrow).2.1,
          (hw.waits row hrow).2.2, hfound _ (List.mem_map_of_mem hrow), hsnap row hrow⟩) hreached
      rw [hpop, if_pos hnodup, bind_apply]
      show (batchGet _ >>= _) s = _
      rw [bind_ok hget, hgive]
      rfl
    · refine ⟨s, hs, ?_⟩
      rw [popAll_twice hnodup, if_neg hnodup]
      rfl

/-- Where no value is needed no row waits. -/
theorem waiting_empty {w : Waits K V} {page : List (ScanRow K V)} (hw : Waiting q page w)
    (h : q.valueP.isEmpty = true) : page = [] := by
  refine List.eq_nil_iff_forall_not_mem.mpr fun row hrow => ?_
  have hwaits := (hw.waits row hrow).1
  unfold CascadeCall.waits at hwaits
  rw [h] at hwaits
  cases hwaits

theorem flushFirst_page (h : Steady I content batchGet) {s : S} (hs : I s) {w : Waits K V}
    {page : List (ScanRow K V)} (hw : Waiting q page w) (hreached : q.reached w.out.length = false) :
    ∃ s', I s' ∧ flushFirst q (some batchGet) w s =
      (if (page.map fun row => row.key).Nodup then
        .ok ⟨cut q (w.out ++ page.filterMap (judge q content)), [], .empty⟩ else .error keyError, s') := by
  unfold flushFirst
  cases hvalue : q.valueP.isEmpty with
  | false => exact flush_page h hs hw hreached
  | true =>
    obtain ⟨s', hs', hflush⟩ := flush_page h hs hw hreached
    refine ⟨s', hs', ?_⟩
    rw [← hflush]
    unfold flush
    rw [hw.keys, waiting_empty hw hvalue]
    rfl

theorem readPages_cons (page : List (ScanRow K V)) (rows : List (List (ScanRow K V)))
    {out : List (ScanRow K V)} (h : q.reached out.length = false) :
    readPages q content (page :: rows) out = if (page.map fun row => row.key).Nodup then
      readPages q content rows (cut q (out ++ page.filterMap (judge q content))) else .error keyError := by
  rw [readPages, h, if_neg Bool.false_ne_true]

/-- A page is read, then the rest is as it is from what the page gave. -/
theorem bind_page {m : M S (Waits K V)} {page : List (ScanRow K V)} {rest : List (List (ScanRow K V))}
    {out : List (ScanRow K V)} {s s' : S} {f : Waits K V → M S (List (ScanRow K V))}
    (hreached : q.reached out.length = false) (hs' : I s')
    (hm : m s = (if (page.map fun row => row.key).Nodup then
      .ok ⟨cut q (out ++ page.filterMap (judge q content)), [], .empty⟩ else .error keyError, s'))
    (hf : ∃ s'', I s'' ∧ f ⟨cut q (out ++ page.filterMap (judge q content)), [], .empty⟩ s' =
      (readPages q content rest (cut q (out ++ page.filterMap (judge q content))), s'')) :
    ∃ s'', I s'' ∧ (m >>= f) s = (readPages q content (page :: rest) out, s'') := by
  rw [readPages_cons page rest hreached]
  split at hm
  · next hnodup =>
    obtain ⟨s'', hs'', hrun⟩ := hf
    refine ⟨s'', hs'', ?_⟩
    rw [bind_ok hm, hrun, if_pos hnodup]
  · next hnodup =>
    refine ⟨s', hs', ?_⟩
    rw [bind_error hm, if_neg hnodup]

theorem giveRow_eq {row : ScanRow K V} (hkey : Predicate.allPass q.keyP row = true)
    (hstat : Predicate.allPass q.statP row = true) (hwaits : q.waits row = false)
    {out : List (ScanRow K V)} (hreached : q.reached out.length = false) :
    giveRow q row ⟨out, [], .empty⟩ = ⟨cut q (out ++ [row].filterMap (judge q content)), [], .empty⟩ := by
  unfold giveRow
  rw [if_neg (by simp [hreached]), List.filterMap_cons, judge_gives q hkey hstat hwaits content]
  cases hvalue : Predicate.allPass q.valueP row with
  | false =>
    show (⟨out, [], .empty⟩ : Waits K V) = ⟨cut q (out ++ []), [], .empty⟩
    rw [List.append_nil, cut_of_not_reached q hreached]
  | true =>
    cases hrefined : q.refined row with
    | false =>
      show (⟨out, [], .empty⟩ : Waits K V) = ⟨cut q (out ++ []), [], .empty⟩
      rw [List.append_nil, cut_of_not_reached q hreached]
    | true =>
      show (⟨out ++ [projectRow row q.project], [], .empty⟩ : Waits K V) =
        ⟨cut q (out ++ [projectRow row q.project]), [], .empty⟩
      rw [cut_concat q hreached]

/-- What is left of the run, from the rows that wait. -/
def remaining (q : CascadeCall K V) (batchGet : List K → M S (Dict K V)) (rows : List (ScanRow K V))
    (w : Waits K V) : M S (List (ScanRow K V)) := do
  let w ← rows.foldlM (cascadeRow q (some batchGet)) w
  finish q (some batchGet) w

theorem remaining_cons {row : ScanRow K V} {rows : List (ScanRow K V)} {w : Waits K V} :
    remaining q batchGet (row :: rows) w =
      cascadeRow q (some batchGet) w row >>= remaining q batchGet rows := by
  unfold remaining
  rw [List.foldlM_cons, bind_assoc]

theorem remaining_skip {row : ScanRow K V} {rows : List (ScanRow K V)} {w w' : Waits K V}
    (h : cascadeRow q (some batchGet) w row = pure w') :
    remaining q batchGet (row :: rows) w = remaining q batchGet rows w' := by
  rw [remaining_cons, h, pure_bind]

theorem waiting_nil (out : List (ScanRow K V)) : Waiting q [] ⟨out, [], .empty⟩ :=
  ⟨rfl, rfl, fun _ h => (by cases h), fun h => absurd rfl h⟩

/-- The rows are read as `pagesOf` cuts them. -/
theorem remaining_eq (h : Steady I content batchGet) {rows : List (ScanRow K V)} :
    ∀ {page : List (ScanRow K V)} {w : Waits K V} {s : S}, I s → Waiting q page w → ∃ s', I s' ∧
      remaining q batchGet rows w s = (readPages q content (pagesOf q page (considered q rows)) w.out, s') := by
  induction rows with
  | nil =>
    intro page w s hs hw
    show ∃ s', I s' ∧ finish q (some batchGet) w s = (readPages q content [page] w.out, s')
    unfold finish
    cases hreached : q.reached w.out.length with
    | true => exact ⟨s, hs, by rw [readPages_of_reached q content _ hreached]; rfl⟩
    | false =>
      rw [if_neg Bool.false_ne_true]
      obtain ⟨s', hs', hflush⟩ := flushFirst_page h hs hw hreached
      exact bind_page hreached hs' hflush ⟨s', hs', rfl⟩
  | cons row rows ih =>
    intro page w s hs hw
    cases hreached : q.reached w.out.length with
    | true =>
      have hstop : cascadeRow q (some batchGet) w row = pure w := by
        unfold cascadeRow
        rw [if_pos hreached]
      rw [remaining_skip hstop, readPages_of_reached q content _ hreached]
      obtain ⟨s', hs', hrun⟩ := ih hs hw
      rw [readPages_of_reached q content _ hreached] at hrun
      exact ⟨s', hs', hrun⟩
    | false =>
      cases hkey : Predicate.allPass q.keyP row with
      | false =>
        have hskip : cascadeRow q (some batchGet) w row = pure w := by
          unfold cascadeRow
          rw [if_neg (by simp [hreached]), if_pos (by simp [hkey])]
        have hdropped : considered q (row :: rows) = considered q rows :=
          List.filter_cons_of_neg (by simp [hkey])
        rw [remaining_skip hskip, hdropped]
        exact ih hs hw
      | true =>
        cases hstat : Predicate.allPass q.statP row with
        | false =>
          have hskip : cascadeRow q (some batchGet) w row = pure w := by
            unfold cascadeRow
            rw [if_neg (by simp [hreached]), if_neg (by simp [hkey]), if_pos (by simp [hstat])]
          have hdropped : considered q (row :: rows) = considered q rows :=
            List.filter_cons_of_neg (by simp [hstat])
          rw [remaining_skip hskip, hdropped]
          exact ih hs hw
        | true =>
          have hkept : considered q (row :: rows) = row :: considered q rows :=
            List.filter_cons_of_pos (by simp [hkey, hstat])
          rw [hkept, pagesOf]
          cases hwaits : q.waits row with
          | true =>
            have hw' : Waiting q (page ++ [row])
                ⟨w.out, w.pendingKeys ++ [row.key], w.pendingRows.set row.key row⟩ := by
              refine ⟨?_, ?_, fun later hlater => ?_, fun _ => hreached⟩
              · rw [hw.keys, List.map_append]
                rfl
              · rw [hw.rows, rowsOf_concat]
              · rcases List.mem_append.mp hlater with hlater | hlater
                · exact hw.waits later hlater
                · rw [List.mem_singleton.mp hlater]
                  exact ⟨hwaits, hkey, hstat⟩
            have hlength : (w.pendingKeys ++ [row.key]).length = page.length + 1 := by
              rw [hw.keys, List.length_append, List.length_map, List.length_singleton]
            have hawait : cascadeRow q (some batchGet) w row =
                if 100 ≤ page.length + 1 then
                  flush q batchGet ⟨w.out, w.pendingKeys ++ [row.key], w.pendingRows.set row.key row⟩
                else pure ⟨w.out, w.pendingKeys ++ [row.key], w.pendingRows.set row.key row⟩ := by
              unfold cascadeRow await
              rw [if_neg (by simp [hreached]), if_neg (by simp [hkey]), if_neg (by simp [hstat]),
                if_pos hwaits]
              simp only
              rw [hlength]
            rw [if_pos rfl]
            split
            · next hfull =>
              rw [if_pos hfull] at hawait
              rw [remaining_cons, hawait]
              obtain ⟨s', hs', hflush⟩ := flush_page h hs hw' hreached
              exact bind_page hreached hs' hflush (ih hs' (waiting_nil _))
            · next hfew =>
              rw [if_neg hfew] at hawait
              rw [remaining_skip hawait]
              exact ih hs hw'
          | false =>
            have hgive : cascadeRow q (some batchGet) w row =
                flushFirst q (some batchGet) w >>= fun w => pure (giveRow q row w) := by
              unfold cascadeRow
              rw [if_neg (by simp [hreached]), if_neg (by simp [hkey]), if_neg (by simp [hstat]),
                if_neg (by simp [hwaits])]
            obtain ⟨s', hs', hflush⟩ := flushFirst_page h hs hw hreached
            rw [if_neg Bool.false_ne_true, remaining_cons, hgive, bind_assoc]
            refine bind_page hreached hs' hflush ?_
            rw [pure_bind]
            -- the row itself is a page of its own
            cases hout : q.reached (cut q (w.out ++ page.filterMap (judge q content))).length with
            | true =>
              obtain ⟨s'', hs'', hrun⟩ := ih hs' (waiting_nil (cut q (w.out ++ page.filterMap (judge q content))))
              rw [readPages_of_reached q content _ hout] at hrun ⊢
              have hstop : giveRow q row ⟨cut q (w.out ++ page.filterMap (judge q content)), [], .empty⟩ =
                  ⟨cut q (w.out ++ page.filterMap (judge q content)), [], .empty⟩ := by
                unfold giveRow
                cases hvalue : q.valueP.isEmpty with
                | false => rw [if_pos (by simp [hout])]
                | true =>
                  rw [waiting_empty hw hvalue, List.filterMap_nil, List.append_nil,
                    cut_of_not_reached q hreached, hreached] at hout
                  cases hout
              rw [hstop]
              exact ⟨s'', hs'', hrun⟩
            | false =>
              rw [giveRow_eq hkey hstat hwaits hout, readPages_cons _ _ hout, if_pos (by simp)]
              exact ih hs' (waiting_nil _)

variable (q) (content)

omit [DecidableEq K] [ScanKey K] in
theorem flatten_pagesOf (rows : List (ScanRow K V)) : ∀ page : List (ScanRow K V),
    (pagesOf q page rows).flatten = page ++ rows := by
  induction rows with
  | nil => exact fun page => by rw [pagesOf, List.flatten_cons, List.flatten_nil]
  | cons row rows ih =>
    intro page
    rw [pagesOf]
    split
    · split
      · rw [List.flatten_cons, ih, List.nil_append, List.append_assoc]
        rfl
      · rw [ih, List.append_assoc]
        rfl
    · rw [List.flatten_cons, List.flatten_cons, ih]
      rfl

omit [DecidableEq K] in
theorem filterMap_considered (rows : List (ScanRow K V)) :
    (considered q rows).filterMap (judge q content) = rows.filterMap (judge q content) := by
  unfold considered
  rw [List.filterMap_filter]
  refine List.filterMap_congr fun row _ => ?_
  split
  · rfl
  · next hdropped => rw [judge_dropped q (Bool.eq_false_iff.mpr hdropped)]

theorem cascade_pages (h : Steady I content batchGet) (rows : List (ScanRow K V)) {s : S} (hs : I s) :
    ∃ s', I s' ∧ applyCascade q (some batchGet) rows s =
      (readPages q content (pagesOf q [] (considered q rows)) [], s') :=
  remaining_eq h hs (waiting_nil [])

/-- Where no key waits twice in a page that is read, the rows that pass are given. -/
theorem cascade_returns (h : Steady I content batchGet) (rows : List (ScanRow K V))
    (honce : NoneTwice q content [] (pagesOf q [] (considered q rows))) :
    Returns I (applyCascade q (some batchGet) rows)
      fun out => out = cut q (rows.filterMap (judge q content)) := by
  intro s hs
  obtain ⟨s', hs', hrun⟩ := cascade_pages q content h rows hs
  have hgives := (@readPages_eq _ _ _ _ q content (pagesOf q [] (considered q rows)) _ (cut_nil q)).1 honce
  rw [flatten_pagesOf, List.nil_append, List.nil_append, filterMap_considered] at hgives
  rw [hrun, hgives]
  exact ⟨hs', _, rfl, rfl⟩

theorem cascade_gives (h : Steady I content batchGet) (rows : List (ScanRow K V)) {s : S} (hs : I s)
    (honce : NoneTwice q content [] (pagesOf q [] (considered q rows))) :
    (applyCascade q (some batchGet) rows s).1 = .ok (cut q (rows.filterMap (judge q content))) := by
  obtain ⟨-, out, hout, rfl⟩ := cascade_returns q content h rows honce s hs
  exact hout

theorem cascade_raises (h : Steady I content batchGet) (rows : List (ScanRow K V)) {s : S} (hs : I s)
    (htwice : ¬ NoneTwice q content [] (pagesOf q [] (considered q rows))) :
    (applyCascade q (some batchGet) rows s).1 = .error keyError := by
  obtain ⟨s', -, hrun⟩ := cascade_pages q content h rows hs
  rw [hrun]
  exact (@readPages_eq _ _ _ _ q content (pagesOf q [] (considered q rows)) _ (cut_nil q)).2 htwice

/-- The cascade gives the rows that pass, up to the limit, exactly if no key waits twice in a page
    that is read; else it raises. -/
theorem applyCascade_iff (h : Steady I content batchGet) (rows : List (ScanRow K V)) {s : S} (hs : I s) :
    ((applyCascade q (some batchGet) rows s).1 = .ok (cut q (rows.filterMap (judge q content))) ↔
      NoneTwice q content [] (pagesOf q [] (considered q rows))) ∧
    (¬ NoneTwice q content [] (pagesOf q [] (considered q rows)) →
      (applyCascade q (some batchGet) rows s).1 = .error keyError) := by
  have hremaining : ∃ s', I s' ∧ remaining q batchGet rows ⟨[], [], .empty⟩ s =
      (readPages q content (pagesOf q [] (considered q rows)) [], s') :=
    remaining_eq h hs (waiting_nil [])
  obtain ⟨s', -, hrun⟩ := hremaining
  obtain ⟨hgives, hraises⟩ := @readPages_eq _ _ _ _ q content (pagesOf q [] (considered q rows)) _ (cut_nil q)
  rw [flatten_pagesOf, List.nil_append, List.nil_append, filterMap_considered] at hgives
  have happly : (applyCascade q (some batchGet) rows s).1 =
      readPages q content (pagesOf q [] (considered q rows)) [] := by
    show (remaining q batchGet rows _ s).1 = _
    rw [hrun]
  rw [happly]
  refine ⟨⟨fun heq => ?_, hgives⟩, hraises⟩
  by_contra hnot
  rw [hraises hnot] at heq
  cases heq

end Run

/-- Where no page has a key twice. -/
theorem noneTwice_of_nodup {K V : Type} [ScanKey K] {q : CascadeCall K V} {content : K → Option V}
    {out : List (ScanRow K V)} {rows : List (List (ScanRow K V))}
    (h : ∀ page ∈ rows, (page.map fun row => row.key).Nodup) : NoneTwice q content out rows := by
  intro before page after hrows _
  refine h page ?_
  rw [hrows]
  exact List.mem_append_right _ List.mem_cons_self

/-- No page has a key twice where the rows have none. -/
theorem noneTwice_of_listed {K V : Type} [ScanKey K] {q : CascadeCall K V} {content : K → Option V}
    {rows : List (ScanRow K V)} (h : (rows.map fun row => row.key).Nodup) :
    NoneTwice q content [] (pagesOf q [] (considered q rows)) := by
  refine noneTwice_of_nodup fun page hpage => ?_
  have hsub : page.Sublist (considered q rows) := by
    have hflat := List.sublist_flatten_of_mem hpage
    rw [flatten_pagesOf, List.nil_append] at hflat
    exact hflat
  exact List.Nodup.sublist ((hsub.trans List.filter_sublist).map _) h

/-! ### Whatever the store answers -/

section Whatever

variable {S K V : Type} [DecidableEq K] [ScanKey K] {q : CascadeCall K V}
  {batchGet : Option (List K → M S (Dict K V))}

/-- What is given out, and then what waits, stands in the order of the rows gone through. -/
structure InTurn (q : CascadeCall K V) (batchGet : Option (List K → M S (Dict K V)))
    (past : List (ScanRow K V)) (w : Waits K V) : Prop where
  sublist : ((w.out.map fun row => row.key) ++ w.pendingKeys).Sublist (past.map fun row => row.key)
  idle : q.valueP.isEmpty = true ∨ batchGet = none → w.pendingKeys = []

theorem giveFound_sublist (found : Dict K V) (snap : Dict K (ScanRow K V)) (keys : List K) :
    ∀ out : List (ScanRow K V), ((giveFound q found snap keys out).map fun row => row.key).Sublist
      ((out.map fun row => row.key) ++ keys) := by
  induction keys with
  | nil =>
    intro out
    rw [List.append_nil]
    exact List.Sublist.refl _
  | cons key keys ih =>
    intro out
    have hskip := (ih out).trans (List.Sublist.append_left (List.sublist_cons_self key keys) _)
    rw [giveFound]
    split
    · exact hskip
    · next value _ =>
      dsimp only
      split
      · exact hskip
      · split
        · exact hskip
        · have hkey : (projectRow (⟨key, some value, (snap.get? key).bind fun base => base.stat⟩ :
              ScanRow K V) q.project).key = key := by
            cases q.project <;> rfl
          split
          · rw [List.map_append, List.map_singleton, hkey]
            exact List.Sublist.append_left (List.singleton_sublist.mpr List.mem_cons_self) _
          · refine (ih _).trans ?_
            rw [List.map_append, List.map_singleton, hkey, List.append_assoc]
            exact List.Sublist.refl _

theorem flush_inTurn {get : List K → M S (Dict K V)} {past : List (ScanRow K V)} {w : Waits K V}
    (h : ((w.out.map fun row => row.key) ++ w.pendingKeys).Sublist (past.map fun row => row.key)) :
    Gives (fun w' => InTurn q batchGet past w' ∧ w'.pendingKeys = []) (flush q get w) := by
  unfold flush
  split
  · next hnil => exact Gives.pure ⟨⟨h, fun _ => hnil⟩, hnil⟩
  · refine (Gives.trivial _).bind fun r _ => (Gives.trivial _).bind fun found _ => Gives.pure ?_
    refine ⟨⟨?_, fun _ => rfl⟩, rfl⟩
    rw [List.append_nil]
    exact (giveFound_sublist found r.1 w.pendingKeys w.out).trans h

theorem flushFirst_inTurn {past : List (ScanRow K V)} {w : Waits K V} (h : InTurn q batchGet past w) :
    Gives (fun w' => InTurn q batchGet past w' ∧ w'.pendingKeys = []) (flushFirst q batchGet w) := by
  unfold flushFirst
  split
  · next hvalue => exact Gives.pure ⟨h, h.idle (.inl hvalue)⟩
  · split
    · exact Gives.pure ⟨h, h.idle (.inr rfl)⟩
    · exact flush_inTurn h.sublist

omit [ScanKey K] in
theorem InTurn.later {past : List (ScanRow K V)} {w : Waits K V} (h : InTurn q batchGet past w)
    (row : ScanRow K V) : InTurn q batchGet (past ++ [row]) w := by
  refine ⟨h.sublist.trans ?_, h.idle⟩
  rw [List.map_append]
  exact List.sublist_append_left _ _

theorem giveRow_inTurn {past : List (ScanRow K V)} {w : Waits K V} (h : InTurn q batchGet past w)
    (hnone : w.pendingKeys = []) (row : ScanRow K V) :
    InTurn q batchGet (past ++ [row]) (giveRow q row w) := by
  unfold giveRow
  split
  · exact h.later row
  · split
    · exact h.later row
    · split
      · exact h.later row
      · have hkey : (projectRow row q.project).key = row.key := by
          cases q.project <;> rfl
        have hsub := h.sublist
        rw [hnone, List.append_nil] at hsub
        refine ⟨?_, fun _ => hnone⟩
        show (((w.out ++ [projectRow row q.project]).map fun row => row.key) ++ w.pendingKeys).Sublist _
        rw [hnone, List.append_nil, List.map_append, List.map_append, List.map_singleton,
          List.map_singleton, hkey]
        exact List.Sublist.append_right hsub _

theorem cascadeRow_inTurn {past : List (ScanRow K V)} {w : Waits K V} (row : ScanRow K V)
    (h : InTurn q batchGet past w) :
    Gives (InTurn q batchGet (past ++ [row])) (cascadeRow q batchGet w row) := by
  unfold cascadeRow
  split
  · exact Gives.pure (h.later row)
  · split
    · exact Gives.pure (h.later row)
    · split
      · exact Gives.pure (h.later row)
      · split
        · next hwaits =>
          unfold await
          split
          · exact Gives.raise _
          · have hsub : ((w.out.map fun row => row.key) ++ (w.pendingKeys ++ [row.key])).Sublist
                ((past ++ [row]).map fun row => row.key) := by
              rw [← List.append_assoc, List.map_append]
              exact List.Sublist.append_right h.sublist _
            dsimp only
            split
            · exact (flush_inTurn hsub).weaken fun w' hw' => hw'.1
            · refine Gives.pure ⟨hsub, fun hidle => ?_⟩
              unfold CascadeCall.waits at hwaits
              rw [Bool.and_eq_true] at hwaits
              rcases hidle with hidle | hidle
              · rw [hidle] at hwaits
                cases hwaits.1
              · cases hidle
        · exact (flushFirst_inTurn h).bind fun w' hw' => Gives.pure (giveRow_inTurn hw'.1 hw'.2 row)

/-- The rows given stand in the order of the rows that came. -/
theorem applyCascade_sublist (rows : List (ScanRow K V)) :
    Gives (fun out => (out.map fun row => row.key).Sublist (rows.map fun row => row.key))
      (applyCascade q batchGet rows) := by
  have hstart : InTurn q batchGet [] ⟨[], [], .empty⟩ := ⟨List.Sublist.refl _, fun _ => rfl⟩
  have hrun : Gives (InTurn q batchGet rows) (rows.foldlM (cascadeRow q batchGet) ⟨[], [], .empty⟩) :=
    Gives.foldlM (fun _ _ row => cascadeRow_inTurn row) rows hstart
  refine hrun.bind fun w hw => ?_
  have hout : ∀ w : Waits K V, InTurn q batchGet rows w →
      (w.out.map fun row => row.key).Sublist (rows.map fun row => row.key) :=
    fun w hw => (List.sublist_append_left _ _).trans hw.sublist
  unfold finish
  split
  · exact Gives.pure (hout w hw)
  · exact (flushFirst_inTurn hw).bind fun w' hw' => Gives.pure (hout w' hw'.1)

/-- Where nothing is left to filter by and there is no limit, the rows are only projected. -/
theorem applyCascade_all (project : Projection) (rows : List (ScanRow K V)) (s : S) :
    applyCascade ⟨.alwaysTrue, none, none, project⟩ batchGet rows s =
      (.ok (rows.map fun row => projectRow row project), s) := by
  have hrun : ∀ out : List (ScanRow K V), rows.foldlM
      (cascadeRow ⟨.alwaysTrue, none, none, project⟩ batchGet) ⟨out, [], .empty⟩ =
      (pure ⟨out ++ rows.map fun row => projectRow row project, [], .empty⟩ : M S (Waits K V)) := by
    induction rows with
    | nil =>
      intro out
      rw [List.map_nil, List.append_nil]
      rfl
    | cons row rows ih =>
      intro out
      have hstep : cascadeRow ⟨.alwaysTrue, none, none, project⟩ batchGet ⟨out, [], .empty⟩ row =
          (pure ⟨out ++ [projectRow row project], [], .empty⟩ : M S (Waits K V)) := rfl
      rw [List.foldlM_cons, hstep, pure_bind, ih, List.append_assoc]
      rfl
  unfold applyCascade
  rw [hrun, pure_bind]
  rfl

end Whatever

/-! ### A memory store -/

namespace MemoryKvBackend

/-- A memory store answers alike until it is written to, though its reads delete what expired. -/
theorem steady_plain {V : Type} (r : MemoryRoot Char V) :
    Steady (SameFound r) (shown r) (plain V).batchGet := by
  intro keys t ht
  have hget : ∀ k t', SameFound r t' → ((plain V).get k t').1 = .ok (shown r k) ∧
      SameFound t' ((plain V).get k t').2 := fun k t' => (get_shown_of_same · k)
  obtain ⟨found, t', hrun, ht', hfound⟩ := batchGet_run hget keys ht
  exact ⟨found, t', hrun, ht', fun k hk => by rw [hfound, if_pos hk]⟩

/-- One lasting text. -/
def oneText : MemoryRoot Char String :=
  ((plain String).set ['a'] "first" ⟨none, none⟩ (.empty 0)).2

/-- Texts that are not empty, two of them at most. -/
def twoTexts : CascadeCall (List Char) String where
  residual := .value "NotEmpty" fun row => row.value.any fun text => !text.isEmpty
  refine := none
  limit := some 2
  project := .entries

/-- A row that waits, one that carries its value, and one past the limit. -/
theorem applyCascade_iff_twoTexts :
    (applyCascade twoTexts (some (plain String).batchGet)
      [⟨['a'], none, none⟩, ⟨['b'], some "second", none⟩, ⟨['a'], none, none⟩] oneText).1 =
      .ok [⟨['a'], some "first", none⟩, ⟨['b'], some "second", none⟩] :=
  (applyCascade_iff twoTexts _ (steady_plain oneText) _ (Std.Refl.refl (r := SameFound) oneText)).1.mpr
    (noneTwice_of_nodup (by decide))

/-- Two rows of one key wait on the same page. -/
theorem applyCascade_raises :
    let rows : List (ScanRow (List Char) String) := [⟨['a'], none, none⟩, ⟨['a'], none, none⟩]
    (applyCascade twoTexts (some (plain String).batchGet) rows oneText).1 = .error keyError ∧
      cut twoTexts (rows.filterMap (judge twoTexts (shown oneText))) =
        [⟨['a'], some "first", none⟩, ⟨['a'], some "first", none⟩] :=
  ⟨rfl, rfl⟩

end MemoryKvBackend

end Kvtsjl
