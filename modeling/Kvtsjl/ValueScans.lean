import Kvtsjl.Lib.Paging
import Kvtsjl.PrefixScans
import Kvtsjl.ScanLimits

/-
  Scans of a value view and scans of its source.
  The key part of the predicate goes down to the source, and what is left is decided on the mapped
  values. What the source is asked for follows from the values alone: a predicate on the stats of rows
  that are asked for by their keys sees none (`valueScan_iff`).
-/

namespace Kvtsjl

open Assoc (Dict)
open Effects Prog

/-! ## Predicates read through a function -/

namespace Predicate

section Through

variable {K V U : Type} (f : V → U)

theorem isAlwaysTrue_through (p : Predicate K U) : (p.through f).isAlwaysTrue = p.isAlwaysTrue := by
  cases p <;> rfl

theorem isKeyOnly_through (p : Predicate K U) : (p.through f).isKeyOnly = p.isKeyOnly := by
  induction p with
  | and l r ihl ihr =>
    show ((l.through f).isKeyOnly && (r.through f).isKeyOnly) = (l.isKeyOnly && r.isKeyOnly)
    rw [ihl, ihr]
  | or l r ihl ihr =>
    show ((l.through f).isKeyOnly && (r.through f).isKeyOnly) = (l.isKeyOnly && r.isKeyOnly)
    rw [ihl, ihr]
  | not p ih => exact ih
  | _ => rfl

theorem through_andUnlessTrue (l r : Predicate K U) :
    (andUnlessTrue l r).through f = andUnlessTrue (l.through f) (r.through f) := by
  unfold andUnlessTrue
  rw [isAlwaysTrue_through, isAlwaysTrue_through]
  split
  · rfl
  · split
    · rfl
    · split <;> rfl

theorem splitKeyPredicates_through (p : Predicate K U) : (p.through f).splitKeyPredicates =
    (p.splitKeyPredicates.1.through f, p.splitKeyPredicates.2.through f) := by
  induction p with
  | and l r ihl ihr =>
    show (andUnlessTrue (l.through f).splitKeyPredicates.1 (r.through f).splitKeyPredicates.1,
      andUnlessTrue (l.through f).splitKeyPredicates.2 (r.through f).splitKeyPredicates.2) =
        ((andUnlessTrue l.splitKeyPredicates.1 r.splitKeyPredicates.1).through f,
          (andUnlessTrue l.splitKeyPredicates.2 r.splitKeyPredicates.2).through f)
    rw [ihl, ihr, through_andUnlessTrue, through_andUnlessTrue]
  | or l r =>
    have hkey := isKeyOnly_through f (or l r)
    show (if (or (l.through f) (r.through f)).isKeyOnly then _ else _) = _
    unfold splitKeyPredicates
    show (if ((or l r).through f).isKeyOnly then _ else _) = _
    rw [hkey]
    split <;> rfl
  | not p ih =>
    show (if (p.through f).splitKeyPredicates.2.isAlwaysTrue && !(p.through f).splitKeyPredicates.1.isAlwaysTrue then
        (not (p.through f).splitKeyPredicates.1, alwaysTrue)
      else if (p.through f).splitKeyPredicates.1.isAlwaysTrue && !(p.through f).splitKeyPredicates.2.isAlwaysTrue then
        (alwaysTrue, not (p.through f).splitKeyPredicates.2)
      else (alwaysTrue, not (p.through f))) = _
    have hnot : (not p).splitKeyPredicates =
        if p.splitKeyPredicates.2.isAlwaysTrue && !p.splitKeyPredicates.1.isAlwaysTrue then
          (not p.splitKeyPredicates.1, alwaysTrue)
        else if p.splitKeyPredicates.1.isAlwaysTrue && !p.splitKeyPredicates.2.isAlwaysTrue then
          (alwaysTrue, not p.splitKeyPredicates.2)
        else (alwaysTrue, not p) := rfl
    rw [hnot, ih]
    dsimp only
    rw [isAlwaysTrue_through, isAlwaysTrue_through]
    split
    · rfl
    · split <;> rfl
  | _ => rfl

theorem needs_through (p : Predicate K U) : (p.through f).needs = p.needs := by
  induction p with
  | and l r ihl ihr =>
    show (l.through f).needs.union (r.through f).needs = l.needs.union r.needs
    rw [ihl, ihr]
  | or l r ihl ihr =>
    show (l.through f).needs.union (r.through f).needs = l.needs.union r.needs
    rw [ihl, ihr]
  | not p ih => exact ih
  | _ => rfl

theorem peelKeyPrefix_through (p : Predicate K U) : (p.through f).peelKeyPrefix =
    (p.peelKeyPrefix.1, p.peelKeyPrefix.2.through f) := by
  induction p with
  | and l r ihl ihr =>
    show (and (l.through f) (r.through f)).peelKeyPrefix = _
    rw [peelKeyPrefix, peelKeyPrefix, ihl, ihr]
    rcases l.peelKeyPrefix with ⟨_ | pre, rest⟩
    · rcases r.peelKeyPrefix with ⟨_ | pre, rest'⟩
      · rfl
      · dsimp only
        rw [isAlwaysTrue_through]
        split <;> rfl
    · dsimp only
      rw [isAlwaysTrue_through]
      split <;> rfl
  | _ => rfl

variable [ScanKey K]

/-- A predicate read through a function says of a row what it says of the mapped row. -/
theorem evaluate_through (p : Predicate K U) (row : ScanRow K V) :
    (p.through f).evaluate row = p.evaluate (row.mapValue f) := by
  induction p with
  | and l r ihl ihr =>
    show ((l.through f).evaluate row && (r.through f).evaluate row) = _
    rw [ihl, ihr]
    rfl
  | or l r ihl ihr =>
    show ((l.through f).evaluate row || (r.through f).evaluate row) = _
    rw [ihl, ihr]
    rfl
  | not p ih =>
    show (!(p.through f).evaluate row) = _
    rw [ih]
    rfl
  | _ => rfl

end Through

/-! ### The prefix of the key part -/

section Peel

variable {K V : Type} [ScanKey K]

/-- Without a prefix to peel, nothing is. -/
theorem evaluate_peeled {p : Predicate K V} (h : p.peelKeyPrefix.1 = none) (row : ScanRow K V) :
    p.peelKeyPrefix.2.evaluate row = p.evaluate row := by
  have heval := p.evaluate_peelKeyPrefix row
  rw [h, Option.all_none, Bool.true_and] at heval
  exact heval.symm

/-- The prefix of a conjunction is that of the side on the left, if it has one. -/
theorem peelKeyPrefix_and (l r : Predicate K V) :
    (and l r).peelKeyPrefix.1 = (l.peelKeyPrefix.1 <|> r.peelKeyPrefix.1) ∧
    ∀ row, (and l r).peelKeyPrefix.2.evaluate row =
      if l.peelKeyPrefix.1.isSome then l.peelKeyPrefix.2.evaluate row && r.evaluate row
      else l.evaluate row && r.peelKeyPrefix.2.evaluate row := by
  have hrest : ∀ rest side : Predicate K V, ∀ row, (if rest.isAlwaysTrue then side else and rest side).evaluate row =
      (rest.evaluate row && side.evaluate row) := by
    intro rest side row
    split
    · next htrue =>
      rw [eq_alwaysTrue htrue]
      exact (Bool.true_and _).symm
    · rfl
  rw [peelKeyPrefix]
  rcases hl : l.peelKeyPrefix with ⟨_ | pre, rest⟩
  · rcases hr : r.peelKeyPrefix with ⟨_ | pre, rest'⟩
    · refine ⟨rfl, fun row => ?_⟩
      have hright := evaluate_peeled (p := r) (by rw [hr]) row
      rw [hr] at hright
      dsimp only
      rw [hright]
      rfl
    · refine ⟨rfl, fun row => ?_⟩
      show (if rest'.isAlwaysTrue then l else and l rest').evaluate row = (l.evaluate row && rest'.evaluate row)
      split
      · next htrue =>
        rw [eq_alwaysTrue htrue]
        exact (Bool.and_true _).symm
      · rfl
  · exact ⟨rfl, fun row => hrest rest r row⟩

theorem peelKeyPrefix_andUnlessTrue (l r : Predicate K V) :
    (andUnlessTrue l r).peelKeyPrefix.1 = (l.peelKeyPrefix.1 <|> r.peelKeyPrefix.1) ∧
    ∀ row, (andUnlessTrue l r).peelKeyPrefix.2.evaluate row =
      if l.peelKeyPrefix.1.isSome then l.peelKeyPrefix.2.evaluate row && r.evaluate row
      else l.evaluate row && r.peelKeyPrefix.2.evaluate row := by
  cases hl : l.isAlwaysTrue with
  | true =>
    have hleft : andUnlessTrue l r = r := by
      unfold andUnlessTrue
      rw [hl]
      cases hr : r.isAlwaysTrue with
      | true => exact (eq_alwaysTrue hr).symm
      | false => rfl
    rw [hleft, eq_alwaysTrue hl]
    exact ⟨rfl, fun row => (Bool.true_and _).symm⟩
  | false =>
    cases hr : r.isAlwaysTrue with
    | true =>
      have hright : andUnlessTrue l r = l := by
        unfold andUnlessTrue
        rw [hl, hr]
        rfl
      rw [hright, eq_alwaysTrue hr]
      refine ⟨by cases l.peelKeyPrefix.1 <;> rfl, fun row => ?_⟩
      split
      · exact (Bool.and_true _).symm
      · next hnone =>
        rw [evaluate_peeled (Option.not_isSome_iff_eq_none.mp hnone)]
        exact (Bool.and_true _).symm
    | false =>
      have hboth : andUnlessTrue l r = and l r := by
        unfold andUnlessTrue
        rw [hl, hr]
        rfl
      rw [hboth]
      exact peelKeyPrefix_and l r

/-- The key part has the prefix of the whole, and the rest of it with what is left over is the rest of
    the whole. -/
theorem peelKeyPrefix_split (p : Predicate K V) :
    p.splitKeyPredicates.1.peelKeyPrefix.1 = p.peelKeyPrefix.1 ∧
    ∀ row, p.peelKeyPrefix.2.evaluate row =
      (p.splitKeyPredicates.1.peelKeyPrefix.2.evaluate row && p.splitKeyPredicates.2.evaluate row) := by
  have hwhole : ∀ q : Predicate K V, q.peelKeyPrefix = (none, q) → q.splitKeyPredicates.1.peelKeyPrefix.1 = none →
      q.splitKeyPredicates.1.peelKeyPrefix.1 = q.peelKeyPrefix.1 ∧
      ∀ row, q.peelKeyPrefix.2.evaluate row =
        (q.splitKeyPredicates.1.peelKeyPrefix.2.evaluate row && q.splitKeyPredicates.2.evaluate row) := by
    intro q hq hsplit
    rw [hq]
    refine ⟨hsplit, fun row => ?_⟩
    rw [evaluate_peeled hsplit]
    exact evaluate_splitKeyPredicates q row
  induction p with
  | and l r ihl ihr =>
    show (andUnlessTrue l.splitKeyPredicates.1 r.splitKeyPredicates.1).peelKeyPrefix.1 = _ ∧
      ∀ row, _ = ((andUnlessTrue l.splitKeyPredicates.1 r.splitKeyPredicates.1).peelKeyPrefix.2.evaluate row &&
        (andUnlessTrue l.splitKeyPredicates.2 r.splitKeyPredicates.2).evaluate row)
    obtain ⟨hfirst, hrest⟩ := peelKeyPrefix_andUnlessTrue l.splitKeyPredicates.1 r.splitKeyPredicates.1
    obtain ⟨hfirst', hrest'⟩ := peelKeyPrefix_and l r
    refine ⟨by rw [hfirst, hfirst', ihl.1, ihr.1], fun row => ?_⟩
    rw [hrest, hrest', evaluate_andUnlessTrue, ihl.1]
    split
    · rw [ihl.2, evaluate_splitKeyPredicates r row]
      simp only [Bool.and_assoc, Bool.and_left_comm]
    · rw [ihr.2, evaluate_splitKeyPredicates l row]
      simp only [Bool.and_assoc, Bool.and_left_comm]
  | or l r =>
    refine hwhole _ rfl ?_
    unfold splitKeyPredicates
    split <;> rfl
  | not p =>
    refine hwhole _ rfl ?_
    unfold splitKeyPredicates
    dsimp only
    split
    · rfl
    · split <;> rfl
  | keyPrefix pre => exact ⟨rfl, fun _ => rfl⟩
  | key name test => exact hwhole _ rfl rfl
  | alwaysTrue => exact hwhole _ rfl rfl
  | stat name test => exact hwhole _ rfl rfl
  | value name test => exact hwhole _ rfl rfl

end Peel

end Predicate

/-! ## Rows that have what they need -/

section Ready

variable {S K V : Type} [DecidableEq K] [ScanKey K] {q : CascadeCall K V}

/-- Whether a row passes all there is to decide. -/
def CascadeCall.passes (q : CascadeCall K V) (row : ScanRow K V) : Bool := q.residual.evaluate row && q.refined row

omit [DecidableEq K] in
/-- The rows that pass, up to the limit, with what is asked for of each. -/
def CascadeCall.given (q : CascadeCall K V) (rows : List (ScanRow K V)) : List (ScanRow K V) :=
  cut q ((rows.filter q.passes).map fun row => projectRow row q.project)

theorem flushFirst_idle (batchGet : Option (List K → M S (Dict K V))) {w : Waits K V} (h : w.pendingKeys = []) :
    flushFirst q batchGet w = pure w := by
  unfold flushFirst
  split
  · rfl
  · split
    · rfl
    · unfold flush
      rw [if_pos h]

/-- A row that does not wait is given if it passes. -/
theorem cascadeRow_ready (batchGet : Option (List K → M S (Dict K V))) {row : ScanRow K V}
    (h : q.waits row = false) (out : List (ScanRow K V)) :
    cascadeRow q.unlimited batchGet ⟨out, [], .empty⟩ row =
      pure ⟨out ++ if q.passes row then [projectRow row q.project] else [], [], .empty⟩ := by
  have hskip : q.passes row = false → (pure ⟨out, [], .empty⟩ : M S (Waits K V)) =
      pure ⟨out ++ if q.passes row then [projectRow row q.project] else [], [], .empty⟩ := by
    intro hpasses
    rw [hpasses, if_neg Bool.false_ne_true, List.append_nil]
  have hpart : q.passes row = (Predicate.allPass q.keyP row && Predicate.allPass q.statP row &&
      Predicate.allPass q.valueP row && q.refined row) := by
    unfold CascadeCall.passes
    rw [Predicate.evaluate_partitionByNeeds]
    rfl
  have hreached : ∀ n, q.unlimited.reached n = false := fun _ => rfl
  have hkeyP : q.unlimited.keyP = q.keyP := rfl
  have hstatP : q.unlimited.statP = q.statP := rfl
  have hvalueP : q.unlimited.valueP = q.valueP := rfl
  have hwaits : q.unlimited.waits row = q.waits row := rfl
  have hrefined : q.unlimited.refined row = q.refined row := rfl
  unfold cascadeRow
  rw [hreached, if_neg Bool.false_ne_true, hkeyP, hstatP, hwaits, h, if_neg Bool.false_ne_true]
  cases hkey : Predicate.allPass q.keyP row with
  | false => exact hskip (by rw [hpart, hkey]; rfl)
  | true =>
    cases hstat : Predicate.allPass q.statP row with
    | false => exact hskip (by rw [hpart, hkey, hstat]; rfl)
    | true =>
      rw [hkey, hstat, Bool.true_and, Bool.true_and] at hpart
      show (flushFirst q.unlimited batchGet ⟨out, [], .empty⟩ >>= _) = _
      rw [flushFirst_idle batchGet rfl, pure_bind]
      unfold giveRow
      rw [hreached, Bool.and_false, if_neg Bool.false_ne_true, hvalueP, hrefined]
      cases hvalue : Predicate.allPass q.valueP row with
      | false => exact hskip (by rw [hpart, hvalue]; rfl)
      | true =>
        rw [hvalue, Bool.true_and] at hpart
        cases hrefine : q.refined row with
        | false => exact hskip (by rw [hpart, hrefine])
        | true =>
          rw [hrefine] at hpart
          rw [hpart]
          rfl

theorem applyCascade_ready (batchGet : Option (List K → M S (Dict K V))) {rows : List (ScanRow K V)}
    (h : ∀ row ∈ rows, q.waits row = false) (s : S) : (applyCascade q batchGet rows s).1 = .ok (q.given rows) := by
  have hrun : ∀ (rows : List (ScanRow K V)), (∀ row ∈ rows, q.waits row = false) → ∀ out : List (ScanRow K V),
      rows.foldlM (cascadeRow q.unlimited batchGet) ⟨out, [], .empty⟩ =
        (pure ⟨out ++ (rows.filter q.passes).map fun row => projectRow row q.project, [], .empty⟩ :
          M S (Waits K V)) := by
    intro rows
    induction rows with
    | nil =>
      intro _ out
      rw [List.filter_nil, List.map_nil, List.append_nil]
      rfl
    | cons row rows ih =>
      intro hrows out
      rw [List.foldlM_cons, cascadeRow_ready batchGet (hrows row List.mem_cons_self), pure_bind,
        ih fun r hr => hrows r (List.mem_cons_of_mem _ hr)]
      cases hpasses : q.passes row with
      | true => rw [if_pos rfl, List.filter_cons_of_pos hpasses, List.map_cons, List.append_assoc]; rfl
      | false =>
        have hnot : ¬ q.passes row = true := by rw [hpasses]; exact Bool.false_ne_true
        rw [if_neg Bool.false_ne_true, List.filter_cons_of_neg hnot, List.append_nil]
  have hall : applyCascade q.unlimited batchGet rows s =
      (.ok ((rows.filter q.passes).map fun row => projectRow row q.project), s) := by
    unfold applyCascade
    rw [hrun rows h, pure_bind]
    unfold finish
    rw [flushFirst_idle batchGet rfl]
    rfl
  exact applyCascade_limit batchGet hall

end Ready

/-! ## A source and what it lists -/

/-- Cut at a limit. -/
def cutAt {X : Type} (limit : Option Int) (xs : List X) : List X :=
  match limit with
  | none => xs
  | some limit => xs.take limit.toNat

theorem cutAt_map {X Y : Type} (limit : Option Int) (g : X → Y) (xs : List X) :
    cutAt limit (xs.map g) = (cutAt limit xs).map g := by
  cases limit with
  | none => rfl
  | some limit => exact List.map_take.symm

theorem cutAt_cutAt {X : Type} (limit : Option Int) (xs : List X) : cutAt limit (cutAt limit xs) = cutAt limit xs := by
  cases limit with
  | none => rfl
  | some limit =>
    show (xs.take _).take _ = _
    rw [List.take_take, Nat.min_self]
    rfl

theorem cutAt_subset {X : Type} (limit : Option Int) (xs : List X) : cutAt limit xs ⊆ xs := by
  cases limit with
  | none => exact fun _ h => h
  | some limit => exact List.take_subset _ _

/-- Before the limit: fewer have passed than may be given. -/
def Short (limit : Option Int) (passed : Nat) : Prop := ∀ n, limit = some n → passed < n.toNat

theorem cutAt_filter_congr {X : Type} {p q : X → Bool} {xs : List X} {limit : Option Int}
    (h : ∀ before x after, xs = before ++ x :: after → Short limit (before.filter p).length → p x = q x) :
    cutAt limit (xs.filter p) = cutAt limit (xs.filter q) := by
  cases limit with
  | none =>
    refine List.filter_congr fun x hx => ?_
    obtain ⟨before, after, hsplit⟩ := List.append_of_mem hx
    exact h before x after hsplit fun n hn => by cases hn
  | some n =>
    refine Paging.take_filter_congr fun before x after hsplit hlt => h before x after hsplit fun m hm => ?_
    rw [← Option.some.inj hm]
    exact hlt

theorem cutAt_filter_congr_iff {X : Type} {p q : X → Bool} {xs : List X} (hnodup : xs.Nodup) {limit : Option Int} :
    cutAt limit (xs.filter p) = cutAt limit (xs.filter q) ↔
      ∀ before x after, xs = before ++ x :: after → Short limit (before.filter p).length → p x = q x := by
  refine ⟨fun heq before x after hsplit hshort => ?_, cutAt_filter_congr⟩
  cases limit with
  | none =>
    have hx : x ∈ xs := by
      rw [hsplit]
      exact List.mem_append_right _ List.mem_cons_self
    have hboth : x ∈ xs.filter p ↔ x ∈ xs.filter q := by
      have hsame : xs.filter p = xs.filter q := heq
      rw [hsame]
    rw [List.mem_filter, List.mem_filter, and_iff_right hx, and_iff_right hx] at hboth
    exact Bool.eq_iff_iff.mpr hboth
  | some n => exact (Paging.take_filter_congr_iff hnodup).mp heq before x after hsplit (hshort n rfl)

namespace ScanSpec

section

variable {K V U : Type}

/-- Two specs for which a store lists the same. -/
structure ListsAs (spec like : ScanSpec K V) : Prop where
  keyPrefix : spec.where_.peelKeyPrefix.1 = like.where_.peelKeyPrefix.1
  order : spec.order = like.order
  orderBy : spec.orderBy = like.orderBy
  cursor : spec.cursor = like.cursor
  pageSize : spec.pageSize = like.pageSize
  onUnsupported : spec.onUnsupported = like.onUnsupported

/-- What of it is about keys. -/
def keyPart (spec : ScanSpec K V) (project : Projection) (limit : Option Int) : ScanSpec K V :=
  { spec with where_ := spec.where_.splitKeyPredicates.1, refine := none, project := project, limit := limit }

theorem listsAs_keyPart [ScanKey K] {spec like : ScanSpec K V} (h : spec.ListsAs like) (project : Projection)
    (limit : Option Int) : (spec.keyPart project limit).ListsAs like :=
  { h with keyPrefix := spec.where_.peelKeyPrefix_split.1.trans h.keyPrefix }

/-- The refinement looks at the key. -/
def RefinesKeys (spec : ScanSpec K V) : Prop :=
  ∀ refine, spec.refine = some refine → ∀ row row' : ScanRow K V, row.key = row'.key → refine row = refine row'

/-- What is asked of the rows that are listed. -/
def asked (spec : ScanSpec K V) : CascadeCall K V := spec.call spec.where_.peelKeyPrefix.2

/-- The rows gone through. A table that is read in pages is read no further than the limit, whatever
    the rows are then filtered by. -/
def goneThrough (spec : ScanSpec K V) (paged : Bool) (rows : List (ScanRow K V)) : List (ScanRow K V) :=
  if paged then SqlListing.drawn spec.limit rows else rows

/-- The spec with the values read through `f`. -/
def through (spec : ScanSpec K U) (f : V → U) : ScanSpec K V :=
  { spec with
    where_ := spec.where_.through f
    refine := spec.refine.map fun refine row => refine (row.mapValue f) }

theorem refinesKeys_through (spec : ScanSpec K U) (h : spec.RefinesKeys) (f : V → U) :
    (spec.through f).RefinesKeys := by
  intro refine hsome row row' hkey
  obtain ⟨refine', hrefine', rfl⟩ := Option.map_eq_some_iff.mp hsome
  exact h refine' hrefine' _ _ hkey

theorem downValues_eq (spec : ScanSpec K U) (f : V → U) : downValues f spec =
    (spec.through f).keyPart
      (if needsValues spec spec.where_.splitKeyPredicates.2 then .entries else spec.project)
      (if unfiltered spec spec.where_.splitKeyPredicates.2 then spec.limit else none) := by
  unfold downValues keyPart through
  simp only [Predicate.splitKeyPredicates_through]

end

end ScanSpec

/-- A store lists these rows for a spec and for others that list the same. What it then gives is what
    passes of the rows it goes through. It takes the part of an accepted spec that is about keys. -/
structure Lists {S K V : Type} [ScanKey K] (src : Scannable S K V) (s : S) (like : ScanSpec K V) (paged : Bool)
    (rows : List (ScanRow K V)) : Prop where
  valued : ∀ row ∈ rows, row.value.isSome = true
  /-- Pages of a table come without stats. -/
  unstated : paged = true → ∀ row ∈ rows, row.stat = none
  gives : ∀ spec out, spec.ListsAs like → spec.RefinesKeys → (src.scanRows spec s).1 = .ok out →
    out = spec.asked.given (spec.goneThrough paged rows)
  accepts : ∀ spec out project limit, spec.ListsAs like → (src.scanRows spec s).1 = .ok out →
    ∃ part, (src.scanRows (spec.keyPart project limit) s).1 = .ok part

/-! ### A leaf -/

section Leaf

variable {S K V : Type} [ScanKey K]

/-- A row as a listing brings it, with its value if it is asked for. -/
def bring (values : Bool) (row : ScanRow K V) : ScanRow K V := if values then row else { row with value := none }

/-- `scan_entries` brings these rows. -/
def EntriesBring (I : S → Prop) (s : S) (like : ScanSpec K V) (rows : List (ScanRow K V))
    (scanEntries : ScanQuery K → M S (List (K × Option V))) : Prop :=
  ∀ values, ∃ entries s', scanEntries ⟨like.where_.peelKeyPrefix.1, values, like.pageSize⟩ s = (.ok entries, s') ∧
    I s' ∧ afterCursor like.cursor (entries.map fun e => ⟨e.1, e.2, none⟩) = rows.map (bring values)

namespace Listing

/-- Whether it is read in pages, up to the limit. -/
def paged (like : ScanSpec K V) : Listing S K V → Bool
  | .sql b => decide (like.orderBy = []) && b.supportsPagedScan
  | _ => false

/-- The listing brings these rows for a spec, and leaves a state with `I`. -/
def Brings (I : S → Prop) (s : S) (like : ScanSpec K V) (rows : List (ScanRow K V)) : Listing S K V → Prop
  | .legacy _ scanEntries => EntriesBring I s like rows scanEntries
  | .object b => ∀ values, ∃ s', b.listedRows like.where_.peelKeyPrefix.1 values s =
      (.ok (rows.map (bring values)), s') ∧ I s'
  | .sql b =>
    if like.orderBy = [] then
      if b.supportsPagedScan then
        (∀ row ∈ rows, row.stat = none) ∧ ∀ after values, like.cursor.mapM b.afterKeyFromCursor = .ok after →
          ∃ s', b.keysetRows like.where_.peelKeyPrefix.1 after like.pageSize values s =
            (.ok (rows.map (bring values)), s') ∧ I s'
      else EntriesBring I s like rows b.scanEntries
    else ∀ orderBy limit values, b.resolveOrderBy like.orderBy = .ok orderBy →
      ∃ s', b.orderedRows like.where_.peelKeyPrefix.1 orderBy limit values s =
        (.ok ((cutAt limit rows).map (bring values)), s') ∧ I s'

end Listing

omit [ScanKey K] in
theorem drawn_map (limit : Option Int) (g : ScanRow K V → ScanRow K V) (rows : List (ScanRow K V)) :
    SqlListing.drawn limit (rows.map g) = (SqlListing.drawn limit rows).map g := by
  cases limit with
  | none => rfl
  | some limit => exact List.map_take.symm

variable {I : S → Prop} {s : S} {like spec : ScanSpec K V} {rows : List (ScanRow K V)}

theorem compileFromScanEntries_run [DecidableEq K] {scanEntries : ScanQuery K → M S (List (K × Option V))}
    (h : EntriesBring I s like rows scanEntries) (hspec : spec.ListsAs like) {backend : String}
    {compiled : CompiledScan S K V} (hcompiled : compileFromScanEntries scanEntries spec backend = .ok compiled) :
    compiled.residual = spec.where_.peelKeyPrefix.2 ∧
      ∃ s', compiled.rows s = (.ok (rows.map (bring (spec.project = .entries))), s') ∧ I s' := by
  have heq := enforceStrict_then hcompiled
  obtain ⟨entries, s', hentries, hI, hcame⟩ := h (spec.project = .entries)
  rw [heq]
  refine ⟨rfl, s', ?_, hI⟩
  rw [← hspec.keyPrefix, ← hspec.pageSize] at hentries
  show (scanEntries _ >>= _) s = _
  rw [bind_ok hentries, ← hcame, ← hspec.cursor]
  rfl

/-- What a leaf's compiled scan brings: rows of those listed, of which as much is given as of those the
    spec goes through. -/
theorem compileScan_run [DecidableEq K] {l : Listing S K V} (h : l.Brings I s like rows) (hspec : spec.ListsAs like)
    {compiled : CompiledScan S K V} (hcompiled : l.compileScan spec = .ok compiled) :
    compiled.residual = spec.where_.peelKeyPrefix.2 ∧ ∃ taken s', taken.Sublist rows ∧
      compiled.rows s = (.ok (taken.map (bring (spec.project = .entries))), s') ∧ I s' ∧
        spec.asked.given taken = spec.asked.given (spec.goneThrough (l.paged like) rows) := by
  cases l with
  | legacy backend scanEntries =>
    obtain ⟨hresidual, s', hrows, hI⟩ := compileFromScanEntries_run h hspec hcompiled
    exact ⟨hresidual, rows, s', List.Sublist.refl _, hrows, hI, rfl⟩
  | object b =>
    have hobject : b.compileScan spec = .ok compiled := hcompiled
    unfold ObjectListing.compileScan at hobject
    split at hobject
    · cases hobject
    · obtain ⟨s', hrows, hI⟩ := h (spec.project = .entries)
      rw [enforceStrict_then hobject]
      rw [← hspec.keyPrefix] at hrows
      exact ⟨rfl, rows, s', List.Sublist.refl _, hrows, hI, rfl⟩
  | sql b =>
    have hsql : b.compileScan spec = .ok compiled := hcompiled
    unfold SqlListing.compileScan at hsql
    rw [Listing.Brings] at h
    rw [Listing.paged]
    rw [hspec.orderBy] at hsql
    by_cases horder : like.orderBy = []
    · rw [if_pos horder] at hsql h
      cases hpaged : b.supportsPagedScan with
      | false =>
        rw [hpaged, if_neg Bool.false_ne_true] at hsql h
        obtain ⟨hresidual, s', hrows, hI⟩ := compileFromScanEntries_run h hspec hsql
        rw [Bool.and_false]
        exact ⟨hresidual, rows, s', List.Sublist.refl _, hrows, hI, rfl⟩
      | true =>
        rw [hpaged, if_pos rfl] at hsql h
        split at hsql
        · cases hsql
        · unfold SqlListing.compileKeysetScan at hsql
          cases hafter : spec.cursor.mapM b.afterKeyFromCursor with
          | error e =>
            rw [hafter] at hsql
            cases hsql
          | ok after =>
            rw [hafter] at hsql
            obtain ⟨s', hrows, hI⟩ := h.2 after (spec.project = .entries) (by rw [← hspec.cursor]; exact hafter)
            rw [enforceStrict_then hsql, decide_eq_true horder]
            refine ⟨rfl, SqlListing.drawn spec.limit rows, s', ?_, ?_, hI, rfl⟩
            · unfold SqlListing.drawn
              split
              · exact List.Sublist.refl _
              · exact List.take_sublist _ _
            · rw [← hspec.keyPrefix, ← hspec.pageSize] at hrows
              show (b.keysetRows _ _ _ _ >>= _) s = _
              rw [bind_ok hrows, ← drawn_map]
              rfl
    · rw [if_neg horder] at hsql h
      rw [decide_eq_false horder]
      split at hsql
      · cases hsql
      · cases hresolved : b.resolveOrderBy like.orderBy with
        | error e =>
          rw [hresolved] at hsql
          cases hsql
        | ok orderBy =>
          rw [hresolved] at hsql
          obtain ⟨s', hrows, hI⟩ := h orderBy (if spec.where_.peelKeyPrefix.2.isAlwaysTrue && spec.refine.isNone then
            spec.limit else none) (spec.project = .entries) hresolved
          rw [enforceStrict_then hsql]
          rw [← hspec.keyPrefix] at hrows
          refine ⟨rfl, _, s', ?_, hrows, hI, ?_⟩
          · unfold cutAt
            split
            · exact List.Sublist.refl _
            · exact List.take_sublist _ _
          · show _ = spec.asked.given rows
            split
            · next hall =>
              rw [Bool.and_eq_true, Option.isNone_iff_eq_none] at hall
              have hpasses : ∀ row, spec.asked.passes row = true := by
                intro row
                show (spec.where_.peelKeyPrefix.2.evaluate row && spec.refine.all fun refine => refine row) = true
                rw [Predicate.eq_alwaysTrue hall.1, hall.2]
                rfl
              have hkept : ∀ listed : List (ScanRow K V), listed.filter spec.asked.passes = listed :=
                fun listed => List.filter_eq_self.mpr fun row _ => hpasses row
              unfold CascadeCall.given
              rw [hkept, hkept]
              show cutAt spec.limit (List.map _ _) = cutAt spec.limit (List.map _ _)
              rw [cutAt_map, cutAt_map, cutAt_cutAt]
            · rfl

/-! #### The cascade over them -/

theorem passes_bring (hrefine : spec.RefinesKeys) (hvalue : spec.where_.peelKeyPrefix.2.needs.value = false)
    (values : Bool) (row : ScanRow K V) : spec.asked.passes (bring values row) = spec.asked.passes row := by
  have hkey : (bring values row).key = row.key := by cases values <;> rfl
  have hstat : (bring values row).stat = row.stat := by cases values <;> rfl
  have hrefined : spec.asked.refined (bring values row) = spec.asked.refined row := by
    show spec.refine.all (fun refine => refine (bring values row)) = spec.refine.all fun refine => refine row
    cases hr : spec.refine with
    | none => rfl
    | some refine => exact hrefine refine hr _ _ hkey
  unfold CascadeCall.passes
  rw [hrefined]
  show (spec.where_.peelKeyPrefix.2.evaluate _ && _) = (spec.where_.peelKeyPrefix.2.evaluate _ && _)
  rw [Predicate.evaluate_of_needs hvalue hkey (.inr hstat)]

variable [DecidableEq K] {content : K → Option V} {batchGet : List K → M S (Dict K V)}

omit [DecidableEq K] in
/-- Of rows brought without values, those that pass once their values are read. -/
theorem judge_bare (hvalue : spec.where_.peelKeyPrefix.2.needs.value = true) {row : ScanRow K V}
    (hvalued : row.value.isSome = true) (hcontent : content row.key = row.value) :
    judge spec.asked content { row with value := none } =
      if spec.asked.passes row then some (projectRow row spec.project) else none := by
  obtain ⟨value, hsome⟩ := Option.isSome_iff_exists.mp hvalued
  obtain ⟨key, value', stat⟩ := row
  dsimp only at hsome hcontent
  subst hsome
  have hneeds : spec.asked.residual.needs.value = true := hvalue
  unfold judge
  rw [if_pos hneeds]
  dsimp only
  rw [hcontent]
  rfl

/-- The cascade gives what passes of the rows brought. -/
theorem cascade_brought (hrefine : spec.RefinesKeys) (hvalued : ∀ row ∈ rows, row.value.isSome = true)
    (hnodup : (rows.map fun row => row.key).Nodup) (hcontent : ∀ row ∈ rows, content row.key = row.value)
    (hsteady : Steady I content batchGet) {s : S} (hs : I s) :
    (applyCascade spec.asked (some batchGet) (rows.map (bring (spec.project = .entries))) s).1 =
      .ok (spec.asked.given rows) := by
  by_cases hwaits : spec.project = .entries ∨ spec.where_.peelKeyPrefix.2.needs.value = false
  · have hready : ∀ row ∈ rows.map (bring (spec.project = .entries)), spec.asked.waits row = false := by
      intro row hrow
      obtain ⟨listed, hlisted, rfl⟩ := List.mem_map.mp hrow
      unfold CascadeCall.waits
      rw [isEmpty_valueP, Bool.not_not]
      show (spec.where_.peelKeyPrefix.2.needs.value && _) = false
      rcases hwaits with hentries | hvalue
      · obtain ⟨value, hsome⟩ := Option.isSome_iff_exists.mp (hvalued listed hlisted)
        rw [decide_eq_true hentries]
        show (_ && listed.value.isNone) = false
        rw [hsome]
        exact Bool.and_false _
      · rw [hvalue]
        rfl
    rw [applyCascade_ready _ hready]
    refine congrArg Except.ok ?_
    by_cases hentries : spec.project = .entries
    · have hall : rows.map (bring (decide (spec.project = .entries))) = rows := by
        rw [decide_eq_true hentries]
        exact List.map_id _
      rw [hall]
    · have hvalue := hwaits.resolve_left hentries
      unfold CascadeCall.given
      rw [List.filter_map, List.map_map]
      have hpasses : spec.asked.passes ∘ bring (decide (spec.project = .entries)) = spec.asked.passes :=
        funext fun row => passes_bring hrefine hvalue _ row
      rw [hpasses]
      refine congrArg _ (List.map_congr_left fun row _ => ?_)
      rw [decide_eq_false hentries]
      show projectRow { row with value := none } spec.project = projectRow row spec.project
      cases hproject : spec.project with
      | keys => rfl
      | stats => rfl
      | entries => exact absurd hproject hentries
  · rw [not_or, Bool.not_eq_false] at hwaits
    rw [decide_eq_false hwaits.1]
    have hkeys : (rows.map (bring false)).map (fun row => row.key) = rows.map fun row => row.key := by
      rw [List.map_map]
      rfl
    have honce : NoneTwice spec.asked content [] (pagesOf spec.asked [] (considered spec.asked (rows.map (bring false)))) := by
      apply noneTwice_of_listed
      rw [hkeys]
      exact hnodup
    refine (cascade_gives spec.asked content hsteady (rows.map (bring false)) hs honce).trans ?_
    refine congrArg Except.ok ?_
    unfold CascadeCall.given
    rw [List.filterMap_map, ← List.filterMap_eq_map, List.filterMap_filter]
    refine congrArg _ (List.filterMap_congr fun row hrow => ?_)
    exact judge_bare hwaits.2 (hvalued row hrow) (hcontent row hrow)

/-! #### What else it takes -/

omit [ScanKey K] [DecidableEq K] in
/-- Where nothing is left of a predicate but its prefix, nothing is left of its key part. -/
theorem peeled_split {p : Predicate K V} (h : p.peelKeyPrefix.2.isAlwaysTrue = true) :
    p.splitKeyPredicates.1.peelKeyPrefix.2.isAlwaysTrue = true := by
  induction p with
  | and l r ihl ihr =>
    show (Predicate.andUnlessTrue l.splitKeyPredicates.1 r.splitKeyPredicates.1).peelKeyPrefix.2.isAlwaysTrue = true
    have htrue : ∀ q : Predicate K V, q.isAlwaysTrue = true → q.splitKeyPredicates.1 = .alwaysTrue := by
      intro q hq
      rw [Predicate.eq_alwaysTrue hq]
      rfl
    have hleft : ∀ q : Predicate K V, Predicate.andUnlessTrue .alwaysTrue q = q := by
      intro q
      unfold Predicate.andUnlessTrue
      cases hq : q.isAlwaysTrue with
      | true => exact (Predicate.eq_alwaysTrue hq).symm
      | false => rfl
    have hright : ∀ q : Predicate K V, Predicate.andUnlessTrue q .alwaysTrue = q := by
      intro q
      unfold Predicate.andUnlessTrue
      cases hq : q.isAlwaysTrue with
      | true => exact (Predicate.eq_alwaysTrue hq).symm
      | false => rfl
    rw [Predicate.peelKeyPrefix] at h
    rcases hl : l.peelKeyPrefix with ⟨_ | pre, rest⟩
    · rcases hr : r.peelKeyPrefix with ⟨_ | pre, rest'⟩
      · rw [hl, hr] at h
        cases h
      · rw [hl, hr] at h
        rw [hr] at ihr
        dsimp only at h ihr
        split at h
        · next hrest =>
          rw [htrue l h, hleft]
          exact ihr hrest
        · cases h
    · rw [hl] at h ihl
      dsimp only at h ihl
      split at h
      · next hrest =>
        rw [htrue r h, hright]
        exact ihl hrest
      · cases h
  | keyPrefix pre => rfl
  | alwaysTrue => rfl
  | or l r => cases h
  | not p => cases h
  | key name test => cases h
  | stat name test => cases h
  | value name test => cases h

omit [ScanKey K] [DecidableEq K] in
theorem enforceStrict_keyPart {backend : String} (h : enforceStrict spec spec.where_.peelKeyPrefix.2 backend = .ok ())
    (project : Projection) (limit : Option Int) : enforceStrict (spec.keyPart project limit)
      (spec.keyPart project limit).where_.peelKeyPrefix.2 backend = .ok () := by
  unfold enforceStrict at h ⊢
  show (if spec.onUnsupported = .strict && !spec.where_.splitKeyPredicates.1.peelKeyPrefix.2.isAlwaysTrue then _
    else _) = _
  cases hrest : spec.where_.peelKeyPrefix.2.isAlwaysTrue with
  | true =>
    rw [peeled_split hrest, Bool.not_true, Bool.and_false]
    rfl
  | false =>
    rw [hrest, Bool.not_false, Bool.and_true] at h
    split at h
    · cases h
    · next hstrict =>
      have hlax : decide (spec.onUnsupported = .strict) = false := Bool.eq_false_iff.mpr hstrict
      rw [hlax]
      rfl

omit [ScanKey K] [DecidableEq K] in
theorem enforceStrict_ok {residual : Predicate K V} {backend : String} {c compiled : CompiledScan S K V}
    (h : (enforceStrict spec residual backend >>= fun _ => pure c) = .ok compiled) :
    enforceStrict spec residual backend = .ok () := by
  cases he : enforceStrict spec residual backend with
  | error e =>
    rw [he] at h
    cases h
  | ok u => rfl

omit [DecidableEq K] in
/-- A leaf that takes a spec takes its key part. -/
theorem compileScan_keyPart {l : Listing S K V} {compiled : CompiledScan S K V}
    (h : l.compileScan spec = .ok compiled) (project : Projection) (limit : Option Int) :
    ∃ part, l.compileScan (spec.keyPart project limit) = .ok part := by
  have hstrict : ∀ {backend : String} {c part : CompiledScan S K V},
      (enforceStrict spec spec.where_.peelKeyPrefix.2 backend >>= fun _ => pure c) = .ok compiled →
        (enforceStrict (spec.keyPart project limit) (spec.keyPart project limit).where_.peelKeyPrefix.2 backend >>=
          fun _ => pure part) = .ok part := by
    intro backend c part hok
    rw [enforceStrict_keyPart (enforceStrict_ok hok) project limit]
    rfl
  cases l with
  | legacy backend scanEntries => exact ⟨_, hstrict h⟩
  | object b =>
    have hobject : b.compileScan spec = .ok compiled := h
    show ∃ part, b.compileScan _ = .ok part
    unfold ObjectListing.compileScan at hobject ⊢
    split at hobject
    · cases hobject
    · next hlayout =>
      rw [if_neg hlayout]
      exact ⟨_, hstrict hobject⟩
  | sql b =>
    have hsql : b.compileScan spec = .ok compiled := h
    show ∃ part, b.compileScan _ = .ok part
    have horderBy : (spec.keyPart project limit).orderBy = spec.orderBy := rfl
    unfold SqlListing.compileScan at hsql ⊢
    rw [horderBy]
    split at hsql
    · next horder =>
      rw [if_pos horder]
      split at hsql
      · next hpaged =>
        rw [if_pos hpaged]
        split at hsql
        · cases hsql
        · next hlayout =>
          rw [if_neg hlayout]
          unfold SqlListing.compileKeysetScan at hsql ⊢
          have hcursor : (spec.keyPart project limit).cursor = spec.cursor := rfl
          rw [hcursor]
          cases hafter : spec.cursor.mapM b.afterKeyFromCursor with
          | error e =>
            rw [hafter] at hsql
            cases hsql
          | ok after =>
            rw [hafter] at hsql
            exact ⟨_, hstrict hsql⟩
      · next hpaged =>
        rw [if_neg hpaged]
        exact ⟨_, hstrict hsql⟩
    · next horder =>
      rw [if_neg horder]
      split at hsql
      · cases hsql
      · next hlayout =>
        rw [if_neg hlayout]
        cases hresolved : b.resolveOrderBy spec.orderBy with
        | error e =>
          rw [hresolved] at hsql
          cases hsql
        | ok orderBy =>
          rw [hresolved] at hsql
          exact ⟨_, hstrict hsql⟩

/-- A leaf is a source that lists what its listing brings. -/
theorem LeafKvStore.lists {l : LeafKvStore S K V} (h : l.listing.Brings I s like rows)
    (hvalued : ∀ row ∈ rows, row.value.isSome = true) (hnodup : (rows.map fun row => row.key).Nodup)
    (hcontent : ∀ row ∈ rows, content row.key = row.value) (hsteady : Steady I content l.batchGet) :
    Lists l.scannable s like (l.listing.paged like) rows := by
  have hrun : ∀ {spec : ScanSpec K V} {compiled : CompiledScan S K V}, spec.ListsAs like → spec.RefinesKeys →
      enforceOrderBySupported spec l.orderableColumns l.backend = .ok () → l.listing.compileScan spec = .ok compiled →
      (l.scanRows spec s).1 = .ok (spec.asked.given (spec.goneThrough (l.listing.paged like) rows)) := by
    intro spec compiled hspec hrefine henforced hcompiled
    obtain ⟨hresidual, taken, s', hsub, hrows, hI, hgiven⟩ := compileScan_run h hspec hcompiled
    have hcascade := cascade_brought hrefine (fun row hrow => hvalued row (hsub.subset hrow))
      (hnodup.sublist (hsub.map _)) (fun row hrow => hcontent row (hsub.subset hrow)) hsteady hI
    unfold LeafKvStore.scanRows
    rw [henforced, hcompiled]
    show ((compiled.rows >>= _) s).1 = _
    rw [bind_ok hrows, hresidual, ← hgiven]
    exact hcascade
  have haccepted : ∀ {spec : ScanSpec K V} {out : List (ScanRow K V)}, (l.scanRows spec s).1 = .ok out →
      enforceOrderBySupported spec l.orderableColumns l.backend = .ok () ∧
        ∃ compiled, l.listing.compileScan spec = .ok compiled := by
    intro spec out hout
    unfold LeafKvStore.scanRows at hout
    cases henforced : enforceOrderBySupported spec l.orderableColumns l.backend with
    | error e =>
      rw [henforced] at hout
      cases hout
    | ok u =>
      rw [henforced] at hout
      cases hcompiled : l.listing.compileScan spec with
      | error e =>
        rw [hcompiled] at hout
        cases hout
      | ok compiled => exact ⟨rfl, compiled, rfl⟩
  refine ⟨hvalued, fun hpaged => ?_, fun spec out hspec hrefine hout => ?_, fun spec out project limit hspec hout => ?_⟩
  · cases hl : l.listing with
    | legacy backend scanEntries =>
      rw [hl] at hpaged
      cases hpaged
    | object b =>
      rw [hl] at hpaged
      cases hpaged
    | sql b =>
      rw [hl] at hpaged h
      rw [Listing.paged, Bool.and_eq_true, decide_eq_true_eq] at hpaged
      rw [Listing.Brings, if_pos hpaged.1, if_pos hpaged.2] at h
      exact h.1
  · obtain ⟨henforced, compiled, hcompiled⟩ := haccepted hout
    exact Except.ok.inj (hout.symm.trans (hrun hspec hrefine henforced hcompiled))
  · obtain ⟨henforced, compiled, hcompiled⟩ := haccepted hout
    obtain ⟨part, hpart⟩ := compileScan_keyPart hcompiled project limit
    exact ⟨_, hrun (ScanSpec.listsAs_keyPart hspec project limit) (fun _ hnone => by cases hnone) henforced hpart⟩

end Leaf

/-! ## The view and the source -/

section View

variable {S K V U : Type} [ScanKey K]

/-- The stats are seen, or make no difference: asked for keys alone, with no value to read, the view
    judges a row without its stat. It must judge all rows alike that the source comes to before its
    limit. -/
def StatsSeen (spec : ScanSpec K U) (f : V → U) (rows : List (ScanRow K V)) : Prop :=
  spec.project = .keys → spec.where_.splitKeyPredicates.2.needs.value = false →
    ∀ before row after, rows = before ++ row :: after →
      Short spec.limit (before.filter (spec.through f).asked.passes).length →
        (spec.through f).asked.passes row = (spec.through f).asked.passes ⟨row.key, none, none⟩

/-- The limit makes no difference to the source's pages: all rows up to it pass, or none after it. -/
def LimitSpared (spec : ScanSpec K U) (f : V → U) (rows : List (ScanRow K V)) : Prop :=
  unfiltered spec spec.where_.splitKeyPredicates.2 = false → ∀ limit, spec.limit = some limit → 1 ≤ limit →
    (∀ row ∈ rows.take limit.toNat, (spec.through f).asked.passes row = true) ∨
      ∀ row ∈ rows.drop limit.toNat, (spec.through f).asked.passes row = false

/-- A row as the view gives it. -/
def viewed (f : V → U) (project : Projection) (row : ScanRow K V) : ScanRow K U := projectRow (row.mapValue f) project

omit [ScanKey K] in
theorem viewed_key (f : V → U) (project : Projection) (row : ScanRow K V) : (viewed f project row).key = row.key := by
  cases project <;> rfl

omit [ScanKey K] in
theorem viewed_inj {f : V → U} {project : Projection} {rows : List (ScanRow K V)}
    (h : (rows.map fun row => row.key).Nodup) :
    ∀ x ∈ rows, ∀ y ∈ rows, viewed f project x = viewed f project y → x = y := by
  intro x hx y hy heq
  have hkey := congrArg (fun row => row.key) heq
  simp only [viewed_key] at hkey
  exact List.inj_on_of_nodup_map h hx hy hkey

/-! ### What the view lets through -/

/-- What the view asks the source to bring. -/
def brings (spec : ScanSpec K U) : Projection :=
  if needsValues spec spec.where_.splitKeyPredicates.2 then .entries else spec.project

/-- The prefix apart, what the source filters by. -/
def keyRest (f : V → U) (spec : ScanSpec K U) : Predicate K V :=
  (spec.where_.splitKeyPredicates.1.through f).peelKeyPrefix.2

/-- What the view decides itself. -/
def decided (spec : ScanSpec K U) : CascadeCall K U := spec.call spec.where_.splitKeyPredicates.2

/-- What gets through the source and the view, of the rows the source lists. -/
def letsThrough (f : V → U) (spec : ScanSpec K U) (row : ScanRow K V) : Bool :=
  (keyRest f spec).evaluate row && (decided spec).passes ((projectRow row (brings spec)).mapValue f)

omit [ScanKey K] in
theorem refined_through (f : V → U) (spec : ScanSpec K U) (row : ScanRow K V) :
    (spec.through f).asked.refined row = (decided spec).refined (row.mapValue f) := by
  show (spec.refine.map fun refine (row : ScanRow K V) => refine (row.mapValue f)).all (fun refine => refine row) =
    spec.refine.all fun refine => refine (row.mapValue f)
  cases spec.refine <;> rfl

/-- What is asked of the source's rows, in two. -/
theorem asked_passes (f : V → U) (spec : ScanSpec K U) (row : ScanRow K V) :
    (spec.through f).asked.passes row =
      ((keyRest f spec).evaluate row && (decided spec).passes (row.mapValue f)) := by
  have hrest := (spec.where_.through f).peelKeyPrefix_split.2 row
  rw [Predicate.splitKeyPredicates_through, Predicate.evaluate_through] at hrest
  unfold CascadeCall.passes
  rw [refined_through]
  show ((spec.where_.through f).peelKeyPrefix.2.evaluate row && _) = _
  rw [hrest, Bool.and_assoc]
  rfl

omit [ScanKey K] in
theorem isKeyOnly_peelKeyPrefix {p : Predicate K V} (h : p.isKeyOnly = true) : p.peelKeyPrefix.2.isKeyOnly = true := by
  induction p with
  | and l r ihl ihr =>
    have hboth : (l.isKeyOnly && r.isKeyOnly) = true := h
    rw [Bool.and_eq_true] at hboth
    have hand : ∀ p q : Predicate K V, p.isKeyOnly = true → q.isKeyOnly = true → (Predicate.and p q).isKeyOnly = true := by
      intro p q hp hq
      show (p.isKeyOnly && q.isKeyOnly) = true
      rw [hp, hq]
      rfl
    have hl := ihl hboth.1
    have hr := ihr hboth.2
    rw [Predicate.peelKeyPrefix]
    rcases hpl : l.peelKeyPrefix with ⟨_ | pre, rest⟩
    · rcases hpr : r.peelKeyPrefix with ⟨_ | pre, rest'⟩
      · exact h
      · rw [hpr] at hr
        dsimp only
        split
        · exact hboth.1
        · exact hand l rest' hboth.1 hr
    · rw [hpl] at hl
      dsimp only
      split
      · exact hboth.2
      · exact hand rest r hl hboth.2
  | _ => exact h

theorem keyRest_key (f : V → U) (spec : ScanSpec K U) {row row' : ScanRow K V} (h : row.key = row'.key) :
    (keyRest f spec).evaluate row = (keyRest f spec).evaluate row' := by
  refine Predicate.evaluate_of_keyOnly (isKeyOnly_peelKeyPrefix ?_) h
  rw [Predicate.isKeyOnly_through]
  exact Predicate.isKeyOnly_splitKeyPredicates spec.where_

/-- Where no value is looked at, the key and the stat decide. -/
theorem passes_congr {spec : ScanSpec K U} (hrefine : spec.RefinesKeys)
    (hvalue : spec.where_.splitKeyPredicates.2.needs.value = false) {row row' : ScanRow K U}
    (hkey : row.key = row'.key) (hstat : row.stat = row'.stat) :
    (decided spec).passes row = (decided spec).passes row' := by
  have hrefined : (decided spec).refined row = (decided spec).refined row' := by
    show spec.refine.all (fun refine => refine row) = spec.refine.all fun refine => refine row'
    cases hr : spec.refine with
    | none => rfl
    | some refine => exact hrefine refine hr row row' hkey
  unfold CascadeCall.passes
  rw [hrefined]
  show (spec.where_.splitKeyPredicates.2.evaluate row && _) = (spec.where_.splitKeyPredicates.2.evaluate row' && _)
  rw [Predicate.evaluate_of_needs hvalue hkey (.inr hstat)]

/-- Brought with its value, or with its stat and no value to look at, a row is judged as it is. -/
theorem letsThrough_eq {spec : ScanSpec K U} (hrefine : spec.RefinesKeys) (f : V → U) {row : ScanRow K V}
    (h : spec.project = .keys → spec.where_.splitKeyPredicates.2.needs.value = false → row.stat = none) :
    letsThrough f spec row = (spec.through f).asked.passes row := by
  rw [asked_passes]
  unfold letsThrough brings needsValues
  cases hvalue : spec.where_.splitKeyPredicates.2.needs.value with
  | true =>
    rw [Bool.or_true, if_pos rfl]
    rfl
  | false =>
    rw [Bool.or_false]
    cases hproject : spec.project with
    | entries => rfl
    | stats =>
      refine congrArg _ (passes_congr hrefine hvalue ?_ ?_) <;> rfl
    | keys =>
      refine congrArg _ (passes_congr hrefine hvalue rfl ?_)
      exact (h hproject hvalue).symm

/-- Brought by its key alone, it is judged without its stat. -/
theorem letsThrough_keys {spec : ScanSpec K U} (f : V → U) (hproject : spec.project = .keys)
    (hvalue : spec.where_.splitKeyPredicates.2.needs.value = false) (row : ScanRow K V) :
    letsThrough f spec row = (spec.through f).asked.passes ⟨row.key, none, none⟩ := by
  rw [asked_passes]
  unfold letsThrough brings needsValues
  have hkey : (keyRest f spec).evaluate row = (keyRest f spec).evaluate ⟨row.key, none, none⟩ :=
    keyRest_key f spec rfl
  rw [hvalue, hproject, hkey]
  rfl

/-! ### Both scans -/

/-- What the source gives, as the view's caller should have it. -/
theorem source_run {src : Scannable S K V} {s : S} {spec : ScanSpec K U} (hrefine : spec.RefinesKeys) {f : V → U}
    {paged : Bool} {rows : List (ScanRow K V)} (h : Lists src s (spec.through f) paged rows) {out : List (ScanRow K V)}
    (hout : (src.scanRows (spec.through f) s).1 = .ok out) :
    out.map (fun row => row.mapValue f) =
      (cutAt spec.limit (((spec.through f).goneThrough paged rows).filter (spec.through f).asked.passes)).map
        (viewed f spec.project) := by
  have hself : (spec.through f).ListsAs (spec.through f) := ⟨rfl, rfl, rfl, rfl, rfl, rfl⟩
  rw [h.gives _ _ hself (spec.refinesKeys_through hrefine f) hout]
  show (cutAt spec.limit (List.map _ _)).map _ = _
  rw [cutAt_map, List.map_map]
  refine List.map_congr_left fun row _ => ?_
  unfold viewed
  show (projectRow row spec.project).mapValue f = _
  cases spec.project <;> rfl

variable [DecidableEq K]

omit [ScanKey K] [DecidableEq K] in
theorem viewed_brought (f : V → U) (spec : ScanSpec K U) (row : ScanRow K V) :
    projectRow ((projectRow row (brings spec)).mapValue f) spec.project = viewed f spec.project row := by
  unfold brings viewed
  split
  · rfl
  · cases spec.project <;> rfl

omit [ScanKey K] [DecidableEq K] in
/-- No row that comes to the view waits for a value. -/
theorem brought_ready {spec : ScanSpec K U} {f : V → U} {rows : List (ScanRow K V)}
    (hvalued : ∀ row ∈ rows, row.value.isSome = true) {row : ScanRow K V} (hrow : row ∈ rows) :
    (decided spec).waits ((projectRow row (brings spec)).mapValue f) = false := by
  unfold CascadeCall.waits
  rw [isEmpty_valueP, Bool.not_not]
  show (spec.where_.splitKeyPredicates.2.needs.value && _) = false
  cases hvalue : spec.where_.splitKeyPredicates.2.needs.value with
  | false => rfl
  | true =>
    have hentries : brings spec = .entries := by
      unfold brings needsValues
      rw [hvalue, Bool.or_true, if_pos rfl]
    obtain ⟨value, hsome⟩ := Option.isSome_iff_exists.mp (hvalued row hrow)
    rw [hentries]
    show (row.value.map f).isNone = false
    rw [hsome]
    rfl

/-- What the view gives. -/
theorem view_run {src : Scannable S K V} {s : S} {spec : ScanSpec K U} {f : V → U} {paged : Bool}
    {rows : List (ScanRow K V)} (h : Lists src s (spec.through f) paged rows) {out : List (ScanRow K V)}
    (hout : (src.scanRows (spec.through f) s).1 = .ok out) :
    ((src.mapped f).scanRows spec s).1 = .ok
      (if unfiltered spec spec.where_.splitKeyPredicates.2 then
        (cutAt spec.limit (((spec.through f).goneThrough paged rows).filter (spec.through f).asked.passes)).map
          (viewed f spec.project)
      else (cutAt spec.limit (rows.filter (letsThrough f spec))).map (viewed f spec.project)) := by
  have hself : (spec.through f).ListsAs (spec.through f) := ⟨rfl, rfl, rfl, rfl, rfl, rfl⟩
  obtain ⟨part, hpart⟩ := h.accepts _ _ (brings spec)
    (if unfiltered spec spec.where_.splitKeyPredicates.2 then spec.limit else none) hself hout
  have hbrought := h.gives _ _ (ScanSpec.listsAs_keyPart hself _ _) (fun _ hnone => by cases hnone) hpart
  generalize hdown : (spec.through f).keyPart (brings spec)
    (if unfiltered spec spec.where_.splitKeyPredicates.2 then spec.limit else none) = down at hpart hbrought
  have hasked : ∀ row, down.asked.passes row = (keyRest f spec).evaluate row := by
    intro row
    have hwhere : down.where_ = spec.where_.splitKeyPredicates.1.through f := by
      rw [← hdown]
      show (spec.where_.through f).splitKeyPredicates.1 = _
      rw [Predicate.splitKeyPredicates_through]
    have hrefine : down.refine = none := by
      rw [← hdown]
      rfl
    unfold CascadeCall.passes
    show (down.where_.peelKeyPrefix.2.evaluate row && down.refine.all fun refine => refine row) = _
    rw [hwhere, hrefine]
    exact Bool.and_true _
  have hpartEq : part.map (fun row => row.mapValue f) =
      (cutAt down.limit ((down.goneThrough paged rows).filter down.asked.passes)).map fun row =>
        (projectRow row (brings spec)).mapValue f := by
    have hproject : down.project = brings spec := by
      rw [← hdown]
      rfl
    rw [hbrought]
    show (cutAt down.limit (List.map _ _)).map _ = _
    rw [cutAt_map, List.map_map, ← hproject]
    rfl
  have hgone : down.goneThrough paged rows ⊆ rows := by
    unfold ScanSpec.goneThrough SqlListing.drawn
    split
    · split
      · exact fun _ hr => hr
      · exact List.take_subset _ _
    · exact fun _ hr => hr
  have hready : ∀ row ∈ part.map (fun row => row.mapValue f), (decided spec).waits row = false := by
    intro row hrow
    rw [hpartEq] at hrow
    obtain ⟨listed, hlisted, rfl⟩ := List.mem_map.mp hrow
    exact brought_ready h.valued (hgone (List.mem_of_mem_filter (cutAt_subset _ _ hlisted)))
  show (scanValuesThrough _ src spec f s).1 = _
  unfold scanValuesThrough
  rw [ScanSpec.downValues_eq]
  show ((src.scanRows ((spec.through f).keyPart (brings spec) _) >>= _) s).1 = _
  rw [hdown, bind_ok (Prod.ext hpart rfl)]
  refine (applyCascade_ready _ hready _).trans (congrArg Except.ok ?_)
  show cutAt spec.limit (List.map _ (List.filter (decided spec).passes _)) = _
  rw [hpartEq, List.filter_map, List.map_map, cutAt_map]
  have hview : ∀ listed : List (ScanRow K V), listed.map ((fun row => projectRow row (decided spec).project) ∘
      fun row => (projectRow row (brings spec)).mapValue f) = listed.map (viewed f spec.project) :=
    fun listed => List.map_congr_left fun row _ => viewed_brought f spec row
  rw [hview]
  cases hunfiltered : unfiltered spec spec.where_.splitKeyPredicates.2 with
  | true =>
    have hlimit : down.limit = spec.limit := by
      rw [← hdown]
      show (if unfiltered spec spec.where_.splitKeyPredicates.2 then spec.limit else none) = _
      rw [hunfiltered, if_pos rfl]
    have hgoes : down.goneThrough paged rows = (spec.through f).goneThrough paged rows := by
      unfold ScanSpec.goneThrough
      rw [hlimit]
      rfl
    have hboth := hunfiltered
    unfold unfiltered at hboth
    rw [Bool.and_eq_true, Option.isNone_iff_eq_none] at hboth
    have hpasses : ∀ row, (decided spec).passes row = true := by
      intro row
      show (spec.where_.splitKeyPredicates.2.evaluate row && spec.refine.all fun refine => refine row) = true
      rw [Predicate.eq_alwaysTrue hboth.1, hboth.2]
      rfl
    have hsame : ∀ row, down.asked.passes row = (spec.through f).asked.passes row := by
      intro row
      rw [hasked, asked_passes, hpasses, Bool.and_true]
    have hall : ∀ listed : List (ScanRow K V), listed.filter ((decided spec).passes ∘ fun row =>
        (projectRow row (brings spec)).mapValue f) = listed :=
      fun listed => List.filter_eq_self.mpr fun row _ => hpasses _
    rw [if_pos rfl, hall, hlimit, cutAt_cutAt, hgoes, funext hsame]
  | false =>
    have hlimit : down.limit = none := by
      rw [← hdown]
      show (if unfiltered spec spec.where_.splitKeyPredicates.2 then spec.limit else none) = _
      rw [hunfiltered, if_neg Bool.false_ne_true]
    have hgoes : down.goneThrough paged rows = rows := by
      unfold ScanSpec.goneThrough
      rw [hlimit]
      split <;> rfl
    rw [if_neg Bool.false_ne_true, hlimit, hgoes]
    show (cutAt spec.limit (List.filter _ (rows.filter _))).map _ = _
    rw [List.filter_filter]
    refine congrArg (fun listed => (cutAt spec.limit listed).map _) (List.filter_congr fun row _ => ?_)
    rw [hasked, Bool.and_comm]
    rfl

/-! ### When they are the same -/

omit [DecidableEq K] in
/-- Where nothing is left to filter by, both conditions hold. -/
theorem statsSeen_of_unfiltered {spec : ScanSpec K U}
    (h : unfiltered spec spec.where_.splitKeyPredicates.2 = true) (f : V → U) (rows : List (ScanRow K V)) :
    StatsSeen spec f rows := by
  unfold unfiltered at h
  rw [Bool.and_eq_true, Option.isNone_iff_eq_none] at h
  have hpasses : ∀ row, (decided spec).passes row = true := by
    intro row
    show (spec.where_.splitKeyPredicates.2.evaluate row && spec.refine.all fun refine => refine row) = true
    rw [Predicate.eq_alwaysTrue h.1, h.2]
    rfl
  intro _ _ before row after _ _
  have hkey : (keyRest f spec).evaluate row = (keyRest f spec).evaluate ⟨row.key, none, none⟩ := keyRest_key f spec rfl
  rw [asked_passes, asked_passes, hpasses, hpasses, hkey]

omit [DecidableEq K] in
/-- Rows without stats are judged as they are. -/
theorem statsSeen_of_unstated {spec : ScanSpec K U} (hrefine : spec.RefinesKeys) (f : V → U)
    {rows : List (ScanRow K V)} (h : ∀ row ∈ rows, row.stat = none) : StatsSeen spec f rows := by
  intro hproject hvalue before row after hsplit _
  have hrow : row ∈ rows := by
    rw [hsplit]
    exact List.mem_append_right _ List.mem_cons_self
  rw [← letsThrough_keys f hproject hvalue, letsThrough_eq hrefine f fun _ _ => h row hrow]

omit [DecidableEq K] in
/-- The rows of pages, cut before they are filtered or after. -/
theorem cutAt_drawn_iff {spec : ScanSpec K U} (hfiltered : unfiltered spec spec.where_.splitKeyPredicates.2 = false)
    (f : V → U) (rows : List (ScanRow K V)) :
    cutAt spec.limit (rows.filter (spec.through f).asked.passes) =
        cutAt spec.limit ((SqlListing.drawn spec.limit rows).filter (spec.through f).asked.passes) ↔
      LimitSpared spec f rows := by
  unfold LimitSpared
  rw [imp_iff_right hfiltered]
  cases spec.limit with
  | none => exact iff_of_true rfl fun limit h => by cases h
  | some limit =>
    by_cases hpositive : 1 ≤ limit
    · have hdrawn : SqlListing.drawn (some limit) rows = rows.take limit.toNat := by
        show rows.take (max limit.toNat 1) = _
        rw [Nat.max_eq_left (by omega)]
      have hidem : ((rows.take limit.toNat).filter (spec.through f).asked.passes).take limit.toNat =
          (rows.take limit.toNat).filter (spec.through f).asked.passes :=
        List.take_of_length_le (Nat.le_trans (List.length_filter_le _ _) (List.length_take_le _ _))
      rw [hdrawn]
      show (rows.filter _).take _ = ((rows.take _).filter _).take _ ↔ _
      rw [hidem, Paging.filter_take_iff]
      constructor
      · intro h limit' hlimit' _
        rw [← Option.some.inj hlimit']
        exact h
      · exact fun h => h limit rfl hpositive
    · have hzero : limit.toNat = 0 := by omega
      refine iff_of_true ?_ fun limit' hlimit' hpos => ?_
      · show (rows.filter _).take limit.toNat = List.take limit.toNat _
        rw [hzero, List.take_zero, List.take_zero]
      · rw [← Option.some.inj hlimit'] at hpos
        exact absurd hpos hpositive

omit [DecidableEq K] in
/-- The rows let through are those the source gives, where the conditions say so. -/
theorem selected_iff {src : Scannable S K V} {s : S} {spec : ScanSpec K U} (hrefine : spec.RefinesKeys) {f : V → U}
    {paged : Bool} {rows : List (ScanRow K V)} (h : Lists src s (spec.through f) paged rows)
    (hfiltered : unfiltered spec spec.where_.splitKeyPredicates.2 = false) :
    (StatsSeen spec f rows ∧ (paged = true → LimitSpared spec f rows) →
      cutAt spec.limit (rows.filter (letsThrough f spec)) =
        cutAt spec.limit (((spec.through f).goneThrough paged rows).filter (spec.through f).asked.passes)) ∧
    (rows.Nodup → cutAt spec.limit (rows.filter (letsThrough f spec)) =
        cutAt spec.limit (((spec.through f).goneThrough paged rows).filter (spec.through f).asked.passes) →
      StatsSeen spec f rows ∧ (paged = true → LimitSpared spec f rows)) := by
  cases paged with
  | true =>
    have hunstated := h.unstated rfl
    have hsame : rows.filter (letsThrough f spec) = rows.filter (spec.through f).asked.passes :=
      List.filter_congr fun row hrow => letsThrough_eq hrefine f fun _ _ => hunstated row hrow
    have hdrawn := cutAt_drawn_iff hfiltered f rows
    have hgone : (spec.through f).goneThrough true rows = SqlListing.drawn spec.limit rows := rfl
    rw [hsame, hgone]
    exact ⟨fun hboth => hdrawn.mpr (hboth.2 rfl), fun _ heq =>
      ⟨statsSeen_of_unstated hrefine f hunstated, fun _ => hdrawn.mp heq⟩⟩
  | false =>
    have hgone : (spec.through f).goneThrough false rows = rows := rfl
    rw [hgone]
    by_cases hbare : spec.project = .keys ∧ spec.where_.splitKeyPredicates.2.needs.value = false
    · have hkeys : rows.filter (letsThrough f spec) =
          rows.filter fun row => (spec.through f).asked.passes ⟨row.key, none, none⟩ :=
        List.filter_congr fun row _ => letsThrough_keys f hbare.1 hbare.2 row
      rw [hkeys]
      refine ⟨fun hboth => ?_, fun hnodup heq => ⟨fun _ _ => ?_, fun hpaged => by cases hpaged⟩⟩
      · exact (cutAt_filter_congr (hboth.1 hbare.1 hbare.2)).symm
      · exact (cutAt_filter_congr_iff hnodup).mp heq.symm
    · have hsame : rows.filter (letsThrough f spec) = rows.filter (spec.through f).asked.passes :=
        List.filter_congr fun row _ => letsThrough_eq hrefine f fun hproject hvalue => absurd ⟨hproject, hvalue⟩ hbare
      rw [hsame]
      exact ⟨fun _ => rfl, fun _ _ => ⟨fun hproject hvalue => absurd ⟨hproject, hvalue⟩ hbare, fun hpaged => by
        cases hpaged⟩⟩

end View

/-! ### A store of texts, and one of objects -/

namespace MemoryKvBackend

/-- Two texts. -/
def bothTexts : MemoryRoot Char String := ((plain String).set ['b'] "second" ⟨none, none⟩ oneText).2

/-- The length of the first text. -/
def firstLength : ScanSpec (List Char) Nat :=
  { ScanSpec.ofPrefix none .entries .unordered none 100 with limit := some 1 }

end MemoryKvBackend

namespace ObjectStoreKvBackend

/-- Objects named by their keys. -/
def namedObjects : ObjectStoreKvBackend (List Char) String :=
  { textObjects with decodeIfPrefix := fun objectKey _ => some objectKey.toList }

/-- One object, written at 5. -/
def writtenObject : Medium String Blob :=
  ⟨Dict.single "k" ⟨[], "k", some 5, none, some 0, none, none⟩, 7⟩

/-- The keys of what was written after 3. -/
def writtenLater : ScanSpec (List Char) Nat :=
  { ScanSpec.ofPrefix none .keys .unordered none 100 with
    where_ := .stat "ModifiedAfter" fun _ stat => stat.any fun stat => stat.modifiedAt.any (3 < ·)
    one_order := fun h => absurd rfl h }

theorem listed_writtenObject (m : Medium String Blob) (h : m = writtenObject) :
    ∃ m', (namedObjects.iterListedRows "" none false 2).run m =
      (.ok [⟨['k'], none, some ⟨some 0, some 5, none, none⟩⟩], m') := by
  have hpages : m.entries.entries.length < 2 := by
    rw [h]
    decide
  obtain ⟨m', hrun⟩ := namedObjects.iterListedRows_run (by decide) "" none hpages
  refine ⟨m', hrun.trans ?_⟩
  have hone : listed "" none m.entries = [("k", ⟨[], "k", some 5, none, some 0, none, none⟩)] := by
    rw [h]
    unfold listed
    have hall : (writtenObject.entries.entries.filter fun e =>
        e.1.startsWith "" && (none : Option String).all (· < e.1)) = writtenObject.entries.entries :=
      List.filter_eq_self.mpr fun e _ => by
        rw [Option.all_none, Bool.and_true, String.startsWith_string_iff]
        exact List.nil_prefix
    rw [hall]
    exact List.mergeSort_singleton _
  rw [hone, h]
  rfl

end ObjectStoreKvBackend

end Kvtsjl
