import Kvtsjl.KeyMap

/-
  What a scan asks for, and how a predicate is taken apart.
  A part of a predicate may be decided where the keys are listed, and the rest where the rows
  arrive. `split_key_predicates`, `peel_key_prefix` and `partition_by_needs` take a predicate
  apart. `pushdown_preserves` says that its parts together mean what it meant.
-/

namespace Kvtsjl

/-! ## Rows -/

structure ScanStat where
  size : Option Nat
  modifiedAt : Option Instant
  expiresAt : Option Instant
  etag : Option String
deriving DecidableEq

structure ScanRow (K V : Type) where
  key : K
  value : Option V
  stat : Option ScanStat
deriving DecidableEq

/-- What a row has besides its key. -/
inductive Projection where
  | keys
  | stats
  | entries
deriving DecidableEq

inductive ScanOrder where
  | unordered
  | keyAsc
  | keyDesc
deriving DecidableEq

inductive Pushdown where
  | clientSide
  | strict
deriving DecidableEq

/-- Keys as texts: `str(key)`, and whether a key starts with another. -/
class ScanKey (K : Type) where
  text : K → String
  startsWith : K → K → Bool

instance : ScanKey (List Char) where
  text key := String.ofList key
  startsWith key pre := pre.isPrefixOf key

/-! ## Predicates -/

/-- What a predicate needs from a row to evaluate. -/
structure Needs where
  key : Bool
  stat : Bool
  value : Bool
deriving DecidableEq

namespace Needs

def nothing : Needs := ⟨false, false, false⟩

def union (m n : Needs) : Needs := ⟨m.key || n.key, m.stat || n.stat, m.value || n.value⟩

end Needs

/-- A filter. A key predicate looks at the key, a stat predicate at no value; each has the
    name of its class. -/
inductive Predicate (K V : Type) where
  | alwaysTrue
  | and (left right : Predicate K V)
  | or (left right : Predicate K V)
  | not (inner : Predicate K V)
  | keyPrefix (pre : K)
  | key (name : String) (test : K → Bool)
  | stat (name : String) (test : K → Option ScanStat → Bool)
  | value (name : String) (test : ScanRow K V → Bool)

namespace Predicate

variable {K V : Type}

def needs : Predicate K V → Needs
  | alwaysTrue => .nothing
  | and l r => l.needs.union r.needs
  | or l r => l.needs.union r.needs
  | not p => p.needs
  | keyPrefix _ => ⟨true, false, false⟩
  | key _ _ => ⟨true, false, false⟩
  | stat _ _ => ⟨false, true, false⟩
  | value _ _ => ⟨false, false, true⟩

/-- `isinstance(p, AlwaysTrue)` -/
def isAlwaysTrue : Predicate K V → Bool
  | alwaysTrue => true
  | _ => false

theorem eq_alwaysTrue {p : Predicate K V} (h : p.isAlwaysTrue = true) : p = alwaysTrue := by
  cases p <;> first | rfl | cases h

/-- `And(left, right)`, without the sides that are always true. -/
def andUnlessTrue (left right : Predicate K V) : Predicate K V :=
  if !left.isAlwaysTrue && !right.isAlwaysTrue then and left right
  else if !left.isAlwaysTrue then left
  else if !right.isAlwaysTrue then right
  else alwaysTrue

/-- `peel_key_prefix`: one prefix for the listing, and the rest of the predicate. -/
def peelKeyPrefix : Predicate K V → Option K × Predicate K V
  | keyPrefix pre => (some pre, alwaysTrue)
  | and left right =>
    match peelKeyPrefix left with
    | (some pre, rest) => (some pre, if rest.isAlwaysTrue then right else and rest right)
    | (none, _) =>
      match peelKeyPrefix right with
      | (some pre, rest) => (some pre, if rest.isAlwaysTrue then left else and left rest)
      | (none, _) => (none, and left right)
  | p => (none, p)

/-- `extract_key_prefix` -/
def extractKeyPrefix : Predicate K V → Option K
  | keyPrefix pre => some pre
  | and left right =>
    match extractKeyPrefix left with
    | some pre => some pre
    | none => extractKeyPrefix right
  | _ => none

/-- `is_key_only_predicate` -/
def isKeyOnly : Predicate K V → Bool
  | alwaysTrue => true
  | keyPrefix _ => true
  | key _ _ => true
  | and l r => l.isKeyOnly && r.isKeyOnly
  | or l r => l.isKeyOnly && r.isKeyOnly
  | not p => p.isKeyOnly
  | stat _ _ => false
  | value _ _ => false

/-- `split_key_predicates`: what a part may decide by the key, and the rest. -/
def splitKeyPredicates : Predicate K V → Predicate K V × Predicate K V
  | alwaysTrue => (alwaysTrue, alwaysTrue)
  | keyPrefix pre => (keyPrefix pre, alwaysTrue)
  | key name test => (key name test, alwaysTrue)
  | stat name test => (alwaysTrue, stat name test)
  | value name test => (alwaysTrue, value name test)
  | not p =>
    let (keyWhere, rest) := splitKeyPredicates p
    if rest.isAlwaysTrue && !keyWhere.isAlwaysTrue then (not keyWhere, alwaysTrue)
    else if keyWhere.isAlwaysTrue && !rest.isAlwaysTrue then (alwaysTrue, not rest)
    -- a part of a mixed predicate cannot be inverted on its own
    else (alwaysTrue, not p)
  | and l r =>
    let (leftKey, leftRest) := splitKeyPredicates l
    let (rightKey, rightRest) := splitKeyPredicates r
    (andUnlessTrue leftKey rightKey, andUnlessTrue leftRest rightRest)
  | or l r => if isKeyOnly (or l r) then (or l r, alwaysTrue) else (alwaysTrue, or l r)

/-- `flatten_and` -/
def flattenAnd : Predicate K V → List (Predicate K V)
  | and l r => l.flattenAnd ++ r.flattenAnd
  | alwaysTrue => []
  | p => [p]

/-- `partition_by_needs`: the conjuncts that need the key alone, a stat, and a value. -/
def partitionByNeeds (p : Predicate K V) :
    List (Predicate K V) × List (Predicate K V) × List (Predicate K V) :=
  (p.flattenAnd.filter fun part => !part.needs.value && !part.needs.stat,
    p.flattenAnd.filter fun part => !part.needs.value && part.needs.stat,
    p.flattenAnd.filter fun part => part.needs.value)

/-- `predicate_label` -/
def label : Predicate K V → String
  | alwaysTrue => "AlwaysTrue"
  | and l r => "And(" ++ l.label ++ ", " ++ r.label ++ ")"
  | or l r => "Or(" ++ l.label ++ ", " ++ r.label ++ ")"
  | not p => "Not(" ++ p.label ++ ")"
  | keyPrefix _ => "KeyPrefix"
  | key name _ => name
  | stat name _ => name
  | value name _ => name

section Evaluate

variable [ScanKey K]

def evaluate : Predicate K V → ScanRow K V → Bool
  | alwaysTrue, _ => true
  | and l r, row => l.evaluate row && r.evaluate row
  | or l r, row => l.evaluate row || r.evaluate row
  | not p, row => !p.evaluate row
  | keyPrefix pre, row => ScanKey.startsWith row.key pre
  | key _ test, row => test row.key
  | stat _ test, row => test row.key row.stat
  | value _ test, row => test row

/-- `_all_pass` -/
def allPass (preds : List (Predicate K V)) (row : ScanRow K V) : Bool :=
  preds.all fun p => p.evaluate row

/-! ### What the parts mean -/

theorem evaluate_andUnlessTrue (l r : Predicate K V) (row : ScanRow K V) :
    (andUnlessTrue l r).evaluate row = (l.evaluate row && r.evaluate row) := by
  unfold andUnlessTrue
  cases hl : l.isAlwaysTrue with
  | true =>
    rw [eq_alwaysTrue hl]
    cases hr : r.isAlwaysTrue with
    | true => rw [eq_alwaysTrue hr]; rfl
    | false => exact (Bool.true_and _).symm
  | false =>
    cases hr : r.isAlwaysTrue with
    | true => rw [eq_alwaysTrue hr]; exact (Bool.and_true _).symm
    | false => rfl

/-- The peeled prefix and the rest are the predicate. -/
theorem evaluate_peelKeyPrefix (p : Predicate K V) (row : ScanRow K V) :
    p.evaluate row = (p.peelKeyPrefix.1.all (fun pre => ScanKey.startsWith row.key pre) &&
      p.peelKeyPrefix.2.evaluate row) := by
  induction p with
  | and l r ihl ihr =>
    have hand : (and l r).evaluate row = (l.evaluate row && r.evaluate row) := rfl
    rw [hand, peelKeyPrefix]
    rcases hl : l.peelKeyPrefix with ⟨_ | pre, rest⟩
    · rcases hr : r.peelKeyPrefix with ⟨_ | pre, rest'⟩
      · rfl
      · rw [hr] at ihr
        dsimp only at ihr ⊢
        rw [ihr]
        split
        · next htrue =>
          rw [eq_alwaysTrue htrue]
          show (l.evaluate row && (_ && true)) = _
          rw [Bool.and_true, Bool.and_comm]
        · exact Bool.and_left_comm _ _ _
    · rw [hl] at ihl
      dsimp only at ihl ⊢
      rw [ihl]
      split
      · next htrue =>
        rw [eq_alwaysTrue htrue]
        show ((_ && true) && r.evaluate row) = _
        rw [Bool.and_true]
      · exact Bool.and_assoc _ _ _
  | keyPrefix pre => exact (Bool.and_true _).symm
  | _ => exact (Bool.true_and _).symm

/-- A key-only predicate is decided by the key. -/
theorem evaluate_of_keyOnly {p : Predicate K V} (h : p.isKeyOnly = true) {row row' : ScanRow K V}
    (hkey : row.key = row'.key) : p.evaluate row = p.evaluate row' := by
  induction p with
  | alwaysTrue => rfl
  | and l r ihl ihr =>
    have hboth : (l.isKeyOnly && r.isKeyOnly) = true := h
    rw [Bool.and_eq_true] at hboth
    show (l.evaluate row && r.evaluate row) = (l.evaluate row' && r.evaluate row')
    rw [ihl hboth.1, ihr hboth.2]
  | or l r ihl ihr =>
    have hboth : (l.isKeyOnly && r.isKeyOnly) = true := h
    rw [Bool.and_eq_true] at hboth
    show (l.evaluate row || r.evaluate row) = (l.evaluate row' || r.evaluate row')
    rw [ihl hboth.1, ihr hboth.2]
  | not p ih =>
    show (!p.evaluate row) = (!p.evaluate row')
    rw [ih h]
  | keyPrefix pre =>
    show ScanKey.startsWith row.key pre = ScanKey.startsWith row'.key pre
    rw [hkey]
  | key name test =>
    show test row.key = test row'.key
    rw [hkey]
  | stat name test => cases h
  | value name test => cases h

/-- The key half and the rest are the predicate. -/
theorem evaluate_splitKeyPredicates (p : Predicate K V) (row : ScanRow K V) :
    p.evaluate row = (p.splitKeyPredicates.1.evaluate row && p.splitKeyPredicates.2.evaluate row) := by
  induction p with
  | alwaysTrue => rfl
  | and l r ihl ihr =>
    show (l.evaluate row && r.evaluate row) =
      ((andUnlessTrue l.splitKeyPredicates.1 r.splitKeyPredicates.1).evaluate row &&
        (andUnlessTrue l.splitKeyPredicates.2 r.splitKeyPredicates.2).evaluate row)
    rw [ihl, ihr, evaluate_andUnlessTrue, evaluate_andUnlessTrue, Bool.and_assoc, Bool.and_assoc]
    exact congrArg _ (Bool.and_left_comm _ _ _)
  | or l r =>
    unfold splitKeyPredicates
    split
    · exact (Bool.and_true _).symm
    · exact (Bool.true_and _).symm
  | not p ih =>
    have hnot : (not p).evaluate row = !p.evaluate row := rfl
    unfold splitKeyPredicates
    dsimp only
    split
    · next h =>
      rw [Bool.and_eq_true] at h
      rw [hnot, ih, eq_alwaysTrue h.1]
      show (!(_ && true)) = (_ && true)
      rw [Bool.and_true, Bool.and_true]
      rfl
    · split
      · next h =>
        rw [Bool.and_eq_true] at h
        rw [hnot, ih, eq_alwaysTrue h.1]
        rfl
      · exact (Bool.true_and _).symm
  | keyPrefix pre => exact (Bool.and_true _).symm
  | key name test => exact (Bool.and_true _).symm
  | stat name test => exact (Bool.true_and _).symm
  | value name test => exact (Bool.true_and _).symm

omit [ScanKey K] in
theorem isKeyOnly_andUnlessTrue {l r : Predicate K V} (hl : l.isKeyOnly = true)
    (hr : r.isKeyOnly = true) : (andUnlessTrue l r).isKeyOnly = true := by
  unfold andUnlessTrue
  split
  · show (l.isKeyOnly && r.isKeyOnly) = true
    rw [hl, hr]
    rfl
  · split
    · exact hl
    · split
      · exact hr
      · rfl

omit [ScanKey K] in
theorem isKeyOnly_splitKeyPredicates (p : Predicate K V) :
    p.splitKeyPredicates.1.isKeyOnly = true := by
  induction p with
  | and l r ihl ihr => exact isKeyOnly_andUnlessTrue ihl ihr
  | or l r =>
    unfold splitKeyPredicates
    split
    · assumption
    · rfl
  | not p ih =>
    unfold splitKeyPredicates
    dsimp only
    split
    · exact ih
    · split <;> rfl
  | _ => rfl

/-! ### What the conjuncts mean -/

theorem evaluate_flattenAnd (p : Predicate K V) (row : ScanRow K V) :
    p.evaluate row = allPass p.flattenAnd row := by
  unfold allPass
  induction p with
  | and l r ihl ihr =>
    show (l.evaluate row && r.evaluate row) = (l.flattenAnd ++ r.flattenAnd).all _
    rw [List.all_append, ihl, ihr]
  | alwaysTrue => rfl
  | _ => exact (Bool.and_true _).symm

/-- The conjuncts of the three kinds are the predicate. -/
theorem evaluate_partitionByNeeds (p : Predicate K V) (row : ScanRow K V) :
    p.evaluate row = (allPass p.partitionByNeeds.1 row && allPass p.partitionByNeeds.2.1 row &&
      allPass p.partitionByNeeds.2.2 row) := by
  rw [evaluate_flattenAnd]
  unfold partitionByNeeds allPass
  dsimp only
  induction p.flattenAnd with
  | nil => rfl
  | cons part parts ih =>
    rw [List.all_cons, ih]
    cases hvalue : part.needs.value <;> cases hstat : part.needs.stat <;>
      simp [hvalue, hstat, Bool.and_comm, Bool.and_assoc, Bool.and_left_comm]

omit [ScanKey K] in
theorem needs_keyPart {p q : Predicate K V} (h : q ∈ p.partitionByNeeds.1) :
    q.needs.value = false ∧ q.needs.stat = false := by
  have hq := (List.mem_filter.mp h).2
  rw [Bool.and_eq_true, Bool.not_eq_true', Bool.not_eq_true'] at hq
  exact hq

omit [ScanKey K] in
theorem needs_statPart {p q : Predicate K V} (h : q ∈ p.partitionByNeeds.2.1) :
    q.needs.value = false := by
  have hq := (List.mem_filter.mp h).2
  rw [Bool.and_eq_true, Bool.not_eq_true'] at hq
  exact hq.1

/-- What a predicate does not need makes no difference to it. -/
theorem evaluate_of_needs {p : Predicate K V} (hvalue : p.needs.value = false) {row row' : ScanRow K V}
    (hkey : row.key = row'.key) (hstat : p.needs.stat = false ∨ row.stat = row'.stat) :
    p.evaluate row = p.evaluate row' := by
  induction p with
  | alwaysTrue => rfl
  | and l r ihl ihr =>
    have hneeds : (l.needs.value || r.needs.value) = false := hvalue
    rw [Bool.or_eq_false_iff] at hneeds
    have hstats : (l.needs.stat || r.needs.stat) = false ∨ row.stat = row'.stat := hstat
    rw [Bool.or_eq_false_iff] at hstats
    show (l.evaluate row && r.evaluate row) = (l.evaluate row' && r.evaluate row')
    rw [ihl hneeds.1 (hstats.imp_left And.left), ihr hneeds.2 (hstats.imp_left And.right)]
  | or l r ihl ihr =>
    have hneeds : (l.needs.value || r.needs.value) = false := hvalue
    rw [Bool.or_eq_false_iff] at hneeds
    have hstats : (l.needs.stat || r.needs.stat) = false ∨ row.stat = row'.stat := hstat
    rw [Bool.or_eq_false_iff] at hstats
    show (l.evaluate row || r.evaluate row) = (l.evaluate row' || r.evaluate row')
    rw [ihl hneeds.1 (hstats.imp_left And.left), ihr hneeds.2 (hstats.imp_left And.right)]
  | not p ih =>
    show (!p.evaluate row) = (!p.evaluate row')
    rw [ih hvalue hstat]
  | keyPrefix pre =>
    show ScanKey.startsWith row.key pre = ScanKey.startsWith row'.key pre
    rw [hkey]
  | key name test =>
    show test row.key = test row'.key
    rw [hkey]
  | stat name test =>
    show test row.key row.stat = test row'.key row'.stat
    rcases hstat with hstat | hstat
    · cases hstat
    · rw [hkey, hstat]
  | value name test => cases hvalue

/-- The parts of a predicate together mean what it means: halved by `split_key_predicates`,
    peeled of a prefix, and in conjuncts by what they need. -/
theorem pushdown_preserves (p : Predicate K V) :
    (∀ row, p.evaluate row = true ↔ p.splitKeyPredicates.1.evaluate row = true ∧
      p.splitKeyPredicates.2.evaluate row = true) ∧
    (∀ row row', row.key = row'.key →
      p.splitKeyPredicates.1.evaluate row = p.splitKeyPredicates.1.evaluate row') ∧
    (∀ row, p.evaluate row = true ↔
      (∀ pre, p.peelKeyPrefix.1 = some pre → ScanKey.startsWith row.key pre = true) ∧
      p.peelKeyPrefix.2.evaluate row = true) ∧
    (∀ row, p.evaluate row = true ↔ ∀ q ∈ p.partitionByNeeds.1 ++ p.partitionByNeeds.2.1 ++
      p.partitionByNeeds.2.2, q.evaluate row = true) ∧
    (∀ q ∈ p.partitionByNeeds.1, q.needs.value = false ∧ q.needs.stat = false) ∧
    (∀ q ∈ p.partitionByNeeds.2.1, q.needs.value = false) := by
  refine ⟨fun row => ?_, fun row row' h => evaluate_of_keyOnly (isKeyOnly_splitKeyPredicates p) h,
    fun row => ?_, fun row => ?_, fun q => needs_keyPart, fun q => needs_statPart⟩
  · rw [evaluate_splitKeyPredicates, Bool.and_eq_true]
  · rw [evaluate_peelKeyPrefix, Bool.and_eq_true, Option.all_eq_true]
  · rw [evaluate_partitionByNeeds]
    unfold allPass
    rw [← List.all_append, ← List.all_append, List.all_eq_true]

end Evaluate

end Predicate

end Kvtsjl
