import Kvtsjl.InKeys
import Kvtsjl.MemoryScans
import Kvtsjl.NoLostUpdate

/-
  `scan_scoped`: each entry with its full scope.
  A scan of a view reads what follows the view's scope as a key. `scan_scoped` puts the scope back
  before that key and takes the whole apart. So an entry is listed where the codec of the keys reads
  the further kinds and ids with the leaf as one key, and an entry of another scope is where its text
  goes on from the view's as one more kind (`scanScoped_iff`).
-/

namespace Kvtsjl

open Assoc (Dict)
open Delimited Effects Prog

/-! ## Scanning -/

/-- `sugar_to_spec`, from what `scan_scoped` hands on. -/
def ScanSpec.sugar {K V : Type} (pre : Option K) (includeValues : Bool) (pageSize : Nat)
    (where_ : Option (Predicate K V)) (limit : Option Int) : ScanSpec K V where
  where_ :=
    let pred := where_.getD .alwaysTrue
    match pre with
    | none => pred
    | some pre => if pred.isAlwaysTrue then .keyPrefix pre else .and pred (.keyPrefix pre)
  refine := none
  project := if includeValues then .entries else .keys
  order := .unordered
  limit := limit
  pageSize := pageSize
  cursor := none
  onUnsupported := .clientSide
  orderBy := []
  one_order h := absurd rfl h

/-- Keys with their values, if those are asked for. A row without a value is passed over then. -/
def pairsOf {K V : Type} (includeValues : Bool) (rows : List (ScanRow K V)) : List (K × Option V) :=
  if includeValues then (rows.filter fun row => row.value.isSome).map fun row => (row.key, row.value)
  else rows.map fun row => (row.key, none)

/-- `supports_scoped_scan` -/
def KvSet.supportsScopedScan {K V α VB : Type} [DecidableEq α] (s : KvSet K V α VB) : Bool :=
  s.scopeSchema.isSome && s.keyLayout ≠ .hashed

/-- A listed key is put behind the view's scope again, and the whole is read. -/
def KvBackend.scopedRow {K V α VB : Type} [DecidableEq α] (b : KvBackend K V α VB) (t : WireText b.kvset.wire)
    (row : K × Option V) : Except Exn (Option (Scope × K × Option V)) :=
  let scopePrefix := b.kvset.joinParts (b.kvset.scopeParts b.scope)
  let leafBlob := b.kvset.keySerde.serialize row.1
  let inKey := if scopePrefix = [] then leafBlob else b.kvset.joinParts [scopePrefix, leafBlob]
  (b.kvset.decodeInKey t inKey).map fun decoded => decoded.map fun x => (x.1, x.2, row.2)

section Scan

variable {S K V α VB : Type} [DecidableEq α] [DecidableEq K] [ScanKey K]

/-- `scan`, of keys or of keys with their values. -/
def LeafKvStore.scanPairs (l : LeafKvStore S K V) (layout : KeyLayout) (pre : Option K) (includeValues : Bool)
    (pageSize : Nat) (where_ : Option (Predicate K V)) (limit : Option Int) : M S (List (K × Option V)) :=
  if pre.isSome && !layout.supportsPrefixScan then
    raise (.scanUnsupported ("prefix scan unsupported for layout " ++ layout.repr))
  else do
    let rows ← l.scanRows (.sugar pre includeValues pageSize where_ limit)
    return pairsOf includeValues rows

/-- `scan_scoped` -/
def LeafKvStore.scanScoped (l : LeafKvStore S K V) (typeName : String) (b : KvBackend K V α VB)
    (t : WireText b.kvset.wire) (pre : Option K) (includeValues : Bool) (pageSize : Nat)
    (where_ : Option (Predicate K V)) (limit : Option Int) : M S (List (Scope × K × Option V)) :=
  if !b.kvset.supportsScopedScan then
    raise (.kvStoreError (typeName ++ " cannot recover scopes from keys: scan_scoped needs a declared " ++
      "scope_schema and a layout that keeps the scope in the key"))
  else do
    let pairs ← l.scanPairs b.kvset.keyLayout pre includeValues pageSize where_ limit
    let out ← pairs.mapM fun row => ofExcept (b.scopedRow t row)
    return out.filterMap id

end Scan

/-- The scan gave each entry once, and nothing else. -/
def YieldsScoped {K V : Type} (result : Except Exn (List (Scope × K × Option V)))
    (entry : Scope → K → Option V → Prop) : Prop :=
  ∃ out, result = .ok out ∧ out.Nodup ∧ ∀ scope key value, (scope, key, value) ∈ out ↔ entry scope key value

/-! ## What is put together again -/

namespace KvBackend

variable {K V α VB : Type} [DecidableEq α] (b : KvBackend K V α VB) (t : WireText b.kvset.wire)

/-- A full scope of the schema that is the view's, or narrows it. -/
def Beneath (schema : List String) (scope : Scope) : Prop :=
  KvSet.Complete schema scope ∧ scope.Extends b.scope

/-- The blob of a key in a full scope. -/
def fullBlob (scope : Scope) (key : K) : List α :=
  b.kvset.joinParts (b.binding.nameVersionPrefix ++ [b.kvset.plainInKey scope key])

/-- Where the separator tells segments apart, entries of full scopes have places of their own. -/
theorem fullBlob_inj (hapart : b.kvset.wire.Apart) {schema : List String} {scope scope' : Scope} {key key' : K}
    (h : KvSet.Complete schema scope) (h' : KvSet.Complete schema scope')
    (hblob : b.fullBlob scope key = b.fullBlob scope' key') : scope = scope' ∧ key = key' := by
  have hlength : scope.segments.length = scope'.segments.length := by
    have hkinds := congrArg List.length (h.trans h'.symm)
    rw [List.length_map, List.length_map] at hkinds
    exact hkinds
  have hinKey : b.kvset.plainInKey scope key = b.kvset.plainInKey scope' key' := join_last_injective _ _ hblob
  rcases b.kvset.wire.key_eq_iff.mp hinKey with ⟨hsegments, hleaf⟩ | hmerges
  · exact ⟨congrArg Scope.mk hsegments, b.kvset.keySerde.serialize_injective hleaf⟩
  · exact absurd (hmerges.straddles hlength) (hapart.not_straddles _ _ _ _)

/-- What follows the scope with the key is text that can be split. -/
def Splits (key : K) : Prop :=
  (∃ text, t.asText (b.kvset.plainInKey b.scope key) = some text) ∧ b.kvset.wire.strCodes.sep ≠ []

/-- A place is listed as this entry. `read` is what the view reads it as. -/
def ListedAs {P : Type} (read : P → Option K) (p : P) (scope : Scope) (key : K) : Prop :=
  ∃ k, read p = some k ∧ b.kvset.decodeInKey t (b.kvset.plainInKey b.scope k) = .ok (some (scope, key))

/-- A live place that is listed as an entry of another place. -/
def ScopedStray {P : Type} (live : P → Prop) (read : P → Option K) (own : Scope → K → P) (p : P)
    (scope : Scope) (key : K) : Prop :=
  live p ∧ b.ListedAs t read p scope key ∧ p ≠ own scope key

/-- When the entries beneath a view are listed with their scopes. All that is read can be put behind
    the scope and be text, and there is a separator to split it at. An entry's own place is listed as it
    only if the entry is beneath the view. A place that is listed as an entry of another stands in for it:
    that entry is live, beneath the view and has the same value, its own place is not listed as it, and no
    third place is. And every live entry beneath the view is listed by its own place or has such a
    stand-in. -/
structure ScopedExact {P : Type} (schema : List String) (live : P → Prop) (read : P → Option K)
    (own : Scope → K → P) (value : P → Option V) : Prop where
  text : ∀ p k, live p → read p = some k → b.Splits t k
  begins : ∀ scope key, live (own scope key) → b.ListedAs t read (own scope key) scope key → b.Beneath schema scope
  missed : ∀ scope key, live (own scope key) → b.Beneath schema scope →
    ¬ b.ListedAs t read (own scope key) scope key → ∃ p, b.ScopedStray t live read own p scope key
  strays : ∀ p scope key, b.ScopedStray t live read own p scope key → live (own scope key) ∧
    b.Beneath schema scope ∧ value p = value (own scope key) ∧ ¬ b.ListedAs t read (own scope key) scope key ∧
      ∀ p', b.ScopedStray t live read own p' scope key → p' = p

/-- What is read as a key is put behind the scope as that scope's own key. -/
theorem scopedRow_eq (row : K × Option V) : b.scopedRow t row =
    (b.kvset.decodeInKey t (b.kvset.plainInKey b.scope row.1)).map fun decoded =>
      decoded.map fun x => (x.1, x.2, row.2) := by
  have hinKey : (if b.kvset.joinParts (b.kvset.scopeParts b.scope) = [] then b.kvset.keySerde.serialize row.1
      else b.kvset.joinParts [b.kvset.joinParts (b.kvset.scopeParts b.scope), b.kvset.keySerde.serialize row.1]) =
      b.kvset.plainInKey b.scope row.1 := by
    unfold KvSet.plainInKey KvSet.joinParts
    by_cases hnil : b.kvset.scopeParts b.scope = []
    · rw [hnil]
      rfl
    · rw [join_append _ hnil (by simp)]
      split
      · next hempty =>
        -- nothing is put in front of the key, and so the separator is empty
        obtain ⟨g, gs, hsegments⟩ : ∃ g gs, b.scope.segments = g :: gs := by
          rcases hscope : b.scope with ⟨_ | ⟨g, gs⟩⟩
          · rw [hscope] at hnil
            exact absurd rfl hnil
          · exact ⟨g, gs, rfl⟩
        have hsep : b.kvset.wire.codes.sep = [] := by
          unfold KvSet.scopeParts at hempty
          rw [hsegments, List.flatMap_cons, List.cons_append, join_cons _ _ (by simp)] at hempty
          exact (List.append_eq_nil_iff.mp (List.append_eq_nil_iff.mp hempty).2).1
        rw [hempty, hsep]
        rfl
      · rfl
  unfold scopedRow
  dsimp only
  rw [hinKey]

variable {P : Type} {schema : List String} {places : List P} {live : P → Prop} {read : P → Option K}
  {own : Scope → K → P} {value : P → Option V}

/-- What a listed row comes to. -/
def scopedOf (row : K × Option V) : Option (Scope × K × Option V) :=
  match b.kvset.decodeInKey t (b.kvset.plainInKey b.scope row.1) with
  | .ok decoded => decoded.map fun x => (x.1, x.2, row.2)
  | .error _ => none

theorem mapM_scopedRow {S : Type} {pairs : List (K × Option V)} (h : ∀ row ∈ pairs, b.Splits t row.1) (s : S) :
    (pairs.mapM fun row => ofExcept (b.scopedRow t row) : M S _) s = (.ok (pairs.map (b.scopedOf t)), s) := by
  induction pairs with
  | nil => rfl
  | cons row pairs ih =>
    have hrow : b.scopedRow t row = .ok (b.scopedOf t row) := by
      rw [b.scopedRow_eq]
      unfold scopedOf
      cases hdecode : b.kvset.decodeInKey t (b.kvset.plainInKey b.scope row.1) with
      | ok decoded => rfl
      | error e =>
        obtain ⟨⟨text, htext⟩, hsep⟩ := h row List.mem_cons_self
        rcases KvSet.decodeInKey_eq_error.mp ⟨e, hdecode⟩ with hnone | ⟨-, hnil⟩
        · rw [htext] at hnone
          cases hnone
        · exact absurd hnil hsep
    have hrest := ih fun r hr => h r (List.mem_cons_of_mem _ hr)
    rw [List.mapM_cons, hrow]
    show (pairs.mapM (fun row => ofExcept (b.scopedRow t row)) >>= _ : M S _) s = _
    rw [bind_ok hrest]
    rfl

/-- The first row that cannot be read raises. -/
theorem mapM_scopedRow_raises {S : Type} (hschema : b.kvset.scopeSchema ≠ none) {pairs : List (K × Option V)}
    {row : K × Option V} (hrow : row ∈ pairs) (h : ¬ b.Splits t row.1) (s : S) :
    ∃ e, ((pairs.mapM fun row => ofExcept (b.scopedRow t row) : M S _) s).1 = .error e := by
  induction pairs with
  | nil => exact absurd hrow List.not_mem_nil
  | cons first pairs ih =>
    rw [List.mapM_cons]
    cases hfirst : b.scopedRow t first with
    | error e => exact ⟨e, rfl⟩
    | ok decoded =>
      rcases List.mem_cons.mp hrow with rfl | hrow
      · have hraises : t.asText (b.kvset.plainInKey b.scope row.1) = none ∨
            b.kvset.scopeSchema ≠ none ∧ b.kvset.wire.strCodes.sep = [] := by
          unfold Splits at h
          rw [not_and_or, not_not, ← Option.ne_none_iff_exists', not_not] at h
          exact h.imp_right fun hnil => ⟨hschema, hnil⟩
        obtain ⟨e, he⟩ := KvSet.decodeInKey_eq_error.mpr hraises
        rw [b.scopedRow_eq, he] at hfirst
        cases hfirst
      · obtain ⟨e, he⟩ := ih hrow
        refine ⟨e, ?_⟩
        show ((pairs.mapM (fun row => ofExcept (b.scopedRow t row)) >>= _ : M S _) s).1 = _
        rw [bind_error (Prod.ext he rfl)]

variable {P : Type} {schema : List String} {places : List P} {live : P → Prop} {read : P → Option K}
  {own : Scope → K → P} {value : P → Option V}

theorem scopedOf_eq_some {k : K} {v : Option V} {x : Scope × K × Option V} : b.scopedOf t (k, v) = some x ↔
    b.kvset.decodeInKey t (b.kvset.plainInKey b.scope k) = .ok (some (x.1, x.2.1)) ∧ x.2.2 = v := by
  unfold scopedOf
  dsimp only
  cases b.kvset.decodeInKey t (b.kvset.plainInKey b.scope k) with
  | error e => exact iff_of_false (fun h => by cases h) fun h => by cases h.1
  | ok decoded =>
    dsimp only
    rw [Option.map_eq_some_iff, Except.ok.injEq]
    constructor
    · rintro ⟨y, rfl, rfl⟩
      exact ⟨rfl, rfl⟩
    · rintro ⟨rfl, hvalue⟩
      exact ⟨_, rfl, by rw [← hvalue]⟩

/-- The rows read from the places come to exactly the entries beneath the view where `ScopedExact`
    says so, in whichever order they come. -/
theorem yieldsScoped_iff {S : Type} (hschema : b.kvset.scopeSchema ≠ none) {pairs : List (K × Option V)}
    (hnodup : places.Nodup) (hlive : ∀ p, p ∈ places ↔ live p)
    (hpairs : pairs.Perm (places.filterMap fun p => (read p).map fun k => (k, value p))) (s : S) :
    YieldsScoped ((pairs.mapM (fun row => ofExcept (b.scopedRow t row)) >>= fun out => pure (out.filterMap id) :
        M S (List (Scope × K × Option V))) s).1
      (fun scope key v => live (own scope key) ∧ b.Beneath schema scope ∧ v = value (own scope key)) ↔
      b.ScopedExact t schema live read own value := by
  let shown : P → Option (Scope × K × Option V) := fun p => (read p).bind fun k => b.scopedOf t (k, value p)
  have hshown : ∀ p x, shown p = some x ↔ b.ListedAs t read p x.1 x.2.1 ∧ x.2.2 = value p := by
    intro p x
    show (read p).bind _ = _ ↔ _
    rw [Option.bind_eq_some_iff]
    constructor
    · intro ⟨k, hk, hx⟩
      have hboth := (b.scopedOf_eq_some t).mp hx
      exact ⟨⟨k, hk, hboth.1⟩, hboth.2⟩
    · intro ⟨⟨k, hk, hdecode⟩, hvalue⟩
      exact ⟨k, hk, (b.scopedOf_eq_some t).mpr ⟨hdecode, hvalue⟩⟩
  have hstray : ∀ p (x : Scope × K × Option V), Listing.Stray places shown (fun x => own x.1 x.2.1) p x ↔
      b.ScopedStray t live read own p x.1 x.2.1 ∧ x.2.2 = value p := by
    intro p x
    unfold Listing.Stray ScopedStray
    rw [hlive, hshown]
    constructor
    · intro ⟨hp, ⟨hlisted, hvalue⟩, hne⟩
      exact ⟨⟨hp, hlisted, hne⟩, hvalue⟩
    · intro ⟨⟨hp, hlisted, hne⟩, hvalue⟩
      exact ⟨hp, ⟨hlisted, hvalue⟩, hne⟩
  -- the rows come to the entries, or one raises
  have hexact : Listing.Exact places shown (fun x => own x.1 x.2.1)
      (fun x => b.Beneath schema x.1 ∧ x.2.2 = value (own x.1 x.2.1)) ↔
      (∀ scope key, live (own scope key) → b.ListedAs t read (own scope key) scope key →
        b.Beneath schema scope) ∧
      (∀ scope key, live (own scope key) → b.Beneath schema scope →
        ¬ b.ListedAs t read (own scope key) scope key → ∃ p, b.ScopedStray t live read own p scope key) ∧
      ∀ p scope key, b.ScopedStray t live read own p scope key → live (own scope key) ∧
        b.Beneath schema scope ∧ value p = value (own scope key) ∧
          ¬ b.ListedAs t read (own scope key) scope key ∧
            ∀ p', b.ScopedStray t live read own p' scope key → p' = p := by
    rw [Listing.shows_iff, and_iff_right (hnodup.filter _)]
    simp only [hlive, hstray, ne_eq, hshown]
    constructor
    · intro ⟨hbegins, hmissed, hstrays⟩
      have hstands : ∀ p scope key, b.ScopedStray t live read own p scope key → live (own scope key) ∧
          b.Beneath schema scope ∧ value p = value (own scope key) ∧
            ¬ b.ListedAs t read (own scope key) scope key := by
        intro p scope key hp
        obtain ⟨hown, ⟨hbeneath, hvalue⟩, hmiss, -⟩ := hstrays p (scope, key, value p) ⟨hp, rfl⟩
        exact ⟨hown, hbeneath, hvalue, fun hlisted => hmiss ⟨hlisted, hvalue⟩⟩
      refine ⟨fun scope key hown hlisted => (hbegins (scope, key, value (own scope key)) hown ⟨hlisted, rfl⟩).1,
        fun scope key hown hbeneath hmiss => ?_, fun p scope key hp => ?_⟩
      · obtain ⟨p, hp, -⟩ := hmissed (scope, key, value (own scope key)) hown ⟨hbeneath, rfl⟩ fun h => hmiss h.1
        exact ⟨p, hp⟩
      · obtain ⟨hown, hbeneath, hvalue, hmiss⟩ := hstands p scope key hp
        refine ⟨hown, hbeneath, hvalue, hmiss, fun p' hp' => ?_⟩
        obtain ⟨-, -, -, hone⟩ := hstrays p (scope, key, value p) ⟨hp, rfl⟩
        exact hone p' ⟨hp', hvalue.trans (hstands p' scope key hp').2.2.1.symm⟩
    · intro ⟨hbegins, hmissed, hstrays⟩
      refine ⟨fun x hown hlisted => ⟨hbegins x.1 x.2.1 hown hlisted.1, hlisted.2⟩,
        fun x hown hwanted hmiss => ?_, fun p x hp => ?_⟩
      · obtain ⟨p, hp⟩ := hmissed x.1 x.2.1 hown hwanted.1 fun hlisted => hmiss ⟨hlisted, hwanted.2⟩
        exact ⟨p, hp, hwanted.2.trans (hstrays p x.1 x.2.1 hp).2.2.1.symm⟩
      · obtain ⟨hown, hbeneath, hvalue, hmiss, hone⟩ := hstrays p x.1 x.2.1 hp.1
        exact ⟨hown, ⟨hbeneath, hp.2.trans hvalue⟩, fun hlisted => hmiss hlisted.1, fun p' hp' => hone p' hp'.1⟩
  have hread : ∀ row, row ∈ pairs ↔ ∃ p, live p ∧ read p = some row.1 ∧ value p = row.2 := by
    intro row
    rw [hpairs.mem_iff, List.mem_filterMap]
    constructor
    · intro ⟨p, hp, hrow⟩
      obtain ⟨k, hk, rfl⟩ := Option.map_eq_some_iff.mp hrow
      exact ⟨p, (hlive p).mp hp, hk, rfl⟩
    · intro ⟨p, hp, hk, hvalue⟩
      exact ⟨p, (hlive p).mpr hp, by rw [hk, Option.map_some, hvalue]⟩
  by_cases htext : ∀ p k, live p → read p = some k → b.Splits t k
  · have hrows : ∀ row ∈ pairs, b.Splits t row.1 := by
      intro row hrow
      obtain ⟨p, hp, hk, -⟩ := (hread row).mp hrow
      exact htext p row.1 hp hk
    have hout : ((pairs.map (b.scopedOf t)).filterMap id).Perm (places.filterMap shown) := by
      rw [List.filterMap_map]
      refine (hpairs.filterMap _).trans (List.Perm.of_eq ?_)
      rw [List.filterMap_filterMap]
      refine List.filterMap_congr fun p _ => ?_
      show ((read p).map _).bind _ = (read p).bind _
      rw [Option.bind_map]
      rfl
    rw [bind_ok (b.mapM_scopedRow t hrows s)]
    have hboth : b.ScopedExact t schema live read own value ↔ Listing.Exact places shown (fun x => own x.1 x.2.1)
        (fun x => b.Beneath schema x.1 ∧ x.2.2 = value (own x.1 x.2.1)) := by
      rw [hexact]
      exact ⟨fun h => ⟨h.begins, h.missed, h.strays⟩, fun h => ⟨htext, h.1, h.2.1, h.2.2⟩⟩
    rw [hboth]
    unfold YieldsScoped Listing.Exact
    simp only [← hout.nodup_iff, ← hout.mem_iff, hlive]
    constructor
    · intro ⟨out, hok, hboth⟩
      rw [Except.ok.inj hok.symm] at hboth
      exact ⟨hboth.1, fun x => hboth.2 x.1 x.2.1 x.2.2⟩
    · intro hboth
      exact ⟨_, rfl, hboth.1, fun scope key v => hboth.2 (scope, key, v)⟩
  · refine iff_of_false ?_ fun h => htext h.text
    intro ⟨out, hok, _⟩
    simp only [not_forall] at htext
    obtain ⟨p, k, hp, hk, hnone⟩ := htext
    obtain ⟨e, he⟩ := b.mapM_scopedRow_raises t hschema ((hread (k, value p)).mpr ⟨p, hp, hk, rfl⟩) hnone s
    rw [bind_error (Prod.ext he rfl)] at hok
    cases hok

end KvBackend

/-! ## What a key's own place is listed as -/

namespace KvBackend

variable {K V α VB : Type} [DecidableEq α] {b : KvBackend K V α VB}

/-- What follows the view's scope in the blob of a key, the separator before it left out: the further
    kinds and ids, and the leaf. -/
def further (b : KvBackend K V α VB) (more : Scope) (key : K) : List α :=
  b.kvset.joinParts (b.kvset.scopeParts more ++ [b.kvset.keySerde.serialize key])

theorem plainInKey_append (b : KvBackend K V α VB) (more : Scope) (key : K) :
    b.kvset.plainInKey ⟨b.scope.segments ++ more.segments⟩ key =
      b.kvset.joinParts (b.kvset.scopeParts b.scope ++ [b.further more key]) := by
  unfold KvSet.plainInKey further KvSet.joinParts
  have hparts : b.kvset.scopeParts ⟨b.scope.segments ++ more.segments⟩ =
      b.kvset.scopeParts b.scope ++ b.kvset.scopeParts more := List.flatMap_append
  rw [hparts, List.append_assoc]
  by_cases hnil : b.kvset.scopeParts b.scope = []
  · rw [hnil]
    rfl
  · rw [join_append _ hnil (by simp), join_append _ hnil (by simp)]
    rfl

/-- A blob of a narrower scope is read from what follows the view's. -/
theorem shownBy_fullBlob (hschema : b.kvset.scopeSchema ≠ none) (more : Scope) (key : K) :
    b.shownBy none (b.fullBlob ⟨b.scope.segments ++ more.segments⟩ key) =
      if b.scope.segments ≠ [] ∧ b.further more key = [] then none
      else b.kvset.keySerde.deserialize (b.further more key) := by
  have hblob : b.fullBlob ⟨b.scope.segments ++ more.segments⟩ key = b.itemKeyBlob (b.further more key) := by
    rw [itemKeyBlob_eq_join, fullBlob, plainInKey_append]
  have hfound : b.scanPrefixBlob none <+: b.itemKeyBlob (b.further more key) := by
    unfold scanPrefixBlob itemKeyBlob KvSet.joinParts
    rw [Option.map_none, Option.toList_none, List.append_nil]
    by_cases hnil : b.prefixParts = []
    · rw [hnil]
      exact List.nil_prefix
    · rw [join_append _ hnil (by simp)]
      exact List.prefix_append _ _
  unfold shownBy
  rw [hblob, if_pos hfound, decodeKeyFromPhysical_item]
  unfold leafRead
  by_cases hempty : b.scope.segments = []
  · rw [if_pos hempty, if_neg fun hboth => hboth.1 hempty]
  · rw [if_neg hempty, KvSet.maybeUnescape_of_schema _ hschema]
    by_cases hnil : b.further more key = []
    · rw [if_pos hnil, if_pos ⟨hempty, hnil⟩]
    · rw [if_neg hnil, if_neg fun hboth => hnil hboth.2]

/-- Where the codec reads a key from one blob only and the separator ends the names of the scope, an entry
    beneath the view is listed as itself exactly if the further kinds and ids are read with the leaf as a key,
    the leaf of a full scope is not empty, the whole is text, and no kind comes twice. -/
theorem listedAs_own_iff {schema : List String} (hs : b.kvset.scopeSchema = some schema) (t : WireText b.kvset.wire)
    (hcanonical : ∀ blob key, b.kvset.keySerde.deserialize blob = some key → b.kvset.keySerde.serialize key = blob)
    (hsep : b.kvset.wire.strCodes.sep ≠ []) {more : Scope}
    (hcomplete : KvSet.Complete schema ⟨b.scope.segments ++ more.segments⟩)
    (hends : ∀ p ∈ b.kvset.rawParts ⟨b.scope.segments ++ more.segments⟩, Ends b.kvset.wire.strCodes.sep p) (key : K) :
    b.ListedAs t (b.shownBy none) (b.fullBlob ⟨b.scope.segments ++ more.segments⟩ key)
        ⟨b.scope.segments ++ more.segments⟩ key ↔
      (b.kvset.keySerde.deserialize (b.further more key)).isSome = true ∧
        (b.scope.segments ≠ [] → b.further more key ≠ []) ∧
        (∃ text, t.asText (b.kvset.plainInKey ⟨b.scope.segments ++ more.segments⟩ key) = some text) ∧
        schema.Nodup := by
  have hschema : b.kvset.scopeSchema ≠ none := by
    rw [hs]
    exact Option.some_ne_none _
  have hencode : b.kvset.encodeInKey b.kvset.keySerde.serialize ⟨b.scope.segments ++ more.segments⟩ (some key) =
      .ok (b.kvset.plainInKey ⟨b.scope.segments ++ more.segments⟩ key) :=
    KvSet.encodeInKey_complete hs hcomplete key
  have hback := KvSet.decodeInKey_encodeInKey_iff hs hsep t hcomplete hends hencode
  have hagain : ∀ k, b.kvset.keySerde.deserialize (b.further more key) = some k →
      b.kvset.plainInKey b.scope k = b.kvset.plainInKey ⟨b.scope.segments ++ more.segments⟩ key := by
    intro k hk
    rw [plainInKey_append, KvSet.plainInKey, hcanonical _ _ hk]
  unfold ListedAs
  rw [shownBy_fullBlob hschema]
  constructor
  · intro ⟨k, hk, hdecode⟩
    split at hk
    · cases hk
    · next hread =>
      rw [hagain k hk] at hdecode
      refine ⟨Option.isSome_iff_exists.mpr ⟨k, hk⟩, fun hne hnil => hread ⟨hne, hnil⟩, hback.mp hdecode⟩
  · intro ⟨hread, hleaf, htext⟩
    obtain ⟨k, hk⟩ := Option.isSome_iff_exists.mp hread
    refine ⟨k, ?_, ?_⟩
    · rw [if_neg fun hboth => hleaf hboth.1 hboth.2]
      exact hk
    · rw [hagain k hk]
      exact hback.mpr htext

end KvBackend

/-! ## Scanning a leaf -/

section Leaf

variable {S K V α VB : Type} [DecidableEq α] [DecidableEq K] [ScanKey K] {l : LeafKvStore S K V}

omit [DecidableEq K] [ScanKey K] in
theorem pairsOf_project (includeValues : Bool) (rows : List (ScanRow K V)) :
    pairsOf includeValues (rows.map fun row => projectRow row (if includeValues then .entries else .keys)) =
      pairsOf includeValues rows := by
  cases includeValues with
  | false =>
    show List.map _ (List.map _ _) = List.map _ _
    rw [List.map_map]
    rfl
  | true =>
    show ((rows.map id).filter _).map _ = _
    rw [List.map_id]
    rfl

/-- `scan_scoped` works on what the leaf lists. -/
theorem LeafKvStore.scanScoped_run {b : KvBackend K V α VB} (hsupported : b.kvset.supportsScopedScan = true)
    (typeName : String) (t : WireText b.kvset.wire) {includeValues : Bool} {n : Nat} {compiled : CompiledScan S K V}
    (hcompiled : l.listing.compileScan (.sugar none includeValues n none none) = .ok compiled)
    (hresidual : compiled.residual = .alwaysTrue) {s : S} {rows : List (ScanRow K V)}
    (hrows : (compiled.rows s).1 = .ok rows) : ∃ s',
    l.scanScoped typeName b t none includeValues n none none s =
      ((pairsOf includeValues rows).mapM (fun row => ofExcept (b.scopedRow t row)) >>= fun out =>
        pure (out.filterMap id) : M S (List (Scope × K × Option V))) s' := by
  obtain ⟨s', hs'⟩ : ∃ s', compiled.rows s = (.ok rows, s') := ⟨_, Prod.ext hrows rfl⟩
  have hscan : l.scanRows (.sugar none includeValues n none none) s =
      (.ok (rows.map fun row => projectRow row (if includeValues then .entries else .keys)), s') := by
    unfold LeafKvStore.scanRows
    rw [hcompiled]
    show ((compiled.rows >>= _ : M S _) s) = _
    rw [bind_ok hs', hresidual]
    exact applyCascade_all _ _ _
  have hpairs : l.scanPairs b.kvset.keyLayout none includeValues n none none s =
      (.ok (pairsOf includeValues rows), s') := by
    unfold LeafKvStore.scanPairs
    show ((l.scanRows _ >>= _ : M S _) s) = _
    rw [bind_ok hscan, pairsOf_project]
    rfl
  refine ⟨s', ?_⟩
  unfold LeafKvStore.scanScoped
  rw [hsupported]
  show ((l.scanPairs _ _ _ _ _ _ >>= _ : M S _) s) = _
  rw [bind_ok hpairs]

theorem LeafKvStore.scanScoped_refused {b : KvBackend K V α VB} (h : b.kvset.keyLayout = .hashed) (typeName : String)
    (t : WireText b.kvset.wire) (includeValues : Bool) (n : Nat) (s : S) :
    ∃ e, (l.scanScoped typeName b t none includeValues n none none s).1 = .error e := by
  have hsupported : b.kvset.supportsScopedScan = false := by
    unfold KvSet.supportsScopedScan
    rw [h]
    exact Bool.and_false _
  unfold LeafKvStore.scanScoped
  rw [hsupported]
  exact ⟨_, rfl⟩

end Leaf

/-! ### A memory store -/

namespace MemoryKvBackend

variable {K V α VB : Type} [DecidableEq α] (b : MemoryKvBackend K V α VB)

/-- The view of a scope. -/
def inScope (scope : Scope) (h : b.kvset.validateScope scope = .ok ()) : MemoryKvBackend K V α VB :=
  { b with scope := scope, valid := h }

/-- What a memory holds after writes under full scopes, deletions and the passing of time. -/
inductive WrittenInFull (schema : List String) : MemoryRoot α VB → Prop
  | empty (clock : Instant) : WrittenInFull schema (.empty clock)
  | set {r : MemoryRoot α VB} {scope : Scope} (h : b.kvset.validateScope scope = .ok ())
      (hscope : KvSet.Complete schema scope) (key : K) (value : V) (options : WriteOptions) :
      WrittenInFull schema r → WrittenInFull schema ((b.inScope scope h).set key value options r).2
  | delete {r : MemoryRoot α VB} {scope : Scope} (h : b.kvset.validateScope scope = .ok ()) (key : K) :
      WrittenInFull schema r → WrittenInFull schema ((b.inScope scope h).delete key r).2
  | advance {r : MemoryRoot α VB} (microseconds : Int) :
      WrittenInFull schema r → WrittenInFull schema (r.advance microseconds)

variable {b}

/-- What was written is read back. -/
theorem WrittenInFull.valuesRead {schema : List String} {r : MemoryRoot α VB} (h : b.WrittenInFull schema r) :
    b.ValuesRead r := by
  induction h with
  | empty clock =>
    intro p e he
    cases he
  | @set r scope h hscope key value options hr ih =>
    intro p e he
    cases hp : (b.inScope scope h).physicalKeyBlob key with
    | error x =>
      unfold MemoryKvBackend.set at he
      rw [(b.inScope scope h).physicalKey_error hp, raise_bind] at he
      exact ih p e he
    | ok place =>
      rw [(b.inScope scope h).set_apply hp] at he
      have hput : (if p = place then some _ else (r.bucket b.collection).get? p) = some e :=
        (MemoryRoot.get?_put r b.collection place p _ _ _).symm.trans he
      split at hput
      · rw [← Option.some.inj hput]
        exact ⟨value, b.kvset.valueSerde.roundtrip value⟩
      · exact ih p e hput
  | @delete r scope h key hr ih =>
    intro p e he
    cases hp : (b.inScope scope h).physicalKeyBlob key with
    | error x =>
      unfold MemoryKvBackend.delete at he
      rw [(b.inScope scope h).physicalKey_error hp, raise_bind] at he
      exact ih p e he
    | ok place =>
      rw [(b.inScope scope h).delete_apply hp] at he
      have hpop : (if p = place then none else (r.bucket b.collection).get? p) = some e :=
        (MemoryRoot.get?_pop r b.collection place p).symm.trans he
      split at hpop
      · cases hpop
      · exact ih p e hpop
  | advance microseconds hr ih => exact ih

variable (b) [DecidableEq K] [ScanKey K]

/-- A live entry beneath the view, with the value it is listed with. -/
def EntryBeneath (schema : List String) (includeValues : Bool) (r : MemoryRoot α VB) (scope : Scope) (key : K)
    (value : Option V) : Prop :=
  b.LiveAt r (b.fullBlob scope key) ∧ b.Beneath schema scope ∧
    value = if includeValues then b.valueAt r (b.fullBlob scope key) else none

theorem scanScoped_exact_iff {schema : List String} (hs : b.kvset.scopeSchema = some schema)
    (t : WireText b.kvset.wire) (includeValues : Bool) (n : Nat) {r : MemoryRoot α VB}
    (hvalues : b.ValuesRead r) :
    YieldsScoped (b.leafStore.scanScoped "MemoryKvStore" b.toKvBackend t none includeValues n none none r).1
        (b.EntryBeneath schema includeValues r) ↔
      b.kvset.keyLayout ≠ .hashed ∧ b.ScopedExact t schema (b.LiveAt r) (b.shownBy none) b.fullBlob
        fun p => if includeValues then b.valueAt r p else none := by
  by_cases hlayout : b.kvset.keyLayout = .hashed
  · refine iff_of_false (fun ⟨out, hok, _⟩ => ?_) fun h => h.1 hlayout
    obtain ⟨e, he⟩ := b.leafStore.scanScoped_refused hlayout "MemoryKvStore" t includeValues n r
    rw [he] at hok
    cases hok
  · rw [and_iff_right hlayout]
    have hsupported : b.kvset.supportsScopedScan = true := by
      unfold KvSet.supportsScopedScan
      rw [hs, decide_eq_true hlayout]
      rfl
    have hasked : decide ((ScanSpec.sugar none includeValues n none none : ScanSpec K V).project = .entries) =
        includeValues := by
      cases includeValues <;> rfl
    have hcompiled : b.leafStore.listing.compileScan (.sugar none includeValues n none none) = .ok ⟨do
        let entries ← b.scanEntries ⟨none, includeValues, n⟩
        return afterCursor none (entries.map fun e => ⟨e.1, e.2, none⟩), .alwaysTrue⟩ := by
      have hlegacy : b.leafStore.listing.compileScan (.sugar none includeValues n none none) = .ok ⟨do
          let entries ← b.scanEntries ⟨none, decide ((ScanSpec.sugar none includeValues n none none :
            ScanSpec K V).project = .entries), n⟩
          return afterCursor none (entries.map fun e => ⟨e.1, e.2, none⟩), .alwaysTrue⟩ := rfl
      rw [hlegacy, hasked]
    have hentries := (b.scanEntries_query (q := ⟨none, includeValues, n⟩) fun _ => hvalues).1
    have hrows : ((do
        let entries ← b.scanEntries ⟨none, includeValues, n⟩
        return afterCursor none (entries.map fun e => ⟨e.1, e.2, none⟩) :
          M (MemoryRoot α VB) (List (ScanRow K V))) r).1 =
        .ok (((b.livePlaces r).filterMap (b.entryRow ⟨none, includeValues, n⟩ r)).map fun e => ⟨e.1, e.2, none⟩) := by
      rw [bind_ok (Prod.ext hentries rfl)]
      rfl
    obtain ⟨r', hrun⟩ := LeafKvStore.scanScoped_run hsupported "MemoryKvStore" t hcompiled rfl hrows
    have hperm : (pairsOf includeValues (((b.livePlaces r).filterMap (b.entryRow ⟨none, includeValues, n⟩ r)).map
        fun e => ⟨e.1, e.2, none⟩)).Perm ((b.livePlaces r).filterMap fun p => (b.shownBy none p).map fun k =>
          (k, if includeValues then b.valueAt r p else none)) := by
      refine List.Perm.of_eq ?_
      unfold entryRow
      cases includeValues with
      | false =>
        show List.map _ (List.map _ _) = _
        rw [List.map_map, List.map_filterMap]
        refine List.filterMap_congr fun p _ => ?_
        rw [Option.map_map]
        rfl
      | true =>
        show ((List.map _ _).filter _).map _ = _
        rw [List.filter_map, List.map_map, List.filter_filterMap, List.map_filterMap]
        refine List.filterMap_congr fun p hp => ?_
        obtain ⟨e, he, _⟩ := b.mem_livePlaces.mp hp
        obtain ⟨v, hv⟩ := hvalues p e he
        have hvalue : b.valueAt r p = some v := by
          unfold valueAt
          rw [he]
          exact hv
        rw [hvalue]
        cases b.shownBy none p <;> rfl
    rw [hrun]
    exact b.yieldsScoped_iff t (by simp [hs]) ((r.bucket b.collection).nodup.filter _) (fun p => b.mem_livePlaces) hperm r'

end MemoryKvBackend

/-! ### An object store -/

namespace KeyCodec

variable {K V α VB : Type} [DecidableEq α] (w : ScanWire α) (sha256 : List UInt8 → List Char)
  (c : KeyCodec K V α VB)

/-- What a view reads an object as. -/
def readObject (physical : String) : Option K :=
  if physical.startsWith (c.literalPath w (c.scanPrefixBlob none)) then
    c.decodeIfPrefix w physical.toList none
  else none

/-- The object of a key in a full scope. -/
def fullObject (scope : Scope) (key : K) : String := c.literalPath w (c.fullBlob scope key)

/-- The value of an object, as it is read. -/
def objectValue (b : ObjectStoreKvBackend K V) (m : Medium String Blob) (p : String) : Option V :=
  (m.entries.get? p).bind fun blob => (b.deserialize blob.data).toOption

/-- A live object of an entry beneath the view, with the value it is listed with. -/
def ObjectBeneath (b : ObjectStoreKvBackend K V) (schema : List String) (includeValues : Bool)
    (m : Medium String Blob) (scope : Scope) (key : K) (value : Option V) : Prop :=
  b.LiveAt m (c.fullObject w scope key) ∧ c.Beneath schema scope ∧
    value = if includeValues then objectValue b m (c.fullObject w scope key) else none

/-- The pairs listed are those the live places show, with their values if they are asked for. -/
theorem listedPairs_perm (b : ObjectStoreKvBackend K V) (includeValues : Bool) {m : Medium String Blob}
    (hvalues : ∀ x ∈ m.entries.entries, b.ReadsBack m.clock x) :
    (pairsOf includeValues
      ((ObjectStoreKvBackend.listed (c.literalPath w (c.scanPrefixBlob none)) none m.entries).filterMap
        ((c.objectStore w sha256 b).listedEntry none includeValues m.clock))).Perm
    ((b.livePlaces m).filterMap fun p => (c.readObject w p).map fun k =>
      (k, if includeValues then objectValue b m p else none)) := by
  let row : String × Blob → Option (K × Option V) := fun x =>
    if b.isExpired x.2.stat m.clock then none
    else (c.decodeIfPrefix w x.1.toList none).map fun k =>
      (k, if includeValues then (b.deserialize x.2.data).toOption else none)
  have hexpired : ∀ x : String × Blob, (c.objectStore w sha256 b).isExpired x.2.stat m.clock =
      b.isExpired x.2.stat m.clock := fun _ => rfl
  have hdeserialize : ∀ x : String × Blob, (c.objectStore w sha256 b).deserialize x.2.data =
      b.deserialize x.2.data := fun _ => rfl
  have hdecode : ∀ x : String × Blob, (c.objectStore w sha256 b).decodeIfPrefix x.1 none =
      c.decodeIfPrefix w x.1.toList none := fun _ => rfl
  have hrows : pairsOf includeValues
      ((ObjectStoreKvBackend.listed (c.literalPath w (c.scanPrefixBlob none)) none m.entries).filterMap
        ((c.objectStore w sha256 b).listedEntry none includeValues m.clock)) =
      (ObjectStoreKvBackend.listed (c.literalPath w (c.scanPrefixBlob none)) none m.entries).filterMap row := by
    unfold pairsOf
    cases includeValues with
    | false =>
      rw [if_neg Bool.false_ne_true, List.map_filterMap]
      refine List.filterMap_congr fun x _ => ?_
      unfold ObjectStoreKvBackend.listedEntry ObjectStoreKvBackend.listedRow
      rw [hexpired, hdecode]
      show _ = if b.isExpired x.2.stat m.clock then none else _
      cases b.isExpired x.2.stat m.clock with
      | true => rfl
      | false => cases c.decodeIfPrefix w x.1.toList none <;> rfl
    | true =>
      rw [if_pos rfl, List.filter_filterMap, List.map_filterMap]
      refine List.filterMap_congr fun x hx => ?_
      have hin : x ∈ m.entries.entries := Dict.mem_entries.mpr (ObjectStoreKvBackend.mem_listed.mp hx).1
      unfold ObjectStoreKvBackend.listedEntry ObjectStoreKvBackend.listedRow
      rw [hexpired, hdecode, hdeserialize]
      show _ = if b.isExpired x.2.stat m.clock then none else _
      cases hlive : b.isExpired x.2.stat m.clock with
      | true => rfl
      | false =>
        obtain ⟨v, hv⟩ := hvalues x hin hlive
        rw [hv]
        cases c.decodeIfPrefix w x.1.toList none <;> rfl
  rw [hrows]
  unfold ObjectStoreKvBackend.listed ObjectStoreKvBackend.livePlaces
  rw [List.filterMap_map, List.filterMap_filter]
  refine ((List.mergeSort_perm _ _).filterMap _).trans ?_
  rw [List.filterMap_filter]
  refine List.Perm.of_eq (List.filterMap_congr fun x hx => ?_)
  have hget : m.entries.get? x.1 = some x.2 := Dict.mem_entries.mp hx
  rw [Option.all_none, Bool.and_true]
  show (if x.1.startsWith _ = true then if b.isExpired x.2.stat m.clock then none else _ else none) = _
  dsimp only [Function.comp]
  unfold readObject objectValue
  rw [hget, Option.bind_some]
  cases b.isExpired x.2.stat m.clock with
  | true =>
    rw [if_pos rfl]
    split <;> rfl
  | false =>
    rw [if_neg Bool.false_ne_true, Bool.not_false, if_pos rfl]
    split <;> rfl

variable [DecidableEq K] [ScanKey K]

theorem scanScoped_exact_iff {schema : List String} (hs : c.kvset.scopeSchema = some schema)
    (t : WireText c.kvset.wire) (includeValues : Bool) (n : Nat) (b : ObjectStoreKvBackend K V)
    (hpage : 1 ≤ b.driver.listPageSize) {pages : Nat} {m : Medium String Blob}
    (hpages : m.entries.entries.length < pages) (hvalues : ∀ x ∈ m.entries.entries, b.ReadsBack m.clock x) :
    YieldsScoped (((c.objectStore w sha256 b).leafStore pages).scanScoped b.typeName c.toKvBackend t none
        includeValues n none none m).1 (c.ObjectBeneath w b schema includeValues m) ↔
      c.kvset.keyLayout = .literal ∧ c.ScopedExact t schema (b.LiveAt m) (c.readObject w) (c.fullObject w)
        fun p => if includeValues then objectValue b m p else none := by
  by_cases hlayout : c.kvset.keyLayout = .literal
  · rw [and_iff_right hlayout]
    have hsupported : c.kvset.supportsScopedScan = true := by
      unfold KvSet.supportsScopedScan
      rw [hs, hlayout]
      rfl
    have hasked : decide ((ScanSpec.sugar none includeValues n none none : ScanSpec K V).project = .entries) =
        includeValues := by
      cases includeValues <;> rfl
    have hcompiled : ((c.objectStore w sha256 b).leafStore pages).listing.compileScan
        (.sugar none includeValues n none none) =
        .ok ⟨((c.objectStore w sha256 b).listing pages).listedRows none includeValues, .alwaysTrue⟩ := by
      have hliteral : ((c.objectStore w sha256 b).listing pages).keyLayout = .literal := hlayout
      show ObjectListing.compileScan _ _ = _
      unfold ObjectListing.compileScan
      rw [if_neg (not_not.mpr hliteral)]
      show (Except.ok _ : Except Exn _) = _
      rw [hasked]
      rfl
    have hlisting : (c.objectStore w sha256 b).listingPrefix none =
        .ok (c.literalPath w (c.scanPrefixBlob none)) := by
      show Except.map String.ofList (c.listingPrefix w sha256 none) = _
      unfold listingPrefix
      rw [hlayout]
      rfl
    obtain ⟨m', hlisted⟩ := (c.objectStore w sha256 b).iterListedRows_entries hpage
      (c.literalPath w (c.scanPrefixBlob none)) none includeValues hpages
      fun _ x hx => hvalues x (Dict.mem_entries.mpr (ObjectStoreKvBackend.mem_listed.mp hx).1)
    have hrows : (((c.objectStore w sha256 b).listing pages).listedRows none includeValues m).1 =
        .ok ((ObjectStoreKvBackend.listed (c.literalPath w (c.scanPrefixBlob none)) none
          m.entries).filterMap ((c.objectStore w sha256 b).listedEntry none includeValues m.clock)) := by
      show ((ofExcept ((c.objectStore w sha256 b).listingPrefix none) >>= _ : M _ _) m).1 = _
      rw [hlisting]
      exact congrArg Prod.fst hlisted
    obtain ⟨m'', hrun⟩ := LeafKvStore.scanScoped_run hsupported b.typeName t hcompiled rfl hrows
    rw [hrun]
    exact c.yieldsScoped_iff t (by simp [hs]) (b.nodup_livePlaces m) (fun p => b.mem_livePlaces)
      (c.listedPairs_perm w sha256 b includeValues hvalues) m''
  · refine iff_of_false ?_ fun h => hlayout h.1
    intro ⟨out, hok, _⟩
    have hrefused : ∃ e, (((c.objectStore w sha256 b).leafStore pages).scanScoped b.typeName c.toKvBackend t none
        includeValues n none none m).1 = .error e := by
      obtain ⟨e, he⟩ : ∃ e, ((c.objectStore w sha256 b).leafStore pages).listing.compileScan
          (.sugar none includeValues n none none) = .error e := ObjectListing.compileScan_of_ne hlayout _
      unfold LeafKvStore.scanScoped
      split
      · exact ⟨_, rfl⟩
      · refine ⟨e, ?_⟩
        unfold LeafKvStore.scanPairs LeafKvStore.scanRows
        rw [he]
        rfl
    obtain ⟨e, he⟩ := hrefused
    rw [he] at hok
    cases hok

end KeyCodec

/-! ## Both -/

namespace MemoryKvBackend

/-- Notes of a user, by their slugs. -/
def notes : MemoryKvBackend (List Char) String Char String where
  kvset := { (plain String).kvset with scopeSchema := some ["user", "slug"] }
  scope := .empty
  binding := ⟨some "items:v1", []⟩
  valid := rfl
  expiryGc := .lazyDelete

def notesOf (user slug : String) : Scope := ⟨[⟨"user", user⟩, ⟨"slug", slug⟩]⟩

/-- One note. -/
def oneNote (user slug leaf : String) : MemoryRoot Char String :=
  ((notes.inScope (notesOf user slug) rfl).set leaf.toList "A" ⟨none, none⟩ (.empty 0)).2

end MemoryKvBackend

end Kvtsjl
