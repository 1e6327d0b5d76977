import Kvtsjl.JoinedViews
import Kvtsjl.MemoryScans
import Kvtsjl.ValueScans

/-
  A memory store of its own as a store to read through.
  Its reads may delete what has expired. What is live stays, in the order it is listed in
  (`SameRows`), so every read answers from what is live at the start (`plainSource`).
-/

namespace Kvtsjl

open Assoc (Dict)
open Effects Prog

namespace MemoryKvBackend

/-! ## Reads keep what is listed -/

section Rows

variable {K V α VB : Type} [DecidableEq α] (b : MemoryKvBackend K V α VB)

/-- What is live is as it was, and is listed in the same order. -/
def SameRows (r r' : MemoryRoot α VB) : Prop := b.SamePlaces r r' ∧ b.livePlaces r' = b.livePlaces r

instance : Std.Refl b.SameRows := ⟨fun r => ⟨b.samePlaces_refl r, rfl⟩⟩

instance : IsTrans _ b.SameRows := ⟨fun _ _ _ h h' => ⟨h.1.trans b h'.1, h'.2.trans h.2⟩⟩

/-- An expired entry that goes was not listed. -/
theorem sameRows_lazyDelete {r : MemoryRoot α VB} {p : List α} {e : Entry VB} (h : b.entryAt r p = some e)
    (hexpired : expired e r.clock = true) : b.SameRows r (b.lazyDelete p r).2 := by
  obtain ⟨r', hrun, hsame⟩ := b.samePlaces_lazyDelete h hexpired
  rw [hrun]
  refine ⟨hsame, ?_⟩
  have hlive : b.livePlaces r' = (r'.bucket b.collection).keys.filter fun q => decide (b.LiveAt r q) :=
    List.filter_congr fun q _ => decide_eq_decide.mpr (hsame.liveAt b q)
  rw [hlive]
  unfold lazyDelete Prog.when at hrun
  split at hrun
  · have hpop : r' = r.pop b.collection p := (congrArg Prod.snd hrun).symm
    have hdead : ¬ b.LiveAt r p := by
      intro ⟨e', he', hlive'⟩
      rw [h] at he'
      rw [← Option.some.inj he', hexpired] at hlive'
      cases hlive'
    have hkeys : (r'.bucket b.collection).keys = (r.bucket b.collection).keys.filter fun q => decide (q ≠ p) := by
      rw [hpop, MemoryRoot.pop, MemoryRoot.bucket_setBucket, if_pos rfl]
      exact (List.filter_map (f := Prod.fst) (p := fun q => decide (q ≠ p))
        (l := (r.bucket b.collection).entries)).symm
    rw [hkeys, List.filter_filter]
    refine List.filter_congr fun q _ => ?_
    by_cases hq : q = p
    · rw [hq, decide_eq_false hdead]
      rfl
    · rw [decide_eq_true hq, Bool.and_true]
  · have hstays : r' = r := (congrArg Prod.snd hrun).symm
    rw [hstays]
    rfl

theorem liveEntry_sameRows (k : K) : Moves b.SameRows (b.liveEntry k) := by
  intro r
  unfold liveEntry
  cases hp : b.physicalKeyBlob k with
  | error e =>
    unfold physicalKey
    rw [hp]
    exact Std.Refl.refl (r := b.SameRows) r
  | ok p =>
    rw [b.physicalKey_ok hp, pure_bind, bind_apply, read_apply]
    dsimp only
    cases h : b.entryAt r p with
    | none => exact Std.Refl.refl (r := b.SameRows) r
    | some e =>
      dsimp only
      split
      · next hexpired =>
        have hsame := b.sameRows_lazyDelete h hexpired
        rw [bind_apply]
        rcases hrun : b.lazyDelete p r with ⟨e' | u, r'⟩
        · rw [hrun] at hsame
          exact hsame
        · rw [hrun] at hsame
          exact hsame
      · exact Std.Refl.refl (r := b.SameRows) r

theorem deserializeValue_sameRows (blob : VB) : Moves b.SameRows (b.deserializeValue blob) := by
  unfold deserializeValue
  split
  · exact Moves.pure _
  · exact Moves.raise _

theorem get_sameRows (k : K) : Moves b.SameRows (b.get k) := by
  refine (b.liveEntry_sameRows k).bind fun entry => ?_
  cases entry with
  | none => exact Moves.pure _
  | some entry => exact (b.deserializeValue_sameRows _).bind fun _ => Moves.pure _

theorem existsKey_sameRows (k : K) : Moves b.SameRows (b.existsKey k) :=
  (b.liveEntry_sameRows k).bind fun _ => Moves.pure _

theorem stat_sameRows (k : K) : Moves b.SameRows (b.stat k) :=
  (b.liveEntry_sameRows k).bind fun _ => Moves.pure _

theorem scanOne_sameRows (query : ScanQuery K) (p : List α) : Moves b.SameRows (b.scanOne query p) := by
  intro r
  unfold scanOne
  rw [bind_apply, read_apply]
  dsimp only
  cases h : b.entryAt r p with
  | none => exact Std.Refl.refl (r := b.SameRows) r
  | some e =>
    dsimp only
    split
    · next hexpired =>
      have hsame := b.sameRows_lazyDelete h hexpired
      rw [bind_apply]
      rcases hrun : b.lazyDelete p r with ⟨e' | u, r'⟩
      · rw [hrun] at hsame
        exact hsame
      · rw [hrun] at hsame
        exact hsame
    · split
      · exact Std.Refl.refl (r := b.SameRows) r
      · cases b.decodeKeyFromPhysical p with
        | none => exact Std.Refl.refl (r := b.SameRows) r
        | some key =>
          dsimp only
          split
          · exact ((b.deserializeValue_sameRows e.valueBlob).bind fun _ => Moves.pure _) r
          · exact Std.Refl.refl (r := b.SameRows) r

theorem scanEntries_sameRows (query : ScanQuery K) : Moves b.SameRows (b.scanEntries query) :=
  (Moves.read _).bind fun _ => (Moves.mapM fun p _ => b.scanOne_sameRows query p).bind fun _ => Moves.pure _

end Rows

/-! ## What it shows and lists -/

section Plain

variable {V : Type}

theorem sameFound_of_sameRows {r t : MemoryRoot Char V} (h : (plain V).SameRows r t) : SameFound r t := by
  refine ⟨h.1.1, fun k => ?_⟩
  unfold found
  rw [h.1.1]
  ext e
  rw [Option.filter_eq_some_iff, Option.filter_eq_some_iff]
  constructor
  · intro ⟨he, hlive⟩
    exact ⟨(h.1.2 k e (by simpa using hlive)).mp he, hlive⟩
  · intro ⟨he, hlive⟩
    exact ⟨(h.1.2 k e (by simpa using hlive)).mpr he, hlive⟩

/-- A read that answers alike wherever the same is found. -/
theorem returns_of_found {β : Type} {r : MemoryRoot Char V} {m : M (MemoryRoot Char V) β}
    {answer : MemoryRoot Char V → β} (hread : ∀ t, (m t).1 = .ok (answer t)) (hsame : ∀ t, SameFound r t → answer t = answer r)
    (hkeeps : Moves (plain V).SameRows m) : Returns ((plain V).SameRows r) m fun b => b = answer r := by
  intro t ht
  exact ⟨IsTrans.trans _ _ _ ht (hkeeps t), answer t, hread t, hsame t (sameFound_of_sameRows ht)⟩

theorem shown_isSome (r : MemoryRoot Char V) (k : List Char) :
    ((found r k).map statOf).isSome = (shown r k).isSome := by
  unfold shown
  rw [Option.isSome_map, Option.isSome_map]

/-- A memory store of its own, as it is read. -/
def readStore (V : Type) : ReadStore (MemoryRoot Char V) (List Char) V where
  toReadableKvStore := (plain V).store.readable
  scanRows := (plain V).leafStore.scanRows

theorem plain_shows (r : MemoryRoot Char V) :
    (readStore V).Shows ((plain V).SameRows r) (shown r) fun k => (found r k).map statOf := by
  have hget : ∀ k, Returns ((plain V).SameRows r) ((plain V).get k) fun v => v = shown r k := fun k =>
    returns_of_found (fun t => (get_shown k t).1) (fun t ht => shown_eq ht k) ((plain V).get_sameRows k)
  have hexists : ∀ k, Returns ((plain V).SameRows r) ((plain V).existsKey k)
      fun b => b = ((found r k).map statOf).isSome := by
    intro k
    rw [shown_isSome]
    exact @returns_of_found _ _ r _ (fun t => (shown t k).isSome) (fun t => (existsKey_shown k t).1)
      (fun t ht => by rw [shown_eq ht k]) ((plain V).existsKey_sameRows k)
  have hstat : ∀ k, Returns ((plain V).SameRows r) ((plain V).stat k) fun m => m = (found r k).map statOf := fun k =>
    @returns_of_found _ _ r _ (fun t => (found t k).map statOf) (fun t => (stat_shown k t).1)
      (fun t ht => by rw [ht.2 k]) ((plain V).stat_sameRows k)
  have hbatch : (plain V).batchStat = defaultBatchGet (plain V).stat := by
    funext keys
    unfold batchStat defaultBatchGet
    refine congrArg (fun step => keys.foldlM step Dict.empty) (funext fun out => funext fun key => ?_)
    exact bind_congr fun m => by cases m <;> rfl
  refine ⟨hget, ReadStore.defaultBatchGet_returns hget, hexists, ReadStore.existsEach_returns hexists, hstat, ?_⟩
  show ∀ keys, Returns _ ((plain V).batchStat keys) _
  rw [hbatch]
  exact ReadStore.defaultBatchGet_returns hstat

/-- The keys listed under a prefix, or under none. -/
def keysUnder (r : MemoryRoot Char V) (pre : Option (List Char)) : List (List Char) :=
  ((plain V).livePlaces r).filterMap ((plain V).shownBy pre)

theorem scanEntries_keys (r : MemoryRoot Char V) (pre : Option (List Char)) (n : Nat) :
    Returns ((plain V).SameRows r) ((plain V).scanEntries ⟨pre, false, n⟩)
      fun rows => rows = (keysUnder r pre).map fun k => (k, none) := by
  intro t ht
  have hrows := ((plain V).scanEntries_query (q := ⟨pre, false, n⟩) (r := t) fun hvalues => by cases hvalues).1
  refine ⟨IsTrans.trans _ _ _ ht ((plain V).scanEntries_sameRows _ t), _, hrows, ?_⟩
  rw [ht.2]
  unfold keysUnder
  rw [List.map_filterMap]
  rfl

theorem keysUnder_eq (r : MemoryRoot Char V) (pre : Option (List Char)) :
    keysUnder r pre = ((plain V).livePlaces r).filter fun p => decide (pre.getD [] <+: p) := by
  have hunder : (plain V).scanPrefixBlob pre = pre.getD [] := by
    cases pre <;> rfl
  unfold keysUnder
  rw [← List.filterMap_eq_filter]
  refine List.filterMap_congr fun p _ => ?_
  have hdecode : (plain V).decodeKeyFromPhysical p = some p := rfl
  unfold KvBackend.shownBy Option.guard
  rw [hunder, hdecode]
  by_cases h : pre.getD [] <+: p <;> simp [h]

theorem keysUnder_nodup (r : MemoryRoot Char V) (pre : Option (List Char)) : (keysUnder r pre).Nodup := by
  rw [keysUnder_eq]
  exact ((r.bucket (plain V).collection).nodup.filter _).filter _

theorem mem_keysUnder {r : MemoryRoot Char V} {pre : Option (List Char)} {k : List Char} (h : k ∈ keysUnder r pre) :
    pre.all (fun pre => ScanKey.startsWith k pre) = true := by
  rw [keysUnder_eq, List.mem_filter, decide_eq_true_eq] at h
  cases pre with
  | none => rfl
  | some pre => exact List.isPrefixOf_iff_prefix.mpr h.2

/-- The keys a scan gives, for a spec that asks about keys alone. -/
def rowKeys (r : MemoryRoot Char V) (spec : ScanSpec (List Char) V) : Except Exn (List (List Char)) := do
  enforceOrderBySupported spec none "MemoryKvBackend"
  enforceStrict spec spec.where_.peelKeyPrefix.2 "MemoryKvStore"
  let rows := afterCursor spec.cursor ((keysUnder r spec.where_.peelKeyPrefix.1).map fun k => bareRow (k, none))
  return (rows.filter spec.where_.peelKeyPrefix.2.evaluate).map fun row => row.key

theorem rowKeys_ok {r : MemoryRoot Char V} {spec : ScanSpec (List Char) V} {keys : List (List Char)}
    (h : rowKeys r spec = .ok keys) :
    enforceOrderBySupported spec none "MemoryKvBackend" = .ok () ∧
    enforceStrict spec spec.where_.peelKeyPrefix.2 "MemoryKvStore" = .ok () ∧
    keys = ((afterCursor spec.cursor ((keysUnder r spec.where_.peelKeyPrefix.1).map fun k => bareRow (k, none))).filter
      spec.where_.peelKeyPrefix.2.evaluate).map fun row => row.key := by
  unfold rowKeys at h
  cases horder : enforceOrderBySupported spec none "MemoryKvBackend" with
  | error e =>
    rw [horder] at h
    cases h
  | ok u =>
    cases hstrict : enforceStrict spec spec.where_.peelKeyPrefix.2 "MemoryKvStore" with
    | error e =>
      rw [horder, hstrict] at h
      cases h
    | ok u' =>
      rw [horder, hstrict] at h
      exact ⟨rfl, rfl, (Except.ok.inj h).symm⟩

theorem afterCursor_sublist {K W : Type} [DecidableEq K] [ScanKey K] (cursor : Option String)
    (rows : List (ScanRow K W)) : (afterCursor cursor rows).Sublist rows := by
  unfold afterCursor
  split
  · exact List.Sublist.refl _
  · exact (List.tail_sublist _).trans (List.dropWhile_sublist _)

/-- The rows a key half goes over have the keys listed under its prefix, or the later of them. -/
theorem listedRows_keys (r : MemoryRoot Char V) (pre : Option (List Char)) (cursor : Option String) :
    ((afterCursor cursor ((keysUnder r pre).map fun k => (bareRow (k, none) : ScanRow (List Char) V))).map
      fun row => row.key).Sublist (keysUnder r pre) := by
  have hsub := (afterCursor_sublist cursor ((keysUnder r pre).map fun k =>
    (bareRow (k, none) : ScanRow (List Char) V))).map fun row => row.key
  rw [List.map_map] at hsub
  exact hsub.trans (by rw [show _ ∘ _ = id from rfl, List.map_id])

/-- What is left of a key half to filter by. -/
theorem keyHalf_residual {K W U : Type} (spec : ScanSpec K U) :
    (spec.keyHalf : ScanSpec K W).where_.peelKeyPrefix.2.isKeyOnly = true := by
  refine isKeyOnly_peelKeyPrefix ?_
  show (spec.where_.splitKeyPredicates.1.overKeys : Predicate K W).isKeyOnly = true
  rw [Predicate.isKeyOnly_overKeys]
  exact Predicate.isKeyOnly_splitKeyPredicates _

theorem needs_of_keyOnly {K W : Type} {p : Predicate K W} (h : p.isKeyOnly = true) : p.needs.value = false := by
  induction p with
  | and l r ihl ihr =>
    have hboth : (l.isKeyOnly && r.isKeyOnly) = true := h
    rw [Bool.and_eq_true] at hboth
    show (l.needs.value || r.needs.value) = false
    rw [ihl hboth.1, ihr hboth.2]
    rfl
  | or l r ihl ihr =>
    have hboth : (l.isKeyOnly && r.isKeyOnly) = true := h
    rw [Bool.and_eq_true] at hboth
    show (l.needs.value || r.needs.value) = false
    rw [ihl hboth.1, ihr hboth.2]
    rfl
  | not p ih => exact ih h
  | stat name test => cases h
  | value name test => cases h
  | _ => rfl

/-- What passes of rows that are asked for by their keys alone. -/
theorem given_keys {K W : Type} [ScanKey K] {half : ScanSpec K W} (hproject : half.project = .keys)
    (hrefine : half.refine = none) (hlimit : half.limit = none) {residual : Predicate K W}
    (hresidual : residual.isKeyOnly = true) (content : K → Option W) (rows : List (ScanRow K W)) :
    (cut (half.call residual) (rows.filterMap (judge (half.call residual) content))).map (fun row => row.key) =
      (rows.filter residual.evaluate).map fun row => row.key := by
  have huncut : cut (half.call residual) (rows.filterMap (judge (half.call residual) content)) =
      rows.filterMap (judge (half.call residual) content) := by
    unfold cut ScanSpec.call
    rw [hlimit]
  rw [huncut, List.map_filterMap, ← List.filterMap_eq_map, List.filterMap_filter]
  refine List.filterMap_congr fun row _ => ?_
  unfold judge CascadeCall.refined ScanSpec.call
  rw [needs_of_keyOnly hresidual, hrefine, hproject, if_neg Bool.false_ne_true, Option.all_none, Bool.and_true]
  cases residual.evaluate row <;> rfl

/-- The rows a memory store brings for a spec that asks for keys alone. -/
theorem listed_keys (r : MemoryRoot Char V) {half : ScanSpec (List Char) V} (hproject : half.project = .keys) :
    Returns ((plain V).SameRows r) (do
      let entries ← (plain V).scanEntries ⟨half.where_.peelKeyPrefix.1, half.project = .entries, half.pageSize⟩
      return afterCursor half.cursor (entries.map bareRow))
    fun rows => rows = afterCursor half.cursor
      ((keysUnder r half.where_.peelKeyPrefix.1).map fun k => bareRow (k, none)) := by
  rw [hproject]
  refine (scanEntries_keys r half.where_.peelKeyPrefix.1 half.pageSize).bind fun entries hentries => Returns.pure ?_
  rw [hentries, List.map_map]
  rfl

theorem scans_rowKeys (r : MemoryRoot Char V) {U : Type} (spec : ScanSpec (List Char) U) :
    Yields ((plain V).SameRows r) (List.map (fun row => row.key) <$> (readStore V).scanRows spec.keyHalf)
      (rowKeys r spec.keyHalf) := by
  have hresidual : (spec.keyHalf : ScanSpec (List Char) V).where_.peelKeyPrefix.2.isKeyOnly = true :=
    keyHalf_residual spec
  generalize hhalf : (spec.keyHalf : ScanSpec (List Char) V) = half at hresidual
  have hproject : half.project = .keys := by rw [← hhalf]; rfl
  have hrefine : half.refine = none := by rw [← hhalf]; rfl
  have hlimit : half.limit = none := by rw [← hhalf]; rfl
  show Yields _ (List.map (fun row => row.key) <$> (plain V).leafStore.scanRows half) _
  unfold LeafKvStore.scanRows rowKeys
  cases horder : enforceOrderBySupported half none "MemoryKvBackend" with
  | error e =>
    intro t _
    have hraised : (ofExcept (enforceOrderBySupported half (plain V).leafStore.orderableColumns
        (plain V).leafStore.backend) : M (MemoryRoot Char V) Unit) t = (.error e, t) := congrArg (·, t) horder
    rw [map_apply, bind_error hraised]
    exact ⟨rfl, fun hok => by cases hok⟩
  | ok u =>
    have hordered : ∀ t, (ofExcept (enforceOrderBySupported half (plain V).leafStore.orderableColumns
        (plain V).leafStore.backend) : M (MemoryRoot Char V) Unit) t = (.ok u, t) := fun t => congrArg (·, t) horder
    have hcompiled : (plain V).leafStore.listing.compileScan half =
        (enforceStrict half half.where_.peelKeyPrefix.2 "MemoryKvStore").bind fun _ =>
          .ok ⟨do
            let entries ← (plain V).scanEntries ⟨half.where_.peelKeyPrefix.1, half.project = .entries, half.pageSize⟩
            return afterCursor half.cursor (entries.map bareRow), half.where_.peelKeyPrefix.2⟩ := rfl
    rw [hcompiled]
    cases hstrict : enforceStrict half half.where_.peelKeyPrefix.2 "MemoryKvStore" with
    | error e =>
      intro t _
      rw [map_apply, bind_ok (hordered t)]
      exact ⟨rfl, fun hok => by cases hok⟩
    | ok u' =>
      have hlisted := listed_keys r hproject
      have hnodup := (keysUnder_nodup r half.where_.peelKeyPrefix.1).sublist
        (listedRows_keys r half.where_.peelKeyPrefix.1 half.cursor)
      have hscan : Returns ((plain V).SameRows r) (do
          let rows ← (do
            let entries ← (plain V).scanEntries ⟨half.where_.peelKeyPrefix.1, half.project = .entries, half.pageSize⟩
            return afterCursor half.cursor (entries.map bareRow))
          applyCascade (half.call half.where_.peelKeyPrefix.2) (some (plain V).batchGet) rows)
          fun rows => rows.map (fun row => row.key) = ((afterCursor half.cursor
            ((keysUnder r half.where_.peelKeyPrefix.1).map fun k => bareRow (k, none))).filter
              half.where_.peelKeyPrefix.2.evaluate).map fun row => row.key := by
        refine hlisted.bind fun rows hrows => ?_
        rw [← hrows] at hnodup ⊢
        refine (cascade_returns (half.call half.where_.peelKeyPrefix.2) _ (plain_shows r).steady rows
          (noneTwice_of_listed hnodup)).congr fun out hout => ?_
        rw [hout, given_keys hproject hrefine hlimit hresidual]
      refine Yields.of_returns (Returns.map (p := fun rows => rows.map (fun row => row.key) = _) ?_
        fun rows hrows => hrows)
      intro t ht
      rw [bind_ok (hordered t)]
      exact hscan t ht

/-- A memory store is read through for what is live in it. -/
def plainSource (r : MemoryRoot Char V) : Source ((plain V).SameRows r) (List Char) V where
  store := readStore V
  content := shown r
  stats k := (found r k).map statOf
  shows_content := plain_shows r
  entryKeys query := .ok (keysUnder r query.keyPrefix)
  lists pre n := by
    refine Yields.of_returns ((scanEntries_keys r pre n).map fun rows hrows => ?_)
    rw [hrows, List.map_map]
    exact List.map_id _
  rowKeys := rowKeys r
  scans := scans_rowKeys r
  nodup spec keys hkeys := by
    obtain ⟨-, -, rfl⟩ := rowKeys_ok hkeys
    exact (keysUnder_nodup r _).sublist ((List.filter_sublist.map _).trans (listedRows_keys r _ _))
  passes spec keys hkeys k hk := by
    obtain ⟨-, -, rfl⟩ := rowKeys_ok hkeys
    obtain ⟨row, hrow, rfl⟩ := List.mem_map.mp hk
    obtain ⟨hlisted, hpassed⟩ := List.mem_filter.mp hrow
    have hkey : row.key ∈ keysUnder r (spec.keyHalf : ScanSpec (List Char) V).where_.peelKeyPrefix.1 :=
      (listedRows_keys r _ _).subset (List.mem_map_of_mem hlisted)
    have hwhere : (spec.keyHalf : ScanSpec (List Char) V).where_.evaluate row = true := by
      rw [Predicate.evaluate_peelKeyPrefix, mem_keysUnder hkey, hpassed]
      rfl
    have hbare : (spec.where_.splitKeyPredicates.1.overKeys : Predicate (List Char) V).evaluate row =
        spec.where_.splitKeyPredicates.1.evaluate (bareRow (row.key, none)) :=
      Predicate.evaluate_overKeys (Predicate.isKeyOnly_splitKeyPredicates _) rfl
    rw [← hbare]
    exact hwhere

end Plain

/-- Two texts. The first names the second, which names none. -/
def pointers : MemoryRoot Char String :=
  ((plain String).set ['b'] "c" ⟨none, none⟩ ((plain String).set ['a'] "b" ⟨none, none⟩ (.empty 0)).2).2

/-- What the text names that a text names. -/
def followed : JoinView ((plain String).SameRows pointers) (List Char) String :=
  .thenWith (.source (plainSource pointers)) (fun _ text => text.toList) (.source (plainSource pointers))

end MemoryKvBackend

end Kvtsjl
