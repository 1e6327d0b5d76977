import Mathlib.Algebra.Ring.Int.Defs
import Kvtsjl.Lib.Paging
import Kvtsjl.Lib.Stable
import Kvtsjl.VectorIndex

/-
  A search bound to a scope, against the entries written there.
  The bound is a test on text: an id is in bound where the scope's own text begins it, and that text
  does not end with a separator. What was written under the scope is in bound (`Placed`, kept by every
  run of calls). So is an entry of another scope whose text goes on from there, and it takes a place
  among the nearest (`search_iff`).
-/

namespace Kvtsjl

open Assoc (Dict)
open Effects Prog Delimited

/-! ## Where an entry was written -/

namespace VectorRoot

variable {K V D α F : Type} [DecidableEq α]

/-- Every entry has an id that begins with the scope it was last written under. -/
def Placed (s : KvSet K V α V) (root : VectorRoot K D α F) : Prop :=
  ∀ pid vec, root.vectors.get? pid = some vec →
    ∃ scope leaf, root.writers.get? pid = some scope ∧ pid = s.joinParts (s.scopeParts scope ++ [leaf])

def KeepsPlaced (s : KvSet K V α V) (root root' : VectorRoot K D α F) : Prop := root.Placed s → root'.Placed s

instance (s : KvSet K V α V) : Std.Refl (KeepsPlaced (D := D) (F := F) s) := ⟨fun _ h => h⟩

instance (s : KvSet K V α V) : IsTrans (VectorRoot K D α F) (KeepsPlaced s) := ⟨fun _ _ _ h h' hp => h' (h hp)⟩

/-- The entry was written under the scope, or one that extends it. -/
def writtenWithin (root : VectorRoot K D α F) (scope : Scope) (pid : List α) : Bool :=
  match root.writers.get? pid with
  | none => false
  | some writer => writer.Extends scope

theorem placed_empty (s : KvSet K V α V) : (empty : VectorRoot K D α F).Placed s := by
  intro pid vec h
  cases h

theorem Placed.put {s : KvSet K V α V} {root : VectorRoot K D α F} (h : root.Placed s) (scope : Scope)
    (leaf : List α) (key : K) (data : D) (document : Option String) (emb : List F) :
    (root.put (s.joinParts (s.scopeParts scope ++ [leaf])) scope key data document emb).Placed s := by
  intro pid vec hvec
  unfold VectorRoot.put at hvec ⊢
  rw [Dict.get?_set] at hvec ⊢
  split at hvec
  · next hpid =>
    rw [if_pos hpid]
    exact ⟨scope, leaf, rfl, hpid⟩
  · next hpid =>
    rw [if_neg hpid]
    exact h pid vec hvec

theorem Placed.amend {s : KvSet K V α V} {root : VectorRoot K D α F} (h : root.Placed s) (pid : List α)
    (data : D) : (root.amend pid data).Placed s := by
  intro p vec hvec
  rw [vectors_amend] at hvec
  rw [writers_amend]
  exact h p vec hvec

theorem Placed.drop {s : KvSet K V α V} {root : VectorRoot K D α F} (h : root.Placed s) (pid : List α) :
    (root.drop pid).Placed s := by
  intro p vec hvec
  unfold VectorRoot.drop at hvec ⊢
  rw [Dict.get?_erase] at hvec ⊢
  split at hvec
  · cases hvec
  · next hp =>
    rw [if_neg hp]
    exact h p vec hvec

end VectorRoot

namespace MemoryVectorIndex

open VectorRoot

variable {K V D α F Q : Type} [DecidableEq α]

theorem parts_of_wire {i j : MemoryVectorIndex K V D α F Q} (h : j.indexSet.wire = i.indexSet.wire)
    (scope : Scope) (leaf : List α) :
    j.indexSet.wireRef.joinParts (j.indexSet.wireRef.scopeParts scope ++ [leaf]) =
      i.indexSet.wireRef.joinParts (i.indexSet.wireRef.scopeParts scope ++ [leaf]) := by
  unfold KvSet.joinParts KvSet.scopeParts KvSet.escapeSegment IndexSet.wireRef
  simp only [h]

theorem placed_run [DecidableEq K] [EntryData D] {i j : MemoryVectorIndex K V D α F Q} (h : j.indexSet.wire = i.indexSet.wire)
    (call : VectorCall K V D F) : Moves (KeepsPlaced i.indexSet.wireRef) (call.run j) := by
  refine call.moves (fun key _ root data document emb hp => ?_) (fun key _ root data hp => hp.amend _ _)
    fun key _ root hp => hp.drop _
  unfold physicalIdBlob
  rw [parts_of_wire h]
  exact hp.put _ _ _ _ _ _

/-- Whatever is called in whatever order, every entry's id begins with its own scope. -/
theorem placed_runCalls [DecidableEq K] [EntryData D] (i : MemoryVectorIndex K V D α F Q)
    {calls : List (MemoryVectorIndex K V D α F Q × VectorCall K V D F)}
    (h : ∀ c ∈ calls, c.1.indexSet.wire = i.indexSet.wire) :
    (runCalls calls (empty : VectorRoot K D α F)).Placed i.indexSet.wireRef :=
  runCalls_moves (fun c hc => placed_run (h c hc) c.2) _ (placed_empty _)

/-- What was written under the scope is in bound. -/
theorem inBound_of_writtenWithin {i : MemoryVectorIndex K V D α F Q} {root : VectorRoot K D α F}
    (hplaced : root.Placed i.indexSet.wireRef) {pid : List α} {vec : List F} (hvec : root.vectors.get? pid = some vec)
    (h : root.writtenWithin i.scope pid = true) : i.inBoundScopeId pid = true := by
  obtain ⟨scope, leaf, hwriter, hpid⟩ := hplaced pid vec hvec
  unfold writtenWithin at h
  rw [hwriter] at h
  obtain ⟨more, hmore⟩ := of_decide_eq_true h
  unfold inBoundScopeId
  split
  · rfl
  · refine decide_eq_true ?_
    have hparts : i.indexSet.wireRef.scopeParts scope =
        i.indexSet.wireRef.scopeParts i.scope ++ i.indexSet.wireRef.scopeParts ⟨more⟩ := by
      unfold KvSet.scopeParts
      rw [← hmore, List.flatMap_append]
    rw [hpid, hparts, List.append_assoc]
    exact join_prefix _ _ _

/-! ## The nearest entries -/

section Nearest

variable (hasContent : Q → Bool) (norm : List (F × F) → Except Exn F)

/-- The entry as a hit, where its vector can be compared with the query's. -/
def entryRow (root : VectorRoot K D α F) (qEmb : List F) (e : List α × List F) : Option (Scored K D α F) :=
  match root.records.get? e.1, l2Distance norm qEmb e.2 with
  | some (key, stored), .ok rank => some ⟨e.1, rank, key, { stored with score := some rank }⟩
  | _, _ => none

def entryRows (root : VectorRoot K D α F) (qEmb : List F) : List (Scored K D α F) :=
  root.vectors.entries.filterMap (entryRow norm root qEmb)

variable [LinearOrder F]

/-- As near or nearer. -/
def asNear (x y : Scored K D α F) : Bool := x.rank ≤ y.rank

/-- The first `n`, by distance, of the entries written under the scope or an extension of it. Entries as
    near as each other come in the order they were made in. -/
def nearest (root : VectorRoot K D α F) (scope : Scope) (qEmb : List F) (n : Nat) : List (Scored K D α F) :=
  (((entryRows norm root qEmb).filter fun row => root.writtenWithin scope row.pid).mergeSort asNear).take n

/-- One entry comes before another: it is nearer, or as near and made before it. -/
def Ahead (root : VectorRoot K D α F) (qEmb : List F) (x y : Scored K D α F) : Prop :=
  x.rank < y.rank ∨ x.rank = y.rank ∧ List.Sublist [x, y] (entryRows norm root qEmb)

/-- The search answers with the nearest of its scope. -/
def ServesScope (i : MemoryVectorIndex K V D α F Q) (root : VectorRoot K D α F) (query : Query Q F)
    (qEmb : List F) (limit : Int) : Prop :=
  i.found hasContent norm root query limit = .ok (nearest norm root i.scope qEmb limit.toNat) ∧
  i.search hasContent norm root query limit =
    .ok ((nearest norm root i.scope qEmb limit.toNat).map Scored.hit)

/-- Every entry in bound has a vector of the query's length, and one in bound that is of another scope
    has as many entries of this one ahead of it as the search may answer with. -/
def Served (i : MemoryVectorIndex K V D α F Q) (root : VectorRoot K D α F) (qEmb : List F) (limit : Int) : Prop :=
  (∀ pid vec, root.vectors.get? pid = some vec → i.inBoundScopeId pid = true →
    ∃ rank, l2Distance norm qEmb vec = .ok rank) ∧
  ∀ x ∈ entryRows norm root qEmb, i.inBoundScopeId x.pid = true → root.writtenWithin i.scope x.pid = false →
    ∃ ys : List (Scored K D α F), ys.Nodup ∧ ys.length = limit.toNat ∧ ∀ y ∈ ys, y ∈ entryRows norm root qEmb ∧
      root.writtenWithin i.scope y.pid = true ∧ Ahead norm root qEmb y x

variable {hasContent norm} {i : MemoryVectorIndex K V D α F Q} {root : VectorRoot K D α F} {qEmb : List F}

section Rows

omit [LinearOrder F]

theorem pid_of_entryRow {e : List α × List F} {row : Scored K D α F} (h : entryRow norm root qEmb e = some row) :
    row.pid = e.1 := by
  unfold entryRow at h
  split at h
  · rw [← Option.some.inj h]
  · cases h

theorem nodup_entryRows : (entryRows norm root qEmb).Nodup := by
  have hkeys : root.vectors.entries.Pairwise fun e e' => e.1 ≠ e'.1 :=
    List.pairwise_map.mp root.vectors.nodup
  refine hkeys.filterMap _ fun e e' hne x hx y hy hxy => hne ?_
  rw [← pid_of_entryRow hx, ← pid_of_entryRow hy, hxy]

theorem mem_entryRows {x : Scored K D α F} (h : x ∈ entryRows norm root qEmb) :
    ∃ vec, root.vectors.get? x.pid = some vec := by
  obtain ⟨e, he, hrow⟩ := List.mem_filterMap.mp h
  rw [pid_of_entryRow hrow]
  exact ⟨e.2, Dict.mem_entries.mp he⟩

end Rows

theorem ranked_ok (h : ∀ pid vec, root.vectors.get? pid = some vec → i.inBoundScopeId pid = true →
    ∃ rank, l2Distance norm qEmb vec = .ok rank) : i.ranked norm root qEmb =
      .ok (((entryRows norm root qEmb).filter fun row => i.inBoundScopeId row.pid).mergeSort asNear) := by
  have hscore : ∀ e ∈ root.vectors.entries, i.score norm root qEmb e =
      .ok ((entryRow norm root qEmb e).filter fun row => i.inBoundScopeId row.pid) := by
    intro e he
    have hvec := Dict.mem_entries.mp he
    obtain ⟨entry, hrecord, -⟩ := VectorRoot.record_of_vector hvec
    unfold score entryRow
    rw [hrecord]
    cases hin : i.inBoundScopeId e.1 with
    | true =>
      obtain ⟨rank, hrank⟩ := h e.1 e.2 hvec hin
      rw [hrank]
      simp only [Option.filter, hin, if_true]
      rfl
    | false =>
      cases l2Distance norm qEmb e.2 with
      | error err => rfl
      | ok rank => simp only [Option.filter, hin, Bool.false_eq_true, if_false]
  unfold ranked entryRows
  rw [exceptMapM_ok hscore, List.filter_filterMap]
  refine congrArg (fun rows : List (Scored K D α F) => Except.ok (rows.mergeSort asNear)) ?_
  rw [List.filterMap_map]
  rfl

theorem measured_of_ranked {rows : List (Scored K D α F)} (h : i.ranked norm root qEmb = .ok rows) {pid : List α}
    {vec : List F} (hvec : root.vectors.get? pid = some vec) (hin : i.inBoundScopeId pid = true) :
    ∃ rank, l2Distance norm qEmb vec = .ok rank := by
  unfold ranked at h
  cases hscored : root.vectors.entries.mapM (i.score norm root qEmb) with
  | error e => rw [hscored] at h; cases h
  | ok scored =>
    obtain ⟨n, hn, hget⟩ := List.mem_iff_getElem.mp (Dict.mem_entries.mpr hvec)
    have hall := forall₂_of_mapM hscored
    have hscore := hall.get hn (by rw [← hall.length_eq]; exact hn)
    rw [List.get_eq_getElem, hget] at hscore
    obtain ⟨entry, hrecord, -⟩ := VectorRoot.record_of_vector hvec
    unfold score at hscore
    rw [hrecord] at hscore
    simp only [hin, if_true] at hscore
    cases hd : l2Distance norm qEmb vec with
    | error e => rw [hd] at hscore; cases hscore
    | ok rank => exact ⟨rank, rfl⟩

theorem ahead_asymm (x y : Scored K D α F) (h : Ahead norm root qEmb x y) : ¬ Ahead norm root qEmb y x := by
  rintro (hlt | ⟨heq, hsub⟩)
  · rcases h with h | ⟨h, -⟩
    · exact lt_asymm h hlt
    · exact absurd hlt (by rw [h]; exact lt_irrefl _)
  · rcases h with h | ⟨-, h⟩
    · exact absurd h (by rw [heq]; exact lt_irrefl _)
    · exact Stable.pair_sublist_asymm nodup_entryRows h hsub

omit [DecidableEq α] in
theorem asNear_trans (x y z : Scored K D α F) (h : asNear x y = true) (h' : asNear y z = true) :
    asNear x z = true := decide_eq_true (le_trans (of_decide_eq_true h) (of_decide_eq_true h'))

omit [DecidableEq α] in
theorem asNear_total (x y : Scored K D α F) : (asNear x y || asNear y x) = true := by
  rw [Bool.or_eq_true]
  exact (le_total x.rank y.rank).imp decide_eq_true decide_eq_true

/-- Sorted by distance, of any two entries the first is ahead. -/
theorem pairwise_ahead (p : Scored K D α F → Bool) :
    (((entryRows norm root qEmb).filter p).mergeSort asNear).Pairwise (Ahead norm root qEmb) := by
  have hnodup : ((entryRows norm root qEmb).filter p).Nodup := nodup_entryRows.filter p
  have hstand : ((entryRows norm root qEmb).filter p).Pairwise fun x y => asNear x y = true →
      asNear y x = true → List.Sublist [x, y] (entryRows norm root qEmb) :=
    List.pairwise_iff_forall_sublist.mpr fun h _ _ => h.trans List.filter_sublist
  refine (Stable.pairwise_mergeSort asNear_trans asNear_total hnodup hstand).imp fun {x y} h => ?_
  have hle : x.rank ≤ y.rank := of_decide_eq_true h.1
  rcases lt_or_eq_of_le hle with hlt | heq
  · exact .inl hlt
  · exact .inr ⟨heq, h.2 (decide_eq_true (ge_of_eq heq))⟩

/-- A search for a query that has a vector. -/
theorem found_eq {query : Query Q F} (hquery : i.resolveQueryEmbedding hasContent query = some qEmb) {limit : Int}
    (hlimit : ¬ limit ≤ 0) : i.found hasContent norm root query limit =
      (i.ranked norm root qEmb).map fun rows => rows.take limit.toNat := by
  unfold found
  rw [if_neg hlimit, hquery]

/-- Over a collection whose entries are placed, a search answers for its scope exactly where no entry of
    another scope is among the nearest in bound. -/
theorem search_iff_of_placed (hplaced : root.Placed i.indexSet.wireRef) {query : Query Q F}
    (hquery : i.resolveQueryEmbedding hasContent query = some qEmb) (limit : Int) :
    ServesScope hasContent norm i root query qEmb limit ↔ limit ≤ 0 ∨ Served norm i root qEmb limit := by
  by_cases hlimit : limit ≤ 0
  · refine iff_of_true ?_ (.inl hlimit)
    have hfound : i.found hasContent norm root query limit = .ok [] := by
      unfold found
      rw [if_pos hlimit]
    unfold ServesScope search nearest
    rw [hfound, Int.toNat_of_nonpos hlimit, List.take_zero]
    exact ⟨rfl, rfl⟩
  rw [or_iff_right hlimit]
  have hsearch : ServesScope hasContent norm i root query qEmb limit ↔
      i.found hasContent norm root query limit = .ok (nearest norm root i.scope qEmb limit.toNat) :=
    and_iff_left_of_imp fun h => by
      unfold search
      rw [h]
      rfl
  rw [hsearch, found_eq hquery hlimit]
  by_cases hmeasured : ∀ pid vec, root.vectors.get? pid = some vec → i.inBoundScopeId pid = true →
      ∃ rank, l2Distance norm qEmb vec = .ok rank
  · have hown : ∀ x ∈ entryRows norm root qEmb, root.writtenWithin i.scope x.pid = true →
        i.inBoundScopeId x.pid = true := by
      intro x hx h
      obtain ⟨vec, hvec⟩ := mem_entryRows hx
      exact inBound_of_writtenWithin hplaced hvec h
    have hnearest : nearest norm root i.scope qEmb limit.toNat =
        ((((entryRows norm root qEmb).filter fun row => i.inBoundScopeId row.pid).mergeSort asNear).filter
          fun row => root.writtenWithin i.scope row.pid).take limit.toNat := by
      unfold nearest
      rw [← Stable.mergeSort_filter asNear_trans asNear_total _ (nodup_entryRows.filter _), List.filter_filter]
      refine congrArg (fun rows : List (Scored K D α F) => (rows.mergeSort asNear).take limit.toNat) ?_
      refine List.filter_congr fun x hx => ?_
      cases h : root.writtenWithin i.scope x.pid with
      | true => rw [hown x hx h]; rfl
      | false => rfl
    have hmem : ∀ x, x ∈ ((entryRows norm root qEmb).filter fun row => i.inBoundScopeId row.pid).mergeSort asNear ↔
        x ∈ entryRows norm root qEmb ∧ i.inBoundScopeId x.pid = true := by
      intro x
      rw [List.mem_mergeSort, List.mem_filter]
    have hsorted : (((entryRows norm root qEmb).filter fun row => i.inBoundScopeId row.pid).mergeSort
        asNear).Pairwise (Ahead norm root qEmb) := pairwise_ahead _
    have hfirst := Stable.forall_take_iff ahead_asymm hsorted
      (p := fun row => root.writtenWithin i.scope row.pid = true) limit.toNat
    rw [ranked_ok hmeasured]
    constructor
    · intro h
      have heq := Except.ok.inj h
      refine ⟨hmeasured, fun x hx hin hout => ?_⟩
      have hall := hfirst.mp fun y hy => by
        have hy' : y ∈ nearest norm root i.scope qEmb limit.toNat := by
          rw [← heq]
          exact hy
        rw [hnearest] at hy'
        exact (List.mem_filter.mp (List.mem_of_mem_take hy')).2
      obtain ⟨ys, hys, hlen, hahead⟩ := hall x ((hmem x).mpr ⟨hx, hin⟩) (by rw [hout]; exact Bool.false_ne_true)
      exact ⟨ys, hys, hlen, fun y hy => ⟨((hmem y).mp (hahead y hy).1).1, (hahead y hy).2⟩⟩
    · rintro ⟨-, hstray⟩
      have hall := hfirst.mpr fun x hx hnot => by
        obtain ⟨hrow, hin⟩ := (hmem x).mp hx
        obtain ⟨ys, hys, hlen, hahead⟩ := hstray x hrow hin (by simpa using hnot)
        refine ⟨ys, hys, hlen, fun y hy => ?_⟩
        obtain ⟨hyrow, hywithin, hlt⟩ := hahead y hy
        exact ⟨(hmem y).mpr ⟨hyrow, hown y hyrow hywithin⟩, hywithin, hlt⟩
      rw [hnearest, Paging.filter_take_iff.mpr (.inl hall), List.filter_eq_self.mpr hall]
      rfl
  · refine iff_of_false (fun h => ?_) fun h => hmeasured h.1
    cases hranked : i.ranked norm root qEmb with
    | error e => rw [hranked] at h; cases h
    | ok rows => exact hmeasured fun pid vec hvec hin => measured_of_ranked hranked hvec hin

/-- After any run of calls on a collection, under any scopes and through any views of it. -/
theorem search_iff [DecidableEq K] [EntryData D] (i : MemoryVectorIndex K V D α F Q)
    {calls : List (MemoryVectorIndex K V D α F Q × VectorCall K V D F)}
    (hcalls : ∀ c ∈ calls, c.1.indexSet.wire = i.indexSet.wire) {query : Query Q F} {qEmb : List F}
    (hquery : i.resolveQueryEmbedding hasContent query = some qEmb) (limit : Int) :
    ServesScope hasContent norm i (runCalls calls empty) query qEmb limit ↔
      limit ≤ 0 ∨ Served norm i (runCalls calls empty) qEmb limit :=
  search_iff_of_placed (placed_runCalls i hcalls) hquery limit

end Nearest

/-! ## Two users -/

/-- The distance of two numbers. -/
def apart (pairs : List (Int × Int)) : Except Exn Int := .ok (pairs.map fun p => ((p.1 - p.2).natAbs : Int)).sum

def userScope (name : String) : Scope := ⟨[⟨"user", name⟩]⟩

/-- One note of one user. -/
def noteOf (name : String) (n : Int) :
    List (MemoryVectorIndex (List Char) Int (Dict String String) Char Int String ×
      VectorCall (List Char) Int (Dict String String) Int) :=
  [(notes (userScope name), .upsert ['x'] n ⟨Dict.empty, none, none, none⟩)]

def aliceRow : Scored (List Char) (Dict String String) Char Int :=
  ⟨"user:alice:x".toList, 7, ['x'], ⟨Dict.empty, none, some [7], some 7⟩⟩

/-- A note of `alice`, and one of `bob`. -/
def bothNotes : VectorRoot (List Char) (Dict String String) Char Int :=
  runCalls (noteOf "alice" 7 ++ noteOf "bob" 3) empty

theorem search_iff_notes :
    ServesScope (fun _ => true) apart (notes (userScope "bob")) bothNotes ⟨none, some [0]⟩ [0] 10 := by
  refine (search_iff (notes (userScope "bob")) (fun c hc => ?_) rfl 10).mpr (.inr ⟨fun pid vec hvec _ => ?_, ?_⟩)
  · rcases List.mem_append.mp hc with hc | hc
    · rw [List.mem_singleton.mp hc]
      rfl
    · rw [List.mem_singleton.mp hc]
  · have hmem : (pid, vec) ∈ [("user:alice:x".toList, [(7 : Int)]), ("user:bob:x".toList, [3])] :=
      Dict.mem_entries.mpr hvec
    rcases List.mem_cons.mp hmem with h | h
    · cases h
      exact ⟨7, rfl⟩
    · cases List.mem_singleton.mp h
      exact ⟨3, rfl⟩
  · intro x hx hbound hother
    have hrows : x ∈ [aliceRow, ⟨"user:bob:x".toList, 3, ['x'], ⟨Dict.empty, none, some [3], some 3⟩⟩] := hx
    rcases List.mem_cons.mp hrows with rfl | hrow
    · exact absurd hbound (by decide)
    · rw [List.mem_singleton.mp hrow] at hother
      exact absurd hother (by decide)

/-- The only note is one of `alice`, and a search of `al` finds it. -/
theorem search_finds_alice : ¬ ServesScope (fun _ => true) apart (notes (userScope "al"))
    (runCalls (noteOf "alice" 7) empty) ⟨none, some [0]⟩ [0] 10 := by
  intro h
  have hfound := h.1
  have hnone : nearest apart (runCalls (noteOf "alice" 7) empty) (userScope "al") [0] 10 = [] := by
    unfold nearest
    have hrows : ((entryRows apart (runCalls (noteOf "alice" 7) empty) [0]).filter fun row =>
        (runCalls (noteOf "alice" 7) empty).writtenWithin (userScope "al") row.pid) = [] := by rfl
    rw [hrows, List.mergeSort_nil, List.take_nil]
  have hscored : (runCalls (noteOf "alice" 7) empty).vectors.entries.mapM
      ((notes (userScope "al")).score apart (runCalls (noteOf "alice" 7) empty) [0]) =
      .ok [some aliceRow] := by rfl
  have hquery : (notes (userScope "al")).resolveQueryEmbedding (fun _ => true) ⟨none, some [0]⟩ = some [0] := rfl
  have hone : (notes (userScope "al")).found (fun _ => true) apart (runCalls (noteOf "alice" 7) empty)
      ⟨none, some [0]⟩ 10 = .ok [aliceRow] := by
    rw [found_eq hquery (by decide)]
    unfold ranked
    rw [hscored]
    show Except.ok (([aliceRow].mergeSort _).take 10) = _
    rw [List.mergeSort_singleton]
    rfl
  rw [hone] at hfound
  have hsome := Except.ok.inj hfound
  rw [show (10 : Int).toNat = 10 from rfl] at hsome
  exact absurd (hsome.trans hnone) (List.cons_ne_nil _ _)

end MemoryVectorIndex

end Kvtsjl
