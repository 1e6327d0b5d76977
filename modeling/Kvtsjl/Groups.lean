import Kvtsjl.ScopedKeys
import Kvtsjl.ScopedScans

/-
  `group_by`: the rows under one segment of the scope, as one mapping.
  A group is read and replaced through a scan of its scope, and a scan begins at the text of the scope
  without a separator behind it. So a group is its own rows exactly while no place that is listed for one
  id is another's (`groups_iff_apart`). A separator that does not tell segments apart can give two groups
  one place.
-/

namespace Kvtsjl

open Assoc (Dict)
open Delimited Effects Prog

/-- `Scope.extend` -/
def Scope.extend (scope : Scope) (kind id : String) : Scope := ⟨scope.segments ++ [⟨kind, id⟩]⟩

/-! ## The store of groups -/

structure GroupedKvStore (S K V : Type) where
  /-- `_group`: the rows under the extended scope, if they take it. -/
  group : String → Except Exn (KvStore S K V)
  batchSize : Nat

namespace GroupedKvStore

variable {S K V : Type} [DecidableEq K] (G : GroupedKvStore S K V)

/-- `_members` -/
def members (key : String) : M S (List K) := do
  let group ← ofExcept (G.group key)
  let rows ← group.scanEntries ⟨none, false, G.batchSize⟩
  return rows.map Prod.fst

/-- `{k: v for k, v in rows if v is not None}` -/
def mappingOf (rows : List (K × Option V)) : Dict K V :=
  rows.foldl (fun d row => match row.2 with
    | some v => d.set row.1 v
    | none => d) Dict.empty

def get (key : String) : M S (Dict K V) := do
  let group ← ofExcept (G.group key)
  let rows ← group.scanEntries ⟨none, true, G.batchSize⟩
  return mappingOf rows

/-- Write the members given, then delete those no longer among them. -/
def set (key : String) (value : Dict K V) (options : WriteOptions) : M S Unit := do
  let group ← ofExcept (G.group key)
  let held ← G.members key
  when (value.entries ≠ []) (group.batchSet value options)
  let stale := held.filter fun k => (value.get? k).isNone
  when (stale ≠ []) (Functor.discard (group.batchDelete stale))

def delete (key : String) : M S Bool := do
  let held ← G.members key
  if held = [] then return false
  else do
    let group ← ofExcept (G.group key)
    return 0 < (← group.batchDelete held)

/-- What a group reads as, whatever the order of its rows. -/
def mapping (key : String) (s : S) : Except Exn (K → Option V) := (G.get key s).1.map Dict.get?

/-- The laws of a group, in a state: what is set is read, what is deleted reads as empty, and the other
    groups read as they did. -/
structure IsItsRows (ids : Set String) (values : Set (Dict K V)) (s : S) : Prop where
  set : ∀ g ∈ ids, ∀ m ∈ values, ∀ ttl, ∃ s', G.set g m ⟨ttl, none⟩ s = (.ok (), s') ∧
    G.mapping g s' = .ok m.get? ∧ ∀ h ∈ ids, h ≠ g → G.mapping h s' = G.mapping h s
  delete : ∀ g ∈ ids, ∃ found s', G.delete g s = (.ok found, s') ∧
    G.mapping g s' = .ok Dict.empty.get? ∧ ∀ h ∈ ids, h ≠ g → G.mapping h s' = G.mapping h s

/-- The keys a group lists. -/
def memberSet (key : String) (s : S) : Except Exn (Set K) := (G.members key s).1.map fun keys => {k | k ∈ keys}

/-- A write of one group leaves the keys that the others list. -/
structure LeavesOthers (ids : Set String) (values : Set (Dict K V)) (s : S) : Prop where
  set : ∀ g ∈ ids, ∀ m ∈ values, ∀ ttl, ∀ h ∈ ids, h ≠ g →
    G.memberSet h (G.set g m ⟨ttl, none⟩ s).2 = G.memberSet h s
  delete : ∀ g ∈ ids, ∀ h ∈ ids, h ≠ g → G.memberSet h (G.delete g s).2 = G.memberSet h s

/-! ### The mapping of rows -/

theorem get?_foldl_rows (rows : List (K × Option V)) (k : K) : ∀ d : Dict K V,
    (rows.foldl (fun d row => match row.2 with
      | some v => d.set row.1 v
      | none => d) d).get? k = d.get? k ∧ (∀ v, (k, some v) ∉ rows) ∨
    ∃ v, (rows.foldl (fun d row => match row.2 with
      | some v => d.set row.1 v
      | none => d) d).get? k = some v ∧ (k, some v) ∈ rows := by
  induction rows with
  | nil => exact fun d => .inl ⟨rfl, by simp⟩
  | cons row rows ih =>
    intro d
    rw [List.foldl_cons]
    obtain ⟨key, value⟩ := row
    rcases ih (match value with
      | some v => d.set key v
      | none => d) with ⟨hget, hnot⟩ | ⟨v, hget, hmem⟩
    · cases value with
      | none =>
        refine .inl ⟨hget, fun v hv => ?_⟩
        rcases List.mem_cons.mp hv with hv | hv
        · cases hv
        · exact hnot v hv
      | some v =>
        dsimp only at hget ⊢
        rw [Dict.get?_set] at hget
        by_cases hk : k = key
        · rw [if_pos hk] at hget
          exact .inr ⟨v, hget, by rw [hk]; exact List.mem_cons_self⟩
        · rw [if_neg hk] at hget
          refine .inl ⟨hget, fun v' hv' => ?_⟩
          rcases List.mem_cons.mp hv' with hv' | hv'
          · exact hk (Prod.mk.inj hv').1
          · exact hnot v' hv'
    · exact .inr ⟨v, hget, List.mem_cons_of_mem _ hmem⟩

theorem mem_of_get?_mappingOf {rows : List (K × Option V)} {k : K} {v : V}
    (h : (mappingOf rows).get? k = some v) : (k, some v) ∈ rows := by
  rcases get?_foldl_rows rows k Dict.empty with ⟨hget, _⟩ | ⟨v', hget, hmem⟩
  · have hnone : (mappingOf rows).get? k = none := hget
    rw [h] at hnone
    cases hnone
  · have hsome : (mappingOf rows).get? k = some v' := hget
    rw [h] at hsome
    rw [Option.some.inj hsome]
    exact hmem

theorem get?_mappingOf_isSome {rows : List (K × Option V)} {k : K} {v : V} (h : (k, some v) ∈ rows) :
    ((mappingOf rows).get? k).isSome = true := by
  rcases get?_foldl_rows rows k Dict.empty with ⟨_, hnot⟩ | ⟨v', hget, _⟩
  · exact absurd h (hnot v)
  · have hsome : (mappingOf rows).get? k = some v' := hget
    rw [hsome]
    rfl

end GroupedKvStore

/-! ## On a memory store -/

namespace KvSet

variable {K V α VB : Type} [DecidableEq α] (s : KvSet K V α VB)

/-- The parts of a longer scope: those of the segment's kind and before, and the id. -/
theorem scopeParts_extend (scope : Scope) (kind id : String) :
    s.scopeParts (scope.extend kind id) = (s.scopeParts scope ++ [s.escapeSegment kind]) ++ [s.escapeSegment id] := by
  unfold KvSet.scopeParts Scope.extend
  rw [List.flatMap_append, List.append_assoc]
  rfl

/-- Under the one id, what goes on from its text in the other's blob is read, without the separator it begins with. -/
theorem decodeLeafFromInKey_other (g h : String) (scope : Scope) (kind : String) (leaf : List α) (k : K) :
    s.decodeLeafFromInKey (scope.extend kind h) (s.joinParts (s.scopeParts (scope.extend kind g) ++ [leaf])) = some k ↔
      ∃ rest, s.escapeSegment g ++ (s.wire.codes.sep ++ leaf) = s.escapeSegment h ++ rest ∧
        s.readLeaf (scope.extend kind h) rest = some k := by
  have hscope : (scope.extend kind h).segments ≠ [] := by simp [Scope.extend]
  have hparts : s.scopeParts scope ++ [s.escapeSegment kind] ≠ [] := by simp
  have hinKey : s.joinParts (s.scopeParts (scope.extend kind g) ++ [leaf]) =
      s.joinParts (s.scopeParts scope ++ [s.escapeSegment kind]) ++
        (s.wire.codes.sep ++ (s.escapeSegment g ++ (s.wire.codes.sep ++ leaf))) := by
    rw [scopeParts_extend, List.append_assoc]
    exact join_append _ hparts (by simp)
  have hprefix : s.joinParts (s.scopeParts (scope.extend kind h)) =
      s.joinParts (s.scopeParts scope ++ [s.escapeSegment kind]) ++ (s.wire.codes.sep ++ s.escapeSegment h) := by
    rw [scopeParts_extend]
    exact join_append _ hparts (by simp)
  rw [decodeLeafFromInKey_eq_some, or_iff_right fun hnil => hscope hnil.1, and_iff_right hscope, hinKey, hprefix]
  simp only [List.append_assoc, List.append_cancel_left_eq]

/-- Where a character that is in no name separates, a longer id goes on with it behind a shorter one. -/
theorem escapeSegment_append_iff {c : α} (hfree : ∀ name, c ∉ s.escapeSegment name) {g h : String} (hne : h ≠ g)
    {leaf rest' : List α} : s.escapeSegment g ++ c :: leaf = s.escapeSegment h ++ rest' ↔
      ∃ a rest, a ≠ c ∧ s.escapeSegment g = s.escapeSegment h ++ a :: rest ∧ rest' = a :: rest ++ c :: leaf := by
  constructor
  · intro heq
    rcases List.append_eq_append_iff.mp heq with ⟨more, hmore, hsep⟩ | ⟨rest, hrest, htail⟩
    · have hnil : more = [] := by
        cases more with
        | nil => rfl
        | cons a more =>
          rw [List.cons_append, List.cons.injEq] at hsep
          exact absurd (by rw [hmore, hsep.1]; simp) (hfree h)
      rw [hnil, List.append_nil] at hmore
      exact absurd (s.wire.escapeSegment_injective hmore) hne
    · cases rest with
      | nil =>
        rw [List.append_nil] at hrest
        exact absurd (s.wire.escapeSegment_injective hrest).symm hne
      | cons a rest =>
        refine ⟨a, rest, fun ha => hfree g ?_, hrest, htail⟩
        rw [hrest, ha]
        simp
  · intro ⟨a, rest, _, hrest, htail⟩
    rw [hrest, htail, List.append_assoc]

theorem readLeaf_of_ne {c a : α} (hsep : s.wire.codes.sep = [c]) (h : a ≠ c) (scope : Scope) (rest : List α) :
    s.readLeaf scope (a :: rest) = s.keySerde.deserialize (s.maybeUnescape (a :: rest) scope) := by
  have hnot : ¬ [c] <+: a :: rest := by
    rw [List.cons_prefix_cons]
    exact fun hboth => h hboth.1.symm
  have hstrip : s.stripSep (a :: rest) = a :: rest := by
    unfold stripSep stripPrefix
    rw [hsep, if_neg hnot]
    rfl
  unfold readLeaf
  rw [hstrip, if_neg (List.cons_ne_nil _ _)]

/-- Then the leaf of the longer one's blob is read with the rest of that id. -/
theorem readLeaf_other_iff {c : α} (hsep : s.wire.codes.sep = [c]) (hfree : ∀ name, c ∉ s.escapeSegment name)
    {g h : String} (hne : h ≠ g) (scope : Scope) (leaf : List α) (k : K) :
    (∃ rest, s.escapeSegment g ++ (s.wire.codes.sep ++ leaf) = s.escapeSegment h ++ rest ∧
        s.readLeaf scope rest = some k) ↔
      ∃ rest, s.escapeSegment g = s.escapeSegment h ++ rest ∧
        s.keySerde.deserialize (s.maybeUnescape (rest ++ c :: leaf) scope) = some k := by
  rw [hsep]
  constructor
  · intro ⟨rest', hcut, hleaf⟩
    obtain ⟨a, rest, ha, hrest, rfl⟩ := (s.escapeSegment_append_iff hfree hne).mp hcut
    rw [List.cons_append, s.readLeaf_of_ne hsep ha] at hleaf
    exact ⟨a :: rest, hrest, hleaf⟩
  · intro ⟨rest, hrest, hleaf⟩
    have hlonger : s.escapeSegment g ++ c :: leaf = s.escapeSegment h ++ (rest ++ c :: leaf) := by
      rw [hrest, List.append_assoc]
    obtain ⟨a, more, ha, -, heq⟩ := (s.escapeSegment_append_iff hfree hne).mp hlonger
    refine ⟨rest ++ c :: leaf, hlonger, ?_⟩
    rw [heq] at hleaf ⊢
    rw [List.cons_append] at hleaf ⊢
    rw [s.readLeaf_of_ne hsep ha]
    exact hleaf

end KvSet

namespace KvBackend

variable {K V α VB : Type} [DecidableEq α] (b : KvBackend K V α VB)

/-- Under a scope, a key's own place is shown as it unless its leaf is empty. -/
theorem shownBy_keyBlob (h : b.scope.segments ≠ []) (key : K) :
    b.shownBy none (b.keyBlob key) = if b.kvset.keySerde.serialize key = [] then none else some key := by
  have hleaf : b.ownLeaf key = [] ↔ b.kvset.keySerde.serialize key = [] := by
    unfold ownLeaf leafBlob
    split
    · constructor
      · intro hnil
        exact b.kvset.wire.codes.escape_injective (hnil.trans b.kvset.wire.codes.escape_nil.symm)
      · intro hnil
        rw [hnil]
        exact b.kvset.wire.codes.escape_nil
    · rfl
  have hbegins : b.scanPrefixBlob none <+: b.keyBlob key := by
    have hne : b.prefixParts ≠ [] := by
      intro hnil
      have hparts := (List.append_eq_nil_iff.mp hnil).2
      rcases hscope : b.scope with ⟨_ | ⟨g, gs⟩⟩
      · exact h (by rw [hscope])
      · rw [hscope] at hparts
        simp [KvSet.scopeParts] at hparts
    have hfront : b.scanPrefixBlob none = b.kvset.joinParts b.prefixParts := by
      unfold scanPrefixBlob
      exact congrArg _ (List.append_nil _)
    unfold keyBlob
    rw [hfront, itemKeyBlob_eq, front, if_neg hne, List.append_assoc]
    exact List.prefix_append _ _
  unfold shownBy
  rw [if_pos hbegins]
  unfold keyBlob
  rw [decodeKeyFromPhysical_item]
  by_cases hnil : b.kvset.keySerde.serialize key = []
  · rw [if_pos hnil]
    unfold leafRead
    rw [if_neg h, if_pos (hleaf.mpr hnil)]
  · rw [if_neg hnil]
    exact (b.leafRead_ownLeaf key).mpr fun _ hown => hnil (hleaf.mp hown)

end KvBackend

namespace MemoryKvBackend

variable {K V α VB : Type} [DecidableEq α] (b : MemoryKvBackend K V α VB)

/-- What is live at a place. -/
def liveBlob (r : MemoryRoot α VB) (p : List α) : Option VB :=
  ((b.entryAt r p).filter fun e => !expired e r.clock).map fun e => e.valueBlob

theorem liveAt_iff_liveBlob {r : MemoryRoot α VB} {p : List α} : b.LiveAt r p ↔ ∃ blob, b.liveBlob r p = some blob := by
  unfold LiveAt liveBlob
  simp only [Option.map_eq_some_iff, Option.filter_eq_some_iff, Bool.not_eq_true']
  constructor
  · intro ⟨e, he, hlive⟩
    exact ⟨_, e, ⟨he, hlive⟩, rfl⟩
  · intro ⟨_, e, ⟨he, hlive⟩, _⟩
    exact ⟨e, he, hlive⟩

theorem valueAt_of_liveBlob {r : MemoryRoot α VB} {p : List α} {blob : VB} (h : b.liveBlob r p = some blob) :
    b.valueAt r p = b.kvset.valueSerde.deserialize blob := by
  unfold liveBlob at h
  obtain ⟨e, he, hblob⟩ := Option.map_eq_some_iff.mp h
  unfold valueAt
  rw [(Option.filter_eq_some_iff.mp he).1, ← hblob]
  rfl

theorem SamePlaces.liveBlob {r t : MemoryRoot α VB} (h : b.SamePlaces r t) : b.liveBlob t = b.liveBlob r := by
  funext p
  have hlive : (b.entryAt t p).filter (fun e => !expired e t.clock) =
      (b.entryAt r p).filter fun e => !expired e r.clock := by
    rw [h.1]
    ext e
    rw [Option.filter_eq_some_iff, Option.filter_eq_some_iff, Bool.not_eq_true']
    exact and_congr_left fun hexpired => h.2 p e hexpired
  unfold MemoryKvBackend.liveBlob
  rw [hlive]

theorem liveBlob_pop (r : MemoryRoot α VB) (p q : List α) :
    b.liveBlob (r.pop b.collection p) q = if q = p then none else b.liveBlob r q := by
  have hentry : b.entryAt (r.pop b.collection p) q = if q = p then none else b.entryAt r q :=
    MemoryRoot.get?_pop r b.collection p q
  unfold liveBlob
  rw [hentry]
  split <;> rfl

/-- A time to live is a second at least, so what is written now is live. -/
theorem liveBlob_put (r : MemoryRoot α VB) (p q : List α) (blob : VB) (ttl : Option TtlPolicy) :
    b.liveBlob (r.put b.collection p blob (b.expiresAt r ttl none) (clockBase r none)) q =
      if q = p then some blob else b.liveBlob r q := by
  have hentry : b.entryAt (r.put b.collection p blob (b.expiresAt r ttl none) (clockBase r none)) q =
      if q = p then some ⟨r.nextId, blob, b.expiresAt r ttl none, clockBase r none, r.clock⟩ else b.entryAt r q :=
    MemoryRoot.get?_put r b.collection p q blob _ _
  have hlasts : ∀ at_, b.expiresAt r ttl none = some at_ → ¬ at_ ≤ r.clock := by
    intro at_ hat hle
    unfold expiresAt at hat
    obtain ⟨secs, hsecs, rfl⟩ := Option.map_eq_some_iff.mp hat
    unfold resolveTtlSeconds TtlPolicy.ttlSeconds at hsecs
    obtain ⟨d, _, hd⟩ := Option.map_eq_some_iff.mp hsecs
    have hpos : 1 ≤ secs := by
      rw [← hd]
      exact Int.le_max_left 1 _
    have hlater : ∀ now : Int, ¬ now + secs * 1000000 ≤ now := by omega
    exact hlater r.clock hle
  unfold liveBlob
  rw [hentry]
  by_cases hq : q = p
  · rw [if_pos hq, if_pos hq]
    have hfresh : expired (⟨r.nextId, blob, b.expiresAt r ttl none, clockBase r none, r.clock⟩ : Entry VB)
        (r.put b.collection p blob (b.expiresAt r ttl none) (clockBase r none)).clock = false := by
      unfold expired
      rw [MemoryRoot.clock_put]
      dsimp only
      cases hat : b.expiresAt r ttl none with
      | none => rfl
      | some at_ => exact decide_eq_false (hlasts at_ hat)
    rw [Option.filter_some, hfresh]
    rfl
  · rw [if_neg hq, if_neg hq]
    rfl

/-- What time takes, it does not bring back. -/
theorem liveBlob_advance (r : MemoryRoot α VB) (microseconds : Nat) (p : List α) :
    b.liveBlob (r.advance microseconds) p = none ∨ b.liveBlob (r.advance microseconds) p = b.liveBlob r p := by
  have hentry : b.entryAt (r.advance microseconds) p = b.entryAt r p := rfl
  unfold liveBlob
  rw [hentry]
  cases b.entryAt r p with
  | none => exact .inl rfl
  | some e =>
    rw [Option.filter_some, Option.filter_some]
    cases hlater : expired e (r.advance microseconds).clock with
    | true => exact .inl rfl
    | false =>
      have hnow : expired e r.clock = false := by
        unfold expired at hlater ⊢
        cases hat : e.expiresAt with
        | none => rfl
        | some at_ =>
          rw [hat] at hlater
          have hle : ∀ now due : Int, ¬ due ≤ now + microseconds → ¬ due ≤ now := by omega
          exact decide_eq_false (hle r.clock at_ (of_decide_eq_false hlater))
      rw [hnow]
      exact .inr rfl

section Writing

variable [DecidableEq K] {own : K → List α}

/-- The given places have the given blobs, and the others are left. -/
theorem batchSet_liveBlob (hown : ∀ k, b.physicalKeyBlob k = .ok (own k)) (items : Dict K V)
    (ttl : Option TtlPolicy) (r : MemoryRoot α VB) :
    ∃ r', b.batchSet items ⟨ttl, none⟩ r = (.ok (), r') ∧
      (∀ k v, items.get? k = some v → b.liveBlob r' (own k) = some (b.kvset.valueSerde.serialize v)) ∧
      ∀ p, (∀ k ∈ items.keys, p ≠ own k) → b.liveBlob r' p = b.liveBlob r p := by
  have hinjective : Function.Injective own := by
    intro k k' h
    exact b.physicalKeyBlob_injective (hown k) ((hown k').trans (by rw [h]))
  have hloop : ∀ es : List (K × V), (es.map Prod.fst).Nodup → ∀ r : MemoryRoot α VB,
      ∃ r', (forM es fun e => b.set e.1 e.2 ⟨ttl, none⟩ : M (MemoryRoot α VB) PUnit) r = (.ok ⟨⟩, r') ∧
        (∀ k v, (k, v) ∈ es → b.liveBlob r' (own k) = some (b.kvset.valueSerde.serialize v)) ∧
        ∀ p, (∀ k ∈ es.map Prod.fst, p ≠ own k) → b.liveBlob r' p = b.liveBlob r p := by
    intro es
    induction es with
    | nil => exact fun _ r => ⟨r, rfl, by simp, fun _ _ => rfl⟩
    | cons e es ih =>
      intro hn r
      rw [List.map_cons, List.nodup_cons] at hn
      obtain ⟨r', hrun, hset, hleft⟩ := ih hn.2 (b.set e.1 e.2 ⟨ttl, none⟩ r).2
      have hfirst : ∀ p, b.liveBlob (b.set e.1 e.2 ⟨ttl, none⟩ r).2 p =
          if p = own e.1 then some (b.kvset.valueSerde.serialize e.2) else b.liveBlob r p := by
        intro p
        rw [b.set_apply (hown e.1)]
        exact b.liveBlob_put r (own e.1) p _ ttl
      have hok : (b.set e.1 e.2 ⟨ttl, none⟩ r).1 = .ok () := by
        rw [b.set_apply (hown e.1)]
      refine ⟨r', ?_, fun k v hkv => ?_, fun p hp => ?_⟩
      · rw [List.forM_cons, bind_ok (Prod.ext hok rfl)]
        exact hrun
      · rcases List.mem_cons.mp hkv with rfl | hkv
        · rw [hleft _ fun k' hk' h => hn.1 (by rw [hinjective h]; exact hk'), hfirst, if_pos rfl]
        · exact hset k v hkv
      · rw [hleft p fun k hk => hp k (List.mem_cons_of_mem _ hk), hfirst,
          if_neg (hp e.1 List.mem_cons_self)]
  obtain ⟨r', hrun, hset, hleft⟩ := hloop items.entries items.nodup r
  exact ⟨r', hrun, fun k v hkv => hset k v (Dict.mem_entries.mpr hkv), hleft⟩

omit [DecidableEq K] in
/-- The places of the keys are empty, and the others are left. -/
theorem batchDelete_liveBlob (hown : ∀ k, b.physicalKeyBlob k = .ok (own k)) (keys : List K) (r : MemoryRoot α VB) :
    ∃ n r', countTrue b.delete keys r = (.ok n, r') ∧
      ∀ p, b.liveBlob r' p = if p ∈ keys.map own then none else b.liveBlob r p := by
  have hloop : ∀ (ks : List K) (n : Nat) (r : MemoryRoot α VB),
      ∃ m r', (ks.foldlM (fun n key => do
          if ← b.delete key then pure (n + 1) else pure n) n : M (MemoryRoot α VB) Nat) r = (.ok m, r') ∧
        ∀ p, b.liveBlob r' p = if p ∈ ks.map own then none else b.liveBlob r p := by
    intro ks
    induction ks with
    | nil => exact fun n r => ⟨n, r, rfl, fun _ => rfl⟩
    | cons k ks ih =>
      intro n r
      have hdelete := b.delete_apply (hown k) r
      obtain ⟨m, r', hrun, hleft⟩ := ih (if (b.entry r k).isSome then n + 1 else n) (r.pop b.collection (own k))
      refine ⟨m, r', ?_, fun p => ?_⟩
      · rw [List.foldlM_cons, bind_assoc, bind_ok hdelete]
        rw [← hrun]
        split <;> rfl
      · rw [hleft p, b.liveBlob_pop]
        by_cases hp : p = own k <;> simp [hp]
  exact hloop keys 0 r

end Writing

/-- `clone_with_scope` -/
def cloneWithScope (scope : Scope) : Except Exn (MemoryKvBackend K V α VB) :=
  match h : b.kvset.validateScope scope with
  | .ok () => .ok (b.inScope scope h)
  | .error e => .error e

/-- `group_by` -/
def groupBy [DecidableEq K] (by_ : String) (batchSize : Nat) : GroupedKvStore (MemoryRoot α VB) K V where
  group key := (b.cloneWithScope (b.scope.extend by_ key)).map store
  batchSize := batchSize

/-- With the further segment the scope is one that keys are written under. The store refuses to write
    under any other. -/
structure Groups (by_ : String) : Prop where
  valid : ∀ key, b.kvset.validateScope (b.scope.extend by_ key) = .ok ()
  writes : ∀ key, b.kvset.Writes (b.scope.extend by_ key)

theorem cloneWithScope_ok {scope : Scope} (h : b.kvset.validateScope scope = .ok ()) :
    b.cloneWithScope scope = .ok (b.inScope scope h) := by
  unfold cloneWithScope
  split
  · rfl
  · next e he =>
    rw [h] at he
    cases he

section Groups

variable {b} {by_ : String} (hby : b.Groups by_)

/-- The rows of a group. -/
def Groups.rows (key : String) : MemoryKvBackend K V α VB := b.inScope (b.scope.extend by_ key) (hby.valid key)

/-- A member's own place. -/
def Groups.own (key : String) (k : K) : List α := (hby.rows key).keyBlob k

/-- What a place is listed as, for a group. -/
def Groups.listed (key : String) (p : List α) : Option K := (hby.rows key).shownBy none p

/-- What is live and listed is in its own place. -/
def Groups.NoStrays (key : String) (r : MemoryRoot α VB) : Prop :=
  ∀ p k, b.LiveAt r p → hby.listed key p = some k → p = hby.own key k

theorem Groups.physicalKeyBlob_own (key : String) (k : K) :
    (hby.rows key).physicalKeyBlob k = .ok (hby.own key k) := by
  have hwritten := KvBackend.physicalKeyBlob_eq (hby.rows key).toKvBackend (hby.writes key) k
  have hplace := KvBackend.physicalKeyBlob_eq_keyBlob _ hwritten
  exact hwritten.trans (congrArg _ hplace)

theorem Groups.own_injective (key : String) : Function.Injective (hby.own key) := by
  intro k k' h
  exact (hby.rows key).physicalKeyBlob_injective (hby.physicalKeyBlob_own key k)
    ((hby.physicalKeyBlob_own key k').trans (congrArg _ h.symm))

/-- Where the separator tells segments apart, no two groups have one place. -/
theorem Groups.eq_of_own (hapart : b.kvset.wire.Apart) {key key' : String} {k k' : K}
    (h : hby.own key k = hby.own key' k') : key = key' := by
  have hmerges := @KvBackend.physicalKeyBlob_merges K V α VB _ (hby.rows key).toKvBackend (hby.rows key').toKvBackend
  rcases hmerges rfl rfl (hby.physicalKeyBlob_own key k) ((hby.physicalKeyBlob_own key' k').trans (congrArg _ h.symm))
    with ⟨hscope, -⟩ | hmerges
  · have hsegments : b.scope.segments ++ [⟨by_, key⟩] = b.scope.segments ++ [⟨by_, key'⟩] :=
      congrArg Scope.segments hscope
    exact congrArg ScopeSegment.id (List.singleton_inj.mp (List.append_cancel_left hsegments))
  · exact absurd (hmerges.straddles (by simp [Groups.rows, inScope, Scope.extend])) (hapart.not_straddles _ _ _ _)

theorem Groups.listed_own (key : String) (k : K) :
    hby.listed key (hby.own key k) = if b.kvset.keySerde.serialize k = [] then none else some k :=
  (hby.rows key).shownBy_keyBlob (by simp [rows, inScope, Scope.extend]) k

theorem Groups.eq_of_listed_own {key : String} {k k' : K} (h : hby.listed key (hby.own key k) = some k') : k' = k := by
  rw [hby.listed_own] at h
  split at h
  · cases h
  · exact (Option.some.inj h).symm

/-- A group lists a member of another where the text of its own id begins that of the other's with the separator
    and the leaf, and what follows is read. -/
theorem Groups.listed_own_other (g h : String) (k k' : K) : hby.listed h (hby.own g k) = some k' ↔
    ∃ rest, b.kvset.escapeSegment g ++ (b.kvset.wire.codes.sep ++ (hby.rows g).ownLeaf k) =
      b.kvset.escapeSegment h ++ rest ∧ b.kvset.readLeaf (b.scope.extend by_ h) rest = some k' := by
  let leaf := (hby.rows g).ownLeaf k
  have hplace : hby.own g k = b.kvset.joinParts (b.binding.nameVersionPrefix ++
      [b.kvset.joinParts (b.kvset.scopeParts (b.scope.extend by_ g) ++ [leaf])]) :=
    (hby.rows g).itemKeyBlob_eq_join leaf
  have hread : (hby.rows h).decodeKeyFromPhysical (hby.own g k) = b.kvset.decodeLeafFromInKey (b.scope.extend by_ h)
      (b.kvset.joinParts (b.kvset.scopeParts (b.scope.extend by_ g) ++ [leaf])) := by
    rw [hplace]
    exact (hby.rows h).decodeKeyFromPhysical_join _
  have hbegins : ∀ rest, b.kvset.escapeSegment g ++ (b.kvset.wire.codes.sep ++ leaf) =
      b.kvset.escapeSegment h ++ rest → (hby.rows h).scanPrefixBlob none <+: hby.own g k := by
    intro rest hrest
    let parts := b.binding.nameVersionPrefix ++ (b.kvset.scopeParts b.scope ++ [b.kvset.escapeSegment by_])
    have hparts : parts ≠ [] := by simp [parts]
    have hfront : (hby.rows h).scanPrefixBlob none = join b.kvset.wire.codes.sep (parts ++ [b.kvset.escapeSegment h]) := by
      unfold KvBackend.scanPrefixBlob
      refine congrArg (join _) ((List.append_nil _).trans ?_)
      show b.binding.nameVersionPrefix ++ b.kvset.scopeParts (b.scope.extend by_ h) = _
      rw [KvSet.scopeParts_extend]
      exact (List.append_assoc _ _ _).symm
    have hown : hby.own g k = join b.kvset.wire.codes.sep (parts ++ [b.kvset.escapeSegment g, leaf]) := by
      refine congrArg (join b.kvset.wire.codes.sep) ?_
      show (b.binding.nameVersionPrefix ++ b.kvset.scopeParts (b.scope.extend by_ g)) ++ [leaf] = _
      rw [KvSet.scopeParts_extend]
      simp only [parts, List.append_assoc, List.cons_append, List.nil_append]
    rw [hfront, hown, join_append _ hparts (List.cons_ne_nil _ _), join_append _ hparts (List.cons_ne_nil _ _)]
    refine (List.prefix_append_right_inj _).mpr ((List.prefix_append_right_inj _).mpr ?_)
    exact ⟨rest, hrest.symm⟩
  rw [← KvSet.decodeLeafFromInKey_other b.kvset g h b.scope by_ leaf k', ← hread]
  unfold Groups.listed KvBackend.shownBy
  split
  · rfl
  · next hnot =>
    refine iff_of_false nofun fun hdecoded => ?_
    rw [hread, KvSet.decodeLeafFromInKey_other b.kvset g h] at hdecoded
    obtain ⟨rest, hrest, _⟩ := hdecoded
    exact hnot (hbegins rest hrest)

variable [DecidableEq K] (n : Nat)

include hby in
theorem groupBy_group (key : String) : (b.groupBy by_ n).group key = .ok (hby.rows key).store := by
  show (b.cloneWithScope _).map store = _
  rw [b.cloneWithScope_ok (hby.valid key)]
  rfl

/-! ### Reading -/

/-- A key of the group is listed. -/
def Groups.Held (key : String) (r : MemoryRoot α VB) (k : K) : Prop := ∃ p, b.LiveAt r p ∧ hby.listed key p = some k

theorem members_run (key : String) (r : MemoryRoot α VB) :
    ∃ held r', (b.groupBy by_ n).members key r = (.ok held, r') ∧ b.liveBlob r' = b.liveBlob r ∧
      ∀ k, k ∈ held ↔ hby.Held key r k := by
  have hrows := (hby.rows key).scanEntries_shown (q := ⟨none, false, n⟩) (r := r) fun hasked => nomatch hasked
  have hsame := ((hby.rows key).scanEntries_rowAt ⟨none, false, n⟩ r).2
  refine ⟨(((hby.rows key).livePlaces r).filterMap ((hby.rows key).entryRow ⟨none, false, n⟩ r)).map Prod.fst, _, ?_,
    SamePlaces.liveBlob _ hsame, fun k => ?_⟩
  · unfold GroupedKvStore.members
    rw [groupBy_group hby]
    show (((hby.rows key).scanEntries ⟨none, false, n⟩ >>= fun rows => pure (rows.map Prod.fst) : M _ _) r) = _
    rw [bind_ok (Prod.ext hrows rfl)]
    rfl
  · rw [List.mem_map]
    simp only [List.mem_filterMap, mem_livePlaces]
    constructor
    · intro ⟨row, ⟨p, hlive, hrow⟩, hk⟩
      obtain ⟨k', hk', rfl⟩ := Option.map_eq_some_iff.mp hrow
      exact ⟨p, hlive, hk'.trans (congrArg some hk)⟩
    · intro ⟨p, hlive, hk⟩
      exact ⟨_, ⟨p, hlive, Option.map_eq_some_iff.mpr ⟨k, hk, rfl⟩⟩, rfl⟩

theorem memberSet_eq (key : String) (r : MemoryRoot α VB) :
    (b.groupBy by_ n).memberSet key r = .ok {k | hby.Held key r k} := by
  obtain ⟨held, r', hrun, -, hheld⟩ := members_run hby n key r
  unfold GroupedKvStore.memberSet
  rw [hrun]
  exact congrArg Except.ok (Set.ext hheld)

/-- What the group's own place of a key holds. An empty key is listed nowhere. -/
def Groups.member (key : String) (r : MemoryRoot α VB) (k : K) : Option VB :=
  if b.kvset.keySerde.serialize k = [] then none else b.liveBlob r (hby.own key k)

open Classical in
/-- What members read as, all together. -/
noncomputable def readMembers (b : MemoryKvBackend K V α VB) (blobs : K → Option VB) : Except Exn (K → Option V) :=
  if ∀ k blob, blobs k = some blob → ∃ v, b.kvset.valueSerde.deserialize blob = some v then
    .ok fun k => (blobs k).bind b.kvset.valueSerde.deserialize
  else .error (.serDeError "deserialize failed")

theorem mapping_eq_scan (key : String) (r : MemoryRoot α VB) :
    (b.groupBy by_ n).mapping key r =
      (((hby.rows key).scanEntries ⟨none, true, n⟩ r).1.map GroupedKvStore.mappingOf).map Dict.get? := by
  unfold GroupedKvStore.mapping GroupedKvStore.get
  rw [groupBy_group hby]
  show Except.map Dict.get? (((hby.rows key).scanEntries ⟨none, true, n⟩ >>= fun rows =>
    pure (GroupedKvStore.mappingOf rows) : M _ _) r).1 = _
  rw [bind_apply]
  rcases (hby.rows key).scanEntries ⟨none, true, n⟩ r with ⟨e | rows, r'⟩ <;> rfl

/-- A group that lists only what is in its own place reads as its members. -/
theorem mapping_eq {key : String} {r : MemoryRoot α VB} (h : hby.NoStrays key r) :
    (b.groupBy by_ n).mapping key r = readMembers b (hby.member key r) := by
  have hmember : ∀ p k, b.LiveAt r p → hby.listed key p = some k →
      p = hby.own key k ∧ hby.member key r k = b.liveBlob r p := by
    intro p k hlive hk
    have hp := h p k hlive hk
    refine ⟨hp, ?_⟩
    rw [hp, hby.listed_own] at hk
    unfold Groups.member
    split at hk
    · cases hk
    · next hne => rw [if_neg hne, hp]
  have hlisted : ∀ k blob, hby.member key r k = some blob →
      b.LiveAt r (hby.own key k) ∧ hby.listed key (hby.own key k) = some k ∧ b.liveBlob r (hby.own key k) = some blob := by
    intro k blob hblob
    unfold Groups.member at hblob
    split at hblob
    · cases hblob
    · next hne => exact ⟨b.liveAt_iff_liveBlob.mpr ⟨blob, hblob⟩, by rw [hby.listed_own, if_neg hne], hblob⟩
  rw [mapping_eq_scan hby]
  unfold readMembers
  by_cases hread : ∀ k blob, hby.member key r k = some blob → ∃ v, b.kvset.valueSerde.deserialize blob = some v
  · rw [if_pos hread]
    have hvalues : ∀ p, b.LiveAt r p → ((hby.rows key).shownBy none p).isSome = true →
        ((hby.rows key).valueAt r p).isSome = true := by
      intro p hlive hshown
      obtain ⟨k, hk⟩ := Option.isSome_iff_exists.mp hshown
      obtain ⟨blob, hblob⟩ := b.liveAt_iff_liveBlob.mp hlive
      obtain ⟨v, hv⟩ := hread k blob ((hmember p k hlive hk).2.trans hblob)
      have hvalue : b.valueAt r p = some v := (b.valueAt_of_liveBlob hblob).trans hv
      exact Option.isSome_iff_exists.mpr ⟨v, hvalue⟩
    rw [(hby.rows key).scanEntries_shown (q := ⟨none, true, n⟩) fun _ => hvalues]
    show (Except.ok (Dict.get? (GroupedKvStore.mappingOf _)) : Except Exn _) = _
    refine congrArg _ (funext fun k => Option.ext fun v => ?_)
    rw [Option.bind_eq_some_iff]
    have hrow : ∀ p k v, (hby.rows key).entryRow ⟨none, true, n⟩ r p = some (k, some v) ↔
        hby.listed key p = some k ∧ b.valueAt r p = some v := by
      intro p k v
      unfold entryRow
      rw [Option.map_eq_some_iff]
      constructor
      · intro ⟨k', hk', heq⟩
        exact ⟨hk'.trans (congrArg some (Prod.mk.inj heq).1), (Prod.mk.inj heq).2⟩
      · intro ⟨hk, hv⟩
        exact ⟨k, hk, congrArg (Prod.mk k) hv⟩
    constructor
    · intro hget
      obtain ⟨p, hlive, hp⟩ := List.mem_filterMap.mp (GroupedKvStore.mem_of_get?_mappingOf hget)
      obtain ⟨hk, hv⟩ := (hrow p k v).mp hp
      have hplive := (mem_livePlaces _).mp hlive
      obtain ⟨blob, hblob⟩ := b.liveAt_iff_liveBlob.mp hplive
      exact ⟨blob, (hmember p k hplive hk).2.trans hblob, (b.valueAt_of_liveBlob hblob).symm.trans hv⟩
    · intro ⟨blob, hblob, hv⟩
      obtain ⟨hlive, hk, hplace⟩ := hlisted k blob hblob
      have hmem : (k, some v) ∈ ((hby.rows key).livePlaces r).filterMap ((hby.rows key).entryRow ⟨none, true, n⟩ r) :=
        List.mem_filterMap.mpr ⟨_, (mem_livePlaces _).mpr hlive,
          (hrow _ k v).mpr ⟨hk, (b.valueAt_of_liveBlob hplace).trans hv⟩⟩
      obtain ⟨v', hv'⟩ := Option.isSome_iff_exists.mp (GroupedKvStore.get?_mappingOf_isSome hmem)
      obtain ⟨p', hlive', hp'⟩ := List.mem_filterMap.mp (GroupedKvStore.mem_of_get?_mappingOf hv')
      obtain ⟨hk', hvalue'⟩ := (hrow p' k v').mp hp'
      rw [h p' k ((mem_livePlaces _).mp hlive') hk', b.valueAt_of_liveBlob hplace, hv] at hvalue'
      rw [hv', hvalue']
  · rw [if_neg hread]
    push Not at hread
    obtain ⟨k, blob, hblob, hnot⟩ := hread
    obtain ⟨hlive, hk, hplace⟩ := hlisted k blob hblob
    have hnone : b.kvset.valueSerde.deserialize blob = none := Option.eq_none_iff_forall_ne_some.mpr hnot
    have herror := (hby.rows key).scanEntries_unread (q := ⟨none, true, n⟩) rfl hlive
      (Option.isSome_iff_exists.mpr ⟨k, hk⟩) ((b.valueAt_of_liveBlob hplace).trans hnone)
    rw [herror]
    rfl

/-! ### Writing -/

/-- The group's members were replaced: those given are held, those listed before and not given are gone,
    and every other place is left. -/
structure Groups.Replaced (key : String) (given : K → Option V) (r r' : MemoryRoot α VB) : Prop where
  stored : ∀ k v, given k = some v → b.liveBlob r' (hby.own key k) = some (b.kvset.valueSerde.serialize v)
  gone : ∀ k, given k = none → hby.Held key r k → b.liveBlob r' (hby.own key k) = none
  left : ∀ p, (∀ k, p = hby.own key k → given k = none ∧ ¬ hby.Held key r k) → b.liveBlob r' p = b.liveBlob r p

theorem set_replaces (key : String) (m : Dict K V) (ttl : Option TtlPolicy) (r : MemoryRoot α VB) :
    ∃ r', (b.groupBy by_ n).set key m ⟨ttl, none⟩ r = (.ok (), r') ∧ hby.Replaced key m.get? r r' := by
  obtain ⟨held, r₁, hmembers, hscan, hheld⟩ := members_run hby n key r
  have hset : ∃ r₂, (when (m.entries ≠ []) ((hby.rows key).batchSet m ⟨ttl, none⟩) : M _ Unit) r₁ = (.ok (), r₂) ∧
      (∀ k v, m.get? k = some v → b.liveBlob r₂ (hby.own key k) = some (b.kvset.valueSerde.serialize v)) ∧
      ∀ p, (∀ k ∈ m.keys, p ≠ hby.own key k) → b.liveBlob r₂ p = b.liveBlob r₁ p := by
    by_cases hempty : m.entries = []
    · refine ⟨r₁, ?_, fun k v hkv => ?_, fun _ _ => rfl⟩
      · rw [Prog.when, if_neg (not_not.mpr hempty)]
        rfl
      · have hmem := Dict.mem_entries.mpr hkv
        rw [hempty] at hmem
        cases hmem
    · rw [Prog.when, if_pos hempty]
      exact (hby.rows key).batchSet_liveBlob (hby.physicalKeyBlob_own key) m ttl r₁
  obtain ⟨r₂, hsetrun, hgiven, hleft⟩ := hset
  have hstale : ∃ r₃, (when ((held.filter fun k => (m.get? k).isNone) ≠ []) (Functor.discard
      (countTrue (hby.rows key).delete (held.filter fun k => (m.get? k).isNone))) : M _ Unit) r₂ = (.ok (), r₃) ∧
      ∀ p, b.liveBlob r₃ p = if p ∈ (held.filter fun k => (m.get? k).isNone).map (hby.own key) then none
        else b.liveBlob r₂ p := by
    by_cases hempty : (held.filter fun k => (m.get? k).isNone) = []
    · refine ⟨r₂, ?_, fun p => ?_⟩
      · rw [Prog.when, if_neg (not_not.mpr hempty)]
        rfl
      · rw [hempty]
        rfl
    · obtain ⟨count, r₃, hrun, hdeleted⟩ := (hby.rows key).batchDelete_liveBlob (hby.physicalKeyBlob_own key)
        (held.filter fun k => (m.get? k).isNone) r₂
      refine ⟨r₃, ?_, hdeleted⟩
      rw [Prog.when, if_pos hempty, discard_apply, hrun]
      rfl
  obtain ⟨r₃, hstalerun, hdeleted⟩ := hstale
  have hmem : ∀ k, hby.own key k ∈ (held.filter fun k => (m.get? k).isNone).map (hby.own key) ↔
      hby.Held key r k ∧ m.get? k = none := by
    intro k
    rw [List.mem_map]
    constructor
    · rintro ⟨k', hk', heq⟩
      rw [hby.own_injective key heq] at hk'
      obtain ⟨hin, hnone⟩ := List.mem_filter.mp hk'
      exact ⟨(hheld k).mp hin, Option.isNone_iff_eq_none.mp hnone⟩
    · rintro ⟨hin, hnone⟩
      exact ⟨k, List.mem_filter.mpr ⟨(hheld k).mpr hin, Option.isNone_iff_eq_none.mpr hnone⟩, rfl⟩
  refine ⟨r₃, ?_, fun k v hkv => ?_, fun k hnone hk => ?_, fun p hp => ?_⟩
  · unfold GroupedKvStore.set
    rw [groupBy_group hby]
    show ((GroupedKvStore.members (b.groupBy by_ n) key >>= fun held =>
      when (m.entries ≠ []) ((hby.rows key).batchSet m ⟨ttl, none⟩) >>= fun _ =>
      when ((held.filter fun k => (m.get? k).isNone) ≠ []) (Functor.discard
        (countTrue (hby.rows key).delete (held.filter fun k => (m.get? k).isNone))) : M _ Unit) r) = _
    rw [bind_ok hmembers, bind_ok hsetrun, hstalerun]
  · rw [hdeleted, if_neg fun h => ?_]
    · exact hgiven k v hkv
    · have hnone := ((hmem k).mp h).2
      rw [hkv] at hnone
      cases hnone
  · rw [hdeleted, if_pos ((hmem k).mpr ⟨hk, hnone⟩)]
  · have hother : p ∉ (held.filter fun k => (m.get? k).isNone).map (hby.own key) := by
      intro h
      obtain ⟨k, hk, heq⟩ := List.mem_map.mp h
      exact (hp k heq.symm).2 ((hheld k).mp (List.mem_filter.mp hk).1)
    rw [hdeleted, if_neg hother, hleft p fun k hk heq => ?_, hscan]
    obtain ⟨v, hv⟩ := Dict.mem_keys.mp hk
    have hnone := (hp k heq).1
    rw [hv] at hnone
    cases hnone

theorem delete_replaces (key : String) (r : MemoryRoot α VB) :
    ∃ found r', (b.groupBy by_ n).delete key r = (.ok found, r') ∧
      hby.Replaced key (Dict.empty : Dict K V).get? r r' := by
  obtain ⟨held, r₁, hmembers, hscan, hheld⟩ := members_run hby n key r
  by_cases hempty : held = []
  · have hnone : ∀ k, ¬ hby.Held key r k := by
      intro k hk
      have hin := (hheld k).mpr hk
      rw [hempty] at hin
      cases hin
    refine ⟨false, r₁, ?_, ⟨fun k v hkv => ?_, fun k _ hk => absurd hk (hnone k), fun p _ => by rw [hscan]⟩⟩
    · unfold GroupedKvStore.delete
      rw [bind_ok hmembers, if_pos hempty]
      rfl
    · cases hkv
  · obtain ⟨count, r₂, hrun, hdeleted⟩ := (hby.rows key).batchDelete_liveBlob (hby.physicalKeyBlob_own key) held r₁
    refine ⟨decide (0 < count), r₂, ?_, ⟨fun k v hkv => ?_, fun k _ hk => ?_, fun p hp => ?_⟩⟩
    · unfold GroupedKvStore.delete
      rw [bind_ok hmembers, if_neg hempty, groupBy_group hby]
      show ((countTrue (hby.rows key).delete held >>= fun count => pure (decide (0 < count)) : M _ Bool) r₁) = _
      rw [bind_ok hrun]
      rfl
    · cases hkv
    · have hin := List.mem_map_of_mem (f := hby.own key) ((hheld k).mpr hk)
      exact (hdeleted _).trans (if_pos hin)
    · have hother : p ∉ held.map (hby.own key) := by
        intro h
        obtain ⟨k, hk, heq⟩ := List.mem_map.mp h
        exact (hp k heq.symm).2 ((hheld k).mp hk)
      exact (hdeleted p).trans ((if_neg hother).trans (congrFun hscan p))

/-! ### The laws -/

/-- What a run of writes of these groups comes to. Time passes between them. -/
inductive GroupRun (b : MemoryKvBackend K V α VB) (by_ : String) (n : Nat) (ids : Set String) (values : Set (Dict K V))
    (r : MemoryRoot α VB) : MemoryRoot α VB → Prop
  | start : GroupRun b by_ n ids values r r
  | set {t : MemoryRoot α VB} {g : String} {m : Dict K V} (hg : g ∈ ids) (hm : m ∈ values) (ttl : Option TtlPolicy) :
      GroupRun b by_ n ids values r t → GroupRun b by_ n ids values r ((b.groupBy by_ n).set g m ⟨ttl, none⟩ t).2
  | delete {t : MemoryRoot α VB} {g : String} (hg : g ∈ ids) :
      GroupRun b by_ n ids values r t → GroupRun b by_ n ids values r ((b.groupBy by_ n).delete g t).2
  | advance {t : MemoryRoot α VB} (microseconds : Nat) :
      GroupRun b by_ n ids values r t → GroupRun b by_ n ids values r (t.advance microseconds)

/-- What is live and listed for one of the groups is listed for no other. -/
def Groups.Alone (ids : Set String) (r : MemoryRoot α VB) : Prop :=
  ∀ g ∈ ids, ∀ h ∈ ids, h ≠ g → ∀ p k, b.LiveAt r p → hby.listed g p = some k → hby.listed h p = none

/-- The groups are apart: what is live and listed for one of them is in its own place there, and listed for
    no other, no key that is written is empty, and none is written where another of the groups lists it. -/
structure Groups.Apart (ids : Set String) (values : Set (Dict K V)) (r : MemoryRoot α VB) : Prop where
  strays : ∀ g ∈ ids, hby.NoStrays g r
  alone : hby.Alone ids r
  keys : ∀ g ∈ ids, ∀ m ∈ values, ∀ k ∈ m.keys, b.kvset.keySerde.serialize k ≠ [] ∧
    ∀ h ∈ ids, h ≠ g → hby.listed h (hby.own g k) = none

variable {ids : Set String} {values : Set (Dict K V)}

omit [DecidableEq K] in
/-- A place that is listed as a key of another place is no group's own that lists it. -/
theorem Groups.Replaced.stray {g : String} {given : K → Option V} {r r' : MemoryRoot α VB}
    (h : hby.Replaced g given r r') {p : List α} {k : K} (hk : hby.listed g p = some k) (hne : p ≠ hby.own g k) :
    b.liveBlob r' p = b.liveBlob r p := by
  refine h.left p fun k' hp => ?_
  rw [hp] at hk
  exact absurd (hp.trans (congrArg (hby.own g) (hby.eq_of_listed_own hk).symm)) hne

omit [DecidableEq K] in
theorem Groups.Replaced.noStrays {g h : String} {given : K → Option V} {r r' : MemoryRoot α VB}
    (hreplaced : hby.Replaced g given r r') (hstrays : hby.NoStrays h r)
    (hothers : h ≠ g → ∀ k v, given k = some v → hby.listed h (hby.own g k) = none) : hby.NoStrays h r' := by
  intro p k hlive hk
  obtain ⟨blob, hblob⟩ := b.liveAt_iff_liveBlob.mp hlive
  by_cases hown : ∃ k', p = hby.own g k' ∧ (given k' ≠ none ∨ hby.Held g r k')
  · obtain ⟨k', rfl, hwritten⟩ := hown
    by_cases hsame : h = g
    · rw [hsame] at hk ⊢
      rw [hby.eq_of_listed_own hk]
    · cases hgiven : given k' with
      | some v =>
        rw [hothers hsame k' v hgiven] at hk
        cases hk
      | none =>
        rw [hreplaced.gone k' hgiven (hwritten.resolve_left fun hne => hne hgiven)] at hblob
        cases hblob
  · have hleft : b.liveBlob r' p = b.liveBlob r p := by
      refine hreplaced.left p fun k' hp => ?_
      by_contra hnot
      refine hown ⟨k', hp, ?_⟩
      by_cases hgiven : given k' = none
      · exact .inr (by_contra fun hheld => hnot ⟨hgiven, hheld⟩)
      · exact .inl hgiven
    rw [hleft] at hblob
    exact hstrays p k (b.liveAt_iff_liveBlob.mpr ⟨blob, hblob⟩) hk

omit [DecidableEq K] in
/-- A write of one group leaves what another lists, if none is listed for both. -/
theorem Groups.Replaced.listed_other {g h : String} {given : K → Option V} {r r' : MemoryRoot α VB}
    (hreplaced : hby.Replaced g given r r') (hstrays : hby.NoStrays g r)
    (halone : ∀ p k, b.LiveAt r p → hby.listed g p = some k → hby.listed h p = none)
    (hothers : ∀ k v, given k = some v → hby.listed h (hby.own g k) = none) {p : List α} {k : K}
    (hk : hby.listed h p = some k) : b.liveBlob r' p = b.liveBlob r p := by
  refine hreplaced.left p fun k' hp => ⟨?_, fun ⟨q, hlive, hlisted⟩ => ?_⟩
  · by_contra hgiven
    obtain ⟨v, hv⟩ := Option.ne_none_iff_exists'.mp hgiven
    rw [hp, hothers k' v hv] at hk
    cases hk
  · rw [hp, ← hstrays q k' hlive hlisted, halone q k' hlive hlisted] at hk
    cases hk

omit [DecidableEq K] in
theorem readMembers_serialize (b : MemoryKvBackend K V α VB) (m : K → Option V) :
    readMembers b (fun k => (m k).map b.kvset.valueSerde.serialize) = .ok m := by
  have hread : ∀ k blob, (m k).map b.kvset.valueSerde.serialize = some blob →
      ∃ v, b.kvset.valueSerde.deserialize blob = some v := by
    intro k blob hblob
    obtain ⟨v, _, rfl⟩ := Option.map_eq_some_iff.mp hblob
    exact ⟨v, b.kvset.valueSerde.roundtrip v⟩
  unfold readMembers
  rw [if_pos hread]
  refine congrArg _ (funext fun k => ?_)
  dsimp only
  cases m k with
  | none => rfl
  | some v => exact b.kvset.valueSerde.roundtrip v

/-- A group whose members were replaced reads as those that were given. -/
theorem mapping_of_replaced {g : String} {given : K → Option V} {r r' : MemoryRoot α VB}
    (hreplaced : hby.Replaced g given r r') (hstrays : hby.NoStrays g r)
    (hkeys : ∀ k v, given k = some v → b.kvset.keySerde.serialize k ≠ []) :
    (b.groupBy by_ n).mapping g r' = .ok given := by
  have hafter : hby.NoStrays g r' := Groups.Replaced.noStrays hby hreplaced hstrays fun hne => absurd rfl hne
  have hmember : hby.member g r' = fun k => (given k).map b.kvset.valueSerde.serialize := by
    funext k
    unfold Groups.member
    by_cases hempty : b.kvset.keySerde.serialize k = []
    · rw [if_pos hempty]
      cases hgiven : given k with
      | none => rfl
      | some v => exact absurd hempty (hkeys k v hgiven)
    · rw [if_neg hempty]
      cases hgiven : given k with
      | some v => exact hreplaced.stored k v hgiven
      | none =>
        by_cases hheld : hby.Held g r k
        · exact hreplaced.gone k hgiven hheld
        · have hdead : ¬ b.LiveAt r (hby.own g k) := by
            intro hlive
            exact hheld ⟨_, hlive, by rw [hby.listed_own, if_neg hempty]⟩
          have hleft : b.liveBlob r' (hby.own g k) = b.liveBlob r (hby.own g k) := by
            refine hreplaced.left _ fun k' hown => ?_
            rw [← hby.own_injective g hown]
            exact ⟨hgiven, hheld⟩
          rw [hleft]
          by_contra hne
          exact hdead (b.liveAt_iff_liveBlob.mpr (Option.ne_none_iff_exists'.mp hne))
  rw [mapping_eq hby n hafter, hmember]
  exact readMembers_serialize b given

/-- And another group reads as it did, if what it lists was left. -/
theorem mapping_of_others {h : String} {r r' : MemoryRoot α VB} (hstrays : hby.NoStrays h r)
    (hafter : hby.NoStrays h r') (hleft : ∀ p k, hby.listed h p = some k → b.liveBlob r' p = b.liveBlob r p) :
    (b.groupBy by_ n).mapping h r' = (b.groupBy by_ n).mapping h r := by
  have hmember : hby.member h r' = hby.member h r := by
    funext k
    unfold Groups.member
    split
    · rfl
    · next hne => exact hleft _ k (by rw [hby.listed_own, if_neg hne])
  rw [mapping_eq hby n hafter, mapping_eq hby n hstrays, hmember]

/-- It lists the keys it did. -/
theorem memberSet_of_others {h : String} {r r' : MemoryRoot α VB}
    (hleft : ∀ p k, hby.listed h p = some k → b.liveBlob r' p = b.liveBlob r p) :
    (b.groupBy by_ n).memberSet h r' = (b.groupBy by_ n).memberSet h r := by
  rw [memberSet_eq hby, memberSet_eq hby]
  refine congrArg Except.ok (Set.ext fun k => ?_)
  have hlive : ∀ p, hby.listed h p = some k → (b.LiveAt r' p ↔ b.LiveAt r p) := by
    intro p hk
    rw [b.liveAt_iff_liveBlob, b.liveAt_iff_liveBlob, hleft p k hk]
  constructor
  · intro ⟨p, hp, hk⟩
    exact ⟨p, (hlive p hk).mp hp, hk⟩
  · intro ⟨p, hp, hk⟩
    exact ⟨p, (hlive p hk).mpr hp, hk⟩

theorem Groups.Apart.given {r : MemoryRoot α VB} (hapart : hby.Apart ids values r) {g : String} (hg : g ∈ ids)
    {m : Dict K V} (hm : m ∈ values) {k : K} {v : V} (hkv : m.get? k = some v) :
    b.kvset.keySerde.serialize k ≠ [] ∧ ∀ h ∈ ids, h ≠ g → hby.listed h (hby.own g k) = none :=
  hapart.keys g hg m hm k (Dict.mem_keys.mpr ⟨v, hkv⟩)

omit [DecidableEq K] in
/-- A write of one of the groups leaves what the others list. -/
theorem Groups.Apart.left {r r' : MemoryRoot α VB} (hapart : hby.Apart ids values r) {g h : String} (hg : g ∈ ids)
    (hh : h ∈ ids) (hne : h ≠ g) {given : K → Option V} (hreplaced : hby.Replaced g given r r')
    (hothers : ∀ k v, given k = some v → hby.listed h (hby.own g k) = none) (p : List α) (k : K)
    (hk : hby.listed h p = some k) : b.liveBlob r' p = b.liveBlob r p :=
  hreplaced.listed_other hby (hapart.strays g hg) (hapart.alone g hg h hh hne) hothers hk

theorem Groups.Apart.isItsRows {r : MemoryRoot α VB} (hapart : hby.Apart ids values r) :
    (b.groupBy by_ n).IsItsRows ids values r where
  set g hg m hm ttl := by
    obtain ⟨r', hrun, hreplaced⟩ := set_replaces hby n g m ttl r
    refine ⟨r', hrun, ?_, fun h hh hne => ?_⟩
    · exact mapping_of_replaced hby n hreplaced (hapart.strays g hg) fun k v hkv => (hapart.given hby hg hm hkv).1
    · have hothers : ∀ k v, m.get? k = some v → hby.listed h (hby.own g k) = none :=
        fun k v hkv => (hapart.given hby hg hm hkv).2 h hh hne
      exact mapping_of_others hby n (hapart.strays h hh)
        (hreplaced.noStrays hby (hapart.strays h hh) fun _ => hothers) (hapart.left hby hg hh hne hreplaced hothers)
  delete g hg := by
    obtain ⟨found, r', hrun, hreplaced⟩ := delete_replaces hby n g r
    refine ⟨found, r', hrun, ?_, fun h hh hne => ?_⟩
    · exact mapping_of_replaced hby n hreplaced (hapart.strays g hg) fun k v hkv => by cases hkv
    · exact mapping_of_others hby n (hapart.strays h hh)
        (hreplaced.noStrays hby (hapart.strays h hh) fun _ k v hkv => by cases hkv)
        (hapart.left hby hg hh hne hreplaced fun k v hkv => by cases hkv)

theorem Groups.Apart.leavesOthers {r : MemoryRoot α VB} (hapart : hby.Apart ids values r) :
    (b.groupBy by_ n).LeavesOthers ids values r where
  set g hg m hm ttl h hh hne := by
    obtain ⟨r', hrun, hreplaced⟩ := set_replaces hby n g m ttl r
    rw [hrun]
    exact memberSet_of_others hby n
      (hapart.left hby hg hh hne hreplaced fun k v hkv => (hapart.given hby hg hm hkv).2 h hh hne)
  delete g hg h hh hne := by
    obtain ⟨found, r', hrun, hreplaced⟩ := delete_replaces hby n g r
    rw [hrun]
    exact memberSet_of_others hby n (hapart.left hby hg hh hne hreplaced fun k v hkv => by cases hkv)

omit [DecidableEq K] in
/-- What is live after a write was live before, or is a member given. -/
theorem Groups.Replaced.live {g : String} {given : K → Option V} {r r' : MemoryRoot α VB}
    (hreplaced : hby.Replaced g given r r') {p : List α} (hlive : b.LiveAt r' p) :
    b.LiveAt r p ∨ ∃ k v, p = hby.own g k ∧ given k = some v := by
  obtain ⟨blob, hblob⟩ := b.liveAt_iff_liveBlob.mp hlive
  by_cases hown : ∃ k v, p = hby.own g k ∧ given k = some v
  · exact .inr hown
  · have hnone : ∀ k, p = hby.own g k → given k = none := fun k hp =>
      Option.eq_none_iff_forall_ne_some.mpr fun v hv => hown ⟨k, v, hp, hv⟩
    have hleft : b.liveBlob r' p = b.liveBlob r p := by
      refine hreplaced.left p fun k hp => ⟨hnone k hp, fun hheld => ?_⟩
      rw [hp, hreplaced.gone k (hnone k hp) hheld] at hblob
      cases hblob
    rw [hleft] at hblob
    exact .inl (b.liveAt_iff_liveBlob.mpr ⟨blob, hblob⟩)

omit [DecidableEq K] in
/-- A write of one of the groups leaves them apart. -/
theorem Groups.Apart.replaced {r r' : MemoryRoot α VB} (hapart : hby.Apart ids values r) {g : String}
    {given : K → Option V} (hreplaced : hby.Replaced g given r r')
    (hothers : ∀ h ∈ ids, h ≠ g → ∀ k v, given k = some v → hby.listed h (hby.own g k) = none) :
    hby.Apart ids values r' where
  strays h hh := hreplaced.noStrays hby (hapart.strays h hh) (hothers h hh)
  alone g' hg' h hh hne p k hlive hk := by
    rcases hreplaced.live hby hlive with hbefore | ⟨k', v, rfl, hgiven⟩
    · exact hapart.alone g' hg' h hh hne p k hbefore hk
    · -- a member given is listed for its own group only
      by_cases hsame : g' = g
      · exact hothers h hh (hsame ▸ hne) k' v hgiven
      · rw [hothers g' hg' hsame k' v hgiven] at hk
        cases hk
  keys := hapart.keys

theorem Groups.Apart.run {r t : MemoryRoot α VB} (hapart : hby.Apart ids values r)
    (hrun : GroupRun b by_ n ids values r t) : hby.Apart ids values t := by
  induction hrun with
  | start => exact hapart
  | @set t g m hg hm ttl _ ih =>
    obtain ⟨t', hset, hreplaced⟩ := set_replaces hby n g m ttl t
    rw [hset]
    exact ih.replaced hby hreplaced fun h hh hne k v hkv => (ih.given hby hg hm hkv).2 h hh hne
  | @delete t g hg _ ih =>
    obtain ⟨found, t', hdelete, hreplaced⟩ := delete_replaces hby n g t
    rw [hdelete]
    exact ih.replaced hby hreplaced fun _ _ _ k v hkv => by cases hkv
  | @advance t microseconds _ ih =>
    have hbefore : ∀ p, b.LiveAt (t.advance microseconds) p → b.LiveAt t p := by
      intro p hlive
      obtain ⟨blob, hblob⟩ := b.liveAt_iff_liveBlob.mp hlive
      rcases b.liveBlob_advance t microseconds p with hnone | hsame
      · rw [hnone] at hblob
        cases hblob
      · rw [hsame] at hblob
        exact b.liveAt_iff_liveBlob.mpr ⟨blob, hblob⟩
    exact ⟨fun g hg p k hlive hk => ih.strays g hg p k (hbefore p hlive) hk,
      fun g hg h hh hne p k hlive hk => ih.alone g hg h hh hne p k (hbefore p hlive) hk, ih.keys⟩

/-- A group that reads as a mapping lists the keys of it, and no other. -/
theorem listed_of_mapping {g : String} {r : MemoryRoot α VB} {f : K → Option V}
    (h : (b.groupBy by_ n).mapping g r = .ok f) (k : K) : (f k).isSome = true ↔ hby.Held g r k := by
  rw [mapping_eq_scan hby] at h
  by_cases hread : ∀ p, b.LiveAt r p → ((hby.rows g).shownBy none p).isSome = true →
      ((hby.rows g).valueAt r p).isSome = true
  · rw [(hby.rows g).scanEntries_shown (q := ⟨none, true, n⟩) fun _ => hread] at h
    have hf : Dict.get? (GroupedKvStore.mappingOf _) = f := Except.ok.inj h
    rw [← hf]
    constructor
    · intro hsome
      obtain ⟨v, hv⟩ := Option.isSome_iff_exists.mp hsome
      obtain ⟨p, hlive, hrow⟩ := List.mem_filterMap.mp (GroupedKvStore.mem_of_get?_mappingOf hv)
      obtain ⟨k', hk', heq⟩ := Option.map_eq_some_iff.mp hrow
      exact ⟨p, (mem_livePlaces _).mp hlive, hk'.trans (congrArg some (Prod.mk.inj heq).1)⟩
    · intro ⟨p, hlive, hk⟩
      obtain ⟨v, hv⟩ := Option.isSome_iff_exists.mp (hread p hlive (Option.isSome_iff_exists.mpr ⟨k, hk⟩))
      have hrow : (hby.rows g).entryRow ⟨none, true, n⟩ r p = some (k, some v) :=
        Option.map_eq_some_iff.mpr ⟨k, hk, congrArg (Prod.mk k) hv⟩
      exact GroupedKvStore.get?_mappingOf_isSome
        (List.mem_filterMap.mpr ⟨p, (mem_livePlaces _).mpr hlive, hrow⟩)
  · push Not at hread
    obtain ⟨p, hlive, hshown, hvalue⟩ := hread
    rw [(hby.rows g).scanEntries_unread (q := ⟨none, true, n⟩) rfl hlive hshown
      (Option.not_isSome_iff_eq_none.mp hvalue)] at h
    cases h

/-- A group that a deletion empties had no strays: they would have been left. -/
theorem noStrays_of_delete {g : String} {r : MemoryRoot α VB}
    (h : ∃ found r', (b.groupBy by_ n).delete g r = (.ok found, r') ∧
      (b.groupBy by_ n).mapping g r' = .ok (Dict.empty : Dict K V).get?) : hby.NoStrays g r := by
  obtain ⟨found, r', hrun, hempty⟩ := h
  obtain ⟨found', r'', hrun', hreplaced⟩ := delete_replaces hby n g r
  obtain rfl : r'' = r' := (Prod.mk.inj (hrun'.symm.trans hrun)).2
  intro p k hlive hk
  by_contra hne
  obtain ⟨blob, hblob⟩ := b.liveAt_iff_liveBlob.mp hlive
  rw [← hreplaced.stray hby hk hne] at hblob
  have hheld : hby.Held g r'' k := ⟨p, b.liveAt_iff_liveBlob.mpr ⟨blob, hblob⟩, hk⟩
  have hsome := (listed_of_mapping hby n hempty k).mpr hheld
  cases hsome

/-- A group that another one's deletion leaves as it lists has no place with it. -/
theorem alone_of_leavesOthers {r : MemoryRoot α VB} (hleaves : (b.groupBy by_ n).LeavesOthers ids values r)
    (hstrays : ∀ t, GroupRun b by_ n ids values r t → ∀ g ∈ ids, hby.NoStrays g t) : hby.Alone ids r := by
  intro g hg h hh hne p k hlive hk
  by_contra hother
  obtain ⟨k', hk'⟩ := Option.ne_none_iff_exists'.mp hother
  obtain ⟨found, r', hrun, hreplaced⟩ := delete_replaces hby n g r
  have hsame := hleaves.delete g hg h hh hne
  have hstep : GroupRun b by_ n ids values r ((b.groupBy by_ n).delete g r).2 := .delete hg .start
  rw [hrun] at hsame hstep
  rw [memberSet_eq hby, memberSet_eq hby] at hsame
  have hmem : k' ∈ {k | hby.Held h r k} := ⟨p, hlive, hk'⟩
  rw [← Except.ok.inj hsame] at hmem
  obtain ⟨q, hq, hlisted⟩ := hmem
  -- it is listed at its own place, which is gone
  have hplace : q = p := (hstrays r' hstep h hh q k' hq hlisted).trans (hstrays r .start h hh p k' hlive hk').symm
  obtain ⟨blob, hblob⟩ := b.liveAt_iff_liveBlob.mp hq
  have hgone := hreplaced.gone k rfl ⟨p, hlive, hk⟩
  rw [← hstrays r .start g hg p k hlive hk, ← hplace, hblob] at hgone
  cases hgone

omit [DecidableEq K] in
theorem Groups.alone_of_apart (hapart : b.kvset.wire.Apart) {r : MemoryRoot α VB}
    (hstrays : ∀ g ∈ ids, hby.NoStrays g r) : hby.Alone ids r := by
  intro g hg h hh hne p k hlive hk
  by_contra hother
  obtain ⟨k', hk'⟩ := Option.ne_none_iff_exists'.mp hother
  have hown := (hstrays g hg p k hlive hk).symm.trans (hstrays h hh p k' hlive hk')
  exact hne (hby.eq_of_own hapart hown).symm

end Groups

theorem GroupRun.trans {K V α VB : Type} [DecidableEq α] [DecidableEq K] {b : MemoryKvBackend K V α VB} {by_ : String}
    {n : Nat} {ids : Set String} {values : Set (Dict K V)} {r t u : MemoryRoot α VB}
    (h : GroupRun b by_ n ids values r t) (h' : GroupRun b by_ n ids values t u) : GroupRun b by_ n ids values r u := by
  induction h' with
  | start => exact h
  | set hg hm ttl _ ih => exact .set hg hm ttl ih
  | delete hg _ ih => exact .delete hg ih
  | advance microseconds _ ih => exact .advance microseconds ih

theorem groups_apart_of_laws {K V α VB : Type} [DecidableEq α] [DecidableEq K] {b : MemoryKvBackend K V α VB}
    {by_ : String} {n : Nat} (hby : b.Groups by_) {ids : Set String} {values : Set (Dict K V)} {r : MemoryRoot α VB}
    (hlaws : ∀ t, GroupRun b by_ n ids values r t → (b.groupBy by_ n).IsItsRows ids values t)
    (halone : ∀ t, GroupRun b by_ n ids values r t →
      (∀ u, GroupRun b by_ n ids values t u → ∀ g ∈ ids, hby.NoStrays g u) → hby.Alone ids t) :
    hby.Apart ids values r := by
  have hstrays : ∀ t, GroupRun b by_ n ids values r t → ∀ g ∈ ids, hby.NoStrays g t := by
    intro t hrun g hg
    obtain ⟨found, t', hdelete, hempty, _⟩ := (hlaws t hrun).delete g hg
    exact noStrays_of_delete hby n ⟨found, t', hdelete, hempty⟩
  have halone' : ∀ t, GroupRun b by_ n ids values r t → hby.Alone ids t :=
    fun t hrun => halone t hrun fun u hu => hstrays u (hrun.trans hu)
  refine ⟨hstrays r .start, halone' r .start, fun g hg m hm k hk => ?_⟩
  obtain ⟨t, hset, hread, _⟩ := (hlaws r .start).set g hg m hm none
  have hrun : GroupRun b by_ n ids values r t := by
    have hstep : GroupRun b by_ n ids values r ((b.groupBy by_ n).set g m ⟨none, none⟩ r).2 := .set hg hm none .start
    rw [hset] at hstep
    exact hstep
  obtain ⟨v, hv⟩ := Dict.mem_keys.mp hk
  -- A key that is read after it was written is listed, at its own place: there are no strays.
  obtain ⟨p, hlive, hlisted⟩ := (listed_of_mapping hby n hread k).mp (by rw [hv]; rfl)
  have hown := hstrays t hrun g hg p k hlive hlisted
  rw [hown] at hlive hlisted
  refine ⟨fun hempty => ?_, fun h hh hne => halone' t hrun g hg h hh hne _ k hlive hlisted⟩
  rw [hby.listed_own, if_pos hempty] at hlisted
  cases hlisted

/-- The groups are their rows and leave each other's, in every state that writes of them come to, exactly while they
    are apart before the first. Where the separator tells segments apart, being their rows is enough. A group lists a
    member of another where the text of its own id begins that of the other's with the separator and the leaf, and
    what follows is read. With one character that is in no name, its id then begins the other's. -/
theorem groups_iff_apart {K V α VB : Type} [DecidableEq α] [DecidableEq K] (b : MemoryKvBackend K V α VB) (by_ : String)
    (n : Nat) (hby : b.Groups by_) :
    (∀ (ids : Set String) (values : Set (Dict K V)) (r : MemoryRoot α VB),
      (∀ t, GroupRun b by_ n ids values r t → (b.groupBy by_ n).IsItsRows ids values t ∧
        (b.groupBy by_ n).LeavesOthers ids values t) ↔ hby.Apart ids values r) ∧
    (b.kvset.wire.Apart → ∀ (ids : Set String) (values : Set (Dict K V)) (r : MemoryRoot α VB),
      (∀ t, GroupRun b by_ n ids values r t → (b.groupBy by_ n).IsItsRows ids values t) ↔ hby.Apart ids values r) ∧
    (∀ g h k k', hby.listed h (hby.own g k) = some k' ↔
      ∃ rest, b.kvset.escapeSegment g ++ (b.kvset.wire.codes.sep ++ (hby.rows g).ownLeaf k) =
        b.kvset.escapeSegment h ++ rest ∧ b.kvset.readLeaf (b.scope.extend by_ h) rest = some k') ∧
    ∀ c, b.kvset.wire.codes.sep = [c] → (∀ name, c ∉ b.kvset.escapeSegment name) → ∀ g h, h ≠ g → ∀ k k',
      hby.listed h (hby.own g k) = some k' ↔ ∃ rest, b.kvset.escapeSegment g = b.kvset.escapeSegment h ++ rest ∧
        b.kvset.keySerde.deserialize (b.kvset.maybeUnescape
          (rest ++ c :: (hby.rows g).ownLeaf k) (b.scope.extend by_ h)) = some k' := by
  refine ⟨fun ids values r => ⟨fun hlaws => ?_, fun hapart t hrun => ?_⟩,
    fun hwire ids values r => ⟨fun hlaws => ?_, fun hapart t hrun => (hapart.run hby n hrun).isItsRows hby n⟩,
    hby.listed_own_other, fun c hsep hfree g h hne k k' => ?_⟩
  · exact groups_apart_of_laws hby (fun t hrun => (hlaws t hrun).1)
      fun t hrun hstrays => alone_of_leavesOthers hby n (hlaws t hrun).2 hstrays
  · exact ⟨(hapart.run hby n hrun).isItsRows hby n, (hapart.run hby n hrun).leavesOthers hby n⟩
  · exact groups_apart_of_laws hby hlaws fun t _ hstrays => hby.alone_of_apart hwire (hstrays t .start)
  · rw [hby.listed_own_other]
    exact b.kvset.readLeaf_other_iff hsep hfree hne _ _ k'

/-- The notes of each user, as one mapping. -/
theorem groups_plain : (plain String).Groups "user" := ⟨fun _ => rfl, fun _ => by simp [KvSet.Writes, plain, Scope.extend]⟩

def oneMember : Dict (List Char) String := .single ['k'] "A"

/-- A note of `alice`. -/
def ofAlice : MemoryRoot Char String :=
  (((plain String).inScope KeyCodec.alice rfl).set ['k'] "A" ⟨none, none⟩ (.empty 0)).2

theorem ofAlice_live {p : List Char} (h : (plain String).LiveAt ofAlice p) : p = "user:alice:k".toList := by
  obtain ⟨e, he, _⟩ := h
  have hput : (if p = _ then some _ else none) = some e :=
    (MemoryRoot.get?_put (.empty 0) (plain String).collection _ p _ _ _).symm.trans he
  split at hput
  · next hp => exact hp
  · cases hput

/-- Once the note of `alice` is there and one of `bob` was set. -/
theorem groups_iff_apart_users : ((plain String).groupBy "user" 100).IsItsRows {"alice", "bob"} {oneMember}
    (((plain String).groupBy "user" 100).set "bob" oneMember ⟨none, none⟩ ofAlice).2 := by
  have hbob : GroupRun (plain String) "user" 100 {"alice", "bob"} {oneMember} ofAlice
      (((plain String).groupBy "user" 100).set "bob" oneMember ⟨none, none⟩ ofAlice).2 :=
    .set (Set.mem_insert_of_mem _ (Set.mem_singleton _)) (Set.mem_singleton _) none .start
  refine (((groups_iff_apart (plain String) "user" 100 groups_plain).1 {"alice", "bob"} {oneMember} ofAlice).mpr
    ⟨fun g hg p k hlive hk => ?_, fun g hg h hh hne p k hlive hk => ?_, fun g hg m hm k hk => ?_⟩ _ hbob).1
  · rw [ofAlice_live hlive] at hk ⊢
    rcases hg with rfl | rfl
    · rw [← Option.some.inj (show some ['k'] = some k from hk)]
      rfl
    · cases hk
  · rw [ofAlice_live hlive] at hk ⊢
    rcases hg with rfl | rfl
    · rcases hh with rfl | rfl
      · exact absurd rfl hne
      · rfl
    · cases hk
  · rw [hm] at hk
    obtain rfl : k = ['k'] := List.mem_singleton.mp hk
    refine ⟨by decide, fun h hh hne => ?_⟩
    rcases hg with rfl | rfl <;> rcases hh with rfl | rfl
    · exact absurd rfl hne
    · rfl
    · rfl
    · exact absurd rfl hne

/-- What is set for `alice` is read for `al`. -/
theorem groups_stray : ¬ ∀ (g h : String) (m : Dict (List Char) String), h ≠ g → ∃ s',
    ((plain String).groupBy "user" 100).set g m ⟨none, none⟩ (.empty 0) = (.ok (), s') ∧
      ((plain String).groupBy "user" 100).mapping h s' = ((plain String).groupBy "user" 100).mapping h (.empty 0) := by
  intro h
  obtain ⟨s', hset, hsame⟩ := h "alice" "al" oneMember (by decide)
  have hstate : (((plain String).groupBy "user" 100).set "alice" oneMember ⟨none, none⟩ (.empty 0)).2 = s' := by
    rw [hset]
  rw [← hstate] at hsame
  have hread : ((plain String).groupBy "user" 100).mapping "al"
      (((plain String).groupBy "user" 100).set "alice" oneMember ⟨none, none⟩ (.empty 0)).2 =
      .ok (Dict.single "ice:k".toList "A").get? := by rfl
  have hempty : ((plain String).groupBy "user" 100).mapping "al" (.empty 0) = .ok Dict.empty.get? := by rfl
  rw [hread, hempty] at hsame
  have hlookup := congrFun (Except.ok.inj hsame) "ice:k".toList
  cases hlookup

end MemoryKvBackend

end Kvtsjl
