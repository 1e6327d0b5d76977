import Kvtsjl.Lib.Glob
import Kvtsjl.PrefixScans
import Kvtsjl.RedisStore

/-
  Scans for a prefix on a Redis server.
  The prefix, unescaped, and a star are the pattern of `SCAN` or `HSCAN`, and the keys that come
  back are checked again. The check takes away what the pattern matches too much, but not what it
  misses, nor what the server gives twice (`globScan_iff`).
-/

namespace Kvtsjl

open Assoc (Dict)
open Effects Prog

/-! ## Patterns -/

/-- A set of bytes between brackets, as far as it is read. -/
structure ByteSet where
  inverted : Bool
  tests : List (UInt8 → Bool)

namespace ByteSet

def add (set : ByteSet) (test : UInt8 → Bool) : ByteSet := { set with tests := set.tests ++ [test] }

def holds (set : ByteSet) (c : UInt8) : Bool := (set.tests.any fun test => test c) != set.inverted

end ByteSet

/-- The bytes from one to another, whichever is the greater. -/
def byteRange (a z c : UInt8) : Bool := min a z ≤ c && c ≤ max a z

/-- What a pattern of `MATCH` stands for, from inside a set or from outside. `*` is any run of bytes,
    `?` any byte, a set between brackets one of its bytes or, after `^`, none of them, and a backslash
    makes the byte after it stand for itself. A set that is not closed ends with the pattern. -/
def globItems : Option ByteSet → RedisBytes → List (Glob.Item UInt8)
  | none, [] => []
  | none, 0x2A :: pattern => .many :: globItems none pattern
  | none, 0x3F :: pattern => .one (fun _ => true) :: globItems none pattern
  | none, 0x5B :: 0x5E :: pattern => globItems (some ⟨true, []⟩) pattern
  | none, 0x5B :: pattern => globItems (some ⟨false, []⟩) pattern
  | none, 0x5C :: c :: pattern => .one (· = c) :: globItems none pattern
  | none, c :: pattern => .one (· = c) :: globItems none pattern
  | some set, [] => [.one set.holds]
  | some set, 0x5C :: c :: pattern => globItems (some (set.add (· = c))) pattern
  | some set, 0x5D :: pattern => .one set.holds :: globItems none pattern
  | some set, a :: 0x2D :: z :: pattern => globItems (some (set.add (byteRange a z))) pattern
  | some set, c :: pattern => globItems (some (set.add (· = c))) pattern

/-- A bracket opens a set, and a backslash escapes. -/
def special (c : UInt8) : Bool := c = 0x5B || c = 0x5C

theorem globItems_cons {c : UInt8} (h : special c = false) (pattern : RedisBytes) :
    ∃ item, Glob.Stands item c ∧ globItems none (c :: pattern) = item :: globItems none pattern := by
  unfold special at h
  rw [Bool.or_eq_false_iff, decide_eq_false_iff_not, decide_eq_false_iff_not] at h
  by_cases hstar : c = 0x2A
  · rw [hstar]
    exact ⟨.many, trivial, by rw [globItems]⟩
  · by_cases hany : c = 0x3F
    · rw [hany]
      exact ⟨.one fun _ => true, rfl, by rw [globItems]⟩
    · refine ⟨.one (· = c), decide_eq_true rfl, ?_⟩
      rw [globItems]
      all_goals simp [hstar, hany, h]

/-- A text without brackets and backslashes matches itself, whatever follows. -/
theorem accepts_globItems {text : RedisBytes} (h : ∀ c ∈ text, special c = false) (rest : RedisBytes) :
    Glob.accepts (globItems none (text ++ [0x2A])) (text ++ rest) = true := by
  have hitems : ∃ items, List.Forall₂ Glob.Stands items text ∧
      globItems none (text ++ [0x2A]) = items ++ [.many] := by
    induction text with
    | nil => exact ⟨[], .nil, rfl⟩
    | cons c text ih =>
      obtain ⟨items, hall, heq⟩ := ih fun d hd => h d (List.mem_cons_of_mem _ hd)
      obtain ⟨item, hitem, hcons⟩ := globItems_cons (h c List.mem_cons_self) (text ++ [0x2A])
      exact ⟨item :: items, .cons hitem hall, by rw [List.cons_append, hcons, heq]; rfl⟩
  obtain ⟨items, hall, heq⟩ := hitems
  rw [heq]
  exact Glob.accepts_of_stands hall rest

/-! ## Scanning -/

/-- Key blobs on their way to the server: `str` as UTF-8, or bytes. -/
structure RedisWire (α : Type) extends PathWire α where
  raw_append : ∀ blob rest, raw (blob ++ rest) = raw blob ++ raw rest
  raw_text : ∀ blob t, text blob = some t → utf8 t = raw blob

def RedisWire.str : RedisWire Char where
  toPathWire := PathWire.str
  raw_append _ _ := List.flatMap_append
  raw_text blob t h := by rw [Option.some.inj h]; rfl

def RedisWire.bytes : RedisWire UInt8 where
  toPathWire := PathWire.bytes
  raw_append _ _ := rfl
  raw_text blob t h := (decodeUtf8_eq_some blob t).mp h

namespace RedisKvBackend

variable {K V α : Type} [DecidableEq α] (w : RedisWire α) (b : RedisKvBackend K V α)

/-- The pattern for a prefix. The fields of a hash are not filtered for an empty one, or for one that
    is no text. -/
def matchPattern (blob : List α) : Option RedisBytes :=
  if b.useHash then
    if blob = [] then none else (w.text blob).map fun t => utf8 t ++ [0x2A]
  else some (w.raw blob ++ [0x2A])

/-- Whether `MATCH` lets a key through. -/
def passes (pattern : Option RedisBytes) (p : List α) : Bool :=
  pattern.all fun pattern => Glob.accepts (globItems none pattern) (w.raw p)

/-- A key that came back, with the value that came with it. -/
def scanOne (query : ScanQuery K) (row : List α × Option RedisBytes) : Except Exn (Option (K × Option V)) :=
  if ¬ b.scanPrefixBlob query.keyPrefix <+: row.1 then .ok none
  else match b.decodeKeyFromPhysical row.1 with
    | none => .ok none
    | some key =>
      if query.includeValues then
        match row.2 with
        | none => .ok none
        | some raw => (b.deserializeValue raw).map fun value => some (key, some value)
      else .ok (some (key, none))

/-- The keys of one reply, with the values asked for: a hash gives its fields as a dict with their
    values, and flat keys are read. -/
def pageRows (query : ScanQuery K) (page : List (List α)) :
    M (RedisServer α) (List (List α × Option RedisBytes)) :=
  match b.binding.collection with
  | some name => read fun s => (Dict.unique page).map fun field => (field, (s.fields name).get? field)
  | none =>
    if query.includeValues then do
      let values ← RedisServer.mget page
      return page.zip values
    else pure (page.map fun p => (p, none))

def scanPage (query : ScanQuery K) (page : List (List α)) : M (RedisServer α) (List (K × Option V)) := do
  let rows ← b.pageRows query page
  let entries ← ofExcept (rows.mapM (b.scanOne query))
  return entries.filterMap id

/-- `scan_entries`. `replies` are the server's, one after the other, for each pattern. -/
def scanEntries (replies : Option RedisBytes → List (List (List α))) (query : ScanQuery K) :
    M (RedisServer α) (List (K × Option V)) :=
  if query.keyPrefix.isSome && !b.kvset.keyLayout.supportsPrefixScan then
    raise (.scanUnsupported ("prefix scan unsupported for layout " ++ b.kvset.keyLayout.repr))
  else do
    let pages ← (replies (b.matchPattern w (b.scanPrefixBlob query.keyPrefix))).mapM (b.scanPage query)
    return pages.flatten

/-- `batch_get` -/
def batchGet [DecidableEq K] (keys : List K) : RedisScript K V α (Dict K V) := do
  let chunks ← Script.done (chunkSequence keys b.batchSize)
  chunks.foldlM (fun out chunk => do
    let ps ← Script.done (chunk.mapM b.physicalKeyBlob)
    let raws ← b.readRaw ps
    Script.done ((chunk.zip raws).foldlM (fun out e =>
      match e.2 with
      | none => .ok out
      | some raw => (b.deserializeValue raw).map fun value => out.set e.1 value) out)) Dict.empty

def leafStore [DecidableEq K] (replies : Option RedisBytes → List (List (List α))) :
    LeafKvStore (RedisServer α) K V where
  backend := "RedisKvBackend"
  orderableColumns := none
  listing := .legacy "RedisKvStore" (b.scanEntries w replies)
  batchGet keys := (b.batchGet keys).run

/-! ### What is there -/

/-- The keys of the database, or of the hash. -/
def storedPlaces (s : RedisServer α) : List (List α) :=
  match b.binding.collection with
  | some name => (s.fields name).keys
  | none => s.strings.keys

def Stored (s : RedisServer α) (p : List α) : Prop := p ∈ b.storedPlaces s

/-- The replies to a scan, from its beginning to its end: what is stored and passes comes at least
    once, and nothing else comes. -/
def Answers (s : RedisServer α) (replies : Option RedisBytes → List (List (List α))) : Prop :=
  ∀ pattern p, (∃ page ∈ replies pattern, p ∈ page) ↔ b.Stored s p ∧ passes w pattern p = true

/-- All that passes, in one reply. -/
def onePage (s : RedisServer α) (pattern : Option RedisBytes) : List (List (List α)) :=
  [(b.storedPlaces s).filter (passes w pattern)]

theorem answers_onePage (s : RedisServer α) : b.Answers w s (b.onePage w s) := by
  intro pattern p
  unfold onePage Stored
  simp only [List.mem_singleton, exists_eq_left, List.mem_filter]

/-! ### What comes back -/

/-- The keys of a reply as the client has them. The fields of a hash are a dict. -/
def came (page : List (List α)) : List (List α) := if b.useHash then Dict.unique page else page

theorem mem_came {page : List (List α)} {p : List α} : p ∈ b.came page ↔ p ∈ page := by
  unfold came
  split
  · exact Dict.mem_unique
  · rfl

theorem pageRows_run {query : ScanQuery K} (h : query.includeValues = false) (page : List (List α))
    (s : RedisServer α) : ∃ rows, b.pageRows query page s = (.ok rows, s) ∧ rows.map Prod.fst = b.came page := by
  unfold pageRows came useHash
  cases b.binding.collection with
  | some name =>
    refine ⟨_, rfl, ?_⟩
    rw [List.map_map]
    exact List.map_id _
  | none =>
    rw [h]
    refine ⟨_, rfl, ?_⟩
    rw [List.map_map]
    exact List.map_id _

theorem mapM_scanOne (pre : K) (n : Nat) (rows : List (List α × Option RedisBytes)) :
    rows.mapM (b.scanOne ⟨some pre, false, n⟩) =
      .ok (rows.map fun row => (b.shownUnder pre row.1).map fun k => (k, (none : Option V))) := by
  have hone : ∀ row, b.scanOne ⟨some pre, false, n⟩ row =
      .ok ((b.shownUnder pre row.1).map fun k => (k, (none : Option V))) := by
    intro row
    unfold scanOne KvBackend.shownUnder
    by_cases hfound : b.scanPrefixBlob (some pre) <+: row.1
    · rw [if_neg (not_not.mpr hfound), if_pos hfound]
      cases b.decodeKeyFromPhysical row.1 <;> rfl
    · rw [if_pos hfound, if_neg hfound]
      rfl
  induction rows with
  | nil => rfl
  | cons row rows ih =>
    rw [List.mapM_cons, hone, ih]
    rfl

theorem scanPage_run (pre : K) (n : Nat) (page : List (List α)) (s : RedisServer α) :
    b.scanPage ⟨some pre, false, n⟩ page s =
      (.ok ((b.came page).filterMap fun p => (b.shownUnder pre p).map fun k => (k, none)), s) := by
  have hvalues : (⟨some pre, false, n⟩ : ScanQuery K).includeValues = false := rfl
  obtain ⟨rows, hrows, hkeys⟩ := b.pageRows_run hvalues page s
  have hentries : (ofExcept (rows.mapM (b.scanOne ⟨some pre, false, n⟩)) :
      M (RedisServer α) (List (Option (K × Option V)))) s =
      (.ok (rows.map fun row => (b.shownUnder pre row.1).map fun k => (k, (none : Option V))), s) := by
    rw [mapM_scanOne]
    rfl
  unfold scanPage
  rw [bind_ok hrows, bind_ok hentries, ← hkeys, List.filterMap_map]
  show ((Except.ok _ : Except Exn _), s) = _
  rw [List.filterMap_map]
  rfl

theorem mapM_scanPage (pre : K) (n : Nat) (pages : List (List (List α))) (s : RedisServer α) :
    pages.mapM (b.scanPage ⟨some pre, false, n⟩) s =
      (.ok (pages.map fun page => (b.came page).filterMap fun p =>
        (b.shownUnder pre p).map fun k => (k, none)), s) := by
  induction pages with
  | nil => rfl
  | cons page pages ih =>
    rw [List.mapM_cons, bind_ok (b.scanPage_run pre n page s), bind_ok ih]
    rfl

/-- The keys of all replies to a scan for a prefix. -/
def listed (replies : Option RedisBytes → List (List (List α))) (pre : K) : List (List α) :=
  (replies (b.matchPattern w (b.scanPrefixBlob (some pre)))).flatMap b.came

theorem scanEntries_run (h : b.kvset.keyLayout ≠ .hashed)
    (replies : Option RedisBytes → List (List (List α))) (pre : K) (n : Nat) (s : RedisServer α) :
    (b.scanEntries w replies ⟨some pre, false, n⟩ s).1 =
      .ok ((b.listed w replies pre).filterMap fun p => (b.shownUnder pre p).map fun k => (k, none)) := by
  have hsupported : b.kvset.keyLayout.supportsPrefixScan = true := decide_eq_true h
  unfold scanEntries
  rw [hsupported, if_neg (by simp), bind_ok (b.mapM_scanPage pre n _ s)]
  show (Except.ok _ : Except Exn _) = _
  unfold listed
  rw [List.filterMap_flatMap, ← List.flatMap_def]

/-- The blob of a stored key, if the pattern for the prefix lets it through. -/
def matchedBlob (pre : K) (p : List α) : Option (List α) :=
  if passes w (b.matchPattern w (b.scanPrefixBlob (some pre))) p then some p else none

/-- Without brackets and backslashes in what all keys with the prefix begin with, none of them is
    held back. -/
theorem passes_of_plain {blob p : List α} (h : ∀ c ∈ w.raw blob, special c = false) (hp : blob <+: p) :
    passes w (b.matchPattern w blob) p = true := by
  obtain ⟨rest, rfl⟩ := hp
  have haccepts : Glob.accepts (globItems none (w.raw blob ++ [0x2A])) (w.raw (blob ++ rest)) = true := by
    rw [w.raw_append]
    exact accepts_globItems h (w.raw rest)
  unfold passes matchPattern
  split
  · split
    · rfl
    · cases htext : w.text blob with
      | none => rfl
      | some t =>
        rw [Option.map_some, Option.all_some, w.raw_text blob t htext]
        exact haccepts
  · exact haccepts

theorem prefixExact_plain [ScanKey K] {pre : K}
    (h : ∀ c ∈ w.raw (b.scanPrefixBlob (some pre)), special c = false) {live : List α → Prop} :
    b.PrefixExact live (b.matchedBlob w pre) b.keyBlob pre ↔ b.PrefixExact live some b.keyBlob pre := by
  refine b.prefixExact_congr fun p k => ?_
  unfold KvBackend.ShowsAt matchedBlob
  constructor
  · intro ⟨leaf, hleaf, hshows⟩
    split at hleaf
    · exact ⟨leaf, hleaf, hshows⟩
    · cases hleaf
  · intro ⟨leaf, hleaf, hshows⟩
    have hfront : b.scanPrefixBlob (some pre) <+: p := by
      rw [Option.some.inj hleaf]
      exact b.itemKeyBlob_prefix_iff.mpr hshows.1
    exact ⟨leaf, by rw [if_pos (b.passes_of_plain w h hfront)]; exact hleaf, hshows⟩

/-! ### Exactness -/

section Exact

variable {w b}

theorem mem_listed {s : RedisServer α} {replies : Option RedisBytes → List (List (List α))}
    (h : b.Answers w s replies) {pre : K} {p : List α} : p ∈ b.listed w replies pre ↔
      b.Stored s p ∧ passes w (b.matchPattern w (b.scanPrefixBlob (some pre))) p = true := by
  rw [← h, listed, List.mem_flatMap]
  simp only [mem_came]

/-- No key that is shown comes back twice. -/
def ComeOnce (w : RedisWire α) (b : RedisKvBackend K V α) (replies : Option RedisBytes → List (List (List α)))
    (pre : K) : Prop :=
  ((b.listed w replies pre).filter fun p => (b.shownUnder pre p).isSome).Nodup

/-- What comes back, and what is stored but does not pass. -/
def places (w : RedisWire α) (b : RedisKvBackend K V α) (s : RedisServer α)
    (replies : Option RedisBytes → List (List (List α))) (pre : K) : List (List α) :=
  b.listed w replies pre ++
    (b.storedPlaces s).filter fun p => !passes w (b.matchPattern w (b.scanPrefixBlob (some pre))) p

theorem mem_places {s : RedisServer α} {replies : Option RedisBytes → List (List (List α))}
    (h : b.Answers w s replies) {pre : K} {p : List α} : p ∈ places w b s replies pre ↔ b.Stored s p := by
  unfold places
  rw [List.mem_append, mem_listed h, List.mem_filter, Bool.not_eq_true']
  constructor
  · intro hp
    rcases hp with hp | hp
    · exact hp.1
    · exact hp.1
  · intro hp
    cases hpasses : passes w (b.matchPattern w (b.scanPrefixBlob (some pre))) p with
    | true => exact .inl ⟨hp, rfl⟩
    | false => exact .inr ⟨hp, rfl⟩

/-- Of the places, those that come back are shown as their blobs say, and the others are not. -/
theorem places_append {s : RedisServer α} {replies : Option RedisBytes → List (List (List α))}
    (h : b.Answers w s replies) (pre : K) {γ : Type} (f : List α → Option γ) :
    (places w b s replies pre).filterMap (fun p => (b.matchedBlob w pre p).bind f) =
      (b.listed w replies pre).filterMap f := by
  unfold places matchedBlob
  rw [List.filterMap_append]
  have hrest : ((b.storedPlaces s).filter fun p =>
      !passes w (b.matchPattern w (b.scanPrefixBlob (some pre))) p).filterMap (fun p =>
        (if passes w (b.matchPattern w (b.scanPrefixBlob (some pre))) p then some p else none).bind f) = [] := by
    rw [List.filterMap_eq_nil_iff]
    intro p hp
    have hheld := (List.mem_filter.mp hp).2
    rw [Bool.not_eq_true'] at hheld
    rw [hheld]
    rfl
  rw [hrest, List.append_nil]
  refine List.filterMap_congr fun p hp => ?_
  rw [((mem_listed h).mp hp).2]
  rfl

variable [DecidableEq K] [ScanKey K]

/-- A scan is exact where no key shown comes back twice, and `PrefixExact` holds with the keys that the
    pattern lets through. -/
theorem scan_exact_iff {s : RedisServer α} {replies : Option RedisBytes → List (List (List α))}
    (h : b.Answers w s replies) (pre : K) :
    YieldsExactly ((b.leafStore w replies).scan b.kvset.keyLayout pre s).1 (fun k => b.Stored s (b.keyBlob k)) pre ↔
      b.kvset.keyLayout ≠ .hashed ∧ ComeOnce w b replies pre ∧
        b.PrefixExact (b.Stored s) (b.matchedBlob w pre) b.keyBlob pre := by
  by_cases hlayout : b.kvset.keyLayout = .hashed
  · refine iff_of_false ?_ fun h => h.1 hlayout
    intro ⟨keys, hkeys, _⟩
    obtain ⟨e, he⟩ := (b.leafStore w replies).scan_hashed pre s
    rw [hlayout, he] at hkeys
    cases hkeys
  · have hcompiled : (b.leafStore w replies).listing.compileScan (.ofPrefix (some pre) .keys .unordered none 100) =
        .ok ⟨do
          let entries ← b.scanEntries w replies ⟨some pre, false, 100⟩
          return afterCursor none (entries.map fun e => ⟨e.1, e.2, none⟩), .alwaysTrue⟩ := rfl
    have hrows : ((do
        let entries ← b.scanEntries w replies ⟨some pre, false, 100⟩
        return afterCursor none (entries.map fun e => ⟨e.1, e.2, none⟩) :
          M (RedisServer α) (List (ScanRow K V))) s).1 =
        .ok ((b.listed w replies pre).filterMap fun p => (b.shownUnder pre p).map fun k => ⟨k, none, none⟩) := by
      rw [bind_ok (Prod.ext (b.scanEntries_run w hlayout replies pre 100 s) rfl)]
      show (Except.ok (List.map _ _) : Except Exn _) = _
      rw [List.map_filterMap]
      simp only [Option.map_map]
      rfl
    have hscan := LeafKvStore.scan_run hlayout hcompiled hrows
    have hkeys : ((b.leafStore w replies).scan b.kvset.keyLayout pre s).1 =
        .ok ((b.listed w replies pre).filterMap (b.shownUnder pre)) := by
      rw [hscan, List.map_filterMap]
      refine congrArg _ (List.filterMap_congr fun p _ => ?_)
      cases b.shownUnder pre p <;> rfl
    have honce : ((places w b s replies pre).filter fun p =>
        ((b.matchedBlob w pre p).bind (b.shownUnder pre)).isSome).Nodup ↔ ComeOnce w b replies pre := by
      have hself : ∀ ps : List (List α), ∀ g : List α → Option K,
          ps.filter (fun p => (g p).isSome) = ps.filterMap fun p => (g p).map fun _ => p := by
        intro ps g
        rw [← List.filterMap_eq_filter]
        refine List.filterMap_congr fun p _ => ?_
        cases hg : g p <;> simp [Option.guard, hg]
      have hkept : ∀ p, ((b.matchedBlob w pre p).bind (b.shownUnder pre)).map (fun _ => p) =
          (b.matchedBlob w pre p).bind fun p => (b.shownUnder pre p).map fun _ => p := by
        intro p
        unfold matchedBlob
        split <;> rfl
      unfold ComeOnce
      rw [hself, hself]
      simp only [hkept]
      rw [places_append h]
    have hexact : Listing.Exact (places w b s replies pre)
        (fun p => (b.matchedBlob w pre p).bind (b.shownUnder pre)) b.keyBlob
        (fun k => ScanKey.startsWith k pre = true) ↔ _ := b.exact_iff_once fun _ => mem_places h
    rw [honce] at hexact
    rw [and_iff_right hlayout, ← hexact]
    unfold YieldsExactly Listing.Exact
    simp only [mem_places h]
    rw [places_append h, hkeys]
    constructor
    · intro ⟨keys, hok, hboth⟩
      rw [Except.ok.inj hok]
      exact hboth
    · intro hboth
      exact ⟨_, rfl, hboth⟩

/-- A scan for a prefix gives the live keys that start with it, each once, where the server gives no
    key shown twice and `PrefixExact` holds of the keys its pattern lets through. Where neither the
    scope nor the prefix has a bracket or a backslash, the pattern holds none of them back. -/
theorem globScan_iff (w : RedisWire α) (b : RedisKvBackend K V α) {s : RedisServer α}
    {replies : Option RedisBytes → List (List (List α))} (h : b.Answers w s replies) (pre : K) :
    (YieldsExactly ((b.leafStore w replies).scan b.kvset.keyLayout pre s).1 (fun k => b.Stored s (b.keyBlob k)) pre ↔
      b.kvset.keyLayout ≠ .hashed ∧ ComeOnce w b replies pre ∧
        b.PrefixExact (b.Stored s) (b.matchedBlob w pre) b.keyBlob pre) ∧
    (∀ k p, b.physicalKeyBlob k = .ok p → p = b.keyBlob k) ∧
    ((∀ c ∈ w.raw (b.scanPrefixBlob (some pre)), special c = false) →
      (b.PrefixExact (b.Stored s) (b.matchedBlob w pre) b.keyBlob pre ↔
        b.PrefixExact (b.Stored s) some b.keyBlob pre)) :=
  ⟨scan_exact_iff h pre, fun _ _ hp => b.physicalKeyBlob_eq_keyBlob hp, fun hplain => b.prefixExact_plain w hplain⟩

end Exact

/-! ## A key with a bracket -/

/-- Texts under flat keys. -/
def plainFlat : RedisKvBackend (List Char) RedisBytes Char where
  kvset := (MemoryKvBackend.plain RedisBytes).kvset
  scope := .empty
  binding := keyPrefixBinder (MemoryKvBackend.plain RedisBytes).kvset
  valid := rfl
  batchSize := 500
  unexpiring h := by cases h

/-- A server with one key. -/
def oneFlat (key : String) : RedisServer Char :=
  (RedisServer.set (plainFlat.keyBlob key.toList) [1] .never (.empty 0)).2

/-- A server with two. -/
def twoFlat : RedisServer Char := (RedisServer.set (plainFlat.keyBlob ['x']) [2] .never (oneFlat "k")).2

theorem globScan_iff_twoFlat :
    YieldsExactly ((plainFlat.leafStore .str (plainFlat.onePage .str twoFlat)).scan .literal ['k'] twoFlat).1
      (fun k => plainFlat.Stored twoFlat (plainFlat.keyBlob k)) ['k'] := by
  obtain ⟨hexact, -, hplain⟩ := globScan_iff .str plainFlat (plainFlat.answers_onePage .str twoFlat) ['k']
  have hplace : ∀ p, plainFlat.Stored twoFlat p → p = plainFlat.keyBlob ['k'] ∨ p = plainFlat.keyBlob ['x'] :=
    fun p hp => (List.mem_cons.mp hp).imp_right List.mem_singleton.mp
  have hkey : ∀ k, plainFlat.Stored twoFlat (plainFlat.keyBlob k) → k = ['k'] ∨ k = ['x'] := fun k hk =>
    (hplace _ hk).imp (fun h => plainFlat.itemKeyBlob_injective h) fun h => plainFlat.itemKeyBlob_injective h
  have hbare : ((RedisWire.str).raw (plainFlat.scanPrefixBlob (some ['k']))).all (fun c => !special c) = true := by
    decide
  have hspecial : ∀ c ∈ (RedisWire.str).raw (plainFlat.scanPrefixBlob (some ['k'])), special c = false := fun c hc =>
    (Bool.not_eq_true' _).mp (List.all_eq_true.mp hbare c hc)
  refine hexact.mpr ⟨by decide, List.Nodup.filter _ (by decide), (hplain hspecial).mpr ?_⟩
  refine KvBackend.prefixExact_of_own (fun p hp => ?_) ?_ ?_
  · rcases hplace p hp with h | h
    · exact ⟨['k'], h⟩
    · exact ⟨['x'], h⟩
  · intro k k' _ ⟨leaf, hleaf, hshown⟩
    have hk : k = leaf := plainFlat.itemKeyBlob_injective (Option.some.inj hleaf)
    rw [← hk] at hshown
    exact (Option.some.inj hshown.2).symm
  · intro k hlive
    rcases hkey k hlive with rfl | rfl
    · refine iff_of_true ⟨['k'], rfl, ?_, ?_⟩ ?_ <;> decide
    · refine iff_of_false (fun ⟨leaf, hleaf, hshown⟩ => ?_) (by decide)
      have hk : ['x'] = leaf := plainFlat.itemKeyBlob_injective (Option.some.inj hleaf)
      rw [← hk] at hshown
      exact absurd hshown.1 (by decide)

/-- `a[b` is live and starts with `a[`, and does not come back. -/
theorem scan_misses_bracket :
    plainFlat.Answers .str (oneFlat "a[b") (plainFlat.onePage .str (oneFlat "a[b")) ∧
    ¬ YieldsExactly ((plainFlat.leafStore .str (plainFlat.onePage .str (oneFlat "a[b"))).scan .literal
      "a[".toList (oneFlat "a[b")).1 (fun k => plainFlat.Stored (oneFlat "a[b") (plainFlat.keyBlob k))
      "a[".toList := by
  refine ⟨plainFlat.answers_onePage .str (oneFlat "a[b"), ?_⟩
  intro ⟨keys, hkeys, _, hmem⟩
  have hnone : ((plainFlat.leafStore .str (plainFlat.onePage .str (oneFlat "a[b"))).scan .literal
      "a[".toList (oneFlat "a[b")).1 = .ok [] := by rfl
  rw [hnone] at hkeys
  have hlive := (hmem "a[b".toList).mpr ⟨List.mem_singleton.mpr rfl, by decide⟩
  rw [← Except.ok.inj hkeys] at hlive
  cases hlive

end RedisKvBackend

end Kvtsjl
