import Kvtsjl.ObjectPaths

/-
  Reading keys back.
  The codec of an object store strips the collection's prefix, the path's encoding, the name and
  version and the scope, and unescapes a leaf that it never escaped (`decodePhysical_iff`).
  A blob with a declared schema holds its whole scope, and is taken apart at the separators.
-/

namespace Kvtsjl

open Delimited

/-! ## Keys on an object store -/

theorem stripPrefix_append {α : Type} [DecidableEq α] (pre rest : List α) :
    KvSet.stripPrefix (pre ++ rest) pre = some rest := by
  unfold KvSet.stripPrefix
  rw [if_pos (List.prefix_append pre rest), List.drop_left]

theorem stripPrefix_eq_some {α : Type} [DecidableEq α] {full pre rest : List α} :
    KvSet.stripPrefix full pre = some rest ↔ full = pre ++ rest := by
  constructor
  · intro h
    unfold KvSet.stripPrefix at h
    split at h
    · next hpre =>
      obtain ⟨t, ht⟩ := hpre
      rw [← ht, List.drop_left] at h
      rw [← Option.some.inj h, ht]
    · cases h
  · intro h
    rw [h, stripPrefix_append]

namespace KvSet

variable {K V α VB : Type} [DecidableEq α] (s : KvSet K V α VB)

theorem stripSep_append (rest : List α) : s.stripSep (s.wire.codes.sep ++ rest) = rest := by
  unfold stripSep
  rw [stripPrefix_append]
  rfl

theorem maybeUnescape_of_schema {scope : Scope} (h : s.scopeSchema ≠ none) (leaf : List α) :
    s.maybeUnescape leaf scope = leaf := by
  unfold maybeUnescape
  rw [if_neg fun hboth => h hboth.1]

/-- The leaf read from what the scope's text leaves of a blob. -/
def readLeaf (scope : Scope) (rest : List α) : Option K :=
  if s.stripSep rest = [] then none
  else s.keySerde.deserialize (s.maybeUnescape (s.stripSep rest) scope)

/-- A blob that begins with the scope's text gives the leaf behind it. -/
theorem decodeLeafFromInKey_eq_some {scope : Scope} {inKey : List α} {key : K} :
    s.decodeLeafFromInKey scope inKey = some key ↔
      (scope.segments = [] ∧ s.keySerde.deserialize inKey = some key) ∨
      (scope.segments ≠ [] ∧ ∃ rest, inKey = s.joinParts (s.scopeParts scope) ++ rest ∧
        s.readLeaf scope rest = some key) := by
  unfold decodeLeafFromInKey
  by_cases hempty : scope.segments = []
  · have hplain : s.maybeUnescape inKey scope = inKey := by
      unfold maybeUnescape
      rw [if_neg fun hboth => hboth.2 hempty]
    rw [if_pos hempty, hplain]
    constructor
    · intro h
      exact .inl ⟨hempty, h⟩
    · rintro (⟨-, h⟩ | ⟨hne, -⟩)
      · exact h
      · exact absurd hempty hne
  · rw [if_neg hempty]
    simp only [Option.bind_eq_bind, Option.bind_eq_some_iff, stripPrefix_eq_some]
    constructor
    · intro h
      exact .inr ⟨hempty, h⟩
    · rintro (⟨hnil, -⟩ | ⟨-, h⟩)
      · exact absurd hnil hempty
      · exact h

/-- The key in its scope, with its leaf as the codec of an object store leaves it. -/
def plainInKey (scope : Scope) (key : K) : List α :=
  s.joinParts (s.scopeParts scope ++ [s.keySerde.serialize key])

theorem plainInKey_of_ne {scope : Scope} (h : scope.segments ≠ []) (key : K) :
    s.plainInKey scope key =
      s.joinParts (s.scopeParts scope) ++ (s.wire.codes.sep ++ s.keySerde.serialize key) := by
  have hne : s.scopeParts scope ≠ [] := by
    obtain ⟨gs⟩ := scope
    cases gs with
    | nil => exact absurd rfl h
    | cons g gs => simp [scopeParts]
  unfold plainInKey joinParts
  exact join_append _ hne (by simp)

/-- Under its own scope a key is read back unless its leaf is empty, or is unescaped to
    something that is not read as the key. -/
theorem decode_plainInKey_iff (scope : Scope) (key : K) :
    s.decodeLeafFromInKey scope (s.plainInKey scope key) = some key ↔
      (scope.segments ≠ [] → s.keySerde.serialize key ≠ [] ∧ (s.scopeSchema = none →
        s.keySerde.deserialize (s.wire.codes.unescape (s.keySerde.serialize key)) = some key)) := by
  rw [decodeLeafFromInKey_eq_some]
  by_cases hempty : scope.segments = []
  · have hleaf : s.plainInKey scope key = s.keySerde.serialize key := by
      unfold plainInKey scopeParts
      rw [hempty]
      rfl
    rw [hleaf, s.keySerde.roundtrip]
    exact iff_of_true (.inl ⟨hempty, rfl⟩) fun hne => absurd hempty hne
  · rw [plainInKey_of_ne s hempty]
    have hread : s.readLeaf scope (s.wire.codes.sep ++ s.keySerde.serialize key) = some key ↔
        s.keySerde.serialize key ≠ [] ∧ (s.scopeSchema = none →
          s.keySerde.deserialize (s.wire.codes.unescape (s.keySerde.serialize key)) = some key) := by
      unfold readLeaf
      rw [stripSep_append]
      by_cases hnil : s.keySerde.serialize key = []
      · rw [if_pos hnil]
        exact iff_of_false (by simp) fun h => h.1 hnil
      · rw [if_neg hnil]
        unfold maybeUnescape
        by_cases hschema : s.scopeSchema = none
        · rw [if_pos ⟨hschema, hempty⟩]
          exact ⟨fun h => ⟨hnil, fun _ => h⟩, fun h => h.2 hschema⟩
        · rw [if_neg fun hboth => hschema hboth.1, s.keySerde.roundtrip]
          exact iff_of_true rfl ⟨hnil, fun h => absurd h hschema⟩
    rw [← hread]
    constructor
    · rintro (⟨hnil, -⟩ | ⟨-, rest, hrest, h⟩) _
      · exact absurd hnil hempty
      · rw [List.append_cancel_left hrest]
        exact h
    · intro h
      exact .inr ⟨hempty, _, rfl, h hempty⟩

end KvSet

namespace KvBackend

variable {K V α VB : Type} [DecidableEq α] (b : KvBackend K V α VB)

/-- The name and version are stripped with the separator behind them. -/
theorem decodeKeyFromPhysical_join (inKey : List α) :
    b.decodeKeyFromPhysical (b.kvset.joinParts (b.binding.nameVersionPrefix ++ [inKey])) =
      b.kvset.decodeLeafFromInKey b.scope inKey := by
  unfold decodeKeyFromPhysical
  split
  · next hnil =>
    rw [hnil]
    rfl
  · next hne =>
    unfold KvSet.joinParts
    rw [join_append _ hne (by simp), stripPrefix_append]
    show b.kvset.decodeLeafFromInKey b.scope (b.kvset.stripSep (b.kvset.wire.codes.sep ++ inKey)) = _
    rw [KvSet.stripSep_append]

end KvBackend

namespace KeyCodec

variable {K V α VB : Type} [DecidableEq α] (w : BlobWire α) (sha256 : List UInt8 → List Char)
  (c : KeyCodec K V α VB)

/-- `_blob_from_physical` -/
def blobFromPhysical (physical : List Char) : Option (List α) := do
  let rel ← KvSet.stripPrefix physical c.collectionPrefix
  match decodePath w c.kvset.keyLayout rel with
  | .ok blob => some blob
  | .error _ => none

def decodePhysical (physical : List Char) : Option K := do
  let pk ← c.blobFromPhysical w physical
  c.decodeKeyFromPhysical pk

/-- A key is given back by the object it was written as. -/
def ReadBack (scope : Scope) (hs : c.kvset.validateScope scope = .ok ()) (key : K) : Prop :=
  ∃ p, (c.cloneWithScope scope hs).encodePhysical w.toPathWire sha256 key = .ok p ∧
    (c.cloneWithScope scope hs).decodePhysical w p = some key

/-- The object of a key is no key of another scope. -/
def Foreign (scope scope' : Scope) (hs : c.kvset.validateScope scope = .ok ())
    (hs' : c.kvset.validateScope scope' = .ok ()) (key : K) : Prop :=
  ∀ p, (c.cloneWithScope scope hs).encodePhysical w.toPathWire sha256 key = .ok p →
    (c.cloneWithScope scope' hs').decodePhysical w p = none

/-- What a leaf holds of the two escape codes, its codec reads the same without them. -/
def ReadUnescaped (s : KvSet K V α VB) (key : K) : Prop :=
  s.keySerde.deserialize (s.wire.codes.unescape (s.keySerde.serialize key)) = some key

instance [DecidableEq K] (s : KvSet K V α VB) (key : K) : Decidable (ReadUnescaped s key) :=
  inferInstanceAs (Decidable (_ = some key))

/-- Under a `LITERAL` layout the object of a key holds its blob. -/
theorem decodePhysical_literal (h : c.kvset.keyLayout = .literal) (scope scope' : Scope)
    (hs : c.kvset.validateScope scope = .ok ()) (hs' : c.kvset.validateScope scope' = .ok ()) (key : K) :
    ∃ p, (c.cloneWithScope scope hs).encodePhysical w.toPathWire sha256 key = .ok p ∧
      (c.cloneWithScope scope' hs').decodePhysical w p =
        c.kvset.decodeLeafFromInKey scope' (c.kvset.plainInKey scope key) := by
  have hblob : (c.cloneWithScope scope hs).inKeyBlob key =
      c.kvset.joinParts (c.binding.nameVersionPrefix ++ [c.kvset.plainInKey scope key]) := by
    unfold inKeyBlob KvBackend.itemKeyBlob KvBackend.prefixParts cloneWithScope KvSet.plainInKey
      KvSet.joinParts
    simp only [List.append_assoc]
    by_cases hnv : c.binding.nameVersionPrefix = []
    · rw [hnv]
      rfl
    · rw [join_append _ hnv (by simp), join_append _ hnv (by simp)]
      rfl
  obtain ⟨rel, hrel, hback⟩ := decodePath_encodePath w sha256 ((c.cloneWithScope scope hs).inKeyBlob key)
  refine ⟨c.collectionPrefix ++ rel, ?_, ?_⟩
  · unfold encodePhysical
    rw [show (c.cloneWithScope scope hs).kvset.keyLayout = .literal from h, hrel]
    rfl
  · have hread : (c.cloneWithScope scope' hs').blobFromPhysical w (c.collectionPrefix ++ rel) =
        some ((c.cloneWithScope scope hs).inKeyBlob key) := by
      unfold blobFromPhysical
      rw [show (c.cloneWithScope scope' hs').collectionPrefix = c.collectionPrefix from rfl,
        stripPrefix_append, show (c.cloneWithScope scope' hs').kvset.keyLayout = .literal from h]
      show (match decodePath w .literal rel with
        | .ok blob => some blob
        | .error _ => none) = _
      rw [hback]
    unfold decodePhysical
    rw [hread, hblob]
    exact (c.cloneWithScope scope' hs').toKvBackend.decodeKeyFromPhysical_join _

/-- No other layout is reversed. -/
theorem decodePhysical_of_ne (h : c.kvset.keyLayout ≠ .literal) (p : List Char) :
    c.decodePhysical w p = none := by
  have hnone : c.blobFromPhysical w p = none := by
    unfold blobFromPhysical decodePath
    simp only [if_pos h]
    cases KvSet.stripPrefix p c.collectionPrefix with
    | none => rfl
    | some rel => rfl
  unfold decodePhysical
  rw [hnone]
  rfl

theorem readBack_iff (scope : Scope) (hs : c.kvset.validateScope scope = .ok ()) (key : K) :
    c.ReadBack w sha256 scope hs key ↔ c.kvset.keyLayout = .literal ∧
      (scope.segments ≠ [] → c.kvset.keySerde.serialize key ≠ [] ∧
        (c.kvset.scopeSchema = none → ReadUnescaped c.kvset key)) := by
  by_cases h : c.kvset.keyLayout = .literal
  · obtain ⟨p, hp, hdecode⟩ := decodePhysical_literal w sha256 c h scope scope hs hs key
    unfold ReadUnescaped
    rw [← KvSet.decode_plainInKey_iff, ← hdecode]
    constructor
    · intro ⟨p', hp', hback⟩
      rw [Except.ok.inj (hp.symm.trans hp')]
      exact ⟨h, hback⟩
    · intro hback
      exact ⟨p, hp, hback.2⟩
  · refine iff_of_false (fun ⟨p, _, hback⟩ => ?_) (fun hboth => h hboth.1)
    rw [decodePhysical_of_ne w (c.cloneWithScope scope hs) h] at hback
    cases hback

/-- Another scope reads a key in the object exactly where the object can be read, its blob begins
    with the text of that scope, and something is left that is read as a key. -/
theorem foreign_iff (scope scope' : Scope) (hs : c.kvset.validateScope scope = .ok ())
    (hs' : c.kvset.validateScope scope' = .ok ()) (key : K) :
    c.Foreign w sha256 scope scope' hs hs' key ↔ (c.kvset.keyLayout = .literal →
      (scope'.segments = [] → c.kvset.keySerde.deserialize (c.kvset.plainInKey scope key) = none) ∧
      (scope'.segments ≠ [] → ∀ rest,
        c.kvset.plainInKey scope key = c.kvset.joinParts (c.kvset.scopeParts scope') ++ rest →
          c.kvset.readLeaf scope' rest = none)) := by
  by_cases h : c.kvset.keyLayout = .literal
  · obtain ⟨p, hp, hdecode⟩ := decodePhysical_literal w sha256 c h scope scope' hs hs' key
    have hforeign : c.Foreign w sha256 scope scope' hs hs' key ↔
        ∀ key', c.kvset.decodeLeafFromInKey scope' (c.kvset.plainInKey scope key) ≠ some key' := by
      rw [← Option.eq_none_iff_forall_ne_some, ← hdecode]
      constructor
      · intro hnone
        exact hnone p hp
      · intro hnone p' hp'
        rw [← Except.ok.inj (hp.symm.trans hp')]
        exact hnone
    rw [hforeign]
    simp only [ne_eq, KvSet.decodeLeafFromInKey_eq_some, not_or, not_and]
    constructor
    · intro hnone _
      refine ⟨fun hempty => ?_, fun hne rest hrest => ?_⟩
      · exact Option.eq_none_iff_forall_ne_some.mpr fun key' => (hnone key').1 hempty
      · exact Option.eq_none_iff_forall_ne_some.mpr fun key' hkey => (hnone key').2 hne ⟨rest, hrest, hkey⟩
    · intro hnone key'
      refine ⟨fun hempty hkey => ?_, fun hne ⟨rest, hrest, hkey⟩ => ?_⟩
      · rw [(hnone h).1 hempty] at hkey
        cases hkey
      · rw [(hnone h).2 hne rest hrest] at hkey
        cases hkey
  · refine iff_of_true (fun p _ => decodePhysical_of_ne w (c.cloneWithScope scope' hs') h p) (fun hliteral => absurd hliteral h)

/-- A codec that reads each key from one blob only reads it unescaped where no code is in it. -/
theorem readUnescaped_iff {s : KvSet K V α VB}
    (h : ∀ blob key, s.keySerde.deserialize blob = some key → s.keySerde.serialize key = blob) (key : K) :
    ReadUnescaped s key ↔ (s.wire.codes.sep ≠ [] → ¬ s.wire.codes.sepCode <:+: s.keySerde.serialize key) ∧
      ¬ s.wire.codes.markCode <:+: s.keySerde.serialize key := by
  rw [← Codes.unescape_eq_self_iff]
  unfold ReadUnescaped
  constructor
  · intro hread
    exact (h _ _ hread).symm
  · intro hself
    rw [hself, s.keySerde.roundtrip]

/-- A key is given back exactly where the layout is `LITERAL` and, under a scope, its leaf is not
    empty and no escape code is read out of it. Another scope finds no key in the object exactly
    where its text does not begin the blob, or what is left of the blob is no key. -/
theorem decodePhysical_iff (w : BlobWire α) (sha256 : List UInt8 → List Char) (c : KeyCodec K V α VB) :
    (∀ scope hs key, c.ReadBack w sha256 scope hs key ↔ c.kvset.keyLayout = .literal ∧
      (scope.segments ≠ [] → c.kvset.keySerde.serialize key ≠ [] ∧
        (c.kvset.scopeSchema = none → ReadUnescaped c.kvset key))) ∧
    (∀ scope scope' hs hs' key, scope ≠ scope' →
      (c.Foreign w sha256 scope scope' hs hs' key ↔ (c.kvset.keyLayout = .literal →
        (scope'.segments = [] → c.kvset.keySerde.deserialize (c.kvset.plainInKey scope key) = none) ∧
        (scope'.segments ≠ [] → ∀ rest,
          c.kvset.plainInKey scope key = c.kvset.joinParts (c.kvset.scopeParts scope') ++ rest →
            c.kvset.readLeaf scope' rest = none)))) ∧
    ((∀ blob key, c.kvset.keySerde.deserialize blob = some key → c.kvset.keySerde.serialize key = blob) →
      ∀ key, ReadUnescaped c.kvset key ↔
        (c.kvset.wire.codes.sep ≠ [] → ¬ c.kvset.wire.codes.sepCode <:+: c.kvset.keySerde.serialize key) ∧
          ¬ c.kvset.wire.codes.markCode <:+: c.kvset.keySerde.serialize key) :=
  ⟨readBack_iff w sha256 c, fun scope scope' hs hs' key _ => foreign_iff w sha256 c scope scope' hs hs' key,
    readUnescaped_iff⟩

def alice : Scope := ⟨[⟨"user", "alice"⟩]⟩

def al : Scope := ⟨[⟨"user", "al"⟩]⟩

theorem decodePhysical_iff_items :
    items.ReadBack BlobWire.str (fun _ => []) alice rfl ['k'] ∧
      items.Foreign BlobWire.str (fun _ => []) al alice rfl rfl ['k'] := by
  obtain ⟨hback, hforeign, -⟩ := decodePhysical_iff BlobWire.str (fun _ => []) items
  refine ⟨(hback alice rfl _).mpr ⟨rfl, fun _ => ⟨by decide, fun _ => by decide⟩⟩,
    (hforeign al alice rfl rfl _ (by decide)).mpr fun _ => ⟨fun h => absurd h (by decide), ?_⟩⟩
  intro _ rest hrest
  have hpre : items.kvset.joinParts (items.kvset.scopeParts alice) <+: items.kvset.plainInKey al ['k'] :=
    ⟨rest, hrest.symm⟩
  exact absurd hpre (by decide)

/-- `al` reads `ice:k` in an object of `alice`, and a colon in its own object of `%3A`. -/
theorem al_reads_alice :
    ¬ items.Foreign BlobWire.str (fun _ => []) alice al rfl rfl ['k'] ∧
      ¬ items.ReadBack BlobWire.str (fun _ => []) al rfl ['%', '3', 'A'] := by
  constructor
  · intro h
    have hnone := (foreign_iff BlobWire.str (fun _ => []) items alice al rfl rfl ['k']).mp h rfl
    exact absurd (hnone.2 (by decide) "ice:k".toList (by decide)) (by decide)
  · intro h
    have hread := (readBack_iff BlobWire.str (fun _ => []) items al rfl ['%', '3', 'A']).mp h
    exact absurd ((hread.2 (by decide)).2 rfl) (by decide)

end KeyCodec

end Kvtsjl
