import Kvtsjl.Lib.Escaping
import Kvtsjl.Lib.Percent
import Kvtsjl.KeyMap

/-
  Keys on a medium: scopes, the wire schema of a collection, and its binding.
  A key blob is text or bytes, here a list over the alphabet `α`. `KeyWire` is what the
  code knows of the alphabet: how a string becomes a blob, the separator, which is any text,
  and the escape codes of the separator and of `%`.
-/

namespace Kvtsjl

open Delimited

/-! ## Codecs -/

/-- A codec. What it wrote, it reads back. `none` is a blob it cannot read. -/
structure SerDe (T B : Type) where
  serialize : T → B
  deserialize : B → Option T
  roundtrip : ∀ v, deserialize (serialize v) = some v

/-- A value that is its own blob. -/
def SerDe.identity (T : Type) : SerDe T T := ⟨id, some, fun _ => rfl⟩

theorem SerDe.serialize_injective {T B : Type} (s : SerDe T B) :
    Function.Injective s.serialize := by
  intro v w h
  have hv := s.roundtrip v
  rw [h, s.roundtrip w] at hv
  exact (Option.some.inj hv).symm

/-- The alphabet of a key blob: `str_serde` and `blob_ops` of a collection. A separator whose
    `unescape` does not undo `escape`, as `%%`, is none that `BlobOps` allows, and one of bytes
    is UTF-8. -/
structure KeyWire (α : Type) [DecidableEq α] where
  /-- `blob_ops` -/
  codes : Codes α
  /-- `escape_segment`, with `separator_str` -/
  strCodes : Codes Char
  /-- `str_serde.serialize` -/
  serialize : String → List α
  serialize_injective : Function.Injective serialize

/-- Escaped as text, then serialized. -/
def KeyWire.escapeSegment {α : Type} [DecidableEq α] (wire : KeyWire α) (text : String) : List α :=
  wire.serialize (String.ofList (wire.strCodes.escape text.toList))

theorem KeyWire.escapeSegment_injective {α : Type} [DecidableEq α] (wire : KeyWire α) :
    Function.Injective wire.escapeSegment := by
  intro a b h
  have htext := String.ofList_injective (wire.serialize_injective h)
  exact String.toList_inj.mp (wire.strCodes.escape_injective htext)

/-- The bytes of a character in UTF-8. -/
def utf8 (s : List Char) : List UInt8 := s.flatMap String.utf8EncodeChar

theorem toByteArray_append {a b : List UInt8} :
    (a ++ b).toByteArray = a.toByteArray ++ b.toByteArray := by
  simp

/-- The first character can be read off its bytes, whatever follows. -/
theorem utf8_injective : Function.Injective utf8 := by
  intro s t h
  induction s generalizing t with
  | nil =>
    cases t with
    | nil => rfl
    | cons d t =>
      have hne := String.utf8EncodeChar_ne_nil (c := d)
      simp [utf8, hne] at h
  | cons c s ih =>
    cases t with
    | nil =>
      have hne := String.utf8EncodeChar_ne_nil (c := c)
      simp [utf8, hne] at h
    | cons d t =>
      unfold utf8 at h
      rw [List.flatMap_cons, List.flatMap_cons] at h
      have hc : c = d := by
        have hd := congrArg (fun bs : List UInt8 => bs.toByteArray.utf8DecodeChar? 0) h
        simp only [toByteArray_append, ByteArray.utf8DecodeChar?_utf8EncodeChar_append] at hd
        exact Option.some.inj hd
      subst hc
      rw [ih (List.append_cancel_left h)]

/-- The byte of an ASCII character is in that character's encoding only. -/
theorem toNat_of_mem_utf8EncodeChar {c : Char} {b : UInt8} (hb : b.toNat < 0x80)
    (h : b ∈ String.utf8EncodeChar c) : c.toNat = b.toNat := by
  have hbyte : ∀ n : Nat, 0x80 ≤ n → n < 256 → b ≠ UInt8.ofNat n := by
    intro n hn hlt heq
    rw [heq, UInt8.toNat_ofNat', Nat.mod_eq_of_lt hlt] at hb
    omega
  unfold String.utf8EncodeChar at h
  simp only at h
  split_ifs at h with h1 h2 h3
  · rw [List.mem_singleton] at h
    rw [h, UInt8.toNat_ofNat', Nat.mod_eq_of_lt (by omega)]
    rfl
  · rcases List.mem_pair.mp h with h | h
    · exact absurd h (hbyte _ (by omega) (by omega))
    · exact absurd h (hbyte _ (by omega) (by omega))
  · rcases List.mem_cons.mp h with h | h
    · exact absurd h (hbyte _ (by omega) (by omega))
    rcases List.mem_pair.mp h with h | h
    · exact absurd h (hbyte _ (by omega) (by omega))
    · exact absurd h (hbyte _ (by omega) (by omega))
  · rcases List.mem_cons.mp h with h | h
    · exact absurd h (hbyte _ (by omega) (by omega))
    rcases List.mem_cons.mp h with h | h
    · exact absurd h (hbyte _ (by omega) (by omega))
    rcases List.mem_pair.mp h with h | h
    · exact absurd h (hbyte _ (by omega) (by omega))
    · exact absurd h (hbyte _ (by omega) (by omega))

theorem percent_of_mem_utf8 {text : List Char} (h : 0x25 ∈ utf8 text) : '%' ∈ text := by
  obtain ⟨c, hc, hb⟩ := List.mem_flatMap.mp h
  have hcode := toNat_of_mem_utf8EncodeChar (by decide) hb
  rw [show c = '%' from Char.ext (UInt32.toNat_inj.mp hcode)] at hc
  exact hc

/-- `f"{b:02X}"` -/
def hexDigits (b : UInt8) : Char × Char :=
  (Percent.hexDigit (b.toNat / 16), Percent.hexDigit (b.toNat % 16))

theorem hexDigit_ne : ∀ n < 16, Percent.hexDigit n ≠ '%' := by decide

theorem hexDigits_inj : ∀ m < 16, ∀ n < 16, (Percent.hexDigit m, Percent.hexDigit n) = ('2', '5') → m = 2 ∧ n = 5 := by
  decide

theorem lt_of_byte (b : UInt8) : b.toNat / 16 < 16 ∧ b.toNat % 16 < 16 := by
  have hb : b.toNat < 256 := UInt8.toNat_lt_size b
  omega

/-- The codes of `%` and of a separator of text. -/
def textEscape (separator : List Char) : Escape Char where
  mark := '%'
  a := '2'
  b := '5'
  sep := separator
  digits := (utf8 separator).map hexDigits
  digits_ne d hd := by
    rcases List.mem_cons.mp hd with rfl | hd
    · decide
    · obtain ⟨b, -, rfl⟩ := List.mem_map.mp hd
      exact ⟨hexDigit_ne _ (lt_of_byte b).1, hexDigit_ne _ (lt_of_byte b).2⟩
  length_le := by
    rw [List.length_map]
    induction separator with
    | nil => exact Nat.le_refl _
    | cons c rest ih =>
      have hpos := List.length_pos_of_ne_nil (String.utf8EncodeChar_ne_nil (c := c))
      unfold utf8 at ih ⊢
      rw [List.flatMap_cons, List.length_append, List.length_cons]
      omega
  digits_nil h := by
    rw [h]
    rfl

/-- A code of the separator that begins as the mark's is one of a percent sign. -/
theorem head?_digits_ne {separator : List Char} (h : '%' ∉ separator) :
    (textEscape separator).digits.head? ≠ some ('2', '5') := by
  intro hhead
  obtain ⟨b, hb, hdigits⟩ := List.mem_map.mp (List.mem_of_mem_head? hhead)
  obtain ⟨hm, hn⟩ := hexDigits_inj _ (lt_of_byte b).1 _ (lt_of_byte b).2 hdigits
  have hbyte : b = 0x25 := UInt8.toNat_inj.mp (by
    show b.toNat = 0x25
    omega)
  rw [hbyte] at hb
  exact h (percent_of_mem_utf8 hb)

def textCodes (separator : List Char) (h : '%' ∉ separator) : Codes Char :=
  ⟨textEscape separator, (textEscape separator).undone (head?_digits_ne h)⟩

/-- `StrBlobOps` with a separator, and `SerDe.safe_str`. -/
def KeyWire.ofText (separator : List Char) (h : '%' ∉ separator) : KeyWire Char where
  codes := textCodes separator h
  strCodes := textCodes separator h
  serialize s := s.toList
  serialize_injective _ _ h := String.toList_inj.mp h

/-- A character of ASCII as a byte. -/
def asciiByte (c : Char) : UInt8 := UInt8.ofNat c.toNat

theorem asciiByte_hexDigit_ne : ∀ n < 16, asciiByte (Percent.hexDigit n) ≠ 0x25 := by decide

theorem asciiByte_hexDigit_inj : ∀ m < 16, ∀ n < 16,
    (asciiByte (Percent.hexDigit m), asciiByte (Percent.hexDigit n)) = (0x32, 0x35) → m = 2 ∧ n = 5 := by
  decide

/-- The codes of `%` and of a separator of bytes. -/
def bytesEscape (separator : List UInt8) : Escape UInt8 where
  mark := 0x25
  a := 0x32
  b := 0x35
  sep := separator
  digits := separator.map fun b => (asciiByte (hexDigits b).1, asciiByte (hexDigits b).2)
  digits_ne d hd := by
    rcases List.mem_cons.mp hd with rfl | hd
    · decide
    · obtain ⟨b, -, rfl⟩ := List.mem_map.mp hd
      exact ⟨asciiByte_hexDigit_ne _ (lt_of_byte b).1, asciiByte_hexDigit_ne _ (lt_of_byte b).2⟩
  length_le := by rw [List.length_map]
  digits_nil h := by
    rw [h]
    rfl

theorem head?_bytesDigits_ne {separator : List UInt8} (h : 0x25 ∉ separator) :
    (bytesEscape separator).digits.head? ≠ some (0x32, 0x35) := by
  intro hhead
  obtain ⟨b, hb, hdigits⟩ := List.mem_map.mp (List.mem_of_mem_head? hhead)
  obtain ⟨hm, hn⟩ := asciiByte_hexDigit_inj _ (lt_of_byte b).1 _ (lt_of_byte b).2 hdigits
  have hbyte : b = 0x25 := UInt8.toNat_inj.mp (by
    show b.toNat = 0x25
    omega)
  rw [hbyte] at hb
  exact h hb

def bytesCodes (separator : List UInt8) (h : 0x25 ∉ separator) : Codes UInt8 :=
  ⟨bytesEscape separator, (bytesEscape separator).undone (head?_bytesDigits_ne h)⟩

/-- `BytesBlobOps` with a separator, and `SerDe.utf8_bytes`. -/
def KeyWire.ofBytes (separator : List Char) (h : '%' ∉ separator) : KeyWire UInt8 where
  codes := bytesCodes (utf8 separator) fun hb => h (percent_of_mem_utf8 hb)
  strCodes := textCodes separator h
  serialize s := utf8 s.toList
  serialize_injective _ _ h := String.toList_inj.mp (utf8_injective h)

/-- `SerDe.safe_str` and `StrBlobOps`. -/
def KeyWire.str : KeyWire Char := .ofText [':'] (by decide)

/-- `SerDe.utf8_bytes` and `BytesBlobOps`. -/
def KeyWire.bytes : KeyWire UInt8 := .ofBytes [':'] (by decide)

/-! ## Scopes -/

structure ScopeSegment where
  kind : String
  id : String
deriving DecidableEq

/-- Ordered segments, outermost first. -/
structure Scope where
  segments : List ScopeSegment
deriving DecidableEq

def Scope.empty : Scope := ⟨[]⟩

/-- The scope narrows the other by further segments, or is the other. -/
def Scope.Extends (s t : Scope) : Prop := t.segments <+: s.segments

instance (s t : Scope) : Decidable (s.Extends t) := inferInstanceAs (Decidable (_ <+: _))

def reprTuple (names : List String) : String :=
  match names with
  | [n] => "('" ++ n ++ "',)"
  | _ => "(" ++ String.intercalate ", " (names.map fun n => "'" ++ n ++ "'") ++ ")"

/-! ## The wire schema of a collection -/

/-- How a composed key lands on an object store. -/
inductive KeyLayout where
  | literal
  | hashed
  | hierarchical
deriving DecidableEq, Repr

structure KvSet (K V α VB : Type) [DecidableEq α] where
  name : String
  version : String
  wire : KeyWire α
  keySerde : SerDe K (List α)
  valueSerde : SerDe V VB
  ttlPolicy : TtlPolicy
  keyLayout : KeyLayout
  scopeSchema : Option (List String)

namespace KvSet

variable {K V α VB : Type} [DecidableEq α]

def versionLabel (s : KvSet K V α VB) : String := "v" ++ s.version

def validateScope (s : KvSet K V α VB) (scope : Scope) : Except Exn Unit :=
  match s.scopeSchema with
  | none => .ok ()
  | some schema =>
    let kinds := scope.segments.map fun g => g.kind
    if schema.length < kinds.length then
      .error (.scopeError ("scope kinds " ++ reprTuple kinds ++ " exceed schema "
        ++ reprTuple schema))
    else if kinds ≠ schema.take kinds.length then
      .error (.scopeError ("scope kinds " ++ reprTuple kinds ++ " do not match schema prefix of "
        ++ reprTuple schema))
    else .ok ()

/-- Whether a key written under the scope has its leaf escaped. A declared schema
    wants the full scope instead. -/
def leafNeedsEscaping (s : KvSet K V α VB) (scope : Scope) : Except Exn Bool :=
  match s.scopeSchema with
  | none => .ok !scope.segments.isEmpty
  | some schema =>
    if scope.segments.length ≠ schema.length then
      .error (.scopeError ("writing a key needs the full scope " ++ reprTuple schema ++ ", got "
        ++ reprTuple (scope.segments.map fun g => g.kind)
        ++ "; a partial scope is ambiguous because the missing segments "
        ++ "cannot be told apart from the leaf"))
    else .ok false

/-- `_escape_segment` -/
def escapeSegment (s : KvSet K V α VB) (text : String) : List α := s.wire.escapeSegment text

/-- The parts of a scope, kind and id in turn. -/
def scopeParts (s : KvSet K V α VB) (scope : Scope) : List (List α) :=
  scope.segments.flatMap fun g => [s.escapeSegment g.kind, s.escapeSegment g.id]

def joinParts (s : KvSet K V α VB) (parts : List (List α)) : List α :=
  join s.wire.codes.sep parts

def maybeUnescape (s : KvSet K V α VB) (leaf : List α) (scope : Scope) : List α :=
  if s.scopeSchema = none ∧ scope.segments ≠ [] then s.wire.codes.unescape leaf else leaf

/-- `strip_prefix` -/
def stripPrefix (full pre : List α) : Option (List α) :=
  if pre <+: full then some (full.drop pre.length) else none

/-- Strip the separator, where the text begins with it. -/
def stripSep (s : KvSet K V α VB) (rest : List α) : List α :=
  (stripPrefix rest s.wire.codes.sep).getD rest

/-- Strip the scope's text from the in-key blob and read the leaf. -/
def decodeLeafFromInKey (s : KvSet K V α VB) (scope : Scope) (inKey : List α) : Option K :=
  if scope.segments = [] then s.keySerde.deserialize (s.maybeUnescape inKey scope)
  else do
    let rest ← stripPrefix inKey (s.joinParts (s.scopeParts scope))
    if s.stripSep rest = [] then none
    else s.keySerde.deserialize (s.maybeUnescape (s.stripSep rest) scope)

end KvSet

/-! ## Bindings -/

/-- Where a collection lives: a collection of its own, or a prefix of every key. -/
structure CollectionBinding (α : Type) where
  collection : Option String
  nameVersionPrefix : List (List α)

section Binders

variable {K V α VB : Type} [DecidableEq α]

/-- `NativeStrCollectionBinder`, with its default formatter. -/
def nativeStrCollectionBinder (s : KvSet K V α VB) : CollectionBinding α :=
  ⟨some (s.name ++ ":" ++ s.versionLabel), []⟩

/-- `KeyPrefixBinder`: name and version begin every key. -/
def keyPrefixBinder (s : KvSet K V α VB) : CollectionBinding α :=
  ⟨none, [s.wire.serialize s.name, s.wire.serialize s.versionLabel]⟩

end Binders

/-- What a leaf backend is, whatever its medium: schema, scope and binding. The size of
    a chunk only says how a batch's loop is cut, so it is left out. -/
structure KvBackend (K V α VB : Type) [DecidableEq α] where
  kvset : KvSet K V α VB
  scope : Scope
  binding : CollectionBinding α
  /-- The constructor refuses any other scope. -/
  valid : kvset.validateScope scope = .ok ()

namespace KvBackend

variable {K V α VB : Type} [DecidableEq α]

/-- The parts every key of this view begins with. -/
def prefixParts (b : KvBackend K V α VB) : List (List α) :=
  b.binding.nameVersionPrefix ++ b.kvset.scopeParts b.scope

def itemKeyBlob (b : KvBackend K V α VB) (leaf : List α) : List α :=
  b.kvset.joinParts (b.prefixParts ++ [leaf])

/-- The name and version, then the key in its scope. -/
theorem itemKeyBlob_eq_join (b : KvBackend K V α VB) (leaf : List α) :
    b.itemKeyBlob leaf = b.kvset.joinParts (b.binding.nameVersionPrefix ++
      [b.kvset.joinParts (b.kvset.scopeParts b.scope ++ [leaf])]) := by
  unfold itemKeyBlob prefixParts KvSet.joinParts
  rw [List.append_assoc]
  by_cases hnv : b.binding.nameVersionPrefix = []
  · rw [hnv]
    rfl
  · rw [join_append _ hnv (by simp), join_append _ hnv (by simp)]
    rfl

/-- The leaf as it is written. -/
def leafBlob (b : KvBackend K V α VB) (key : K) (escaped : Bool) : List α :=
  if escaped then b.kvset.wire.codes.escape (b.kvset.keySerde.serialize key)
  else b.kvset.keySerde.serialize key

def physicalKeyBlob (b : KvBackend K V α VB) (key : K) : Except Exn (List α) :=
  (b.kvset.leafNeedsEscaping b.scope).map fun escaped => b.itemKeyBlob (b.leafBlob key escaped)

def scanPrefixBlob (b : KvBackend K V α VB) (keyPrefix : Option K) : List α :=
  b.kvset.joinParts (b.prefixParts ++ (keyPrefix.map b.kvset.keySerde.serialize).toList)

/-- Strip name and version, then the scope, and read the leaf. -/
def decodeKeyFromPhysical (b : KvBackend K V α VB) (physicalKey : List α) : Option K :=
  if b.binding.nameVersionPrefix = [] then b.kvset.decodeLeafFromInKey b.scope physicalKey
  else do
    let stripped ← KvSet.stripPrefix physicalKey (b.kvset.joinParts b.binding.nameVersionPrefix)
    b.kvset.decodeLeafFromInKey b.scope (b.kvset.stripSep stripped)

/-- One view's physical keys are all different. -/
theorem physicalKeyBlob_injective (b : KvBackend K V α VB) {k k' : K} {p : List α}
    (h : b.physicalKeyBlob k = .ok p) (h' : b.physicalKeyBlob k' = .ok p) : k = k' := by
  unfold physicalKeyBlob at h h'
  cases he : b.kvset.leafNeedsEscaping b.scope with
  | error e => rw [he] at h; cases h
  | ok escaped =>
    rw [he] at h h'
    have hleaf := join_last_injective _ _ ((Except.ok.inj h).trans (Except.ok.inj h').symm)
    apply b.kvset.keySerde.serialize_injective
    unfold leafBlob at hleaf
    cases escaped with
    | true => exact b.kvset.wire.codes.escape_injective (by simpa using hleaf)
    | false => simpa using hleaf

/-- Either every key of a view can be written, or none can. -/
theorem physicalKeyBlob_total (b : KvBackend K V α VB) :
    (∃ f : K → List α, Function.Injective f ∧ ∀ k, b.physicalKeyBlob k = .ok (f k)) ∨
      ∃ e, ∀ k, b.physicalKeyBlob k = .error e := by
  cases he : b.kvset.leafNeedsEscaping b.scope with
  | error e => exact .inr ⟨e, fun k => by simp [physicalKeyBlob, he, Except.map]⟩
  | ok escaped =>
    have hf : ∀ k, b.physicalKeyBlob k = .ok (b.itemKeyBlob (b.leafBlob k escaped)) :=
      fun k => by simp [physicalKeyBlob, he, Except.map]
    refine .inl ⟨_, fun k k' h => ?_, hf⟩
    exact b.physicalKeyBlob_injective (hf k) (by rw [hf k', h])

end KvBackend

end Kvtsjl
