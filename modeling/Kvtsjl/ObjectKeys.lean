import Kvtsjl.Memory
import Kvtsjl.Separators
import Kvtsjl.Lib.Percent

/-
  Keys on an object store. `KeyCodec` puts the key of a scoped view together by itself and
  lays it out as a path. It neither escapes the leaf nor asks for the full scope, as the
  other leaf stores do, so that of two scopes one of which narrows the other, a leaf of the
  wider one can spell what the narrower one adds.
-/

namespace Kvtsjl

open Delimited

/-! ## Laying out a key -/

/-- What a layout reads of a key blob. -/
structure PathWire (α : Type) where
  /-- The characters that are quoted: the text, or the bytes as Latin-1. -/
  chars : List α → List Char
  chars_injective : Function.Injective chars
  /-- The text: for bytes, if they are UTF-8. -/
  text : List α → Option (List Char)
  /-- The bytes that are hashed. -/
  raw : List α → List UInt8

def decodeUtf8 (blob : List UInt8) : Option (List Char) :=
  (String.fromUTF8? blob.toByteArray).map String.toList

def PathWire.str : PathWire Char where
  chars blob := blob
  chars_injective _ _ h := h
  text := some
  raw := utf8

def latin1 (b : UInt8) : Char := Char.ofNat b.toNat

theorem latin1_injective : Function.Injective latin1 := by
  intro a b h
  have hcode := congrArg Char.toNat h
  have hvalid : ∀ c : UInt8, (latin1 c).toNat = c.toNat := by
    intro c
    have hlt : c.toNat < 256 := UInt8.toNat_lt_size c
    have hchar : c.toNat.isValidChar := .inl (by omega)
    unfold latin1 Char.ofNat
    rw [dif_pos hchar]
    rfl
  rw [hvalid, hvalid] at hcode
  exact UInt8.toNat_inj.mp hcode

def PathWire.bytes : PathWire UInt8 where
  chars blob := blob.map latin1
  chars_injective := List.map_injective_iff.mpr latin1_injective
  text := decodeUtf8
  raw blob := blob

/-- `quote(text, safe="")` -/
def quote (text : List Char) : List Char := Percent.encode (utf8 text)

theorem quote_injective : Function.Injective quote := fun _ _ h =>
  utf8_injective (Percent.encode_injective h)

/-- `str.isspace` of one character. -/
def isSpace (c : Char) : Bool :=
  (0x09 ≤ c.toNat && c.toNat ≤ 0x0D) || (0x1C ≤ c.toNat && c.toNat ≤ 0x20) ||
    (0x2000 ≤ c.toNat && c.toNat ≤ 0x200A) ||
    c.toNat ∈ [0x85, 0xA0, 0x1680, 0x2028, 0x2029, 0x202F, 0x205F, 0x3000]

def strip (text : List Char) : List Char :=
  ((text.dropWhile isSpace).reverse.dropWhile isSpace).reverse

/-- A single segment of a path, with no slashes. -/
def safeSegment (text : List Char) : List Char :=
  if strip text = [] then ['_']
  else (replace ['.', '.'] ['_'] (replace ['\\'] ['_'] (replace ['/'] ['_'] (strip text)))).filter
    fun c => c ≠ '\x00'

theorem slash_not_mem_safeSegment (text : List Char) : '/' ∉ safeSegment text := by
  unfold safeSegment
  split
  · decide
  · intro h
    have hslash : '/' ∉ replace ['/'] ['_'] (strip text) := by
      rw [replace_singleton, List.mem_flatMap]
      intro ⟨c, _, hc⟩
      split at hc
      · simp at hc
      · next hne => exact hne (List.mem_singleton.mp hc).symm
    have hback : '/' ∉ replace ['\\'] ['_'] (replace ['/'] ['_'] (strip text)) :=
      not_mem_replace (by decide) hslash
    exact not_mem_replace (by decide) hback (List.mem_of_mem_filter h)

/-- The parts between slashes, each made safe. -/
def hierarchicalParts (text : List Char) : List (List Char) :=
  let parts := ((text.splitOn '/').filter (· ≠ [])).map safeSegment
  if parts = [] then [['_']] else parts

theorem hierarchicalParts_ne_nil (text : List Char) : hierarchicalParts text ≠ [] := by
  unfold hierarchicalParts
  simp only
  split
  · simp
  · next h => exact h

theorem slash_not_mem_parts {text p : List Char} (h : p ∈ hierarchicalParts text) : '/' ∉ p := by
  unfold hierarchicalParts at h
  simp only at h
  split at h
  · rw [List.mem_singleton.mp h]
    decide
  · obtain ⟨q, -, rfl⟩ := List.mem_map.mp h
    exact slash_not_mem_safeSegment q

section Layout

variable {α : Type} [DecidableEq α]

/-- The path of a blob under a collection's prefix. `sha256` gives a digest in hexadecimal. -/
def encodePath (w : PathWire α) (sha256 : List UInt8 → List Char) (layout : KeyLayout) (blob : List α) :
    Except Exn (List Char) :=
  match layout with
  | .hashed => .ok (sha256 (w.raw blob))
  | .hierarchical =>
    match w.text blob with
    | none => .error (.valueError "'utf-8' codec can't decode")
    | some text => .ok (join ['/'] (hierarchicalParts text))
  | .literal => .ok (quote (w.chars blob))

end Layout

/-! ## The codec of an object store -/

/-- `BindingLayoutKeyCodec`, bound to one scope and one collection prefix. -/
structure KeyCodec (K V α VB : Type) [DecidableEq α] extends KvBackend K V α VB where
  collectionPrefix : List Char

namespace KeyCodec

variable {K V α VB : Type} [DecidableEq α]

/-- Rebuilt for a view of another scope. -/
def cloneWithScope (c : KeyCodec K V α VB) (scope : Scope) (h : c.kvset.validateScope scope = .ok ()) :
    KeyCodec K V α VB := { c with scope := scope, valid := h }

/-- `_in_key_blob`: the leaf as its codec wrote it. -/
def inKeyBlob (c : KeyCodec K V α VB) (key : K) : List α :=
  c.itemKeyBlob (c.kvset.keySerde.serialize key)

def encodePhysical (w : PathWire α) (sha256 : List UInt8 → List Char) (c : KeyCodec K V α VB) (key : K) :
    Except Exn (List Char) :=
  (encodePath w sha256 c.kvset.keyLayout (c.inKeyBlob key)).map fun rel => c.collectionPrefix ++ rel

end KeyCodec

/-! ## When two keys are one object -/

namespace KeyCodec

variable {K V α VB : Type} [DecidableEq α] (w : PathWire α) (sha256 : List UInt8 → List Char)
  (c : KeyCodec K V α VB)

/-- The scope is not empty, and names every kind a declared schema names. -/
def Full (s : KvSet K V α VB) (scope : Scope) : Prop :=
  scope.segments ≠ [] ∧ ∀ schema, s.scopeSchema = some schema → scope.segments.length = schema.length

/-- No object key is that of both keys. -/
def Isolated (c c' : KeyCodec K V α VB) (key key' : K) : Prop :=
  ¬ ∃ p, c.encodePhysical w sha256 key = .ok p ∧ c'.encodePhysical w sha256 key' = .ok p

/-- Two different keys have one blob. -/
def Merged (s : KvSet K V α VB) (scope scope' : Scope) (key key' : K) : Prop :=
  s.wire.Merges scope.segments (s.keySerde.serialize key) scope'.segments (s.keySerde.serialize key')

/-- The layout keeps two keys apart: they are not merged, and their blobs are not given one digest,
    or one list of safe segments. -/
def KeptApart (s : KvSet K V α VB) (scope scope' : Scope) (key key' : K) (blob blob' : List α) : Prop :=
  match s.keyLayout with
  | .literal => ¬ Merged s scope scope' key key'
  | .hashed => ¬ Merged s scope scope' key key' ∧ sha256 (w.raw blob) ≠ sha256 (w.raw blob')
  | .hierarchical => ∀ text text', w.text blob = some text → w.text blob' = some text' →
      hierarchicalParts text ≠ hierarchicalParts text'

/-- Two different keys have one blob exactly where they are merged. -/
theorem inKeyBlob_eq_iff {scope scope' : Scope} (hs : c.kvset.validateScope scope = .ok ())
    (hs' : c.kvset.validateScope scope' = .ok ()) {key key' : K} (hne : (scope, key) ≠ (scope', key')) :
    (c.cloneWithScope scope hs).inKeyBlob key = (c.cloneWithScope scope' hs').inKeyBlob key' ↔
      Merged c.kvset scope scope' key key' := by
  -- what comes before the scope is the same for both
  have hafter : (c.cloneWithScope scope hs).inKeyBlob key = (c.cloneWithScope scope' hs').inKeyBlob key' ↔
      c.kvset.wire.key scope.segments (c.kvset.keySerde.serialize key) =
        c.kvset.wire.key scope'.segments (c.kvset.keySerde.serialize key') := by
    unfold inKeyBlob KvBackend.itemKeyBlob KvBackend.prefixParts cloneWithScope KvSet.joinParts
    simp only [List.append_assoc]
    exact join_append_left_inj _ _ (by simp) (by simp)
  rw [hafter, KeyWire.key_eq_iff, or_iff_right]
  · rfl
  · intro ⟨hsegments, hleaf⟩
    obtain ⟨gs⟩ := scope
    obtain ⟨gs'⟩ := scope'
    have hscope : gs = gs' := hsegments
    exact hne (by rw [hscope, c.kvset.keySerde.serialize_injective hleaf])

theorem encodePhysical_literal (h : c.kvset.keyLayout = .literal) (key : K) :
    c.encodePhysical w sha256 key = .ok (c.collectionPrefix ++ quote (w.chars (c.inKeyBlob key))) := by
  unfold encodePhysical encodePath
  rw [h]
  rfl

theorem encodePhysical_hashed (h : c.kvset.keyLayout = .hashed) (key : K) :
    c.encodePhysical w sha256 key = .ok (c.collectionPrefix ++ sha256 (w.raw (c.inKeyBlob key))) := by
  unfold encodePhysical encodePath
  rw [h]
  rfl

theorem encodePhysical_hierarchical (h : c.kvset.keyLayout = .hierarchical) (key : K) {p : List Char} :
    c.encodePhysical w sha256 key = .ok p ↔ ∃ text, w.text (c.inKeyBlob key) = some text ∧
      p = c.collectionPrefix ++ join ['/'] (hierarchicalParts text) := by
  unfold encodePhysical encodePath
  rw [h]
  simp only
  cases w.text (c.inKeyBlob key) with
  | none =>
    constructor
    · intro hp
      cases hp
    · intro ⟨text, htext, _⟩
      cases htext
  | some text =>
    constructor
    · intro hp
      exact ⟨text, rfl, (Except.ok.inj hp).symm⟩
    · intro ⟨text', htext, hp⟩
      rw [hp, ← Option.some.inj htext]
      rfl

/-- Two different keys under full scopes are never one object exactly where the layout keeps
    them apart. -/
theorem isolated_iff {scope scope' : Scope} (hs : c.kvset.validateScope scope = .ok ())
    (hs' : c.kvset.validateScope scope' = .ok ()) {key key' : K} (hne : (scope, key) ≠ (scope', key')) :
    Isolated w sha256 (c.cloneWithScope scope hs) (c.cloneWithScope scope' hs') key key' ↔
      KeptApart w sha256 c.kvset scope scope' key key' ((c.cloneWithScope scope hs).inKeyBlob key)
        ((c.cloneWithScope scope' hs').inKeyBlob key') := by
  have hblob := inKeyBlob_eq_iff c hs hs' hne
  let view := c.cloneWithScope scope hs
  let view' := c.cloneWithScope scope' hs'
  unfold Isolated KeptApart
  cases hlayout : c.kvset.keyLayout with
  | literal =>
    rw [encodePhysical_literal w sha256 view hlayout, encodePhysical_literal w sha256 view' hlayout]
    simp only
    rw [← hblob]
    refine not_congr ⟨fun ⟨p, hp, hp'⟩ => ?_, fun heq => ⟨_, rfl, by rw [heq]; rfl⟩⟩
    have hpath := (Except.ok.inj hp).trans (Except.ok.inj hp').symm
    exact w.chars_injective (quote_injective (List.append_cancel_left hpath))
  | hashed =>
    rw [encodePhysical_hashed w sha256 view hlayout, encodePhysical_hashed w sha256 view' hlayout]
    simp only
    rw [← hblob]
    constructor
    · intro hnone
      refine ⟨fun heq => hnone ⟨_, rfl, by rw [heq]; rfl⟩, fun hdigest => hnone ⟨_, rfl, ?_⟩⟩
      rw [hdigest]
      rfl
    · intro ⟨_, hdigest⟩ ⟨p, hp, hp'⟩
      have hpath := (Except.ok.inj hp).trans (Except.ok.inj hp').symm
      exact hdigest (List.append_cancel_left hpath)
  | hierarchical =>
    constructor
    · intro hnone text text' htext htext' hparts
      refine hnone ⟨_, (encodePhysical_hierarchical w sha256 view hlayout key).mpr ⟨text, htext, rfl⟩,
        (encodePhysical_hierarchical w sha256 view' hlayout key').mpr ⟨text', htext', ?_⟩⟩
      rw [hparts]
      rfl
    · intro hparts ⟨p, hp, hp'⟩
      obtain ⟨text, htext, hpath⟩ := (encodePhysical_hierarchical w sha256 view hlayout key).mp hp
      obtain ⟨text', htext', hpath'⟩ := (encodePhysical_hierarchical w sha256 view' hlayout key').mp hp'
      have hjoin := List.append_cancel_left (hpath.symm.trans hpath')
      exact hparts text text' htext htext' (join_injective (hierarchicalParts_ne_nil text)
        (hierarchicalParts_ne_nil text') (fun _ => slash_not_mem_parts) (fun _ => slash_not_mem_parts) hjoin)

/-- Under a declared schema full scopes have one length, so keys are merged only by a separator that
    does not tell segments apart. -/
theorem not_merged_of_schema {s : KvSet K V α VB} {schema : List String} (h : s.scopeSchema = some schema)
    (hapart : s.wire.Apart) {scope scope' : Scope} (hfull : Full s scope) (hfull' : Full s scope') (key key' : K) :
    ¬ Merged s scope scope' key key' := by
  intro hmerged
  exact hapart.not_straddles _ _ _ _ (hmerged.straddles ((hfull.2 schema h).trans (hfull'.2 schema h).symm))

/-- The other leaf stores refuse a point operation under the scope as the codec does. -/
def RefusedAlike (c : KeyCodec K V α VB) (key : K) : Prop :=
  ∀ m, c.physicalKeyBlob key = .error (.scopeError m) ↔ c.encodePhysical w sha256 key = .error (.scopeError m)

/-- The codec refuses no scope. -/
theorem encodePhysical_ne_scopeError (key : K) (m : String) :
    c.encodePhysical w sha256 key ≠ .error (.scopeError m) := by
  unfold encodePhysical encodePath
  intro h
  cases hlayout : c.kvset.keyLayout with
  | literal => rw [hlayout] at h; cases h
  | hashed => rw [hlayout] at h; cases h
  | hierarchical =>
    rw [hlayout] at h
    simp only at h
    cases htext : w.text (c.inKeyBlob key) with
    | none => rw [htext] at h; cases h
    | some text => rw [htext] at h; cases h

theorem refusedAlike_iff {scope : Scope} (hs : c.kvset.validateScope scope = .ok ()) (key : K) :
    RefusedAlike w sha256 (c.cloneWithScope scope hs) key ↔
      ∀ schema, c.kvset.scopeSchema = some schema → scope.segments.length = schema.length := by
  have hnever := encodePhysical_ne_scopeError w sha256 (c.cloneWithScope scope hs) key
  constructor
  · intro halike schema hschema
    by_contra hpartial
    have hrefused : ∃ m, (c.cloneWithScope scope hs).physicalKeyBlob key = .error (.scopeError m) := by
      unfold KvBackend.physicalKeyBlob KvSet.leafNeedsEscaping
      rw [show (c.cloneWithScope scope hs).kvset.scopeSchema = some schema from hschema]
      have hview : (c.cloneWithScope scope hs).scope.segments.length ≠ schema.length := hpartial
      simp only
      rw [if_pos hview]
      exact ⟨_, rfl⟩
    obtain ⟨m, hm⟩ := hrefused
    exact hnever m ((halike m).mp hm)
  · intro hfull m
    constructor
    · intro hm
      exfalso
      unfold KvBackend.physicalKeyBlob KvSet.leafNeedsEscaping at hm
      cases hschema : c.kvset.scopeSchema with
      | none =>
        rw [show (c.cloneWithScope scope hs).kvset.scopeSchema = none from hschema] at hm
        cases hm
      | some schema =>
        rw [show (c.cloneWithScope scope hs).kvset.scopeSchema = some schema from hschema] at hm
        have hview : ¬ (c.cloneWithScope scope hs).scope.segments.length ≠ schema.length :=
          not_not.mpr (hfull schema hschema)
        simp only at hm
        rw [if_neg hview] at hm
        cases hm
    · intro hm
      exact absurd hm (hnever m)

/-- In every collection: different keys under full scopes are different objects exactly
    where the layout keeps them apart, and a scope is refused as on the other leaf stores
    exactly where it is not partial. No keys are merged under a declared schema whose separator
    tells segments apart. -/
theorem encodePhysical_isolates_iff (w : PathWire α) (sha256 : List UInt8 → List Char)
    (c : KeyCodec K V α VB) :
    (∀ scope scope' (hs : c.kvset.validateScope scope = .ok ())
      (hs' : c.kvset.validateScope scope' = .ok ()) key key', Full c.kvset scope → Full c.kvset scope' →
      (scope, key) ≠ (scope', key') →
        (Isolated w sha256 (c.cloneWithScope scope hs) (c.cloneWithScope scope' hs') key key' ↔
          KeptApart w sha256 c.kvset scope scope' key key' ((c.cloneWithScope scope hs).inKeyBlob key)
            ((c.cloneWithScope scope' hs').inKeyBlob key')) ∧
        (c.kvset.scopeSchema ≠ none → c.kvset.wire.Apart → ¬ Merged c.kvset scope scope' key key')) ∧
    ∀ scope (hs : c.kvset.validateScope scope = .ok ()) key,
      RefusedAlike w sha256 (c.cloneWithScope scope hs) key ↔
        ∀ schema, c.kvset.scopeSchema = some schema → scope.segments.length = schema.length := by
  refine ⟨fun scope scope' hs hs' key key' hfull hfull' hne => ⟨isolated_iff w sha256 c hs hs' hne, ?_⟩,
    fun _ hs key => refusedAlike_iff w sha256 c hs key⟩
  intro hdeclared hapart
  obtain ⟨schema, hschema⟩ := Option.ne_none_iff_exists'.mp hdeclared
  exact not_merged_of_schema hschema hapart hfull hfull' key key'

end KeyCodec

/-! ## A collection with no declared scopes -/

/-- Text under text, each key an object under `items:v1/`. -/
def items : KeyCodec (List Char) String Char String where
  kvset := (MemoryKvBackend.plain String).kvset
  scope := .empty
  binding := ⟨some "items:v1", []⟩
  valid := rfl
  collectionPrefix := "items:v1/".toList

def inA : Scope := ⟨[⟨"a", "1"⟩]⟩

def inB : Scope := ⟨[⟨"a", "1"⟩, ⟨"b", "2"⟩]⟩

/-- Two leaves that spell nothing are two objects, and the whole scope is refused nowhere. -/
theorem items_isolates_iff :
    KeyCodec.Isolated PathWire.str (fun _ => []) (items.cloneWithScope inA rfl) (items.cloneWithScope inB rfl) ['x'] ['x'] ∧
      KeyCodec.RefusedAlike PathWire.str (fun _ => []) (items.cloneWithScope inA rfl) ['x'] := by
  obtain ⟨hkeys, hscopes⟩ := KeyCodec.encodePhysical_isolates_iff PathWire.str (fun _ => []) items
  have hundeclared : ∀ schema, items.kvset.scopeSchema ≠ some schema := fun schema h => by cases h
  refine ⟨((hkeys inA inB rfl rfl _ _ ⟨by decide, fun schema h => absurd h (hundeclared schema)⟩
    ⟨by decide, fun schema h => absurd h (hundeclared schema)⟩ (by decide)).1).mpr ?_,
    (hscopes inA rfl _).mpr fun schema h => absurd h (hundeclared schema)⟩
  rintro (⟨more, -, hmore, hleaf⟩ | hspells | hstraddles)
  · have hboth : inA.segments ++ more = inA.segments ++ [⟨"b", "2"⟩] := hmore.symm
    have hlast : more = [⟨"b", "2"⟩] := List.append_cancel_left hboth
    rw [hlast] at hleaf
    exact absurd hleaf (by decide)
  · have hlt : 2 < 1 := hspells.length_lt
    omega
  · exact KeyWire.apart_str.not_straddles _ _ _ _ hstraddles

/-- `b:2:x` in `a=1`, and `x` in `a=1, b=2`, are one object. -/
theorem items_collide :
    ¬ KeyCodec.Isolated PathWire.str (fun _ => []) (items.cloneWithScope inA rfl)
      (items.cloneWithScope inB rfl) "b:2:x".toList ['x'] := by
  intro h
  refine h ⟨_, rfl, ?_⟩
  have hblob : (items.cloneWithScope inB rfl).inKeyBlob ['x'] =
      (items.cloneWithScope inA rfl).inKeyBlob "b:2:x".toList := by decide
  rw [KeyCodec.encodePhysical_literal _ _ _ rfl, hblob]
  rfl

end Kvtsjl
