import Kvtsjl.Lib.Percent
import Kvtsjl.Lib.Utf8
import Kvtsjl.Keys

/-
  Escaping a part of a key.
  `escapeSegment` is two replacements of text in turn, and the operations of a blob escape with
  the separator they were made with. At the separator `:` both are the escape of a set of
  codes, and a collection's keys are escaped by them.
-/

namespace Kvtsjl

open Delimited Utf8

/-! ## Escaping a segment -/

theorem codePoint_lt (c : Char) : c.toNat < 0x110000 := by
  rcases c.valid with h | ⟨-, h⟩
  · exact h.trans (by decide)
  · exact h

def codePoint (c : Char) : CodePoint := ⟨c.toNat, codePoint_lt c⟩

/-- The code points of a text, which has no lone surrogate. -/
def codePoints (text : List Char) : List CodePoint := text.map codePoint

/-- `"".join(f"%{b:02X}" for b in separator)` -/
def escapedSep (separator : List UInt8) : List Char :=
  separator.flatMap fun b => ['%', Percent.hexDigit (b.toNat / 16), Percent.hexDigit (b.toNat % 16)]

/-- `none` is the error of a separator that UTF-8 cannot encode. -/
def escapeSegment (text separator : List CodePoint) : Option (List CodePoint) :=
  (encode separator).map fun bytes =>
    replaceAll separator (codePoints (escapedSep bytes))
      (replaceAll (codePoints ['%']) (codePoints ['%', '2', '5']) text)

def unescapeSegment (text separator : List CodePoint) : Option (List CodePoint) :=
  (encode separator).map fun bytes =>
    replaceAll (codePoints ['%', '2', '5']) (codePoints ['%'])
      (replaceAll (codePoints (escapedSep bytes)) separator text)

/-! ## The operations of a blob -/

structure StrBlobOps where
  separator : List CodePoint := codePoints [':']

namespace StrBlobOps

variable (ops : StrBlobOps)

def escape (blob : List CodePoint) : Option (List CodePoint) := escapeSegment blob ops.separator

def unescape (blob : List CodePoint) : Option (List CodePoint) := unescapeSegment blob ops.separator

end StrBlobOps

structure BytesBlobOps where
  /-- `b":"` -/
  separator : List UInt8 := [0x3A]

namespace BytesBlobOps

variable (ops : BytesBlobOps)

/-- The escaped separator, encoded as ASCII. -/
def esc : List UInt8 := (escapedSep ops.separator).map fun c => UInt8.ofNat c.toNat

/-- `b"%"` is the byte `0x25`, and `b"%25"` three bytes. -/
def escape (blob : List UInt8) : List UInt8 :=
  replaceAll ops.separator ops.esc (replaceAll [0x25] [0x25, 0x32, 0x35] blob)

def unescape (blob : List UInt8) : List UInt8 :=
  replaceAll [0x25, 0x32, 0x35] [0x25] (replaceAll ops.esc ops.separator blob)

end BytesBlobOps

/-! ## The keys of a collection -/

theorem codePoint_injective : Function.Injective codePoint := by
  intro c d h
  have hval : (codePoint c).val = (codePoint d).val := by rw [h]
  exact Char.ext (UInt32.toNat_inj.mp hval)

/-- A character is encoded as its code point. -/
theorem encodePoint_codePoint (c : Char) : encodePoint (codePoint c) = String.utf8EncodeChar c := by
  have hlt := codePoint_lt c
  unfold encodePoint String.utf8EncodeChar
  have hval : (codePoint c).val = c.toNat := rfl
  have hchar : c.val.toNat = c.toNat := rfl
  simp only [hval, hchar]
  by_cases h1 : c.toNat < 0x80
  · rw [if_pos h1, if_pos (show c.toNat ≤ 0x7f by omega)]
  rw [if_neg h1, if_neg (show ¬ c.toNat ≤ 0x7f by omega)]
  by_cases h2 : c.toNat < 0x800
  · rw [if_pos h2, if_pos (show c.toNat ≤ 0x7ff by omega), show 0xC0 + c.toNat / 64 = c.toNat / 64 % 0x20 + 0xC0 by omega,
      Nat.add_comm 0x80]
  rw [if_neg h2, if_neg (show ¬ c.toNat ≤ 0x7ff by omega)]
  by_cases h3 : c.toNat < 0x10000
  · rw [if_pos h3, if_pos (show c.toNat ≤ 0xffff by omega),
      show 0xE0 + c.toNat / 4096 = c.toNat / 4096 % 0x10 + 0xE0 by omega, Nat.add_comm 0x80, Nat.add_comm 0x80]
  · rw [if_neg h3, if_neg (show ¬ c.toNat ≤ 0xffff by omega),
      show 0xF0 + c.toNat / 262144 = c.toNat / 262144 % 0x08 + 0xF0 by omega, Nat.add_comm 0x80, Nat.add_comm 0x80,
      Nat.add_comm 0x80]

theorem encode_codePoints (text : List Char) : encode (codePoints text) = some (utf8 text) := by
  induction text with
  | nil => rfl
  | cons c text ih =>
    have hchar : ¬ Surrogate (codePoint c) := by
      intro ⟨hlow, hhigh⟩
      have hlow' : 0xD800 ≤ c.toNat := hlow
      have hhigh' : c.toNat < 0xE000 := hhigh
      rcases c.valid with h | ⟨h, -⟩
      · have h' : c.toNat < 0xD800 := h
        omega
      · have h' : 0xDFFF < c.toNat := h
        omega
    unfold codePoints at ih ⊢
    rw [List.map_cons, encode, if_neg hchar, ih, Option.map_some, encodePoint_codePoint]
    rfl

/-- A text with no lone surrogate is escaped as the codes of its separator escape it. -/
theorem escapeSegment_codePoints (text separator : List Char) :
    escapeSegment (codePoints text) (codePoints separator) =
      some (codePoints ((textEscape separator).escape text)) := by
  have hcode : codePoints (escapedSep (utf8 separator)) = codePoints (textEscape separator).sepCode := by
    unfold escapedSep Escape.sepCode textEscape
    rw [List.flatMap_map]
    rfl
  unfold escapeSegment
  rw [encode_codePoints, Option.map_some, hcode]
  unfold Escape.escape codePoints
  rw [replaceAll_map codePoint_injective, replaceAll_map codePoint_injective]
  rfl

/-- A segment's text is escaped at the collection's separator, then written in its alphabet. -/
theorem KvSet.escapeSegment_serialize {K V α VB : Type} [DecidableEq α] (s : KvSet K V α VB) {separator : List Char}
    (hcodes : s.wire.strCodes.toEscape = textEscape separator) (text : String) :
    ∃ escaped : String, s.escapeSegment text = s.wire.serialize escaped ∧
      Kvtsjl.escapeSegment (codePoints text.toList) (codePoints separator) = some (codePoints escaped.toList) := by
  refine ⟨String.ofList (s.wire.strCodes.escape text.toList), rfl, ?_⟩
  rw [escapeSegment_codePoints, hcodes, String.toList_ofList]

/-- A leaf of text is escaped by the operations of a blob of text. -/
theorem KvBackend.leafBlob_escaped_str {K V VB : Type} (b : KvBackend K V Char VB) {separator : List Char}
    (hcodes : b.kvset.wire.codes.toEscape = textEscape separator) (key : K) :
    StrBlobOps.escape ⟨codePoints separator⟩ (codePoints (b.kvset.keySerde.serialize key)) =
      some (codePoints (b.leafBlob key true)) := by
  unfold KvBackend.leafBlob StrBlobOps.escape
  rw [if_pos rfl, hcodes, escapeSegment_codePoints]

/-- A leaf of bytes is escaped by the operations of a blob of bytes. -/
theorem KvBackend.leafBlob_escaped_bytes {K V VB : Type} (b : KvBackend K V UInt8 VB) {separator : List UInt8}
    (hcodes : b.kvset.wire.codes.toEscape = bytesEscape separator) (key : K) :
    BytesBlobOps.escape ⟨separator⟩ (b.kvset.keySerde.serialize key) = b.leafBlob key true := by
  have hcode : BytesBlobOps.esc ⟨separator⟩ = (bytesEscape separator).sepCode := by
    unfold BytesBlobOps.esc escapedSep Escape.sepCode bytesEscape
    rw [List.map_flatMap, List.flatMap_map]
    rfl
  unfold KvBackend.leafBlob BytesBlobOps.escape
  rw [if_pos rfl, hcodes, hcode]
  rfl

/-! ## At the default separator -/

/-- The codes of `%` and `:`, as code points. -/
def pointEscape : Escape CodePoint where
  mark := 0x25
  a := 0x32
  b := 0x35
  sep := [0x3A]
  digits := [(0x33, 0x41)]
  digits_ne := List.forall_mem_cons.mpr ⟨by decide, List.forall_mem_cons.mpr ⟨by decide, List.forall_mem_nil _⟩⟩
  length_le := Nat.le_refl _
  digits_nil h := absurd h (List.cons_ne_nil _ _)

def pointCodes : Codes CodePoint := ⟨pointEscape, pointEscape.undone (by decide)⟩

theorem escapedSep_colon : escapedSep [0x3A] = ['%', '3', 'A'] := by decide

theorem encode_colon : encode (codePoints [':']) = some [0x3A] := by decide

theorem escapeSegment_colon (text : List CodePoint) :
    escapeSegment text (codePoints [':']) = some (pointCodes.escape text) := by
  unfold escapeSegment
  rw [encode_colon, Option.map_some, escapedSep_colon]
  rfl

theorem unescapeSegment_colon (text : List CodePoint) :
    unescapeSegment text (codePoints [':']) = some (pointCodes.unescape text) := by
  unfold unescapeSegment
  rw [encode_colon, Option.map_some, escapedSep_colon]
  rfl

/-- `bytesCodes` at a colon. -/
def colonCodes : Codes UInt8 := bytesCodes [0x3A] (by decide)

/-! ## Undoing it -/

/-- At the default separator escaping can be undone, leaves no separator, and tells any two
    texts apart, for text and for bytes. -/
theorem unescape_escape_default :
    (∀ text : List CodePoint, ∃ escaped,
      escapeSegment text ({} : StrBlobOps).separator = some escaped ∧
      unescapeSegment escaped ({} : StrBlobOps).separator = some text ∧
      ¬ ({} : StrBlobOps).separator <:+: escaped) ∧
    Function.Injective (fun text => escapeSegment text ({} : StrBlobOps).separator) ∧
    (∀ blob : List UInt8,
      ({} : BytesBlobOps).unescape (({} : BytesBlobOps).escape blob) = blob ∧
      ¬ ({} : BytesBlobOps).separator <:+: ({} : BytesBlobOps).escape blob) ∧
    Function.Injective ({} : BytesBlobOps).escape := by
  have hesc : ({} : BytesBlobOps).esc = colonCodes.sepCode := by decide
  have hescape : ∀ blob, ({} : BytesBlobOps).escape blob = colonCodes.escape blob := by
    intro blob
    unfold BytesBlobOps.escape
    rw [hesc]
    rfl
  have hblob : ∀ blob : List UInt8,
      ({} : BytesBlobOps).unescape (({} : BytesBlobOps).escape blob) = blob := by
    intro blob
    rw [hescape, BytesBlobOps.unescape, hesc]
    exact colonCodes.unescape_escape blob
  refine ⟨fun text => ⟨pointCodes.escape text, escapeSegment_colon text, ?_, ?_⟩, ?_,
    fun blob => ⟨hblob blob, ?_⟩, Function.LeftInverse.injective hblob⟩
  · rw [show ({} : StrBlobOps).separator = codePoints [':'] from rfl, unescapeSegment_colon,
      pointCodes.unescape_escape]
  · exact pointCodes.not_infix_escape rfl (by decide) (List.forall_mem_singleton.mpr (by decide)) text
  · intro s t h
    have hsome : some (pointCodes.escape s) = some (pointCodes.escape t) := by
      rw [← escapeSegment_colon, ← escapeSegment_colon]
      exact h
    exact pointCodes.escape_injective (Option.some.inj hsome)
  · rw [hescape]
    exact colonCodes.not_infix_escape rfl (by decide) (List.forall_mem_singleton.mpr (by decide)) blob

end Kvtsjl
