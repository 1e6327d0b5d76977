import Kvtsjl.ObjectKeys

/-
  Paths of an object store, and reading them back.
  `LITERAL` quotes a key, so that its path can be read back (`decodePath_encodePath`). `HASHED`
  and `LITERAL` give different keys different paths. `HIERARCHICAL` makes segments safe and drops
  empty ones, and gives one path to all keys whose safe segments are the same.
-/

namespace Kvtsjl

open Delimited

/-! ## Unquoting -/

/-- Whether a byte may come second in a character of three bytes or four. -/
def follows (first second : UInt8) : Bool :=
  if first = 0xE0 then 0xA0 ≤ second && second ≤ 0xBF
  else if first = 0xED then 0x80 ≤ second && second ≤ 0x9F
  else if first = 0xF0 then 0x90 ≤ second && second ≤ 0xBF
  else if first = 0xF4 then 0x80 ≤ second && second ≤ 0x8F
  else 0xE0 ≤ first && first ≤ 0xF4 && 0x80 ≤ second && second ≤ 0xBF

/-- How many bytes one replacement stands for, where no character begins. -/
def brokenLength : List UInt8 → Nat
  | first :: second :: third :: _ =>
    if follows first second then
      if 0xF0 ≤ first && 0x80 ≤ third && third ≤ 0xBF then 3 else 2
    else 1
  | [first, second] => if follows first second then 2 else 1
  | _ => 1

/-- Skip `k` bytes that a character has consumed, then go on decoding. -/
def decodeReplacing : Nat → List UInt8 → List Char
  | _, [] => []
  | k + 1, _ :: rest => decodeReplacing k rest
  | 0, b :: rest =>
    match (b :: rest).toByteArray.utf8DecodeChar? 0 with
    | some c => c :: decodeReplacing (c.utf8Size - 1) rest
    | none => '\uFFFD' :: decodeReplacing (brokenLength (b :: rest) - 1) rest

/-- Each run of ASCII is decoded by itself. -/
def unquoteFrom (run : List Char) : List Char → List Char
  | [] => decodeReplacing 0 (Percent.decode run)
  | c :: rest =>
    if c.toNat < 128 then unquoteFrom (run ++ [c]) rest
    else decodeReplacing 0 (Percent.decode run) ++ c :: unquoteFrom [] rest

/-- `unquote` -/
def unquote (text : List Char) : List Char := if '%' ∈ text then unquoteFrom [] text else text

theorem decodeReplacing_skip (consumed rest : List UInt8) :
    decodeReplacing consumed.length (consumed ++ rest) = decodeReplacing 0 rest := by
  induction consumed with
  | nil => rfl
  | cons b consumed ih => exact ih

/-- Nothing is replaced in what is UTF-8. -/
theorem decodeReplacing_utf8 (text : List Char) : decodeReplacing 0 (utf8 text) = text := by
  induction text with
  | nil => rfl
  | cons c text ih =>
    have hlength := String.length_utf8EncodeChar c
    have hsize := Char.utf8Size_pos c
    have hdecode : (String.utf8EncodeChar c ++ utf8 text).toByteArray.utf8DecodeChar? 0 = some c := by
      rw [toByteArray_append]
      exact ByteArray.utf8DecodeChar?_utf8EncodeChar_append
    show decodeReplacing 0 (String.utf8EncodeChar c ++ utf8 text) = c :: text
    rcases hbytes : String.utf8EncodeChar c with _ | ⟨b, consumed⟩
    · rw [hbytes, List.length_nil] at hlength
      omega
    · rw [hbytes] at hdecode hlength
      rw [List.length_cons] at hlength
      have hconsumed : c.utf8Size - 1 = consumed.length := by omega
      rw [List.cons_append, decodeReplacing]
      rw [List.cons_append] at hdecode
      rw [hdecode]
      show c :: decodeReplacing (c.utf8Size - 1) (consumed ++ utf8 text) = c :: text
      rw [hconsumed, decodeReplacing_skip, ih]

theorem unquoteFrom_of_ascii (run : List Char) {text : List Char} (h : ∀ c ∈ text, c.toNat < 128) :
    unquoteFrom run text = decodeReplacing 0 (Percent.decode (run ++ text)) := by
  induction text generalizing run with
  | nil =>
    rw [List.append_nil]
    rfl
  | cons c text ih =>
    rw [unquoteFrom, if_pos (h c List.mem_cons_self), ih _ fun d hd => h d (List.mem_cons_of_mem _ hd),
      List.append_assoc]
    rfl

/-- A character of ASCII is one byte. -/
theorem utf8_of_ascii {text : List Char} (h : ∀ c ∈ text, c.toNat < 128) :
    utf8 text = text.map fun c => UInt8.ofNat c.toNat := by
  induction text with
  | nil => rfl
  | cons c text ih =>
    have hc : c.val.toNat ≤ 0x7F := Nat.le_of_lt_succ (h c List.mem_cons_self)
    have hone : String.utf8EncodeChar c = [UInt8.ofNat c.toNat] := by
      unfold String.utf8EncodeChar
      simp only [hc, if_true]
      rfl
    show String.utf8EncodeChar c ++ utf8 text = _
    rw [hone, ih fun d hd => h d (List.mem_cons_of_mem _ hd)]
    rfl

theorem unquote_of_ascii {text : List Char} (h : ∀ c ∈ text, c.toNat < 128) :
    unquote text = decodeReplacing 0 (Percent.decode text) := by
  unfold unquote
  split
  · exact unquoteFrom_of_ascii [] h
  · next hplain => rw [Percent.decode_of_plain hplain, ← utf8_of_ascii h, decodeReplacing_utf8]

/-- Unquoting gives the text back. -/
theorem unquote_quote (text : List Char) : unquote (quote text) = text := by
  unfold quote
  rw [unquote_of_ascii fun c => Percent.lt_of_mem_encode, Percent.decode_encode, decodeReplacing_utf8]

/-! ## Layouts -/

/-- A wire whose blobs can be made from what is read of them. -/
structure BlobWire (α : Type) extends PathWire α where
  /-- The blob of unquoted characters: for bytes, if they are Latin-1. -/
  readChars : List Char → Option (List α)
  readChars_chars : ∀ blob, readChars (chars blob) = some blob
  /-- The blob of a text. -/
  ofText : List Char → List α
  text_eq_some : ∀ blob t, text blob = some t ↔ ofText t = blob
  raw_injective : Function.Injective raw

def BlobWire.str : BlobWire Char where
  toPathWire := PathWire.str
  readChars := some
  readChars_chars _ := rfl
  ofText t := t
  text_eq_some blob t := by
    constructor
    · intro h
      exact (Option.some.inj h).symm
    · intro h
      rw [h]
      rfl
  raw_injective := utf8_injective

theorem toList_toByteArray (bytes : List UInt8) : bytes.toByteArray.data.toList = bytes := by
  simp

/-- What is UTF-8 is the encoding of its text. -/
theorem decodeUtf8_eq_some (blob : List UInt8) (t : List Char) :
    decodeUtf8 blob = some t ↔ utf8 t = blob := by
  have hencode : ∀ t : List Char, t.utf8Encode = (utf8 t).toByteArray := fun _ => rfl
  unfold decodeUtf8 String.fromUTF8?
  constructor
  · intro h
    split at h
    · next hvalid =>
      have ht := congrArg List.utf8Encode (Option.some.inj h)
      rw [String.utf8Encode_toList, hencode] at ht
      have hdata := congrArg (fun b : ByteArray => b.data.toList) ht
      simp only [toList_toByteArray] at hdata
      exact (hdata.symm.trans (toList_toByteArray blob))
    · cases h
  · intro h
    have hvalid : blob.toByteArray.IsValidUTF8 := ⟨t, by rw [hencode, h]⟩
    rw [dif_pos hvalid]
    refine congrArg some (String.ofList_injective ?_)
    rw [String.ofList_toList, ← String.toByteArray_inj, String.toByteArray_ofList, hencode, h]
    rfl

/-- `encode("latin-1")` -/
def encodeLatin1 (text : List Char) : Option (List UInt8) :=
  if text.all fun c => decide (c.toNat < 256) then some (text.map fun c => UInt8.ofNat c.toNat) else none

theorem toNat_latin1 (b : UInt8) : (latin1 b).toNat = b.toNat := by
  have hlt : b.toNat < 256 := UInt8.toNat_lt_size b
  have hvalid : b.toNat.isValidChar := .inl (by omega)
  unfold latin1 Char.ofNat
  rw [dif_pos hvalid]
  rfl

theorem encodeLatin1_latin1 (blob : List UInt8) : encodeLatin1 (blob.map latin1) = some blob := by
  have hall : ((blob.map latin1).all fun c => decide (c.toNat < 256)) = true := by
    rw [List.all_eq_true]
    intro c hc
    obtain ⟨b, -, rfl⟩ := List.mem_map.mp hc
    rw [toNat_latin1, decide_eq_true_eq]
    exact UInt8.toNat_lt_size b
  have hback : ((blob.map latin1).map fun c => UInt8.ofNat c.toNat) = blob := by
    rw [List.map_map]
    conv_rhs => rw [← List.map_id blob]
    refine List.map_congr_left fun b _ => ?_
    show UInt8.ofNat (latin1 b).toNat = b
    rw [toNat_latin1, UInt8.ofNat_toNat]
  unfold encodeLatin1
  rw [if_pos hall, hback]

def BlobWire.bytes : BlobWire UInt8 where
  toPathWire := PathWire.bytes
  readChars := encodeLatin1
  readChars_chars := encodeLatin1_latin1
  ofText := utf8
  text_eq_some := decodeUtf8_eq_some
  raw_injective _ _ h := h

def reprLayout : KeyLayout → String
  | .literal => "<KeyLayout.LITERAL: 'literal'>"
  | .hashed => "<KeyLayout.HASHED: 'hashed'>"
  | .hierarchical => "<KeyLayout.HIERARCHICAL: 'hierarchical'>"

section Layout

variable {α : Type} (w : BlobWire α) (sha256 : List UInt8 → List Char)

/-- The blob of a path, under a layout that can be reversed. -/
def decodePath (layout : KeyLayout) (rel : List Char) : Except Exn (List α) :=
  if layout ≠ .literal then
    .error (.valueError ("layout " ++ reprLayout layout
      ++ " is not reversible from a relative path / object key"))
  else
    match w.readChars (unquote (replace ['\\'] ['/'] rel)) with
    | some blob => .ok blob
    | none => .error (.valueError "'latin-1' codec can't encode characters")

/-- Different blobs have different paths. -/
def PathsApart (layout : KeyLayout) : Prop :=
  ∀ blob blob' p, encodePath w.toPathWire sha256 layout blob = .ok p →
    encodePath w.toPathWire sha256 layout blob' = .ok p → blob = blob'

/-- No character of a quoted text is rewritten before it is read. -/
theorem replace_backslash_quote (text : List Char) : replace ['\\'] ['/'] (quote text) = quote text := by
  have hnone : '\\' ∉ quote text := by
    intro h
    obtain ⟨b, -, hb⟩ := List.mem_flatMap.mp h
    exact Percent.backslash_not_mem_encodeByte b hb
  rw [replace_singleton]
  conv_rhs => rw [← List.flatMap_singleton' (quote text)]
  refine List.flatMap_congr fun c hc => ?_
  have hne : c ≠ '\\' := by
    intro he
    rw [he] at hc
    exact hnone hc
  rw [if_neg hne]

/-- The path of a `LITERAL` key is read back. -/
theorem decodePath_encodePath (blob : List α) :
    ∃ p, encodePath w.toPathWire sha256 .literal blob = .ok p ∧ decodePath w .literal p = .ok blob := by
  refine ⟨_, rfl, ?_⟩
  unfold decodePath
  rw [if_neg (by simp), replace_backslash_quote, unquote_quote, w.readChars_chars]

/-- The blobs are texts of the same safe segments. -/
def SameSegments (blob blob' : List α) : Prop :=
  ∃ text text', w.text blob = some text ∧ w.text blob' = some text' ∧
    hierarchicalParts text = hierarchicalParts text'

theorem encodePath_hierarchical (blob : List α) (p : List Char) :
    encodePath w.toPathWire sha256 .hierarchical blob = .ok p ↔
      ∃ text, w.text blob = some text ∧ p = join ['/'] (hierarchicalParts text) := by
  unfold encodePath
  simp only
  cases w.text blob with
  | none =>
    constructor
    · intro h
      cases h
    · intro ⟨text, htext, _⟩
      cases htext
  | some text =>
    constructor
    · intro h
      exact ⟨text, rfl, (Except.ok.inj h).symm⟩
    · intro ⟨text', htext, hp⟩
      rw [hp, ← Option.some.inj htext]

/-- Two blobs are one `HIERARCHICAL` object where their safe segments are the same. -/
theorem one_path_iff_sameSegments (blob blob' : List α) :
    (∃ p, encodePath w.toPathWire sha256 .hierarchical blob = .ok p ∧
      encodePath w.toPathWire sha256 .hierarchical blob' = .ok p) ↔ SameSegments w blob blob' := by
  simp only [encodePath_hierarchical]
  constructor
  · intro ⟨p, ⟨text, htext, hp⟩, ⟨text', htext', hp'⟩⟩
    exact ⟨text, text', htext, htext', join_injective (hierarchicalParts_ne_nil text)
      (hierarchicalParts_ne_nil text') (fun _ => slash_not_mem_parts) (fun _ => slash_not_mem_parts)
      (hp.symm.trans hp')⟩
  · intro ⟨text, text', htext, htext', hparts⟩
    exact ⟨_, ⟨text, htext, rfl⟩, ⟨text', htext', by rw [hparts]⟩⟩

variable {sha256}

theorem pathsApart_of_ne {layout : KeyLayout} (hsha : Function.Injective sha256)
    (h : layout ≠ .hierarchical) : PathsApart w sha256 layout := by
  intro blob blob' p hp hp'
  cases layout with
  | literal =>
    have hpath := Except.ok.inj (hp.trans hp'.symm)
    exact w.chars_injective (quote_injective hpath)
  | hashed =>
    have hpath := Except.ok.inj (hp.trans hp'.symm)
    exact w.raw_injective (hsha hpath)
  | hierarchical => exact absurd rfl h

/-- A leading slash is dropped. -/
theorem not_pathsApart_hierarchical (sha256 : List UInt8 → List Char) :
    ¬ PathsApart w sha256 .hierarchical := by
  intro hapart
  have htext : ∀ t, w.text (w.ofText t) = some t := fun t => (w.text_eq_some _ t).mpr rfl
  have hparts : hierarchicalParts ['a'] = hierarchicalParts ['/', 'a'] := by decide
  obtain ⟨p, hp, hp'⟩ := (one_path_iff_sameSegments w sha256 (w.ofText ['a']) (w.ofText ['/', 'a'])).mpr
    ⟨_, _, htext _, htext _, hparts⟩
  have hsame := hapart _ _ p hp hp'
  have hone := htext ['a']
  rw [hsame, htext] at hone
  exact absurd hone (by decide)

end Layout

/-- Different keys are different objects except under `HIERARCHICAL`, where they are one
    exactly if their safe segments are the same. A `LITERAL` path is read back. -/
theorem encodePath_injective_iff {K V α VB : Type} [DecidableEq α] (w : BlobWire α)
    {sha256 : List UInt8 → List Char} (hsha : Function.Injective sha256) :
    (∀ layout, PathsApart w sha256 layout ↔ layout ≠ .hierarchical) ∧
    (∀ blob, ∃ p, encodePath w.toPathWire sha256 .literal blob = .ok p ∧
      decodePath w .literal p = .ok blob) ∧
    (∀ layout blob blob', blob ≠ blob' →
      ((¬ ∃ p, encodePath w.toPathWire sha256 layout blob = .ok p ∧
        encodePath w.toPathWire sha256 layout blob' = .ok p) ↔
        (layout = .hierarchical → ¬ SameSegments w blob blob'))) ∧
    ∀ (c : KeyCodec K V α VB) key key', key ≠ key' →
      (KeyCodec.Isolated w.toPathWire sha256 c c key key' ↔
        (c.kvset.keyLayout = .hierarchical → ¬ SameSegments w (c.inKeyBlob key) (c.inKeyBlob key'))) := by
  have hpair : ∀ layout blob blob', blob ≠ blob' →
      ((¬ ∃ p, encodePath w.toPathWire sha256 layout blob = .ok p ∧
        encodePath w.toPathWire sha256 layout blob' = .ok p) ↔
        (layout = .hierarchical → ¬ SameSegments w blob blob')) := by
    intro layout blob blob' hne
    by_cases h : layout = .hierarchical
    · rw [h, one_path_iff_sameSegments]
      exact ⟨fun hnot _ => hnot, fun hnot => hnot rfl⟩
    · refine ⟨fun _ hlayout => absurd hlayout h, fun _ ⟨p, hp, hp'⟩ => hne ?_⟩
      exact pathsApart_of_ne w hsha h blob blob' p hp hp'
  refine ⟨fun layout => ⟨?_, pathsApart_of_ne w hsha⟩, decodePath_encodePath w sha256, hpair, ?_⟩
  · rintro hapart rfl
    exact not_pathsApart_hierarchical w sha256 hapart
  · intro c key key' hne
    have hblob : c.inKeyBlob key ≠ c.inKeyBlob key' := fun h =>
      hne (c.kvset.keySerde.serialize_injective (join_last_injective _ _ h))
    rw [← hpair c.kvset.keyLayout _ _ hblob]
    -- the collection's prefix comes before both paths
    refine not_congr ⟨fun ⟨p, hp, hp'⟩ => ?_, fun ⟨p, hp, hp'⟩ => ⟨c.collectionPrefix ++ p, ?_, ?_⟩⟩
    · unfold KeyCodec.encodePhysical at hp hp'
      cases hrel : encodePath w.toPathWire sha256 c.kvset.keyLayout (c.inKeyBlob key) with
      | error e => rw [hrel] at hp; cases hp
      | ok rel =>
        cases hrel' : encodePath w.toPathWire sha256 c.kvset.keyLayout (c.inKeyBlob key') with
        | error e => rw [hrel'] at hp'; cases hp'
        | ok rel' =>
          rw [hrel] at hp
          rw [hrel'] at hp'
          have hsame := List.append_cancel_left ((Except.ok.inj hp).trans (Except.ok.inj hp').symm)
          exact ⟨rel, rfl, by rw [hsame]⟩
    · unfold KeyCodec.encodePhysical
      rw [hp]
      rfl
    · unfold KeyCodec.encodePhysical
      rw [hp']
      rfl

/-- A key under a slash and a key with none, in a collection that quotes them. -/
theorem encodePath_injective_iff_items :
    PathsApart BlobWire.str Percent.encode .literal ∧
      KeyCodec.Isolated PathWire.str Percent.encode items items ['a'] ['/', 'a'] := by
  obtain ⟨hlayouts, -, -, hkeys⟩ := @encodePath_injective_iff (List Char) String Char String _
    BlobWire.str _ Percent.encode_injective
  refine ⟨(hlayouts .literal).mpr (by decide), (hkeys items _ _ (by decide)).mpr ?_⟩
  intro h
  cases h

/-- Two texts of which one begins with a slash. -/
theorem hierarchical_one_path :
    ¬ PathsApart BlobWire.str (fun _ => []) .hierarchical := by
  intro h
  exact absurd (h ['a'] ['/', 'a'] ['a'] (by rfl) (by rfl)) (by decide)

end Kvtsjl
