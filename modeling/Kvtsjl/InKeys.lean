import Kvtsjl.Lib.Dict
import Kvtsjl.ReadingKeys
import Kvtsjl.ScopedKeys

/-
  The in-key blob of a collection with a declared schema.
  `encode_in_key` joins the kinds and ids of the full scope, each escaped, and the leaf as it is.
  `decode_in_key` reads the blob as text and splits it at the separators. A blob that is no text
  it cannot read, not even one that `encode_in_key` wrote (`decodeInKey_inverts_iff`).
-/

namespace Kvtsjl

open Delimited
open Assoc (Dict)

/-! ## Blobs as text -/

/-- Reading a blob as text, and a text as a blob. -/
structure WireText {α : Type} [DecidableEq α] (wire : KeyWire α) where
  /-- `_as_text`. `none` is a blob that is not UTF-8. -/
  asText : List α → Option (List Char)
  asText_eq_some : ∀ blob t, asText blob = some t ↔ wire.serialize (String.ofList t) = blob
  writes : wire.WritesText

def WireText.ofText (separator : List Char) (h : '%' ∉ separator) : WireText (KeyWire.ofText separator h) where
  asText := some
  asText_eq_some blob t := by
    show some blob = some t ↔ (String.ofList t).toList = blob
    rw [String.toList_ofList, Option.some.injEq, eq_comm]
  writes := KeyWire.writesText_ofText h

def WireText.ofBytes (separator : List Char) (h : '%' ∉ separator) : WireText (KeyWire.ofBytes separator h) where
  asText := decodeUtf8
  asText_eq_some blob t := by
    rw [decodeUtf8_eq_some]
    show _ ↔ utf8 (String.ofList t).toList = blob
    rw [String.toList_ofList]
  writes := KeyWire.writesText_ofBytes h

def WireText.str : WireText KeyWire.str := .ofText [':'] _

def WireText.bytes : WireText KeyWire.bytes := .ofBytes [':'] _

/-- `Scope.of(**kinds_to_ids)`: a kind given twice keeps its first place and its last id. -/
def Scope.of (kindsToIds : List ScopeSegment) : Scope :=
  ⟨(kindsToIds.foldl (fun d g => Dict.set d g.kind g.id) Dict.empty).entries.map fun e => ⟨e.1, e.2⟩⟩

namespace KvSet

variable {K V α VB : Type} [DecidableEq α] (s : KvSet K V α VB)

/-! ## Taking a blob apart -/

/-- `_unescape_segment` -/
def unescapeSegment (text : List Char) : String := String.ofList (s.wire.strCodes.unescape text)

/-- `_as_blob` -/
def asBlob (text : List Char) : List α := s.wire.serialize (String.ofList text)

/-- The ids the tokens hold behind the kinds of the schema. -/
def readSegments : List String → List (List Char) → Option (List ScopeSegment)
  | [], _ => some []
  | kind :: schema, rawKind :: rawId :: tokens =>
    if s.unescapeSegment rawKind ≠ kind then none
    else (readSegments schema tokens).map (⟨kind, s.unescapeSegment rawId⟩ :: ·)
  | _ :: _, _ => none

/-- `decode_in_key`: the full scope and the leaf. -/
def decodeInKey (t : WireText s.wire) (inKey : List α) : Except Exn (Option (Scope × K)) :=
  match t.asText inKey with
  | none => .error (.valueError "'utf-8' codec can't decode")
  | some text =>
    match s.scopeSchema with
    | none => .ok ((s.keySerde.deserialize inKey).map fun leaf => (Scope.empty, leaf))
    | some schema =>
      let sep := s.wire.strCodes.sep
      if sep = [] then .error (.valueError "empty separator")
      else
        let tokens := split sep text
        if tokens.length < 2 * schema.length + 1 then .ok none
        else
          match s.readSegments schema tokens with
          | none => .ok none
          | some segments =>
            -- the leaf is whatever is left, separators and all
            let leafText := join sep (tokens.drop (2 * schema.length))
            .ok ((s.keySerde.deserialize (s.asBlob leafText)).map fun leaf => (Scope.of segments, leaf))

/-! ## What is read -/

/-- Kind and id of each segment, in turn. -/
def names (segments : List ScopeSegment) : List String := segments.flatMap fun g => [g.kind, g.id]

/-- A text made of the parts and the rest, where the parts are of the segments, however they are
    escaped, and the codec reads the rest as the key. -/
structure Spelled (schema : List String) (text : List Char) (segments : List ScopeSegment)
    (parts : List (List Char)) (rest : List Char) (key : K) : Prop where
  text : text = join s.wire.strCodes.sep (parts ++ [rest])
  ends : ∀ p ∈ parts, Ends s.wire.strCodes.sep p
  names : parts.map s.unescapeSegment = names segments
  kinds : (segments.map fun g => g.kind) = schema
  leaf : s.keySerde.deserialize (s.asBlob rest) = some key

theorem length_names (segments : List ScopeSegment) : (names segments).length = 2 * segments.length := by
  unfold names
  simp [List.length_flatMap, Nat.mul_comm]

theorem readSegments_eq_some {schema : List String} {tokens : List (List Char)}
    {segments : List ScopeSegment} :
    s.readSegments schema tokens = some segments ↔ (segments.map fun g => g.kind) = schema ∧
      (tokens.take (2 * schema.length)).map s.unescapeSegment = names segments := by
  induction schema generalizing tokens segments with
  | nil =>
    unfold readSegments
    rw [Option.some.injEq, List.map_eq_nil_iff, List.length_nil, Nat.mul_zero, List.take_zero]
    constructor
    · rintro rfl
      exact ⟨rfl, rfl⟩
    · intro h
      exact h.1.symm
  | cons kind schema ih =>
    have hlength : 2 * (kind :: schema).length = 2 * schema.length + 2 := by
      rw [List.length_cons]
      omega
    -- too few tokens name no segments
    have hshort : ∀ {tokens : List (List Char)}, tokens.length < 2 →
        ¬ ((segments.map fun g => g.kind) = kind :: schema ∧
          (tokens.take (2 * (kind :: schema).length)).map s.unescapeSegment = names segments) := by
      intro tokens hfew ⟨hkinds, hnames⟩
      have hcount := congrArg List.length hnames
      have hsegments := congrArg List.length hkinds
      rw [length_names, List.length_map, List.length_take] at hcount
      rw [List.length_map, List.length_cons] at hsegments
      omega
    match tokens with
    | [] => exact iff_of_false (by simp [readSegments]) (hshort (by simp))
    | [_] => exact iff_of_false (by simp [readSegments]) (hshort (by simp))
    | rawKind :: rawId :: tokens =>
      rw [readSegments, hlength, List.take_succ_cons, List.take_succ_cons, List.map_cons, List.map_cons]
      constructor
      · intro h
        split at h
        · cases h
        · next hkind =>
          obtain ⟨more, hmore, rfl⟩ := Option.map_eq_some_iff.mp h
          obtain ⟨hkinds, hnames⟩ := ih.mp hmore
          refine ⟨by rw [List.map_cons, hkinds], ?_⟩
          rw [hnames, not_not.mp hkind]
          rfl
      · intro ⟨hkinds, hnames⟩
        obtain ⟨g, more, rfl⟩ : ∃ g more, segments = g :: more := by
          cases segments with
          | nil => cases hkinds
          | cons g more => exact ⟨g, more, rfl⟩
        rw [List.map_cons, List.cons.injEq] at hkinds
        have hnames' : s.unescapeSegment rawKind = g.kind ∧ s.unescapeSegment rawId = g.id ∧
            (tokens.take (2 * schema.length)).map s.unescapeSegment = names more := by
          unfold names at hnames
          rw [List.flatMap_cons] at hnames
          simp only [List.cons_append, List.nil_append, List.cons.injEq] at hnames
          exact hnames
        rw [if_neg (by rw [hnames'.1, hkinds.1]; simp), ih.mpr ⟨hkinds.2, hnames'.2.2⟩, hnames'.2.1,
          ← hkinds.1]
        rfl

/-- The parts of a scope before they become blobs. -/
def rawParts (scope : Scope) : List (List Char) :=
  scope.segments.flatMap fun g => [s.wire.strCodes.escape g.kind.toList, s.wire.strCodes.escape g.id.toList]

theorem scopeParts_eq (scope : Scope) : s.scopeParts scope = (s.rawParts scope).map s.asBlob := by
  unfold scopeParts rawParts
  rw [List.map_flatMap]
  rfl

theorem map_unescapeSegment_rawParts (scope : Scope) :
    (s.rawParts scope).map s.unescapeSegment = names scope.segments := by
  have hback : ∀ name : String, s.unescapeSegment (s.wire.strCodes.escape name.toList) = name := by
    intro name
    unfold unescapeSegment
    rw [s.wire.strCodes.unescape_escape, String.ofList_toList]
  unfold rawParts names
  rw [List.map_flatMap]
  refine List.flatMap_congr fun g _ => ?_
  rw [List.map_cons, List.map_cons, hback, hback]
  rfl

theorem asBlob_join (ps : List (List Char)) (hw : s.wire.WritesText) (last : List Char) :
    s.asBlob (join s.wire.strCodes.sep (ps ++ [last])) = s.joinParts (ps.map s.asBlob ++ [s.asBlob last]) := by
  induction ps with
  | nil => rfl
  | cons p ps ih =>
    unfold joinParts at ih ⊢
    rw [List.cons_append, join_cons _ _ (by simp), List.map_cons, List.cons_append,
      join_cons _ _ (by simp), ← ih, hw.sep]
    exact (hw.append _ _).trans (congrArg _ (hw.append _ _))

/-- A blob joined from texts and a leaf is text only if the leaf is. -/
theorem asText_join {t : WireText s.wire} {ps : List (List Char)} {leaf : List α} {text : List Char}
    (h : t.asText (s.joinParts (ps.map s.asBlob ++ [leaf])) = some text) :
    ∃ rest, leaf = s.asBlob rest ∧ text = join s.wire.strCodes.sep (ps ++ [rest]) := by
  rw [t.asText_eq_some] at h
  induction ps generalizing text with
  | nil => exact ⟨text, h.symm, rfl⟩
  | cons p ps ih =>
    unfold joinParts at h ih
    rw [List.map_cons, List.cons_append, join_cons _ _ (by simp)] at h
    obtain ⟨v, rfl, hv⟩ := t.writes.after _ _ _ h
    have hsep := hv.symm.trans (congrArg (· ++ join s.wire.codes.sep (ps.map s.asBlob ++ [leaf])) t.writes.sep)
    obtain ⟨v', rfl, hv'⟩ := t.writes.after _ _ _ hsep
    obtain ⟨rest, hleaf, rfl⟩ := ih hv'.symm
    refine ⟨rest, hleaf, ?_⟩
    rw [List.cons_append, join_cons _ _ (by simp)]

variable {s}

theorem Spelled.length {schema : List String} {text : List Char} {segments : List ScopeSegment}
    {parts : List (List Char)} {rest : List Char} {key : K}
    (h : s.Spelled schema text segments parts rest key) : parts.length = 2 * schema.length := by
  have hparts := congrArg List.length h.names
  have hkinds := congrArg List.length h.kinds
  rw [List.length_map, length_names] at hparts
  rw [List.length_map] at hkinds
  omega

theorem decodeInKey_of_spelled {schema : List String} (hs : s.scopeSchema = some schema)
    (hsep : s.wire.strCodes.sep ≠ []) {t : WireText s.wire} {blob : List α} {text : List Char}
    (ht : t.asText blob = some text) {segments : List ScopeSegment} {parts : List (List Char)} {rest : List Char}
    {key : K} (h : s.Spelled schema text segments parts rest key) :
    s.decodeInKey t blob = .ok (some (Scope.of segments, key)) := by
  have htokens : split s.wire.strCodes.sep text = parts ++ split s.wire.strCodes.sep rest := by
    rw [h.text, split_join_append hsep h.ends]
  have htake : (split s.wire.strCodes.sep text).take (2 * schema.length) = parts := by
    rw [htokens, ← h.length, List.take_left]
  have hdrop : join s.wire.strCodes.sep ((split s.wire.strCodes.sep text).drop (2 * schema.length)) = rest := by
    rw [htokens, ← h.length, List.drop_left, join_split hsep]
  have henough : ¬ (split s.wire.strCodes.sep text).length < 2 * schema.length + 1 := by
    have hrest := List.length_pos_of_ne_nil (split_ne_nil s.wire.strCodes.sep rest)
    rw [htokens, List.length_append, h.length]
    omega
  have hsegments : s.readSegments schema (split s.wire.strCodes.sep text) = some segments := by
    rw [readSegments_eq_some, htake]
    exact ⟨h.kinds, h.names⟩
  unfold decodeInKey
  rw [ht]
  simp only [hs, hsep, henough, if_false, hsegments, hdrop, h.leaf]
  rfl

theorem spelled_of_decodeInKey {schema : List String} (hs : s.scopeSchema = some schema)
    {t : WireText s.wire} {blob : List α} {scope : Scope} {key : K}
    (h : s.decodeInKey t blob = .ok (some (scope, key))) :
    s.wire.strCodes.sep ≠ [] ∧ ∃ text segments parts rest, t.asText blob = some text ∧
      s.Spelled schema text segments parts rest key ∧ scope = Scope.of segments := by
  unfold decodeInKey at h
  cases ht : t.asText blob with
  | none =>
    rw [ht] at h
    cases h
  | some text =>
    rw [ht] at h
    simp only [hs] at h
    by_cases hsep : s.wire.strCodes.sep = []
    · rw [if_pos hsep] at h
      cases h
    rw [if_neg hsep] at h
    let tokens := split s.wire.strCodes.sep text
    by_cases hfew : tokens.length < 2 * schema.length + 1
    · rw [if_pos hfew] at h
      cases h
    rw [if_neg hfew] at h
    cases hsegments : s.readSegments schema tokens with
    | none =>
      rw [hsegments] at h
      cases h
    | some segments =>
      rw [hsegments] at h
      simp only [Except.ok.injEq] at h
      obtain ⟨leaf, hleaf, hpair⟩ := Option.map_eq_some_iff.mp h
      obtain ⟨hscope, rfl⟩ := Prod.mk.inj hpair
      obtain ⟨hkinds, hnames⟩ := (s.readSegments_eq_some).mp hsegments
      have hne : tokens.drop (2 * schema.length) ≠ [] := by
        intro hnil
        have hlength := congrArg List.length hnil
        rw [List.length_drop, List.length_nil] at hlength
        omega
      refine ⟨hsep, text, segments, tokens.take (2 * schema.length), _, rfl,
        ⟨?_, ?_, hnames, hkinds, hleaf⟩, hscope.symm⟩
      · conv_lhs => rw [← join_split hsep text, ← List.take_append_drop (2 * schema.length) (split s.wire.strCodes.sep text)]
        rw [join_append_left_inj _ _ hne (by simp)]
        rfl
      · obtain ⟨front, last, hback⟩ := (List.eq_nil_or_concat _).resolve_left hne
        rw [List.concat_eq_append] at hback
        have hsplit : split s.wire.strCodes.sep text = (tokens.take (2 * schema.length) ++ front) ++ [last] := by
          rw [List.append_assoc, ← hback, List.take_append_drop]
        exact fun p hp => ends_of_split hsep hsplit p (List.mem_append_left _ hp)

/-! ## Writing and reading -/

/-- Every kind of the schema has its id. -/
def Complete (schema : List String) (scope : Scope) : Prop := (scope.segments.map fun g => g.kind) = schema

theorem encodeInKey_complete {schema : List String} (hs : s.scopeSchema = some schema) {scope : Scope}
    (h : Complete schema scope) (key : K) :
    s.encodeInKey s.keySerde.serialize scope (some key) = .ok (s.plainInKey scope key) := by
  have hlength : scope.segments.length = schema.length := by
    rw [← h, List.length_map]
  unfold encodeInKey leafNeedsEscaping
  simp only [hs, hlength, ne_eq, not_true, if_false]
  rfl

/-- The text of a key, if it has one, is spelled by the parts of its scope if the separator ends them. -/
theorem spelled_of_plainInKey {schema : List String} {scope : Scope} (h : Complete schema scope)
    (hends : ∀ p ∈ s.rawParts scope, Ends s.wire.strCodes.sep p) {t : WireText s.wire} {key : K} {text : List Char}
    (ht : t.asText (s.plainInKey scope key) = some text) :
    ∃ rest, s.keySerde.serialize key = s.asBlob rest ∧
      s.Spelled schema text scope.segments (s.rawParts scope) rest key := by
  unfold plainInKey at ht
  rw [scopeParts_eq] at ht
  obtain ⟨rest, hleaf, htext⟩ := asText_join s ht
  refine ⟨rest, hleaf, htext, hends, s.map_unescapeSegment_rawParts scope, h, ?_⟩
  rw [← hleaf]
  exact s.keySerde.roundtrip key

/-- Kinds that are all different stay as they are. -/
theorem foldl_set {segments : List ScopeSegment} : ∀ (d : Dict String String),
    (d.keys ++ segments.map fun g => g.kind).Nodup →
      (segments.foldl (fun d g => d.set g.kind g.id) d).entries =
        d.entries ++ segments.map fun g => (g.kind, g.id) := by
  induction segments with
  | nil =>
    intro d _
    exact (List.append_nil _).symm
  | cons g segments ih =>
    intro d h
    have hnew : g.kind ∉ d.keys := by
      intro hmem
      exact (List.nodup_append.mp h).2.2 _ hmem _ List.mem_cons_self rfl
    have hset : (d.set g.kind g.id).entries = d.entries ++ [(g.kind, g.id)] := Dict.entries_set hnew g.id
    have hkeys : (d.set g.kind g.id).keys = d.keys ++ [g.kind] := by
      unfold Dict.keys
      rw [hset, List.map_append]
      rfl
    rw [List.foldl_cons, ih _, hset, List.append_assoc]
    · rfl
    · rw [hkeys, List.append_assoc]
      exact h

theorem of_eq_of_nodup {segments : List ScopeSegment} (h : (segments.map fun g => g.kind).Nodup) :
    Scope.of segments = ⟨segments⟩ := by
  unfold Scope.of
  rw [foldl_set .empty h]
  refine congrArg Scope.mk ?_
  show (segments.map fun g => (g.kind, g.id)).map _ = segments
  rw [List.map_map]
  exact List.map_id segments

theorem nodup_of (segments : List ScopeSegment) :
    ((Scope.of segments).segments.map fun g => g.kind).Nodup := by
  unfold Scope.of
  rw [List.map_map]
  exact Dict.nodup _

/-- The blob decodes, and to a scope and a key exactly if it is what they are encoded to. -/
def Inverts (s : KvSet K V α VB) (t : WireText s.wire) (schema : List String) (blob : List α) : Prop :=
  ∃ answer, s.decodeInKey t blob = .ok answer ∧ ∀ scope key, answer = some (scope, key) ↔
    Complete schema scope ∧ s.encodeInKey s.keySerde.serialize scope (some key) = .ok blob

/-- The blob is text, and there is a separator. What the text spells, by parts that the separator ends, is written
    as this blob, with no kind twice, and what is written as this blob is spelled by the text. -/
def Canonical (s : KvSet K V α VB) (t : WireText s.wire) (schema : List String) (blob : List α) : Prop :=
  s.wire.strCodes.sep ≠ [] ∧ ∃ text, t.asText blob = some text ∧
    (∀ segments parts rest key, s.Spelled schema text segments parts rest key →
      schema.Nodup ∧ s.plainInKey ⟨segments⟩ key = blob) ∧
    ∀ scope key, Complete schema scope → s.plainInKey scope key = blob →
      ∃ parts rest, s.Spelled schema text scope.segments parts rest key

/-- The blob is text. If it spells a scope and a key, the schema has no kind twice, and the parts
    and the leaf are escaped and written as they would be encoded. -/
def CanonicalParts (s : KvSet K V α VB) (t : WireText s.wire) (schema : List String) (blob : List α) : Prop :=
  ∃ text, t.asText blob = some text ∧ ∀ segments parts rest key,
    s.Spelled schema text segments parts rest key → schema.Nodup ∧
      (∀ p ∈ parts, s.wire.strCodes.escape (s.wire.strCodes.unescape p) = p) ∧
      s.keySerde.serialize key = s.asBlob rest

theorem decodeInKey_eq_error {t : WireText s.wire} {blob : List α} :
    (∃ e, s.decodeInKey t blob = .error e) ↔
      t.asText blob = none ∨ s.scopeSchema ≠ none ∧ s.wire.strCodes.sep = [] := by
  unfold decodeInKey
  cases t.asText blob with
  | none => exact iff_of_true ⟨_, rfl⟩ (.inl rfl)
  | some text =>
    cases hs : s.scopeSchema with
    | none =>
      refine iff_of_false (fun ⟨e, he⟩ => ?_) (by simp)
      cases he
    | some schema =>
      by_cases hsep : s.wire.strCodes.sep = []
      · refine iff_of_true ⟨.valueError "empty separator", ?_⟩ (.inr ⟨Option.some_ne_none _, hsep⟩)
        simp only [hsep, if_true]
      · refine iff_of_false (fun ⟨e, he⟩ => ?_) (by simp [hsep])
        simp only [hsep, if_false] at he
        split at he
        · cases he
        · cases hsegments : s.readSegments schema (split s.wire.strCodes.sep text) with
          | none =>
            rw [hsegments] at he
            cases he
          | some segments =>
            rw [hsegments] at he
            cases he

theorem inverts_of_canonical {schema : List String} (hs : s.scopeSchema = some schema)
    {t : WireText s.wire} {blob : List α} (h : Canonical s t schema blob) : Inverts s t schema blob := by
  obtain ⟨hsep, text, ht, hspelled, hwritten⟩ := h
  have hkinds : ∀ {segments : List ScopeSegment} {parts : List (List Char)} {rest : List Char} {key : K},
      s.Spelled schema text segments parts rest key → Scope.of segments = ⟨segments⟩ := by
    intro segments parts rest key hspells
    refine of_eq_of_nodup ?_
    rw [hspells.kinds]
    exact (hspelled _ _ _ _ hspells).1
  cases hdecode : s.decodeInKey t blob with
  | error e =>
    rcases decodeInKey_eq_error.mp ⟨e, hdecode⟩ with hnone | ⟨-, hnil⟩
    · rw [ht] at hnone
      cases hnone
    · exact absurd hnil hsep
  | ok answer =>
    refine ⟨answer, hdecode, fun scope key => ⟨?_, ?_⟩⟩
    · rintro rfl
      obtain ⟨-, text', segments, parts, rest, ht', hspells, rfl⟩ := spelled_of_decodeInKey hs hdecode
      rw [ht, Option.some.injEq] at ht'
      subst ht'
      rw [hkinds hspells]
      have hcomplete : Complete schema ⟨segments⟩ := hspells.kinds
      exact ⟨hcomplete, by rw [encodeInKey_complete hs hcomplete, (hspelled _ _ _ _ hspells).2]⟩
    · intro ⟨hcomplete, hencode⟩
      rw [encodeInKey_complete hs hcomplete, Except.ok.injEq] at hencode
      obtain ⟨parts, rest, hspells⟩ := hwritten scope key hcomplete hencode
      have hsome := decodeInKey_of_spelled hs hsep ht hspells
      rw [hkinds hspells, hdecode, Except.ok.injEq] at hsome
      exact hsome

theorem canonical_of_inverts {schema : List String} (hs : s.scopeSchema = some schema)
    {t : WireText s.wire} {blob : List α} (h : Inverts s t schema blob) : Canonical s t schema blob := by
  obtain ⟨answer, hdecode, hanswer⟩ := h
  have hraises : ¬ ∃ e, s.decodeInKey t blob = .error e := by
    intro ⟨e, he⟩
    rw [hdecode] at he
    cases he
  rw [decodeInKey_eq_error, not_or, not_and, hs] at hraises
  have hsep := hraises.2 (Option.some_ne_none _)
  obtain ⟨text, ht⟩ := Option.ne_none_iff_exists'.mp hraises.1
  have hspelled : ∀ segments parts rest key, s.Spelled schema text segments parts rest key →
      schema.Nodup ∧ s.plainInKey ⟨segments⟩ key = blob := by
    intro segments parts rest key hspells
    have hsome := decodeInKey_of_spelled hs hsep ht hspells
    rw [hdecode, Except.ok.injEq] at hsome
    obtain ⟨hcomplete, hencode⟩ := (hanswer _ _).mp hsome
    have hnodup : schema.Nodup := by
      rw [← hcomplete]
      exact nodup_of segments
    have hscope : Scope.of segments = ⟨segments⟩ := of_eq_of_nodup (by rw [hspells.kinds]; exact hnodup)
    rw [hscope] at hcomplete hencode
    rw [encodeInKey_complete hs hcomplete, Except.ok.injEq] at hencode
    exact ⟨hnodup, hencode⟩
  refine ⟨hsep, text, ht, hspelled, fun scope key hcomplete hblob => ?_⟩
  have hsome := (hanswer scope key).mpr ⟨hcomplete, by rw [encodeInKey_complete hs hcomplete, hblob]⟩
  rw [hsome] at hdecode
  obtain ⟨-, text', segments, parts, rest, ht', hspells, rfl⟩ := spelled_of_decodeInKey hs hdecode
  rw [ht, Option.some.injEq] at ht'
  subst ht'
  refine ⟨parts, rest, ?_⟩
  rw [of_eq_of_nodup (by rw [hspells.kinds]; exact (hspelled _ _ _ _ hspells).1)]
  exact hspells

/-! ### Separators that end every name -/

/-- Where the separator ends every escaped name, one text has one list of parts. -/
theorem canonical_iff_parts (hends : s.wire.EndsNames) {schema : List String} {t : WireText s.wire} {blob : List α} :
    Canonical s t schema blob ↔ CanonicalParts s t schema blob := by
  have hraw : ∀ scope, ∀ p ∈ s.rawParts scope, Ends s.wire.strCodes.sep p := by
    intro scope p hp
    obtain ⟨g, -, hg⟩ := List.mem_flatMap.mp hp
    rcases List.mem_pair.mp hg with rfl | rfl
    · exact hends _
    · exact hends _
  constructor
  · intro ⟨hsep, text, ht, hspelled, _⟩
    refine ⟨text, ht, fun segments parts rest key hspells => ?_⟩
    obtain ⟨hnodup, hblob⟩ := hspelled segments parts rest key hspells
    have hcomplete : Complete schema ⟨segments⟩ := hspells.kinds
    rw [← hblob] at ht
    obtain ⟨rest', hleaf, hwritten⟩ := spelled_of_plainInKey hcomplete (hraw _) ht
    obtain ⟨hparts, hrest⟩ := join_inj_of_length hsep hwritten.ends hspells.ends
      (hwritten.length.trans hspells.length.symm) (hwritten.text.symm.trans hspells.text)
    refine ⟨hnodup, fun p hp => ?_, by rw [hleaf, hrest]⟩
    rw [← hparts] at hp
    obtain ⟨g, -, hg⟩ := List.mem_flatMap.mp hp
    rcases List.mem_pair.mp hg with rfl | rfl
    · rw [s.wire.strCodes.unescape_escape]
    · rw [s.wire.strCodes.unescape_escape]
  · intro ⟨text, ht, hspelled⟩
    refine ⟨hends.sep_ne_nil, text, ht, fun segments parts rest key hspells => ?_, fun scope key hcomplete hblob => ?_⟩
    · obtain ⟨hnodup, hparts, hleaf⟩ := hspelled segments parts rest key hspells
      -- each part is the escaped name it stands for
      have hnames : parts = s.rawParts ⟨segments⟩ := by
        have hescaped : (names segments).map (fun n => s.wire.strCodes.escape n.toList) = s.rawParts ⟨segments⟩ := by
          unfold names rawParts
          rw [List.map_flatMap]
          rfl
        rw [← hescaped, ← hspells.names, List.map_map]
        conv_lhs => rw [← List.map_id parts]
        refine List.map_congr_left fun p hp => ?_
        show p = s.wire.strCodes.escape (s.unescapeSegment p).toList
        unfold unescapeSegment
        rw [String.toList_ofList, hparts p hp]
      have hblob : s.asBlob text = blob := (t.asText_eq_some blob text).mp ht
      refine ⟨hnodup, ?_⟩
      rw [← hblob, hspells.text, asBlob_join s parts t.writes rest, ← hleaf, hnames, ← scopeParts_eq]
      rfl
    · rw [← hblob] at ht
      obtain ⟨rest, -, hspells⟩ := spelled_of_plainInKey hcomplete (hraw _) ht
      exact ⟨_, rest, hspells⟩

/-- A key of a full scope whose names the separator ends is given back exactly if its blob is text and the schema
    has no kind twice. -/
theorem decodeInKey_encodeInKey_iff {schema : List String} (hs : s.scopeSchema = some schema)
    (hsep : s.wire.strCodes.sep ≠ []) (t : WireText s.wire) {scope : Scope} (h : Complete schema scope)
    (hends : ∀ p ∈ s.rawParts scope, Ends s.wire.strCodes.sep p) {key : K} {blob : List α}
    (hblob : s.encodeInKey s.keySerde.serialize scope (some key) = .ok blob) :
    s.decodeInKey t blob = .ok (some (scope, key)) ↔
      (∃ text, t.asText blob = some text) ∧ schema.Nodup := by
  rw [encodeInKey_complete hs h, Except.ok.injEq] at hblob
  constructor
  · intro hdecode
    obtain ⟨-, text, segments, parts, rest, ht, hspells, hscope⟩ := spelled_of_decodeInKey hs hdecode
    refine ⟨⟨text, ht⟩, ?_⟩
    rw [← h, hscope]
    exact nodup_of segments
  · intro ⟨⟨text, ht⟩, hnodup⟩
    rw [← hblob] at ht ⊢
    obtain ⟨rest, -, hspells⟩ := spelled_of_plainInKey h hends ht
    rw [decodeInKey_of_spelled hs hsep ht hspells, of_eq_of_nodup (by rw [hspells.kinds]; exact hnodup)]

/-- `decode_in_key` inverts `encode_in_key` on the blobs that are canonical, and on no other. Where the separator
    ends every escaped name, these are the texts whose parts and leaf are as they would be written. It raises on
    blobs that are no text, and for want of a separator. -/
theorem decodeInKey_inverts_iff (s : KvSet K V α VB) {schema : List String}
    (hs : s.scopeSchema = some schema) (t : WireText s.wire) :
    (∀ blob, Inverts s t schema blob ↔ Canonical s t schema blob) ∧
    (s.wire.EndsNames → ∀ blob, Inverts s t schema blob ↔ CanonicalParts s t schema blob) ∧
    (s.wire.strCodes.sep ≠ [] → ∀ scope key blob, Complete schema scope →
      (∀ p ∈ s.rawParts scope, Ends s.wire.strCodes.sep p) →
        s.encodeInKey s.keySerde.serialize scope (some key) = .ok blob →
          (s.decodeInKey t blob = .ok (some (scope, key)) ↔
            (∃ text, t.asText blob = some text) ∧ schema.Nodup)) ∧
    ∀ blob, (∃ e, s.decodeInKey t blob = .error e) ↔ t.asText blob = none ∨ s.wire.strCodes.sep = [] := by
  have hall : ∀ blob, Inverts s t schema blob ↔ Canonical s t schema blob :=
    fun _ => ⟨canonical_of_inverts hs, inverts_of_canonical hs⟩
  refine ⟨hall, fun hends blob => (hall blob).trans (canonical_iff_parts hends),
    fun hsep scope key blob h hends hblob => decodeInKey_encodeInKey_iff hs hsep t h hends hblob, fun blob => ?_⟩
  rw [decodeInKey_eq_error, hs]
  simp

end KvSet

/-! ## A collection under bytes -/

/-- A user's pages, under text or under bytes. -/
def pages {α : Type} [DecidableEq α] (wire : KeyWire α) : KvSet (List α) String α String where
  name := "pages"
  version := "1"
  wire := wire
  keySerde := .identity _
  valueSerde := .identity _
  ttlPolicy := ⟨none⟩
  keyLayout := .literal
  scopeSchema := some ["user"]

theorem decodeInKey_inverts_iff_pages :
    (pages .str).decodeInKey .str "user:alice:k".toList = .ok (some (KeyCodec.alice, ['k'])) := by
  obtain ⟨-, -, hback, -⟩ := KvSet.decodeInKey_inverts_iff (pages .str) rfl .str
  have hcolon : ∀ p ∈ (pages .str).rawParts KeyCodec.alice, ':' ∉ p := by decide
  exact (hback (by decide) KeyCodec.alice ['k'] _ rfl (fun p hp => ends_singleton.mpr (hcolon p hp)) (by rfl)).mpr
    ⟨⟨_, rfl⟩, by decide⟩

/-- No character has this byte in its encoding. -/
theorem ff_not_mem_utf8 (t : List Char) : 0xFF ∉ utf8 t := by
  have hbyte : ∀ {n : Nat}, n < 255 → 0xFF ≠ UInt8.ofNat n := by
    intro n hn h
    have hcode := congrArg UInt8.toNat h
    rw [UInt8.toNat_ofNat', Nat.mod_eq_of_lt (by omega)] at hcode
    exact absurd hcode (by simp; omega)
  intro h
  obtain ⟨c, -, hc⟩ := List.mem_flatMap.mp h
  have hvalid : c.val.toNat < 0x110000 := by
    rcases c.valid with h | h <;> omega
  unfold String.utf8EncodeChar at hc
  simp only at hc
  split_ifs at hc <;> simp only [List.mem_cons, List.not_mem_nil, or_false] at hc
  · exact hbyte (by omega) hc
  · rcases hc with hc | hc
    · exact hbyte (by omega) hc
    · exact hbyte (by omega) hc
  · rcases hc with hc | hc | hc
    · exact hbyte (by omega) hc
    · exact hbyte (by omega) hc
    · exact hbyte (by omega) hc
  · rcases hc with hc | hc | hc | hc
    · exact hbyte (by omega) hc
    · exact hbyte (by omega) hc
    · exact hbyte (by omega) hc
    · exact hbyte (by omega) hc

/-- Under bytes, a leaf that is not UTF-8 makes the key's own blob raise. -/
theorem pages_raises : ¬ KvSet.Inverts (pages .bytes) .bytes ["user"]
    ((pages .bytes).plainInKey KeyCodec.alice [0xFF]) := by
  intro h
  obtain ⟨-, text, ht, -⟩ := KvSet.canonical_of_inverts (s := pages .bytes) rfl h
  have hblob := (WireText.bytes.asText_eq_some _ text).mp ht
  have hmem : (0xFF : UInt8) ∈ (pages .bytes).plainInKey KeyCodec.alice [0xFF] := by
    rw [KvSet.plainInKey_of_ne _ (by decide)]
    exact List.mem_append_right _ (by simp [pages, SerDe.identity])
  rw [← hblob] at hmem
  exact ff_not_mem_utf8 _ hmem

end Kvtsjl
