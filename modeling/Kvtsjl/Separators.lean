import Kvtsjl.Keys

/-
  What separators tell a collection's keys apart.
  A key is joined at the separator from escaped segments, so one key is no other's only if an
  escaped segment with the separator behind it is told from any other (`Apart`), and no escaped
  leaf goes on as a segment does (`LeafApart`). A separator without a percent sign does so
  exactly if it is not empty and does not end as it begins (`apart_ofText_iff`).
-/

namespace Kvtsjl

open Delimited

namespace KeyWire

variable {α : Type} [DecidableEq α] (wire : KeyWire α)

/-- The parts of a scope, kind and id in turn. -/
def segmentParts (segments : List ScopeSegment) : List (List α) :=
  segments.flatMap fun g => [wire.escapeSegment g.kind, wire.escapeSegment g.id]

/-- The separator tells where an escaped segment ends. -/
def Apart : Prop :=
  ∀ text text' rest rest', wire.escapeSegment text ++ (wire.codes.sep ++ rest) =
    wire.escapeSegment text' ++ (wire.codes.sep ++ rest') → text = text'

/-- The separator is the first one behind an escaped name. -/
def EndsNames : Prop := ∀ name : String, Ends wire.strCodes.sep (wire.strCodes.escape name.toList)

/-- The segments, and the leaf as it stands. -/
def key (segments : List ScopeSegment) (leaf : List α) : List α :=
  join wire.codes.sep (wire.segmentParts segments ++ [leaf])

/-- No escaped leaf spells segments and another escaped leaf. -/
def LeafApart : Prop :=
  ∀ leaf leaf' segments, segments ≠ [] → wire.codes.escape leaf ≠ wire.key segments (wire.codes.escape leaf')

/-- The leaf of the wider scope spells the segments the narrower one adds, and its leaf. -/
def Spells (segments : List ScopeSegment) (leaf : List α) (segments' : List ScopeSegment) (leaf' : List α) : Prop :=
  ∃ more, more ≠ [] ∧ segments' = segments ++ more ∧ leaf = wire.key more leaf'

/-- After the same names, two different ones are cut off at separators that overlap. -/
def Straddles (segments : List ScopeSegment) (leaf : List α) (segments' : List ScopeSegment) (leaf' : List α) : Prop :=
  Delimited.Straddles wire.codes.sep (wire.segmentParts segments ++ [leaf]) (wire.segmentParts segments' ++ [leaf'])

/-- One key spells the other, or they are cut at separators that overlap. -/
def Merges (segments : List ScopeSegment) (leaf : List α) (segments' : List ScopeSegment) (leaf' : List α) : Prop :=
  wire.Spells segments leaf segments' leaf' ∨ wire.Spells segments' leaf' segments leaf ∨
    wire.Straddles segments leaf segments' leaf'

theorem segmentParts_append (gs hs : List ScopeSegment) :
    wire.segmentParts (gs ++ hs) = wire.segmentParts gs ++ wire.segmentParts hs := List.flatMap_append

/-- Segments whose parts begin another's are narrowed by those. -/
theorem segmentParts_prefix {gs : List ScopeSegment} : ∀ {hs : List ScopeSegment} {more : List (List α)},
    wire.segmentParts hs = wire.segmentParts gs ++ more → ∃ ms, hs = gs ++ ms ∧ more = wire.segmentParts ms := by
  induction gs with
  | nil => exact fun {hs more} h => ⟨hs, rfl, h.symm⟩
  | cons g gs ih =>
    intro hs more h
    cases hs with
    | nil => exact absurd h.symm (by simp [segmentParts])
    | cons g' hs =>
      unfold segmentParts at h
      simp only [List.flatMap_cons, List.cons_append, List.nil_append, List.cons.injEq] at h
      obtain ⟨hkind, hid, hrest⟩ := h
      obtain ⟨ms, hms, hmore⟩ := ih hrest
      have hg : g' = g := by
        obtain ⟨kind, id⟩ := g
        obtain ⟨kind', id'⟩ := g'
        exact congrArg₂ ScopeSegment.mk (wire.escapeSegment_injective hkind) (wire.escapeSegment_injective hid)
      exact ⟨ms, by rw [hg, hms]; rfl, hmore⟩

theorem segmentParts_injective : Function.Injective wire.segmentParts := by
  intro gs hs h
  obtain ⟨ms, hms, hmore⟩ := wire.segmentParts_prefix (h.symm.trans (List.append_nil _).symm)
  cases ms with
  | nil => rw [hms, List.append_nil]
  | cons m ms => simp [segmentParts] at hmore

/-- Two keys are one exactly where their parts are, or they merge. -/
theorem key_eq_iff {gs gs' : List ScopeSegment} {leaf leaf' : List α} : wire.key gs leaf = wire.key gs' leaf' ↔
    (gs = gs' ∧ leaf = leaf') ∨ wire.Merges gs leaf gs' leaf' := by
  -- the parts the other list goes on with are further segments and its leaf
  have hspells : ∀ {gs gs' : List ScopeSegment} {leaf leaf' : List α}, Runs wire.codes.sep
      (wire.segmentParts gs ++ [leaf]) (wire.segmentParts gs' ++ [leaf']) → wire.Spells gs leaf gs' leaf' := by
    intro gs gs' leaf leaf' ⟨init, last, more, hp, hq, hmore, hlast⟩
    obtain ⟨hinit, hleaf⟩ := List.append_inj' hp rfl
    obtain ⟨front, back, rfl⟩ := (List.eq_nil_or_concat more).resolve_left (by rintro rfl; simp at hmore)
    rw [List.concat_eq_append] at hq hmore hlast
    rw [← List.append_assoc, ← hinit] at hq
    obtain ⟨hparts, hback⟩ := List.append_inj' hq rfl
    obtain ⟨ms, hms, hfront⟩ := wire.segmentParts_prefix hparts
    refine ⟨ms, ?_, hms, ?_⟩
    · rintro rfl
      rw [hfront] at hmore
      simp [segmentParts] at hmore
    · rw [List.singleton_inj.mp hleaf, hlast, hfront, ← List.singleton_inj.mp hback]
      rfl
  have hback : ∀ {gs gs' : List ScopeSegment} {leaf leaf' : List α}, wire.Spells gs leaf gs' leaf' →
      wire.key gs leaf = wire.key gs' leaf' := by
    rintro gs gs' leaf leaf' ⟨more, -, rfl, rfl⟩
    unfold key
    rw [segmentParts_append, List.append_assoc, join_append_left_inj _ _ (by simp) (by simp)]
    rfl
  constructor
  · intro h
    rcases (join_eq_iff _ (by simp) (by simp)).mp h with hsame | hruns | hruns | hstraddles
    · obtain ⟨hparts, hleaf⟩ := List.append_inj' hsame rfl
      exact .inl ⟨wire.segmentParts_injective hparts, List.singleton_inj.mp hleaf⟩
    · exact .inr (.inl (hspells hruns))
    · exact .inr (.inr (.inl (hspells hruns)))
    · exact .inr (.inr (.inr hstraddles))
  · rintro (⟨rfl, rfl⟩ | hspells | hspells | hstraddles)
    · rfl
    · exact hback hspells
    · exact (hback hspells).symm
    · exact hstraddles.join_eq

variable {wire} in
theorem Spells.length_lt {gs gs' : List ScopeSegment} {leaf leaf' : List α} (h : wire.Spells gs leaf gs' leaf') :
    gs.length < gs'.length := by
  obtain ⟨more, hmore, rfl, -⟩ := h
  have hpos := List.length_pos_of_ne_nil hmore
  rw [List.length_append]
  omega

variable {wire} in
/-- No leaf spells another one's key where the scopes are as long. -/
theorem Merges.straddles {gs gs' : List ScopeSegment} {leaf leaf' : List α} (h : wire.Merges gs leaf gs' leaf')
    (hlength : gs.length = gs'.length) : wire.Straddles gs leaf gs' leaf' := by
  rcases h with hspells | hspells | hstraddles
  · have hlt := hspells.length_lt
    omega
  · have hlt := hspells.length_lt
    omega
  · exact hstraddles

variable {wire} in
/-- A separator that tells segments apart is never cut in two ways. -/
theorem Apart.not_straddles (h : wire.Apart) (gs gs' : List ScopeSegment) (leaf leaf' : List α) :
    ¬ wire.Straddles gs leaf gs' leaf' := by
  -- a part that is not the last is an escaped name
  have hname : ∀ {gs : List ScopeSegment} {leaf p : List α} {init rest : List (List α)},
      wire.segmentParts gs ++ [leaf] = init ++ p :: rest → rest ≠ [] → ∃ text, p = wire.escapeSegment text := by
    intro gs leaf p init rest heq hrest
    obtain ⟨front, last, rfl⟩ := (List.eq_nil_or_concat rest).resolve_left hrest
    rw [List.concat_eq_append, ← List.cons_append, ← List.append_assoc] at heq
    have hp : p ∈ wire.segmentParts gs := by
      rw [(List.append_inj' heq rfl).1]
      simp
    obtain ⟨g, -, hg⟩ := List.mem_flatMap.mp hp
    rcases List.mem_pair.mp hg with rfl | rfl
    · exact ⟨_, rfl⟩
    · exact ⟨_, rfl⟩
  intro ⟨init, p, p', rest, rest', hp, hp', hrest, hrest', hne, heq⟩
  obtain ⟨text, rfl⟩ := hname hp hrest
  obtain ⟨text', rfl⟩ := hname hp' hrest'
  exact hne (congrArg _ (h text text' _ _ heq))

/-- An escaped segment and the separator begin no escaped leaf, so no leaf spells segments. -/
theorem leafApart_of_ne (h : ∀ leaf text rest, wire.codes.escape leaf ≠ wire.escapeSegment text ++ (wire.codes.sep ++ rest)) :
    wire.LeafApart := by
  intro leaf leaf' segments hne heq
  obtain ⟨g, gs, rfl⟩ := List.exists_cons_of_ne_nil hne
  rw [key, segmentParts, List.flatMap_cons, List.cons_append, List.cons_append, join_cons _ _ (by simp)] at heq
  exact h _ _ _ heq

/-- Blobs are written as text is, character after character. -/
structure WritesText : Prop where
  append : ∀ t u, wire.serialize (String.ofList (t ++ u)) =
    wire.serialize (String.ofList t) ++ wire.serialize (String.ofList u)
  sep : wire.codes.sep = wire.serialize (String.ofList wire.strCodes.sep)
  escape : ∀ t, wire.codes.escape (wire.serialize (String.ofList t)) =
    wire.serialize (String.ofList (wire.strCodes.escape t))
  /-- What follows the blob of a text in one of another is that of a text. -/
  after : ∀ t u rest, wire.serialize (String.ofList t) = wire.serialize (String.ofList u) ++ rest →
    ∃ v, t = u ++ v ∧ rest = wire.serialize (String.ofList v)

variable {wire}

/-- The empty separator ends no name. -/
theorem EndsNames.sep_ne_nil (h : wire.EndsNames) : wire.strCodes.sep ≠ [] := by
  intro hnil
  have hends := h "a"
  have hfree : wire.strCodes.escape "a".toList ≠ [] := fun hempty =>
    absurd (wire.strCodes.escape_injective (hempty.trans wire.strCodes.escape_nil.symm)) (by decide)
  rw [hnil] at hends
  exact hfree (hends [] _ (List.append_nil _))

theorem WritesText.segment_append (hw : wire.WritesText) (text : String) :
    wire.escapeSegment text ++ wire.codes.sep =
      wire.serialize (String.ofList (wire.strCodes.escape text.toList ++ wire.strCodes.sep)) := by
  rw [hw.append, hw.sep]
  rfl

/-- Blobs tell segments apart as text does. -/
theorem WritesText.apart_iff (hw : wire.WritesText) : wire.Apart ↔ wire.strCodes.Apart := by
  constructor
  · intro h s t rest rest' heq
    refine String.ofList_injective (h _ _ (wire.serialize (String.ofList rest)) (wire.serialize (String.ofList rest')) ?_)
    rw [← List.append_assoc, ← List.append_assoc, hw.segment_append, hw.segment_append, ← hw.append, ← hw.append,
      String.toList_ofList, String.toList_ofList, List.append_assoc, List.append_assoc, heq]
  · intro h text text' rest rest' heq
    rw [← List.append_assoc, ← List.append_assoc, hw.segment_append, hw.segment_append] at heq
    -- of the two segments with their separators one begins the other
    rcases List.append_eq_append_iff.mp heq with ⟨more, hmore, -⟩ | ⟨more, hmore, -⟩
    · obtain ⟨v, hv, -⟩ := hw.after _ _ _ hmore
      have hsame := h text'.toList text.toList [] v (by rw [List.append_nil, hv, List.append_assoc])
      exact String.toList_inj.mp hsame.symm
    · obtain ⟨v, hv, -⟩ := hw.after _ _ _ hmore
      have hsame := h text.toList text'.toList [] v (by rw [List.append_nil, hv, List.append_assoc])
      exact String.toList_inj.mp hsame

end KeyWire

/-! ## Text in bytes -/

theorem utf8_append (t u : List Char) : utf8 (t ++ u) = utf8 t ++ utf8 u := List.flatMap_append

/-- A text whose bytes begin another's begins it. -/
theorem utf8_eq_append {t u : List Char} {rest : List UInt8} (h : utf8 t = utf8 u ++ rest) :
    ∃ v, t = u ++ v ∧ rest = utf8 v := by
  have hencode : u.utf8Encode ++ rest.toByteArray = t.utf8Encode := by
    show (utf8 u).toByteArray ++ rest.toByteArray = (utf8 t).toByteArray
    rw [h, toByteArray_append]
  obtain ⟨v, rfl⟩ := List.isPrefix_of_utf8Encode_append_eq_utf8Encode _ hencode
  rw [utf8_append] at h
  exact ⟨v, rfl, (List.append_cancel_left h).symm⟩

/-- No character's encoding begins inside another one's. -/
theorem head_not_mem_tail {c d : Char} {b b' : UInt8} {more more' : List UInt8}
    (h : String.utf8EncodeChar c = b :: more) (h' : String.utf8EncodeChar d = b' :: more') : b ∉ more' := by
  intro hb
  obtain ⟨i, hi, hbi⟩ := List.mem_iff_getElem.mp hb
  have hfirst : b.IsUTF8FirstByte := by
    have hzero := @UInt8.isUTF8FirstByte_getElem_zero_utf8EncodeChar c
    simp only [h, List.getElem_cons_zero] at hzero
    exact hzero
  have hlength : i + 1 < (String.utf8EncodeChar d).length := by
    rw [h', List.length_cons]
    omega
  have hlater := (@UInt8.isUTF8FirstByte_getElem_utf8EncodeChar d (i + 1) hlength).mp (by
    simp only [h', List.getElem_cons_succ, hbi]
    exact hfirst)
  omega

theorem utf8_eq_nil_iff {text : List Char} : utf8 text = [] ↔ text = [] := by
  constructor
  · intro h
    exact utf8_injective (h.trans rfl)
  · rintro rfl
    rfl

/-- The bytes of a text are replaced as the text is. -/
theorem replaceAll_utf8 (old new text : List Char) (h : old ≠ []) :
    replaceAll (utf8 old) (utf8 new) (utf8 text) = utf8 (replaceAll old new text) := by
  have hne : utf8 old ≠ [] := fun hnil => h (utf8_eq_nil_iff.mp hnil)
  rw [replaceAll_of_ne h, replaceAll_of_ne hne]
  induction hn : text.length using Nat.strong_induction_on generalizing text with
  | _ n ih =>
    rcases replace_cases h new text with ⟨rest, rfl, hrest⟩ | ⟨c, rest, rfl, hnot, hrest⟩ | rfl
    · have hshort : rest.length < n := by
        have hpos := List.length_pos_of_ne_nil h
        rw [← hn, List.length_append]
        omega
      rw [hrest, utf8_append, utf8_append, replace_append hne, ih _ hshort rest rfl]
    · have hshort : rest.length < n := by
        rw [← hn, List.length_cons]
        omega
      obtain ⟨d, old', rfl⟩ := List.exists_cons_of_ne_nil h
      obtain ⟨b, more, hd⟩ := List.exists_cons_of_ne_nil (String.utf8EncodeChar_ne_nil (c := d))
      obtain ⟨b', more', hc⟩ := List.exists_cons_of_ne_nil (String.utf8EncodeChar_ne_nil (c := c))
      have hold : utf8 (d :: old') = b :: (more ++ utf8 old') := by
        unfold utf8
        rw [List.flatMap_cons, hd, List.cons_append]
      have htext : utf8 (c :: rest) = b' :: (more' ++ utf8 rest) := by
        unfold utf8
        rw [List.flatMap_cons, hc, List.cons_append]
      have hstays : utf8 (c :: replace (d :: old') new rest) = b' :: (more' ++ utf8 (replace (d :: old') new rest)) := by
        unfold utf8
        rw [List.flatMap_cons, hc, List.cons_append]
      have hpre : ¬ utf8 (d :: old') <+: utf8 (c :: rest) := by
        intro ⟨after, hafter⟩
        obtain ⟨v, hv, -⟩ := utf8_eq_append hafter.symm
        exact hnot ⟨v, hv.symm⟩
      have hback := ih _ hshort rest rfl
      rw [hold] at hback
      rw [hrest, hstays, ← hback]
      rw [hold, htext] at hpre ⊢
      rw [replace_cons_of_not_old hpre, replace_append_of_not_mem (head_not_mem_tail hd hc)]
    · rw [show utf8 [] = [] from rfl]
      rfl

/-- A digit is one byte. -/
theorem utf8EncodeChar_hexDigit : ∀ n < 16,
    String.utf8EncodeChar (Percent.hexDigit n) = [asciiByte (Percent.hexDigit n)] := by decide

theorem sepCode_utf8 (separator : List Char) :
    (bytesEscape (utf8 separator)).sepCode = utf8 (textEscape separator).sepCode := by
  show ((utf8 separator).map _).flatMap _ = (((utf8 separator).map hexDigits).flatMap _).flatMap String.utf8EncodeChar
  rw [List.flatMap_map, List.flatMap_map, List.flatMap_assoc]
  refine List.flatMap_congr fun b _ => ?_
  unfold hexDigits
  rw [List.flatMap_cons, List.flatMap_cons, List.flatMap_cons, utf8EncodeChar_hexDigit _ (lt_of_byte b).1,
    utf8EncodeChar_hexDigit _ (lt_of_byte b).2]
  rfl

/-- The bytes of a text are escaped as the text is. -/
theorem escape_utf8 (separator text : List Char) :
    (bytesEscape (utf8 separator)).escape (utf8 text) = utf8 ((textEscape separator).escape text) := by
  have hmark : replaceAll [0x25] [0x25, 0x32, 0x35] (utf8 text) = utf8 (replaceAll ['%'] ['%', '2', '5'] text) :=
    replaceAll_utf8 ['%'] ['%', '2', '5'] text (List.cons_ne_nil _ _)
  show replaceAll (utf8 separator) (bytesEscape (utf8 separator)).sepCode
    (replaceAll [0x25] [0x25, 0x32, 0x35] (utf8 text)) = _
  rw [hmark, sepCode_utf8]
  by_cases hsep : separator = []
  · rw [hsep]
    show replaceAll [] [] _ = utf8 (replaceAll [] [] _)
    rw [replaceAll_nil, replaceAll_nil]
    rfl
  · exact replaceAll_utf8 separator _ _ hsep

/-! ## Separators of text and of bytes -/

namespace KeyWire

variable {separator : List Char} (h : '%' ∉ separator)

theorem writesText_ofText : (ofText separator h).WritesText where
  append t u := by
    show (String.ofList (t ++ u)).toList = (String.ofList t).toList ++ (String.ofList u).toList
    simp only [String.toList_ofList]
  sep := String.toList_ofList.symm
  escape t := by
    show (textCodes separator h).escape (String.ofList t).toList = (String.ofList _).toList
    simp only [String.toList_ofList]
    rfl
  after t u rest heq := by
    have ht : (String.ofList t).toList = (String.ofList u).toList ++ rest := heq
    rw [String.toList_ofList, String.toList_ofList] at ht
    exact ⟨rest, ht, String.toList_ofList.symm⟩

theorem writesText_ofBytes : (ofBytes separator h).WritesText where
  append t u := by
    show utf8 (String.ofList (t ++ u)).toList = utf8 (String.ofList t).toList ++ utf8 (String.ofList u).toList
    simp only [String.toList_ofList]
    exact utf8_append t u
  sep := by
    show utf8 separator = utf8 (String.ofList separator).toList
    rw [String.toList_ofList]
  escape t := by
    show (bytesEscape (utf8 separator)).escape (utf8 (String.ofList t).toList) =
      utf8 (String.ofList ((textEscape separator).escape t)).toList
    rw [String.toList_ofList, String.toList_ofList]
    exact escape_utf8 separator t
  after t u rest heq := by
    have ht : utf8 (String.ofList t).toList = utf8 (String.ofList u).toList ++ rest := heq
    rw [String.toList_ofList, String.toList_ofList] at ht
    obtain ⟨v, hv, hrest⟩ := utf8_eq_append ht
    refine ⟨v, hv, ?_⟩
    show rest = utf8 (String.ofList v).toList
    rw [String.toList_ofList]
    exact hrest

theorem apart_textCodes : (textCodes separator h).Apart ↔ separator ≠ [] ∧ Unbordered separator :=
  Codes.apart_iff (head?_digits_ne h) h

/-- A separator without a percent sign tells segments apart exactly if it is not empty and does not end as it begins. -/
theorem apart_ofText_iff : (ofText separator h).Apart ↔ separator ≠ [] ∧ Unbordered separator :=
  (writesText_ofText h).apart_iff.trans (apart_textCodes h)

theorem apart_ofBytes_iff : (ofBytes separator h).Apart ↔ separator ≠ [] ∧ Unbordered separator :=
  (writesText_ofBytes h).apart_iff.trans (apart_textCodes h)

theorem leafApart_ofText (hne : separator ≠ []) : (ofText separator h).LeafApart := by
  refine leafApart_of_ne _ fun leaf text rest => ?_
  show (textCodes separator h).escape leaf ≠ (String.ofList ((textCodes separator h).escape text.toList)).toList ++ _
  rw [String.toList_ofList]
  exact Codes.escape_ne_append hne (head?_digits_ne h) h _ _ _

theorem leafApart_ofBytes (hne : separator ≠ []) : (ofBytes separator h).LeafApart := by
  have hbytes : 0x25 ∉ utf8 separator := fun hb => h (percent_of_mem_utf8 hb)
  refine leafApart_of_ne _ fun leaf text rest => ?_
  show (bytesCodes (utf8 separator) hbytes).escape leaf ≠
    utf8 (String.ofList ((textEscape separator).escape text.toList)).toList ++ _
  rw [String.toList_ofList, ← escape_utf8]
  exact Codes.escape_ne_append (fun hnil => hne (utf8_eq_nil_iff.mp hnil)) (head?_bytesDigits_ne hbytes) hbytes _ _ _

/-- It ends every escaped name if it begins with none of its own digits, besides. -/
theorem endsNames_textCodes (hne : separator ≠ []) (hborder : Unbordered separator)
    (hfirst : ∀ d ∈ (textEscape separator).digits, separator.head? ≠ some d.1 ∧ separator.head? ≠ some d.2)
    (text : List Char) : Ends separator ((textCodes separator h).escape text) :=
  (textCodes separator h).ends_escape hne h hborder hfirst text

theorem endsNames_str : KeyWire.str.EndsNames := fun name =>
  endsNames_textCodes (by decide) (List.cons_ne_nil _ _) (unbordered_singleton ':') (by decide) name.toList

theorem endsNames_bytes : KeyWire.bytes.EndsNames := endsNames_str

/-- The default separator tells all keys apart. -/
theorem apart_str : KeyWire.str.Apart :=
  (apart_ofText_iff _).mpr ⟨List.cons_ne_nil _ _, unbordered_singleton ':'⟩

theorem apart_bytes : KeyWire.bytes.Apart :=
  (apart_ofBytes_iff _).mpr ⟨List.cons_ne_nil _ _, unbordered_singleton ':'⟩

theorem leafApart_str : KeyWire.str.LeafApart := leafApart_ofText _ (List.cons_ne_nil _ _)

theorem leafApart_bytes : KeyWire.bytes.LeafApart := leafApart_ofBytes _ (List.cons_ne_nil _ _)

end KeyWire

end Kvtsjl
