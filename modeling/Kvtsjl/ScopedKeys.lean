import Kvtsjl.ObjectKeys

/-
  Keys composed of a scope and a leaf.
  With a declared schema every key has as many parts before its leaf, so the leaf is left as
  it is. Without one the leaf is escaped, and no leaf spells a further segment. Either way the parts
  can be read off the key if the separator tells where they end: one that is not empty and does not
  end as it begins (`encodeInKey_injective_iff`). Then two views of one collection write no key of each
  other's (`physicalKeyBlob_isolates`).
-/

namespace Kvtsjl

open Delimited

namespace KvSet

variable {K V α VB : Type} [DecidableEq α] (s : KvSet K V α VB) (serialize : K → List α)

/-- `encode_in_key`. `serialize` is the key codec's, which need not read back here. -/
def encodeInKey (scope : Scope) : Option K → Except Exn (List α)
  | none => .ok (s.joinParts (s.scopeParts scope))
  | some key => (s.leafNeedsEscaping scope).map fun escapeLeaf =>
    let leafBlob := serialize key
    s.joinParts (s.scopeParts scope ++ [if escapeLeaf then s.wire.codes.escape leafBlob else leafBlob])

/-- A scope keys are written under: the full one of a declared schema, else any but the empty. -/
def Writes (scope : Scope) : Prop :=
  match s.scopeSchema with
  | some schema => scope.segments.length = schema.length
  | none => scope.segments ≠ []

/-- The leaf as it is written under such a scope. -/
def leafPart (key : K) : List α :=
  match s.scopeSchema with
  | some _ => serialize key
  | none => s.wire.codes.escape (serialize key)

/-- The key, where it is written. -/
def inKey (p : Scope × K) : List α :=
  s.joinParts (s.scopeParts p.1 ++ [s.leafPart serialize p.2])

variable {s serialize}

theorem encodeInKey_ok {scope : Scope} (h : s.Writes scope) (key : K) :
    s.encodeInKey serialize scope (some key) = .ok (s.inKey serialize (scope, key)) := by
  unfold Writes at h
  unfold encodeInKey inKey leafPart leafNeedsEscaping
  cases hs : s.scopeSchema with
  | none =>
    rw [hs] at h
    have hne : scope.segments.isEmpty = false := by simpa using h
    simp only [Except.map, hne, Bool.not_false, if_true]
  | some schema =>
    rw [hs] at h
    have hlen : scope.segments.length = schema.length := h
    simp only [Except.map, hlen, ne_eq, not_true, if_false, Bool.false_eq_true]

theorem leafPart_injective (hserialize : Function.Injective serialize) :
    Function.Injective (s.leafPart serialize) := by
  intro key key' h
  unfold leafPart at h
  cases hs : s.scopeSchema with
  | none =>
    rw [hs] at h
    exact hserialize (s.wire.codes.escape_injective h)
  | some schema =>
    rw [hs] at h
    exact hserialize h

/-- Two keys are one exactly where their scopes and leaves are, or they merge. -/
theorem inKey_eq_iff (hserialize : Function.Injective serialize) {p p' : Scope × K} :
    s.inKey serialize p = s.inKey serialize p' ↔ p = p' ∨
      s.wire.Merges p.1.segments (s.leafPart serialize p.2) p'.1.segments (s.leafPart serialize p'.2) := by
  refine (s.wire.key_eq_iff).trans (or_congr_left ⟨fun ⟨hsegments, hleaf⟩ => ?_, ?_⟩)
  · obtain ⟨⟨gs⟩, key⟩ := p
    obtain ⟨⟨gs'⟩, key'⟩ := p'
    have hscope : gs = gs' := hsegments
    have hkey : key = key' := leafPart_injective hserialize hleaf
    rw [hscope, hkey]
  · rintro rfl
    exact ⟨rfl, rfl⟩

/-- Keys of full scopes do not merge, whatever is in them, where the separator tells segments apart, and
    leaves from segments if no schema does. -/
theorem not_merges (hapart : s.wire.Apart) (hleaf : s.scopeSchema = none → s.wire.LeafApart) {scope scope' : Scope}
    (h : s.Writes scope) (h' : s.Writes scope') (key key' : K) :
    ¬ s.wire.Merges scope.segments (s.leafPart serialize key) scope'.segments (s.leafPart serialize key') := by
  intro hmerges
  unfold Writes at h h'
  unfold leafPart at hmerges
  cases hs : s.scopeSchema with
  | some schema =>
    rw [hs] at h h' hmerges
    exact hapart.not_straddles _ _ _ _ (hmerges.straddles (h.trans h'.symm))
  | none =>
    rw [hs] at hmerges
    rcases hmerges with ⟨more, hmore, -, hspelled⟩ | ⟨more, hmore, -, hspelled⟩ | hstraddles
    · exact hleaf hs _ _ more hmore hspelled
    · exact hleaf hs _ _ more hmore hspelled
    · exact hapart.not_straddles _ _ _ _ hstraddles

variable (s serialize) in
/-- Every scope a key can be written under writes it, and no two of these keys are one. -/
def KeepsApart : Prop :=
  (∀ scope key, s.Writes scope → ∃ blob, s.encodeInKey serialize scope (some key) = .ok blob) ∧
  ∀ scope scope' key key' blob, s.Writes scope → s.Writes scope' →
    s.encodeInKey serialize scope (some key) = .ok blob →
    s.encodeInKey serialize scope' (some key') = .ok blob → scope = scope' ∧ key = key'

theorem keepsApart_iff (hserialize : Function.Injective serialize) : s.KeepsApart serialize ↔
    ∀ scope scope' key key', s.Writes scope → s.Writes scope' → (scope, key) ≠ (scope', key') →
      ¬ s.wire.Merges scope.segments (s.leafPart serialize key) scope'.segments (s.leafPart serialize key') := by
  constructor
  · intro ⟨_, hone⟩ scope scope' key key' h h' hne hmerges
    have hblob : s.inKey serialize (scope, key) = s.inKey serialize (scope', key') :=
      (inKey_eq_iff hserialize).mpr (.inr hmerges)
    obtain ⟨rfl, rfl⟩ := hone scope scope' key key' _ h h' (encodeInKey_ok h key) (by rw [encodeInKey_ok h', hblob])
    exact hne rfl
  · intro hnone
    refine ⟨fun scope key h => ⟨_, encodeInKey_ok h key⟩, ?_⟩
    intro scope scope' key key' blob h h' he he'
    rw [encodeInKey_ok h] at he
    rw [encodeInKey_ok h'] at he'
    by_contra hne
    rcases (inKey_eq_iff hserialize).mp (Except.ok.inj (he.trans he'.symm)) with hsame | hmerges
    · exact hne (Prod.mk.inj hsame)
    · exact hnone scope scope' key key' h h' (fun hpair => hne (Prod.mk.inj hpair)) hmerges

/-! ### Separators that are found at two places -/

/-- Blobs under blobs, with a separator and a schema. -/
def ofWire (wire : KeyWire α) (schema : Option (List String)) : KvSet (List α) (List α) α (List α) :=
  ⟨"blobs", "1", wire, .identity _, .identity _, ⟨none⟩, .literal, schema⟩

/-- A scope of the kinds, of which only the last has an id. -/
def scopeOf (init : List String) (kind id : String) : Scope := ⟨init.map (fun k => ⟨k, ""⟩) ++ [⟨kind, id⟩]⟩

theorem writes_ofWire (wire : KeyWire α) {schema : Option (List String)} {init : List String} {kind : String}
    (h : schema.getD ["a"] = init ++ [kind]) (id : String) : (ofWire wire schema).Writes (scopeOf init kind id) := by
  unfold Writes ofWire scopeOf
  cases schema with
  | none => simp
  | some names =>
    have hnames : names = init ++ [kind] := h
    simp [hnames]

/-- Where a separator is found at two places of one text, a name that goes on to the second is taken for one
    that ends at the first. -/
theorem not_keepsApart {wire : KeyWire α} (hw : wire.WritesText) {schema : Option (List String)}
    (hschema : schema ≠ some []) {y x : List Char} (hy : y ≠ []) (hyplain : wire.strCodes.escape y = y)
    (hxplain : wire.strCodes.escape x = x) (heq : wire.strCodes.sep ++ x = y ++ wire.strCodes.sep) :
    ¬ (ofWire wire schema).KeepsApart id := by
  obtain ⟨init, kind, hnames⟩ : ∃ init kind, schema.getD ["a"] = init ++ [kind] := by
    cases schema with
    | none => exact ⟨[], "a", rfl⟩
    | some names =>
      obtain ⟨init, kind, hnames⟩ := (List.eq_nil_or_concat names).resolve_left fun hnil => hschema (by rw [hnil])
      exact ⟨init, kind, by rw [Option.getD_some, hnames, List.concat_eq_append]⟩
  have hempty : wire.escapeSegment "" = [] := by
    have hnil := hw.append [] []
    unfold KeyWire.escapeSegment
    rw [String.toList_empty, wire.strCodes.escape_nil]
    exact List.self_eq_append_left.mp hnil
  have hname : wire.escapeSegment (String.ofList y) = wire.serialize (String.ofList y) := by
    unfold KeyWire.escapeSegment
    rw [String.toList_ofList, hyplain]
  have hleaf : (ofWire wire schema).leafPart id (wire.serialize (String.ofList x)) = wire.serialize (String.ofList x) := by
    unfold leafPart ofWire
    cases schema with
    | none => exact (hw.escape x).trans (congrArg _ (congrArg _ hxplain))
    | some names => rfl
  have hleaf' : (ofWire wire schema).leafPart id [] = [] := by
    unfold leafPart ofWire
    cases schema with
    | none => exact wire.codes.escape_nil
    | some names => rfl
  have hkey : (ofWire wire schema).inKey id (scopeOf init kind "", wire.serialize (String.ofList x)) =
      (ofWire wire schema).inKey id (scopeOf init kind (String.ofList y), []) := by
    have hoverlap : wire.codes.sep ++ wire.serialize (String.ofList x) =
        wire.serialize (String.ofList y) ++ wire.codes.sep := by
      rw [hw.sep, ← hw.append, ← hw.append, heq]
    show wire.key _ ((ofWire wire schema).leafPart id _) = wire.key _ ((ofWire wire schema).leafPart id _)
    rw [hleaf, hleaf']
    unfold KeyWire.key scopeOf
    rw [KeyWire.segmentParts_append, KeyWire.segmentParts_append, List.append_assoc, List.append_assoc,
      join_append_left_inj _ _ (by simp) (by simp)]
    show wire.escapeSegment kind ++ (wire.codes.sep ++ (wire.escapeSegment "" ++ (wire.codes.sep ++
        wire.serialize (String.ofList x)))) =
      wire.escapeSegment kind ++ (wire.codes.sep ++ (wire.escapeSegment (String.ofList y) ++ (wire.codes.sep ++ [])))
    rw [hempty, hname, List.nil_append, List.append_nil, hoverlap]
  intro ⟨_, hone⟩
  have hscope := (hone _ _ _ _ _ (writes_ofWire wire hnames "") (writes_ofWire wire hnames (String.ofList y))
    (encodeInKey_ok (writes_ofWire wire hnames "") _) (by rw [encodeInKey_ok (writes_ofWire wire hnames _), ← hkey])).1
  have hid := congrArg (fun s : Scope => s.segments.getLast?.map ScopeSegment.id) hscope
  simp [scopeOf] at hid
  exact hy hid

/-! ### The separators that keep keys apart -/

/-- Keys are one exactly where they merge, which full scopes' do not if the separator tells segments apart and
    leaves from segments. A separator without a percent sign does so exactly if it is not empty and does not end
    as it begins, for text and for bytes, whether the collection declares a schema or not. -/
theorem encodeInKey_injective_iff (separator : List Char) (h : '%' ∉ separator) (schema : Option (List String))
    (hschema : schema ≠ some []) :
    (∀ {K V α VB : Type} [DecidableEq α] (s : KvSet K V α VB) (serialize : K → List α), Function.Injective serialize →
      (s.KeepsApart serialize ↔ ∀ scope scope' key key', s.Writes scope → s.Writes scope' →
        (scope, key) ≠ (scope', key') → ¬ s.wire.Merges scope.segments (s.leafPart serialize key) scope'.segments
          (s.leafPart serialize key')) ∧
      (s.wire.Apart → (s.scopeSchema = none → s.wire.LeafApart) → s.KeepsApart serialize)) ∧
    ((∀ {K V VB : Type} (s : KvSet K V Char VB) (serialize : K → List Char), s.wire = .ofText separator h →
      s.scopeSchema = schema → Function.Injective serialize → s.KeepsApart serialize) ↔
        separator ≠ [] ∧ Unbordered separator) ∧
    ((∀ {K V VB : Type} (s : KvSet K V UInt8 VB) (serialize : K → List UInt8), s.wire = .ofBytes separator h →
      s.scopeSchema = schema → Function.Injective serialize → s.KeepsApart serialize) ↔
        separator ≠ [] ∧ Unbordered separator) := by
  have hall : ∀ {K V α VB : Type} [DecidableEq α] (s : KvSet K V α VB) (serialize : K → List α),
      Function.Injective serialize → s.wire.Apart → (s.scopeSchema = none → s.wire.LeafApart) →
        s.KeepsApart serialize := by
    intro K V α VB _ s serialize hserialize hapart hleaf
    exact (keepsApart_iff hserialize).mpr fun _ _ key key' h h' _ => not_merges hapart hleaf h h' key key'
  refine ⟨fun s serialize hserialize => ⟨keepsApart_iff hserialize, hall s serialize hserialize⟩, ?_⟩
  -- a separator that is found at two places fails the collection whose keys are blobs
  have hnot : ¬ (separator ≠ [] ∧ Unbordered separator) → ∀ {α : Type} [DecidableEq α] {wire : KeyWire α},
      wire.WritesText → wire.strCodes = textCodes separator h → ¬ (ofWire wire schema).KeepsApart id := by
    intro hunfit α _ wire hw hcodes
    obtain ⟨y, x, hy, hyplain, hxplain, heq⟩ := Codes.exists_overlap (k := textCodes separator h) h hunfit
    rw [← hcodes] at hyplain hxplain heq
    exact not_keepsApart hw hschema hy hyplain hxplain heq
  refine ⟨⟨fun hkeeps => ?_, fun hfit K V VB s serialize hwire _ hserialize => ?_⟩,
    ⟨fun hkeeps => ?_, fun hfit K V VB s serialize hwire _ hserialize => ?_⟩⟩
  · by_contra hunfit
    exact hnot hunfit (KeyWire.writesText_ofText h) rfl (hkeeps (ofWire (.ofText separator h) schema) id rfl rfl
      Function.injective_id)
  · refine hall s serialize hserialize ?_ fun _ => ?_
    · rw [hwire]
      exact (KeyWire.apart_ofText_iff h).mpr hfit
    · rw [hwire]
      exact KeyWire.leafApart_ofText h hfit.1
  · by_contra hunfit
    exact hnot hunfit (KeyWire.writesText_ofBytes h) rfl (hkeeps (ofWire (.ofBytes separator h) schema) id rfl rfl
      Function.injective_id)
  · refine hall s serialize hserialize ?_ fun _ => ?_
    · rw [hwire]
      exact (KeyWire.apart_ofBytes_iff h).mpr hfit
    · rw [hwire]
      exact KeyWire.leafApart_ofBytes h hfit.1

/-- A colon keeps a leaf that spells a further scope from that scope's, and two colons keep nothing apart. -/
theorem encodeInKey_injective_iff_colons :
    items.kvset.encodeInKey id inA (some "b:2:x".toList) ≠ items.kvset.encodeInKey id inB (some ['x']) ∧
      ¬ ∀ {K V VB : Type} (s : KvSet K V Char VB) (serialize : K → List Char),
        s.wire = .ofText [':', ':'] (by decide) → s.scopeSchema = none → Function.Injective serialize →
          s.KeepsApart serialize := by
  obtain ⟨hkeeps, hcolons, -⟩ := encodeInKey_injective_iff [':', ':'] (by decide) none (by decide)
  constructor
  · intro h
    obtain ⟨hwritten, hone⟩ := (hkeeps items.kvset id Function.injective_id).2 KeyWire.apart_str
      fun _ => KeyWire.leafApart_str
    have hA : items.kvset.Writes inA := List.cons_ne_nil _ _
    have hB : items.kvset.Writes inB := List.cons_ne_nil _ _
    obtain ⟨blob, hblob⟩ := hwritten inB ['x'] hB
    exact absurd (hone inA inB _ _ blob hA hB (h.trans hblob) hblob).1 (by decide)
  · rw [hcolons]
    intro ⟨_, hborder⟩
    exact absurd (hborder [':'] [':'] [':'] rfl rfl) (by decide)

/-- With a separator of two colons, the key of `b:` with the leaf `c` is that of `b` with the leaf `:c`. -/
theorem encodeInKey_overlaps : ¬ (ofWire (.ofText [':', ':'] (by decide)) none).KeepsApart id := by
  have hblob : (ofWire (.ofText [':', ':'] (by decide)) none).encodeInKey id ⟨[⟨"a", "b:"⟩]⟩ (some ['c']) =
      .ok "a::b:::c".toList := congrArg Except.ok (by decide)
  have hblob' : (ofWire (.ofText [':', ':'] (by decide)) none).encodeInKey id ⟨[⟨"a", "b"⟩]⟩ (some [':', 'c']) =
      .ok "a::b:::c".toList := congrArg Except.ok (by decide)
  intro ⟨_, hone⟩
  exact absurd (hone _ _ _ _ _ (List.cons_ne_nil _ _) (List.cons_ne_nil _ _) hblob hblob').1 (by decide)

end KvSet

namespace KvBackend

variable {K V α VB : Type} [DecidableEq α]

/-- What a leaf store writes a key under: the key in its scope, after the name and version. -/
theorem physicalKeyBlob_eq (b : KvBackend K V α VB) (h : b.kvset.Writes b.scope) (key : K) :
    b.physicalKeyBlob key = .ok (b.kvset.joinParts (b.binding.nameVersionPrefix ++
      [b.kvset.inKey b.kvset.keySerde.serialize (b.scope, key)])) := by
  have hinner : b.itemKeyBlob (b.kvset.leafPart b.kvset.keySerde.serialize key) =
      b.kvset.joinParts (b.binding.nameVersionPrefix ++
        [b.kvset.inKey b.kvset.keySerde.serialize (b.scope, key)]) := b.itemKeyBlob_eq_join _
  unfold physicalKeyBlob
  rw [← hinner]
  unfold KvSet.Writes at h
  unfold KvSet.leafNeedsEscaping leafBlob KvSet.leafPart
  cases hs : b.kvset.scopeSchema with
  | none =>
    rw [hs] at h
    have hne : b.scope.segments.isEmpty = false := by simpa using h
    simp only [Except.map, hne, Bool.not_false, if_true]
  | some schema =>
    rw [hs] at h
    have hlen : b.scope.segments.length = schema.length := h
    simp only [Except.map, hlen, ne_eq, not_true, if_false, Bool.false_eq_true]

/-- Two views of one collection write no key of each other's, where the separator tells segments apart, and
    leaves from segments if no schema does. -/
theorem physicalKeyBlob_isolates {b b' : KvBackend K V α VB} (hk : b'.kvset = b.kvset)
    (hb : b'.binding = b.binding) (hapart : b.kvset.wire.Apart)
    (hleaf : b.kvset.scopeSchema = none → b.kvset.wire.LeafApart) (h : b.kvset.Writes b.scope)
    (h' : b.kvset.Writes b'.scope) {key key' : K} {blob : List α} (he : b.physicalKeyBlob key = .ok blob)
    (he' : b'.physicalKeyBlob key' = .ok blob) : b.scope = b'.scope ∧ key = key' := by
  rw [physicalKeyBlob_eq b h] at he
  rw [physicalKeyBlob_eq b' (by rw [hk]; exact h'), hk, hb] at he'
  have hlast := join_last_injective _ _ (Except.ok.inj (he.trans he'.symm))
  exact Prod.mk.inj (((KvSet.inKey_eq_iff b.kvset.keySerde.serialize_injective).mp hlast).resolve_right
    (KvSet.not_merges hapart hleaf h h' key key'))

end KvBackend

end Kvtsjl
