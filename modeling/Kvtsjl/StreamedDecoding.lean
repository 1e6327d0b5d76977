import Kvtsjl.StreamingSerDe

/-
  Decoding in chunks against decoding whole.
  A serde `Agrees` on a blob when its chunks, wherever they are cut, are decoded to what
  the blob is deserialized to, and are refused where it is. Without a codec every serde
  does (`agrees_of_uncompressed`). With `gzip` or `zlib` the chunks are decoded to what the
  first frame holds as far as it is there (`decompressChunks_total`), and no more is asked:
  the members that follow are left out, and a frame that has not ended is taken for whole.
-/

namespace Kvtsjl

open Chunks Frames Utf8

namespace StreamingSerDe

variable (lib : CodecLibrary)

/-- The chunks are decoded to what all of them are deserialized to, and refused where they are. -/
def Agrees {a b : Kind} (S : StreamingSerDe a b) (cut : List (List b.Item)) : Prop :=
  (S.decodeStream lib (.of cut)).total.toOption = (S.deserialize lib cut.flatten).toOption

/-- The serde refuses a blob in chunks. -/
def Refuses {a b : Kind} (S : StreamingSerDe a b) (blob : List b.Item) : Prop :=
  (S.decodeStream lib (.of [blob])).failure ≠ none

/-- No codec is in the serde. -/
def Uncompressed : {a b : Kind} → StreamingSerDe a b → Prop
  | _, _, .identity _ => True
  | _, _, .utf8 => True
  | _, _, .wireCompressed _ => False
  | _, _, .chained first second => first.Uncompressed ∧ second.Uncompressed

variable {lib}

theorem orRefuse_toOption {α : Type} (message : String) (x : Except Exn α) :
    (orRefuse message x).toOption = x.toOption := by
  cases x <;> rfl

theorem deserialize_chained {a m b : Kind} (first : StreamingSerDe a m) (second : StreamingSerDe m b)
    (blob : List b.Item) : ((chained first second).deserialize lib blob).toOption =
      (second.deserialize lib blob).toOption.bind fun mid => (first.deserialize lib mid).toOption := by
  show (orRefuse _ (second.deserialize lib blob >>= first.deserialize lib)).toOption = _
  rw [orRefuse_toOption]
  cases second.deserialize lib blob <;> rfl

/-! ## Wherever the chunks are cut -/

theorem decompressChunks_cut {codec : CompressionCodec} {chunks chunks' : Yielded UInt8 Exn}
    {blob : List UInt8} (h : chunks.total = .ok blob) (h' : chunks'.total = .ok blob) :
    (decompressChunks lib (some codec) chunks).total = (decompressChunks lib (some codec) chunks').total := by
  have hreader : (((lib.format codec).reader zlibError).pipe chunks).total =
      (((lib.format codec).reader zlibError).pipe chunks').total :=
    (Format.reader_chunked.total_pipe Format.sound_start h).trans
      (Format.reader_chunked.total_pipe Format.sound_start h').symm
  cases codec with
  | zstd =>
    exact (zstd_chunked.total_pipe ⟨[], rfl, Format.sound_start⟩ h).trans
      (zstd_chunked.total_pipe ⟨[], rfl, Format.sound_start⟩ h').symm
  | gzip => exact hreader
  | zlib => exact hreader
  | lz4 => exact hreader

/-- What chunks are decoded to depends on what they make together only. -/
theorem decodeStream_cut {a b : Kind} (S : StreamingSerDe a b) : ∀ {chunks chunks' blob},
    chunks.total = .ok blob → chunks'.total = .ok blob →
      (S.decodeStream lib chunks).total.toOption = (S.decodeStream lib chunks').total.toOption := by
  induction S with
  | identity k =>
    intro chunks chunks' blob h h'
    show chunks.total.toOption = chunks'.total.toOption
    rw [h, h']
  | utf8 =>
    intro chunks chunks' blob h h'
    have hout := (decoder_chunked (.valueError "invalid utf-8")).total_pipe trivial h
    have hout' := (decoder_chunked (.valueError "invalid utf-8")).total_pipe trivial h'
    exact congrArg Except.toOption (hout.trans hout'.symm)
  | wireCompressed codec =>
    exact fun h h' => congrArg Except.toOption (decompressChunks_cut h h')
  | @chained a m b first second ih ih' =>
    intro chunks chunks' blob h h'
    have hmid := ih' h h'
    show (first.decodeStream lib (second.decodeStream lib chunks)).total.toOption =
      (first.decodeStream lib (second.decodeStream lib chunks')).total.toOption
    cases hx : (second.decodeStream lib chunks).total with
    | ok mid =>
      cases hx' : (second.decodeStream lib chunks').total with
      | ok mid' =>
        rw [hx, hx'] at hmid
        rw [← Option.some.inj hmid] at hx'
        exact ih hx hx'
      | error e =>
        rw [hx, hx'] at hmid
        cases hmid
    | error e =>
      cases hx' : (second.decodeStream lib chunks').total with
      | ok mid' =>
        rw [hx, hx'] at hmid
        cases hmid
      | error e' =>
        rw [Yielded.total_none_iff.mpr (failure_decodeStream first (Yielded.total_error_iff.mp ⟨e, hx⟩)),
          Yielded.total_none_iff.mpr (failure_decodeStream first (Yielded.total_error_iff.mp ⟨e', hx'⟩))]

/-! ## Without a codec -/

theorem orRefuse_ok {α : Type} {message : String} {x : Except Exn α} {a : α}
    (h : orRefuse message x = .ok a) : x = .ok a := by
  cases x with
  | ok b => exact h
  | error e => cases h

theorem agrees_of_uncompressed {a b : Kind} (S : StreamingSerDe a b) : S.Uncompressed →
    ∀ {chunks blob}, chunks.total = .ok blob →
      (S.decodeStream lib chunks).total.toOption = (S.deserialize lib blob).toOption := by
  induction S with
  | identity k =>
    intro _ chunks blob h
    exact congrArg Except.toOption h
  | utf8 =>
    intro _ chunks blob h
    show _ = (orRefuse _ ((decoder (.valueError "invalid utf-8")).whole [] blob)).toOption
    rw [orRefuse_toOption]
    exact congrArg Except.toOption ((decoder_chunked _).total_pipe trivial h)
  | wireCompressed codec => exact fun h => h.elim
  | @chained a m b first second ih ih' =>
    intro hplain chunks blob h
    rw [deserialize_chained, ← ih' hplain.2 h]
    show (first.decodeStream lib (second.decodeStream lib chunks)).total.toOption = _
    cases hmid : (second.decodeStream lib chunks).total with
    | ok mid => exact ih hplain.1 hmid
    | error e => exact Yielded.total_none_iff.mpr (failure_decodeStream first (Yielded.total_error_iff.mp ⟨e, hmid⟩))

/-- No two blobs hold one value. -/
theorem deserialize_inj {a b : Kind} (S : StreamingSerDe a b) : S.Uncompressed →
    ∀ {blob blob' value}, S.deserialize lib blob = .ok value → S.deserialize lib blob' = .ok value →
      blob = blob' := by
  induction S with
  | identity k => exact fun _ {_ _ _} h h' => (Except.ok.inj h).trans (Except.ok.inj h').symm
  | utf8 =>
    intro _ blob blob' value h h'
    have hblob := decoder_whole_iff.mp (orRefuse_ok h)
    have hblob' := decoder_whole_iff.mp (orRefuse_ok h')
    exact Option.some.inj (hblob.symm.trans hblob')
  | wireCompressed codec => exact fun h => h.elim
  | @chained a m b first second ih ih' =>
    intro hplain blob blob' value h h'
    have hmids : ∀ {blob}, (chained first second).deserialize lib blob = .ok value →
        ∃ mid, second.deserialize lib blob = .ok mid ∧ first.deserialize lib mid = .ok value := by
      intro blob h
      have h := orRefuse_ok (x := second.deserialize lib blob >>= first.deserialize lib) h
      cases hmid : second.deserialize lib blob with
      | error e =>
        rw [hmid] at h
        cases h
      | ok mid =>
        rw [hmid] at h
        exact ⟨mid, rfl, h⟩
    obtain ⟨mid, hmid, hvalue⟩ := hmids h
    obtain ⟨mid', hmid', hvalue'⟩ := hmids h'
    rw [ih hplain.1 hvalue' hvalue] at hmid'
    exact ih' hplain.2 hmid hmid'

/-! ## With `gzip` or `zlib` -/

/-- What the first frame holds, as far as it is there. -/
theorem decompressChunks_total {codec : CompressionCodec} (hcodec : codec = .gzip ∨ codec = .zlib)
    (cut : List (List UInt8)) : (decompressChunks lib (some codec) (.of cut)).total =
      match (lib.format codec).scan cut.flatten with
      | .complete data _ => .ok data
      | .unfinished data => .ok data
      | .corrupt => .error zlibError := by
  have hpipe : (decompressChunks lib (some codec) (.of cut)).total =
      ((lib.format codec).reader zlibError).whole (.opened []) cut.flatten := by
    rcases hcodec with rfl | rfl
    · exact Format.reader_chunked.total_pipe Format.sound_start (Yielded.total_of cut)
    · exact Format.reader_chunked.total_pipe Format.sound_start (Yielded.total_of cut)
  rw [hpipe, Format.reader_whole]
  cases (lib.format codec).scan cut.flatten <;> rfl

/-! What is made of the whole, by what the first frame is. -/

theorem decompress_corrupt {codec : CompressionCodec} (hcodec : codec = .gzip ∨ codec = .zlib)
    {blob : List UInt8} (h : (lib.format codec).scan blob = .corrupt) :
    (decompress lib codec blob).toOption = none := by
  rcases hcodec with rfl | rfl
  · show (decompressGzip lib blob).toOption = none
    have hne : blob ≠ [] := by
      intro hnil
      rw [hnil, (lib.format .gzip).empty] at h
      cases h
    rw [decompressGzip, Format.all_refused hne (fun data rest h' => by rw [h] at h'; cases h')]
    rfl
  · show (decompressZlib lib blob).toOption = none
    rw [decompressZlib, h]
    rfl

theorem decompress_unfinished {codec : CompressionCodec} (hcodec : codec = .gzip ∨ codec = .zlib)
    {blob data : List UInt8} (h : (lib.format codec).scan blob = .unfinished data) :
    (decompress lib codec blob).toOption = if codec = .gzip ∧ blob = [] then some data else none := by
  rcases hcodec with rfl | rfl
  · show (decompressGzip lib blob).toOption = _
    by_cases hne : blob = []
    · rw [hne, (lib.format .gzip).empty] at h
      rw [if_pos ⟨rfl, hne⟩, ← Scan.unfinished.inj h, hne, decompressGzip, Format.all_nil]
      rfl
    · rw [if_neg (fun h => hne h.2), decompressGzip,
        Format.all_refused hne (fun data rest h' => by rw [h] at h'; cases h')]
      rfl
  · show (decompressZlib lib blob).toOption = _
    rw [if_neg (fun h => nomatch h.1), decompressZlib, h]
    rfl

theorem decompress_complete {codec : CompressionCodec} (hcodec : codec = .gzip ∨ codec = .zlib)
    {blob data rest : List UInt8} (h : (lib.format codec).scan blob = .complete data rest) :
    (decompress lib codec blob).toOption = if codec = .zlib then some data else
      ((lib.format .gzip).all (fun byte => byte = 0) (rest.dropWhile fun byte => byte = 0)).map
        fun more => data ++ more := by
  rcases hcodec with rfl | rfl
  · show (decompressGzip lib blob).toOption = _
    rw [if_neg (fun h => nomatch h), decompressGzip, Format.all_complete h]
    cases (lib.format .gzip).all (fun byte => byte = 0) (rest.dropWhile fun byte => byte = 0) <;> rfl
  · show (decompressZlib lib blob).toOption = _
    rw [if_pos rfl, decompressZlib, h]
    rfl

theorem deserialize_compressed {a : Kind} (codec : CompressionCodec) (inner : StreamingSerDe a .bytes)
    (blob : List UInt8) : ((compressed codec inner).deserialize lib blob).toOption =
      (decompress lib codec blob).toOption.bind fun data => (inner.deserialize lib data).toOption := by
  have hwire : ((wireCompressed codec).deserialize lib blob).toOption = (decompress lib codec blob).toOption :=
    orRefuse_toOption _ _
  cases inner with
  | identity =>
    show ((wireCompressed codec).deserialize lib blob).toOption = _
    rw [hwire]
    cases decompress lib codec blob <;> rfl
  | chained first second =>
    show ((chained (chained first second) (wireCompressed codec)).deserialize lib blob).toOption = _
    rw [deserialize_chained, hwire]
  | utf8 =>
    show ((chained utf8 (wireCompressed codec)).deserialize lib blob).toOption = _
    rw [deserialize_chained, hwire]
  | wireCompressed codec' =>
    show ((chained (wireCompressed codec') (wireCompressed codec)).deserialize lib blob).toOption = _
    rw [deserialize_chained, hwire]

theorem decodeStream_compressed {a : Kind} (codec : CompressionCodec) (inner : StreamingSerDe a .bytes)
    (chunks : Yielded UInt8 Exn) : (compressed codec inner).decodeStream lib chunks =
      inner.decodeStream lib (decompressChunks lib (some codec) chunks) := by
  cases inner <;> rfl

/-! ## Where they agree -/

variable (lib) in
/-- The serde takes a blob. -/
def Reads {a b : Kind} (S : StreamingSerDe a b) (blob : List b.Item) : Prop :=
  ∃ value, S.deserialize lib blob = .ok value

variable (lib) in
/-- What a blob must be for a serde without a codec of its own inside. No frame can be
    read, or the first one ends and, with `gzip`, no member behind it holds anything. All
    else is well only if what is inside is not read either. -/
def Alike (codec : CompressionCodec) (reads : List UInt8 → Prop) (blob : List UInt8) : Prop :=
  match (lib.format codec).scan blob with
  | .corrupt => True
  | .unfinished data => codec = .gzip ∧ blob = [] ∨ ¬ reads data
  | .complete data rest =>
    codec = .zlib ∨
      match (lib.format .gzip).all (fun byte => byte = 0) (rest.dropWhile fun byte => byte = 0) with
      | none => ¬ reads data
      | some more => more = [] ∨ ¬ reads data ∧ ¬ reads (data ++ more)

variable (lib) in
/-- The same for any serde inside, which need not agree itself on what it is given. -/
def AlikeInside {a : Kind} (codec : CompressionCodec) (inner : StreamingSerDe a .bytes)
    (blob : List UInt8) : Prop :=
  match (lib.format codec).scan blob with
  | .corrupt => True
  | .unfinished data =>
    if codec = .gzip ∧ blob = [] then Agrees lib inner [data] else Refuses lib inner data
  | .complete data rest =>
    if codec = .zlib then Agrees lib inner [data]
    else match (lib.format .gzip).all (fun byte => byte = 0) (rest.dropWhile fun byte => byte = 0) with
      | none => Refuses lib inner data
      | some more => (inner.decodeStream lib (.of [data])).total.toOption =
          (inner.deserialize lib (data ++ more)).toOption

theorem reads_iff {a b : Kind} {S : StreamingSerDe a b} {blob : List b.Item} :
    (S.deserialize lib blob).toOption = none ↔ ¬ S.Reads lib blob := by
  unfold Reads
  cases S.deserialize lib blob with
  | ok value => exact iff_of_false (fun h => nomatch h) (fun h => h ⟨value, rfl⟩)
  | error e => exact iff_of_true rfl (fun ⟨value, h⟩ => nomatch h)

/-- What the chunks of one blob are decoded to, whichever chunks. -/
theorem decodeStream_single {a b : Kind} (S : StreamingSerDe a b) {chunks : Yielded b.Item Exn}
    {blob : List b.Item} (h : chunks.total = .ok blob) :
    (S.decodeStream lib chunks).total.toOption = (S.decodeStream lib (.of [blob])).total.toOption :=
  decodeStream_cut S h (by rw [Yielded.total_of, List.flatten_singleton])

theorem agrees_single {a b : Kind} {S : StreamingSerDe a b} {blob : List b.Item} : Agrees lib S [blob] ↔
    (S.decodeStream lib (.of [blob])).total.toOption = (S.deserialize lib blob).toOption := by
  unfold Agrees
  rw [List.flatten_singleton]

theorem agrees_inside_iff {a : Kind} {codec : CompressionCodec} (hcodec : codec = .gzip ∨ codec = .zlib)
    (inner : StreamingSerDe a .bytes) (cut : List (List UInt8)) :
    Agrees lib (compressed codec inner) cut ↔ AlikeInside lib codec inner cut.flatten := by
  unfold Agrees AlikeInside
  rw [deserialize_compressed, decodeStream_compressed]
  have htotal := @decompressChunks_total lib codec hcodec cut
  cases hscan : (lib.format codec).scan cut.flatten with
  | corrupt =>
    rw [hscan] at htotal
    have hfailed := @failure_decodeStream lib _ _ inner _ (Yielded.total_error_iff.mp ⟨_, htotal⟩)
    rw [decompress_corrupt hcodec hscan, Yielded.total_none_iff.mpr hfailed]
    exact iff_of_true rfl trivial
  | unfinished data =>
    rw [hscan] at htotal
    rw [decodeStream_single inner htotal, decompress_unfinished hcodec hscan]
    split
    · exact agrees_single.symm
    · exact Yielded.total_none_iff
  | complete data rest =>
    rw [hscan] at htotal
    rw [decodeStream_single inner htotal, decompress_complete hcodec hscan]
    split
    · exact agrees_single.symm
    · dsimp only
      cases (lib.format .gzip).all (fun byte => byte = 0) (rest.dropWhile fun byte => byte = 0) with
      | none => exact Yielded.total_none_iff
      | some more => rfl

/-- A serde without a codec agrees on all it is given, and tells two blobs apart. -/
theorem inside_iff_alike {a : Kind} (codec : CompressionCodec) {inner : StreamingSerDe a .bytes}
    (hplain : inner.Uncompressed) (blob : List UInt8) :
    AlikeInside lib codec inner blob ↔ Alike lib codec (inner.Reads lib) blob := by
  have hcut : ∀ data, (inner.decodeStream lib (.of [data])).total.toOption =
      (inner.deserialize lib data).toOption := by
    intro data
    exact agrees_of_uncompressed inner hplain (by rw [Yielded.total_of, List.flatten_singleton])
  have hrefuses : ∀ data, Refuses lib inner data ↔ ¬ inner.Reads lib data := by
    intro data
    rw [← reads_iff, ← hcut]
    exact Yielded.total_none_iff.symm
  have hagrees : ∀ data, Agrees lib inner [data] := by
    intro data
    rw [agrees_single, hcut]
  unfold AlikeInside Alike
  cases (lib.format codec).scan blob with
  | corrupt => rfl
  | unfinished data =>
    simp only
    split
    · next h => exact iff_of_true (hagrees data) (.inl h)
    · next h => rw [hrefuses, or_iff_right h]
  | complete data rest =>
    simp only
    split
    · next h => exact iff_of_true (hagrees data) (.inl h)
    · next h =>
      rw [or_iff_right h]
      cases (lib.format .gzip).all (fun byte => byte = 0) (rest.dropWhile fun byte => byte = 0) with
      | none => exact hrefuses data
      | some more =>
        simp only
        rw [hcut]
        constructor
        · intro heq
          cases hdata : inner.deserialize lib data with
          | ok value =>
            rw [hdata] at heq
            have hmore : inner.deserialize lib (data ++ more) = .ok value := by
              cases hall : inner.deserialize lib (data ++ more) with
              | ok value' =>
                rw [hall] at heq
                rw [Option.some.inj heq]
              | error e =>
                rw [hall] at heq
                cases heq
            exact .inl (List.append_right_eq_self.mp (deserialize_inj inner hplain hmore hdata))
          | error e =>
            have hnone : (inner.deserialize lib data).toOption = none := by
              rw [hdata]
              rfl
            rw [hdata] at heq
            exact .inr ⟨reads_iff.mp hnone, reads_iff.mp heq.symm⟩
        · rintro (rfl | ⟨hd, hm⟩)
          · rw [List.append_nil]
          · rw [reads_iff.mpr hd, reads_iff.mpr hm]

/-- The chunks of a blob of `gzip` or `zlib` are decoded as the blob is just where nothing
    is lost by reading the first frame alone, as far as it is there: for a serde inside
    without a codec as `Alike` says, and for any other as it does on what it is given. -/
theorem agrees_iff {codec : CompressionCodec} (hcodec : codec = .gzip ∨ codec = .zlib) {a : Kind}
    (inner : StreamingSerDe a .bytes) (cut : List (List UInt8)) :
    (inner.Uncompressed →
      (Agrees lib (compressed codec inner) cut ↔ Alike lib codec (inner.Reads lib) cut.flatten)) ∧
    (Agrees lib (compressed codec inner) cut ↔ AlikeInside lib codec inner cut.flatten) := by
  refine ⟨fun hplain => ?_, agrees_inside_iff hcodec inner cut⟩
  rw [agrees_inside_iff hcodec inner cut, inside_iff_alike codec hplain]

/-- Text that was never compressed is refused, however it is cut. -/
theorem agrees_iff_uncompressed : Agrees storedLibrary (compressed .zlib .utf8) [[0x74, 0x65], [0x78], [0x74]] :=
  ((agrees_iff (.inr rfl) .utf8 _).1 trivial).mpr
    (by
      have hscan : (storedLibrary.format .zlib).scan [0x74, 0x65, 0x78, 0x74] = .corrupt := rfl
      show Alike storedLibrary .zlib _ [0x74, 0x65, 0x78, 0x74]
      rw [Alike, hscan]
      trivial)

/-- A stream that is cut off behind its header is decoded to nothing, and ends. -/
theorem cutOff_disagrees : ¬ ∀ (lib : CodecLibrary) (codec : CompressionCodec), codec = .gzip ∨ codec = .zlib →
    ∀ {a : Kind} (inner : StreamingSerDe a .bytes) (cut : List (List UInt8)),
      Agrees lib (compressed codec inner) cut := by
  intro hall
  have h := hall storedLibrary .zlib (.inr rfl) (.identity .bytes) [[0x78, 0x9C]]
  have hchunks : ((compressed .zlib (.identity .bytes)).decodeStream storedLibrary (.of [[0x78, 0x9C]])).total =
      .ok [] := rfl
  have hwhole : (compressed .zlib (.identity .bytes)).deserialize storedLibrary [0x78, 0x9C] =
      .error (.serDeError "deserialize failed") := rfl
  change (Yielded.total _).toOption = (deserialize _ _ [0x78, 0x9C]).toOption at h
  rw [hchunks, hwhole] at h
  cases h

end StreamingSerDe

end Kvtsjl
