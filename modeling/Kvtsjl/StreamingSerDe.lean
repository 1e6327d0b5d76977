import Kvtsjl.Exceptions
import Kvtsjl.Lib.Frames
import Kvtsjl.Lib.Utf8

/-
  Serdes that work chunk by chunk.
  The codecs come from libraries. `CodecLibrary` says what is relied on: what a compressor
  writes is one frame of the codec's format. A serde is `lossless` when what it encodes is
  decoded to the value, whole and wherever the chunks are cut. Every one is, for every value
  it serializes: a `str` with a lone surrogate is refused by both ways of encoding it.
-/

namespace Kvtsjl

open Chunks Frames Utf8

/-! ## The codecs -/

inductive CompressionCodec where
  | gzip
  | zlib
  | zstd
  | lz4
deriving DecidableEq

/-- A `compressobj`. -/
structure Compressobj where
  State : Type
  start : State
  compress : State → List UInt8 → List UInt8 × State
  flush : State → List UInt8

/-- An `LZ4FrameCompressor`: it is told to write the header of its frame. -/
structure FrameCompressor extends Compressobj where
  begin : State → List UInt8 × State

/-- All that comes out of a `compressobj` that is given the chunks and flushed. -/
def Compressobj.output (c : Compressobj) : c.State → List (List UInt8) → List UInt8
  | s, [] => c.flush s
  | s, chunk :: rest => (c.compress s chunk).1 ++ output c (c.compress s chunk).2 rest

/-- The codecs of the libraries. What a compressor writes is one frame of its format, and
    the one-shot readers that are not spelled out below read one frame. -/
structure CodecLibrary where
  format : CompressionCodec → Format UInt8 UInt8
  compressobj : CompressionCodec → Compressobj
  lz4FrameCompressor : FrameCompressor
  compress : CompressionCodec → List UInt8 → List UInt8
  decompressZstd : List UInt8 → Except Exn (List UInt8)
  decompressLz4 : List UInt8 → Except Exn (List UInt8)
  compressobj_writes : ∀ codec chunks, (format codec).scan
    ((compressobj codec).output (compressobj codec).start chunks) = .complete chunks.flatten []
  lz4_writes : ∀ chunks, (format .lz4).scan ((lz4FrameCompressor.begin lz4FrameCompressor.start).1 ++
    lz4FrameCompressor.output (lz4FrameCompressor.begin lz4FrameCompressor.start).2 chunks) =
      .complete chunks.flatten []
  compress_writes : ∀ codec data, (format codec).scan (compress codec data) = .complete data []
  decompressZstd_reads : ∀ {wire data}, (format .zstd).scan wire = .complete data [] →
    decompressZstd wire = .ok data
  decompressLz4_reads : ∀ {wire data}, (format .lz4).scan wire = .complete data [] →
    decompressLz4 wire = .ok data

def zlibError : Exn := .medium "zlib.error"

/-- `_ZlibCompressor` -/
def zlibCompressor (c : Compressobj) : Machine c.State UInt8 UInt8 Exn where
  start := c.start
  feed s data := .ok (c.compress s data)
  flush s := .ok (c.flush s)

/-- `_Lz4Compressor`: the header goes before the first block. -/
def lz4Compressor (c : FrameCompressor) : Machine (c.State × Bool) UInt8 UInt8 Exn where
  start := (c.start, false)
  feed s data :=
    let head := if s.2 then ([], s.1) else c.begin s.1
    let out := c.compress head.2 data
    .ok (head.1 ++ out.1, out.2, true)
  flush s :=
    let head := if s.2 then ([], s.1) else c.begin s.1
    .ok (head.1 ++ c.flush head.2)

/-- The loop of `_ZstdIncremental`: frame after frame, as long as there is data. -/
def zstdLoop (F : Format UInt8 UInt8) : Nat → Reader UInt8 → List UInt8 →
    Except Exn (List UInt8 × Reader UInt8)
  | 0, obj, _ => .ok ([], obj)
  | fuel + 1, obj, data =>
    if data = [] then .ok ([], obj)
    else match F.read zlibError obj data with
      | .error e => .error e
      | .ok (out, .opened fed) => .ok (out, .opened fed)
      | .ok (out, .ended rest) =>
        (zstdLoop F fuel (.opened []) rest).map fun more => (out ++ more.1, more.2)

/-- `_ZstdIncremental`. A frame takes a byte at least, so the bytes of the chunk bound the
    rounds of the loop. -/
def zstdIncremental (F : Format UInt8 UInt8) : Machine (Reader UInt8) UInt8 UInt8 Exn where
  start := .opened []
  feed obj data := zstdLoop F data.length obj data
  flush _ := .ok []

variable (lib : CodecLibrary)

def compressChunks (codec : Option CompressionCodec) (chunks : Yielded UInt8 Exn) : Yielded UInt8 Exn :=
  match codec with
  | none => chunks
  | some .lz4 => (lz4Compressor lib.lz4FrameCompressor).pipe chunks
  | some codec => (zlibCompressor (lib.compressobj codec)).pipe chunks

/-- `_ZlibIncremental` and `_Lz4Incremental` read one frame. -/
def decompressChunks (codec : Option CompressionCodec) (chunks : Yielded UInt8 Exn) : Yielded UInt8 Exn :=
  match codec with
  | none => chunks
  | some .zstd => (zstdIncremental (lib.format .zstd)).pipe chunks
  | some codec => ((lib.format codec).reader zlibError).pipe chunks

/-- `gzip.decompress`: member after member, with zeros between them. -/
def decompressGzip (wire : List UInt8) : Except Exn (List UInt8) :=
  ((lib.format .gzip).all (fun byte => byte = 0) wire).elim (.error (.medium "gzip")) .ok

/-- `zlib.decompress`: one stream, whatever comes after it. -/
def decompressZlib (wire : List UInt8) : Except Exn (List UInt8) :=
  match (lib.format .zlib).scan wire with
  | .complete data _ => .ok data
  | _ => .error zlibError

/-- `_DECOMPRESSORS` -/
def decompress : CompressionCodec → List UInt8 → Except Exn (List UInt8)
  | .gzip => decompressGzip lib
  | .zlib => decompressZlib lib
  | .zstd => lib.decompressZstd
  | .lz4 => lib.decompressLz4

/-! ## The serdes -/

/-- The two kinds of values that can be cut into chunks: `str` and `bytes`. -/
inductive Kind where
  | text
  | bytes

/-- What a value is made of. -/
abbrev Kind.Item : Kind → Type
  | text => CodePoint
  | bytes => UInt8

/-- A streaming serde, from values of one kind to blobs of another. `wire_compressed` is
    the only place that makes a `CompressedSerDe`, and its inner serde is the identity. -/
inductive StreamingSerDe : Kind → Kind → Type where
  | identity (k : Kind) : StreamingSerDe k k
  | utf8 : StreamingSerDe .text .bytes
  | wireCompressed (codec : CompressionCodec) : StreamingSerDe .bytes .bytes
  | chained {a m b : Kind} (first : StreamingSerDe a m) (second : StreamingSerDe m b) : StreamingSerDe a b

namespace StreamingSerDe

/-- `then`. The identity is its left unit. -/
def andThen : {a m b : Kind} → StreamingSerDe a m → StreamingSerDe m b → StreamingSerDe a b
  | _, _, _, .identity _, other => other
  | _, _, _, first, other => .chained first other

/-- `compressed(codec, inner)` -/
def compressed {a : Kind} (codec : CompressionCodec) (inner : StreamingSerDe a .bytes) :
    StreamingSerDe a .bytes := inner.andThen (.wireCompressed codec)

/-- Whatever a serializer or a deserializer raises, the serde raises its own error. -/
def orRefuse {α : Type} (message : String) : Except Exn α → Except Exn α
  | .ok a => .ok a
  | .error _ => .error (.serDeError message)

def serialize : {a b : Kind} → StreamingSerDe a b → List a.Item → Except Exn (List b.Item)
  | _, _, .identity _, value => .ok value
  | _, _, .utf8, value => (encode value).elim (.error (.serDeError "serialize failed")) .ok
  | _, _, .wireCompressed codec, value => .ok (lib.compress codec value)
  | _, _, .chained first second, value =>
    orRefuse "serialize failed" (first.serialize value >>= second.serialize)

def deserialize : {a b : Kind} → StreamingSerDe a b → List b.Item → Except Exn (List a.Item)
  | _, _, .identity _, blob => .ok blob
  | _, _, .utf8, blob =>
    orRefuse "deserialize failed" ((decoder (.valueError "invalid utf-8")).whole [] blob)
  | _, _, .wireCompressed codec, blob => orRefuse "deserialize failed" (decompress lib codec blob)
  | _, _, .chained first second, blob =>
    orRefuse "deserialize failed" (second.deserialize blob >>= first.deserialize)

def encodeStream : {a b : Kind} → StreamingSerDe a b → Yielded a.Item Exn → Yielded b.Item Exn
  | _, _, .identity _, chunks => chunks
  | _, _, .utf8, chunks => (encoder (.valueError "surrogates not allowed")).pipe chunks
  | _, _, .wireCompressed codec, chunks => compressChunks lib (some codec) chunks
  | _, _, .chained first second, chunks => second.encodeStream (first.encodeStream chunks)

def decodeStream : {a b : Kind} → StreamingSerDe a b → Yielded b.Item Exn → Yielded a.Item Exn
  | _, _, .identity _, chunks => chunks
  | _, _, .utf8, chunks => (decoder (.valueError "invalid utf-8")).pipe chunks
  | _, _, .wireCompressed codec, chunks => decompressChunks lib (some codec) chunks
  | _, _, .chained first second, chunks => first.decodeStream (second.decodeStream chunks)

/-- The length of what a value of a length is encoded as, where that is known. -/
def encodedSize : {a b : Kind} → StreamingSerDe a b → Option Nat → Option Nat
  | _, _, .identity _, size => size
  | _, _, .utf8, _ => none
  | _, _, .wireCompressed _, _ => none
  | _, _, .chained first second, size => second.encodedSize (first.encodedSize size)

end StreamingSerDe

/-! ## What the wrappers make of the codecs -/

theorem zlibCompressor_total (c : Compressobj) (chunks : List (List UInt8)) :
    ∀ s, ((zlibCompressor c).stream s none chunks).total = .ok (c.output s chunks) := by
  induction chunks with
  | nil =>
    intro s
    show (Yielded.push (c.flush s) (Yielded.of [])).total = _
    rw [Yielded.total_push]
    exact congrArg Except.ok (List.append_nil _)
  | cons chunk rest ih =>
    intro s
    show (Yielded.push (c.compress s chunk).1
      ((zlibCompressor c).stream (c.compress s chunk).2 none rest)).total = _
    rw [Yielded.total_push, ih]
    rfl

theorem lz4Compressor_begun (c : FrameCompressor) (chunks : List (List UInt8)) :
    ∀ s, ((lz4Compressor c).stream (s, true) none chunks).total = .ok (c.output s chunks) := by
  induction chunks with
  | nil =>
    intro s
    show (Yielded.push (c.flush s) (Yielded.of [])).total = _
    rw [Yielded.total_push]
    exact congrArg Except.ok (List.append_nil _)
  | cons chunk rest ih =>
    intro s
    show (Yielded.push (c.compress s chunk).1
      ((lz4Compressor c).stream ((c.compress s chunk).2, true) none rest)).total = _
    rw [Yielded.total_push, ih]
    rfl

/-- The header comes first, with the first chunk or, where there is none, with the flush. -/
theorem lz4Compressor_total (c : FrameCompressor) (chunks : List (List UInt8)) :
    ((lz4Compressor c).stream (c.start, false) none chunks).total =
      .ok ((c.begin c.start).1 ++ c.output (c.begin c.start).2 chunks) := by
  cases chunks with
  | nil =>
    show (Yielded.push ((c.begin c.start).1 ++ c.flush (c.begin c.start).2) (Yielded.of [])).total = _
    rw [Yielded.total_push]
    exact congrArg Except.ok (List.append_nil _)
  | cons chunk rest =>
    show (Yielded.push ((c.begin c.start).1 ++ (c.compress (c.begin c.start).2 chunk).1)
      ((lz4Compressor c).stream ((c.compress (c.begin c.start).2 chunk).2, true) none rest)).total = _
    rw [Yielded.total_push, lz4Compressor_begun]
    exact congrArg Except.ok (List.append_assoc _ _ _)

section Zstd

variable {F : Format UInt8 UInt8}

/-- What is behind a frame is less than the data it ended in. -/
theorem read_shorter {fed data rest out : List UInt8} (hfed : F.Sound (.opened fed))
    (h : F.read zlibError (.opened fed) data = .ok (out, .ended rest)) : rest.length < data.length := by
  obtain ⟨held, hheld⟩ := hfed
  rcases F.unfinished data hheld with ⟨more, rest', hlt, hx⟩ | ⟨more, hx⟩ | hx
  · rw [Format.read_complete hx] at h
    rw [← Reader.ended.inj (Prod.mk.inj (Except.ok.inj h)).2]
    exact hlt
  · rw [Format.read_unfinished hx] at h
    cases (Prod.mk.inj (Except.ok.inj h)).2
  · rw [Format.read_corrupt hx] at h
    cases h

/-- The loop ends by itself: no round is missing where there are as many as bytes. -/
theorem zstdLoop_fuel {fuel : Nat} {fed data : List UInt8} (hfed : F.Sound (.opened fed))
    (hfuel : data.length ≤ fuel) : zstdLoop F fuel (.opened fed) data =
      zstdLoop F data.length (.opened fed) data := by
  induction fuel using Nat.strongRecOn generalizing fed data with
  | ind fuel ih =>
    cases data with
    | nil => cases fuel <;> rfl
    | cons byte data =>
      obtain ⟨fuel, rfl⟩ : ∃ n, fuel = n + 1 := ⟨fuel - 1, by simp only [List.length_cons] at hfuel; omega⟩
      simp only [List.length_cons] at hfuel
      rw [List.length_cons, zstdLoop, zstdLoop, if_neg (by simp), if_neg (by simp)]
      cases hread : F.read zlibError (.opened fed) (byte :: data) with
      | error e => rfl
      | ok r =>
        obtain ⟨out, _ | rest⟩ := r
        · rfl
        · have hlt := read_shorter hfed hread
          rw [List.length_cons] at hlt
          simp only
          rw [ih fuel (by omega) Format.sound_start (by omega),
            ih data.length (by omega) Format.sound_start (by omega)]

/-- One round of the loop, and the rest of it. -/
theorem zstd_feed {fed data : List UInt8} (hfed : F.Sound (.opened fed)) (hne : data ≠ []) :
    (zstdIncremental F).feed (.opened fed) data =
      match F.read zlibError (.opened fed) data with
      | .error e => .error e
      | .ok (out, .opened fed') => .ok (out, .opened fed')
      | .ok (out, .ended rest) =>
        ((zstdIncremental F).feed (.opened []) rest).map fun more => (out ++ more.1, more.2) := by
  show zstdLoop F data.length (.opened fed) data = _
  obtain ⟨byte, bytes, rfl⟩ := List.exists_cons_of_ne_nil hne
  rw [List.length_cons, zstdLoop, if_neg hne]
  cases hread : F.read zlibError (.opened fed) (byte :: bytes) with
  | error e => rfl
  | ok r =>
    obtain ⟨out, _ | rest⟩ := r
    · rfl
    · have hlt := read_shorter hfed hread
      rw [List.length_cons] at hlt
      simp only
      rw [zstdLoop_fuel Format.sound_start (by omega)]
      rfl

/-- The reader is open, and the frame it reads has not ended. -/
def Open (F : Format UInt8 UInt8) (s : Reader UInt8) : Prop := ∃ fed, s = .opened fed ∧ F.Sound (.opened fed)

theorem zstd_keeps (n : Nat) : ∀ {s : Reader UInt8} {data out : List UInt8} {s' : Reader UInt8},
    data.length ≤ n → Open F s → (zstdIncremental F).feed s data = .ok (out, s') → Open F s' := by
  induction n with
  | zero =>
    intro s data out s' hn hs h
    rw [List.eq_nil_of_length_eq_zero (Nat.le_zero.mp hn)] at h
    rw [← (Prod.mk.inj (Except.ok.inj h)).2]
    exact hs
  | succ n ih =>
    intro s data out s' hn hs h
    obtain ⟨fed, rfl, hfed⟩ := hs
    by_cases hne : data = []
    · rw [hne] at h
      rw [← (Prod.mk.inj (Except.ok.inj h)).2]
      exact ⟨fed, rfl, hfed⟩
    rw [zstd_feed hfed hne] at h
    cases hread : F.read zlibError (.opened fed) data with
    | error e =>
      rw [hread] at h
      cases h
    | ok r =>
      rw [hread] at h
      obtain ⟨out', fed' | rest⟩ := r
      · have hkept : F.Sound (.opened fed') := Format.reader_chunked.keeps hfed hread
        rw [← (Prod.mk.inj (Except.ok.inj h)).2]
        exact ⟨fed', rfl, hkept⟩
      · have hlt := read_shorter hfed hread
        cases hrest : (zstdIncremental F).feed (.opened []) rest with
        | error e =>
          simp only [hrest] at h
          cases h
        | ok r' =>
          simp only [hrest] at h
          rw [← (Prod.mk.inj (Except.ok.inj h)).2]
          exact ih (by omega) ⟨[], rfl, Format.sound_start⟩ hrest

theorem zstd_append (n : Nat) : ∀ {s : Reader UInt8} (xs ys : List UInt8), xs.length ≤ n → Open F s →
    (zstdIncremental F).feed s (xs ++ ys) = do
      let (out, s') ← (zstdIncremental F).feed s xs
      let (out', s'') ← (zstdIncremental F).feed s' ys
      return (out ++ out', s'') := by
  induction n with
  | zero =>
    intro s xs ys hn hs
    rw [List.eq_nil_of_length_eq_zero (Nat.le_zero.mp hn), List.nil_append]
    show _ = (zstdIncremental F).feed s ys >>= fun r => pure ([] ++ r.1, r.2)
    cases (zstdIncremental F).feed s ys <;> rfl
  | succ n ih =>
    intro s xs ys hn hs
    obtain ⟨fed, rfl, hfed⟩ := hs
    by_cases hxs : xs = []
    · rw [hxs, List.nil_append]
      show _ = (zstdIncremental F).feed (.opened fed) ys >>= fun r => pure ([] ++ r.1, r.2)
      cases (zstdIncremental F).feed (.opened fed) ys <;> rfl
    by_cases hys : ys = []
    · have hnil : ∀ s', (zstdIncremental F).feed s' [] = .ok ([], s') := fun s' => rfl
      rw [hys, List.append_nil]
      simp only [hnil]
      cases hfeed : (zstdIncremental F).feed (.opened fed) xs with
      | error e => rfl
      | ok r => exact congrArg (fun out => Except.ok (out, r.2)) (List.append_nil r.1).symm
    have hjoin := @Format.read_append _ _ _ F zlibError fed hfed xs ys
    rw [zstd_feed hfed hxs, zstd_feed hfed (by simp [hxs])]
    cases hread : F.read zlibError (.opened fed) xs with
    | error e =>
      rw [hread] at hjoin
      rw [hjoin]
      rfl
    | ok r =>
      rw [hread] at hjoin
      obtain ⟨out, fed' | rest⟩ := r
      · -- the frame goes on in the second chunk
        have hkept : F.Sound (.opened fed') := Format.reader_chunked.keeps hfed hread
        change _ = F.read zlibError (.opened fed') ys >>= fun r => pure (out ++ r.1, r.2) at hjoin
        show _ = (zstdIncremental F).feed (.opened fed') ys >>= fun r => pure (out ++ r.1, r.2)
        rw [hjoin, zstd_feed hkept hys]
        cases F.read zlibError (.opened fed') ys with
        | error e => rfl
        | ok r' =>
          obtain ⟨out', fed'' | rest'⟩ := r'
          · rfl
          · show Except.map _ ((zstdIncremental F).feed (.opened []) rest') =
              (Except.map _ ((zstdIncremental F).feed (.opened []) rest') >>= _)
            cases (zstdIncremental F).feed (.opened []) rest' with
            | error e => rfl
            | ok r'' => exact congrArg (fun o => Except.ok (o, r''.2)) (List.append_assoc out out' r''.1)
      · -- a frame ends in the first chunk, and the rest of it is read as a first chunk is
        have hlt := read_shorter hfed hread
        have hrest := ih rest ys (by omega) ⟨[], rfl, Format.sound_start⟩
        change _ = Except.ok (out ++ [], Reader.ended (rest ++ ys)) at hjoin
        rw [hjoin]
        show ((zstdIncremental F).feed (.opened []) (rest ++ ys)).map _ =
          (((zstdIncremental F).feed (.opened []) rest).map _ >>= _)
        rw [hrest]
        cases (zstdIncremental F).feed (.opened []) rest with
        | error e => rfl
        | ok r' =>
          show Except.map _ ((zstdIncremental F).feed r'.2 ys >>= _) =
            ((zstdIncremental F).feed r'.2 ys >>= _)
          cases (zstdIncremental F).feed r'.2 ys with
          | error e => rfl
          | ok r'' =>
            show Except.ok (out ++ [] ++ (r'.1 ++ r''.1), r''.2) = Except.ok ((out ++ r'.1) ++ r''.1, r''.2)
            rw [List.append_nil, List.append_assoc]

theorem zstd_chunked : (zstdIncremental F).Chunked (Open F) where
  nil _ := rfl
  append xs ys hs := zstd_append xs.length xs ys (Nat.le_refl _) hs
  keeps hs h := zstd_keeps _ (Nat.le_refl _) hs h

/-- Of one whole frame the loop makes what the frame holds. -/
theorem zstd_whole {wire data : List UInt8} (h : F.scan wire = .complete data []) :
    (zstdIncremental F).whole (.opened []) wire = .ok data := by
  have hne : wire ≠ [] := by
    intro hnil
    have hlt := Format.shorter h
    rw [hnil] at hlt
    cases hlt
  have hread : F.read zlibError (.opened []) wire = .ok (data, .ended []) := by
    have hcomplete : F.scan ([] ++ wire) = .complete data [] := h
    rw [Format.read_complete hcomplete, Format.given_of F.empty]
    rfl
  have hfeed : (zstdIncremental F).feed (.opened []) wire = .ok (data, .opened []) := by
    rw [zstd_feed Format.sound_start hne, hread]
    show Except.ok (data ++ [], _) = _
    rw [List.append_nil]
  unfold Machine.whole
  rw [hfeed]
  exact congrArg Except.ok (List.append_nil data)

end Zstd

/-! ## Every codec reads back what it writes -/

theorem total_of_pieces {A : Type} {s : Yielded A Exn} {v : List A} (h : s.total = .ok v) :
    s.failure = none ∧ s.pieces.flatten = v := by
  unfold Yielded.total at h
  cases hf : s.failure with
  | none =>
    rw [hf] at h
    exact ⟨rfl, Except.ok.inj h⟩
  | some e =>
    rw [hf] at h
    cases h

/-- What is compressed is one frame. -/
theorem compressChunks_frame {codec : CompressionCodec} {chunks : Yielded UInt8 Exn} {data : List UInt8}
    (h : chunks.total = .ok data) : ∃ wire, (compressChunks lib (some codec) chunks).total = .ok wire ∧
      (lib.format codec).scan wire = .complete data [] := by
  obtain ⟨hfailure, rfl⟩ := total_of_pieces h
  have hobj : ∀ codec, ((zlibCompressor (lib.compressobj codec)).pipe chunks).total =
      .ok ((lib.compressobj codec).output (lib.compressobj codec).start chunks.pieces) := by
    intro codec
    unfold Machine.pipe
    rw [hfailure]
    exact zlibCompressor_total _ _ _
  cases codec with
  | lz4 =>
    refine ⟨_, ?_, lib.lz4_writes chunks.pieces⟩
    show ((lz4Compressor _).pipe chunks).total = _
    unfold Machine.pipe
    rw [hfailure]
    exact lz4Compressor_total _ _
  | gzip => exact ⟨_, hobj .gzip, lib.compressobj_writes .gzip _⟩
  | zlib => exact ⟨_, hobj .zlib, lib.compressobj_writes .zlib _⟩
  | zstd => exact ⟨_, hobj .zstd, lib.compressobj_writes .zstd _⟩

/-- One frame is read in chunks as what it holds. -/
theorem decompressChunks_frame {codec : CompressionCodec} {chunks : Yielded UInt8 Exn}
    {wire data : List UInt8} (h : chunks.total = .ok wire)
    (hframe : (lib.format codec).scan wire = .complete data []) :
    (decompressChunks lib (some codec) chunks).total = .ok data := by
  have hreader : (((lib.format codec).reader zlibError).pipe chunks).total = .ok data := by
    refine (Format.reader_chunked.total_pipe Format.sound_start h).trans ?_
    have hwhole := @Format.reader_whole _ _ _ (lib.format codec) zlibError wire
    rw [hframe] at hwhole
    exact hwhole
  cases codec with
  | zstd => exact (zstd_chunked.total_pipe ⟨[], rfl, Format.sound_start⟩ h).trans (zstd_whole hframe)
  | gzip => exact hreader
  | zlib => exact hreader
  | lz4 => exact hreader

theorem decompress_frame {codec : CompressionCodec} {wire data : List UInt8}
    (hframe : (lib.format codec).scan wire = .complete data []) : decompress lib codec wire = .ok data := by
  cases codec with
  | gzip =>
    show decompressGzip lib wire = _
    unfold decompressGzip
    rw [Format.all_complete hframe, List.dropWhile_nil, Format.all_nil]
    exact congrArg Except.ok (List.append_nil data)
  | zlib =>
    show decompressZlib lib wire = _
    unfold decompressZlib
    rw [hframe]
  | zstd => exact lib.decompressZstd_reads hframe
  | lz4 => exact lib.decompressLz4_reads hframe

/-! ## Lossless -/

namespace StreamingSerDe

variable {lib}

/-- A value that fails to come fails to be encoded. -/
theorem failure_encodeStream {a b : Kind} (S : StreamingSerDe a b) :
    ∀ {chunks : Yielded a.Item Exn}, chunks.failure ≠ none → (S.encodeStream lib chunks).failure ≠ none := by
  induction S with
  | identity k => exact fun h => h
  | utf8 => exact fun h => Machine.failure_pipe h
  | wireCompressed codec =>
    intro chunks h
    cases codec <;> exact Machine.failure_pipe h
  | chained first second ih ih' => exact fun h => ih' (ih h)

theorem failure_decodeStream {a b : Kind} (S : StreamingSerDe a b) :
    ∀ {chunks : Yielded b.Item Exn}, chunks.failure ≠ none → (S.decodeStream lib chunks).failure ≠ none := by
  induction S with
  | identity k => exact fun h => h
  | utf8 => exact fun h => Machine.failure_pipe h
  | wireCompressed codec =>
    intro chunks h
    cases codec <;> exact Machine.failure_pipe h
  | chained first second ih ih' => exact fun h => ih (ih' h)

/-- Once they are bytes, they are bytes. -/
theorem kind_bytes {a b : Kind} (S : StreamingSerDe a b) : a = .bytes → b = .bytes := by
  induction S with
  | identity k => exact id
  | utf8 => exact fun _ => rfl
  | wireCompressed codec => exact id
  | chained first second ih ih' => exact fun h => ih' (ih h)

/-- All bytes can be serialized. -/
theorem serialize_bytes {a b : Kind} (S : StreamingSerDe a b) :
    a = .bytes → ∀ value, ∃ blob, S.serialize lib value = .ok blob := by
  induction S with
  | identity k => exact fun _ value => ⟨value, rfl⟩
  | utf8 => exact fun h => nomatch h
  | wireCompressed codec => exact fun _ value => ⟨_, rfl⟩
  | chained first second ih ih' =>
    intro h value
    obtain ⟨mid, hmid⟩ := ih h value
    obtain ⟨blob, hblob⟩ := ih' (kind_bytes first h) mid
    refine ⟨blob, ?_⟩
    show orRefuse _ (first.serialize lib value >>= second.serialize lib) = _
    rw [hmid]
    show orRefuse _ (second.serialize lib mid) = _
    rw [hblob]
    rfl

/-- Text that stays text comes through as it is. -/
theorem encode_text {a b : Kind} (S : StreamingSerDe a b) : b = .text → ∀ {value chunks},
    chunks.total = .ok value → ∃ blob, S.serialize lib value = .ok blob ∧
      (S.encodeStream lib chunks).total = .ok blob := by
  induction S with
  | identity k => exact fun _ {value chunks} h => ⟨value, rfl, h⟩
  | utf8 => exact fun h => nomatch h
  | wireCompressed codec => exact fun h => nomatch h
  | @chained a m b first second ih ih' =>
    intro h value chunks hchunks
    have hm : m = .text := by
      cases m with
      | text => rfl
      | bytes =>
        rw [kind_bytes second rfl] at h
        cases h
    obtain ⟨mid, hmid, hout⟩ := ih hm hchunks
    obtain ⟨blob, hblob, hall⟩ := ih' h hout
    refine ⟨blob, ?_, hall⟩
    show orRefuse _ (first.serialize lib value >>= second.serialize lib) = _
    rw [hmid]
    show orRefuse _ (second.serialize lib mid) = _
    rw [hblob]
    rfl

/-- The wire form carries the value: read whole, or in chunks wherever it is cut. -/
structure Carries {a b : Kind} (lib : CodecLibrary) (S : StreamingSerDe a b) (value : List a.Item)
    (wire : List b.Item) : Prop where
  whole : S.deserialize lib wire = .ok value
  cut : ∀ {chunks}, chunks.total = .ok wire → (S.decodeStream lib chunks).total = .ok value

theorem utf8_carries {value : List CodePoint} {wire : List UInt8} (h : encode value = some wire) :
    Carries lib .utf8 value wire := by
  have hwhole := (@decoder_whole_iff Exn (.valueError "invalid utf-8") wire value).mpr h
  constructor
  · show orRefuse _ ((decoder _).whole [] wire) = _
    rw [hwhole]
    rfl
  · intro chunks hchunks
    exact ((decoder_chunked _).total_pipe trivial hchunks).trans hwhole

theorem serialize_chained {a m b : Kind} {first : StreamingSerDe a m} {second : StreamingSerDe m b}
    {value : List a.Item} {blob : List b.Item} (h : (chained first second).serialize lib value = .ok blob) :
    ∃ mid, first.serialize lib value = .ok mid ∧ second.serialize lib mid = .ok blob := by
  change orRefuse _ (first.serialize lib value >>= second.serialize lib) = _ at h
  cases hmid : first.serialize lib value with
  | error e =>
    rw [hmid] at h
    cases h
  | ok mid =>
    rw [hmid] at h
    refine ⟨mid, rfl, ?_⟩
    change orRefuse _ (second.serialize lib mid) = _ at h
    cases hblob : second.serialize lib mid with
    | error e =>
      rw [hblob] at h
      cases h
    | ok blob' =>
      rw [hblob] at h
      rw [Except.ok.inj h]

/-- What comes of an unknown length is of an unknown length. -/
theorem encodedSize_none {a b : Kind} (S : StreamingSerDe a b) : S.encodedSize none = none := by
  induction S with
  | identity k => rfl
  | utf8 => rfl
  | wireCompressed codec => rfl
  | chained first second ih ih' =>
    show second.encodedSize (first.encodedSize none) = none
    rw [ih, ih']

/-- What comes of the chunks of a value that can be serialized carries the value, and is
    as long as was said. -/
theorem encodes {a b : Kind} (S : StreamingSerDe a b) : ∀ {chunks value blob},
    chunks.total = .ok value → S.serialize lib value = .ok blob →
      ∃ wire, (S.encodeStream lib chunks).total = .ok wire ∧ Carries lib S value wire ∧
        ∀ m, S.encodedSize (some value.length) = some m → m = wire.length := by
  induction S with
  | identity k =>
    intro chunks value blob h _
    exact ⟨value, h, ⟨rfl, fun hwire => hwire⟩, fun m hm => (Option.some.inj hm).symm⟩
  | utf8 =>
    intro chunks value blob h hblob
    cases hencode : encode value with
    | none =>
      change (encode value).elim _ _ = _ at hblob
      rw [hencode] at hblob
      cases hblob
    | some wire =>
      refine ⟨wire, ?_, utf8_carries hencode, fun m hm => nomatch hm⟩
      refine ((encoder_chunked _).total_pipe trivial h).trans ?_
      unfold Machine.whole
      show (encode value).elim (Except.error _) (fun bytes => Except.ok (bytes, ())) >>= _ = _
      rw [hencode]
      exact congrArg Except.ok (List.append_nil wire)
  | wireCompressed codec =>
    intro chunks value blob h _
    obtain ⟨wire, hout, hframe⟩ := @compressChunks_frame lib codec _ _ h
    refine ⟨wire, hout, ⟨?_, fun hwire => decompressChunks_frame lib hwire hframe⟩, fun m hm => nomatch hm⟩
    show orRefuse _ (decompress lib codec wire) = _
    rw [decompress_frame lib hframe]
    rfl
  | @chained a m b first second ih ih' =>
    intro chunks value blob h hblob
    obtain ⟨x, hx, hx'⟩ := serialize_chained hblob
    obtain ⟨mid, hmid, hcarries, hsize⟩ := ih h hx
    -- what is streamed need not be what is serialized, but the second serde takes both
    have hnext : ∃ blob', second.serialize lib mid = .ok blob' := by
      cases m with
      | bytes => exact serialize_bytes second rfl mid
      | text =>
        obtain ⟨y, hy, hout⟩ := encode_text first rfl h
        rw [hmid] at hout
        rw [hx] at hy
        rw [Except.ok.inj hout, ← Except.ok.inj hy]
        exact ⟨blob, hx'⟩
    obtain ⟨blob', hblob'⟩ := hnext
    obtain ⟨wire, hwire, hcarries', hsize'⟩ := ih' hmid hblob'
    refine ⟨wire, hwire, ⟨?_, fun hcut => hcarries.cut (hcarries'.cut hcut)⟩, ?_⟩
    · show orRefuse _ (second.deserialize lib wire >>= first.deserialize lib) = _
      rw [hcarries'.whole]
      show orRefuse _ (first.deserialize lib mid) = _
      rw [hcarries.whole]
      rfl
    · intro k hk
      change second.encodedSize (first.encodedSize (some value.length)) = some k at hk
      cases hfirst : first.encodedSize (some value.length) with
      | none =>
        rw [hfirst, encodedSize_none] at hk
        cases hk
      | some n =>
        rw [hfirst, hsize n hfirst] at hk
        exact hsize' k hk

/-- A value that cannot be serialized is not encoded in chunks either. -/
theorem refuses {a b : Kind} (S : StreamingSerDe a b) : ∀ {chunks value e},
    chunks.total = .ok value → S.serialize lib value = .error e →
      (S.encodeStream lib chunks).failure ≠ none := by
  induction S with
  | identity k => exact fun _ h => nomatch h
  | wireCompressed codec => exact fun _ h => nomatch h
  | utf8 =>
    intro chunks value e h hrefused
    rw [← Yielded.total_error_iff]
    refine ⟨.valueError "surrogates not allowed", ((encoder_chunked _).total_pipe trivial h).trans ?_⟩
    unfold Machine.whole
    show (encode value).elim (Except.error _) (fun bytes => Except.ok (bytes, ())) >>= _ = _
    cases hencode : encode value with
    | none => rfl
    | some wire =>
      change (encode value).elim _ _ = _ at hrefused
      rw [hencode] at hrefused
      cases hrefused
  | @chained a m b first second ih ih' =>
    intro chunks value e h hrefused
    cases hx : first.serialize lib value with
    | error e' => exact failure_encodeStream second (ih h hx)
    | ok x =>
      change orRefuse _ (first.serialize lib value >>= second.serialize lib) = _ at hrefused
      rw [hx] at hrefused
      change orRefuse _ (second.serialize lib x) = _ at hrefused
      cases hx' : second.serialize lib x with
      | ok blob =>
        rw [hx'] at hrefused
        cases hrefused
      | error e' =>
        cases m with
        | bytes =>
          obtain ⟨blob, hblob⟩ := @serialize_bytes lib _ _ second rfl x
          rw [hblob] at hx'
          cases hx'
        | text =>
          obtain ⟨y, hy, hout⟩ := encode_text first rfl h
          rw [hx] at hy
          rw [← Except.ok.inj hy] at hout
          exact ih' hout hx'

end StreamingSerDe

/-! ## Codecs that store what they are given -/

/-- What the frames of each codec start with. -/
def magic : CompressionCodec → List UInt8
  | .gzip => [0x1F, 0x8B, 0x08]
  | .zlib => [0x78, 0x9C]
  | .zstd => [0x28, 0xB5, 0x2F, 0xFD]
  | .lz4 => [0x04, 0x22, 0x4D, 0x18]

/-- A compressor that writes its frame at the flush. -/
def storedObj (header : List UInt8) : Compressobj where
  State := List UInt8
  start := []
  compress s data := ([], s ++ data)
  flush s := header ++ Format.body s

theorem storedObj_output (header : List UInt8) (chunks : List (List UInt8)) :
    ∀ s : List UInt8, (storedObj header).output s chunks = header ++ Format.body (s ++ chunks.flatten) := by
  induction chunks with
  | nil =>
    intro s
    rw [List.flatten_nil, List.append_nil]
    rfl
  | cons chunk rest ih =>
    intro s
    show [] ++ (storedObj header).output (s ++ chunk) rest = _
    rw [ih, List.nil_append, List.flatten_cons, List.append_assoc]

/-- Libraries whose codecs store: the laws can be met. -/
def storedLibrary : CodecLibrary where
  format codec := Format.marked (magic codec)
  compressobj codec := storedObj (magic codec)
  lz4FrameCompressor := { storedObj [] with begin := fun s => (magic .lz4, s) }
  compress codec data := magic codec ++ Format.body data
  decompressZstd wire :=
    match (Format.marked (magic .zstd)).scan wire with
    | .complete data _ => .ok data
    | _ => .error zlibError
  decompressLz4 wire :=
    match (Format.marked (magic .lz4)).scan wire with
    | .complete data _ => .ok data
    | _ => .error zlibError
  compressobj_writes codec chunks := by
    show (Format.marked (magic codec)).scan ((storedObj (magic codec)).output [] chunks) = _
    rw [storedObj_output]
    exact Format.marked_scan _ _
  lz4_writes chunks := by
    show (Format.marked (magic .lz4)).scan (magic .lz4 ++ (storedObj []).output [] chunks) = _
    rw [storedObj_output]
    exact Format.marked_scan _ _
  compress_writes codec data := Format.marked_scan _ _
  decompressZstd_reads := by
    intro wire data h
    rw [h]
  decompressLz4_reads := by
    intro wire data h
    rw [h]

/-! ## The law -/

namespace StreamingSerDe

/-- However a value is cut before it is encoded, and its wire form before it is decoded:
    where the serde can serialize the value, what is encoded is decoded to it in chunks
    and whole, and is as long as was said, if anything was. A value it cannot serialize it
    refuses in chunks too. -/
theorem lossless (lib : CodecLibrary) {a b : Kind} (S : StreamingSerDe a b)
    (chunks : List (List a.Item)) :
    (∀ blob, S.serialize lib chunks.flatten = .ok blob →
      ∃ wire, (S.encodeStream lib (.of chunks)).total = .ok wire ∧
        S.deserialize lib wire = .ok chunks.flatten ∧
        (∀ cut : List (List b.Item), cut.flatten = wire →
          (S.decodeStream lib (.of cut)).total = .ok chunks.flatten) ∧
        ∀ size m, size = none ∨ size = some chunks.flatten.length →
          S.encodedSize size = some m → m = wire.length) ∧
    ∀ e, S.serialize lib chunks.flatten = .error e →
      (S.encodeStream lib (.of chunks)).failure ≠ none := by
  constructor
  · intro blob hblob
    obtain ⟨wire, hwire, hcarries, hsize⟩ := encodes S (Yielded.total_of chunks) hblob
    refine ⟨wire, hwire, hcarries.whole, ?_, ?_⟩
    · intro cut hcut
      exact hcarries.cut (by rw [Yielded.total_of, hcut])
    · intro size m hknown hm
      rcases hknown with rfl | rfl
      · rw [encodedSize_none] at hm
        cases hm
      · exact hsize m hm
  · exact fun e he => refuses S (Yielded.total_of chunks) he

/-- A character of two bytes through a compressor, cut inside of it. -/
theorem lossless_cut : ∃ wire,
    ((compressed .gzip .utf8).encodeStream storedLibrary (.of [[], [0xE9], []])).total = .ok wire ∧
      ((compressed .gzip .utf8).decodeStream storedLibrary
        (.of [wire.take 5, [], wire.drop 5])).total = .ok [0xE9] := by
  obtain ⟨wire, hwire, -, hcut, -⟩ := (lossless storedLibrary (compressed .gzip .utf8)
    [[], [0xE9], []]).1 _ rfl
  refine ⟨wire, hwire, hcut _ ?_⟩
  simp

/-- A lone surrogate is refused, whole and in chunks. -/
theorem surrogate_refused : ¬ ∀ (lib : CodecLibrary) (chunks : List (List CodePoint)),
    ∃ wire, (utf8.encodeStream lib (.of chunks)).total = .ok wire ∧
      ∀ cut : List (List UInt8), cut.flatten = wire →
        (utf8.decodeStream lib (.of cut)).total = .ok chunks.flatten := by
  intro hall
  obtain ⟨wire, hwire, -⟩ := hall storedLibrary [[0xD800]]
  have hrefused : (utf8.encodeStream storedLibrary (.of [[0xD800]])).total =
      .error (.valueError "surrogates not allowed") := rfl
  rw [hrefused] at hwire
  cases hwire

end StreamingSerDe

end Kvtsjl
