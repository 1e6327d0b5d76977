import Kvtsjl.Lib.Pieces

/-
  A stream that is read over an iterator of chunks.
  What one read leaves over is kept in a buffer for the next. A read is a read of the chunks
  put together: `take` and `drop` of what the buffer and the iterator still hold, wherever the
  chunks are cut. So any sequence of reads yields the stream in order.
-/

namespace Kvtsjl

open Pieces

/-- Readable stream over an iterator of chunks. -/
structure ChunkReader where
  chunks : List (List UInt8)
  buf : List UInt8 := []
  done : Bool := false

namespace ChunkReader

/-- `while len(self._buf) < size and not self._done`: the next chunk goes to the buffer, and the
    end of the iterator ends the loop. -/
def fill (size : Nat) : List (List UInt8) → List UInt8 → Bool → ChunkReader
  | [], buf, done => if buf.length < size ∧ done = false then ⟨[], buf, true⟩ else ⟨[], buf, done⟩
  | chunk :: rest, buf, done =>
    if buf.length < size ∧ done = false then fill size rest (buf ++ chunk) done
    else ⟨chunk :: rest, buf, done⟩

/-- The buffer and all chunks, with no size or a negative one. -/
def readRest (r : ChunkReader) : List UInt8 × ChunkReader :=
  ((r.buf :: r.chunks).flatten, ⟨[], [], true⟩)

def readUpTo (r : ChunkReader) (size : Nat) : List UInt8 × ChunkReader :=
  let filled := fill size r.chunks r.buf r.done
  (filled.buf.take size, { filled with buf := filled.buf.drop size })

/-- A missing size is `-1`. -/
def read (r : ChunkReader) : Option Int → List UInt8 × ChunkReader
  | none => r.readRest
  | some size => if size < 0 then r.readRest else r.readUpTo size.toNat

/-- What the calls return, in turn, and the reader they leave. -/
def reads : List (Option Int) → ChunkReader → List (List UInt8) × ChunkReader
  | [], r => ([], r)
  | size :: sizes, r =>
    ((r.read size).1 :: (reads sizes (r.read size).2).1, (reads sizes (r.read size).2).2)

/-- `while chunk := src.read(size)`, for as many turns as there is fuel. -/
def readChunks (size : Int) : Nat → ChunkReader → List (List UInt8)
  | 0, _ => []
  | fuel + 1, r =>
    if (r.read (some size)).1 = [] then []
    else (r.read (some size)).1 :: readChunks size fuel (r.read (some size)).2

/-! ## One read -/

/-- What is still to be read. -/
def remaining (r : ChunkReader) : List UInt8 := r.buf ++ r.chunks.flatten

/-- The iterator of a reader that saw its end has no more. -/
def Sound (r : ChunkReader) : Prop := r.done = true → r.chunks = []

theorem sound_start (chunks : List (List UInt8)) : ({ chunks := chunks } : ChunkReader).Sound :=
  fun h => nomatch h

/-- The loop loses nothing, and ends with enough in the buffer or with no chunk left. -/
theorem fill_spec (size : Nat) (chunks : List (List UInt8)) (buf : List UInt8) (done : Bool)
    (h : done = true → chunks = []) :
    (fill size chunks buf done).remaining = buf ++ chunks.flatten ∧ (fill size chunks buf done).Sound ∧
      (size ≤ (fill size chunks buf done).buf.length ∨ (fill size chunks buf done).chunks = []) := by
  induction chunks generalizing buf with
  | nil =>
    rw [fill]
    split
    · exact ⟨rfl, fun _ => rfl, .inr rfl⟩
    · exact ⟨rfl, fun _ => rfl, .inr rfl⟩
  | cons chunk rest ih =>
    have hdone : done = false := by
      cases done with
      | false => rfl
      | true => exact nomatch h rfl
    rw [fill]
    split
    · obtain ⟨hwhole, hsound, hend⟩ := ih (buf ++ chunk) fun ht => by simp [hdone] at ht
      exact ⟨by rw [hwhole, List.append_assoc, List.flatten_cons], hsound, hend⟩
    · next hfull =>
      refine ⟨rfl, fun ht => by simp [hdone] at ht, .inl ?_⟩
      show size ≤ buf.length
      rw [hdone] at hfull
      simpa using hfull

/-- A read takes its piece off the stream. -/
theorem read_eq {r : ChunkReader} (h : r.Sound) (size : Option Int) :
    (r.read size).1 = (readOf size r.remaining).1 ∧
      (r.read size).2.remaining = (readOf size r.remaining).2 ∧ (r.read size).2.Sound := by
  cases size with
  | none => exact ⟨rfl, rfl, fun _ => rfl⟩
  | some size =>
    rw [read, readOf]
    by_cases hneg : size < 0
    · rw [if_pos hneg, if_pos hneg]
      exact ⟨rfl, rfl, fun _ => rfl⟩
    · rw [if_neg hneg, if_neg hneg]
      obtain ⟨hwhole, hsound, hend⟩ := fill_spec size.toNat r.chunks r.buf r.done h
      rw [show r.remaining = (fill size.toNat r.chunks r.buf r.done).remaining from hwhole.symm]
      unfold readUpTo remaining
      rcases hend with henough | hempty
      · rw [List.take_append_of_le_length henough, List.drop_append_of_le_length henough]
        exact ⟨rfl, rfl, hsound⟩
      · rw [hempty, List.flatten_nil, List.append_nil, List.append_nil]
        exact ⟨rfl, rfl, hsound⟩

/-! ## Any sequence of reads -/

/-- The calls return the pieces of the stream. -/
theorem reads_eq (sizes : List (Option Int)) {r : ChunkReader} (h : r.Sound) :
    (reads sizes r).1 = (piecesOf sizes r.remaining).1 ∧
      (reads sizes r).2.remaining = (piecesOf sizes r.remaining).2 ∧ (reads sizes r).2.Sound := by
  induction sizes generalizing r with
  | nil => exact ⟨rfl, rfl, h⟩
  | cons size sizes ih =>
    obtain ⟨hpiece, hleft, hsound⟩ := read_eq h size
    obtain ⟨hpieces, hrest, hlast⟩ := ih hsound
    rw [reads, piecesOf, ← hpiece, ← hleft]
    exact ⟨congrArg _ hpieces, hrest, hlast⟩

/-- The pieces are the stream in order. None is longer than its size, an empty one of a size
    above zero comes after everything, and with no size or a negative one everything has
    been returned. -/
theorem reads_stream (chunks : List (List UInt8)) (sizes : List (Option Int)) :
    (reads sizes { chunks := chunks }).1.length = sizes.length ∧
    (reads sizes { chunks := chunks }).1.flatten <+: chunks.flatten ∧
    ∀ i size piece, sizes[i]? = some size → (reads sizes { chunks := chunks }).1[i]? = some piece →
      (∀ n, size = some n → 0 ≤ n → (piece.length : Int) ≤ n) ∧
      (∀ n, size = some n → 0 < n → piece = [] →
        ((reads sizes { chunks := chunks }).1.take i).flatten = chunks.flatten) ∧
      ((size = none ∨ ∃ n < 0, size = some n) →
        ((reads sizes { chunks := chunks }).1.take (i + 1)).flatten = chunks.flatten) := by
  have hpieces := (reads_eq sizes (sound_start chunks)).1
  rw [show (reads sizes { chunks := chunks }).1 = (piecesOf sizes chunks.flatten).1 from hpieces]
  refine ⟨length_piecesOf sizes _, ⟨_, flatten_piecesOf sizes _⟩, ?_⟩
  intro i size piece hsize hpiece
  obtain ⟨rest, hbefore, hread⟩ := piecesOf_getElem? hsize hpiece
  have hafter : ((piecesOf sizes chunks.flatten).1.take (i + 1)).flatten =
      ((piecesOf sizes chunks.flatten).1.take i).flatten ++ piece := by
    rw [List.take_add_one, hpiece, List.flatten_append]
    simp
  refine ⟨?_, ?_, ?_⟩
  · intro n hn hpos
    rw [hn] at hread
    rw [hread]
    exact length_readOf hpos rest
  · intro n hn hpos hempty
    rw [hn, hempty] at hread
    have hnone := readOf_nil (by omega) hread.symm
    rwa [hnone, List.append_nil] at hbefore
  · intro hall
    rw [hafter, hread, readOf_all hall]
    exact hbefore

/-- Reading chunks until an empty one, of any size but zero, yields the whole stream. -/
theorem flatten_readChunks {size : Int} (hsize : size ≠ 0) (fuel : Nat) {r : ChunkReader} (h : r.Sound)
    (hfuel : r.remaining.length < fuel) : (readChunks size fuel r).flatten = r.remaining := by
  induction fuel generalizing r with
  | zero => omega
  | succ fuel ih =>
    obtain ⟨hpiece, hleft, hsound⟩ := read_eq h (some size)
    have hwhole := readOf_append (some size) r.remaining
    rw [← hpiece, ← hleft] at hwhole
    rw [readChunks]
    split
    · next hempty =>
      rw [hempty] at hpiece
      exact (readOf_nil hsize hpiece.symm).symm
    · next hmore =>
      have hlen := congrArg List.length hwhole
      have hpos := List.length_pos_of_ne_nil hmore
      rw [List.length_append] at hlen
      rw [List.flatten_cons, ih hsound (by omega)]
      exact hwhole

end ChunkReader

end Kvtsjl
