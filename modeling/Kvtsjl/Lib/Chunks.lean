import Mathlib.Logic.Basic

/-
  Streams of chunks, and machines that take them in chunk by chunk.
  A machine is `Chunked` where it takes in two chunks as it takes in what they make
  together. Then what comes out does not depend on where the input is cut
  (`total_pipe`): it is what the machine makes of the whole.
-/

namespace Chunks

variable {σ A B E : Type}

/-- What an iterator of chunks yields, and what it raises at its end, if anything. -/
structure Yielded (A E : Type) where
  pieces : List (List A)
  failure : Option E

namespace Yielded

/-- Chunks that are all there. -/
def of (pieces : List (List A)) : Yielded A E := ⟨pieces, none⟩

/-- The pieces together, or what was raised instead. -/
def total (s : Yielded A E) : Except E (List A) :=
  match s.failure with
  | none => .ok s.pieces.flatten
  | some e => .error e

/-- Yield a piece first, unless it is empty. -/
def push (out : List A) (s : Yielded A E) : Yielded A E :=
  if out.isEmpty then s else ⟨out :: s.pieces, s.failure⟩

@[simp] theorem total_of (pieces : List (List A)) : (of pieces : Yielded A E).total = .ok pieces.flatten := rfl

@[simp] theorem failure_push (out : List A) (s : Yielded A E) : (s.push out).failure = s.failure := by
  unfold push
  split <;> rfl

theorem total_push (out : List A) (s : Yielded A E) :
    (s.push out).total = s.total.map fun xs => out ++ xs := by
  have hpieces : (s.push out).pieces.flatten = out ++ s.pieces.flatten := by
    unfold push
    split
    · next h =>
      rw [List.isEmpty_iff.mp h]
      rfl
    · rfl
  unfold total
  rw [failure_push, hpieces]
  cases s.failure <;> rfl

theorem total_error_iff {s : Yielded A E} : (∃ e, s.total = .error e) ↔ s.failure ≠ none := by
  unfold total
  cases s.failure with
  | none => exact iff_of_false (fun ⟨e, h⟩ => (nomatch h)) (fun h => h rfl)
  | some e => exact iff_of_true ⟨e, rfl⟩ (Option.some_ne_none e)

theorem total_none_iff {s : Yielded A E} : s.total.toOption = none ↔ s.failure ≠ none := by
  unfold total
  cases s.failure with
  | none => exact iff_of_false (fun h => nomatch h) (fun h => h rfl)
  | some e => exact iff_of_true rfl (Option.some_ne_none e)

end Yielded

/-- What takes chunks in, with a state of its own, and is flushed at their end. -/
structure Machine (σ A B E : Type) where
  start : σ
  feed : σ → List A → Except E (List B × σ)
  flush : σ → Except E (List B)

namespace Machine

variable (m : Machine σ A B E)

/-- The generator over the chunks: it yields what comes out of each, unless that is
    empty, and hands on what is raised. -/
def stream (s : σ) (failure : Option E) : List (List A) → Yielded B E
  | [] =>
    match failure with
    | some e => ⟨[], some e⟩
    | none =>
      match m.flush s with
      | .ok out => (Yielded.of []).push out
      | .error e => ⟨[], some e⟩
  | chunk :: rest =>
    match m.feed s chunk with
    | .ok (out, s') => (stream s' failure rest).push out
    | .error e => ⟨[], some e⟩

def pipe (chunks : Yielded A E) : Yielded B E := m.stream m.start chunks.failure chunks.pieces

/-- All at once. -/
def whole (s : σ) (xs : List A) : Except E (List B) := do
  let (out, s') ← m.feed s xs
  let tail ← m.flush s'
  return out ++ tail

/-- From the states in `I`, two chunks are taken in as what they make together. -/
structure Chunked (I : σ → Prop) : Prop where
  nil : ∀ {s}, I s → m.feed s [] = .ok ([], s)
  append : ∀ {s} (xs ys : List A), I s → m.feed s (xs ++ ys) = do
    let (out, s') ← m.feed s xs
    let (out', s'') ← m.feed s' ys
    return (out ++ out', s'')
  keeps : ∀ {s xs out s'}, I s → m.feed s xs = .ok (out, s') → I s'

variable {m} {I : σ → Prop}

theorem Chunked.whole_append (h : m.Chunked I) {s : σ} (hs : I s) (xs ys : List A) :
    m.whole s (xs ++ ys) = do
      let (out, s') ← m.feed s xs
      let rest ← m.whole s' ys
      return out ++ rest := by
  unfold whole
  rw [h.append xs ys hs]
  cases m.feed s xs with
  | error e => rfl
  | ok r =>
    obtain ⟨out, s'⟩ := r
    show (m.feed s' ys >>= _) >>= _ = (m.feed s' ys >>= _) >>= _
    cases m.feed s' ys with
    | error e => rfl
    | ok r' =>
      obtain ⟨out', s''⟩ := r'
      show m.flush s'' >>= _ = (m.flush s'' >>= _) >>= _
      cases m.flush s'' with
      | error e => rfl
      | ok tail => exact congrArg Except.ok (List.append_assoc out out' tail)

theorem Chunked.total_stream (h : m.Chunked I) {s : σ} (hs : I s) (chunks : List (List A)) :
    (m.stream s none chunks).total = m.whole s chunks.flatten := by
  induction chunks generalizing s with
  | nil =>
    unfold stream whole
    rw [List.flatten_nil, h.nil hs]
    show (match m.flush s with
      | .ok out => (Yielded.of []).push out
      | .error e => ⟨[], some e⟩ : Yielded B E).total = m.flush s >>= fun tail => pure ([] ++ tail)
    cases m.flush s with
    | error e => rfl
    | ok out =>
      show ((Yielded.of []).push out : Yielded B E).total = .ok out
      rw [Yielded.total_push, Yielded.total_of]
      exact congrArg Except.ok (List.append_nil out)
  | cons chunk rest ih =>
    unfold stream
    rw [List.flatten_cons, h.whole_append hs]
    cases hfeed : m.feed s chunk with
    | error e => rfl
    | ok r =>
      obtain ⟨out, s'⟩ := r
      show ((m.stream s' none rest).push out).total = _
      rw [Yielded.total_push, ih (h.keeps hs hfeed)]
      rfl

/-- What comes out is what the machine makes of the whole, wherever the input is cut. -/
theorem Chunked.total_pipe (h : m.Chunked I) (hstart : I m.start) {chunks : Yielded A E} {xs : List A}
    (hin : chunks.total = .ok xs) : (m.pipe chunks).total = m.whole m.start xs := by
  unfold Yielded.total at hin
  unfold pipe
  cases hfailure : chunks.failure with
  | some e =>
    rw [hfailure] at hin
    cases hin
  | none =>
    rw [hfailure] at hin
    rw [h.total_stream hstart, Except.ok.inj hin]

/-- A failing input fails what is made of it. -/
theorem failure_stream {e : E} (chunks : List (List A)) :
    ∀ s, (m.stream s (some e) chunks).failure ≠ none := by
  induction chunks with
  | nil => exact fun s => Option.some_ne_none e
  | cons chunk rest ih =>
    intro s
    unfold stream
    cases m.feed s chunk with
    | error e' => exact Option.some_ne_none e'
    | ok r =>
      show ((m.stream r.2 (some e) rest).push r.1).failure ≠ none
      rw [Yielded.failure_push]
      exact ih r.2

theorem failure_pipe {chunks : Yielded A E} (h : chunks.failure ≠ none) :
    (m.pipe chunks).failure ≠ none := by
  obtain ⟨e, he⟩ := Option.ne_none_iff_exists'.mp h
  unfold pipe
  rw [he]
  exact failure_stream chunks.pieces m.start

end Machine

end Chunks
