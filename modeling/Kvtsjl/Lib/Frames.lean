import Kvtsjl.Lib.Chunks

/-
  Frames of a format that is read from the front.
  `Format` says what reading depends on: bytes that follow do not change what was read
  before them. A reader of one frame takes the bytes in chunks, gives out what it can read
  of them, and keeps what comes after the frame. Wherever the bytes are cut, it gives out
  what the first frame holds, all or as much as is there (`reader_whole`). `all` reads
  frame after frame.
-/

namespace Frames

open Chunks

variable {I O E : Type}

/-- What is read from the start of a frame: all it holds and what follows it, as much of
    it as is there, or no frame. -/
inductive Scan (I O : Type) where
  | complete (data : List O) (rest : List I)
  | unfinished (data : List O)
  | corrupt

/-- A format of frames. One that has not ended ends in what follows, if it does. -/
structure Format (I O : Type) where
  scan : List I → Scan I O
  empty : scan [] = .unfinished []
  complete : ∀ {xs data rest} (ys), scan xs = .complete data rest → scan (xs ++ ys) = .complete data (rest ++ ys)
  unfinished : ∀ {xs data} (ys), scan xs = .unfinished data →
    (∃ more rest, rest.length < ys.length ∧ scan (xs ++ ys) = .complete (data ++ more) rest) ∨
    (∃ more, scan (xs ++ ys) = .unfinished (data ++ more)) ∨ scan (xs ++ ys) = .corrupt
  corrupt : ∀ {xs} (ys), scan xs = .corrupt → scan (xs ++ ys) = .corrupt

/-- A reader of one frame: what it has taken in of it, or what it found behind it. -/
inductive Reader (I : Type) where
  | opened (fed : List I)
  | ended (unused : List I)

namespace Format

variable (F : Format I O)

/-- What was given out of an unfinished frame. -/
def given (fed : List I) : List O :=
  match F.scan fed with
  | .unfinished data => data
  | _ => []

/-- Take in more bytes, and give out what they add to what was read. -/
def read (refusal : E) : Reader I → List I → Except E (List O × Reader I)
  | .opened fed, bytes =>
    match F.scan (fed ++ bytes) with
    | .complete data rest => .ok (data.drop (F.given fed).length, .ended rest)
    | .unfinished data => .ok (data.drop (F.given fed).length, .opened (fed ++ bytes))
    | .corrupt => .error refusal
  | .ended unused, bytes => .ok ([], .ended (unused ++ bytes))

/-- The reader as a machine. Its flush has nothing left to give out, and does not ask
    whether the frame has ended. -/
def reader (refusal : E) : Machine (Reader I) I O E where
  start := .opened []
  feed := F.read refusal
  flush _ := .ok []

/-- The frame of an open reader has not ended. -/
def Sound : Reader I → Prop
  | .opened fed => ∃ data, F.scan fed = .unfinished data
  | .ended _ => True

variable {F} {refusal : E}

theorem given_of {fed : List I} {data : List O} (h : F.scan fed = .unfinished data) :
    F.given fed = data := by
  unfold given
  rw [h]

/-- No frame is empty. -/
theorem shorter {xs rest : List I} {data : List O} (h : F.scan xs = .complete data rest) :
    rest.length < xs.length := by
  rcases F.unfinished xs F.empty with ⟨more, rest', hlt, hx⟩ | ⟨more, hx⟩ | hx
  · rw [List.nil_append, h] at hx
    rw [(Scan.complete.inj hx).2]
    exact hlt
  · rw [List.nil_append, h] at hx
    cases hx
  · rw [List.nil_append, h] at hx
    cases hx

theorem sound_start : F.Sound (.opened []) := ⟨[], F.empty⟩

theorem drop_given {data more : List O} {fed : List I} (h : F.scan fed = .unfinished data) :
    (data ++ more).drop (F.given fed).length = more := by
  rw [given_of h, List.drop_left]

theorem read_complete {fed xs rest : List I} {data : List O}
    (h : F.scan (fed ++ xs) = .complete data rest) : F.read refusal (.opened fed) xs =
      .ok (data.drop (F.given fed).length, .ended rest) := by
  rw [read, h]

theorem read_unfinished {fed xs : List I} {data : List O} (h : F.scan (fed ++ xs) = .unfinished data) :
    F.read refusal (.opened fed) xs = .ok (data.drop (F.given fed).length, .opened (fed ++ xs)) := by
  rw [read, h]

theorem read_corrupt {fed xs : List I} (h : F.scan (fed ++ xs) = .corrupt) :
    F.read refusal (.opened fed) xs = .error refusal := by
  rw [read, h]

/-- How far two chunks get is how far their bytes do, whatever was given out before. -/
theorem read_append {fed : List I} (hfed : F.Sound (.opened fed)) (xs ys : List I) :
    F.read refusal (.opened fed) (xs ++ ys) = do
      let (out, s') ← F.read refusal (.opened fed) xs
      let (out', s'') ← F.read refusal s' ys
      return (out ++ out', s'') := by
  obtain ⟨data, hdata⟩ := hfed
  have hassoc : fed ++ (xs ++ ys) = fed ++ xs ++ ys := (List.append_assoc fed xs ys).symm
  rcases F.unfinished xs hdata with ⟨more, rest, -, hx⟩ | ⟨more, hx⟩ | hx
  · have hall := F.complete ys hx
    rw [← hassoc] at hall
    rw [read_complete hall, read_complete hx]
    show Except.ok _ = Except.ok _
    rw [List.append_nil]
  · rw [read_unfinished hx]
    show _ = F.read refusal (.opened (fed ++ xs)) ys >>= _
    rcases F.unfinished ys hx with ⟨more', rest, -, hy⟩ | ⟨more', hy⟩ | hy
    · rw [read_complete hy]
      rw [← hassoc] at hy
      rw [read_complete hy]
      show Except.ok _ = Except.ok _
      rw [drop_given hx, drop_given hdata, List.append_assoc, drop_given hdata]
    · rw [read_unfinished hy]
      rw [← hassoc] at hy
      rw [read_unfinished hy]
      show Except.ok _ = Except.ok _
      rw [drop_given hx, drop_given hdata, List.append_assoc, drop_given hdata, hassoc]
    · rw [read_corrupt hy]
      rw [← hassoc] at hy
      rw [read_corrupt hy]
      rfl
  · have hall := F.corrupt ys hx
    rw [← hassoc] at hall
    rw [read_corrupt hall, read_corrupt hx]
    rfl

theorem reader_chunked : (F.reader refusal).Chunked F.Sound where
  nil := by
    intro s hs
    cases s with
    | ended unused => exact congrArg (fun u => Except.ok ([], Reader.ended u)) (List.append_nil unused)
    | opened fed =>
      obtain ⟨data, hdata⟩ := hs
      have hnil : F.scan (fed ++ []) = .unfinished data := by rw [List.append_nil, hdata]
      show F.read refusal (.opened fed) [] = _
      rw [read_unfinished hnil, given_of hdata, List.drop_length, List.append_nil]
  append := by
    intro s xs ys hs
    cases s with
    | ended unused => exact congrArg (fun u => Except.ok ([], Reader.ended u)) (List.append_assoc unused xs ys).symm
    | opened fed => exact read_append hs xs ys
  keeps := by
    intro s xs out s' hs h
    cases s with
    | ended unused =>
      rw [← (Prod.mk.inj (Except.ok.inj h)).2]
      trivial
    | opened fed =>
      change F.read refusal (.opened fed) xs = .ok (out, s') at h
      cases hx : F.scan (fed ++ xs) with
      | complete data rest =>
        rw [read_complete hx] at h
        rw [← (Prod.mk.inj (Except.ok.inj h)).2]
        trivial
      | unfinished data =>
        rw [read_unfinished hx] at h
        rw [← (Prod.mk.inj (Except.ok.inj h)).2]
        exact ⟨data, hx⟩
      | corrupt =>
        rw [read_corrupt hx] at h
        cases h

/-- What the reader makes of the whole: what the first frame holds, as far as it is there. -/
theorem reader_whole (xs : List I) : (F.reader refusal).whole (.opened []) xs =
    match F.scan xs with
    | .complete data _ => .ok data
    | .unfinished data => .ok data
    | .corrupt => .error refusal := by
  have hgiven : F.given [] = [] := given_of F.empty
  unfold Machine.whole
  show F.read refusal (.opened []) xs >>= _ = _
  cases h : F.scan xs with
  | complete data rest =>
    rw [read_complete h, hgiven]
    exact congrArg Except.ok (List.append_nil data)
  | unfinished data =>
    rw [read_unfinished h, hgiven]
    exact congrArg Except.ok (List.append_nil data)
  | corrupt =>
    rw [read_corrupt h]
    rfl

/-! ## Frame after frame -/

variable (F) in
/-- All that the frames hold, one after the other, with what is skipped between them. A
    frame that has not ended, or is none, refuses them all. -/
def all (skip : I → Bool) (xs : List I) : Option (List O) :=
  if xs = [] then some []
  else match _hscan : F.scan xs with
    | .complete data rest => (all skip (rest.dropWhile skip)).map fun more => data ++ more
    | .unfinished _ => none
    | .corrupt => none
termination_by xs.length
decreasing_by exact Nat.lt_of_le_of_lt (List.dropWhile_suffix skip).length_le (shorter _hscan)

theorem all_nil (skip : I → Bool) : F.all skip [] = some [] := by
  rw [all, if_pos rfl]

theorem all_complete {skip : I → Bool} {xs : List I} {data : List O} {rest : List I}
    (h : F.scan xs = .complete data rest) :
    F.all skip xs = (F.all skip (rest.dropWhile skip)).map fun more => data ++ more := by
  have hne : xs ≠ [] := by
    intro hnil
    rw [hnil, F.empty] at h
    cases h
  rw [all, if_neg hne]
  split
  · next data' rest' h' =>
    rw [h] at h'
    obtain ⟨rfl, rfl⟩ := Scan.complete.inj h'
    rfl
  · next h' => rw [h] at h'; cases h'
  · next h' => rw [h] at h'; cases h'

theorem all_refused {skip : I → Bool} {xs : List I} (hne : xs ≠ [])
    (h : ∀ data rest, F.scan xs ≠ .complete data rest) : F.all skip xs = none := by
  rw [all, if_neg hne]
  split
  · next data rest h' => exact absurd h' (h data rest)
  · rfl
  · rfl

/-! ## A format -/

/-- A body of data, each item after a mark, and another mark at its end. -/
def scanBody : List UInt8 → Scan UInt8 UInt8
  | [] => .unfinished []
  | mark :: bytes =>
    if mark = 0 then .complete [] bytes
    else match bytes with
      | [] => .unfinished []
      | byte :: rest =>
        match scanBody rest with
        | .complete data rest => .complete (byte :: data) rest
        | .unfinished data => .unfinished (byte :: data)
        | .corrupt => .corrupt

/-- How a body is written. -/
def body (data : List UInt8) : List UInt8 := (data.flatMap fun byte => [1, byte]) ++ [0]

theorem scanBody_shorter (xs : List UInt8) {data rest : List UInt8} (h : scanBody xs = .complete data rest) :
    rest.length < xs.length := by
  fun_induction scanBody xs generalizing data rest with
  | case1 => cases h
  | case2 bytes =>
    obtain ⟨-, rfl⟩ := Scan.complete.inj h
    exact Nat.lt_succ_self _
  | case3 mark hmark => cases h
  | case4 mark hmark byte bytes data' rest' hscan ih =>
    obtain ⟨-, rfl⟩ := Scan.complete.inj h
    have hlt := ih hscan
    simp only [List.length_cons]
    omega
  | case5 mark hmark byte bytes data' hscan ih => cases h
  | case6 mark hmark byte bytes hscan ih => cases h

theorem scanBody_complete (xs ys : List UInt8) {data rest : List UInt8}
    (h : scanBody xs = .complete data rest) : scanBody (xs ++ ys) = .complete data (rest ++ ys) := by
  fun_induction scanBody xs generalizing data rest with
  | case1 => cases h
  | case2 bytes =>
    obtain ⟨rfl, rfl⟩ := Scan.complete.inj h
    rw [List.cons_append, scanBody.eq_def]
    exact if_pos rfl
  | case3 mark hmark => cases h
  | case4 mark hmark byte bytes data' rest' hscan ih =>
    obtain ⟨rfl, rfl⟩ := Scan.complete.inj h
    rw [List.cons_append, List.cons_append, scanBody, if_neg hmark, ih hscan]
  | case5 mark hmark byte bytes data' hscan ih => cases h
  | case6 mark hmark byte bytes hscan ih => cases h

theorem scanBody_ne_corrupt (xs : List UInt8) : scanBody xs ≠ .corrupt := by
  fun_induction scanBody xs with
  | case6 mark hmark byte bytes hscan ih => exact absurd hscan ih
  | _ => exact fun h => nomatch h

theorem scanBody_unfinished (xs ys : List UInt8) {data : List UInt8} (h : scanBody xs = .unfinished data) :
    (∃ more rest, rest.length < ys.length ∧ scanBody (xs ++ ys) = .complete (data ++ more) rest) ∨
      ∃ more, scanBody (xs ++ ys) = .unfinished (data ++ more) := by
  fun_induction scanBody xs generalizing data with
  | case1 =>
    rw [← Scan.unfinished.inj h]
    cases hz : scanBody ([] ++ ys) with
    | complete more rest => exact .inl ⟨more, rest, scanBody_shorter ys hz, rfl⟩
    | unfinished more => exact .inr ⟨more, rfl⟩
    | corrupt => exact absurd hz (scanBody_ne_corrupt _)
  | case2 bytes => cases h
  | case3 mark hmark =>
    rw [← Scan.unfinished.inj h]
    cases ys with
    | nil => exact .inr ⟨[], by rw [List.append_nil, List.append_nil, scanBody, if_neg hmark]⟩
    | cons byte ys =>
      rw [List.singleton_append, scanBody, if_neg hmark]
      cases hz : scanBody ys with
      | complete more rest =>
        exact .inl ⟨byte :: more, rest, Nat.lt_succ_of_lt (scanBody_shorter ys hz), rfl⟩
      | unfinished more => exact .inr ⟨byte :: more, rfl⟩
      | corrupt => exact absurd hz (scanBody_ne_corrupt ys)
  | case4 mark hmark byte bytes data' rest' hscan ih => cases h
  | case5 mark hmark byte bytes data' hscan ih =>
    rw [← Scan.unfinished.inj h, List.cons_append, List.cons_append, scanBody, if_neg hmark]
    rcases ih hscan with ⟨more, rest, hlt, hmore⟩ | ⟨more, hmore⟩
    · exact .inl ⟨more, rest, hlt, by rw [hmore]; rfl⟩
    · exact .inr ⟨more, by rw [hmore]; rfl⟩
  | case6 mark hmark byte bytes hscan ih => cases h

theorem scanBody_body (data : List UInt8) : scanBody (body data) = .complete data [] := by
  induction data with
  | nil => rfl
  | cons byte data ih =>
    show scanBody (1 :: byte :: body data) = _
    rw [scanBody, if_neg (by decide), ih]

/-- Frames that start with a header. -/
def marked (header : List UInt8) : Format UInt8 UInt8 where
  scan xs :=
    if header <+: xs then scanBody (xs.drop header.length)
    else if xs <+: header then .unfinished []
    else .corrupt
  empty := by
    split
    · rw [List.drop_nil]
      rfl
    · exact if_pos List.nil_prefix
  complete := by
    intro xs data rest ys h
    split at h
    · next hheader =>
      rw [if_pos (hheader.trans (List.prefix_append xs ys)), List.drop_append_of_le_length hheader.length_le]
      exact scanBody_complete _ ys h
    · split at h <;> cases h
  unfinished := by
    intro xs data ys h
    split at h
    · next hheader =>
      rw [if_pos (hheader.trans (List.prefix_append xs ys)), List.drop_append_of_le_length hheader.length_le]
      rcases scanBody_unfinished _ ys h with hdone | hmore
      · exact .inl hdone
      · exact .inr (.inl hmore)
    · split at h
      · next hshort =>
        rw [← Scan.unfinished.inj h]
        split
        · cases hscan : scanBody ((xs ++ ys).drop header.length) with
          | complete data rest =>
            have hlt := scanBody_shorter _ hscan
            have hle := hshort.length_le
            rw [List.length_drop, List.length_append] at hlt
            exact .inl ⟨data, rest, by omega, rfl⟩
          | unfinished data => exact .inr (.inl ⟨data, rfl⟩)
          | corrupt => exact absurd hscan (scanBody_ne_corrupt _)
        · split
          · exact .inr (.inl ⟨[], rfl⟩)
          · exact .inr (.inr rfl)
      · cases h
  corrupt := by
    intro xs ys h
    split at h
    · exact absurd h (scanBody_ne_corrupt _)
    · next hheader =>
      split at h
      · cases h
      · next hshort =>
        have hlong : ¬ xs ++ ys <+: header := fun hp => hshort ((List.prefix_append xs ys).trans hp)
        have hother : ¬ header <+: xs ++ ys := by
          intro hp
          rcases List.prefix_or_prefix_of_prefix hp (List.prefix_append xs ys) with h1 | h2
          · exact hheader h1
          · exact hshort h2
        rw [if_neg hother, if_neg hlong]

theorem marked_scan (header data : List UInt8) :
    (marked header).scan (header ++ body data) = .complete data [] := by
  show (if header <+: header ++ body data then _ else _) = _
  rw [if_pos (List.prefix_append _ _), List.drop_left, scanBody_body]

end Format

end Frames
