import Mathlib.Algebra.GroupWithZero.Nat
import Kvtsjl.Lib.Chunks

/-
  UTF-8, and decoding it in chunks.
  A decoder keeps the bytes of a character that are there until the rest comes. It refuses
  a byte that no character goes on with, and a surrogate is no character. `decode_iff`: it
  makes of whole characters exactly what they encode. Cut anywhere, inside a character
  too, it makes the same of them (`decoder_chunked`).
-/

namespace Utf8

open Chunks

variable {E : Type}

/-- What a string is made of, lone surrogates among them. -/
abbrev CodePoint := Fin 0x110000

instance codePoints : NeZero 0x110000 := ⟨by decide⟩

def Surrogate (c : CodePoint) : Prop := 0xD800 ≤ c.val ∧ c.val < 0xE000

instance : DecidablePred Surrogate := fun _ => inferInstanceAs (Decidable (_ ∧ _))

/-! ## Encoding -/

def encodePoint (c : CodePoint) : List UInt8 :=
  if c.val < 0x80 then [.ofNat c.val]
  else if c.val < 0x800 then [.ofNat (0xC0 + c.val / 64), .ofNat (0x80 + c.val % 64)]
  else if c.val < 0x10000 then
    [.ofNat (0xE0 + c.val / 4096), .ofNat (0x80 + c.val / 64 % 64), .ofNat (0x80 + c.val % 64)]
  else
    [.ofNat (0xF0 + c.val / 262144), .ofNat (0x80 + c.val / 4096 % 64), .ofNat (0x80 + c.val / 64 % 64),
      .ofNat (0x80 + c.val % 64)]

/-- No surrogate can be encoded. -/
def encode : List CodePoint → Option (List UInt8)
  | [] => some []
  | c :: cs => if Surrogate c then none else (encode cs).map fun bytes => encodePoint c ++ bytes

theorem encode_append (xs ys : List CodePoint) :
    encode (xs ++ ys) = (encode xs).bind fun bytes => (encode ys).map fun more => bytes ++ more := by
  induction xs with
  | nil => simp [encode]
  | cons c cs ih =>
    rw [List.cons_append, encode, encode]
    split
    · rfl
    · rw [ih]
      cases encode cs <;> cases encode ys <;> simp

/-! ## Decoding -/

/-- What a byte makes of the bytes of a character before it. -/
inductive Step where
  | point (c : CodePoint)
  | more
  | refused

/-- A byte that goes on. -/
def Tail (b : UInt8) : Prop := 0x80 ≤ b.toNat ∧ b.toNat < 0xC0

instance : DecidablePred Tail := fun _ => inferInstanceAs (Decidable (_ ∧ _))

/-- A byte that goes on after the first byte `a`: no longer form than needed, no surrogate,
    and nothing above the last code point. -/
def Second (a b : UInt8) : Prop :=
  Tail b ∧ (a.toNat = 0xE0 → 0xA0 ≤ b.toNat) ∧ (a.toNat = 0xED → b.toNat < 0xA0) ∧
    (a.toNat = 0xF0 → 0x90 ≤ b.toNat) ∧ (a.toNat = 0xF4 → b.toNat < 0x90)

instance (a : UInt8) : DecidablePred (Second a) := fun _ => inferInstanceAs (Decidable (_ ∧ _))

def step : List UInt8 → UInt8 → Step
  | [], a =>
    if a.toNat < 0x80 then .point (.ofNat _ a.toNat)
    else if 0xC2 ≤ a.toNat ∧ a.toNat ≤ 0xF4 then .more
    else .refused
  | [a], b =>
    if ¬ Second a b then .refused
    else if a.toNat < 0xE0 then .point (.ofNat _ ((a.toNat - 0xC0) * 64 + (b.toNat - 0x80)))
    else .more
  | [a, b], c =>
    if ¬ Tail c then .refused
    else if a.toNat < 0xF0 then
      .point (.ofNat _ ((a.toNat - 0xE0) * 4096 + (b.toNat - 0x80) * 64 + (c.toNat - 0x80)))
    else .more
  | [a, b, c], d =>
    if ¬ Tail d then .refused
    else .point (.ofNat _ ((a.toNat - 0xF0) * 262144 + (b.toNat - 0x80) * 4096 + (c.toNat - 0x80) * 64 +
      (d.toNat - 0x80)))
  | _, _ => .refused

/-- The characters the bytes end, after those kept, and the bytes kept at their end. -/
def decode : List UInt8 → List UInt8 → Option (List CodePoint × List UInt8)
  | kept, [] => some ([], kept)
  | kept, b :: bytes =>
    match step kept b with
    | .point c => (decode [] bytes).map fun r => (c :: r.1, r.2)
    | .more => decode (kept ++ [b]) bytes
    | .refused => none

theorem decode_append (kept xs ys : List UInt8) :
    decode kept (xs ++ ys) = (decode kept xs).bind fun r =>
      (decode r.2 ys).map fun r' => (r.1 ++ r'.1, r'.2) := by
  induction xs generalizing kept with
  | nil => simp [decode]
  | cons b bytes ih =>
    rw [List.cons_append, decode, decode]
    cases step kept b with
    | point c =>
      simp only
      rw [ih]
      cases decode [] bytes with
      | none => rfl
      | some r => cases h : decode r.2 ys <;> simp [h]
    | more => exact ih (kept ++ [b])
    | refused => rfl

/-- The bytes a character was kept of. -/
def Kept : List UInt8 → Prop
  | [] => True
  | [a] => 0xC2 ≤ a.toNat ∧ a.toNat ≤ 0xF4
  | [a, b] => 0xE0 ≤ a.toNat ∧ a.toNat ≤ 0xF4 ∧ Second a b
  | [a, b, c] => 0xF0 ≤ a.toNat ∧ a.toNat ≤ 0xF4 ∧ Second a b ∧ Tail c
  | _ => False

theorem kept_more {kept : List UInt8} {b : UInt8} (hk : Kept kept) (h : step kept b = .more) :
    Kept (kept ++ [b]) := by
  match kept with
  | [] =>
    rw [step] at h
    split at h
    · cases h
    · split at h
      · next hb => exact hb
      · cases h
  | [a] =>
    rw [step] at h
    split at h
    · cases h
    · next hsecond =>
      split at h
      · cases h
      · next ha => exact ⟨by omega, hk.2, not_not.mp hsecond⟩
  | [a, x] =>
    rw [step] at h
    split at h
    · cases h
    · next htail =>
      split at h
      · cases h
      · next ha => exact ⟨by omega, hk.2.1, hk.2.2, not_not.mp htail⟩
  | [a, x, y] =>
    rw [step] at h
    split at h <;> cases h
  | _ :: _ :: _ :: _ :: _ => exact hk.elim

theorem val_ofNat {n : Nat} (h : n < 0x110000) : (Fin.ofNat 0x110000 n).val = n := Nat.mod_eq_of_lt h

theorem ofNat_eq {n : Nat} {b : UInt8} (h : n = b.toNat) : UInt8.ofNat n = b := by
  rw [h, UInt8.ofNat_toNat]

/-- The byte that ends a character ends the bytes it is encoded as. -/
theorem encode_point {kept : List UInt8} {b : UInt8} {c : CodePoint} (hk : Kept kept)
    (h : step kept b = .point c) : ¬ Surrogate c ∧ encodePoint c = kept ++ [b] := by
  have hb := b.toNat_lt
  match kept with
  | [] =>
    rw [step] at h
    split at h
    · next hlt =>
      have hc : c.val = b.toNat := by rw [← Step.point.inj h, val_ofNat (by omega)]
      unfold Surrogate encodePoint
      rw [hc, if_pos hlt, ofNat_eq rfl]
      exact ⟨by omega, rfl⟩
    · split at h <;> cases h
  | [a] =>
    rw [step] at h
    split at h
    · cases h
    · next hsecond =>
      obtain ⟨ha, -⟩ := hk
      obtain ⟨⟨htail, htail'⟩, -⟩ := not_not.mp hsecond
      split at h
      · next hlt =>
        have hc : c.val = (a.toNat - 0xC0) * 64 + (b.toNat - 0x80) := by
          rw [← Step.point.inj h, val_ofNat (by omega)]
        unfold Surrogate encodePoint
        rw [if_neg (by omega), if_pos (by omega), ofNat_eq (b := a) (by omega), ofNat_eq (b := b) (by omega)]
        exact ⟨by omega, rfl⟩
      · cases h
  | [a, x] =>
    rw [step] at h
    split at h
    · cases h
    · next htailb =>
      obtain ⟨ha, -, ⟨⟨hx, hx'⟩, he0, hed, -⟩⟩ := hk
      obtain ⟨htail, htail'⟩ := not_not.mp htailb
      split at h
      · next hlt =>
        have hc : c.val = (a.toNat - 0xE0) * 4096 + (x.toNat - 0x80) * 64 + (b.toNat - 0x80) := by
          rw [← Step.point.inj h, val_ofNat (by omega)]
        unfold Surrogate encodePoint
        rw [if_neg (by omega), if_neg (by omega), if_pos (by omega), ofNat_eq (b := a) (by omega),
          ofNat_eq (b := x) (by omega), ofNat_eq (b := b) (by omega)]
        exact ⟨by omega, rfl⟩
      · cases h
  | [a, x, y] =>
    rw [step] at h
    split at h
    · cases h
    · next htailb =>
      obtain ⟨ha, ha', ⟨⟨hx, hx'⟩, -, -, hf0, hf4⟩, hy, hy'⟩ := hk
      obtain ⟨htail, htail'⟩ := not_not.mp htailb
      have hc : c.val = (a.toNat - 0xF0) * 262144 + (x.toNat - 0x80) * 4096 + (y.toNat - 0x80) * 64 +
          (b.toNat - 0x80) := by
        rw [← Step.point.inj h, val_ofNat (by omega)]
      unfold Surrogate encodePoint
      rw [if_neg (by omega), if_neg (by omega), if_neg (by omega), ofNat_eq (b := a) (by omega),
        ofNat_eq (b := x) (by omega), ofNat_eq (b := y) (by omega), ofNat_eq (b := b) (by omega)]
      exact ⟨by omega, rfl⟩
  | _ :: _ :: _ :: _ :: _ => exact hk.elim

theorem toNat_of {n : Nat} (h : n < 256) : (UInt8.ofNat n).toNat = n := by
  rw [UInt8.toNat_ofNat', Nat.mod_eq_of_lt h]

theorem ofNat_point {c : CodePoint} {n : Nat} (h : n = c.val) : Fin.ofNat 0x110000 n = c := by
  rw [h]
  exact Fin.ext (Nat.mod_eq_of_lt c.isLt)

theorem decode_more {kept : List UInt8} {b : UInt8} (bytes : List UInt8) (h : step kept b = .more) :
    decode kept (b :: bytes) = decode (kept ++ [b]) bytes := by
  rw [decode, h]

theorem decode_point {kept : List UInt8} {b : UInt8} {c : CodePoint} (bytes : List UInt8)
    (h : step kept b = .point c) :
    decode kept (b :: bytes) = (decode [] bytes).map fun r => (c :: r.1, r.2) := by
  rw [decode, h]

/-- The bytes of a character make that character. -/
theorem decode_encodePoint {c : CodePoint} (hc : ¬ Surrogate c) (bytes : List UInt8) :
    decode [] (encodePoint c ++ bytes) = (decode [] bytes).map fun r => (c :: r.1, r.2) := by
  have hlt := c.isLt
  unfold Surrogate at hc
  unfold encodePoint
  split
  · next h1 =>
    refine decode_point bytes ?_
    rw [step, toNat_of (by omega), if_pos h1, ofNat_point rfl]
  split
  · next h1 h2 =>
    have ha := toNat_of (n := 0xC0 + c.val / 64) (by omega)
    have hb := toNat_of (n := 0x80 + c.val % 64) (by omega)
    refine (decode_more _ ?_).trans (decode_point bytes ?_)
    · rw [step, ha, if_neg (by omega), if_pos (by omega)]
    · rw [List.nil_append, step, if_neg, if_pos (by omega), ha, hb, ofNat_point (c := c) (by omega)]
      unfold Second Tail
      rw [ha, hb]
      omega
  split
  · next h1 h2 h3 =>
    have ha := toNat_of (n := 0xE0 + c.val / 4096) (by omega)
    have hx := toNat_of (n := 0x80 + c.val / 64 % 64) (by omega)
    have hb := toNat_of (n := 0x80 + c.val % 64) (by omega)
    refine (decode_more _ ?_).trans ((decode_more _ ?_).trans (decode_point bytes ?_))
    · rw [step, ha, if_neg (by omega), if_pos (by omega)]
    · rw [List.nil_append, step, if_neg, if_neg (by omega)]
      unfold Second Tail
      rw [ha, hx]
      omega
    · rw [List.nil_append, List.singleton_append, step, if_neg, if_pos (by omega), ha, hx, hb,
        ofNat_point (c := c) (by omega)]
      unfold Tail
      rw [hb]
      omega
  · next h1 h2 h3 =>
    have ha := toNat_of (n := 0xF0 + c.val / 262144) (by omega)
    have hx := toNat_of (n := 0x80 + c.val / 4096 % 64) (by omega)
    have hy := toNat_of (n := 0x80 + c.val / 64 % 64) (by omega)
    have hb := toNat_of (n := 0x80 + c.val % 64) (by omega)
    refine (decode_more _ ?_).trans ((decode_more _ ?_).trans ((decode_more _ ?_).trans
      (decode_point bytes ?_)))
    · rw [step, ha, if_neg (by omega), if_pos (by omega)]
    · rw [List.nil_append, step, if_neg, if_neg (by omega)]
      unfold Second Tail
      rw [ha, hx]
      omega
    · rw [List.nil_append, List.singleton_append, step, if_neg, if_neg (by omega)]
      unfold Tail
      rw [hy]
      omega
    · show step [_, _, _] _ = _
      rw [step, if_neg, ha, hx, hy, hb, ofNat_point (c := c) (by omega)]
      unfold Tail
      rw [hb]
      omega

theorem decode_encode {cs : List CodePoint} {bytes : List UInt8} (h : encode cs = some bytes) :
    decode [] bytes = some (cs, []) := by
  induction cs generalizing bytes with
  | nil =>
    rw [← Option.some.inj h]
    rfl
  | cons c cs ih =>
    rw [encode] at h
    split at h
    · cases h
    · next hc =>
      obtain ⟨rest, hrest, rfl⟩ := Option.map_eq_some_iff.mp h
      rw [decode_encodePoint hc, ih hrest]
      rfl

theorem encode_decode {kept bytes : List UInt8} {cs : List CodePoint} (hk : Kept kept)
    (h : decode kept bytes = some (cs, [])) : encode cs = some (kept ++ bytes) := by
  induction bytes generalizing kept cs with
  | nil =>
    obtain ⟨rfl, rfl⟩ := Prod.mk.inj (Option.some.inj h)
    rfl
  | cons b bytes ih =>
    cases hstep : step kept b with
    | point c =>
      rw [decode_point bytes hstep] at h
      obtain ⟨⟨ds, left⟩, hrest, hr⟩ := Option.map_eq_some_iff.mp h
      obtain ⟨rfl, rfl⟩ := Prod.mk.inj hr
      obtain ⟨hc, hbytes⟩ := encode_point hk hstep
      have hnil : Kept [] := trivial
      have hds : encode ds = some bytes := ih hnil hrest
      rw [encode, if_neg hc, hds, hbytes, Option.map_some, List.append_assoc]
      rfl
    | more =>
      rw [decode_more bytes hstep] at h
      rw [ih (kept_more hk hstep) h, List.append_assoc]
      rfl
    | refused =>
      rw [decode, hstep] at h
      cases h

/-- Bytes decode to the one string that encodes to them. -/
theorem decode_iff {bytes : List UInt8} {cs : List CodePoint} :
    decode [] bytes = some (cs, []) ↔ encode cs = some bytes :=
  ⟨@encode_decode [] bytes cs trivial, decode_encode⟩

/-! ## The machines -/

/-- The incremental encoder. It keeps nothing. -/
def encoder (refusal : E) : Machine Unit CodePoint UInt8 E where
  start := ()
  feed _ chunk := (encode chunk).elim (.error refusal) fun bytes => .ok (bytes, ())
  flush _ := .ok []

/-- The incremental decoder. It keeps the bytes of a character that has not ended, and
    refuses them at the end. -/
def decoder (refusal : E) : Machine (List UInt8) UInt8 CodePoint E where
  start := []
  feed kept chunk := (decode kept chunk).elim (.error refusal) .ok
  flush kept := if kept = [] then .ok [] else .error refusal

theorem encoder_chunked (refusal : E) : (encoder refusal).Chunked fun _ => True where
  nil _ := rfl
  keeps _ _ := trivial
  append := by
    intro s xs ys _
    show (encode (xs ++ ys)).elim _ _ = _
    rw [encode_append]
    show _ = ((encode xs).elim (Except.error refusal) fun bytes => Except.ok (bytes, ())) >>= _
    cases encode xs with
    | none => rfl
    | some bytes =>
      show _ = ((encode ys).elim (Except.error refusal) fun more => Except.ok (more, ())) >>= _
      cases encode ys <;> rfl

theorem decoder_chunked (refusal : E) : (decoder refusal).Chunked fun _ => True where
  nil _ := rfl
  keeps _ _ := trivial
  append := by
    intro s xs ys _
    show (decode s (xs ++ ys)).elim _ _ = (decode s xs).elim (Except.error refusal) Except.ok >>= _
    rw [decode_append]
    cases decode s xs with
    | none => rfl
    | some r =>
      show ((decode r.2 ys).map _).elim _ _ = (decode r.2 ys).elim (Except.error refusal) Except.ok >>= _
      cases decode r.2 ys <;> rfl

/-- Whole, the decoder reads the one string that encodes to the bytes. -/
theorem decoder_whole_iff {refusal : E} {bytes : List UInt8} {cs : List CodePoint} :
    (decoder refusal).whole [] bytes = .ok cs ↔ encode cs = some bytes := by
  rw [← decode_iff]
  show ((decode [] bytes).elim (Except.error refusal) Except.ok >>= _) = _ ↔ _
  cases h : decode [] bytes with
  | none => exact iff_of_false (fun h => nomatch h) (fun h => nomatch h)
  | some r =>
    obtain ⟨ds, left⟩ := r
    show ((if left = [] then Except.ok [] else Except.error refusal) >>= fun tail => pure (ds ++ tail)) = _ ↔ _
    by_cases hleft : left = []
    · rw [if_pos hleft, hleft]
      show Except.ok (ds ++ []) = Except.ok cs ↔ some (ds, []) = some (cs, [])
      rw [List.append_nil]
      constructor
      · intro h
        rw [Except.ok.inj h]
      · intro h
        rw [(Prod.mk.inj (Option.some.inj h)).1]
    · rw [if_neg hleft]
      exact iff_of_false (fun h => nomatch h) fun h => hleft (Prod.mk.inj (Option.some.inj h)).2

end Utf8
