import Mathlib.Data.List.Basic

/-
  Percent encoding of bytes. A byte of the unreserved characters stays, any other becomes
  a percent sign and two digits. No code begins another one, so the bytes can be read back,
  and `decode` reads them.
-/

namespace Percent

/-- Letters, digits and `_.-~`. -/
def unreserved (n : Nat) : Bool :=
  (0x30 ≤ n && n ≤ 0x39) || (0x41 ≤ n && n ≤ 0x5A) || (0x61 ≤ n && n ≤ 0x7A) ||
    n == 0x5F || n == 0x2E || n == 0x2D || n == 0x7E

/-- A digit, in capitals. -/
def hexDigit (n : Nat) : Char := Char.ofNat (if n < 10 then 0x30 + n else 0x37 + n)

def encodeByte (b : UInt8) : List Char :=
  if unreserved b.toNat then [Char.ofNat b.toNat]
  else ['%', hexDigit (b.toNat / 16), hexDigit (b.toNat % 16)]

def encode (bytes : List UInt8) : List Char := bytes.flatMap encodeByte

/-! ## Reading back -/

theorem unreserved_lt {n : Nat} (h : unreserved n = true) : n < 128 ∧ n ≠ 0x25 := by
  unfold unreserved at h
  simp only [Bool.or_eq_true, Bool.and_eq_true, decide_eq_true_eq, beq_iff_eq] at h
  omega

theorem toNat_ofNat {n : Nat} (h : n < 128) : (Char.ofNat n).toNat = n := by
  have hvalid : n.isValidChar := .inl (by omega)
  unfold Char.ofNat
  rw [dif_pos hvalid]
  rfl

theorem ofNat_ne_mark {n : Nat} (h : unreserved n = true) : Char.ofNat n ≠ '%' := by
  intro he
  obtain ⟨hlt, hne⟩ := unreserved_lt h
  have hcode := congrArg Char.toNat he
  rw [toNat_ofNat hlt] at hcode
  exact hne hcode

theorem hexDigit_injective {m n : Nat} (hm : m < 16) (hn : n < 16) (h : hexDigit m = hexDigit n) : m = n := by
  unfold hexDigit at h
  have hcode := congrArg Char.toNat h
  rw [toNat_ofNat (by split <;> omega), toNat_ofNat (by split <;> omega)] at hcode
  split at hcode <;> split at hcode <;> omega

theorem encodeByte_ne_nil (b : UInt8) : encodeByte b ≠ [] := by
  unfold encodeByte
  split <;> simp

/-- A byte's code ends where it ends, whatever follows. -/
theorem encodeByte_append_inj {a b : UInt8} {x y : List Char}
    (h : encodeByte a ++ x = encodeByte b ++ y) : a = b ∧ x = y := by
  unfold encodeByte at h
  by_cases ha : unreserved a.toNat = true
  · by_cases hb : unreserved b.toNat = true
    · rw [if_pos ha, if_pos hb, List.singleton_append, List.singleton_append, List.cons.injEq] at h
      have hcode := congrArg Char.toNat h.1
      rw [toNat_ofNat (unreserved_lt ha).1, toNat_ofNat (unreserved_lt hb).1] at hcode
      exact ⟨UInt8.toNat_inj.mp hcode, h.2⟩
    · rw [if_pos ha, if_neg hb, List.singleton_append, List.cons_append, List.cons.injEq] at h
      exact absurd h.1 (ofNat_ne_mark ha)
  · by_cases hb : unreserved b.toNat = true
    · rw [if_neg ha, if_pos hb, List.singleton_append, List.cons_append, List.cons.injEq] at h
      exact absurd h.1.symm (ofNat_ne_mark hb)
    · rw [if_neg ha, if_neg hb] at h
      simp only [List.cons_append, List.nil_append, List.cons.injEq, true_and] at h
      obtain ⟨hhigh, hlow, hrest⟩ := h
      have hlta : a.toNat < 256 := UInt8.toNat_lt_size a
      have hltb : b.toNat < 256 := UInt8.toNat_lt_size b
      have hdiv : a.toNat / 16 = b.toNat / 16 := hexDigit_injective (by omega) (by omega) hhigh
      have hmod : a.toNat % 16 = b.toNat % 16 := hexDigit_injective (by omega) (by omega) hlow
      exact ⟨UInt8.toNat_inj.mp (by omega), hrest⟩

theorem encode_injective : Function.Injective encode := by
  intro s
  induction s with
  | nil =>
    intro t h
    cases t with
    | nil => rfl
    | cons b t =>
      unfold encode at h
      rw [List.flatMap_cons, List.flatMap_nil] at h
      exact absurd (List.append_eq_nil_iff.mp h.symm).1 (encodeByte_ne_nil b)
  | cons a s ih =>
    intro t h
    unfold encode at h
    cases t with
    | nil =>
      rw [List.flatMap_cons, List.flatMap_nil] at h
      exact absurd (List.append_eq_nil_iff.mp h).1 (encodeByte_ne_nil a)
    | cons b t =>
      rw [List.flatMap_cons, List.flatMap_cons] at h
      obtain ⟨hab, hrest⟩ := encodeByte_append_inj h
      rw [hab, ih hrest]

/-! ## Decoding -/

/-- The value of a digit, in capitals or not. -/
def hexValue (c : Char) : Option Nat :=
  let n := c.toNat
  if 0x30 ≤ n && n ≤ 0x39 then some (n - 0x30)
  else if 0x41 ≤ n && n ≤ 0x46 then some (n - 0x37)
  else if 0x61 ≤ n && n ≤ 0x66 then some (n - 0x57)
  else none

/-- The byte of the two digits a text begins with. -/
def hexPair : List Char → Option UInt8
  | a :: b :: _ => do
    let high ← hexValue a
    let low ← hexValue b
    some (UInt8.ofNat (16 * high + low))
  | _ => none

/-- Skip `k` digits that a code has consumed, then go on decoding. -/
def decodeFrom : Nat → List Char → List UInt8
  | _, [] => []
  | k + 1, _ :: rest => decodeFrom k rest
  | 0, c :: rest =>
    if c = '%' then
      match hexPair rest with
      | some b => b :: decodeFrom 2 rest
      | none => 0x25 :: decodeFrom 0 rest
    else UInt8.ofNat c.toNat :: decodeFrom 0 rest

/-- The bytes of a text of ASCII. A percent sign with no digits stands for itself. -/
def decode (text : List Char) : List UInt8 := decodeFrom 0 text

theorem hexDigit_lt {n : Nat} (h : n < 16) : (hexDigit n).toNat < 128 := by
  unfold hexDigit
  rw [toNat_ofNat (by split <;> omega)]
  split <;> omega

theorem hexValue_hexDigit {n : Nat} (h : n < 16) : hexValue (hexDigit n) = some n := by
  unfold hexValue hexDigit
  simp only
  rw [toNat_ofNat (by split <;> omega)]
  by_cases hn : n < 10
  · rw [if_pos hn, if_pos (by simp; omega)]
    exact congrArg some (by omega)
  · rw [if_neg hn, if_neg (by simp; omega), if_pos (by simp; omega)]
    exact congrArg some (by omega)

theorem decode_encodeByte (b : UInt8) (rest : List Char) :
    decode (encodeByte b ++ rest) = b :: decode rest := by
  have hlt : b.toNat < 256 := UInt8.toNat_lt_size b
  unfold encodeByte
  split
  · next h =>
    show decodeFrom 0 (Char.ofNat b.toNat :: rest) = _
    rw [decodeFrom, if_neg (ofNat_ne_mark h), toNat_ofNat (unreserved_lt h).1, UInt8.ofNat_toNat]
    rfl
  · have hhigh : b.toNat / 16 < 16 := by omega
    have hlow : b.toNat % 16 < 16 := by omega
    have hbyte : 16 * (b.toNat / 16) + b.toNat % 16 = b.toNat := by omega
    have hpair : hexPair (hexDigit (b.toNat / 16) :: hexDigit (b.toNat % 16) :: rest) = some b := by
      rw [hexPair, hexValue_hexDigit hhigh, hexValue_hexDigit hlow]
      show some (UInt8.ofNat (16 * (b.toNat / 16) + b.toNat % 16)) = some b
      rw [hbyte, UInt8.ofNat_toNat]
    show decodeFrom 0 ('%' :: hexDigit (b.toNat / 16) :: hexDigit (b.toNat % 16) :: rest) = _
    rw [decodeFrom, if_pos rfl, hpair]
    rfl

/-- Decoding gives the bytes back. -/
theorem decode_encode (bytes : List UInt8) : decode (encode bytes) = bytes := by
  induction bytes with
  | nil => rfl
  | cons b bytes ih =>
    show decode (encodeByte b ++ encode bytes) = b :: bytes
    rw [decode_encodeByte, ih]

/-- A text with no percent sign stands for itself. -/
theorem decode_of_plain {text : List Char} (h : '%' ∉ text) :
    decode text = text.map fun c => UInt8.ofNat c.toNat := by
  induction text with
  | nil => rfl
  | cons c text ih =>
    rw [List.mem_cons, not_or] at h
    show decodeFrom 0 (c :: text) = _
    rw [decodeFrom, if_neg (fun hc => h.1 hc.symm)]
    exact congrArg (UInt8.ofNat c.toNat :: ·) (ih h.2)

/-- Encoded text is ASCII. -/
theorem lt_of_mem_encode {bytes : List UInt8} {c : Char} (h : c ∈ encode bytes) : c.toNat < 128 := by
  obtain ⟨b, -, hc⟩ := List.mem_flatMap.mp h
  have hlt : b.toNat < 256 := UInt8.toNat_lt_size b
  unfold encodeByte at hc
  split at hc
  · next hplain =>
    rw [List.mem_singleton.mp hc, toNat_ofNat (unreserved_lt hplain).1]
    exact (unreserved_lt hplain).1
  · rcases List.mem_cons.mp hc with rfl | hc
    · decide
    · rcases List.mem_cons.mp hc with rfl | hc
      · exact hexDigit_lt (by omega)
      · rw [List.mem_singleton.mp hc]
        exact hexDigit_lt (by omega)

/-- A code has no backslash. -/
theorem backslash_not_mem_encodeByte (b : UInt8) : '\\' ∉ encodeByte b := by
  have hlt : b.toNat < 256 := UInt8.toNat_lt_size b
  have hdigit : ∀ {n : Nat}, n < 16 → hexDigit n ≠ '\\' := by
    intro n hn h
    have hvalue := hexValue_hexDigit hn
    rw [h] at hvalue
    exact absurd hvalue (by simp [hexValue])
  unfold encodeByte
  split
  · next h =>
    intro hmem
    have hcode := congrArg Char.toNat (List.mem_singleton.mp hmem)
    rw [toNat_ofNat (unreserved_lt h).1] at hcode
    rw [← hcode] at h
    exact absurd h (by decide)
  · intro hmem
    rcases List.mem_cons.mp hmem with h | hmem
    · exact absurd h (by decide)
    · rcases List.mem_cons.mp hmem with h | hmem
      · exact hdigit (by omega) h.symm
      · exact hdigit (by omega) (List.mem_singleton.mp hmem).symm

end Percent
