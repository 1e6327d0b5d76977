/-
  Text with a separator escaped.
  `replace` is the usual left-to-right replacement of a pattern. `escape` takes a separator out of
  a text by replacing the escape character, then the separator, by longer codes, and `unescape`
  puts it back (`undone`). Where the separator has no escape character in it, an escaped text with
  the separator behind it is told from any other (`escape_append_inj`), unless the separator begins
  as it ends.
-/
import Kvtsjl.Lib.Delimited

namespace Delimited

variable {α : Type} [DecidableEq α]

/-! ## Replacement -/

/-- Skip `k` characters that a match has consumed, then go on replacing. -/
def replaceFrom (old new : List α) : Nat → List α → List α
  | _, [] => []
  | k + 1, _ :: rest => replaceFrom old new k rest
  | 0, a :: rest =>
    if old <+: a :: rest then new ++ replaceFrom old new (old.length - 1) rest
    else a :: replaceFrom old new 0 rest

/-- Every occurrence of the non-empty `old`, from the left, becomes `new`. -/
def replace (old new text : List α) : List α := replaceFrom old new 0 text

theorem replace_cons (old new : List α) (a : α) (rest : List α) :
    replace old new (a :: rest) =
      if old <+: a :: rest then new ++ replaceFrom old new (old.length - 1) rest
      else a :: replace old new rest := rfl

/-- A character that does not begin the pattern stays. -/
theorem replace_cons_of_ne {x a : α} (h : a ≠ x) (old new rest : List α) :
    replace (x :: old) new (a :: rest) = a :: replace (x :: old) new rest := by
  rw [replace_cons, if_neg]
  rw [List.cons_prefix_cons]
  exact fun hp => h hp.1.symm

/-- Replacing one character is done character by character. -/
theorem replace_singleton (x : α) (new text : List α) :
    replace [x] new text = text.flatMap fun c => if c = x then new else [c] := by
  induction text with
  | nil => rfl
  | cons a text ih =>
    rw [List.flatMap_cons, ← ih]
    by_cases h : a = x
    · subst h
      rw [if_pos rfl, replace_cons, if_pos (by simp)]
      rfl
    · rw [replace_cons_of_ne h, if_neg h]
      rfl

/-- Replacing brings in no character but the new text's. -/
theorem not_mem_replace {x : α} {old new : List α} (hnew : x ∉ new) {text : List α} (h : x ∉ text) :
    x ∉ replace old new text := by
  have hfrom : ∀ (text : List α) (k : Nat), x ∉ text → x ∉ replaceFrom old new k text := by
    intro text
    induction text with
    | nil => exact fun k h => by simp [replaceFrom]
    | cons a text ih =>
      intro k h
      have hrest : x ∉ text := fun hx => h (List.mem_cons_of_mem _ hx)
      cases k with
      | succ k => exact ih k hrest
      | zero =>
        rw [replaceFrom]
        split
        · rw [List.mem_append, not_or]
          exact ⟨hnew, ih _ hrest⟩
        · rw [List.mem_cons, not_or]
          exact ⟨fun hx => h (hx ▸ List.mem_cons_self), ih 0 hrest⟩
  exact hfrom text 0 h

theorem length_replaceFrom {old new : List α} (h : new.length < old.length) (text : List α) (k : Nat) :
    (replaceFrom old new k text).length ≤ text.length - k := by
  induction text generalizing k with
  | nil => simp [replaceFrom]
  | cons a text ih =>
    cases k with
    | succ k =>
      have hrest := ih k
      rw [replaceFrom, List.length_cons]
      omega
    | zero =>
      rw [replaceFrom]
      split
      · next hold =>
        have hlen := hold.length_le
        have hrest := ih (old.length - 1)
        rw [List.length_append, List.length_cons]
        rw [List.length_cons] at hlen
        omega
      · have hrest := ih 0
        rw [List.length_cons, List.length_cons]
        omega

theorem length_replace_lt {old new : List α} (h : new.length < old.length) {text : List α}
    (hold : old <:+: text) : (replace old new text).length < text.length := by
  induction text with
  | nil =>
    have hlen := hold.length_le
    rw [List.length_nil] at hlen
    omega
  | cons a text ih =>
    rw [replace_cons]
    split
    · next hstart =>
      have hlen := hstart.length_le
      have hrest := length_replaceFrom h text (old.length - 1)
      rw [List.length_append, List.length_cons]
      rw [List.length_cons] at hlen
      omega
    · next hstart =>
      have hrest := ih ((List.infix_cons_iff.mp hold).resolve_left hstart)
      rw [List.length_cons, List.length_cons]
      omega

theorem replace_of_not_infix {old text : List α} (h : ¬ old <:+: text) (new : List α) : replace old new text = text := by
  induction text with
  | nil => rfl
  | cons a text ih =>
    rw [List.infix_cons_iff, not_or] at h
    rw [replace_cons, if_neg h.1, ih h.2]

/-- A shorter text in a pattern's place changes nothing exactly where the pattern does not occur. -/
theorem replace_eq_self_iff {old new : List α} (h : new.length < old.length) (text : List α) :
    replace old new text = text ↔ ¬ old <:+: text := by
  constructor
  · intro heq hold
    have hshort := length_replace_lt h hold
    rw [heq] at hshort
    omega
  · intro hnot
    exact replace_of_not_infix hnot new

theorem replaceFrom_eq_drop (old new : List α) (k : Nat) (text : List α) :
    replaceFrom old new k text = replace old new (text.drop k) := by
  induction text generalizing k with
  | nil =>
    rw [List.drop_nil]
    cases k <;> rfl
  | cons a text ih =>
    cases k with
    | zero => rfl
    | succ k => exact ih k

theorem replace_append {old : List α} (h : old ≠ []) (new rest : List α) :
    replace old new (old ++ rest) = new ++ replace old new rest := by
  cases old with
  | nil => exact absurd rfl h
  | cons x old =>
    rw [List.cons_append, replace_cons, ← List.cons_append, if_pos (List.prefix_append _ _), replaceFrom_eq_drop,
      List.length_cons, Nat.add_sub_cancel, List.drop_left]

theorem replace_cons_of_not_old {old : List α} {a : α} {rest : List α} (h : ¬ old <+: a :: rest) (new : List α) :
    replace old new (a :: rest) = a :: replace old new rest := by
  rw [replace_cons, if_neg h]

/-- Characters that do not begin the pattern stay. -/
theorem replace_append_of_not_mem {x : α} {skipped : List α} (h : x ∉ skipped) (old new rest : List α) :
    replace (x :: old) new (skipped ++ rest) = skipped ++ replace (x :: old) new rest := by
  induction skipped with
  | nil => rfl
  | cons a skipped ih =>
    rw [List.mem_cons, not_or] at h
    rw [List.cons_append, replace_cons_of_ne (Ne.symm h.1), ih h.2, List.cons_append]

/-- A text begins with the pattern, or its first character stays, or it is empty. -/
theorem replace_cases {old : List α} (h : old ≠ []) (new text : List α) :
    (∃ rest, text = old ++ rest ∧ replace old new text = new ++ replace old new rest) ∨
      (∃ a rest, text = a :: rest ∧ ¬ old <+: text ∧ replace old new text = a :: replace old new rest) ∨
      text = [] := by
  cases text with
  | nil => exact .inr (.inr rfl)
  | cons a text =>
    by_cases hold : old <+: a :: text
    · obtain ⟨rest, hrest⟩ := hold
      refine .inl ⟨rest, hrest.symm, ?_⟩
      rw [← hrest, replace_append h]
    · exact .inr (.inl ⟨a, text, rfl, hold, replace_cons_of_not_old hold new⟩)

/-- `replace` of any pattern. The empty one stands before every character and at the end. -/
def replaceAll (old new text : List α) : List α :=
  if old = [] then new ++ text.flatMap (fun c => c :: new) else replace old new text

theorem replaceAll_of_ne {old : List α} (h : old ≠ []) (new text : List α) :
    replaceAll old new text = replace old new text := by
  unfold replaceAll
  rw [if_neg h]

theorem replaceAll_nil (text : List α) : replaceAll [] [] text = text := by
  unfold replaceAll
  rw [if_pos rfl, List.nil_append]
  exact List.flatMap_singleton' text

theorem replaceAll_map {β : Type} [DecidableEq β] {f : α → β} (hf : Function.Injective f) (old new text : List α) :
    replaceAll (old.map f) (new.map f) (text.map f) = (replaceAll old new text).map f := by
  have hmapped : ∀ text : List α, old.map f <+: text.map f ↔ old <+: text := by
    intro text
    constructor
    · intro ⟨rest, hrest⟩
      obtain ⟨first, more, htext, hfirst, -⟩ := List.map_eq_append_iff.mp hrest.symm
      rw [hf.list_map hfirst] at htext
      exact ⟨more, htext.symm⟩
    · intro h
      exact h.map f
  have hfrom : ∀ (text : List α) (n : Nat),
      replaceFrom (old.map f) (new.map f) n (text.map f) = (replaceFrom old new n text).map f := by
    intro text
    induction text with
    | nil =>
      intro n
      cases n <;> rfl
    | cons a text ih =>
      intro n
      cases n with
      | succ n => exact ih n
      | zero =>
        rw [List.map_cons, replaceFrom, replaceFrom, ← List.map_cons, List.length_map]
        by_cases hold : old <+: a :: text
        · rw [if_pos hold, if_pos ((hmapped _).mpr hold), ih, List.map_append]
        · rw [if_neg hold, if_neg fun h => hold ((hmapped _).mp h), ih, List.map_cons]
  unfold replaceAll
  by_cases hold : old = []
  · rw [if_pos hold, if_pos (by rw [hold]; rfl), List.map_append, List.map_flatMap, List.flatMap_map]
    rfl
  · rw [if_neg hold, if_neg fun h => hold (List.map_eq_nil_iff.mp h)]
    exact hfrom text 0

/-! ## Escaping -/

/-- An escape character and a separator, and the digits of the codes that stand for them: two for
    the character, two for each byte of the separator. -/
structure Escape (α : Type) where
  mark : α
  a : α
  b : α
  sep : List α
  digits : List (α × α)
  digits_ne : ∀ d ∈ (a, b) :: digits, d.1 ≠ mark ∧ d.2 ≠ mark
  length_le : sep.length ≤ digits.length
  digits_nil : sep = [] → digits = []

namespace Escape

variable (k : Escape α)

def markCode : List α := [k.mark, k.a, k.b]

def sepCode : List α := k.digits.flatMap fun d => [k.mark, d.1, d.2]

/-- The mark first, then the separator. -/
def escape (text : List α) : List α :=
  replaceAll k.sep k.sepCode (replaceAll [k.mark] k.markCode text)

def unescape (text : List α) : List α :=
  replaceAll k.markCode [k.mark] (replaceAll k.sepCode k.sep text)

omit [DecidableEq α] in
theorem length_sepCode : k.sepCode.length = 3 * k.digits.length := by
  unfold sepCode
  rw [List.length_flatMap]
  simp [Nat.mul_comm]

omit [DecidableEq α] in
theorem sepCode_eq_nil_iff : k.sepCode = [] ↔ k.sep = [] := by
  have hlength := k.length_sepCode
  have hle := k.length_le
  constructor
  · intro h
    rw [h, List.length_nil] at hlength
    exact List.length_eq_zero_iff.mp (by omega)
  · intro h
    unfold sepCode
    rw [k.digits_nil h]
    rfl

/-! ### The mark -/

/-- The text with the mark's codes only. -/
def marked (text : List α) : List α := replace [k.mark] k.markCode text

theorem escape_eq (text : List α) : k.escape text = replaceAll k.sep k.sepCode (k.marked text) := by
  unfold escape marked
  rw [replaceAll_of_ne (List.cons_ne_nil k.mark [])]

theorem marked_cons (x : α) (text : List α) :
    k.marked (x :: text) = (if x = k.mark then k.markCode else [x]) ++ k.marked text := by
  unfold marked
  rw [replace_singleton, replace_singleton, List.flatMap_cons]

theorem replace_markCode (text : List α) : replace k.markCode [k.mark] (k.marked text) = text := by
  induction text with
  | nil => rfl
  | cons x text ih =>
    rw [marked_cons]
    by_cases hx : x = k.mark
    · have hcode : k.markCode ≠ [] := List.cons_ne_nil _ _
      rw [if_pos hx, replace_append hcode, ih, hx]
      rfl
    · rw [if_neg hx]
      show replace (k.mark :: [k.a, k.b]) [k.mark] (x :: k.marked text) = _
      rw [replace_cons_of_ne hx]
      exact congrArg (x :: ·) ih

theorem marked_injective : Function.Injective k.marked :=
  Function.LeftInverse.injective k.replace_markCode

theorem marked_eq_self {text : List α} (h : k.mark ∉ text) : k.marked text = text := by
  have hskip := replace_append_of_not_mem h [] k.markCode []
  rw [List.append_nil] at hskip
  exact hskip.trans (List.append_nil text)

/-- Every mark begins its code. -/
def Coded (text : List α) : Prop := ∀ rest, k.mark :: rest <:+ text → [k.a, k.b] <+: rest

omit [DecidableEq α] in
variable {k} in
theorem Coded.of_suffix {text rest : List α} (h : k.Coded text) (hrest : rest <:+ text) : k.Coded rest :=
  fun more hmore => h more (hmore.trans hrest)

theorem coded_marked (text : List α) : k.Coded (k.marked text) := by
  induction text with
  | nil =>
    intro rest hrest
    exact absurd (List.suffix_nil.mp hrest) (List.cons_ne_nil _ _)
  | cons x text ih =>
    intro rest hrest
    rw [marked_cons] at hrest
    by_cases hx : x = k.mark
    · have ha := (k.digits_ne _ List.mem_cons_self).1
      have hb := (k.digits_ne _ List.mem_cons_self).2
      rw [if_pos hx] at hrest
      rcases List.suffix_cons_iff.mp hrest with heq | hrest
      · rw [(List.cons.inj heq).2]
        exact List.prefix_append [k.a, k.b] _
      rcases List.suffix_cons_iff.mp hrest with heq | hrest
      · exact absurd (List.cons.inj heq).1.symm ha
      rcases List.suffix_cons_iff.mp hrest with heq | hrest
      · exact absurd (List.cons.inj heq).1.symm hb
      · exact ih rest hrest
    · rw [if_neg hx] at hrest
      rcases List.suffix_cons_iff.mp hrest with heq | hrest
      · exact absurd (List.cons.inj heq).1.symm hx
      · exact ih rest hrest

/-! ### The separator -/

section Separator

variable {k} (hsep : k.sep ≠ []) (hhead : k.digits.head? ≠ some (k.a, k.b))

include hsep in
omit [DecidableEq α] in
theorem exists_digits : ∃ d more, k.digits = d :: more ∧
    k.sepCode = k.mark :: d.1 :: d.2 :: more.flatMap fun d => [k.mark, d.1, d.2] := by
  cases hdigits : k.digits with
  | nil =>
    have hle := k.length_le
    rw [hdigits, List.length_nil] at hle
    exact absurd (List.length_eq_zero_iff.mp (Nat.le_zero.mp hle)) hsep
  | cons d more =>
    refine ⟨d, more, rfl, ?_⟩
    unfold sepCode
    rw [hdigits]
    rfl

include hsep hhead in
/-- What goes on as it is does not begin with the separator's code. -/
theorem cons_replace_ne {x : α} {text : List α} (h : k.Coded (x :: text)) (rest rest' : List α) :
    x :: replace k.sep k.sepCode text ++ rest ≠ k.sepCode ++ rest' := by
  obtain ⟨d, more, hdigits, hcode⟩ := exists_digits hsep
  obtain ⟨hd, hd'⟩ := k.digits_ne d (by rw [hdigits]; simp)
  have hne : d ≠ (k.a, k.b) := by
    intro heq
    rw [hdigits, heq] at hhead
    exact hhead rfl
  -- what is not the mark was there before
  have hfirst : ∀ {c y : α} {text rest rest' : List α}, y ≠ k.mark →
      replace k.sep k.sepCode (c :: text) ++ rest = y :: rest' →
        y = c ∧ replace k.sep k.sepCode text ++ rest = rest' := by
    intro c y text rest rest' hy heq
    rcases replace_cases hsep k.sepCode (c :: text) with ⟨q, -, hq⟩ | ⟨c', q, hcq, -, hq⟩ | hnil
    · rw [hq, hcode, List.cons_append, List.cons_append] at heq
      exact absurd (List.cons.inj heq).1.symm hy
    · obtain ⟨rfl, rfl⟩ := List.cons.inj hcq
      rw [hq, List.cons_append] at heq
      exact ⟨(List.cons.inj heq).1.symm, (List.cons.inj heq).2⟩
    · cases hnil
  intro heq
  have hsplit := heq.trans (congrArg (· ++ rest') hcode)
  simp only [List.cons_append, List.cons.injEq] at hsplit
  obtain ⟨rfl, hsplit⟩ := hsplit
  obtain ⟨tail, rfl⟩ := h text List.suffix_rfl
  obtain ⟨ha, hsplit⟩ := hfirst hd hsplit
  obtain ⟨hb, -⟩ := hfirst hd' hsplit
  exact hne (Prod.ext ha hb)

include hsep hhead in
theorem replace_sepCode {text : List α} (h : k.Coded text) :
    replace k.sepCode k.sep (replace k.sep k.sepCode text) = text := by
  have hcode : k.sepCode ≠ [] := fun hnil => hsep (k.sepCode_eq_nil_iff.mp hnil)
  induction hn : text.length using Nat.strong_induction_on generalizing text with
  | _ n ih =>
    rcases replace_cases hsep k.sepCode text with ⟨q, rfl, hq⟩ | ⟨c, q, rfl, -, hq⟩ | rfl
    · have hshort : q.length < n := by
        have hpos := List.length_pos_of_ne_nil hsep
        rw [← hn, List.length_append]
        omega
      rw [hq, replace_append hcode, ih _ hshort (h.of_suffix (List.suffix_append _ _)) rfl]
    · have hnot : ¬ k.sepCode <+: c :: replace k.sep k.sepCode q := by
        intro ⟨rest, hrest⟩
        have hne := cons_replace_ne hsep hhead h [] rest
        rw [List.append_nil] at hne
        exact hne hrest.symm
      have hshort : q.length < n := by
        rw [← hn, List.length_cons]
        omega
      rw [hq, replace_cons_of_not_old hnot, ih _ hshort (h.of_suffix (List.suffix_cons _ _)) rfl]
    · rfl

end Separator

/-- Unescaping gives the text back, unless the code of the separator begins like the mark's. -/
theorem undone (hhead : k.digits.head? ≠ some (k.a, k.b)) (text : List α) :
    k.unescape (k.escape text) = text := by
  have hmark : k.markCode ≠ [] := List.cons_ne_nil _ _
  rw [escape_eq]
  unfold unescape
  by_cases hsep : k.sep = []
  · rw [k.sepCode_eq_nil_iff.mpr hsep, hsep, replaceAll_nil, replaceAll_nil, replaceAll_of_ne hmark, replace_markCode]
  · have hcode : k.sepCode ≠ [] := fun hnil => hsep (k.sepCode_eq_nil_iff.mp hnil)
    rw [replaceAll_of_ne hsep, replaceAll_of_ne hcode, replaceAll_of_ne hmark,
      replace_sepCode hsep hhead (k.coded_marked text), replace_markCode]

end Escape

/-! ## Codes -/

/-- The separator does not end as it begins. -/
def Unbordered (sep : List α) : Prop := ∀ y u x, sep = y ++ u → sep = u ++ x → y = [] ∨ u = []

theorem unbordered_singleton {β : Type} (c : β) : Unbordered [c] := by
  intro y u x hy _
  cases y with
  | nil => exact .inl rfl
  | cons a y =>
    rw [List.cons_append, List.cons.injEq] at hy
    exact .inr (List.append_eq_nil_iff.mp hy.2.symm).2

/-- Codes that unescaping undoes. -/
structure Codes (α : Type) [DecidableEq α] extends Escape α where
  unescape_escape : ∀ text, toEscape.unescape (toEscape.escape text) = text

namespace Codes

variable (k : Codes α)

theorem escape_injective : Function.Injective k.escape :=
  Function.LeftInverse.injective k.unescape_escape

theorem escape_nil : k.escape [] = [] := by
  rw [Escape.escape_eq]
  by_cases hsep : k.sep = []
  · rw [k.sepCode_eq_nil_iff.mpr hsep, hsep, replaceAll_nil]
    rfl
  · rw [replaceAll_of_ne hsep]
    rfl

/-- Unescaping leaves a text with no code in it, and no other, as it is. -/
theorem unescape_eq_self_iff (text : List α) :
    k.unescape text = text ↔ (k.sep ≠ [] → ¬ k.sepCode <:+: text) ∧ ¬ k.markCode <:+: text := by
  have hmark : [k.mark].length < k.markCode.length := by simp [Escape.markCode]
  have hmarkne : k.markCode ≠ [] := List.cons_ne_nil _ _
  unfold Escape.unescape
  rw [replaceAll_of_ne hmarkne]
  by_cases hsep : k.sep = []
  · rw [k.sepCode_eq_nil_iff.mpr hsep, hsep, replaceAll_nil, replace_eq_self_iff hmark]
    exact (and_iff_right fun hne => absurd rfl hne).symm
  have hshorter : k.sep.length < k.sepCode.length := by
    have hpos := List.length_pos_of_ne_nil hsep
    have hle := k.length_le
    have hlength := k.length_sepCode
    omega
  have hsepne : k.sepCode ≠ [] := fun hnil => hsep (k.sepCode_eq_nil_iff.mp hnil)
  rw [replaceAll_of_ne hsepne, ← replace_eq_self_iff hshorter, ← replace_eq_self_iff hmark]
  constructor
  · intro h
    have hfirst : replace k.sepCode k.sep text = text := by
      by_contra hchanged
      rw [replace_eq_self_iff hshorter, not_not] at hchanged
      have hshort := length_replace_lt hshorter hchanged
      have hsecond := length_replaceFrom hmark (replace k.sepCode k.sep text) 0
      have hwhole := congrArg List.length h
      unfold replace at hwhole hshort hsecond
      omega
    rw [hfirst] at h
    exact ⟨fun _ => hfirst, h⟩
  · intro ⟨hfirst, hsecond⟩
    rw [hfirst hsep, hsecond]

/-! ### What comes behind an escaped text -/

section Behind

variable {k} (hsep : k.sep ≠ []) (hhead : k.digits.head? ≠ some (k.a, k.b)) (hmark : k.mark ∉ k.sep)

include hsep hhead in
/-- Of two texts that are replaced to beginnings of one text, one begins the other. -/
theorem replace_append_cases {s t : List α} (hs : k.Coded s) (ht : k.Coded t) {x y : List α}
    (h : replace k.sep k.sepCode s ++ x = replace k.sep k.sepCode t ++ y) :
    (∃ more, s = t ++ more ∧ y = replace k.sep k.sepCode more ++ x) ∨
      ∃ more, t = s ++ more ∧ x = replace k.sep k.sepCode more ++ y := by
  induction hn : s.length using Nat.strong_induction_on generalizing s t with
  | _ n ih =>
    rcases replace_cases hsep k.sepCode s with ⟨s', rfl, hs'⟩ | ⟨c, s', rfl, -, hs'⟩ | rfl
    · have hshort : s'.length < n := by
        have hpos := List.length_pos_of_ne_nil hsep
        rw [← hn, List.length_append]
        omega
      rcases replace_cases hsep k.sepCode t with ⟨t', rfl, ht'⟩ | ⟨d, t', rfl, -, ht'⟩ | rfl
      · rw [hs', ht', List.append_assoc, List.append_assoc] at h
        have hrest := ih _ hshort (hs.of_suffix (List.suffix_append _ _)) (ht.of_suffix (List.suffix_append _ _))
          (List.append_cancel_left h) rfl
        simp only [List.append_assoc, List.append_cancel_left_eq]
        exact hrest
      · rw [hs', ht', List.append_assoc] at h
        exact absurd h.symm (Escape.cons_replace_ne hsep hhead ht y _)
      · exact .inl ⟨_, rfl, h.symm⟩
    · have hshort : s'.length < n := by
        rw [← hn, List.length_cons]
        omega
      rcases replace_cases hsep k.sepCode t with ⟨t', rfl, ht'⟩ | ⟨d, t', rfl, -, ht'⟩ | rfl
      · rw [hs', ht', List.append_assoc] at h
        exact absurd h (Escape.cons_replace_ne hsep hhead hs x _)
      · rw [hs', ht', List.cons_append, List.cons_append, List.cons.injEq] at h
        have hrest := ih _ hshort (hs.of_suffix (List.suffix_cons _ _)) (ht.of_suffix (List.suffix_cons _ _)) h.2 rfl
        simp only [List.cons_append, List.cons.injEq, h.1, true_and]
        exact hrest
      · exact .inl ⟨_, rfl, h.symm⟩
    · exact .inr ⟨t, rfl, h⟩

include hsep in
/-- Behind a replaced text, what is free of the mark begins with that text, or in it. -/
theorem replace_append_of_free {w : List α} (hw : k.mark ∉ w) {text x rest : List α}
    (h : replace k.sep k.sepCode text ++ x = w ++ rest) :
    w <+: text ∨ ∃ u, u ≠ [] ∧ w = text ++ u ∧ x = u ++ rest := by
  induction w generalizing text with
  | nil => exact .inl List.nil_prefix
  | cons c w ih =>
    rw [List.mem_cons, not_or] at hw
    rcases replace_cases hsep k.sepCode text with ⟨q, -, hq⟩ | ⟨a, q, rfl, -, hq⟩ | rfl
    · obtain ⟨d, more, -, hcode⟩ := Escape.exists_digits hsep
      rw [hq, hcode] at h
      exact absurd (List.cons.inj h).1 hw.1
    · rw [hq, List.cons_append, List.cons_append, List.cons.injEq] at h
      rcases ih hw.2 h.2 with hpre | ⟨u, hu, hwu, hx⟩
      · exact .inl (by rw [h.1]; exact List.cons_prefix_cons.mpr ⟨rfl, hpre⟩)
      · exact .inr ⟨u, hu, by rw [h.1, hwu]; rfl, hx⟩
    · exact .inr ⟨c :: w, List.cons_ne_nil _ _, rfl, h⟩

include hsep hmark in
/-- The separator behind a replaced text begins with that text, which is shorter. -/
theorem replace_append_sep {text x rest : List α} (h : replace k.sep k.sepCode text ++ x = k.sep ++ rest) :
    ∃ u, u ≠ [] ∧ k.sep = text ++ u ∧ x = u ++ rest := by
  rcases replace_append_of_free hsep hmark h with ⟨q, rfl⟩ | hbehind
  · -- the separator would have been replaced
    obtain ⟨d, more, -, hcode⟩ := Escape.exists_digits hsep
    rw [replace_append hsep, hcode] at h
    obtain ⟨c, sep, hc⟩ := List.exists_cons_of_ne_nil hsep
    rw [hc] at h hmark
    exact absurd (by rw [(List.cons.inj h).1]; exact List.mem_cons_self) hmark
  · exact hbehind

include hsep hhead hmark in
/-- Escaped and with the separator behind them, texts differ. -/
theorem escape_append_inj (hborder : Unbordered k.sep) {s t rest rest' : List α}
    (h : k.escape s ++ (k.sep ++ rest) = k.escape t ++ (k.sep ++ rest')) : s = t := by
  rw [Escape.escape_eq, Escape.escape_eq, replaceAll_of_ne hsep, replaceAll_of_ne hsep] at h
  -- what one has more of begins the separator, and the separator goes on as it began
  have hnone : ∀ {more rest rest' : List α},
      k.sep ++ rest' = replace k.sep k.sepCode more ++ (k.sep ++ rest) → more = [] := by
    intro more rest rest' heq
    obtain ⟨u, hu, hmore, hrest⟩ := replace_append_sep hsep hmark heq.symm
    have hlength : u.length ≤ k.sep.length := by
      rw [hmore, List.length_append]
      omega
    obtain ⟨x, hx⟩ := List.prefix_of_prefix_length_le (List.prefix_append u rest')
      (hrest ▸ List.prefix_append k.sep rest) hlength
    exact (hborder more u x hmore hx.symm).resolve_right hu
  apply k.marked_injective
  rcases replace_append_cases hsep hhead (k.coded_marked s) (k.coded_marked t) h with ⟨more, hs, hx⟩ | ⟨more, ht, hx⟩
  · rw [hs, hnone hx, List.append_nil]
  · rw [ht, hnone hx, List.append_nil]

include hsep hhead hmark in
/-- No escaped text goes on with the separator behind another one. -/
theorem escape_ne_append (s t rest : List α) : k.escape s ≠ k.escape t ++ (k.sep ++ rest) := by
  intro h
  rw [Escape.escape_eq, Escape.escape_eq, replaceAll_of_ne hsep, replaceAll_of_ne hsep,
    ← List.append_nil (replace _ _ (k.marked s))] at h
  rcases replace_append_cases hsep hhead (k.coded_marked s) (k.coded_marked t) h with ⟨more, -, hx⟩ | ⟨more, -, hx⟩
  · obtain ⟨u, hu, -, hnil⟩ := replace_append_sep hsep hmark hx.symm
    exact hu (List.append_eq_nil_iff.mp hnil.symm).1
  · exact hsep (List.append_eq_nil_iff.mp (List.append_eq_nil_iff.mp hx.symm).2).1

include hmark in
/-- A separator that is empty, or ends as it begins, is found at two places of one text. -/
theorem exists_overlap (h : ¬ (k.sep ≠ [] ∧ Unbordered k.sep)) :
    ∃ y x, y ≠ [] ∧ k.escape y = y ∧ k.escape x = x ∧ k.sep ++ x = y ++ k.sep := by
  -- what is free of the mark and of the separator stays as it is
  have hplain : ∀ text, k.mark ∉ text → (k.sep ≠ [] → ¬ k.sep <:+: text) → k.escape text = text := by
    intro text hfree hnot
    rw [Escape.escape_eq, Escape.marked_eq_self k.toEscape hfree]
    by_cases hsep : k.sep = []
    · rw [k.sepCode_eq_nil_iff.mpr hsep, hsep, replaceAll_nil]
    · rw [replaceAll_of_ne hsep, replace_of_not_infix (hnot hsep)]
  have hshort : ∀ {text : List α}, text.length < k.sep.length → k.sep ≠ [] → ¬ k.sep <:+: text := by
    intro text hlt _ hin
    have hle := hin.length_le
    omega
  by_cases hsep : k.sep = []
  · have ha : k.mark ∉ [k.a] := by
      rw [List.mem_singleton]
      exact (k.digits_ne _ List.mem_cons_self).1.symm
    have hstays := hplain [k.a] ha fun hne => absurd hsep hne
    exact ⟨[k.a], [k.a], List.cons_ne_nil _ _, hstays, hstays, by rw [hsep]; rfl⟩
  · have hborder : ¬ Unbordered k.sep := fun hu => h ⟨hsep, hu⟩
    simp only [Unbordered, not_forall, not_or, exists_prop] at hborder
    obtain ⟨y, u, x, hy, hx, hyne, hu⟩ := hborder
    have hypos := List.length_pos_of_ne_nil hyne
    have hupos := List.length_pos_of_ne_nil hu
    have hylen := congrArg List.length hy
    have hxlen := congrArg List.length hx
    rw [List.length_append] at hylen hxlen
    refine ⟨y, x, hyne, hplain y (fun hm => hmark ?_) (hshort (by omega)),
      hplain x (fun hm => hmark ?_) (hshort (by omega)), ?_⟩
    · rw [hy]
      exact List.mem_append_left _ hm
    · rw [hx]
      exact List.mem_append_right _ hm
    · conv_lhs => rw [hy]
      conv_rhs => rw [hx]
      rw [List.append_assoc]

variable (k) in
/-- Escaped texts with the separator behind them are told from one another. -/
def Apart : Prop :=
  ∀ s t rest rest', k.escape s ++ (k.sep ++ rest) = k.escape t ++ (k.sep ++ rest') → s = t

include hhead hmark in
/-- A separator free of the mark does so exactly if there is one and it does not end as it begins. -/
theorem apart_iff : k.Apart ↔ k.sep ≠ [] ∧ Unbordered k.sep := by
  constructor
  · intro h
    by_contra hnot
    obtain ⟨y, x, hy, hyplain, -, heq⟩ := exists_overlap hmark hnot
    have hnil : k.escape [] = [] := k.escape_nil
    exact hy (h [] y x [] (by rw [hnil, hyplain, List.nil_append, List.append_nil, heq])).symm
  · intro ⟨hne, hborder⟩ s t rest rest' heq
    exact escape_append_inj hne hhead hmark hborder heq

include hsep hmark in
/-- The separator ends an escaped text, unless it ends as it begins or its first character is a digit. -/
theorem ends_escape (hborder : Unbordered k.sep)
    (hfirst : ∀ d ∈ k.digits, k.sep.head? ≠ some d.1 ∧ k.sep.head? ≠ some d.2) (text : List α) :
    Ends k.sep (k.escape text) := by
  rw [Escape.escape_eq, replaceAll_of_ne hsep]
  generalize k.marked text = s
  induction hn : s.length using Nat.strong_induction_on generalizing s with
  | _ n ih =>
    intro q rest heq
    rcases replace_cases hsep k.sepCode s with ⟨s', rfl, hs⟩ | ⟨c, s', rfl, hnot, hs⟩ | rfl
    · have hshort : s'.length < n := by
        have hpos := List.length_pos_of_ne_nil hsep
        rw [← hn, List.length_append]
        omega
      rw [hs, List.append_assoc] at heq
      rcases List.append_eq_append_iff.mp heq with ⟨q', -, hq'⟩ | ⟨z, hz, hsplit⟩
      · exact ih _ hshort s' rfl q' rest hq'
      · cases z with
        | nil => exact ih _ hshort s' rfl [] rest hsplit.symm
        | cons c z =>
          -- no separator begins in a code
          have hhead : k.sep.head? = some c := by
            obtain ⟨x, sep, hx⟩ := List.exists_cons_of_ne_nil hsep
            rw [hx, List.cons_append, List.cons_append, List.cons.injEq] at hsplit
            rw [hx, hsplit.1]
            rfl
          have hcode : c ∈ k.sepCode := by
            rw [hz]
            simp
          obtain ⟨d, hd, hc⟩ := List.mem_flatMap.mp hcode
          simp only [List.mem_cons, List.not_mem_nil, or_false] at hc
          rcases hc with rfl | rfl | rfl
          · exact absurd (List.mem_of_mem_head? hhead) hmark
          · exact absurd hhead (hfirst d hd).1
          · exact absurd hhead (hfirst d hd).2
    · have hshort : s'.length < n := by
        rw [← hn, List.length_cons]
        omega
      cases q with
      | nil =>
        rcases replace_append_of_free hsep hmark heq with hpre | ⟨u, hu, hsu, hrest⟩
        · exact absurd hpre hnot
        · exact absurd (hborder _ u rest hsu hrest) (not_or.mpr ⟨List.cons_ne_nil _ _, hu⟩)
      | cons b q =>
        rw [hs, List.cons_append, List.cons_append, List.cons.injEq] at heq
        exact ih _ hshort s' rfl q rest heq.2
    · exact ends_nil k.sep q rest heq

end Behind

/-- Where the separator is one character that is neither the mark nor a digit, no escaped text holds it. -/
theorem not_infix_escape {c : α} (hsep : k.sep = [c]) (hmark : k.mark ≠ c)
    (hdigits : ∀ d ∈ k.digits, d.1 ≠ c ∧ d.2 ≠ c) (text : List α) : ¬ k.sep <:+: k.escape text := by
  have hends := k.ends_escape (by rw [hsep]; exact List.cons_ne_nil _ _) (by rw [hsep]; simpa using hmark)
    (by rw [hsep]; exact unbordered_singleton c) (fun d hd => by
      rw [hsep]
      exact ⟨fun h => (hdigits d hd).1 (Option.some.inj h).symm, fun h => (hdigits d hd).2 (Option.some.inj h).symm⟩) text
  rw [hsep] at hends ⊢
  rw [List.singleton_infix_iff]
  exact ends_singleton.mp hends

end Codes

end Delimited
