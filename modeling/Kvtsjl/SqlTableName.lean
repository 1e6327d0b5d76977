import Kvtsjl.ObjectKeys

/-
  The table of a collection.
  The name is rewritten to an identifier, and the version put behind it as text. Two
  collections have one table where their names are written alike and their versions have one
  label, and where the name of one ends in what the label of the other begins with.
-/

namespace Kvtsjl

open Delimited

/-- `int | str` -/
inductive Version where
  | int (n : Int)
  | str (text : List Char)
deriving DecidableEq

variable (isalpha : Char → Bool)

/-- An identifier for the name: an underscore for what it may not hold, and a letter or an
    underscore first. -/
def safeName (name : List Char) : List Char :=
  let safe := replace [' '] ['_'] (replace ['\\'] ['_'] (replace ['/'] ['_'] (replace ['.'] ['_']
    (replace ['-'] ['_'] (if name = [] then ['_'] else name)))))
  match safe with
  | [] => 't' :: '_' :: safe
  | first :: _ => if isalpha first = true ∨ first = '_' then safe else 't' :: '_' :: safe

def sqlTableName (name : List Char) (version : Version) : List Char :=
  let safe := safeName isalpha name
  match version with
  | .int n => if 0 < n then safe ++ '_' :: (toString n).toList else safe
  | .str text =>
    let ver := strip text
    if ver ≠ [] ∧ ver ∉ [['0'], ['v', '0']] then
      let label := if ver.head? = some 'v' then ver.tail else ver
      safe ++ '_' :: label
    else safe

/-! ## How a name is written -/

/-- The character an identifier has in a character's place. -/
def spell (c : Char) : Char := if c ∈ ['-', '.', '/', '\\', ' '] then '_' else c

/-- The name with its characters spelled, and `t_` before it unless it begins with a letter
    or an underscore. The empty name is written as an underscore. -/
def written : List Char → List Char
  | [] => ['_']
  | first :: rest =>
    if isalpha (spell first) = true ∨ spell first = '_' then (first :: rest).map spell
    else 't' :: '_' :: (first :: rest).map spell

/-- What stands behind the name: nothing for zero and below, for blank text, and for the
    texts `0` and `v0`. -/
def Version.label : Version → Option (List Char)
  | .int n => if 0 < n then some (toString n).toList else none
  | .str text =>
    if strip text ∈ [[], ['0'], ['v', '0']] then none
    else some (if (strip text).head? = some 'v' then (strip text).tail else strip text)

/-- A label with an underscore before it. -/
def suffix : Option (List Char) → List Char
  | none => []
  | some label => '_' :: label

theorem replace_char (x y : Char) (text : List Char) :
    replace [x] [y] text = text.map fun c => if c = x then y else c := by
  rw [replace_singleton]
  induction text with
  | nil => rfl
  | cons c text ih =>
    rw [List.flatMap_cons, List.map_cons, ih]
    by_cases h : c = x
    · simp [h]
    · simp [h]

theorem spell_eq (text : List Char) :
    replace [' '] ['_'] (replace ['\\'] ['_'] (replace ['/'] ['_'] (replace ['.'] ['_']
      (replace ['-'] ['_'] text)))) = text.map spell := by
  simp only [replace_char, List.map_map]
  refine congrArg text.map (funext fun c => ?_)
  simp only [Function.comp_apply]
  unfold spell
  by_cases h : c ∈ ['-', '.', '/', '\\', ' ']
  · rw [if_pos h]
    simp only [List.mem_cons, List.not_mem_nil, or_false] at h
    rcases h with rfl | rfl | rfl | rfl | rfl <;> decide
  · rw [if_neg h]
    simp only [List.mem_cons, List.not_mem_nil, or_false, not_or] at h
    simp [h]

theorem safeName_eq (name : List Char) : safeName isalpha name = written isalpha name := by
  unfold safeName
  rw [spell_eq]
  cases name with
  | nil =>
    rw [if_pos rfl, written]
    show (if isalpha '_' = true ∨ '_' = '_' then ['_'] else ['t', '_', '_']) = ['_']
    rw [if_pos (.inr rfl)]
  | cons first rest =>
    rw [if_neg (List.cons_ne_nil _ _), written]
    rfl

/-- The table is the name as it is written with the version's label behind it. -/
theorem sqlTableName_eq (name : List Char) (version : Version) :
    sqlTableName isalpha name version = written isalpha name ++ suffix version.label := by
  unfold sqlTableName
  rw [safeName_eq]
  cases version with
  | int n =>
    rw [Version.label]
    by_cases h : 0 < n
    · simp [h, suffix]
    · simp [h, suffix]
  | str text =>
    rw [Version.label]
    dsimp only
    by_cases h : strip text ∈ [[], ['0'], ['v', '0']]
    · rw [if_pos h]
      have hnot : ¬ (strip text ≠ [] ∧ strip text ∉ [['0'], ['v', '0']]) :=
        fun hlabel => (List.mem_cons.mp h).elim hlabel.1 hlabel.2
      rw [if_neg hnot, suffix, List.append_nil]
    · rw [if_neg h]
      rw [List.mem_cons, not_or] at h
      rw [if_pos h, suffix]

/-! ## Where two collections have one table -/

/-- The name of `q` is that of `p` with an underscore and more behind it, and the label of `p`
    begins with that more: it is all of the label where `q` has none, and otherwise the label
    goes on with an underscore and the label of `q`. -/
def Swallows (p q : List Char × Version) : Prop :=
  ∃ more, written isalpha q.1 = written isalpha p.1 ++ '_' :: more ∧
    p.2.label = some (more ++ suffix q.2.label)

/-- The names are written alike and the labels the same, or one name ends in what the
    other's label begins with. -/
def ShareTable (p q : List Char × Version) : Prop :=
  (written isalpha p.1 = written isalpha q.1 ∧ p.2.label = q.2.label) ∨
    Swallows isalpha p q ∨ Swallows isalpha q p

theorem suffix_injective : Function.Injective suffix := by
  intro a b h
  cases a <;> cases b <;> simp_all [suffix]

/-- A name that another begins with, where the labels make up for the difference. -/
theorem extends_iff (p q : List Char × Version) :
    (∃ more, written isalpha q.1 = written isalpha p.1 ++ more ∧
      suffix p.2.label = more ++ suffix q.2.label) ↔
    (written isalpha p.1 = written isalpha q.1 ∧ p.2.label = q.2.label) ∨ Swallows isalpha p q := by
  constructor
  · intro ⟨more, hname, hlabel⟩
    cases more with
    | nil => exact .inl ⟨by rw [hname, List.append_nil], suffix_injective hlabel⟩
    | cons c more =>
      cases hp : p.2.label with
      | none => simp [hp, suffix] at hlabel
      | some label =>
        rw [hp, suffix, List.cons_append, List.cons.injEq] at hlabel
        refine .inr ⟨more, ?_, ?_⟩
        · rw [hname, ← hlabel.1]
        · rw [hp, hlabel.2]
  · intro h
    rcases h with ⟨hname, hlabel⟩ | ⟨more, hname, hlabel⟩
    · exact ⟨[], by rw [hname, List.append_nil], by rw [hlabel, List.nil_append]⟩
    · exact ⟨'_' :: more, hname, by rw [hlabel, suffix, List.cons_append]⟩

/-- Two collections have different tables exactly where none is shared. -/
theorem sqlTableName_ne_iff (p q : List Char × Version) :
    sqlTableName isalpha p.1 p.2 ≠ sqlTableName isalpha q.1 q.2 ↔ ¬ ShareTable isalpha p q := by
  rw [sqlTableName_eq, sqlTableName_eq, ne_eq, List.append_eq_append_iff, extends_iff, extends_iff]
  unfold ShareTable
  rw [eq_comm (a := written isalpha q.1), eq_comm (a := q.2.label)]
  tauto

/-- `-` is written as `_` is. -/
theorem dash_shares_underscore : ¬ ∀ p q : List Char × Version, p ≠ q →
    sqlTableName Char.isAlpha p.1 p.2 ≠ sqlTableName Char.isAlpha q.1 q.2 := by
  intro h
  exact h (['a', '-', 'b'], .int 1) (['a', '_', 'b'], .int 1) (by decide) (by decide)

/-- The digits of a version above zero. -/
theorem label_int {n : Int} (h : 0 < n) : (Version.int n).label = some (Nat.toDigits 10 n.toNat) := by
  obtain ⟨k, rfl⟩ := Int.eq_ofNat_of_zero_le h.le
  rw [Version.label, if_pos h]
  exact congrArg some Nat.toList_repr

/-- Between two versions above zero it is the names alone that share a table. -/
theorem shareTable_int {a b : List Char} {m n : Int} (hm : 0 < m) (hn : 0 < n) :
    ShareTable isalpha (a, .int m) (b, .int n) ↔ written isalpha a = written isalpha b ∧ m = n := by
  have hnone : ∀ {k l : Int} {x y : List Char}, 0 < k → 0 < l →
      ¬ Swallows isalpha (x, .int k) (y, .int l) := by
    intro k l x y hk hl hswallows
    obtain ⟨more, -, hlong⟩ := hswallows
    dsimp only at hlong
    rw [label_int hk, label_int hl, Option.some.injEq] at hlong
    have hunder : '_' ∈ more ++ suffix (some (Nat.toDigits 10 l.toNat)) :=
      List.mem_append_right more List.mem_cons_self
    rw [← hlong] at hunder
    exact Nat.underscore_not_in_toDigits hunder
  unfold ShareTable
  dsimp only
  rw [label_int hm, label_int hn, Option.some.injEq]
  constructor
  · intro h
    rcases h with ⟨hname, hdigits⟩ | h | h
    · have hvalue : m.toNat = n.toNat := by
        rw [← Nat.ofDigitChars_ten_toDigits (n := m.toNat), hdigits, Nat.ofDigitChars_ten_toDigits]
      exact ⟨hname, by omega⟩
    · exact absurd h (hnone hm hn)
    · exact absurd h (hnone hn hm)
  · intro ⟨hname, heq⟩
    exact .inl ⟨hname, by rw [heq]⟩

end Kvtsjl
