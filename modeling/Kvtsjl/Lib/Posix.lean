import Kvtsjl.Lib.Delimited

/-
  Paths as the names they are made of, and their texts.
  A text is read as a path by leaving out what names nothing: empty parts, and a dot. A path is read from its
  own text (`ofText_text`), so a text stands for itself exactly if it is a path's (`Normal`), and one that
  is stays so with a name's letters after it (`text_withSuffix`).
-/

namespace Posix

open Delimited

/-- A name between two slashes. -/
def Named (part : List Char) : Prop := part ≠ [] ∧ part ≠ ['.'] ∧ '/' ∉ part

instance (part : List Char) : Decidable (Named part) := inferInstanceAs (Decidable (_ ∧ _))

/-- What a path starts from: nothing, a slash, or exactly two. -/
def roots : List (List Char) := [[], ['/'], ['/', '/']]

structure Path where
  root : List Char
  parts : List (List Char)
  rooted : root ∈ roots
  named : ∀ part ∈ parts, Named part
deriving DecidableEq

namespace Path

theorem ext_parts {p q : Path} (hroot : p.root = q.root) (hparts : p.parts = q.parts) : p = q := by
  cases p
  cases q
  dsimp only at hroot hparts
  subst hroot hparts
  rfl

/-- More than two slashes are one. -/
def rootOf (text : List Char) : List Char :=
  if ['/', '/', '/'].isPrefixOf text then ['/']
  else if ['/', '/'].isPrefixOf text then ['/', '/']
  else if ['/'].isPrefixOf text then ['/']
  else []

theorem rootOf_mem (text : List Char) : rootOf text ∈ roots := by
  unfold rootOf
  split
  · decide
  · split
    · decide
    · split
      · decide
      · decide

theorem named_of_split {text part : List Char} (h : part ∈ (text.splitOn '/').filter fun part => part ≠ [] && part ≠ ['.']) :
    Named part := by
  obtain ⟨hmem, hkept⟩ := List.mem_filter.mp h
  rw [Bool.and_eq_true, decide_eq_true_eq, decide_eq_true_eq] at hkept
  exact ⟨hkept.1, hkept.2, sep_not_mem_splitOn hmem⟩

/-- A text as a path. -/
def ofText (text : List Char) : Path where
  root := rootOf text
  parts := (text.splitOn '/').filter fun part => part ≠ [] && part ≠ ['.']
  rooted := rootOf_mem text
  named _ h := named_of_split h

/-- The path as a text. What is nowhere else is here. -/
def text (p : Path) : List Char :=
  if p.root = [] ∧ p.parts = [] then ['.'] else p.root ++ join ['/'] p.parts

/-- What the first `n` names lead to. -/
def upTo (p : Path) (n : Nat) : Path :=
  { p with
    parts := p.parts.take n
    named := fun part h => p.named part (List.mem_of_mem_take h) }

def parent (p : Path) : Path := p.upTo (p.parts.length - 1)

/-- The nearest directory above, and it where it is one. -/
def climbFrom (isDir : Path → Bool) : Nat → Path → Path
  | 0, p => p
  | n + 1, p => if isDir p then p else climbFrom isDir n p.parent

def climb (isDir : Path → Bool) (p : Path) : Path := climbFrom isDir p.parts.length p

/-- What a path leads through, and the path. -/
def lineage (p : Path) : List Path := (List.range (p.parts.length + 1)).map p.upTo

/-- The last name, if there is one. -/
def name (p : Path) : List Char := p.parts.getLast?.getD []

/-- Another last name, if there is one and the other is a name. -/
def withName (p : Path) (name : List Char) : Option Path :=
  if h : p.parts ≠ [] ∧ Named name then
    some
      { p.parent with
        parts := p.parent.parts ++ [name]
        named := fun part hpart => by
          rcases List.mem_append.mp hpart with hpart | hpart
          · exact p.parent.named part hpart
          · rw [List.mem_singleton.mp hpart]
            exact h.2 }
  else none

/-- Below a directory, at any depth. -/
def under (d p : Path) : Bool := d.root = p.root && d.parts.isPrefixOf p.parts && d.parts ≠ p.parts

/-! ## A path is read from its text -/

theorem join_head {parts : List (List Char)} (h : ∀ part ∈ parts, Named part) (hne : parts ≠ []) :
    ∃ c rest, join ['/'] parts = c :: rest ∧ c ≠ '/' := by
  obtain ⟨part, rest, rfl⟩ := List.exists_cons_of_ne_nil hne
  obtain ⟨hpart, -, hslash⟩ := h part List.mem_cons_self
  obtain ⟨c, cs, rfl⟩ := List.exists_cons_of_ne_nil hpart
  refine ⟨c, ?_⟩
  have hc : c ≠ '/' := by
    rintro rfl
    exact hslash List.mem_cons_self
  cases rest with
  | nil => exact ⟨cs, rfl, hc⟩
  | cons q rest => exact ⟨cs ++ '/' :: join ['/'] (q :: rest), rfl, hc⟩

theorem rootOf_append {root rest : List Char} (hroot : root ∈ roots) {c : Char} (hc : c ≠ '/') :
    rootOf (root ++ c :: rest) = root := by
  have hne : ('/' == c) = false := beq_eq_false_iff_ne.mpr fun h => hc h.symm
  unfold roots at hroot
  rcases List.mem_cons.mp hroot with rfl | hroot
  · simp [rootOf, List.isPrefixOf, hne]
  · rcases List.mem_pair.mp hroot with rfl | rfl
    · simp [rootOf, List.isPrefixOf, hne]
    · simp [rootOf, List.isPrefixOf, hne]

theorem filter_named {parts : List (List Char)} (h : ∀ part ∈ parts, Named part) :
    parts.filter (fun part => part ≠ [] && part ≠ ['.']) = parts := by
  refine List.filter_eq_self.mpr fun part hpart => ?_
  rw [Bool.and_eq_true, decide_eq_true_eq, decide_eq_true_eq]
  exact ⟨(h part hpart).1, (h part hpart).2.1⟩

theorem splitOn_slash (text : List Char) : ('/' :: text).splitOn '/' = [] :: text.splitOn '/' := by
  rw [List.splitOn_cons_eq_if_modifyHead, if_pos (beq_self_eq_true '/')]

theorem ofText_text (p : Path) : ofText p.text = p := by
  unfold text
  by_cases hparts : p.parts = []
  · by_cases hroot : p.root = []
    · rw [if_pos ⟨hroot, hparts⟩]
      exact ext_parts (by rw [hroot]; rfl) (by rw [hparts]; rfl)
    · rw [if_neg fun h => hroot h.1, hparts]
      have hrooted := p.rooted
      unfold roots at hrooted
      rcases List.mem_pair.mp ((List.mem_cons.mp hrooted).resolve_left hroot) with h | h
      · rw [h]
        exact ext_parts (by rw [h]; rfl) (by rw [hparts]; rfl)
      · rw [h]
        exact ext_parts (by rw [h]; rfl) (by rw [hparts]; rfl)
  · rw [if_neg fun h => hparts h.2]
    obtain ⟨c, rest, hjoin, hc⟩ := join_head p.named hparts
    refine ext_parts ?_ ?_
    · show rootOf (p.root ++ join ['/'] p.parts) = p.root
      rw [hjoin]
      exact rootOf_append p.rooted hc
    · show ((p.root ++ join ['/'] p.parts).splitOn '/').filter _ = p.parts
      have hsplit := splitOn_join hparts fun part hpart => (p.named part hpart).2.2
      have hkept := filter_named p.named
      have hrooted := p.rooted
      unfold roots at hrooted
      rcases List.mem_cons.mp hrooted with h | h
      · rw [h, List.nil_append, hsplit, hkept]
      · rcases List.mem_pair.mp h with h | h
        · rw [h, List.singleton_append, splitOn_slash, hsplit]
          exact hkept
        · rw [h]
          show (('/' :: '/' :: join ['/'] p.parts).splitOn '/').filter _ = _
          rw [splitOn_slash, splitOn_slash, hsplit]
          exact hkept

theorem text_injective : Function.Injective text := fun p q h => by
  rw [← ofText_text p, h, ofText_text]

/-! ## Letters after a name -/

theorem join_last (init : List (List Char)) (last more : List Char) :
    join ['/'] (init ++ [last ++ more]) = join ['/'] (init ++ [last]) ++ more := by
  induction init with
  | nil => rfl
  | cons part init ih =>
    rw [List.cons_append, List.cons_append, join_cons _ part (by simp), join_cons _ part (by simp), ih]
    simp

theorem text_of_named {p : Path} (h : p.parts ≠ []) : p.text = p.root ++ join ['/'] p.parts := by
  unfold text
  rw [if_neg fun hnone => h hnone.2]

theorem exists_suffixed (p : Path) {more : List Char} (h : Named more) : ∃ q : Path, q.text = p.text ++ more := by
  rcases List.eq_nil_or_concat p.parts with hparts | ⟨init, last, hparts⟩
  · by_cases hroot : p.root = []
    · have hnamed : ∀ part ∈ ['.' :: more], Named part := by
        intro part hpart
        rw [List.mem_singleton.mp hpart]
        exact ⟨List.cons_ne_nil _ _, fun heq => h.1 (List.cons.inj heq).2, by simpa using h.2.2⟩
      refine ⟨⟨[], ['.' :: more], by decide, hnamed⟩, ?_⟩
      rw [text_of_named (List.cons_ne_nil _ _)]
      unfold text
      rw [if_pos ⟨hroot, hparts⟩]
      rfl
    · have hnamed : ∀ part ∈ [more], Named part := by
        intro part hpart
        rw [List.mem_singleton.mp hpart]
        exact h
      refine ⟨⟨p.root, [more], p.rooted, hnamed⟩, ?_⟩
      rw [text_of_named (List.cons_ne_nil _ _)]
      unfold text
      rw [if_neg fun hnone => hroot hnone.1, hparts]
      show p.root ++ more = p.root ++ [] ++ more
      rw [List.append_nil]
  · rw [List.concat_eq_append] at hparts
    have hne : p.parts ≠ [] := by
      rw [hparts]
      simp
    obtain ⟨hlast, hdot, hslash⟩ := p.named last (by rw [hparts]; simp)
    have hnamed : ∀ part ∈ init ++ [last ++ more], Named part := by
      intro part hpart
      rcases List.mem_append.mp hpart with hpart | hpart
      · exact p.named part (by rw [hparts]; exact List.mem_append_left _ hpart)
      · rw [List.mem_singleton.mp hpart]
        refine ⟨fun hnil => hlast (List.append_eq_nil_iff.mp hnil).1, fun heq => ?_, ?_⟩
        · have hlength := congrArg List.length heq
          have h1 := List.length_pos_of_ne_nil hlast
          have h2 := List.length_pos_of_ne_nil h.1
          rw [List.length_append, List.length_singleton] at hlength
          omega
        · rw [List.mem_append, not_or]
          exact ⟨hslash, h.2.2⟩
    refine ⟨⟨p.root, init ++ [last ++ more], p.rooted, hnamed⟩, ?_⟩
    rw [text_of_named hne, text_of_named (by simp)]
    show p.root ++ join ['/'] (init ++ [last ++ more]) = _
    rw [hparts, join_last, List.append_assoc]

/-- A path's text with letters after it is a path's. -/
theorem text_ofText_append (p : Path) {more : List Char} (h : Named more) :
    (ofText (p.text ++ more)).text = p.text ++ more := by
  obtain ⟨q, hq⟩ := exists_suffixed p h
  rw [← hq, ofText_text]

/-- The text ends in the last name, after a slash if anything. -/
theorem text_eq_append {p : Path} (h : p.parts ≠ []) :
    ∃ before, p.text = before ++ p.name ∧ ∀ c ∈ before.getLast?, c = '/' := by
  obtain ⟨init, last, hparts⟩ := (List.eq_nil_or_concat p.parts).resolve_left h
  rw [List.concat_eq_append] at hparts
  have hname : p.name = last := by
    unfold name
    rw [hparts, List.getLast?_concat]
    rfl
  rw [text_of_named h, hname, hparts]
  cases init with
  | nil =>
    refine ⟨p.root, rfl, fun c hc => ?_⟩
    have hrooted := p.rooted
    unfold roots at hrooted
    rcases List.mem_cons.mp hrooted with hroot | hrooted
    · rw [hroot] at hc
      cases hc
    · rcases List.mem_pair.mp hrooted with hroot | hroot
      · rw [hroot] at hc
        exact (Option.some.inj hc).symm
      · rw [hroot] at hc
        exact (Option.some.inj hc).symm
  | cons part init =>
    refine ⟨p.root ++ join ['/'] (part :: init) ++ ['/'], ?_, fun c hc => ?_⟩
    · rw [join_append _ (List.cons_ne_nil _ _) (List.cons_ne_nil _ _)]
      simp [join]
    · rw [List.getLast?_concat] at hc
      exact (Option.some.inj hc).symm

/-- What has no slash is at the end of a path if it is at the end of its name. -/
theorem suffix_text_iff {p : Path} (h : p.parts ≠ []) {more : List Char} (hmore : '/' ∉ more) :
    more <:+ p.text ↔ more <:+ p.name := by
  obtain ⟨before, htext, hlast⟩ := text_eq_append h
  have hname : p.name <:+ p.text := ⟨before, htext.symm⟩
  refine ⟨fun hends => ?_, fun hends => hends.trans hname⟩
  rcases List.suffix_or_suffix_of_suffix hends hname with hshort | ⟨start, hstart⟩
  · exact hshort
  · -- the letters would begin with the slash before the name
    obtain ⟨whole, hwhole⟩ := hends
    rw [← hstart, ← List.append_assoc, htext] at hwhole
    have hbefore := List.append_cancel_right hwhole
    rcases List.eq_nil_or_concat start with rfl | ⟨rest, c, rfl⟩
    · rw [← hstart]
      exact List.suffix_rfl
    · rw [List.concat_eq_append] at hbefore hstart
      have hc := hlast c (by rw [← hbefore, ← List.append_assoc, List.getLast?_concat]; rfl)
      refine absurd ?_ hmore
      rw [← hstart, hc]
      simp

/-! ## Other names beside and above -/

theorem withName_text {p q : Path} {name : List Char} (h : p.withName name = some q) :
    q.parts ≠ [] ∧ q.name = name := by
  unfold withName at h
  split at h
  · rw [← Option.some.inj h]
    refine ⟨by simp, ?_⟩
    show (((p.parent.parts ++ [name]).getLast?).getD []) = name
    rw [List.getLast?_concat]
    rfl
  · cases h

theorem parts_of_under {d p : Path} (h : d.under p = true) : p.parts ≠ [] := by
  rintro hnil
  unfold under at h
  rw [hnil, Bool.and_eq_true, Bool.and_eq_true, decide_eq_true_eq, decide_eq_true_eq] at h
  exact h.2 (List.prefix_nil.mp (List.isPrefixOf_iff_prefix.mp h.1.2))

theorem root_of_under {d p : Path} (h : d.under p = true) : p.root = d.root := by
  unfold under at h
  rw [Bool.and_eq_true, Bool.and_eq_true, decide_eq_true_eq] at h
  exact h.1.1.symm

/-- Climbing stays where the path starts. -/
theorem root_climb (isDir : Path → Bool) (p : Path) : (p.climb isDir).root = p.root := by
  have hfrom : ∀ n, ∀ p : Path, (climbFrom isDir n p).root = p.root := by
    intro n
    induction n with
    | zero => exact fun _ => rfl
    | succ n ih =>
      intro p
      unfold climbFrom
      split
      · rfl
      · exact ih p.parent
  exact hfrom _ p

theorem length_parent (p : Path) : p.parent.parts.length = p.parts.length - 1 := by
  show (p.parts.take (p.parts.length - 1)).length = _
  rw [List.length_take]
  omega

theorem length_of_mem_lineage {p q : Path} (h : q ∈ p.lineage) : q.parts.length ≤ p.parts.length := by
  obtain ⟨n, -, rfl⟩ := List.mem_map.mp h
  exact List.length_take_le' _ _

/-- A path does not lead through itself to what it is in. -/
theorem not_mem_lineage_parent {p : Path} (h : p.parts ≠ []) : p ∉ p.parent.lineage := by
  intro hmem
  have hlong := length_of_mem_lineage hmem
  have hpos := List.length_pos_of_ne_nil h
  rw [length_parent] at hlong
  omega

/-- Where paths start from directories, climbing ends at one. -/
theorem isDir_climb {isDir : Path → Bool} (h : ∀ p : Path, p.parts = [] → isDir p = true) (p : Path) :
    isDir (p.climb isDir) = true := by
  have hfrom : ∀ n, ∀ p : Path, p.parts.length ≤ n → isDir (climbFrom isDir n p) = true := by
    intro n
    induction n with
    | zero => exact fun p hp => h p (List.length_eq_zero_iff.mp (by omega))
    | succ n ih =>
      intro p hp
      unfold climbFrom
      split
      · next hdir => exact hdir
      · refine ih p.parent ?_
        rw [length_parent]
        omega
  exact hfrom _ p (Nat.le_refl _)

end Path

end Posix
