/-
  Text put together from parts with a separator between them.
  `split` takes a joined text apart at the separator, from the left. A part is told from what
  follows it where the separator behind the part is the first one (`Ends`); parts that are not can
  be cut elsewhere, and one text is then joined from two lists of parts (`join_eq_iff`).
-/
import Mathlib.Data.List.Basic
import Mathlib.Data.List.Infix

namespace Delimited

variable {α : Type}

/-! ## Joining -/

/-- The parts with the separator between them. -/
def join (sep : List α) : List (List α) → List α
  | [] => []
  | [p] => p
  | p :: q :: rest => p ++ (sep ++ join sep (q :: rest))

theorem join_cons (sep p : List α) {ps : List (List α)} (h : ps ≠ []) :
    join sep (p :: ps) = p ++ (sep ++ join sep ps) := by
  cases ps with
  | nil => exact absurd rfl h
  | cons q ps => rfl

theorem join_append (sep : List α) {ps qs : List (List α)} (hp : ps ≠ []) (hq : qs ≠ []) :
    join sep (ps ++ qs) = join sep ps ++ (sep ++ join sep qs) := by
  induction ps with
  | nil => exact absurd rfl hp
  | cons p ps ih =>
    rw [List.cons_append, join_cons sep p (by simp [hq])]
    by_cases hps : ps = []
    · subst hps; rfl
    · rw [ih hps, join_cons sep p hps, List.append_assoc, List.append_assoc]

theorem join_prefix (sep : List α) (ps qs : List (List α)) : join sep ps <+: join sep (ps ++ qs) := by
  by_cases hps : ps = []
  · rw [hps]
    exact List.nil_prefix
  · by_cases hqs : qs = []
    · rw [hqs, List.append_nil]
    · rw [join_append sep hps hqs]
      exact List.prefix_append _ _

/-- Joined with the same parts before them, the last parts are determined. -/
theorem join_append_left_inj (sep : List α) (ps : List (List α)) {qs qs' : List (List α)} (hq : qs ≠ [])
    (hq' : qs' ≠ []) : join sep (ps ++ qs) = join sep (ps ++ qs') ↔ join sep qs = join sep qs' := by
  by_cases hps : ps = []
  · rw [hps]
    rfl
  · rw [join_append sep hps hq, join_append sep hps hq', List.append_cancel_left_eq, List.append_cancel_left_eq]

theorem join_last_injective (sep : List α) (ps : List (List α)) {x y : List α}
    (h : join sep (ps ++ [x]) = join sep (ps ++ [y])) : x = y :=
  (join_append_left_inj sep ps (List.cons_ne_nil _ _) (List.cons_ne_nil _ _)).mp h

/-! ## Two lists of parts for one text -/

/-- The last part of the one list is what the other goes on with. -/
def Runs (sep : List α) (ps qs : List (List α)) : Prop :=
  ∃ init last more, ps = init ++ [last] ∧ qs = init ++ more ∧ 2 ≤ more.length ∧ last = join sep more

/-- The first parts in which the lists differ are none of them the last, and each is cut where the other is not. -/
def Straddles (sep : List α) (ps qs : List (List α)) : Prop :=
  ∃ init p p' rest rest', ps = init ++ p :: rest ∧ qs = init ++ p' :: rest' ∧ rest ≠ [] ∧ rest' ≠ [] ∧ p ≠ p' ∧
    p ++ (sep ++ join sep rest) = p' ++ (sep ++ join sep rest')

theorem Runs.cons {sep : List α} {ps qs : List (List α)} (p : List α) (h : Runs sep ps qs) :
    Runs sep (p :: ps) (p :: qs) := by
  obtain ⟨init, last, more, rfl, rfl, hmore, hlast⟩ := h
  exact ⟨p :: init, last, more, rfl, rfl, hmore, hlast⟩

theorem Straddles.cons {sep : List α} {ps qs : List (List α)} (p : List α) (h : Straddles sep ps qs) :
    Straddles sep (p :: ps) (p :: qs) := by
  obtain ⟨init, q, q', rest, rest', rfl, rfl, hboth⟩ := h
  exact ⟨p :: init, q, q', rest, rest', rfl, rfl, hboth⟩

theorem Straddles.symm {sep : List α} {ps qs : List (List α)} (h : Straddles sep ps qs) : Straddles sep qs ps := by
  obtain ⟨init, p, p', rest, rest', hp, hq, hrest, hrest', hne, heq⟩ := h
  exact ⟨init, p', p, rest', rest, hq, hp, hrest', hrest, hne.symm, heq.symm⟩

theorem Runs.join_eq {sep : List α} {ps qs : List (List α)} (h : Runs sep ps qs) : join sep ps = join sep qs := by
  obtain ⟨init, last, more, rfl, rfl, hmore, rfl⟩ := h
  have hne : more ≠ [] := by
    intro hnil
    rw [hnil, List.length_nil] at hmore
    omega
  exact (join_append_left_inj sep init (List.cons_ne_nil _ _) hne).mpr rfl

theorem Straddles.join_eq {sep : List α} {ps qs : List (List α)} (h : Straddles sep ps qs) :
    join sep ps = join sep qs := by
  obtain ⟨init, p, p', rest, rest', rfl, rfl, hrest, hrest', -, heq⟩ := h
  rw [join_append_left_inj sep init (List.cons_ne_nil _ _) (List.cons_ne_nil _ _), join_cons sep p hrest,
    join_cons sep p' hrest', heq]

/-- Two lists of parts are joined to one text exactly where they are one list, one ends in a part that is joined
    from the other's, or they are cut at different separators. -/
theorem join_eq_iff (sep : List α) {ps qs : List (List α)} (hps : ps ≠ []) (hqs : qs ≠ []) :
    join sep ps = join sep qs ↔ ps = qs ∨ Runs sep ps qs ∨ Runs sep qs ps ∨ Straddles sep ps qs := by
  constructor
  · intro h
    induction ps generalizing qs with
    | nil => exact absurd rfl hps
    | cons p ps ih =>
      obtain ⟨q, qs, rfl⟩ := List.exists_cons_of_ne_nil hqs
      by_cases hp : ps = []
      · subst hp
        by_cases hq : qs = []
        · subst hq
          exact .inl (congrArg (fun t => [t]) h)
        · refine .inr (.inl ⟨[], p, q :: qs, rfl, rfl, ?_, h⟩)
          have hpos := List.length_pos_of_ne_nil hq
          rw [List.length_cons]
          omega
      · by_cases hq : qs = []
        · subst hq
          refine .inr (.inr (.inl ⟨[], q, p :: ps, rfl, rfl, ?_, h.symm⟩))
          have hpos := List.length_pos_of_ne_nil hp
          rw [List.length_cons]
          omega
        · rw [join_cons sep p hp, join_cons sep q hq] at h
          by_cases hpq : p = q
          · subst hpq
            rcases ih hp hq (List.append_cancel_left (List.append_cancel_left h)) with rfl | hruns | hruns | hstraddles
            · exact .inl rfl
            · exact .inr (.inl (hruns.cons p))
            · exact .inr (.inr (.inl (hruns.cons p)))
            · exact .inr (.inr (.inr (hstraddles.cons p)))
          · exact .inr (.inr (.inr ⟨[], p, q, ps, qs, rfl, rfl, hp, hq, hpq, h⟩))
  · rintro (rfl | hruns | hruns | hstraddles)
    · rfl
    · exact hruns.join_eq
    · exact hruns.join_eq.symm
    · exact hstraddles.join_eq

/-! ## Splitting -/

section Split

variable [DecidableEq α]

/-- One character more in the first part. -/
def consFirst (a : α) : List (List α) → List (List α)
  | [] => [[a]]
  | p :: ps => (a :: p) :: ps

/-- Skip `k` characters of a separator that was found, then go on splitting. -/
def splitFrom (sep : List α) : Nat → List α → List (List α)
  | _, [] => [[]]
  | k + 1, _ :: rest => splitFrom sep k rest
  | 0, a :: rest =>
    if sep <+: a :: rest then [] :: splitFrom sep (sep.length - 1) rest
    else consFirst a (splitFrom sep 0 rest)

/-- The parts between the separators, from the left. -/
def split (sep text : List α) : List (List α) := splitFrom sep 0 text

theorem splitFrom_eq_drop (sep : List α) (k : Nat) (text : List α) :
    splitFrom sep k text = split sep (text.drop k) := by
  induction text generalizing k with
  | nil =>
    rw [List.drop_nil]
    cases k <;> rfl
  | cons a text ih =>
    cases k with
    | zero => rfl
    | succ k => exact ih k

theorem split_cons_of_not_sep {sep : List α} {a : α} {rest : List α} (h : ¬ sep <+: a :: rest) :
    split sep (a :: rest) = consFirst a (split sep rest) := by
  unfold split
  rw [splitFrom, if_neg h]

theorem split_sep_append {sep : List α} (h : sep ≠ []) (rest : List α) :
    split sep (sep ++ rest) = [] :: split sep rest := by
  cases sep with
  | nil => exact absurd rfl h
  | cons x sep =>
    unfold split
    rw [List.cons_append, splitFrom, ← List.cons_append, if_pos (List.prefix_append _ _), splitFrom_eq_drop,
      List.length_cons, Nat.add_sub_cancel, List.drop_left]
    rfl

theorem split_ne_nil (sep text : List α) : split sep text ≠ [] := by
  cases text with
  | nil => exact List.cons_ne_nil _ _
  | cons a text =>
    unfold split
    rw [splitFrom]
    split
    · exact List.cons_ne_nil _ _
    · unfold consFirst
      split <;> exact List.cons_ne_nil _ _

/-- A text begins with the separator, or its first character is in the first part, or it is empty. -/
theorem split_cases {sep : List α} (h : sep ≠ []) (text : List α) :
    (∃ rest, text = sep ++ rest ∧ split sep text = [] :: split sep rest) ∨
      (∃ a rest p ps, text = a :: rest ∧ ¬ sep <+: text ∧ split sep rest = p :: ps ∧
        split sep text = (a :: p) :: ps) ∨
      text = [] := by
  cases text with
  | nil => exact .inr (.inr rfl)
  | cons a text =>
    by_cases hsep : sep <+: a :: text
    · obtain ⟨rest, hrest⟩ := hsep
      refine .inl ⟨rest, hrest.symm, ?_⟩
      rw [← hrest, split_sep_append h]
    · obtain ⟨p, ps, hsplit⟩ := List.exists_cons_of_ne_nil (split_ne_nil sep text)
      refine .inr (.inl ⟨a, text, p, ps, rfl, hsep, hsplit, ?_⟩)
      rw [split_cons_of_not_sep hsep, hsplit]
      rfl

/-- Joining what was split gives the text back. -/
theorem join_split {sep : List α} (h : sep ≠ []) (text : List α) : join sep (split sep text) = text := by
  induction hn : text.length using Nat.strong_induction_on generalizing text with
  | _ n ih =>
    rcases split_cases h text with ⟨rest, rfl, hrest⟩ | ⟨a, rest, p, ps, rfl, -, hrest, hsplit⟩ | rfl
    · have hshort : rest.length < n := by
        have hpos := List.length_pos_of_ne_nil h
        rw [← hn, List.length_append]
        omega
      rw [hrest, join_cons sep [] (split_ne_nil sep rest), ih _ hshort rest rfl, List.nil_append]
    · have hshort : rest.length < n := by
        rw [← hn, List.length_cons]
        omega
      have hback := ih _ hshort rest rfl
      rw [hrest] at hback
      rw [hsplit, ← hback]
      cases ps with
      | nil => rfl
      | cons q ps => rfl
    · rfl

omit [DecidableEq α] in
/-- With the separator behind it, the part has no separator before that one. -/
def Ends (sep p : List α) : Prop := ∀ q rest, p ++ sep = q ++ (sep ++ rest) → rest = []

omit [DecidableEq α] in
theorem Ends.tail {sep p : List α} {a : α} (h : Ends sep (a :: p)) : Ends sep p := by
  intro q rest heq
  exact h (a :: q) rest (by rw [List.cons_append, List.cons_append, heq])

omit [DecidableEq α] in
theorem ends_nil (sep : List α) : Ends sep [] := by
  intro q rest heq
  have hlength := congrArg List.length heq
  rw [List.nil_append, List.length_append, List.length_append] at hlength
  exact List.length_eq_zero_iff.mp (by omega)

omit [DecidableEq α] in
/-- A separator of one character ends the parts it is not in. -/
theorem ends_singleton {c : α} {p : List α} : Ends [c] p ↔ c ∉ p := by
  constructor
  · intro h hmem
    obtain ⟨s, t, rfl⟩ := List.append_of_mem hmem
    have hrest := h s (t ++ [c]) (by simp)
    simp at hrest
  · intro h q rest heq
    rcases List.eq_nil_or_concat rest with rfl | ⟨more, d, rfl⟩
    · rfl
    · rw [List.concat_eq_append, ← List.append_assoc, ← List.append_assoc] at heq
      have hp := (List.append_inj' heq rfl).1
      exact absurd (by rw [hp]; simp) h

/-- The first part is cut off where the separator ends it. -/
theorem split_append {sep p : List α} (h : sep ≠ []) (hp : Ends sep p) (rest : List α) :
    split sep (p ++ (sep ++ rest)) = p :: split sep rest := by
  induction p with
  | nil => exact split_sep_append h rest
  | cons a p ih =>
    have hnot : ¬ sep <+: a :: (p ++ (sep ++ rest)) := by
      intro hpre
      have hwhole : a :: (p ++ sep) <+: a :: (p ++ (sep ++ rest)) := by
        rw [← List.append_assoc]
        exact List.cons_prefix_cons.mpr ⟨rfl, List.prefix_append _ _⟩
      obtain ⟨more, hmore⟩ := List.prefix_of_prefix_length_le hpre hwhole (by simp; omega)
      have hlength := congrArg List.length hmore
      rw [hp [] more hmore.symm] at hlength
      simp at hlength
      omega
    rw [List.cons_append, split_cons_of_not_sep hnot, ih hp.tail]
    rfl

theorem split_join_append {sep : List α} (h : sep ≠ []) {ps : List (List α)} (hps : ∀ p ∈ ps, Ends sep p)
    (last : List α) : split sep (join sep (ps ++ [last])) = ps ++ split sep last := by
  induction ps with
  | nil => rfl
  | cons p ps ih =>
    rw [List.cons_append, join_cons sep p (by simp), split_append h (hps p List.mem_cons_self),
      ih fun q hq => hps q (List.mem_cons_of_mem _ hq)]
    rfl

/-- As many parts that the separator ends are the same parts, whatever the last one holds. -/
theorem join_inj_of_length {sep : List α} (h : sep ≠ []) {ps qs : List (List α)} {x y : List α}
    (hp : ∀ p ∈ ps, Ends sep p) (hq : ∀ q ∈ qs, Ends sep q) (hlen : ps.length = qs.length)
    (heq : join sep (ps ++ [x]) = join sep (qs ++ [y])) : ps = qs ∧ x = y := by
  have hsplit := congrArg (split sep) heq
  rw [split_join_append h hp, split_join_append h hq] at hsplit
  obtain ⟨hparts, hlast⟩ := List.append_inj hsplit hlen
  refine ⟨hparts, ?_⟩
  rw [← join_split h x, hlast, join_split h y]

/-- The separator ends every part that was split off. -/
theorem ends_of_split {sep : List α} (h : sep ≠ []) {text last : List α} {ps : List (List α)}
    (hsplit : split sep text = ps ++ [last]) : ∀ p ∈ ps, Ends sep p := by
  induction hn : text.length using Nat.strong_induction_on generalizing text ps with
  | _ n ih =>
    rcases split_cases h text with ⟨rest, rfl, hrest⟩ | ⟨a, rest, p, qs, rfl, hnot, hrest, htext⟩ | rfl
    · have hshort : rest.length < n := by
        have hpos := List.length_pos_of_ne_nil h
        rw [← hn, List.length_append]
        omega
      rw [hrest] at hsplit
      cases ps with
      | nil => exact absurd (List.cons.inj hsplit).2 (split_ne_nil sep rest)
      | cons p ps =>
        obtain ⟨rfl, hps⟩ := List.cons.inj hsplit
        intro q hq
        rcases List.mem_cons.mp hq with rfl | hq
        · exact ends_nil sep
        · exact ih _ hshort hps rfl q hq
    · have hshort : rest.length < n := by
        rw [← hn, List.length_cons]
        omega
      rw [htext] at hsplit
      cases ps with
      | nil => exact fun q hq => absurd hq List.not_mem_nil
      | cons q ps =>
        obtain ⟨rfl, hps⟩ := List.cons.inj hsplit
        rw [hps] at hrest
        have hends : ∀ q ∈ p :: ps, Ends sep q := ih _ hshort hrest rfl
        intro q hq
        rcases List.mem_cons.mp hq with rfl | hq
        · intro q more heq
          cases q with
          | nil =>
            -- the text would begin with the separator
            have hback := join_split h rest
            rw [hrest, join_cons sep p (by simp)] at hback
            have hbegins : a :: (p ++ sep) = sep ++ more := heq
            refine absurd ?_ hnot
            rw [← hback, ← List.append_assoc, ← List.cons_append, hbegins, List.append_assoc]
            exact List.prefix_append _ _
          | cons b q => exact hends p List.mem_cons_self q more (List.cons.inj heq).2
        · exact hends q (List.mem_cons_of_mem _ hq)
    · cases ps with
      | nil => exact fun q hq => absurd hq List.not_mem_nil
      | cons p ps =>
        have hnil : [] = ps ++ [last] := (List.cons.inj hsplit).2
        simp at hnil

end Split

/-! ## A separator of one character -/

section One

variable [DecidableEq α]

theorem sep_not_mem_splitOn {sep : α} {text p : List α} (h : p ∈ text.splitOn sep) : sep ∉ p := by
  induction text generalizing p with
  | nil =>
    rw [List.splitOn_nil, List.mem_singleton] at h
    rw [h]
    exact List.not_mem_nil
  | cons a text ih =>
    rw [List.splitOn_cons_eq_if_modifyHead] at h
    split at h
    · rcases List.mem_cons.mp h with rfl | h
      · exact List.not_mem_nil
      · exact ih h
    · next ha =>
      obtain ⟨q, qs, hsplit⟩ := List.exists_cons_of_ne_nil (List.splitOn_ne_nil sep text)
      rw [hsplit] at h ih
      rcases List.mem_cons.mp h with rfl | h
      · rw [List.mem_cons, not_or]
        exact ⟨fun he => ha (beq_iff_eq.mpr he.symm), ih List.mem_cons_self⟩
      · exact ih (List.mem_cons_of_mem _ h)

theorem splitOn_join {sep : α} {ps : List (List α)} (hne : ps ≠ []) (h : ∀ p ∈ ps, sep ∉ p) :
    (join [sep] ps).splitOn sep = ps := by
  induction ps with
  | nil => exact absurd rfl hne
  | cons p ps ih =>
    have hp := h p List.mem_cons_self
    by_cases hps : ps = []
    · subst hps
      exact List.splitOn_eq_singleton hp
    · rw [join_cons [sep] p hps, List.singleton_append, List.splitOn_append_cons_of_beq _ _ (beq_self_eq_true sep),
        List.splitOn_eq_singleton hp, ih hps fun q hq => h q (List.mem_cons_of_mem _ hq)]
      rfl

/-- Parts free of the separator can be read off the joined text. -/
theorem join_injective {sep : α} {ps qs : List (List α)} (hps : ps ≠ []) (hqs : qs ≠ []) (hp : ∀ p ∈ ps, sep ∉ p)
    (hq : ∀ q ∈ qs, sep ∉ q) (h : join [sep] ps = join [sep] qs) : ps = qs := by
  rw [← splitOn_join hps hp, h, splitOn_join hqs hq]

end One

end Delimited
