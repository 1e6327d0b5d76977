import Mathlib.Data.List.Sort

/-
  What stands before what in a list, sorted or not.
  Elements that a stable sort does not tell apart stay as they come (`pairwise_mergeSort`), so it can be
  done on a part of them as on all (`mergeSort_filter`). Of lists in an order of their own the first few
  can be told by what comes before them.
-/

namespace Stable

variable {X : Type}

/-! ## Which of two comes first -/

theorem pair_sublist {x y : X} (hne : x ≠ y) : ∀ {xs : List X}, x ∈ xs → y ∈ xs →
    List.Sublist [x, y] xs ∨ List.Sublist [y, x] xs := by
  intro xs
  induction xs with
  | nil => exact fun hx => absurd hx List.not_mem_nil
  | cons a xs ih =>
    intro hx hy
    rcases List.mem_cons.mp hx with rfl | hx
    · have hy := (List.mem_cons.mp hy).resolve_left hne.symm
      exact .inl (List.cons_sublist_cons.mpr (List.singleton_sublist.mpr hy))
    · rcases List.mem_cons.mp hy with hya | hy
      · rw [hya]
        exact .inr (List.cons_sublist_cons.mpr (List.singleton_sublist.mpr hx))
      · rcases ih hx hy with h | h
        · exact .inl (h.cons a)
        · exact .inr (h.cons a)

theorem pair_sublist_asymm {x y : X} : ∀ {xs : List X}, xs.Nodup → List.Sublist [x, y] xs →
    ¬ List.Sublist [y, x] xs := by
  intro xs
  induction xs with
  | nil => exact fun _ h => by cases h
  | cons a xs ih =>
    intro hnodup h h'
    obtain ⟨ha, hnodup⟩ := List.nodup_cons.mp hnodup
    cases h with
    | cons _ h =>
      cases h' with
      | cons _ h' => exact ih hnodup h h'
      | cons_cons _ _ => exact ha (h.subset (List.mem_cons_of_mem _ List.mem_cons_self))
    | cons_cons _ h =>
      cases h' with
      | cons _ h' => exact ha (h'.subset (List.mem_cons_of_mem _ List.mem_cons_self))
      | cons_cons _ _ => exact ha (List.singleton_sublist.mp h)

/-! ## Sorting -/

section Sorting

variable {le : X → X → Bool} (htrans : ∀ x y z, le x y = true → le y z = true → le x z = true)
  (htotal : ∀ x y, (le x y || le y x) = true) {before : X → X → Prop}

include htrans htotal

/-- Sorted elements that are level stand as they stood. -/
theorem pairwise_mergeSort {xs : List X} (hnodup : xs.Nodup)
    (hxs : xs.Pairwise fun x y => le x y = true → le y x = true → before x y) :
    (xs.mergeSort le).Pairwise fun x y => le x y = true ∧ (le y x = true → before x y) := by
  have hperm := List.mergeSort_perm xs le
  have hsorted := List.pairwise_mergeSort htrans htotal xs
  refine List.pairwise_iff_forall_sublist.mpr fun {x y} hpair => ?_
  have hxy := hsorted.forall_sublist hpair
  refine ⟨hxy, fun hyx => ?_⟩
  have hnodup' := hperm.nodup_iff.mpr hnodup
  have hne : x ≠ y := by
    rintro rfl
    exact pair_sublist_asymm hnodup' hpair hpair
  have hx := hperm.mem_iff.mp (hpair.subset List.mem_cons_self)
  have hy := hperm.mem_iff.mp (hpair.subset (List.mem_cons_of_mem _ List.mem_cons_self))
  rcases pair_sublist hne hx hy with h | h
  · exact hxs.forall_sublist h hxy hyx
  · exact absurd (List.pair_sublist_mergeSort htrans htotal hyx h) (pair_sublist_asymm hnodup' hpair)

/-- A stable sort of some elements is what the sort of all of them has of these. -/
theorem mergeSort_filter (p : X → Bool) {xs : List X} (hnodup : xs.Nodup) :
    (xs.filter p).mergeSort le = (xs.mergeSort le).filter p := by
  have hplaced : xs.Pairwise fun x y => List.Sublist [x, y] xs :=
    List.pairwise_iff_forall_sublist.mpr fun h => h
  have hsorted : ∀ {ys : List X}, ys.Sublist xs → (ys.mergeSort le).Pairwise fun x y =>
      le x y = true ∧ (le y x = true → List.Sublist [x, y] xs) := fun {ys} hys =>
    pairwise_mergeSort htrans htotal (hnodup.sublist hys) ((hplaced.sublist hys).imp fun h _ _ => h)
  have hperm := (List.mergeSort_perm (xs.filter p) le).trans ((List.mergeSort_perm xs le).filter p).symm
  refine hperm.eq_of_pairwise (fun x y _ _ hxy hyx => ?_) (hsorted List.filter_sublist)
    ((hsorted (List.Sublist.refl xs)).filter p)
  exact absurd (hyx.2 hxy.1) (pair_sublist_asymm hnodup (hxy.2 hyx.1))

end Sorting

/-! ## The first of them -/

/-- The first `n` all pass exactly where whatever does not pass has `n` of those that do before it. -/
theorem forall_take_iff {lt : X → X → Prop} (hasymm : ∀ x y, lt x y → ¬ lt y x) {p : X → Prop} {xs : List X}
    (hxs : xs.Pairwise lt) (n : Nat) : (∀ x ∈ xs.take n, p x) ↔
      ∀ x ∈ xs, ¬ p x → ∃ ys : List X, ys.Nodup ∧ ys.length = n ∧ ∀ y ∈ ys, y ∈ xs ∧ p y ∧ lt y x := by
  have hnodup : xs.Nodup := hxs.imp fun {x y} h heq => by
    subst heq
    exact hasymm _ _ h h
  constructor
  · intro hfirst x hx hnot
    have hdrop : x ∈ xs.drop n := by
      rw [← List.take_append_drop n xs] at hx
      exact (List.mem_append.mp hx).resolve_left fun h => hnot (hfirst x h)
    have hlen := List.length_pos_of_mem hdrop
    rw [List.length_drop] at hlen
    refine ⟨xs.take n, hnodup.sublist (List.take_sublist n xs), ?_, fun y hy => ?_⟩
    · rw [List.length_take]
      omega
    · have hsplit : (xs.take n ++ xs.drop n).Pairwise lt := by
        rw [List.take_append_drop]
        exact hxs
      exact ⟨List.mem_of_mem_take hy, hfirst y hy, (List.pairwise_append.mp hsplit).2.2 y hy x hdrop⟩
  · intro hbehind x hx
    by_contra hnot
    obtain ⟨ys, hys, hlen, hall⟩ := hbehind x (List.mem_of_mem_take hx) hnot
    obtain ⟨before, after, hsplit⟩ := List.append_of_mem hx
    -- whatever comes before `x` is in the list before it is
    have hxs' : xs = before ++ x :: (after ++ xs.drop n) := by
      conv_lhs => rw [← List.take_append_drop n xs, hsplit]
      rw [List.append_assoc]
      rfl
    have hsub : ys ⊆ before := by
      intro y hy
      obtain ⟨hmem, -, hlt⟩ := hall y hy
      rw [hxs'] at hmem hxs
      have hlater := (List.pairwise_cons.mp (List.pairwise_append.mp hxs).2.1).1
      rcases List.mem_append.mp hmem with h | h
      · exact h
      · rcases List.mem_cons.mp h with rfl | h
        · exact absurd hlt (hasymm _ _ hlt)
        · exact absurd hlt (hasymm _ _ (hlater y h))
    have hfew := (List.subperm_of_subset hys hsub).length_le
    have htake : (before ++ x :: after).length ≤ n := by
      rw [← hsplit]
      exact List.length_take_le n xs
    rw [List.length_append, List.length_cons] at htake
    omega

/-- Lists whose beginnings hold the same elements, however long, are the same. -/
theorem eq_of_take_perm : ∀ {xs ys : List X}, (∀ n, 1 ≤ n → (xs.take n).Perm (ys.take n)) → xs = ys := by
  intro xs
  induction xs with
  | nil =>
    intro ys h
    have hone := (h 1 (by omega)).length_eq
    rw [List.length_take, List.length_take, List.length_nil] at hone
    exact (List.eq_nil_iff_length_eq_zero.mpr (by omega)).symm
  | cons x xs ih =>
    intro ys h
    cases ys with
    | nil =>
      have hone := (h 1 (by omega)).length_eq
      rw [List.length_take, List.length_take, List.length_cons, List.length_nil] at hone
      omega
    | cons y ys =>
      have hone := h 1 (by omega)
      rw [List.take_succ_cons, List.take_succ_cons, List.take_zero, List.take_zero,
        List.singleton_perm_singleton] at hone
      subst hone
      refine congrArg (x :: ·) (ih fun n _ => ?_)
      have hnext := h (n + 1) (by omega)
      rw [List.take_succ_cons, List.take_succ_cons] at hnext
      exact hnext.cons_inv

end Stable
