import Mathlib.Data.List.Forall2
import Mathlib.Data.List.Infix
import Mathlib.Data.List.TakeDrop

/-
  Patterns whose items stand for one element, or for any run of elements.
  `accepts_tests_many` is what a pattern of tests with a wildcard at its end accepts, and
  `accepts_of_stands` that a pattern read from a text accepts the text, whatever follows.
-/

namespace Glob

variable {α : Type}

/-- One item of a pattern. -/
inductive Item (α : Type) where
  | one (test : α → Bool)
  | many

/-- Whether a pattern is the whole of a list. -/
def accepts : List (Item α) → List α → Bool
  | [], xs => xs.isEmpty
  | .one _ :: _, [] => false
  | .one test :: items, x :: xs => test x && accepts items xs
  | .many :: items, xs => xs.tails.any (accepts items)

@[simp] theorem accepts_nil (xs : List α) : accepts [] xs = xs.isEmpty := by
  rw [accepts]

@[simp] theorem accepts_one_cons (test : α → Bool) (items : List (Item α)) (x : α) (xs : List α) :
    accepts (.one test :: items) (x :: xs) = (test x && accepts items xs) := by
  rw [accepts]

theorem accepts_many {items : List (Item α)} {xs : List α} :
    accepts (.many :: items) xs = true ↔ ∃ u v, xs = u ++ v ∧ accepts items v = true := by
  rw [accepts, List.any_eq_true]
  constructor
  · intro ⟨v, hv, haccepts⟩
    obtain ⟨u, hu⟩ := (List.mem_tails _ _).mp hv
    exact ⟨u, v, hu.symm, haccepts⟩
  · intro ⟨u, v, hxs, haccepts⟩
    exact ⟨v, (List.mem_tails _ _).mpr ⟨u, hxs.symm⟩, haccepts⟩

/-- A wildcard at the end takes whatever is left. -/
theorem accepts_many_end (xs : List α) : accepts [.many] xs = true :=
  accepts_many.mpr ⟨xs, [], (List.append_nil xs).symm, rfl⟩

/-- Tests, one for each element, and then a wildcard. -/
theorem accepts_tests_many {tests : List (α → Bool)} : ∀ {xs : List α},
    accepts (tests.map Item.one ++ [.many]) xs = true ↔
      ∃ u v, xs = u ++ v ∧ List.Forall₂ (fun test x => test x = true) tests u := by
  induction tests with
  | nil =>
    intro xs
    refine ⟨fun _ => ⟨[], xs, rfl, .nil⟩, fun _ => accepts_many_end xs⟩
  | cons test tests ih =>
    intro xs
    constructor
    · intro haccepts
      cases xs with
      | nil =>
        rw [List.map_cons, List.cons_append, accepts] at haccepts
        cases haccepts
      | cons x xs =>
        rw [List.map_cons, List.cons_append, accepts_one_cons, Bool.and_eq_true] at haccepts
        obtain ⟨u, v, hxs, hall⟩ := ih.mp haccepts.2
        exact ⟨x :: u, v, by rw [hxs]; rfl, .cons haccepts.1 hall⟩
    · intro ⟨u, v, hxs, hall⟩
      cases hall with
      | @cons _ x _ u htest hall =>
        rw [hxs, List.cons_append, List.map_cons, List.cons_append, accepts_one_cons, htest]
        exact ih.mpr ⟨u, v, rfl, hall⟩

/-- The item takes at least this element. -/
def Stands : Item α → α → Prop
  | .one test, x => test x = true
  | .many, _ => True

theorem accepts_of_stands {items : List (Item α)} {xs : List α} (h : List.Forall₂ Stands items xs)
    (rest : List α) : accepts (items ++ [.many]) (xs ++ rest) = true := by
  induction h with
  | nil => exact accepts_many_end rest
  | @cons item x items xs hitem _ ih =>
    cases item with
    | one test =>
      have htest : test x = true := hitem
      rw [List.cons_append, List.cons_append, accepts_one_cons, htest, ih]
      rfl
    | many => exact accepts_many.mpr ⟨[x], xs ++ rest, rfl, ih⟩

end Glob
