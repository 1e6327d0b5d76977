import Mathlib.Data.List.Basic

/-
  Reading a list in pieces.
  A size is a bound on a piece; no size, or a negative one, stands for all that is left.
  Whatever the sizes, the pieces in order are the list up to what is left.
-/

namespace Pieces

variable {α : Type}

/-- A piece of the list, and the rest of it. -/
def readOf : Option Int → List α → List α × List α
  | none, s => (s, [])
  | some size, s => if size < 0 then (s, []) else (s.take size.toNat, s.drop size.toNat)

def piecesOf : List (Option Int) → List α → List (List α) × List α
  | [], s => ([], s)
  | size :: sizes, s =>
    ((readOf size s).1 :: (piecesOf sizes (readOf size s).2).1, (piecesOf sizes (readOf size s).2).2)

/-! ## One piece -/

theorem readOf_append (size : Option Int) (s : List α) : (readOf size s).1 ++ (readOf size s).2 = s := by
  cases size with
  | none => simp [readOf]
  | some size =>
    rw [readOf]
    split
    · simp
    · exact List.take_append_drop _ s

theorem length_readOf {size : Int} (h : 0 ≤ size) (s : List α) :
    ((readOf (some size) s).1.length : Int) ≤ size := by
  rw [readOf, if_neg (by omega), List.length_take]
  omega

theorem readOf_all {size : Option Int} (h : size = none ∨ ∃ n < 0, size = some n) (s : List α) :
    (readOf size s).1 = s := by
  rcases h with rfl | ⟨n, hn, rfl⟩
  · rfl
  · rw [readOf, if_pos hn]

/-- Only from an empty list is an empty piece read, unless that is asked for. -/
theorem readOf_nil {size : Int} (h : size ≠ 0) {s : List α} (hpiece : (readOf (some size) s).1 = []) :
    s = [] := by
  rw [readOf] at hpiece
  split at hpiece
  · exact hpiece
  · rw [List.take_eq_nil_iff] at hpiece
    exact hpiece.resolve_left (by omega)

/-! ## The pieces -/

theorem length_piecesOf (sizes : List (Option Int)) (s : List α) :
    (piecesOf sizes s).1.length = sizes.length := by
  induction sizes generalizing s with
  | nil => rfl
  | cons size sizes ih => simp [piecesOf, ih]

theorem flatten_piecesOf (sizes : List (Option Int)) (s : List α) :
    (piecesOf sizes s).1.flatten ++ (piecesOf sizes s).2 = s := by
  induction sizes generalizing s with
  | nil => rfl
  | cons size sizes ih =>
    rw [piecesOf, List.flatten_cons, List.append_assoc, ih, readOf_append]

/-- A piece is read from what the pieces before it have left. -/
theorem piecesOf_getElem? {sizes : List (Option Int)} {s : List α} {i : Nat} {size : Option Int}
    {piece : List α} (hsize : sizes[i]? = some size) (hpiece : (piecesOf sizes s).1[i]? = some piece) :
    ∃ rest, ((piecesOf sizes s).1.take i).flatten ++ rest = s ∧ piece = (readOf size rest).1 := by
  induction sizes generalizing s i with
  | nil => simp at hsize
  | cons first sizes ih =>
    cases i with
    | zero =>
      simp only [List.getElem?_cons_zero, Option.some.injEq, piecesOf] at hsize hpiece
      refine ⟨s, rfl, ?_⟩
      rw [← hpiece, hsize]
    | succ i =>
      rw [piecesOf, List.getElem?_cons_succ] at hpiece
      rw [List.getElem?_cons_succ] at hsize
      obtain ⟨rest, hbefore, hread⟩ := ih hsize hpiece
      refine ⟨rest, ?_, hread⟩
      rw [piecesOf, List.take_succ_cons, List.flatten_cons, List.append_assoc, hbefore, readOf_append]

end Pieces
