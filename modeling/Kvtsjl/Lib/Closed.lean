import Kvtsjl.Lib.Prog

/-
  Kinds of programs.
  A kind that returning, raising and sequencing stay within also holds the loops over its
  members, so a long program is of the kind where each of its steps is. `Moves R` is one
  kind. `Lands R`, which only speaks of the runs that return, is another.
-/

namespace Effects

namespace Prog

variable {ε σ α β γ : Type}

/-- A kind of program that programs put together from its members belong to. -/
structure Closed (Q : ∀ {α : Type}, Prog ε σ α → Prop) : Prop where
  pure : ∀ {α : Type} (a : α), Q (pure a : Prog ε σ α)
  raise : ∀ {α : Type} (e : ε), Q (raise e : Prog ε σ α)
  bind : ∀ {α β : Type} {m : Prog ε σ α} {f : α → Prog ε σ β}, Q m → (∀ a, Q (f a)) → Q (m >>= f)

namespace Closed

variable {Q : ∀ {α : Type}, Prog ε σ α → Prop}

theorem map (h : Closed Q) {m : Prog ε σ α} (hm : Q m) (f : α → β) : Q (f <$> m) := by
  rw [map_eq_pure_bind]
  exact h.bind hm fun a => h.pure (f a)

theorem discard (h : Closed Q) {m : Prog ε σ α} (hm : Q m) : Q (Functor.discard m) :=
  h.map hm fun _ => PUnit.unit

theorem when (h : Closed Q) {p : Prop} [Decidable p] {m : Prog ε σ Unit} (hm : Q m) :
    Q (when p m) := by
  unfold Prog.when
  split
  · exact hm
  · exact h.pure ()

theorem forM (h : Closed Q) {xs : List γ} {f : γ → Prog ε σ PUnit} (hf : ∀ x ∈ xs, Q (f x)) :
    Q (forM xs f) := by
  induction xs with
  | nil => exact h.pure _
  | cons x xs ih =>
    rw [List.forM_cons]
    exact h.bind (hf x (by simp)) fun _ => ih fun y hy => hf y (List.mem_cons_of_mem _ hy)

theorem mapM (h : Closed Q) {xs : List γ} {f : γ → Prog ε σ α} (hf : ∀ x ∈ xs, Q (f x)) :
    Q (xs.mapM f) := by
  induction xs with
  | nil =>
    rw [List.mapM_nil]
    exact h.pure _
  | cons x xs ih =>
    rw [List.mapM_cons]
    refine h.bind (hf x (by simp)) fun a => ?_
    exact h.bind (ih fun y hy => hf y (List.mem_cons_of_mem _ hy)) fun _ => h.pure _

theorem foldlM (h : Closed Q) {xs : List γ} {f : α → γ → Prog ε σ α}
    (hf : ∀ a, ∀ x ∈ xs, Q (f a x)) (a : α) : Q (xs.foldlM f a) := by
  induction xs generalizing a with
  | nil =>
    rw [List.foldlM_nil]
    exact h.pure _
  | cons x xs ih =>
    rw [List.foldlM_cons]
    exact h.bind (hf a x (by simp)) fun b => ih (fun c y hy => hf c y (List.mem_cons_of_mem _ hy)) b

end Closed

theorem moves_closed (R : σ → σ → Prop) [Std.Refl R] [IsTrans σ R] :
    @Closed ε σ (Moves R) := ⟨Moves.pure, Moves.raise, Moves.bind⟩

/-- Where `m` returns, it has moved the state along `R`. -/
def Lands (R : σ → σ → Prop) (m : Prog ε σ α) : Prop := ∀ s a s', m s = (.ok a, s') → R s s'

section Lands

variable {R : σ → σ → Prop}

theorem Moves.lands {m : Prog ε σ α} (h : Moves R m) : Lands R m := by
  intro s a s' hm
  have hs := h s
  rw [hm] at hs
  exact hs

theorem Lands.bind [IsTrans σ R] {m : Prog ε σ α} {f : α → Prog ε σ β} (hm : Lands R m)
    (hf : ∀ a, Lands R (f a)) : Lands R (m >>= f) := by
  intro s b s'' h
  rcases hms : m s with ⟨e | a, s'⟩
  · rw [bind_error hms] at h
    cases h
  · rw [bind_ok hms] at h
    exact IsTrans.trans _ _ _ (hm s a s' hms) (hf a s' b s'' h)

theorem lands_closed (R : σ → σ → Prop) [Std.Refl R] [IsTrans σ R] : @Closed ε σ (Lands R) where
  pure a := (Moves.pure a).lands
  raise e := (Moves.raise e).lands
  bind := Lands.bind

end Lands

end Prog

namespace Lens

variable {ε σ τ α : Type}

/-- A program of a part lands where the part does. -/
theorem zoom_lands {l : Lens σ τ} {m : Prog ε τ α} {R : σ → σ → Prop}
    (h : Prog.Lands (fun t t' => ∀ s, l.get s = t → R s (l.set s t')) m) : Prog.Lands R (l.zoom m) := by
  intro s a s' hm
  rw [zoom_apply] at hm
  obtain ⟨ha, rfl⟩ := Prod.mk.inj hm
  exact h (l.get s) a _ (Prod.ext ha rfl) s rfl

end Lens

end Effects
