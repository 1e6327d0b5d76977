import Kvtsjl.Lib.Prog

/-
  What a program leaves in the lists it appends to.
  `Emits out held m Q` says `m` only appends, to a log `out s` and to a queue `held s`
  of the state, and that its exit, the log it added and the queue it added meet `Q`.
  `Guarded R l` says every entry of a log meets `R` with the entries before it.
-/

namespace Effects

/-! ## Logs whose entries are guarded by what came before -/

def Guarded {α : Type} (R : List α → α → Prop) (l : List α) : Prop :=
  ∀ before e after, l = before ++ e :: after → R before e

section Guarded

variable {α : Type} {R : List α → α → Prop}

theorem guarded_nil : Guarded R [] := by
  intro before e after h
  simp at h

/-- A guarded log may be continued by entries the whole of it guards, where what
    guards an entry still does with more before it. -/
theorem Guarded.append {l l' : List α} (hR : ∀ before more e, R before e → R (before ++ more) e)
    (hl : Guarded R l) (hl' : ∀ e ∈ l', R l e) : Guarded R (l ++ l') := by
  intro before e after h
  rcases List.append_eq_append_iff.mp h with ⟨mid, hb, hm⟩ | ⟨mid, hl2, hm⟩
  · subst hb
    exact hR l mid e (hl' e (by rw [hm]; simp))
  · cases mid with
    | nil =>
      rw [List.append_nil] at hl2
      subst hl2
      have he : e ∈ l' := by
        rw [List.nil_append] at hm
        rw [← hm]; simp
      exact hl' e he
    | cons x mid =>
      rw [List.cons_append] at hm
      obtain ⟨rfl, -⟩ := List.cons.inj hm
      exact hl before e mid hl2

theorem Guarded.concat {l : List α} {e : α} (hl : Guarded R l) (he : R l e) :
    Guarded R (l ++ [e]) := by
  intro before x after h
  rcases List.eq_nil_or_concat after with rfl | ⟨more, y, rfl⟩
  · obtain ⟨rfl, h2⟩ := List.append_inj' h rfl
    rw [← (List.cons.inj h2).1]
    exact he
  · rw [List.concat_eq_append, ← List.cons_append, ← List.append_assoc] at h
    obtain ⟨h1, -⟩ := List.append_inj' h rfl
    exact hl before x more h1

/-- The beginning of a guarded log. -/
theorem Guarded.left {l l' : List α} (h : Guarded R (l ++ l')) : Guarded R l := by
  intro before e after hl
  exact h before e (after ++ l') (by rw [hl]; simp)

theorem Guarded.of_forall {l : List α} (h : ∀ before, ∀ e ∈ l, R before e) : Guarded R l := by
  intro before e after hl
  exact h before e (by rw [hl]; simp)

end Guarded

/-! ## Programs that append -/

namespace Prog

variable {ε σ α β γ δ : Type}

def Emits (out : σ → List γ) (held : σ → List δ) (m : Prog ε σ α)
    (Q : Except ε α → List γ → List δ → Prop) : Prop :=
  ∀ s, ∃ l q, out (m s).2 = out s ++ l ∧ held (m s).2 = held s ++ q ∧ Q (m s).1 l q

section Emits

variable {out : σ → List γ} {held : σ → List δ}

theorem Emits.weaken {m : Prog ε σ α} {Q Q' : Except ε α → List γ → List δ → Prop}
    (h : Emits out held m Q) (hQ : ∀ r l q, Q r l q → Q' r l q) : Emits out held m Q' := by
  intro s
  obtain ⟨l, q, hl, hq, hr⟩ := h s
  exact ⟨l, q, hl, hq, hQ _ _ _ hr⟩

/-- What a program adds is determined, so what it is known to meet it meets together. -/
theorem Emits.all {ι : Type} [Nonempty ι] {m : Prog ε σ α}
    {Q : ι → Except ε α → List γ → List δ → Prop} (h : ∀ i, Emits out held m (Q i)) :
    Emits out held m fun r l q => ∀ i, Q i r l q := by
  intro s
  obtain ⟨l, q, hl, hq, -⟩ := h (Classical.arbitrary ι) s
  refine ⟨l, q, hl, hq, fun i => ?_⟩
  obtain ⟨l', q', hl', hq', hr⟩ := h i s
  have hll : l' = l := List.append_cancel_left (hl'.symm.trans hl)
  have hqq : q' = q := List.append_cancel_left (hq'.symm.trans hq)
  rwa [hll, hqq] at hr

theorem Emits.silent {m : Prog ε σ α} {Q : Except ε α → List γ → List δ → Prop}
    (hs : ∀ s, out (m s).2 = out s ∧ held (m s).2 = held s) (hQ : ∀ r, Q r [] []) :
    Emits out held m Q := by
  intro s
  exact ⟨[], [], by simp [(hs s).1], by simp [(hs s).2], hQ _⟩

theorem Emits.pure (a : α) {Q : Except ε α → List γ → List δ → Prop} (h : Q (.ok a) [] []) :
    Emits out held (pure a) Q :=
  fun s => ⟨[], [], by simp, by simp, h⟩

theorem Emits.raise (e : ε) {Q : Except ε α → List γ → List δ → Prop} (h : Q (.error e) [] []) :
    Emits out held (raise e) Q :=
  fun s => ⟨[], [], by simp, by simp, h⟩

/-- What the first part added stands before what the rest adds. -/
theorem Emits.bind {m : Prog ε σ α} {f : α → Prog ε σ β}
    {Q : Except ε α → List γ → List δ → Prop} {Q' : Except ε β → List γ → List δ → Prop}
    (hm : Emits out held m Q)
    (hf : ∀ a l q, Q (.ok a) l q → Emits out held (f a) fun r l' q' => Q' r (l ++ l') (q ++ q'))
    (he : ∀ e l q, Q (.error e) l q → Q' (.error e) l q) : Emits out held (m >>= f) Q' := by
  intro s
  obtain ⟨l, q, hl, hq, hr⟩ := hm s
  rw [bind_apply]
  rcases hms : m s with ⟨e | a, s'⟩ <;> rw [hms] at hl hq hr
  · exact ⟨l, q, hl, hq, he e l q hr⟩
  · obtain ⟨l', q', hl', hq', hr'⟩ := hf a l q hr s'
    refine ⟨l ++ l', q ++ q', ?_, ?_, hr'⟩
    · rw [← List.append_assoc, ← hl]; exact hl'
    · rw [← List.append_assoc, ← hq]; exact hq'

theorem Emits.when {p : Prop} [Decidable p] {m : Prog ε σ Unit}
    {Q : Except ε Unit → List γ → List δ → Prop} (hm : Emits out held m Q)
    (h : Q (.ok ()) [] []) : Emits out held (when p m) Q := by
  unfold Prog.when
  split
  · exact hm
  · exact Emits.pure _ h

theorem Emits.map {m : Prog ε σ α} {f : α → β} {Q : Except ε α → List γ → List δ → Prop}
    {Q' : Except ε β → List γ → List δ → Prop} (hm : Emits out held m Q)
    (hf : ∀ r l q, Q r l q → Q' (r.map f) l q) : Emits out held (f <$> m) Q' := by
  intro s
  obtain ⟨l, q, hl, hq, hr⟩ := hm s
  rw [map_apply]
  exact ⟨l, q, hl, hq, hf _ _ _ hr⟩

theorem Emits.catching {m : Prog ε σ α} {h : ε → Prog ε σ α}
    {Q Q' : Except ε α → List γ → List δ → Prop} (hm : Emits out held m Q)
    (hok : ∀ a l q, Q (.ok a) l q → Q' (.ok a) l q)
    (hh : ∀ e l q, Q (.error e) l q → Emits out held (h e) fun r l' q' => Q' r (l ++ l') (q ++ q')) :
    Emits out held (catching m h) Q' := by
  intro s
  obtain ⟨l, q, hl, hq, hr⟩ := hm s
  unfold Prog.catching
  rcases hms : m s with ⟨e | a, s'⟩ <;> rw [hms] at hl hq hr
  · obtain ⟨l', q', hl', hq', hr'⟩ := hh e l q hr s'
    refine ⟨l ++ l', q ++ q', ?_, ?_, hr'⟩
    · rw [← List.append_assoc, ← hl]; exact hl'
    · rw [← List.append_assoc, ← hq]; exact hq'
  · exact ⟨l, q, hl, hq, hok a l q hr⟩

/-- A loop whose steps each add entries in `A`, to the log, and in `B`, to the queue.
    A loop that returns has met `D x` for every `x`. -/
theorem Emits.forM {xs : List β} {f : β → Prog ε σ PUnit} (A : γ → Prop) (B : δ → Prop)
    (D : β → List γ → Prop) (hD : ∀ x l l' l'', D x l' → D x (l ++ (l' ++ l'')))
    (hf : ∀ x ∈ xs, Emits out held (f x) fun r l q =>
      (∀ e ∈ l, A e) ∧ (∀ p ∈ q, B p) ∧ (r = .ok ⟨⟩ → D x l)) :
    Emits out held (forM xs f) fun r l q =>
      (∀ e ∈ l, A e) ∧ (∀ p ∈ q, B p) ∧ (r = .ok ⟨⟩ → ∀ x ∈ xs, D x l) := by
  induction xs with
  | nil => exact Emits.pure _ (by simp)
  | cons x xs ih =>
    rw [List.forM_cons]
    refine (hf x (by simp)).bind ?_ ?_
    · intro _ l q h
      refine (ih fun y hy => hf y (by simp [hy])).weaken ?_
      intro r l' q' h'
      refine ⟨?_, ?_, ?_⟩
      · intro e he
        exact (List.mem_append.mp he).elim (h.1 e) (h'.1 e)
      · intro p hp
        exact (List.mem_append.mp hp).elim (h.2.1 p) (h'.2.1 p)
      · intro hr y hy
        rcases List.mem_cons.mp hy with rfl | hy
        · simpa using hD y [] l l' (h.2.2 rfl)
        · simpa using hD y l l' [] (h'.2.2 hr y hy)
    · intro e l q h
      exact ⟨h.1, h.2.1, by simp⟩

/-- A loop whose steps all return has done what one of them does. -/
theorem emits_forM_reaches {xs : List β} {f : β → Prog ε σ PUnit} (H : List γ → List δ → Prop)
    (hH : ∀ l l' l'' q q' q'', H l' q' → H (l ++ (l' ++ l'')) (q ++ (q' ++ q'')))
    (hok : ∀ x ∈ xs, Emits out held (f x) fun r _ _ => r = .ok ⟨⟩) {x : β} (hx : x ∈ xs)
    (hfx : Emits out held (f x) fun r l q => r = .ok ⟨⟩ ∧ H l q) :
    Emits out held (forM xs f) fun r l q => r = .ok ⟨⟩ ∧ H l q := by
  have hrest : ∀ ys : List β, (∀ y ∈ ys, y ∈ xs) →
      Emits out held (forM ys f) fun r _ _ => r = .ok ⟨⟩ := by
    intro ys
    induction ys with
    | nil => exact fun _ => Emits.pure _ rfl
    | cons y ys ih =>
      intro hys
      rw [List.forM_cons]
      refine (hok y (hys y (by simp))).bind ?_ ?_
      · exact fun _ _ _ _ => ih fun z hz => hys z (by simp [hz])
      · intro e l q h
        cases h
  obtain ⟨before, after, rfl⟩ := List.append_of_mem hx
  rw [List.forM_append, List.forM_cons]
  refine (hrest before fun y hy => by simp [hy]).bind ?_ ?_
  · intro _ l q _
    refine hfx.bind ?_ ?_
    · rintro _ l' q' ⟨-, h⟩
      refine (hrest after fun y hy => by simp [hy]).weaken ?_
      intro r l'' q'' hr
      exact ⟨hr, hH _ _ _ _ _ _ h⟩
    · rintro e l' q' ⟨h, -⟩
      cases h
  · intro e l q h
    cases h

/-- A loop that raises has added something, if each of its steps does. -/
theorem emits_forM_loud {xs : List β} {f : β → Prog ε σ PUnit}
    (hf : ∀ x ∈ xs, Emits out held (f x) fun r l _ => r = .ok ⟨⟩ ∨ l ≠ []) :
    Emits out held (forM xs f) fun r l _ => r = .ok ⟨⟩ ∨ l ≠ [] := by
  induction xs with
  | nil => exact Emits.pure _ (.inl rfl)
  | cons x xs ih =>
    rw [List.forM_cons]
    refine (hf x (by simp)).bind ?_ ?_
    · intro _ l q _
      refine (ih fun y hy => hf y (by simp [hy])).weaken ?_
      rintro r l' q' (h | h)
      · exact .inl h
      · exact .inr (by simp [h])
    · rintro e l q (h | h)
      · cases h
      · exact .inr h

/-- A loop that collects results adds only what its steps add. -/
theorem Emits.mapM {xs : List β} {f : β → Prog ε σ α} (A : γ → Prop) (B : δ → Prop)
    (hf : ∀ x ∈ xs, Emits out held (f x) fun _ l q => (∀ e ∈ l, A e) ∧ ∀ p ∈ q, B p) :
    Emits out held (xs.mapM f) fun _ l q => (∀ e ∈ l, A e) ∧ ∀ p ∈ q, B p := by
  have hsplit : ∀ {l l' : List γ} {q q' : List δ}, ((∀ e ∈ l, A e) ∧ ∀ p ∈ q, B p) →
      ((∀ e ∈ l', A e) ∧ ∀ p ∈ q', B p) → (∀ e ∈ l ++ l', A e) ∧ ∀ p ∈ q ++ q', B p := by
    intro l l' q q' h h'
    exact ⟨fun e he => (List.mem_append.mp he).elim (h.1 e) (h'.1 e),
      fun p hp => (List.mem_append.mp hp).elim (h.2 p) (h'.2 p)⟩
  induction xs with
  | nil => rw [List.mapM_nil]; exact Emits.pure _ (by simp)
  | cons x xs ih =>
    rw [List.mapM_cons]
    refine (hf x (by simp)).bind ?_ fun _ _ _ h => h
    intro a l q h
    refine (ih fun y hy => hf y (by simp [hy])).bind ?_ ?_
    · intro as l' q' h'
      exact Emits.pure _ (by simpa using hsplit h h')
    · intro e l' q' h'
      exact hsplit h h'

end Emits

end Prog

end Effects
