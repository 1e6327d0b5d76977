/-
  Programs that change a state and may raise.

  `Prog ε σ α` is a total function of the state. It returns an `α` or raises an
  `ε`, and the state it reached is kept on both exits, as an exception of the
  host language keeps what was written before it. `Lens` says how a program over
  a part of the state acts on the whole.

  Three rule sets follow. `Moves R m` says the state only moves along `R`, whatever
  the exit. `Raises p m` says what `m` may raise. `Ensures P m Q` is the usual triple,
  with one postcondition over both exits. Each has a rule for every way a program is
  put together.
-/
import Mathlib.Logic.Function.Basic
import Mathlib.Data.List.Basic
import Mathlib.Data.List.Forall2

namespace Effects

/-- A program over the state `σ` that returns an `α` or raises an `ε`. -/
def Prog (ε σ α : Type) : Type := σ → Except ε α × σ

namespace Prog

variable {ε σ τ α β γ : Type}

instance : Monad (Prog ε σ) where
  pure a := fun s => (.ok a, s)
  bind m f := fun s =>
    match m s with
    | (.ok a, s') => f a s'
    | (.error e, s') => (.error e, s')

/-- What the program returns or raises from `s`. -/
def result (m : Prog ε σ α) (s : σ) : Except ε α := (m s).1

/-- The state the program leaves behind, on either exit. -/
def after (m : Prog ε σ α) (s : σ) : σ := (m s).2

def raise (e : ε) : Prog ε σ α := fun s => (.error e, s)

/-- Return or raise what `r` says. -/
def ofExcept (r : Except ε α) : Prog ε σ α := fun s => (r, s)

/-- Run `m` and hand its exit to the caller as a value. -/
def attempt (m : Prog ε σ α) : Prog ε σ (Except ε α) := fun s => (.ok (m s).1, (m s).2)

/-- Run `h` on what `m` raises, from the state `m` left. -/
def catching (m : Prog ε σ α) (h : ε → Prog ε σ α) : Prog ε σ α := fun s =>
  match m s with
  | (.ok a, s') => (.ok a, s')
  | (.error e, s') => h e s'

/-- Run `m` only where `p` holds. -/
def when (p : Prop) [Decidable p] (m : Prog ε σ Unit) : Prog ε σ Unit :=
  if p then m else pure ()

def read (f : σ → α) : Prog ε σ α := fun s => (.ok (f s), s)

def modify (f : σ → σ) : Prog ε σ Unit := fun s => (.ok (), f s)

@[simp] theorem pure_apply (a : α) (s : σ) : (pure a : Prog ε σ α) s = (.ok a, s) := rfl

theorem bind_apply (m : Prog ε σ α) (f : α → Prog ε σ β) (s : σ) :
    (m >>= f) s =
      match m s with
      | (.ok a, s') => f a s'
      | (.error e, s') => (.error e, s') := rfl

@[simp] theorem raise_apply (e : ε) (s : σ) : (raise e : Prog ε σ α) s = (.error e, s) := rfl

@[simp] theorem attempt_apply (m : Prog ε σ α) (s : σ) :
    attempt m s = (.ok (m s).1, (m s).2) := rfl

@[simp] theorem read_apply (f : σ → α) (s : σ) : (read f : Prog ε σ α) s = (.ok (f s), s) := rfl

@[simp] theorem modify_apply (f : σ → σ) (s : σ) :
    (modify f : Prog ε σ Unit) s = (.ok (), f s) := rfl

theorem bind_ok {m : Prog ε σ α} {f : α → Prog ε σ β} {s s' : σ} {a : α}
    (h : m s = (.ok a, s')) : (m >>= f) s = f a s' := by
  rw [bind_apply, h]

theorem bind_error {m : Prog ε σ α} {f : α → Prog ε σ β} {s s' : σ} {e : ε}
    (h : m s = (.error e, s')) : (m >>= f) s = (.error e, s') := by
  rw [bind_apply, h]

/-- What a sequence returns, its second part returns from what the first came to. -/
theorem bind_eq_ok {m : Prog ε σ α} {f : α → Prog ε σ β} {s s' : σ} {b : β}
    (h : (m >>= f) s = (.ok b, s')) : ∃ a t, m s = (.ok a, t) ∧ f a t = (.ok b, s') := by
  rcases hm : m s with ⟨e | a, t⟩
  · rw [bind_error hm] at h
    cases h
  · rw [bind_ok hm] at h
    exact ⟨a, t, rfl, h⟩

theorem raise_bind (e : ε) (f : α → Prog ε σ β) : (raise e >>= f : Prog ε σ β) = raise e := rfl

/-- Two continuations that agree on what `m` returns from `s`. -/
theorem bind_congr_at {m : Prog ε σ α} {f g : α → Prog ε σ β} {s : σ}
    (h : ∀ a s', m s = (.ok a, s') → f a s' = g a s') : (m >>= f) s = (m >>= g) s := by
  rw [bind_apply, bind_apply]
  rcases hms : m s with ⟨e | a, s'⟩
  · rfl
  · exact h a s' hms

theorem forM_congr {xs : List γ} {f g : γ → Prog ε σ PUnit} (h : ∀ x ∈ xs, f x = g x) :
    forM xs f = forM xs g := by
  induction xs with
  | nil => rfl
  | cons x xs ih =>
    rw [List.forM_cons, List.forM_cons, h x (by simp), ih fun y hy => h y (by simp [hy])]

theorem forM_map {δ : Type} (g : δ → γ) (xs : List δ) (f : γ → Prog ε σ PUnit) :
    forM (xs.map g) f = forM xs fun x => f (g x) := by
  induction xs with
  | nil => rfl
  | cons x xs ih => rw [List.map_cons, List.forM_cons, List.forM_cons, ih]

theorem catching_ok {m : Prog ε σ α} {h : ε → Prog ε σ α} {s s' : σ} {a : α}
    (hm : m s = (.ok a, s')) : catching m h s = (.ok a, s') := by
  unfold catching; rw [hm]

theorem catching_error {m : Prog ε σ α} {h : ε → Prog ε σ α} {s s' : σ} {e : ε}
    (hm : m s = (.error e, s')) : catching m h s = h e s' := by
  unfold catching; rw [hm]

theorem id_map_eq (m : Prog ε σ α) : id <$> m = m := by
  funext s
  show (m >>= fun a => pure (id a)) s = m s
  rw [bind_apply]
  rcases m s with ⟨_ | a, s'⟩ <;> rfl

theorem bind_assoc_eq (m : Prog ε σ α) (f : α → Prog ε σ β) (g : β → Prog ε σ γ) :
    m >>= f >>= g = m >>= fun a => f a >>= g := by
  funext s
  simp only [bind_apply]
  rcases m s with ⟨_ | a, s'⟩ <;> rfl

instance : LawfulMonad (Prog ε σ) :=
  LawfulMonad.mk' _ id_map_eq (fun _ _ => rfl) bind_assoc_eq

theorem map_apply (f : α → β) (m : Prog ε σ α) (s : σ) :
    (f <$> m) s = ((m s).1.map f, (m s).2) := by
  rw [map_eq_pure_bind, bind_apply]
  rcases m s with ⟨_ | a, s'⟩ <;> rfl

theorem discard_apply (m : Prog ε σ α) (s : σ) :
    (Functor.discard m) s = ((m s).1.map (fun _ => ()), (m s).2) := by
  show ((fun _ => PUnit.unit) <$> m) s = _
  rw [map_apply]

/-! ## Where the state may go -/

/-- Whatever `m` returns or raises, it moves the state along `R`. -/
def Moves (R : σ → σ → Prop) (m : Prog ε σ α) : Prop := ∀ s, R s (m s).2

section Moves

variable {R : σ → σ → Prop}

/-- The state is what it was. -/
def Same (s s' : σ) : Prop := s' = s

instance : Std.Refl (@Same σ) := ⟨fun _ => rfl⟩

instance : IsTrans σ Same := ⟨fun _ _ _ h h' => Eq.trans h' h⟩

theorem Moves.weaken {R' : σ → σ → Prop} {m : Prog ε σ α} (hm : Moves R m)
    (h : ∀ s s', R s s' → R' s s') : Moves R' m := fun s => h _ _ (hm s)

theorem Moves.pure [Std.Refl R] (a : α) : Moves R (pure a : Prog ε σ α) :=
  fun s => Std.Refl.refl s

theorem Moves.raise [Std.Refl R] (e : ε) : Moves R (raise e : Prog ε σ α) :=
  fun s => Std.Refl.refl s

theorem Moves.read [Std.Refl R] (f : σ → α) : Moves R (read f : Prog ε σ α) :=
  fun s => Std.Refl.refl s

theorem Moves.bind [IsTrans σ R] {m : Prog ε σ α} {f : α → Prog ε σ β}
    (hm : Moves R m) (hf : ∀ a, Moves R (f a)) : Moves R (m >>= f) := by
  intro s
  have h1 := hm s
  rw [bind_apply]
  rcases hms : m s with ⟨_ | a, s'⟩
  · simpa [hms] using h1
  · rw [hms] at h1
    exact IsTrans.trans _ _ _ h1 (hf a s')

theorem Moves.when [Std.Refl R] {p : Prop} [Decidable p] {m : Prog ε σ Unit}
    (hm : Moves R m) : Moves R (when p m) := by
  unfold Prog.when
  split
  · exact hm
  · exact Moves.pure ()

theorem Moves.map {f : α → β} {m : Prog ε σ α} (hm : Moves R m) : Moves R (f <$> m) := by
  intro s
  rw [map_apply]
  exact hm s

theorem Moves.attempt {m : Prog ε σ α} (hm : Moves R m) : Moves R (attempt m) := hm

theorem Moves.catching [IsTrans σ R] {m : Prog ε σ α} {h : ε → Prog ε σ α}
    (hm : Moves R m) (hh : ∀ e, Moves R (h e)) : Moves R (catching m h) := by
  intro s
  have h1 := hm s
  unfold Prog.catching
  rcases hms : m s with ⟨e | a, s'⟩
  · rw [hms] at h1
    exact IsTrans.trans _ _ _ h1 (hh e s')
  · simpa [hms] using h1

theorem Moves.forM [Std.Refl R] [IsTrans σ R] {xs : List γ} {f : γ → Prog ε σ PUnit}
    (hf : ∀ x ∈ xs, Moves R (f x)) : Moves R (forM xs f) := by
  induction xs with
  | nil => exact Moves.pure _
  | cons x xs ih =>
    rw [List.forM_cons]
    exact (hf x (by simp)).bind fun _ => ih fun y hy => hf y (by simp [hy])

theorem Moves.mapM [Std.Refl R] [IsTrans σ R] {xs : List γ} {f : γ → Prog ε σ α}
    (hf : ∀ x ∈ xs, Moves R (f x)) : Moves R (xs.mapM f) := by
  induction xs with
  | nil => rw [List.mapM_nil]; exact Moves.pure _
  | cons x xs ih =>
    rw [List.mapM_cons]
    refine (hf x (by simp)).bind fun a => ?_
    exact (ih fun y hy => hf y (by simp [hy])).bind fun _ => Moves.pure _

theorem Moves.foldlM [Std.Refl R] [IsTrans σ R] {xs : List γ} {f : α → γ → Prog ε σ α}
    (hf : ∀ a, ∀ x ∈ xs, Moves R (f a x)) (a : α) : Moves R (xs.foldlM f a) := by
  induction xs generalizing a with
  | nil => rw [List.foldlM_nil]; exact Moves.pure _
  | cons x xs ih =>
    rw [List.foldlM_cons]
    exact (hf a x (by simp)).bind fun b => ih (fun c y hy => hf c y (by simp [hy])) b

/-- In a loop that returns, each item has its turn, and what the others leave alone is
    then as the item found it and as the item left it. -/
theorem forM_ok_at [Std.Refl R] [IsTrans σ R] {xs : List γ} {f : γ → Prog ε σ PUnit} {x : γ}
    (hx : x ∈ xs) (hn : xs.Nodup) (hother : ∀ y ∈ xs, y ≠ x → Moves R (f y)) {s s' : σ}
    (h : forM xs f s = (.ok ⟨⟩, s')) :
    ∃ s0 s1, R s s0 ∧ f x s0 = (.ok ⟨⟩, s1) ∧ R s1 s' := by
  induction xs generalizing s with
  | nil => cases hx
  | cons y ys ih =>
    rw [List.nodup_cons] at hn
    rw [List.forM_cons] at h
    rcases hy : f y s with ⟨e | u, s1⟩
    · rw [bind_error hy] at h
      cases h
    · rw [bind_ok hy] at h
      by_cases hxy : x = y
      · have hrest : Moves R (forM ys f) := by
          refine Moves.forM fun z hz => hother z (List.mem_cons_of_mem _ hz) ?_
          intro hzx
          exact hn.1 (by rw [← hxy, ← hzx]; exact hz)
        have hlast := hrest s1
        rw [h] at hlast
        exact ⟨s, s1, Std.Refl.refl s, by rw [hxy]; exact hy, hlast⟩
      · have hmem := (List.mem_cons.mp hx).resolve_left hxy
        obtain ⟨s0, s2, h0, hrun, h2⟩ := ih hmem hn.2
          (fun z hz => hother z (List.mem_cons_of_mem _ hz)) h
        have hfirst := hother y (by simp) (Ne.symm hxy) s
        rw [hy] at hfirst
        exact ⟨s0, s2, IsTrans.trans _ _ _ hfirst h0, hrun, h2⟩

end Moves

/-- A loop of programs whose answers are dropped, as the loop that collects them. -/
theorem forM_discard (xs : List γ) (f : γ → Prog ε σ α) :
    forM xs (fun x => Functor.discard (f x)) = Functor.discard (xs.mapM f) := by
  induction xs with
  | nil => rfl
  | cons x xs ih =>
    funext s
    rw [List.forM_cons, List.mapM_cons, ih, discard_apply]
    rcases hx : f x s with ⟨e | a, s1⟩
    · have hd : (Functor.discard (f x) : Prog ε σ PUnit) s = (.error e, s1) := by
        rw [discard_apply, hx]; rfl
      rw [bind_error hd, bind_error hx]
      rfl
    · have hd : (Functor.discard (f x) : Prog ε σ PUnit) s = (.ok ⟨⟩, s1) := by
        rw [discard_apply, hx]; rfl
      rw [bind_ok hd, bind_ok hx, discard_apply, bind_apply]
      rcases xs.mapM f s1 with ⟨e | as, s2⟩ <;> rfl

/-- A loop whose steps answer by what they are given alone, from any state that is kept to. -/
theorem mapM_answers {H : σ → Prop} {f : γ → Prog ε σ α} {g : γ → Except ε α}
    (hf : ∀ x s, H s → (f x s).1 = g x ∧ H (f x s).2) (xs : List γ) :
    ∀ s, H s → (xs.mapM f s).1 = xs.mapM g ∧ H (xs.mapM f s).2 := by
  induction xs with
  | nil => exact fun s hs => ⟨rfl, hs⟩
  | cons x xs ih =>
    intro s hs
    obtain ⟨hx, hs'⟩ := hf x s hs
    rw [List.mapM_cons, List.mapM_cons]
    cases hg : g x with
    | error e =>
      rw [bind_error (Prod.ext (hx.trans hg) rfl)]
      exact ⟨rfl, hs'⟩
    | ok a =>
      obtain ⟨hrest, hs''⟩ := ih _ hs'
      rw [bind_ok (Prod.ext (hx.trans hg) rfl), bind_apply]
      rcases hxs : xs.mapM f (f x s).2 with ⟨e | as, t⟩
      · rw [hxs] at hrest hs''
        rw [← show Except.error e = xs.mapM g from hrest]
        exact ⟨rfl, hs''⟩
      · rw [hxs] at hrest hs''
        rw [← show Except.ok as = xs.mapM g from hrest]
        exact ⟨rfl, hs''⟩

theorem exceptMapM_ok {g : γ → Except ε α} {h : γ → α} {xs : List γ} (hg : ∀ x ∈ xs, g x = .ok (h x)) :
    xs.mapM g = .ok (xs.map h) := by
  induction xs with
  | nil => rfl
  | cons x xs ih =>
    rw [List.mapM_cons, hg x List.mem_cons_self, ih fun y hy => hg y (List.mem_cons_of_mem _ hy)]
    rfl

/-- If all that fails, fails alike, one failure is enough. -/
theorem exceptMapM_error {g : γ → Except ε α} {e : ε} {x : γ} {xs : List γ} (hx : x ∈ xs) (hg : g x = .error e)
    (hsame : ∀ y ∈ xs, ∀ e', g y = .error e' → e' = e) : xs.mapM g = .error e := by
  induction xs with
  | nil => cases hx
  | cons y ys ih =>
    rw [List.mapM_cons]
    cases hy : g y with
    | error e' =>
      rw [hsame y List.mem_cons_self e' hy]
      rfl
    | ok a =>
      have hne : x ≠ y := by
        intro hxy
        rw [hxy, hy] at hg
        cases hg
      rw [ih ((List.mem_cons.mp hx).resolve_left hne) fun z hz => hsame z (List.mem_cons_of_mem _ hz)]
      rfl

theorem discard_error (m : Prog ε σ α) (s : σ) (e : ε) :
    (Functor.discard m s).1 = .error e ↔ (m s).1 = .error e := by
  rw [discard_apply]
  show (m s).1.map _ = _ ↔ _
  cases (m s).1 with
  | error e' =>
    show (Except.error e' : Except ε Unit) = _ ↔ _
    rw [Except.error.injEq, Except.error.injEq]
  | ok a => constructor <;> intro h <;> cases h

theorem discard_bind (m : Prog ε σ α) (f : α → Prog ε σ β) :
    (Functor.discard (m >>= f) : Prog ε σ PUnit) = m >>= fun a => Functor.discard (f a) := by
  funext s
  rw [discard_apply, bind_apply, bind_apply]
  rcases m s with ⟨e | a, s1⟩
  · rfl
  · simp only
    rw [discard_apply]

/-- An answer that is dropped and not asked for. -/
theorem discard_then (m : Prog ε σ α) (f : Prog ε σ β) :
    ((Functor.discard m : Prog ε σ PUnit) >>= fun _ => f) = m >>= fun _ => f := by
  funext s
  rw [bind_apply, bind_apply, discard_apply]
  rcases m s with ⟨e | a, s1⟩ <;> rfl

/-- The answer of a program that ends in it. -/
theorem discard_return (m : Prog ε σ PUnit) (a : α) :
    (Functor.discard (m >>= fun _ => pure a) : Prog ε σ PUnit) = m := by
  rw [discard_bind]
  exact bind_pure m

/-- Changing an answer that is dropped. -/
theorem discard_bind_pure (m : Prog ε σ α) (f : α → β) :
    (Functor.discard (m >>= fun a => pure (f a)) : Prog ε σ PUnit) = Functor.discard m := by
  rw [discard_bind]
  funext s
  rw [bind_apply, discard_apply]
  rcases m s with ⟨e | a, s1⟩ <;> rfl

/-! ## What may be raised -/

/-- Whatever `m` raises meets `p`. -/
def Raises (p : ε → Prop) (m : Prog ε σ α) : Prop := ∀ s e, (m s).1 = .error e → p e

section Raises

variable {p q : ε → Prop}

theorem Raises.pure (a : α) : Raises p (pure a : Prog ε σ α) := by
  intro s e h
  cases h

theorem Raises.raise {e : ε} (h : p e) : Raises p (raise e : Prog ε σ α) := by
  intro s e' he
  cases he
  exact h

theorem Raises.bind {m : Prog ε σ α} {f : α → Prog ε σ β} (hm : Raises p m)
    (hf : ∀ a, Raises p (f a)) : Raises p (m >>= f) := by
  intro s e he
  rcases hms : m s with ⟨e' | a, s'⟩
  · rw [bind_error hms] at he
    refine hm s e ?_
    rw [hms, Except.error.inj he]
  · rw [bind_ok hms] at he
    exact hf a s' e he

theorem Raises.when {c : Prop} [Decidable c] {m : Prog ε σ Unit} (hm : Raises p m) :
    Raises p (when c m) := by
  unfold Prog.when
  split
  · exact hm
  · exact Raises.pure ()

/-- What a handled program raises, its handler raises. -/
theorem Raises.catching {m : Prog ε σ α} {h : ε → Prog ε σ α} (hm : Raises q m)
    (hh : ∀ e, q e → Raises p (h e)) : Raises p (catching m h) := by
  intro s e he
  rcases hms : m s with ⟨e' | a, s'⟩
  · rw [catching_error hms] at he
    exact hh e' (hm s e' (by rw [hms])) s' e he
  · rw [catching_ok hms] at he
    cases he

theorem Raises.forM {xs : List γ} {f : γ → Prog ε σ PUnit} (hf : ∀ x ∈ xs, Raises p (f x)) :
    Raises p (forM xs f) := by
  induction xs with
  | nil => exact Raises.pure _
  | cons x xs ih =>
    rw [List.forM_cons]
    exact (hf x (by simp)).bind fun _ => ih fun y hy => hf y (by simp [hy])

theorem Raises.foldlM {xs : List γ} {f : α → γ → Prog ε σ α} (hf : ∀ a x, Raises p (f a x)) (a : α) :
    Raises p (xs.foldlM f a) := by
  induction xs generalizing a with
  | nil => exact Raises.pure _
  | cons x xs ih =>
    rw [List.foldlM_cons]
    exact (hf a x).bind ih

/-- What a loop raises, one of its steps raised. -/
theorem forM_error {xs : List γ} {f : γ → Prog ε σ PUnit} {s : σ} {e : ε}
    (h : (forM xs f s).1 = .error e) : ∃ x ∈ xs, ∃ s0, (f x s0).1 = .error e := by
  induction xs generalizing s with
  | nil => cases h
  | cons x xs ih =>
    rw [List.forM_cons] at h
    rcases hx : f x s with ⟨e' | u, s'⟩
    · rw [bind_error hx] at h
      exact ⟨x, by simp, s, by rw [hx, ← h]⟩
    · rw [bind_ok hx] at h
      obtain ⟨y, hy, s0, hs0⟩ := ih h
      exact ⟨y, List.mem_cons_of_mem _ hy, s0, hs0⟩

end Raises

/-! ## What may be returned -/

/-- Whatever `m` returns meets `p`. -/
def Gives (p : α → Prop) (m : Prog ε σ α) : Prop := ∀ s a s', m s = (.ok a, s') → p a

section Gives

variable {p : α → Prop} {q : β → Prop}

theorem Gives.pure {a : α} (h : p a) : Gives p (pure a : Prog ε σ α) := by
  intro s b s' hb
  cases hb
  exact h

theorem Gives.raise (e : ε) : Gives p (raise e : Prog ε σ α) := by
  intro s a s' h
  cases h

theorem Gives.ofExcept {r : Except ε α} (h : ∀ a, r = .ok a → p a) :
    Gives p (ofExcept r : Prog ε σ α) := by
  intro s a s' ha
  exact h a (congrArg Prod.fst ha)

theorem Gives.bind {m : Prog ε σ α} {f : α → Prog ε σ β} (hm : Gives p m)
    (hf : ∀ a, p a → Gives q (f a)) : Gives q (m >>= f) := by
  intro s b s' hb
  obtain ⟨a, t, hms, hfa⟩ := bind_eq_ok hb
  exact hf a (hm s a t hms) t b s' hfa

theorem Gives.weaken {p' : α → Prop} {m : Prog ε σ α} (h : Gives p m) (hp : ∀ a, p a → p' a) :
    Gives p' m := fun s a s' ha => hp a (h s a s' ha)

/-- A program gives something or other. -/
theorem Gives.trivial (m : Prog ε σ α) : Gives (fun _ => True) m := fun _ _ _ _ => True.intro

/-- A loop, by what holds of the elements gone through and of its accumulator. -/
theorem Gives.foldlM {I : List γ → α → Prop} {f : α → γ → Prog ε σ α}
    (hf : ∀ past acc x, I past acc → Gives (I (past ++ [x])) (f acc x)) (xs : List γ) :
    ∀ {past : List γ} {acc : α}, I past acc → Gives (I (past ++ xs)) (xs.foldlM f acc) := by
  induction xs with
  | nil =>
    intro past acc h
    rw [List.append_nil]
    exact Gives.pure h
  | cons x xs ih =>
    intro past acc h
    rw [List.foldlM_cons]
    refine (hf past acc x h).bind fun acc' hacc => ?_
    have hrest := ih hacc
    rw [List.append_assoc] at hrest
    exact hrest

end Gives

/-! ## All or nothing -/

/-- From `s`, `m` returns in `Q`, or it raises with nothing changed. -/
def Does (m : Prog ε σ α) (s : σ) (Q : α → σ → Prop) : Prop :=
  (∃ a s', m s = (.ok a, s') ∧ Q a s') ∨ ∃ e, m s = (.error e, s)

section Does

variable {m : Prog ε σ α} {s : σ} {Q : α → σ → Prop}

theorem Does.weaken {Q' : α → σ → Prop} (h : Does m s Q) (hQ : ∀ a s', Q a s' → Q' a s') :
    Does m s Q' := by
  rcases h with ⟨a, s', hm, hq⟩ | ⟨e, he⟩
  · exact .inl ⟨a, s', hm, hQ a s' hq⟩
  · exact .inr ⟨e, he⟩

theorem Does.bind_pure (h : Does m s Q) (f : α → β) :
    Does (m >>= fun a => pure (f a)) s fun _ s' => ∃ a, Q a s' := by
  rcases h with ⟨a, s', hm, hq⟩ | ⟨e, he⟩
  · exact .inl ⟨f a, s', bind_ok hm, a, hq⟩
  · exact .inr ⟨e, bind_error he⟩

/-- A handler that raises again leaves it at that. -/
theorem Does.catching (h : Does m s Q) {handler : ε → Prog ε σ α}
    (hh : ∀ e, ∃ e', handler e s = (.error e', s)) : Does (catching m handler) s Q := by
  rcases h with ⟨a, s', hm, hq⟩ | ⟨e, he⟩
  · exact .inl ⟨a, s', catching_ok hm, hq⟩
  · obtain ⟨e', he'⟩ := hh e
    exact .inr ⟨e', by rw [catching_error he, he']⟩

/-- What holds where it did something, and where it did nothing, holds after it. -/
theorem Does.after_bind {f : α → Prog ε σ β} {p : σ → Prop} (h : Does m s Q) (hs : p s)
    (hf : ∀ a s', Q a s' → p (f a s').2) : p ((m >>= f) s).2 := by
  rcases h with ⟨a, s', hm, hq⟩ | ⟨e, he⟩
  · rw [bind_ok hm]
    exact hf a s' hq
  · rw [bind_error he]
    exact hs

end Does

/-! ## Triples -/

/-- From a state in `P`, what `m` returns or raises and the state it leaves meet `Q`. -/
def Ensures (P : σ → Prop) (m : Prog ε σ α) (Q : Except ε α → σ → Prop) : Prop :=
  ∀ s, P s → Q (m s).1 (m s).2

theorem Ensures.weaken {P P' : σ → Prop} {m : Prog ε σ α} {Q Q' : Except ε α → σ → Prop}
    (h : Ensures P m Q) (hP : ∀ s, P' s → P s) (hQ : ∀ r s, Q r s → Q' r s) :
    Ensures P' m Q' :=
  fun s hs => hQ _ _ (h s (hP s hs))

theorem Ensures.bind {P : σ → Prop} {m : Prog ε σ α} {f : α → Prog ε σ β}
    {Q : Except ε α → σ → Prop} {Q' : Except ε β → σ → Prop}
    (hm : Ensures P m Q) (hf : ∀ a, Ensures (Q (.ok a)) (f a) Q')
    (he : ∀ e s, Q (.error e) s → Q' (.error e) s) : Ensures P (m >>= f) Q' := by
  intro s hs
  have h1 := hm s hs
  rw [bind_apply]
  rcases hms : m s with ⟨e | a, s'⟩ <;> rw [hms] at h1
  · exact he e s' h1
  · exact hf a s' h1

/-- A loop that returns keeps an invariant step by step. What it raises, some
    step raised. -/
theorem Ensures.forM {xs : List γ} {f : γ → Prog ε σ PUnit} {P : σ → Prop}
    {Q : ε → σ → Prop}
    (hf : ∀ x ∈ xs, Ensures P (f x) fun r s =>
      match r with
      | .ok _ => P s
      | .error e => Q e s) :
    Ensures P (forM xs f) fun r s =>
      match r with
      | .ok _ => P s
      | .error e => Q e s := by
  induction xs with
  | nil => exact fun s hs => hs
  | cons x xs ih =>
    rw [List.forM_cons]
    exact (hf x (by simp)).bind (fun _ => ih fun y hy => hf y (by simp [hy])) fun _ _ h => h

/-- `m` returns, keeps the invariant, and what it returns meets `p`. -/
abbrev Returns (H : σ → Prop) (m : Prog ε σ α) (p : α → Prop) : Prop :=
  Ensures H m fun r s => H s ∧ ∃ a, r = .ok a ∧ p a

theorem Returns.pure {H : σ → Prop} {a : α} {p : α → Prop} (h : p a) : Returns H (pure a : Prog ε σ α) p :=
  fun _ hs => ⟨hs, a, rfl, h⟩

theorem Returns.bind {H : σ → Prop} {m : Prog ε σ α} {f : α → Prog ε σ β} {p : α → Prop} {q : β → Prop}
    (hm : Returns H m p) (hf : ∀ a, p a → Returns H (f a) q) : Returns H (m >>= f) q := by
  intro s hs
  obtain ⟨hs', a, ha, hp⟩ := hm s hs
  rw [bind_apply]
  rcases hms : m s with ⟨r, s'⟩
  rw [hms] at hs' ha
  obtain rfl : r = .ok a := ha
  exact hf a hp s' hs'

theorem Returns.congr {H : σ → Prop} {m : Prog ε σ α} {p q : α → Prop} (hm : Returns H m p)
    (h : ∀ a, p a → q a) : Returns H m q := by
  intro s hs
  obtain ⟨hs', a, ha, hp⟩ := hm s hs
  exact ⟨hs', a, ha, h a hp⟩

/-- A loop whose steps return, from what holds of the items gone through to what holds of one more. -/
theorem Returns.foldlM {H : σ → Prop} {f : α → γ → Prog ε σ α} {p : List γ → α → Prop} {xs : List γ}
    (hf : ∀ done a x, p done a → Returns H (f a x) (p (done ++ [x]))) :
    ∀ done a, p done a → Returns H (xs.foldlM f a) (p (done ++ xs)) := by
  induction xs with
  | nil =>
    intro done a h
    rw [List.append_nil]
    exact Returns.pure h
  | cons x xs ih =>
    intro done a h
    rw [List.foldlM_cons, ← List.singleton_append, ← List.append_assoc]
    exact (hf done a x h).bind fun b hb => ih (done ++ [x]) b hb

theorem Returns.map {H : σ → Prop} {m : Prog ε σ α} {p : α → Prop} {q : β → Prop} (hm : Returns H m p)
    {f : α → β} (hf : ∀ a, p a → q (f a)) : Returns H (f <$> m) q := by
  rw [map_eq_pure_bind]
  exact hm.bind fun a ha => Returns.pure (hf a ha)

/-- A loop whose steps all return does, and gives what they do, one by one. -/
theorem Returns.mapM {γ : Type*} {H : σ → Prop} {xs : List γ} {f : γ → Prog ε σ α} {p : γ → α → Prop}
    (hf : ∀ x ∈ xs, Returns H (f x) (p x)) : Returns H (xs.mapM f) (List.Forall₂ p xs) := by
  induction xs with
  | nil =>
    rw [List.mapM_nil]
    exact Returns.pure .nil
  | cons x xs ih =>
    rw [List.mapM_cons]
    refine (hf x (by simp)).bind fun a ha => ?_
    refine (ih fun y hy => hf y (List.mem_cons_of_mem _ hy)).bind fun as has => ?_
    exact Returns.pure (.cons ha has)

end Prog

/-! ## Mapping a list by what may raise -/

/-- Element by element, what a list was mapped to. -/
theorem forall₂_of_mapM {ε β γ : Type} {f : β → Except ε γ} {xs : List β} {ys : List γ}
    (h : xs.mapM f = .ok ys) : List.Forall₂ (fun x y => f x = .ok y) xs ys := by
  induction xs generalizing ys with
  | nil =>
    cases h
    exact .nil
  | cons x xs ih =>
    rw [List.mapM_cons] at h
    cases hx : f x with
    | error e => rw [hx] at h; cases h
    | ok y =>
      cases hxs : xs.mapM f with
      | error e => rw [hx, hxs] at h; cases h
      | ok ys' =>
        rw [hx, hxs] at h
        cases h
        exact .cons hx (ih hxs)

theorem mem_of_mapM {ε β γ : Type} {f : β → Except ε γ} {xs : List β} {ys : List γ}
    (h : xs.mapM f = .ok ys) {y : γ} (hy : y ∈ ys) : ∃ x ∈ xs, f x = .ok y := by
  have hall := forall₂_of_mapM h
  clear h
  induction hall with
  | nil => cases hy
  | @cons x _ xs _ hxy _ ih =>
    rcases List.mem_cons.mp hy with rfl | hy
    · exact ⟨x, by simp, hxy⟩
    · obtain ⟨x', hx', hxy'⟩ := ih hy
      exact ⟨x', List.mem_cons_of_mem _ hx', hxy'⟩

/-- What different elements were mapped to is different, where the map tells them apart. -/
theorem nodup_of_mapM {ε β γ : Type} {f : β → Except ε γ} {xs : List β} {ys : List γ}
    (h : xs.mapM f = .ok ys) (hn : xs.Pairwise fun x x' => ∀ y, f x = .ok y → f x' ≠ .ok y) :
    ys.Nodup := by
  have hall := forall₂_of_mapM h
  clear h
  induction hall with
  | nil => exact List.nodup_nil
  | @cons x y xs ys hxy hrest ih =>
    rw [List.pairwise_cons] at hn
    refine List.nodup_cons.mpr ⟨fun hy => ?_, ih hn.2⟩
    obtain ⟨i, hi, hget⟩ := List.mem_iff_getElem.mp hy
    have hxi := List.forall₂_iff_get.mp hrest
    have hlt : i < xs.length := by have hlen := hxi.1; omega
    have hfi := hxi.2 i hlt hi
    refine hn.1 (xs.get ⟨i, hlt⟩) (List.get_mem ..) y hxy ?_
    rw [hfi]
    exact congrArg Except.ok hget

theorem zip_of_mapM {ε β γ : Type} {f : β → Except ε γ} {xs : List β} {ys : List γ}
    (h : xs.mapM f = .ok ys) {p : β × γ} (hp : p ∈ xs.zip ys) : f p.1 = .ok p.2 :=
  List.forall₂_iff_zip.mp (forall₂_of_mapM h) |>.2 hp

/-! ## Programs over a part of the state -/

/-- A part `τ` of a state `σ`, with the laws that make reading and replacing it agree. -/
structure Lens (σ τ : Type) where
  get : σ → τ
  set : σ → τ → σ
  get_set : ∀ s t, get (set s t) = t
  set_get : ∀ s, set s (get s) = s
  set_set : ∀ s t t', set (set s t) t' = set s t'

attribute [simp] Lens.get_set Lens.set_get Lens.set_set

namespace Lens

variable {ε σ τ υ α β : Type}

/-- Run a program of the part on the whole. -/
def zoom (l : Lens σ τ) (m : Prog ε τ α) : Prog ε σ α := fun s =>
  ((m (l.get s)).1, l.set s (m (l.get s)).2)

theorem zoom_apply (l : Lens σ τ) (m : Prog ε τ α) (s : σ) :
    l.zoom m s = ((m (l.get s)).1, l.set s (m (l.get s)).2) := rfl

@[simp] theorem zoom_pure (l : Lens σ τ) (a : α) :
    l.zoom (pure a : Prog ε τ α) = pure a := by
  funext s; simp [zoom_apply]

@[simp] theorem zoom_raise (l : Lens σ τ) (e : ε) :
    l.zoom (Prog.raise e : Prog ε τ α) = Prog.raise e := by
  funext s; simp [zoom_apply]

theorem zoom_bind (l : Lens σ τ) (m : Prog ε τ α) (f : α → Prog ε τ β) :
    l.zoom (m >>= f) = l.zoom m >>= fun a => l.zoom (f a) := by
  funext s
  simp only [zoom_apply, Prog.bind_apply]
  rcases m (l.get s) with ⟨_ | a, t⟩ <;> simp

theorem zoom_discard (l : Lens σ τ) (m : Prog ε τ α) :
    (Functor.discard (l.zoom m) : Prog ε σ PUnit) = l.zoom (Functor.discard m) := by
  funext s
  simp only [Prog.discard_apply, zoom_apply]

theorem zoom_forM {γ : Type} (l : Lens σ τ) (xs : List γ) (f : γ → Prog ε τ PUnit) :
    l.zoom (forM xs f) = forM xs fun x => l.zoom (f x) := by
  induction xs with
  | nil => exact zoom_pure l _
  | cons x xs ih =>
    rw [List.forM_cons, List.forM_cons, zoom_bind, ih]

theorem zoom_attempt (l : Lens σ τ) (m : Prog ε τ α) :
    l.zoom (Prog.attempt m) = Prog.attempt (l.zoom m) := rfl

theorem zoom_foldlM {γ : Type} (l : Lens σ τ) (xs : List γ) (f : α → γ → Prog ε τ α) (a : α) :
    l.zoom (xs.foldlM f a) = xs.foldlM (fun a x => l.zoom (f a x)) a := by
  induction xs generalizing a with
  | nil => exact zoom_pure l a
  | cons x xs ih =>
    rw [List.foldlM_cons, List.foldlM_cons, zoom_bind]
    exact bind_congr ih

theorem zoom_when (l : Lens σ τ) (p : Prop) [Decidable p] (m : Prog ε τ Unit) :
    l.zoom (Prog.when p m) = Prog.when p (l.zoom m) := by
  unfold Prog.when
  split
  · rfl
  · exact zoom_pure l ()

theorem zoom_map (l : Lens σ τ) (f : α → β) (m : Prog ε τ α) :
    l.zoom (f <$> m) = f <$> l.zoom m := by
  funext s
  simp only [Prog.map_apply, zoom_apply]

/-- What lies under `k` is as it was. -/
def Keeps (k : Lens σ τ) (s s' : σ) : Prop := k.get s' = k.get s

instance (k : Lens σ τ) : Std.Refl k.Keeps := ⟨fun _ => rfl⟩

instance (k : Lens σ τ) : IsTrans σ k.Keeps := ⟨fun _ _ _ h h' => Eq.trans h' h⟩

/-- Replacing the one part leaves the other as it is. -/
def Apart (l : Lens σ τ) (k : Lens σ υ) : Prop := ∀ s t, k.get (l.set s t) = k.get s

theorem Apart.zoom_keeps {l : Lens σ τ} {k : Lens σ υ} (h : Apart l k) (m : Prog ε τ α) :
    Prog.Moves k.Keeps (l.zoom m) := fun s => h s _

theorem zoom_same {l : Lens σ τ} {m : Prog ε τ α} (h : Prog.Moves Prog.Same m) :
    Prog.Moves Prog.Same (l.zoom m) := by
  intro s
  show l.set s (m (l.get s)).2 = s
  rw [h (l.get s), set_get]

theorem zoom_does {l : Lens σ τ} {m : Prog ε τ α} {s : σ} {Q : α → τ → Prop}
    (h : Prog.Does m (l.get s) Q) : Prog.Does (l.zoom m) s fun a s' =>
      ∃ t, s' = l.set s t ∧ Q a t := by
  rcases h with ⟨a, t, hm, hq⟩ | ⟨e, he⟩
  · exact .inl ⟨a, l.set s t, by rw [zoom_apply, hm], t, rfl, hq⟩
  · exact .inr ⟨e, by rw [zoom_apply, he, set_get]⟩

/-- The part itself, as a part of itself. -/
def whole : Lens σ σ where
  get s := s
  set _ t := t
  get_set _ _ := rfl
  set_get _ := rfl
  set_set _ _ _ := rfl

/-- The first of a pair. -/
def first : Lens (σ × τ) σ where
  get s := s.1
  set s t := (t, s.2)
  get_set _ _ := rfl
  set_get _ := rfl
  set_set _ _ _ := rfl

theorem first_zoom {m : Prog ε σ α} {s : σ × τ} {r : Except ε α} {t : σ} (h : m s.1 = (r, t)) :
    first.zoom m s = (r, (t, s.2)) := by
  show ((m s.1).1, ((m s.1).2, s.2)) = _
  rw [h]

/-- The second of a pair. -/
def second : Lens (σ × τ) τ where
  get s := s.2
  set s t := (s.1, t)
  get_set _ _ := rfl
  set_get _ := rfl
  set_set _ _ _ := rfl

/-- A part, beside what is carried along with it. -/
def beside (l : Lens σ τ) : Lens (σ × υ) (τ × υ) where
  get s := (l.get s.1, s.2)
  set s t := (l.set s.1 t.1, t.2)
  get_set _ _ := by simp
  set_get _ := by simp
  set_set _ _ _ := by simp

def comp (l : Lens σ τ) (k : Lens τ υ) : Lens σ υ where
  get s := k.get (l.get s)
  set s u := l.set s (k.set (l.get s) u)
  get_set _ _ := by simp
  set_get _ := by simp
  set_set _ _ _ := by simp

/-- One coordinate of a product. -/
def coord {ι : Type} [DecidableEq ι] {F : ι → Type} (i : ι) : Lens (∀ i, F i) (F i) where
  get s := s i
  set s t := Function.update s i t
  get_set _ _ := by simp
  set_get _ := by simp
  set_set _ _ _ := by simp

section Coord

variable {ι : Type} [DecidableEq ι] {F : ι → Type}

@[simp] theorem coord_get (i : ι) (s : ∀ i, F i) : (coord i).get s = s i := rfl

@[simp] theorem coord_set (i : ι) (s : ∀ i, F i) (t : F i) :
    (coord i).set s t = Function.update s i t := rfl

@[simp] theorem coord_zoom_self (i : ι) (m : Prog ε (F i) α) (s : ∀ i, F i) :
    (((coord i).zoom m s).2) i = (m (s i)).2 := by
  simp [zoom_apply]

end Coord

end Lens

end Effects
