import Mathlib.Order.Defs.LinearOrder
import Mathlib.Order.Lattice
import Mathlib.Order.Defs.Unbundled

/-
  What is known of the cells of a state as time passes.
  A cell is asked at an instant, and answers by what the state holds and by what time it is. A `Turn` changes the
  state, names the cells it may change, and may tell what a cell it names answers from then on. A `Moment` keeps
  what has been told. `holds_run` says that no run makes it wrong where each turn leaves the cells it does not
  name as they were and tells the truth of those it does.
-/

namespace Effects

variable {τ σ κ α : Type}

/-! ## Clocks -/

/-- The instant a state stands at, and the state as it would stand at another. -/
structure Clock (τ σ : Type) where
  Shows : τ → σ → Prop
  goTo : τ → σ → σ
  shows_goTo : ∀ t s, Shows t (goTo t s)
  goTo_goTo : ∀ t u s, goTo t (goTo u s) = goTo t s

namespace Clock

variable [Preorder τ] (c : Clock τ σ) (ask : σ → α)

/-- No time passes from one state to the other, and what is asked is answered in the second as it would have been
    in the first, at every instant from then on. -/
def Spares (s s' : σ) : Prop :=
  ∀ t, c.Shows t s → c.Shows t s' ∧ ∀ u, t ≤ u → ask (c.goTo u s') = ask (c.goTo u s)

instance spares_refl : Std.Refl (c.Spares ask) := ⟨fun _ _ h => ⟨h, fun _ _ => rfl⟩⟩

instance spares_trans : IsTrans σ (c.Spares ask) := ⟨fun s s' s'' h h' t ht => by
  obtain ⟨ht', hsame⟩ := h t ht
  obtain ⟨ht'', hsame'⟩ := h' t ht'
  exact ⟨ht'', fun u hu => (hsame' u hu).trans (hsame u hu)⟩⟩

/-- From an instant on, the state answers so. -/
def Foretells (t : τ) (answer : τ → α) (s : σ) : Prop := ∀ u, t ≤ u → ask (c.goTo u s) = answer u

/-- No time passes from one state to the other. -/
def Stays (s s' : σ) : Prop := ∀ t, c.Shows t s → c.Shows t s'

instance stays_refl : Std.Refl c.Stays := ⟨fun _ _ h => h⟩

instance stays_trans : IsTrans σ c.Stays := ⟨fun _ _ _ h h' t ht => h' t (h t ht)⟩

variable {c ask}

theorem Spares.stays {s s' : σ} (h : c.Spares ask s s') : c.Stays s s' := fun t ht => (h t ht).1

theorem Spares.foretells {s s' : σ} {t : τ} {answer : τ → α} (h : c.Spares ask s s') (ht : c.Shows t s)
    (hs : c.Foretells ask t answer s) : c.Foretells ask t answer s' := fun u hu => ((h t ht).2 u hu).trans (hs u hu)

/-- What is made of the answer is spared with it. -/
theorem Spares.made {β : Type} {ask' : σ → β} {s s' : σ} (h : c.Spares ask s s') (f : α → β)
    (hf : ∀ s, ask' s = f (ask s)) : c.Spares ask' s s' := by
  intro t ht
  obtain ⟨ht', hsame⟩ := h t ht
  refine ⟨ht', fun u hu => ?_⟩
  rw [hf, hf, hsame u hu]

end Clock

/-! ## Turns -/

/-- One change of a state: the cells it may change, and what each of these answers from then on, if it is told. -/
structure Turn (τ σ κ α : Type) where
  run : σ → σ
  names : κ → Bool
  told : τ → σ → κ → Option (τ → α)

/-- The turn takes no time, spares the cells it does not name, and tells the truth of those it does. -/
structure Turn.Sound [Preorder τ] (c : Clock τ σ) (ask : κ → σ → α) (x : Turn τ σ κ α) : Prop where
  stays : ∀ s, c.Stays s (x.run s)
  spares : ∀ k, x.names k = false → ∀ s, c.Spares (ask k) s (x.run s)
  tells : ∀ k, x.names k = true → ∀ t s answer, c.Shows t s → x.told t s k = some answer →
    c.Foretells (ask k) t answer (x.run s)

/-- What happens to a state: a turn, or time passing. -/
inductive Happening (τ σ κ α : Type) where
  | turn (x : Turn τ σ κ α)
  | wait (until_ : τ)

/-- A state at an instant, and what is known of its cells: what each answers from then on. -/
structure Moment (τ σ κ α : Type) where
  time : τ
  state : σ
  known : κ → Option (τ → α)

namespace Moment

variable [LinearOrder τ]

/-- The moment after something happened. Of the cells a turn names, only what it tells is known. -/
def after (c : Clock τ σ) (m : Moment τ σ κ α) : Happening τ σ κ α → Moment τ σ κ α
  | .turn x => ⟨m.time, x.run m.state, fun k => if x.names k then x.told m.time m.state k else m.known k⟩
  | .wait u => ⟨max m.time u, c.goTo (max m.time u) m.state, m.known⟩

/-- The state stands at the instant, and what is known is so. -/
structure Holds (c : Clock τ σ) (ask : κ → σ → α) (m : Moment τ σ κ α) : Prop where
  shows : c.Shows m.time m.state
  known : ∀ k answer, m.known k = some answer → c.Foretells (ask k) m.time answer m.state

variable {c : Clock τ σ} {ask : κ → σ → α} {m : Moment τ σ κ α}

theorem Holds.turn (h : m.Holds c ask) {x : Turn τ σ κ α} (hx : x.Sound c ask) :
    (m.after c (.turn x)).Holds c ask := by
  refine ⟨hx.stays m.state m.time h.shows, fun k answer hk => ?_⟩
  change (if x.names k = true then _ else _) = _ at hk
  cases hn : x.names k with
  | true =>
    rw [if_pos hn] at hk
    exact hx.tells k hn m.time m.state answer h.shows hk
  | false =>
    rw [hn, if_neg Bool.false_ne_true] at hk
    exact (hx.spares k hn m.state).foretells h.shows (h.known k answer hk)

theorem Holds.wait (h : m.Holds c ask) (until_ : τ) : (m.after c (.wait until_)).Holds c ask := by
  refine ⟨c.shows_goTo _ _, fun k answer hk u hu => ?_⟩
  change max m.time until_ ≤ u at hu
  change ask k (c.goTo u (c.goTo _ m.state)) = _
  rw [c.goTo_goTo]
  exact h.known k answer hk u ((le_max_left _ _).trans hu)

/-- No run of sound turns makes wrong what is known. -/
theorem holds_run {happenings : List (Happening τ σ κ α)}
    (hsound : ∀ x, .turn x ∈ happenings → x.Sound c ask) (h : m.Holds c ask) :
    (happenings.foldl (after c) m).Holds c ask := by
  induction happenings generalizing m with
  | nil => exact h
  | cons happening rest ih =>
    refine ih (fun x hx => hsound x (List.mem_cons_of_mem _ hx)) ?_
    cases happening with
    | turn x => exact h.turn (hsound x List.mem_cons_self)
    | wait u => exact h.wait u

/-- Of a state no cell is unknown: each answers as it does. -/
def start (c : Clock τ σ) (ask : κ → σ → α) (t : τ) (s : σ) : Moment τ σ κ α :=
  ⟨t, c.goTo t s, fun k => some fun u => ask k (c.goTo u s)⟩

theorem holds_start (t : τ) (s : σ) : (start c ask t s).Holds c ask := by
  refine ⟨c.shows_goTo t s, fun k answer hk u _ => ?_⟩
  rw [← Option.some.inj hk]
  exact congrArg (ask k) (c.goTo_goTo u t s)

end Moment

end Effects
