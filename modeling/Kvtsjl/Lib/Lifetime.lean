import Mathlib.Data.Finset.Lattice.Fold
import Mathlib.Data.Fintype.Basic
import Mathlib.Order.WithBot

/-
  Lifetimes.
  A life ends at an instant, never, or has not begun. What is made of several lives dies with the
  first of those it needs, or with the last of all; which of two such ends comes first is read off
  the instants at which each is still alive.
-/

/-- The end of a life: the bottom where there is none, the top where it does not end. -/
abbrev Life (τ : Type) : Type := WithBot (WithTop τ)

namespace Life

variable {τ ι : Type}

/-- The life that ends at an instant, or does not end. -/
def ending : Option τ → Life τ
  | none => ((⊤ : WithTop τ) : Life τ)
  | some d => ((d : WithTop τ) : Life τ)

variable [LinearOrder τ]

/-- Still alive at an instant. -/
def Alive (t : τ) (life : Life τ) : Prop := ending (some t) < life

theorem not_alive_bot (t : τ) : ¬ Alive t (⊥ : Life τ) := not_lt_bot

@[simp] theorem alive_ending {t : τ} {stop : Option τ} : Alive t (ending stop) ↔ ∀ d, stop = some d → t < d := by
  unfold Alive ending
  cases stop with
  | none =>
    have hlt : ((t : WithTop τ) : Life τ) < ((⊤ : WithTop τ) : Life τ) := WithBot.coe_lt_coe.mpr (WithTop.coe_lt_top t)
    exact ⟨fun _ d (hd : none = some d) => absurd hd (Option.some_ne_none d).symm, fun _ => hlt⟩
  | some d => simp

/-- A life that has begun and ends, ends at an instant. -/
theorem exists_end {t : τ} {a b : Life τ} (ha : Alive t a) (hlt : a < b) : ∃ d, a = ending (some d) ∧ t < d := by
  unfold Alive ending at ha
  match a with
  | none => exact absurd ha not_lt_bot
  | some none => exact absurd hlt (not_lt.mpr le_top)
  | some (some d) => exact ⟨d, rfl, WithTop.coe_lt_coe.mp (WithBot.coe_lt_coe.mp ha)⟩

theorem Alive.of_le {t : τ} {a b : Life τ} (h : Alive t a) (hle : a ≤ b) : Alive t b := lt_of_lt_of_le h hle

theorem Alive.earlier {t u : τ} {a : Life τ} (h : Alive u a) (hle : t ≤ u) : Alive t a :=
  lt_of_le_of_lt (by simpa [ending] using hle) h

/-- The one life is over when the other is, from now on: it ends no later. -/
theorem le_iff {now : τ} {a b : Life τ} (hb : Alive now b) :
    a ≤ b ↔ ∀ t, now ≤ t → Alive t a → Alive t b := by
  refine ⟨fun hle t _ ha => ha.of_le hle, fun h => ?_⟩
  by_contra hlt
  obtain ⟨d, rfl, hd⟩ := exists_end hb (not_le.mp hlt)
  exact lt_irrefl _ (h d (le_of_lt hd) (not_le.mp hlt))

/-- Two lives that are over at the same instants from now on are one. -/
theorem eq_of_alive {now : τ} {a b : Life τ} (ha : Alive now a) (hb : Alive now b)
    (h : ∀ t, now ≤ t → (Alive t a ↔ Alive t b)) : a = b :=
  le_antisymm ((le_iff hb).mpr fun t ht => (h t ht).mp) ((le_iff ha).mpr fun t ht => (h t ht).mpr)

/-- What dies with the first of the needed is over no later than the life: one of the needed is. -/
theorem first_le_iff {now : τ} {needed : ι → Prop} {life : ι → Life τ} {b : Life τ} (hb : Alive now b)
    (hsome : ∃ i, needed i) :
    (∃ i, needed i ∧ life i ≤ b) ↔ ∀ t, now ≤ t → (∀ i, needed i → Alive t (life i)) → Alive t b := by
  refine ⟨fun ⟨i, hi, hle⟩ t _ hall => (hall i hi).of_le hle, fun h => ?_⟩
  by_contra hnone
  have hlater : ∀ i, needed i → b < life i := fun i hi => not_le.mp fun hle => hnone ⟨i, hi, hle⟩
  obtain ⟨i, hi⟩ := hsome
  obtain ⟨d, rfl, hd⟩ := exists_end hb (hlater i hi)
  exact lt_irrefl _ (h d (le_of_lt hd) hlater)

/-- What dies with the last of all is over no later than the life: all are. -/
theorem last_le_iff {now : τ} {life : ι → Life τ} {b : Life τ} (hb : Alive now b) :
    (∀ i, life i ≤ b) ↔ ∀ t, now ≤ t → (∃ i, Alive t (life i)) → Alive t b := by
  constructor
  · intro h t _ ⟨i, hi⟩
    exact hi.of_le (h i)
  · intro h i
    rw [le_iff hb]
    exact fun t ht hi => h t ht ⟨i, hi⟩

/-- The end of what dies with the first of the lives it needs, or, where it needs none, with the last of all. -/
def joinedLife {n : Nat} (needed : Fin n → Bool) (life : Fin n → Life τ) : Life τ :=
  if ∃ i, needed i = true then (Finset.univ.filter (needed · = true)).inf life else Finset.univ.sup life

theorem alive_joinedLife {n : Nat} {needed : Fin n → Bool} {life : Fin n → Life τ} {t : τ} :
    Alive t (joinedLife needed life) ↔ (∃ i, Alive t (life i)) ∧ ∀ i, needed i = true → Alive t (life i) := by
  unfold joinedLife
  by_cases hsome : ∃ i, needed i = true
  · have htop : ending (some t) < (⊤ : Life τ) := WithBot.coe_lt_coe.mpr (WithTop.coe_lt_top t)
    have hfirst : Alive t ((Finset.univ.filter (needed · = true)).inf life) ↔
        ∀ i, needed i = true → Alive t (life i) := by
      simp [Alive, Finset.lt_inf_iff htop]
    rw [if_pos hsome, hfirst]
    obtain ⟨j, hj⟩ := hsome
    exact ⟨fun hall => ⟨⟨j, hall j hj⟩, hall⟩, fun h => h.2⟩
  · have hlast : Alive t (Finset.univ.sup life) ↔ ∃ i, Alive t (life i) := by
      simp [Alive, Finset.lt_sup_iff]
    rw [if_neg hsome, hlast]
    exact ⟨fun hany => ⟨hany, fun i hi => absurd ⟨i, hi⟩ hsome⟩, fun h => h.1⟩

/-! ## Lists of ends -/

/-- Every end in the list is still to come: the earliest of them is. -/
theorem alive_min [Std.LawfulOrderMin τ] {t : τ} (ends : List τ) : Alive t (ending ends.min?) ↔ ∀ d ∈ ends, t < d := by
  rw [alive_ending]
  cases hmin : ends.min? with
  | none =>
    rw [List.min?_eq_none_iff] at hmin
    simp [hmin]
  | some least =>
    rw [List.min?_eq_some_iff] at hmin
    constructor
    · exact fun h d hd => lt_of_lt_of_le (h least rfl) (hmin.2 d hd)
    · intro h d hd
      rw [← Option.some.inj hd]
      exact h least hmin.1

theorem alive_max [Std.LawfulOrderMax τ] {t : τ} {ends : List τ} (h : ends ≠ []) :
    Alive t (ending ends.max?) ↔ ∃ d ∈ ends, t < d := by
  rw [alive_ending]
  cases hmax : ends.max? with
  | none =>
    rw [List.max?_eq_none_iff] at hmax
    exact absurd hmax h
  | some greatest =>
    rw [List.max?_eq_some_iff] at hmax
    constructor
    · exact fun hlt => ⟨greatest, hmax.1, hlt greatest rfl⟩
    · intro ⟨d, hd, hlt⟩ g hg
      rw [← Option.some.inj hg]
      exact lt_of_lt_of_le hlt (hmax.2 d hd)

end Life
