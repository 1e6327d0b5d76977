import Kvtsjl.Lib.Prog

/-
  A state in parts, none of which is seen from another, and programs that go through some of
  the parts. Each step finds its part as it was before the first.
-/

namespace Effects

open Prog

namespace Lens

variable {ε σ ι α : Type} {C : ι → Type}

/-- Replacing one part leaves every other as it is. -/
def Parts (l : ∀ i, Lens σ (C i)) : Prop := ∀ i j, j ≠ i → Apart (l i) (l j)

namespace Parts

variable [DecidableEq ι] {l : ∀ i, Lens σ (C i)} (h : Parts l) {f : ∀ i, Prog ε (C i) α} {is : List ι} {s : σ}

include h

omit [DecidableEq ι] in
theorem get_other {i j : ι} (hij : j ≠ i) (m : Prog ε (C i) α) (s : σ) :
    (l j).get ((l i).zoom m s).2 = (l j).get s := h i j hij s _

/-- Where every step returns, the parts that are come to are as their steps leave them. -/
theorem mapM_ok (value : ι → α) (hnodup : is.Nodup) (hok : ∀ i ∈ is, (f i ((l i).get s)).1 = .ok (value i)) :
    ∃ s', (is.mapM fun i => (l i).zoom (f i)) s = (.ok (is.map value), s') ∧
      ∀ j, (l j).get s' = if j ∈ is then (f j ((l j).get s)).2 else (l j).get s := by
  induction is generalizing s with
  | nil => exact ⟨s, rfl, fun j => (if_neg List.not_mem_nil).symm⟩
  | cons i is ih =>
    obtain ⟨hi, his⟩ := List.nodup_cons.mp hnodup
    have hother : ∀ j, j ≠ i → (l j).get ((l i).zoom (f i) s).2 = (l j).get s := fun j hj => h.get_other hj _ s
    have hne : ∀ j ∈ is, j ≠ i := fun j hj heq => hi (heq ▸ hj)
    have hstep : (l i).zoom (f i) s = (.ok (value i), ((l i).zoom (f i) s).2) :=
      Prod.ext (hok i (List.mem_cons_self ..)) rfl
    obtain ⟨s', hrest, hparts⟩ := @ih ((l i).zoom (f i) s).2 his fun j hj => by
      rw [hother j (hne j hj)]
      exact hok j (List.mem_cons_of_mem _ hj)
    refine ⟨s', ?_, fun j => ?_⟩
    · rw [List.mapM_cons, bind_ok hstep, bind_ok hrest]
      rfl
    · rw [hparts j]
      by_cases hji : j = i
      · rw [hji, if_neg hi, if_pos (List.mem_cons_self ..)]
        exact (l i).get_set s _
      · rw [hother j hji]
        refine if_congr ?_ rfl rfl
        rw [List.mem_cons, or_iff_right hji]

/-- A run that returns has had every step return. -/
theorem ok_of_mapM (hnodup : is.Nodup) {values : List α} {s' : σ}
    (hrun : (is.mapM fun i => (l i).zoom (f i)) s = (.ok values, s')) :
    ∀ i ∈ is, ∃ a, (f i ((l i).get s)).1 = .ok a := by
  induction is generalizing s values s' with
  | nil => exact fun i hi => nomatch hi
  | cons i is ih =>
    obtain ⟨hi, his⟩ := List.nodup_cons.mp hnodup
    rw [List.mapM_cons] at hrun
    obtain ⟨a, s₁, hstep, hrest⟩ := bind_eq_ok hrun
    obtain ⟨as, s₂, htail, -⟩ := bind_eq_ok hrest
    intro j hj
    by_cases hji : j = i
    · rw [hji]
      exact ⟨a, congrArg Prod.fst hstep⟩
    · obtain ⟨c, hc⟩ := ih his htail j ((List.mem_cons.mp hj).resolve_left hji)
      have hs₁ : s₁ = ((l i).zoom (f i) s).2 := (congrArg Prod.snd hstep).symm
      rw [hs₁, h.get_other hji] at hc
      exact ⟨c, hc⟩

end Parts

end Lens

end Effects
