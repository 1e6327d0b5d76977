import Mathlib.Data.List.Nodup
import Mathlib.Data.List.Pairwise

/-
  Keys listed from the places they are kept at.
  Every key has one place of its own. A listing goes over places and shows a key for each, or
  nothing. `shows_iff` says when it shows each wanted key whose own place it comes to once, and
  no other key: a place that shows some other place's key is a stray, and may only stand in for
  a wanted key that its own place does not show.
-/

namespace Listing

variable {P K : Type} (places : List P) (shown : P → Option K) (own : K → P) (wanted : K → Prop)

/-- The keys shown are those wanted, each once. -/
def Exact : Prop :=
  (places.filterMap shown).Nodup ∧ ∀ k, k ∈ places.filterMap shown ↔ own k ∈ places ∧ wanted k

/-- A place that shows the key of another. -/
def Stray (p : P) (k : K) : Prop := p ∈ places ∧ shown p = some k ∧ p ≠ own k

variable {places shown own wanted}

theorem nodup_iff : (places.filterMap shown).Nodup ↔
    (places.filter fun p => (shown p).isSome).Nodup ∧
      ∀ p p' k, p ∈ places → p' ∈ places → shown p = some k → shown p' = some k → p = p' := by
  have hkeys : (places.filterMap shown).Nodup ↔
      places.Pairwise fun p p' => ∀ k, shown p = some k → ∀ k', shown p' = some k' → k ≠ k' :=
    List.pairwise_filterMap
  have hplaces : (places.filter fun p => (shown p).isSome).Nodup ↔
      places.Pairwise fun p p' => (shown p).isSome = true → (shown p').isSome = true → p ≠ p' :=
    List.pairwise_filter
  rw [hkeys, hplaces]
  constructor
  · intro h
    refine ⟨h.imp fun {p p'} hne hp _ heq => ?_, ?_⟩
    · obtain ⟨k, hk⟩ := Option.isSome_iff_exists.mp hp
      exact hne k hk k (heq ▸ hk) rfl
    · intro p p' k hp hp' hk hk'
      by_contra hne
      have hsymm : Std.Symm fun x y : P => ∀ k, shown x = some k → ∀ k', shown y = some k' → k ≠ k' :=
        ⟨fun x y hxy k hk k' hk' heq => hxy k' hk' k hk heq.symm⟩
      exact h.forall hp hp' hne k hk k hk' rfl
  · intro ⟨honce, hone⟩
    refine honce.imp_of_mem fun {p p'} hp hp' hne k hk k' hk' heq => ?_
    subst heq
    exact hne (by rw [hk]; rfl) (by rw [hk']; rfl) (hone p p' k hp hp' hk hk')

/-- A listing is exact where it comes to no place it shows a key for twice, no own place shows a
    key not wanted, a stray shows a wanted key whose own place is listed and does not show it, one
    stray for one key, and every wanted key its own place does not show has such a stray. -/
theorem shows_iff : Exact places shown own wanted ↔
    (places.filter fun p => (shown p).isSome).Nodup ∧
    (∀ k, own k ∈ places → shown (own k) = some k → wanted k) ∧
    (∀ k, own k ∈ places → wanted k → shown (own k) ≠ some k → ∃ p, Stray places shown own p k) ∧
    ∀ p k, Stray places shown own p k → own k ∈ places ∧ wanted k ∧ shown (own k) ≠ some k ∧
      ∀ p', Stray places shown own p' k → p' = p := by
  unfold Exact
  rw [nodup_iff]
  have hmem : ∀ {p k}, p ∈ places → shown p = some k → k ∈ places.filterMap shown :=
    fun hp hk => List.mem_filterMap.mpr ⟨_, hp, hk⟩
  constructor
  · intro ⟨⟨honce, hone⟩, hkeys⟩
    refine ⟨honce, fun k hk hown => ((hkeys k).mp (hmem hk hown)).2, fun k hk hwanted hown => ?_, ?_⟩
    · obtain ⟨p, hp, hshown⟩ := List.mem_filterMap.mp ((hkeys k).mpr ⟨hk, hwanted⟩)
      exact ⟨p, hp, hshown, fun heq => hown (heq ▸ hshown)⟩
    · intro p k ⟨hp, hshown, hne⟩
      obtain ⟨hk, hwanted⟩ := (hkeys k).mp (hmem hp hshown)
      refine ⟨hk, hwanted, fun hown => hne (hone _ _ k hp hk hshown hown), ?_⟩
      intro p' ⟨hp', hshown', _⟩
      exact hone _ _ k hp' hp hshown' hshown
  · intro ⟨honce, hown, hmissed, hstray⟩
    refine ⟨⟨honce, fun p p' k hp hp' hshown hshown' => ?_⟩, fun k => ⟨fun hk => ?_, fun ⟨hk, hwanted⟩ => ?_⟩⟩
    · by_cases hpk : p = own k
      · by_cases hpk' : p' = own k
        · rw [hpk, hpk']
        · exact absurd (hpk ▸ hshown) (hstray p' k ⟨hp', hshown', hpk'⟩).2.2.1
      · have hone := (hstray p k ⟨hp, hshown, hpk⟩).2.2
        by_cases hpk' : p' = own k
        · exact absurd (hpk' ▸ hshown') hone.1
        · exact (hone.2 p' ⟨hp', hshown', hpk'⟩).symm
    · obtain ⟨p, hp, hshown⟩ := List.mem_filterMap.mp hk
      by_cases hpk : p = own k
      · subst hpk
        exact ⟨hp, hown k hp hshown⟩
      · have hone := hstray p k ⟨hp, hshown, hpk⟩
        exact ⟨hone.1, hone.2.1⟩
    · by_cases hshown : shown (own k) = some k
      · exact hmem hk hshown
      · obtain ⟨p, hp, hstands, -⟩ := hmissed k hk hwanted hshown
        exact hmem hp hstands

/-! ### Listed by a test of the place -/

section Tests

variable {found : P → Bool} {asked : K → Bool}

/-- Where no more is listed than before, and never anything else, the same is. -/
theorem eq_of_length_le {shown shown' : P → Option K} {places : List P}
    (h : ∀ p ∈ places, shown p = none ∨ shown p = shown' p)
    (hlength : (places.filterMap shown').length ≤ (places.filterMap shown).length) :
    ∀ p ∈ places, shown p = shown' p := by
  have hle : ∀ ps : List P, (∀ p ∈ ps, shown p = none ∨ shown p = shown' p) →
      (ps.filterMap shown).length ≤ (ps.filterMap shown').length := by
    intro ps hps
    induction ps with
    | nil => exact Nat.le_refl _
    | cons p ps ih =>
      have hrest := ih fun q hq => hps q (List.mem_cons_of_mem _ hq)
      rcases hps p List.mem_cons_self with hnone | heq
      · rw [List.filterMap_cons_none hnone]
        exact Nat.le_trans hrest ((List.sublist_cons_self p ps).filterMap _).length_le
      · rw [List.filterMap_cons, List.filterMap_cons, heq]
        cases shown' p with
        | none => exact hrest
        | some k => exact Nat.succ_le_succ hrest
  induction places with
  | nil => exact fun p hp => absurd hp List.not_mem_nil
  | cons p ps ih =>
    have hps : ∀ q ∈ ps, shown q = none ∨ shown q = shown' q :=
      fun q hq => h q (List.mem_cons_of_mem _ hq)
    have hrest := hle ps hps
    have hboth : shown p = shown' p ∧ (ps.filterMap shown').length ≤ (ps.filterMap shown).length := by
      rcases h p List.mem_cons_self with hnone | heq
      · rw [List.filterMap_cons_none hnone, List.filterMap_cons] at hlength
        cases hp : shown' p with
        | none =>
          rw [hp] at hlength
          exact ⟨hnone, hlength⟩
        | some k =>
          rw [hp] at hlength
          dsimp only at hlength
          rw [List.length_cons] at hlength
          omega
      · rw [List.filterMap_cons, List.filterMap_cons, heq] at hlength
        refine ⟨heq, ?_⟩
        cases hp : shown' p with
        | none =>
          rw [hp] at hlength
          exact hlength
        | some k =>
          rw [hp] at hlength
          dsimp only at hlength
          rw [List.length_cons, List.length_cons] at hlength
          omega
    intro q hq
    rcases List.mem_cons.mp hq with rfl | hq
    · exact hboth.1
    · exact ih hps hboth.2 q hq

/-- A listing that only tests its places gives the keys asked for, as often as the places show them,
    where it finds the places that show such a key and no others. -/
theorem perm_filter_iff : ((places.filter found).filterMap shown).Perm ((places.filterMap shown).filter asked) ↔
    ∀ p ∈ places, ∀ k, shown p = some k → (found p = true ↔ asked k = true) := by
  have hfound : (places.filter found).filterMap shown =
      places.filterMap fun p => if found p then shown p else none := by
    rw [List.filterMap_filter]
  have hasked : (places.filterMap shown).filter asked = places.filterMap fun p => (shown p).filter asked := by
    rw [List.filter_filterMap]
  rw [hfound, hasked]
  constructor
  · intro hperm
    have honly : ∀ p ∈ places, ∀ k, shown p = some k → found p = true → asked k = true := by
      intro p hp k hk hfound
      have hmem := hperm.mem_iff.mp (List.mem_filterMap.mpr ⟨p, hp, by rw [if_pos hfound, hk]⟩)
      obtain ⟨q, _, hq⟩ := List.mem_filterMap.mp hmem
      exact (Option.filter_eq_some_iff.mp hq).2
    have hstep : ∀ p ∈ places, (if found p then shown p else none) = none ∨
        (if found p then shown p else none) = (shown p).filter asked := by
      intro p hp
      split
      · next hfound =>
        cases hk : shown p with
        | none => exact .inl rfl
        | some k => exact .inr (by rw [Option.filter_some, if_pos (honly p hp k hk hfound)])
      · exact .inl rfl
    have hall := eq_of_length_le hstep (Nat.le_of_eq hperm.symm.length_eq)
    intro p hp k hk
    have heq := hall p hp
    refine ⟨honly p hp k hk, fun hwanted => ?_⟩
    rw [hk, Option.filter_some, if_pos hwanted] at heq
    by_contra hmissed
    rw [if_neg hmissed] at heq
    cases heq
  · intro h
    refine List.Perm.of_eq (List.filterMap_congr fun p hp => ?_)
    cases hk : shown p with
    | none => simp
    | some k => rw [Option.filter_some, if_congr (h p hp k hk) rfl rfl]

end Tests

end Listing
