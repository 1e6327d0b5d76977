import Mathlib.Data.List.Nodup
import Kvtsjl.Lib.Stable

/-
  The first of what is wanted, by name.
  `Search` says which places are wanted, in what order, and what each is called. A walk along
  some rows names them as it comes to them, up to a limit. It answers the search at every limit
  exactly if it comes to a namesake of each wanted place, to nothing else that has a name, and in
  the order of the places (`walk_iff`). If the limit counts rows without a name too, they have to
  be the last (`cut_iff`).
  `Route` says which places a walk meets, and which of two it meets sooner. So the condition is one on
  the places themselves, and on any two of them (`told_iff_fits`).
-/

namespace Oldest

variable {P K : Type}

structure Search (P K : Type) where
  wanted : P → Prop
  before : P → P → Prop
  name : P → Option K

namespace Search

variable (s : Search P K)

/-- The first of what is wanted, up to a limit, each by a name of its own. -/
def Answers (limit : Nat) (names : List K) : Prop :=
  names.Nodup ∧ ∃ order : List P, order.Nodup ∧ (∀ p, p ∈ order ↔ s.wanted p) ∧
    order.Pairwise s.before ∧ (order.take limit).map s.name = names.map some

/-- What rows have to be for a walk along them. -/
structure Told (rows : List P) : Prop where
  /-- Every wanted place has a name, by which the walk comes to it or to another. -/
  found : ∀ p, s.wanted p → ∃ k, s.name p = some k ∧ ∃ q ∈ rows, s.name q = some k
  /-- Whatever the walk names is the name of a wanted place. -/
  meant : ∀ q ∈ rows, ∀ k, s.name q = some k → ∃ p, s.wanted p ∧ s.name p = some k
  /-- No two wanted places have one name. -/
  apart : ∀ p p', s.wanted p → s.wanted p' → s.name p = s.name p' → p = p'
  /-- The walk names nothing twice. -/
  once : rows.Pairwise fun q q' => ∀ k, s.name q = some k → s.name q' ≠ some k
  /-- It names the wanted places in their order. -/
  ordered : rows.Pairwise fun q q' => ∀ p p', s.wanted p → s.wanted p' → s.name p = s.name q →
    s.name p' = s.name q' → s.before p p'

/-- A row without a name has only such rows behind it. -/
def NamedFirst (rows : List P) : Prop :=
  rows.Pairwise fun q q' => s.name q = none → s.name q' = none

variable {s}

theorem namesakes {names : List K} (h : ∀ k ∈ names, ∃ p, s.wanted p ∧ s.name p = some k) :
    ∃ order : List P, order.map s.name = names.map some ∧ ∀ p ∈ order, s.wanted p := by
  induction names with
  | nil => exact ⟨[], rfl, fun p hp => absurd hp List.not_mem_nil⟩
  | cons k names ih =>
    obtain ⟨order, hnames, hwanted⟩ := ih fun k' hk' => h k' (List.mem_cons_of_mem _ hk')
    obtain ⟨p, hp, hname⟩ := h k List.mem_cons_self
    refine ⟨p :: order, ?_, ?_⟩
    · rw [List.map_cons, List.map_cons, hname, hnames]
    · intro q hq
      rcases List.mem_cons.mp hq with rfl | hq
      · exact hp
      · exact hwanted q hq

theorem mem_names {order : List P} {names : List K} (h : order.map s.name = names.map some) {k : K} :
    k ∈ names ↔ ∃ p ∈ order, s.name p = some k := by
  rw [← List.mem_map, h, List.mem_map]
  constructor
  · exact fun hk => ⟨k, hk, rfl⟩
  · rintro ⟨k', hk', hsame⟩
    rw [← Option.some.inj hsame]
    exact hk'

/-- All of what is wanted, named in order, against the rows. -/
theorem told_iff {rows : List P} : s.Told rows ↔ (rows.filterMap s.name).Nodup ∧
    ∃ order : List P, order.Nodup ∧ (∀ p, p ∈ order ↔ s.wanted p) ∧ order.Pairwise s.before ∧
      order.map s.name = (rows.filterMap s.name).map some := by
  constructor
  · intro h
    have hnodup : (rows.filterMap s.name).Nodup := by
      refine List.pairwise_filterMap.mpr (h.once.imp fun {q q'} hq k hk k' hk' hsame => ?_)
      exact hq k hk (hsame ▸ hk')
    have hmeant : ∀ k ∈ rows.filterMap s.name, ∃ p, s.wanted p ∧ s.name p = some k := by
      intro k hk
      obtain ⟨q, hq, hname⟩ := List.mem_filterMap.mp hk
      exact h.meant q hq k hname
    obtain ⟨order, hnames, hwanted⟩ := namesakes hmeant
    have hapart : (order.map s.name).Nodup := by
      rw [hnames]
      exact hnodup.map fun _ _ => Option.some.inj
    refine ⟨hnodup, order, List.Nodup.of_map _ hapart, fun p => ⟨hwanted p, fun hp => ?_⟩, ?_, hnames⟩
    · obtain ⟨k, hk, q, hq, hname⟩ := h.found p hp
      obtain ⟨p', hp', hk'⟩ := (mem_names hnames).mp (List.mem_filterMap.mpr ⟨q, hq, hname⟩)
      rw [h.apart p p' hp (hwanted p' hp') (hk.trans hk'.symm)]
      exact hp'
    · -- the order of the rows is that of their names, and so of the namesakes
      have hrows : (rows.filterMap s.name).Pairwise fun k k' => ∀ p p', s.wanted p → s.wanted p' →
          s.name p = some k → s.name p' = some k' → s.before p p' := by
        refine List.pairwise_filterMap.mpr (h.ordered.imp fun {q q'} hq k hk k' hk' p p' hp hp' hpk hpk' => ?_)
        exact hq p p' hp hp' (hpk.trans hk.symm) (hpk'.trans hk'.symm)
      have hsome : ((rows.filterMap s.name).map some).Pairwise fun k k' => ∀ p p', s.wanted p →
          s.wanted p' → s.name p = k → s.name p' = k' → s.before p p' := List.pairwise_map.mpr hrows
      rw [← hnames, List.pairwise_map] at hsome
      exact hsome.imp_of_mem fun {p p'} hp hp' hpair => hpair p p' (hwanted p hp) (hwanted p' hp') rfl rfl
  · rintro ⟨hnodup, order, hapart, hmem, hsorted, hnames⟩
    have hmapped : (order.map s.name).Nodup := by
      rw [hnames]
      exact hnodup.map fun _ _ => Option.some.inj
    have hsame : ∀ p p', s.wanted p → s.wanted p' → s.name p = s.name p' → p = p' := fun p p' hp hp' =>
      List.inj_on_of_nodup_map hmapped ((hmem p).mpr hp) ((hmem p').mpr hp')
    have hfound : ∀ p, s.wanted p → ∃ k, s.name p = some k ∧ ∃ q ∈ rows, s.name q = some k := by
      intro p hp
      have hin : s.name p ∈ order.map s.name := List.mem_map_of_mem ((hmem p).mpr hp)
      rw [hnames] at hin
      obtain ⟨k, hk, hname⟩ := List.mem_map.mp hin
      exact ⟨k, hname.symm, List.mem_filterMap.mp hk⟩
    refine ⟨hfound, ?_, hsame, ?_, ?_⟩
    · intro q hq k hk
      obtain ⟨p, hp, hname⟩ := (mem_names hnames).mp (List.mem_filterMap.mpr ⟨q, hq, hk⟩)
      exact ⟨p, (hmem p).mp hp, hname⟩
    · exact (List.pairwise_filterMap.mp hnodup).imp fun {q q'} h k hk hk' => h k hk k hk' rfl
    · have hordered : (order.map s.name).Pairwise fun k k' => ∀ p p', s.wanted p → s.wanted p' →
          s.name p = k → s.name p' = k' → s.before p p' := by
        refine List.pairwise_map.mpr (hsorted.imp_of_mem fun {a a'} ha ha' hbefore p p' hp hp' hpa hpa' => ?_)
        rw [hsame p a hp ((hmem a).mp ha) hpa, hsame p' a' hp' ((hmem a').mp ha') hpa']
        exact hbefore
      rw [hnames, List.pairwise_map, List.pairwise_filterMap] at hordered
      refine hordered.imp fun {q q'} h p p' hp hp' hpq hpq' => ?_
      obtain ⟨k, hk, -⟩ := hfound p hp
      obtain ⟨k', hk', -⟩ := hfound p' hp'
      exact h k (hpq ▸ hk) k' (hpq' ▸ hk') p p' hp hp' hk hk'

/-- Beyond the number of rows and of what is wanted, a limit changes nothing. -/
theorem told_of_answers {rows : List P} (walk : Nat → List K)
    (hwalk : ∀ n, rows.length ≤ n → walk n = rows.filterMap s.name)
    (h : ∀ n, 1 ≤ n → s.Answers n (walk n)) : s.Told rows := by
  obtain ⟨-, first, hfirst, hwanted, -⟩ := h 1 (Nat.le_refl 1)
  obtain ⟨hnodup, order, hapart, hmem, hsorted, hnames⟩ := h (first.length + rows.length + 1) (by omega)
  have hlength : order.length = first.length := by
    refine List.Perm.length_eq ((List.perm_ext_iff_of_nodup hapart hfirst).mpr fun p => ?_)
    rw [hmem, hwanted]
  rw [hwalk _ (by omega)] at hnodup hnames
  rw [List.take_of_length_le (by omega)] at hnames
  exact told_iff.mpr ⟨hnodup, order, hapart, hmem, hsorted, hnames⟩

theorem walk_iff {rows : List P} :
    (∀ n, 1 ≤ n → s.Answers n ((rows.filterMap s.name).take n)) ↔ s.Told rows := by
  constructor
  · intro h
    refine told_of_answers _ (fun n hn => ?_) h
    exact List.take_of_length_le (Nat.le_trans (List.length_filterMap_le _ _) hn)
  · intro h n _
    obtain ⟨hnodup, order, hapart, hmem, hsorted, hnames⟩ := told_iff.mp h
    refine ⟨hnodup.sublist (List.take_sublist n _), order, hapart, hmem, hsorted, ?_⟩
    rw [List.map_take, hnames, List.map_take]

/-- Where the named rows come first, a limit on the rows is one on the names. -/
theorem filterMap_take {rows : List P} (h : s.NamedFirst rows) (n : Nat) :
    (rows.take n).filterMap s.name = (rows.filterMap s.name).take n := by
  induction rows generalizing n with
  | nil => simp
  | cons q rows ih =>
    obtain ⟨hq, hrest⟩ := List.pairwise_cons.mp h
    cases n with
    | zero => rfl
    | succ n =>
      rw [List.take_succ_cons, List.filterMap_cons, List.filterMap_cons]
      cases hname : s.name q with
      | none =>
        have hnone : rows.filterMap s.name = [] := by
          rw [List.filterMap_eq_nil_iff]
          exact fun q' hq' => hq q' hq' hname
        have hnone' : (rows.take n).filterMap s.name = [] := by
          rw [List.filterMap_eq_nil_iff]
          exact fun q' hq' => hq q' (List.mem_of_mem_take hq') hname
        rw [hnone, hnone']
        rfl
      | some k =>
        dsimp only
        rw [List.take_succ_cons, ih hrest]

theorem namedFirst_of_length {rows : List P} (h : ∀ n, 1 ≤ n →
    ((rows.take n).filterMap s.name).length = min n (rows.filterMap s.name).length) : s.NamedFirst rows := by
  induction rows with
  | nil => exact List.Pairwise.nil
  | cons q rows ih =>
    cases hname : s.name q with
    | none =>
      have hone := h 1 (Nat.le_refl 1)
      simp only [List.take_succ_cons, List.take_zero, List.filterMap_cons, hname, List.filterMap_nil,
        List.length_nil] at hone
      have hnil : rows.filterMap s.name = [] := List.eq_nil_of_length_eq_zero (by omega)
      have hnone : ∀ q' ∈ rows, s.name q' = none := List.filterMap_eq_nil_iff.mp hnil
      refine List.pairwise_cons.mpr ⟨fun q' hq' _ => hnone q' hq', ?_⟩
      exact List.Pairwise.imp_of_mem (fun {a a'} _ ha' _ _ => hnone a' ha') (List.pairwise_of_forall fun _ _ => trivial)
    | some k =>
      refine List.pairwise_cons.mpr ⟨fun q' _ hnone => ?_, ih fun n hn => ?_⟩
      · rw [hname] at hnone
        cases hnone
      · have hmore := h (n + 1) (by omega)
        simp only [List.take_succ_cons, List.filterMap_cons, hname, List.length_cons] at hmore
        omega

theorem cut_iff {rows : List P} : (∀ n, 1 ≤ n → s.Answers n ((rows.take n).filterMap s.name)) ↔
    s.Told rows ∧ s.NamedFirst rows := by
  constructor
  · intro h
    have htold : s.Told rows :=
      told_of_answers _ (fun n hn => by rw [List.take_of_length_le hn]) h
    refine ⟨htold, namedFirst_of_length fun n hn => ?_⟩
    obtain ⟨-, order, hapart, hmem, -, hnames⟩ := told_iff.mp htold
    obtain ⟨-, order', hapart', hmem', -, hnames'⟩ := h n hn
    have hlength : order'.length = order.length := by
      refine List.Perm.length_eq ((List.perm_ext_iff_of_nodup hapart' hapart).mpr fun p => ?_)
      rw [hmem', hmem]
    have hall := congrArg List.length hnames
    have hcut := congrArg List.length hnames'
    rw [List.length_map, List.length_map] at hall
    rw [List.length_map, List.length_map, List.length_take] at hcut
    omega
  · rintro ⟨htold, hfirst⟩ n hn
    rw [filterMap_take hfirst]
    exact walk_iff.mpr htold n hn

end Search

/-! ## The places of a walk -/

/-- The places a walk meets, and which of two it meets sooner. -/
structure Route (P : Type) where
  met : P → Prop
  sooner : P → P → Prop

/-- The rows are the places of the route, as it comes to them. -/
structure Route.Along (route : Route P) (rows : List P) : Prop where
  mem : ∀ q, q ∈ rows ↔ route.met q
  sorted : rows.Pairwise route.sooner
  asymm : ∀ q q', route.sooner q q' → ¬ route.sooner q' q

namespace Route.Along

variable {route : Route P} {rows : List P}

theorem nodup (h : route.Along rows) : rows.Nodup := by
  refine h.sorted.imp fun {q q'} hsooner heq => ?_
  subst heq
  exact h.asymm q q hsooner hsooner

/-- What holds of any two rows in turn holds of any two places, the sooner first. -/
theorem pairwise_iff (h : route.Along rows) {R : P → P → Prop} : rows.Pairwise R ↔
    ∀ q q', route.met q → route.met q' → route.sooner q q' → R q q' := by
  constructor
  · intro hrows q q' hq hq' hsooner
    have hne : q ≠ q' := fun heq => h.asymm q q' hsooner (heq ▸ hsooner)
    rcases Stable.pair_sublist hne ((h.mem q).mpr hq) ((h.mem q').mpr hq') with hpair | hpair
    · exact hrows.forall_sublist hpair
    · exact absurd (h.sorted.forall_sublist hpair) (h.asymm q q' hsooner)
  · intro hplaces
    refine h.sorted.imp_of_mem fun {q q'} hq hq' hsooner => ?_
    exact hplaces q q' ((h.mem q).mp hq) ((h.mem q').mp hq') hsooner

end Route.Along

namespace Search

variable (s : Search P K) (route : Route P)

/-- What the places of a route have to be. -/
structure Fits : Prop where
  /-- Every wanted place has a name, which is that of a place met. -/
  found : ∀ p, s.wanted p → ∃ k, s.name p = some k ∧ ∃ q, route.met q ∧ s.name q = some k
  /-- Whatever name is met is that of a wanted place. -/
  meant : ∀ q, route.met q → ∀ k, s.name q = some k → ∃ p, s.wanted p ∧ s.name p = some k
  /-- No two wanted places have one name. -/
  apart : ∀ p p', s.wanted p → s.wanted p' → s.name p = s.name p' → p = p'
  /-- Nor two that are met. -/
  once : ∀ q q', route.met q → route.met q' → ∀ k, s.name q = some k → s.name q' = some k → q = q'
  /-- Of two wanted places, the one whose namesake is met sooner is not the later. -/
  ordered : ∀ q q', route.met q → route.met q' → route.sooner q q' → ∀ p p', s.wanted p → s.wanted p' →
    s.name p = s.name q → s.name p' = s.name q' → s.before p p'

/-- What they have to be where whatever is wanted is met. -/
structure Orderly : Prop where
  named : ∀ p, s.wanted p → s.name p ≠ none
  /-- What is met under a name is wanted itself. -/
  own : ∀ q, route.met q → s.name q ≠ none → s.wanted q
  apart : ∀ p p', s.wanted p → s.wanted p' → s.name p = s.name p' → p = p'
  ordered : ∀ p p', s.wanted p → s.wanted p' → route.sooner p p' → s.before p p'

/-- The places without a name are met last. -/
def NamedSooner : Prop :=
  ∀ q q', route.met q → route.met q' → route.sooner q q' → s.name q = none → s.name q' = none

variable {s route} {rows : List P}

theorem told_iff_fits (h : route.Along rows) : s.Told rows ↔ s.Fits route := by
  constructor
  · intro htold
    refine ⟨fun p hp => ?_, fun q hq => htold.meant q ((h.mem q).mpr hq), htold.apart, ?_,
      h.pairwise_iff.mp htold.ordered⟩
    · obtain ⟨k, hk, q, hq, hname⟩ := htold.found p hp
      exact ⟨k, hk, q, (h.mem q).mp hq, hname⟩
    · intro q q' hq hq' k hk hk'
      by_contra hne
      rcases Stable.pair_sublist hne ((h.mem q).mpr hq) ((h.mem q').mpr hq') with hpair | hpair
      · exact htold.once.forall_sublist hpair k hk hk'
      · exact htold.once.forall_sublist hpair k hk' hk
  · intro hfits
    refine ⟨fun p hp => ?_, fun q hq => hfits.meant q ((h.mem q).mp hq), hfits.apart, ?_,
      h.pairwise_iff.mpr hfits.ordered⟩
    · obtain ⟨k, hk, q, hq, hname⟩ := hfits.found p hp
      exact ⟨k, hk, q, (h.mem q).mpr hq, hname⟩
    · refine h.pairwise_iff.mpr fun q q' hq hq' hsooner k hk hk' => ?_
      obtain rfl := hfits.once q q' hq hq' k hk hk'
      exact h.asymm q q hsooner hsooner

theorem namedFirst_iff (h : route.Along rows) : s.NamedFirst rows ↔ s.NamedSooner route := h.pairwise_iff

theorem fits_iff_orderly (h : ∀ p, s.wanted p → route.met p) : s.Fits route ↔ s.Orderly route := by
  constructor
  · intro hfits
    refine ⟨fun p hp hnone => ?_, fun q hq hname => ?_, hfits.apart, fun p p' hp hp' hsooner => ?_⟩
    · obtain ⟨k, hk, -⟩ := hfits.found p hp
      rw [hnone] at hk
      cases hk
    · obtain ⟨k, hk⟩ := Option.ne_none_iff_exists'.mp hname
      obtain ⟨p, hp, hpk⟩ := hfits.meant q hq k hk
      rw [hfits.once q p hq (h p hp) k hk hpk]
      exact hp
    · exact hfits.ordered p p' (h p hp) (h p' hp') hsooner p p' hp hp' rfl rfl
  · rintro ⟨hnamed, hown, hapart, hordered⟩
    have hwanted : ∀ {q k}, route.met q → s.name q = some k → s.wanted q := fun {q k} hq hk =>
      hown q hq fun hnone => by
        rw [hnone] at hk
        cases hk
    refine ⟨fun p hp => ?_, fun q hq k hk => ⟨q, hwanted hq hk, hk⟩, hapart, fun q q' hq hq' k hk hk' => ?_, ?_⟩
    · obtain ⟨k, hk⟩ := Option.ne_none_iff_exists'.mp (hnamed p hp)
      exact ⟨k, hk, p, h p hp, hk⟩
    · exact hapart q q' (hwanted hq hk) (hwanted hq' hk') (hk.trans hk'.symm)
    · intro q q' hq hq' hsooner p p' hp hp' hpq hpq'
      obtain ⟨k, hk⟩ := Option.ne_none_iff_exists'.mp (hnamed p hp)
      obtain ⟨k', hk'⟩ := Option.ne_none_iff_exists'.mp (hnamed p' hp')
      obtain rfl := hapart p q hp (hwanted hq (hpq ▸ hk)) hpq
      obtain rfl := hapart p' q' hp' (hwanted hq' (hpq' ▸ hk')) hpq'
      exact hordered p p' hp hp' hsooner

end Search

end Oldest
