import Mathlib.Data.List.Sort

/-
  A sorted list read page by page.
  A page is the first few elements after the last one of the page before. Whatever is done
  meanwhile to the elements up to it, what comes after a page is the rest of the list (`after_page`).
  What a list is mapped to is picked up behind any element of it (`filterMap_behind`).
  And a list filtered and cut at a limit: what is left depends on the filter up to the limit only
  (`take_filter_congr_iff`), and on whether the filter comes before the cut (`filter_take_iff`).
-/

namespace Paging

variable {X : Type}

/-- Sorting leaves no two elements level where each is there once. -/
theorem pairwise_mergeSort_strict {le : X → X → Bool}
    (htrans : ∀ x y z, le x y = true → le y z = true → le x z = true)
    (htotal : ∀ x y, (le x y || le y x) = true) {xs : List X} (hnodup : xs.Nodup)
    (hlevel : ∀ x ∈ xs, ∀ y ∈ xs, le x y = true → le y x = true → x = y) :
    (xs.mergeSort le).Pairwise fun x y => le y x = false := by
  have hperm := List.mergeSort_perm xs le
  have hsorted := List.pairwise_mergeSort htrans htotal xs
  refine (hsorted.and (hperm.nodup_iff.mpr hnodup)).imp_of_mem fun {x y} hx hy hxy => ?_
  by_contra hyx
  rw [Bool.not_eq_false] at hyx
  exact hxy.2 (hlevel x (hperm.mem_iff.mp hx) y (hperm.mem_iff.mp hy) hxy.1 hyx)

variable {lt : X → X → Prop}

theorem eq_of_mem (hasymm : ∀ x y, lt x y → ¬ lt y x) {xs ys : List X} (hxs : xs.Pairwise lt)
    (hys : ys.Pairwise lt) (h : ∀ x, x ∈ xs ↔ x ∈ ys) : xs = ys := by
  have hnodup : ∀ {zs : List X}, zs.Pairwise lt → zs.Nodup := by
    intro zs hzs
    refine hzs.imp fun {x y} hxy heq => ?_
    subst heq
    exact hasymm x x hxy hxy
  have hperm := (List.perm_ext_iff_of_nodup (hnodup hxs) (hnodup hys)).mpr h
  exact hperm.eq_of_pairwise (fun x y _ _ hxy hyx => absurd hyx (hasymm x y hxy)) hxs hys

/-- What is past the last element of a page comes after the page. -/
theorem mem_drop_iff (hasymm : ∀ x y, lt x y → ¬ lt y x) {rest : List X} (hrest : rest.Pairwise lt)
    {n : Nat} {last : X} (hlast : (rest.take n).getLast? = some last) (x : X) :
    x ∈ rest.drop n ↔ x ∈ rest ∧ lt last x := by
  rw [← List.take_append_drop n rest, List.pairwise_append] at hrest
  obtain ⟨hpage, -, hpast⟩ := hrest
  have hmem : last ∈ rest.take n := List.mem_of_getLast? hlast
  constructor
  · intro hx
    exact ⟨List.mem_of_mem_drop hx, hpast last hmem x hx⟩
  · intro ⟨hx, hlt⟩
    rw [← List.take_append_drop n rest] at hx
    rcases List.mem_append.mp hx with hx | hx
    · obtain ⟨before, hbefore⟩ := List.getLast?_eq_some_iff.mp hlast
      rw [hbefore] at hx hpage
      rcases List.mem_append.mp hx with hx | hx
      · have hxlast := (List.pairwise_append.mp hpage).2.2 x hx last (List.mem_singleton_self last)
        exact absurd hlt (hasymm x last hxlast)
      · rw [List.mem_singleton.mp hx] at hlt
        exact absurd hlt (hasymm last last hlt)
    · exact hx

theorem after_page (hasymm : ∀ x y, lt x y → ¬ lt y x) {rest later : List X}
    (hrest : rest.Pairwise lt) (hlater : later.Pairwise lt) {n : Nat} {last : X}
    (hlast : (rest.take n).getLast? = some last) (h : ∀ x, x ∈ later ↔ x ∈ rest ∧ lt last x) :
    later = rest.drop n := by
  refine eq_of_mem hasymm hlater (hrest.sublist (List.drop_sublist n rest)) fun x => ?_
  rw [h, mem_drop_iff hasymm hrest hlast]

/-! ### Picked up behind an element -/

section Behind

variable {Y : Type} {f : X → Option Y}

/-- Behind an element of what a sorted list is mapped to comes what the later elements are mapped to. -/
theorem filterMap_behind [DecidableRel lt] (hasymm : ∀ x y, lt x y → ¬ lt y x) {xs : List X} (hxs : xs.Pairwise lt)
    {before after : List Y} {y : Y} (h : xs.filterMap f = before ++ y :: after) :
    ∃ x ∈ xs, f x = some y ∧ after = (xs.filter fun z => decide (lt x z)).filterMap f := by
  obtain ⟨front, back, rfl, -, hback⟩ := List.filterMap_eq_append_iff.mp h
  obtain ⟨skipped, x, rest, rfl, -, hx, hrest⟩ := List.filterMap_eq_cons_iff.mp hback
  refine ⟨x, by simp, hx, ?_⟩
  rw [← List.append_assoc, List.pairwise_append, List.pairwise_cons] at hxs
  obtain ⟨-, ⟨hpast, -⟩, hfront⟩ := hxs
  have hnone : (front ++ skipped).filter (fun z => decide (lt x z)) = [] := by
    refine List.filter_eq_nil_iff.mpr fun z hz => ?_
    rw [decide_eq_true_eq]
    exact hasymm z x (hfront z hz x List.mem_cons_self)
  have hself : decide (lt x x) = false := decide_eq_false fun hlt => hasymm x x hlt hlt
  have hall : rest.filter (fun z => decide (lt x z)) = rest :=
    List.filter_eq_self.mpr fun z hz => decide_eq_true (hpast z hz)
  rw [← List.append_assoc, List.filter_append, hnone, List.nil_append, List.filter_cons, hself,
    if_neg Bool.false_ne_true, hall, hrest]

/-- Two sorted lists are mapped to the same where they agree on what is mapped at all. -/
theorem filterMap_eq_iff (hasymm : ∀ x y, lt x y → ¬ lt y x) {zs : List X}
    (hinj : ∀ x ∈ zs, ∀ x' ∈ zs, ∀ y, f x = some y → f x' = some y → x = x') {xs ys : List X}
    (hxs : xs.Pairwise lt) (hys : ys.Pairwise lt) (hxz : xs ⊆ zs) (hyz : ys ⊆ zs) :
    xs.filterMap f = ys.filterMap f ↔ ∀ x, (f x).isSome = true → (x ∈ xs ↔ x ∈ ys) := by
  have hmem : ∀ {us vs : List X}, us ⊆ zs → vs ⊆ zs → us.filterMap f = vs.filterMap f → ∀ x,
      (f x).isSome = true → x ∈ us → x ∈ vs := by
    intro us vs hus hvs heq x hx hxus
    obtain ⟨y, hy⟩ := Option.isSome_iff_exists.mp hx
    have hyvs : y ∈ vs.filterMap f := by
      rw [← heq]
      exact List.mem_filterMap.mpr ⟨x, hxus, hy⟩
    obtain ⟨x', hx', hy'⟩ := List.mem_filterMap.mp hyvs
    rw [hinj x (hus hxus) x' (hvs hx') y hy hy']
    exact hx'
  constructor
  · exact fun heq x hx => ⟨hmem hxz hyz heq x hx, hmem hyz hxz heq.symm x hx⟩
  · intro h
    have hkept : ∀ us : List X, us.filterMap f = (us.filter fun x => (f x).isSome).filterMap f := by
      intro us
      rw [List.filterMap_filter]
      refine List.filterMap_congr fun x _ => ?_
      cases f x <;> rfl
    have hsame : (xs.filter fun x => (f x).isSome) = ys.filter fun x => (f x).isSome := by
      refine eq_of_mem hasymm (hxs.filter _) (hys.filter _) fun x => ?_
      rw [List.mem_filter, List.mem_filter]
      exact and_congr_left fun hx => h x hx
    rw [hkept xs, hkept ys, hsame]

end Behind

/-! ### Filtered and cut -/

/-- Two filters that agree on what is come to before the limit leave the same. -/
theorem take_filter_congr {p q : X → Bool} {xs : List X} : ∀ {n : Nat},
    (∀ before x after, xs = before ++ x :: after → (before.filter p).length < n → p x = q x) →
      (xs.filter p).take n = (xs.filter q).take n := by
  induction xs with
  | nil => exact fun _ => rfl
  | cons y ys ih =>
    intro n h
    cases n with
    | zero => rw [List.take_zero, List.take_zero]
    | succ n =>
      have hy : p y = q y := h [] y ys rfl (Nat.succ_pos n)
      cases hp : p y with
      | true =>
        rw [List.filter_cons_of_pos hp, List.filter_cons_of_pos (hy ▸ hp), List.take_succ_cons,
          List.take_succ_cons]
        refine congrArg _ (ih fun before x after hys hlt => ?_)
        refine h (y :: before) x after (by rw [hys]; rfl) ?_
        rw [List.filter_cons_of_pos hp, List.length_cons]
        omega
      | false =>
        have hp' : ¬ p y = true := by rw [hp]; exact Bool.false_ne_true
        rw [List.filter_cons_of_neg hp', List.filter_cons_of_neg (hy ▸ hp')]
        refine ih fun before x after hys hlt => ?_
        refine h (y :: before) x after (by rw [hys]; rfl) ?_
        rw [List.filter_cons_of_neg hp']
        exact hlt

theorem take_filter_congr_iff {p q : X → Bool} {xs : List X} (hnodup : xs.Nodup) : ∀ {n : Nat},
    (xs.filter p).take n = (xs.filter q).take n ↔
      ∀ before x after, xs = before ++ x :: after → (before.filter p).length < n → p x = q x := by
  intro n
  refine ⟨?_, take_filter_congr⟩
  induction xs generalizing n with
  | nil =>
    intro _ before x after h
    exact absurd h.symm (by simp)
  | cons y ys ih =>
    have hrest := (List.nodup_cons.mp hnodup).2
    intro heq before x after hsplit hlt
    cases n with
    | zero => exact absurd hlt (Nat.not_lt_zero _)
    | succ n =>
      have hy : p y = q y := by
        -- `y` begins one of the lists, so it is in the other
        have hhead : ∀ {p q : X → Bool}, ((y :: ys).filter p).take (n + 1) = ((y :: ys).filter q).take (n + 1) →
            p y = true → q y = true := by
          intro p q heq hp
          rw [List.filter_cons_of_pos hp, List.take_succ_cons] at heq
          have hmem : y ∈ ((y :: ys).filter q).take (n + 1) := by
            rw [← heq]
            exact List.mem_cons_self
          exact (List.mem_filter.mp (List.mem_of_mem_take hmem)).2
        rw [Bool.eq_iff_iff]
        exact ⟨hhead heq, hhead heq.symm⟩
      cases before with
      | nil =>
        rw [List.nil_append] at hsplit
        rw [← (List.cons.inj hsplit).1]
        exact hy
      | cons b before =>
        obtain ⟨hb, hys⟩ := List.cons.inj hsplit
        subst hb
        cases hp : p y with
        | true =>
          rw [List.filter_cons_of_pos hp, List.filter_cons_of_pos (hy ▸ hp), List.take_succ_cons,
            List.take_succ_cons] at heq
          rw [List.filter_cons_of_pos hp, List.length_cons] at hlt
          exact ih hrest (List.cons.inj heq).2 before x after hys (by omega)
        | false =>
          have hp' : ¬ p y = true := by rw [hp]; exact Bool.false_ne_true
          rw [List.filter_cons_of_neg hp', List.filter_cons_of_neg (hy ▸ hp')] at heq
          rw [List.filter_cons_of_neg hp'] at hlt
          exact ih hrest heq before x after hys hlt

/-- Cut before it is filtered, a list has the same left where nothing is filtered from what is cut
    out, or nothing is left of the rest. -/
theorem filter_take_iff {p : X → Bool} {xs : List X} {n : Nat} :
    (xs.filter p).take n = (xs.take n).filter p ↔
      (∀ x ∈ xs.take n, p x = true) ∨ ∀ x ∈ xs.drop n, p x = false := by
  have hle : ((xs.take n).filter p).length ≤ n :=
    Nat.le_trans (List.length_filter_le _ _) (List.length_take_le n xs)
  have hsplit : (xs.filter p).take n =
      (xs.take n).filter p ++ ((xs.drop n).filter p).take (n - ((xs.take n).filter p).length) := by
    conv_lhs => rw [← List.take_append_drop n xs, List.filter_append, List.take_append]
    rw [List.take_of_length_le hle]
  rw [hsplit, List.append_right_eq_self, List.take_eq_nil_iff, List.filter_eq_nil_iff]
  have hfull : n - ((xs.take n).filter p).length = 0 → ∀ x ∈ xs.take n, p x = true := by
    intro hzero
    have hlength : (xs.take n).length ≤ n := List.length_take_le n xs
    rw [← List.length_filter_eq_length_iff]
    have hfewer := List.length_filter_le p (xs.take n)
    omega
  constructor
  · intro hnone
    refine hnone.imp hfull fun hrest x hx => ?_
    rw [← Bool.not_eq_true]
    exact hrest x hx
  · intro hor
    rcases hor with hall | hrest
    · rcases Nat.lt_or_ge xs.length n with hshort | hlong
      · rw [List.drop_of_length_le (by omega)]
        exact .inr fun x hx => absurd hx List.not_mem_nil
      · have hlength : ((xs.take n).filter p).length = n := by
          rw [List.length_filter_eq_length_iff.mpr hall, List.length_take]
          omega
        exact .inl (by omega)
    · refine .inr fun x hx => ?_
      rw [hrest x hx]
      exact Bool.false_ne_true

/-- And as many are left, where the same are. -/
theorem length_filter_take_iff {p : X → Bool} {xs : List X} {n : Nat} :
    ((xs.take n).filter p).length = min n (xs.filter p).length ↔
      (∀ x ∈ xs.take n, p x = true) ∨ ∀ x ∈ xs.drop n, p x = false := by
  have hle : ((xs.take n).filter p).length ≤ n :=
    Nat.le_trans (List.length_filter_le _ _) (List.length_take_le n xs)
  have hkeeps : (xs.take n).filter p <+: (xs.filter p).take n := by
    have hkept : (xs.take n).filter p <+: xs.filter p := (List.take_prefix n xs).filter p
    rw [List.prefix_iff_eq_take.mp hkept]
    exact List.take_prefix_take_left hle
  rw [← filter_take_iff, ← List.length_take]
  exact ⟨fun h => (hkeeps.eq_of_length h).symm, fun h => by rw [h]⟩

/-- Every element up to a cut counts, or none after it does. -/
def CutSpares (counts : X → Bool) (n : Nat) (xs : List X) : Prop :=
  (∀ x ∈ xs.take n, counts x = true) ∨ ∀ x ∈ xs.drop n, counts x = false

theorem cutSpares_congr {counts counts' : X → Bool} {n : Nat} {xs : List X} (h : ∀ x ∈ xs, counts x = counts' x) :
    CutSpares counts n xs ↔ CutSpares counts' n xs := by
  unfold CutSpares
  refine or_congr (forall₂_congr fun x hx => ?_) (forall₂_congr fun x hx => ?_)
  · rw [h x (List.mem_of_mem_take hx)]
  · rw [h x (List.mem_of_mem_drop hx)]

/-- Cut before it is mapped, a list is mapped to as much as cut afterwards where the cut spares all that is
    mapped. -/
theorem length_filterMap_take_iff {Y : Type} {f : X → Option Y} {xs : List X} {n : Nat} :
    ((xs.take n).filterMap f).length = min n (xs.filterMap f).length ↔ CutSpares (fun x => (f x).isSome) n xs := by
  have hlength : ∀ ys : List X, (ys.filterMap f).length = (ys.filter fun x => (f x).isSome).length := by
    intro ys
    rw [List.length_filterMap_eq_countP, List.countP_eq_length_filter]
  rw [hlength, hlength]
  exact length_filter_take_iff

theorem filterMap_take_iff {Y : Type} {f : X → Option Y} {xs : List X} {n : Nat} :
    (xs.filterMap f).take n = (xs.take n).filterMap f ↔ CutSpares (fun x => (f x).isSome) n xs := by
  have hfew : ((xs.take n).filterMap f).length ≤ n :=
    Nat.le_trans (List.length_filterMap_le _ _) (List.length_take_le n xs)
  have hkeeps : (xs.take n).filterMap f <+: (xs.filterMap f).take n := by
    have hkept : (xs.take n).filterMap f <+: xs.filterMap f := (List.take_prefix n xs).filterMap f
    rw [List.prefix_iff_eq_take.mp hkept]
    exact List.take_prefix_take_left hfew
  rw [← length_filterMap_take_iff, ← List.length_take]
  exact ⟨fun h => by rw [h], fun h => (hkeeps.eq_of_length h).symm⟩

/-- An element among the first is among the first of those that pass with it. -/
theorem mem_take_filter {p : X → Bool} {xs : List X} {n : Nat} {x : X} (h : x ∈ xs.take n) (hx : p x = true) :
    x ∈ (xs.filter p).take n := by
  have hkept : x ∈ (xs.take n).filter p := List.mem_filter.mpr ⟨h, hx⟩
  have hfew : ((xs.take n).filter p).length ≤ n :=
    Nat.le_trans (List.length_filter_le _ _) (List.length_take_le n xs)
  have hsplit : xs.filter p = (xs.take n).filter p ++ (xs.drop n).filter p := by
    rw [← List.filter_append, List.take_append_drop]
  rw [hsplit, List.take_append, List.take_of_length_le hfew]
  exact List.mem_append_left _ hkept

/-- Where a function tells the elements of a list apart, it tells apart what is made of them. -/
theorem map_inj_on {Y : Type} {g : X → Y} {zs : List X} (hinj : ∀ x ∈ zs, ∀ y ∈ zs, g x = g y → x = y) :
    ∀ {xs ys : List X}, xs ⊆ zs → ys ⊆ zs → (xs.map g = ys.map g ↔ xs = ys) := by
  intro xs
  induction xs with
  | nil =>
    intro ys _ _
    rw [List.map_nil, eq_comm, List.map_eq_nil_iff, eq_comm]
  | cons x xs ih =>
    intro ys hxs hys
    cases ys with
    | nil => exact iff_of_false (by simp) (by simp)
    | cons y ys =>
      have hx := hxs List.mem_cons_self
      have hy := hys List.mem_cons_self
      rw [List.map_cons, List.map_cons, List.cons_eq_cons, List.cons_eq_cons,
        ih (fun _ h => hxs (List.mem_cons_of_mem _ h)) fun _ h => hys (List.mem_cons_of_mem _ h)]
      exact and_congr_left' ⟨hinj x hx y hy, congrArg g⟩

end Paging
