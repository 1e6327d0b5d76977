/-
  Dictionaries that remember the order their keys were first set in.

  A `Dict K α` is a list of entries whose keys are distinct, and carries the
  proof that they are. Setting a key it holds replaces the value in place, so the
  key keeps its position. Setting another appends.
-/
import Mathlib.Data.List.Nodup
import Mathlib.Data.Finset.Basic

namespace Assoc

variable {K α β : Type} [DecidableEq K]

/-! ## Entry lists -/

def lookup (k : K) : List (K × α) → Option α
  | [] => none
  | (j, v) :: rest => if j = k then some v else lookup k rest

def insert (k : K) (v : α) : List (K × α) → List (K × α)
  | [] => [(k, v)]
  | (j, w) :: rest => if j = k then (j, v) :: rest else (j, w) :: insert k v rest

def erase (k : K) (l : List (K × α)) : List (K × α) := l.filter fun e => e.1 ≠ k

theorem insert_ne_nil (k : K) (v : α) (l : List (K × α)) : insert k v l ≠ [] := by
  cases l with
  | nil => exact List.cons_ne_nil _ _
  | cons e l =>
    unfold insert
    split <;> exact List.cons_ne_nil _ _

/-- A new key goes to the end. -/
theorem insert_new {k : K} {l : List (K × α)} (h : k ∉ l.map Prod.fst) (v : α) :
    insert k v l = l ++ [(k, v)] := by
  induction l with
  | nil => rfl
  | cons e l ih =>
    rw [List.map_cons, List.mem_cons, not_or] at h
    rw [insert, if_neg (Ne.symm h.1), ih h.2]
    rfl

theorem lookup_insert (k j : K) (v : α) (l : List (K × α)) :
    lookup j (insert k v l) = if j = k then some v else lookup j l := by
  induction l with
  | nil => simp only [insert, lookup, eq_comm]
  | cons e l ih =>
    obtain ⟨i, w⟩ := e
    by_cases hi : i = k
    · subst hi
      simp only [insert, if_true, lookup]
      by_cases hj : j = i <;> simp [hj, eq_comm]
    · simp only [insert, hi, if_false, lookup, ih]
      by_cases hj : j = k
      · subst hj; simp [hi]
      · simp [hj]

theorem lookup_erase (k j : K) (l : List (K × α)) :
    lookup j (erase k l) = if j = k then none else lookup j l := by
  induction l with
  | nil => simp [erase, lookup]
  | cons e l ih =>
    obtain ⟨i, w⟩ := e
    unfold erase at ih ⊢
    by_cases hi : i = k
    · subst hi
      rw [List.filter_cons_of_neg (by simp), ih]
      by_cases hj : j = i
      · simp [hj]
      · simp [hj, lookup, Ne.symm hj]
    · rw [List.filter_cons_of_pos (by simpa using hi)]
      simp only [lookup, ih]
      by_cases hj : j = k
      · subst hj; simp [hi]
      · simp [hj]

theorem lookup_eq_none {k : K} {l : List (K × α)} :
    lookup k l = none ↔ k ∉ l.map Prod.fst := by
  induction l with
  | nil => simp [lookup]
  | cons e l ih =>
    obtain ⟨j, w⟩ := e
    by_cases hj : j = k
    · simp [lookup, hj]
    · simp [lookup, hj, ih, Ne.symm hj]

theorem mem_of_lookup {k : K} {v : α} {l : List (K × α)} (h : lookup k l = some v) :
    (k, v) ∈ l := by
  induction l with
  | nil => simp [lookup] at h
  | cons e l ih =>
    obtain ⟨j, w⟩ := e
    by_cases hj : j = k
    · subst hj
      simp only [lookup, if_true, Option.some.injEq] at h
      simp [h]
    · simp only [lookup, hj, if_false] at h
      exact List.mem_cons_of_mem _ (ih h)

theorem lookup_of_mem {k : K} {v : α} {l : List (K × α)} (hn : (l.map Prod.fst).Nodup)
    (h : (k, v) ∈ l) : lookup k l = some v := by
  induction l with
  | nil => simp at h
  | cons e l ih =>
    obtain ⟨j, w⟩ := e
    rw [List.map_cons, List.nodup_cons] at hn
    rcases List.mem_cons.mp h with h | h
    · obtain ⟨rfl, rfl⟩ := Prod.mk.inj h
      simp [lookup]
    · have hj : j ≠ k := by
        rintro rfl
        exact hn.1 (List.mem_map.mpr ⟨_, h, rfl⟩)
      simp only [lookup, hj, if_false]
      exact ih hn.2 h

theorem map_fst_insert (k : K) (v : α) (l : List (K × α)) :
    (insert k v l).map Prod.fst =
      if k ∈ l.map Prod.fst then l.map Prod.fst else l.map Prod.fst ++ [k] := by
  induction l with
  | nil => simp [insert]
  | cons e l ih =>
    obtain ⟨j, w⟩ := e
    by_cases hj : j = k
    · simp [insert, hj]
    · simp only [insert, hj, if_false, List.map_cons, ih, List.mem_cons, Ne.symm hj, false_or]
      split <;> simp

/-- Keep, drop or rewrite each entry. -/
def collect (f : K → α → Option β) (l : List (K × α)) : List (K × β) :=
  l.filterMap fun e => (f e.1 e.2).map fun b => (e.1, b)

omit [DecidableEq K] in
theorem map_fst_collect_sublist (f : K → α → Option β) (l : List (K × α)) :
    ((collect f l).map Prod.fst).Sublist (l.map Prod.fst) := by
  induction l with
  | nil => simp [collect]
  | cons e l ih =>
    obtain ⟨j, w⟩ := e
    unfold collect at ih ⊢
    rw [List.filterMap_cons]
    cases hf : f j w with
    | none => simpa [hf] using ih.trans (List.sublist_cons_self _ _)
    | some b => simpa [hf] using ih.cons_cons j

theorem lookup_collect (f : K → α → Option β) {l : List (K × α)}
    (hn : (l.map Prod.fst).Nodup) (k : K) :
    lookup k (collect f l) = (lookup k l).bind (f k) := by
  induction l with
  | nil => rfl
  | cons e l ih =>
    obtain ⟨j, w⟩ := e
    rw [List.map_cons, List.nodup_cons] at hn
    have ih' := ih hn.2
    unfold collect at ih' ⊢
    rw [List.filterMap_cons]
    by_cases hj : j = k
    · subst hj
      have hl : lookup j l = none := lookup_eq_none.mpr hn.1
      rw [hl] at ih'
      cases hf : f j w with
      | none => simpa [hf, lookup] using ih'
      | some b => simp [hf, lookup]
    · cases hf : f j w with
      | none => simpa [hf, lookup, hj] using ih'
      | some b => simpa [hf, lookup, hj] using ih'

/-! ## Dictionaries -/

/-- A dictionary. Its keys are distinct. -/
structure Dict (K α : Type) where
  entries : List (K × α)
  nodup : (entries.map Prod.fst).Nodup

namespace Dict

omit [DecidableEq K] in
@[ext] theorem ext {d e : Dict K α} (h : d.entries = e.entries) : d = e := by
  cases d; cases e; simpa using h

instance [DecidableEq α] : DecidableEq (Dict K α) := fun d e =>
  decidable_of_iff (d.entries = e.entries) ⟨ext, fun h => h ▸ rfl⟩

def empty : Dict K α := ⟨[], by simp⟩

def keys (d : Dict K α) : List K := d.entries.map Prod.fst

def get? (d : Dict K α) (k : K) : Option α := lookup k d.entries

def set (d : Dict K α) (k : K) (v : α) : Dict K α where
  entries := insert k v d.entries
  nodup := by
    rw [map_fst_insert]
    split
    · exact d.nodup
    · next h => exact List.Nodup.append d.nodup (by simp) (by simpa using h)

def erase (d : Dict K α) (k : K) : Dict K α where
  entries := Assoc.erase k d.entries
  nodup := d.nodup.sublist (List.filter_sublist.map _)

/-- Keep, drop or rewrite each entry, in order. -/
def collect (f : K → α → Option β) (d : Dict K α) : Dict K β where
  entries := Assoc.collect f d.entries
  nodup := d.nodup.sublist (map_fst_collect_sublist f d.entries)

def filter (p : K → α → Bool) (d : Dict K α) : Dict K α :=
  d.collect fun k v => if p k v then some v else none

def map (f : K → α → β) (d : Dict K α) : Dict K β := d.collect fun k v => some (f k v)

def single (k : K) (v : α) : Dict K α := ⟨[(k, v)], by simp⟩

/-- The keys of a list, each once, in the order they first appear. -/
def unique (ks : List K) : List K := ks.reverse.dedup.reverse

/-- The entries `f` gives to the keys of a list. -/
def ofKeys (ks : List K) (f : K → Option α) : Dict K α where
  entries := (unique ks).filterMap fun k => (f k).map fun v => (k, v)
  nodup := by
    have h : (unique ks).Nodup := by
      unfold unique; exact List.nodup_reverse.mpr (List.nodup_dedup _)
    refine h.sublist ?_
    generalize unique ks = l
    induction l with
    | nil => simp
    | cons k l ih =>
      rw [List.filterMap_cons]
      cases hf : f k with
      | none => simpa [hf] using ih.trans (List.sublist_cons_self _ _)
      | some v => simpa [hf] using ih.cons_cons k

/-- `d` with every entry of `e` set in turn. -/
def update (d e : Dict K α) : Dict K α := e.entries.foldl (fun d p => d.set p.1 p.2) d

@[simp] theorem get?_empty (k : K) : (empty : Dict K α).get? k = none := rfl

@[simp] theorem get?_single (k j : K) (v : α) :
    (single k v).get? j = if k = j then some v else none := rfl

theorem get?_set (d : Dict K α) (k j : K) (v : α) :
    (d.set k v).get? j = if j = k then some v else d.get? j := lookup_insert k j v _

theorem entries_set {d : Dict K α} {k : K} (h : k ∉ d.keys) (v : α) :
    (d.set k v).entries = d.entries ++ [(k, v)] := insert_new h v

theorem get?_erase (d : Dict K α) (k j : K) :
    (d.erase k).get? j = if j = k then none else d.get? j := lookup_erase k j _

theorem get?_update (d e : Dict K α) (k : K) :
    (d.update e).get? k = (e.get? k).or (d.get? k) := by
  have hloop : ∀ (l : List (K × α)) (d : Dict K α), (l.map Prod.fst).Nodup →
      (l.foldl (fun d p => d.set p.1 p.2) d).get? k = (lookup k l).or (d.get? k) := by
    intro l
    induction l with
    | nil => exact fun _ _ => rfl
    | cons p l ih =>
      intro d hn
      rw [List.map_cons, List.nodup_cons] at hn
      rw [List.foldl_cons, ih _ hn.2, get?_set]
      by_cases hk : k = p.1
      · rw [hk, lookup_eq_none.mpr hn.1]
        simp [lookup]
      · simp [lookup, hk, Ne.symm hk]
  exact hloop e.entries d e.nodup

theorem get?_collect (f : K → α → Option β) (d : Dict K α) (k : K) :
    (d.collect f).get? k = (d.get? k).bind (f k) := lookup_collect f d.nodup k

theorem get?_filter (p : K → α → Bool) (d : Dict K α) (k : K) :
    (d.filter p).get? k = (d.get? k).filter (p k) := by
  unfold filter
  rw [get?_collect]
  cases d.get? k <;> simp [Option.filter]

@[simp] theorem get?_map (f : K → α → β) (d : Dict K α) (k : K) :
    (d.map f).get? k = (d.get? k).map (f k) := by
  unfold map
  rw [get?_collect]
  cases d.get? k <;> rfl

omit [DecidableEq K] in
/-- Two passes over the entries are one. -/
theorem collect_collect {γ : Type} (f : K → β → Option γ) (g : K → α → Option β) (d : Dict K α) :
    (d.collect g).collect f = d.collect fun k v => (g k v).bind (f k) := by
  refine ext ?_
  show List.filterMap _ (List.filterMap _ d.entries) = List.filterMap _ d.entries
  rw [List.filterMap_filterMap]
  congr 1
  funext e
  cases h : g e.1 e.2 <;> simp [h]

omit [DecidableEq K] in
theorem collect_map {γ : Type} (f : K → β → Option γ) (g : K → α → β) (d : Dict K α) :
    (d.map g).collect f = d.collect fun k v => f k (g k v) := collect_collect _ _ d

omit [DecidableEq K] in
theorem map_map {γ : Type} (f : K → β → γ) (g : K → α → β) (d : Dict K α) :
    (d.map g).map f = d.map fun k v => f k (g k v) := collect_collect _ _ d

omit [DecidableEq K] in
@[simp] theorem keys_map (f : K → α → β) (d : Dict K α) : (d.map f).keys = d.keys := by
  show (List.filterMap _ d.entries).map Prod.fst = d.entries.map Prod.fst
  simp

omit [DecidableEq K] in
theorem filter_map (p : K → β → Bool) (f : K → α → β) (d : Dict K α) :
    (d.map f).filter p = (d.filter fun k v => p k (f k v)).map f := by
  unfold filter
  rw [collect_map]
  unfold map
  rw [collect_collect]
  congr 1
  funext k v
  by_cases h : p k (f k v) = true <;> simp [h]

theorem filter_congr {p q : K → α → Bool} {d : Dict K α}
    (h : ∀ k v, d.get? k = some v → p k v = q k v) : d.filter p = d.filter q := by
  refine ext (List.filterMap_congr ?_)
  intro e he
  have hv : d.get? e.1 = some e.2 := lookup_of_mem d.nodup he
  simp only [h _ _ hv]

omit [DecidableEq K] in
theorem collect_eq_nil {f : K → α → Option β} (h : ∀ k v, f k v = none) (d : Dict K α) :
    (d.collect f).entries = [] := by
  show List.filterMap _ d.entries = []
  rw [List.filterMap_eq_nil_iff]
  intro e _
  rw [h e.1 e.2]
  rfl

theorem map_eq_self {f : K → α → α} {d : Dict K α}
    (h : ∀ k v, d.get? k = some v → f k v = v) : d.map f = d := by
  have hsome : d.entries.filterMap (fun e => (some (f e.1 e.2)).map fun b => (e.1, b)) =
      d.entries.filterMap some := by
    refine List.filterMap_congr fun e he => ?_
    have hv : d.get? e.1 = some e.2 := lookup_of_mem d.nodup he
    rw [h _ _ hv]
    rfl
  refine ext ?_
  show d.entries.filterMap (fun e => (some (f e.1 e.2)).map fun b => (e.1, b)) = d.entries
  rw [hsome, List.filterMap_some]

theorem filter_eq_self {p : K → α → Bool} {d : Dict K α}
    (h : ∀ k v, d.get? k = some v → p k v = true) : d.filter p = d := by
  rw [filter_congr (q := fun _ _ => true) h]
  exact map_eq_self (f := fun _ v => v) fun _ _ _ => rfl

theorem get?_eq_none {d : Dict K α} {k : K} : d.get? k = none ↔ k ∉ d.keys := lookup_eq_none

theorem mem_keys {d : Dict K α} {k : K} : k ∈ d.keys ↔ ∃ v, d.get? k = some v := by
  rw [← Option.isSome_iff_exists, ← not_iff_not, Bool.not_eq_true, Option.isSome_eq_false_iff,
    Option.isNone_iff_eq_none, get?_eq_none]

theorem mem_entries {d : Dict K α} {k : K} {v : α} :
    (k, v) ∈ d.entries ↔ d.get? k = some v :=
  ⟨lookup_of_mem d.nodup, mem_of_lookup⟩

/-- Keys erased one after the other. -/
theorem get?_foldl_erase {γ : Type} {step : γ × Dict K α → K → γ × Dict K α}
    (hstep : ∀ c d k, (step (c, d) k).2 = d.erase k ∨ d.get? k = none ∧ (step (c, d) k).2 = d)
    (ks : List K) (k : K) (acc : γ × Dict K α) : (k ∈ ks → (ks.foldl step acc).2.get? k = none) ∧
      (k ∉ ks → (ks.foldl step acc).2.get? k = acc.2.get? k) := by
  have hone : ∀ (acc : γ × Dict K α) (j : K),
      (step acc j).2.get? k = if k = j then none else acc.2.get? k := by
    rintro ⟨c, d⟩ j
    rcases hstep c d j with h | ⟨hnone, h⟩
    · rw [h, get?_erase]
    · rw [h]
      by_cases hj : k = j
      · rw [if_pos hj, hj, hnone]
      · rw [if_neg hj]
  induction ks generalizing acc with
  | nil => exact ⟨fun h => absurd h List.not_mem_nil, fun _ => rfl⟩
  | cons j ks ih =>
    rw [List.foldl_cons, List.mem_cons]
    obtain ⟨hin, hout⟩ := ih (step acc j)
    rw [hone] at hout
    constructor
    · intro h
      by_cases hk : k ∈ ks
      · exact hin hk
      · rw [hout hk, if_pos (h.resolve_right hk)]
    · intro h
      rw [not_or] at h
      rw [hout h.2, if_neg h.1]

@[simp] theorem mem_unique {ks : List K} {k : K} : k ∈ unique ks ↔ k ∈ ks := by
  simp [unique]

theorem nodup_unique (ks : List K) : (unique ks).Nodup := by
  unfold unique
  exact List.nodup_reverse.mpr (List.nodup_dedup _)

theorem lookup_filterMap (f : K → Option α) (k : K) (l : List K) :
    lookup k (l.filterMap fun j => (f j).map fun v => (j, v)) = if k ∈ l then f k else none := by
  induction l with
  | nil => rfl
  | cons j l ih =>
    rw [List.filterMap_cons]
    by_cases hj : j = k
    · subst hj
      cases hf : f j with
      | none => simpa [hf] using ih
      | some v => simp [lookup]
    · cases hf : f j with
      | none => simpa [hf, Ne.symm hj] using ih
      | some v => simpa [hf, lookup, hj, Ne.symm hj] using ih

theorem get?_ofKeys (ks : List K) (f : K → Option α) (k : K) :
    (ofKeys ks f).get? k = if k ∈ ks then f k else none := by
  show lookup k ((unique ks).filterMap _) = _
  rw [lookup_filterMap]
  simp only [mem_unique]

theorem ofKeys_congr {ks : List K} {f g : K → Option α} (h : ∀ k ∈ ks, f k = g k) :
    ofKeys ks f = ofKeys ks g := by
  apply ext
  show (unique ks).filterMap _ = (unique ks).filterMap _
  refine List.filterMap_congr fun k hk => ?_
  rw [h k (mem_unique.mp hk)]

end Dict

end Assoc
