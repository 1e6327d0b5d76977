import Kvtsjl.Lib.Dict

/-
  Dictionaries of buckets: what is filed under each name, and no name kept without a
  bucket that holds something.
  `addTo` files one thing under one name and `discardFrom` takes it out again. A bucket
  that empties goes. Both keep `Filled`, and `mem_bucket_…` says what they do to every
  bucket.
-/

namespace Assoc

namespace Dict

variable {A K : Type} [DecidableEq A] [DecidableEq K]

/-- What is filed under a name. -/
def bucket (d : Dict A (List K)) (a : A) : List K := (d.get? a).getD []

def addTo (d : Dict A (List K)) (a : A) (k : K) : Dict A (List K) :=
  d.set a (if k ∈ d.bucket a then d.bucket a else d.bucket a ++ [k])

def discardFrom (d : Dict A (List K)) (a : A) (k : K) : Dict A (List K) :=
  match d.get? a with
  | none => d
  | some b =>
    if (b.filter fun j => j ≠ k) = [] then d.erase a else d.set a (b.filter fun j => j ≠ k)

/-- No bucket is empty, and none holds a thing twice. -/
def Filled (d : Dict A (List K)) : Prop := ∀ a b, d.get? a = some b → b ≠ [] ∧ b.Nodup

omit [DecidableEq K] in
theorem filled_empty : Filled (empty : Dict A (List K)) := by
  intro a b h
  cases h

omit [DecidableEq K] in
theorem Filled.nodup_bucket {d : Dict A (List K)} (h : d.Filled) (a : A) : (d.bucket a).Nodup := by
  unfold bucket
  cases ha : d.get? a with
  | none => exact List.nodup_nil
  | some b => exact (h a b ha).2

theorem mem_bucket_addTo (d : Dict A (List K)) (a : A) (k : K) (a' : A) (j : K) :
    j ∈ (d.addTo a k).bucket a' ↔ j ∈ d.bucket a' ∨ a' = a ∧ j = k := by
  unfold addTo
  rw [bucket, get?_set]
  by_cases ha : a' = a
  · subst ha
    by_cases hk : k ∈ d.bucket a'
    · rw [if_pos rfl, if_pos hk, Option.getD_some]
      constructor
      · exact .inl
      · rintro (h | ⟨-, rfl⟩)
        · exact h
        · exact hk
    · rw [if_pos rfl, if_neg hk, Option.getD_some, List.mem_append, List.mem_singleton]
      simp
  · rw [if_neg ha]
    simp [ha, bucket]

theorem mem_bucket_discardFrom (d : Dict A (List K)) (a : A) (k : K) (a' : A) (j : K) :
    j ∈ (d.discardFrom a k).bucket a' ↔ j ∈ d.bucket a' ∧ ¬ (a' = a ∧ j = k) := by
  unfold discardFrom
  cases hb : d.get? a with
  | none =>
    refine ⟨fun h => ⟨h, ?_⟩, fun h => h.1⟩
    rintro ⟨rfl, -⟩
    rw [bucket, hb] at h
    cases h
  | some b =>
    by_cases ha : a' = a
    · subst ha
      have hbucket : d.bucket a' = b := by rw [bucket, hb]; rfl
      simp only
      split
      · next hnil =>
        have hnot : ∀ x ∈ b, x = k := by simpa [List.filter_eq_nil_iff] using hnil
        rw [bucket, get?_erase, if_pos rfl, hbucket]
        constructor
        · intro h
          cases h
        · rintro ⟨h, hne⟩
          exact absurd (hnot j h) fun hj => hne ⟨trivial, hj⟩
      · rw [bucket, get?_set, if_pos rfl, hbucket, Option.getD_some, List.mem_filter]
        simp
    · simp only
      split
      · rw [bucket, get?_erase, if_neg ha]
        simp [ha, bucket]
      · rw [bucket, get?_set, if_neg ha]
        simp [ha, bucket]

theorem Filled.addTo {d : Dict A (List K)} (h : d.Filled) (a : A) (k : K) : (d.addTo a k).Filled := by
  intro a' b hb
  unfold Dict.addTo at hb
  rw [get?_set] at hb
  split at hb
  · rw [← Option.some.inj hb]
    split
    · next hk => exact ⟨List.ne_nil_of_mem hk, h.nodup_bucket a⟩
    · next hk =>
      refine ⟨by simp, List.Nodup.append (h.nodup_bucket a) (List.nodup_singleton k) ?_⟩
      exact List.disjoint_singleton.mpr hk
  · exact h a' b hb

theorem Filled.discardFrom {d : Dict A (List K)} (h : d.Filled) (a : A) (k : K) :
    (d.discardFrom a k).Filled := by
  intro a' b hb
  unfold Dict.discardFrom at hb
  cases hc : d.get? a with
  | none =>
    rw [hc] at hb
    exact h a' b hb
  | some c =>
    rw [hc] at hb
    simp only at hb
    split at hb
    · rw [get?_erase] at hb
      split at hb
      · cases hb
      · exact h a' b hb
    · next hne =>
      rw [get?_set] at hb
      split at hb
      · rw [← Option.some.inj hb]
        exact ⟨hne, (h a c hc).2.filter _⟩
      · exact h a' b hb

/-- File one thing under every name of a list. -/
def addToAll (d : Dict A (List K)) (as : List A) (k : K) : Dict A (List K) :=
  as.foldl (fun d a => d.addTo a k) d

/-- Take one thing out from under every name of a list. -/
def discardFromAll (d : Dict A (List K)) (as : List A) (k : K) : Dict A (List K) :=
  as.foldl (fun d a => d.discardFrom a k) d

theorem mem_bucket_addToAll (as : List A) (d : Dict A (List K)) (k : K) (a : A) (j : K) :
    j ∈ (d.addToAll as k).bucket a ↔ j ∈ d.bucket a ∨ a ∈ as ∧ j = k := by
  unfold addToAll
  induction as generalizing d with
  | nil => simp
  | cons a' as ih =>
    rw [List.foldl_cons, ih, mem_bucket_addTo, List.mem_cons, or_assoc, or_and_right]

theorem mem_bucket_discardFromAll (as : List A) (d : Dict A (List K)) (k : K) (a : A) (j : K) :
    j ∈ (d.discardFromAll as k).bucket a ↔ j ∈ d.bucket a ∧ ¬ (a ∈ as ∧ j = k) := by
  unfold discardFromAll
  induction as generalizing d with
  | nil => simp
  | cons a' as ih =>
    rw [List.foldl_cons, ih, mem_bucket_discardFrom, List.mem_cons, and_assoc, or_and_right, not_or]

theorem Filled.addToAll {d : Dict A (List K)} (h : d.Filled) (as : List A) (k : K) :
    (d.addToAll as k).Filled := by
  unfold Dict.addToAll
  induction as generalizing d with
  | nil => exact h
  | cons a as ih => exact ih (h.addTo a k)

theorem Filled.discardFromAll {d : Dict A (List K)} (h : d.Filled) (as : List A) (k : K) :
    (d.discardFromAll as k).Filled := by
  unfold Dict.discardFromAll
  induction as generalizing d with
  | nil => exact h
  | cons a as ih => exact ih (h.discardFrom a k)

end Dict

end Assoc
