import Kvtsjl.Lib.Buckets
import Kvtsjl.Target

/-
  `MemoryTermIndex`: which keys a term hits, and which terms a key was filed under.
  A set of the source is a list without repetitions here. The two maps are kept in step
  by `upsert` and `delete`, and `Coherent` says that they are.
-/

namespace Kvtsjl

open Assoc (Dict)
open Effects Prog

structure TermPostings (K : Type) where
  termToKeys : Dict String (List K)
  keyToTerms : Dict K (List String)

namespace TermPostings

variable {K V : Type} [DecidableEq K]

def empty : TermPostings K := ⟨Dict.empty, Dict.empty⟩

/-- The terms a key was filed under. -/
def terms (p : TermPostings K) (key : K) : List String := (p.keyToTerms.get? key).getD []

/-- The keys filed under a term. -/
def keys (p : TermPostings K) (term : String) : List K := p.termToKeys.bucket term

/-- `search`. The source iterates a set, in no fixed order. -/
def search (p : TermPostings K) (query : String) (limit : Int) : List K :=
  if limit ≤ 0 then [] else (p.keys query).take limit.toNat

/-- File the key under the new terms, and no longer under the others. -/
def upsert (termsOf : K → V → List String) (p : TermPostings K) (key : K) (value : V) :
    TermPostings K :=
  let new := Dict.unique (termsOf key value)
  let old := p.terms key
  { termToKeys := (p.termToKeys.discardFromAll (old.filter fun t => t ∉ new) key).addToAll
      (new.filter fun t => t ∉ old) key
    keyToTerms := if new = [] then p.keyToTerms.erase key else p.keyToTerms.set key new }

def delete (p : TermPostings K) (key : K) : TermPostings K where
  termToKeys := p.termToKeys.discardFromAll (p.terms key) key
  keyToTerms := p.keyToTerms.erase key

/-- The two maps say the same, and no empty bucket is left behind in either. -/
structure Coherent (p : TermPostings K) : Prop where
  agree : ∀ k t, k ∈ p.keys t ↔ t ∈ p.terms k
  filled : p.termToKeys.Filled
  named : p.keyToTerms.Filled

theorem coherent_empty : (empty : TermPostings K).Coherent :=
  ⟨fun _ _ => by simp [keys, terms, empty, Dict.bucket], Dict.filled_empty, Dict.filled_empty⟩

theorem terms_upsert (termsOf : K → V → List String) (p : TermPostings K) (key : K) (value : V)
    (j : K) : (p.upsert termsOf key value).terms j =
      if j = key then Dict.unique (termsOf key value) else p.terms j := by
  unfold upsert terms
  simp only
  split
  · next hnil =>
    rw [Dict.get?_erase]
    split
    · rw [hnil]; rfl
    · rfl
  · rw [Dict.get?_set]
    split <;> rfl

theorem terms_delete (p : TermPostings K) (key j : K) :
    (p.delete key).terms j = if j = key then [] else p.terms j := by
  unfold delete terms
  rw [Dict.get?_erase]
  split <;> rfl

theorem Coherent.upsert {p : TermPostings K} (h : p.Coherent) (termsOf : K → V → List String)
    (key : K) (value : V) : (p.upsert termsOf key value).Coherent where
  agree k t := by
    rw [terms_upsert]
    show k ∈ Dict.bucket (Dict.addToAll _ _ _) t ↔ _
    rw [Dict.mem_bucket_addToAll, Dict.mem_bucket_discardFromAll]
    have hk := h.agree k t
    unfold TermPostings.keys at hk
    simp only [List.mem_filter, decide_eq_true_eq]
    by_cases hkey : k = key
    · subst hkey
      rw [if_pos rfl, hk]
      by_cases hold : t ∈ p.terms k <;> by_cases hnew : t ∈ Dict.unique (termsOf k value) <;>
        simp [hold, hnew]
    · rw [if_neg hkey, hk]
      simp [hkey]
  filled := (h.filled.discardFromAll _ _).addToAll _ _
  named := by
    intro k ts hts
    unfold TermPostings.upsert at hts
    simp only at hts
    split at hts
    · rw [Dict.get?_erase] at hts
      split at hts
      · cases hts
      · exact h.named k ts hts
    · next hne =>
      rw [Dict.get?_set] at hts
      split at hts
      · rw [← Option.some.inj hts]
        exact ⟨hne, Dict.nodup_unique _⟩
      · exact h.named k ts hts

theorem Coherent.delete {p : TermPostings K} (h : p.Coherent) (key : K) : (p.delete key).Coherent where
  agree k t := by
    rw [terms_delete]
    show k ∈ Dict.bucket (Dict.discardFromAll _ _ _) t ↔ _
    rw [Dict.mem_bucket_discardFromAll]
    have hk := h.agree k t
    unfold TermPostings.keys at hk
    rw [hk]
    by_cases hkey : k = key
    · subst hkey
      simp
    · simp [hkey]
  filled := h.filled.discardFromAll _ _
  named := by
    intro k ts hts
    unfold TermPostings.delete at hts
    simp only at hts
    rw [Dict.get?_erase] at hts
    split at hts
    · cases hts
    · exact h.named k ts hts

/-- `delete`, as a step: whether the key was filed under anything. -/
def deleteKey (key : K) : M (TermPostings K) Bool := do
  let terms ← read fun p : TermPostings K => p.terms key
  modify fun p => p.delete key
  return !terms.isEmpty

end TermPostings

/-- `MemoryTermIndex`, attached under a label. It keeps no metadata, so a sync has
    nothing to read first. -/
def memoryTermIndex {K V : Type} [DecidableEq K] (label : String) (termsOf : K → V → List String)
    (syncOnWrite : Bool) : Index (TermPostings K) K V where
  label := label
  syncOnWrite := syncOnWrite
  sync key value := modify fun p => p.upsert termsOf key value
  batchSync items := forM items.entries fun e => modify fun p => p.upsert termsOf e.1 e.2
  delete := TermPostings.deleteKey
  batchDelete := countTrue TermPostings.deleteKey

end Kvtsjl
