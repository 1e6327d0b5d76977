import Mathlib.Data.List.Perm.Subperm
import Kvtsjl.Fill
import Kvtsjl.LiveSearch
import Kvtsjl.Lib.Parts
import Kvtsjl.PrefixScans
import Kvtsjl.Tree

/-
  `Topology.gc` over memory leaves. Each leaf that is committed to collects what its own walk
  comes to first, the dependents forget what the authority collected and then collect their own.
  A walk lists a place by the scope's text alone and removes by key, so what it removes is the
  key's own place. `gc_collects_iff` says when the two are one collection.
-/

namespace Kvtsjl

open Assoc (Dict)
open Effects Prog

/-- As many of the ones as of the others are among them exactly where the others are different
    ones of them. -/
theorem length_filter_mem_eq_iff {α : Type} {xs ys : List α} [DecidablePred fun y => y ∈ xs] (hys : ys.Nodup) :
    (ys.filter fun y => y ∈ xs).length = xs.length ↔ xs.Nodup ∧ xs ⊆ ys := by
  have hfound : (ys.filter fun y => y ∈ xs).Nodup := hys.filter _
  constructor
  · intro hlen
    have hsub : (ys.filter fun y => y ∈ xs) ⊆ xs := fun y hy => of_decide_eq_true (List.mem_filter.mp hy).2
    have hperm := (List.subperm_of_subset hfound hsub).perm_of_length_le (by omega)
    exact ⟨hperm.nodup_iff.mp hfound, fun x hx => (List.mem_filter.mp (hperm.mem_iff.mpr hx)).1⟩
  · intro ⟨hxs, hsub⟩
    refine ((List.perm_ext_iff_of_nodup hfound hxs).mpr fun y => ?_).length_eq
    rw [List.mem_filter, decide_eq_true_iff]
    exact ⟨fun h => h.2, fun h => ⟨hsub h, h⟩⟩

/-! ## One leaf -/

namespace MemoryKvBackend

variable {K V α VB : Type} [DecidableEq α] (b : MemoryKvBackend K V α VB)

/-- The expired entries the walk lists, by their places. -/
def duePlaces (r : MemoryRoot α VB) : List (List α) :=
  (r.bucket b.collection).keys.filter fun p => (b.expiredKey r none p).isSome

/-- The keys a collection comes to first. -/
def comesTo (r : MemoryRoot α VB) (maxEntries : Int) : List K :=
  ((r.bucket b.collection).keys.filterMap (b.expiredKey r none)).take maxEntries.toNat

/-- The state with the keys' own places empty. -/
def without (r : MemoryRoot α VB) (keys : List K) : MemoryRoot α VB :=
  keys.foldl (fun r k => match b.physicalKeyBlob k with
    | .ok p => r.pop b.collection p
    | .error _ => r) r

/-- The key's own place holds an expired entry. -/
def LapsedAt (r : MemoryRoot α VB) (k : K) : Prop := ∃ e, b.entry r k = some e ∧ expired e r.clock = true

/-- How many of the due entries are gone. -/
def collectedOf (r r' : MemoryRoot α VB) : Nat :=
  ((b.duePlaces r).filter fun p => (b.entryAt r' p).isNone).length

/-- The keys a collection comes to are different ones, and each one's own place is due. -/
def ComesToOwn (r : MemoryRoot α VB) (maxEntries : Int) : Prop :=
  (b.comesTo r maxEntries).Nodup ∧
    ∀ k ∈ b.comesTo r maxEntries, ∃ p, b.physicalKeyBlob k = .ok p ∧ p ∈ b.duePlaces r

variable {b}

theorem length_comesTo (r : MemoryRoot α VB) (maxEntries : Int) :
    (b.comesTo r maxEntries).length = min maxEntries.toNat (b.duePlaces r).length := by
  unfold comesTo duePlaces
  rw [List.length_take, List.length_filterMap_eq_countP, List.countP_eq_length_filter]

theorem expired_of_due {r : MemoryRoot α VB} {p : List α} (h : p ∈ b.duePlaces r) :
    ∃ e, b.entryAt r p = some e ∧ expired e r.clock = true := by
  have hdue := (List.mem_filter.mp h).2
  unfold expiredKey at hdue
  cases he : b.entryAt r p with
  | none =>
    rw [he] at hdue
    cases hdue
  | some e =>
    rw [he] at hdue
    refine ⟨e, rfl, ?_⟩
    by_contra hlive
    rw [show clockBase r none = r.clock from rfl] at hdue
    simp only [hlive, Bool.false_eq_true, not_false_eq_true, if_true] at hdue
    cases hdue

section Writable

variable {f : K → List α} (hf : ∀ k, b.physicalKeyBlob k = .ok (f k))

include hf

theorem without_cons (r : MemoryRoot α VB) (k : K) (keys : List K) :
    b.without r (k :: keys) = b.without (r.pop b.collection (f k)) keys := by
  unfold without
  rw [List.foldl_cons, hf k]

theorem batchDelete_without (keys : List K) (r : MemoryRoot α VB) :
    ∃ n, countTrue b.delete keys r = (.ok n, b.without r keys) := by
  suffices hloop : ∀ (n : Nat) (r : MemoryRoot α VB), ∃ n', (keys.foldlM (fun n key => do
      if ← b.delete key then pure (n + 1) else pure n) n : M (MemoryRoot α VB) Nat) r =
        (.ok n', b.without r keys) from hloop 0 r
  induction keys with
  | nil => exact fun n r => ⟨n, rfl⟩
  | cons k keys ih =>
    intro n r
    rw [List.foldlM_cons, bind_assoc, bind_ok (b.delete_apply (hf k) r), without_cons hf]
    cases (b.entry r k).isSome
    · exact ih n _
    · exact ih (n + 1) _

theorem entryAt_without (keys : List K) (r : MemoryRoot α VB) (p : List α) :
    b.entryAt (b.without r keys) p = if p ∈ keys.map f then none else b.entryAt r p := by
  induction keys generalizing r with
  | nil => rfl
  | cons k keys ih =>
    rw [without_cons hf, ih, List.map_cons]
    have hpop : b.entryAt (r.pop b.collection (f k)) p = if p = f k then none else b.entryAt r p :=
      MemoryRoot.get?_pop r b.collection (f k) p
    rw [hpop]
    by_cases hp : p = f k <;> simp [hp]

/-- As many due entries are gone as the walk comes to exactly where it comes to own places. -/
theorem collectedOf_eq_iff (r : MemoryRoot α VB) (maxEntries : Int) (hinj : Function.Injective f) :
    b.collectedOf r (b.without r (b.comesTo r maxEntries)) = min maxEntries.toNat (b.duePlaces r).length ↔
      b.ComesToOwn r maxEntries := by
  have hgone : ((b.duePlaces r).filter fun p =>
      (b.entryAt (b.without r (b.comesTo r maxEntries)) p).isNone) =
        (b.duePlaces r).filter fun p => p ∈ (b.comesTo r maxEntries).map f := by
    refine List.filter_congr fun p hp => ?_
    obtain ⟨e, he, -⟩ := expired_of_due hp
    rw [entryAt_without hf, he]
    by_cases hmem : p ∈ (b.comesTo r maxEntries).map f
    · rw [if_pos hmem, decide_eq_true hmem]
      rfl
    · rw [if_neg hmem, decide_eq_false hmem]
      rfl
  have hnodup : (b.duePlaces r).Nodup := (r.bucket b.collection).nodup.filter _
  unfold collectedOf
  rw [hgone, ← length_comesTo, ← List.length_map f, length_filter_mem_eq_iff hnodup,
    List.nodup_map_iff hinj]
  refine and_congr_right fun _ => ⟨fun hsub k hk => ?_, fun hown p hp => ?_⟩
  · exact ⟨f k, hf k, hsub (List.mem_map_of_mem hk)⟩
  · obtain ⟨k, hk, rfl⟩ := List.mem_map.mp hp
    obtain ⟨p, hp, hdue⟩ := hown k hk
    rw [hf k] at hp
    rwa [Except.ok.inj hp]

end Writable

end MemoryKvBackend

/-! ## What the leaf's calls come to -/

namespace MemoryKvBackend

variable {K V α VB : Type} [DecidableEq α] {b : MemoryKvBackend K V α VB}

/-- The keys a collection comes to that can be written. Of a view none, or all, can be. -/
def collects (b : MemoryKvBackend K V α VB) (r : MemoryRoot α VB) (maxEntries : Int) : List K :=
  (b.comesTo r maxEntries).filter fun k => (b.physicalKeyBlob k).toBool

theorem physicalKeyBlob_supported {k : K} {e : Exn} (h : b.physicalKeyBlob k = .error e) :
    e.isUnsupported = false := by
  unfold KvBackend.physicalKeyBlob KvSet.leafNeedsEscaping at h
  cases hs : b.kvset.scopeSchema with
  | none =>
    rw [hs] at h
    cases h
  | some schema =>
    rw [hs] at h
    dsimp only at h
    split at h
    · rw [← Except.error.inj h]
      rfl
    · cases h

theorem without_unwritable {e : Exn} (he : ∀ k, b.physicalKeyBlob k = .error e) (r : MemoryRoot α VB)
    (keys : List K) : b.without r keys = r := by
  induction keys with
  | nil => rfl
  | cons k keys ih =>
    unfold without at ih ⊢
    rw [List.foldl_cons, he k]
    exact ih

theorem collects_writable {f : K → List α} (hf : ∀ k, b.physicalKeyBlob k = .ok (f k)) (r : MemoryRoot α VB)
    (maxEntries : Int) : b.collects r maxEntries = b.comesTo r maxEntries := by
  refine List.filter_eq_self.mpr fun k _ => ?_
  rw [hf k]
  rfl

theorem collects_unwritable {e : Exn} (he : ∀ k, b.physicalKeyBlob k = .error e) (r : MemoryRoot α VB)
    (maxEntries : Int) : b.collects r maxEntries = [] := by
  refine List.filter_eq_nil_iff.mpr fun k _ => ?_
  rw [he k]
  exact Bool.false_ne_true

/-- A collection that may remove what it comes to. -/
def Collectable (b : MemoryKvBackend K V α VB) (r : MemoryRoot α VB) (maxEntries : Int) : Prop :=
  b.collects r maxEntries = b.comesTo r maxEntries

theorem ComesToOwn.collectable {r : MemoryRoot α VB} {maxEntries : Int} (h : b.ComesToOwn r maxEntries) :
    b.Collectable r maxEntries := by
  rcases b.physicalKeyBlob_total with ⟨f, -, hf⟩ | ⟨e, he⟩
  · exact collects_writable hf r maxEntries
  · cases hkeys : b.comesTo r maxEntries with
    | nil =>
      unfold Collectable
      rw [collects_unwritable he, hkeys]
    | cons k keys =>
      obtain ⟨p, hp, -⟩ := h.2 k (by rw [hkeys]; exact List.mem_cons_self)
      rw [he k] at hp
      cases hp

/-- What is collected is all of what may be exactly where the walk comes to own places. -/
theorem collectedOf_iff {r : MemoryRoot α VB} {maxEntries : Int} (h : b.Collectable r maxEntries) :
    b.collectedOf r (b.without r (b.comesTo r maxEntries)) = min maxEntries.toNat (b.duePlaces r).length ↔
      b.ComesToOwn r maxEntries := by
  rcases b.physicalKeyBlob_total with ⟨f, hinj, hf⟩ | ⟨e, he⟩
  · exact collectedOf_eq_iff hf r maxEntries hinj
  · have hnil : b.comesTo r maxEntries = [] := by rw [← h, collects_unwritable he]
    refine iff_of_true ?_ ⟨by rw [hnil]; exact List.nodup_nil, fun k hk => by rw [hnil] at hk; cases hk⟩
    rw [← length_comesTo, hnil, List.length_nil]
    unfold collectedOf
    rw [List.length_eq_zero_iff, List.filter_eq_nil_iff]
    intro p hp
    obtain ⟨e, he, -⟩ := expired_of_due hp
    show ¬ (b.entryAt r p).isNone = true
    rw [he]
    exact Bool.false_ne_true

/-- The walk's own places hold what has expired. -/
theorem ComesToOwn.lapsed {r : MemoryRoot α VB} {maxEntries : Int} (h : b.ComesToOwn r maxEntries) {k : K}
    (hk : k ∈ b.comesTo r maxEntries) : b.LapsedAt r k := by
  obtain ⟨p, hp, hdue⟩ := h.2 k hk
  obtain ⟨e, he, hexpired⟩ := expired_of_due hdue
  exact ⟨e, by rw [b.entry_eq hp, he], hexpired⟩

theorem ComesToOwn.keeps_live {r : MemoryRoot α VB} {maxEntries : Int} (h : b.ComesToOwn r maxEntries)
    {p : List α} {e : Entry VB} (he : b.entryAt r p = some e) (hlive : expired e r.clock = false) :
    b.entryAt (b.without r (b.comesTo r maxEntries)) p = some e := by
  rcases b.physicalKeyBlob_total with ⟨f, -, hf⟩ | ⟨e', he'⟩
  · rw [entryAt_without hf, if_neg, he]
    intro hmem
    obtain ⟨k, hk, rfl⟩ := List.mem_map.mp hmem
    obtain ⟨e', he', hexpired⟩ := h.lapsed hk
    rw [b.entry_eq (hf k), he] at he'
    rw [Option.some.inj he', hexpired] at hlive
    cases hlive
  · rw [without_unwritable he', he]

theorem entry_without {r : MemoryRoot α VB} {keys : List K} {k : K} (h : k ∈ keys ∨ b.entry r k = none) :
    b.entry (b.without r keys) k = none := by
  rcases b.physicalKeyBlob_total with ⟨f, -, hf⟩ | ⟨e, he⟩
  · rw [b.entry_eq (hf k), entryAt_without hf]
    rcases h with hk | hnone
    · exact if_pos (List.mem_map_of_mem hk)
    · rw [b.entry_eq (hf k)] at hnone
      rw [hnone, ite_self]
  · unfold entry
    rw [he k]

theorem mem_of_entry_without {r : MemoryRoot α VB} {keys : List K} {k : K} (hsome : b.entry r k ≠ none)
    (hnone : b.entry (b.without r keys) k = none) : k ∈ keys := by
  rcases b.physicalKeyBlob_total with ⟨f, hinj, hf⟩ | ⟨e, he⟩
  · rw [b.entry_eq (hf k)] at hsome hnone
    rw [entryAt_without hf] at hnone
    by_contra hk
    rw [if_neg fun hmem => hk ((List.mem_map_of_injective hinj).mp hmem)] at hnone
    exact hsome hnone
  · rw [without_unwritable he] at hnone
    exact absurd hnone hsome

section Calls

variable {maxEntries : Int} (hmax : 1 ≤ maxEntries)

include hmax

theorem gcExpiredKeys_eq (r : MemoryRoot α VB) : b.gcExpiredKeys maxEntries r =
    (do
      when (b.comesTo r maxEntries ≠ []) (Functor.discard (countTrue b.delete (b.comesTo r maxEntries)))
      return b.comesTo r maxEntries : M (MemoryRoot α VB) (List K)) r := by
  unfold gcExpiredKeys expiredKeys
  rw [if_neg (by omega), if_neg (by omega)]
  rfl

theorem gcExpiredKeys_run {r : MemoryRoot α VB} (h : b.Collectable r maxEntries) :
    b.gcExpiredKeys maxEntries r = (.ok (b.comesTo r maxEntries), b.without r (b.comesTo r maxEntries)) := by
  rw [gcExpiredKeys_eq hmax]
  by_cases hnil : b.comesTo r maxEntries = []
  · rw [hnil]
    rfl
  · rcases b.physicalKeyBlob_total with ⟨f, -, hf⟩ | ⟨e, he⟩
    · obtain ⟨count, hcount⟩ := batchDelete_without hf (b.comesTo r maxEntries) r
      unfold when
      rw [if_pos hnil, bind_apply, discard_apply, hcount]
      rfl
    · refine absurd ?_ hnil
      rw [← h, collects_unwritable he]

theorem gcExpiredKeys_raises {r : MemoryRoot α VB} (h : ¬ b.Collectable r maxEntries) :
    ∃ e, e.isUnsupported = false ∧ b.gcExpiredKeys maxEntries r = (.error e, r) ∧ b.collects r maxEntries = [] := by
  rcases b.physicalKeyBlob_total with ⟨f, -, hf⟩ | ⟨e, he⟩
  · exact absurd (collects_writable hf r maxEntries) h
  · rw [gcExpiredKeys_eq hmax]
    cases hkeys : b.comesTo r maxEntries with
    | nil =>
      refine absurd ?_ h
      unfold Collectable
      rw [collects_unwritable he, hkeys]
    | cons k keys =>
      refine ⟨e, physicalKeyBlob_supported (he k), ?_, collects_unwritable he r maxEntries⟩
      have hdelete : countTrue b.delete (k :: keys) r = (.error e, r) := by
        unfold countTrue
        rw [List.foldlM_cons, bind_assoc]
        exact bind_error (b.delete_error he k r)
      unfold when
      rw [if_pos (List.cons_ne_nil _ _), bind_apply, discard_apply, hdelete]
      rfl

end Calls

/-- A leaf is made to forget what it can. -/
theorem settle_batchDelete (name what : String) (beforeCommit : Bool) (keys : List K) (r : MemoryRoot α VB) :
    settle name what .bestEffort beforeCommit () (Functor.discard (countTrue b.delete keys)) r =
      (.ok (), b.without r keys) := by
  rcases b.physicalKeyBlob_total with ⟨f, -, hf⟩ | ⟨e, he⟩
  · obtain ⟨count, hcount⟩ := batchDelete_without hf keys r
    refine catching_ok ?_
    rw [discard_apply, hcount]
    rfl
  · rw [without_unwritable he]
    cases keys with
    | nil => exact catching_ok rfl
    | cons k keys =>
      have hdelete : (Functor.discard (countTrue b.delete (k :: keys)) : M (MemoryRoot α VB) Unit) r =
          (.error e, r) := by
        have hrun : countTrue b.delete (k :: keys) r = (.error e, r) := by
          unfold countTrue
          rw [List.foldlM_cons, bind_assoc]
          exact bind_error (b.delete_error he k r)
        rw [discard_apply, hrun]
        rfl
      unfold settle
      rw [catching_error hdelete, if_pos ⟨rfl, by rw [physicalKeyBlob_supported (he k)]; exact Bool.false_ne_true⟩]
      rfl

/-- A leaf collects its own where it can. -/
theorem settle_gc {maxEntries : Int} (hmax : 1 ≤ maxEntries) (name what : String) (beforeCommit : Bool)
    (r : MemoryRoot α VB) :
    settle name what .bestEffort beforeCommit [] (b.gcExpiredKeys maxEntries) r =
      (.ok (b.collects r maxEntries), b.without r (b.collects r maxEntries)) := by
  by_cases h : b.Collectable r maxEntries
  · rw [h]
    exact catching_ok (gcExpiredKeys_run hmax h)
  · obtain ⟨e, hsupported, hrun, hnone⟩ := gcExpiredKeys_raises hmax h
    unfold settle
    rw [catching_error hrun, if_pos ⟨rfl, by rw [hsupported]; exact Bool.false_ne_true⟩, hnone]
    rfl

end MemoryKvBackend

/-! ## The node over the leaves -/

theorem zoom_catching {σ τ α : Type} (l : Lens σ τ) {m : M τ α} {h : Exn → M τ α} {h' : Exn → M σ α}
    (hh : ∀ e, l.zoom (h e) = h' e) : l.zoom (catching m h) = catching (l.zoom m) h' := by
  funext s
  rcases hm : m (l.get s) with ⟨e | a, t⟩
  · have hzoom : l.zoom m s = (.error e, l.set s t) := by rw [Lens.zoom_apply, hm]
    rw [catching_error hzoom, ← hh, Lens.zoom_apply, Lens.zoom_apply, catching_error hm, l.get_set, l.set_set]
  · have hzoom : l.zoom m s = (.ok a, l.set s t) := by rw [Lens.zoom_apply, hm]
    rw [catching_ok hzoom, Lens.zoom_apply, catching_ok hm]

theorem zoom_settle {σ τ α : Type} (l : Lens σ τ) (name what : String) (policy : SyncPolicy) (beforeCommit : Bool)
    (otherwise : α) (m : M τ α) :
    l.zoom (settle name what policy beforeCommit otherwise m) =
      settle name what policy beforeCommit otherwise (l.zoom m) := by
  refine zoom_catching l fun e => ?_
  repeat' split
  all_goals first | exact l.zoom_pure _ | exact l.zoom_raise _

/-- The state of the leaves. -/
abbrev Roots {n : Nat} (α VB : Fin n → Type) [∀ i, DecidableEq (α i)] : Type :=
  Media (fun i => MemoryRoot (α i) (VB i)) fun _ : Fin 0 => Unit

theorem discard_unit {σ : Type} (m : M σ Unit) : Functor.discard m = m := by
  funext s
  rw [discard_apply]
  rcases m s with ⟨_ | ⟨⟩, s'⟩ <;> rfl

section Node

variable {K V P : Type} [DecidableEq K] {n : Nat} {part α VB : Fin n → Type} [∀ i, DecidableEq (part i)]
  [∀ i, DecidableEq (α i)] (b : ∀ i, MemoryKvBackend K (part i) (α i) (VB i)) (declared : Fin n → Declared)
  (shape : ∀ i, Shape V P (part i)) (assemble : Option (Parts V P → Option V))

abbrev memoryTopology : Topology (Roots α VB) K V P :=
  nodeTopology (fun i => (b i).store.zoom (Media.child i)) declared shape [] none assemble

/-- The target a leaf is. -/
abbrev memoryTarget (i : Fin n) : AnyTarget (Roots α VB) K V P :=
  (shape i).target (declared i) ((b i).store.zoom (Media.child i))

/-- A leaf's own part of the node's state. -/
def leafAt (i : Fin n) : Lens (Node (Roots α VB) K V P) (MemoryRoot (α i) (VB i)) :=
  Node.mediaLens.comp (Media.child i)

omit [DecidableEq K] in
theorem leafAt_parts : Lens.Parts (leafAt : ∀ _ : Fin n, Lens (Node (Roots α VB) K V P) _) :=
  fun _ _ h N t => Media.child_apart h N.media t

/-- The leaves with these roles, phase by phase. -/
def leavesOf (roles : List Role) : List (Fin n) :=
  roles.flatMap fun r => ((List.finRange n).filter (fun i => (shape i).isWhole) ++
    (List.finRange n).filter fun i => !(shape i).isWhole).filter fun i => (declared i).role = r

omit [∀ i, DecidableEq (part i)] in
theorem placesOf_eq (roles : List Role) :
    placesOf declared shape none roles = (leavesOf declared shape roles).map some := by
  have hplaces : nodePlaces shape none = ((List.finRange n).filter (fun i => (shape i).isWhole) ++
      (List.finRange n).filter fun i => !(shape i).isWhole).map some := by
    unfold nodePlaces
    rw [List.map_append]
    show _ ++ [] ++ _ = _
    rw [List.append_nil]
  unfold placesOf leavesOf
  rw [List.map_flatMap, hplaces]
  congr 1
  funext r
  rw [List.filter_map]
  rfl

omit [∀ i, DecidableEq (part i)] in
theorem mem_leavesOf {roles : List Role} {i : Fin n} : i ∈ leavesOf declared shape roles ↔ (declared i).role ∈ roles := by
  have hplace : some i ∈ placesOf declared shape none roles ↔ (declared i).role ∈ roles :=
    (mem_placesOf declared shape none).trans (and_iff_right (mem_nodePlaces shape none i))
  rw [placesOf_eq, List.mem_map] at hplace
  rw [← hplace]
  exact ⟨fun h => ⟨i, h, rfl⟩, fun ⟨j, hj, heq⟩ => Option.some.inj heq ▸ hj⟩

omit [∀ i, DecidableEq (part i)] in
theorem nodup_leavesOf {roles : List Role} (h : roles.Nodup) : (leavesOf declared shape roles).Nodup := by
  have hplaces := nodup_placesOf declared shape none h
  rw [placesOf_eq] at hplaces
  exact hplaces.of_map some

theorem byRole_leaves (roles : List Role) : (memoryTopology b declared shape assemble).byRole roles =
    (leavesOf declared shape roles).map (memoryTarget b declared shape) := by
  rw [byRole_eq, placesOf_eq, List.map_map]
  rfl

theorem target_gc (d : Declared) {S T : Type} [DecidableEq T] (sh : Shape V P T) (s : KvStore S K T) :
    (sh.target d s).gc = s.gcExpiredKeys := by
  cases sh <;> rfl

theorem target_batchDelete (d : Declared) {S T : Type} [DecidableEq T] (sh : Shape V P T) (s : KvStore S K T) :
    (sh.target d s).batchDelete = s.batchDelete := by
  cases sh <;> rfl

theorem target_expires (d : Declared) {S T : Type} [DecidableEq T] (sh : Shape V P T) (s : KvStore S K T) :
    (sh.target d s).expires = true := by
  cases sh <;> rfl

theorem target_role (d : Declared) {S T : Type} [DecidableEq T] (sh : Shape V P T) (s : KvStore S K T) :
    (sh.target d s).role = d.role := by
  cases sh <;> rfl

/-- No leaf waits for a commit. -/
theorem memoryTopology_deferred : (memoryTopology b declared shape assemble).deferred = false := by
  unfold Topology.deferred
  rw [List.any_eq_false]
  intro t ht
  have hcommitting : (memoryTopology b declared shape assemble).committing =
      (memoryTopology b declared shape assemble).byRole [.component, .authority] := rfl
  rw [hcommitting, byRole_leaves] at ht
  obtain ⟨i, -, rfl⟩ := List.mem_map.mp ht
  rw [Shape.target_writesAreDeferred]
  exact Bool.false_ne_true

/-- A leaf that is committed to collects its own. -/
def gcStep (maxEntries : Int) (i : Fin n) : M (MemoryRoot (α i) (VB i)) (Role × List K) := do
  return ((declared i).role, ← (b i).gcExpiredKeys maxEntries)

theorem gcStep_eq (maxEntries : Int) (i : Fin n) :
    (do return ((memoryTarget b declared shape i).role,
      ← Node.onMedia ((memoryTarget b declared shape i).gc maxEntries)) : M (Node (Roots α VB) K V P) _) =
      (leafAt i).zoom (gcStep b declared maxEntries i) := by
  rw [target_role, target_gc]
  unfold gcStep
  rw [Lens.zoom_bind]
  refine bind_congr fun keys => ?_
  rw [Lens.zoom_pure]

theorem syncStep_eq (keys : List K) (i : Fin n) :
    (memoryTopology b declared shape assemble).syncOne (memoryTarget b declared shape i) "gc" (.batchDelete keys)
      (some .bestEffort) = (leafAt i).zoom (settle (memoryTarget b declared shape i).name "gc" .bestEffort false ()
        (Functor.discard (countTrue (b i).delete keys))) := by
  have hon : (SyncOp.batchDelete keys).on (memoryTarget b declared shape i) =
      (Media.child i).zoom (Functor.discard (countTrue (b i).delete keys)) := by
    show Functor.discard ((memoryTarget b declared shape i).batchDelete keys) = _
    rw [target_batchDelete]
    exact Lens.zoom_discard _ _
  unfold Topology.syncOne Topology.runSync
  rw [memoryTopology_deferred, Bool.false_and, if_neg Bool.false_ne_true, hon, ← zoom_settle]
  rfl

theorem gcOwn_eq (maxEntries : Int) (i : Fin n) :
    (Topology.gcOwn (memoryTarget b declared shape i) maxEntries : M (Node (Roots α VB) K V P) _) =
      (leafAt i).zoom (settle (memoryTarget b declared shape i).name "gc" .bestEffort false []
        ((b i).gcExpiredKeys maxEntries)) := by
  unfold Topology.gcOwn
  rw [target_gc]
  exact congrArg Node.onMedia (zoom_settle (Media.child i : Lens (Roots α VB) _) _ _ _ _ _ _).symm

/-! ## What a run comes to -/

/-- The keys the authority's collection comes to. -/
def authorityKeys (x : ∀ i, MemoryRoot (α i) (VB i)) (maxEntries : Int) : List K :=
  (leavesOf declared shape [.authority]).flatMap fun i => (b i).comesTo (x i) maxEntries

/-- A dependent that has forgotten what the authority collected. -/
def forgotten (x : ∀ i, MemoryRoot (α i) (VB i)) (maxEntries : Int) (i : Fin n) : MemoryRoot (α i) (VB i) :=
  (b i).without (x i) (authorityKeys b declared shape x maxEntries)

/-- What is collected, leaf by leaf. -/
def gathered (x : ∀ i, MemoryRoot (α i) (VB i)) (maxEntries : Int) : List K :=
  (leavesOf declared shape [.authority, .component]).flatMap (fun i => (b i).comesTo (x i) maxEntries) ++
    (leavesOf declared shape [.dependent]).flatMap fun i =>
      (b i).collects (forgotten b declared shape x maxEntries i) maxEntries

/-- A leaf afterwards. -/
def afterGc (x : ∀ i, MemoryRoot (α i) (VB i)) (maxEntries : Int) (i : Fin n) : MemoryRoot (α i) (VB i) :=
  match (declared i).role with
  | .authority | .component => (b i).without (x i) ((b i).comesTo (x i) maxEntries)
  | .dependent => (b i).without (forgotten b declared shape x maxEntries i)
      ((b i).collects (forgotten b declared shape x maxEntries i) maxEntries)
  | .fallback => x i

variable {b declared shape assemble} {maxEntries : Int}

theorem mapM_gc (ps : List (Fin n)) :
    ((ps.map (memoryTarget b declared shape)).mapM fun t => do
      return (t.role, ← Node.onMedia (t.gc maxEntries)) : M (Node (Roots α VB) K V P) (List (Role × List K))) =
      ps.mapM fun i => (leafAt i).zoom (gcStep b declared maxEntries i) := by
  rw [List.mapM_map]
  exact congrArg (fun f => ps.mapM f) (funext fun i => gcStep_eq b declared shape maxEntries i)

theorem forM_sync (keys : List K) (ps : List (Fin n)) :
    (forM (ps.map (memoryTarget b declared shape)) fun t =>
      (memoryTopology b declared shape assemble).syncOne t "gc" (.batchDelete keys) (some .bestEffort)) =
      Functor.discard (ps.mapM fun i => (leafAt i).zoom (settle (memoryTarget b declared shape i).name "gc"
        .bestEffort false () (Functor.discard (countTrue (b i).delete keys)))) := by
  rw [forM_map, ← forM_discard]
  refine forM_congr fun i _ => ?_
  rw [syncStep_eq, discard_unit]

theorem mapM_gcOwn (ps : List (Fin n)) :
    ((ps.map (memoryTarget b declared shape)).mapM fun t => Topology.gcOwn t maxEntries :
      M (Node (Roots α VB) K V P) (List (List K))) =
      ps.mapM fun i => (leafAt i).zoom (settle (memoryTarget b declared shape i).name "gc" .bestEffort false []
        ((b i).gcExpiredKeys maxEntries)) := by
  rw [List.mapM_map]
  exact congrArg (fun f => ps.mapM f) (funext fun i => gcOwn_eq b declared shape maxEntries i)

omit [DecidableEq K] [∀ i, DecidableEq (part i)] in
theorem gcStep_run (hmax : 1 ≤ maxEntries) {i : Fin n} {r : MemoryRoot (α i) (VB i)}
    (h : (b i).Collectable r maxEntries) : gcStep b declared maxEntries i r =
      (.ok ((declared i).role, (b i).comesTo r maxEntries), (b i).without r ((b i).comesTo r maxEntries)) :=
  bind_ok (MemoryKvBackend.gcExpiredKeys_run hmax h)

variable (b declared shape assemble) in
/-- The dependents forget what they can. -/
theorem toDependents_run (keys : List K) (N : Node (Roots α VB) K V P) :
    ∃ N', (when (keys ≠ []) ((memoryTopology b declared shape assemble).toDependents "gc" (.batchDelete keys)
        (some .bestEffort))) N = (.ok (), N') ∧
      ∀ i, N'.media.1 i = if (declared i).role = .dependent then (b i).without (N.media.1 i) keys
        else N.media.1 i := by
  unfold when
  by_cases hnil : keys = []
  · rw [if_neg (not_not.mpr hnil), hnil]
    exact ⟨N, rfl, fun i => by split <;> rfl⟩
  · rw [if_pos hnil]
    obtain ⟨N', hrun, hparts⟩ := leafAt_parts.mapM_ok (s := N) (fun _ => ())
      (nodup_leavesOf declared shape (List.nodup_singleton _)) fun i _ =>
        congrArg Prod.fst (MemoryKvBackend.settle_batchDelete (b := b i) (memoryTarget b declared shape i).name
          "gc" false keys _)
    refine ⟨N', ?_, fun i => ?_⟩
    · unfold Topology.toDependents Topology.dependents
      rw [byRole_leaves, forM_sync, discard_apply, hrun]
      rfl
    · refine (hparts i).trans (if_congr ?_ ?_ rfl)
      · rw [mem_leavesOf, List.mem_singleton]
      · exact congrArg Prod.snd (MemoryKvBackend.settle_batchDelete (b := b i) _ "gc" false keys _)

variable (b declared shape assemble) in
/-- The dependents collect their own where they can. -/
theorem gcOwn_run (hmax : 1 ≤ maxEntries) (N : Node (Roots α VB) K V P) :
    ∃ N', (((memoryTopology b declared shape assemble).dependents.filter fun t => t.expires).mapM fun t =>
        Topology.gcOwn t maxEntries : M (Node (Roots α VB) K V P) (List (List K))) N =
          (.ok ((leavesOf declared shape [.dependent]).map fun i => (b i).collects (N.media.1 i) maxEntries), N') ∧
      ∀ i, N'.media.1 i = if (declared i).role = .dependent
        then (b i).without (N.media.1 i) ((b i).collects (N.media.1 i) maxEntries) else N.media.1 i := by
  have hexpire : ((memoryTopology b declared shape assemble).dependents.filter fun t => t.expires) =
      (leavesOf declared shape [.dependent]).map (memoryTarget b declared shape) := by
    have hall : (memoryTopology b declared shape assemble).dependents =
        (leavesOf declared shape [.dependent]).map (memoryTarget b declared shape) :=
      byRole_leaves b declared shape assemble [.dependent]
    rw [hall]
    refine List.filter_eq_self.mpr fun t ht => ?_
    obtain ⟨i, -, rfl⟩ := List.mem_map.mp ht
    exact target_expires ..
  obtain ⟨N', hrun, hparts⟩ := leafAt_parts.mapM_ok (s := N) (fun i => (b i).collects (N.media.1 i) maxEntries)
    (nodup_leavesOf declared shape (List.nodup_singleton _)) fun i _ =>
      congrArg Prod.fst (MemoryKvBackend.settle_gc (b := b i) hmax (memoryTarget b declared shape i).name
        "gc" false (N.media.1 i))
  refine ⟨N', ?_, fun i => ?_⟩
  · rw [hexpire, mapM_gcOwn]
    exact hrun
  · refine (hparts i).trans (if_congr ?_ ?_ rfl)
    · rw [mem_leavesOf, List.mem_singleton]
    · exact congrArg Prod.snd (MemoryKvBackend.settle_gc (b := b i) hmax _ "gc" false (N.media.1 i))

omit [DecidableEq K] [∀ i, DecidableEq (part i)] in
theorem authority_of_own (x : ∀ i, MemoryRoot (α i) (VB i)) :
    ((((leavesOf declared shape [.authority, .component]).map fun i =>
      ((declared i).role, (b i).comesTo (x i) maxEntries)).filter fun p => p.1 = .authority).flatMap fun p => p.2) =
      authorityKeys b declared shape x maxEntries := by
  unfold authorityKeys
  rw [List.filter_map, List.flatMap_map]
  have hleaves : (leavesOf declared shape [.authority, .component]).filter
      (fun i => decide ((declared i).role = .authority)) = leavesOf declared shape [.authority] := by
    unfold leavesOf
    rw [List.flatMap_cons, List.flatMap_singleton, List.flatMap_singleton, List.filter_append,
      List.filter_filter, List.filter_filter]
    have hnone : ∀ l : List (Fin n), l.filter (fun i => decide ((declared i).role = .authority) &&
        decide ((declared i).role = .component)) = [] := fun l =>
      List.filter_eq_nil_iff.mpr fun i _ hboth => by
        rw [Bool.and_eq_true, decide_eq_true_eq, decide_eq_true_eq] at hboth
        rw [hboth.1] at hboth
        cases hboth.2
    rw [hnone, List.append_nil]
    exact List.filter_congr fun i _ => Bool.and_self _
  exact congrArg (List.flatMap fun i => (b i).comesTo (x i) maxEntries) hleaves

variable (assemble) in
/-- Where every leaf that is committed to may collect what it comes to, that is what is collected. -/
theorem gc_run (hmax : 1 ≤ maxEntries) (N : Node (Roots α VB) K V P)
    (h : ∀ i, (declared i).role ∈ [Role.authority, .component] → (b i).Collectable (N.media.1 i) maxEntries) :
    ∃ N', (memoryTopology b declared shape assemble).gc maxEntries .bestEffort N =
        (.ok (Dict.unique (gathered b declared shape N.media.1 maxEntries)), N') ∧
      N'.media.1 = afterGc b declared shape N.media.1 maxEntries := by
  obtain ⟨N₁, hown, hparts₁⟩ := leafAt_parts.mapM_ok (s := N)
    (fun i => ((declared i).role, (b i).comesTo (N.media.1 i) maxEntries))
    (nodup_leavesOf declared shape (by decide : [Role.authority, .component].Nodup)) fun i hi =>
      congrArg Prod.fst (gcStep_run hmax (h i ((mem_leavesOf declared shape).mp hi)))
  obtain ⟨N₂, hforget, hparts₂⟩ := toDependents_run b declared shape assemble
    (authorityKeys b declared shape N.media.1 maxEntries) N₁
  obtain ⟨N₃, hcopies, hparts₃⟩ := gcOwn_run b declared shape assemble hmax N₂
  have hcommitted : ∀ i, (declared i).role ∈ [Role.authority, .component] →
      N₁.media.1 i = (b i).without (N.media.1 i) ((b i).comesTo (N.media.1 i) maxEntries) := by
    intro i hi
    have hi' := hparts₁ i
    rw [if_pos ((mem_leavesOf declared shape).mpr hi)] at hi'
    exact hi'.trans (congrArg Prod.snd (gcStep_run hmax (h i hi)))
  have hleft : ∀ i, (declared i).role ∉ [Role.authority, .component] → N₁.media.1 i = N.media.1 i := by
    intro i hi
    have hi' := hparts₁ i
    rw [if_neg fun hmem => hi ((mem_leavesOf declared shape).mp hmem)] at hi'
    exact hi'
  have hforgotten : ∀ i, (declared i).role = .dependent →
      N₂.media.1 i = forgotten b declared shape N.media.1 maxEntries i := by
    intro i hi
    rw [hparts₂, if_pos hi, hleft i (by rw [hi]; decide)]
    rfl
  refine ⟨N₃, ?_, funext fun i => ?_⟩
  · have hcollected : (leavesOf declared shape [.dependent]).map (fun i => (b i).collects (N₂.media.1 i) maxEntries) =
        (leavesOf declared shape [.dependent]).map fun i =>
          (b i).collects (forgotten b declared shape N.media.1 maxEntries i) maxEntries :=
      List.map_congr_left fun i hi => by
        rw [hforgotten i (List.mem_singleton.mp ((mem_leavesOf declared shape).mp hi))]
    unfold Topology.gc
    rw [if_neg (by omega), byRole_leaves, mapM_gc, bind_ok hown]
    dsimp only
    rw [authority_of_own, bind_ok hforget, bind_ok hcopies, hcollected, List.flatMap_map]
    rfl
  · unfold afterGc
    rw [hparts₃, hparts₂]
    cases hrole : (declared i).role with
    | authority =>
      dsimp only
      rw [if_neg (by decide), if_neg (by decide), hcommitted i (by rw [hrole]; decide)]
    | component =>
      dsimp only
      rw [if_neg (by decide), if_neg (by decide), hcommitted i (by rw [hrole]; decide)]
    | dependent =>
      dsimp only
      rw [if_pos rfl, if_pos rfl, hleft i (by rw [hrole]; decide)]
      rfl
    | fallback =>
      dsimp only
      rw [if_neg (by decide), if_neg (by decide), hleft i (by rw [hrole]; decide)]

/-- A run that returns has had every leaf that is committed to collect what it comes to. -/
theorem collectable_of_gc (hmax : 1 ≤ maxEntries) {N N' : Node (Roots α VB) K V P} {keys : List K}
    (hrun : (memoryTopology b declared shape assemble).gc maxEntries .bestEffort N = (.ok keys, N')) :
    ∀ i, (declared i).role ∈ [Role.authority, .component] → (b i).Collectable (N.media.1 i) maxEntries := by
  unfold Topology.gc at hrun
  rw [if_neg (by omega), byRole_leaves, mapM_gc] at hrun
  obtain ⟨own, N₁, hown, -⟩ := bind_eq_ok hrun
  intro i hi
  obtain ⟨a, ha⟩ := leafAt_parts.ok_of_mapM (nodup_leavesOf declared shape
    (by decide : [Role.authority, .component].Nodup)) hown i ((mem_leavesOf declared shape).mpr hi)
  by_contra hnot
  obtain ⟨e, -, hraises, -⟩ := MemoryKvBackend.gcExpiredKeys_raises hmax hnot
  have hstep : gcStep b declared maxEntries i (N.media.1 i) = (.error e, N.media.1 i) := bind_error hraises
  have hfirst : (gcStep b declared maxEntries i (N.media.1 i)).1 = .ok a := ha
  rw [hstep] at hfirst
  cases hfirst

/-! ## The collection -/

variable (b declared) in
/-- What a collection is to come to: distinct keys, each of them expired where it may be collected,
    as many of the due entries gone from each leaf that is committed to as may be, none of those
    that are live, no copy of what the authority collected, and no fallback changed. -/
structure Collected (maxEntries : Int) (x x' : ∀ i, MemoryRoot (α i) (VB i)) (keys : List K) : Prop where
  distinct : keys.Nodup
  lapsed : ∀ k ∈ keys, ∃ i, (declared i).role ∈ [Role.authority, .component, .dependent] ∧ (b i).LapsedAt (x i) k
  budget : ∀ i, (declared i).role ∈ [Role.authority, .component] →
    (b i).collectedOf (x i) (x' i) = min maxEntries.toNat ((b i).duePlaces (x i)).length
  forgets : ∀ i j k, (declared i).role = .authority → (declared j).role = .dependent →
    (b i).entry (x i) k ≠ none → (b i).entry (x' i) k = none → (b j).entry (x' j) k = none
  live_kept : ∀ i, (declared i).role ∈ [Role.authority, .component] → ∀ p e, (b i).entryAt (x i) p = some e →
    MemoryKvBackend.expired e (x i).clock = false → (b i).entryAt (x' i) p = some e
  fallback_kept : ∀ i, (declared i).role = .fallback → x' i = x i

omit [DecidableEq K] [∀ i, DecidableEq (part i)] in
theorem afterGc_committed {x : ∀ i, MemoryRoot (α i) (VB i)} {i : Fin n}
    (h : (declared i).role ∈ [Role.authority, .component]) :
    afterGc b declared shape x maxEntries i = (b i).without (x i) ((b i).comesTo (x i) maxEntries) := by
  unfold afterGc
  rcases List.mem_pair.mp h with hrole | hrole <;> rw [hrole]

omit [DecidableEq K] [∀ i, DecidableEq (part i)] in
theorem mem_gathered {x : ∀ i, MemoryRoot (α i) (VB i)} {k : K} :
    k ∈ gathered b declared shape x maxEntries ↔
      (∃ i, (declared i).role ∈ [Role.authority, .component] ∧ k ∈ (b i).comesTo (x i) maxEntries) ∨
      ∃ i, (declared i).role = .dependent ∧
        k ∈ (b i).collects (forgotten b declared shape x maxEntries i) maxEntries := by
  unfold gathered
  rw [List.mem_append, List.mem_flatMap, List.mem_flatMap]
  refine or_congr (exists_congr fun i => and_congr_left fun _ => mem_leavesOf declared shape)
    (exists_congr fun i => and_congr_left fun _ => (mem_leavesOf declared shape).trans List.mem_singleton)

omit [∀ i, DecidableEq (part i)] in
/-- Where the walks come to own places, the leaves are as a collection leaves them. -/
theorem collected_of_own {x : ∀ i, MemoryRoot (α i) (VB i)}
    (hown : ∀ i, (declared i).role ∈ [Role.authority, .component] → (b i).ComesToOwn (x i) maxEntries)
    (hcopies : ∀ j, (declared j).role = .dependent →
      ∀ k ∈ (b j).collects (forgotten b declared shape x maxEntries j) maxEntries,
        ∃ i, (declared i).role ∈ [Role.authority, .component, .dependent] ∧ (b i).LapsedAt (x i) k) :
    Collected b declared maxEntries x (afterGc b declared shape x maxEntries)
      (Dict.unique (gathered b declared shape x maxEntries)) where
  distinct := Dict.nodup_unique _
  lapsed k hk := by
    rcases mem_gathered.mp (Dict.mem_unique.mp hk) with ⟨i, hi, hmem⟩ | ⟨j, hj, hmem⟩
    · refine ⟨i, ?_, (hown i hi).lapsed hmem⟩
      rcases List.mem_pair.mp hi with hrole | hrole <;> rw [hrole] <;> decide
    · exact hcopies j hj k hmem
  budget i hi := by
    rw [afterGc_committed hi]
    exact (MemoryKvBackend.collectedOf_iff (hown i hi).collectable).mpr (hown i hi)
  forgets i j k hi hj hsome hnone := by
    rw [afterGc_committed (by rw [hi]; decide)] at hnone
    have hkey : k ∈ authorityKeys b declared shape x maxEntries := List.mem_flatMap.mpr
      ⟨i, (mem_leavesOf declared shape).mpr (by rw [hi]; decide), MemoryKvBackend.mem_of_entry_without hsome hnone⟩
    unfold afterGc
    rw [hj]
    exact MemoryKvBackend.entry_without (.inr (MemoryKvBackend.entry_without (.inl hkey)))
  live_kept i hi p e he hlive := by
    rw [afterGc_committed hi]
    exact (hown i hi).keeps_live he hlive
  fallback_kept i hi := by
    unfold afterGc
    rw [hi]

variable (b declared shape assemble) in
/-- `gc` collects exactly where each leaf that is committed to comes to different keys whose own
    places are due, and no dependent comes to a key that is expired nowhere. -/
theorem gc_collects_iff (hmax : 1 ≤ maxEntries) (N : Node (Roots α VB) K V P) :
    (∃ keys N', (memoryTopology b declared shape assemble).gc maxEntries .bestEffort N = (.ok keys, N') ∧
      Collected b declared maxEntries N.media.1 N'.media.1 keys) ↔
    (∀ i, (declared i).role ∈ [Role.authority, .component] → (b i).ComesToOwn (N.media.1 i) maxEntries) ∧
    ∀ j, (declared j).role = .dependent →
      ∀ k ∈ (b j).collects (forgotten b declared shape N.media.1 maxEntries j) maxEntries,
        ∃ i, (declared i).role ∈ [Role.authority, .component, .dependent] ∧ (b i).LapsedAt (N.media.1 i) k := by
  constructor
  · rintro ⟨keys, N', hrun, hcollected⟩
    have hcollectable := collectable_of_gc hmax hrun
    obtain ⟨N₁, hrun₁, hmedia⟩ := gc_run assemble hmax N hcollectable
    rw [hrun] at hrun₁
    obtain ⟨hkeys, hN⟩ := Prod.mk.inj hrun₁
    rw [hN, hmedia, Except.ok.inj hkeys] at hcollected
    refine ⟨fun i hi => ?_, fun j hj k hk => ?_⟩
    · have hbudget := hcollected.budget i hi
      rw [afterGc_committed hi] at hbudget
      exact (MemoryKvBackend.collectedOf_iff (hcollectable i hi)).mp hbudget
    · exact hcollected.lapsed k (Dict.mem_unique.mpr (mem_gathered.mpr (.inr ⟨j, hj, hk⟩)))
  · rintro ⟨hown, hcopies⟩
    obtain ⟨N', hrun, hmedia⟩ := gc_run assemble hmax N fun i hi => (hown i hi).collectable
    refine ⟨_, N', hrun, ?_⟩
    rw [hmedia]
    exact collected_of_own hown hcopies

end Node

/-! ## Two leaves, and one -/

/-- A primary and a secondary with an entry each that has expired. -/
def agedPair : Node (Roots (fun _ : Fin 2 => Char) fun _ => String) (List Char) String Empty :=
  ⟨(fun i => (MemoryRoot.empty 5).put "items:v1" (if i = 0 then ['p'] else ['s']) "v" (some 3) 0, Fin.elim0), []⟩

theorem gc_collects_iff_agedPair :
    ∃ keys N', (memoryTopology (fun _ : Fin 2 => MemoryKvBackend.plain String) (Nesting.mirrorDeclared .required)
        (fun _ => .whole) none : Topology _ (List Char) String Empty).gc 3 .bestEffort agedPair = (.ok keys, N') ∧
      Collected (fun _ : Fin 2 => MemoryKvBackend.plain String) (Nesting.mirrorDeclared .required) 3 agedPair.media.1
        N'.media.1 keys := by
  have hprimary : (MemoryKvBackend.plain String).comesTo (agedPair.media.1 0) 3 = [['p']] := rfl
  have hlapsed : (MemoryKvBackend.plain String).LapsedAt (agedPair.media.1 1) ['s'] := ⟨_, rfl, rfl⟩
  refine (gc_collects_iff (fun _ : Fin 2 => MemoryKvBackend.plain String) (Nesting.mirrorDeclared .required) (fun _ => .whole)
    none (by decide) agedPair).mpr ⟨fun i hi => ?_, fun j hj k hk => ?_⟩
  · match i with
    | 0 =>
      unfold MemoryKvBackend.ComesToOwn
      rw [hprimary]
      refine ⟨List.nodup_singleton _, fun k hk => ⟨['p'], ?_, by decide⟩⟩
      rw [List.mem_singleton.mp hk]
      rfl
    | 1 => exact absurd hi (by decide)
  · match j with
    | 0 => cases hj
    | 1 =>
      have hsecondary : (MemoryKvBackend.plain String).collects (forgotten (fun _ : Fin 2 =>
          MemoryKvBackend.plain String) (Nesting.mirrorDeclared .required) (fun _ => (.whole : Shape String Empty String))
            agedPair.media.1 3 1) 3 = [['s']] := rfl
      rw [hsecondary] at hk
      rw [List.mem_singleton.mp hk]
      exact ⟨1, by decide, hlapsed⟩

/-- A note of `alice` that has expired, and a live one of `al` under the key the first reads as there. -/
def strayNote : Node (Roots (fun _ : Fin 1 => Char) fun _ => String) (List Char) String Empty :=
  ⟨(fun _ => ((MemoryRoot.empty 5).put "items:v1" "user:alice:k".toList "A" (some 3) 0).put "items:v1"
    "user:al:ice%3Ak".toList "B" none 0, Fin.elim0), []⟩

/-- The live note of `al` is removed. -/
theorem gc_removes_live :
    ¬ ∃ keys N', (memoryTopology (fun _ : Fin 1 => MemoryKvBackend.ofAl) Nesting.indexedDeclared (fun _ => .whole) none :
        Topology _ (List Char) String Empty).gc 1 .bestEffort strayNote = (.ok keys, N') ∧
      Collected (fun _ : Fin 1 => MemoryKvBackend.ofAl) Nesting.indexedDeclared 1 strayNote.media.1 N'.media.1 keys := by
  rintro ⟨keys, N', hrun, hcollected⟩
  have hkept := hcollected.live_kept 0 (by decide) "user:al:ice%3Ak".toList _ rfl rfl
  have hgone : MemoryKvBackend.ofAl.entryAt (((memoryTopology (fun _ : Fin 1 => MemoryKvBackend.ofAl) Nesting.indexedDeclared
      (fun _ => .whole) none : Topology _ (List Char) String Empty).gc 1 .bestEffort strayNote).2.media.1 0)
        "user:al:ice%3Ak".toList = none := rfl
  rw [hrun] at hgone
  rw [hgone] at hkept
  cases hkept

end Kvtsjl
