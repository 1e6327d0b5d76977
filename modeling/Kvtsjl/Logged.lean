import Kvtsjl.StoreTopology
import Kvtsjl.Lib.Trace

/-
  Targets that log what they are asked to do.
  `Topology.tagged` runs the same code over the same targets, each of which also writes
  down every write and removal it was asked for, under its place among the targets, and
  the keys for which it did it.
-/

namespace Kvtsjl

open Assoc (Dict)
open Effects Prog

/-- One write or removal a target was asked for. -/
structure Event (K : Type) where
  place : Nat
  role : Role
  put : List K
  removed : List K
  /-- The keys it was done for: all of them, or none where it raised. A conditional
      write does what its answer says. -/
  done : List K

abbrev Logged (S K : Type) : Type := S × List (Event K)

section Record

variable {S K α : Type}

/-- Run `m` and log it. -/
def record (m : M S α) (event : Except Exn α → Event K) : M (Logged S K) α := fun s =>
  ((m s.1).1, ((m s.1).2, s.2 ++ [event (m s.1).1]))

/-- The event of an operation that is done for all its keys or raises. -/
def wholeEvent (place : Nat) (role : Role) (put removed : List K) : Except Exn α → Event K
  | .ok _ => ⟨place, role, put, removed, put ++ removed⟩
  | .error _ => ⟨place, role, put, removed, []⟩

/-- The event of a conditional batch. -/
def conditionalEvent [DecidableEq K] {V : Type} (place : Nat) (role : Role)
    (writes : Dict K (ConditionalWrite V)) : Except Exn (Finset K) → Event K
  | .ok written => ⟨place, role, (writes.filter fun _ w => w.change.value?.isSome).keys,
      (writes.filter fun _ w => w.change.value?.isNone).keys,
      writes.keys.filter fun k => k ∈ written⟩
  | .error _ => ⟨place, role, (writes.filter fun _ w => w.change.value?.isSome).keys,
      (writes.filter fun _ w => w.change.value?.isNone).keys, []⟩

end Record

/-- The target, logging under `place`. -/
def Target.logged {S K V P : Type} [DecidableEq K] (place : Nat) (t : Target S K V P) :
    Target (Logged S K) K V P :=
  { t.zoom Lens.first with
    write := fun k v o => record (t.write k v o) (wholeEvent place t.role [k] [])
    batchWrite := fun items o =>
      record (t.batchWrite items o) (wholeEvent place t.role items.keys [])
    batchWriteIfUnchanged := fun ws o =>
      record (t.batchWriteIfUnchanged ws o) (conditionalEvent place t.role ws)
    delete := fun k => record (t.delete k) (wholeEvent place t.role [] [k])
    batchDelete := fun ks => record (t.batchDelete ks) (wholeEvent place t.role [] ks)
    unset := fun k => record (t.unset k) (wholeEvent place t.role [] [k])
    batchUnset := fun ks => record (t.batchUnset ks) (wholeEvent place t.role [] ks) }

/-- The topology over the same targets, each logging under its place. -/
def Topology.tagged {S K V P : Type} [DecidableEq K] (T : Topology S K V P) :
    Topology (Logged S K) K V P where
  targets := T.targets.mapIdx fun i t => t.logged i
  parts := T.parts.mapIdx fun i t => t.logged (T.targets.length + i)
  assemble := T.assemble

/-! ## What a logging target writes down -/

/-- The program logs one event, made from its exit. -/
def Records {S K α : Type} (m : M (Logged S K) α) (event : Except Exn α → Event K) : Prop :=
  ∀ s, (m s).2.2 = s.2 ++ [event (m s).1]

theorem records_record {S K α : Type} (m : M S α) (event : Except Exn α → Event K) :
    Records (record m event) event := fun _ => rfl

/-- Nothing is written down. -/
def SameLog {S K : Type} (s s' : Logged S K) : Prop := s'.2 = s.2

instance {S K : Type} : Std.Refl (@SameLog S K) := ⟨fun _ => rfl⟩

instance {S K : Type} : IsTrans (Logged S K) SameLog := ⟨fun _ _ _ h h' => Eq.trans h' h⟩

theorem zoom_sameLog {S K α : Type} (m : M S α) :
    Moves SameLog (Lens.first.zoom m : M (Logged S K) α) := fun _ => rfl

/-- The target logs its writes and removals under `place`, and nothing else. -/
structure LogsAt {S K V P : Type} [DecidableEq K] (place : Nat)
    (t : Target (Logged S K) K V P) : Prop where
  write : ∀ k v o, Records (t.write k v o) (wholeEvent place t.role [k] [])
  batchWrite : ∀ items o, Records (t.batchWrite items o) (wholeEvent place t.role items.keys [])
  conditional : ∀ ws o, Records (t.batchWriteIfUnchanged ws o) (conditionalEvent place t.role ws)
  delete : ∀ k, Records (t.delete k) (wholeEvent place t.role [] [k])
  batchDelete : ∀ ks, Records (t.batchDelete ks) (wholeEvent place t.role [] ks)
  unset : ∀ k, Records (t.unset k) (wholeEvent place t.role [] [k])
  batchUnset : ∀ ks, Records (t.batchUnset ks) (wholeEvent place t.role [] ks)
  batchExists : ∀ ks, Moves SameLog (t.batchExists ks)
  children : ∀ c ∈ t.children, Moves SameLog c.flushIndexSyncs

section LogsAt

variable {S K V P Q : Type} [DecidableEq K]

theorem logsAt_logged (place : Nat) (t : Target S K V P) : LogsAt place (t.logged place) where
  write _ _ _ := records_record _ _
  batchWrite _ _ := records_record _ _
  conditional _ _ := records_record _ _
  delete _ := records_record _ _
  batchDelete _ := records_record _ _
  unset _ := records_record _ _
  batchUnset _ := records_record _ _
  batchExists _ := zoom_sameLog _
  children c hc := by
    obtain ⟨d, -, rfl⟩ := List.mem_map.mp hc
    exact zoom_sameLog _

theorem LogsAt.upcast {place : Nat} {t : Target (Logged S K) K V P} (h : LogsAt place t)
    (f : P → Q) : LogsAt place (t.upcast f) :=
  ⟨h.write, h.batchWrite, h.conditional, h.delete, h.batchDelete, h.unset, h.batchUnset,
    h.batchExists, h.children⟩

/-- A target of the tagged topology stands for one of the topology, at its place. -/
structure Stands (p : AnyTarget S K V P × Nat) (t : AnyTarget (Logged S K) K V P) : Prop where
  logs : LogsAt p.2 t
  role : t.role = p.1.role
  holdsSame : t.holdsSame = p.1.holdsSame
  conditional : ∀ ws o, t.batchWriteIfUnchanged ws o =
    record (p.1.batchWriteIfUnchanged ws o) (conditionalEvent p.2 p.1.role ws)

/-- The tagged targets stand for the topology's, place by place. -/
theorem tagged_all (T : Topology S K V P) :
    List.Forall₂ Stands T.all.zipIdx T.tagged.all := by
  have hstep : ∀ {R : Type} (ts : List (Target S K V R)) (f : R → V ⊕ P) (n : Nat),
      List.Forall₂ Stands ((ts.map (Target.upcast f)).zipIdx n)
        ((ts.mapIdx fun i t => t.logged (n + i)).map (Target.upcast f)) := by
    intro R ts f
    induction ts with
    | nil => intro n; exact .nil
    | cons t ts ih =>
      intro n
      rw [List.map_cons, List.zipIdx_cons, List.mapIdx_cons, List.map_cons]
      refine .cons ⟨(logsAt_logged _ t).upcast f, rfl, rfl, fun _ _ => rfl⟩ ?_
      have h := ih (n + 1)
      simpa [Nat.add_assoc, Nat.add_comm 1] using h
  unfold Topology.all
  rw [List.zipIdx_append]
  refine List.rel_append ?_ ?_
  · simpa [Topology.tagged] using hstep T.targets Sum.inl 0
  · simpa [Topology.tagged] using hstep T.parts Sum.inr T.targets.length

theorem tagged_logs {T : Topology S K V P} {t : AnyTarget (Logged S K) K V P}
    (ht : t ∈ T.tagged.all) : ∃ p ∈ T.all.zipIdx, Stands p t := by
  have h := List.forall₂_iff_get.mp (tagged_all T)
  obtain ⟨i, hi⟩ := List.get_of_mem ht
  refine ⟨T.all.zipIdx.get ⟨i, by rw [h.1]; exact i.2⟩, List.get_mem _ _, ?_⟩
  rw [← hi]
  exact h.2 i _ i.2

/-- A place is that of one target. -/
theorem tagged_place {T : Topology S K V P} {t : AnyTarget (Logged S K) K V P}
    (ht : t ∈ T.tagged.all) : ∃ i, LogsAt i t ∧ T.tagged.all[i]? = some t := by
  have h := List.forall₂_iff_get.mp (tagged_all T)
  obtain ⟨i, hi⟩ := List.get_of_mem ht
  have hs := h.2 i (by rw [h.1]; exact i.2) i.2
  refine ⟨i, ?_, ?_⟩
  · have hlogs := hs.logs
    rw [List.get_eq_getElem, List.getElem_zipIdx, Nat.zero_add] at hlogs
    rw [← hi]
    exact hlogs
  · rw [← hi, List.get_eq_getElem]
    exact List.getElem?_eq_getElem i.2

theorem tagged_roles (T : Topology S K V P) :
    T.tagged.all.map (fun t => t.role) = T.all.map fun t => t.role := by
  have h : ∀ {ps : List (AnyTarget S K V P × Nat)} {ts : List (AnyTarget (Logged S K) K V P)},
      List.Forall₂ Stands ps ts → ts.map (fun t => t.role) = ps.map fun p => p.1.role := by
    intro ps ts hs
    induction hs with
    | nil => rfl
    | cons h _ ih => rw [List.map_cons, List.map_cons, ih, h.role]
  rw [h (tagged_all T)]
  conv_rhs => rw [← List.zipIdx_map_fst 0 T.all]
  rw [List.map_map]
  rfl

theorem tagged_of_mem {T : Topology S K V P} {p : AnyTarget S K V P × Nat}
    (hp : p ∈ T.all.zipIdx) : ∃ t ∈ T.tagged.all, Stands p t := by
  have h := List.forall₂_iff_get.mp (tagged_all T)
  obtain ⟨i, hi⟩ := List.get_of_mem hp
  refine ⟨T.tagged.all.get ⟨i, by rw [← h.1]; exact i.2⟩, List.get_mem _ _, ?_⟩
  rw [← hi]
  exact h.2 i i.2 _

end LogsAt

end Kvtsjl
