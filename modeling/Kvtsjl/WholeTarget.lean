import Kvtsjl.Target

/-
  A target that holds the whole record.
  It asks the map behind it for exactly what it is asked for, but for the records seen:
  a conditional write carries the version alone.
-/

namespace Kvtsjl

open Assoc (Dict)
open Effects Prog

section Whole

variable {S K V P : Type}

/-- The batch with its versions, and without the records seen. -/
def unseen (writes : Dict K (ConditionalWrite V)) : Dict K (ConditionalWrite V) :=
  writes.map fun _ w => { w with seen := ⟨none, w.seen.version⟩ }

/-- A target that holds the whole record passes the batch on, unseen. -/
theorem slotted_some (writes : Dict K (ConditionalWrite V)) :
    (writes.collect fun _ w => slottedWrite some w) = unseen writes := by
  unfold unseen Dict.map
  refine congrFun (congrArg Dict.collect ?_) writes
  funext _ w
  unfold slottedWrite
  cases h : w.change <;> simp [← h]

theorem isSome_slottedWrite (w : ConditionalWrite V) : (slottedWrite some w).isSome = true := by
  unfold slottedWrite
  cases w.change <;> rfl

variable [DecidableEq K]

theorem get?_unseen (writes : Dict K (ConditionalWrite V)) (k : K) :
    (unseen writes).get? k =
      (writes.get? k).map fun w => { w with seen := ⟨none, w.seen.version⟩ } :=
  Dict.get?_map _ _ _

theorem toSet_some (items : Dict K V) : toSet some items = items :=
  Dict.map_eq_self (f := fun _ v => v) fun _ _ _ => rfl

omit [DecidableEq K] in
theorem toClear_some (items : Dict K V) : toClear some items = [] := by
  have hnil : (items.filter fun _ v => (some v).isNone).entries = [] :=
    Dict.collect_eq_nil (fun _ _ => rfl) items
  unfold toClear Dict.keys
  rw [hnil, List.map_nil]

variable [DecidableEq V] (d : Declared) (m : KeyMap S K V) (up : V → P) (node : List (SyncNode S))

theorem whole_batchWrite (items : Dict K V) (o : WriteOptions) :
    (keyMapTarget d m some up node).batchWrite items o =
      when (items.entries ≠ []) (m.batchSet items o) := by
  show (when _ _ >>= fun _ => when _ _) = _
  rw [toSet_some, toClear_some]
  exact bind_pure _

omit [DecidableEq K] in
theorem whole_conditional (writes : Dict K (ConditionalWrite V)) (o : WriteOptions) :
    (keyMapTarget d m some up node).batchWriteIfUnchanged writes o =
      m.batchWriteIfUnchanged (unseen writes) o.ttl := by
  have hnone : (writes.collect fun _ w =>
      if (slottedWrite some w).isNone then some () else none).entries = [] := by
    refine Dict.collect_eq_nil (fun _ w => if_neg ?_) writes
    rw [Option.isNone_iff_eq_none]
    exact Option.isSome_iff_ne_none.mp (isSome_slottedWrite w)
  show (if _ then _ else _) = _
  rw [if_neg (not_not.mpr hnone), slotted_some]

end Whole

end Kvtsjl
