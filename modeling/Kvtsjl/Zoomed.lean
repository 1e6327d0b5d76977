import Kvtsjl.Topology

/-
  A target over a part of a larger state.
  A target whose store, or whose indexes, act on a part of the state acts on that part:
  each of its operations is that of the target over the part itself.
-/

namespace Kvtsjl

open Assoc (Dict)
open Effects Prog

section Zoomed

variable {R S K V T P Q : Type}

theorem zoom_listMap_pages (l : Lens R S) (f : MissingPage S K T → MissingPage S K P)
    (g : MissingPage R K T → MissingPage R K P)
    (h : ∀ p, g (MissingPage.zoom l p) = MissingPage.zoom l (f p)) (m : M S (List (MissingPage S K T))) :
    List.map g <$> l.zoom (List.map (MissingPage.zoom l) <$> m) =
      l.zoom (List.map (MissingPage.zoom l) <$> (List.map f <$> m)) := by
  rw [Lens.zoom_map, Lens.zoom_map, Lens.zoom_map, Functor.map_map, Functor.map_map]
  congr 1
  funext ps
  rw [List.map_map, List.map_map]
  exact List.map_congr_left fun p _ => h p

variable [DecidableEq K] [DecidableEq T]

omit [DecidableEq T] in
theorem mapPage_zoom (l : Lens R S) (up : T → P) (p : MissingPage S K T) :
    Target.mapPage up (MissingPage.zoom l p) = MissingPage.zoom l (Target.mapPage up p) := by
  unfold Target.mapPage MissingPage.zoom
  simp only [Lens.zoom_map]

/-- A target over a store that acts on a part of the state acts on that part. -/
theorem storeTarget_zoom (l : Lens R S) (d : Declared) (s : KvStore S K T)
    (slot : V → Option T) (up : T → P) :
    (storeTarget d (s.zoom l) slot up : Target R K V P) = (storeTarget d s slot up).zoom l := by
  unfold storeTarget keyMapTarget Target.zoom
  simp only
  congr 1
  · funext key value options
    cases slot value with
    | none => exact Lens.zoom_discard l _
    | some item => rfl
  · funext ks
    exact (Lens.zoom_map l _ _).symm
  · funext writes options
    split
    · exact (Lens.zoom_raise l _).symm
    · rfl
  · funext items options
    rw [Lens.zoom_bind, Lens.zoom_when]
    refine bind_congr fun _ => ?_
    rw [Lens.zoom_when, ← Lens.zoom_discard]
    rfl
  · funext k
    exact (Lens.zoom_map l _ _).symm
  · funext ks
    exact (Lens.zoom_map l _ _).symm
  · funext n
    exact (Lens.zoom_map l _ _).symm
  · funext query
    exact (Lens.zoom_map l _ _).symm
  · funext n
    exact zoom_listMap_pages l _ _ (mapPage_zoom l up) _

theorem upcast_zoom (l : Lens R S) (f : P → Q) (t : Target S K V P) :
    (t.zoom l).upcast f = (t.upcast f).zoom l := by
  unfold Target.upcast Target.zoom
  simp only [Lens.zoom_map]
  congr 1
  funext n
  simpa only [Lens.zoom_map] using zoom_listMap_pages l _ _ (mapPage_zoom l f) (t.missingPages n)

omit [DecidableEq K] in
theorem on_zoom_target (l : Lens R S) (t : Target S K V P) (op : SyncOp K V) :
    op.on (t.zoom l) = l.zoom (op.on t) := by
  cases op with
  | write key value options => rfl
  | batchWrite items options => rfl
  | delete key => exact Lens.zoom_discard l _
  | unset key => exact Lens.zoom_discard l _
  | batchDelete keys => exact Lens.zoom_discard l _
  | batchUnset keys => exact Lens.zoom_discard l _

omit [DecidableEq K] in
theorem eachFailure_zoom (l : Lens R S) (is : List (Index S K V)) {op : Index S K V → M S Unit}
    {op' : Index R K V → M R Unit} (h : ∀ i, op' (i.zoom l) = l.zoom (op i)) :
    eachFailure (is.map (Index.zoom l)) op' = l.zoom (eachFailure is op) := by
  unfold eachFailure
  rw [List.filter_map, List.foldlM_map, Lens.zoom_foldlM]
  congr 1
  funext failures i
  rw [h, Lens.zoom_bind, Lens.zoom_attempt]
  refine bind_congr fun r => ?_
  cases r <;> exact (Lens.zoom_pure l _).symm

omit [DecidableEq K] in
theorem each_zoom (l : Lens R S) (is : List (Index S K V)) {op : Index S K V → M S Unit}
    {op' : Index R K V → M R Unit} (h : ∀ i, op' (i.zoom l) = l.zoom (op i)) (what : String) :
    each (is.map (Index.zoom l)) op' what = l.zoom (each is op what) := by
  unfold each
  rw [eachFailure_zoom l is h, Lens.zoom_bind]
  refine bind_congr fun failures => ?_
  split
  · exact (Lens.zoom_pure l _).symm
  · exact (Lens.zoom_raise l _).symm

omit [DecidableEq K] in
/-- Deletions through the indexes, and the answer of the target after them. -/
theorem each_answer_zoom {α : Type} (l : Lens R S) (is : List (Index S K V))
    {op : Index S K V → M S Unit} {op' : Index R K V → M R Unit}
    (h : ∀ i, op' (i.zoom l) = l.zoom (op i)) (what : String) (answer : α) :
    (do each (is.map (Index.zoom l)) op' what; return answer : M R α) =
      l.zoom (do each is op what; return answer) := by
  rw [each_zoom l is h, Lens.zoom_bind]
  exact bind_congr fun _ => (Lens.zoom_pure l _).symm

theorem unreadable_zoom {α β : Type} (l : Lens R S) (xs : List α) (e : Exn) (answer : β) :
    (do forM xs fun _ => raise e; return answer : M R β) =
      l.zoom (do forM xs fun _ => raise e; return answer) := by
  rw [Lens.zoom_bind, Lens.zoom_forM]
  simp only [Lens.zoom_raise, Lens.zoom_pure]

omit [DecidableEq K] in
theorem countTrue_zoom (l : Lens R S) {op : K → M S Bool} {op' : K → M R Bool}
    (h : ∀ k, op' k = l.zoom (op k)) (keys : List K) :
    countTrue op' keys = l.zoom (countTrue op keys) := by
  unfold countTrue
  rw [Lens.zoom_foldlM]
  congr 1
  funext n key
  rw [h, Lens.zoom_bind]
  refine bind_congr fun b => ?_
  cases b <;> exact (Lens.zoom_pure l _).symm

omit [DecidableEq K] in
/-- The target over indexes that act on a part of the state acts on that part. -/
theorem indexesTarget_zoom (l : Lens R S) (is : List (Index S K V))
    (policy : SyncPolicy) : (indexesTarget (is.map (Index.zoom l)) policy : Target R K V P) =
      (indexesTarget is policy).zoom l := by
  have hdelete : ∀ (key : K) (i : Index S K V), (Functor.discard ((i.zoom l).delete key) : M R Unit) =
      l.zoom (Functor.discard (i.delete key)) := fun key i => Lens.zoom_discard l _
  have hbatch : ∀ (keys : List K) (i : Index S K V),
      (Functor.discard ((i.zoom l).batchDelete keys) : M R Unit) =
        l.zoom (Functor.discard (i.batchDelete keys)) := fun keys i => Lens.zoom_discard l _
  unfold indexesTarget Target.zoom
  simp only [Lens.zoom_raise, ← unreadable_zoom]
  congr 1
  · funext key value options
    exact each_zoom l is (fun _ => rfl) _
  · funext items options
    exact each_zoom l is (fun _ => rfl) _
  · funext key
    exact each_answer_zoom l is (hdelete key) _ _
  · funext keys
    exact each_answer_zoom l is (hbatch keys) _ _
  · funext key
    exact each_answer_zoom l is (hdelete key) _ _
  · funext keys
    exact countTrue_zoom l (fun key => each_answer_zoom l is (hdelete key) _ _) keys
  · funext n
    rw [map_pure, Lens.zoom_pure]
    rfl
  · funext n
    exact (Lens.zoom_pure l _).symm

end Zoomed
end Kvtsjl
