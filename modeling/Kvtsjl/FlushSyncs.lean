import Kvtsjl.Waiting

/-
  What a flush of a tree runs, and what it reports.
  `Composition.ran` lists the operations a flush comes to: a node's own queue in its order,
  and then what lies beneath it. Every one runs, even past failures. The failures of all
  nodes are merged under labels that are unique in one queue only, so of two failures with
  one label the report keeps the later.
-/

namespace Kvtsjl

open Assoc (Dict)
open Effects Prog

/-! ## Merged failures -/

/-- The failures are those of the entries, one for each label: the last with it. -/
structure Merges (entries failures : List (String × Exn)) : Prop where
  lookup : ∀ l, Assoc.lookup l failures = Assoc.lookup l entries.reverse
  nodup : (failures.map Prod.fst).Nodup

theorem lookup_append {K α : Type} [DecidableEq K] (k : K) (xs ys : List (K × α)) :
    Assoc.lookup k (xs ++ ys) = (Assoc.lookup k xs).or (Assoc.lookup k ys) := by
  induction xs with
  | nil => rfl
  | cons e xs ih =>
    obtain ⟨j, v⟩ := e
    rw [List.cons_append, Assoc.lookup, Assoc.lookup]
    split
    · rfl
    · exact ih

theorem lookup_isSome {K α : Type} [DecidableEq K] {k : K} {xs : List (K × α)}
    (h : k ∈ xs.map Prod.fst) : ∃ v, Assoc.lookup k xs = some v := by
  cases hl : Assoc.lookup k xs with
  | none => exact absurd h (Assoc.lookup_eq_none.mp hl)
  | some v => exact ⟨v, rfl⟩

theorem nodup_insert {l : String} {e : Exn} {failures : List (String × Exn)}
    (h : (failures.map Prod.fst).Nodup) : ((Assoc.insert l e failures).map Prod.fst).Nodup := by
  rw [Assoc.map_fst_insert]
  split
  · exact h
  · next hl =>
    refine List.nodup_append.mpr ⟨h, List.nodup_singleton l, fun x hx y hy hxy => hl ?_⟩
    rw [List.mem_singleton.mp hy] at hxy
    rw [← hxy]
    exact hx

/-- Failures in their order, one after the other. -/
theorem Merges.update {entries failures : List (String × Exn)} (h : Merges entries failures)
    (more : List (String × Exn)) : Merges (entries ++ more) (updateFailures failures more) := by
  induction more generalizing entries failures with
  | nil =>
    rw [List.append_nil]
    exact h
  | cons p more ih =>
    have hone : Merges (entries ++ [p]) (Assoc.insert p.1 p.2 failures) := by
      refine ⟨fun l => ?_, nodup_insert h.nodup⟩
      rw [Assoc.lookup_insert, List.reverse_append, List.reverse_singleton, List.singleton_append,
        Assoc.lookup, h.lookup l]
      by_cases hl : l = p.1
      · rw [if_pos hl, if_pos hl.symm]
      · rw [if_neg hl, if_neg (Ne.symm hl)]
    have hrest := ih hone
    rw [List.append_assoc] at hrest
    exact hrest

theorem Merges.nil : Merges [] [] := ⟨fun _ => rfl, List.nodup_nil⟩

/-- Merged failures, merged once more. -/
theorem Merges.append {entries failures more failures' : List (String × Exn)}
    (h : Merges entries failures) (h' : Merges more failures') :
    Merges (entries ++ more) (updateFailures failures failures') := by
  have hall := h.update failures'
  refine ⟨fun l => ?_, hall.nodup⟩
  have hunique : Assoc.lookup l failures'.reverse = Assoc.lookup l failures' := by
    have hn : (failures'.reverse.map Prod.fst).Nodup := by
      rw [List.map_reverse]
      exact List.nodup_reverse.mpr h'.nodup
    cases hl : Assoc.lookup l failures' with
    | none =>
      refine Assoc.lookup_eq_none.mpr fun hmem => Assoc.lookup_eq_none.mp hl ?_
      rw [List.map_reverse] at hmem
      exact List.mem_reverse.mp hmem
    | some e => exact Assoc.lookup_of_mem hn (List.mem_reverse.mpr (Assoc.mem_of_lookup hl))
  rw [hall.lookup l, List.reverse_append, List.reverse_append, lookup_append, lookup_append,
    hunique, h'.lookup l]

theorem Merges.eq_nil_iff {entries failures : List (String × Exn)} (h : Merges entries failures) :
    failures = [] ↔ entries = [] := by
  constructor
  · rintro rfl
    by_contra hne
    obtain ⟨e, rest, rfl⟩ := List.exists_cons_of_ne_nil hne
    have hmem : e.1 ∈ (e :: rest).reverse.map Prod.fst :=
      List.mem_map_of_mem (List.mem_reverse.mpr (by simp))
    obtain ⟨x, hx⟩ := lookup_isSome hmem
    rw [← h.lookup e.1] at hx
    cases hx
  · rintro rfl
    by_contra hne
    obtain ⟨p, rest, rfl⟩ := List.exists_cons_of_ne_nil hne
    have hmem : p.1 ∈ (p :: rest).map Prod.fst := by simp
    obtain ⟨x, hx⟩ := lookup_isSome hmem
    rw [h.lookup p.1] at hx
    cases hx

/-- A flush that came to these entries: it raises their failures together, if there are any. -/
def Reports (entries : List (String × Exn)) (res : Except Exn Unit) : Prop :=
  ∃ failures, Merges entries failures ∧
    ((failures = [] ∧ res = .ok ()) ∨ ∃ message, failures ≠ [] ∧ res = .error (.partialSync message failures))

theorem reports_when {S : Type} {entries failures : List (String × Exn)} (h : Merges entries failures)
    (message : String) (s : S) :
    Reports entries ((Prog.when (failures ≠ []) (raise (.partialSync message failures)) : M S Unit) s).1 ∧
      ((Prog.when (failures ≠ []) (raise (.partialSync message failures)) : M S Unit) s).2 = s := by
  unfold Prog.when
  split
  · next hne => exact ⟨⟨failures, h, .inr ⟨message, hne, rfl⟩⟩, rfl⟩
  · next heq => exact ⟨⟨failures, h, .inl ⟨not_not.mp heq, rfl⟩⟩, rfl⟩

/-! ## What was run -/

/-- An operation of a flush: the node it was queued at, its place in that queue, and how it
    ended. -/
structure Ran where
  path : List Nat
  position : Nat
  name : String
  what : String
  policy : SyncPolicy
  outcome : Except Exn Unit

namespace Ran

/-- The failures a target's error stands for: those of its own dependents, or itself. -/
def failuresOf (name : String) : Exn → List (String × Exn)
  | .partialSync _ failures => failures
  | e => [(name, e)]

/-- What is left of the operation for the report, each under its label. -/
def entries (r : Ran) : List (String × Exn) :=
  match r.outcome with
  | .ok _ => []
  | .error e =>
    if r.policy = .bestEffort ∧ ¬ e.isUnsupported then []
    else (failuresOf r.name e).map fun p =>
      (r.what ++ "#" ++ toString r.position ++ ":" ++ p.1, p.2)

def labels (r : Ran) : List String := r.entries.map Prod.fst

/-- The operation was required, and failed. -/
def Failed (r : Ran) : Prop := r.policy = .required ∧ ∃ e, r.outcome = .error e

/-- What was asked for, as it stood in the queue. -/
def job (r : Ran) : String × String × SyncPolicy := (r.name, r.what, r.policy)

/-- The operation of a child, seen from its parent. -/
def under (i : Nat) (r : Ran) : Ran := { r with path := i :: r.path }

@[simp] theorem entries_under (i : Nat) (r : Ran) : (r.under i).entries = r.entries := rfl

@[simp] theorem job_under (i : Nat) (r : Ran) : (r.under i).job = r.job := rfl

end Ran

def Queued.job {S K V P : Type} (q : Queued S K V P) : String × String × SyncPolicy :=
  (q.name, q.what, q.policy)

section Queue

variable {S K V P : Type}

/-- A queue from its `position` on, each operation in the state the one before it left. -/
def ranQueue : List (Queued S K V P) → Nat → S → List Ran × S
  | [], _, s => ([], s)
  | q :: rest, position, s =>
    let after := ranQueue rest (position + 1) (q.run s).2
    (⟨[], position, q.name, q.what, q.policy, (q.run s).1⟩ :: after.1, after.2)

/-- An operation of the queue leaves its entries and no other error. -/
theorem settle_ran (q : Queued S K V P) (position : Nat) (s : S) :
    (settle q.name q.what q.policy false () q.run s).2 = (q.run s).2 ∧
    ((settle q.name q.what q.policy false () q.run s).1 = .ok () ∧
        (⟨[], position, q.name, q.what, q.policy, (q.run s).1⟩ : Ran).entries = [] ∨
      ∃ message more, (settle q.name q.what q.policy false () q.run s).1 =
          .error (.partialSync message more) ∧
        (⟨[], position, q.name, q.what, q.policy, (q.run s).1⟩ : Ran).entries =
          more.map fun p => (q.what ++ "#" ++ toString position ++ ":" ++ p.1, p.2)) := by
  unfold settle
  rcases hrun : q.run s with ⟨e | u, s'⟩
  · rw [catching_error hrun]
    unfold Ran.entries
    dsimp only
    by_cases hpolicy : q.policy = .bestEffort ∧ ¬ e.isUnsupported
    · rw [if_pos hpolicy, if_pos hpolicy]
      exact ⟨rfl, .inl ⟨rfl, rfl⟩⟩
    · rw [if_neg hpolicy, if_neg hpolicy, if_neg (by simp)]
      cases e with
      | partialSync message more => exact ⟨rfl, .inr ⟨message, more, rfl, rfl⟩⟩
      | _ => exact ⟨rfl, .inr ⟨_, _, rfl, rfl⟩⟩
  · rw [catching_ok hrun]
    exact ⟨rfl, .inl ⟨rfl, rfl⟩⟩

theorem flushQueue_ran (queue : List (Queued S K V P)) (position : Nat)
    {entries failures : List (String × Exn)} (h : Merges entries failures) (s : S) :
    ∃ failures', Topology.flushQueue queue position failures s =
        (.ok failures', (ranQueue queue position s).2) ∧
      Merges (entries ++ (ranQueue queue position s).1.flatMap Ran.entries) failures' := by
  induction queue generalizing position entries failures s with
  | nil => exact ⟨failures, rfl, by rw [ranQueue, List.flatMap_nil, List.append_nil]; exact h⟩
  | cons q rest ih =>
    obtain ⟨hstate, hres⟩ := settle_ran q position s
    unfold Topology.flushQueue ranQueue
    rw [bind_ok (attempt_apply _ s), hstate, List.flatMap_cons]
    rcases hres with ⟨hok, hnone⟩ | ⟨message, more, herror, hentries⟩
    · rw [hok, hnone, List.nil_append]
      exact ih (position + 1) h _
    · rw [herror, hentries, ← List.append_assoc]
      exact ih (position + 1) (h.update _) _

theorem flushSyncs_ran (n : Node S K V P) :
    Reports ((ranQueue n.syncs 0 n.media).1.flatMap Ran.entries) (Topology.flushSyncs n).1 ∧
      (Topology.flushSyncs n).2 = ⟨(ranQueue n.syncs 0 n.media).2, []⟩ := by
  obtain ⟨failures, hrun, hmerges⟩ := flushQueue_ran n.syncs 0 Merges.nil n.media
  unfold Topology.flushSyncs
  simp only [bind_apply, read_apply, modify_apply, Node.onMedia_apply, hrun]
  exact reports_when hmerges _ _

/-- The operations of a queue come in its order, each once, numbered. -/
theorem ranQueue_jobs (queue : List (Queued S K V P)) (position : Nat) (s : S) :
    (ranQueue queue position s).1.map Ran.job = queue.map Queued.job ∧
    (ranQueue queue position s).1.map Ran.position = List.range' position queue.length ∧
    ∀ r ∈ (ranQueue queue position s).1, r.path = [] := by
  induction queue generalizing position s with
  | nil => exact ⟨rfl, rfl, by simp [ranQueue]⟩
  | cons q rest ih =>
    obtain ⟨hjobs, hpositions, hpath⟩ := ih (position + 1) (q.run s).2
    refine ⟨?_, ?_, fun r hr => ?_⟩
    · rw [ranQueue, List.map_cons, List.map_cons, hjobs]
      rfl
    · rw [ranQueue, List.map_cons, hpositions, List.length_cons, List.range'_succ]
    · rcases List.mem_cons.mp hr with rfl | hr
      · rfl
      · exact hpath r hr

end Queue

namespace Composition

/-! ## The whole tree -/

/-- What the children at the places come to, one after the other. -/
def ranPlaces {n m : Nat} {C : Fin n → Type} {I : Fin m → Type} (run : ∀ i, C i → List Ran × C i) :
    List (Option (Fin n)) → Media C I → List Ran × Media C I
  | [], s => ([], s)
  | none :: ps, s => ranPlaces run ps s
  | some i :: ps, s =>
    let after := ranPlaces run ps ((Media.child i).set s (run i (s.1 i)).2)
    ((run i (s.1 i)).1.map (Ran.under i) ++ after.1, after.2)

/-- What a flush of the tree comes to: a node's own queue, and then what lies beneath it. -/
def ran : {K V : Type} → (c : Composition K V) → c.State → List Ran × c.State
  | _, _, .leaf _, s => ([], s)
  | _, _, .imap c _ _, s => c.ran s
  | _, _, .imapKeys _ c _ _, s => c.ran s
  | _, _, .node _ _ _ _ _ _ child _ shape _ _ indexPolicy _, s =>
    let own := ranQueue s.syncs 0 s.media
    let below := ranPlaces (fun i => (child i).ran) (nodePlaces shape indexPolicy) own.2
    (own.1 ++ below.1, ⟨below.2, []⟩)

/-- What is queued at the node a path leads to. -/
def queuedAt : {K V : Type} → (c : Composition K V) → c.State → List Nat →
    List (String × String × SyncPolicy)
  | _, _, .leaf _, _, _ => []
  | _, _, .imap c _ _, s, path => c.queuedAt s path
  | _, _, .imapKeys _ c _ _, s, path => c.queuedAt s path
  | _, _, .node _ _ _ _ _ _ _ _ _ _ _ _ _, s, [] => s.syncs.map Queued.job
  | _, _, .node _ _ _ n _ _ child _ _ _ _ _ _, s, i :: path =>
    if h : i < n then (child ⟨i, h⟩).queuedAt (s.media.1 ⟨i, h⟩) path else []

section Flush

theorem flushAll_ran {S : Type} (flush : M S Unit) (flushes : List (M S Unit))
    {es entries failures : List (String × Exn)} {s s' : S} (hflush : Reports es (flush s).1)
    (hs : (flush s).2 = s') (h : Merges entries failures) :
    ∃ failures', flushAll (flush :: flushes) failures s = flushAll flushes failures' s' ∧
      Merges (entries ++ es) failures' := by
  obtain ⟨failures', hmerges, hres⟩ := hflush
  rw [flushAll, bind_ok (attempt_apply _ s), hs]
  rcases hres with ⟨hnil, hok⟩ | ⟨message, -, herror⟩
  · rw [hok]
    refine ⟨failures, rfl, ?_⟩
    rw [hmerges.eq_nil_iff.mp hnil, List.append_nil]
    exact h
  · rw [herror]
    exact ⟨updateFailures failures failures', rfl, h.append hmerges⟩

theorem flushEach_reports {S : Type} {flushes : List (M S Unit)} {es failures : List (String × Exn)}
    {s s' : S} (hrun : flushAll flushes [] s = (.ok failures, s')) (h : Merges es failures) :
    Reports es (flushEach flushes s).1 ∧ (flushEach flushes s).2 = s' := by
  unfold flushEach
  rw [bind_ok hrun]
  exact reports_when h _ s'

/-- A node: its own queue, and then what lies beneath it. -/
theorem flushNode_ran {S K V P : Type} [DecidableEq K] (T : Topology S K V P) (n : Node S K V P)
    {es : List (String × Exn)} {media : S}
    (hbeneath : Reports es (flushEach (T.children.map fun c => c.flushIndexSyncs)
      (ranQueue n.syncs 0 n.media).2).1)
    (hmedia : (flushEach (T.children.map fun c => c.flushIndexSyncs)
      (ranQueue n.syncs 0 n.media).2).2 = media) :
    Reports ((ranQueue n.syncs 0 n.media).1.flatMap Ran.entries ++ es) (T.flush n).1 ∧
      (T.flush n).2 = ⟨media, []⟩ := by
  let rest : M (Node S K V P) Unit := Node.onMedia (flushEach (T.children.map fun c => c.flushIndexSyncs))
  obtain ⟨hown, hstate⟩ := flushSyncs_ran n
  obtain ⟨failures, hfirst, hmerges⟩ := flushAll_ran Topology.flushSyncs [rest] hown hstate Merges.nil
  have hbeneath' : Reports es (rest ⟨(ranQueue n.syncs 0 n.media).2, []⟩).1 := hbeneath
  have hmedia' : (rest ⟨(ranQueue n.syncs 0 n.media).2, []⟩).2 = ⟨media, []⟩ := by
    show (⟨(flushEach _ (ranQueue n.syncs 0 n.media).2).2, []⟩ : Node S K V P) = _
    rw [hmedia]
  rw [List.nil_append] at hmerges
  obtain ⟨failures', hsecond, hmerges'⟩ := flushAll_ran rest [] hbeneath' hmedia' hmerges
  exact flushEach_reports (hfirst.trans hsecond) hmerges'

variable {K V P : Type} [DecidableEq K] {n m : Nat} {part : Fin n → Type} [∀ i, DecidableEq (part i)]
  {child : ∀ i, Composition K (part i)} {declared : Fin n → Declared}
  {shape : ∀ i, Shape V P (part i)} {index : Fin m → IndexLeaf K V}
  {indexPolicy : Option SyncPolicy} {assemble : Option (Parts V P → Option V)}

variable (child index) in
omit [∀ i, DecidableEq (part i)] in
theorem flushBeneath_ran (hflush : ∀ i s,
      Reports (((child i).ran s).1.flatMap Ran.entries) ((child i).store.flushIndexSyncs s).1 ∧
        ((child i).store.flushIndexSyncs s).2 = ((child i).ran s).2)
    (ps : List (Option (Fin n))) {entries failures : List (String × Exn)}
    (h : Merges entries failures) (s : Media (fun i => (child i).State) fun j => (index j).State) :
    let run := ranPlaces (fun i => (child i).ran) ps s
    ∃ failures', flushAll ((ps.flatMap (beneath child index)).map fun c => c.flushIndexSyncs) failures s =
        (.ok failures', run.2) ∧ Merges (entries ++ run.1.flatMap Ran.entries) failures' := by
  induction ps generalizing entries failures s with
  | nil => exact ⟨failures, rfl, by rw [ranPlaces, List.flatMap_nil, List.append_nil]; exact h⟩
  | cons p ps ih =>
    cases p with
    | none => exact ih h s
    | some i =>
      obtain ⟨hreports, hstate⟩ := hflush i (s.1 i)
      have hzoom : ((child i).store.zoom (Media.child i)).flushIndexSyncs s =
          (((child i).store.flushIndexSyncs (s.1 i)).1, (Media.child i).set s
            ((child i).store.flushIndexSyncs (s.1 i)).2) := rfl
      have hreports' : Reports (((child i).ran (s.1 i)).1.flatMap Ran.entries)
          (((child i).store.zoom (Media.child i)).flushIndexSyncs s).1 := by
        rw [hzoom]
        exact hreports
      have hstate' : (((child i).store.zoom (Media.child i)).flushIndexSyncs s).2 =
          (Media.child i).set s ((child i).ran (s.1 i)).2 := by
        rw [hzoom, hstate]
      obtain ⟨failures', hfirst, hmerges⟩ := flushAll_ran
        ((child i).store.zoom (Media.child i)).flushIndexSyncs
        ((ps.flatMap (beneath child index)).map fun c => c.flushIndexSyncs) hreports' hstate' h
      obtain ⟨failures'', hrest, hmerges'⟩ := ih hmerges ((Media.child i).set s ((child i).ran (s.1 i)).2)
      refine ⟨failures'', hfirst.trans hrest, ?_⟩
      have hunder : (((child i).ran (s.1 i)).1.map (Ran.under i)).flatMap Ran.entries =
          ((child i).ran (s.1 i)).1.flatMap Ran.entries := List.flatMap_map ..
      rw [ranPlaces, List.flatMap_append, hunder, ← List.append_assoc]
      exact hmerges'

end Flush

/-- A flush runs what `ran` lists, and reports the failures merged. -/
theorem flush_ran {K V : Type} (c : Composition K V) (h : c.Leaves Leaf.Queueless) :
    ∀ [DecidableEq K] (s : c.State),
      Reports ((c.ran s).1.flatMap Ran.entries) (c.store.flushIndexSyncs s).1 ∧
        (c.store.flushIndexSyncs s).2 = (c.ran s).2 := by
  induction c with
  | leaf l =>
    intro _ s
    have hflush : l.store.flushIndexSyncs s = (.ok (), s) := by rw [Leaf.Queueless.flush h]; rfl
    show Reports [] (l.store.flushIndexSyncs s).1 ∧ (l.store.flushIndexSyncs s).2 = s
    rw [hflush]
    exact ⟨⟨[], Merges.nil, .inl ⟨rfl, rfl⟩⟩, rfl⟩
  | imap c f g ih =>
    intro _ s
    obtain ⟨failures', hrun, hmerges⟩ := flushAll_ran _ [] (ih h s).1 (ih h s).2 Merges.nil
    exact flushEach_reports hrun hmerges
  | imapKeys dec c f g ih =>
    intro _ s
    obtain ⟨failures', hrun, hmerges⟩ := flushAll_ran _ [] (ih h s).1 (ih h s).2 Merges.nil
    exact flushEach_reports hrun hmerges
  | node name zip P n part dec child declared shape m index policy assemble ih =>
    intro _ s
    let T := topologyOf child declared shape index policy assemble
    obtain ⟨failures, hbelow, hmerges⟩ := flushBeneath_ran child index
      (fun i s => ih i (h i) s) (nodePlaces shape policy) Merges.nil (ranQueue s.syncs 0 s.media).2
    have hchildren : T.children = (nodePlaces shape policy).flatMap (beneath child index) := children_eq
    rw [← hchildren] at hbelow
    have heach := flushEach_reports hbelow hmerges
    have hnode : Reports (((ranQueue s.syncs 0 s.media).1 ++ (ranPlaces (fun i => (child i).ran)
        (nodePlaces shape policy) (ranQueue s.syncs 0 s.media).2).1).flatMap Ran.entries) (T.flush s).1 ∧
        (T.flush s).2 = ⟨(ranPlaces (fun i => (child i).ran) (nodePlaces shape policy)
          (ranQueue s.syncs 0 s.media).2).2, []⟩ := by
      rw [List.flatMap_append]
      exact flushNode_ran T s heach.1 heach.2
    cases zip <;> exact hnode

/-! ## What an operation queues -/

/-- Every queue of the tree has only grown, by operations that let the queues beneath them
    only grow. -/
def Grows : {K V : Type} → (c : Composition K V) → c.State → c.State → Prop
  | _, _, .leaf _, _, _ => True
  | _, _, .imap c _ _, s, s' => c.Grows s s'
  | _, _, .imapKeys _ c _ _, s, s' => c.Grows s s'
  | _, _, .node _ _ _ _ _ _ child _ _ _ _ _ _, s, s' =>
    (∃ more, s'.syncs = s.syncs ++ more ∧
      ∀ q ∈ more, Moves (fun m m' => ∀ i, (child i).Grows (m.1 i) (m'.1 i)) q.run) ∧
    ∀ i, (child i).Grows (s.media.1 i) (s'.media.1 i)

/-- Whatever is queued anywhere lets the queues beneath it only grow. -/
def Orderly : {K V : Type} → (c : Composition K V) → c.State → Prop
  | _, _, .leaf _, _ => True
  | _, _, .imap c _ _, s => c.Orderly s
  | _, _, .imapKeys _ c _ _, s => c.Orderly s
  | _, _, .node _ _ _ _ _ _ child _ _ _ _ _ _, s =>
    (∀ q ∈ s.syncs, Moves (fun m m' => ∀ i, (child i).Grows (m.1 i) (m'.1 i)) q.run) ∧
    ∀ i, (child i).Orderly (s.media.1 i)

theorem Grows.refl {K V : Type} (c : Composition K V) (s : c.State) : c.Grows s s := by
  induction c with
  | leaf l => trivial
  | imap c f g ih => exact ih s
  | imapKeys dec c f g ih => exact ih s
  | node name zip P n part dec child declared shape m index policy assemble ih =>
    exact ⟨⟨[], (List.append_nil _).symm, by simp⟩, fun i => ih i _⟩

theorem Grows.trans {K V : Type} {c : Composition K V} {s s' s'' : c.State} (h : c.Grows s s')
    (h' : c.Grows s' s'') : c.Grows s s'' := by
  induction c with
  | leaf l => trivial
  | imap c f g ih => exact ih h h'
  | imapKeys dec c f g ih => exact ih h h'
  | node name zip P n part dec child declared shape m index policy assemble ih =>
    obtain ⟨⟨more, hsyncs, hmore⟩, hchild⟩ := h
    obtain ⟨⟨more', hsyncs', hmore'⟩, hchild'⟩ := h'
    refine ⟨⟨more ++ more', by rw [hsyncs', hsyncs, List.append_assoc], fun q hq => ?_⟩,
      fun i => ih i (hchild i) (hchild' i)⟩
    rcases List.mem_append.mp hq with hq | hq
    · exact hmore q hq
    · exact hmore' q hq

instance {K V : Type} (c : Composition K V) : Std.Refl c.Grows := ⟨Grows.refl c⟩

instance {K V : Type} (c : Composition K V) : IsTrans c.State c.Grows := ⟨fun _ _ _ => Grows.trans⟩

theorem Orderly.grown {K V : Type} {c : Composition K V} {s s' : c.State} (h : c.Orderly s)
    (hg : c.Grows s s') : c.Orderly s' := by
  induction c with
  | leaf l => trivial
  | imap c f g ih => exact ih h hg
  | imapKeys dec c f g ih => exact ih h hg
  | node name zip P n part dec child declared shape m index policy assemble ih =>
    obtain ⟨⟨more, hsyncs, hmore⟩, hchild⟩ := hg
    refine ⟨fun q hq => ?_, fun i => ih i (h.2 i) (hchild i)⟩
    rw [hsyncs] at hq
    rcases List.mem_append.mp hq with hq | hq
    · exact h.1 q hq
    · exact hmore q hq

theorem Idle.orderly {K V : Type} {c : Composition K V} {s : c.State} (h : c.Idle s) : c.Orderly s := by
  induction c with
  | leaf l => trivial
  | imap c f g ih => exact ih h
  | imapKeys dec c f g ih => exact ih h
  | node name zip P n part dec child declared shape m index policy assemble ih =>
    refine ⟨fun q hq => ?_, fun i => ih i (h.2 i)⟩
    rw [h.1] at hq
    cases hq

/-- What was queued at a node stays at the front of its queue. -/
theorem Grows.queuedAt {K V : Type} {c : Composition K V} {s s' : c.State} (h : c.Grows s s')
    (path : List Nat) : c.queuedAt s path <+: c.queuedAt s' path := by
  induction c generalizing path with
  | leaf l => exact List.prefix_rfl
  | imap c f g ih => exact ih h path
  | imapKeys dec c f g ih => exact ih h path
  | node name zip P n part dec child declared shape m index policy assemble ih =>
    obtain ⟨⟨more, hsyncs, -⟩, hchild⟩ := h
    cases path with
    | nil =>
      show s.syncs.map Queued.job <+: s'.syncs.map Queued.job
      rw [hsyncs, List.map_append]
      exact List.prefix_append _ _
    | cons i path =>
      unfold Composition.queuedAt
      split
      · next hi => exact ih ⟨i, hi⟩ (hchild ⟨i, hi⟩) path
      · exact List.prefix_rfl

section Node

variable {K V P : Type} [DecidableEq K] {n m : Nat} {part : Fin n → Type} [∀ i, DecidableEq (part i)]
  {child : ∀ i, Composition K (part i)} {declared : Fin n → Declared}
  {shape : ∀ i, Shape V P (part i)} {index : Fin m → IndexLeaf K V}
  {indexPolicy : Option SyncPolicy} {assemble : Option (Parts V P → Option V)}

/-- What `Grows` says of a node's media. -/
def MediaGrows (child : ∀ i, Composition K (part i)) (index : Fin m → IndexLeaf K V)
    (s s' : Media (fun i => (child i).State) fun j => (index j).State) : Prop :=
  ∀ i, (child i).Grows (s.1 i) (s'.1 i)

instance : Std.Refl (MediaGrows child index) := ⟨fun _ _ => Grows.refl _ _⟩

instance : IsTrans _ (MediaGrows child index) := ⟨fun _ _ _ h h' i => (h i).trans (h' i)⟩

/-- A node's own queue and those beneath it. -/
def NodeGrows (child : ∀ i, Composition K (part i)) (index : Fin m → IndexLeaf K V)
    (s s' : Node (Media (fun i => (child i).State) fun j => (index j).State) K V P) : Prop :=
  (∃ more, s'.syncs = s.syncs ++ more ∧ ∀ q ∈ more, Moves (MediaGrows child index) q.run) ∧
    MediaGrows child index s.media s'.media

instance : Std.Refl (NodeGrows (P := P) child index) :=
  ⟨fun s => ⟨⟨[], (List.append_nil _).symm, by simp⟩, Std.Refl.refl s.media⟩⟩

instance : IsTrans _ (NodeGrows (P := P) child index) where
  trans _ _ _ h h' := by
    obtain ⟨⟨more, hsyncs, hmore⟩, hmedia⟩ := h
    obtain ⟨⟨more', hsyncs', hmore'⟩, hmedia'⟩ := h'
    refine ⟨⟨more ++ more', by rw [hsyncs', hsyncs, List.append_assoc], fun q hq => ?_⟩,
      IsTrans.trans _ _ _ hmedia hmedia'⟩
    rcases List.mem_append.mp hq with hq | hq
    · exact hmore q hq
    · exact hmore' q hq

omit [DecidableEq K] [∀ i, DecidableEq (part i)] in
theorem grows_child (i : Fin n) {α : Type} {m : M (child i).State α} (h : Moves (child i).Grows m) :
    Moves (MediaGrows child index) ((Media.child i).zoom m) := by
  intro s j
  show (child j).Grows (s.1 j) (Function.update s.1 i _ j)
  by_cases hj : j = i
  · subst hj
    rw [Function.update_self]
    exact h _
  · rw [Function.update_of_ne hj]
    exact Grows.refl _ _

omit [DecidableEq K] [∀ i, DecidableEq (part i)] in
theorem grows_onMedia {α : Type} {m : M (Media (fun i => (child i).State) fun j => (index j).State) α}
    (h : Moves (MediaGrows child index) m) : Moves (NodeGrows (P := P) child index) (Node.onMedia m) :=
  moves_onMedia fun s _ => ⟨⟨[], (List.append_nil _).symm, by simp⟩, h s⟩

/-- The writes at a place let what is queued beneath only grow. -/
theorem grows_place (hchild : ∀ i, (child i).store.Is (Moves (child i).Grows)) (p : Option (Fin n)) :
    (mediaTarget (fun i => (child i).store) declared shape (fun j => (index j).index) indexPolicy p :
      AnyTarget _ K V P).Writes (Moves (MediaGrows child index)) := by
  cases p with
  | none =>
    rw [mediaTarget_indexes]
    have hany : (Target.upcast Sum.inl (indexesTarget (nodeIndexes fun j => (index j).index)
        (indexPolicy.getD .required)) : AnyTarget _ K V P).Writes (Moves fun _ _ => True) :=
      ⟨fun _ _ _ _ => trivial, fun _ _ _ => trivial, fun _ _ _ => trivial, fun _ _ => trivial,
        fun _ _ => trivial, fun _ _ => trivial, fun _ _ => trivial⟩
    exact hany.zoom Lens.second fun _ s i => Grows.refl _ _
  | some i =>
    exact Shape.target_writes (moves_closed _) _ _ ((hchild i).writes.zoom _ fun hm => grows_child i hm)

/-- The steps of a node. One that waits joins the queue. -/
theorem grows_writers (hchild : ∀ i, (child i).store.Is (Moves (child i).Grows))
    (hreads : Readers (topologyOf child declared shape index indexPolicy assemble)
      (Moves (MediaGrows child index))) :
    Writers (topologyOf child declared shape index indexPolicy assemble)
      (Moves (NodeGrows (P := P) child index)) := by
  have hwrites : ∀ t ∈ (topologyOf child declared shape index indexPolicy assemble).all,
      t.Writes (Moves (MediaGrows child index)) := by
    intro t ht
    rw [all_eq] at ht
    obtain ⟨p, -, rfl⟩ := List.mem_map.mp ht
    exact grows_place hchild p
  refine writers_of (moves_closed _) (fun hm => grows_onMedia hm)
    (fun name role hm => moves_runCommitting hm name role)
    (fun _ t ht ks => (hreads.reads t (Writers.components_all ht)).batchExists ks) hwrites
    fun t ht _ what op => ?_
  have hop := (hwrites t ht).on (moves_closed _) op
  unfold Topology.syncOne Topology.runSync
  split
  · intro s
    refine ⟨⟨[_], rfl, fun q hq => ?_⟩, Std.Refl.refl s.media⟩
    rw [List.mem_singleton.mp hq]
    exact hop
  · exact grows_onMedia (moves_settle hop _ _ _ _ _)

end Node

/-- Every operation lets what is queued in the tree only grow. -/
theorem grows {K V : Type} (c : Composition K V) :
    ∀ [DecidableEq K], c.store.Is (Moves c.Grows) := by
  induction c with
  | leaf l =>
    intro _
    have hany : ∀ {α : Type} (m : M l.State α), Moves (leaf l).Grows m := fun _ _ => trivial
    exact ⟨fun _ => hany _, fun _ => hany _, fun _ => hany _, fun _ => hany _, fun _ => hany _,
      fun _ => hany _, fun _ _ _ => hany _, fun _ _ => hany _, fun _ _ => hany _, fun _ => hany _,
      fun _ => hany _, fun _ => hany _, fun _ => hany _⟩
  | imap c f g ih =>
    intro _
    exact imapStore_is (moves_closed c.Grows) ih f g
  | imapKeys dec c f g ih =>
    intro _
    exact imapKeysStore_is (moves_closed c.Grows) ih f g
  | node name zip P n part dec child declared shape m index policy assemble ih =>
    intro _
    have hchild := fun i => ih i
    have hreads : ∀ i, ((child i).store.zoom (Media.child i :
        Lens (Media (fun i => (child i).State) fun j => (index j).State) _)).Is
          (Moves (MediaGrows child index)) := fun i => (hchild i).zoom _ fun hm => grows_child i hm
    have hr : Readers (topologyOf child declared shape index policy assemble)
        (Moves (MediaGrows child index)) := by
      refine mediaTopology_readers (moves_closed _) (fun i => (hreads i).reads) fun t ht hfilled ws o =>
        moves_tryFill ?_
      rcases List.mem_append.mp ht with ht | ht
      · obtain ⟨i, -, ht⟩ := List.mem_filterMap.mp ht
        have hwrites : t.Writes (Moves (MediaGrows child index)) :=
          Shape.target?_writes (moves_closed _) _ _ (hreads i).writes t ht
        exact hwrites.conditional ws o
      · obtain ⟨p, -, rfl⟩ := Option.map_eq_some_iff.mp (Option.mem_toList.mp ht)
        cases hfilled
    have hw : Writers (topologyOf child declared shape index policy assemble)
        (Moves (NodeGrows (P := P) child index)) := grows_writers hchild hr
    cases zip with
    | none => exact topologyStore_is hr hw (fun hm => grows_onMedia hm) name
    | some z =>
      exact zipStore_is hr hw (fun hm => grows_onMedia hm)
        (mediaTopology_parts (moves_closed _) fun i => (hreads i).reads) z name

/-! ## Each operation once, in its order -/

section Places

variable {n m : Nat} {C : Fin n → Type} {I : Fin m → Type} (run : ∀ i, C i → List Ran × C i)

/-- A child at one of the places comes to what it comes to alone. -/
theorem ranPlaces_child {ps : List (Option (Fin n))} (hn : ps.Nodup) (s : Media C I) (i : Fin n) :
    (ranPlaces run ps s).2.1 i = (if some i ∈ ps then (run i (s.1 i)).2 else s.1 i) ∧
    ∀ path, (ranPlaces run ps s).1.filter (fun r => r.path = i.val :: path) =
      if some i ∈ ps then ((run i (s.1 i)).1.filter fun r => r.path = path).map (Ran.under i) else [] := by
  induction ps generalizing s with
  | nil => exact ⟨rfl, fun _ => rfl⟩
  | cons p ps ih =>
    obtain ⟨hp, hrest⟩ := List.nodup_cons.mp hn
    cases p with
    | none =>
      obtain ⟨hstate, hat⟩ := ih hrest s
      have hiff : some i ∈ none :: ps ↔ some i ∈ ps := by simp
      simp only [hiff]
      exact ⟨hstate, hat⟩
    | some j =>
      obtain ⟨hstate, hat⟩ := ih hrest ((Media.child j).set s (run j (s.1 j)).2)
      have hset : ((Media.child j).set s (run j (s.1 j)).2).1 i =
          Function.update s.1 j (run j (s.1 j)).2 i := rfl
      rw [hset] at hstate hat
      have hfilter : ∀ path, (ranPlaces run (some j :: ps) s).1.filter
          (fun r => r.path = i.val :: path) =
          ((run j (s.1 j)).1.map (Ran.under j)).filter (fun r => r.path = i.val :: path) ++
            (ranPlaces run ps ((Media.child j).set s (run j (s.1 j)).2)).1.filter
              (fun r => r.path = i.val :: path) := fun path => List.filter_append ..
      by_cases hij : i = j
      · subst hij
        rw [if_neg hp, Function.update_self] at hstate
        refine ⟨?_, fun path => ?_⟩
        · rw [if_pos (by simp)]
          exact hstate
        · rw [hfilter, hat, if_neg hp, if_pos (by simp), List.append_nil, List.filter_map]
          refine congrArg _ (List.filter_congr fun r _ => ?_)
          simp [Ran.under]
      · rw [Function.update_of_ne hij] at hstate hat
        have hiff : some i ∈ some j :: ps ↔ some i ∈ ps := by simp [hij]
        simp only [hiff]
        refine ⟨hstate, fun path => ?_⟩
        have hnone : ((run j (s.1 j)).1.map (Ran.under j)).filter
            (fun r => r.path = i.val :: path) = [] := by
          refine List.filter_eq_nil_iff.mpr fun r hr => ?_
          obtain ⟨r', -, rfl⟩ := List.mem_map.mp hr
          have hne : j.val ≠ i.val := fun h => hij (Fin.ext h.symm)
          simp [Ran.under, hne]
        rw [hfilter, hnone, List.nil_append]
        exact hat path

theorem ranPlaces_path {ps : List (Option (Fin n))} (s : Media C I) :
    ∀ r ∈ (ranPlaces run ps s).1, ∃ (i : Fin n) (path : List Nat), r.path = i.val :: path := by
  induction ps generalizing s with
  | nil => simp [ranPlaces]
  | cons p ps ih =>
    cases p with
    | none => exact ih s
    | some i =>
      intro r hr
      rcases List.mem_append.mp hr with hr | hr
      · obtain ⟨r', -, rfl⟩ := List.mem_map.mp hr
        exact ⟨i, r'.path, rfl⟩
      · exact ih _ r hr

end Places

theorem ranQueue_moves {S K V P : Type} {R : S → S → Prop} [Std.Refl R] [IsTrans S R]
    {queue : List (Queued S K V P)} (h : ∀ q ∈ queue, Moves R q.run) (position : Nat) (s : S) :
    R s (ranQueue queue position s).2 := by
  induction queue generalizing position s with
  | nil => exact Std.Refl.refl s
  | cons q rest ih =>
    refine IsTrans.trans _ _ _ (h q (by simp) s) ?_
    exact ih (fun q hq => h q (List.mem_cons_of_mem _ hq)) (position + 1) _

theorem ran_idle {K V : Type} (c : Composition K V) (s : c.State) : c.Idle (c.ran s).2 := by
  induction c with
  | leaf l => trivial
  | imap c f g ih => exact ih s
  | imapKeys dec c f g ih => exact ih s
  | node name zip P n part dec child declared shape m index policy assemble ih =>
    refine ⟨rfl, fun i => ?_⟩
    have hstate := (ranPlaces_child (fun i => (child i).ran) (nodup_nodePlaces shape policy)
      (ranQueue s.syncs 0 s.media).2 i).1
    rw [if_pos (mem_nodePlaces shape policy i)] at hstate
    show (child i).Idle ((ranPlaces (fun i => (child i).ran) (nodePlaces shape policy)
      (ranQueue s.syncs 0 s.media).2).2.1 i)
    rw [hstate]
    exact ih i _

/-- At each node a flush runs what was queued, in its order and each operation once, and after
    it what the flush itself queued there. -/
theorem ran_at {K V : Type} (c : Composition K V) {s : c.State} (h : c.Orderly s) (path : List Nat) :
    c.queuedAt s path <+: (((c.ran s).1.filter fun r => r.path = path).map Ran.job) ∧
    ((c.ran s).1.filter fun r => r.path = path).map Ran.position =
      List.range ((c.ran s).1.filter fun r => r.path = path).length := by
  induction c generalizing path with
  | leaf l => exact ⟨List.prefix_rfl, rfl⟩
  | imap c f g ih => exact ih h path
  | imapKeys dec c f g ih => exact ih h path
  | node name zip P n part dec child declared shape m index policy assemble ih =>
    obtain ⟨hjobs, hpositions, hpath⟩ := ranQueue_jobs s.syncs 0 s.media
    have hsplit : ((node name zip P n part dec child declared shape m index policy assemble).ran s).1 =
        (ranQueue s.syncs 0 s.media).1 ++ (ranPlaces (fun i => (child i).ran) (nodePlaces shape policy)
          (ranQueue s.syncs 0 s.media).2).1 := rfl
    rw [hsplit, List.filter_append]
    cases path with
    | nil =>
      have hown : (ranQueue s.syncs 0 s.media).1.filter (fun r => r.path = []) =
          (ranQueue s.syncs 0 s.media).1 :=
        List.filter_eq_self.mpr fun r hr => decide_eq_true (hpath r hr)
      have hbelow : (ranPlaces (fun i => (child i).ran) (nodePlaces shape policy)
          (ranQueue s.syncs 0 s.media).2).1.filter (fun r => r.path = []) = [] := by
        refine List.filter_eq_nil_iff.mpr fun r hr => ?_
        obtain ⟨i, path, hr⟩ := ranPlaces_path _ _ r hr
        rw [hr]
        simp
      rw [hown, hbelow, List.append_nil, hjobs, hpositions, List.range_eq_range']
      refine ⟨List.prefix_rfl, ?_⟩
      rw [← List.length_map Queued.job, ← hjobs, List.length_map]
    | cons i path =>
      have hown : (ranQueue s.syncs 0 s.media).1.filter (fun r => r.path = i :: path) = [] := by
        refine List.filter_eq_nil_iff.mpr fun r hr => ?_
        rw [hpath r hr]
        simp
      rw [hown, List.nil_append]
      unfold Composition.queuedAt
      split
      · next hi =>
        have hgrown : (child ⟨i, hi⟩).Grows (s.media.1 ⟨i, hi⟩) ((ranQueue s.syncs 0 s.media).2.1 ⟨i, hi⟩) := by
          have hmedia : MediaGrows child index s.media (ranQueue s.syncs 0 s.media).2 :=
            ranQueue_moves (R := MediaGrows child index) h.1 0 s.media
          exact hmedia ⟨i, hi⟩
        have hat := (ranPlaces_child (fun i => (child i).ran) (nodup_nodePlaces shape policy)
          (ranQueue s.syncs 0 s.media).2 ⟨i, hi⟩).2 path
        rw [if_pos (mem_nodePlaces shape policy ⟨i, hi⟩)] at hat
        obtain ⟨hfront, hnumbered⟩ := ih ⟨i, hi⟩ ((h.2 ⟨i, hi⟩).grown hgrown) path
        rw [hat, List.map_map, List.map_map, List.length_map]
        exact ⟨(hgrown.queuedAt path).trans hfront, hnumbered⟩
      · next hi =>
        have hbelow : (ranPlaces (fun i => (child i).ran) (nodePlaces shape policy)
            (ranQueue s.syncs 0 s.media).2).1.filter (fun r => r.path = i :: path) = [] := by
          refine List.filter_eq_nil_iff.mpr fun r hr => ?_
          obtain ⟨j, path', hr⟩ := ranPlaces_path _ _ r hr
          rw [hr]
          have hne : j.val ≠ i := fun h => hi (h ▸ j.isLt)
          simp [hne]
        rw [hbelow]
        exact ⟨List.nil_prefix, rfl⟩

/-- A flush or a discard leaves every queue empty. -/
theorem orderly_run {K V : Type} [DecidableEq K] (c : Composition K V) (h : c.Leaves Leaf.Queueless)
    (acts : List (Act K V)) {s : c.State} (hs : c.Orderly s) : c.Orderly (runActs c.store acts s) := by
  refine runActs_induction c.Orderly acts (fun a _ s hs => ?_) hs
  cases a with
  | op o => exact hs.grown (c.grows.writes.op (moves_closed _) o s)
  | flush =>
    show c.Orderly (c.store.flushIndexSyncs s).2
    rw [(c.flush_ran h s).2]
    exact (c.ran_idle s).orderly
  | discard =>
    obtain ⟨s', hdiscard, -, hidle⟩ := discard_idle c h s
    show c.Orderly (c.store.discardIndexSyncs s).2
    rw [hdiscard]
    exact hidle.orderly

/-! ## What the report carries -/

/-- Each required operation that failed has an entry of its own, with its error. -/
def Carries (ran : List Ran) (failures : List (String × Exn)) : Prop :=
  ∃ own : Nat → String,
    (∀ i r, ran[i]? = some r → r.Failed →
      ∃ e, (own i, e) ∈ r.entries ∧ Assoc.lookup (own i) failures = some e) ∧
    ∀ i j r r', ran[i]? = some r → ran[j]? = some r' → r.Failed → r'.Failed → own i = own j → i = j

/-- Each required operation that failed has a label which no operation after it left an entry
    under. -/
def Told (ran : List Ran) : Prop :=
  ∀ i r, ran[i]? = some r → r.Failed → ∃ l ∈ r.labels, ∀ r' ∈ ran.drop (i + 1), l ∉ r'.labels

/-- No two operations failed with one and the same error. -/
def Distinct (ran : List Ran) : Prop :=
  ∀ (i j : Nat) (r r' : Ran) (l l' : String) (e : Exn), ran[i]? = some r → ran[j]? = some r' → (l, e) ∈ r.entries →
    (l', e) ∈ r'.entries → i = j

/-- The entry under a label is that of the last operation with it. -/
theorem lookup_last (before : List Ran) {after : List Ran} {r : Ran} {l : String} (hl : l ∈ r.labels)
    (hafter : ∀ r' ∈ after, l ∉ r'.labels) :
    ∃ e, (l, e) ∈ r.entries ∧
      Assoc.lookup l ((before ++ r :: after).flatMap Ran.entries).reverse = some e := by
  have hnone : Assoc.lookup l (after.flatMap Ran.entries).reverse = none := by
    refine Assoc.lookup_eq_none.mpr fun hmem => ?_
    rw [List.map_reverse, List.mem_reverse] at hmem
    obtain ⟨p, hp, rfl⟩ := List.mem_map.mp hmem
    obtain ⟨r', hr', hp⟩ := List.mem_flatMap.mp hp
    exact hafter r' hr' (List.mem_map_of_mem hp)
  have hmem : l ∈ r.entries.reverse.map Prod.fst := by
    rw [List.map_reverse, List.mem_reverse]
    exact hl
  obtain ⟨e, he⟩ := lookup_isSome hmem
  refine ⟨e, List.mem_reverse.mp (Assoc.mem_of_lookup he), ?_⟩
  rw [List.flatMap_append, List.flatMap_cons, List.reverse_append, List.reverse_append, lookup_append,
    lookup_append, hnone, he]
  rfl

/-- What is under a label comes from the operation or a later one, where it has the label. -/
theorem lookup_from {before after : List Ran} {l : String} {e : Exn}
    (hl : ∃ r ∈ after, l ∈ r.labels)
    (h : Assoc.lookup l ((before ++ after).flatMap Ran.entries).reverse = some e) :
    ∃ r ∈ after, (l, e) ∈ r.entries := by
  obtain ⟨r, hr, hl⟩ := hl
  obtain ⟨p, hp, rfl⟩ := List.mem_map.mp hl
  have hmem : p.1 ∈ (after.flatMap Ran.entries).reverse.map Prod.fst := by
    rw [List.map_reverse, List.mem_reverse]
    exact List.mem_map_of_mem (List.mem_flatMap.mpr ⟨r, hr, hp⟩)
  obtain ⟨e', he'⟩ := lookup_isSome hmem
  rw [List.flatMap_append, List.reverse_append, lookup_append, he'] at h
  cases h
  obtain ⟨r', hr', he⟩ := List.mem_flatMap.mp (List.mem_reverse.mp (Assoc.mem_of_lookup he'))
  exact ⟨r', hr', he⟩

theorem split_at {α : Type} {xs : List α} {i : Nat} {x : α} (h : xs[i]? = some x) :
    xs = xs.take i ++ x :: xs.drop (i + 1) := by
  obtain ⟨hi, rfl⟩ := List.getElem?_eq_some_iff.mp h
  rw [List.getElem_cons_drop, List.take_append_drop]

theorem carries_of_told {ran : List Ran} {failures : List (String × Exn)}
    (h : Merges (ran.flatMap Ran.entries) failures) (ht : Told ran) : Carries ran failures := by
  classical
  have hown : ∀ i, ∃ l, ∀ r, ran[i]? = some r → r.Failed →
      l ∈ r.labels ∧ ∀ r' ∈ ran.drop (i + 1), l ∉ r'.labels := by
    intro i
    by_cases hi : ∃ r, ran[i]? = some r ∧ r.Failed
    · obtain ⟨r, hr, hf⟩ := hi
      obtain ⟨l, hl, hafter⟩ := ht i r hr hf
      refine ⟨l, fun r' hr' _ => ?_⟩
      rw [hr] at hr'
      cases hr'
      exact ⟨hl, hafter⟩
    · exact ⟨"", fun r hr hf => absurd ⟨r, hr, hf⟩ hi⟩
  choose own hown using hown
  refine ⟨own, fun i r hr hf => ?_, fun i j r r' hr hr' hf hf' heq => ?_⟩
  · obtain ⟨hl, hafter⟩ := hown i r hr hf
    obtain ⟨e, he, hlookup⟩ := lookup_last (ran.take i) hl hafter
    rw [← split_at hr, ← h.lookup] at hlookup
    exact ⟨e, he, hlookup⟩
  · have hlast : ∀ i j r r', ran[i]? = some r → ran[j]? = some r' → r.Failed → r'.Failed →
        own i = own j → ¬ i < j := by
      intro i j r r' hr hr' hf hf' heq hlt
      refine (hown i r hr hf).2 r' ?_ ?_
      · refine List.mem_of_getElem? (i := j - (i + 1)) ?_
        rw [List.getElem?_drop]
        rw [show i + 1 + (j - (i + 1)) = j by omega]
        exact hr'
      · rw [heq]
        exact (hown j r' hr' hf').1
    have h1 := hlast i j r r' hr hr' hf hf' heq
    have h2 := hlast j i r' r hr' hr hf' hf heq.symm
    omega

theorem told_of_carries {ran : List Ran} {failures : List (String × Exn)}
    (h : Merges (ran.flatMap Ran.entries) failures) (hd : Distinct ran) (hc : Carries ran failures) :
    Told ran := by
  obtain ⟨own, hown, -⟩ := hc
  intro i r hr hf
  obtain ⟨e, he, hlookup⟩ := hown i r hr hf
  refine ⟨own i, List.mem_map_of_mem he, fun r' hr' hl' => ?_⟩
  have hsplit : ran = (ran.take i ++ [r]) ++ ran.drop (i + 1) := by
    rw [List.append_assoc]
    exact split_at hr
  rw [h.lookup, hsplit] at hlookup
  obtain ⟨r'', hr'', he'⟩ := lookup_from ⟨r', hr', hl'⟩ hlookup
  obtain ⟨j, hj⟩ := List.mem_iff_getElem?.mp hr''
  rw [List.getElem?_drop] at hj
  have hij := hd i (i + 1 + j) r r'' (own i) (own i) e hr hj he he'
  omega

/-- A flush runs every queued operation of the tree, each once and in the order of its queue,
    past every failure, and leaves every queue empty. Each required failure has an entry of its
    own in what is raised where it has a label no later failure has, and only there. -/
theorem flush_complete {K V : Type} [DecidableEq K] (c : Composition K V)
    (h : c.Leaves Leaf.Queueless) (s : c.State) (hs : c.Orderly s) :
    (∀ acts idle, c.Idle idle → c.Orderly (runActs c.store acts idle)) ∧
    (c.store.flushIndexSyncs s).2 = (c.ran s).2 ∧ c.Idle (c.ran s).2 ∧
    (∀ path, c.queuedAt s path <+: (((c.ran s).1.filter fun r => r.path = path).map Ran.job) ∧
      ((c.ran s).1.filter fun r => r.path = path).map Ran.position =
        List.range ((c.ran s).1.filter fun r => r.path = path).length) ∧
    ∃ failures, ((failures = [] ∧ (c.store.flushIndexSyncs s).1 = .ok ()) ∨
        ∃ message, failures ≠ [] ∧
          (c.store.flushIndexSyncs s).1 = .error (.partialSync message failures)) ∧
      (Told (c.ran s).1 → Carries (c.ran s).1 failures) ∧
      (Distinct (c.ran s).1 → Carries (c.ran s).1 failures → Told (c.ran s).1) := by
  obtain ⟨⟨failures, hmerges, hres⟩, hstate⟩ := c.flush_ran h s
  exact ⟨fun acts idle hidle => c.orderly_run h acts hidle.orderly, hstate, c.ran_idle s,
    c.ran_at hs, failures, hres, carries_of_told hmerges, told_of_carries hmerges⟩

/-! ## Two copies of a store in the caller's transaction -/

/-- A store whose every write fails. -/
def downLeaf (message : String) : Leaf (List Char) String :=
  ⟨MemoryRoot Char String,
    { (MemoryKvBackend.plain String).store with set := fun _ _ _ => raise (.medium message) }⟩

/-- A copy of a copied store. -/
def copiedTwice (near far : Leaf (List Char) String) : Composition (List Char) String :=
  mirror (mirror (leaf (deferredLeaf (MemoryKvBackend.plain String))) (leaf near) .required)
    (leaf far) .required

/-- What a write leaves to flush. -/
def written (near far : Leaf (List Char) String) (hnear : near.State) (hfar : far.State) :
    (copiedTwice near far).State :=
  runActs (copiedTwice near far).store [.op (.set ['a'] "x" .none)]
    (pairState (pairState (.empty 0) hnear) hfar)

theorem copiedTwice_queueless {near far : Leaf (List Char) String} (hnear : near.Queueless)
    (hfar : far.Queueless) : (copiedTwice near far).Leaves Leaf.Queueless :=
  fun
    | ⟨0, _⟩ => fun
      | ⟨0, _⟩ => (⟨fun _ => rfl, rfl, rfl⟩ : (deferredLeaf (MemoryKvBackend.plain String)).Queueless)
      | ⟨1, _⟩ => hnear
    | ⟨1, _⟩ => hfar

theorem downLeaf_queueless (message : String) : (downLeaf message).Queueless :=
  ⟨fun _ => rfl, rfl, rfl⟩

theorem written_orderly {near far : Leaf (List Char) String} (hnear : near.Queueless)
    (hfar : far.Queueless) (s : near.State) (t : far.State) :
    (copiedTwice near far).Orderly (written near far s t) := by
  refine orderly_run _ (copiedTwice_queueless hnear hfar) _ (Idle.orderly ?_)
  exact ⟨rfl, fun
    | ⟨0, _⟩ => ⟨rfl, fun
      | ⟨0, _⟩ => trivial
      | ⟨1, _⟩ => trivial⟩
    | ⟨1, _⟩ => trivial⟩

/-- The nearer copy fails, the farther does not: the report says so. -/
theorem flush_complete_nearDown :
    let c := copiedTwice (downLeaf "near") (memoryLeaf (MemoryKvBackend.plain String))
    let s : c.State := written _ _ (.empty 0) (.empty 0)
    c.Idle (c.ran s).2 ∧ ∃ message failures,
      (c.store.flushIndexSyncs s).1 = .error (.partialSync message failures) ∧
        Carries (c.ran s).1 failures := by
  intro c s
  have hplain : (memoryLeaf (MemoryKvBackend.plain String)).Queueless := ⟨fun _ => rfl, rfl, rfl⟩
  obtain ⟨-, -, hidle, -, failures, hres, hcarries, -⟩ := flush_complete c
    (copiedTwice_queueless (downLeaf_queueless "near") hplain) s
    (written_orderly (downLeaf_queueless "near") hplain (.empty 0) (.empty 0))
  refine ⟨hidle, ?_⟩
  rcases hres with ⟨-, hok⟩ | ⟨message, -, herror⟩
  · cases hok
  · have hran : (c.ran s).1 =
        [⟨[], 0, "secondary", "set", .required, .ok ()⟩,
          ⟨[0], 0, "secondary", "set", .required, .error (.medium "near")⟩] := rfl
    have htold : Told (c.ran s).1 := by
      rw [hran]
      intro i r hr hf
      match i with
      | 0 =>
        cases hr
        obtain ⟨-, e, he⟩ := hf
        cases he
      | 1 =>
        cases hr
        exact ⟨"set#0:secondary", by decide, fun r' hr' => nomatch hr'⟩
    exact ⟨message, failures, herror, hcarries htold⟩

/-- Both copies down: each fails once, and the report has one label for the two. -/
theorem ran_bothDown :
    let c := copiedTwice (downLeaf "near") (downLeaf "far")
    let s : c.State := written _ _ (.empty 0) (.empty 0)
    (c.ran s).1 =
        [⟨[], 0, "secondary", "set", .required, .error (.medium "far")⟩,
          ⟨[0], 0, "secondary", "set", .required, .error (.medium "near")⟩] ∧
      (c.store.flushIndexSyncs s).1 = .error (.partialSync "deferred index syncs failed after commit"
        [("set#0:secondary", .medium "near")]) :=
  ⟨rfl, rfl⟩

/-- The error of the farther copy is lost. -/
theorem flush_loses : ¬ ∀ (c : Composition (List Char) String) (s : c.State),
    c.Leaves Leaf.Queueless → c.Orderly s → ∃ failures,
      ((failures = [] ∧ (c.store.flushIndexSyncs s).1 = .ok ()) ∨
        ∃ message, (c.store.flushIndexSyncs s).1 = .error (.partialSync message failures)) ∧
      Carries (c.ran s).1 failures := by
  intro hall
  let c := copiedTwice (downLeaf "near") (downLeaf "far")
  let s : c.State := written _ _ (.empty 0) (.empty 0)
  obtain ⟨failures, -, own, hown, happart⟩ := hall c s
    (copiedTwice_queueless (downLeaf_queueless "near") (downLeaf_queueless "far"))
    (written_orderly (downLeaf_queueless "near") (downLeaf_queueless "far") (.empty 0) (.empty 0))
  have hran := ran_bothDown.1
  have hsame : ∀ i r, (c.ran s).1[i]? = some r → r.Failed → own i = "set#0:secondary" := by
    intro i r hr hf
    obtain ⟨e, he, -⟩ := hown i r hr hf
    have hr' : r ∈ [(⟨[], 0, "secondary", "set", .required, .error (.medium "far")⟩ : Ran),
        ⟨[0], 0, "secondary", "set", .required, .error (.medium "near")⟩] :=
      List.mem_of_getElem? (hran ▸ hr)
    rcases List.mem_cons.mp hr' with rfl | hr'
    · exact congrArg Prod.fst (List.mem_singleton.mp he)
    · rw [List.mem_singleton.mp hr'] at he
      exact congrArg Prod.fst (List.mem_singleton.mp he)
  have hfar : (c.ran s).1[0]? = some
      ⟨[], 0, "secondary", "set", .required, .error (.medium "far")⟩ := hran ▸ rfl
  have hnear : (c.ran s).1[1]? = some
      ⟨[0], 0, "secondary", "set", .required, .error (.medium "near")⟩ := hran ▸ rfl
  have heq := (hsame 0 _ hfar ⟨rfl, _, rfl⟩).trans (hsame 1 _ hnear ⟨rfl, _, rfl⟩).symm
  exact absurd (happart 0 1 _ _ hfar hnear ⟨rfl, _, rfl⟩ ⟨rfl, _, rfl⟩ heq) (by decide)

end Composition

end Kvtsjl
