import Kvtsjl.DictMap
import Kvtsjl.Logged
import Kvtsjl.OpSteps

/-
  The order in which an operation reaches a record's targets.
  On a write: every component before the authority, every committing target before any
  dependent. On a removal: the authority before anything else. A conditional write
  reaches a dependent only for the keys the authority wrote. A fallback is never
  written or removed. `Allowed` says this of one deed and the log before it.
  `commit_order` says it of every operation and of every flush, over any targets.
-/

namespace Kvtsjl

open Assoc (Dict)
open Effects Prog
open OpSteps (mem_dependents mem_components mem_removedAfterCommit)

/-! ## What is done to a target -/

/-- A write or removal, done or waiting: the target's role and the keys. -/
structure TargetDeed (K : Type) where
  role : Role
  put : List K
  removed : List K

def Event.deed {K : Type} (e : Event K) : TargetDeed K := ⟨e.role, e.put, e.removed⟩

def SyncOp.puts {K V : Type} : SyncOp K V → List K
  | .write key _ _ => [key]
  | .batchWrite items _ => items.keys
  | _ => []

def SyncOp.removals {K V : Type} : SyncOp K V → List K
  | .delete key => [key]
  | .unset key => [key]
  | .batchDelete keys => keys
  | .batchUnset keys => keys
  | _ => []

def Queued.deed {S K V P : Type} (q : Queued S K V P) : TargetDeed K :=
  ⟨q.target.role, q.op.puts, q.op.removals⟩

/-- The target at the place has written the key. -/
def Wrote {K : Type} (log : List (Event K)) (place : Nat) (k : K) : Prop :=
  ∃ e ∈ log, e.place = place ∧ k ∈ e.put ∧ k ∈ e.done

/-- The target at the place has removed the key. -/
def RemovedAt {K : Type} (log : List (Event K)) (place : Nat) (k : K) : Prop :=
  ∃ e ∈ log, e.place = place ∧ k ∈ e.removed ∧ k ∈ e.done

theorem Wrote.mono {K : Type} {l m : List (Event K)} {i : Nat} {k : K} (h : Wrote l i k)
    (hs : l ⊆ m) : Wrote m i k := by
  obtain ⟨e, he, h⟩ := h
  exact ⟨e, hs he, h⟩

theorem RemovedAt.mono {K : Type} {l m : List (Event K)} {i : Nat} {k : K}
    (h : RemovedAt l i k) (hs : l ⊆ m) : RemovedAt m i k := by
  obtain ⟨e, he, h⟩ := h
  exact ⟨e, hs he, h⟩

/-- The deed is in order after the log. `needs t k` says the operation writes `k` to
    the component `t` at all: a conditional write leaves an unchanged part alone. -/
structure Allowed {S K V P : Type} (places : List (AnyTarget S K V P × Nat))
    (needs : AnyTarget S K V P → K → Prop) (before : List (Event K)) (d : TargetDeed K) : Prop where
  componentsFirst : d.role = .authority → ∀ k ∈ d.put, ∀ p ∈ places,
    p.1.role = .component → needs p.1 k → Wrote before p.2 k
  committedFirst : d.role = .dependent → ∀ k ∈ d.put, ∀ p ∈ places,
    p.1.role = .authority ∨ p.1.role = .component ∧ needs p.1 k → Wrote before p.2 k
  authorityRemoved : d.role = .component ∨ d.role = .dependent → ∀ k ∈ d.removed, ∀ p ∈ places,
    p.1.role = .authority → RemovedAt before p.2 k
  noFallback : d.role ≠ .fallback

theorem Allowed.mono {S K V P : Type} {places : List (AnyTarget S K V P × Nat)}
    {needs : AnyTarget S K V P → K → Prop} {l m : List (Event K)} {d : TargetDeed K}
    (h : Allowed places needs l d) (hs : l ⊆ m) : Allowed places needs m d where
  componentsFirst hr k hk p hp hc hn := (h.componentsFirst hr k hk p hp hc hn).mono hs
  committedFirst hr k hk p hp hc := (h.committedFirst hr k hk p hp hc).mono hs
  authorityRemoved hr k hk p hp hc := (h.authorityRemoved hr k hk p hp hc).mono hs
  noFallback := h.noFallback

/-- Every event of a log is in order after those before it, and so is what was queued
    after the whole of it. -/
structure InOrder {S K V P : Type} (places : List (AnyTarget S K V P × Nat))
    (needs : AnyTarget S K V P → K → Prop) (log : List (Event K))
    (queued : List (TargetDeed K)) : Prop where
  ran : Guarded (fun before e => Allowed places needs before e.deed) log
  waits : ∀ d ∈ queued, Allowed places needs log d

theorem InOrder.append {S K V P : Type} {places : List (AnyTarget S K V P × Nat)}
    {needs : AnyTarget S K V P → K → Prop} {l l' : List (Event K)} {q q' : List (TargetDeed K)}
    (h : InOrder places needs l q) (hl : ∀ e ∈ l', Allowed places needs l e.deed)
    (hq : ∀ d ∈ q', Allowed places needs l d) : InOrder places needs (l ++ l') (q ++ q') where
  ran := h.ran.append (fun _ _ _ ha => ha.mono (List.subset_append_left _ _)) hl
  waits := by
    intro d hd
    rcases List.mem_append.mp hd with hd | hd
    · exact (h.waits d hd).mono (List.subset_append_left _ _)
    · exact (hq d hd).mono (List.subset_append_left _ _)

theorem inOrder_nil {S K V P : Type} {places : List (AnyTarget S K V P × Nat)}
    {needs : AnyTarget S K V P → K → Prop} : InOrder places needs [] [] :=
  ⟨guarded_nil, by simp⟩

/-- A component's write is always in order. -/
theorem allowed_component {S K V P : Type} {places : List (AnyTarget S K V P × Nat)}
    {needs : AnyTarget S K V P → K → Prop} {l : List (Event K)} {d : TargetDeed K}
    (hr : d.role = .component) (hd : d.removed = []) : Allowed places needs l d where
  componentsFirst h := by rw [hr] at h; cases h
  committedFirst h := by rw [hr] at h; cases h
  authorityRemoved _ k hk := by rw [hd] at hk; cases hk
  noFallback h := by rw [hr] at h; cases h

/-- Component writes alone are in order. -/
theorem inOrder_components {S K V P : Type} {places : List (AnyTarget S K V P × Nat)}
    {needs : AnyTarget S K V P → K → Prop} {l : List (Event K)}
    (h : ∀ e ∈ l, e.role = .component ∧ e.removed = []) : InOrder places needs l [] where
  ran := Guarded.of_forall fun _ e he => allowed_component (h e he).1 (h e he).2
  waits := by simp

/-- Events in order after the whole log, nothing queued. -/
theorem InOrder.extend {S K V P : Type} {places : List (AnyTarget S K V P × Nat)}
    {needs : AnyTarget S K V P → K → Prop} {l l' : List (Event K)}
    (h : InOrder places needs l []) (hl : ∀ e ∈ l', Allowed places needs l e.deed) :
    InOrder places needs (l ++ l') [] := by
  have hq : ∀ d ∈ ([] : List (TargetDeed K)), Allowed places needs l d := by simp
  simpa using h.append hl hq

/-- The authority's write is in order after every component it needs. -/
theorem allowed_authority {S K V P : Type} {places : List (AnyTarget S K V P × Nat)}
    {needs : AnyTarget S K V P → K → Prop} {l : List (Event K)} {d : TargetDeed K}
    (hr : d.role = .authority)
    (h : ∀ k ∈ d.put, ∀ p ∈ places, p.1.role = .component → needs p.1 k → Wrote l p.2 k) :
    Allowed places needs l d where
  componentsFirst _ := h
  committedFirst h := by rw [hr] at h; cases h
  authorityRemoved h := by rw [hr] at h; rcases h with h | h <;> cases h
  noFallback h := by rw [hr] at h; cases h

/-- A dependent's write is in order after every committing target. -/
theorem allowed_dependent {S K V P : Type} {places : List (AnyTarget S K V P × Nat)}
    {needs : AnyTarget S K V P → K → Prop} {l : List (Event K)} {d : TargetDeed K}
    (hr : d.role = .dependent) (hd : d.removed = [])
    (h : ∀ k ∈ d.put, ∀ p ∈ places,
      p.1.role = .authority ∨ p.1.role = .component ∧ needs p.1 k → Wrote l p.2 k) :
    Allowed places needs l d where
  componentsFirst h := by rw [hr] at h; cases h
  committedFirst _ := h
  authorityRemoved _ k hk := by rw [hd] at hk; cases hk
  noFallback h := by rw [hr] at h; cases h

/-- What is removed after the authority is in order once the authority has removed it. -/
theorem allowed_removal {S K V P : Type} {places : List (AnyTarget S K V P × Nat)}
    {needs : AnyTarget S K V P → K → Prop} {l : List (Event K)} {d : TargetDeed K}
    (hr : d.role = .component ∨ d.role = .dependent) (hd : d.put = [])
    (h : ∀ k ∈ d.removed, ∀ p ∈ places, p.1.role = .authority → RemovedAt l p.2 k) :
    Allowed places needs l d where
  componentsFirst _ k hk := by rw [hd] at hk; cases hk
  committedFirst _ k hk := by rw [hd] at hk; cases hk
  authorityRemoved _ := h
  noFallback h' := by rw [h'] at hr; rcases hr with hr | hr <;> cases hr

/-! ## What one step of a loop adds -/

section Steps

variable {S K V P α : Type}

/-- The log and the queue of a node over logging targets. -/
abbrev events (n : Node (Logged S K) K V P) : List (Event K) := n.media.2

abbrev waiting (n : Node (Logged S K) K V P) : List (Queued (Logged S K) K V P) := n.syncs

variable {m : M (Logged S K) α} {ev : Except Exn α → Event K}

theorem emits_onMedia (h : Records m ev) :
    Emits events waiting (Node.onMedia m : M (Node (Logged S K) K V P) α)
      fun r l q => l = [ev r] ∧ q = [] := by
  intro n
  exact ⟨[ev (m n.media).1], [], h n.media, by simp [Node.onMedia_apply], rfl, rfl⟩

/-- A handler that touches nothing leaves the one event of what it handles. -/
theorem emits_catching (h : Records m ev) (handler : Exn → M (Logged S K) α)
    (hh : ∀ e s, (handler e s).2 = s) :
    Emits events waiting (Node.onMedia (catching m handler) : M (Node (Logged S K) K V P) α)
      fun r l q => q = [] ∧ ∃ r0, l = [ev r0] ∧
        ((∃ a, r0 = .ok a ∧ r = .ok a) ∨ ∃ e s, r0 = .error e ∧ r = (handler e s).1) := by
  intro n
  have hl := h n.media
  rcases hm : m n.media with ⟨e | a, s⟩ <;> rw [hm] at hl
  · refine ⟨[ev (.error e)], [], ?_, by simp [Node.onMedia_apply], rfl, _, rfl, ?_⟩
    · rw [Node.onMedia_apply, catching_error hm]
      show (handler e s).2.2 = _
      rw [hh]; exact hl
    · right
      refine ⟨e, s, rfl, ?_⟩
      rw [Node.onMedia_apply, catching_error hm]
  · refine ⟨[ev (.ok a)], [], ?_, by simp [Node.onMedia_apply], rfl, _, rfl, ?_⟩
    · rw [Node.onMedia_apply, catching_ok hm]; exact hl
    · left
      refine ⟨a, rfl, ?_⟩
      rw [Node.onMedia_apply, catching_ok hm]

/-- A committing step that returns is one whose target returned. -/
theorem emits_runCommitting (h : Records m ev) (name : String) (role : Role) :
    Emits events waiting (Node.onMedia (runCommitting name role m) : M (Node (Logged S K) K V P) α)
      fun r l q => q = [] ∧ ∃ r0, l = [ev r0] ∧ ∀ a, r = .ok a → r0 = .ok a := by
  refine (emits_catching h _ ?_).weaken ?_
  · intro e s
    split <;> rfl
  · rintro r l q ⟨hq, r0, hl, hr⟩
    refine ⟨hq, r0, hl, ?_⟩
    rintro a rfl
    rcases hr with ⟨b, hb, hab⟩ | ⟨e, s, -, hr⟩
    · rw [hb, hab]
    · split at hr <;> cases hr

theorem emits_settle (h : Records m ev) (name what : String) (policy : SyncPolicy)
    (beforeCommit : Bool) (otherwise : α) :
    Emits events waiting
      (Node.onMedia (settle name what policy beforeCommit otherwise m) :
        M (Node (Logged S K) K V P) α)
      fun _ l q => q = [] ∧ ∃ r0, l = [ev r0] := by
  refine (emits_catching h _ ?_).weaken ?_
  · intro e s
    split_ifs <;> rfl
  · rintro r l q ⟨hq, r0, hl, -⟩
    exact ⟨hq, r0, hl⟩

theorem wholeEvent_deed (i : Nat) (role : Role) (put removed : List K) (r : Except Exn α) :
    (wholeEvent i role put removed r).deed = ⟨role, put, removed⟩ := by
  cases r <;> rfl

theorem wholeEvent_place (i : Nat) (role : Role) (put removed : List K) (r : Except Exn α) :
    (wholeEvent i role put removed r).place = i := by
  cases r <;> rfl

theorem records_discard {i : Nat} {role : Role} {put removed : List K}
    (h : Records m (wholeEvent i role put removed)) :
    Records (Functor.discard m) (wholeEvent i role put removed) := by
  intro s
  have hs := h s
  rw [discard_apply]
  rcases hm : m s with ⟨e | a, s'⟩ <;> rw [hm] at hs <;> exact hs

variable [DecidableEq K]

theorem LogsAt.on {i : Nat} {t : AnyTarget (Logged S K) K V P} (h : LogsAt i t)
    (op : SyncOp K V) : Records (op.on t) (wholeEvent i t.role op.puts op.removals) := by
  cases op with
  | write key value options => exact h.write _ _ _
  | batchWrite items options => exact h.batchWrite _ _
  | delete key => exact records_discard (h.delete key)
  | unset key => exact records_discard (h.unset key)
  | batchDelete keys => exact records_discard (h.batchDelete keys)
  | batchUnset keys => exact records_discard (h.batchUnset keys)

/-- What follows the commit point is run or queued, as the one deed it is. -/
theorem emits_syncOne (T : Topology (Logged S K) K V P) {i : Nat}
    {t : AnyTarget (Logged S K) K V P} (h : LogsAt i t) (what : String) (op : SyncOp K V)
    (policy : Option SyncPolicy) :
    Emits events waiting (T.syncOne t what op policy) fun _ l q =>
      (∀ e ∈ l, e.deed = ⟨t.role, op.puts, op.removals⟩) ∧
      (∀ x ∈ q, x.deed = ⟨t.role, op.puts, op.removals⟩) := by
  unfold Topology.syncOne Topology.runSync
  split
  · intro n
    refine ⟨[], [⟨t.name, what, policy.getD t.policy, t, op⟩], by simp [Node.enqueue_apply], rfl,
      by simp, ?_⟩
    simp [Queued.deed]
  · refine (emits_settle (h.on op) _ _ _ _ _).weaken ?_
    rintro r l q ⟨rfl, r0, rfl⟩
    simp [wholeEvent_deed]

end Steps

/-! ## Loops over the targets of one role -/

section Loops

variable {S K V P : Type} [DecidableEq K]

/-- A loop over the targets of one role, whose steps write `keys`. Once it returns, the
    target at each place of the role has written what its step writes. -/
theorem emits_role (T : Topology S K V P) (ρ : Role) (F : Event K → Prop)
    (keys : AnyTarget (Logged S K) K V P → List K)
    (step : AnyTarget (Logged S K) K V P → M (Node (Logged S K) K V P) PUnit)
    (hstep : ∀ t p, Stands p t → Emits events waiting (step t) fun r l q =>
      (∀ e ∈ l, e.role = t.role ∧ F e) ∧ (∀ x ∈ q, False) ∧
        (r = .ok ⟨⟩ → ∀ k ∈ keys t, Wrote l p.2 k)) :
    Emits events waiting (forM (T.tagged.all.filter fun t => t.role = ρ) step) fun r l q =>
      (∀ e ∈ l, e.role = ρ ∧ F e) ∧ q = [] ∧
        (r = .ok ⟨⟩ → ∀ p ∈ T.all.zipIdx, ∀ t, Stands p t → t ∈ T.tagged.all → p.1.role = ρ →
          ∀ k ∈ keys t, Wrote l p.2 k) := by
  refine (Emits.forM (fun e => e.role = ρ ∧ F e) (fun _ => False)
    (fun t l => ∀ p, Stands p t → ∀ k ∈ keys t, Wrote l p.2 k) ?_ ?_).weaken ?_
  · intro t l l' l'' h p hs k hk
    exact (h p hs k hk).mono fun e he => by simp [he]
  · intro t ht
    obtain ⟨hmem, hρ⟩ := List.mem_filter.mp ht
    obtain ⟨p, -, hs⟩ := tagged_logs hmem
    have : Nonempty { p // Stands p t } := ⟨⟨p, hs⟩⟩
    refine (Emits.all fun p : { p // Stands p t } => hstep t p.1 p.2).weaken ?_
    intro r l q h
    refine ⟨?_, (h ⟨p, hs⟩).2.1, ?_⟩
    · intro e he
      obtain ⟨hr, hF⟩ := (h ⟨p, hs⟩).1 e he
      exact ⟨hr.trans (by simpa using hρ), hF⟩
    · intro hr p' hs' k hk
      exact (h ⟨p', hs'⟩).2.2 hr k hk
  · rintro r l q ⟨hl, hq, hd⟩
    refine ⟨hl, List.eq_nil_iff_forall_not_mem.mpr hq, ?_⟩
    intro hr p _ t hs ht hρ k hk
    exact hd hr t (List.mem_filter.mpr ⟨ht, by simp [hs.role, hρ]⟩) p hs k hk

theorem byRole_committing (T : Topology S K V P) :
    T.committing = (T.all.filter fun t => t.role = .component)
      ++ T.all.filter fun t => t.role = .authority := by
  simp [Topology.committing, Topology.byRole]

/-- The committing targets, in order, each writing `keys`. -/
theorem emits_commit (T : Topology S K V P) (keys : List K)
    (step : AnyTarget (Logged S K) K V P → M (Node (Logged S K) K V P) PUnit)
    (hstep : ∀ t p, Stands p t → Emits events waiting (step t) fun r l q =>
      (∀ e ∈ l, e.deed = ⟨t.role, keys, []⟩) ∧ (∀ x ∈ q, False) ∧
        (r = .ok ⟨⟩ → ∀ k ∈ keys, Wrote l p.2 k)) :
    Emits events waiting (forM T.tagged.committing step) fun r l q =>
      InOrder T.all.zipIdx (fun _ _ => True) l [] ∧ q = [] ∧
        (r = .ok ⟨⟩ → ∀ p ∈ T.all.zipIdx,
          p.1.role = .authority ∨ p.1.role = .component ∧ True → ∀ k ∈ keys, Wrote l p.2 k) := by
  have hrole : ∀ ρ, Emits events waiting
      (forM (T.tagged.all.filter fun t => t.role = ρ) step) fun r l q =>
        (∀ e ∈ l, e.deed = ⟨ρ, keys, []⟩) ∧ q = [] ∧
        (r = .ok ⟨⟩ → ∀ p ∈ T.all.zipIdx, p.1.role = ρ → ∀ k ∈ keys, Wrote l p.2 k) := by
    intro ρ
    refine (emits_role T ρ (fun e => e.put = keys ∧ e.removed = []) (fun _ => keys) step
      ?_).weaken ?_
    · intro t p hs
      refine (hstep t p hs).weaken ?_
      rintro r l q ⟨h1, h2, h3⟩
      refine ⟨?_, h2, h3⟩
      intro e he
      have := h1 e he
      simp only [Event.deed, TargetDeed.mk.injEq] at this
      exact ⟨this.1, this.2⟩
    · rintro r l q ⟨h1, h2, h3⟩
      refine ⟨?_, h2, ?_⟩
      · intro e he
        obtain ⟨hr, hp, hm⟩ := h1 e he
        simp [Event.deed, hr, hp, hm]
      · intro hr p hp hρ
        obtain ⟨t, ht, hs⟩ := tagged_of_mem hp
        exact h3 hr p hp t hs ht hρ
  rw [byRole_committing, List.forM_append]
  refine (hrole .component).bind ?_ ?_
  · rintro _ l q ⟨h1, rfl, h3⟩
    have hin : InOrder T.all.zipIdx (fun _ _ => True) l [] :=
      inOrder_components fun e he => by
        have := h1 e he
        simp only [Event.deed, TargetDeed.mk.injEq] at this
        exact ⟨this.1, this.2.2⟩
    refine (hrole .authority).weaken ?_
    rintro r l' q' ⟨h1', rfl, h3'⟩
    refine ⟨hin.extend ?_, rfl, ?_⟩
    · intro e he
      refine allowed_authority (by rw [h1' e he]) ?_
      intro k hk p hp hc _
      rw [h1' e he] at hk
      exact h3 rfl p hp hc k hk
    · rintro hr p hp (ha | ⟨hc, -⟩) k hk
      · exact (h3' hr p hp ha k hk).mono (List.subset_append_right _ _)
      · exact (h3 rfl p hp hc k hk).mono (List.subset_append_left _ _)
  · rintro e l q ⟨h1, rfl, -⟩
    refine ⟨inOrder_components fun e he => ?_, rfl, by simp⟩
    have := h1 e he
    simp only [Event.deed, TargetDeed.mk.injEq] at this
    exact ⟨this.1, this.2.2⟩

/-- Targets reached after the commit point, each by one deed that is in order by then. -/
theorem emits_after (T : Topology S K V P) (needs : AnyTarget S K V P → K → Prop)
    (log : List (Event K)) (ts : List (AnyTarget (Logged S K) K V P)) (hts : ∀ t ∈ ts, t ∈ T.tagged.all)
    (what : String) (op : SyncOp K V) (policy : Option SyncPolicy)
    (hop : ∀ t ∈ ts, Allowed T.all.zipIdx needs log ⟨t.role, op.puts, op.removals⟩) :
    Emits events waiting (forM ts fun t => T.tagged.syncOne t what op policy) fun _ l q =>
      (∀ e ∈ l, Allowed T.all.zipIdx needs log e.deed) ∧
        (∀ d ∈ q.map Queued.deed, Allowed T.all.zipIdx needs log d) := by
  refine (Emits.forM (fun e => Allowed T.all.zipIdx needs log e.deed)
    (fun x => Allowed T.all.zipIdx needs log x.deed) (fun _ _ => True) ?_ ?_).weaken ?_
  · simp
  · intro t ht
    obtain ⟨p, -, hs⟩ := tagged_logs (hts t ht)
    refine (emits_syncOne _ hs.logs what op policy).weaken ?_
    rintro r l q ⟨h1, h2⟩
    refine ⟨?_, ?_, fun _ => trivial⟩
    · intro e he
      rw [h1 e he]; exact hop t ht
    · intro x hx
      rw [h2 x hx]; exact hop t ht
  · rintro r l q ⟨h1, h2, -⟩
    refine ⟨h1, ?_⟩
    intro d hd
    obtain ⟨x, hx, rfl⟩ := List.mem_map.mp hd
    exact h2 x hx

end Loops

/-! ## The operations -/

section Operations

variable {S K V P : Type}

/-- A whole-event step of the commit, as `emits_commit` asks for it. -/
theorem emits_commitStep {p : AnyTarget S K V P × Nat} {t : AnyTarget (Logged S K) K V P}
    {m : M (Logged S K) PUnit} {keys : List K}
    (h : Records m (wholeEvent p.2 t.role keys [])) :
    Emits events waiting (Node.onMedia (runCommitting t.name t.role m) :
        M (Node (Logged S K) K V P) PUnit) fun r l q =>
      (∀ e ∈ l, e.deed = ⟨t.role, keys, []⟩) ∧ (∀ x ∈ q, False) ∧
        (r = .ok ⟨⟩ → ∀ k ∈ keys, Wrote l p.2 k) := by
  refine (emits_runCommitting h _ _).weaken ?_
  rintro r l q ⟨rfl, r0, rfl, hr⟩
  refine ⟨by simp [wholeEvent_deed], by simp, ?_⟩
  intro hok k hk
  rw [hr _ hok]
  exact ⟨_, List.mem_singleton.mpr rfl, rfl, hk, by simpa [wholeEvent] using hk⟩

variable [DecidableEq K]

/-- Nothing has been logged or queued yet, and what follows is in order. -/
theorem emits_commit_then (T : Topology S K V P) (keys : List K) (what : String)
    (op : SyncOp K V) (hp : op.puts = keys) (hr : op.removals = [])
    (step : AnyTarget (Logged S K) K V P → M (Node (Logged S K) K V P) PUnit)
    (hstep : ∀ t p, Stands p t → Emits events waiting (step t) fun r l q =>
      (∀ e ∈ l, e.deed = ⟨t.role, keys, []⟩) ∧ (∀ x ∈ q, False) ∧
        (r = .ok ⟨⟩ → ∀ k ∈ keys, Wrote l p.2 k)) :
    Emits events waiting (forM T.tagged.committing step >>= fun _ =>
      T.tagged.toDependents what op none) fun _ l q =>
        InOrder T.all.zipIdx (fun _ _ => True) l (q.map Queued.deed) := by
  refine (emits_commit T keys step hstep).bind ?_ ?_
  · rintro _ l q ⟨hin, rfl, hw⟩
    refine (emits_after T (fun _ _ => True) l _ ?_ what op none ?_).weaken ?_
    · exact fun t ht => (mem_dependents.mp ht).1
    · intro t ht
      refine allowed_dependent (mem_dependents.mp ht).2 hr ?_
      intro k hk p hpp hc
      exact hw rfl p hpp hc k (by rwa [← hp])
    · rintro r l' q' ⟨h1, h2⟩
      simpa using hin.append h1 h2
  · rintro e l q ⟨hin, rfl, -⟩
    simpa using hin

theorem write_inOrder (T : Topology S K V P) (key : K) (value : V) (options : WriteOptions) :
    Emits events waiting (T.tagged.write key value options) fun _ l q =>
      InOrder T.all.zipIdx (fun _ _ => True) l (q.map Queued.deed) :=
  emits_commit_then T [key] "set" (.write key value options) rfl rfl _
    fun _ _ hs => emits_commitStep (hs.logs.write _ _ _)

theorem batchWrite_inOrder (T : Topology S K V P) (items : Dict K V) (options : WriteOptions) :
    Emits events waiting (T.tagged.batchWrite items options) fun _ l q =>
      InOrder T.all.zipIdx (fun _ _ => True) l (q.map Queued.deed) := by
  unfold Topology.batchWrite
  refine Emits.when ?_ inOrder_nil
  exact emits_commit_then T items.keys "batch set" (.batchWrite items options) rfl rfl _
    fun _ _ hs => emits_commitStep (hs.logs.batchWrite _ _)

/-! ## Removals -/

/-- There is one authority, so it stands for every place of that role. -/
theorem stands_authority {T : Topology S K V P} (hT : T.Accepted)
    {t : AnyTarget (Logged S K) K V P} (ht : t ∈ T.tagged.all) (hr : t.role = .authority)
    {p : AnyTarget S K V P × Nat} (hp : p ∈ T.all.zipIdx) (hpr : p.1.role = .authority) :
    Stands p t := by
  obtain ⟨u, hu, hs⟩ := tagged_of_mem hp
  have hone : (T.tagged.all.filter fun t => t.role = .authority).length ≤ 1 := by
    have hcount := hT.oneAuthority
    rw [← List.countP_eq_length_filter] at hcount ⊢
    have h := congrArg (List.countP fun r => decide (r = Role.authority)) (tagged_roles T)
    rw [List.countP_map, List.countP_map] at h
    exact le_of_eq_of_le h hcount
  have hu' : u ∈ T.tagged.all.filter fun t => t.role = .authority :=
    List.mem_filter.mpr ⟨hu, decide_eq_true (hs.role.trans hpr)⟩
  have ht' : t ∈ T.tagged.all.filter fun t => t.role = .authority :=
    List.mem_filter.mpr ⟨ht, decide_eq_true hr⟩
  generalize T.tagged.all.filter (fun t => t.role = .authority) = l at hone hu' ht'
  obtain ⟨a, rfl⟩ : ∃ a, l = [a] := by
    cases l with
    | nil => cases ht'
    | cons a l =>
      have hl : l = [] := by simpa using hone
      exact ⟨a, by rw [hl]⟩
  rw [List.mem_singleton] at hu' ht'
  rwa [ht', ← hu']

theorem no_authority {T : Topology S K V P} (h : T.tagged.authority = none)
    {p : AnyTarget S K V P × Nat} (hp : p ∈ T.all.zipIdx) : p.1.role ≠ .authority := by
  intro hr
  obtain ⟨t, ht, hs⟩ := tagged_of_mem hp
  have := List.find?_eq_none.mp h t ht
  simp [hs.role, hr] at this

/-- Removals of one key or one batch, by the targets removed at once and then by the rest. -/
theorem removal_inOrder {T : Topology S K V P} (hT : T.Accepted) {α β : Type} (keys : List K)
    (now : AnyTarget (Logged S K) K V P → M (Logged S K) α)
    (hnow : ∀ t p, Stands p t → Records (now t) (wholeEvent p.2 t.role [] keys))
    (what : String) (op : SyncOp K V) (hp : op.puts = []) (hr : op.removals = keys)
    (policy : Option SyncPolicy) (finish : List α → β) :
    Emits events waiting (do
        let removed ← T.tagged.removedNow.mapM fun t => Node.onMedia (now t)
        forM T.tagged.removedAfterCommit fun t => T.tagged.syncOne t what op policy
        return finish removed) fun _ l q =>
      InOrder T.all.zipIdx (fun _ _ => True) l (q.map Queued.deed) := by
  have hlater : ∀ (log : List (Event K)),
      InOrder T.all.zipIdx (fun _ _ => True) log [] →
      (∀ k ∈ keys, ∀ p ∈ T.all.zipIdx, p.1.role = .authority → RemovedAt log p.2 k) →
      ∀ removed, Emits events waiting (do
        forM T.tagged.removedAfterCommit fun t => T.tagged.syncOne t what op policy
        return finish removed) fun _ l q =>
      InOrder T.all.zipIdx (fun _ _ => True) (log ++ l) (q.map Queued.deed) := by
    intro log hin hrem removed
    refine (emits_after T (fun _ _ => True) log _ (fun t ht => (mem_removedAfterCommit ht).1)
      what op policy ?_).bind ?_ ?_
    · intro t ht
      refine allowed_removal (mem_removedAfterCommit ht).2 hp ?_
      rwa [hr]
    · rintro _ l q ⟨h1, h2⟩
      exact Emits.pure _ (by simpa using hin.append h1 h2)
    · rintro e l q ⟨h1, h2⟩
      simpa using hin.append h1 h2
  cases ha : T.tagged.authority with
  | some authority =>
    have hmem : authority ∈ T.tagged.all := List.mem_of_find?_eq_some ha
    have hrole : authority.role = .authority := by
      simpa using List.find?_some ha
    obtain ⟨p0, -, hs0⟩ := tagged_logs hmem
    have : Nonempty { p // Stands p authority } := ⟨⟨p0, hs0⟩⟩
    have hin : ∀ r : Except Exn α, InOrder T.all.zipIdx (fun _ _ => True)
        [wholeEvent p0.2 authority.role [] keys r] [] := by
      intro r
      refine inOrder_nil.extend ?_
      intro e he
      rw [List.mem_singleton.mp he, wholeEvent_deed]
      exact allowed_authority hrole (by simp)
    simp only [Topology.removedNow, ha, List.mapM_cons, List.mapM_nil, pure_bind, bind_assoc]
    refine (Emits.all fun p : { p // Stands p authority } =>
      emits_onMedia (hnow authority p.1 p.2)).bind ?_ ?_
    · intro a l q h
      obtain ⟨rfl, rfl⟩ := h ⟨p0, hs0⟩
      refine (hlater _ (hin (.ok a)) ?_ [a]).weaken fun _ _ _ h => by simpa using h
      intro k hk p hpp hpr
      have hs := stands_authority hT hmem hrole hpp hpr
      rw [(h ⟨p, hs⟩).1]
      exact ⟨_, List.mem_singleton.mpr rfl, rfl, hk, hk⟩
    · intro e l q h
      obtain ⟨rfl, rfl⟩ := h ⟨p0, hs0⟩
      exact hin _
  | none =>
    have hvac : ∀ (log : List (Event K)) k, k ∈ keys → ∀ p ∈ T.all.zipIdx,
        p.1.role = .authority → RemovedAt log p.2 k :=
      fun _ _ _ p hp hr => absurd hr (no_authority ha hp)
    simp only [Topology.removedNow, ha]
    refine (Emits.mapM (fun e => e.deed = ⟨.component, [], keys⟩)
      (fun _ => False) ?_).bind ?_ ?_
    · intro t ht
      obtain ⟨hmem, hρ⟩ := mem_components ht
      obtain ⟨p, -, hs⟩ := tagged_logs hmem
      refine (emits_onMedia (hnow t p hs)).weaken ?_
      rintro r l q ⟨rfl, rfl⟩
      refine ⟨?_, by simp⟩
      intro e he
      rw [List.mem_singleton.mp he, wholeEvent_deed, hρ]
    · rintro removed l q ⟨h1, h2⟩
      have hq : q = [] := List.eq_nil_iff_forall_not_mem.mpr h2
      subst hq
      refine (hlater l ?_ (hvac l) removed).weaken fun _ _ _ h => by simpa using h
      refine ⟨Guarded.of_forall fun before e he => ?_, by simp⟩
      rw [h1 e he]
      exact allowed_removal (.inl rfl) rfl (hvac before)
    · rintro e l q ⟨h1, h2⟩
      have hq : q = [] := List.eq_nil_iff_forall_not_mem.mpr h2
      subst hq
      refine ⟨Guarded.of_forall fun before e he => ?_, by simp⟩
      rw [h1 e he]
      exact allowed_removal (.inl rfl) rfl (hvac before)

theorem remove_inOrder {T : Topology S K V P} (hT : T.Accepted) (r : Topology.Removal) (key : K) :
    Emits events waiting (T.tagged.remove r key) fun _ l q =>
      InOrder T.all.zipIdx (fun _ _ => True) l (q.map Queued.deed) := by
  refine removal_inOrder hT [key] (fun t => r.point t key) ?_ r.what (r.pointOp key) ?_ ?_ none
    fun removed => if T.tagged.authority.isSome then removed.headD false else removed.any id
  · intro t p hs
    cases r
    · exact hs.logs.delete key
    · exact hs.logs.unset key
  · cases r <;> rfl
  · cases r <;> rfl

/-- A probe of the media a logging target answers without logging. -/
theorem silent_heldBefore (T : Topology S K V P) (keys : List K) :
    Moves SameLog (T.tagged.heldBefore keys) := by
  unfold Topology.heldBefore
  split
  · refine Moves.foldlM (fun held t ht => ?_) _
    obtain ⟨p, -, hs⟩ := tagged_logs (mem_components ht).1
    exact (hs.logs.batchExists keys).bind fun _ => Moves.pure _
  · exact Moves.pure _

theorem batchRemove_inOrder {T : Topology S K V P} (hT : T.Accepted) (r : Topology.Removal)
    (keys : List K) (policy : Option SyncPolicy) :
    Emits events waiting (T.tagged.batchRemove r keys policy) fun _ l q =>
      InOrder T.all.zipIdx (fun _ _ => True) l (q.map Queued.deed) := by
  have hrem := fun held : Finset K => removal_inOrder hT (Dict.unique keys)
    (fun t => r.batch t (Dict.unique keys)) (by
      intro t p hs
      cases r
      · exact hs.logs.batchDelete _
      · exact hs.logs.batchUnset _)
    r.batchWhat (r.batchOp (Dict.unique keys)) (by cases r <;> rfl) (by cases r <;> rfl) policy
    fun counts => if T.tagged.authority.isSome then counts.headD 0 else held.card
  unfold Topology.batchRemove
  split
  · exact Emits.pure _ inOrder_nil
  · have hsilent : Emits events waiting
        (Node.onMedia (T.tagged.heldBefore (Dict.unique keys)) : M (Node (Logged S K) K V P) _)
        fun _ l q => l = [] ∧ q = [] := by
      refine Emits.silent ?_ (by simp)
      intro n
      exact ⟨silent_heldBefore T _ n.media, rfl⟩
    refine hsilent.bind ?_ ?_
    · rintro held l q ⟨rfl, rfl⟩
      exact (hrem held).weaken fun _ _ _ h => by simpa using h
    · rintro e l q ⟨rfl, rfl⟩
      exact inOrder_nil

/-! ## Conditional writes -/

theorem mem_filter_keys {α : Type} {d : Dict K α} {p : K → α → Bool} {k : K} :
    k ∈ (d.filter p).keys ↔ ∃ v, d.get? k = some v ∧ p k v := by
  rw [Dict.mem_keys]
  constructor
  · rintro ⟨v, hv⟩
    rw [Dict.get?_filter, Option.filter_eq_some_iff] at hv
    exact ⟨v, hv⟩
  · rintro ⟨v, hv⟩
    exact ⟨v, by rw [Dict.get?_filter, Option.filter_eq_some_iff]; exact hv⟩

/-- A conditional batch changes what a target holds of a record: it stores the record as
    new, or with another part there than the one it was decided from. -/
def Changes (writes : Dict K (ConditionalWrite V)) (t : AnyTarget S K V P) (k : K) : Prop :=
  ∃ w after, writes.get? k = some w ∧ w.change = .put after ∧ ∀ before, w.seen.value = some before →
    w.seen.version.isSome → t.holdsSame before after = false

/-- These are the records the batch writes to the target. -/
theorem mem_changed {writes : Dict K (ConditionalWrite V)} {t : AnyTarget S K V P} {k : K} :
    k ∈ (Topology.changed t (Topology.putsOf writes) writes).keys ↔ Changes writes t k := by
  have hchanges : ∀ (seen : Versioned V) (after : V), Topology.changes t seen after = true ↔
      ∀ before, seen.value = some before → seen.version.isSome → t.holdsSame before after = false := by
    intro seen after
    unfold Topology.changes
    cases seen.value with
    | none => simp
    | some before => cases seen.version <;> simp
  unfold Topology.changed Topology.putsOf
  rw [mem_filter_keys]
  constructor
  · rintro ⟨after, hput, hchanged⟩
    rw [Dict.get?_collect] at hput
    obtain ⟨w, hw, hvalue⟩ := Option.bind_eq_some_iff.mp hput
    rw [hw, Option.map_some, Option.getD_some] at hchanged
    refine ⟨w, after, hw, ?_, (hchanges w.seen after).mp hchanged⟩
    cases hchange : w.change <;> rw [hchange] at hvalue <;> cases hvalue
    rfl
  · rintro ⟨w, after, hw, hchange, hpart⟩
    refine ⟨after, ?_, ?_⟩
    · rw [Dict.get?_collect, hw, Option.bind_some, hchange]
      rfl
    · rw [hw, Option.map_some, Option.getD_some]
      exact (hchanges w.seen after).mpr hpart

/-- A component's batches, one for each write clock. -/
theorem emits_batchWriteChanged {t : AnyTarget (Logged S K) K V P}
    {p : AnyTarget S K V P × Nat} (hs : Stands p t) (writes : Dict K (ConditionalWrite V))
    (options : WriteOptions) :
    Emits events waiting (Topology.batchWriteChanged writes options t) fun r l q =>
      (∀ e ∈ l, e.role = t.role ∧ e.removed = []) ∧ (∀ x ∈ q, False) ∧
        (r = .ok ⟨⟩ → ∀ k ∈ (Topology.changed t (Topology.putsOf writes) writes).keys, Wrote l p.2 k) := by
  refine (Emits.forM (fun e => e.role = t.role ∧ e.removed = []) (fun _ => False)
    (fun g l => ∀ k ∈ g.2.keys, Wrote l p.2 k) ?_ ?_).weaken ?_
  · intro g l l' l'' h k hk
    exact (h k hk).mono fun e he => by simp [he]
  · intro g _
    refine (emits_commitStep (hs.logs.batchWrite g.2 _)).weaken ?_
    rintro r l q ⟨h1, h2, h3⟩
    refine ⟨fun e he => ?_, h2, h3⟩
    have := h1 e he
    simp only [Event.deed, TargetDeed.mk.injEq] at this
    exact ⟨this.1, this.2.2⟩
  · rintro r l q ⟨h1, h2, h3⟩
    refine ⟨h1, h2, fun hr k hk => ?_⟩
    obtain ⟨v, hv⟩ := Dict.mem_keys.mp hk
    obtain ⟨g, hg, -, hgv⟩ := Topology.exists_byClock hv
    exact h3 hr g hg k (Dict.mem_keys.mpr ⟨v, hgv⟩)

theorem components_eq {T : Topology S K V P} (hT : T.Accepted) :
    T.tagged.components = T.tagged.all.filter fun t => t.role = .component := by
  unfold Topology.all Topology.components
  rw [List.filter_append]
  have hnone : (T.tagged.targets.map (Target.upcast Sum.inl)).filter
      (fun t : AnyTarget (Logged S K) K V P => t.role = .component) = [] := by
    rw [List.filter_eq_nil_iff]
    intro t ht
    obtain ⟨u, hu, rfl⟩ := List.mem_map.mp ht
    obtain ⟨i, hi, rfl⟩ := List.mem_mapIdx.mp hu
    show ¬ decide (T.targets[i].role = .component) = true
    simpa using hT.noWholeComponent _ (List.getElem_mem hi)
  rw [hnone, List.nil_append]

/-- What an authority is asked to change is what the batch changes, clocks aside. -/
theorem received_change {S' R : Type} (t : Target S' K V R) (writes : Dict K (ConditionalWrite V))
    (k : K) : ((Topology.received t writes).get? k).map (fun w => w.change) =
      (writes.get? k).map fun w => w.change := by
  unfold Topology.received
  split
  · rfl
  · rw [Dict.get?_map, Option.map_map]
    rfl

/-- The keys the authority wrote and stored are put, and those it removed removed, in
    the event of its batch. -/
theorem conditionalEvent_stored {S' R : Type} (t : Target S' K V R) (i : Nat) (role : Role)
    {writes : Dict K (ConditionalWrite V)} {written : Finset K} {k : K}
    (hk : k ∈ (Topology.storedPuts writes written).keys) :
    k ∈ (conditionalEvent i role (Topology.received t writes) (.ok written)).put ∧
      k ∈ (conditionalEvent i role (Topology.received t writes) (.ok written)).done := by
  obtain ⟨v, hv, hw⟩ := mem_filter_keys.mp hk
  unfold Topology.putsOf at hv
  rw [Dict.get?_collect] at hv
  obtain ⟨w, hwk, hc⟩ := Option.bind_eq_some_iff.mp hv
  have hr := received_change t writes k
  rw [hwk, Option.map_some] at hr
  obtain ⟨w', hw', hcc⟩ := Option.map_eq_some_iff.mp hr
  refine ⟨mem_filter_keys.mpr ⟨w', hw', by rw [hcc, hc]; rfl⟩, ?_⟩
  exact List.mem_filter.mpr ⟨Dict.mem_keys.mpr ⟨w', hw'⟩, hw⟩

theorem conditionalEvent_removed {S' R : Type} (t : Target S' K V R) (i : Nat) (role : Role)
    {writes : Dict K (ConditionalWrite V)} {written : Finset K} {k : K}
    (hk : k ∈ Topology.removedKeys writes written) :
    k ∈ (conditionalEvent i role (Topology.received t writes) (.ok written)).removed ∧
      k ∈ (conditionalEvent i role (Topology.received t writes) (.ok written)).done := by
  obtain ⟨hmem, hw⟩ := List.mem_filter.mp hk
  obtain ⟨hw, hn⟩ := of_decide_eq_true hw
  obtain ⟨w, hwk⟩ := Dict.mem_keys.mp hmem
  unfold Topology.putsOf at hn
  rw [Dict.get?_collect, hwk, Option.bind_some] at hn
  have hr := received_change t writes k
  rw [hwk, Option.map_some] at hr
  obtain ⟨w', hw', hcc⟩ := Option.map_eq_some_iff.mp hr
  refine ⟨mem_filter_keys.mpr ⟨w', hw', by rw [hcc]; exact hn⟩, ?_⟩
  exact List.mem_filter.mpr ⟨Dict.mem_keys.mpr ⟨w', hw'⟩, by simpa using hw⟩

/-- What follows the authority's answer is in order after it. -/
theorem afterConditional_inOrder (T : Topology S K V P)
    (writes : Dict K (ConditionalWrite V)) (options : WriteOptions) (written : Finset K)
    (needs : AnyTarget S K V P → K → Prop) (log : List (Event K))
    (hin : InOrder T.all.zipIdx needs log [])
    (hstored : ∀ k ∈ (Topology.storedPuts writes written).keys, ∀ p ∈ T.all.zipIdx,
      p.1.role = .authority ∨ p.1.role = .component ∧ needs p.1 k → Wrote log p.2 k)
    (hremoved : ∀ k ∈ Topology.removedKeys writes written, ∀ p ∈ T.all.zipIdx,
      p.1.role = .authority → RemovedAt log p.2 k) :
    Emits events waiting (T.tagged.afterConditional writes options written) fun _ l q =>
      InOrder T.all.zipIdx needs (log ++ l) (q.map Queued.deed) := by
  have hfirst : Emits events waiting (when (Topology.removedKeys writes written ≠ []) do
      forM T.tagged.removedAfterCommit fun t =>
        T.tagged.syncOne t "batch delete" (.batchDelete (Topology.removedKeys writes written)) none)
      fun _ l q => (∀ e ∈ l, Allowed T.all.zipIdx needs log e.deed) ∧
        (∀ d ∈ q.map Queued.deed, Allowed T.all.zipIdx needs log d) := by
    refine Emits.when (emits_after T needs log _ (fun t ht => (mem_removedAfterCommit ht).1)
      _ _ none ?_) (by simp)
    intro t ht
    exact allowed_removal (mem_removedAfterCommit ht).2 rfl hremoved
  have hthen : Emits events waiting (forM T.tagged.dependents
      (T.tagged.syncChanged writes options written))
      fun _ l q => (∀ e ∈ l, Allowed T.all.zipIdx needs log e.deed) ∧
        (∀ d ∈ q.map Queued.deed, Allowed T.all.zipIdx needs log d) := by
    refine (Emits.forM (fun e => Allowed T.all.zipIdx needs log e.deed)
      (fun x => Allowed T.all.zipIdx needs log x.deed) (fun _ _ => True) (by simp) ?_).weaken ?_
    · intro t ht
      obtain ⟨hmem, hρ⟩ := mem_dependents.mp ht
      obtain ⟨p, -, hs⟩ := tagged_logs hmem
      refine (Emits.forM _ (fun x => Allowed T.all.zipIdx needs log x.deed) (fun _ _ => True)
        (by simp) ?_).weaken fun r l q h => ⟨h.1, h.2.1, fun _ => trivial⟩
      intro g hg
      have hop : Allowed T.all.zipIdx needs log ⟨t.role, g.2.keys, []⟩ := by
        refine allowed_dependent hρ rfl fun k hk => ?_
        obtain ⟨v, hv⟩ := Dict.mem_keys.mp hk
        have hch := (Topology.mem_byClock hg hv).1
        obtain ⟨v', hv', -⟩ := mem_filter_keys.mp (Dict.mem_keys.mpr ⟨v, hch⟩)
        exact hstored k (Dict.mem_keys.mpr ⟨v', hv'⟩)
      refine (emits_syncOne _ hs.logs _ _ none).weaken ?_
      rintro r l q ⟨h1, h2⟩
      refine ⟨fun e he => ?_, fun x hx => ?_, fun _ => trivial⟩
      · rw [h1 e he]; exact hop
      · rw [h2 x hx]; exact hop
    · rintro r l q ⟨h1, h2, -⟩
      refine ⟨h1, fun d hd => ?_⟩
      obtain ⟨x, hx, rfl⟩ := List.mem_map.mp hd
      exact h2 x hx
  refine hfirst.bind ?_ ?_
  · rintro _ l q ⟨h1, h2⟩
    refine hthen.weaken ?_
    rintro r l' q' ⟨h1', h2'⟩
    rw [List.map_append, ← List.nil_append (q.map Queued.deed ++ q'.map Queued.deed)]
    refine hin.append (fun e he => ?_) fun d hd => ?_
    · exact (List.mem_append.mp he).elim (h1 e) (h1' e)
    · exact (List.mem_append.mp hd).elim (h2 d) (h2' d)
  · rintro e l q ⟨h1, h2⟩
    simpa using hin.append h1 h2

theorem conditional_inOrder {T : Topology S K V P} (hT : T.Accepted)
    (writes : Dict K (ConditionalWrite V)) (options : WriteOptions) :
    Emits events waiting (T.tagged.batchWriteIfUnchanged writes options) fun _ l q =>
      InOrder T.all.zipIdx (Changes writes) l (q.map Queued.deed) := by
  unfold Topology.batchWriteIfUnchanged Topology.requireAuthority
  cases ha : T.tagged.authority with
  | none => exact Emits.raise _ inOrder_nil
  | some authority =>
  have hmem : authority ∈ T.tagged.all := List.mem_of_find?_eq_some ha
  have hrole : authority.role = .authority := by simpa using List.find?_some ha
  obtain ⟨p0, -, hs0⟩ := tagged_logs hmem
  have : Nonempty { p // Stands p authority } := ⟨⟨p0, hs0⟩⟩
  simp only [pure_bind]
  split
  · exact Emits.raise _ inOrder_nil
  rw [components_eq hT]
  refine (emits_role T .component (fun e => e.removed = [])
    (fun t => (Topology.changed t (Topology.putsOf writes) writes).keys) _
    fun t p hs => emits_batchWriteChanged hs writes options).bind ?_ ?_
  · rintro _ l q ⟨h1, rfl, h3⟩
    have hin : InOrder T.all.zipIdx (Changes writes) l [] := inOrder_components h1
    have hwrote : ∀ k, ∀ p ∈ T.all.zipIdx, p.1.role = .component → Changes writes p.1 k →
        Wrote l p.2 k := by
      intro k p hp hc hk
      obtain ⟨t, ht, hs⟩ := tagged_of_mem hp
      refine h3 rfl p hp t hs ht hc k (mem_changed.mpr ?_)
      unfold Changes
      rwa [hs.holdsSame]
    have hauth : ∀ r, InOrder T.all.zipIdx (Changes writes)
        (l ++ [conditionalEvent p0.2 authority.role (Topology.received authority writes) r]) [] := by
      intro r
      refine hin.extend fun e he => ?_
      rw [List.mem_singleton.mp he]
      refine allowed_authority (by cases r <;> exact hrole) ?_
      intro k _ p hp hc hk
      exact hwrote k p hp hc hk
    refine (Emits.all fun p : { p // Stands p authority } =>
      emits_runCommitting (p.2.logs.conditional _ _) _ _).bind ?_ ?_
    · intro written l' q' h
      obtain ⟨rfl, r0, rfl, hr0⟩ := h ⟨p0, hs0⟩
      have hplace : ∀ p ∈ T.all.zipIdx, p.1.role = .authority →
          conditionalEvent p.2 authority.role (Topology.received authority writes) (.ok written) ∈
            [conditionalEvent p0.2 authority.role (Topology.received authority writes) r0] := by
        intro p hp hpr
        obtain ⟨-, r1, hl, hr1⟩ := h ⟨p, stands_authority hT hmem hrole hp hpr⟩
        rw [hl, hr1 _ rfl]
        simp
      refine (afterConditional_inOrder T writes options written (Changes writes) _ (hauth r0)
        ?_ ?_).bind ?_ ?_
      · rintro k hk p hp (hpr | ⟨hpr, hn⟩)
        · obtain ⟨hput, hdone⟩ := conditionalEvent_stored authority p.2 authority.role hk
          exact ⟨_, List.mem_append_right _ (hplace p hp hpr), rfl, hput, hdone⟩
        · exact (hwrote k p hp hpr hn).mono (List.subset_append_left _ _)
      · intro k hk p hp hpr
        obtain ⟨hrem, hdone⟩ := conditionalEvent_removed authority p.2 authority.role hk
        exact ⟨_, List.mem_append_right _ (hplace p hp hpr), rfl, hrem, hdone⟩
      · intro _ l q h
        exact Emits.pure _ (by simpa using h)
      · intro e l q h
        simpa using h
    · intro e l' q' h
      obtain ⟨rfl, r0, rfl, -⟩ := h ⟨p0, hs0⟩
      exact hauth r0
  · rintro e l q ⟨h1, rfl, -⟩
    exact inOrder_components h1

end Operations

/-! ## Every operation of the store -/

section Store

variable {S K V P : Type}

/-- A step that adds nothing, before one that does. -/
theorem emits_then {m : M (Node (Logged S K) K V P) Unit} {α : Type}
    {f : M (Node (Logged S K) K V P) α} {Q : List (Event K) → List (Queued (Logged S K) K V P) → Prop}
    (hm : Emits events waiting m fun _ l q => l = [] ∧ q = [])
    (hf : Emits events waiting f fun _ l q => Q l q) (hnil : Q [] []) :
    Emits events waiting (m >>= fun _ => f) fun _ l q => Q l q := by
  refine hm.bind ?_ ?_
  · rintro _ l q ⟨rfl, rfl⟩
    exact hf.weaken fun _ _ _ h => by simpa using h
  · rintro e l q ⟨rfl, rfl⟩
    exact hnil

variable [DecidableEq K]

/-- The records an operation writes to a component: a conditional write leaves an
    unchanged part alone. -/
def RecordOp.needs : RecordOp K V → AnyTarget S K V P → K → Prop
  | .writeIfUnchanged writes _ => Changes writes
  | _ => fun _ _ => True

theorem emits_admitting (T : Topology (Logged S K) K V P) (typeName : String) (o : WriteOptions) :
    Emits events waiting (T.admitWrite typeName o : M (Node (Logged S K) K V P) Unit)
      fun _ l q => l = [] ∧ q = [] := by
  unfold Topology.admitWrite requireWriteClockSupported
  split
  · exact Emits.raise _ ⟨rfl, rfl⟩
  · exact Emits.pure _ ⟨rfl, rfl⟩

/-- One operation reaches the targets in order, and queues only what is in order. -/
theorem op_inOrder {T : Topology S K V P} (hT : T.Accepted) (typeName : String)
    (op : RecordOp K V) :
    Emits events waiting (op.run (T.tagged.store typeName)) fun _ l q =>
      InOrder T.all.zipIdx op.needs l (q.map Queued.deed) := by
  cases op with
  | set key value options =>
    exact emits_then (emits_admitting _ _ _) (write_inOrder T key value options) inOrder_nil
  | batchSet items options =>
    exact emits_then (emits_admitting _ _ _) (batchWrite_inOrder T items options) inOrder_nil
  | delete key => exact (remove_inOrder hT .delete key).map fun _ _ _ h => h
  | batchDelete keys => exact (batchRemove_inOrder hT .delete keys none).map fun _ _ _ h => h
  | unset key => exact (remove_inOrder hT .unset key).map fun _ _ _ h => h
  | batchUnset keys => exact (batchRemove_inOrder hT .unset keys none).map fun _ _ _ h => h
  | writeIfUnchanged writes ttl =>
    refine Emits.map (emits_then ?_ ?_ inOrder_nil) fun _ _ _ h => h
    · refine (Emits.forM (fun _ => False) (fun _ => False) (fun _ _ => True) (by simp) ?_).weaken ?_
      · intro e _
        exact (emits_admitting _ _ _).weaken fun _ _ _ h => by simp [h.1, h.2]
      · rintro r l q ⟨h1, h2, -⟩
        exact ⟨List.eq_nil_iff_forall_not_mem.mpr h1, List.eq_nil_iff_forall_not_mem.mpr h2⟩
    · split
      · exact Emits.pure _ inOrder_nil
      · exact conditional_inOrder hT writes _

/-- The log has only grown, by deeds in `D`. -/
def Grows (D : TargetDeed K → Prop) (s s' : Logged S K) : Prop :=
  ∃ l, s'.2 = s.2 ++ l ∧ ∀ e ∈ l, D e.deed

omit [DecidableEq K] in
theorem Records.grows {α : Type} {m : M (Logged S K) α} {ev : Except Exn α → Event K}
    {D : TargetDeed K → Prop} (h : Records m ev) (hD : ∀ r, D (ev r).deed) : Moves (Grows D) m :=
  fun s => ⟨[ev (m s).1], h s, by simpa using hD _⟩

instance (D : TargetDeed K → Prop) : Std.Refl (@Grows S K D) := ⟨fun _ => ⟨[], by simp⟩⟩

instance (D : TargetDeed K → Prop) : IsTrans (Logged S K) (Grows D) := ⟨by
  rintro a b c ⟨l, hl, h⟩ ⟨l', hl', h'⟩
  refine ⟨l ++ l', by rw [hl', hl, List.append_assoc], fun e he => ?_⟩
  exact (List.mem_append.mp he).elim (h e) (h' e)⟩

/-- A flush does only what was queued, and leaves the queue empty. -/
theorem flush_deeds {T : Topology S K V P} (n : Node (Logged S K) K V P)
    (hn : ∀ q ∈ n.syncs, q.target ∈ T.tagged.all) :
    Grows (fun d => ∃ q ∈ n.syncs, d = q.deed) n.media (T.tagged.flush n).2.media ∧
      (T.tagged.flush n).2.syncs = [] := by
  refine flush_after T.tagged n (fun q hq => ?_) fun c hc => ?_
  · obtain ⟨p, -, hs⟩ := tagged_logs (hn q hq)
    exact (hs.logs.on q.op).grows fun r => ⟨q, hq, wholeEvent_deed _ _ _ _ r⟩
  · obtain ⟨t, ht, hct⟩ := List.mem_flatMap.mp hc
    obtain ⟨p, -, hs⟩ := tagged_logs ht
    intro s
    have hsame : (c.flushIndexSyncs s).2.2 = s.2 := hs.logs.children c hct s
    exact ⟨[], by rw [hsame, List.append_nil], by simp⟩

/-- For any targets, failing and refusing as they may, and after any run: an operation
    reaches them in order, and queues only what is in order after what it did. A flush
    does only what was queued. -/
theorem commit_order (T : Topology S K V P) (hT : T.postInit = .ok ()) (typeName : String)
    (start : Logged S K) (acts : List (Act K V)) :
    let store := T.tagged.store typeName
    let n := runActs store acts ⟨start, []⟩
    (∀ op : RecordOp K V, ∃ log queued,
      (op.run store n).2.media.2 = n.media.2 ++ log ∧ (op.run store n).2.syncs = n.syncs ++ queued ∧
        InOrder T.all.zipIdx op.needs log (queued.map Queued.deed)) ∧
    (∃ log, (store.flushIndexSyncs n).2.media.2 = n.media.2 ++ log ∧
      (store.flushIndexSyncs n).2.syncs = [] ∧ ∀ e ∈ log, ∃ q ∈ n.syncs, e.deed = q.deed) := by
  intro store n
  refine ⟨fun op => op_inOrder (Topology.accepted hT) typeName op n, ?_⟩
  obtain ⟨⟨log, hlog, hd⟩, hq⟩ := flush_deeds n (runActs_queuesOwn T.tagged typeName acts _ rfl)
  exact ⟨log, hlog, hq, hd⟩

/-- A record with a copy, in the order the roles were not declared in. -/
def copyFirst : Topology (DictState Nat Nat) Nat Nat Unit where
  targets := [
    keyMapTarget ⟨"copy", .dependent, none, false, .required⟩ (dictKeyMap Nat Nat) some id [],
    keyMapTarget ⟨"primary", .authority, none, false, .required⟩ (dictKeyMap Nat Nat) some id []]
  parts := []
  assemble := none

theorem commit_order_copyFirst :
    let store := copyFirst.tagged.store "MirrorKvStore"
    let n := runActs store [.op (.set 1 10 WriteOptions.none)] ⟨(DictState.empty, []), []⟩
    (∀ op : RecordOp Nat Nat, ∃ log queued,
      (op.run store n).2.media.2 = n.media.2 ++ log ∧ (op.run store n).2.syncs = n.syncs ++ queued ∧
        InOrder copyFirst.all.zipIdx op.needs log (queued.map Queued.deed)) ∧
    (∃ log, (store.flushIndexSyncs n).2.media.2 = n.media.2 ++ log ∧
      (store.flushIndexSyncs n).2.syncs = [] ∧ ∀ e ∈ log, ∃ q ∈ n.syncs, e.deed = q.deed) :=
  commit_order copyFirst rfl "MirrorKvStore" (DictState.empty, []) [.op (.set 1 10 WriteOptions.none)]

end Store

end Kvtsjl
