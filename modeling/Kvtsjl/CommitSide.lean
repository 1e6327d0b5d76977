import Kvtsjl.Compose
import Kvtsjl.MemoryValues
import Kvtsjl.OpSteps
import Kvtsjl.Tree

/-
  On which side of the commit a point write failed, at any depth of a tree.
  A node commits to its components and its authority, and then tells its dependents. What
  it raises is read off the part of the media under its authority, and, by induction on
  the tree, off the leaf at the end of the chain of authorities.
-/

namespace Kvtsjl

open Assoc (Dict)
open Effects Prog
open OpSteps (mem_dependents)

/-! ## Two phases -/

section Phases

variable {σ τ γ : Type}

/-- What an exit says of the one part that decides it. With no error `m` ran there. A
    `PartialSyncError` comes after `m`, or from within it. Any other error comes before
    `m`, or from within it. -/
def Side (m : M τ Unit) (t t' : τ) : Except Exn Unit → Prop
  | .ok _ => m t = (.ok (), t')
  | .error e =>
    if e.isPartialSync then
      m t = (.ok (), t') ∨ ∃ e', e'.isPartialSync = true ∧ m t = (.error e', t')
    else t' = t ∨ ∃ e', e'.isPartialSync = false ∧ m t = (.error e', t')

/-- A step that runs `m` at the part under `k`, and at most renames what it raises. -/
def RunsAt (k : Lens σ τ) (m : M τ Unit) (f : M σ Unit) : Prop :=
  ∀ s, match f s with
    | (.ok _, s') => m (k.get s) = (.ok (), k.get s')
    | (.error e, s') =>
      ∃ e', e'.isPartialSync = e.isPartialSync ∧ m (k.get s) = (.error e', k.get s')

variable {k : Lens σ τ} {m : M τ Unit}

/-- Steps before the deciding one, that one, and steps after it. -/
theorem side_phases {pre ys : List γ} {x : γ} {f h : γ → M σ Unit}
    (hpre : ∀ y ∈ pre, Moves k.Keeps (f y))
    (hbefore : ∀ y ∈ pre, Raises (fun e => e.isPartialSync = false) (f y))
    (hx : RunsAt k m (f x)) (hys : ∀ y ∈ ys, Moves k.Keeps (h y))
    (hafter : ∀ y ∈ ys, Raises (fun e => e.isPartialSync = true) (h y)) (s : σ) :
    Side m (k.get s) (k.get ((forM (pre ++ [x]) f >>= fun _ => forM ys h) s).2)
      ((forM (pre ++ [x]) f >>= fun _ => forM ys h) s).1 := by
  have hkeep1 := Moves.forM hpre s
  have hraise1 := Raises.forM hbefore s
  rw [List.forM_append, bind_assoc]
  rcases h1 : forM pre f s with ⟨e | u, s1⟩ <;> rw [h1] at hkeep1 hraise1
  · rw [bind_error h1]
    show if e.isPartialSync = true then _ else _
    rw [hraise1 e rfl, if_neg Bool.false_ne_true]
    exact .inl hkeep1
  rw [bind_ok h1, List.forM_cons, List.forM_nil, bind_assoc]
  have hat := hx s1
  have hsame : k.get s1 = k.get s := hkeep1
  rcases h2 : f x s1 with ⟨e | v, s2⟩ <;> rw [h2] at hat
  · rw [bind_error h2]
    obtain ⟨e', he', hm⟩ := hat
    rw [hsame] at hm
    show if e.isPartialSync = true then _ else _
    split
    · next hp => exact .inr ⟨e', by rw [he', hp], hm⟩
    · next hp => exact .inr ⟨e', by rw [he']; exact Bool.eq_false_of_not_eq_true hp, hm⟩
  have hm : m (k.get s) = (.ok (), k.get s2) := by rw [← hsame]; exact hat
  rw [bind_ok h2, pure_bind]
  have hkeep3 := Moves.forM hys s2
  have hraise3 := Raises.forM hafter s2
  rcases h3 : forM ys h s2 with ⟨e | w, s3⟩ <;> rw [h3] at hkeep3 hraise3
  · show if e.isPartialSync = true then _ else _
    rw [hraise3 e rfl, if_pos rfl]
    have hlast : k.get s3 = k.get s2 := hkeep3
    exact .inl (by rw [hlast]; exact hm)
  · have hlast : k.get s3 = k.get s2 := hkeep3
    show m (k.get s) = (.ok (), k.get s3)
    rw [hlast]
    exact hm

theorem runsAt_zoom : RunsAt k m (k.zoom m) := by
  intro s
  rw [Lens.zoom_apply]
  rcases h : m (k.get s) with ⟨e | u, t⟩
  · exact ⟨e, rfl, by rw [Lens.get_set]⟩
  · show (Except.ok (), t) = (.ok (), k.get (k.set s t))
    rw [Lens.get_set]

/-- A committing step says of its authority what the authority said. -/
theorem runsAt_runCommitting {f : M σ Unit} (hf : RunsAt k m f) (name : String) :
    RunsAt k m (runCommitting name .authority f) := by
  intro s
  have hs := hf s
  unfold runCommitting
  rcases h : f s with ⟨e | u, s'⟩ <;> rw [h] at hs
  · rw [catching_error h]
    obtain ⟨e', he', hm⟩ := hs
    by_cases hr : e.isRecordWriteError = true
    · rw [if_pos ⟨rfl, hr⟩]
      exact ⟨e', he', hm⟩
    · rw [if_neg fun hc => hr hc.2]
      refine ⟨e', ?_, hm⟩
      have hnot : e.isPartialSync = false := by
        cases hp : e.isPartialSync
        · rfl
        · exact absurd (by simp [Exn.isRecordWriteError, hp]) hr
      rw [he', hnot]
      rfl
  · rw [catching_ok h]
    exact hs

/-- A step that returns only where `m` returns at the part under `k`. -/
def OkAt (k : Lens σ τ) (m : M τ Unit) (f : M σ Unit) : Prop :=
  ∀ s s', f s = (.ok (), s') → m (k.get s) = (.ok (), k.get s')

theorem RunsAt.okAt {f : M σ Unit} (h : RunsAt k m f) : OkAt k m f := by
  intro s s' hs
  have hat := h s
  rw [hs] at hat
  exact hat

theorem OkAt.settle {f : M σ Unit} (h : OkAt k m f) (name what : String) (beforeCommit : Bool) :
    OkAt k m (settle name what .required beforeCommit () f) := by
  intro s s' hs
  unfold Kvtsjl.settle at hs
  rcases hf : f s with ⟨e | u, s1⟩
  · rw [catching_error hf] at hs
    have hpolicy : ¬ (SyncPolicy.required = .bestEffort ∧ ¬ e.isUnsupported = true) :=
      fun hc => SyncPolicy.noConfusion hc.1
    rw [if_neg hpolicy] at hs
    split_ifs at hs <;> cases hs
  · rw [catching_ok hf] at hs
    obtain ⟨-, hs1⟩ := Prod.mk.inj hs
    rw [← hs1]
    exact h s s1 hf

/-- In a loop that returns, the one step at the part under `k` ran `m` there. -/
theorem OkAt.forM {xs : List γ} {f : γ → M σ Unit} {x : γ} (hf : OkAt k m (f x)) (hx : x ∈ xs)
    (hn : xs.Nodup) (hother : ∀ y ∈ xs, y ≠ x → Moves k.Keeps (f y)) : OkAt k m (forM xs f) := by
  intro s s' hs
  obtain ⟨s0, s1, h0, hrun, h1⟩ := forM_ok_at hx hn hother hs
  have hm := hf s0 s1 hrun
  have hbefore : k.get s0 = k.get s := h0
  have hafter : k.get s' = k.get s1 := h1
  rw [hafter, ← hbefore]
  exact hm

theorem OkAt.bind_left {f : M σ Unit} {h : Unit → M σ Unit} (hf : OkAt k m f)
    (hh : ∀ u, Moves k.Keeps (h u)) : OkAt k m (f >>= h) := by
  intro s s' hs
  rcases hfs : f s with ⟨e | u, s1⟩
  · rw [bind_error hfs] at hs
    cases hs
  · rw [bind_ok hfs] at hs
    have hkeep := hh u s1
    rw [hs] at hkeep
    have hlast : k.get s' = k.get s1 := hkeep
    rw [hlast]
    exact hf s s1 hfs

theorem OkAt.bind_right {f : M σ Unit} {h : Unit → M σ Unit} (hf : Moves k.Keeps f)
    (hh : ∀ u, OkAt k m (h u)) : OkAt k m (f >>= h) := by
  intro s s' hs
  have hkeep := hf s
  rcases hfs : f s with ⟨e | u, s1⟩
  · rw [bind_error hfs] at hs
    cases hs
  · rw [bind_ok hfs] at hs
    rw [hfs] at hkeep
    have hfirst : k.get s1 = k.get s := hkeep
    rw [← hfirst]
    exact hh u s1 s' hs

theorem OkAt.runCommitting {f : M σ Unit} (h : OkAt k m f) (name : String) (role : Role) :
    OkAt k m (runCommitting name role f) := fun s s' hs => h s s' (runCommitting_ok hs)

/-- A step at the part among the first ones, and no other there. -/
theorem okAt_first {xs ys : List γ} {x : γ} {f h : γ → M σ Unit} (hx : x ∈ xs) (hn : xs.Nodup)
    (hy : x ∉ ys) (hf : OkAt k m (f x)) (hotherF : ∀ y, y ≠ x → Moves k.Keeps (f y))
    (hotherH : ∀ y, y ≠ x → Moves k.Keeps (h y)) : OkAt k m (forM xs f >>= fun _ => forM ys h) := by
  refine OkAt.bind_left (hf.forM hx hn fun y _ => hotherF y) fun _ => ?_
  refine Moves.forM fun y hmem => hotherH y ?_
  intro hyx
  rw [hyx] at hmem
  exact hy hmem

theorem okAt_after {xs ys : List γ} {x : γ} {f h : γ → M σ Unit} (hx : x ∉ xs) (hy : x ∈ ys)
    (hn : ys.Nodup) (hh : OkAt k m (h x)) (hotherF : ∀ y, y ≠ x → Moves k.Keeps (f y))
    (hotherH : ∀ y, y ≠ x → Moves k.Keeps (h y)) : OkAt k m (forM xs f >>= fun _ => forM ys h) := by
  refine OkAt.bind_right ?_ fun _ => hh.forM hy hn fun y _ => hotherH y
  refine Moves.forM fun y hmem => hotherF y ?_
  intro hyx
  rw [hyx] at hmem
  exact hx hmem

end Phases

/-! ## A write and a removal, as two phases -/

section TwoPhases

variable {S K V P : Type} [DecidableEq K]

/-- The operation on a target that follows the commit. -/
def afterwards (what : String) (op : SyncOp K V) (t : AnyTarget S K V P) :
    M (Node S K V P) Unit :=
  Node.onMedia (settle t.name what t.policy false () (op.on t))

/-- The operation on a target that is committed to. -/
def committed (op : SyncOp K V) (t : AnyTarget S K V P) : M (Node S K V P) Unit :=
  Node.onMedia (runCommitting t.name t.role (op.on t))

variable {T : Topology S K V P}

theorem syncOne_now (hdef : T.deferred = false) (t : AnyTarget S K V P) (what : String)
    (op : SyncOp K V) : T.syncOne t what op none = afterwards what op t := by
  unfold Topology.syncOne Topology.runSync afterwards
  rw [hdef]
  rfl

theorem write_phases (hdef : T.deferred = false) (key : K) (value : V) (o : WriteOptions) :
    T.write key value o = forM T.committing (committed (.write key value o)) >>= fun _ =>
      forM T.dependents (afterwards "set" (.write key value o)) := by
  unfold Topology.write Topology.toDependents
  refine bind_congr fun _ => forM_congr fun t _ => ?_
  exact syncOne_now hdef t _ _

theorem unset_phases (hdef : T.deferred = false) (key : K) :
    Functor.discard (T.remove .unset key) =
      forM T.removedNow (fun t => Node.onMedia ((SyncOp.unset key).on t)) >>= fun _ =>
        forM T.removedAfterCommit (afterwards "unset" (.unset key)) := by
  have hnow : forM T.removedNow (fun t => Node.onMedia ((SyncOp.unset key).on t)) =
      (Functor.discard (T.removedNow.mapM fun t => Node.onMedia (t.unset key)) :
        M (Node S K V P) PUnit) := by
    rw [← forM_discard]
    exact forM_congr fun t _ => (Lens.zoom_discard _ _).symm
  have hafter : (forM T.removedAfterCommit fun t => T.syncOne t "unset" (.unset key) none) =
      forM T.removedAfterCommit (afterwards "unset" (.unset key)) :=
    forM_congr fun t _ => syncOne_now hdef t _ _
  rw [hnow, ← hafter, discard_then]
  unfold Topology.remove
  rw [discard_bind]
  exact bind_congr fun removed => discard_return _ _

omit [DecidableEq K] in
/-- What follows the commit reports that it failed after it. -/
theorem raises_afterwards (what : String) (op : SyncOp K V) (t : AnyTarget S K V P) :
    Raises (fun e => e.isPartialSync = true) (afterwards what op t) := by
  refine raises_onMedia ?_
  refine Raises.catching (fun _ _ _ => trivial : Raises (fun _ => True) _) fun e _ => ?_
  rw [if_neg Bool.false_ne_true]
  split_ifs with h1 h2
  · exact Raises.pure _
  · exact Raises.raise h2
  · exact Raises.raise rfl

omit [DecidableEq K] in
/-- A target that is not the authority fails before the commit. -/
theorem raises_committed (op : SyncOp K V) {t : AnyTarget S K V P} (ht : t.role ≠ .authority) :
    Raises (fun e => e.isPartialSync = false) (committed op t) := by
  refine raises_onMedia ?_
  refine Raises.catching (fun _ _ _ => trivial : Raises (fun _ => True) _) fun e _ => ?_
  rw [if_neg fun h => ht h.1]
  exact Raises.raise rfl

end TwoPhases

/-! ## A node -/

section AtNode

variable {K V P : Type} [DecidableEq K] {n m : Nat} {C : Fin n → Type} {I : Fin m → Type}
  {part : Fin n → Type} [∀ i, DecidableEq (part i)] {stores : ∀ i, KvStore (C i) K (part i)}
  {declared : Fin n → Declared} {shape : ∀ i, Shape V P (part i)}
  {index : ∀ j, Index (I j) K V} {indexPolicy : Option SyncPolicy}
  {assemble : Option (Parts V P → Option V)}

/-- A child's own state, within the state of its node. -/
abbrev childLens (i : Fin n) : Lens (Node (Media C I) K V P) (C i) :=
  Node.mediaLens.comp (Media.child i)

/-- The ask, made of a store that writes at once and does not refuse it. -/
def Ask.phases (T : Topology (Media C I) K V P) (key : K) : Ask V → M (Node (Media C I) K V P) Unit
  | put value options => T.write key value options
  | unset => Functor.discard (T.remove .unset key)

/-- What the ask asks of a child. -/
def childAsk (stores : ∀ i, KvStore (C i) K (part i)) (shape : ∀ i, Shape V P (part i)) (a : Ask V)
    (i : Fin n) : Ask (part i) :=
  a.slotted (shape i).slot (stores i).supportsWriteClock

theorem on_child (key : K) (a : Ask V) (i : Fin n) :
    (a.syncOp key).on (mediaTarget stores declared shape index indexPolicy (some i)) =
      (Media.child i).zoom ((childAsk stores shape a i).run (stores i) key) := by
  rw [mediaTarget_child, on_zoom_target, Ask.on_target]
  rfl

omit [DecidableEq K] in
theorem runsAt_onMedia {i : Fin n} {q : M (C i) Unit} {p : M (Media C I) Unit}
    (h : RunsAt (Media.child i) q p) :
    RunsAt (childLens i) q (Node.onMedia p : M (Node (Media C I) K V P) Unit) := fun s => by
  have hs := h s.media
  rw [Node.onMedia_apply]
  rcases hp : p s.media with ⟨e | u, s'⟩ <;> rw [hp] at hs <;> exact hs

omit [DecidableEq K] in
theorem keeps_onMedia {i : Fin n} {p : M (Media C I) Unit} (h : Moves (Media.child i).Keeps p) :
    Moves (childLens i).Keeps (Node.onMedia p : M (Node (Media C I) K V P) Unit) :=
  fun n => h n.media

theorem keeps_committed (op : SyncOp K V) {p : Option (Fin n)} {i : Fin n} (h : p ≠ some i) :
    Moves (childLens i).Keeps
      (committed op (mediaTarget stores declared shape index indexPolicy p)) :=
  keeps_onMedia (moves_runCommitting (on_keeps_child _ _ _ _ _ op h) _ _)

theorem keeps_afterwards (what : String) (op : SyncOp K V) {p : Option (Fin n)} {i : Fin n}
    (h : p ≠ some i) : Moves (childLens i).Keeps
      (afterwards what op (mediaTarget stores declared shape index indexPolicy p)) :=
  keeps_onMedia (moves_settle (on_keeps_child _ _ _ _ _ op h) _ _ _ _ _)

/-- A node has one authority at most. -/
theorem length_authority
    (hacc : (mediaTopology stores declared shape index indexPolicy assemble).Accepted) :
    (placesOf declared shape indexPolicy [.authority]).length ≤ 1 := by
  have hone := hacc.oneAuthority
  have hall := byRole_eq (fun i => (stores i).zoom (Media.child i)) declared shape
    (List.ofFn fun j => (index j).zoom (Media.index j : Lens (Media C I) (I j))) indexPolicy assemble
    [.authority]
  unfold Topology.byRole at hall
  rw [List.flatMap_singleton] at hall
  rw [hall, List.length_map] at hone
  exact hone

/-- The authority is the first target of its role. -/
theorem authority_head : (mediaTopology stores declared shape index indexPolicy assemble).authority =
    (placesOf declared shape indexPolicy [.authority]).head?.map
      (mediaTarget stores declared shape index indexPolicy) := by
  have hall := byRole_eq (fun i => (stores i).zoom (Media.child i)) declared shape
    (List.ofFn fun j => (index j).zoom (Media.index j : Lens (Media C I) (I j))) indexPolicy assemble
    [.authority]
  unfold Topology.byRole at hall
  rw [List.flatMap_singleton] at hall
  unfold Topology.authority
  rw [← List.head?_filter, hall, List.head?_map]

theorem authority_places {i : Fin n} (hi : (declared i).role = .authority)
    (hacc : (mediaTopology stores declared shape index indexPolicy assemble).Accepted) :
    placesOf declared shape indexPolicy [.authority] = [some i] := by
  have hmem : some i ∈ placesOf declared shape indexPolicy [.authority] :=
    (mem_placesOf _ _ _).mpr ⟨mem_nodePlaces _ _ i, List.mem_singleton.mpr hi⟩
  have hlen := length_authority hacc
  match hp : placesOf declared shape indexPolicy [.authority] with
  | [] => rw [hp] at hmem; cases hmem
  | [p] => rw [hp] at hmem; rw [List.mem_singleton.mp hmem]
  | p :: q :: ps =>
    rw [hp] at hlen
    simp only [List.length_cons] at hlen
    omega

theorem committing_places {i : Fin n} (hi : (declared i).role = .authority)
    (hacc : (mediaTopology stores declared shape index indexPolicy assemble).Accepted) :
    (mediaTopology stores declared shape index indexPolicy assemble).committing =
      (placesOf declared shape indexPolicy [.component]).map
        (mediaTarget stores declared shape index indexPolicy) ++
          [mediaTarget stores declared shape index indexPolicy (some i)] := by
  have hsplit : placesOf declared shape indexPolicy [.component, .authority] =
      placesOf declared shape indexPolicy [.component] ++
        placesOf declared shape indexPolicy [.authority] :=
    placesOf_append declared shape indexPolicy [.component] [.authority]
  unfold Topology.committing
  rw [byRole_eq, hsplit, List.map_append, authority_places hi hacc]
  rfl

theorem authority_place {i : Fin n} (hi : (declared i).role = .authority)
    (hacc : (mediaTopology stores declared shape index indexPolicy assemble).Accepted) :
    (mediaTopology stores declared shape index indexPolicy assemble).authority =
      some (mediaTarget stores declared shape index indexPolicy (some i)) := by
  rw [authority_head, authority_places hi hacc]
  rfl

/-- A target that is not the authority is at another place. -/
theorem place_ne {i : Fin n} (hi : (declared i).role = .authority) {p : Option (Fin n)}
    (hp : placeRole declared p ≠ .authority) : p ≠ some i := by
  intro h
  rw [h] at hp
  exact hp hi

/-- What an exit of a node's write or removal says of its authority. -/
theorem side_node {i : Fin n} (hi : (declared i).role = .authority)
    (hacc : (mediaTopology stores declared shape index indexPolicy assemble).Accepted)
    (hdef : (mediaTopology stores declared shape index indexPolicy assemble).deferred = false)
    (key : K) (a : Ask V) (s : Node (Media C I) K V P) :
    Side ((childAsk stores shape a i).run (stores i) key) (s.media.1 i)
      ((a.phases (mediaTopology stores declared shape index indexPolicy assemble) key s).2.media.1 i)
      (a.phases (mediaTopology stores declared shape index indexPolicy assemble) key s).1 := by
  have hruns : RunsAt (Media.child i) ((childAsk stores shape a i).run (stores i) key)
      ((a.syncOp key).on (mediaTarget stores declared shape index indexPolicy (some i))) := by
    rw [on_child]
    exact runsAt_zoom
  have hother : ∀ what, ∀ t ∈ (mediaTopology stores declared shape index indexPolicy assemble).all,
      t.role ≠ .authority → Moves (childLens i).Keeps (afterwards what (a.syncOp key) t) := by
    intro what t ht hrole
    rw [all_eq] at ht
    obtain ⟨p, -, rfl⟩ := List.mem_map.mp ht
    rw [nodeTarget_role] at hrole
    exact keeps_afterwards what _ (place_ne hi hrole)
  cases a with
  | put value options =>
    show Side _ ((childLens i).get s) ((childLens i).get (Topology.write _ key value options s).2)
      (Topology.write _ key value options s).1
    rw [write_phases hdef, committing_places hi hacc]
    have hcomponent : ∀ t ∈ (placesOf declared shape indexPolicy [.component]).map
        (mediaTarget stores declared shape index indexPolicy),
        ∃ p, placeRole declared p = .component ∧
          t = mediaTarget stores declared shape index indexPolicy p := by
      intro t ht
      obtain ⟨p, hp, rfl⟩ := List.mem_map.mp ht
      exact ⟨p, List.mem_singleton.mp ((mem_placesOf _ _ _).mp hp).2, rfl⟩
    refine side_phases (fun t ht => ?_) (fun t ht => ?_) ?_ (fun t ht => ?_)
      (fun t _ => raises_afterwards _ _ t) s
    · obtain ⟨p, hp, rfl⟩ := hcomponent t ht
      exact keeps_committed _ (place_ne hi (by rw [hp]; decide))
    · obtain ⟨p, hp, rfl⟩ := hcomponent t ht
      exact raises_committed _ (by rw [nodeTarget_role, hp]; decide)
    · unfold committed
      have hrole : (mediaTarget stores declared shape index indexPolicy (some i)).role = .authority := by
        rw [nodeTarget_role]
        exact hi
      rw [hrole]
      exact runsAt_onMedia (runsAt_runCommitting hruns _)
    · obtain ⟨hall, hrole⟩ := mem_dependents.mp ht
      exact hother _ t hall (by rw [hrole]; decide)
  | unset =>
    show Side _ ((childLens i).get s) ((childLens i).get (Functor.discard (Topology.remove _ .unset key) s).2)
      (Functor.discard (Topology.remove _ .unset key) s).1
    rw [unset_phases hdef]
    have hnow : (mediaTopology stores declared shape index indexPolicy assemble).removedNow =
        [] ++ [mediaTarget stores declared shape index indexPolicy (some i)] := by
      unfold Topology.removedNow
      rw [authority_place hi hacc]
      rfl
    rw [hnow]
    refine side_phases (γ := AnyTarget (Media C I) K V P) (fun t ht => absurd ht List.not_mem_nil)
      (fun t ht => absurd ht List.not_mem_nil) (runsAt_onMedia hruns) (fun t ht => ?_)
      (fun t _ => raises_afterwards _ _ t) s
    obtain ⟨hall, hrole⟩ := OpSteps.mem_removedAfterCommit ht
    exact hother _ t hall (by rcases hrole with h | h <;> rw [h] <;> decide)

/-- What is committed to and what follows, place by place. -/
theorem write_places (hdef : (mediaTopology stores declared shape index indexPolicy assemble).deferred = false)
    (key : K) (value : V) (o : WriteOptions) :
    (mediaTopology stores declared shape index indexPolicy assemble).write key value o =
      forM (placesOf declared shape indexPolicy [.component, .authority]) (fun p =>
        committed (.write key value o) (mediaTarget stores declared shape index indexPolicy p)) >>=
      fun _ => forM (placesOf declared shape indexPolicy [.dependent]) fun p =>
        afterwards "set" (.write key value o) (mediaTarget stores declared shape index indexPolicy p) := by
  rw [write_phases hdef]
  unfold Topology.committing Topology.dependents
  rw [byRole_eq, byRole_eq, forM_map]
  refine bind_congr fun _ => ?_
  rw [forM_map]

/-- The places removed from at once, and those removed from afterwards. -/
def removedPlaces (declared : Fin n → Declared) (shape : ∀ i, Shape V P (part i))
    (indexPolicy : Option SyncPolicy) : List (Option (Fin n)) × List (Option (Fin n)) :=
  if placesOf declared shape indexPolicy [.authority] = [] then
    (placesOf declared shape indexPolicy [.component], placesOf declared shape indexPolicy [.dependent])
  else (placesOf declared shape indexPolicy [.authority],
    placesOf declared shape indexPolicy [.component, .dependent])

theorem unset_places (hacc : (mediaTopology stores declared shape index indexPolicy assemble).Accepted)
    (hdef : (mediaTopology stores declared shape index indexPolicy assemble).deferred = false) (key : K) :
    Functor.discard ((mediaTopology stores declared shape index indexPolicy assemble).remove .unset key) =
      forM (removedPlaces declared shape indexPolicy).1 (fun p =>
        Node.onMedia ((SyncOp.unset key).on (mediaTarget stores declared shape index indexPolicy p))) >>=
      fun _ => forM (removedPlaces declared shape indexPolicy).2 fun p =>
        afterwards "unset" (.unset key) (mediaTarget stores declared shape index indexPolicy p) := by
  have hnow := forM_map (mediaTarget stores declared shape index indexPolicy)
    (removedPlaces declared shape indexPolicy).1 fun t =>
      (Node.onMedia ((SyncOp.unset key).on t) : M (Node (Media C I) K V P) Unit)
  have hafter := forM_map (mediaTarget stores declared shape index indexPolicy)
    (removedPlaces declared shape indexPolicy).2
      (afterwards (S := Media C I) (V := V) (P := P) "unset" (.unset key))
  rw [unset_phases hdef, ← hnow, ← hafter]
  unfold Topology.removedNow Topology.removedAfterCommit removedPlaces
  rw [authority_head, Topology.components_byRole hacc]
  unfold Topology.dependents
  rw [byRole_eq, byRole_eq]
  rcases hp : placesOf declared shape indexPolicy [.authority] with _ | ⟨p, ps⟩
  · rw [if_pos rfl]
    rfl
  · have hp1 : ps = [] := by
      have hlen := length_authority hacc
      rw [hp, List.length_cons] at hlen
      exact List.eq_nil_of_length_eq_zero (by omega)
    rw [if_neg (List.cons_ne_nil _ _), hp1]
    have hsplit : placesOf declared shape indexPolicy [.component, .dependent] =
        placesOf declared shape indexPolicy [.component] ++
          placesOf declared shape indexPolicy [.dependent] :=
      placesOf_append declared shape indexPolicy [.component] [.dependent]
    rw [hsplit, List.map_append]
    rfl

/-! ## What a write that returns has done -/

/-- Whether the failure of the target the ask is passed on to would be reported. -/
def Ask.reported (role : Role) (policy : SyncPolicy) (a : Ask V) : Bool :=
  match role, a with
  | .authority, _ => true
  | .component, put _ _ => true
  | .component, unset => policy = .required
  | .dependent, _ => policy = .required
  | .fallback, _ => false

/-- The ask, as an index is told of it. -/
def Ask.onIndex {σ : Type} (i : Index σ K V) (key : K) : Ask V → M σ Unit
  | put value _ => i.sync key value
  | unset => Functor.discard (i.delete key)

abbrev indexLens (j : Fin m) : Lens (Node (Media C I) K V P) (I j) :=
  Node.mediaLens.comp (Media.index j)

theorem okAt_child (key : K) (a : Ask V) (i : Fin n) :
    OkAt (Media.child i) ((childAsk stores shape a i).run (stores i) key)
      ((a.syncOp key).on (mediaTarget stores declared shape index indexPolicy (some i))) := by
  rw [on_child]
  exact runsAt_zoom.okAt

theorem okAt_index (key : K) (a : Ask V) {j : Fin m} (hj : (index j).syncOnWrite = true) :
    OkAt (Media.index j) (a.onIndex (index j) key)
      ((a.syncOp key).on (mediaTarget stores declared shape index indexPolicy none)) := by
  have heach : ∀ s s', (a.syncOp key).on (mediaTarget stores declared shape index indexPolicy none) s =
      (.ok (), s') → forM ((List.finRange m).filter fun j => (index j).syncOnWrite)
        (fun j => (Media.index j).zoom (a.onIndex (index j) key)) s = (.ok (), s') := by
    intro s s' h
    have hops : forM ((List.ofFn fun j => (index j).zoom (Media.index j : Lens (Media C I) (I j))).filter
        fun i => i.syncOnWrite) (fun i => a.onIndex i key) s = (.ok (), s') := by
      cases a with
      | put value o => exact each_ok h
      | unset =>
        have hrun : each (List.ofFn fun j => (index j).zoom (Media.index j : Lens (Media C I) (I j)))
            (fun i => Functor.discard (i.delete key)) "delete" s = (.ok (), s') := by
          rw [← h]
          exact (congrFun (discard_return _ false) s).symm
        exact each_ok hrun
    rw [List.ofFn_eq_map, List.filter_map, forM_map] at hops
    have hcongr : (forM ((List.finRange m).filter fun j => (index j).syncOnWrite) fun j =>
        a.onIndex ((index j).zoom (Media.index j : Lens (Media C I) (I j))) key) =
        forM ((List.finRange m).filter fun j => (index j).syncOnWrite) fun j =>
          (Media.index j).zoom (a.onIndex (index j) key) := by
      refine forM_congr fun j _ => ?_
      cases a with
      | put value o => rfl
      | unset => exact Lens.zoom_discard _ _
    rw [← hcongr]
    exact hops
  intro s s' h
  refine OkAt.forM (x := j) (f := fun j => (Media.index j).zoom (a.onIndex (index j) key))
    runsAt_zoom.okAt ?_ ?_ ?_ s s' (heach s s' h)
  · exact List.mem_filter.mpr ⟨List.mem_finRange j, hj⟩
  · exact (List.nodup_finRange m).filter _
  · intro y _ hy
    exact (Media.index_apart (Ne.symm hy)).zoom_keeps _

omit [DecidableEq K] in
theorem okAt_onMedia {τ : Type} {k : Lens (Media C I) τ} {q : M τ Unit} {p : M (Media C I) Unit}
    (h : OkAt k q p) : OkAt (Node.mediaLens.comp k) q
      (Node.onMedia p : M (Node (Media C I) K V P) Unit) := by
  intro s s' hs
  rw [Node.onMedia_apply] at hs
  obtain ⟨hr, rfl⟩ := Prod.mk.inj hs
  exact h s.media _ (Prod.ext hr rfl)

/-- Where the ask returns, the part under `k` of the media was asked, if its place is one
    whose failure is reported. -/
theorem okAt_phases {τ : Type} {k : Lens (Media C I) τ} {q : M τ Unit} {p : Option (Fin n)}
    (hacc : (mediaTopology stores declared shape index indexPolicy assemble).Accepted)
    (hdef : (mediaTopology stores declared shape index indexPolicy assemble).deferred = false)
    (key : K) (a : Ask V) (hp : p ∈ nodePlaces shape indexPolicy)
    (hok : OkAt k q ((a.syncOp key).on (mediaTarget stores declared shape index indexPolicy p)))
    (hother : ∀ p', p' ≠ p → Moves k.Keeps
      ((a.syncOp key).on (mediaTarget stores declared shape index indexPolicy p')))
    (hreported : a.reported (placeRole declared p) (placePolicy declared indexPolicy p) = true) :
    OkAt (Node.mediaLens.comp k) q
      (a.phases (mediaTopology stores declared shape index indexPolicy assemble) key) := by
  have hin : ∀ roles : List Role, p ∈ placesOf declared shape indexPolicy roles ↔
      placeRole declared p ∈ roles := fun roles =>
    (mem_placesOf _ _ _).trans (and_iff_right hp)
  have hplain : ∀ p', p' ≠ p → Moves (Node.mediaLens.comp k).Keeps (Node.onMedia ((a.syncOp key).on
      (mediaTarget stores declared shape index indexPolicy p')) : M (Node (Media C I) K V P) Unit) :=
    fun p' hne n => hother p' hne n.media
  have hcommitted : ∀ p', p' ≠ p → Moves (Node.mediaLens.comp k).Keeps
      (committed (a.syncOp key) (mediaTarget stores declared shape index indexPolicy p')) :=
    fun p' hne n => moves_runCommitting (hother p' hne) _ _ n.media
  have hafter : ∀ what p', p' ≠ p → Moves (Node.mediaLens.comp k).Keeps
      (afterwards what (a.syncOp key) (mediaTarget stores declared shape index indexPolicy p')) :=
    fun what p' hne n => moves_settle (hother p' hne) _ _ _ _ _ n.media
  have hsettle : ∀ what, placePolicy declared indexPolicy p = .required →
      OkAt (Node.mediaLens.comp k) q
        (afterwards what (a.syncOp key) (mediaTarget stores declared shape index indexPolicy p)) := by
    intro what hpolicy
    unfold afterwards
    rw [nodeTarget_policy, hpolicy]
    exact okAt_onMedia (hok.settle _ _ _)
  cases a with
  | put value o =>
    show OkAt _ q (Topology.write _ key value o)
    rw [write_places hdef]
    have hfirst : (placesOf declared shape indexPolicy [.component, .authority]).Nodup :=
      nodup_placesOf _ _ _ (by decide)
    have hlast : (placesOf declared shape indexPolicy [.dependent]).Nodup :=
      nodup_placesOf _ _ _ (by decide)
    by_cases hdep : placeRole declared p = .dependent
    · rw [hdep] at hreported
      refine okAt_after (fun h => ?_) ((hin _).mpr (by simp [hdep])) hlast
        (hsettle _ (of_decide_eq_true hreported)) hcommitted (hafter _)
      simpa [hdep] using (hin _).mp h
    · refine okAt_first ((hin _).mpr ?_) hfirst (fun h => hdep (by simpa using (hin _).mp h))
        (okAt_onMedia (hok.runCommitting _ _)) hcommitted (hafter _)
      cases hrole : placeRole declared p <;> simp [hrole, Ask.reported] at hreported hdep ⊢
  | unset =>
    show OkAt _ q (Functor.discard (Topology.remove _ .unset key))
    rw [unset_places hacc hdef]
    unfold removedPlaces
    have hnodup : ∀ roles : List Role, roles.Nodup →
        (placesOf declared shape indexPolicy roles).Nodup := fun _ => nodup_placesOf _ _ _
    split
    · next hnone =>
      have hauth : placeRole declared p ≠ .authority := by
        intro h
        have hmem := (hin [.authority]).mpr (List.mem_singleton.mpr h)
        rw [hnone] at hmem
        cases hmem
      by_cases hcomp : placeRole declared p = .component
      · exact okAt_first ((hin _).mpr (by simp [hcomp])) (hnodup _ (by decide))
          (fun h => by simpa [hcomp] using (hin _).mp h) (okAt_onMedia hok) hplain (hafter _)
      · have hdep : placeRole declared p = .dependent := by
          cases hrole : placeRole declared p <;> simp [hrole, Ask.reported] at hreported hcomp hauth ⊢
        rw [hdep] at hreported
        exact okAt_after (fun h => hcomp (by simpa using (hin _).mp h)) ((hin _).mpr (by simp [hdep]))
          (hnodup _ (by decide)) (hsettle _ (of_decide_eq_true hreported)) hplain (hafter _)
    · by_cases hauth : placeRole declared p = .authority
      · exact okAt_first ((hin _).mpr (by simp [hauth])) (hnodup _ (by decide))
          (fun h => by simpa [hauth] using (hin _).mp h) (okAt_onMedia hok) hplain (hafter _)
      · have hpolicy : placePolicy declared indexPolicy p = .required := by
          cases hrole : placeRole declared p <;>
            simp [hrole, Ask.reported] at hreported hauth <;> exact hreported
        refine okAt_after (fun h => hauth (by simpa using (hin _).mp h)) ((hin _).mpr ?_)
          (hnodup _ (by decide)) (hsettle _ hpolicy) hplain (hafter _)
        cases hrole : placeRole declared p <;> simp [hrole, Ask.reported] at hreported hauth ⊢

end AtNode

/-! ## Trees -/

/-- A leaf that writes one key whole or not at all, and at once. It is no composition, so
    what it raises does not say that something after a commit failed. -/
structure Leaf.Atomic {K V : Type} (l : Leaf K V) : Prop where
  atOnce : l.store.writesAreDeferred = false
  whole : ∀ (a : Ask V) key s e s', a.run l.store key s = (.error e, s') →
    s' = s ∧ e.isPartialSync = false

namespace Composition

/-- The leaf at the end of the chain of authorities is as it was. -/
def Untouched : {K V : Type} → (c : Composition K V) → c.State → c.State → Prop
  | _, _, .leaf _, s, s' => s' = s
  | _, _, .imap c _ _, s, s' => c.Untouched s s'
  | _, _, .imapKeys _ c _ _, s, s' => c.Untouched s s'
  | _, _, .node _ _ _ _ _ _ child declared _ _ _ _ _, s, s' =>
    ∀ i, (declared i).role = .authority → (child i).Untouched (s.media.1 i) (s'.media.1 i)

/-- The leaf at the end of the chain of authorities is as its own write of its part of the
    record leaves it. -/
def Stored : {K V : Type} → [DecidableEq K] → (c : Composition K V) → K → Ask V →
    c.State → c.State → Prop
  | _, _, _, .leaf l, key, a, s, s' => a.run l.store key s = (.ok (), s')
  | _, _, _, .imap c _ inverse, key, a, s, s' => c.Stored key (a.map inverse) s s'
  | _, _, _, .imapKeys _ c toStore _, key, a, s, s' => c.Stored (toStore key) a s s'
  | _, _, _, .node _ _ _ _ _ _ child declared shape _ _ _ _, key, a, s, s' =>
    ∀ i, (declared i).role = .authority →
      (child i).Stored key (childAsk (fun i => (child i).store) shape a i) (s.media.1 i) (s'.media.1 i)

/-- Every `REQUIRED` dependent was written, of each node that is reached through targets
    that meet `into`. -/
def Required (into : ∀ {V : Type}, Role → SyncPolicy → Ask V → Bool) :
    {K V : Type} → [DecidableEq K] → (c : Composition K V) → K → Ask V → c.State → c.State → Prop
  | _, _, _, .leaf _, _, _, _, _ => True
  | _, _, _, .imap c _ inverse, key, a, s, s' => c.Required into key (a.map inverse) s s'
  | _, _, _, .imapKeys _ c toStore _, key, a, s, s' => c.Required into (toStore key) a s s'
  | _, _, _, .node _ _ _ _ _ _ child declared shape _ index indexPolicy _, key, a, s, s' =>
    (∀ i, (declared i).role = .dependent → (declared i).policy = .required →
      (childAsk (fun i => (child i).store) shape a i).run (child i).store key (s.media.1 i) =
        (.ok (), s'.media.1 i)) ∧
    (indexPolicy = some .required → ∀ j, (index j).index.syncOnWrite = true →
      a.onIndex (index j).index key (s.media.2 j) = (.ok (), s'.media.2 j)) ∧
    ∀ i, into (declared i).role (declared i).policy a = true →
      (child i).Required into key (childAsk (fun i => (child i).store) shape a i)
        (s.media.1 i) (s'.media.1 i)

/-- What an exit of an ask says of a tree. -/
def Outcome {K V : Type} [DecidableEq K] (c : Composition K V) (key : K) (a : Ask V) (s : c.State) :
    Except Exn Unit × c.State → Prop
  | (.ok _, s') => c.Stored key a s s' ∧ c.Required Ask.reported key a s s'
  | (.error e, s') => if e.isPartialSync = true then c.Stored key a s s' else c.Untouched s s'

theorem untouched_refl {K V : Type} (c : Composition K V) (s : c.State) : c.Untouched s s := by
  induction c with
  | leaf l => rfl
  | imap c f g ih => exact ih s
  | imapKeys dec c f g ih => exact ih s
  | node name zip P n part dec child declared shape m index policy assemble ih =>
    exact fun i _ => ih i (s.media.1 i)

/-- What an ask does to a node: it is refused, or it goes through the two phases. -/
theorem ask_node {S K V P : Type} [DecidableEq K] (T : Topology S K V P) (name : String)
    (zip : Option Zip) (key : K) (a : Ask V) (s : Node S K V P) :
    let store := match zip with
      | none => T.store name
      | some z => z.store T name
    (∃ e : Exn, e.isRecordWriteError = false ∧ a.run store key s = (.error e, s) ∧
      ∃ v o, a = .put v o ∧ o.createdAt.isSome = true ∧ T.supportsWriteClock = false) ∨
    a.run store key s = (match a with
      | .put v o => T.write key v o
      | .unset => Functor.discard (T.remove .unset key) : M (Node S K V P) Unit) s := by
  intro store
  cases a with
  | unset => exact .inr (by cases zip <;> rfl)
  | put v o =>
    have hset : (Ask.put v o).run store key s =
        (T.admitWrite name o >>= fun _ => T.write key v o : M (Node S K V P) Unit) s := by
      cases zip <;> rfl
    rw [hset]
    unfold Topology.admitWrite requireWriteClockSupported
    split
    · next hrefused =>
      refine .inl ⟨_, rfl, rfl, v, o, rfl, hrefused.1, ?_⟩
      exact Bool.eq_false_of_not_eq_true hrefused.2
    · exact .inr rfl

theorem ask_outcome {K V : Type} (c : Composition K V) (hleaf : c.Leaves Leaf.Atomic) :
    ∀ [DecidableEq K], c.Constructed → ∀ key a s, c.Outcome key a s (a.run c.store key s) := by
  induction c with
  | leaf l =>
    intro _ _ key a s
    rcases h : a.run l.store key s with ⟨e | u, s'⟩
    · obtain ⟨hs, he⟩ := hleaf.whole a key s e s' h
      have hrun : a.run (leaf l).store key s = (.error e, s') := h
      rw [hrun]
      show if e.isPartialSync = true then _ else _
      rw [he, if_neg Bool.false_ne_true]
      exact hs
    · have hrun : a.run (leaf l).store key s = (.ok (), s') := h
      rw [hrun]
      exact ⟨h, trivial⟩
  | imap c f g ih =>
    intro _ hcon key a s
    have h := ih hleaf hcon key (a.map g) s
    have hrun : a.run (imap c f g).store key s = (a.map g).run c.store key s := by cases a <;> rfl
    rw [hrun]
    rcases hr : (a.map g).run c.store key s with ⟨e | u, s'⟩ <;> rw [hr] at h <;> exact h
  | imapKeys dec c f g ih =>
    intro _ hcon key a s
    have h := ih hleaf hcon (f key) a s
    have hrun : a.run (imapKeys dec c f g).store key s = a.run c.store (f key) s := by
      cases a <;> rfl
    rw [hrun]
    rcases hr : a.run c.store (f key) s with ⟨e | u, s'⟩ <;> rw [hr] at h <;> exact h
  | node name zip P n part dec child declared shape m index policy assemble ih =>
    intro _ hcon key a s
    have hacc := Topology.accepted hcon.2.1
    have hdef : (topologyOf child declared shape index policy assemble).deferred = false :=
      deferred_topologyOf fun i => undeferred (child i) ((hleaf i).mono fun l hl => hl.atOnce)
    have hside := fun i hi => side_node (i := i) hi hacc hdef key a s
    have hchild := fun i => ih i (hleaf i) (hcon.2.2 i) key
      (childAsk (fun i => (child i).store) shape a i) (s.media.1 i)
    rcases ask_node (topologyOf child declared shape index policy assemble) name zip key a s with
      ⟨e, he, hrun, -⟩ | hrun
    · have hrun' : a.run (node name zip P n part dec child declared shape m index policy
          assemble).store key s = (.error e, s) := hrun
      rw [hrun']
      have hafter : e.isPartialSync = false := by
        cases hp : e.isPartialSync
        · rfl
        · simp [Exn.isRecordWriteError, hp] at he
      show if e.isPartialSync = true then _ else _
      rw [hafter, if_neg Bool.false_ne_true]
      exact untouched_refl (node name zip P n part dec child declared shape m index policy assemble) s
    · have hphases : a.run (node name zip P n part dec child declared shape m index policy
          assemble).store key s =
            a.phases (topologyOf child declared shape index policy assemble) key s := by
        cases a <;> exact hrun
      rw [hphases]
      rcases hr : a.phases (topologyOf child declared shape index policy assemble) key s with
        ⟨e | u, s'⟩ <;> rw [hr] at hside
      · show if e.isPartialSync = true then _ else _
        split
        · next hp =>
          intro i hi
          have h : if e.isPartialSync = true then _ else _ := hside i hi
          rw [if_pos hp] at h
          have hc := hchild i
          rcases h with hok | ⟨e', he', herr⟩
          · rw [hok] at hc
            exact hc.1
          · rw [herr] at hc
            have hc' : if e'.isPartialSync = true then _ else _ := hc
            rw [if_pos he'] at hc'
            exact hc'
        · next hp =>
          intro i hi
          have h : if e.isPartialSync = true then _ else _ := hside i hi
          rw [if_neg hp] at h
          have hc := hchild i
          rcases h with hsame | ⟨e', he', herr⟩
          · rw [hsame]
            exact untouched_refl (child i) (s.media.1 i)
          · rw [herr] at hc
            have hc' : if e'.isPartialSync = true then _ else _ := hc
            rw [he', if_neg Bool.false_ne_true] at hc'
            exact hc'
      · have hran : ∀ i, a.reported (declared i).role (declared i).policy = true →
            (childAsk (fun i => (child i).store) shape a i).run (child i).store key (s.media.1 i) =
              (.ok (), s'.media.1 i) := by
          intro i hi
          exact okAt_phases hacc hdef key a (mem_nodePlaces _ _ i) (okAt_child key a i)
            (fun p' hne => on_keeps_child _ _ _ _ _ _ hne) hi s s' hr
        have hboth : ∀ i, a.reported (declared i).role (declared i).policy = true →
            (child i).Stored key (childAsk (fun i => (child i).store) shape a i) (s.media.1 i)
              (s'.media.1 i) ∧
            (child i).Required Ask.reported key (childAsk (fun i => (child i).store) shape a i)
              (s.media.1 i) (s'.media.1 i) := by
          intro i hi
          have hc := hchild i
          rw [hran i hi] at hc
          exact hc
        refine ⟨fun i hi => (hboth i (by rw [hi]; rfl)).1, fun i hi hp => hran i ?_, ?_,
          fun i hi => (hboth i hi).2⟩
        · rw [hi, hp]
          rfl
        · intro hpolicy j hj
          refine okAt_phases (p := none) hacc hdef key a
            (none_mem_nodePlaces _ _ (by rw [hpolicy]; rfl)) (okAt_index key a hj)
            (fun p' hne => ?_) (by rw [hpolicy]; rfl) s s' hr
          cases p' with
          | none => exact absurd rfl hne
          | some i => exact on_keeps_index _ _ _ _ _ _ i j

/-- A composition only raises what says which side of the commit failed, unless it refuses
    the write clock before it asks any target. -/
theorem set_raises {K V : Type} (c : Composition K V) (hcomposed : c.Composed) :
    ∀ [DecidableEq K] (key : K) (value : V) (o : WriteOptions) (s : c.State) (e : Exn) (s' : c.State),
      c.store.set key value o s = (.error e, s') → e.isRecordWriteError = true ∨
        o.createdAt.isSome = true ∧ c.store.supportsWriteClock = false ∧ s' = s := by
  induction c with
  | leaf l => exact hcomposed.elim
  | imap c f g ih =>
    intro _ key value o s e s' h
    exact ih hcomposed key (g value) o s e s' h
  | imapKeys dec c f g ih =>
    intro _ key value o s e s' h
    exact ih hcomposed (f key) value o s e s' h
  | node name zip P n part dec child declared shape m index policy assemble ih =>
    intro _ key value o s e s' h
    have hclock : (node name zip P n part dec child declared shape m index policy
        assemble).store.supportsWriteClock =
          (topologyOf child declared shape index policy assemble).supportsWriteClock := by
      cases zip <;> rfl
    rcases ask_node (topologyOf child declared shape index policy assemble) name zip key (.put value o)
      s with ⟨e', -, hrun, v, o', hput, hcreated, hunsupported⟩ | hrun
    · have hset := h.symm.trans hrun
      obtain ⟨hv, ho⟩ := Ask.put.inj hput
      rw [hclock, ho]
      exact .inr ⟨hcreated, hunsupported, (Prod.mk.inj hset).2⟩
    · have hset := h.symm.trans hrun
      refine .inl (raises_write (topologyOf child declared shape index policy assemble) key value o
        s e ?_)
      exact (Prod.mk.inj hset).1.symm

/-- What a point set raises, and what it leaves at the end of the chain of authorities. A
    refusal comes before any target is asked. -/
theorem set_tells_side {K V : Type} [DecidableEq K] (c : Composition K V) (hcomposed : c.Composed)
    (hleaf : c.Leaves Leaf.Atomic) (hcon : c.Constructed) (key : K) (value : V) (o : WriteOptions)
    (s : c.State) :
    match c.store.set key value o s with
    | (.ok _, s') => c.Stored key (.put value o) s s' ∧
        c.Required Ask.reported key (.put value o) s s'
    | (.error e, s') => e.isUncommitted = true ∧ c.Untouched s s' ∨
        e.isPartialSync = true ∧ c.Stored key (.put value o) s s' ∨
        o.createdAt.isSome = true ∧ c.store.supportsWriteClock = false ∧ s' = s := by
  have h := ask_outcome c hleaf hcon key (.put value o) s
  have hraises := set_raises c hcomposed key value o s
  have hset : (Ask.put value o).run c.store key s = c.store.set key value o s := rfl
  rw [hset] at h
  rcases hr : c.store.set key value o s with ⟨e | u, s'⟩ <;> rw [hr] at h
  · have hside : if e.isPartialSync = true then _ else _ := h
    show _ ∨ _
    rcases hraises e s' hr with hrecord | hrefused
    · cases hp : e.isPartialSync with
      | true =>
        rw [if_pos hp] at hside
        exact .inr (.inl ⟨rfl, hside⟩)
      | false =>
        rw [if_neg (by rw [hp]; exact Bool.false_ne_true)] at hside
        unfold Exn.isRecordWriteError at hrecord
        rw [hp, Bool.or_false] at hrecord
        exact .inl ⟨hrecord, hside⟩
    · exact .inr (.inr hrefused)
  · exact h

/-! ## A memory leaf, and one that fails -/

theorem physicalKeyBlob_plain {K V α VB : Type} [DecidableEq α] (b : KvBackend K V α VB) {k : K}
    {e : Exn} (h : b.physicalKeyBlob k = .error e) : e.isPartialSync = false := by
  unfold KvBackend.physicalKeyBlob KvSet.leafNeedsEscaping at h
  cases hs : b.kvset.scopeSchema with
  | none =>
    rw [hs] at h
    cases h
  | some schema =>
    rw [hs] at h
    simp only at h
    split at h
    · cases h
      rfl
    · cases h

/-- A memory store writes a key whole, or raises before it does anything. -/
theorem memory_ask_error {K V α VB : Type} [DecidableEq K] [DecidableEq α]
    (b : MemoryKvBackend K V α VB) (a : Ask V) (key : K) (r : MemoryRoot α VB) {e : Exn}
    {r' : MemoryRoot α VB} (h : a.run b.store key r = (.error e, r')) :
    r' = r ∧ e.isPartialSync = false := by
  rcases hp : b.physicalKeyBlob key with e' | p
  · have hrun : a.run b.store key r = (.error e', r) := by
      cases a with
      | put v o =>
        show b.set key v o r = _
        unfold MemoryKvBackend.set
        rw [b.physicalKey_error hp, raise_bind]
        rfl
      | unset =>
        show Functor.discard (b.delete key) r = _
        unfold MemoryKvBackend.delete
        rw [b.physicalKey_error hp, raise_bind]
        rfl
    obtain ⟨he, hr⟩ := Prod.mk.inj (hrun.symm.trans h)
    rw [← Except.error.inj he]
    exact ⟨hr.symm, physicalKeyBlob_plain b.toKvBackend hp⟩
  · cases a with
    | put v o =>
      have hset : b.set key v o r = (.error e, r') := h
      rw [b.set_apply hp] at hset
      cases hset
    | unset =>
      have hunset : Functor.discard (b.delete key) r = (.error e, r') := h
      rw [discard_apply, b.delete_apply hp] at hunset
      cases hunset

theorem memoryLeaf_atomic {K V α VB : Type} [DecidableEq K] [DecidableEq α]
    (b : MemoryKvBackend K V α VB) : (memoryLeaf b).Atomic :=
  ⟨rfl, fun a key r _ _ h => memory_ask_error b a key r h⟩

/-- A memory store that raises `e` in place of a point write. -/
def failingLeaf {K V α VB : Type} [DecidableEq K] [DecidableEq α] (b : MemoryKvBackend K V α VB)
    (e : Exn) : Leaf K V :=
  ⟨MemoryRoot α VB, { b.store with set := fun _ _ _ => raise e, unset := fun _ => raise e }⟩

theorem failingLeaf_atomic {K V α VB : Type} [DecidableEq K] [DecidableEq α]
    (b : MemoryKvBackend K V α VB) {e : Exn} (he : e.isPartialSync = false) :
    (failingLeaf b e).Atomic where
  atOnce := rfl
  whole a key s e' s' h := by
    have hraise : (.error e, s) = ((.error e', s') : Except Exn Unit × MemoryRoot α VB) := by
      cases a <;> exact h
    obtain ⟨hsame, hs⟩ := Prod.mk.inj hraise
    rw [← Except.error.inj hsame]
    exact ⟨hs.symm, he⟩

/-! ## On two copies, and where a best-effort copy hides a `REQUIRED` one -/

/-- Two memory stores, kept in step. -/
def twoCopies : Composition (List Char) String :=
  mirror (leaf (memoryLeaf (MemoryKvBackend.plain String)))
    (leaf (memoryLeaf (MemoryKvBackend.plain String))) .required

theorem twoCopies_atomic : twoCopies.Leaves Leaf.Atomic
  | ⟨0, _⟩ => memoryLeaf_atomic _
  | ⟨1, _⟩ => memoryLeaf_atomic _

theorem twoCopies_constructed : twoCopies.Constructed :=
  ⟨fun | ⟨0, _⟩ => rfl | ⟨1, _⟩ => rfl, rfl, fun | ⟨0, _⟩ => trivial | ⟨1, _⟩ => trivial⟩

theorem set_tells_side_twoCopies :
    let s : twoCopies.State := pairState (.empty 0) (.empty 0)
    match twoCopies.store.set ['a'] "x" .none s with
    | (.ok _, s') => twoCopies.Stored ['a'] (.put "x" .none) s s' ∧
        twoCopies.Required Ask.reported ['a'] (.put "x" .none) s s'
    | (.error e, s') => e.isUncommitted = true ∧ twoCopies.Untouched s s' ∨
        e.isPartialSync = true ∧ twoCopies.Stored ['a'] (.put "x" .none) s s' ∨
        WriteOptions.none.createdAt.isSome = true ∧ twoCopies.store.supportsWriteClock = false ∧
          s' = s :=
  set_tells_side twoCopies trivial twoCopies_atomic twoCopies_constructed ['a'] "x" .none _

/-- A copy that is itself two copies, the second of them on a full disk. -/
def halfFull : Composition (List Char) String :=
  mirror (leaf (memoryLeaf (MemoryKvBackend.plain String)))
    (leaf (failingLeaf (MemoryKvBackend.plain String) (.medium "disk full"))) .required

/-- It is kept on a best-effort basis. -/
def hidden : Composition (List Char) String :=
  mirror (leaf (memoryLeaf (MemoryKvBackend.plain String))) halfFull .bestEffort

/-- The set returns, and a `REQUIRED` dependent was not written. -/
theorem hidden_set_returns :
    hidden.Composed ∧ hidden.Leaves Leaf.Atomic ∧ hidden.Constructed ∧
    ∃ s s' : hidden.State, hidden.store.set ['a'] "x" .none s = (.ok (), s') ∧
      ¬ hidden.Required (fun role _ _ => role ≠ .fallback) ['a'] (.put "x" .none) s s' := by
  have hfull : halfFull.Leaves Leaf.Atomic
    | ⟨0, _⟩ => memoryLeaf_atomic _
    | ⟨1, _⟩ => failingLeaf_atomic _ rfl
  have hbuilt : halfFull.Constructed :=
    ⟨fun | ⟨0, _⟩ => rfl | ⟨1, _⟩ => rfl, rfl, fun | ⟨0, _⟩ => trivial | ⟨1, _⟩ => trivial⟩
  refine ⟨trivial, fun | ⟨0, _⟩ => memoryLeaf_atomic _ | ⟨1, _⟩ => hfull,
    ⟨fun | ⟨0, _⟩ => rfl | ⟨1, _⟩ => rfl, rfl, fun | ⟨0, _⟩ => trivial | ⟨1, _⟩ => hbuilt⟩, ?_⟩
  let inner : halfFull.State := pairState (.empty 0) (.empty 0)
  let start : hidden.State := pairState (.empty 0) inner
  refine ⟨start, (hidden.store.set ['a'] "x" .none start).2, rfl, fun hrequired => ?_⟩
  -- The disk is full: the write of the inner copy raised.
  have hwritten := (hrequired.2.2 1 rfl).1 1 rfl rfl
  cases hwritten

end Composition

end Kvtsjl
