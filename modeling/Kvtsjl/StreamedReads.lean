import Kvtsjl.Existence
import Kvtsjl.OpSteps
import Kvtsjl.Reads
import Kvtsjl.Streams
import Kvtsjl.Tree

/-
  A streamed read shows what a plain one does.
  `Serves` says so of one store, by what it holds for a key, and says that a fill leaves it
  holding nothing or the value filled. The argument is an induction over the tree. At a node
  the loop over the filled targets keeps this invariant: the source holds the value, the
  targets already filled hold it or nothing, and the stream at hand is the whole of it.
-/

namespace Kvtsjl

open Assoc (Dict)
open Effects Prog

section Serves

variable {σ K A : Type}

/-- Holding nothing for the key, or this value. -/
def Nears (Holds : K → Option (List A) → σ → Prop) (key : K) (v : List A) (x : σ) : Prop :=
  Holds key none x ∨ Holds key (some v) x

/-- Whatever `get` answers from a state is held there, and what is held is what a streamed
    read yields, however often it is asked. -/
structure Serves (s : KvStore σ K (List A)) (streaming : Streaming σ K A)
    (Holds : K → Option (List A) → σ → Prop) : Prop where
  get : ∀ {key x r}, (s.get key x).1 = .ok r → Holds key r x
  readStream : ∀ {key x r}, Holds key r x → ∃ c y, streaming.readStream key x = (.ok c, y) ∧
    c.map List.flatten = r ∧ Holds key r y
  stat : ∀ {key x r}, Holds key r x → ∃ m y, s.stat key x = (.ok m, y) ∧
    m.isSome = r.isSome ∧ Holds key r y
  setStream : ∀ {key options size x chunks}, Holds key none x →
    Nears Holds key chunks.flatten (streaming.setStream key options size (x, chunks)).2.1
  supported : ∀ {key options size x e}, options.ttl = none →
    (options.createdAt = none ∨ s.supportsWriteClock = true) →
    (streaming.setStream key options size x).1 = .error e → e.isUnsupported = false

theorem StreamLeaf.serves {K A : Type} (l : StreamLeaf K A) :
    Serves l.store l.streaming fun key r x => (l.store.get key x).1 = .ok r where
  get h := h
  readStream h := l.reads (Prod.ext h rfl)
  stat h := l.stats (Prod.ext h rfl)
  setStream h := l.stores h
  supported := l.supported

end Serves

namespace Streamed

/-! ## What the looked up places hold -/

section Places

variable {K A : Type} {n : Nat} {C : Fin n → Type} (Holds : ∀ i, K → Option (List A) → C i → Prop)

/-- The first of the places that holds anything holds `r`. -/
def HeldFrom (key : K) (x : ∀ i, C i) : List (Fin n) → Option (List A) → Prop
  | [], r => r = none
  | i :: ps, r => (Holds i key none (x i) ∧ HeldFrom key x ps r) ∨ (r.isSome ∧ Holds i key r (x i))

variable {Holds} {key : K} {x : ∀ i, C i} {v : List A}

theorem heldFrom_none {ps : List (Fin n)} :
    HeldFrom Holds key x ps none ↔ ∀ i ∈ ps, Holds i key none (x i) := by
  induction ps with
  | nil => simp [HeldFrom]
  | cons i ps ih => simp [HeldFrom, ih]

/-- What is held at other places is not asked for. -/
theorem heldFrom_congr {y : ∀ i, C i} {ps : List (Fin n)} {r : Option (List A)} (h : ∀ i ∈ ps, y i = x i) :
    HeldFrom Holds key y ps r ↔ HeldFrom Holds key x ps r := by
  induction ps with
  | nil => exact Iff.rfl
  | cons i ps ih =>
    unfold HeldFrom
    rw [h i List.mem_cons_self, ih fun j hj => h j (List.mem_cons_of_mem _ hj)]

/-- Behind places that hold nothing or the value comes one that holds it. -/
theorem heldFrom_some {past ps : List (Fin n)} {i : Fin n}
    (hpast : ∀ j ∈ past, Nears (Holds j) key v (x j)) (hi : Holds i key (some v) (x i)) :
    HeldFrom Holds key x (past ++ i :: ps) (some v) := by
  induction past with
  | nil => exact .inr ⟨rfl, hi⟩
  | cons j past ih =>
    rcases hpast j List.mem_cons_self with hnone | hsome
    · exact .inl ⟨hnone, ih fun l hl => hpast l (List.mem_cons_of_mem _ hl)⟩
    · exact .inr ⟨rfl, hsome⟩

theorem heldFrom_append {past ps : List (Fin n)} {r : Option (List A)}
    (hpast : ∀ j ∈ past, Holds j key none (x j)) (hps : HeldFrom Holds key x ps r) :
    HeldFrom Holds key x (past ++ ps) r := by
  induction past with
  | nil => exact hps
  | cons j past ih =>
    exact .inl ⟨hpast j List.mem_cons_self, ih fun l hl => hpast l (List.mem_cons_of_mem _ hl)⟩

theorem heldFrom_nears {ps : List (Fin n)} (h : ∀ j ∈ ps, Nears (Holds j) key v (x j)) :
    Nears (fun key r x => HeldFrom Holds key x ps r) key v x := by
  induction ps with
  | nil => exact .inl rfl
  | cons i ps ih =>
    rcases h i List.mem_cons_self with hnone | hsome
    · exact (ih fun j hj => h j (List.mem_cons_of_mem _ hj)).imp (fun hps => .inl ⟨hnone, hps⟩)
        fun hps => .inl ⟨hnone, hps⟩
    · exact .inr (.inr ⟨rfl, hsome⟩)

end Places

/-! ## One node -/

section Node

variable {K A : Type} [DecidableEq K] [DecidableEq A] {n m : Nat} {C : Fin n → Type} {I : Fin m → Type}
  (stores : ∀ i, KvStore (C i) K (List A)) (streams : ∀ i, Streaming (C i) K A)
  (declared : Fin n → Declared)

/-- The places a read consults, in order. -/
def lookupPlaces : List (Fin n) :=
  ((List.finRange n).filter fun i => (declared i).lookedUp = some .beforeAuthority)
    ++ ((List.finRange n).find? fun i => (declared i).role = .authority).toList
    ++ (List.finRange n).filter fun i => (declared i).lookedUp = some .afterAuthority

abbrev target (i : Fin n) : StreamTarget (Media C I) K A := targets stores streams declared i

theorem lookups_eq : (nodeStreams stores streams declared : StreamTopology (Media C I) K A).lookups =
    (lookupPlaces declared).map (target stores streams declared) := by
  unfold StreamTopology.lookups StreamTopology.wholeAuthority lookupPlaces nodeStreams
  rw [List.filter_map, List.filter_map, List.find?_map, List.map_append, List.map_append]
  refine congrArg₂ (· ++ ·) (congrArg₂ (· ++ ·) rfl ?_) rfl
  cases h : (List.finRange n).find? fun i => (declared i).role = .authority with
  | none =>
    have hnone : (List.finRange n).find? ((fun t : StreamTarget (Media C I) K A => decide (t.role = .authority)) ∘
        targets stores streams declared) = none := h
    rw [hnone]
    rfl
  | some i =>
    have hsome : (List.finRange n).find? ((fun t : StreamTarget (Media C I) K A => decide (t.role = .authority)) ∘
        targets stores streams declared) = some i := h
    rw [hsome]
    rfl

/-- Without what its targets do in chunks, a node is the composition over its children. -/
theorem topology_eq (indexes : List (Index (Media C I) K (List A))) :
    (nodeStreams stores streams declared : StreamTopology (Media C I) K A).topology =
      nodeTopology (fun i => (stores i).zoom (Media.child i)) declared (fun _ => .whole) indexes none none := by
  unfold StreamTopology.topology nodeTopology nodeStreams
  have hparts : (List.finRange n).filterMap (fun i => (Shape.whole : Shape (List A) Empty (List A)).part?
      (declared i) ((stores i).zoom (Media.child i : Lens (Media C I) (C i)))) = [] :=
    List.filterMap_eq_nil_iff.mpr fun _ _ => rfl
  have htargets : (List.finRange n).filterMap (fun i => (Shape.whole : Shape (List A) Empty (List A)).target?
      (declared i) ((stores i).zoom (Media.child i : Lens (Media C I) (C i)))) =
        (List.finRange n).map fun i => storeTarget (declared i)
          ((stores i).zoom (Media.child i : Lens (Media C I) (C i))) some id :=
    congrFun List.filterMap_eq_map _
  rw [hparts, htargets, List.map_map]
  show Topology.mk _ [] none = Topology.mk (_ ++ []) [] none
  rw [List.append_nil]
  rfl

omit [DecidableEq K] [DecidableEq A] in
theorem plain_lookups {S : Type} (T : StreamTopology S K A) :
    T.topology.lookups = T.lookups.map fun t => t.toTarget := by
  unfold Topology.lookups Topology.wholeAuthority StreamTopology.lookups StreamTopology.wholeAuthority
    StreamTopology.topology
  rw [List.filter_map, List.filter_map, List.find?_map, List.map_append, List.map_append]
  refine congrArg₂ (· ++ ·) (congrArg₂ (· ++ ·) rfl ?_) rfl
  exact Option.toList_map ..

omit [DecidableEq A] in
theorem plain_authority {S : Type} (T : StreamTopology S K A) :
    T.topology.authority = T.wholeAuthority.map fun t => t.toTarget.upcast Sum.inl := by
  unfold Topology.authority Topology.all StreamTopology.wholeAuthority StreamTopology.topology
  rw [List.map_nil, List.append_nil, List.find?_map, List.find?_map, Option.map_map]
  rfl

/-- No place is consulted twice: the authority has no place of its own in the order. -/
theorem nodup_lookupPlaces (hcheck : ∀ i, (declared i).check = .ok ()) : (lookupPlaces declared).Nodup := by
  have hauthority : ∀ i, (declared i).role = .authority → (declared i).lookedUp = none := by
    intro i hi
    have hc := hcheck i
    unfold Declared.check at hc
    split at hc
    · cases hc
    · next hlookup =>
      have hnone : (declared i).lookup = none := by
        cases hl : (declared i).lookup with
        | none => rfl
        | some l => exact absurd ⟨by rw [hl]; rfl, .inl hi⟩ hlookup
      unfold Declared.lookedUp
      rw [hnone, hi]
      rfl
  have hfind : ∀ i ∈ ((List.finRange n).find? fun i => (declared i).role = .authority).toList,
      (declared i).lookedUp = none := fun i hi =>
    hauthority i (by simpa using List.find?_some (Option.mem_toList.mp hi))
  unfold lookupPlaces
  rw [List.nodup_append, List.nodup_append]
  refine ⟨⟨(List.nodup_finRange n).filter _, ?_, ?_⟩, (List.nodup_finRange n).filter _, ?_⟩
  · cases (List.finRange n).find? fun i => (declared i).role = .authority <;> simp
  · intro i hi j hj hij
    have hbefore := (List.mem_filter.mp hi).2
    rw [hij] at hbefore
    simp [hfind j hj] at hbefore
  · intro i hi j hj hij
    have hafter := (List.mem_filter.mp hj).2
    rw [← hij] at hafter
    rcases List.mem_append.mp hi with hi | hi
    · have hbefore := (List.mem_filter.mp hi).2
      have hboth := (of_decide_eq_true hbefore).symm.trans (of_decide_eq_true hafter)
      cases hboth
    · simp [hfind i hi] at hafter

end Node

/-! ## The reads of a node -/

/-- Where a fill failed, the source is read again. -/
theorem afterFill_error {S K A : Type} {key : K} {source target : StreamTarget S K A} {e : Exn}
    (h : e.isUnsupported = false) :
    StreamTopology.afterFill key source target (.error e) = source.readStream key := by
  rw [StreamTopology.afterFill, h, if_neg Bool.false_ne_true]

theorem afterFill_ok {S K A : Type} {key : K} {source target : StreamTarget S K A} :
    StreamTopology.afterFill key source target (.ok ()) =
      target.readStream key >>= fun c =>
        match c with
        | some again => pure (some again)
        | none => source.readStream key := rfl

section Reads

variable {K A : Type} [DecidableEq K] [DecidableEq A] {n m : Nat} {C : Fin n → Type} {I : Fin m → Type}
  {stores : ∀ i, KvStore (C i) K (List A)} {streams : ∀ i, Streaming (C i) K A}
  (declared : Fin n → Declared) {Holds : ∀ i, K → Option (List A) → C i → Prop}
  (hserves : ∀ i, Serves (stores i) (streams i) (Holds i)) {key : K} {v : List A} {x : Media C I}

include hserves

/-- One target, asked for its stream. -/
theorem readStream_target {i : Fin n} {r : Option (List A)} (h : Holds i key r (x.1 i)) :
    ∃ c y, (target stores streams declared i).readStream key x = (.ok c, y) ∧ c.map List.flatten = r ∧
      Holds i key r (y.1 i) ∧ ∀ l, l ≠ i → y.1 l = x.1 l := by
  obtain ⟨c, y, hrun, hflat, hholds⟩ := (hserves i).readStream h
  refine ⟨c, (Media.child i).set x y, ?_, hflat, ?_, fun l hl => Function.update_of_ne hl _ _⟩
  · show (((streams i).readStream key (x.1 i)).1, (Media.child i).set x ((streams i).readStream key (x.1 i)).2) = _
    rw [hrun]
  · show Holds i key r (Function.update x.1 i y i)
    rwa [Function.update_self]

/-- A source that holds the value yields all of it again. -/
theorem readStream_again {i : Fin n} (h : Holds i key (some v) (x.1 i)) :
    ∃ again y, (target stores streams declared i).readStream key x = (.ok (some again), y) ∧
      again.flatten = v ∧ Holds i key (some v) (y.1 i) ∧ ∀ l, l ≠ i → y.1 l = x.1 l := by
  obtain ⟨c, y, hrun, hflat, hrest⟩ := readStream_target declared hserves h
  obtain ⟨again, rfl, hv⟩ := Option.map_eq_some_iff.mp hflat
  exact ⟨again, y, hrun, hv, hrest⟩

/-- One turn of the loop: the target comes to hold the value or nothing, and whether its write
    returned or not, the stream to go on with is the whole value. -/
theorem fillOne_run {i j : Fin n} (hij : j ≠ i) {chunks : ChunkStream A} (hchunks : chunks.flatten = v)
    (hi : Holds i key (some v) (x.1 i)) (hj : Holds j key none (x.1 j)) (clock : Option Instant) :
    ∃ again y, StreamTopology.fillOne key (target stores streams declared i) clock (some chunks)
        (target stores streams declared j) x = (.ok (some again), y) ∧ again.flatten = v ∧
      Holds i key (some v) (y.1 i) ∧ Nears (Holds j) key v (y.1 j) ∧
      ∀ l, l ≠ i → l ≠ j → y.1 l = x.1 l := by
  let options := (target stores streams declared j : StreamTarget (Media C I) K A).receives ⟨none, clock⟩
  let run := (streams j).setStream key options none (x.1 j, chunks)
  let x1 : Media C I := (Media.child j).set x run.2.1
  have htakes : options.ttl = none ∧
      (options.createdAt = none ∨ (stores j).supportsWriteClock = true) := by
    show ((target stores streams declared j : StreamTarget (Media C I) K A).receives ⟨none, clock⟩).ttl = none ∧ _
    unfold options Target.receives
    split
    · next h => exact ⟨rfl, h⟩
    · exact ⟨rfl, .inl rfl⟩
  have hwrite : attempt (consuming chunks ((target stores streams declared j).writeStream key options none)) x =
      (.ok run.1, x1) := rfl
  have hi1 : Holds i key (some v) (x1.1 i) := by
    show Holds i key (some v) (Function.update x.1 j run.2.1 i)
    rwa [Function.update_of_ne (Ne.symm hij)]
  have hj1 : Nears (Holds j) key v (x1.1 j) := by
    show Nears (Holds j) key v (Function.update x.1 j run.2.1 j)
    rw [Function.update_self, ← hchunks]
    exact (hserves j).setStream hj
  have hother : ∀ l, l ≠ j → x1.1 l = x.1 l := fun l hl => Function.update_of_ne hl _ _
  have hsource : ∀ y : Media C I, (∀ l, l ≠ i → l ≠ j → y.1 l = x.1 l) → Nears (Holds j) key v (y.1 j) →
      Holds i key (some v) (y.1 i) → ∃ again z, (target stores streams declared i).readStream key y =
        (.ok (some again), z) ∧ again.flatten = v ∧ Holds i key (some v) (z.1 i) ∧
        Nears (Holds j) key v (z.1 j) ∧ ∀ l, l ≠ i → l ≠ j → z.1 l = x.1 l := by
    intro y hy hnears hyi
    obtain ⟨again, z, hrun, hflat, hzi, hz⟩ := readStream_again declared hserves hyi
    exact ⟨again, z, hrun, hflat, hzi, by rwa [hz j hij], fun l hl hl' => (hz l hl).trans (hy l hl hl')⟩
  have hturn : StreamTopology.fillOne key (target stores streams declared i) clock (some chunks)
      (target stores streams declared j) x = StreamTopology.afterFill key (target stores streams declared i)
        (target stores streams declared j) run.1 x1 := bind_ok hwrite
  rw [hturn]
  cases hrun : run.1 with
  | error e =>
    have he : e.isUnsupported = false := (hserves j).supported htakes.1 htakes.2 hrun
    rw [afterFill_error he]
    exact hsource x1 (fun l _ hl' => hother l hl') hj1 hi1
  | ok u =>
    have hshown : ∃ r, (r = none ∨ r = some v) ∧ Holds j key r (x1.1 j) :=
      hj1.elim (fun h => ⟨none, .inl rfl, h⟩) fun h => ⟨some v, .inr rfl, h⟩
    obtain ⟨r, hr, hjr⟩ := hshown
    obtain ⟨c, x2, hread, hflat, hj2, hother2⟩ := readStream_target declared hserves hjr
    have hnears2 : Nears (Holds j) key v (x2.1 j) := by
      rcases hr with rfl | rfl
      · exact .inl hj2
      · exact .inr hj2
    have hi2 : Holds i key (some v) (x2.1 i) := by rwa [hother2 i (Ne.symm hij)]
    have hkept : ∀ l, l ≠ i → l ≠ j → x2.1 l = x.1 l := fun l hl hl' => (hother2 l hl').trans (hother l hl')
    rw [afterFill_ok, bind_ok hread]
    cases c with
    | none => exact hsource x2 hkept hnears2 hi2
    | some again =>
      have hagain : again.flatten = v := by
        rcases hr with rfl | rfl
        · cases hflat
        · exact Option.some.inj hflat
      exact ⟨again, x2, rfl, hagain, hi2, hnears2, hkept⟩

/-- The whole loop, by induction over the targets still to be filled. -/
theorem fills_run {i : Fin n} (clock : Option Instant) (into : List (Fin n)) (hn : into.Nodup) (hinto : i ∉ into)
    {chunks : ChunkStream A} (hchunks : chunks.flatten = v) (hi : Holds i key (some v) (x.1 i))
    (hnone : ∀ j ∈ into, Holds j key none (x.1 j)) :
    ∃ again y, (into.map (target stores streams declared)).foldlM
        (StreamTopology.fillOne key (target stores streams declared i) clock) (some chunks) x =
        (.ok (some again), y) ∧ again.flatten = v ∧ Holds i key (some v) (y.1 i) ∧
      (∀ j ∈ into, Nears (Holds j) key v (y.1 j)) ∧ ∀ l, l ≠ i → l ∉ into → y.1 l = x.1 l := by
  induction into generalizing x chunks with
  | nil => exact ⟨chunks, x, rfl, hchunks, hi, by simp, fun _ _ _ => rfl⟩
  | cons j into ih =>
    rw [List.nodup_cons] at hn
    have hij : j ≠ i := fun h => hinto (by simp [h])
    obtain ⟨again, x1, hrun, hagain, hi1, hj1, hother1⟩ :=
      fillOne_run declared hserves hij hchunks hi (hnone j List.mem_cons_self) clock
    have hnone1 : ∀ l ∈ into, Holds l key none (x1.1 l) := by
      intro l hl
      have hlj : l ≠ j := fun h => hn.1 (h ▸ hl)
      have hli : l ≠ i := fun h => hinto (by simp [← h, hl])
      rw [hother1 l hli hlj]
      exact hnone l (List.mem_cons_of_mem _ hl)
    obtain ⟨final, y, hrest, hfinal, hiy, hnears, hother⟩ :=
      ih hn.2 (fun h => hinto (List.mem_cons_of_mem _ h)) hagain hi1 hnone1
    refine ⟨final, y, ?_, hfinal, hiy, ?_, ?_⟩
    · rw [List.map_cons, List.foldlM_cons, bind_ok hrun]
      exact hrest
    · intro l hl
      rcases List.mem_cons.mp hl with rfl | hl
      · rwa [hother l hij hn.1]
      · exact hnears l hl
    · intro l hli hl
      rw [List.mem_cons, not_or] at hl
      rw [hother l hli hl.2, hother1 l hli hl.1]

/-- Filled or not, the stream served is the whole value, and the places consulted hold the
    value or nothing. -/
theorem fillStream_run {i : Fin n} {past : List (Fin n)} (hn : past.Nodup) (hpast : i ∉ past)
    {chunks : ChunkStream A} (hchunks : chunks.flatten = v) (hi : Holds i key (some v) (x.1 i))
    (hnone : ∀ j ∈ past, Holds j key none (x.1 j)) :
    ∃ again y, StreamTopology.fillStream key chunks (target stores streams declared i)
        (past.map (target stores streams declared)) x = (.ok (some again), y) ∧ again.flatten = v ∧
      Holds i key (some v) (y.1 i) ∧ ∀ j ∈ past, Nears (Holds j) key v (y.1 j) := by
  let wanted : Fin n → Bool := fun j => (declared j).fill &&
    Topology.streamOrder (declared i).role < Topology.streamOrder (declared j).role
  have hinto : StreamTopology.fillable (target stores streams declared i : StreamTarget (Media C I) K A)
      (past.map (target stores streams declared)) = (past.filter wanted).map (target stores streams declared) := by
    unfold StreamTopology.fillable
    rw [List.filter_map]
    rfl
  have hsub : ∀ j ∈ past.filter wanted, j ∈ past := fun j hj => List.mem_of_mem_filter hj
  unfold StreamTopology.fillStream
  rw [hinto]
  by_cases hempty : ((past.filter wanted).map
      (target stores streams declared : Fin n → StreamTarget (Media C I) K A)).isEmpty = true
  · rw [if_pos hempty]
    exact ⟨chunks, x, rfl, hchunks, hi, fun j hj => .inl (hnone j hj)⟩
  · rw [if_neg hempty]
    obtain ⟨clock, x1, hclock, hi1, hother1⟩ : ∃ clock x1, StreamTopology.fillClock key
        (target stores streams declared i) ((past.filter wanted).map (target stores streams declared)) x =
          (.ok clock, x1) ∧ Holds i key (some v) (x1.1 i) ∧ ∀ l, l ≠ i → x1.1 l = x.1 l := by
      unfold StreamTopology.fillClock
      split
      · obtain ⟨meta', y, hstat, -, hiy⟩ := (hserves i).stat hi
        refine ⟨meta'.bind RecordStat.writeClock, (Media.child i).set x y, ?_, ?_,
          fun l hl => Function.update_of_ne hl _ _⟩
        · refine bind_ok (a := meta') ?_
          show (((stores i).stat key (x.1 i)).1, (Media.child i).set x ((stores i).stat key (x.1 i)).2) = _
          rw [hstat]
        · show Holds i key (some v) (Function.update x.1 i y i)
          rwa [Function.update_self]
      · exact ⟨none, x, rfl, hi, fun _ _ => rfl⟩
    have hne : ∀ j ∈ past, j ≠ i := fun j hj h => hpast (h ▸ hj)
    have hnone1 : ∀ j ∈ past, Holds j key none (x1.1 j) := by
      intro j hj
      rw [hother1 j (hne j hj)]
      exact hnone j hj
    obtain ⟨again, y, hrun, hagain, hiy, hnears, hother⟩ := fills_run declared hserves clock
      (past.filter wanted) (hn.filter _) (fun h => hpast (hsub i h)) hchunks hi1
      fun j hj => hnone1 j (hsub j hj)
    refine ⟨again, y, (bind_ok hclock).trans hrun, hagain, hiy, fun j hj => ?_⟩
    by_cases hw : j ∈ past.filter wanted
    · exact hnears j hw
    · rw [hother j (hne j hj) hw]
      exact .inl (hnone1 j hj)

/-- A streamed read in the order of the lookups, behind places that hold nothing. -/
theorem readStreamFrom_run (ps past : List (Fin n)) (hn : (past ++ ps).Nodup) {r : Option (List A)}
    (hpast : ∀ j ∈ past, Holds j key none (x.1 j)) (hps : HeldFrom Holds key x.1 ps r) :
    ∃ c y, StreamTopology.readStreamFrom key (ps.map (target stores streams declared))
        (past.map (target stores streams declared)) x = (.ok c, y) ∧ c.map List.flatten = r ∧
      HeldFrom Holds key y.1 (past ++ ps) r := by
  induction ps generalizing past x with
  | nil =>
    obtain rfl : r = none := hps
    exact ⟨none, x, rfl, rfl, heldFrom_append hpast rfl⟩
  | cons i ps ih =>
    have hi : i ∉ past := fun h => (List.nodup_append.mp hn).2.2 i h i List.mem_cons_self rfl
    rcases hps with ⟨hnone, hrest⟩ | ⟨hsome, hheld⟩
    · obtain ⟨c, x1, hread, hflat, hi1, hother⟩ := readStream_target declared hserves hnone
      obtain rfl : c = none := Option.map_eq_none_iff.mp hflat
      have hsplit : past ++ i :: ps = (past ++ [i]) ++ ps := by simp
      have hpast1 : ∀ j ∈ past ++ [i], Holds j key none (x1.1 j) := by
        intro j hj
        rcases List.mem_append.mp hj with hj | hj
        · rw [hother j fun h => hi (h ▸ hj)]
          exact hpast j hj
        · obtain rfl := List.mem_singleton.mp hj
          exact hi1
      have hips : i ∉ ps := (List.nodup_cons.mp (List.nodup_append.mp hn).2.1).1
      have hrest1 : HeldFrom Holds key x1.1 ps r :=
        (heldFrom_congr fun j hj => hother j fun h => hips (h ▸ hj)).mpr hrest
      rw [hsplit] at hn ⊢
      obtain ⟨c, y, hrun, hdone⟩ := ih (past ++ [i]) hn hpast1 hrest1
      refine ⟨c, y, ?_, hdone⟩
      rw [List.map_append] at hrun
      exact (bind_ok hread).trans hrun
    · obtain ⟨v, rfl⟩ := Option.isSome_iff_exists.mp hsome
      obtain ⟨again, x1, hread, hflat, hi1, hother⟩ := readStream_again declared hserves hheld
      have hpast1 : ∀ j ∈ past, Holds j key none (x1.1 j) := by
        intro j hj
        rw [hother j fun h => hi (h ▸ hj)]
        exact hpast j hj
      obtain ⟨final, y, hrun, hfinal, hiy, hnears⟩ := fillStream_run declared hserves
        (List.nodup_append.mp hn).1 hi hflat hi1 hpast1
      exact ⟨some final, y, (bind_ok hread).trans hrun, congrArg some hfinal, heldFrom_some hnears hiy⟩

/-- Whatever a plain read answers is held where it looks. -/
theorem readFrom_held (ps : List (Fin n)) (hn : ps.Nodup)
    (consulted : List (Target (Media C I) K (List A) (List A))) {r : Option (List A)}
    (h : (Topology.readFrom key (ps.map fun i =>
      (target stores streams declared i : StreamTarget (Media C I) K A).toTarget) consulted x).1 = .ok r) :
    HeldFrom Holds key x.1 ps r := by
  induction ps generalizing consulted x with
  | nil => exact (Except.ok.inj h).symm
  | cons i ps ih =>
    rw [List.nodup_cons] at hn
    have hread : (target stores streams declared i : StreamTarget (Media C I) K A).read key =
        (Media.child i).zoom ((stores i).get key) := by
      show (Option.map id <$> (Media.child i).zoom ((stores i).get key) : M _ _) = _
      rw [Option.map_id, id_map]
    obtain ⟨found, x1, hrun, hfound⟩ := Topology.readFrom_cons h
    rw [hread] at hrun
    obtain ⟨hget, rfl⟩ := Prod.mk.inj hrun
    have hheld : Holds i key found (x.1 i) := (hserves i).get hget
    rcases hfound with ⟨w, rfl, rfl⟩ | ⟨rfl, hrest⟩
    · exact .inr ⟨rfl, hheld⟩
    · refine .inl ⟨hheld, (heldFrom_congr fun j hj => ?_).mp (ih hn.2 _ hrest)⟩
      refine Function.update_of_ne (fun hji : j = i => hn.1 ?_) _ _
      rwa [← hji]

/-- Metadata is found exactly where something is held. -/
theorem statFrom_run (ps : List (Fin n)) (hn : ps.Nodup) {r : Option (List A)} (h : HeldFrom Holds key x.1 ps r) :
    ∃ m y, Topology.statFrom key (ps.map fun i =>
        (target stores streams declared i : StreamTarget (Media C I) K A).toTarget) x = (.ok m, y) ∧
      m.isSome = r.isSome ∧ HeldFrom Holds key y.1 ps r ∧ ∀ l, l ∉ ps → y.1 l = x.1 l := by
  induction ps generalizing x with
  | nil =>
    obtain rfl : r = none := h
    exact ⟨none, x, rfl, rfl, rfl, fun _ _ => rfl⟩
  | cons i ps ih =>
    rw [List.nodup_cons] at hn
    have hask : ∀ {found : Option (List A)}, Holds i key found (x.1 i) → ∃ m x1,
        (target stores streams declared i : StreamTarget (Media C I) K A).stat key x = (.ok m, x1) ∧
        m.isSome = found.isSome ∧ Holds i key found (x1.1 i) ∧ ∀ l, l ≠ i → x1.1 l = x.1 l := by
      intro found hfound
      obtain ⟨m, y, hrun, hm, hy⟩ := (hserves i).stat hfound
      refine ⟨m, (Media.child i).set x y, ?_, hm, ?_, fun l hl => Function.update_of_ne hl _ _⟩
      · show (((stores i).stat key (x.1 i)).1, (Media.child i).set x ((stores i).stat key (x.1 i)).2) = _
        rw [hrun]
      · show Holds i key found (Function.update x.1 i y i)
        rwa [Function.update_self]
    rcases h with ⟨hnone, hrest⟩ | ⟨hsome, hheld⟩
    · obtain ⟨m, x1, hrun, hm, hi1, hother⟩ := hask hnone
      obtain rfl : m = none := Option.isSome_eq_false_iff.mp hm |> Option.isNone_iff_eq_none.mp
      have hrest1 : HeldFrom Holds key x1.1 ps r :=
        (heldFrom_congr fun j hj => hother j fun hji => hn.1 (hji ▸ hj)).mpr hrest
      obtain ⟨m, y, hrun', hm', hheld', hother'⟩ := ih hn.2 hrest1
      refine ⟨m, y, (bind_ok hrun).trans hrun', hm', .inl ⟨?_, hheld'⟩, fun l hl => ?_⟩
      · rwa [hother' i hn.1]
      · rw [List.mem_cons, not_or] at hl
        rw [hother' l hl.2, hother l hl.1]
    · obtain ⟨m, x1, hrun, hm, hi1, hother⟩ := hask hheld
      rw [hsome] at hm
      obtain ⟨found, rfl⟩ := Option.isSome_iff_exists.mp hm
      exact ⟨some found, x1, bind_ok hrun, hsome.symm, .inr ⟨hsome, hi1⟩, fun l hl =>
        hother l fun hli => hl (by simp [hli])⟩

end Reads

/-! ## The writes of a node -/

section Writes

theorem state_runCommitting {S α : Type} (name : String) (role : Role) (m : M S α) (s : S) :
    (runCommitting name role m s).2 = (m s).2 :=
  moves_runCommitting (R := fun s s' => s' = (m s).2) (fun _ => rfl) name role s

/-- What follows the commit point runs on the media at once, or not yet. -/
theorem syncOne_media {S K V P : Type} [DecidableEq K] (T : Topology S K V P) (t : AnyTarget S K V P) (what : String)
    (op : SyncOp K V) (policy : Option SyncPolicy) (N : Node S K V P) :
    (T.syncOne t what op policy N).2.media = N.media ∨
      (T.syncOne t what op policy N).2.media = (op.on t N.media).2 := by
  unfold Topology.syncOne Topology.runSync
  split
  · exact .inl rfl
  · refine .inr ?_
    exact moves_settle (R := fun s s' => s' = (op.on t s).2) (fun _ => rfl) _ _ _ _ _ N.media

variable {K A : Type} [DecidableEq K] [DecidableEq A] {n m : Nat} {C : Fin n → Type} {I : Fin m → Type}
  {stores : ∀ i, KvStore (C i) K (List A)} {streams : ∀ i, Streaming (C i) K A}
  (declared : Fin n → Declared) {Holds : ∀ i, K → Option (List A) → C i → Prop}
  (hserves : ∀ i, Serves (stores i) (streams i) (Holds i)) {key : K} {v : List A} {x : Media C I}

include hserves

/-- A dependent fed from an authority that holds the value or nothing. -/
theorem feed_state {a j : Fin n} (haj : j ≠ a) (ha : Nears (Holds a) key v (x.1 a)) (options : WriteOptions)
    {y : Media C I} (hy : (StreamTopology.feed (target stores streams declared a)
      (target stores streams declared j) key options x).2 = y) :
    Nears (Holds a) key v (y.1 a) ∧ (Holds j key none (x.1 j) → Nears (Holds j) key v (y.1 j)) ∧
      ∀ l, l ≠ a → l ≠ j → y.1 l = x.1 l := by
  obtain ⟨r, hr, har⟩ : ∃ r, (r = none ∨ r = some v) ∧ Holds a key r (x.1 a) :=
    ha.elim (fun h => ⟨none, .inl rfl, h⟩) fun h => ⟨some v, .inr rfl, h⟩
  obtain ⟨c, x1, hread, hflat, ha1, hother⟩ := readStream_target declared hserves har
  have hnears : Nears (Holds a) key v (x1.1 a) := by
    rcases hr with rfl | rfl
    · exact .inl ha1
    · exact .inr ha1
  unfold StreamTopology.feed at hy
  rw [bind_ok hread] at hy
  cases c with
  | none =>
    obtain rfl : x1 = y := hy
    exact ⟨hnears, fun h => .inl (by rwa [hother j haj]), fun l hl _ => hother l hl⟩
  | some chunks =>
    have hchunks : chunks.flatten = v := by
      rcases hr with rfl | rfl
      · cases hflat
      · exact Option.some.inj hflat
    obtain rfl : (Media.child j).set x1 ((streams j).setStream key options none (x1.1 j, chunks)).2.1 = y := hy
    refine ⟨?_, fun h => ?_, fun l hl hl' => (Function.update_of_ne hl' _ _).trans (hother l hl)⟩
    · show Nears (Holds a) key v (Function.update x1.1 j _ a)
      rwa [Function.update_of_ne (Ne.symm haj)]
    · show Nears (Holds j) key v (Function.update x1.1 j _ j)
      rw [Function.update_self, ← hchunks]
      refine (hserves j).setStream ?_
      rwa [hother j haj]

/-- The dependents in turn, each written once, from holding nothing. -/
theorem dependents_state (T : Topology (Media C I) K (List A) Empty) {a : Fin n} {ps : List (Fin n)} (ha : a ∈ ps)
    (options : WriteOptions) (ds : List (Fin n)) (hn : ds.Nodup) (hds : a ∉ ds)
    (N : Node (Media C I) K (List A) Empty) (hps : ∀ p ∈ ps, Nears (Holds p) key v (N.media.1 p))
    (hnone : ∀ j ∈ ds, j ∈ ps → Holds j key none (N.media.1 j)) :
    ∀ p ∈ ps, Nears (Holds p) key v ((forM (ds.map (target stores streams declared)) (fun t =>
      T.syncOne (StreamTopology.fedFrom (target stores streams declared a) t) "set_stream"
        (.write key [] options) none) N).2.media.1 p) := by
  induction ds generalizing N with
  | nil => exact hps
  | cons j ds ih =>
    rw [List.nodup_cons] at hn
    have haj : j ≠ a := fun h => hds (by simp [h])
    obtain ⟨hps1, hnone1⟩ : (∀ p ∈ ps, Nears (Holds p) key v ((T.syncOne (StreamTopology.fedFrom
        (target stores streams declared a) (target stores streams declared j)) "set_stream"
          (.write key [] options) none N).2.media.1 p)) ∧
        ∀ l ∈ ds, l ∈ ps → Holds l key none ((T.syncOne (StreamTopology.fedFrom
          (target stores streams declared a) (target stores streams declared j)) "set_stream"
            (.write key [] options) none N).2.media.1 l) := by
      rcases syncOne_media T (StreamTopology.fedFrom (target stores streams declared a)
        (target stores streams declared j)) "set_stream" (.write key [] options) none N with h | h <;> rw [h]
      · exact ⟨hps, fun l hl => hnone l (List.mem_cons_of_mem _ hl)⟩
      · obtain ⟨hay, hjy, hother⟩ := feed_state declared hserves haj (hps a ha) _ (y := _) rfl
        refine ⟨fun p hp => ?_, fun l hl hlp => ?_⟩
        · by_cases hpa : p = a
          · rw [hpa]
            exact hay
          · by_cases hpj : p = j
            · subst hpj
              exact hjy (hnone p List.mem_cons_self hp)
            · have hkept := hother p hpa hpj
              exact (congrArg (Nears (Holds p) key v) hkept).mpr (hps p hp)
        · have hla : l ≠ a := fun h => hds (by simp [← h, hl])
          have hlj : l ≠ j := fun h => hn.1 (h ▸ hl)
          have hkept := hother l hla hlj
          exact (congrArg (Holds l key none) hkept).mpr (hnone l (List.mem_cons_of_mem _ hl) hlp)
    rw [List.map_cons, List.forM_cons]
    rcases hrun : T.syncOne (StreamTopology.fedFrom (target stores streams declared a)
        (target stores streams declared j)) "set_stream" (.write key [] options) none N with ⟨e | u, N1⟩ <;>
      rw [hrun] at hps1 hnone1
    · rw [bind_error hrun]
      exact hps1
    · rw [bind_ok hrun]
      exact ih hn.2 (fun h => hds (List.mem_cons_of_mem _ h)) N1 hps1 hnone1

/-- A streamed write to a node leaves it holding nothing or the whole value, on either exit. -/
theorem setStream_node (typeName : String) (options : WriteOptions) (size : Option Nat)
    (N : Node (Media C I) K (List A) Empty) (chunks : ChunkStream A)
    (hnone : HeldFrom Holds key N.media.1 (lookupPlaces declared) none) :
    Nears (fun key r (N : Node (Media C I) K (List A) Empty) => HeldFrom Holds key N.media.1 (lookupPlaces declared) r)
      key chunks.flatten
      (((nodeStreams stores streams declared).streaming typeName).setStream key options size (N, chunks)).2.1 := by
  let T : StreamTopology (Media C I) K A := nodeStreams stores streams declared
  rw [heldFrom_none] at hnone
  refine heldFrom_nears (x := (T.streaming typeName |>.setStream key options size (N, chunks)).2.1.media.1) ?_
  have hstart : ∀ p ∈ lookupPlaces declared, Nears (Holds p) key chunks.flatten (N.media.1 p) :=
    fun p hp => .inl (hnone p hp)
  show ∀ p ∈ lookupPlaces declared, Nears (Holds p) key chunks.flatten
    ((((T.topology.admitWrite typeName options : M _ Unit) >>= fun _ => T.writeStream key options size)
      (N, chunks)).2.1.media.1 p)
  unfold Topology.admitWrite requireWriteClockSupported
  split
  · exact hstart
  · show ∀ p ∈ lookupPlaces declared, Nears (Holds p) key chunks.flatten
      ((T.writeStream key options size (N, chunks)).2.1.media.1 p)
    unfold StreamTopology.writeStream StreamTopology.requireWhole
    have hauthority : T.wholeAuthority = ((List.finRange n).find? fun i => (declared i).role = .authority).map
        (target stores streams declared) := List.find?_map ..
    rw [hauthority]
    cases hfind : (List.finRange n).find? fun i => (declared i).role = .authority with
    | none => exact hstart
    | some a =>
      have hrole : (declared a).role = .authority := by simpa using List.find?_some hfind
      have ha : a ∈ lookupPlaces declared := by
        unfold lookupPlaces
        rw [hfind]
        simp
      let o := (target stores streams declared a : StreamTarget (Media C I) K A).receives options
      let commit : M (Node (Media C I) K (List A) Empty × ChunkStream A) Unit :=
        Node.mediaLens.beside.zoom (runCommitting (declared a).name (declared a).role
          ((target stores streams declared a).writeStream key o size))
      let y := ((streams a).setStream key o size (N.media.1 a, chunks)).2
      have hcommit : (commit (N, chunks)).2 = ({ N with media := (Media.child a).set N.media y.1 }, y.2) := by
        show Node.mediaLens.beside.set (N, chunks) (runCommitting _ _ _ (N.media, chunks)).2 = _
        rw [state_runCommitting]
        rfl
      have hwritten : ∀ p ∈ lookupPlaces declared, Nears (Holds p) key chunks.flatten
          (((Media.child a).set N.media y.1 : Media C I).1 p) := by
        intro p hp
        show Nears (Holds p) key chunks.flatten (Function.update N.media.1 a y.1 p)
        by_cases hpa : p = a
        · subst hpa
          rw [Function.update_self]
          exact (hserves p).setStream (hnone p hp)
        · rw [Function.update_of_ne hpa]
          exact hstart p hp
      show ∀ p ∈ lookupPlaces declared, Nears (Holds p) key chunks.flatten
        (((commit >>= fun _ => Lens.first.zoom (forM T.dependents fun t => T.topology.syncOne
          (StreamTopology.fedFrom (target stores streams declared a) t) "set_stream" (.write key [] options) none))
          (N, chunks)).2.1.media.1 p)
      rcases hrun : commit (N, chunks) with ⟨e | u, N1⟩ <;> rw [hrun] at hcommit <;>
        obtain rfl : N1 = _ := hcommit
      · rw [bind_error hrun]
        exact hwritten
      · have hdependents : T.dependents = ((List.finRange n).filter fun i => (declared i).role = .dependent).map
            (target stores streams declared) := by
          unfold StreamTopology.dependents
          exact List.filter_map
        rw [bind_ok hrun, hdependents]
        refine dependents_state declared hserves T.topology ha options _ ((List.nodup_finRange n).filter _) ?_ _ hwritten ?_
        · intro hmem
          have hdep : (declared a).role = .dependent := by simpa using (List.mem_filter.mp hmem).2
          rw [hrole] at hdep
          cases hdep
        · intro j hj hjp
          have hja : j ≠ a := by
            intro h
            have hdep : (declared j).role = .dependent := by simpa using (List.mem_filter.mp hj).2
            rw [h, hrole] at hdep
            cases hdep
          show Holds j key none (Function.update N.media.1 a y.1 j)
          rw [Function.update_of_ne hja]
          exact hnone j hjp

omit hserves in
/-- What a node can take it never refuses as unsupported. -/
theorem supported_node (typeName : String) {options : WriteOptions} {size : Option Nat}
    {s : Node (Media C I) K (List A) Empty × ChunkStream A} {e : Exn}
    (hclock : options.createdAt = none ∨ ((nodeStreams stores streams declared :
      StreamTopology (Media C I) K A).topology.store typeName).supportsWriteClock = true)
    (he : (((nodeStreams stores streams declared).streaming typeName).setStream key options size s).1 = .error e) :
    e.isUnsupported = false := by
  let T : StreamTopology (Media C I) K A := nodeStreams stores streams declared
  have hnothing : (T.topology.admitWrite typeName options : M (Node (Media C I) K (List A) Empty × ChunkStream A) Unit) =
      pure () := by
    unfold Topology.admitWrite requireWriteClockSupported
    refine if_neg fun ⟨hsome, hunsupported⟩ => ?_
    rcases hclock with h | h
    · rw [h] at hsome
      cases hsome
    · exact hunsupported h
  have hraises : Raises (fun e => e.isUnsupported = false) (T.writeStream key options size) := by
    refine Raises.bind ?_ fun authority => Raises.bind ?_ fun _ => ?_
    · unfold StreamTopology.requireWhole
      split
      · exact Raises.pure _
      · exact Raises.raise rfl
    · intro s e he
      exact Exn.not_unsupported (raises_runCommitting _ _ _ (Node.mediaLens.beside.get s) e he)
    · intro s e he
      have hsync : Raises (fun e => e.isRecordWriteError = true) (forM T.dependents fun t => T.topology.syncOne
          (StreamTopology.fedFrom authority t) "set_stream" (.write key [] options) none) :=
        Raises.forM fun t _ => raises_syncOne _ _ _ _ _
      exact Exn.not_unsupported (hsync s.1 e he)
  have hrun : (T.streaming typeName).setStream key options size = T.writeStream key options size := by
    show (T.topology.admitWrite typeName options >>= fun _ => _) = _
    rw [hnothing]
    rfl
  rw [hrun] at he
  exact hraises s e he

end Writes

/-! ## The whole tree -/

section Tree

variable {K A : Type} [DecidableEq K] [DecidableEq A]

/-- Over targets that serve, a node with an authority serves. -/
theorem serves_node {n m : Nat} {C : Fin n → Type} {I : Fin m → Type}
    {stores : ∀ i, KvStore (C i) K (List A)} {streams : ∀ i, Streaming (C i) K A} {declared : Fin n → Declared}
    {Holds : ∀ i, K → Option (List A) → C i → Prop} (hserves : ∀ i, Serves (stores i) (streams i) (Holds i))
    (hcheck : ∀ i, (declared i).check = .ok ())
    (hauthority : (nodeStreams stores streams declared : StreamTopology (Media C I) K A).wholeAuthority.isSome)
    (typeName : String) :
    Serves ((nodeStreams stores streams declared : StreamTopology (Media C I) K A).topology.store typeName)
      ((nodeStreams stores streams declared).streaming typeName)
      fun key r N => HeldFrom Holds key N.media.1 (lookupPlaces declared) r := by
  have hlookups : (nodeStreams stores streams declared : StreamTopology (Media C I) K A).topology.lookups =
      (lookupPlaces declared).map fun i => (target stores streams declared i).toTarget := by
    rw [plain_lookups, lookups_eq, List.map_map]
    rfl
  have hn := nodup_lookupPlaces declared hcheck
  refine ⟨?_, ?_, ?_, fun hnone => setStream_node declared hserves typeName _ _ _ _ hnone,
    fun _ hclock he => supported_node declared typeName hclock he⟩
  · intro key N r h
    have hread : (Topology.readFrom key ((nodeStreams stores streams declared :
        StreamTopology (Media C I) K A).topology.lookups) [] N.media).1 = .ok r := h
    rw [hlookups] at hread
    exact readFrom_held declared hserves _ hn _ hread
  · intro key N r h
    obtain ⟨c, y, hrun, hflat, hheld⟩ := readStreamFrom_run declared hserves (lookupPlaces declared) []
      (by simpa using hn) (by simp) h
    refine ⟨c, { N with media := y }, ?_, hflat, hheld⟩
    obtain ⟨authority, hsome⟩ := Option.isSome_iff_exists.mp hauthority
    have hstream : (nodeStreams stores streams declared : StreamTopology (Media C I) K A).readStream key N.media =
        (.ok c, y) := by
      unfold StreamTopology.readStream StreamTopology.requireWhole
      rw [hsome, lookups_eq]
      exact hrun
    show Node.onMedia _ N = _
    rw [Node.onMedia_apply, hstream]
  · intro key N r h
    obtain ⟨meta', y, hrun, hmeta, hheld, -⟩ := statFrom_run declared hserves _ hn h
    refine ⟨meta', { N with media := y }, ?_, hmeta, hheld⟩
    rw [← hlookups] at hrun
    show Node.onMedia (Topology.statFrom key (nodeStreams stores streams declared :
      StreamTopology (Media C I) K A).topology.lookups) N = _
    rw [Node.onMedia_apply, hrun]

/-- What a tree holds for a key: what `get` answers at a leaf, and at a node the first of the
    places it looks at that holds anything. -/
def Holds : (c : Streamed K A) → K → Option (List A) → c.State → Prop
  | .leaf l => fun key r x => (l.store.get key x).1 = .ok r
  | .node _ _ child declared => fun key r N =>
    HeldFrom (fun i => (child i).Holds) key N.media.1 (lookupPlaces declared) r

/-- Every node passes the checks its constructor makes. -/
def Constructed (c : Streamed K A) : Prop := c.plain.Constructed

omit [DecidableEq A] in
/-- A record that is not assembled has an authority. -/
theorem authority_isSome {S P : Type} {T : Topology S K (List A) P} (h : T.postInit = .ok ()) (hparts : T.parts = []) :
    T.authority.isSome := by
  cases hnone : T.authority with
  | some t => rfl
  | none =>
    have hnames : (T.all.filter fun t => t.role = .authority).map (fun t => t.name) = [] := by
      rw [Topology.authority_eq_none.mp hnone]
      rfl
    have hbare : (T.all.filter fun t => t.role = .authority).map (fun t => t.name) = [] ∧ T.parts.isEmpty = true :=
      ⟨hnames, by rw [hparts]; rfl⟩
    unfold Topology.postInit at h
    dsimp only at h
    iterate 4
      split at h
      · cases h
    cases h

theorem serves (c : Streamed K A) (hc : c.Constructed) : Serves c.store c.streaming c.Holds := by
  induction c with
  | leaf l => exact l.serves
  | node typeName n child declared ih =>
    obtain ⟨hcheck, hinit, hchildren⟩ := hc
    let T : StreamTopology (Media (fun i => (child i).State) fun j : Fin 0 => (Fin.elim0 j : IndexLeaf K (List A)).State) K A :=
      nodeStreams (fun i => (child i).store) (fun i => (child i).streaming) declared
    have hnode := topology_eq (fun i => (child i).store) (fun i => (child i).streaming) declared
      (List.ofFn fun j : Fin 0 => (Fin.elim0 j : IndexLeaf K (List A)).index.zoom (Media.index j))
    have hauthority : T.wholeAuthority.isSome := by
      have hinit' : T.topology.postInit = .ok () := (congrArg Topology.postInit hnode).trans hinit
      have hsome := authority_isSome hinit' rfl
      rw [plain_authority, Option.isSome_map] at hsome
      exact hsome
    have hstore : (Streamed.node typeName n child declared).store = T.topology.store typeName :=
      congrArg (fun T => Topology.store T typeName) hnode.symm
    rw [hstore]
    exact serves_node (fun i => ih i (hchildren i)) hcheck hauthority typeName

/-- A streamed read equals a plain one. Whatever `get` answers, `read_stream` answers in chunks,
    whichever of the fills it makes on the way fail and however much of a stream they take. -/
theorem readStream_of_get (c : Streamed K A) (hc : c.Constructed) (key : K) (x : c.State) {r : Option (List A)}
    (h : (c.store.get key x).1 = .ok r) :
    ∃ chunks, (c.streaming.readStream key x).1 = .ok chunks ∧ chunks.map List.flatten = r := by
  have hserves := c.serves hc
  obtain ⟨chunks, y, hrun, hflat, -⟩ := hserves.readStream (hserves.get h)
  exact ⟨chunks, by rw [hrun], hflat⟩

end Tree

end Streamed

/-! ## Leaves -/

/-- The only refusal of a key is that the scope is not full. -/
theorem KvBackend.physicalKeyBlob_supported {K V α VB : Type} [DecidableEq α] (b : KvBackend K V α VB) {k : K} {e : Exn}
    (h : b.physicalKeyBlob k = .error e) : e.isUnsupported = false := by
  unfold KvBackend.physicalKeyBlob KvSet.leafNeedsEscaping at h
  cases hs : b.kvset.scopeSchema with
  | none =>
    rw [hs] at h
    cases h
  | some schema =>
    simp only [hs] at h
    split at h
    · rw [← Except.error.inj h]
      rfl
    · cases h

namespace StreamingMemory

variable {K A α B : Type} [DecidableEq α] (b : StreamingMemory K A α B)

/-- A streamed write is the plain write of the whole value. -/
theorem setStream_apply (key : K) (options : WriteOptions) (size : Option Nat) (x : MemoryRoot α (List B))
    (chunks : ChunkStream A) : b.setStream key options size (x, chunks) =
      ((b.set key chunks.flatten options x).1, ((b.set key chunks.flatten options x).2, [])) := by
  have hvalue : b.deserializeValue (b.encodeStream chunks).flatten = pure chunks.flatten := by
    unfold MemoryKvBackend.deserializeValue
    rw [b.encodes, b.kvset.valueSerde.roundtrip]
  show ((Lens.first.zoom (b.deserializeValue (b.encodeStream chunks).flatten) >>= fun value =>
    Lens.first.zoom (b.set key value options) : M _ Unit) (x, [])) = _
  rw [hvalue, Lens.zoom_pure, pure_bind]
  rfl

/-- A get shows the same to every later one. -/
theorem get_again {key : K} {x y : MemoryRoot α (List B)} {r : Option (List A)} (h : b.get key x = (.ok r, y)) :
    (b.get key y).1 = .ok r := by
  have hstate := b.get_state key x
  have hlive := b.liveEntry_sameLive key x key
  rw [h] at hstate
  rw [b.get_eq, show y = (b.liveEntry key x).2 from hstate, hlive, ← b.get_eq, h]

theorem readStream_apply {key : K} {x y : MemoryRoot α (List B)} {r : Option (List A)}
    (h : b.get key x = (.ok r, y)) : b.readStream key x = (.ok (r.map fun value => [value]), y) := by
  unfold readStream
  rw [bind_ok h]
  cases r <;> rfl

/-- An entry written with these options is expired as soon as it is written. -/
def lapses (options : WriteOptions) (x : MemoryRoot α (List B)) : Bool :=
  (b.expiresAt x options.ttl options.createdAt).any fun at_ => at_ ≤ x.clock

/-- What a key shows once it is written: the value, unless it has lapsed. -/
theorem get_of_set {key : K} {v : List A} {options : WriteOptions} {x y : MemoryRoot α (List B)}
    (h : b.set key v options x = (.ok (), y)) :
    (b.get key y).1 = .ok (if b.lapses options x then none else some v) := by
  cases hp : b.physicalKeyBlob key with
  | error e =>
    unfold MemoryKvBackend.set at h
    rw [b.physicalKey_error hp, raise_bind] at h
    cases h
  | ok p =>
    rw [b.set_apply hp] at h
    obtain rfl : x.put b.collection p _ _ _ = y := congrArg Prod.snd h
    have hexpired : MemoryKvBackend.expired ⟨x.nextId, b.kvset.valueSerde.serialize v,
        b.expiresAt x options.ttl options.createdAt, MemoryKvBackend.clockBase x options.createdAt, x.clock⟩
        x.clock = b.lapses options x := by
      unfold MemoryKvBackend.expired lapses
      cases b.expiresAt x options.ttl options.createdAt <;> rfl
    rw [b.get_eq, b.liveEntry_ok hp]
    unfold MemoryKvBackend.entryAt
    rw [MemoryRoot.get?_put, if_pos rfl, Option.filter_some, MemoryRoot.clock_put, hexpired]
    cases b.lapses options x with
    | true => rfl
    | false =>
      have hd := b.kvset.valueSerde.roundtrip v
      simp [Except.bind, hd]

/-- A key that cannot be written is not written. -/
theorem set_refused {key : K} {v : List A} {options : WriteOptions} {x y : MemoryRoot α (List B)} {e : Exn}
    (h : b.set key v options x = (.error e, y)) : y = x ∧ b.physicalKeyBlob key = .error e := by
  cases hp : b.physicalKeyBlob key with
  | error e' =>
    unfold MemoryKvBackend.set at h
    rw [b.physicalKey_error hp, raise_bind] at h
    obtain ⟨he, hy⟩ := Prod.mk.inj h
    exact ⟨hy.symm, by rw [Except.error.inj he]⟩
  | ok p =>
    rw [b.set_apply hp] at h
    cases h

theorem stat_of_get [DecidableEq K] {key : K} {x y : MemoryRoot α (List B)} {r : Option (List A)}
    (h : b.get key x = (.ok r, y)) : ∃ m, b.stat key x = (.ok m, y) ∧ m.isSome = r.isSome := by
  have hexists := b.exists_of_get (congrArg Prod.fst h)
  have hstate := b.get_state key x
  rw [h] at hstate
  rw [b.existsKey_eq] at hexists
  have hstat : b.stat key x = ((b.liveEntry key x).1.map (Option.map MemoryKvBackend.statOf), (b.liveEntry key x).2) :=
    map_apply (Option.map MemoryKvBackend.statOf) (b.liveEntry key) x
  cases hlive : (b.liveEntry key x).1 with
  | error e =>
    rw [hlive] at hexists
    cases hexists
  | ok entry =>
    rw [hlive] at hexists
    refine ⟨entry.map MemoryKvBackend.statOf, ?_, ?_⟩
    · rw [hstat, hlive, ← show y = (b.liveEntry key x).2 from hstate]
      rfl
    · rw [Option.isSome_map]
      exact Except.ok.inj hexists

/-- `MemoryKvStore`, over a collection whose value serde streams. -/
def leaf [DecidableEq K] : StreamLeaf K A where
  State := MemoryRoot α (List B)
  store := b.store
  streaming := b.streaming
  reads {key x y r} h := ⟨_, y, b.readStream_apply h, by cases r <;> simp, b.get_again h⟩
  stats {key x y r} h := by
    obtain ⟨m, hm, hsome⟩ := b.stat_of_get h
    exact ⟨m, y, hm, hsome, b.get_again h⟩
  stores {key options size x chunks} h := by
    show (b.get key (b.setStream key options size (x, chunks)).2.1).1 = _ ∨
      (b.get key (b.setStream key options size (x, chunks)).2.1).1 = _
    rw [b.setStream_apply]
    rcases hset : b.set key chunks.flatten options x with ⟨e | u, y⟩
    · obtain ⟨rfl, -⟩ := b.set_refused hset
      exact .inl h
    · rw [b.get_of_set hset]
      cases b.lapses options x with
      | true => exact .inl rfl
      | false => exact .inr rfl
  supported {key options size s e} _ _ he := by
    have hrun : (b.set key s.2.flatten options s.1).1 = .error e := by
      have hset := congrArg Prod.fst (b.setStream_apply key options size s.1 s.2)
      exact hset.symm.trans he
    exact b.physicalKeyBlob_supported (b.set_refused (Prod.ext hrun rfl)).2

end StreamingMemory

/-- The leaf, where every streamed write fails after so many chunks. -/
def StreamLeaf.failing {K A : Type} (l : StreamLeaf K A) (chunks : Nat) (why : String) : StreamLeaf K A where
  toLeaf := l.toLeaf
  streaming := { l.streaming with setStream := fun _ _ _ => do advance chunks; raise (.medium why) }
  reads := l.reads
  stats := l.stats
  stores h := .inl h
  supported _ _ he := by
    rw [← Except.error.inj he]
    rfl

/-- Keys and values as they are. -/
def StreamingMemory.plain : StreamingMemory (List Char) Char Char Char :=
  { MemoryKvBackend.plain (List Char) with encodeStream := id, encodes := fun _ => rfl }

namespace Streamed

def letters : StreamLeaf (List Char) Char := StreamingMemory.plain.leaf

def cachedDeclared (i : Fin 3) : Declared :=
  match i with
  | 0 => ⟨"cache", .dependent, some .beforeAuthority, true, .bestEffort⟩
  | 1 => ⟨"primary", .authority, none, true, .required⟩
  | 2 => ⟨"secondary", .fallback, none, false, .required⟩

def cachedChild (i : Fin 3) : Streamed (List Char) Char :=
  match i with
  | 0 => .leaf (letters.failing 1 "disk full")
  | 1 => .leaf letters
  | 2 => .leaf letters

/-- A cache in front that fails as it is filled, a store that takes the value over, and the
    fallback that holds it. -/
def cached : Streamed (List Char) Char := .node "CoalescedKvStore" 3 cachedChild cachedDeclared

/-- The state of three children, with nothing queued. -/
def tripleState {K V : Type} {C : Fin 3 → Type} {I : Fin 0 → Type} (first : C 0) (second : C 1) (third : C 2) :
    Node (Media C I) K V Empty :=
  ⟨(fun | ⟨0, _⟩ => first | ⟨1, _⟩ => second | ⟨2, _⟩ => third, fun j => j.elim0), []⟩

/-- The fallback holds a word, the stores in front of it nothing. -/
def cachedState : cached.State :=
  let bare : MemoryRoot Char (List Char) := MemoryRoot.empty 0
  tripleState bare bare (bare.put "items:v1" ['k'] ['h', 'i'] none 0)

theorem cached_constructed : cached.Constructed := by
  have hchecks : ∀ i, (cachedDeclared i).check = .ok () := by
    intro i
    match i with
    | 0 => rfl
    | 1 => rfl
    | 2 => rfl
  have hchildren : ∀ i, (cachedChild i).Constructed := by
    intro i
    match i with
    | 0 => trivial
    | 1 => trivial
    | 2 => trivial
  exact And.intro hchecks (And.intro rfl hchildren)

theorem readStream_of_get_cached : ∃ chunks, (cached.streaming.readStream ['k'] cachedState).1 = .ok chunks ∧
    chunks.map List.flatten = some ['h', 'i'] :=
  readStream_of_get cached cached_constructed ['k'] cachedState rfl

end Streamed

end Kvtsjl
