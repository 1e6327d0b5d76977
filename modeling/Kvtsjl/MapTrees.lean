import Kvtsjl.FanOut
import Kvtsjl.MapNodes

/-
  Trees of maps whose entries expire, over whole runs.
  A node that reads its record whole is the map its authority is, and a zip shows a row of what its parts show.
-/

namespace Kvtsjl

open Assoc (Dict)
open Effects Prog

/-! ## Records read whole -/

section Whole

variable {K V P : Type} [DecidableEq K] [DecidableEq V] {n m : Nat} {C : Fin n → Type} {I : Fin m → Type}
  {stores : ∀ i, KvStore (C i) K V} {declared : Fin n → Declared} {index : ∀ j, Index (I j) K V}
  {indexPolicy : Option SyncPolicy} {a : Fin n}

/-- The topology of a node whose children all hold the whole record. -/
abbrev wholeTopology (stores : ∀ i, KvStore (C i) K V) (declared : Fin n → Declared) (index : ∀ j, Index (I j) K V)
    (indexPolicy : Option SyncPolicy) : Topology (Media C I) K V P :=
  mediaTopology stores declared (fun _ => .whole) index indexPolicy none

/-- Only its authority is read for a record. -/
def ReadsAuthority (declared : Fin n → Declared) (a : Fin n) : Prop :=
  (declared a).role = .authority ∧
    ∀ i, (declared i).lookedUp ≠ some .beforeAuthority ∧ (declared i).lookedUp ≠ some .afterAuthority

theorem whole_targets : (wholeTopology stores declared index indexPolicy : Topology (Media C I) K V P).targets =
    ((List.finRange n).map fun i => storeTarget (declared i) ((stores i).zoom (Media.child i)) some id) ++
      (indexPolicy.map fun p => indexesTarget (List.ofFn fun j => (index j).zoom (Media.index j)) p).toList := by
  show _ ++ _ = _ ++ _
  congr 1
  exact congrFun List.filterMap_eq_map _

theorem whole_authority_unique
    (hacc : (wholeTopology stores declared index indexPolicy : Topology (Media C I) K V P).Accepted)
    (ha : (declared a).role = .authority) {b : Fin n} (hb : (declared b).role = .authority) : b = a := by
  have hmem : some b ∈ placesOf declared (fun _ => (.whole : Shape V P V)) indexPolicy [.authority] :=
    child_mem_placesOf.mpr (List.mem_singleton.mpr hb)
  rw [authority_places ha hacc, List.mem_singleton] at hmem
  exact Option.some.inj hmem

theorem whole_parts :
    (wholeTopology stores declared index indexPolicy : Topology (Media C I) K V P).parts = [] :=
  List.filterMap_eq_nil_iff.mpr fun _ _ => rfl

theorem whole_lookup (ha : ReadsAuthority declared a) {l : Lookup} (hl : l = .beforeAuthority ∨ l = .afterAuthority) :
    (wholeTopology stores declared index indexPolicy : Topology (Media C I) K V P).targets.filter
      (fun t => t.lookup = some l) = [] := by
  rw [List.filter_eq_nil_iff, whole_targets]
  intro t ht
  rw [decide_eq_true_iff]
  rcases List.mem_append.mp ht with ht | ht
  · obtain ⟨i, -, rfl⟩ := List.mem_map.mp ht
    rcases hl with rfl | rfl
    · exact (ha.2 i).1
    · exact (ha.2 i).2
  · obtain ⟨policy, -, rfl⟩ := Option.map_eq_some_iff.mp (Option.mem_toList.mp ht)
    rcases hl with rfl | rfl <;> exact fun h => Lookup.noConfusion (Option.some.inj h)

theorem whole_authority
    (hacc : (wholeTopology stores declared index indexPolicy : Topology (Media C I) K V P).Accepted)
    (ha : (declared a).role = .authority) :
    (wholeTopology stores declared index indexPolicy : Topology (Media C I) K V P).wholeAuthority =
      some (storeTarget (declared a) ((stores a).zoom (Media.child a)) some id) := by
  have hfirst : (List.finRange n).find? (fun i => (declared i).role = .authority) = some a := by
    cases hfind : (List.finRange n).find? fun i => (declared i).role = .authority with
    | none => exact absurd (decide_eq_true ha) (List.find?_eq_none.mp hfind a (List.mem_finRange a))
    | some b =>
      have hrole := List.find?_some hfind
      exact congrArg some (whole_authority_unique hacc ha (of_decide_eq_true hrole))
  unfold Topology.wholeAuthority
  rw [whole_targets, List.find?_append, List.find?_map]
  exact congrArg (fun found => (Option.map _ found).or _) hfirst

theorem whole_read (hacc : (wholeTopology stores declared index indexPolicy : Topology (Media C I) K V P).Accepted)
    (ha : ReadsAuthority declared a) (k : K) :
    (wholeTopology stores declared index indexPolicy : Topology (Media C I) K V P).read k =
      (Media.child a : Lens (Media C I) (C a)).zoom ((stores a).get k) := by
  unfold Topology.read Topology.assembled Topology.lookups
  rw [whole_parts, whole_lookup ha (.inl rfl), whole_lookup ha (.inr rfl), whole_authority hacc ha.1]
  show Topology.readFrom k [storeTarget (declared a) ((stores a).zoom (Media.child a)) some id] [] = _
  funext s
  have hread : (storeTarget (declared a) ((stores a).zoom (Media.child a)) some id :
      Target (Media C I) K V V).read k s =
      (Media.child a : Lens (Media C I) (C a)).zoom ((stores a).get k) s := by
    show (Option.map id <$> (Media.child a : Lens (Media C I) (C a)).zoom ((stores a).get k)) s = _
    rw [Option.map_id, id_map]
  rcases h : (Media.child a : Lens (Media C I) (C a)).zoom ((stores a).get k) s with ⟨e | _ | value, s'⟩
  · exact bind_error (hread.trans h)
  · exact bind_ok (hread.trans h)
  · exact bind_ok (hread.trans h)

theorem whole_deferred (hacc : (wholeTopology stores declared index indexPolicy : Topology (Media C I) K V P).Accepted)
    (ha : (declared a).role = .authority) (h : (stores a).writesAreDeferred = false) :
    (wholeTopology stores declared index indexPolicy : Topology (Media C I) K V P).deferred = false := by
  refine List.any_eq_false.mpr fun t ht => ?_
  obtain ⟨place, hrole, rfl⟩ := Composition.mem_byRole ht
  cases place with
  | none => exact Bool.false_ne_true
  | some i =>
    rcases List.mem_cons.mp hrole with hcomponent | hauthority
    · have hmem : storeTarget (declared i) ((stores i).zoom (Media.child i : Lens (Media C I) (C i))) some id ∈
          (wholeTopology stores declared index indexPolicy : Topology (Media C I) K V P).targets := by
        rw [whole_targets]
        exact List.mem_append_left _ (List.mem_map.mpr ⟨i, List.mem_finRange i, rfl⟩)
      exact absurd hcomponent (hacc.noWholeComponent _ hmem)
    · obtain rfl := whole_authority_unique hacc ha (List.mem_singleton.mp hauthority)
      exact ne_true_of_eq_false h

/-- A node that reads its authority alone is the map that one is. -/
theorem whole_isMap {clock : ∀ i, Clock Instant (C i)} {shown : Showing V} {N : KvStore (Node (Media C I) K V P) K V}
    (hN : (wholeTopology stores declared index indexPolicy : Topology (Media C I) K V P).Makes N)
    (hacc : (wholeTopology stores declared index indexPolicy : Topology (Media C I) K V P).Accepted)
    (ha : ReadsAuthority declared a) (hfill : (declared a).fill = false) (h : (stores a).IsMap (clock a) shown) :
    N.IsMap (nodeClock clock (· = a)) (shown.slotted some (stores a).supportsWriteClock) := by
  have hread : ∀ k s, ((wholeTopology stores declared index indexPolicy : Topology (Media C I) K V P).read k s).1 =
      (stores a).answer k (s.1 a) := by
    intro k s
    rw [whole_read hacc ha]
    rfl
  refine node_isMap (fun _ => shown) (fun held => held a) ?_ ?_ ?_ hacc
    (whole_deferred hacc ha.1 h.atOnce) hN (fun k given s s' hs hs' => ?_) (fun k held s hs => ?_) rfl
  · rintro i rfl
    exact h
  · rintro i rfl
    exact .inl ha.1
  · rintro i rfl
    exact hfill
  · rw [hread, hread, (hs a rfl).2, (hs' a rfl).2]
  · rw [hread, (hs a rfl).2]

end Whole

/-! ## Records of parts -/

section Zipped

variable {K V : Type} [DecidableEq K] {n : Nat} {C : Fin n → Type} {I : Fin 0 → Type} {part : Fin n → Type}
  [∀ i, DecidableEq (part i)] {stores : ∀ i, KvStore (C i) K (part i)} (declared : Fin n → Declared)
  (field : ∀ i, V → Option (part i)) (mandatory : Fin n → Bool) (ctor : (∀ i, Option (part i)) → V)
  (index : ∀ j, Index (I j) K V) {clock : ∀ i, Clock Instant (C i)} {shown : ∀ i, Showing (part i)} {k : K}

/-- The row the parts make: there where the part that decides existence is, and the mandatory ones. -/
def zipRow (held : ∀ i, Option (part i)) : Option V :=
  if (∀ i, (declared i).role = .authority → (held i).isSome = true) ∧
      rowPresent (List.ofFn fun i => (held i).isSome) (List.ofFn mandatory) = true then some (ctor held)
  else none

/-- What a zip is told of a part, filed under its place. -/
def heldAs (i : Fin n) (value : Option (part i)) : Nat × Option (V ⊕ Σ i, part i) :=
  (i.val, value.map fun v => Sum.inr (partOf i v))

/-- What a read of a zip makes of its parts' answers. -/
def zipAnswer (given : ∀ i, Except Exn (Option (part i))) : Except Exn (Option V) :=
  let others : Except Exn (Parts V (Σ i, part i)) :=
    ((List.finRange n).filter fun i => (declared i).role ≠ .authority).mapM fun i => (given i).map (heldAs i)
  ((List.finRange n).find? fun i => (declared i).role = .authority).elim (others.map (rowOf mandatory ctor)) fun a =>
    (given a).bind fun value =>
      if value.isNone then .ok none else others.map fun held => rowOf mandatory ctor (heldAs a value :: held)

omit [∀ i, DecidableEq (part i)] in
theorem lookup_heldAs (is : List (Fin n)) {held : ∀ i, Option (part i)} {i : Fin n} (hi : i ∈ is) :
    Assoc.lookup i.val (is.map fun j => (heldAs j (held j) : Nat × Option (V ⊕ Σ i, part i))) =
      some (heldAs i (held i) : Nat × Option (V ⊕ Σ i, part i)).2 := by
  induction is with
  | nil => cases hi
  | cons j js ih =>
    show (if j.val = i.val then some _ else Assoc.lookup i.val (js.map _)) = _
    by_cases hji : j = i
    · subst hji
      exact if_pos rfl
    · rw [if_neg fun h => hji (Fin.ext h)]
      exact ih ((List.mem_cons.mp hi).resolve_left (Ne.symm hji))

omit [∀ i, DecidableEq (part i)] in
theorem partValue_heldAs {held : Parts V (Σ i, part i)} {i : Fin n} {value : Option (part i)}
    (h : Assoc.lookup i.val held = some (heldAs i value : Nat × Option (V ⊕ Σ i, part i)).2) :
    Composition.partValue held i = value := by
  unfold Composition.partValue Parts.held
  rw [h]
  cases value with
  | none => rfl
  | some v => exact dif_pos rfl

omit [∀ i, DecidableEq (part i)] in
theorem rowOf_heldAs {held : Parts V (Σ i, part i)} {value : ∀ i, Option (part i)}
    (h : ∀ i, Assoc.lookup i.val held = some (heldAs i (value i) : Nat × Option (V ⊕ Σ i, part i)).2) :
    rowOf mandatory ctor held =
      if rowPresent (List.ofFn fun i => (value i).isSome) (List.ofFn mandatory) = true then some (ctor value)
      else none := by
  have hvalue : Composition.partValue held = value := funext fun i => partValue_heldAs (h i)
  unfold rowOf
  rw [hvalue]

omit [∀ i, DecidableEq (part i)] in
/-- Where every part answers, a read of the zip answers the row they make. -/
theorem zipAnswer_ok (hone : ∀ i j, (declared i).role = .authority → (declared j).role = .authority → i = j)
    (held : ∀ i, Option (part i)) :
    zipAnswer declared mandatory ctor (fun i => .ok (held i)) = .ok (zipRow declared mandatory ctor held) := by
  have hothers : ((List.finRange n).filter fun i => (declared i).role ≠ .authority).mapM
      (fun i => (Except.ok (held i) : Except Exn _).map (heldAs i)) =
      .ok (((List.finRange n).filter fun i => (declared i).role ≠ .authority).map fun i =>
        (heldAs i (held i) : Nat × Option (V ⊕ Σ i, part i))) := exceptMapM_ok fun i _ => rfl
  have hfound : ∀ i, (declared i).role ≠ .authority →
      Assoc.lookup i.val (((List.finRange n).filter fun i => (declared i).role ≠ .authority).map fun j =>
        (heldAs j (held j) : Nat × Option (V ⊕ Σ i, part i))) =
          some (heldAs i (held i) : Nat × Option (V ⊕ Σ i, part i)).2 :=
    fun i hi => lookup_heldAs _ (List.mem_filter.mpr ⟨List.mem_finRange i, decide_eq_true hi⟩)
  unfold zipAnswer zipRow
  simp only [hothers]
  cases hanchor : (List.finRange n).find? fun i => (declared i).role = .authority with
  | none =>
    have hno : ∀ i, (declared i).role ≠ .authority := fun i hi =>
      List.find?_eq_none.mp hanchor i (List.mem_finRange i) (decide_eq_true hi)
    show Except.ok (rowOf mandatory ctor _) = _
    rw [rowOf_heldAs mandatory ctor fun i => hfound i (hno i)]
    simp only [hno, false_implies, implies_true, true_and]
  | some a =>
    have ha : (declared a).role = .authority := by simpa using List.find?_some hanchor
    have hdecides : (∀ i, (declared i).role = .authority → (held i).isSome = true) ↔ (held a).isSome = true := by
      refine ⟨fun h => h a ha, fun h i hi => ?_⟩
      rw [hone i a hi ha]
      exact h
    by_cases hsome : (held a).isSome = true
    · have hplaces : ∀ i, Assoc.lookup i.val ((heldAs a (held a) : Nat × Option (V ⊕ Σ i, part i)) ::
          ((List.finRange n).filter fun i => (declared i).role ≠ .authority).map fun j => heldAs j (held j)) =
            some (heldAs i (held i) : Nat × Option (V ⊕ Σ i, part i)).2 := by
        intro i
        refine lookup_heldAs (a :: _) (List.mem_cons.mpr ?_)
        by_cases hi : (declared i).role = .authority
        · exact .inl (hone i a hi ha)
        · exact .inr (List.mem_filter.mpr ⟨List.mem_finRange i, decide_eq_true hi⟩)
      have hthere : (held a).isNone = false := Option.isNone_eq_false_iff.mpr hsome
      show (if (held a).isNone = true then (.ok none : Except Exn (Option V)) else .ok (rowOf mandatory ctor _)) = _
      rw [hthere, if_neg Bool.false_ne_true, rowOf_heldAs mandatory ctor hplaces]
      simp only [hdecides, hsome, true_and]
    · have hgone : (held a).isNone = true := by simpa using hsome
      show (if (held a).isNone = true then (.ok none : Except Exn (Option V)) else _) = _
      rw [if_pos hgone, if_neg fun h => hsome (hdecides.mp h.1)]

variable (hmaps : ∀ i, (stores i).IsMap (clock i) (shown i)) {given : ∀ i, Except Exn (Option (part i))}

include hmaps

/-- A part is read for what it answers. -/
theorem partTarget_answers (i : Fin n) {s : Media C I} (hs : Answering stores clock (fun _ => True) k given s) :
    ((partTarget stores declared field index i).read k s).1 =
        (given i).map (Option.map fun v => Sum.inr (partOf i v)) ∧
      Answering stores clock (fun _ => True) k given ((partTarget stores declared field index i).read k s).2 := by
  rw [partTarget_read, map_apply]
  refine ⟨congrArg (Except.map _) (hs i trivial).2, ?_⟩
  exact hs.kept shown (fun i _ => hmaps i) (onParts_child (fun _ => (hmaps i).reads.get k) s)

theorem readParts_answers {s : Media C I} (hs : Answering stores clock (fun _ => True) k given s) :
    ((zipTopology stores declared field mandatory ctor index).readParts k s).1 =
        (((List.finRange n).filter fun i => (declared i).role ≠ .authority).mapM fun i =>
          (given i).map (heldAs i) : Except Exn (Parts V (Σ i, part i))) ∧
      Answering stores clock (fun _ => True) k given
        ((zipTopology stores declared field mandatory ctor index).readParts k s).2 := by
  unfold Topology.readParts
  rw [zip_unanchoredParts, List.mapM_map]
  refine mapM_answers (H := Answering stores clock (fun _ => True) k given) (fun i s hs => ?_) _ s hs
  obtain ⟨hanswer, hkept⟩ := partTarget_answers declared field index hmaps i hs
  have hmap : (do return (i.val, ← (partTarget stores declared field index i).read k) : M (Media C I) _) =
      (fun value => (i.val, value)) <$> (partTarget stores declared field index i).read k :=
    (map_eq_pure_bind _ _).symm
  show ((do return (i.val, ← (partTarget stores declared field index i).read k) : M (Media C I) _) s).1 = _ ∧
    Answering stores clock (fun _ => True) k given
      ((do return (i.val, ← (partTarget stores declared field index i).read k) : M (Media C I) _) s).2
  rw [hmap, map_apply, hanswer]
  refine ⟨?_, hkept⟩
  cases given i <;> rfl

/-- A read of a zip answers by what its parts answer. -/
theorem zip_read (hacc : (zipTopology stores declared field mandatory ctor index).Accepted) {s : Media C I}
    (hs : Answering stores clock (fun _ => True) k given s) :
    ((zipTopology stores declared field mandatory ctor index).read k s).1 =
      zipAnswer declared mandatory ctor given := by
  have hassembled : (zipTopology stores declared field mandatory ctor index).assembled = true := hacc.together
  have hassemble : (zipTopology stores declared field mandatory ctor index).requireAssemble =
      pure (rowOf mandatory ctor) := rfl
  unfold Topology.read
  rw [if_pos hassembled]
  unfold Topology.assembleOne zipAnswer
  rw [hassemble, pure_bind, zip_anchored]
  cases hanchor : (List.finRange n).find? fun i => (declared i).role = .authority with
  | none =>
    show ((do return rowOf mandatory ctor (← (zipTopology stores declared field mandatory ctor index).readParts k) :
      M (Media C I) _) s).1 = _
    rw [← map_eq_pure_bind, map_apply, (readParts_answers declared field mandatory ctor index hmaps hs).1]
    rfl
  | some a =>
    obtain ⟨hanswer, hkept⟩ := partTarget_answers declared field index hmaps a hs
    show (((partTarget stores declared field index a).read k >>= _) s).1 = (given a).bind _
    cases hgiven : given a with
    | error e =>
      rw [hgiven] at hanswer
      rw [bind_error (Prod.ext hanswer rfl)]
      rfl
    | ok value =>
      rw [hgiven] at hanswer
      rw [bind_ok (Prod.ext hanswer rfl)]
      cases value with
      | none => rfl
      | some v =>
        show ((do return rowOf mandatory ctor ((a.val, some (Sum.inr (partOf a v))) ::
          (← (zipTopology stores declared field mandatory ctor index).readParts k)) : M (Media C I) _) _).1 = _
        rw [← map_eq_pure_bind, map_apply, (readParts_answers declared field mandatory ctor index hmaps hkept).1]
        rfl

theorem zip_deferred : (zipTopology stores declared field mandatory ctor index).deferred = false := by
  refine List.any_eq_false.mpr fun t ht => ?_
  obtain ⟨place, -, rfl⟩ := Composition.mem_byRole ht
  cases place with
  | none => exact Bool.false_ne_true
  | some i => exact ne_true_of_eq_false (hmaps i).atOnce

/-- A zip of maps is a map of the rows they make. -/
theorem zip_isMap {N : KvStore (Node (Media C I) K V (Σ i, part i)) K V}
    (hN : (zipTopology stores declared field mandatory ctor index).Makes N)
    (hacc : (zipTopology stores declared field mandatory ctor index).Accepted)
    (hpolicy : ∀ i, (declared i).policy = .required) (hfill : ∀ i, (declared i).fill = false) :
    N.IsMap (nodeClock clock fun _ => True) fun value options now u => zipRow declared mandatory ctor fun i =>
      (shown i).slotted (field i) (stores i).supportsWriteClock value options now u := by
  have htended : ∀ i, (declared i).Tended := by
    intro i
    refine .inr ⟨hacc.noFallbackPart (storeTarget (declared i)
      ((stores i).zoom (Media.child i : Lens (Media C I) (C i))) (field i) (partOf i)) ?_, hpolicy i⟩
    rw [zip_parts]
    exact List.mem_map.mpr ⟨i, List.mem_finRange i, rfl⟩
  refine node_isMap shown (zipRow declared mandatory ctor) (fun i _ => hmaps i) (fun i _ => htended i)
    (fun i _ => hfill i) hacc (zip_deferred declared field mandatory ctor index hmaps) hN
    (fun k given s s' hs hs' => ?_) (fun k held s hs => ?_) ?_
  · rw [zip_read declared field mandatory ctor index hmaps hacc hs,
      zip_read declared field mandatory ctor index hmaps hacc hs']
  · rw [zip_read declared field mandatory ctor index hmaps hacc hs]
    exact zipAnswer_ok declared mandatory ctor (one_authority stores declared field mandatory ctor index hacc) held
  · refine if_neg ?_
    rintro ⟨-, hrow⟩
    obtain ⟨⟨i, hi⟩, -⟩ := (rowPresent_ofFn _ _).mp hrow
    cases hi

end Zipped

/-! ## Trees -/

namespace Composition

section Zips

variable {K V : Type} {n : Nat} {parts : Fin n → ZipPart K V} {ctor : (∀ i, Option (parts i).T) → V}
  {createdAtMerge : Option (List (Option Instant) → Option Instant)}

/-- The time of a zip, as all its parts show it. -/
abbrev zipClock (clock : ∀ i, Clock Instant (parts i).store.State) :
    Clock Instant (zipWith parts ctor createdAtMerge).State := nodeClock clock fun _ => True

/-- What a zip shows of a record: the row that its parts make of what they show. -/
def zipShown [DecidableEq K] (parts : Fin n → ZipPart K V) (ctor : (∀ i, Option (parts i).T) → V)
    (shown : ∀ i, Showing (parts i).T) : Showing V := fun value options now u =>
  zipRow (fun i => ⟨(parts i).name, (parts i).role, none, false, .required⟩) (fun i => (parts i).mandatory) ctor
    fun i => (shown i).slotted (parts i).field (parts i).store.store.supportsWriteClock value options now u

end Zips

/-- Trees that are maps of entries that expire: memory stores, views, nodes that read their authority alone, and
    zips. With each, its clock and what it shows of what is written. -/
inductive Maps : {K V : Type} → DecidableEq K → (c : Composition K V) → Clock Instant c.State → Showing V → Prop
  | memory {K V α VB : Type} {dec : DecidableEq K} [DecidableEq α] (b : MemoryKvBackend K V α VB) :
      Maps dec (.leaf (memoryLeaf b)) MemoryKvBackend.timer b.shows
  | imap {K T U : Type} {dec : DecidableEq K} {c : Composition K T} {clock : Clock Instant c.State} {shown : Showing T}
      (h : Maps dec c clock shown) (forward : T → U) (inverse : U → T) :
      Maps dec (.imap c forward inverse) clock (shown.imap forward inverse)
  | imapKeys {K SK V : Type} {dec : DecidableEq K} {decKeys : DecidableEq SK} {c : Composition SK V}
      {clock : Clock Instant c.State} {shown : Showing V} (h : Maps decKeys c clock shown) {toStore : K → SK}
      (hinj : Function.Injective toStore) (fromStore : Option (SK → K)) :
      Maps dec (.imapKeys decKeys c toStore fromStore) clock shown
  | whole {K V P : Type} {dec : DecidableEq K} [DecidableEq V] (typeName : String) {n m : Nat}
      {child : Fin n → Composition K V} {declared : Fin n → Declared} {index : Fin m → IndexLeaf K V}
      {indexPolicy : Option SyncPolicy} {a : Fin n}
      (hbuilt : (node typeName none P n (fun _ => V) (fun _ => inferInstance) child declared (fun _ => .whole) m index
        indexPolicy none).Constructed)
      (ha : ReadsAuthority declared a) (hfill : (declared a).fill = false)
      {clock : ∀ i, Clock Instant (child i).State} {shown : Showing V} (h : Maps dec (child a) (clock a) shown) :
      Maps dec (.node typeName none P n (fun _ => V) (fun _ => inferInstance) child declared (fun _ => .whole) m index
        indexPolicy none) (nodeClock clock fun i => i = a) (shown.slotted some (child a).store.supportsWriteClock)
  | zip {K V : Type} {dec : DecidableEq K} {n : Nat} (parts : Fin n → ZipPart K V)
      (ctor : (∀ i, Option (parts i).T) → V) (createdAtMerge : Option (List (Option Instant) → Option Instant))
      (hbuilt : (zipWith parts ctor createdAtMerge).Constructed) {clock : ∀ i, Clock Instant (parts i).store.State}
      {shown : ∀ i, Showing (parts i).T} (h : ∀ i, Maps dec (parts i).store (clock i) (shown i)) :
      Maps dec (zipWith parts ctor createdAtMerge) (zipClock clock) (zipShown parts ctor shown)

theorem Maps.isMap {K V : Type} {dec : DecidableEq K} {c : Composition K V} {clock : Clock Instant c.State}
    {shown : Showing V} (h : Maps dec c clock shown) : c.store.IsMap clock shown := by
  induction h with
  | memory b => exact MemoryKvBackend.store_isMap b
  | imap _ forward inverse ih => exact imapStore_isMap ih forward inverse
  | imapKeys _ hinj fromStore ih => exact imapKeysStore_isMap ih hinj fromStore
  | whole typeName hbuilt ha hfill _ ih =>
    exact whole_isMap (.store typeName) (Topology.accepted hbuilt.2.1) ha hfill ih
  | zip parts ctor createdAtMerge hbuilt _ ih =>
    exact zip_isMap _ _ _ _ _ ih (.zip ⟨List.ofFn fun i => (parts i).mandatory, createdAtMerge⟩ "ZipWithKvStore")
      (Topology.accepted hbuilt.2.1) (fun _ => rfl) fun _ => rfl

end Composition

/-! ## Runs -/

section Runs

variable {σ K V : Type} [DecidableEq K]

/-- What a caller may ask of a map. -/
inductive MapCall (K V : Type) where
  | op (o : RecordOp K V)
  | get (key : K)
  | batchGet (keys : List K)
  | existsKey (key : K)
  | batchExists (keys : List K)
  | stat (key : K)
  | batchStat (keys : List K)
  | batchReadVersioned (keys : List K)
  | scanEntries (query : ScanQuery K)
  | expiredKeys (now : Option Instant) (limit : Int)

/-- A call that writes nothing. -/
def readTurn {α : Type} (m : M σ α) : Turn Instant σ K (Except Exn (Option V)) where
  run st := (m st).2
  names _ := false
  told _ _ _ := none

/-- A call as a turn. An operation that returns tells what it leaves, and one that fails tells nothing of its keys. -/
def MapCall.turn (s : KvStore σ K V) (shown : Showing V) : MapCall K V → Turn Instant σ K (Except Exn (Option V))
  | .op o =>
    { run := fun st => (o.run s st).2
      names := fun k => k ∈ o.keys
      told := fun t st k =>
        (o.run s st).1.toOption.bind fun _ => (o.leaves k).map fun left u => .ok (shown.found left t u) }
  | .get key => readTurn (s.get key)
  | .batchGet keys => readTurn (s.batchGet keys)
  | .existsKey key => readTurn (s.existsKey key)
  | .batchExists keys => readTurn (s.batchExists keys)
  | .stat key => readTurn (s.stat key)
  | .batchStat keys => readTurn (s.batchStat keys)
  | .batchReadVersioned keys => readTurn (s.batchReadVersioned keys)
  | .scanEntries query => readTurn (s.scanEntries query)
  | .expiredKeys now limit => readTurn (s.expiredKeys now limit)

/-- What happens to a map: a call, or time passing. -/
inductive MapEvent (K V : Type) where
  | call (c : MapCall K V)
  | wait (until_ : Instant)

def MapEvent.happening (s : KvStore σ K V) (shown : Showing V) :
    MapEvent K V → Happening Instant σ K (Except Exn (Option V))
  | .call c => .turn (c.turn s shown)
  | .wait u => .wait u

/-- A run from a state at an instant, with what is known of each key: as it stood at first, or as it was left by
    the last operation that named it, if that one returned. -/
def KvStore.ledger (s : KvStore σ K V) (clock : Clock Instant σ) (shown : Showing V) (t : Instant) (st : σ)
    (events : List (MapEvent K V)) : Moment Instant σ K (Except Exn (Option V)) :=
  (events.map (MapEvent.happening s shown)).foldl (Moment.after clock) (Moment.start clock s.answer t st)

variable {s : KvStore σ K V} {clock : Clock Instant σ} {shown : Showing V}

omit [DecidableEq K] in
theorem readTurn_sound {α : Type} {m : M σ α} (h : Moves (s.Quiet clock) m) :
    (readTurn m : Turn Instant σ K (Except Exn (Option V))).Sound clock s.answer where
  stays st := (h st).stays
  spares k _ st := (h st).spares k
  tells _ hk := absurd hk Bool.false_ne_true

/-- A map's calls are sound turns. -/
theorem KvStore.IsMap.turn_sound (h : s.IsMap clock shown) (c : MapCall K V) :
    (c.turn s shown).Sound clock s.answer := by
  cases c with
  | op o =>
    refine ⟨fun st => h.stays o st, fun k hk st => h.spares k o (of_decide_eq_false hk) st, ?_⟩
    intro k _ t st answer ht htold
    obtain ⟨u, hreturned, hleft⟩ := Option.bind_eq_some_iff.mp htold
    obtain ⟨left, hleaves, rfl⟩ := Option.map_eq_some_iff.mp hleft
    refine h.leaves o k left hleaves t st _ ht ?_
    show o.run s st = (.ok (), (o.run s st).2)
    rcases hrun : o.run s st with ⟨e | u, st'⟩
    · rw [hrun] at hreturned
      cases hreturned
    · rfl
  | get key => exact readTurn_sound (h.reads.get key)
  | batchGet keys => exact readTurn_sound (h.reads.batchGet keys)
  | existsKey key => exact readTurn_sound (h.reads.existsKey key)
  | batchExists keys => exact readTurn_sound (h.reads.batchExists keys)
  | stat key => exact readTurn_sound (h.reads.stat key)
  | batchStat keys => exact readTurn_sound (h.reads.batchStat keys)
  | batchReadVersioned keys => exact readTurn_sound (h.looks.versions keys)
  | scanEntries query => exact readTurn_sound (h.looks.scan query)
  | expiredKeys now limit => exact readTurn_sound (h.looks.expired now limit)

/-- Whatever happens to a map, it answers as is known. -/
theorem KvStore.IsMap.ledger_holds (h : s.IsMap clock shown) (t : Instant) (st : σ) (events : List (MapEvent K V)) :
    (s.ledger clock shown t st events).Holds clock s.answer := by
  refine Moment.holds_run (fun x hx => ?_) (Moment.holds_start t st)
  obtain ⟨event, -, hevent⟩ := List.mem_map.mp hx
  cases event with
  | call c =>
    obtain rfl := Happening.turn.inj hevent
    exact h.turn_sound c
  | wait u => cases hevent

end Runs

/-! ### Scans of a map -/

section Scans

variable {σ K V : Type} [DecidableEq K] {s : KvStore σ K V} {clock : Clock Instant σ} {shown : Showing V}
  {t : Instant} {st : σ} {content : K → Option V}

/-- Where nothing was done but to read, a key is answered as it was. -/
theorem KvStore.IsMap.answer_quiet (h : s.IsMap clock shown) (ht : clock.Shows t st) {st' : σ}
    (hquiet : s.Quiet clock st st') (k : K) : s.answer k st' = s.answer k st := by
  obtain ⟨ht', hsame⟩ := hquiet.spares k t ht
  rw [← h.now k t st' ht', hsame t (le_refl t), h.now k t st ht]

/-- Where its reads return, a map answers a batch as it answers each key. -/
theorem KvStore.IsMap.steady (h : s.IsMap clock shown) (hagree : s.Agree) (ht : clock.Shows t st)
    (hget : ∀ k, s.answer k st = .ok (content k))
    (hbatch : ∀ ks st', s.Quiet clock st st' → ∃ found, (s.batchGet ks st').1 = .ok found) :
    Steady (s.Quiet clock st) content s.batchGet := by
  intro ks st' hquiet
  obtain ⟨found, hfound⟩ := hbatch ks st' hquiet
  refine ⟨found, _, Prod.ext hfound rfl, IsTrans.trans _ _ _ hquiet (h.reads.batchGet ks st'), fun k hk => ?_⟩
  exact (hagree.batchGet ks st' found hfound k).2 (content k) hk ((h.answer_quiet ht hquiet k).trans (hget k))

theorem KvStore.IsMap.steadyExists (h : s.IsMap clock shown) (hagree : s.Agree) (ht : clock.Shows t st)
    (hget : ∀ k, s.answer k st = .ok (content k))
    (hexists : ∀ ks st', s.Quiet clock st st' → ∃ held, (s.batchExists ks st').1 = .ok held) :
    SteadyExists (s.Quiet clock st) content s.batchExists := by
  intro ks st' hquiet
  obtain ⟨held, hheld⟩ := hexists ks st' hquiet
  refine ⟨IsTrans.trans _ _ _ hquiet (h.reads.batchExists ks st'), held, hheld, fun k hk => ?_⟩
  exact (hagree.batchExists ks st' held hheld k).2 (content k) hk ((h.answer_quiet ht hquiet k).trans (hget k))

/-- A scan that reads through a map what the record's parts list gives the records `get` shows. -/
theorem KvStore.IsMap.scans [ScanKey K] (h : s.IsMap clock shown) (hagree : s.Agree) (ht : clock.Shows t st)
    (hget : ∀ k, s.answer k st = .ok (content k))
    (hbatch : ∀ ks st', s.Quiet clock st st' → ∃ found, (s.batchGet ks st').1 = .ok found)
    (hexists : ∀ ks st', s.Quiet clock st st' → ∃ held, (s.batchExists ks st').1 = .ok held) (op : String)
    {scanned : List (KeyPart σ K)} {spec : ScanSpec K V} {listed : KeyPart σ K → List K}
    (hallowed : 1 < scanned.length → spec.order = .unordered ∧ spec.orderBy = [])
    (hlisted : ∀ part ∈ scanned, Returns (s.Quiet clock st) (part.scanKeys spec) fun keys => keys = listed part)
    (hpass : ∀ part ∈ scanned, ∀ k ∈ listed part,
      spec.where_.splitKeyPredicates.1.evaluate (bareRow (k, none)) = true) :
    Returns (s.Quiet clock st) (mergedScanRows op s.batchGet s.batchExists scanned spec) fun rows =>
      rows = cut (spec.call spec.where_.splitKeyPredicates.2)
        ((Dict.unique (scanned.flatMap listed)).filterMap (recordRow spec content)) :=
  mergedScanRows_run (h.steady hagree ht hget hbatch) (h.steadyExists hagree ht hget hexists) hallowed hlisted hpass

end Scans

namespace Composition

/-- In every run of a tree of maps, a key reads as it is known: as it stood at first, or as the last operation that
    named it left it. A value that was written is read until its time is over, whatever becomes of other keys. -/
theorem ledger_answers {K V : Type} {dec : DecidableEq K} {c : Composition K V} {clock : Clock Instant c.State}
    {shown : Showing V} (h : Maps dec c clock shown) (t : Instant) (st : c.State) (events : List (MapEvent K V)) {k : K}
    {answer : Instant → Except Exn (Option V)}
    (hknown : (c.store.ledger clock shown t st events).known k = some answer) :
    (c.store.get k (c.store.ledger clock shown t st events).state).1 =
      answer (c.store.ledger clock shown t st events).time := by
  have hholds := h.isMap.ledger_holds t st events
  rw [← hholds.known k answer hknown _ (le_refl _)]
  exact (h.isMap.now k _ _ hholds.shows).symm

/-! ### A pair in memory, behind a scope -/

def headedClock : ∀ i, Clock Instant (headed true i).store.State
  | 0 => MemoryKvBackend.timer
  | 1 => MemoryKvBackend.timer

def headedShown : ∀ i, Showing (headed true i).T
  | 0 => (MemoryKvBackend.plain String).shows
  | 1 => (MemoryKvBackend.plain String).shows

def headedRoots : ∀ i, (headed true i).store.State
  | 0 => MemoryRoot.empty 0
  | 1 => MemoryRoot.empty 0

theorem pairOf_built : (pairOf true).Constructed :=
  ⟨Fin.forall_fin_two.mpr ⟨rfl, rfl⟩, rfl, Fin.forall_fin_two.mpr ⟨trivial, trivial⟩⟩

theorem pairOf_maps : Maps inferInstance (pairOf true) (zipClock headedClock)
    (zipShown (headed true) (fun held => (held 0, held 1)) headedShown) :=
  .zip (headed true) _ none pairOf_built (Fin.forall_fin_two.mpr ⟨.memory _, .memory _⟩)

/-- The pair, behind the node that scopes it. -/
def scopedPair : Composition (List Char) (Option String × Option String) := scopeFrom (pairOf true)

def scopedClock : Clock Instant scopedPair.State := nodeClock (fun _ => zipClock headedClock) fun i => i = Fin.last 0

def scopedShown : Showing (Option String × Option String) :=
  Showing.slotted (zipShown (headed true) (fun held => (held 0, held 1)) headedShown) some
    (pairOf true).store.supportsWriteClock

theorem scopedPair_built : scopedPair.Constructed := ⟨fun _ => rfl, rfl, fun _ => pairOf_built⟩

theorem scopedPair_maps : Maps inferInstance scopedPair scopedClock scopedShown :=
  .whole "ScopeFromKvStore" scopedPair_built ⟨rfl, by decide⟩ rfl pairOf_maps

def noPair : scopedPair.State :=
  ⟨(fun _ => ⟨(headedRoots, fun j => j.elim0), []⟩, fun j => j.elim0), []⟩

/-- The pair is written for 5 s, another key is deleted, and time passes. -/
def briefPair (until_ : Instant) : List (MapEvent (List Char) (Option String × Option String)) :=
  [.call (.op (.set ['k'] (some "head", some "tail") ⟨some ⟨some 5000000⟩, none⟩)), .call (.op (.delete ['j'])),
    .wait until_]

theorem ledger_answers_brief :
    (scopedPair.store.get ['k']
        (scopedPair.store.ledger scopedClock scopedShown 0 noPair (briefPair 4999999)).state).1 =
          .ok (some (some "head", some "tail")) ∧
      (scopedPair.store.get ['k']
        (scopedPair.store.ledger scopedClock scopedShown 0 noPair (briefPair 5000000)).state).1 = .ok none :=
  ⟨(ledger_answers scopedPair_maps 0 noPair (briefPair 4999999) rfl).trans rfl,
    (ledger_answers scopedPair_maps 0 noPair (briefPair 5000000) rfl).trans rfl⟩

end Composition

end Kvtsjl
