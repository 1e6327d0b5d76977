import Mathlib.Data.Int.ConditionallyCompleteOrder
import Mathlib.Order.ConditionallyCompleteLattice.Basic
import Kvtsjl.Compose
import Kvtsjl.Existence
import Kvtsjl.Kinds
import Kvtsjl.Lib.Lifetime

/-
  What a zip's stat tells of its record's life.
  A record that needs a part dies with it. `merge_part_stats` asks which slots are mandatory, and the
  part that decides existence is needed whether it is mandatory or not. `stat_tells_iff` says when its
  answer is the record's life all the same: where some mandatory part, or every part where none is
  mandatory, has died by the time the commit part does.
-/

namespace Kvtsjl

open Assoc (Dict)
open Effects Prog Life

/-! ## Time without writes -/

section Time

variable {σ K V : Type}

/-- The reads of a store. -/
inductive KvStore.IsRead (s : KvStore σ K V) : {α : Type} → M σ α → Prop
  | get k : IsRead s (s.get k)
  | batchGet ks : IsRead s (s.batchGet ks)
  | existsKey k : IsRead s (s.existsKey k)
  | batchExists ks : IsRead s (s.batchExists ks)
  | stat k : IsRead s (s.stat k)
  | batchStat ks : IsRead s (s.batchStat ks)

theorem KvStore.Reads.isRead {Q : ∀ {α : Type}, M σ α → Prop} {s : KvStore σ K V} (h : s.Reads Q) {α : Type}
    {m : M σ α} (hm : s.IsRead m) : Q m := by
  cases hm with
  | get k => exact h.get k
  | batchGet ks => exact h.batchGet ks
  | existsKey k => exact h.existsKey k
  | batchExists ks => exact h.batchExists ks
  | stat k => exact h.stat k
  | batchStat ks => exact h.batchStat ks

theorem KvStore.isRead_reads {Q : ∀ {α : Type}, M σ α → Prop} {s : KvStore σ K V}
    (h : ∀ {α : Type} {m : M σ α}, s.IsRead m → Q m) : s.Reads Q :=
  ⟨fun k => h (.get k), fun ks => h (.batchGet ks), fun k => h (.existsKey k), fun ks => h (.batchExists ks),
    fun k => h (.stat k), fun ks => h (.batchStat ks)⟩

/-- From a state as it is at an instant, the states later ones may find it in: time passes and the store
    is read, and nothing is written. `goTo` is how the state stands at an instant. -/
inductive Unwritten (goTo : Instant → σ → σ) (s : KvStore σ K V) (now : Instant) (start : σ) : Instant → σ → Prop
  | start : Unwritten goTo s now start now (goTo now start)
  | wait {t u st} : Unwritten goTo s now start t st → t ≤ u → Unwritten goTo s now start u (goTo u st)
  | read {t st} {α : Type} {m : M σ α} : Unwritten goTo s now start t st → s.IsRead m →
      Unwritten goTo s now start t (m st).2

theorem Unwritten.later {goTo : Instant → σ → σ} {s : KvStore σ K V} {now t : Instant} {start st : σ}
    (h : Unwritten goTo s now start t st) : now ≤ t := by
  induction h with
  | start => exact Int.le_refl _
  | wait _ hle ih => exact Int.le_trans ih hle
  | read _ _ ih => exact ih

/-- When the life that a stat tells of ends. -/
def lifeOf (stat : Option RecordStat) : Life Instant := stat.elim ⊥ fun m => ending m.expiresAt

/-- The store's entry under the key has the life, as long as nothing is written: a get returns it until it
    ends and nothing from then on, and the stat tells when that is. -/
structure Tells (goTo : Instant → σ → σ) (s : KvStore σ K V) (key : K) (now : Instant) (start : σ)
    (life : Life Instant) : Prop where
  get : ∀ {t st}, Unwritten goTo s now start t st →
    ∃ value, (s.get key st).1 = .ok value ∧ (value.isSome ↔ Alive t life)
  stat : ∀ {t st}, Unwritten goTo s now start t st →
    ∃ told, (s.stat key st).1 = .ok told ∧ (told.isSome ↔ Alive t life) ∧ (told.isSome → lifeOf told = life)

end Time

/-! ## A memory store tells -/

/-- The store as it stands at an instant, if it is not touched. -/
def MemoryRoot.goTo {α VB : Type} [DecidableEq α] (t : Instant) (r : MemoryRoot α VB) : MemoryRoot α VB :=
  { r with clock := t }

namespace MemoryKvBackend

variable {K V α VB : Type} [DecidableEq α] (b : MemoryKvBackend K V α VB)

theorem expired_eq_true {e : Entry VB} {t : Instant} : expired e t = true ↔ ¬ Alive t (ending e.expiresAt) := by
  rw [alive_ending]
  unfold expired
  cases he : e.expiresAt with
  | none => simp
  | some d => simp

theorem expired_eq_false {e : Entry VB} {t : Instant} : expired e t = false ↔ Alive t (ending e.expiresAt) := by
  rw [← not_iff_not, Bool.not_eq_false, expired_eq_true]

/-- Entries gone by a time were over by then, and the others are as they were. -/
def Faded (t : Instant) (r r' : MemoryRoot α VB) : Prop := r'.clock = t ∧ ∀ p,
  b.entryAt r' p = b.entryAt r p ∨
    b.entryAt r' p = none ∧ ∃ e, b.entryAt r p = some e ∧ expired e t = true

variable {b}

theorem Faded.later {t u : Instant} {r r' : MemoryRoot α VB} (h : b.Faded t r r') (hle : t ≤ u) :
    b.Faded u r (r'.goTo u) := by
  refine ⟨rfl, fun p => ?_⟩
  rcases h.2 p with hsame | ⟨hnone, e, he, hx⟩
  · exact .inl hsame
  · refine .inr ⟨hnone, e, he, ?_⟩
    rw [expired_eq_true] at hx ⊢
    exact fun halive => hx (halive.earlier hle)

theorem Faded.trans {t : Instant} {r r' r'' : MemoryRoot α VB} (h : b.Faded t r r') (h' : b.Faded t r' r'') :
    b.Faded t r r'' := by
  refine ⟨h'.1, fun p => ?_⟩
  rcases h'.2 p with hsame | ⟨hnone, e, he, hx⟩
  · rw [hsame]
    exact h.2 p
  · rcases h.2 p with hsame | ⟨hgone, -⟩
    · rw [← hsame]
      exact .inr ⟨hnone, e, he, hx⟩
    · rw [hgone] at he
      cases he

/-- What a read leaves, at the time its clock shows. -/
def Fades (b : MemoryKvBackend K V α VB) (r r' : MemoryRoot α VB) : Prop := b.Faded r.clock r r'

instance : Std.Refl b.Fades := ⟨fun _ => ⟨rfl, fun _ => .inl rfl⟩⟩

instance : IsTrans _ b.Fades := ⟨fun r r' r'' h h' => by
  unfold Fades at h h' ⊢
  rw [h.1] at h'
  exact h.trans h'⟩

theorem liveEntry_fades (k : K) : Moves b.Fades (b.liveEntry k) := by
  intro r
  rcases b.liveEntry_state k r with hsame | ⟨p, e, -, he, hx, hpop⟩
  · rw [hsame]
    exact Std.Refl.refl r
  · rw [hpop]
    refine ⟨rfl, fun q => ?_⟩
    unfold entryAt at he ⊢
    rw [MemoryRoot.get?_pop]
    by_cases hq : q = p
    · rw [if_pos hq, hq]
      exact .inr ⟨rfl, e, he, hx⟩
    · rw [if_neg hq]
      exact .inl rfl

theorem reads_fade [DecidableEq K] : b.store.Reads (Moves b.Fades) := by
  have hget : ∀ k, Moves b.Fades (b.get k) := by
    intro k r
    rw [b.get_state]
    exact liveEntry_fades k r
  have hexists : ∀ k, Moves b.Fades (b.existsKey k) := fun k => (liveEntry_fades k).map
  have hstat : ∀ k, Moves b.Fades (b.stat k) := fun k => (liveEntry_fades k).map
  refine ⟨hget, fun ks => Moves.foldlM (fun out k _ => (hget k).bind fun v => ?_) _, hexists,
    fun ks => Moves.foldlM (fun out k _ => (hexists k).bind fun v => ?_) _, hstat,
    fun ks => Moves.foldlM (fun out k _ => (hstat k).bind fun v => ?_) _⟩
  · cases v <;> exact Moves.pure _
  · cases v <;> exact Moves.pure _
  · cases v <;> exact Moves.pure _

theorem unwritten_faded [DecidableEq K] {now t : Instant} {r r' : MemoryRoot α VB}
    (h : Unwritten MemoryRoot.goTo b.store now r t r') : b.Faded t r r' := by
  induction h with
  | start => exact ⟨rfl, fun _ => .inl rfl⟩
  | wait _ hle ih => exact ih.later hle
  | @read t st α m _ hm ih =>
    have hread : b.Fades st (m st).2 := reads_fade.isRead hm st
    unfold Fades at hread
    rw [ih.1] at hread
    exact ih.trans hread

theorem Faded.live {t : Instant} {r r' : MemoryRoot α VB} (h : b.Faded t r r') (p : List α) :
    (b.entryAt r' p).filter (fun e => !expired e r'.clock) = (b.entryAt r p).filter fun e => !expired e t := by
  rw [h.1]
  rcases h.2 p with hsame | ⟨hnone, e, he, hx⟩
  · rw [hsame]
  · rw [hnone, he, Option.filter_some, hx]
    rfl

/-- An entry that can be read now lives as its stat tells. -/
theorem tells [DecidableEq K] {key : K} {now : Instant} {r : MemoryRoot α VB} {value : Option V} {p : List α}
    (hp : b.physicalKeyBlob key = .ok p) (h : (b.get key (r.goTo now)).1 = .ok value) :
    Tells MemoryRoot.goTo b.store key now r (lifeOf ((b.entryAt r p).map statOf)) := by
  have hlive : ∀ {t r'}, Unwritten MemoryRoot.goTo b.store now r t r' →
      (b.liveEntry key r').1 = .ok ((b.entryAt r p).filter fun e => !expired e t) := by
    intro t r' hrun
    rw [b.liveEntry_ok hp, (unwritten_faded hrun).live p]
  have hstat : ∀ {t r'}, Unwritten MemoryRoot.goTo b.store now r t r' →
      (b.store.stat key r').1 = .ok (((b.entryAt r p).filter fun e => !expired e t).map statOf) := by
    intro t r' hrun
    show ((Option.map statOf <$> b.liveEntry key) r').1 = _
    rw [map_apply, hlive hrun]
    rfl
  rw [b.get_eq, hlive .start] at h
  have hget : ∀ {t r'}, Unwritten MemoryRoot.goTo b.store now r t r' → (b.get key r').1 = _ := fun {t r'} hrun =>
    (b.get_eq key r').trans (by rw [hlive hrun])
  cases he : b.entryAt r p with
  | none =>
    rw [he] at hget hstat
    have hdead : ∀ t, (none : Option V).isSome ↔ Alive t (⊥ : Life Instant) := fun t =>
      iff_of_false Bool.false_ne_true (not_alive_bot t)
    exact ⟨fun hrun => ⟨none, hget hrun, hdead _⟩, fun hrun => ⟨none, hstat hrun, hdead _, fun h => by cases h⟩⟩
  | some e =>
    rw [he] at hget hstat h
    show Tells _ _ _ _ _ (ending e.expiresAt)
    constructor
    · intro t r' hrun
      have hvalue := hget hrun
      cases hx : expired e t with
      | true =>
        rw [Option.filter_some, hx] at hvalue
        exact ⟨none, hvalue, iff_of_false Bool.false_ne_true (expired_eq_true.mp hx)⟩
      | false =>
        have halive : Alive t (ending e.expiresAt) := expired_eq_false.mp hx
        have hnow : expired e now = false := expired_eq_false.mpr (halive.earlier hrun.later)
        rw [Option.filter_some, hnow] at h
        rw [Option.filter_some, hx] at hvalue
        cases hread : b.kvset.valueSerde.deserialize e.valueBlob with
        | none =>
          simp [Except.bind, hread] at h
        | some v =>
          refine ⟨some v, hvalue.trans ?_, iff_of_true rfl halive⟩
          simp [Except.bind, hread]
    · intro t r' hrun
      have htold := hstat hrun
      cases hx : expired e t with
      | true =>
        rw [Option.filter_some, hx] at htold
        exact ⟨none, htold, iff_of_false Bool.false_ne_true (expired_eq_true.mp hx), fun h => by cases h⟩
      | false =>
        rw [Option.filter_some, hx] at htold
        exact ⟨some (statOf e), htold, iff_of_true rfl (expired_eq_false.mp hx), fun _ => rfl⟩

end MemoryKvBackend

/-! ## What a merged stat tells -/

section Merged

variable {n : Nat}

theorem zip_ofFn {α β : Type} (f : Fin n → α) (g : Fin n → β) :
    (List.ofFn f).zip (List.ofFn g) = List.ofFn fun i => (f i, g i) := by
  apply List.ext_getElem
  · simp
  · intro i hi hi'
    simp

theorem rowPresent_ofFn (present mandatory : Fin n → Bool) :
    rowPresent (List.ofFn present) (List.ofFn mandatory) = true ↔
      (∃ i, present i = true) ∧ ∀ i, mandatory i = true → present i = true := by
  unfold rowPresent
  rw [Bool.and_eq_true, List.any_eq_true, List.all_eq_true, zip_ofFn]
  refine and_congr ⟨?_, ?_⟩ ⟨?_, ?_⟩
  · rintro ⟨x, hx, htrue⟩
    obtain ⟨i, rfl⟩ := List.mem_ofFn.mp hx
    exact ⟨i, htrue⟩
  · rintro ⟨i, hi⟩
    exact ⟨_, List.mem_ofFn.mpr ⟨i, rfl⟩, hi⟩
  · intro h i hi
    have hrow := h (present i, mandatory i) (List.mem_ofFn.mpr ⟨i, rfl⟩)
    simpa [hi] using hrow
  · intro h x hx
    obtain ⟨i, rfl⟩ := List.mem_ofFn.mp hx
    cases hi : mandatory i with
    | true => simp [h i hi]
    | false => simp

theorem forall₂_finRange {α : Type} {p : Fin n → α → Prop} {l : List α} (h : List.Forall₂ p (List.finRange n) l) :
    ∃ f : Fin n → α, l = List.ofFn f ∧ ∀ i, p i (f i) := by
  obtain ⟨hlist, hget⟩ := List.forall₂_iff_get.mp h
  have hlength : n = l.length := (List.length_finRange (n := n)).symm.trans hlist
  refine ⟨fun i => l.get ⟨i, hlength ▸ i.isLt⟩, ?_, fun i => ?_⟩
  · apply List.ext_getElem
    · rw [List.length_ofFn, ← hlength]
    · intro i hi hi'
      simp
  · have hi := hget i.val (by rw [List.length_finRange]; exact i.isLt) (hlength ▸ i.isLt)
    simpa using hi

/-- Whether a row of parts with these lives is there: every part it needs is, and some part. -/
def RowAlive (needed : Fin n → Prop) (life : Fin n → Life Instant) (t : Instant) : Prop :=
  (∃ i, Alive t (life i)) ∧ ∀ i, needed i → Alive t (life i)

theorem alive_lifeOf {t : Instant} {stat : Option RecordStat} :
    Alive t (lifeOf stat) ↔ ∃ m, stat = some m ∧ ∀ d, m.expiresAt = some d → t < d := by
  cases stat with
  | none => exact iff_of_false (not_alive_bot t) (by rintro ⟨m, hm, -⟩; cases hm)
  | some m =>
    refine (@alive_ending _ _ t m.expiresAt).trans ⟨fun h => ⟨m, rfl, h⟩, ?_⟩
    rintro ⟨m', hm, h⟩
    obtain rfl := Option.some.inj hm
    exact h

/-- Of mandatory parts, the first to die. -/
theorem alive_earliest {stats : Fin n → Option RecordStat} {mandatory : Fin n → Bool}
    (hall : ∀ i, mandatory i = true → (stats i).isSome) (t : Instant) :
    Alive t (ending (earliest (((List.ofFn stats).zip (List.ofFn mandatory)).filterMap fun p =>
      if p.2 then p.1.bind fun s => s.expiresAt else none))) ↔
      ∀ i, mandatory i = true → Alive t (lifeOf (stats i)) := by
  unfold earliest
  rw [alive_min, zip_ofFn]
  constructor
  · intro h i hi
    obtain ⟨m, hm⟩ := Option.isSome_iff_exists.mp (hall i hi)
    rw [alive_lifeOf]
    refine ⟨m, hm, fun d hd => h d (List.mem_filterMap.mpr ⟨_, List.mem_ofFn.mpr ⟨i, rfl⟩, ?_⟩)⟩
    rw [if_pos hi, hm]
    exact hd
  · intro h d hd
    obtain ⟨x, hx, hexpires⟩ := List.mem_filterMap.mp hd
    obtain ⟨i, rfl⟩ := List.mem_ofFn.mp hx
    cases hi : mandatory i with
    | false =>
      rw [hi] at hexpires
      cases hexpires
    | true =>
      rw [hi] at hexpires
      obtain ⟨m, hm, hlives⟩ := alive_lifeOf.mp (h i hi)
      rw [hm] at hexpires
      exact hlives d hexpires

/-- Of parts that all expire, the last to die. -/
theorem alive_latest {stats : Fin n → Option RecordStat} (hsome : ∃ i, (stats i).isSome)
    (hends : ∀ i m, stats i = some m → m.expiresAt ≠ none) (t : Instant) :
    Alive t (ending (latest (((List.ofFn stats).filterMap id).filterMap fun s => s.expiresAt))) ↔
      ∃ i, Alive t (lifeOf (stats i)) := by
  have hmem : ∀ d, d ∈ ((List.ofFn stats).filterMap id).filterMap (fun s => s.expiresAt) ↔
      ∃ i m, stats i = some m ∧ m.expiresAt = some d := by
    intro d
    rw [List.mem_filterMap]
    constructor
    · rintro ⟨m, hm, hd⟩
      obtain ⟨x, hx, rfl⟩ := List.mem_filterMap.mp hm
      obtain ⟨i, hi⟩ := List.mem_ofFn.mp hx
      exact ⟨i, m, hi, hd⟩
    · rintro ⟨i, m, hm, hd⟩
      exact ⟨m, List.mem_filterMap.mpr ⟨_, List.mem_ofFn.mpr ⟨i, rfl⟩, hm⟩, hd⟩
  have hexpiry : ∀ i m, stats i = some m → ∃ d, m.expiresAt = some d := fun i m hm =>
    Option.ne_none_iff_exists'.mp (hends i m hm)
  obtain ⟨i, hi⟩ := hsome
  obtain ⟨m, hm⟩ := Option.isSome_iff_exists.mp hi
  obtain ⟨d, hd⟩ := hexpiry i m hm
  unfold latest
  rw [alive_max (List.ne_nil_of_mem ((hmem d).mpr ⟨i, m, hm, hd⟩))]
  constructor
  · rintro ⟨d, hd, hlt⟩
    obtain ⟨i, m, hm, hexpires⟩ := (hmem d).mp hd
    refine ⟨i, alive_lifeOf.mpr ⟨m, hm, fun d' hd' => ?_⟩⟩
    rw [hexpires] at hd'
    rwa [← Option.some.inj hd']
  · rintro ⟨i, hi⟩
    obtain ⟨m, hm, hlives⟩ := alive_lifeOf.mp hi
    obtain ⟨d, hd⟩ := hexpiry i m hm
    exact ⟨d, (hmem d).mpr ⟨i, m, hm, hd⟩, hlives d hd⟩

/-- A merged stat tells of the row that needs its mandatory parts. -/
theorem alive_mergePartStats {stats : Fin n → Option RecordStat} {mandatory : Fin n → Bool}
    (createdAtMerge : Option (List (Option Instant) → Option Instant)) (hsome : ∃ i, (stats i).isSome)
    (hall : ∀ i, mandatory i = true → (stats i).isSome) (t : Instant) :
    Alive t (lifeOf (some (mergePartStats (List.ofFn stats) (List.ofFn mandatory) createdAtMerge))) ↔
      RowAlive (fun i => mandatory i = true) (fun i => lifeOf (stats i)) t := by
  show Alive t (ending (if (List.ofFn mandatory).any id then _ else if _ then none else _)) ↔ _
  unfold RowAlive
  by_cases hmandatory : (List.ofFn mandatory).any id = true
  · obtain ⟨x, hx, htrue⟩ := List.any_eq_true.mp hmandatory
    obtain ⟨i, rfl⟩ := List.mem_ofFn.mp hx
    rw [if_pos hmandatory, alive_earliest hall]
    exact ⟨fun h => ⟨⟨i, h i htrue⟩, h⟩, fun h => h.2⟩
  · have hnone : ∀ i, mandatory i ≠ true := fun i hi =>
      hmandatory (List.any_eq_true.mpr ⟨_, List.mem_ofFn.mpr ⟨i, rfl⟩, hi⟩)
    rw [if_neg hmandatory]
    refine Iff.trans ?_ (and_iff_left fun i hi => absurd hi (hnone i)).symm
    by_cases hforever : ((List.ofFn stats).filterMap id).any (fun s => s.expiresAt.isNone) = true
    · obtain ⟨m, hm, hnever⟩ := List.any_eq_true.mp hforever
      obtain ⟨x, hx, rfl⟩ := List.mem_filterMap.mp hm
      obtain ⟨i, hi⟩ := List.mem_ofFn.mp hx
      rw [if_pos hforever]
      refine iff_of_true (alive_ending.mpr fun d hd => by cases hd) ⟨i, alive_lifeOf.mpr ⟨m, hi, fun d hd => ?_⟩⟩
      rw [Option.isNone_iff_eq_none.mp hnever] at hd
      cases hd
    · rw [if_neg hforever]
      refine alive_latest hsome (fun i m hm hnever => hforever (List.any_eq_true.mpr ⟨m, ?_, ?_⟩)) t
      · exact List.mem_filterMap.mpr ⟨_, List.mem_ofFn.mpr ⟨i, rfl⟩, hm⟩
      · rw [hnever]
        rfl

end Merged

/-! ## Reading a zip -/

section Zipped

variable {K V : Type} [DecidableEq K] {n : Nat} {C : Fin n → Type} {I : Fin 0 → Type} {part : Fin n → Type}
  [∀ i, DecidableEq (part i)] (stores : ∀ i, KvStore (C i) K (part i)) (declared : Fin n → Declared)
  (field : ∀ i, V → Option (part i)) (mandatory : Fin n → Bool) (ctor : (∀ i, Option (part i)) → V)
  (index : ∀ j, Index (I j) K V)

/-- How a part's value is seen among the others. -/
def partOf (i : Fin n) (value : part i) : Σ i, part i := ⟨i, value⟩

/-- The record of a zip, out of what its parts hold. -/
def rowOf (held : Parts V (Σ i, part i)) : Option V :=
  if rowPresent (List.ofFn fun i => (Composition.partValue held i).isSome) (List.ofFn mandatory) then
    some (ctor fun i => Composition.partValue held i)
  else none

/-- The topology of a zip over its parts' stores. -/
abbrev zipTopology : Topology (Media C I) K V (Σ i, part i) :=
  mediaTopology stores declared (fun i => .piece (field i) (partOf i)) index none (some (rowOf mandatory ctor))

/-- The target a part is. -/
abbrev partTarget (i : Fin n) : AnyTarget (Media C I) K V (Σ i, part i) :=
  mediaTarget stores declared (fun i => .piece (field i) (partOf i)) index none (some i)

theorem zip_all : (zipTopology stores declared field mandatory ctor index).all =
    (List.finRange n).map (partTarget stores declared field index) := by
  rw [all_eq]
  show ((((List.finRange n).filter fun _ => false).map some ++ [] ++
    ((List.finRange n).filter fun _ => true).map some).map _ : List (AnyTarget (Media C I) K V (Σ i, part i))) = _
  rw [List.filter_false, List.filter_true, List.map_nil, List.nil_append, List.nil_append, List.map_map]
  rfl

theorem zipIdx_map_finRange {α : Type} (f : Fin n → α) :
    ((List.finRange n).map f).zipIdx = (List.finRange n).map fun i => (f i, i.val) := by
  apply List.ext_getElem
  · simp
  · intro i hi hi'
    simp


theorem zip_targets : (zipTopology stores declared field mandatory ctor index).targets = [] := by
  show ((List.finRange n).filterMap fun _ => none) ++ [] = _
  rw [List.append_nil, List.filterMap_eq_nil_iff]
  exact fun _ _ => rfl

theorem zip_anchored : (zipTopology stores declared field mandatory ctor index).anchored =
    ((List.finRange n).find? fun i => (declared i).role = .authority).map fun i =>
      (partTarget stores declared field index i, i.val) := by
  unfold Topology.anchored
  rw [zip_all, zipIdx_map_finRange, List.find?_map]
  congr 1

theorem zip_unanchoredParts : (zipTopology stores declared field mandatory ctor index).unanchoredParts =
    ((List.finRange n).filter fun i => (declared i).role ≠ .authority).map fun i =>
      (partTarget stores declared field index i, i.val) := by
  unfold Topology.unanchoredParts
  rw [zip_targets, zip_all, zipIdx_map_finRange, List.length_nil, List.drop_zero, List.filter_map]
  congr 1

theorem zip_parts : (zipTopology stores declared field mandatory ctor index).parts =
    (List.finRange n).map fun i => storeTarget (declared i)
      ((stores i).zoom (Media.child i : Lens (Media C I) (C i))) (field i) (partOf i) :=
  congrFun List.filterMap_eq_map _

/-- A zip that is accepted has one part at most that decides existence. -/
theorem one_authority (h : (zipTopology stores declared field mandatory ctor index).Accepted) (i j : Fin n)
    (hi : (declared i).role = .authority) (hj : (declared j).role = .authority) : i = j := by
  have hlength := h.oneAuthority
  rw [zip_all, List.filter_map, List.length_map] at hlength
  have hmem : ∀ i, (declared i).role = .authority → i ∈ (List.finRange n).filter
      ((fun t : AnyTarget (Media C I) K V (Σ i, part i) => decide (t.role = .authority)) ∘
        partTarget stores declared field index) := by
    intro i hi
    exact List.mem_filter.mpr ⟨List.mem_finRange i, decide_eq_true hi⟩
  rcases hlist : (List.finRange n).filter
      ((fun t : AnyTarget (Media C I) K V (Σ i, part i) => decide (t.role = .authority)) ∘
        partTarget stores declared field index) with _ | ⟨a, _ | ⟨b, rest⟩⟩
  · have hnone := hmem i hi
    rw [hlist] at hnone
    cases hnone
  · have hi' := hmem i hi
    have hj' := hmem j hj
    rw [hlist, List.mem_singleton] at hi' hj'
    exact hi'.trans hj'.symm
  · rw [hlist, List.length_cons, List.length_cons] at hlength
    omega

theorem partTarget_read (i : Fin n) (key : K) : (partTarget stores declared field index i).read key =
    (Option.map fun value => Sum.inr (partOf i value)) <$> (Media.child i : Lens (Media C I) (C i)).zoom
      ((stores i).get key) := by
  rw [partTarget, mediaTarget_child]
  show (Media.child i : Lens (Media C I) (C i)).zoom
    (Option.map Sum.inr <$> Option.map (partOf i) <$> (stores i).get key) = _
  rw [Lens.zoom_map, Lens.zoom_map]
  funext s
  rw [map_apply, map_apply, map_apply]
  rcases (Media.child i : Lens (Media C I) (C i)).zoom ((stores i).get key) s with ⟨e | _ | v, s'⟩
  · rfl
  · rfl
  · rfl

variable {goTo : ∀ i, Instant → C i → C i} {now t : Instant} {start : Media C I} {life : Fin n → Life Instant}
  {key : K}

/-- Nothing was written to any part. -/
def PartsUnwritten (stores : ∀ i, KvStore (C i) K (part i)) (goTo : ∀ i, Instant → C i → C i) (now : Instant)
    (start : Media C I) (t : Instant) (s : Media C I) : Prop :=
  ∀ i, Unwritten (goTo i) (stores i) now (start.1 i) t (s.1 i)

variable {stores}

omit [∀ i, DecidableEq (part i)] [DecidableEq K] in
theorem partsUnwritten_zoom {i : Fin n} {α : Type} {m : M (C i) α} (hm : (stores i).IsRead m) {s : Media C I}
    (hs : PartsUnwritten stores goTo now start t s) :
    PartsUnwritten stores goTo now start t ((Media.child i : Lens (Media C I) (C i)).zoom m s).2 := by
  intro j
  show Unwritten _ _ _ _ _ (Function.update s.1 i (m (s.1 i)).2 j)
  by_cases hj : j = i
  · subst hj
    rw [Function.update_self]
    exact (hs j).read hm
  · rw [Function.update_of_ne hj]
    exact hs j

/-- A part's value under the key, as it is found at an instant. -/
def HeldAt (t : Instant) (life : Fin n → Life Instant) (i : Fin n) (o : Option (V ⊕ Σ i, part i)) : Prop :=
  ∃ value : Option (part i), o = value.map (fun v => Sum.inr (partOf i v)) ∧ (value.isSome ↔ Alive t (life i))

omit [∀ i, DecidableEq (part i)] in
theorem lookup_held {is : List (Fin n)} {held : Parts V (Σ i, part i)}
    (h : List.Forall₂ (fun i r => r.1 = i.val ∧ HeldAt t life i r.2) is held) {i : Fin n} (hi : i ∈ is) :
    ∃ o, Assoc.lookup i.val held = some o ∧ HeldAt t life i o := by
  induction h with
  | nil => cases hi
  | @cons j r is held hj hrest ih =>
    obtain ⟨place, o⟩ := r
    obtain ⟨rfl, ho⟩ := hj
    show ∃ o', (if j.val = i.val then some o else Assoc.lookup i.val held) = some o' ∧ _
    by_cases hij : j = i
    · subst hij
      rw [if_pos rfl]
      exact ⟨o, rfl, ho⟩
    · rw [if_neg fun h => hij (Fin.ext h)]
      exact ih ((List.mem_cons.mp hi).resolve_left (Ne.symm hij))

omit [∀ i, DecidableEq (part i)] in
theorem partValue_held {held : Parts V (Σ i, part i)} {i : Fin n} {o : Option (V ⊕ Σ i, part i)}
    (hlookup : Assoc.lookup i.val held = some o) (h : HeldAt t life i o) :
    (Composition.partValue held i).isSome ↔ Alive t (life i) := by
  obtain ⟨value, rfl, halive⟩ := h
  unfold Composition.partValue Parts.held
  rw [hlookup]
  cases value with
  | none => exact halive
  | some v =>
    show (if h : i = i then some (h ▸ v) else none).isSome ↔ _
    rw [dif_pos rfl]
    exact halive

omit [∀ i, DecidableEq (part i)] in
/-- The row is there where the parts it needs are. -/
theorem rowOf_isSome {held : Parts V (Σ i, part i)}
    (h : ∀ i, ∃ o, Assoc.lookup i.val held = some o ∧ HeldAt t life i o) :
    (rowOf mandatory ctor held).isSome ↔ RowAlive (fun i => mandatory i = true) life t := by
  have hparts : ∀ i, (Composition.partValue held i).isSome = true ↔ Alive t (life i) := by
    intro i
    obtain ⟨o, hlookup, ho⟩ := h i
    exact partValue_held hlookup ho
  have hrow := rowPresent_ofFn (fun i => (Composition.partValue held i).isSome) mandatory
  simp only [hparts] at hrow
  unfold rowOf RowAlive
  rw [← hrow]
  split
  · next hpresent => exact iff_of_true rfl hpresent
  · next habsent => exact iff_of_false Bool.false_ne_true habsent

variable (htells : ∀ i, Tells (goTo i) (stores i) key now (start.1 i) (life i))

include htells

theorem partTarget_returns (i : Fin n) :
    Returns (PartsUnwritten stores goTo now start t) ((partTarget stores declared field index i).read key)
      (HeldAt t life i) := by
  rw [partTarget_read]
  refine Returns.map (p := fun value => value.isSome ↔ Alive t (life i)) ?_ fun value h => ⟨value, rfl, h⟩
  intro s hs
  obtain ⟨value, hvalue, halive⟩ := (htells i).get (hs i)
  exact ⟨partsUnwritten_zoom (.get key) hs, value, hvalue, halive⟩

theorem readParts_returns :
    Returns (PartsUnwritten stores goTo now start t)
      ((zipTopology stores declared field mandatory ctor index).readParts key)
      (List.Forall₂ (fun i r => r.1 = i.val ∧ HeldAt t life i r.2)
        ((List.finRange n).filter fun i => (declared i).role ≠ .authority)) := by
  unfold Topology.readParts
  rw [zip_unanchoredParts, List.mapM_map]
  refine Returns.mapM fun i _ => ?_
  exact (partTarget_returns declared field index htells i).bind fun o ho => Returns.pure ⟨rfl, ho⟩

/-- A zip's record is there where every mandatory part is, and the part that decides existence. -/
theorem assembleOne_returns (hone : ∀ i j, (declared i).role = .authority → (declared j).role = .authority → i = j) :
    Returns (PartsUnwritten stores goTo now start t)
      ((zipTopology stores declared field mandatory ctor index).assembleOne key)
      (fun record => record.isSome ↔
        RowAlive (fun i => mandatory i = true ∨ (declared i).role = .authority) life t) := by
  unfold Topology.assembleOne
  refine Returns.bind (p := fun assemble => assemble = rowOf mandatory ctor) (fun s hs => ⟨hs, _, rfl, rfl⟩) ?_
  rintro _ rfl
  rw [zip_anchored]
  cases hanchor : (List.finRange n).find? fun i => (declared i).role = .authority with
  | none =>
    rw [List.find?_eq_none] at hanchor
    have hno : ∀ i, (declared i).role ≠ .authority := fun i hi =>
      hanchor i (List.mem_finRange i) (decide_eq_true hi)
    refine (readParts_returns declared field mandatory ctor index htells).bind fun held hheld => Returns.pure ?_
    rw [rowOf_isSome mandatory ctor fun i => lookup_held hheld
      (List.mem_filter.mpr ⟨List.mem_finRange i, decide_eq_true (hno i)⟩)]
    exact and_congr_right fun _ => forall_congr' fun i => imp_congr_left (or_iff_left (hno i)).symm
  | some a =>
    have hdecided := List.find?_some hanchor
    have ha : (declared a).role = .authority := of_decide_eq_true hdecided
    refine (partTarget_returns declared field index htells a).bind fun o ho => ?_
    obtain ⟨_ | v, rfl, halive⟩ := ho
    · refine Returns.pure (iff_of_false Bool.false_ne_true fun hrow => ?_)
      exact Bool.false_ne_true (halive.mpr (hrow.2 a (.inr ha)))
    · have hanchored : Alive t (life a) := halive.mp rfl
      refine (readParts_returns declared field mandatory ctor index htells).bind fun held hheld => Returns.pure ?_
      have hplaces : ∀ i, ∃ o, Assoc.lookup i.val ((a.val, some (Sum.inr (partOf a v))) :: held) = some o ∧
          HeldAt t life i o := by
        intro i
        show ∃ o, (if a.val = i.val then some _ else Assoc.lookup i.val held) = some o ∧ _
        by_cases hai : a = i
        · subst hai
          rw [if_pos rfl]
          exact ⟨_, rfl, some v, rfl, halive⟩
        · rw [if_neg fun h => hai (Fin.ext h)]
          refine lookup_held hheld (List.mem_filter.mpr ⟨List.mem_finRange i, decide_eq_true fun hi => ?_⟩)
          exact hai (hone a i ha hi)
      refine (rowOf_isSome mandatory ctor hplaces).trans ?_
      refine and_congr_right fun _ => ⟨fun h i hi => ?_, fun h i hi => h i (.inl hi)⟩
      rcases hi with hi | hi
      · exact h i hi
      · rw [hone i a hi ha]
        exact hanchored

/-- A zip's record at an instant. -/
theorem zipRead_returns (h : (zipTopology stores declared field mandatory ctor index).Accepted) :
    Returns (PartsUnwritten stores goTo now start t)
      ((zipTopology stores declared field mandatory ctor index).read key)
      (fun record => record.isSome ↔
        RowAlive (fun i => mandatory i = true ∨ (declared i).role = .authority) life t) := by
  have hassembled : (zipTopology stores declared field mandatory ctor index).assembled = true := h.together
  unfold Topology.read
  rw [if_pos hassembled]
  exact assembleOne_returns declared field mandatory ctor index htells
    (one_authority stores declared field mandatory ctor index h)

/-- What the stat of a zip's record tells: the life of a row that needs the mandatory parts. -/
theorem zipStat_returns (createdAtMerge : Option (List (Option Instant) → Option Instant))
    (h : (zipTopology stores declared field mandatory ctor index).Accepted) :
    Returns (PartsUnwritten stores goTo now start t)
      ((⟨List.ofFn mandatory, createdAtMerge⟩ : Zip).stat (zipTopology stores declared field mandatory ctor index) key)
      (fun told => (told.isSome ↔
          RowAlive (fun i => mandatory i = true ∨ (declared i).role = .authority) life t) ∧
        ∀ m, told = some m → ∀ u, t ≤ u →
          (Alive u (ending m.expiresAt) ↔ RowAlive (fun i => mandatory i = true) life u)) := by
  unfold Zip.stat
  refine (zipRead_returns declared field mandatory ctor index htells h).bind fun record hrecord => ?_
  cases record with
  | none => exact Returns.pure ⟨hrecord, fun m hm => by cases hm⟩
  | some v =>
    have halive := hrecord.mp rfl
    have hstats : Returns (PartsUnwritten stores goTo now start t)
        ((zipTopology stores declared field mandatory ctor index).parts.mapM fun t => t.stat key)
        (List.Forall₂ (fun i told => (told.isSome ↔ Alive t (life i)) ∧ (told.isSome → lifeOf told = life i))
          (List.finRange n)) := by
      rw [zip_parts, List.mapM_map]
      refine Returns.mapM fun i _ s hs => ?_
      obtain ⟨told, htold, hlives⟩ := (htells i).stat (hs i)
      exact ⟨partsUnwritten_zoom (.stat key) hs, told, htold, hlives⟩
    refine hstats.map fun told htold => ?_
    obtain ⟨stats, rfl, hlives⟩ := forall₂_finRange htold
    have hsome : ∃ i, (stats i).isSome := by
      obtain ⟨i, hi⟩ := halive.1
      exact ⟨i, (hlives i).1.mpr hi⟩
    have hall : ∀ i, mandatory i = true → (stats i).isSome := fun i hi =>
      (hlives i).1.mpr (halive.2 i (.inl hi))
    have hnot : (List.ofFn stats).all (fun m => m.isNone) = false := by
      obtain ⟨i, hi⟩ := hsome
      rw [List.all_eq_false]
      refine ⟨stats i, List.mem_ofFn.mpr ⟨i, rfl⟩, ?_⟩
      rw [Option.isNone_iff_eq_none]
      intro hnone
      rw [hnone] at hi
      cases hi
    have hlater : ∀ u, t ≤ u → ∀ i, (Alive u (lifeOf (stats i)) ↔ Alive u (life i)) := by
      intro u hu i
      by_cases hi : (stats i).isSome
      · rw [(hlives i).2 hi]
      · rw [Option.not_isSome_iff_eq_none.mp hi]
        exact iff_of_false (not_alive_bot u) fun h => hi ((hlives i).1.mpr (h.earlier hu))
    rw [hnot, if_neg Bool.false_ne_true]
    refine ⟨iff_of_true rfl halive, fun m hm u hu => ?_⟩
    obtain rfl := Option.some.inj hm
    refine (alive_mergePartStats createdAtMerge hsome hall u).trans ?_
    unfold RowAlive
    simp only [hlater u hu]

/-! ## A zip, as nothing is written to it -/

/-- The state of a zip as it stands at an instant. -/
def nodeGoTo (goTo : ∀ i, Instant → C i → C i) (t : Instant) (s : Node (Media C I) K V (Σ i, part i)) :
    Node (Media C I) K V (Σ i, part i) :=
  { s with media := (fun i => goTo i t (s.media.1 i), s.media.2) }

/-- The store of a zip over its parts' stores. -/
abbrev zipStore (stores : ∀ i, KvStore (C i) K (part i)) (declared : Fin n → Declared)
    (field : ∀ i, V → Option (part i)) (mandatory : Fin n → Bool) (ctor : (∀ i, Option (part i)) → V)
    (index : ∀ j, Index (I j) K V) (createdAtMerge : Option (List (Option Instant) → Option Instant))
    (typeName : String) : KvStore (Node (Media C I) K V (Σ i, part i)) K V :=
  (⟨List.ofFn mandatory, createdAtMerge⟩ : Zip).store (zipTopology stores declared field mandatory ctor index) typeName

/-- Where nothing was written to any part before, nothing was after. -/
def PartsKept (stores : ∀ i, KvStore (C i) K (part i)) (goTo : ∀ i, Instant → C i → C i) (now : Instant)
    (start s s' : Media C I) : Prop :=
  ∀ t, PartsUnwritten stores goTo now start t s → PartsUnwritten stores goTo now start t s'

instance : Std.Refl (PartsKept stores goTo now start) := ⟨fun _ _ h => h⟩

instance : IsTrans _ (PartsKept stores goTo now start) := ⟨fun _ _ _ h h' t hs => h' t (h t hs)⟩

omit htells in
theorem zipStore_keeps (createdAtMerge : Option (List (Option Instant) → Option Instant)) (typeName : String) :
    (zipStore stores declared field mandatory ctor index createdAtMerge typeName).Reads
      (Moves fun s s' => PartsKept stores goTo now start s.media s'.media) := by
  have hchild : ∀ i, ((stores i).zoom (Media.child i : Lens (Media C I) (C i))).Reads
      (Moves (PartsKept stores goTo now start)) := by
    intro i
    refine KvStore.Reads.zoom _ (fun {α} {m} hm s t hs => ?_) (KvStore.isRead_reads fun {α} {m} hm => hm)
    exact partsUnwritten_zoom hm hs
  have hclosed : @Closed Exn (Media C I) (Moves (PartsKept stores goTo now start)) := moves_closed _
  have hreaders : Readers (zipTopology stores declared field mandatory ctor index)
      (Moves (PartsKept stores goTo now start)) := by
    refine mediaTopology_readers hclosed hchild fun t ht => ?_
    rw [zip_targets] at ht
    cases ht
  refine zipStore_reads hreaders (fun {α} {m} hm s => ?_) (mediaTopology_parts hclosed hchild) _ typeName
  exact hm s.media

omit htells in
/-- As long as nothing is written to a zip, nothing is to its parts. -/
theorem partsUnwritten {createdAtMerge : Option (List (Option Instant) → Option Instant)} {typeName : String}
    {st s : Node (Media C I) K V (Σ i, part i)}
    (h : Unwritten (nodeGoTo goTo) (zipStore stores declared field mandatory ctor index createdAtMerge typeName)
      now st t s) : PartsUnwritten stores goTo now st.media t s.media := by
  induction h with
  | start => exact fun i => .start
  | wait _ hle ih => exact fun i => (ih i).wait hle
  | @read t s α m _ hm ih =>
    exact (zipStore_keeps declared field mandatory ctor index createdAtMerge typeName).isRead hm s t ih

end Zipped

/-! ## When the stat tells the record's life -/

/-- As long as nothing is written, the record is there until the stat's end, and not from then on. -/
def TellsLife {σ K V : Type} (goTo : Instant → σ → σ) (s : KvStore σ K V) (key : K) (now : Instant) (start : σ)
    (told : RecordStat) : Prop :=
  ∀ t st, Unwritten goTo s now start t st →
    ∃ value, (s.get key st).1 = .ok value ∧ (value.isSome ↔ ∀ d, told.expiresAt = some d → t < d)

/-- By the time the part that decides existence dies, the record is no longer there without it: it is
    mandatory itself, or some mandatory part has died, or none is mandatory and all have. -/
def DiesWithCommit {n : Nat} (decides mandatory : Fin n → Prop) (life : Fin n → Life Instant) : Prop :=
  ∀ c, decides c → mandatory c ∨ (∃ i, mandatory i ∧ life i ≤ life c) ∨
    (∀ i, ¬ mandatory i) ∧ ∀ i, life i ≤ life c

theorem rowAlive_iff {n : Nat} {decides mandatory : Fin n → Prop} {life : Fin n → Life Instant} {now : Instant}
    (hnow : RowAlive (fun i => mandatory i ∨ decides i) life now) :
    (∀ t, now ≤ t → (RowAlive (fun i => mandatory i ∨ decides i) life t ↔ RowAlive mandatory life t)) ↔
      DiesWithCommit decides mandatory life := by
  have hboth : ∀ t, (RowAlive (fun i => mandatory i ∨ decides i) life t ↔ RowAlive mandatory life t) ↔
      ∀ c, decides c → RowAlive mandatory life t → Alive t (life c) := by
    intro t
    constructor
    · exact fun h c hc hrow => (h.mpr hrow).2 c (.inr hc)
    · refine fun h => ⟨fun hrow => ⟨hrow.1, fun i hi => hrow.2 i (.inl hi)⟩, fun hrow => ⟨hrow.1, fun i hi => ?_⟩⟩
      rcases hi with hi | hi
      · exact hrow.2 i hi
      · exact h i hi hrow
  have hcommit : ∀ c, decides c → ((∀ t, now ≤ t → RowAlive mandatory life t → Alive t (life c)) ↔
      mandatory c ∨ (∃ i, mandatory i ∧ life i ≤ life c) ∨ (∀ i, ¬ mandatory i) ∧ ∀ i, life i ≤ life c) := by
    intro c hc
    have halive : Alive now (life c) := hnow.2 c (.inr hc)
    by_cases hsome : ∃ i, mandatory i
    · have hfirst := @first_le_iff _ _ _ now mandatory life (life c) halive hsome
      obtain ⟨j, hj⟩ := hsome
      constructor
      · exact fun h => .inr (.inl (hfirst.mpr fun t ht hall => h t ht ⟨⟨j, hall j hj⟩, hall⟩))
      · rintro (hc' | hle | ⟨hnone, -⟩) t ht hrow
        · exact hrow.2 c hc'
        · exact hfirst.mp hle t ht hrow.2
        · exact absurd hj (hnone j)
    · have hnone : ∀ i, ¬ mandatory i := fun i hi => hsome ⟨i, hi⟩
      have hlast := @last_le_iff _ _ _ now life (life c) halive
      constructor
      · exact fun h => .inr (.inr ⟨hnone, hlast.mpr fun t ht hany => h t ht ⟨hany, fun i hi => absurd hi (hnone i)⟩⟩)
      · rintro (hc' | ⟨i, hi, -⟩ | ⟨-, hall⟩) t ht hrow
        · exact absurd hc' (hnone c)
        · exact absurd hi (hnone i)
        · exact hlast.mp hall t ht hrow.1
  unfold DiesWithCommit
  constructor
  · intro h c hc
    exact (hcommit c hc).mp fun t ht => (hboth t).mp (h t ht) c hc
  · intro h t ht
    exact (hboth t).mpr fun c hc => (hcommit c hc).mpr (h c hc) t ht

/-- Such a record lives as long as its mandatory parts do, whichever part commits it. -/
theorem DiesWithCommit.rowAlive {n : Nat} {decides : Fin n → Prop} {mandatory : Fin n → Bool}
    {life : Fin n → Life Instant} (h : DiesWithCommit decides (fun i => mandatory i = true) life) (t : Instant) :
    RowAlive (fun i => mandatory i = true ∨ decides i) life t ↔ Alive t (joinedLife mandatory life) := by
  rw [alive_joinedLife]
  refine ⟨fun hrow => ⟨hrow.1, fun i hi => hrow.2 i (.inl hi)⟩, fun hrow => ⟨hrow.1, fun i hi => ?_⟩⟩
  by_cases hmandatory : mandatory i = true
  · exact hrow.2 i hmandatory
  · rcases h i (hi.resolve_left hmandatory) with hi' | ⟨j, hj, hle⟩ | ⟨-, hall⟩
    · exact absurd hi' hmandatory
    · exact (hrow.2 j hj).of_le hle
    · obtain ⟨j, hj⟩ := hrow.1
      exact hj.of_le (hall j)

section Told

variable {K V : Type} [DecidableEq K] {n : Nat} {C : Fin n → Type} {I : Fin 0 → Type} {part : Fin n → Type}
  [∀ i, DecidableEq (part i)] {stores : ∀ i, KvStore (C i) K (part i)} {declared : Fin n → Declared}
  {field : ∀ i, V → Option (part i)} {mandatory : Fin n → Bool} {ctor : (∀ i, Option (part i)) → V}
  {index : ∀ j, Index (I j) K V} {goTo : ∀ i, Instant → C i → C i} {now : Instant}
  {start : Node (Media C I) K V (Σ i, part i)} {life : Fin n → Life Instant} {key : K}

section Held

variable (createdAtMerge : Option (List (Option Instant) → Option Instant)) (typeName : String)
  (htells : ∀ i, Tells (goTo i) (stores i) key now (start.media.1 i) (life i))
  (haccepted : (zipTopology stores declared field mandatory ctor index).Accepted)

include htells haccepted

theorem zipStore_get {t : Instant} {s : Node (Media C I) K V (Σ i, part i)} (hrun : Unwritten (nodeGoTo goTo)
    (zipStore stores declared field mandatory ctor index createdAtMerge typeName) now start t s) :
    ∃ record, ((zipStore stores declared field mandatory ctor index createdAtMerge typeName).get key s).1 =
      .ok record ∧ (record.isSome ↔
        RowAlive (fun i => mandatory i = true ∨ (declared i).role = .authority) life t) := by
  obtain ⟨-, record, hrecord, halive⟩ := zipRead_returns declared field mandatory ctor index htells haccepted s.media
    (partsUnwritten declared field mandatory ctor index hrun)
  exact ⟨record, hrecord, halive⟩

theorem zipStore_stat {t : Instant} {s : Node (Media C I) K V (Σ i, part i)} (hrun : Unwritten (nodeGoTo goTo)
    (zipStore stores declared field mandatory ctor index createdAtMerge typeName) now start t s) :
    ∃ told, ((zipStore stores declared field mandatory ctor index createdAtMerge typeName).stat key s).1 = .ok told ∧
      (told.isSome ↔ RowAlive (fun i => mandatory i = true ∨ (declared i).role = .authority) life t) ∧
      ∀ m, told = some m → ∀ u, t ≤ u →
        (Alive u (ending m.expiresAt) ↔ RowAlive (fun i => mandatory i = true) life u) := by
  obtain ⟨-, told, htold, hlives⟩ := zipStat_returns declared field mandatory ctor index htells createdAtMerge
    haccepted s.media (partsUnwritten declared field mandatory ctor index hrun)
  exact ⟨told, htold, hlives⟩

theorem zipStore_tells_iff {value : V}
    (hread : ((zipStore stores declared field mandatory ctor index createdAtMerge typeName).get key
      (nodeGoTo goTo now start)).1 = .ok (some value)) :
    ∃ told, ((zipStore stores declared field mandatory ctor index createdAtMerge typeName).stat key
        (nodeGoTo goTo now start)).1 = .ok (some told) ∧
      (TellsLife (nodeGoTo goTo) (zipStore stores declared field mandatory ctor index createdAtMerge typeName) key
        now start told ↔ DiesWithCommit (fun i => (declared i).role = .authority) (fun i => mandatory i = true) life) := by
  have hnow : RowAlive (fun i => mandatory i = true ∨ (declared i).role = .authority) life now := by
    obtain ⟨record, hrecord, halive⟩ := zipStore_get createdAtMerge typeName htells haccepted .start
    rw [hread] at hrecord
    obtain rfl := Except.ok.inj hrecord
    exact halive.mp rfl
  obtain ⟨told, htold, hsome, hlives⟩ := zipStore_stat createdAtMerge typeName htells haccepted .start
  obtain ⟨m, rfl⟩ := Option.isSome_iff_exists.mp (hsome.mpr hnow)
  refine ⟨m, htold, ?_⟩
  rw [← rowAlive_iff hnow]
  constructor
  · intro h t ht
    obtain ⟨record, hrecord, halive⟩ := zipStore_get createdAtMerge typeName htells haccepted (Unwritten.start.wait ht)
    obtain ⟨record', hrecord', halive'⟩ := h t _ (Unwritten.start.wait ht)
    rw [hrecord] at hrecord'
    obtain rfl := Except.ok.inj hrecord'
    rw [← halive, halive', ← alive_ending]
    exact hlives m rfl t ht
  · intro h t s hrun
    obtain ⟨record, hrecord, halive⟩ := zipStore_get createdAtMerge typeName htells haccepted hrun
    refine ⟨record, hrecord, ?_⟩
    rw [halive, h t hrun.later, ← alive_ending]
    exact (hlives m rfl t hrun.later).symm

/-- Such a zip is again a store whose stat tells its entry's life, and may be a part of another. -/
theorem zipStore_tells (hdies : DiesWithCommit (fun i => (declared i).role = .authority)
    (fun i => mandatory i = true) life) : Tells (nodeGoTo goTo)
      (zipStore stores declared field mandatory ctor index createdAtMerge typeName) key now start
      (joinedLife mandatory life) := by
  refine ⟨fun {t s} hrun => ?_, fun {t s} hrun => ?_⟩
  · obtain ⟨record, hrecord, halive⟩ := zipStore_get createdAtMerge typeName htells haccepted hrun
    exact ⟨record, hrecord, halive.trans (hdies.rowAlive t)⟩
  · obtain ⟨told, htold, halive, hlater⟩ := zipStore_stat createdAtMerge typeName htells haccepted hrun
    have hsome : told.isSome ↔ Alive t (joinedLife mandatory life) := halive.trans (hdies.rowAlive t)
    refine ⟨told, htold, hsome, fun h => ?_⟩
    obtain ⟨m, rfl⟩ := Option.isSome_iff_exists.mp h
    have hsame : ∀ u, t ≤ u → (Alive u (ending m.expiresAt) ↔ Alive u (joinedLife mandatory life)) :=
      fun u hu => (hlater m rfl u hu).trans alive_joinedLife.symm
    exact eq_of_alive ((hsame t (Int.le_refl _)).mpr (hsome.mp h)) (hsome.mp h) hsame

end Held

end Told

/-! ## Zips of stores -/

namespace Composition

instance {K V : Type} (p : ZipPart K V) : DecidableEq p.T := p.dec

variable {K V : Type} [DecidableEq K] {n : Nat}

/-- The state of a zip as it stands at an instant. -/
abbrev zipGoTo {parts : Fin n → ZipPart K V} {ctor : (∀ i, Option (parts i).T) → V}
    {createdAtMerge : Option (List (Option Instant) → Option Instant)}
    (goTo : ∀ i, Instant → (parts i).store.State → (parts i).store.State) (t : Instant)
    (s : (zipWith parts ctor createdAtMerge).State) : (zipWith parts ctor createdAtMerge).State := nodeGoTo goTo t s

/-- What a part of a zip's state is. -/
abbrev partState {parts : Fin n → ZipPart K V} {ctor : (∀ i, Option (parts i).T) → V}
    {createdAtMerge : Option (List (Option Instant) → Option Instant)}
    (s : (zipWith parts ctor createdAtMerge).State) (i : Fin n) : (parts i).store.State := (Node.media s).1 i

/-- Of parts whose stats tell their own entries' lives, a zip's stat tells the record's exactly where the
    record would not outlive its commit part without it. -/
theorem zipStat_tells_iff (parts : Fin n → ZipPart K V) (ctor : (∀ i, Option (parts i).T) → V)
    (createdAtMerge : Option (List (Option Instant) → Option Instant))
    (hbuilt : (zipWith parts ctor createdAtMerge).Constructed)
    {goTo : ∀ i, Instant → (parts i).store.State → (parts i).store.State} {key : K} {now : Instant}
    {start : (zipWith parts ctor createdAtMerge).State} {life : Fin n → Life Instant}
    (htells : ∀ i, Tells (goTo i) (parts i).store.store key now (partState start i) (life i)) {value : V}
    (hread : ((zipWith parts ctor createdAtMerge).store.get key (zipGoTo goTo now start)).1 = .ok (some value)) :
    ∃ told, ((zipWith parts ctor createdAtMerge).store.stat key (zipGoTo goTo now start)).1 = .ok (some told) ∧
      (TellsLife (zipGoTo goTo) (zipWith parts ctor createdAtMerge).store key now start told ↔
        DiesWithCommit (fun i => (parts i).role = .authority) (fun i => (parts i).mandatory = true) life) :=
  zipStore_tells_iff createdAtMerge "ZipWithKvStore" htells (Topology.accepted hbuilt.2.1) hread

/-! ### A commit part that is not mandatory -/

/-- A record of a head, which commits it, and a tail. -/
def headed (mandatory : Bool) : Fin 2 → ZipPart (List Char) (Option String × Option String)
  | 0 => ⟨"head", String, inferInstance, .leaf (memoryLeaf (MemoryKvBackend.plain String)), Prod.fst, .authority,
      mandatory⟩
  | 1 => ⟨"tail", String, inferInstance, .leaf (memoryLeaf (MemoryKvBackend.plain String)), Prod.snd, .component,
      false⟩

/-- The record as its parts hold it. -/
def pairOf (mandatory : Bool) : Composition (List Char) (Option String × Option String) :=
  zipWith (headed mandatory) (fun held => (held 0, held 1)) none

/-- The head ends at 5, and the tail does not end. -/
def briefHead (mandatory : Bool) : (pairOf mandatory).State :=
  ⟨(fun
    | 0 => (MemoryRoot.empty 0).put "items:v1" ['k'] "head" (some 5) 0
    | 1 => (MemoryRoot.empty 0).put "items:v1" ['k'] "tail" none 0,
    fun j => j.elim0), []⟩

def headedGoTo (mandatory : Bool) : ∀ i, Instant → (headed mandatory i).store.State → (headed mandatory i).store.State
  | 0 => MemoryRoot.goTo
  | 1 => MemoryRoot.goTo

theorem headed_tells (mandatory : Bool) (i : Fin 2) :
    Tells (headedGoTo mandatory i) (headed mandatory i).store.store ['k'] 0 (partState (briefHead mandatory) i)
      (ending (if i = 0 then some 5 else none)) :=
  match i with
  | 0 =>
    have hread : (((MemoryKvBackend.plain String).get ['k'] _).1 : Except Exn (Option String)) = .ok (some "head") := rfl
    MemoryKvBackend.tells (p := ['k']) rfl hread
  | 1 =>
    have hread : (((MemoryKvBackend.plain String).get ['k'] _).1 : Except Exn (Option String)) = .ok (some "tail") := rfl
    MemoryKvBackend.tells (p := ['k']) rfl hread

theorem zipStat_tells_iff_mandatory :
    ∃ told, ((pairOf true).store.stat ['k'] (zipGoTo (headedGoTo true) 0 (briefHead true))).1 = .ok (some told) ∧
      TellsLife (zipGoTo (headedGoTo true)) (pairOf true).store ['k'] 0 (briefHead true) told := by
  have hbuilt : (pairOf true).Constructed :=
    ⟨fun | 0 => rfl | 1 => rfl, rfl, fun | 0 => trivial | 1 => trivial⟩
  have hread : ((pairOf true).store.get ['k'] (zipGoTo (headedGoTo true) 0 (briefHead true))).1 =
      .ok (some (some "head", some "tail")) := rfl
  obtain ⟨told, htold, hiff⟩ := zipStat_tells_iff (headed true) (fun held => (held 0, held 1)) none hbuilt
    (headed_tells true) hread
  refine ⟨told, htold, hiff.mpr fun c hc => .inl ?_⟩
  match c with
  | 0 => rfl
  | 1 => cases hc

/-- The stat of a record that is gone at 5 says that it does not end. -/
theorem zipStat_forgets_commit :
    ¬ ∀ told, ((pairOf false).store.stat ['k'] (zipGoTo (headedGoTo false) 0 (briefHead false))).1 = .ok (some told) →
      TellsLife (zipGoTo (headedGoTo false)) (pairOf false).store ['k'] 0 (briefHead false) told := by
  intro h
  have htells := h _ rfl
  obtain ⟨value, hvalue, hiff⟩ := htells 5 _ (Unwritten.start.wait (by decide : (0 : Instant) ≤ 5))
  have hgone : ((pairOf false).store.get ['k'] (zipGoTo (headedGoTo false) 5
      (zipGoTo (headedGoTo false) 0 (briefHead false)))).1 = .ok none := rfl
  rw [hgone] at hvalue
  obtain rfl := Except.ok.inj hvalue
  exact Bool.false_ne_true (hiff.mpr fun d hd => by cases hd)

/-! ### Zips of zips -/

/-- A zip whose parts are zips, to any depth, over stores that tell: each zip passes its constructor's checks, and
    its records do not outlive their commit parts. The life is that of the record under the key. -/
inductive Nested {K : Type} [DecidableEq K] (key : K) (now : Instant) : {V : Type} → (c : Composition K V) →
    (Instant → c.State → c.State) → c.State → Life Instant → Prop
  | store {V : Type} {c : Composition K V} {goTo : Instant → c.State → c.State} {start : c.State}
      {life : Life Instant} (htells : Tells goTo c.store key now start life) : Nested key now c goTo start life
  | zip {V : Type} {n : Nat} (parts : Fin n → ZipPart K V) (ctor : (∀ i, Option (parts i).T) → V)
      (createdAtMerge : Option (List (Option Instant) → Option Instant))
      (hbuilt : (zipWith parts ctor createdAtMerge).Constructed)
      {goTo : ∀ i, Instant → (parts i).store.State → (parts i).store.State}
      {start : (zipWith parts ctor createdAtMerge).State} {life : Fin n → Life Instant}
      (hparts : ∀ i, Nested key now (parts i).store (goTo i) (partState start i) (life i))
      (hdies : DiesWithCommit (fun i => (parts i).role = .authority) (fun i => (parts i).mandatory = true) life) :
      Nested key now (zipWith parts ctor createdAtMerge) (zipGoTo goTo) start
        (joinedLife (fun i => (parts i).mandatory) life)

/-- A record of zips in zips lives until the first of its mandatory parts ends, theirs in turn until the first of
    their own, and the stat on top tells exactly when that is, however long nothing is written. -/
theorem nested_tells {V : Type} {c : Composition K V} {goTo : Instant → c.State → c.State} {key : K} {now : Instant}
    {start : c.State} {life : Life Instant} (h : Nested key now c goTo start life) :
    Tells goTo c.store key now start life := by
  induction h with
  | store htells => exact htells
  | zip parts ctor createdAtMerge hbuilt _ hdies ih =>
    exact zipStore_tells createdAtMerge "ZipWithKvStore" ih (Topology.accepted hbuilt.2.1) hdies

/-- The pair, as the part that commits a record with a note. -/
def filed : Fin 2 → ZipPart (List Char) (Option (Option String × Option String) × Option String)
  | 0 => ⟨"pair", Option String × Option String, inferInstance, pairOf true, Prod.fst, .authority, true⟩
  | 1 => ⟨"note", String, inferInstance, .leaf (memoryLeaf (MemoryKvBackend.plain String)), Prod.snd, .component, true⟩

def filing : Composition (List Char) (Option (Option String × Option String) × Option String) :=
  zipWith filed (fun held => (held 0, held 1)) none

def noteRoot : MemoryRoot Char String := (MemoryRoot.empty 0).put "items:v1" ['k'] "note" (some 7) 0

/-- The head of the pair ends at 5, and the note at 7. -/
def briefFiling : filing.State :=
  ⟨(fun
    | 0 => briefHead true
    | 1 => noteRoot,
    fun j => j.elim0), []⟩

def filedGoTo : ∀ i, Instant → (filed i).store.State → (filed i).store.State
  | 0 => @zipGoTo _ _ _ (headed true) (fun held => (held 0, held 1)) none (headedGoTo true)
  | 1 => MemoryRoot.goTo

def filedLife : Fin 2 → Life Instant
  | 0 => joinedLife (fun i => (headed true i).mandatory) fun i => ending (if i = 0 then some 5 else none)
  | 1 => ending (some 7)

theorem nested_tells_filing : Tells (zipGoTo filedGoTo) filing.store ['k'] 0 briefFiling
    (joinedLife (fun i => (filed i).mandatory) filedLife) := by
  have hpair : (pairOf true).Constructed := ⟨fun | 0 => rfl | 1 => rfl, rfl, fun | 0 => trivial | 1 => trivial⟩
  have hbuilt : filing.Constructed := ⟨fun | 0 => rfl | 1 => rfl, rfl, fun | 0 => hpair | 1 => trivial⟩
  have hread : (((MemoryKvBackend.plain String).get ['k'] (noteRoot.goTo 0)).1 : Except Exn (Option String)) =
      .ok (some "note") := rfl
  have hdies : DiesWithCommit (fun i => (headed true i).role = .authority)
      (fun i => (headed true i).mandatory = true)
      fun i => ending (if i = 0 then some 5 else none) := by
    intro c hc
    match c with
    | 0 => exact .inl rfl
    | 1 => cases hc
  have hparts : ∀ i, Nested ['k'] 0 (filed i).store (filedGoTo i) (partState briefFiling i) (filedLife i) := by
    intro i
    match i with
    | 0 => exact .zip (headed true) _ none hpair (fun j => .store (headed_tells true j)) hdies
    | 1 => exact .store (MemoryKvBackend.tells (p := ['k']) rfl hread)
  refine nested_tells (.zip filed _ none hbuilt hparts fun c _ => .inl ?_)
  match c with
  | 0 => rfl
  | 1 => rfl

end Composition

end Kvtsjl
