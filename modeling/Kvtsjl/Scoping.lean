import Mathlib.Data.Fin.Tuple.Basic
import Mathlib.Data.List.Forall2
import Kvtsjl.Groups
import Kvtsjl.Memory
import Kvtsjl.ScopedKeys

/-
  How a composition is scoped.
  `scoped` appends segments to the scope a store says it has, and clones the store under the whole of it.
  A composition clones its parts, and says the scope of the first; `scope_from` hands on only some kinds,
  and remembers the scope it was given. So a scope reached in steps is the one reached at once
  (`scoped_scoped`), and each leaf ends up where the kinds above it say (`clones_apart`).
-/

namespace Kvtsjl

/-! ## Scopes -/

namespace Scope

/-- `scope / other` -/
def append (s t : Scope) : Scope := ⟨s.segments ++ t.segments⟩

/-- `only`: the segments of these kinds, in the scope's own order. -/
def only (s : Scope) (kinds : List String) : Except Exn Scope :=
  let present := s.segments.map fun g => g.kind
  let missing := kinds.filter fun kind => kind ∉ present
  if missing = [] then .ok ⟨s.segments.filter fun g => g.kind ∈ kinds⟩
  else .error (.scopeError ("scope kinds " ++ reprNames missing ++ " are not in " ++ reprNames present))

/-- Narrowed again and again. -/
def onlyAll (s : Scope) : List (List String) → Except Exn Scope
  | [] => .ok s
  | kinds :: more => (s.only kinds).bind fun narrowed => narrowed.onlyAll more

theorem append_assoc (s t u : Scope) : (s.append t).append u = s.append (t.append u) :=
  congrArg Scope.mk (List.append_assoc _ _ _)

end Scope

/-! ## Leaves and indexes -/

/-- `clone_with_scope` of a leaf's backend: another view of the same medium. -/
def KvBackend.cloneWithScope {K V α VB : Type} [DecidableEq α] (b : KvBackend K V α VB) (scope : Scope) :
    Except Exn (KvBackend K V α VB) :=
  match h : b.kvset.validateScope scope with
  | .ok () => .ok { b with scope := scope, valid := h }
  | .error e => .error e

/-- A leaf, whatever it keeps. -/
inductive AnyBackend : Type 1
  | mk {K V α VB : Type} [DecidableEq α] (b : KvBackend K V α VB)

namespace AnyBackend

def scope : AnyBackend → Scope
  | @mk _ _ _ _ _ b => b.scope

def cloneWithScope : AnyBackend → Scope → Except Exn AnyBackend
  | @mk _ _ _ _ _ b, t => (b.cloneWithScope t).map fun b => mk b

end AnyBackend

/-- An index, as it is scoped: by default it is not. -/
structure IndexView where
  name : String
  scopable : Bool
  scope : Scope

def IndexView.cloneWithScope (index : IndexView) (scope : Scope) : Except Exn IndexView :=
  if index.scopable then .ok { index with scope := scope }
  else .error (.scopeError (index.name ++ " cannot be scoped with the store"))

/-! ## Compositions -/

/-- Clones made one after another, up to the first that cannot be. -/
def clonedAll {X : Type 1} : {n : Nat} → (Fin n → Except Exn X) → Except Exn (Fin n → X)
  | 0, _ => .ok fun i => i.elim0
  | _ + 1, clone =>
    (clone 0).bind fun first => (clonedAll fun i => clone i.succ).map fun others => Fin.cons first others

/-- A store, as it is scoped. A view of one store and a join of two are known by the names of their classes. -/
inductive ScopedStore : Type 1
  | leaf (b : AnyBackend)
  | view (name : String) (underlying : ScopedStore)
  | grouped (rows : ScopedStore) (by_ : String)
  | pair (name : String) (first second : ScopedStore)
  | zip (name : String) (first : ScopedStore) {n : Nat} (others : Fin n → ScopedStore)
  | indexed (underlying : ScopedStore) (indexes : List IndexView)
  | scopeFrom (underlying : ScopedStore) (kinds : List String) (given : Option Scope)

namespace ScopedStore

def readonlyStore (underlying : ScopedStore) : ScopedStore := .view "ReadonlyKvStore" underlying

def mappedStore (underlying : ScopedStore) : ScopedStore := .view "MappedKvStore" underlying

def imappedStore (underlying : ScopedStore) : ScopedStore := .view "IMappedKvStore" underlying

def imappedKeysStore (underlying : ScopedStore) : ScopedStore := .view "IMappedKeysKvStore" underlying

def expandStore (underlying : ScopedStore) : ScopedStore := .view "ExpandKvStore" underlying

def expandMapStore (underlying : ScopedStore) : ScopedStore := .view "ExpandMapKvStore" underlying

def thenStore (left right : ScopedStore) : ScopedStore := .pair "ThenKvStore" left right

def thenWithStore (left right : ScopedStore) : ScopedStore := .pair "ThenWithKvStore" left right

def mirrorStore (primary secondary : ScopedStore) : ScopedStore := .pair "MirrorKvStore" primary secondary

def coalescedStore (primary secondary : ScopedStore) : ScopedStore := .pair "CoalescedKvStore" primary secondary

def zippedStore (first : ScopedStore) {n : Nat} (others : Fin n → ScopedStore) : ScopedStore :=
  .zip "ZippedKvStore" first others

def zipWithStore (first : ScopedStore) {n : Nat} (others : Fin n → ScopedStore) : ScopedStore :=
  .zip "ZipWithKvStore" first others

/-- The scope a store says it has. -/
def scope : ScopedStore → Scope
  | leaf b => b.scope
  | view _ underlying => underlying.scope
  | grouped rows _ => rows.scope
  | pair _ first _ => first.scope
  | zip _ first _ => first.scope
  | indexed underlying _ => underlying.scope
  | scopeFrom underlying _ given => given.getD underlying.scope

/-- `clone_with_scope` -/
def cloneWithScope : ScopedStore → Scope → Except Exn ScopedStore
  | leaf b, t => (b.cloneWithScope t).map leaf
  | view name underlying, t => (underlying.cloneWithScope t).map (view name)
  | grouped rows by_, t => (rows.cloneWithScope t).map fun rows => grouped rows by_
  | pair name first second, t =>
    (first.cloneWithScope t).bind fun first => (second.cloneWithScope t).map (pair name first)
  | zip name first others, t =>
    (first.cloneWithScope t).bind fun first =>
      (clonedAll fun i => (others i).cloneWithScope t).map fun others => zip name first others
  | indexed underlying indexes, t =>
    -- the indexes first
    (indexes.mapM fun index : IndexView => index.cloneWithScope t).bind fun indexes =>
      (underlying.cloneWithScope t).map fun underlying => indexed underlying indexes
  | scopeFrom underlying kinds _, t =>
    (t.only kinds).bind fun narrowed =>
      (underlying.cloneWithScope narrowed).map fun underlying => scopeFrom underlying kinds (some t)

/-- `scoped` -/
def scoped_ (s : ScopedStore) (more : Scope) : Except Exn ScopedStore := s.cloneWithScope (s.scope.append more)

/-- `_group` of a grouped store: its rows under one more segment. -/
def group (rows : ScopedStore) (by_ key : String) : Except Exn ScopedStore :=
  rows.cloneWithScope (rows.scope.extend by_ key)

/-- The leaves, each with the kinds that are taken of a scope on the way down to it. -/
def leaves : ScopedStore → List (List (List String) × AnyBackend)
  | leaf b => [([], b)]
  | view _ underlying => underlying.leaves
  | grouped rows _ => rows.leaves
  | pair _ first second => first.leaves ++ second.leaves
  | @zip _ first n others => first.leaves ++ (List.finRange n).flatMap fun i => (others i).leaves
  | indexed underlying _ => underlying.leaves
  | scopeFrom underlying kinds _ => underlying.leaves.map fun l => (kinds :: l.1, l.2)

/-- The indexes attached anywhere in it. -/
def indexes : ScopedStore → List IndexView
  | leaf _ => []
  | view _ underlying => underlying.indexes
  | grouped rows _ => rows.indexes
  | pair _ first second => first.indexes ++ second.indexes
  | @zip _ first n others => first.indexes ++ (List.finRange n).flatMap fun i => (others i).indexes
  | indexed underlying attached => attached ++ underlying.indexes
  | scopeFrom underlying _ _ => underlying.indexes

end ScopedStore

/-! ## What comes of a clone -/

section Answers

universe u v

variable {X : Type u} {Y : Type v}

theorem exceptMap_ok {f : X → Y} {m : Except Exn X} {y : Y} : m.map f = .ok y ↔ ∃ x, m = .ok x ∧ f x = y := by
  cases m with
  | error e => exact iff_of_false (fun h => by cases h) fun ⟨x, h, _⟩ => by cases h
  | ok x =>
    constructor
    · exact fun h => ⟨x, rfl, Except.ok.inj h⟩
    · intro ⟨x', h, hf⟩
      rw [Except.ok.inj h]
      exact congrArg Except.ok hf

theorem exceptBind_ok {f : X → Except Exn Y} {m : Except Exn X} {y : Y} :
    m.bind f = .ok y ↔ ∃ x, m = .ok x ∧ f x = .ok y := by
  cases m with
  | error e => exact iff_of_false (fun h => by cases h) fun ⟨x, h, _⟩ => by cases h
  | ok x =>
    constructor
    · exact fun h => ⟨x, rfl, h⟩
    · intro ⟨x', h, hf⟩
      rw [Except.ok.inj h]
      exact hf

end Answers

theorem clonedAll_ok {X : Type 1} {n : Nat} {clone : Fin n → Except Exn X} {clones : Fin n → X} :
    clonedAll clone = .ok clones ↔ ∀ i, clone i = .ok (clones i) := by
  induction n with
  | zero => exact ⟨fun _ i => i.elim0, fun _ => congrArg Except.ok (funext fun i => i.elim0)⟩
  | succ n ih =>
    unfold clonedAll
    rw [exceptBind_ok]
    constructor
    · intro ⟨first, hfirst, h⟩ i
      obtain ⟨others, hothers, rfl⟩ := exceptMap_ok.mp h
      cases i using Fin.cases with
      | zero => exact hfirst
      | succ i => exact ih.mp hothers i
    · intro h
      refine ⟨clones 0, h 0, exceptMap_ok.mpr ⟨fun i => clones i.succ, ih.mpr fun i => h i.succ, ?_⟩⟩
      exact Fin.cons_self_tail clones

theorem KvBackend.cloneWithScope_ok {K V α VB : Type} [DecidableEq α] {b b' : KvBackend K V α VB} {t : Scope} :
    b.cloneWithScope t = .ok b' ↔ ∃ h, b' = { b with scope := t, valid := h } := by
  unfold cloneWithScope
  split
  · next h =>
    constructor
    · intro heq
      exact ⟨h, (Except.ok.inj heq).symm⟩
    · rintro ⟨_, heq⟩
      exact congrArg Except.ok heq.symm
  · next e h =>
    constructor
    · intro heq
      cases heq
    · rintro ⟨hok, -⟩
      rw [h] at hok
      cases hok

namespace AnyBackend

theorem scope_clone {b c : AnyBackend} {t : Scope} (h : b.cloneWithScope t = .ok c) : c.scope = t := by
  cases b with
  | mk b =>
    obtain ⟨b', hb', rfl⟩ := exceptMap_ok.mp h
    obtain ⟨_, rfl⟩ := KvBackend.cloneWithScope_ok.mp hb'
    rfl

theorem clone_clone {b c : AnyBackend} {t : Scope} (h : b.cloneWithScope t = .ok c) (u : Scope) :
    c.cloneWithScope u = b.cloneWithScope u := by
  cases b with
  | mk b =>
    obtain ⟨b', hb', rfl⟩ := exceptMap_ok.mp h
    obtain ⟨_, rfl⟩ := KvBackend.cloneWithScope_ok.mp hb'
    rfl

end AnyBackend

theorem IndexView.clone_clone {index clone : IndexView} {t : Scope} (h : index.cloneWithScope t = .ok clone)
    (u : Scope) : clone.cloneWithScope u = index.cloneWithScope u := by
  unfold cloneWithScope at h
  split at h
  · rw [← Except.ok.inj h]
    rfl
  · cases h

theorem mapM_clone_clone {indexes clones : List IndexView} {t : Scope}
    (h : (indexes.mapM fun index : IndexView => index.cloneWithScope t) = .ok clones) (u : Scope) :
    (clones.mapM fun index : IndexView => index.cloneWithScope u) =
      indexes.mapM fun index : IndexView => index.cloneWithScope u := by
  induction indexes generalizing clones with
  | nil =>
    have hnil : clones = [] := (Except.ok.inj h).symm
    rw [hnil]
  | cons index indexes ih =>
    rw [List.mapM_cons] at h
    obtain ⟨clone, hclone, h⟩ := exceptBind_ok.mp h
    obtain ⟨more, hmore, h⟩ := exceptBind_ok.mp h
    rw [← Except.ok.inj h, List.mapM_cons, List.mapM_cons, IndexView.clone_clone hclone, ih hmore]

namespace ScopedStore

/-! ### Scoping in steps -/

/-- A clone says the scope it was given. -/
theorem scope_clone {s c : ScopedStore} {t : Scope} (h : s.cloneWithScope t = .ok c) : c.scope = t := by
  induction s generalizing t c with
  | leaf b =>
    obtain ⟨b', hb', rfl⟩ := exceptMap_ok.mp h
    exact AnyBackend.scope_clone hb'
  | view name underlying ih =>
    obtain ⟨underlying', hunderlying, rfl⟩ := exceptMap_ok.mp h
    exact (ih hunderlying : underlying'.scope = t)
  | grouped rows by_ ih =>
    obtain ⟨rows', hrows, rfl⟩ := exceptMap_ok.mp h
    exact (ih hrows : rows'.scope = t)
  | pair name first second ih _ =>
    obtain ⟨first', hfirst, h⟩ := exceptBind_ok.mp h
    obtain ⟨second', -, rfl⟩ := exceptMap_ok.mp h
    exact (ih hfirst : first'.scope = t)
  | zip name first others ih _ =>
    obtain ⟨first', hfirst, h⟩ := exceptBind_ok.mp h
    obtain ⟨others', -, rfl⟩ := exceptMap_ok.mp h
    exact (ih hfirst : first'.scope = t)
  | indexed underlying attached ih =>
    obtain ⟨attached', -, h⟩ := exceptBind_ok.mp h
    obtain ⟨underlying', hunderlying, rfl⟩ := exceptMap_ok.mp h
    exact (ih hunderlying : underlying'.scope = t)
  | scopeFrom underlying kinds given =>
    obtain ⟨narrowed, -, h⟩ := exceptBind_ok.mp h
    obtain ⟨underlying', -, rfl⟩ := exceptMap_ok.mp h
    rfl

/-- A clone is cloned as the store itself is: what it was scoped by leaves no trace. -/
theorem clone_clone {s c : ScopedStore} {t : Scope} (h : s.cloneWithScope t = .ok c) (u : Scope) :
    c.cloneWithScope u = s.cloneWithScope u := by
  induction s generalizing t u c with
  | leaf b =>
    obtain ⟨b', hb', rfl⟩ := exceptMap_ok.mp h
    unfold cloneWithScope
    rw [AnyBackend.clone_clone hb']
  | view name underlying ih =>
    obtain ⟨underlying', hunderlying, rfl⟩ := exceptMap_ok.mp h
    unfold cloneWithScope
    rw [ih hunderlying]
  | grouped rows by_ ih =>
    obtain ⟨rows', hrows, rfl⟩ := exceptMap_ok.mp h
    unfold cloneWithScope
    rw [ih hrows]
  | pair name first second ihfirst ihsecond =>
    obtain ⟨first', hfirst, h⟩ := exceptBind_ok.mp h
    obtain ⟨second', hsecond, rfl⟩ := exceptMap_ok.mp h
    unfold cloneWithScope
    rw [ihfirst hfirst, ihsecond hsecond]
  | zip name first others ihfirst ihothers =>
    obtain ⟨first', hfirst, h⟩ := exceptBind_ok.mp h
    obtain ⟨others', hothers, rfl⟩ := exceptMap_ok.mp h
    have hsame : (fun i => (others' i).cloneWithScope u) = fun i => (others i).cloneWithScope u :=
      funext fun i => ihothers i (clonedAll_ok.mp hothers i) u
    unfold cloneWithScope
    rw [ihfirst hfirst, hsame]
  | indexed underlying attached ih =>
    obtain ⟨attached', hattached, h⟩ := exceptBind_ok.mp h
    obtain ⟨underlying', hunderlying, rfl⟩ := exceptMap_ok.mp h
    unfold cloneWithScope
    rw [mapM_clone_clone hattached, ih hunderlying]
  | scopeFrom underlying kinds given ih =>
    obtain ⟨narrowed, -, h⟩ := exceptBind_ok.mp h
    obtain ⟨underlying', hunderlying, rfl⟩ := exceptMap_ok.mp h
    unfold cloneWithScope
    refine congrArg (Except.bind _) (funext fun narrowed' => ?_)
    rw [ih hunderlying]

/-- A scope reached in steps is reached: the store says the whole of it, and is the store scoped by the whole at
    once. -/
theorem scoped_scoped {s c : ScopedStore} {more : Scope} (h : s.scoped_ more = .ok c) :
    c.scope = s.scope.append more ∧ ∀ further, c.scoped_ further = s.scoped_ (more.append further) := by
  refine ⟨scope_clone h, fun further => ?_⟩
  unfold scoped_
  rw [scope_clone h, clone_clone h, Scope.append_assoc]

/-- A record of a core and its mounts, of which the mounts take the user alone. -/
def turns : ScopedStore :=
  zipWithStore (.leaf (.mk (MemoryKvBackend.plain String).toKvBackend)) fun _ : Fin 1 =>
    .scopeFrom (.grouped (.leaf (.mk (MemoryKvBackend.plain String).toKvBackend)) "consumer_turn_id") ["user"] none

def userU : Scope := ⟨[⟨"user", "u"⟩]⟩

def sessionOf (id : String) : Scope := ⟨[⟨"session", id⟩]⟩

theorem scoped_scoped_turns : ∃ c, turns.scoped_ userU = .ok c ∧ c.scope = userU ∧
    c.scoped_ (sessionOf "s") = turns.scoped_ (userU.append (sessionOf "s")) := by
  obtain ⟨c, hc⟩ : ∃ c, turns.scoped_ userU = .ok c := ⟨_, rfl⟩
  obtain ⟨hscope, hfurther⟩ := scoped_scoped hc
  exact ⟨c, hc, hscope, hfurther (sessionOf "s")⟩

/-- A group of a clone is the rows under one segment more than the scope given. -/
theorem group_clone {rows c : ScopedStore} {t : Scope} (h : rows.cloneWithScope t = .ok c) (by_ key : String) :
    c.group by_ key = rows.cloneWithScope (t.extend by_ key) := by
  unfold group
  rw [scope_clone h, clone_clone h]

/-! ### Where the leaves end up -/

/-- The leaf again, under what is left of the scope on the way down to it. -/
def Rescoped (t : Scope) (l l' : List (List String) × AnyBackend) : Prop :=
  l'.1 = l.1 ∧ ∃ u, t.onlyAll l.1 = .ok u ∧ l.2.cloneWithScope u = .ok l'.2

theorem leaves_clone {s c : ScopedStore} {t : Scope} (h : s.cloneWithScope t = .ok c) :
    List.Forall₂ (Rescoped t) s.leaves c.leaves := by
  induction s generalizing t c with
  | leaf b =>
    obtain ⟨b', hb', rfl⟩ := exceptMap_ok.mp h
    exact .cons ⟨rfl, t, rfl, hb'⟩ .nil
  | view name underlying ih =>
    obtain ⟨underlying', hunderlying, rfl⟩ := exceptMap_ok.mp h
    exact (ih hunderlying : List.Forall₂ (Rescoped t) underlying.leaves underlying'.leaves)
  | grouped rows by_ ih =>
    obtain ⟨rows', hrows, rfl⟩ := exceptMap_ok.mp h
    exact (ih hrows : List.Forall₂ (Rescoped t) rows.leaves rows'.leaves)
  | pair name first second ihfirst ihsecond =>
    obtain ⟨first', hfirst, h⟩ := exceptBind_ok.mp h
    obtain ⟨second', hsecond, rfl⟩ := exceptMap_ok.mp h
    exact List.rel_append (ihfirst hfirst) (ihsecond hsecond)
  | zip name first others ihfirst ihothers =>
    obtain ⟨first', hfirst, h⟩ := exceptBind_ok.mp h
    obtain ⟨others', hothers, rfl⟩ := exceptMap_ok.mp h
    refine List.rel_append (ihfirst hfirst) (List.rel_flatMap (R := (· = ·)) (List.forall₂_refl _) ?_)
    intro i j hij
    rw [← hij]
    exact ihothers i (clonedAll_ok.mp hothers i)
  | indexed underlying attached ih =>
    obtain ⟨attached', -, h⟩ := exceptBind_ok.mp h
    obtain ⟨underlying', hunderlying, rfl⟩ := exceptMap_ok.mp h
    exact (ih hunderlying : List.Forall₂ (Rescoped t) underlying.leaves underlying'.leaves)
  | scopeFrom underlying kinds given ih =>
    obtain ⟨narrowed, hnarrowed, h⟩ := exceptBind_ok.mp h
    obtain ⟨underlying', hunderlying, rfl⟩ := exceptMap_ok.mp h
    unfold leaves
    rw [List.forall₂_map_left_iff, List.forall₂_map_right_iff]
    refine (ih hunderlying).imp fun l l' hl => ?_
    obtain ⟨hpath, u, hu, hclone⟩ := hl
    refine ⟨congrArg (kinds :: ·) hpath, u, ?_, hclone⟩
    unfold Scope.onlyAll
    rw [hnarrowed]
    exact hu

theorem leaves_ne_nil (s : ScopedStore) : s.leaves ≠ [] := by
  induction s with
  | leaf b => exact List.cons_ne_nil _ _
  | view name underlying ih => exact ih
  | grouped rows by_ ih => exact ih
  | pair name first second ih _ => exact List.append_ne_nil_of_left_ne_nil ih _
  | zip name first others ih _ => exact List.append_ne_nil_of_left_ne_nil ih _
  | indexed underlying attached ih => exact ih
  | scopeFrom underlying kinds given ih => exact fun h => ih (List.map_eq_nil_iff.mp h)

/-- The leaf takes what is left of the scope on the way down to it. -/
def Takes (t : Scope) (l : List (List String) × AnyBackend) : Prop :=
  ∃ u b, t.onlyAll l.1 = .ok u ∧ l.2.cloneWithScope u = .ok b

theorem mapM_clone_iff {indexes : List IndexView} {t : Scope} :
    (∃ clones, (indexes.mapM fun index : IndexView => index.cloneWithScope t) = .ok clones) ↔
      ∀ index ∈ indexes, index.scopable = true := by
  have hone : ∀ index : IndexView, (∃ clone, index.cloneWithScope t = .ok clone) ↔ index.scopable = true := by
    intro index
    unfold IndexView.cloneWithScope
    split
    · next h => exact iff_of_true ⟨_, rfl⟩ h
    · next h => exact iff_of_false (fun ⟨_, hclone⟩ => by cases hclone) h
  induction indexes with
  | nil => exact iff_of_true ⟨[], rfl⟩ fun index hindex => by cases hindex
  | cons index indexes ih =>
    rw [List.forall_mem_cons, List.mapM_cons]
    constructor
    · intro ⟨clones, h⟩
      obtain ⟨clone, hclone, h⟩ := exceptBind_ok.mp h
      obtain ⟨more, hmore, -⟩ := exceptBind_ok.mp h
      exact ⟨(hone index).mp ⟨clone, hclone⟩, ih.mp ⟨more, hmore⟩⟩
    · intro ⟨hindex, hindexes⟩
      obtain ⟨clone, hclone⟩ := (hone index).mpr hindex
      obtain ⟨more, hmore⟩ := ih.mpr hindexes
      exact ⟨clone :: more, exceptBind_ok.mpr ⟨clone, hclone, exceptBind_ok.mpr ⟨more, hmore, rfl⟩⟩⟩

/-- A composition can be scoped exactly where every leaf takes what is left for it, which a kind that the scope
    lacks leaves nothing of, and every index can be scoped at all. -/
theorem clonable_iff (s : ScopedStore) (t : Scope) : (∃ c, s.cloneWithScope t = .ok c) ↔
    (∀ l ∈ s.leaves, Takes t l) ∧ ∀ index ∈ s.indexes, index.scopable = true := by
  induction s generalizing t with
  | leaf b =>
    constructor
    · intro ⟨c, h⟩
      obtain ⟨b', hb', -⟩ := exceptMap_ok.mp h
      refine ⟨fun l hl => ?_, fun index hindex => by cases hindex⟩
      rw [List.mem_singleton.mp hl]
      exact ⟨t, b', rfl, hb'⟩
    · intro ⟨h, _⟩
      obtain ⟨u, b', hu, hb'⟩ := h _ (List.mem_singleton.mpr rfl)
      rw [← Except.ok.inj hu] at hb'
      exact ⟨leaf b', exceptMap_ok.mpr ⟨b', hb', rfl⟩⟩
  | view name underlying ih =>
    refine Iff.trans ⟨fun ⟨c, h⟩ => ?_, fun ⟨c, h⟩ => ⟨view name c, exceptMap_ok.mpr ⟨c, h, rfl⟩⟩⟩ (ih t)
    obtain ⟨c', hc', -⟩ := exceptMap_ok.mp h
    exact ⟨c', hc'⟩
  | grouped rows by_ ih =>
    refine Iff.trans ⟨fun ⟨c, h⟩ => ?_, fun ⟨c, h⟩ => ⟨grouped c by_, exceptMap_ok.mpr ⟨c, h, rfl⟩⟩⟩ (ih t)
    obtain ⟨c', hc', -⟩ := exceptMap_ok.mp h
    exact ⟨c', hc'⟩
  | pair name first second ihfirst ihsecond =>
    unfold leaves indexes
    rw [List.forall_mem_append, List.forall_mem_append, and_and_and_comm, ← ihfirst, ← ihsecond]
    constructor
    · intro ⟨c, h⟩
      obtain ⟨first', hfirst, h⟩ := exceptBind_ok.mp h
      obtain ⟨second', hsecond, -⟩ := exceptMap_ok.mp h
      exact ⟨⟨first', hfirst⟩, second', hsecond⟩
    · intro ⟨⟨first', hfirst⟩, second', hsecond⟩
      exact ⟨_, exceptBind_ok.mpr ⟨first', hfirst, exceptMap_ok.mpr ⟨second', hsecond, rfl⟩⟩⟩
  | zip name first others ihfirst ihothers =>
    unfold leaves indexes
    rw [List.forall_mem_append, List.forall_mem_append, and_and_and_comm, ← ihfirst]
    have hothers : (∃ clones, clonedAll (fun i => (others i).cloneWithScope t) = .ok clones) ↔
        (∀ l ∈ (List.finRange _).flatMap fun i => (others i).leaves, Takes t l) ∧
          ∀ index ∈ (List.finRange _).flatMap fun i => (others i).indexes, index.scopable = true := by
      rw [List.forall_mem_flatMap, List.forall_mem_flatMap]
      constructor
      · intro ⟨clones, h⟩
        have hall := fun i => (ihothers i t).mp ⟨clones i, clonedAll_ok.mp h i⟩
        exact ⟨fun i _ => (hall i).1, fun i _ => (hall i).2⟩
      · intro ⟨hleaves, hindexes⟩
        have hall := fun i => (ihothers i t).mpr ⟨hleaves i (List.mem_finRange i), hindexes i (List.mem_finRange i)⟩
        choose clones hclones using hall
        exact ⟨clones, clonedAll_ok.mpr hclones⟩
    rw [← hothers]
    constructor
    · intro ⟨c, h⟩
      obtain ⟨first', hfirst, h⟩ := exceptBind_ok.mp h
      obtain ⟨others', hothers, -⟩ := exceptMap_ok.mp h
      exact ⟨⟨first', hfirst⟩, others', hothers⟩
    · intro ⟨⟨first', hfirst⟩, others', hothers⟩
      exact ⟨_, exceptBind_ok.mpr ⟨first', hfirst, exceptMap_ok.mpr ⟨others', hothers, rfl⟩⟩⟩
  | indexed underlying attached ih =>
    unfold leaves indexes
    rw [List.forall_mem_append, and_left_comm, ← ih, ← @mapM_clone_iff attached t]
    constructor
    · intro ⟨c, h⟩
      obtain ⟨attached', hattached, h⟩ := exceptBind_ok.mp h
      obtain ⟨underlying', hunderlying, -⟩ := exceptMap_ok.mp h
      exact ⟨⟨attached', hattached⟩, underlying', hunderlying⟩
    · intro ⟨⟨attached', hattached⟩, underlying', hunderlying⟩
      exact ⟨_, exceptBind_ok.mpr ⟨attached', hattached, exceptMap_ok.mpr ⟨underlying', hunderlying, rfl⟩⟩⟩
  | scopeFrom underlying kinds given ih =>
    unfold leaves indexes
    rw [List.forall_mem_map]
    constructor
    · intro ⟨c, h⟩
      obtain ⟨narrowed, hnarrowed, h⟩ := exceptBind_ok.mp h
      obtain ⟨underlying', hunderlying, -⟩ := exceptMap_ok.mp h
      obtain ⟨hleaves, hindexes⟩ := (ih narrowed).mp ⟨underlying', hunderlying⟩
      refine ⟨fun l hl => ?_, hindexes⟩
      obtain ⟨u, b, hu, hb⟩ := hleaves l hl
      exact ⟨u, b, exceptBind_ok.mpr ⟨narrowed, hnarrowed, hu⟩, hb⟩
    · intro ⟨hleaves, hindexes⟩
      -- some leaf is below, so the kinds are there
      obtain ⟨l₀, hl₀⟩ := List.exists_mem_of_ne_nil _ underlying.leaves_ne_nil
      obtain ⟨u₀, -, hu₀, -⟩ := hleaves l₀ hl₀
      obtain ⟨narrowed, hnarrowed, -⟩ := exceptBind_ok.mp hu₀
      have htaken : ∀ l ∈ underlying.leaves, Takes narrowed l := by
        intro l hl
        obtain ⟨u, b, hu, hb⟩ := hleaves l hl
        obtain ⟨narrowed', hnarrowed', hu⟩ := exceptBind_ok.mp hu
        obtain rfl := Except.ok.inj (hnarrowed.symm.trans hnarrowed')
        exact ⟨u, b, hu, hb⟩
      obtain ⟨underlying', hunderlying⟩ := (ih narrowed).mpr ⟨htaken, hindexes⟩
      exact ⟨_, exceptBind_ok.mpr ⟨narrowed, hnarrowed, exceptMap_ok.mpr ⟨underlying', hunderlying, rfl⟩⟩⟩

/-! ### Two clones -/

/-- Two views of one leaf, under what is left of two scopes on the way down to it. They are one view where that is
    one scope. A place that both write is one key's in one scope, or two keys merge there, and keys of scopes that
    keys are written under do not, where the separator tells segments apart, and leaves from segments if no schema
    does. -/
def Apart (t u : Scope) (l l' : List (List String) × AnyBackend) : Prop :=
  ∃ (path : List (List String)) (K V α VB : Type) (_ : DecidableEq α) (b b' : KvBackend K V α VB),
    l = (path, .mk b) ∧ l' = (path, .mk b') ∧ t.onlyAll path = .ok b.scope ∧ u.onlyAll path = .ok b'.scope ∧
    (b.scope = b'.scope → b = b') ∧
    (∀ key key' blob, b.physicalKeyBlob key = .ok blob → b'.physicalKeyBlob key' = .ok blob →
      (b.scope = b'.scope ∧ key = key') ∨
        b.kvset.wire.Merges b.scope.segments (b.ownLeaf key) b'.scope.segments (b'.ownLeaf key')) ∧
    (b.kvset.wire.Apart → (b.kvset.scopeSchema = none → b.kvset.wire.LeafApart) → b.kvset.Writes b.scope →
      b.kvset.Writes b'.scope → ∀ key key' blob, b.physicalKeyBlob key = .ok blob →
        b'.physicalKeyBlob key' = .ok blob → b.scope = b'.scope ∧ key = key')

theorem apart_of_rescoped {t u : Scope} {l x y : List (List String) × AnyBackend} (hx : Rescoped t l x)
    (hy : Rescoped u l y) : Apart t u x y := by
  obtain ⟨path, leaf⟩ := l
  obtain ⟨pathx, leafx⟩ := x
  obtain ⟨pathy, leafy⟩ := y
  obtain ⟨rfl, t', ht', hx⟩ := hx
  obtain ⟨rfl, u', hu', hy⟩ := hy
  cases leaf with
  | @mk K V α VB dec b =>
    obtain ⟨bx, hbx, rfl⟩ := exceptMap_ok.mp hx
    obtain ⟨by_, hby, rfl⟩ := exceptMap_ok.mp hy
    obtain ⟨hvalid, rfl⟩ := KvBackend.cloneWithScope_ok.mp hbx
    obtain ⟨hvalid', rfl⟩ := KvBackend.cloneWithScope_ok.mp hby
    refine ⟨pathy, K, V, α, VB, dec, _, _, rfl, rfl, ht', hu', fun hscope => ?_, fun key key' blob hkey hkey' => ?_,
      fun hapart hleaf hwrites hwrites' key key' blob hkey hkey' => ?_⟩
    · dsimp only at hscope
      subst hscope
      rfl
    · exact KvBackend.physicalKeyBlob_merges (by rfl) (by rfl) hkey hkey'
    · exact KvBackend.physicalKeyBlob_isolates (by rfl) (by rfl) hapart hleaf hwrites hwrites' hkey hkey'

end ScopedStore

end Kvtsjl
