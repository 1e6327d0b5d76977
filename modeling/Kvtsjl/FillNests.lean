import Kvtsjl.Fill

/-
  A fill of a nest, among other clients.
  Each request of the fill may follow a move of another client. Whatever these do, the fill in
  batches and the fill key by key make the same requests but for how the inserts are put
  together, so they agree. What the fill keeps is shown by induction over the nest, down the
  chain of authorities: each composition writes its authority's child by conditional inserts,
  and everything else it does happens in other children.
-/

namespace Kvtsjl

open Assoc (Dict)
open Effects Prog

/-! ## Among other clients -/

/-- A state, and what the other clients will do to it. -/
abbrev Among (σ : Type) : Type := σ × List (σ → σ)

section Amid

variable {σ K V α : Type}

/-- A request, before which another client may act. -/
def amid (m : M σ α) : M (Among σ) α
  | (x, []) => ((m x).1, ((m x).2, []))
  | (x, move :: moves) => ((m (move x)).1, ((m (move x)).2, moves))

theorem amid_alone (m : M σ α) (x : σ) : amid m (x, []) = ((m x).1, ((m x).2, [])) := rfl

def MissingPage.amid (page : MissingPage σ K V) : MissingPage (Among σ) K V where
  listed := page.listed
  missing := page.missing
  read ks := Kvtsjl.amid (page.read ks)
  stat ks := Kvtsjl.amid (page.stat ks)

def PageGenerator.amid (g : PageGenerator σ K V) : PageGenerator (Among σ) K V where
  Place := g.Place
  start := g.start
  next p := Option.map (Prod.map (Option.map MissingPage.amid) id) <$> Kvtsjl.amid (g.next p)

/-- Among other clients the batch inserts its keys one after another, each in one step. Alone
    it is the store's own. -/
structure AtomicPerKey [DecidableEq K] (m : KeyMap σ K V)
    (batch : Dict K (ConditionalWrite V) → M (Among σ) (Finset K)) : Prop where
  alone : ∀ ws x, batch ws (x, []) =
    ((m.batchWriteIfUnchanged ws none x).1, ((m.batchWriteIfUnchanged ws none x).2, []))
  perKey : ∀ ws, batch ws = eachConditional
    (fun k w => amid (m.writeIfUnchanged k w.seen w.change ⟨none, w.createdAt⟩)) ws

/-- What no move of the other clients disturbs. -/
def Undisturbed (P : σ → Prop) (s : Among σ) : Prop :=
  P s.1 ∧ ∀ move ∈ s.2, ∀ x, P x → P (move x)

theorem amid_keeps {P : σ → Prop} {m : M σ α} (h : Moves (Keeping P) m) :
    Moves (Keeping (Undisturbed P)) (amid m) := by
  intro ⟨x, moves⟩ ⟨hx, hmoves⟩
  cases moves with
  | nil => exact ⟨h x hx, hmoves⟩
  | cons move moves =>
    exact ⟨h _ (hmoves move List.mem_cons_self x hx),
      fun move' hmove' => hmoves move' (List.mem_cons_of_mem _ hmove')⟩

theorem amid_ok {m : M σ α} {s t : Among σ} {a : α} (h : amid m s = (.ok a, t)) :
    ∃ x y, m x = (.ok a, y) := by
  obtain ⟨x, moves⟩ := s
  cases moves with
  | nil =>
    obtain ⟨hm, -⟩ := Prod.mk.inj h
    exact ⟨x, _, Prod.ext hm rfl⟩
  | cons move moves =>
    obtain ⟨hm, -⟩ := Prod.mk.inj h
    exact ⟨move x, _, Prod.ext hm rfl⟩

namespace PageGenerator

theorem next_amid {g : PageGenerator σ K V} {p q : g.Place} {s t : Among σ}
    {page : Option (MissingPage (Among σ) K V)} (h : g.amid.next p s = (.ok (some (page, q)), t)) :
    ∃ x page' y, g.next p x = (.ok (some (page', q)), y) ∧ page'.map MissingPage.amid = page := by
  obtain ⟨r, hr, hmap⟩ := map_eq_ok h
  obtain ⟨⟨page', q'⟩, rfl, heq⟩ := Option.map_eq_some_iff.mp hmap
  obtain ⟨hpage, rfl⟩ := Prod.mk.inj heq
  obtain ⟨x, y, hnext⟩ := amid_ok hr
  exact ⟨x, page', y, hnext, hpage⟩

theorem Keeps.amid {P : σ → Prop} {g : PageGenerator σ K V} {good : g.Place → Prop} (h : g.Keeps P good) :
    g.amid.Keeps (Undisturbed P) good where
  start := h.start
  moves p hp := Moves.map (amid_keeps (h.moves p hp))
  next p s page q t hp hn := by
    obtain ⟨x, page', y, hnext, hpage⟩ := next_amid hn
    obtain ⟨hgood, hkeeps⟩ := h.next p x page' q y hp hnext
    refine ⟨hgood, fun r hr => ?_⟩
    rw [hr] at hpage
    obtain ⟨r', hr', rfl⟩ := Option.map_eq_some_iff.mp hpage
    have hr' := hkeeps r' hr'
    exact ⟨hr'.nodup, fun ks => amid_keeps (hr'.read ks), fun ks => amid_keeps (hr'.stat ks)⟩

theorem acc_amid {g : PageGenerator σ K V} {p : g.Place} (h : Acc g.After p) : Acc g.amid.After p := by
  refine Subrelation.accessible (fun {q p} hq => ?_) h
  obtain ⟨s, page, t, hn⟩ := hq
  obtain ⟨x, page', y, hnext, -⟩ := next_amid hn
  exact ⟨x, page', y, hnext⟩

end PageGenerator

end Amid

/-! ## Nests -/

section Laws

variable {K V : Type}

/-- A scan of all keys lists each once. -/
def ScansOnce {σ : Type} (s : KvStore σ K V) : Prop :=
  ∀ includeValues pageSize x rows, (s.scanEntries ⟨none, includeValues, pageSize⟩ x).1 = .ok rows →
    (rows.map Prod.fst).Nodup

/-- A leaf lacks nothing, and a scan lists each of its keys once. -/
structure Leaf.Lists (l : Leaf K V) : Prop where
  lacks : ∀ pageSize x, l.store.missingPages pageSize x = (.ok [], x)
  once : ScansOnce l.store

/-- A batch that only inserts, where nothing is held. -/
def OnlyInserts (ws : Dict K (ConditionalWrite V)) : Prop :=
  ∀ e ∈ ws.entries, e.2.seen.version = none ∧ ∃ v, e.2.change = .put v

theorem OnlyInserts.map [DecidableEq K] {U : Type} {ws : Dict K (ConditionalWrite V)} (h : OnlyInserts ws)
    (f : ConditionalWrite V → ConditionalWrite U) (hseen : ∀ w, (f w).seen.version = w.seen.version)
    (hput : ∀ w v, w.change = .put v → ∃ u, (f w).change = .put u) : OnlyInserts (ws.map fun _ w => f w) := by
  intro ⟨k, w⟩ hw
  rw [Dict.mem_entries, Dict.get?_map] at hw
  obtain ⟨w', hw', rfl⟩ := Option.map_eq_some_iff.mp hw
  obtain ⟨hversion, v, hv⟩ := h (k, w') (Dict.mem_entries.mpr hw')
  exact ⟨(hseen w').trans hversion, hput w' v hv⟩

/-- No check for a key and no insert of an absent one disturbs what is held. -/
structure Leaf.Keeps (l : Leaf K V) (P : l.State → Prop) : Prop where
  batchExists : ∀ ks, Moves (Keeping P) (l.store.batchExists ks)
  insert : ∀ ws, OnlyInserts ws → Moves (Keeping P) (l.store.batchWriteIfUnchanged ws none)

/-- The leaf shows the value under the key. -/
def Leaf.Shows (l : Leaf K V) (k : K) (v : V) (x : l.State) : Prop := (l.store.get k x).1 = .ok (some v)

end Laws

/-- A leaf, whatever its keys and values. -/
structure Medium where
  Key : Type
  Value : Type
  leaf : Leaf Key Value

namespace Nesting

/-- The leaves a listing reaches list their keys once, and key views keep keys apart. -/
def ListsOnce : {K V : Type} → Nesting K V → Prop
  | _, _, .leaf l => l.Lists
  | _, _, .imap n _ _ => n.ListsOnce
  | _, _, .imapKeys _ n _ fromStore => Function.Injective fromStore ∧ n.ListsOnce
  | _, _, .fallbackRead _ primary secondary _ => primary.ListsOnce ∧ secondary.ListsOnce
  | _, _, .mirror _ primary _ _ => primary.ListsOnce
  | _, _, .indexed _ underlying _ _ => underlying.ListsOnce

/-- The leaf at the end of the chain of authorities. -/
def bottom : {K V : Type} → Nesting K V → Medium
  | K, V, .leaf l => ⟨K, V, l⟩
  | _, _, .imap n _ _ => n.bottom
  | _, _, .imapKeys _ n _ _ => n.bottom
  | _, _, .fallbackRead _ primary _ _ => primary.bottom
  | _, _, .mirror _ primary _ _ => primary.bottom
  | _, _, .indexed _ underlying _ _ => underlying.bottom

/-- The state of that leaf. -/
def atBottom : {K V : Type} → (n : Nesting K V) → n.State → n.bottom.leaf.State
  | _, _, .leaf _, x => x
  | _, _, .imap n _ _, x => n.atBottom x
  | _, _, .imapKeys _ n _ _, x => n.atBottom x
  | _, _, .fallbackRead _ primary _ _, x => primary.atBottom (x.media.1 0)
  | _, _, .mirror _ primary _ _, x => primary.atBottom (x.media.1 0)
  | _, _, .indexed _ underlying _ _, x => underlying.atBottom (x.media.1 0)

end Nesting

/-! ## Requests to a target -/

section Targets

variable {S τ K V : Type} {P : S → Prop}

/-- What is listed of a target, and checked against it, keeps what is held. -/
structure Target.KeepsListed (t : Target S K V V) (P : S → Prop) : Prop where
  once : ∀ pageSize x listed, (t.keys pageSize x).1 = .ok listed → listed.Nodup
  keys : ∀ pageSize, Moves (Keeping P) (t.keys pageSize)
  batchExists : ∀ ks, Moves (Keeping P) (t.batchExists ks)
  batchRead : ∀ ks, Moves (Keeping P) (t.batchRead ks)
  batchStat : ∀ ks, Moves (Keeping P) (t.batchStat ks)

variable [DecidableEq K]

theorem absentFrom_keeps {ahead : List (Target S K V V)} (h : ∀ t ∈ ahead, ∀ ks, Moves (Keeping P) (t.batchExists ks))
    (page : List K) : Moves (Keeping P) (Topology.absentFrom page ahead) := by
  unfold Topology.absentFrom
  refine Moves.foldlM (fun absent t ht => ?_) page
  split
  · exact Moves.pure _
  · exact Moves.bind (h t ht _) fun _ => Moves.pure _

omit [DecidableEq K] in
theorem nodup_of_mem_toChunks {pageSize : Nat} {listed page : List K} (h : listed.Nodup)
    (hp : page ∈ listed.toChunks pageSize) : page.Nodup := by
  rw [← flatten_toChunks pageSize listed] at h
  exact h.sublist (List.sublist_flatten_of_mem hp)

/-- Where a composition's listing is good: the pages still to check are orderly, and so is every
    target it asks. -/
def goodWithin {B : Type} (P : S → Prop) (good : B → Prop) : PageGenerator.Within B S K V → Prop
  | .below p => good p
  | .listing ahead fallbacks => (∀ t ∈ ahead, ∀ ks, Moves (Keeping P) (t.batchExists ks)) ∧
    ∀ t ∈ fallbacks, t.KeepsListed P
  | .checking pages ahead fallback rest => (∀ page ∈ pages, page.Nodup) ∧
    (∀ t ∈ ahead, ∀ ks, Moves (Keeping P) (t.batchExists ks)) ∧ fallback.KeepsListed P ∧
    ∀ t ∈ rest, t.KeepsListed P

theorem pageGenerator_keeps {Q : Type} {T : Topology S K V Q} {authority : Target S K V V}
    {below : PageGenerator S K V} {good : below.Place → Prop} (hbelow : below.Keeps P good)
    (hauthority : ∀ ks, Moves (Keeping P) (authority.batchExists ks))
    (hfallbacks : ∀ t ∈ T.lookups, t.role = .fallback → t.KeepsListed P) (pageSize : Nat) :
    (T.pageGenerator authority below pageSize).Keeps P (goodWithin P good) where
  start := hbelow.start
  moves p hp := by
    rcases p with p | ⟨ahead, _ | ⟨fallback, rest⟩⟩ | ⟨_ | ⟨page, pages⟩, ahead, fallback, rest⟩
    · exact Moves.map (hbelow.moves p hp)
    · exact Moves.pure _
    · exact Moves.map ((hp.2 fallback List.mem_cons_self).keys pageSize)
    · exact Moves.pure _
    · exact Moves.map (absentFrom_keeps hp.2.1 page)
  next p x page q y hp hn := by
    rcases p with p | ⟨ahead, _ | ⟨fallback, rest⟩⟩ | ⟨_ | ⟨keys, pages⟩, ahead, fallback, rest⟩
    · obtain ⟨r, hr, heq⟩ := map_eq_ok hn
      cases r with
      | none =>
        cases heq
        refine ⟨⟨fun t ht => ?_, fun t ht => ?_⟩, fun r hr => by cases hr⟩
        · rw [List.mem_singleton.mp ht]
          exact hauthority
        · obtain ⟨ht, hrole⟩ := List.mem_filter.mp ht
          exact hfallbacks t ht (of_decide_eq_true hrole)
      | some r =>
        cases heq
        exact hbelow.next p x r.1 r.2 y hp hr
    · cases hn
    · obtain ⟨listed, hlisted, heq⟩ := map_eq_ok hn
      cases heq
      have hfallback := hp.2 fallback List.mem_cons_self
      have honce : listed.Nodup := hfallback.once pageSize x listed (by rw [hlisted])
      exact ⟨⟨fun page hpage => nodup_of_mem_toChunks honce hpage, hp.1, hfallback,
        fun t ht => hp.2 t (List.mem_cons_of_mem _ ht)⟩, fun r hr => by cases hr⟩
    · cases hn
      refine ⟨⟨fun t ht => ?_, hp.2.2.2⟩, fun r hr => by cases hr⟩
      rcases List.mem_append.mp ht with ht | ht
      · exact hp.2.1 t ht
      · rw [List.mem_singleton.mp ht]
        exact hp.2.2.1.batchExists
    · obtain ⟨absent, -, heq⟩ := map_eq_ok hn
      cases heq
      refine ⟨⟨fun page hpage => hp.1 page (List.mem_cons_of_mem _ hpage), hp.2⟩, fun r hr => ?_⟩
      rw [← Option.some.inj hr]
      exact ⟨hp.1 keys List.mem_cons_self, hp.2.2.1.batchRead, hp.2.2.1.batchStat⟩

end Targets

/-! ## What a node does to its first child -/

section Nodes

variable {K V : Type} {n m : Nat} {part : Fin n → Composition K V} {I : Fin m → Type} {i j : Fin n}
  {P : (part i).State → Prop}

/-- What is held of a child is kept by what happens in another. -/
theorem elsewhere_keeps {α : Type} (h : i ≠ j) (op : M (part j).State α) :
    Moves (Keeping fun s : Media (fun i => (part i).State) I => P (s.1 i)) ((Media.child j).zoom op) := by
  have happart : Lens.Apart (Media.child j : Lens (Media (fun i => (part i).State) I) _) (Media.child i) :=
    Media.child_apart h
  intro s hs
  have hsame : ((Media.child j).zoom op s).2.1 i = s.1 i := happart.zoom_keeps op s
  show P (((Media.child j).zoom op s).2.1 i)
  rw [hsame]
  exact hs

/-- The target over a child, but for where it acts. -/
theorem childTarget_zoom [DecidableEq K] [DecidableEq V] (d : Declared) :
    Nesting.childTarget part I d i = (storeTarget d (part i).store some id).zoom (Media.child i) :=
  storeTarget_zoom _ _ _ _ _

/-- The conditional write of a child, which decides by the versions alone. -/
theorem childTarget_conditional [DecidableEq K] [DecidableEq V] (d : Declared) (ws : Dict K (ConditionalWrite V))
    (o : WriteOptions) : (Nesting.childTarget part I d i).batchWriteIfUnchanged ws o =
      (Media.child i).zoom ((part i).store.batchWriteIfUnchanged (unseen ws) o.ttl) := by
  rw [childTarget_zoom]
  have hrun := whole_conditional d (part i).store.toKeyMap (id : V → V) [(part i).store.toSyncNode] ws o
  exact congrArg (Media.child i : Lens (Media (fun i => (part i).State) I) _).zoom hrun

/-- A child behind another is listed without touching that other. -/
theorem behind_keepsListed [DecidableEq K] [DecidableEq V] (h : i ≠ j) (d : Declared)
    (honce : ScansOnce (part j).store) : (Nesting.childTarget part I d j).KeepsListed fun s => P (s.1 i) := by
  rw [childTarget_zoom]
  refine ⟨fun pageSize s listed hlisted => ?_, fun _ => elsewhere_keeps h _, fun _ => elsewhere_keeps h _,
    fun _ => elsewhere_keeps h _, fun _ => elsewhere_keeps h _⟩
  have hkeys : ((List.map Prod.fst <$> (part j).store.scanEntries ⟨none, false, pageSize⟩) (s.1 j)).1 =
      .ok listed := hlisted
  obtain ⟨rows, hrows, rfl⟩ := map_ok hkeys
  exact honce _ _ _ rows hrows

variable [DecidableEq K] {Q : Type} {S : Type} {T : Topology S K V Q} {R : S → Prop}

theorem batchExists_keeps (hwhole : T.assembled = false)
    (h : ∀ t ∈ T.lookups, ∀ ks, Moves (Keeping R) (t.batchExists ks)) (ks : List K) :
    Moves (Keeping R) (T.batchExists ks) := by
  have hread : T.batchExists ks = T.lookups.foldlM (Topology.existsShare ks) ∅ :=
    if_neg (by rw [hwhole]; decide)
  rw [hread]
  refine Moves.foldlM (fun found t ht => ?_) ∅
  unfold Topology.existsShare
  simp only
  split
  · exact Moves.pure _
  · exact Moves.map (h t ht _)

/-- A conditional write of a node keeps what its authority's keeps, where all that follows
    happens elsewhere. -/
theorem conditional_keeps {authority : AnyTarget S K V Q} (hauthority : T.authority = some authority)
    (hcomponents : T.components = []) (ws : Dict K (ConditionalWrite V)) (o : WriteOptions)
    (hwrite : Moves (Keeping R) (authority.batchWriteIfUnchanged (Topology.received authority ws) o))
    (hsync : ∀ t ∈ T.dependents, ∀ op : SyncOp K V, Moves (Keeping R) (op.on t)) :
    Moves (Keeping fun x : Node S K V Q => R x.media) (T.batchWriteIfUnchanged ws o) := by
  have hclosed := moves_closed (ε := Exn) (Keeping fun x : Node S K V Q => R x.media)
  have hsyncOne : ∀ t ∈ T.dependents, ∀ what op,
      Moves (Keeping fun x : Node S K V Q => R x.media) (T.syncOne t what op none) := by
    intro t ht what op
    unfold Topology.syncOne Topology.runSync
    split
    · exact fun x hx => hx
    · exact fun x hx => moves_settle (hsync t ht op) _ _ _ _ _ x.media hx
  have hafter : T.removedAfterCommit = T.dependents := by
    unfold Topology.removedAfterCommit
    rw [hcomponents, List.nil_append]
    split <;> rfl
  unfold Topology.batchWriteIfUnchanged Topology.requireAuthority
  rw [hauthority, hcomponents]
  simp only [pure_bind]
  split
  · exact Moves.raise _
  refine hclosed.bind (hclosed.forM fun t ht => absurd ht List.not_mem_nil) fun _ => ?_
  refine hclosed.bind (fun x hx => moves_runCommitting hwrite _ _ x.media hx) fun written => ?_
  refine hclosed.bind ?_ fun _ => hclosed.pure _
  unfold Topology.afterConditional
  refine hclosed.bind (hclosed.when (hclosed.forM fun t ht => ?_)) fun _ => hclosed.forM fun t ht => ?_
  · rw [hafter] at ht
    exact hsyncOne t ht _ _
  · exact hclosed.forM fun g _ => hsyncOne t ht _ _

/-- Where nothing but the authority is written, and its batch always returns, the batch of the
    node is the authority's. -/
theorem conditional_alone {authority : AnyTarget S K V Q} (hauthority : T.authority = some authority)
    (hcomponents : T.components = []) (hdependents : T.dependents = []) (ws : Dict K (ConditionalWrite V))
    (o : WriteOptions)
    (hreturns : ∀ s, ∃ written s', authority.batchWriteIfUnchanged (Topology.received authority ws) o s =
      (.ok written, s')) :
    T.batchWriteIfUnchanged ws o =
      Node.onMedia (authority.batchWriteIfUnchanged (Topology.received authority ws) o) := by
  have hreplaced : T.replaced ws = [] := by
    unfold Topology.replaced
    rw [hcomponents]
    rfl
  have hafter : ∀ written, T.afterConditional ws o written = pure () := by
    intro written
    have hremoved : T.removedAfterCommit = [] := by
      unfold Topology.removedAfterCommit
      rw [hcomponents, hdependents]
      split <;> rfl
    unfold Topology.afterConditional
    rw [hremoved, hdependents]
    unfold Prog.when
    split <;> rfl
  unfold Topology.batchWriteIfUnchanged Topology.requireAuthority
  rw [hauthority, hcomponents]
  simp only [pure_bind, hreplaced, hafter]
  rw [if_neg (not_not.mpr rfl)]
  funext x
  obtain ⟨written, s', hrun⟩ := hreturns x.media
  have hcommit : runCommitting authority.name authority.role
      (authority.batchWriteIfUnchanged (Topology.received authority ws) o) x.media = (.ok written, s') := by
    unfold runCommitting
    exact catching_ok hrun
  have hnode := Node.onMedia_apply (runCommitting authority.name authority.role
    (authority.batchWriteIfUnchanged (Topology.received authority ws) o)) x
  rw [hcommit] at hnode
  have hplain := Node.onMedia_apply (authority.batchWriteIfUnchanged (Topology.received authority ws) o) x
  rw [hrun] at hplain
  rw [hplain]
  exact bind_ok hnode

end Nodes

/-! ## What a nest keeps -/

/-- The store's requests of a fill keep what is held: its checks, its inserts and its pages. -/
structure KeepsHeld {σ K V : Type} [DecidableEq K] (s : KvStore σ K V) (pages : Nat → PageGenerator σ K V)
    (P : σ → Prop) : Prop where
  batchExists : ∀ ks, Moves (Keeping P) (s.batchExists ks)
  insert : ∀ ws, OnlyInserts ws → Moves (Keeping P) (s.batchWriteIfUnchanged ws none)
  pages : ∀ pageSize, ∃ good, (pages pageSize).Keeps P good

namespace KeepsHeld

section Views

variable {σ K SK V U : Type} [DecidableEq K] [DecidableEq SK] {P : σ → Prop}

theorem imap {s : KvStore σ K V} {pages : Nat → PageGenerator σ K V} (h : KeepsHeld s pages P)
    (forward : V → U) (inverse : U → V) :
    KeepsHeld (imapStore s forward inverse) (fun pageSize => (pages pageSize).map (MissingPage.mapValues forward))
      P where
  batchExists := h.batchExists
  insert ws hws := by
    refine h.insert _ (hws.map (inverseWrite inverse) (fun _ => rfl) fun w v hw => ⟨inverse v, ?_⟩)
    unfold inverseWrite
    rw [hw]
  pages pageSize := by
    obtain ⟨good, hgood⟩ := h.pages pageSize
    exact ⟨good, hgood.map fun page hpage =>
      ⟨hpage.nodup, fun ks => Moves.map (hpage.read ks), hpage.stat⟩⟩

omit [DecidableEq K] in
/-- The writes a key view passes on are those it was given. -/
theorem get?_rekeyed {β : Type} (toStore : K → SK) (es : List (K × β)) (d : Dict SK β) {sk : SK} {w : β}
    (h : (es.foldl (fun d e => d.set (toStore e.1) e.2) d).get? sk = some w) :
    d.get? sk = some w ∨ ∃ k, (k, w) ∈ es := by
  induction es generalizing d with
  | nil => exact .inl h
  | cons e es ih =>
    rcases ih _ h with hset | ⟨k, hk⟩
    · rw [Dict.get?_set] at hset
      split at hset
      · exact .inr ⟨e.1, by rw [← Option.some.inj hset]; exact List.mem_cons_self⟩
      · exact .inl hset
    · exact .inr ⟨k, List.mem_cons_of_mem _ hk⟩

theorem imapKeys {s : KvStore σ SK V} {pages : Nat → PageGenerator σ SK V} (h : KeepsHeld s pages P)
    (toStore : K → SK) {fromStore : SK → K} (hinj : Function.Injective fromStore) :
    KeepsHeld (imapKeysStore s toStore (some fromStore))
      (fun pageSize => (pages pageSize).map (MissingPage.mapKeys fromStore)) P where
  batchExists ks := Moves.bind (h.batchExists _) fun _ => Moves.pure _
  insert ws hws := by
    refine Moves.bind (h.insert _ fun e he => ?_) fun _ => Moves.pure _
    rcases get?_rekeyed toStore ws.entries Dict.empty (Dict.mem_entries.mp he) with hempty | ⟨k, hk⟩
    · cases hempty
    · exact hws (k, e.2) hk
  pages pageSize := by
    obtain ⟨good, hgood⟩ := h.pages pageSize
    exact ⟨good, hgood.map fun page hpage => ⟨hpage.nodup.map hinj,
      fun ks => Moves.bind (hpage.read _) fun _ => Moves.pure _,
      fun ks => Moves.bind (hpage.stat _) fun _ => Moves.pure _⟩⟩

end Views

variable {K V Q : Type} [DecidableEq K] [DecidableEq V] {n m : Nat} {part : Fin n → Composition K V}
  {I : Fin m → Type} {i : Fin n} {P : (part i).State → Prop} {d : Declared}
  {T : Topology (Media (fun i => (part i).State) I) K V Q}

/-- A node whose authority is one of its children. The others it lists, or writes after it. -/
theorem node {pages : Nat → PageGenerator (part i).State K V} (h : KeepsHeld (part i).store pages P)
    (hrole : d.role = .authority)
    (hwhole : T.assembled = false) (hcomponents : T.components = [])
    (hauthority : T.authority = some ((Nesting.childTarget part I d i).upcast Sum.inl))
    (hlookups : ∀ t ∈ T.lookups, t = Nesting.childTarget part I d i ∨
      ∃ j d', i ≠ j ∧ t = Nesting.childTarget part I d' j ∧ ScansOnce (part j).store)
    (hsync : ∀ t ∈ T.dependents, ∀ op : SyncOp K V, Moves (Keeping fun s => P (s.1 i)) (op.on t))
    (typeName : String) :
    KeepsHeld (T.store typeName) (fun pageSize => Nesting.nodePages part T d i (pages pageSize) pageSize)
      fun x => P (x.media.1 i) where
  batchExists ks := by
    have hmedia : Moves (Keeping fun s : Media (fun i => (part i).State) I => P (s.1 i)) (T.batchExists ks) := by
      refine batchExists_keeps hwhole (fun t ht ks => ?_) ks
      rcases hlookups t ht with rfl | ⟨j, d', hij, rfl, honce⟩
      · exact PageGenerator.moves_zoom (l := Media.child i) (h.batchExists ks)
      · exact (behind_keepsListed hij d' honce).batchExists ks
    exact fun x hx => hmedia x.media hx
  insert ws hws := by
    refine Moves.bind (Moves.forM fun e _ => ?_) fun _ => ?_
    · unfold Topology.admitWrite requireWriteClockSupported
      split
      · exact Moves.raise _
      · exact Moves.pure _
    split
    · exact Moves.pure _
    refine conditional_keeps hauthority hcomponents ws _ ?_ hsync
    have hreceived : OnlyInserts (Topology.received ((Nesting.childTarget part I d i).upcast
        (Sum.inl : V → V ⊕ Q)) ws) := by
      unfold Topology.received
      split
      · exact hws
      · exact hws.map (fun w => { w with createdAt := none }) (fun _ => rfl) fun w v hw => ⟨v, hw⟩
    generalize Topology.received ((Nesting.childTarget part I d i).upcast (Sum.inl : V → V ⊕ Q)) ws = ws'
      at hreceived ⊢
    have hunseen : OnlyInserts (unseen ws') :=
      hreceived.map (fun w => { w with seen := ⟨none, w.seen.version⟩ }) (fun _ => rfl) fun w v hw => ⟨v, hw⟩
    show Moves _ ((Nesting.childTarget part I d i).batchWriteIfUnchanged ws' _)
    rw [childTarget_conditional]
    refine PageGenerator.moves_zoom (l := Media.child i) ?_
    exact h.insert _ hunseen
  pages pageSize := by
    obtain ⟨good, hgood⟩ := h.pages pageSize
    have hchild := (hgood.zoom (l := (Media.child i : Lens (Media (fun i => (part i).State) I) _))).map
      (f := Target.mapPage id) fun page hpage =>
        ⟨hpage.nodup, fun ks => Moves.map (hpage.read ks), hpage.stat⟩
    refine ⟨_, (pageGenerator_keeps hchild (fun ks => ?_) (fun t ht hfallback => ?_) pageSize).zoom⟩
    · exact PageGenerator.moves_zoom (l := Media.child i) (h.batchExists ks)
    · rcases hlookups t ht with rfl | ⟨j, d', hij, rfl, honce⟩
      · have hauthority' : d.role = .fallback := hfallback
        rw [hrole] at hauthority'
        cases hauthority'
      · exact behind_keepsListed hij d' honce

end KeepsHeld

namespace Nesting

section Nodes

variable {K V Q : Type} [DecidableEq K] [DecidableEq V] {n m : Nat} {part : Fin n → Composition K V}

theorem node_scan_once {I : Fin m → Type} {i : Fin n} {T : Topology (Media (fun i => (part i).State) I) K V Q}
    {d : Declared} (hauthority : T.wholeAuthority = some (childTarget part I d i))
    (honce : ScansOnce (part i).store) (typeName : String) : ScansOnce (T.store typeName) := by
  intro includeValues pageSize x rows h
  have hscan : (T.scanEntries ⟨none, includeValues, pageSize⟩ x.media).1 = .ok rows := h
  unfold Topology.scanEntries at hscan
  rw [hauthority] at hscan
  obtain ⟨rows', hrows, rfl⟩ := map_ok hscan
  rw [List.map_map]
  exact honce _ _ (x.media.1 i) rows' hrows

/-- What follows a commit happens in other children than the authority's. -/
theorem sync_keeps (part : Fin n → Composition K V) {declared : Fin n → Declared}
    {shape : ∀ _ : Fin n, Shape V Q V} {index : Fin m → IndexLeaf K V} {policy : Option SyncPolicy} {i : Fin n} (hrole : (declared i).role = .authority)
    {P : (part i).State → Prop} :
    ∀ t ∈ (Composition.topologyOf part declared shape index policy none).dependents, ∀ op : SyncOp K V,
      Moves (Keeping fun s => P (s.1 i)) (op.on t) := by
  intro t ht op
  obtain ⟨hall, hdependent⟩ := OpSteps.mem_dependents.mp ht
  rw [all_eq] at hall
  obtain ⟨p, -, rfl⟩ := List.mem_map.mp hall
  rw [nodeTarget_role] at hdependent
  have hp : p ≠ some i := by
    rintro rfl
    have hauthority : (declared i).role = .dependent := hdependent
    rw [hrole] at hauthority
    cases hauthority
  intro s hs
  have hsame := on_keeps_child (fun i => (part i).store) declared shape (fun j => (index j).index) policy op hp s
  exact cast (congrArg P hsame.symm) hs

end Nodes

/-- A scan of a nest lists each key once where its leaves do. -/
theorem scan_once {K V : Type} (n : Nesting K V) :
    ∀ [DecidableEq K], n.ListsOnce → ScansOnce n.store := by
  induction n with
  | leaf l => exact fun h => h.once
  | imap n forward inverse ih =>
    intro _ h _ _ x rows hrows
    obtain ⟨rows', hrows', rfl⟩ := map_ok hrows
    rw [List.map_map]
    exact ih h _ _ x rows' hrows'
  | imapKeys dec n toStore fromStore ih =>
    intro _ ⟨hinj, h⟩ includeValues pageSize x rows hrows
    obtain ⟨rows', hrows', heq⟩ := map_ok (m := n.store.scanEntries ⟨none, includeValues, pageSize⟩) hrows
    have hnodup := (ih h _ _ x rows' hrows').map hinj
    rw [← heq, List.map_map]
    rw [List.map_map] at hnodup
    exact hnodup
  | fallbackRead dec primary secondary promote ihp ihs =>
    intro _ ⟨h, _⟩
    exact node_scan_once rfl (ihp h) "CoalescedKvStore"
  | mirror dec primary secondary syncPolicy ihp ihs =>
    intro _ h
    exact node_scan_once rfl (ihp h) "MirrorKvStore"
  | indexed dec underlying indexes syncPolicy ih =>
    intro _ h
    exact node_scan_once rfl (ih h) "IndexedKvStore"

/-- The requests a fill makes of a nest keep what is held of the leaf at the bottom. -/
theorem keepsHeld {K V : Type} (n : Nesting K V) :
    ∀ [DecidableEq K], n.ListsOnce → ∀ P, n.bottom.leaf.Keeps P →
      KeepsHeld n.store (fun pageSize => n.pages pageSize) fun x => P (n.atBottom x) := by
  induction n with
  | leaf l =>
    intro _ hlists P hkeeps
    refine ⟨hkeeps.batchExists, hkeeps.insert, fun pageSize => ?_⟩
    have hlacks : ∀ x, l.store.missingPages pageSize x = (.ok [], x) := hlists.lacks pageSize
    refine ⟨fun p => p = none ∨ p = some [], .inl rfl, fun p hp => ?_, fun p x page q y hp hn => ?_⟩
    · rcases hp with rfl | rfl
      · refine Moves.map (m := l.store.missingPages pageSize) fun x hx => ?_
        rw [hlacks]
        exact hx
      · exact Moves.pure _
    · rcases hp with rfl | rfl
      · obtain ⟨pages, hpages, heq⟩ := map_eq_ok (m := l.store.missingPages pageSize) hn
        obtain ⟨hnone, -⟩ := Prod.mk.inj ((hlacks x).symm.trans hpages)
        rw [← Except.ok.inj hnone] at heq
        cases heq
        exact ⟨.inr rfl, fun r hr => by cases hr⟩
      · cases hn
  | imap n forward inverse ih =>
    intro _ hlists P hkeeps
    exact (ih hlists P hkeeps).imap forward inverse
  | imapKeys dec n toStore fromStore ih =>
    intro _ ⟨hinj, hlists⟩ P hkeeps
    exact (ih hlists P hkeeps).imapKeys toStore hinj
  | fallbackRead dec primary secondary promote ihp ihs =>
    intro _ ⟨hlists, hlists'⟩ P hkeeps
    let child := both primary.composition secondary.composition
    let T := Composition.topologyOf (P := Empty) child (fallbackDeclared promote) (fun _ => .whole)
      (Fin.elim0 : Fin 0 → IndexLeaf _ _) none none
    have hlookups : T.lookups = [childTarget child _ (fallbackDeclared promote 0) 0,
        childTarget child _ (fallbackDeclared promote 1) 1] := rfl
    have hprimary : KeepsHeld (child 0).store (fun pageSize => primary.pages pageSize)
        (fun x => P (primary.atBottom x)) := ihp hlists P hkeeps
    refine KeepsHeld.node (i := 0) (T := T) (d := fallbackDeclared promote 0) hprimary rfl rfl rfl rfl
      (fun t ht => ?_) (sync_keeps child (i := 0) (P := fun x => P (primary.atBottom x)) rfl) "CoalescedKvStore"
    rw [hlookups] at ht
    rcases List.mem_pair.mp ht with ht | ht
    · exact .inl ht
    · exact .inr ⟨1, fallbackDeclared promote 1, by decide, ht, scan_once secondary hlists'⟩
  | mirror dec primary secondary syncPolicy ihp ihs =>
    intro _ hlists P hkeeps
    let child := both primary.composition secondary.composition
    let T := Composition.topologyOf (P := Empty) child (mirrorDeclared syncPolicy) (fun _ => .whole)
      (Fin.elim0 : Fin 0 → IndexLeaf _ _) none none
    have hlookups : T.lookups = [childTarget child _ (mirrorDeclared syncPolicy 0) 0] := rfl
    have hprimary : KeepsHeld (child 0).store (fun pageSize => primary.pages pageSize)
        (fun x => P (primary.atBottom x)) := ihp hlists P hkeeps
    refine KeepsHeld.node (i := 0) (T := T) (d := mirrorDeclared syncPolicy 0) hprimary rfl rfl rfl rfl
      (fun t ht => ?_) (sync_keeps child (i := 0) (P := fun x => P (primary.atBottom x)) rfl) "MirrorKvStore"
    rw [hlookups] at ht
    exact .inl (List.mem_singleton.mp ht)
  | indexed dec underlying indexes syncPolicy ih =>
    intro _ hlists P hkeeps
    let T := Composition.topologyOf (P := Empty) (fun _ : Fin 1 => underlying.composition) indexedDeclared
      (fun _ => .whole) indexes (some syncPolicy) none
    have hlookups : T.lookups = [childTarget (fun _ : Fin 1 => underlying.composition) _ (indexedDeclared 0) 0] :=
      rfl
    refine KeepsHeld.node (i := 0) (T := T) (d := indexedDeclared 0) (ih hlists P hkeeps) rfl rfl rfl rfl
      (fun t ht => ?_)
      (sync_keeps (fun _ => underlying.composition) (i := 0) (P := fun x => P (underlying.atBottom x)) rfl)
      "IndexedKvStore"
    rw [hlookups] at ht
    exact .inl (List.mem_singleton.mp ht)

/-- A listing of a nest comes to its end. -/
theorem pages_end {K V : Type} (n : Nesting K V) :
    ∀ [DecidableEq K] (pageSize : Nat), Acc (n.pages pageSize).After (n.pages pageSize).start := by
  have hnode : ∀ {K V Q : Type} [DecidableEq K] [DecidableEq V] {n m : Nat} (part : Fin n → Composition K V)
      {I : Fin m → Type} (T : Topology (Media (fun i => (part i).State) I) K V Q) (d : Declared) (i : Fin n)
      {g : PageGenerator (part i).State K V} (pageSize : Nat), Acc g.After g.start →
      Acc (nodePages part T d i g pageSize).After (nodePages part T d i g pageSize).start :=
    fun part _ T d i _ pageSize h => PageGenerator.acc_zoom
      (PageGenerator.acc_below T (childTarget part _ d i) pageSize
        (PageGenerator.acc_map (PageGenerator.acc_zoom h)))
  induction n with
  | leaf l => exact fun _ => PageGenerator.acc_ofPages _
  | imap n forward inverse ih => exact fun pageSize => PageGenerator.acc_map (ih pageSize)
  | imapKeys dec n toStore fromStore ih => exact fun pageSize => PageGenerator.acc_map (ih pageSize)
  | fallbackRead dec primary secondary promote ihp ihs => exact fun pageSize => hnode _ _ _ _ pageSize (ihp pageSize)
  | mirror dec primary secondary syncPolicy ihp ihs => exact fun pageSize => hnode _ _ _ _ pageSize (ihp pageSize)
  | indexed dec underlying indexes syncPolicy ih => exact fun pageSize => hnode _ _ _ _ pageSize (ih pageSize)

section Filled

variable {K V : Type} [DecidableEq K]

/-- What a fill of the nest works with, among other clients. -/
def filling (n : Nesting K V) (batch : Dict K (ConditionalWrite V) → M (Among n.State) (Finset K)) (pageSize : Nat) :
    Filling (Among n.State) K V :=
  ⟨(n.pages pageSize).amid, n.store.supportsWriteClock, batch⟩

/-- `set_if_absent` of the nest, among other clients. -/
def insertAmid (n : Nesting K V) (key : K) (value : V) (createdAt : Option Instant) : M (Among n.State) Bool :=
  amid (n.store.setIfAbsent key value ⟨none, createdAt⟩)

variable {n : Nesting K V} {batch : Dict K (ConditionalWrite V) → M (Among n.State) (Finset K)}

theorem fill_eq (hlists : n.ListsOnce) (hatomic : AtomicPerKey n.store.toKeyMap batch) (fuel : Nat)
    (asked : Option Int) (batchSize : Int) (limit : Option Int) :
    Filling.fillMissing (n.filling batch) fuel asked batchSize limit =
      Filling.fillKeyByKey n.insertAmid (n.filling batch) fuel asked batchSize limit := by
  unfold Filling.fillMissing Filling.fillKeyByKey Filling.fillBy
  split
  · rfl
  refine bind_congr fun pageSize => ?_
  have hbottom : n.bottom.leaf.Keeps fun _ => True := ⟨fun _ _ _ => trivial, fun _ _ _ _ => trivial⟩
  obtain ⟨good, hgood⟩ := (keepsHeld n hlists _ hbottom).pages pageSize
  refine Filling.fillPages_congr (f := n.filling batch pageSize) hgood.amid (fun read listed s hn => ?_) fuel _ _
    hgood.start
  exact Filling.copyPage_eq (f := n.filling batch pageSize) hatomic.perKey limit read listed s hn

/-- A fill that gets past the checks of its arguments is the run over its pages. -/
theorem fillKeyByKey_run {fuel : Nat} {asked limit : Option Int} {batchSize : Int} {s s' : Among n.State}
    {stats : Option FillStats}
    (h : Filling.fillKeyByKey n.insertAmid (n.filling batch) fuel asked batchSize limit s = (.ok stats, s')) :
    (∀ l, limit = some l → 1 ≤ l) ∧ ∃ pageSize, Filling.fillPages (n.filling batch pageSize)
      (Filling.copyEachKey n.insertAmid limit) fuel (n.filling batch pageSize).pages.start .zero s =
        (.ok stats, s') := by
  unfold Filling.fillKeyByKey Filling.fillBy at h
  split at h
  · cases h
  next hlimit =>
  unfold Filling.pageSizeOf at h
  split at h
  · cases h
  · refine ⟨fun l hl => ?_, _, h⟩
    rw [hl] at hlimit
    have hlt : ¬ l < 1 := fun hlt => hlimit (decide_eq_true hlt)
    omega

theorem insertAmid_keeps (hlists : n.ListsOnce) {P : n.bottom.leaf.State → Prop}
    (hbottom : n.bottom.leaf.Keeps P) (key : K) (value : V) (createdAt : Option Instant) :
    Moves (Keeping (Undisturbed fun x => P (n.atBottom x))) (n.insertAmid key value createdAt) := by
  refine amid_keeps (Moves.bind ((keepsHeld n hlists P hbottom).insert _ fun e he => ?_) fun _ => Moves.pure _)
  rw [List.mem_singleton.mp he]
  exact ⟨rfl, value, rfl⟩

/-- Copying in what a nest lacks, in batches, is copying it key by key in order until the limit is
    reached: whatever the other clients do, the counts, the errors and the states are the same. It
    comes to an end, its counts add up and stay within the limit, and a value the medium shows
    stays as it is where no other client disturbs it. -/
theorem fillMissing_keyByKey (n : Nesting K V) (hlists : n.ListsOnce)
    (hkeeps : ∀ k v, n.bottom.leaf.Keeps (n.bottom.leaf.Shows k v))
    (batch : Dict K (ConditionalWrite V) → M (Among n.State) (Finset K))
    (hatomic : AtomicPerKey n.store.toKeyMap batch) (asked : Option Int) (batchSize : Int) (limit : Option Int)
    (s : Among n.State) :
    (∀ fuel, Filling.fillMissing (n.filling batch) fuel asked batchSize limit s =
      Filling.fillKeyByKey n.insertAmid (n.filling batch) fuel asked batchSize limit s) ∧
    (∃ enough, ∀ fuel, enough ≤ fuel →
      (Filling.fillMissing (n.filling batch) fuel asked batchSize limit s).1 ≠ .ok none) ∧
    (∀ fuel stats s', Filling.fillMissing (n.filling batch) fuel asked batchSize limit s = (.ok (some stats), s') →
      (∀ l, limit = some l → (stats.written : Int) ≤ l) ∧
        stats.missing = stats.written + stats.lostRace + stats.sourceMiss) ∧
    ∀ fuel k v, Undisturbed (fun x => n.bottom.leaf.Shows k v (n.atBottom x)) s →
      n.bottom.leaf.Shows k v
        (n.atBottom (Filling.fillMissing (n.filling batch) fuel asked batchSize limit s).2.1) := by
  have hsame := fun fuel => fill_eq hlists hatomic fuel asked batchSize limit
  refine ⟨fun fuel => by rw [hsame], ?_, fun fuel stats s' hrun => ?_, fun fuel k v hheld => ?_⟩
  · simp only [hsame]
    unfold Filling.fillKeyByKey Filling.fillBy Filling.pageSizeOf
    split
    · exact ⟨0, fun _ _ h => by cases h⟩
    split
    · exact ⟨0, fun _ _ h => by cases h⟩
    · simp only [pure_bind]
      exact Filling.fillPages_ends (f := n.filling batch _) (PageGenerator.acc_amid (n.pages_end _)) _ _
  · rw [hsame] at hrun
    obtain ⟨hlimit, pageSize, hpages⟩ := fillKeyByKey_run hrun
    have hzero : Filling.Counted limit .zero :=
      ⟨fun l hl => Int.le_trans (by decide) (hlimit l hl), rfl⟩
    have hcounted := Filling.fillPages_counts
      (fun read listed s x s' full y hs h => Filling.copyEachKey_counts hs h) hzero hpages
    exact ⟨hcounted.limited, hcounted.tried⟩
  · rw [hsame]
    have hheld' : Moves (Keeping (Undisturbed fun x => n.bottom.leaf.Shows k v (n.atBottom x)))
        (Filling.fillKeyByKey n.insertAmid (n.filling batch) fuel asked batchSize limit) := by
      unfold Filling.fillKeyByKey Filling.fillBy Filling.pageSizeOf
      split
      · exact Moves.raise _
      split
      · exact Moves.raise _
      · simp only [pure_bind]
        obtain ⟨good, hgood⟩ := (keepsHeld n hlists _ (hkeeps k v)).pages (asked.getD batchSize).toNat
        exact Filling.fillPages_keeps (f := n.filling batch _) hgood.amid
          (fun read listed s => Filling.copyEachKey_keeps (insertAmid_keeps hlists (hkeeps k v)) read listed s)
          fuel _ _ hgood.start
    exact (hheld' s hheld).1

end Filled

end Nesting

/-! ## Stores that insert key by key -/

/-- Alone, a batch is its inserts, one after another. -/
def PerKey {σ K V : Type} [DecidableEq K] (m : KeyMap σ K V) : Prop :=
  ∀ ws, m.batchWriteIfUnchanged ws none =
    eachConditional (fun k w => m.writeIfUnchanged k w.seen w.change ⟨none, w.createdAt⟩) ws

section Each

variable {σ τ K V : Type} [DecidableEq K]

theorem eachConditional_nil (write : K → ConditionalWrite V → M σ Bool) {ws : Dict K (ConditionalWrite V)}
    (h : ws.entries = []) : eachConditional write ws = pure ∅ := by
  unfold eachConditional
  rw [h]
  rfl

/-- A batch of one key is that key's write. -/
theorem eachConditional_single (write : K → ConditionalWrite V → M σ Bool) (k : K) (w : ConditionalWrite V) :
    (do return decide (k ∈ (← eachConditional write (Dict.single k w))) : M σ Bool) = write k w := by
  have hone : eachConditional write (Dict.single k w) = addWritten write ∅ (k, w) := bind_pure _
  rw [hone]
  unfold addWritten
  rw [bind_assoc]
  refine Eq.trans (bind_congr fun b => ?_) (bind_pure (write k w))
  cases b <;> simp

theorem zoom_eachConditional (l : Lens σ τ) (write : K → ConditionalWrite V → M τ Bool)
    (ws : Dict K (ConditionalWrite V)) :
    l.zoom (eachConditional write ws) = eachConditional (fun k w => l.zoom (write k w)) ws := by
  unfold eachConditional
  rw [Lens.zoom_foldlM]
  congr 1
  funext written e
  exact (Lens.zoom_bind l _ _).trans (bind_congr fun b => Lens.zoom_pure l _)

/-- Where no other client acts, inserts among other clients are the inserts. -/
theorem eachConditional_amid (write : K → ConditionalWrite V → M σ Bool) (ws : Dict K (ConditionalWrite V)) (x : σ) :
    eachConditional (fun k w => amid (write k w)) ws (x, []) =
      ((eachConditional write ws x).1, ((eachConditional write ws x).2, [])) := by
  have hfold : ∀ (es : List (K × ConditionalWrite V)) (written : Finset K) (x : σ),
      (es.foldlM (addWritten fun k w => amid (write k w)) written : M (Among σ) (Finset K)) (x, []) =
        (((es.foldlM (addWritten write) written : M σ (Finset K)) x).1,
          (((es.foldlM (addWritten write) written : M σ (Finset K)) x).2, [])) := by
    intro es
    induction es with
    | nil => exact fun _ _ => rfl
    | cons e es ih =>
      intro written x
      rw [List.foldlM_cons, List.foldlM_cons]
      rcases hb : write e.1 e.2 x with ⟨e' | b, y⟩
      · have hamid : addWritten (fun k w => amid (write k w)) written e (x, []) = (.error e', (y, [])) :=
          bind_error (m := amid (write e.1 e.2)) (by rw [amid_alone, hb])
        have hplain : addWritten write written e x = (.error e', y) := bind_error hb
        rw [bind_error hamid, bind_error hplain]
      · have hamid : addWritten (fun k w => amid (write k w)) written e (x, []) =
            (.ok (if b then insert e.1 written else written), (y, [])) :=
          bind_ok (m := amid (write e.1 e.2)) (by rw [amid_alone, hb])
        have hplain : addWritten write written e x = (.ok (if b then insert e.1 written else written), y) :=
          bind_ok hb
        rw [bind_ok hamid, bind_ok hplain, ih]
  exact hfold ws.entries ∅ x

/-- A store that inserts key by key does so atomically among other clients. -/
theorem PerKey.atomic {m : KeyMap σ K V} (h : PerKey m) : AtomicPerKey m (eachConditional fun k w =>
    amid (m.writeIfUnchanged k w.seen w.change ⟨none, w.createdAt⟩)) where
  alone ws x := by
    rw [eachConditional_amid, h]
  perKey _ := rfl

end Each

section PerKey

variable {K V Q : Type} [DecidableEq K] [DecidableEq V] {n m : Nat} (part : Fin n → Composition K V)
  {I : Fin m → Type} {i : Fin n} {d : Declared} {T : Topology (Media (fun i => (part i).State) I) K V Q}

/-- The batch of a node that writes nothing but one child, whose batch always returns. -/
theorem node_batch (hauthority : T.authority = some ((Nesting.childTarget part I d i).upcast Sum.inl))
    (hcomponents : T.components = []) (hdependents : T.dependents = []) (hclock : T.supportsWriteClock = true)
    (hown : (part i).store.supportsWriteClock = true)
    (hreturns : ∀ ws x, ∃ written y, (part i).store.batchWriteIfUnchanged ws none x = (.ok written, y))
    (typeName : String) {ws : Dict K (ConditionalWrite V)} (hws : ws.entries ≠ []) :
    (T.store typeName).batchWriteIfUnchanged ws none =
      Node.mediaLens.zoom ((Media.child i).zoom ((part i).store.batchWriteIfUnchanged (unseen ws) none)) := by
  have hopens : forM ws.entries (fun e => (T.admitWrite typeName ⟨none, e.2.createdAt⟩ :
      M (Node (Media (fun i => (part i).State) I) K V Q) Unit)) = pure () := by
    have hopen : ∀ o, (T.admitWrite typeName o : M (Node (Media (fun i => (part i).State) I) K V Q) Unit) =
        pure () := by
      intro o
      unfold Topology.admitWrite requireWriteClockSupported
      rw [if_neg fun h => h.2 hclock]
    simp only [hopen]
    induction ws.entries with
    | nil => rfl
    | cons e es ih => rw [List.forM_cons, ih, pure_bind]
  have hreceived : Topology.received ((Nesting.childTarget part I d i).upcast (Sum.inl : V → V ⊕ Q)) ws = ws := if_pos hown
  have hwrite : ((Nesting.childTarget part I d i).upcast (Sum.inl : V → V ⊕ Q)).batchWriteIfUnchanged ws ⟨none, none⟩ =
      (Media.child i).zoom ((part i).store.batchWriteIfUnchanged (unseen ws) none) :=
    childTarget_conditional d ws ⟨none, none⟩
  have hrun := conditional_alone hauthority hcomponents hdependents ws ⟨none, none⟩ fun s => by
    rw [hreceived, hwrite]
    obtain ⟨written, y, hrun⟩ := hreturns (unseen ws) (s.1 i)
    refine ⟨written, _, Prod.ext ?_ rfl⟩
    show ((part i).store.batchWriteIfUnchanged (unseen ws) none (s.1 i)).1 = _
    rw [hrun]
  rw [hreceived, hwrite] at hrun
  show (forM ws.entries (fun e => T.admitWrite typeName ⟨none, e.2.createdAt⟩) >>= fun _ =>
    if ws.entries.isEmpty then pure ∅ else T.batchWriteIfUnchanged ws ⟨none, none⟩) = _
  rw [hopens, pure_bind, if_neg (by rw [List.isEmpty_iff]; exact hws), hrun]
  rfl

/-- A node inserts key by key where its child does, and decides by the versions alone. -/
theorem node_perKey (hauthority : T.authority = some ((Nesting.childTarget part I d i).upcast Sum.inl))
    (hcomponents : T.components = []) (hdependents : T.dependents = []) (hclock : T.supportsWriteClock = true)
    (hown : (part i).store.supportsWriteClock = true) {write : K → ConditionalWrite V → M (part i).State Bool}
    (hwrite : ∀ ws, (part i).store.batchWriteIfUnchanged (unseen ws) none = eachConditional write ws)
    (hreturns : ∀ ws x, ∃ written y, (part i).store.batchWriteIfUnchanged ws none x = (.ok written, y))
    (typeName : String) : PerKey (T.store typeName).toKeyMap := by
  let child : Lens (Media (fun i => (part i).State) I) (part i).State := Media.child i
  let lens : Lens (Node (Media (fun i => (part i).State) I) K V Q) (part i).State := Node.mediaLens.comp child
  have hbatch : ∀ ws : Dict K (ConditionalWrite V), ws.entries ≠ [] →
      (T.store typeName).batchWriteIfUnchanged ws none = lens.zoom (eachConditional write ws) := by
    intro ws hws
    rw [node_batch part hauthority hcomponents hdependents hclock hown hreturns typeName hws, hwrite]
    rfl
  have hone : ∀ k w, (T.store typeName).writeIfUnchanged k w.seen w.change ⟨none, w.createdAt⟩ =
      lens.zoom (write k w) := by
    intro k w
    have hsingle := hbatch (Dict.single k w) (List.cons_ne_nil _ _)
    show ((T.store typeName).batchWriteIfUnchanged (Dict.single k w) none >>= fun written =>
      pure (decide (k ∈ written))) = _
    rw [hsingle, ← eachConditional_single write k w]
    exact ((Lens.zoom_bind lens _ _).trans (bind_congr fun _ => Lens.zoom_pure lens _)).symm
  intro ws
  simp only [hone]
  by_cases hws : ws.entries = []
  · rw [eachConditional_nil _ hws]
    show (forM ws.entries (fun e => T.admitWrite typeName ⟨none, e.2.createdAt⟩) >>= fun _ =>
      if ws.entries.isEmpty then pure ∅ else T.batchWriteIfUnchanged ws ⟨none, none⟩) = _
    rw [hws]
    rfl
  · exact (hbatch ws hws).trans (zoom_eachConditional lens write ws)

end PerKey

/-! ## A memory store filled from another -/

section Memory

open MemoryKvBackend

variable {V : Type}

theorem rows_nodup {query : ScanQuery (List Char)} (hq : query.keyPrefix = none) {r : MemoryRoot Char V}
    {rows : List (List Char × Option V)} (h : ((plain V).scanEntries query r).1 = .ok rows) :
    (rows.map Prod.fst).Nodup := by
  rw [scanEntries_rows hq] at h
  rw [← Except.ok.inj h, map_fst_rows]
  exact (r.bucket (plain V).collection).nodup.filter _

theorem plain_lists : (Composition.memoryLeaf (plain V)).Lists :=
  ⟨fun _ _ => rfl, fun _ _ _ _ hrows => rows_nodup rfl hrows⟩

theorem plain_shows {k : List Char} {v : V} {r : MemoryRoot Char V} :
    (Composition.memoryLeaf (plain V)).Shows k v r ↔ shown r k = some v := by
  have hget : ((plain V).store.get k r).1 = .ok (shown r k) := (plain_answers r).get k
  constructor
  · intro h
    have hshown : ((plain V).store.get k r).1 = .ok (some v) := h
    rw [hget] at hshown
    exact Except.ok.inj hshown
  · intro h
    show ((plain V).store.get k r).1 = .ok (some v)
    rw [hget, h]

/-- An insert where nothing is held leaves what is shown. -/
theorem insert_shown {j k : List Char} {v : V} {w : ConditionalWrite V} (hseen : w.seen.version = none)
    {u : V} (hput : w.change = .put u) :
    Moves (Keeping fun r : MemoryRoot Char V => shown r k = some v) ((plain V).writeIfUnchanged none j w) := by
  intro r hr
  rw [(plain V).writeIfUnchanged_apply (f := id) (fun _ => rfl)]
  split
  · exact hr
  next hfree =>
  rw [hput]
  have hnone : (plain V).entryAt r j = none := by
    rw [hseen, not_not, Option.map_eq_none_iff] at hfree
    exact hfree
  have hne : k ≠ j := by
    rintro rfl
    unfold shown found at hr
    rw [hnone] at hr
    cases hr
  simp only
  rw [bind_ok ((plain V).set_apply (p := j) rfl u _ r)]
  show shown (r.put _ _ _ _ _) k = some v
  unfold shown found entryAt
  rw [MemoryRoot.get?_put, if_neg hne]
  exact hr

theorem plain_keeps (k : List Char) (v : V) :
    (Composition.memoryLeaf (plain V)).Keeps ((Composition.memoryLeaf (plain V)).Shows k v) where
  batchExists ks := by
    have hmoves : Moves (Keeping fun r : MemoryRoot Char V => shown r k = some v) ((plain V).batchExists ks) := by
      have hexists : ∀ j, Moves (Keeping fun r : MemoryRoot Char V => shown r k = some v)
          ((plain V).existsKey j) := by
        intro j r hr
        have hsame := (existsKey_shown j r).2
        unfold shown
        rw [hsame.2 k]
        exact hr
      refine Moves.foldlM (fun out j _ => Moves.bind (hexists j) fun held => ?_) ∅
      cases held <;> exact Moves.pure _
    exact fun r hr => plain_shows.mpr (hmoves r (plain_shows.mp hr))
  insert ws hws := by
    have hmoves : Moves (Keeping fun r : MemoryRoot Char V => shown r k = some v)
        (eachConditional ((plain V).writeIfUnchanged none) ws) := by
      refine Moves.foldlM (fun written e he => ?_) ∅
      obtain ⟨hseen, u, hput⟩ := hws e he
      exact Moves.bind (insert_shown hseen hput) fun _ => Moves.pure _
    exact fun r hr => plain_shows.mpr (hmoves r (plain_shows.mp hr))

theorem plain_returns (ws : Dict (List Char) (ConditionalWrite V)) (r : MemoryRoot Char V) :
    ∃ written r', eachConditional ((plain V).writeIfUnchanged none) ws r = (.ok written, r') := by
  obtain ⟨written, hwritten, -⟩ :=
    eachConditional_spec (fun k w r => (plain V).writesOne (f := id) (fun _ => rfl) none k w r) ws r
  exact ⟨written, _, Prod.ext hwritten rfl⟩

/-- A memory store decides by the version alone. -/
theorem plain_unseen (ws : Dict (List Char) (ConditionalWrite V)) :
    eachConditional ((plain V).writeIfUnchanged none) (unseen ws) =
      eachConditional ((plain V).writeIfUnchanged none) ws := by
  have hentries : (unseen ws).entries =
      ws.entries.map fun e => (e.1, { e.2 with seen := ⟨none, e.2.seen.version⟩ }) := by
    show List.filterMap (fun e => _) ws.entries = _
    rw [← List.filterMap_eq_map]
    rfl
  unfold eachConditional
  rw [hentries, List.foldlM_map]
  rfl

/-- A memory store, and behind it another. -/
def twoMemories : Nesting (List Char) String :=
  .fallbackRead inferInstance (.leaf (Composition.memoryLeaf (plain String)))
    (.leaf (Composition.memoryLeaf (plain String))) false

theorem twoMemories_perKey : PerKey twoMemories.store.toKeyMap := by
  let child : Fin 2 → Composition (List Char) String :=
    Nesting.both (.leaf (Composition.memoryLeaf (plain String))) (.leaf (Composition.memoryLeaf (plain String)))
  let T := Composition.topologyOf (P := Empty) child (Nesting.fallbackDeclared false) (fun _ => .whole)
    (Fin.elim0 : Fin 0 → IndexLeaf _ _) none none
  exact node_perKey child (i := 0) (T := T) (d := Nesting.fallbackDeclared false 0) rfl rfl rfl rfl rfl
    (plain_unseen (V := String)) (plain_returns (V := String)) "CoalescedKvStore"

/-- Nothing in the first, and `a` and `b` in the second. -/
def twoHeld : twoMemories.State :=
  Composition.pairState (MemoryRoot.empty 0)
    (((MemoryRoot.empty 0).put "items:v1" ['a'] "x" none 0).put "items:v1" ['b'] "y" none 0)

/-- What another client does to the first: it stores a value under `a`. -/
def storesFirst (x : twoMemories.State) : twoMemories.State :=
  (twoMemories.store.set ['a'] "z" WriteOptions.none x).2

/-- Another client stores `a` after the listing and before the copies. -/
def racing : Among twoMemories.State := (twoHeld, List.replicate 6 id ++ [storesFirst])

/-- Atomic inserts of the two, among other clients. -/
def twoBatch : Dict (List Char) (ConditionalWrite String) → M (Among twoMemories.State) (Finset (List Char)) :=
  eachConditional fun k w => amid (twoMemories.store.writeIfUnchanged k w.seen w.change ⟨none, w.createdAt⟩)

theorem fillMissing_keyByKey_racing :
    (∀ fuel, Filling.fillMissing (twoMemories.filling twoBatch) fuel (some 2) 100 (some 1) racing =
      Filling.fillKeyByKey twoMemories.insertAmid (twoMemories.filling twoBatch) fuel (some 2) 100 (some 1) racing) ∧
    (∃ enough, ∀ fuel, enough ≤ fuel →
      (Filling.fillMissing (twoMemories.filling twoBatch) fuel (some 2) 100 (some 1) racing).1 ≠ .ok none) ∧
    (∀ fuel stats s', Filling.fillMissing (twoMemories.filling twoBatch) fuel (some 2) 100 (some 1) racing =
        (.ok (some stats), s') →
      (∀ l, some 1 = some l → (stats.written : Int) ≤ l) ∧
        stats.missing = stats.written + stats.lostRace + stats.sourceMiss) ∧
    ∀ fuel k v, Undisturbed (fun x => twoMemories.bottom.leaf.Shows k v (twoMemories.atBottom x)) racing →
      twoMemories.bottom.leaf.Shows k v
        (twoMemories.atBottom
          (Filling.fillMissing (twoMemories.filling twoBatch) fuel (some 2) 100 (some 1) racing).2.1) :=
  Nesting.fillMissing_keyByKey twoMemories ⟨plain_lists, plain_lists⟩ plain_keeps twoBatch
    twoMemories_perKey.atomic (some 2) 100 (some 1) racing

end Memory

end Kvtsjl
