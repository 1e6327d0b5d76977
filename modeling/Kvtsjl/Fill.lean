import Kvtsjl.MissingKeys

/-
  `fill_missing`: copying in what a nest lacks.
  The pages are read one request at a time, so other clients may act between any two requests,
  and the copies of a page are made in batches no larger than the limit still allows.
  The argument for the batches is an induction over the listed keys of a page, with the
  copies gathered so far as its accumulator: a gathered copy may as well have been made when
  its key was met, since fewer copies are gathered than the limit has room for.
-/

namespace Kvtsjl

open Assoc (Dict)
open Effects Prog

/-! ## Pages, a request at a time -/

/-- What yields pages. Each step asks one store once, and may yield a page. -/
structure PageGenerator (σ K V : Type) where
  Place : Type
  start : Place
  next : Place → M σ (Option (Option (MissingPage σ K V) × Place))

namespace PageGenerator

variable {σ τ K L V U : Type}

def map (f : MissingPage σ K V → MissingPage σ L U) (g : PageGenerator σ K V) : PageGenerator σ L U where
  Place := g.Place
  start := g.start
  next p := Option.map (Prod.map (Option.map f) id) <$> g.next p

def zoom (l : Lens σ τ) (g : PageGenerator τ K V) : PageGenerator σ K V where
  Place := g.Place
  start := g.start
  next p := Option.map (Prod.map (Option.map (MissingPage.zoom l)) id) <$> l.zoom (g.next p)

/-- The pages of a store that answers with all of them. -/
def ofPages (pages : M σ (List (MissingPage σ K V))) : PageGenerator σ K V where
  Place := Option (List (MissingPage σ K V))
  start := none
  next
    | none => (fun ps => some (none, some ps)) <$> pages
    | some [] => pure none
    | some (page :: ps) => pure (some (some page, some ps))

/-- Where a composition is in its listing: at the pages of its authority, about to list the
    next fallback, or at a page of a fallback to check against the targets ahead of it. -/
inductive Within (B S K V : Type) where
  | below (place : B)
  | listing (ahead fallbacks : List (Target S K V V))
  | checking (pages : List (List K)) (ahead : List (Target S K V V)) (fallback : Target S K V V)
      (rest : List (Target S K V V))

end PageGenerator

/-- `missing_pages` of a composition. `below` yields the pages of its authority. -/
def Topology.pageGenerator {S K V P : Type} [DecidableEq K] (T : Topology S K V P)
    (authority : Target S K V V) (below : PageGenerator S K V) (pageSize : Nat) :
    PageGenerator S K V where
  Place := PageGenerator.Within below.Place S K V
  start := .below below.start
  next
    | .below place => (fun r => match r with
        | none => some (none, .listing [authority] (T.lookups.filter fun t => t.role = .fallback))
        | some (page, place) => some (page, .below place)) <$> below.next place
    | .listing _ [] => pure none
    | .listing ahead (fallback :: rest) =>
      (fun listed => some (none, .checking (listed.toChunks pageSize) ahead fallback rest)) <$>
        fallback.keys pageSize
    | .checking [] ahead fallback rest => pure (some (none, .listing (ahead ++ [fallback]) rest))
    | .checking (page :: pages) ahead fallback rest =>
      (fun absent => some (some ⟨page, absent, fallback.batchRead, fallback.batchStat⟩,
        .checking pages ahead fallback rest)) <$> Topology.absentFrom page ahead

namespace Nesting

/-- The children of a `fallback_read`, as it declares them. -/
def fallbackDeclared (promote : Bool) (i : Fin 2) : Declared :=
  match i with
  | 0 => ⟨"primary", .authority, none, promote, .required⟩
  | 1 => ⟨"secondary", .fallback, none, false, .required⟩

def mirrorDeclared (syncPolicy : SyncPolicy) (i : Fin 2) : Declared :=
  match i with
  | 0 => ⟨"primary", .authority, none, false, .required⟩
  | 1 => ⟨"secondary", .dependent, none, false, syncPolicy⟩

def indexedDeclared (_ : Fin 1) : Declared := ⟨"store", .authority, none, false, .required⟩

/-- The pages of a node over the generator of its first child. -/
def nodePages {K V P : Type} [DecidableEq K] [DecidableEq V] {n m : Nat} (part : Fin n → Composition K V)
    {I : Fin m → Type} (T : Topology (Media (fun i => (part i).State) I) K V P) (d : Declared) (i : Fin n)
    (g : PageGenerator (part i).State K V) (pageSize : Nat) :
    PageGenerator (Node (Media (fun i => (part i).State) I) K V P) K V :=
  (T.pageGenerator (childTarget part I d i) ((g.zoom (Media.child i)).map (Target.mapPage id))
    pageSize).zoom Node.mediaLens

/-- `missing_pages` of a nest. -/
def pages (pageSize : Nat) : {K V : Type} → [DecidableEq K] → (n : Nesting K V) →
    PageGenerator n.State K V
  | _, _, _, .leaf l => .ofPages (l.store.missingPages pageSize)
  | _, _, _, .imap n forward _ => (n.pages pageSize).map (MissingPage.mapValues forward)
  | _, _, _, .imapKeys _ n _ fromStore => (n.pages pageSize).map (MissingPage.mapKeys fromStore)
  | _, _, _, .fallbackRead _ primary secondary promote =>
    nodePages (both primary.composition secondary.composition)
      (Composition.topologyOf (P := Empty) (both primary.composition secondary.composition)
        (fallbackDeclared promote) (fun _ => .whole) Fin.elim0 none none)
      (fallbackDeclared promote 0) 0 (primary.pages pageSize) pageSize
  | _, _, _, .mirror _ primary secondary syncPolicy =>
    nodePages (both primary.composition secondary.composition)
      (Composition.topologyOf (P := Empty) (both primary.composition secondary.composition)
        (mirrorDeclared syncPolicy) (fun _ => .whole) Fin.elim0 none none)
      (mirrorDeclared syncPolicy 0) 0 (primary.pages pageSize) pageSize
  | _, _, _, .indexed _ underlying indexes syncPolicy =>
    nodePages (fun _ : Fin 1 => underlying.composition)
      (Composition.topologyOf (P := Empty) (fun _ : Fin 1 => underlying.composition)
        indexedDeclared (fun _ => .whole) indexes (some syncPolicy) none)
      (indexedDeclared 0) 0 (underlying.pages pageSize) pageSize

end Nesting

/-! ## The fill -/

/-- What a run saw and did, key by key. -/
structure FillStats where
  scanned : Nat
  missing : Nat
  written : Nat
  lostRace : Nat
  sourceMiss : Nat
deriving DecidableEq

namespace FillStats

def zero : FillStats := ⟨0, 0, 0, 0, 0⟩

def scan (s : FillStats) : FillStats := { s with scanned := s.scanned + 1 }

def miss (s : FillStats) : FillStats := { s with missing := s.missing + 1 }

def gone (s : FillStats) : FillStats := { s with sourceMiss := s.sourceMiss + 1 }

/-- After `tried` copies, of which `won` were written. -/
def settle (s : FillStats) (tried won : Nat) : FillStats :=
  { s with written := s.written + won, lostRace := s.lostRace + (tried - won) }

/-- The limit allows no more copies. -/
def reached (limit : Option Int) (s : FillStats) : Bool :=
  match limit with
  | none => false
  | some n => decide (n ≤ s.written)

/-- How many copies the limit still allows. -/
def budget (limit : Option Int) (s : FillStats) : Option Int := limit.map fun n => n - s.written

end FillStats

/-- What was read for a page: its missing keys, and the values and clocks of these. -/
structure PageRead (K V : Type) where
  wanted : List K
  found : Dict K V
  clocks : Dict K RecordStat

/-- What a fill works with: the store's pages, whether it keeps write clocks, and its
    conditional write. -/
structure Filling (σ K V : Type) where
  pages : PageGenerator σ K V
  supportsWriteClock : Bool
  batchWriteIfUnchanged : Dict K (ConditionalWrite V) → M σ (Finset K)

namespace Filling

variable {σ K V : Type} [DecidableEq K]

/-- The copy of a value, made where the store holds nothing. -/
def copyOf (page : PageRead K V) (key : K) (value : V) : ConditionalWrite V :=
  ⟨Versioned.absent, .put value, (page.clocks.get? key).bind RecordStat.writeClock⟩

/-- The next copies of a page, at most as many as the budget: the keys left over, the counts
    and the copies. -/
def gather (page : PageRead K V) (budget : Option Int) :
    List K → FillStats → Dict K (ConditionalWrite V) →
      List K × FillStats × Dict K (ConditionalWrite V)
  | [], s, copies => ([], s, copies)
  | key :: listed, s, copies =>
    if key ∉ page.wanted then gather page budget listed s.scan copies
    else
      match page.found.get? key with
      | none => gather page budget listed s.scan.miss.gone copies
      | some value =>
        let copies := copies.set key (copyOf page key value)
        if budget.any fun n : Int => n ≤ copies.entries.length then (listed, s.scan.miss, copies)
        else gather page budget listed s.scan.miss copies

/-- What gathering leaves over is the end of what is listed. -/
theorem gather_suffix (page : PageRead K V) (budget : Option Int) (listed : List K) (s : FillStats)
    (copies : Dict K (ConditionalWrite V)) : (gather page budget listed s copies).1 <:+ listed := by
  induction listed generalizing s copies with
  | nil => exact List.suffix_refl []
  | cons key listed ih =>
    have hrest : ∀ s copies, (gather page budget listed s copies).1 <:+ key :: listed :=
      fun s copies => (ih s copies).trans (List.suffix_cons key listed)
    rw [gather]
    split
    · exact hrest _ _
    · split
      · exact hrest _ _
      · simp only
        split
        · exact List.suffix_cons key listed
        · exact hrest _ _

/-- Each round of gathering takes a key off the page. -/
theorem gather_lt (page : PageRead K V) (budget : Option Int) (listed : List K) (s : FillStats)
    (h : (gather page budget listed s Dict.empty).2.2.entries ≠ []) :
    (gather page budget listed s Dict.empty).1.length < listed.length := by
  cases listed with
  | nil => exact absurd rfl h
  | cons key listed =>
    rw [gather]
    split
    · exact Nat.lt_succ_of_le (gather_suffix ..).length_le
    · split
      · exact Nat.lt_succ_of_le (gather_suffix ..).length_le
      · simp only
        split
        · exact Nat.lt_succ_self _
        · exact Nat.lt_succ_of_le (gather_suffix ..).length_le

/-- The copies of a page, a batch at a time. It also answers whether the limit was reached. -/
def copyPage (f : Filling σ K V) (limit : Option Int) (page : PageRead K V) (listed : List K)
    (s : FillStats) : M σ (FillStats × Bool) :=
  if s.reached limit then pure (s, true)
  else
    let next := gather page (s.budget limit) listed s Dict.empty
    if _ : next.2.2.entries = [] then pure (next.2.1, false)
    else do
      let won ← f.batchWriteIfUnchanged next.2.2
      copyPage f limit page next.1 (next.2.1.settle next.2.2.entries.length won.card)
termination_by listed.length
decreasing_by exact gather_lt page (s.budget limit) listed s ‹_›

/-- The copies of a page, a key at a time until the limit is reached. -/
def copyEachKey (setIfAbsent : K → V → Option Instant → M σ Bool) (limit : Option Int) (page : PageRead K V) :
    List K → FillStats → M σ (FillStats × Bool)
  | [], s => pure (s, s.reached limit)
  | key :: listed, s =>
    if s.reached limit then pure (s, true)
    else if key ∉ page.wanted then copyEachKey setIfAbsent limit page listed s.scan
    else
      match page.found.get? key with
      | none => copyEachKey setIfAbsent limit page listed s.scan.miss.gone
      | some value => do
        let won ← setIfAbsent key value ((page.clocks.get? key).bind RecordStat.writeClock)
        copyEachKey setIfAbsent limit page listed (s.scan.miss.settle 1 (if won then 1 else 0))

/-- What is read of a page before its copies are made. -/
def readPage (f : Filling σ K V) (page : MissingPage σ K V) : M σ (PageRead K V) := do
  let found ← (if page.missing.isEmpty then pure Dict.empty else page.read page.missing : M σ (Dict K V))
  let clocks ← (if found.entries.isEmpty || !f.supportsWriteClock then pure Dict.empty
    else page.stat found.keys : M σ (Dict K RecordStat))
  return ⟨page.missing, found, clocks⟩

/-- Each page in turn, until the limit is reached. `fuel` bounds the requests for pages. -/
def fillPages (f : Filling σ K V)
    (copy : PageRead K V → List K → FillStats → M σ (FillStats × Bool)) :
    Nat → f.pages.Place → FillStats → M σ (Option FillStats)
  | 0, _, _ => pure none
  | fuel + 1, place, s => do
    match ← f.pages.next place with
    | none => return some s
    | some (none, place) => fillPages f copy fuel place s
    | some (some page, place) =>
      let (s, full) ← copy (← f.readPage page) page.listed s
      if full then return some s else fillPages f copy fuel place s

/-- `_page_size`. -/
def pageSizeOf (asked : Option Int) (default : Int) : M σ Nat :=
  if asked.getD default < 1 then
    raise (.valueError ("page_size must be >= 1, got " ++ toString (asked.getD default)))
  else pure (asked.getD default).toNat

/-- A fill that makes the copies of a page by `copy`. -/
def fillBy (filling : Nat → Filling σ K V)
    (copy : Filling σ K V → Option Int → PageRead K V → List K → FillStats → M σ (FillStats × Bool))
    (fuel : Nat) (asked : Option Int) (batchSize : Int) (limit : Option Int) : M σ (Option FillStats) :=
  if limit.any fun n => n < 1 then
    raise (.valueError ("limit must be >= 1, got " ++ toString (limit.getD 0)))
  else do
    let pageSize ← pageSizeOf asked batchSize
    fillPages (filling pageSize) (copy (filling pageSize) limit) fuel (filling pageSize).pages.start .zero

/-- `fill_missing`. -/
def fillMissing (filling : Nat → Filling σ K V) (fuel : Nat) (asked : Option Int) (batchSize : Int)
    (limit : Option Int) : M σ (Option FillStats) :=
  fillBy filling copyPage fuel asked batchSize limit

/-- The listed missing keys copied one at a time, in order, until the limit is reached. -/
def fillKeyByKey (setIfAbsent : K → V → Option Instant → M σ Bool) (filling : Nat → Filling σ K V)
    (fuel : Nat) (asked : Option Int) (batchSize : Int) (limit : Option Int) : M σ (Option FillStats) :=
  fillBy filling (fun _ => copyEachKey setIfAbsent) fuel asked batchSize limit

/-! ## A batch no larger than the limit allows -/

section Batches

variable {write : K → ConditionalWrite V → M σ Bool} {x y : σ} {won : Finset K}

theorem foldlM_addWritten_subset {es : List (K × ConditionalWrite V)} {done : Finset K}
    (h : (es.foldlM (addWritten write) done : M σ (Finset K)) x = (.ok won, y)) :
    ∀ k ∈ won, k ∈ done ∨ k ∈ es.map Prod.fst := by
  induction es generalizing done x with
  | nil =>
    obtain ⟨hwon, -⟩ := Prod.mk.inj h
    intro k hk
    rw [← Except.ok.inj hwon] at hk
    exact .inl hk
  | cons e es ih =>
    rw [List.foldlM_cons] at h
    rcases hb : write e.1 e.2 x with ⟨e' | b, x'⟩
    · have hstep : addWritten write done e x = (.error e', x') := bind_error hb
      rw [bind_error hstep] at h
      cases h
    · have hstep : addWritten write done e x = (.ok (if b then insert e.1 done else done), x') := bind_ok hb
      rw [bind_ok hstep] at h
      intro k hk
      rw [List.map_cons]
      rcases ih h k hk with hdone | hrest
      · split at hdone
        · rcases Finset.mem_insert.mp hdone with heq | hdone
          · exact .inr (heq ▸ List.mem_cons_self)
          · exact .inl hdone
        · exact .inl hdone
      · exact .inr (List.mem_cons_of_mem _ hrest)

/-- Only keys of the batch are written. -/
theorem eachConditional_subset {ws : Dict K (ConditionalWrite V)}
    (h : eachConditional write ws x = (.ok won, y)) : ∀ k ∈ won, k ∈ ws.keys := by
  intro k hk
  rcases foldlM_addWritten_subset h k hk with hempty | hkeys
  · exact absurd hempty (Finset.notMem_empty k)
  · exact hkeys

theorem card_eachConditional {ws : Dict K (ConditionalWrite V)}
    (h : eachConditional write ws x = (.ok won, y)) : won.card ≤ ws.entries.length := by
  have hsub : won ⊆ ws.keys.toFinset := fun k hk => List.mem_toFinset.mpr (eachConditional_subset h k hk)
  calc won.card ≤ ws.keys.toFinset.card := Finset.card_le_card hsub
    _ ≤ ws.keys.length := List.toFinset_card_le _
    _ = ws.entries.length := List.length_map _

/-- A batch with one more key makes that copy after the others. -/
theorem eachConditional_set {ws : Dict K (ConditionalWrite V)} {k : K} (h : k ∉ ws.keys)
    (w : ConditionalWrite V) :
    eachConditional write (ws.set k w) = (do
      let won ← eachConditional write ws
      let b ← write k w
      return if b then insert k won else won) := by
  unfold eachConditional
  rw [Dict.entries_set h, List.foldlM_append]
  refine bind_congr fun won => ?_
  rw [List.foldlM_cons]
  exact bind_pure _

theorem copyEachKey_reached {ins : K → V → Option Instant → M σ Bool} {limit : Option Int} {s : FillStats}
    (h : s.reached limit = true) (page : PageRead K V) (listed : List K) :
    copyEachKey ins limit page listed s = pure (s, true) := by
  cases listed with
  | nil => rw [copyEachKey, h]
  | cons key listed => rw [copyEachKey, if_pos h]

/-- While fewer copies are gathered than the limit has room for, whichever of them are
    written the limit is not reached. -/
theorem not_reached {limit : Option Int} {s : FillStats} {tried won : Nat} (hwon : won ≤ tried)
    (hroom : ∀ n, limit = some n → (tried : Int) < n - s.written) :
    (s.settle tried won).reached limit = false := by
  cases limit with
  | none => rfl
  | some n =>
    have hn := hroom n rfl
    show decide (n ≤ ((s.written + won : Nat) : Int)) = false
    rw [decide_eq_false_iff_not]
    omega

/-- The copies gathered so far may as well have been made: what a fill does key by key after
    them, it does after all that `gather` adds. -/
theorem gather_spec (write : K → ConditionalWrite V → M σ Bool) (page : PageRead K V) (limit : Option Int)
    (listed : List K) (s : FillStats) (copies : Dict K (ConditionalWrite V)) (hn : listed.Nodup) (hfresh : ∀ k ∈ listed, k ∉ copies.keys)
    (hroom : ∀ n, limit = some n → (copies.entries.length : Int) < n - s.written) :
    (eachConditional write copies >>= fun won =>
      copyEachKey (fun k v createdAt => write k ⟨Versioned.absent, .put v, createdAt⟩) limit page listed
        (s.settle copies.entries.length won.card)) =
    let next := gather page (s.budget limit) listed s copies
    eachConditional write next.2.2 >>= fun won =>
      copyEachKey (fun k v createdAt => write k ⟨Versioned.absent, .put v, createdAt⟩) limit page next.1
        (next.2.1.settle next.2.2.entries.length won.card) := by
  induction listed generalizing s copies with
  | nil => rfl
  | cons key listed ih =>
    obtain ⟨hkey, hrest⟩ := List.nodup_cons.mp hn
    have hfresh' : ∀ k ∈ listed, k ∉ copies.keys := fun k hk => hfresh k (List.mem_cons_of_mem _ hk)
    rw [gather]
    by_cases hwanted : key ∉ page.wanted
    · rw [if_pos hwanted]
      refine Eq.trans ?_ (ih s.scan copies hrest hfresh' hroom)
      funext x
      refine bind_congr_at fun won y hwon => ?_
      rw [copyEachKey, not_reached (card_eachConditional hwon) hroom, if_neg Bool.false_ne_true,
        if_pos hwanted]
      rfl
    rw [if_neg hwanted]
    cases hfound : page.found.get? key with
    | none =>
      refine Eq.trans ?_ (ih s.scan.miss.gone copies hrest hfresh' hroom)
      funext x
      refine bind_congr_at fun won y hwon => ?_
      rw [copyEachKey, not_reached (card_eachConditional hwon) hroom, if_neg Bool.false_ne_true,
        if_neg hwanted]
      simp only [hfound]
      rfl
    | some value =>
      have hnew : key ∉ copies.keys := hfresh key List.mem_cons_self
      have hlength : (copies.set key (copyOf page key value)).entries.length =
          copies.entries.length + 1 := by
        rw [Dict.entries_set hnew, List.length_append]
        rfl
      -- the copy of this key, made after those gathered before it
      have hcopy : (eachConditional write copies >>= fun won =>
          copyEachKey (fun k v createdAt => write k ⟨Versioned.absent, .put v, createdAt⟩) limit page
            (key :: listed) (s.settle copies.entries.length won.card)) =
          eachConditional write (copies.set key (copyOf page key value)) >>= fun won =>
            copyEachKey (fun k v createdAt => write k ⟨Versioned.absent, .put v, createdAt⟩) limit page listed
              (s.scan.miss.settle (copies.set key (copyOf page key value)).entries.length won.card) := by
        rw [eachConditional_set hnew, bind_assoc]
        funext x
        refine bind_congr_at fun won y hwon => ?_
        have hcard := card_eachConditional hwon
        rw [copyEachKey, not_reached hcard hroom, if_neg Bool.false_ne_true, if_neg hwanted]
        simp only [hfound]
        rw [bind_assoc]
        refine bind_congr_at fun b z _ => ?_
        rw [pure_bind]
        have hsettle : (s.settle copies.entries.length won.card).scan.miss.settle 1 (if b then 1 else 0) =
            s.scan.miss.settle (copies.set key (copyOf page key value)).entries.length
              (if b then insert key won else won).card := by
          have hnot : key ∉ won := fun hk => hnew (eachConditional_subset hwon key hk)
          have hsum : (if b then insert key won else won).card = won.card + if b then 1 else 0 := by
            cases b with
            | true => exact Finset.card_insert_of_notMem hnot
            | false => rfl
          rw [hsum, hlength]
          have hlost : copies.entries.length - won.card + (1 - if b then 1 else 0) =
              copies.entries.length + 1 - (won.card + if b then 1 else 0) := by
            split <;> omega
          unfold FillStats.settle FillStats.miss FillStats.scan
          simp only [Nat.add_assoc, hlost]
        rw [hsettle]
      rw [hcopy]
      simp only
      by_cases hfull : ((s.budget limit).any fun n : Int =>
          n ≤ (copies.set key (copyOf page key value)).entries.length) = true
      · rw [if_pos hfull]
      · rw [if_neg hfull]
        refine ih s.scan.miss _ hrest (fun k hk hin => ?_) fun n hlimit => ?_
        · have hne : k ≠ key := fun heq => hkey (heq ▸ hk)
          obtain ⟨w, hw⟩ := Dict.mem_keys.mp hin
          rw [Dict.get?_set, if_neg hne] at hw
          exact hfresh' k hk (Dict.mem_keys.mpr ⟨w, hw⟩)
        · rw [hlimit] at hfull
          have hlt : ¬ n - (s.written : Int) ≤ (copies.set key (copyOf page key value)).entries.length := by
            intro hle
            exact hfull (decide_eq_true hle)
          show _ < n - (s.written : Int)
          omega

/-- Where nothing was gathered, the page is at its end. -/
theorem gather_nil {page : PageRead K V} {budget : Option Int} {listed : List K} {s : FillStats}
    {copies : Dict K (ConditionalWrite V)} (h : (gather page budget listed s copies).2.2.entries = []) :
    (gather page budget listed s copies).1 = [] ∧
      (gather page budget listed s copies).2.1.written = s.written := by
  induction listed generalizing s copies with
  | nil => exact ⟨rfl, rfl⟩
  | cons key listed ih =>
    rw [gather] at h ⊢
    split
    · next hwanted =>
      rw [if_pos hwanted] at h
      exact ih h
    · next hwanted =>
      rw [if_neg hwanted] at h
      split
      · next hfound =>
        rw [hfound] at h
        exact ih h
      · next value hfound =>
        rw [hfound] at h
        simp only at h ⊢
        split
        · next hfull =>
          rw [if_pos hfull] at h
          exact absurd h (Assoc.insert_ne_nil _ _ _)
        · next hfull =>
          rw [if_neg hfull] at h
          exact ih h

/-- A page copied in batches is the page copied key by key. -/
theorem copyPage_eq {f : Filling σ K V} (hatomic : ∀ ws, f.batchWriteIfUnchanged ws = eachConditional write ws)
    (limit : Option Int) (page : PageRead K V) (listed : List K) (s : FillStats) (hn : listed.Nodup) :
    copyPage f limit page listed s =
      copyEachKey (fun k v createdAt => write k ⟨Versioned.absent, .put v, createdAt⟩) limit page listed s := by
  induction hlength : listed.length using Nat.strong_induction_on generalizing listed s with
  | _ n ih =>
    rw [copyPage]
    by_cases hreached : s.reached limit = true
    · rw [if_pos hreached, copyEachKey_reached hreached]
    rw [if_neg hreached]
    simp only
    have hspec := gather_spec write page limit listed s Dict.empty hn
      (fun k _ hk => List.not_mem_nil hk) fun n hlimit => by
        rw [hlimit] at hreached
        have hlt : ¬ n ≤ (s.written : Int) := fun hle => hreached (decide_eq_true hle)
        show (0 : Int) < n - s.written
        omega
    refine Eq.trans ?_ hspec.symm
    simp only
    split
    · next hnone =>
      obtain ⟨hend, hwritten⟩ := gather_nil hnone
      have hempty : eachConditional write (gather page (s.budget limit) listed s Dict.empty).2.2 = pure ∅ := by
        unfold eachConditional
        rw [hnone]
        rfl
      rw [hempty, pure_bind, hend, hnone, copyEachKey]
      have hsame : ((gather page (s.budget limit) listed s Dict.empty).2.1.settle 0 0).reached limit =
          s.reached limit := by
        unfold FillStats.reached FillStats.settle
        rw [hwritten]
        rfl
      show _ = pure (FillStats.settle _ 0 0, (FillStats.settle _ 0 0).reached limit)
      rw [hsame, Bool.eq_false_iff.mpr hreached]
      rfl
    · next hsome =>
      rw [hatomic]
      refine bind_congr fun won => ?_
      have hlt := gather_lt page (s.budget limit) listed s hsome
      exact ih _ (hlength ▸ hlt) _ _ (hn.sublist (gather_suffix ..).sublist) rfl

end Batches

end Filling

/-! ## Generators whose requests keep what is held -/

/-- Where `P` holds, it still does. -/
def Keeping {σ : Type} (P : σ → Prop) (x y : σ) : Prop := P x → P y

instance {σ : Type} (P : σ → Prop) : Std.Refl (Keeping P) := ⟨fun _ h => h⟩

instance {σ : Type} (P : σ → Prop) : IsTrans σ (Keeping P) := ⟨fun _ _ _ h h' hx => h' (h hx)⟩

theorem map_eq_ok {σ α β : Type} {f : α → β} {m : M σ α} {x y : σ} {b : β} (h : (f <$> m) x = (.ok b, y)) :
    ∃ a, m x = (.ok a, y) ∧ f a = b := by
  rw [map_apply] at h
  rcases hm : m x with ⟨e | a, z⟩ <;> rw [hm] at h
  · cases h
  · obtain ⟨hb, rfl⟩ := Prod.mk.inj h
    exact ⟨a, rfl, Except.ok.inj hb⟩

/-- The page names each key once, and its reads keep what is held. -/
structure MissingPage.Keeps {σ K V : Type} (P : σ → Prop) (page : MissingPage σ K V) : Prop where
  nodup : page.listed.Nodup
  read : ∀ ks, Moves (Keeping P) (page.read ks)
  stat : ∀ ks, Moves (Keeping P) (page.stat ks)

namespace PageGenerator

variable {σ τ K L V U : Type} {P : σ → Prop}

/-- From each good place every request keeps what is held, and leads to a good place. -/
structure Keeps (g : PageGenerator σ K V) (P : σ → Prop) (good : g.Place → Prop) : Prop where
  start : good g.start
  moves : ∀ p, good p → Moves (Keeping P) (g.next p)
  next : ∀ p x page q y, good p → g.next p x = (.ok (some (page, q)), y) →
    good q ∧ ∀ r, page = some r → r.Keeps P

/-- A step leads from the one place to the other. -/
def After (g : PageGenerator σ K V) (q p : g.Place) : Prop :=
  ∃ x page y, g.next p x = (.ok (some (page, q)), y)

theorem next_map {f : MissingPage σ K V → MissingPage σ L U} {g : PageGenerator σ K V} {p q : g.Place}
    {x y : σ} {page : Option (MissingPage σ L U)} (h : (g.map f).next p x = (.ok (some (page, q)), y)) :
    ∃ page', g.next p x = (.ok (some (page', q)), y) ∧ page'.map f = page := by
  obtain ⟨r, hr, hmap⟩ := map_eq_ok h
  obtain ⟨⟨page', q'⟩, rfl, heq⟩ := Option.map_eq_some_iff.mp hmap
  obtain ⟨hpage, rfl⟩ := Prod.mk.inj heq
  exact ⟨page', hr, hpage⟩

theorem next_zoom {l : Lens σ τ} {g : PageGenerator τ K V} {p q : g.Place} {x y : σ}
    {page : Option (MissingPage σ K V)} (h : (g.zoom l).next p x = (.ok (some (page, q)), y)) :
    ∃ page' z, g.next p (l.get x) = (.ok (some (page', q)), z) ∧ page'.map (MissingPage.zoom l) = page := by
  obtain ⟨r, hr, hmap⟩ := map_eq_ok h
  obtain ⟨⟨page', q'⟩, rfl, heq⟩ := Option.map_eq_some_iff.mp hmap
  obtain ⟨hpage, rfl⟩ := Prod.mk.inj heq
  have hresult : (l.zoom (g.next p) x).1 = .ok (some (page', q')) := congrArg Prod.fst hr
  exact ⟨page', _, Prod.ext hresult rfl, hpage⟩

theorem Keeps.map {f : MissingPage σ K V → MissingPage σ L U} {g : PageGenerator σ K V}
    {good : g.Place → Prop} (h : g.Keeps P good) (hf : ∀ page, page.Keeps P → (f page).Keeps P) :
    (g.map f).Keeps P good where
  start := h.start
  moves p hp := Moves.map (h.moves p hp)
  next p x page q y hp hn := by
    obtain ⟨page', hnext, hpage⟩ := next_map hn
    obtain ⟨hgood, hkeeps⟩ := h.next p x page' q y hp hnext
    refine ⟨hgood, fun r hr => ?_⟩
    rw [hr] at hpage
    obtain ⟨r', hr', rfl⟩ := Option.map_eq_some_iff.mp hpage
    exact hf r' (hkeeps r' hr')

/-- A part keeps what is held of it. -/
theorem moves_zoom {l : Lens σ τ} {P : τ → Prop} {α : Type} {m : M τ α} (h : Moves (Keeping P) m) :
    Moves (Keeping fun x => P (l.get x)) (l.zoom m) := by
  intro x hx
  rw [Lens.zoom_apply]
  show P (l.get (l.set x _))
  rw [l.get_set]
  exact h (l.get x) hx

theorem Keeps.zoom {l : Lens σ τ} {P : τ → Prop} {g : PageGenerator τ K V} {good : g.Place → Prop}
    (h : g.Keeps P good) : (g.zoom l).Keeps (fun x => P (l.get x)) good where
  start := h.start
  moves p hp := Moves.map (moves_zoom (h.moves p hp))
  next p x page q y hp hn := by
    obtain ⟨page', z, hnext, hpage⟩ := next_zoom hn
    obtain ⟨hgood, hkeeps⟩ := h.next p _ page' q z hp hnext
    refine ⟨hgood, fun r hr => ?_⟩
    rw [hr] at hpage
    obtain ⟨r', hr', rfl⟩ := Option.map_eq_some_iff.mp hpage
    have hr' := hkeeps r' hr'
    exact ⟨hr'.nodup, fun ks => moves_zoom (hr'.read ks), fun ks => moves_zoom (hr'.stat ks)⟩

theorem acc_map {f : MissingPage σ K V → MissingPage σ L U} {g : PageGenerator σ K V} {p : g.Place}
    (h : Acc g.After p) : Acc (g.map f).After p := by
  refine Subrelation.accessible (fun {q p} hq => ?_) h
  obtain ⟨x, page, y, hn⟩ := hq
  obtain ⟨page', hnext, -⟩ := next_map hn
  exact ⟨x, page', y, hnext⟩

theorem acc_zoom {l : Lens σ τ} {g : PageGenerator τ K V} {p : g.Place} (h : Acc g.After p) :
    Acc (g.zoom l).After p := by
  refine Subrelation.accessible (fun {q p} hq => ?_) h
  obtain ⟨x, page, y, hn⟩ := hq
  obtain ⟨page', z, hnext, -⟩ := next_zoom hn
  exact ⟨l.get x, page', z, hnext⟩

theorem acc_ofPages (pages : M σ (List (MissingPage σ K V))) : Acc (ofPages pages).After none := by
  have hsome : ∀ ps, Acc (ofPages pages).After (some ps) := by
    intro ps
    induction ps with
    | nil =>
      refine ⟨_, fun q ⟨x, page, y, hn⟩ => ?_⟩
      cases hn
    | cons page ps ih =>
      refine ⟨_, fun q ⟨x, page', y, hn⟩ => ?_⟩
      cases hn
      exact ih
  refine ⟨_, fun q ⟨x, page, y, hn⟩ => ?_⟩
  obtain ⟨ps, -, heq⟩ := map_eq_ok hn
  cases heq
  exact hsome ps

/-- A listing comes to its end: fallbacks, and the pages of each, are lists. -/
theorem acc_listing {S Q : Type} [DecidableEq K] (T : Topology S K V Q) (authority : Target S K V V)
    (below : PageGenerator S K V) (pageSize : Nat) (fallbacks ahead : List (Target S K V V)) :
    Acc (T.pageGenerator authority below pageSize).After (.listing ahead fallbacks) := by
  induction fallbacks generalizing ahead with
  | nil =>
    refine ⟨_, fun q ⟨x, page, y, hn⟩ => ?_⟩
    cases hn
  | cons fallback rest ih =>
    have hchecking : ∀ pages, Acc (T.pageGenerator authority below pageSize).After
        (.checking pages ahead fallback rest) := by
      intro pages
      induction pages with
      | nil =>
        refine ⟨_, fun q ⟨x, page, y, hn⟩ => ?_⟩
        cases hn
        exact ih _
      | cons keys pages ih' =>
        refine ⟨_, fun q ⟨x, page, y, hn⟩ => ?_⟩
        obtain ⟨absent, -, heq⟩ := map_eq_ok hn
        cases heq
        exact ih'
    refine ⟨_, fun q ⟨x, page, y, hn⟩ => ?_⟩
    obtain ⟨listed, -, heq⟩ := map_eq_ok hn
    cases heq
    exact hchecking _

theorem acc_below {S Q : Type} [DecidableEq K] (T : Topology S K V Q) (authority : Target S K V V)
    {below : PageGenerator S K V} (pageSize : Nat) {p : below.Place} (h : Acc below.After p) :
    Acc (T.pageGenerator authority below pageSize).After (.below p) := by
  induction h with
  | intro p _ ih =>
    refine ⟨_, fun q ⟨x, page, y, hn⟩ => ?_⟩
    obtain ⟨r, hr, heq⟩ := map_eq_ok hn
    cases r with
    | none =>
      cases heq
      exact acc_listing T authority below pageSize _ _
    | some r =>
      cases heq
      exact ih r.2 ⟨x, r.1, y, hr⟩

end PageGenerator

/-! ## The run of a fill -/

namespace Filling

section Runs

variable {σ K V : Type} {f : Filling σ K V} {P : σ → Prop}
  {copy : PageRead K V → List K → FillStats → M σ (FillStats × Bool)}

theorem fillPages_step (fuel : Nat) (place : f.pages.Place) (s : FillStats) (x : σ) :
    fillPages f copy (fuel + 1) place s x =
      match f.pages.next place x with
      | (.error e, y) => (.error e, y)
      | (.ok none, y) => (.ok (some s), y)
      | (.ok (some (none, q)), y) => fillPages f copy fuel q s y
      | (.ok (some (some page, q)), y) =>
        match (f.readPage page >>= fun read => copy read page.listed s) y with
        | (.error e, z) => (.error e, z)
        | (.ok (s', full), z) => if full then (.ok (some s'), z) else fillPages f copy fuel q s' z := by
  rw [fillPages, bind_apply]
  rcases f.pages.next place x with ⟨e | r, y⟩
  · rfl
  rcases r with _ | ⟨page, q⟩
  · rfl
  cases page with
  | none => rfl
  | some page =>
    simp only [bind_apply]
    rcases f.readPage page y with ⟨e | read, z⟩
    · rfl
    simp only
    rcases copy read page.listed s z with ⟨e | ⟨s', full⟩, w⟩
    · rfl
    · cases full <;> rfl

/-- Two ways to copy a page that agree on every page fill alike. -/
theorem fillPages_congr {copy' : PageRead K V → List K → FillStats → M σ (FillStats × Bool)}
    {good : f.pages.Place → Prop} (hg : f.pages.Keeps P good)
    (hcopy : ∀ read listed s, listed.Nodup → copy read listed s = copy' read listed s) (fuel : Nat)
    (place : f.pages.Place) (s : FillStats) (hp : good place) :
    fillPages f copy fuel place s = fillPages f copy' fuel place s := by
  induction fuel generalizing place s with
  | zero => rfl
  | succ fuel ih =>
    funext x
    rw [fillPages_step, fillPages_step]
    rcases hn : f.pages.next place x with ⟨e | r, y⟩
    · rfl
    rcases r with _ | ⟨page, q⟩
    · rfl
    obtain ⟨hq, hpage⟩ := hg.next place x page q y hp hn
    cases page with
    | none => exact congrFun (ih q s hq) y
    | some page =>
      have hsame : (fun read => copy read page.listed s) = fun read => copy' read page.listed s :=
        funext fun read => hcopy read page.listed s (hpage page rfl).nodup
      simp only [hsame]
      rcases (f.readPage page >>= fun read => copy' read page.listed s) y with ⟨e | ⟨s', full⟩, z⟩
      · rfl
      · simp only
        rw [ih q s' hq]

theorem readPage_keeps {page : MissingPage σ K V} (h : page.Keeps P) :
    Moves (Keeping P) (f.readPage page) := by
  unfold readPage
  refine Moves.bind ?_ fun found => ?_
  · split
    · exact Moves.pure _
    · exact h.read _
  · refine Moves.bind ?_ fun clocks => Moves.pure _
    split
    · exact Moves.pure _
    · exact h.stat _

/-- A fill keeps what its requests keep. -/
theorem fillPages_keeps {good : f.pages.Place → Prop} (hg : f.pages.Keeps P good)
    (hcopy : ∀ read listed s, Moves (Keeping P) (copy read listed s)) (fuel : Nat)
    (place : f.pages.Place) (s : FillStats) (hp : good place) :
    Moves (Keeping P) (fillPages f copy fuel place s) := by
  induction fuel generalizing place s with
  | zero => exact Moves.pure _
  | succ fuel ih =>
    intro x
    have hmoves := hg.moves place hp x
    rw [fillPages_step]
    rcases hn : f.pages.next place x with ⟨e | r, y⟩ <;> rw [hn] at hmoves
    · exact hmoves
    rcases r with _ | ⟨page, q⟩
    · exact hmoves
    obtain ⟨hq, hpage⟩ := hg.next place x page q y hp hn
    cases page with
    | none => exact IsTrans.trans _ _ _ hmoves (ih q s hq y)
    | some page =>
      have hread : Moves (Keeping P) (f.readPage page >>= fun read => copy read page.listed s) :=
        Moves.bind (readPage_keeps (hpage page rfl)) fun read => hcopy read _ _
      have hread' := hread y
      simp only
      rcases hz : (f.readPage page >>= fun read => copy read page.listed s) y with ⟨e | ⟨s', full⟩, z⟩ <;>
        rw [hz] at hread'
      · exact IsTrans.trans _ _ _ hmoves hread'
      · have hz' := IsTrans.trans _ _ _ hmoves hread'
        cases full with
        | true => exact hz'
        | false => exact IsTrans.trans _ _ _ hz' (ih q s' hq z)

/-- What every page preserves of the counts holds of those a fill returns. -/
theorem fillPages_counts {I : FillStats → Prop}
    (hcopy : ∀ read listed s x s' full y, I s → copy read listed s x = (.ok (s', full), y) → I s')
    {fuel : Nat} {place : f.pages.Place} {s : FillStats} {x : σ} {stats : FillStats} {y : σ} (hs : I s)
    (h : fillPages f copy fuel place s x = (.ok (some stats), y)) : I stats := by
  induction fuel generalizing place s x with
  | zero => cases h
  | succ fuel ih =>
    rw [fillPages_step] at h
    rcases hn : f.pages.next place x with ⟨e | r, z⟩ <;> rw [hn] at h
    · cases h
    rcases r with _ | ⟨page, q⟩
    · cases h
      exact hs
    cases page with
    | none => exact ih hs h
    | some page =>
      simp only at h
      rcases hc : (f.readPage page >>= fun read => copy read page.listed s) z with ⟨e | ⟨s', full⟩, w⟩ <;>
        rw [hc] at h
      · cases h
      have hs' : I s' := by
        rw [bind_apply] at hc
        rcases hr : f.readPage page z with ⟨e | read, u⟩ <;> rw [hr] at hc
        · cases hc
        · exact hcopy read page.listed s u s' full w hs hc
      cases full with
      | true =>
        cases h
        exact hs'
      | false => exact ih hs' h

/-- A fill ends where its listing does. -/
theorem fillPages_ends {place : f.pages.Place} (h : Acc f.pages.After place) (s : FillStats) (x : σ) :
    ∃ enough, ∀ fuel, enough ≤ fuel → (fillPages f copy fuel place s x).1 ≠ .ok none := by
  induction h generalizing s x with
  | intro place _ ih =>
    have hend : ∀ {r : Except Exn (Option FillStats) × σ}, r.1 ≠ .ok none →
        (∀ fuel, fillPages f copy (fuel + 1) place s x = r) →
        ∃ enough, ∀ fuel, enough ≤ fuel → (fillPages f copy fuel place s x).1 ≠ .ok none := by
      intro r hr hrun
      refine ⟨1, fun fuel hfuel => ?_⟩
      obtain ⟨fuel, rfl⟩ := Nat.exists_eq_add_of_le' hfuel
      rw [hrun]
      exact hr
    have hmore : ∀ {q : f.pages.Place} {s' : FillStats} {z : σ}, f.pages.After q place →
        (∀ fuel, fillPages f copy (fuel + 1) place s x = fillPages f copy fuel q s' z) →
        ∃ enough, ∀ fuel, enough ≤ fuel → (fillPages f copy fuel place s x).1 ≠ .ok none := by
      intro q s' z hq hrun
      obtain ⟨enough, henough⟩ := ih q hq s' z
      refine ⟨enough + 1, fun fuel hfuel => ?_⟩
      obtain ⟨fuel, rfl⟩ := Nat.exists_eq_add_of_le' (Nat.le_trans (Nat.le_add_left 1 enough) hfuel)
      rw [hrun]
      exact henough fuel (Nat.le_of_succ_le_succ hfuel)
    rcases hn : f.pages.next place x with ⟨e | r, y⟩
    · exact hend (r := (.error e, y)) (by simp) fun fuel => by rw [fillPages_step, hn]
    rcases r with _ | ⟨page, q⟩
    · exact hend (r := (.ok (some s), y)) (by simp) fun fuel => by rw [fillPages_step, hn]
    cases page with
    | none => exact hmore ⟨x, none, y, hn⟩ fun fuel => by rw [fillPages_step, hn]
    | some page =>
      rcases hc : (f.readPage page >>= fun read => copy read page.listed s) y with ⟨e | ⟨s', full⟩, z⟩
      · exact hend (r := (.error e, z)) (by simp) fun fuel => by
          rw [fillPages_step, hn]
          simp only [hc]
      · cases full with
        | true =>
          exact hend (r := (.ok (some s'), z)) (by simp) fun fuel => by
            rw [fillPages_step, hn]
            simp only [hc]
            rfl
        | false =>
          exact hmore ⟨x, some page, y, hn⟩ fun fuel => by
            rw [fillPages_step, hn]
            simp only [hc]
            rfl

variable [DecidableEq K] {setIfAbsent : K → V → Option Instant → M σ Bool} {limit : Option Int}

theorem copyEachKey_keeps (h : ∀ k v createdAt, Moves (Keeping P) (setIfAbsent k v createdAt)) (read : PageRead K V)
    (listed : List K) (s : FillStats) : Moves (Keeping P) (copyEachKey setIfAbsent limit read listed s) := by
  induction listed generalizing s with
  | nil => exact Moves.pure _
  | cons key listed ih =>
    rw [copyEachKey]
    split
    · exact Moves.pure _
    split
    · exact ih _
    split
    · exact ih _
    · exact Moves.bind (h _ _ _) fun won => ih _

/-- The counts of a fill: it writes no more than the limit, and every missing key it tried was
    written, lost to another writer, or gone from the fallback. -/
structure Counted (limit : Option Int) (s : FillStats) : Prop where
  limited : ∀ n, limit = some n → (s.written : Int) ≤ n
  tried : s.missing = s.written + s.lostRace + s.sourceMiss

theorem copyEachKey_counts {read : PageRead K V} {listed : List K} {s : FillStats} {x : σ}
    {s' : FillStats} {full : Bool} {y : σ} (hs : Counted limit s)
    (h : copyEachKey setIfAbsent limit read listed s x = (.ok (s', full), y)) : Counted limit s' := by
  induction listed generalizing s x with
  | nil =>
    cases h
    exact hs
  | cons key listed ih =>
    rw [copyEachKey] at h
    split at h
    · cases h
      exact hs
    next hroom =>
    split at h
    · exact ih (s := s.scan) ⟨hs.limited, hs.tried⟩ h
    cases hfound : read.found.get? key with
    | none =>
      rw [hfound] at h
      refine ih (s := s.scan.miss.gone) ⟨hs.limited, ?_⟩ h
      have htried := hs.tried
      show s.missing + 1 = s.written + s.lostRace + (s.sourceMiss + 1)
      omega
    | some value =>
      rw [hfound] at h
      simp only at h
      rcases hb : setIfAbsent key _ _ x with ⟨e | won, z⟩
      · rw [bind_error hb] at h
        cases h
      rw [bind_ok hb] at h
      refine ih (s := s.scan.miss.settle 1 (if won then 1 else 0)) ⟨fun n hlimit => ?_, ?_⟩ h
      · have hlt : ¬ n ≤ (s.written : Int) := by
          intro hle
          rw [hlimit] at hroom
          exact hroom (decide_eq_true hle)
        show ((s.written + (if won then 1 else 0) : Nat) : Int) ≤ n
        split <;> omega
      · have htried := hs.tried
        show s.missing + 1 = s.written + (if won then 1 else 0) + (s.lostRace + (1 - if won then 1 else 0)) +
          s.sourceMiss
        split <;> omega

end Runs

end Filling

end Kvtsjl
