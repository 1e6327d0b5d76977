import Mathlib.Data.List.Pairwise
import Kvtsjl.OpSteps

/-
  The ways to ask a node for a record.
  A store can be asked in four ways. `Agrees` says that, asked from one state, the other
  three answer what `get` returns there. The short cuts of a node keep this, where its
  targets have it and do not disturb each other.
-/

namespace Kvtsjl

open Assoc (Dict)
open Effects Prog

/-! ## Four ways to ask -/

section Agree

variable {σ K V T : Type}

/-- From any one state, what the other ways to ask answer where `get` returns. -/
structure Agrees (get : K → M σ (Option V)) (batchGet : List K → M σ (Dict K V))
    (existsKey : K → M σ Bool) (batchExists : List K → M σ (Finset K)) [DecidableEq K] : Prop where
  existsKey : ∀ k s v, (get k s).1 = .ok v → (existsKey k s).1 = .ok v.isSome
  batchExists : ∀ ks s found, (batchExists ks s).1 = .ok found → ∀ k,
    (k ∈ found → k ∈ ks) ∧ ∀ v, k ∈ ks → (get k s).1 = .ok v → (k ∈ found ↔ v.isSome = true)
  batchGet : ∀ ks s d, (batchGet ks s).1 = .ok d → ∀ k,
    (k ∉ ks → d.get? k = none) ∧ ∀ v, k ∈ ks → (get k s).1 = .ok v → d.get? k = v

variable [DecidableEq K]

/-- A store's own answers agree. -/
abbrev KvStore.Agree (s : KvStore σ K V) : Prop :=
  Agrees s.get s.batchGet s.existsKey s.batchExists

/-- A target's own answers agree. -/
abbrev Target.Agree {S P : Type} (t : Target S K V P) : Prop :=
  Agrees t.read t.batchRead t.existsKey t.batchExists

variable {get : K → M σ (Option V)} {batchGet : List K → M σ (Dict K V)}
  {existsKey : K → M σ Bool} {batchExists : List K → M σ (Finset K)}

omit [DecidableEq K] in
theorem map_ok {α β : Type} {f : α → β} {m : M σ α} {s : σ} {b : β} (h : ((f <$> m) s).1 = .ok b) :
    ∃ a, (m s).1 = .ok a ∧ f a = b := by
  rw [map_apply] at h
  cases hm : (m s).1 with
  | error e =>
    rw [hm] at h
    cases h
  | ok a =>
    rw [hm] at h
    exact ⟨a, rfl, Except.ok.inj h⟩

/-- What is read, seen as another type. -/
theorem Agrees.map (h : Agrees get batchGet existsKey batchExists) (f : V → T) :
    Agrees (fun k => Option.map f <$> get k) (fun ks => Dict.map (fun _ v => f v) <$> batchGet ks)
      existsKey batchExists where
  existsKey k s v hv := by
    obtain ⟨w, hw, rfl⟩ := map_ok hv
    rw [h.existsKey k s w hw, Option.isSome_map]
  batchExists ks s found hfound k := by
    refine ⟨(h.batchExists ks s found hfound k).1, fun v hk hv => ?_⟩
    obtain ⟨w, hw, rfl⟩ := map_ok hv
    rw [(h.batchExists ks s found hfound k).2 w hk hw, Option.isSome_map]
  batchGet ks s d hd k := by
    obtain ⟨d', hd', rfl⟩ := map_ok hd
    have hk := h.batchGet ks s d' hd' k
    refine ⟨fun hn => by rw [Dict.get?_map, hk.1 hn]; rfl, fun v hmem hv => ?_⟩
    obtain ⟨w, hw, rfl⟩ := map_ok hv
    rw [Dict.get?_map, hk.2 w hmem hw]

theorem Agrees.zoom {τ : Type} (l : Lens τ σ) (h : Agrees get batchGet existsKey batchExists) :
    Agrees (fun k => l.zoom (get k)) (fun ks => l.zoom (batchGet ks)) (fun k => l.zoom (existsKey k))
      fun ks => l.zoom (batchExists ks) where
  existsKey k s := h.existsKey k (l.get s)
  batchExists ks s := h.batchExists ks (l.get s)
  batchGet ks s := h.batchGet ks (l.get s)

end Agree

/-! ## Targets that do not disturb each other -/

namespace Target

variable {S K V P Q R τ υ : Type}

/-- The target answers alike from the two states. -/
structure Alike (u : Target S K V P) (s s' : S) : Prop where
  read : ∀ k, (u.read k s').1 = (u.read k s).1
  batchRead : ∀ ks, (u.batchRead ks s').1 = (u.batchRead ks s).1
  existsKey : ∀ k, (u.existsKey k s').1 = (u.existsKey k s).1
  batchExists : ∀ ks, (u.batchExists ks s').1 = (u.batchExists ks s).1

instance (u : Target S K V P) : Std.Refl u.Alike :=
  ⟨fun _ => ⟨fun _ => rfl, fun _ => rfl, fun _ => rfl, fun _ => rfl⟩⟩

instance (u : Target S K V P) : IsTrans S u.Alike :=
  ⟨fun _ _ _ h h' => ⟨fun k => (h'.read k).trans (h.read k),
    fun ks => (h'.batchRead ks).trans (h.batchRead ks),
    fun k => (h'.existsKey k).trans (h.existsKey k),
    fun ks => (h'.batchExists ks).trans (h.batchExists ks)⟩⟩

theorem Alike.symm {u : Target S K V P} {s s' : S} (h : u.Alike s s') : u.Alike s' s :=
  ⟨fun k => (h.read k).symm, fun ks => (h.batchRead ks).symm, fun k => (h.existsKey k).symm,
    fun ks => (h.batchExists ks).symm⟩

/-- What a read asks of `t` does not change what `u` answers. -/
structure Spares (t : Target S K V P) (u : Target S K V Q) : Prop where
  read : ∀ k, Moves u.Alike (t.read k)
  batchRead : ∀ ks, Moves u.Alike (t.batchRead ks)
  existsKey : ∀ k, Moves u.Alike (t.existsKey k)
  batchExists : ∀ ks, Moves u.Alike (t.batchExists ks)
  batchStat : ∀ ks, Moves u.Alike (t.batchStat ks)
  conditional : ∀ ws o, Moves u.Alike (t.batchWriteIfUnchanged ws o)

/-- Neither target disturbs the other. -/
def Separate (t u : Target S K V P) : Prop := t.Spares u ∧ u.Spares t

theorem alike_zoom {k : Lens S υ} (u : Target υ K V P) {s s' : S} (h : k.Keeps s s') :
    (u.zoom k).Alike s s' := by
  have hsame : k.get s' = k.get s := h
  refine ⟨fun key => ?_, fun ks => ?_, fun key => ?_, fun ks => ?_⟩
  · exact congrArg (fun t => (u.read key t).1) hsame
  · exact congrArg (fun t => (u.batchRead ks t).1) hsame
  · exact congrArg (fun t => (u.existsKey key t).1) hsame
  · exact congrArg (fun t => (u.batchExists ks t).1) hsame

/-- Targets on parts of the state that lie apart. -/
theorem spares_zoom {l : Lens S τ} {k : Lens S υ} (h : Lens.Apart l k) (t : Target τ K V P)
    (u : Target υ K V Q) : (t.zoom l).Spares (u.zoom k) := by
  have hkeep : ∀ {α : Type} (m : M τ α), Moves (u.zoom k).Alike (l.zoom m) := fun m =>
    (h.zoom_keeps m).weaken fun s s' => alike_zoom u
  exact ⟨fun _ => hkeep _, fun _ => hkeep _, fun _ => hkeep _, fun _ => hkeep _, fun _ => hkeep _,
    fun _ _ => hkeep _⟩

end Target

namespace Topology

variable {S K V P : Type} [DecidableEq K]

/-! ## Whole targets, one after the other -/

/-- A fill only asks what was consulted, and the source. -/
theorem moves_batchFill {R : S → S → Prop} [Std.Refl R] [IsTrans S R] {hits : Dict K V}
    {source : Target S K V V} {consulted : List (Target S K V V)}
    (hstat : ∀ ks, Moves R (source.batchStat ks))
    (hfill : ∀ t ∈ consulted, ∀ ws o, Moves R (t.batchWriteIfUnchanged ws o)) :
    Moves R (batchFill hits source consulted) := by
  refine Moves.when (Moves.bind ?_ fun stats => Moves.forM fun t ht => ?_)
  · unfold fillStats
    split
    · exact hstat _
    · exact Moves.pure _
  · refine Moves.catching (moves_discard (hfill t (List.mem_of_mem_filter ht) _ _)) fun e => ?_
    split
    · exact Moves.raise _
    · exact Moves.pure _

/-- The first target that holds the key answers for all of them. -/
theorem readFrom_cons {key : K} {t : Target S K V V} {rest consulted : List (Target S K V V)}
    {s : S} {v : Option V} (h : (readFrom key (t :: rest) consulted s).1 = .ok v) :
    ∃ r s', t.read key s = (.ok r, s') ∧
      ((∃ w, r = some w ∧ v = some w) ∨
        r = none ∧ (readFrom key rest (consulted ++ [t]) s').1 = .ok v) := by
  rw [readFrom] at h
  rcases ht : t.read key s with ⟨e | r, s'⟩
  · rw [bind_error ht] at h
    cases h
  · rw [bind_ok ht] at h
    refine ⟨r, s', rfl, ?_⟩
    cases r with
    | none => exact .inr ⟨rfl, h⟩
    | some w =>
      refine .inl ⟨w, rfl, ?_⟩
      simp only at h
      rcases hf : batchFill (Dict.single key w) t consulted s' with ⟨e | u, s''⟩
      · rw [bind_error hf] at h
        cases h
      · rw [bind_ok hf] at h
        exact (Except.ok.inj h).symm

theorem existsFrom_eq {key : K} {ts consulted : List (Target S K V V)} {s s' : S} {v : Option V}
    (hagree : ∀ t ∈ ts, t.Agree) (happart : ts.Pairwise Target.Spares)
    (halike : ∀ t ∈ ts, t.Alike s s') (h : (readFrom key ts consulted s).1 = .ok v) :
    (existsFrom key ts s').1 = .ok v.isSome := by
  induction ts generalizing consulted s s' with
  | nil =>
    cases h
    rfl
  | cons t rest ih =>
    obtain ⟨r, s1, hr, hv⟩ := readFrom_cons h
    have hread : (t.read key s').1 = .ok r := by
      rw [(halike t (by simp)).read, hr]
    have hexists := (hagree t (by simp)).existsKey key s' r hread
    rw [existsFrom]
    rcases he : t.existsKey key s' with ⟨e | b, s1'⟩
    · rw [he] at hexists
      cases hexists
    · rw [he] at hexists
      rw [bind_ok he, Except.ok.inj hexists]
      rcases hv with ⟨w, rfl, rfl⟩ | ⟨rfl, hrest⟩
      · rfl
      · rw [List.pairwise_cons] at happart
        refine ih (fun u hu => hagree u (List.mem_cons_of_mem _ hu)) happart.2 (fun u hu => ?_) hrest
        have hs := (happart.1 u hu).read key s
        have hs' := (happart.1 u hu).existsKey key s'
        rw [hr] at hs
        rw [he] at hs'
        exact IsTrans.trans _ _ _ (IsTrans.trans _ _ _ hs.symm
          (halike u (List.mem_cons_of_mem _ hu))) hs'

/-- One target's share of a batch that asks who holds the keys. -/
def existsShare (keys : List K) (found : Finset K) (target : Target S K V V) : M S (Finset K) :=
  let missing := keys.filter fun k => k ∉ found
  if missing.isEmpty then pure found
  else do return found ∪ (← target.batchExists missing)

theorem existsShare_moves {R : S → S → Prop} [Std.Refl R] {t : Target S K V V}
    (h : ∀ ks, Moves R (t.batchExists ks)) (keys : List K) (found : Finset K) :
    Moves R (existsShare keys found t) := by
  unfold existsShare
  simp only
  split
  · exact Moves.pure _
  · exact Moves.map (h _)

/-- What one target adds to the keys found: those it holds, of the ones still missing. -/
theorem existsShare_mem {keys : List K} {found found' : Finset K} {t : Target S K V V} {s : S}
    (ht : t.Agree) (h : (existsShare keys found t s).1 = .ok found') (k : K) :
    (k ∈ found → k ∈ found') ∧ (k ∈ found' → k ∈ found ∨ k ∈ keys) ∧
      (k ∉ found → k ∈ keys → ∀ r, (t.read k s).1 = .ok r → (k ∈ found' ↔ r.isSome = true)) := by
  unfold existsShare at h
  split at h
  · next hempty =>
    have hsame : found = found' := Except.ok.inj h
    rw [← hsame]
    refine ⟨id, .inl, fun hk hkeys => absurd ?_ hk⟩
    by_contra hk
    have hmem : k ∈ keys.filter fun k => k ∉ found := by simp [hkeys, hk]
    rw [List.isEmpty_iff.mp hempty] at hmem
    cases hmem
  · obtain ⟨held, hheld, rfl⟩ := map_ok h
    have hk := ht.batchExists _ s held hheld k
    refine ⟨fun hf => Finset.mem_union_left _ hf, fun hf => ?_, fun hn hkeys r hr => ?_⟩
    · rcases Finset.mem_union.mp hf with hf | hf
      · exact .inl hf
      · exact .inr (List.mem_of_mem_filter (hk.1 hf))
    · have hmissing : k ∈ keys.filter fun k => k ∉ found := by simp [hkeys, hn]
      rw [← hk.2 r hmissing hr, Finset.mem_union]
      exact or_iff_right hn

theorem foldlM_existsShare {keys : List K} {ts : List (Target S K V V)} {found found' : Finset K}
    {s' : S} (hagree : ∀ t ∈ ts, t.Agree) (happart : ts.Pairwise Target.Spares)
    (h : (ts.foldlM (existsShare keys) found s').1 = .ok found') (k : K) :
    (k ∈ found → k ∈ found') ∧ (k ∈ found' → k ∈ found ∨ k ∈ keys) ∧
      (k ∉ found → k ∈ keys → ∀ s consulted v, (∀ t ∈ ts, t.Alike s s') →
        (readFrom k ts consulted s).1 = .ok v → (k ∈ found' ↔ v.isSome = true)) := by
  induction ts generalizing found s' with
  | nil =>
    have hsame : found = found' := Except.ok.inj h
    rw [← hsame]
    refine ⟨id, .inl, fun hk _ s consulted v _ hv => ?_⟩
    have hnone : none = v := Except.ok.inj hv
    rw [← hnone]
    simp [hk]
  | cons t rest ih =>
    rw [List.pairwise_cons] at happart
    rw [List.foldlM_cons] at h
    rcases ht : existsShare keys found t s' with ⟨e | found1, s1'⟩
    · rw [bind_error ht] at h
      cases h
    rw [bind_ok ht] at h
    have hshare := existsShare_mem (hagree t (by simp)) (congrArg Prod.fst ht) k
    have hrest := ih (fun u hu => hagree u (List.mem_cons_of_mem _ hu)) happart.2 h
    refine ⟨fun hk => hrest.1 (hshare.1 hk), fun hk => ?_, fun hk hkeys s consulted v halike hv => ?_⟩
    · rcases hrest.2.1 hk with hk | hk
      · exact hshare.2.1 hk
      · exact .inr hk
    · obtain ⟨r, s1, hr, hv⟩ := readFrom_cons hv
      have hread : (t.read k s').1 = .ok r := by
        rw [(halike t (by simp)).read, hr]
      have hfound := hshare.2.2 hk hkeys r hread
      rcases hv with ⟨w, rfl, rfl⟩ | ⟨rfl, hv⟩
      · refine ⟨fun _ => rfl, fun _ => hrest.1 (hfound.mpr rfl)⟩
      · refine hrest.2.2 (fun hmem => Bool.false_ne_true (hfound.mp hmem)) hkeys s1 _ v (fun u hu => ?_) hv
        have hs := (happart.1 u hu).read k s
        have hs' := existsShare_moves (happart.1 u hu).batchExists keys found s'
        rw [hr] at hs
        rw [ht] at hs'
        exact IsTrans.trans _ _ _ (IsTrans.trans _ _ _ hs.symm
          (halike u (List.mem_cons_of_mem _ hu))) hs'

theorem batchReadFrom_get? {keys : List K} {ts consulted' : List (Target S K V V)}
    {found d : Dict K V} {s' : S} (hagree : ∀ t ∈ ts, t.Agree) (happart : ts.Pairwise Target.Spares)
    (hbefore : ∀ c ∈ consulted', ∀ u ∈ ts, c.Spares u)
    (h : (batchReadFrom keys ts consulted' found s').1 = .ok d) (k : K) :
    (∀ w, found.get? k = some w → d.get? k = some w) ∧
      (found.get? k = none → k ∉ keys → d.get? k = none) ∧
      (found.get? k = none → k ∈ keys → ∀ s consulted v, (∀ t ∈ ts, t.Alike s s') →
        (readFrom k ts consulted s).1 = .ok v → d.get? k = v) := by
  induction ts generalizing found consulted' s' with
  | nil =>
    have hsame : found = d := Except.ok.inj h
    rw [← hsame]
    refine ⟨fun w hw => hw, fun hk _ => hk, fun hk _ s consulted v _ hv => ?_⟩
    have hnone : none = v := Except.ok.inj hv
    rw [← hnone, hk]
  | cons t rest ih =>
    rw [List.pairwise_cons] at happart
    rw [batchReadFrom] at h
    split at h
    · next hempty =>
      have hsame : found = d := Except.ok.inj h
      rw [← hsame]
      refine ⟨fun w hw => hw, fun hk _ => hk, fun hk hkeys => ?_⟩
      have hmem : k ∈ keys.filter fun k => (found.get? k).isNone := by simp [hkeys, hk]
      rw [List.isEmpty_iff.mp hempty] at hmem
      cases hmem
    · rcases ht : t.batchRead (keys.filter fun k => (found.get? k).isNone) s' with ⟨e | hits, s1'⟩
      · rw [bind_error ht] at h
        cases h
      rw [bind_ok ht] at h
      rcases hf : when (hits.entries ≠ []) (batchFill hits t consulted') s1' with ⟨e | u, s2'⟩
      · rw [bind_error hf] at h
        cases h
      rw [bind_ok hf] at h
      have hhits := (hagree t (by simp)).batchGet _ s' hits (congrArg Prod.fst ht) k
      have hrest := ih (fun u hu => hagree u (List.mem_cons_of_mem _ hu)) happart.2
        (fun c hc u hu => by
          rcases List.mem_append.mp hc with hc | hc
          · exact hbefore c hc u (List.mem_cons_of_mem _ hu)
          · rw [List.mem_singleton.mp hc]
            exact happart.1 u hu) h
      have hmissing : (k ∈ keys.filter fun k => (found.get? k).isNone) ↔
          k ∈ keys ∧ found.get? k = none := by simp
      rw [Dict.get?_update] at hrest
      refine ⟨fun w hw => hrest.1 w ?_, fun hk hkeys => hrest.2.1 ?_ hkeys,
        fun hk hkeys s consulted v halike hv => ?_⟩
      · rw [hhits.1 fun hm => by rw [(hmissing.mp hm).2] at hw; cases hw]
        exact hw
      · rw [hhits.1 fun hm => hkeys (hmissing.mp hm).1]
        exact hk
      · obtain ⟨r, s1, hr, hv⟩ := readFrom_cons hv
        have hread : (t.read k s').1 = .ok r := by
          rw [(halike t (by simp)).read, hr]
        have hit := hhits.2 r (hmissing.mpr ⟨hkeys, hk⟩) hread
        rcases hv with ⟨w, rfl, rfl⟩ | ⟨rfl, hv⟩
        · exact hrest.1 w (by rw [hit]; rfl)
        · refine hrest.2.2 (by rw [hit]; exact hk) hkeys s1 _ v (fun u hu => ?_) hv
          have hs := (happart.1 u hu).read k s
          have hs1 := (happart.1 u hu).batchRead (keys.filter fun k => (found.get? k).isNone) s'
          have hs2 : Moves u.Alike (when (hits.entries ≠ []) (batchFill hits t consulted')) :=
            Moves.when (moves_batchFill (happart.1 u hu).batchStat fun c hc =>
              (hbefore c hc u (List.mem_cons_of_mem _ hu)).conditional)
          have hs2 := hs2 s1'
          rw [hr] at hs
          rw [ht] at hs1
          rw [hf] at hs2
          exact IsTrans.trans _ _ _ (IsTrans.trans _ _ _ (IsTrans.trans _ _ _ hs.symm
            (halike u (List.mem_cons_of_mem _ hu))) hs1) hs2

/-! ## A record out of its parts -/

/-- What the parts hold of one wanted key, read one by one or in one batch. -/
theorem readParts_eq {ps : List (AnyTarget S K V P × Nat)} {key : K} {wanted : List K}
    {parts : Parts V P} {found : List (Nat × Dict K (V ⊕ P))} {s s' : S} (hkey : key ∈ wanted)
    (hagree : ∀ p ∈ ps, p.1.Agree) (happart : ps.Pairwise fun p q => p.1.Spares q.1)
    (halike : ∀ p ∈ ps, p.1.Alike s s')
    (h : (ps.mapM (fun p => do return (p.2, ← p.1.read key) : _ → M S (Nat × Option (V ⊕ P))) s).1 =
      .ok parts)
    (h' : (ps.mapM (fun p => if wanted.isEmpty then pure (p.2, Dict.empty)
      else do return (p.2, ← p.1.batchRead wanted) : _ → M S (Nat × Dict K (V ⊕ P))) s').1 =
        .ok found) :
    found.map (fun p => (p.1, p.2.get? key)) = parts := by
  have hempty : wanted.isEmpty = false := by
    cases wanted with
    | nil => cases hkey
    | cons _ _ => rfl
  induction ps generalizing parts found s s' with
  | nil =>
    rw [List.mapM_nil] at h h'
    rw [← Except.ok.inj h, ← Except.ok.inj h']
    rfl
  | cons p ps ih =>
    rw [List.pairwise_cons] at happart
    rw [List.mapM_cons, bind_assoc] at h
    rw [List.mapM_cons, hempty, if_neg Bool.false_ne_true, bind_assoc] at h'
    rcases hp : p.1.read key s with ⟨e | r, s1⟩
    · rw [bind_error hp] at h
      cases h
    rcases hb : p.1.batchRead wanted s' with ⟨e | d, s1'⟩
    · rw [bind_error hb] at h'
      cases h'
    rw [bind_ok hp, pure_bind] at h
    rw [bind_ok hb, pure_bind] at h'
    obtain ⟨parts', hparts, rfl⟩ := map_ok h
    obtain ⟨found', hfound, rfl⟩ := map_ok h'
    have hread : (p.1.read key s').1 = .ok r := by
      rw [(halike p (by simp)).read, hp]
    have hget := ((hagree p (by simp)).batchGet wanted s' d (congrArg Prod.fst hb) key).2 r hkey hread
    have hrest := ih (fun q hq => hagree q (List.mem_cons_of_mem _ hq)) happart.2 (fun q hq => by
      have hs := (happart.1 q hq).read key s
      have hs' := (happart.1 q hq).batchRead wanted s'
      rw [hp] at hs
      rw [hb] at hs'
      exact IsTrans.trans _ _ _ (IsTrans.trans _ _ _ hs.symm
        (halike q (List.mem_cons_of_mem _ hq))) hs') hparts (by rw [hempty]; exact hfound)
    rw [List.map_cons, hrest, hget]

/-- What the reads of a node rest on: each target's answers agree, no two disturb each
    other, and the authority is consulted once. -/
structure Readable (T : Topology S K V P) : Prop where
  agree : ∀ t ∈ T.all, t.Agree
  agreeWhole : ∀ t ∈ T.targets, t.Agree
  separate : T.all.Pairwise Target.Separate
  separateWhole : T.targets.Pairwise Target.Separate
  unplaced : ∀ t ∈ T.targets, t.role = .authority → t.lookup = none

instance {S K V P : Type} :
    Std.Symm (Target.Separate : Target S K V P → Target S K V P → Prop) :=
  ⟨fun _ _ h => ⟨h.2, h.1⟩⟩

variable {T : Topology S K V P}

theorem lookups_spares (h : T.Readable) : T.lookups.Pairwise Target.Spares := by
  have hfar : ∀ t ∈ T.targets, ∀ u ∈ T.targets, t.lookup ≠ u.lookup → t.Spares u := by
    intro t ht u hu hne
    refine (h.separateWhole.forall ht hu ?_).1
    intro htu
    exact hne (by rw [htu])
  have hauthority : ∀ t ∈ T.wholeAuthority.toList, t ∈ T.targets ∧ t.lookup = none := by
    intro t ht
    have hfind := Option.mem_toList.mp ht
    have hmem := List.mem_of_find?_eq_some hfind
    have hrole := List.find?_some (p := fun t : Target S K V V => t.role = .authority) hfind
    exact ⟨hmem, h.unplaced t hmem (of_decide_eq_true hrole)⟩
  have hplaced : ∀ l : Lookup, ∀ t ∈ T.targets.filter (fun t => t.lookup = some l),
      t ∈ T.targets ∧ t.lookup = some l := by
    intro l t ht
    obtain ⟨hmem, hl⟩ := List.mem_filter.mp ht
    exact ⟨hmem, of_decide_eq_true hl⟩
  have hfilter : ∀ p : Target S K V V → Bool, (T.targets.filter p).Pairwise Target.Spares :=
    fun p => (h.separateWhole.imp And.left).filter p
  unfold lookups
  rw [List.pairwise_append, List.pairwise_append]
  refine ⟨⟨hfilter _, ?_, ?_⟩, hfilter _, ?_⟩
  · cases T.wholeAuthority with
    | none => exact List.Pairwise.nil
    | some a => exact List.pairwise_singleton _ a
  · intro t ht u hu
    obtain ⟨ht, hlt⟩ := hplaced _ t ht
    obtain ⟨hu, hlu⟩ := hauthority u hu
    exact hfar t ht u hu (by rw [hlt, hlu]; exact Option.some_ne_none _)
  · intro t ht u hu
    obtain ⟨hu, hlu⟩ := hplaced _ u hu
    rcases List.mem_append.mp ht with ht | ht
    · obtain ⟨ht, hlt⟩ := hplaced _ t ht
      exact hfar t ht u hu (by rw [hlt, hlu]; decide)
    · obtain ⟨ht, hlt⟩ := hauthority t ht
      exact hfar t ht u hu (by rw [hlt, hlu]; exact (Option.some_ne_none _).symm)

theorem mem_unanchoredParts {p : AnyTarget S K V P × Nat} (hp : p ∈ T.unanchoredParts) :
    p.1 ∈ T.all ∧ p.1.role ≠ .authority := by
  obtain ⟨hmem, hrole⟩ := List.mem_filter.mp hp
  refine ⟨?_, of_decide_eq_true hrole⟩
  exact (List.mem_zipIdx' (List.mem_of_mem_drop hmem)).2 ▸ List.getElem_mem _

theorem mem_anchored {p : AnyTarget S K V P × Nat} (hp : T.anchored = some p) :
    p.1 ∈ T.all ∧ p.1.role = .authority := by
  have hmem := List.mem_of_find?_eq_some hp
  have hrole := List.find?_some
    (p := fun p : AnyTarget S K V P × Nat => p.1.role = .authority) hp
  refine ⟨?_, of_decide_eq_true hrole⟩
  exact (List.mem_zipIdx' hmem).2 ▸ List.getElem_mem _

theorem unanchored_spares (h : T.Readable) :
    T.unanchoredParts.Pairwise fun p q => p.1.Spares q.1 := by
  have hall : (T.all.zipIdx.map Prod.fst).Pairwise Target.Separate := by
    rw [List.zipIdx_map_fst]
    exact h.separate
  rw [List.pairwise_map] at hall
  exact ((hall.imp And.left).sublist (List.drop_sublist _ _)).filter _

omit [DecidableEq K] in
theorem requireAssemble_some {f : Parts V P → Option V} (h : T.assemble = some f) :
    (T.requireAssemble : M S _) = pure f := by
  unfold requireAssemble
  rw [h]

/-- A record built from its parts, alone or among others. -/
theorem assembleMany_get? (h : T.Readable) {keys : List K} {s : S} {d : Dict K V}
    (hd : (T.assembleMany keys none s).1 = .ok d) (k : K) :
    (k ∉ keys → d.get? k = none) ∧
      ∀ v, k ∈ keys → (T.assembleOne k s).1 = .ok v → d.get? k = v := by
  have hparts : ∀ p ∈ T.unanchoredParts, p.1.Agree := fun p hp => h.agree _ (mem_unanchoredParts hp).1
  have hspares := unanchored_spares h
  unfold assembleMany at hd
  unfold assembleOne
  cases hf : T.assemble with
  | none =>
    unfold requireAssemble at hd
    rw [hf] at hd
    cases hd
  | some f =>
  rw [requireAssemble_some hf, pure_bind] at hd
  rw [requireAssemble_some hf, pure_bind]
  split at hd
  · next hempty =>
    rw [← Except.ok.inj hd]
    refine ⟨fun _ => rfl, fun v hk => ?_⟩
    rw [List.isEmpty_iff.mp hempty] at hk
    cases hk
  cases ha : T.anchored with
  | none =>
    rw [ha] at hd
    obtain ⟨found, hfound, rfl⟩ := map_ok hd
    unfold assembleFound
    rw [Dict.get?_ofKeys]
    refine ⟨fun hk => if_neg fun hm => hk (Dict.mem_unique.mp hm), fun v hk hv => ?_⟩
    obtain ⟨parts, hread, rfl⟩ := map_ok hv
    rw [if_pos (Dict.mem_unique.mpr hk), readParts_eq (Dict.mem_unique.mpr hk) hparts hspares
      (fun p _ => Std.Refl.refl s) hread hfound]
  | some a =>
    obtain ⟨authority, i⟩ := a
    rw [ha] at hd
    simp only at hd ⊢
    obtain ⟨hmem, hrole⟩ := mem_anchored ha
    have hbind : (anchorHits authority (Dict.unique keys) none : M S _) =
        authority.batchRead (Dict.unique keys) := rfl
    rw [hbind] at hd
    rcases hb : authority.batchRead (Dict.unique keys) s with ⟨e | hits, s'⟩
    · rw [bind_error hb] at hd
      cases hd
    rw [bind_ok hb] at hd
    obtain ⟨found, hfound, rfl⟩ := map_ok hd
    have hits_eq := (h.agree authority hmem).batchGet _ s hits (congrArg Prod.fst hb) k
    rw [Dict.mem_unique] at hits_eq
    unfold assembleFound
    rw [Dict.get?_ofKeys]
    have hwanted : k ∈ anchoredKeys hits (Dict.unique keys) ↔ k ∈ keys ∧ (hits.get? k).isSome = true := by
      unfold anchoredKeys
      rw [List.mem_filter, Dict.mem_unique]
    refine ⟨fun hk => if_neg fun hm => hk (hwanted.mp hm).1, fun v hk hv => ?_⟩
    rcases hr : authority.read k s with ⟨e | r, s1⟩
    · rw [bind_error hr] at hv
      cases hv
    rw [bind_ok hr] at hv
    have hget := hits_eq.2 r hk (congrArg Prod.fst hr)
    cases r with
    | none =>
      have hnone : none = v := Except.ok.inj hv
      rw [if_neg fun hm => by rw [hget] at hwanted; exact Bool.false_ne_true (hwanted.mp hm).2, hnone]
    | some w =>
      have hin : k ∈ anchoredKeys hits (Dict.unique keys) := hwanted.mpr ⟨hk, by rw [hget]; rfl⟩
      obtain ⟨parts, hread, rfl⟩ := map_ok hv
      have halike : ∀ p ∈ T.unanchoredParts, p.1.Alike s1 s' := by
        intro p hp
        obtain ⟨hpm, hpr⟩ := mem_unanchoredParts hp
        have hsep : authority.Spares p.1 := (h.separate.forall hmem hpm fun heq =>
          hpr (by rw [← heq]; exact hrole)).1
        have hs := hsep.read k s
        have hs' := hsep.batchRead (Dict.unique keys) s
        rw [hr] at hs
        rw [hb] at hs'
        exact IsTrans.trans _ _ _ hs.symm hs'
      rw [if_pos hin, List.map_cons, hget,
        readParts_eq hin hparts hspares halike hread hfound]

/-! ## A node -/

/-- Where the record is held whole, the targets a read consults decide. -/
theorem agrees_of_lookups (ha : ¬ T.assembled = true) (hlookups : ∀ t ∈ T.lookups, t.Agree)
    (hspares : T.lookups.Pairwise Target.Spares) : Agrees T.read T.batchRead T.existsKey T.batchExists := by
  have hread : ∀ k, (T.read k : M S _) = readFrom k T.lookups [] := fun k => if_neg ha
  have hbatch : ∀ ks, (T.batchRead ks : M S _) = batchReadFrom ks T.lookups [] Dict.empty :=
    fun ks => if_neg ha
  have hexists : ∀ k, T.existsKey k = existsFrom k T.lookups := fun k => if_neg ha
  have hmany : ∀ ks, T.batchExists ks = T.lookups.foldlM (existsShare ks) ∅ := fun ks => if_neg ha
  refine ⟨fun k s v hv => ?_, fun ks s found hfound k => ?_, fun ks s d hd k => ?_⟩
  · rw [hread] at hv
    rw [hexists]
    exact existsFrom_eq hlookups hspares (fun t _ => Std.Refl.refl s) hv
  · rw [hmany] at hfound
    rw [hread]
    have hk := foldlM_existsShare hlookups hspares hfound k
    refine ⟨fun hmem => (hk.2.1 hmem).resolve_left (by simp), fun v hmem hv => ?_⟩
    exact hk.2.2 (by simp) hmem s [] v (fun t _ => Std.Refl.refl s) hv
  · rw [hbatch] at hd
    rw [hread]
    have hk := batchReadFrom_get? hlookups hspares (fun c hc => by cases hc) hd k
    refine ⟨fun hmem => hk.2.1 rfl hmem, fun v hmem hv => ?_⟩
    exact hk.2.2 rfl hmem s [] v (fun t _ => Std.Refl.refl s) hv

/-- The short cuts of a node's reads agree with its reads. -/
theorem agrees (h : T.Readable) : Agrees T.read T.batchRead T.existsKey T.batchExists := by
  have hlookups : ∀ t ∈ T.lookups, t.Agree := fun t ht => h.agreeWhole t (Readers.mem_lookups ht)
  have hspares := lookups_spares h
  by_cases ha : T.assembled = true
  · have hread : ∀ k, (T.read k : M S _) = T.assembleOne k := fun k => if_pos ha
    have hbatch : ∀ ks, (T.batchRead ks : M S _) = T.assembleMany ks none := fun ks => if_pos ha
    have hexists : ∀ k, T.existsKey k = Option.isSome <$> T.read k := fun k => if_pos ha
    have hmany : ∀ ks, T.batchExists ks = (fun d => d.keys.toFinset) <$> T.batchRead ks :=
      fun ks => if_pos ha
    refine ⟨fun k s v hv => ?_, fun ks s found hfound k => ?_, fun ks s d hd k => ?_⟩
    · rw [hexists, map_apply, hv]
      rfl
    · rw [hmany, hbatch] at hfound
      rw [hread]
      obtain ⟨d, hd, rfl⟩ := map_ok hfound
      have hk := assembleMany_get? h hd k
      rw [List.mem_toFinset, Dict.mem_keys, ← Option.isSome_iff_exists]
      refine ⟨fun hsome => ?_, fun v hmem hv => by rw [hk.2 v hmem hv]⟩
      by_contra hmem
      rw [hk.1 hmem] at hsome
      cases hsome
    · rw [hbatch] at hd
      rw [hread]
      exact assembleMany_get? h hd k
  · exact agrees_of_lookups ha hlookups hspares

end Topology

end Kvtsjl
