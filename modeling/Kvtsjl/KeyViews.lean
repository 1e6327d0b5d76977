import Kvtsjl.ValueViews

/-
  A view of a store's keys, `imap_keys`, when two caller keys may be one stored key.
  `batch_get` fans each stored value out to every key that asked for it. `batch_exists`
  and `batch_stat` file the caller keys under their stored keys, so the last one wins, and
  a conditional batch files its writes so: it makes one of two, and reports both.
-/

namespace Kvtsjl

open Assoc (Dict)
open Effects Prog

/-! ## Filing under stored keys -/

section Filed

variable {γ SK β : Type} [DecidableEq SK]

/-- What a dictionary holds that was filled in turn. -/
theorem get?_fill (f : γ → SK) (g : γ → β) (xs : List γ) : ∀ (d : Dict SK β) (sk : SK),
    ((∃ x ∈ xs, f x = sk) → ∃ x ∈ xs, f x = sk ∧
      (xs.foldl (fun d x => d.set (f x) (g x)) d).get? sk = some (g x)) ∧
    ((∀ x ∈ xs, f x ≠ sk) → (xs.foldl (fun d x => d.set (f x) (g x)) d).get? sk = d.get? sk) := by
  induction xs with
  | nil => exact fun d sk => ⟨fun h => by simp at h, fun _ => rfl⟩
  | cons x xs ih =>
    intro d sk
    obtain ⟨hsome, hnone⟩ := ih (d.set (f x) (g x)) sk
    rw [List.foldl_cons]
    constructor
    · intro _
      by_cases hlater : ∃ y ∈ xs, f y = sk
      · obtain ⟨y, hy, hfy, hget⟩ := hsome hlater
        exact ⟨y, List.mem_cons_of_mem _ hy, hfy, hget⟩
      · have hkept := hnone fun y hy hfy => hlater ⟨y, hy, hfy⟩
        have hx : f x = sk := by
          obtain ⟨y, hy, hfy⟩ := ‹∃ y ∈ x :: xs, f y = sk›
          rcases List.mem_cons.mp hy with rfl | hy
          · exact hfy
          · exact absurd ⟨y, hy, hfy⟩ hlater
        refine ⟨x, List.mem_cons_self, hx, ?_⟩
        rw [hkept, Dict.get?_set, if_pos hx.symm]
    · intro hne
      rw [hnone fun y hy => hne y (List.mem_cons_of_mem _ hy), Dict.get?_set,
        if_neg (Ne.symm (hne x List.mem_cons_self))]

theorem get?_fill_empty {f : γ → SK} {g : γ → β} {xs : List γ} {sk : SK} {b : β}
    (h : (xs.foldl (fun d x => d.set (f x) (g x)) Dict.empty).get? sk = some b) :
    ∃ x ∈ xs, f x = sk ∧ g x = b := by
  obtain ⟨hsome, hnone⟩ := get?_fill f g xs Dict.empty sk
  by_cases hx : ∃ x ∈ xs, f x = sk
  · obtain ⟨x, hmem, hfx, hget⟩ := hsome hx
    exact ⟨x, hmem, hfx, Option.some.inj (hget.symm.trans h)⟩
  · rw [hnone fun x hmem hfx => hx ⟨x, hmem, hfx⟩] at h
    cases h

end Filed

section Reads

variable {σ K SK V : Type} [DecidableEq K] [DecidableEq SK] {s : KvStore σ SK V} {st : σ}
  {content : SK → Option V} {toStore : K → SK} {fromStore : Option (SK → K)}

omit [DecidableEq K] in
/-- The caller key a stored key is filed with is one that maps to it. -/
theorem callerKeys_get? {keys : List K} {sk : SK} {k : K}
    (h : (callerKeys toStore keys).get? sk = some k) : k ∈ keys ∧ toStore k = sk := by
  obtain ⟨x, hx, hsk, hk⟩ := get?_fill_empty (f := toStore) (g := fun k => k) h
  rw [← hk]
  exact ⟨hx, hsk⟩

variable (toStore) in
omit [DecidableEq K] in
theorem mem_callerKeys {keys : List K} {k : K} (h : k ∈ keys) :
    ∃ j, (callerKeys toStore keys).get? (toStore k) = some j := by
  obtain ⟨x, -, -, hget⟩ := (get?_fill toStore (fun k => k) keys Dict.empty (toStore k)).1 ⟨k, h, rfl⟩
  exact ⟨x, hget⟩

variable (toStore fromStore)

theorem imapKeys_batchGet (h : s.readable.Answers st content) (keys : List K) :
    ∃ d, ((imapKeysStore s toStore fromStore).batchGet keys st).1 = .ok d ∧
      ∀ k ∈ keys, d.get? k = content (toStore k) := by
  cases keys with
  | nil => exact ⟨Dict.empty, rfl, fun k hk => by cases hk⟩
  | cons j js =>
    obtain ⟨d, hd, hget⟩ := h.batchGet (Dict.unique ((Dict.unique (j :: js)).map toStore))
    refine ⟨Dict.ofKeys (j :: js) fun key => d.get? (toStore key), ?_, fun k hk => ?_⟩
    · show ((s.readable.batchGet (Dict.unique ((Dict.unique (j :: js)).map toStore)) >>= fun d => _) st).1 = _
      rw [bind_ok (Prod.ext hd rfl)]
      rfl
    · have hin : toStore k ∈ Dict.unique ((Dict.unique (j :: js)).map toStore) :=
        Dict.mem_unique.mpr (List.mem_map_of_mem (Dict.mem_unique.mpr hk))
      rw [Dict.get?_ofKeys, if_pos hk, hget, if_pos hin]

/-- `batch_exists` answers for the caller key each stored key is filed with. -/
theorem imapKeys_batchExists (h : s.readable.Answers st content) (keys : List K) :
    ∃ held, ((imapKeysStore s toStore fromStore).batchExists keys st).1 = .ok held ∧
      ∀ k, k ∈ held ↔ (callerKeys toStore keys).get? (toStore k) = some k ∧
        (content (toStore k)).isSome = true := by
  obtain ⟨held, hheld, hmem⟩ := h.batchExists (callerKeys toStore keys).keys
  refine ⟨((callerKeys toStore keys).entries.filterMap fun e =>
    if e.1 ∈ held then some e.2 else none).toFinset, ?_, fun k => ?_⟩
  · show ((s.readable.batchExists (callerKeys toStore keys).keys >>= fun d => _) st).1 = _
    rw [bind_ok (Prod.ext hheld rfl)]
    rfl
  · rw [List.mem_toFinset, List.mem_filterMap]
    constructor
    · intro ⟨e, he, hk⟩
      have hfiled : (callerKeys toStore keys).get? e.1 = some e.2 := Dict.mem_entries.mp he
      by_cases hin : e.1 ∈ held
      · rw [if_pos hin] at hk
        have hkey := Option.some.inj hk
        have hsk : toStore k = e.1 := by
          rw [← hkey]
          exact (callerKeys_get? hfiled).2
        rw [hsk, ← hkey]
        exact ⟨hfiled, ((hmem e.1).mp hin).2⟩
      · rw [if_neg hin] at hk
        cases hk
    · intro ⟨hfiled, hsome⟩
      have hin : toStore k ∈ held :=
        (hmem _).mpr ⟨Dict.mem_keys.mpr ⟨k, hfiled⟩, hsome⟩
      exact ⟨(toStore k, k), Dict.mem_entries.mpr hfiled, if_pos hin⟩

/-- So does `batch_stat`. -/
theorem imapKeys_batchStat (h : s.readable.Answers st content) (keys : List K) :
    ∃ d, ((imapKeysStore s toStore fromStore).batchStat keys st).1 = .ok d ∧
      ∀ k, if (callerKeys toStore keys).get? (toStore k) = some k
        then (s.stat (toStore k) st).1 = .ok (d.get? k) else d.get? k = none := by
  obtain ⟨found, hfound, hget⟩ := h.batchStat (callerKeys toStore keys).keys
  refine ⟨Dict.ofKeys ((callerKeys toStore keys).entries.map Prod.snd)
    fun key => found.get? (toStore key), ?_, fun k => ?_⟩
  · show ((s.readable.batchStat (callerKeys toStore keys).keys >>= fun d => _) st).1 = _
    rw [bind_ok (Prod.ext hfound rfl)]
    rfl
  · have hmem : k ∈ (callerKeys toStore keys).entries.map Prod.snd ↔
        (callerKeys toStore keys).get? (toStore k) = some k := by
      rw [List.mem_map]
      constructor
      · intro ⟨e, he, hk⟩
        have hfiled : (callerKeys toStore keys).get? e.1 = some e.2 := Dict.mem_entries.mp he
        rw [← hk, (callerKeys_get? hfiled).2]
        exact hfiled
      · intro hfiled
        exact ⟨(toStore k, k), Dict.mem_entries.mpr hfiled, rfl⟩
    rw [Dict.get?_ofKeys]
    split
    · next hfiled =>
      rw [if_pos (hmem.mpr hfiled)]
      have hk := hget (toStore k)
      rw [if_pos (Dict.mem_keys.mpr ⟨k, hfiled⟩)] at hk
      exact hk
    · next hfiled => rw [if_neg fun hk => hfiled (hmem.mp hk)]

/-- A batch answers for each key what the point reads answer. -/
def FormsAgree (view : KvStore σ K V) (keys : List K) (st : σ) : Prop :=
  ∃ values held stats, (view.batchGet keys st).1 = .ok values ∧
    (view.batchExists keys st).1 = .ok held ∧ (view.batchStat keys st).1 = .ok stats ∧
    ∀ k ∈ keys, (view.get k st).1 = .ok (values.get? k) ∧
      (view.existsKey k st).1 = .ok (decide (k ∈ held)) ∧ (view.stat k st).1 = .ok (stats.get? k)

/-- The read forms agree exactly where no two keys of the batch stand for one stored key
    that is held. -/
theorem formsAgree_iff (h : s.readable.Answers st content) (keys : List K) :
    FormsAgree (imapKeysStore s toStore fromStore) keys st ↔
      ∀ k ∈ keys, ∀ k' ∈ keys, k ≠ k' → toStore k = toStore k' → content (toStore k) = none := by
  obtain ⟨values, hvalues, hget⟩ := imapKeys_batchGet toStore fromStore h keys
  obtain ⟨held, hheld, hmem⟩ := imapKeys_batchExists toStore fromStore h keys
  obtain ⟨stats, hstats, hstat⟩ := imapKeys_batchStat toStore fromStore h keys
  constructor
  · intro ⟨_, held', _, _, hheld', _, hagree⟩ k hk k' hk' hne hsk
    obtain rfl : held' = held := Except.ok.inj (hheld'.symm.trans hheld)
    by_contra hsome
    have hisSome : (content (toStore k)).isSome = true := Option.ne_none_iff_isSome.mp hsome
    have hexists : ∀ j ∈ keys, toStore j = toStore k →
        (callerKeys toStore keys).get? (toStore k) = some j := by
      intro j hj hjk
      have hpoint : (s.existsKey (toStore j) st).1 = .ok (decide (j ∈ held')) := (hagree j hj).2.1
      have hanswer := (h.existsKey (toStore j)).symm.trans hpoint
      rw [hjk, hisSome] at hanswer
      have hin : j ∈ held' := of_decide_eq_true (Except.ok.inj hanswer).symm
      rw [← hjk]
      exact ((hmem j).mp hin).1
    have hsame := (hexists k hk rfl).symm.trans (hexists k' hk' hsk.symm)
    exact hne (Option.some.inj hsame)
  · intro hapart
    refine ⟨values, held, stats, hvalues, hheld, hstats, fun k hk => ?_⟩
    have hfiled : content (toStore k) ≠ none → (callerKeys toStore keys).get? (toStore k) = some k := by
      intro hsome
      obtain ⟨j, hj⟩ := mem_callerKeys toStore hk
      obtain ⟨hjmem, hjsk⟩ := callerKeys_get? hj
      by_cases hjk : k = j
      · rw [hj, hjk]
      · exact absurd (hapart k hk j hjmem hjk hjsk.symm) hsome
    obtain ⟨m, hm, hmsome⟩ := h.stat (toStore k)
    refine ⟨?_, ?_, ?_⟩
    · rw [hget k hk]
      exact h.get (toStore k)
    · have hin : k ∈ held ↔ (content (toStore k)).isSome = true := by
        rw [hmem]
        exact ⟨fun hboth => hboth.2, fun hsome => ⟨hfiled (Option.isSome_iff_ne_none.mp hsome), hsome⟩⟩
      have hanswer : decide (k ∈ held) = (content (toStore k)).isSome := by
        rw [Bool.eq_iff_iff, decide_eq_true_iff]
        exact hin
      rw [hanswer]
      exact h.existsKey (toStore k)
    · have hk := hstat k
      by_cases hsome : content (toStore k) = none
      · have hnone : m = none := by
          rw [hsome] at hmsome
          cases m with
          | none => rfl
          | some m => cases hmsome
        have hlooked : stats.get? k = none := by
          split at hk
          · rw [show (s.stat (toStore k) st).1 = _ from hm, hnone] at hk
            exact (Except.ok.inj hk).symm
          · exact hk
        rw [hlooked, ← hnone]
        exact hm
      · rw [if_pos (hfiled hsome)] at hk
        exact hk

end Reads

/-! ## Maps that make every write decided against what is there -/

namespace Versioning

variable {σ K T : Type} [DecidableEq K] {m : KeyMap σ K T}

/-- The write was decided against what the map holds. There is nothing to remove of what is
    not there. -/
def Current (v : Versioning m) (s : σ) (k : K) (w : ConditionalWrite T) : Prop :=
  w.seen.version = (v.entry s k).map v.version ∧ (w.change = .remove → w.seen.version ≠ none)

/-- An entry that was there earlier had this version. -/
def Issued (v : Versioning m) (s : σ) (t : Token) : Prop :=
  ∃ s0 k e, v.Later s0 s ∧ v.entry s0 k = some e ∧ v.version e = t

/-- The value stored for a key, expired or not. -/
def stored (v : Versioning m) (s : σ) (k : K) : Option T := (v.entry s k).bind v.value

/-- The map answers, makes exactly the writes that are current, and never names a new entry
    by a version it has used. -/
structure Faithful (v : Versioning m) : Prop where
  reads : ∀ ks s, ∃ seen, (m.batchReadVersioned ks s).1 = .ok seen
  writes : ∀ ws ttl s, ∃ written, (m.batchWriteIfUnchanged ws ttl s).1 = .ok written ∧
    ∀ k, k ∈ written ↔ ∃ w, ws.get? k = some w ∧ v.Current s k w
  fresh : ∀ ws ttl s written k e, (m.batchWriteIfUnchanged ws ttl s).1 = .ok written → k ∈ written →
    v.entry (m.batchWriteIfUnchanged ws ttl s).2 k = some e → ¬ v.Issued s (v.version e)

section Faithful

variable {v : Versioning m}

/-- What a conditional batch of such a map stores. -/
theorem Faithful.stored_write (hv : v.Faithful) (ws : Dict K (ConditionalWrite T))
    (ttl : Option TtlPolicy) (s : σ) {k : K} {w : ConditionalWrite T} (hw : ws.get? k = some w)
    (hcurrent : v.Current s k w) :
    v.stored (m.batchWriteIfUnchanged ws ttl s).2 k = w.change.value? := by
  obtain ⟨written, hok, hmem⟩ := hv.writes ws ttl s
  have hwritten : k ∈ written := (hmem k).mpr ⟨w, hw, hcurrent⟩
  have hspec := (v.write ws ttl s).2
  rw [hok] at hspec
  have hk := hspec k
  rw [if_pos hwritten] at hk
  obtain ⟨w', hw', -, hstored⟩ := hk
  obtain rfl : w = w' := Option.some.inj (hw.symm.trans hw')
  unfold stored
  cases hc : w.change with
  | put x =>
    rw [hc] at hstored
    obtain ⟨e, he, hx⟩ := hstored
    rw [he]
    exact hx
  | remove =>
    rw [hc] at hstored
    have hnone : v.entry (m.batchWriteIfUnchanged ws ttl s).2 k = none := hstored
    rw [hnone]
    rfl

/-- Two writes of one key, made one after the other, that leave what `s'` stores. -/
def MadeInTurn (v : Versioning m) (ttl : Option TtlPolicy) (s s' : σ) (k : K)
    (first second : ConditionalWrite T) : Prop :=
  ∃ s1 s2 made made', m.batchWriteIfUnchanged (Dict.single k first) ttl s = (.ok made, s1) ∧
    k ∈ made ∧ m.batchWriteIfUnchanged (Dict.single k second) ttl s1 = (.ok made', s2) ∧
    k ∈ made' ∧ v.stored s2 k = v.stored s' k

/-- Where one of two writes was made of a key, the two cannot be made in turn with the same
    outcome: the first leaves a version the second was not decided against. -/
theorem Faithful.not_madeInTurn (hv : v.Faithful) {ttl : Option TtlPolicy} {s s' : σ} {k : K}
    {first second last : ConditionalWrite T} (hlast : last = first ∨ last = second)
    (hcurrent : v.Current s k last) (hleft : v.stored s' k = last.change.value?)
    (hissued : ∀ t, second.seen.version = some t → v.Issued s t) :
    ¬ v.MadeInTurn ttl s s' k first second := by
  intro ⟨s1, s2, made, made', h1, hmade, h2, hmade', hsame⟩
  have hwrite1 := hv.writes (Dict.single k first) ttl s
  have hspec1 := (v.write (Dict.single k first) ttl s).2
  have hfresh := hv.fresh (Dict.single k first) ttl s made k
  rw [h1] at hwrite1 hspec1 hfresh
  have hwrite2 := hv.writes (Dict.single k second) ttl s1
  rw [h2] at hwrite2
  have hcurrent1 : v.Current s k first := by
    obtain ⟨written, hok, hmem⟩ := hwrite1
    obtain rfl : made = written := Except.ok.inj hok
    obtain ⟨w, hw, hcur⟩ := (hmem k).mp hmade
    rw [Dict.get?_single, if_pos rfl] at hw
    rw [Option.some.inj hw]
    exact hcur
  have hcurrent2 : v.Current s1 k second := by
    obtain ⟨written, hok, hmem⟩ := hwrite2
    obtain rfl : made' = written := Except.ok.inj hok
    obtain ⟨w, hw, hcur⟩ := (hmem k).mp hmade'
    rw [Dict.get?_single, if_pos rfl] at hw
    rw [Option.some.inj hw]
    exact hcur
  have hstored2 := hv.stored_write (Dict.single k second) ttl s1 (k := k) (by simp) hcurrent2
  rw [h2] at hstored2
  have hk := hspec1 k
  rw [if_pos hmade] at hk
  obtain ⟨w, hw, -, hstored1⟩ := hk
  rw [Dict.get?_single, if_pos rfl] at hw
  obtain rfl : first = w := Option.some.inj hw
  cases hc : first.change with
  | put x =>
    rw [hc] at hstored1
    obtain ⟨e, he, -⟩ := hstored1
    have hseen : second.seen.version = some (v.version e) := by
      rw [hcurrent2.1, he]
      rfl
    exact hfresh e rfl hmade he (hissued _ hseen)
  | remove =>
    rw [hc] at hstored1
    have hgone : v.entry s1 k = none := hstored1
    have hseen : second.seen.version = none := by
      rw [hcurrent2.1, hgone]
      rfl
    cases hc2 : second.change with
    | remove => exact hcurrent2.2 hc2 hseen
    | put y =>
      rcases hlast with rfl | rfl
      · rw [hleft, hstored2, hc, hc2] at hsame
        cases hsame
      · refine hcurrent1.2 hc ?_
        rw [hcurrent1.1, ← hcurrent.1]
        exact hseen

end Faithful

end Versioning

/-! ## Writes through the view -/

section Writes

variable {σ K SK V : Type} [DecidableEq K] [DecidableEq SK] {s : KvStore σ SK V}
  {v : Versioning s.toKeyMap} {toStore : K → SK} {fromStore : Option (SK → K)}

/-- The writes of a batch, filed under stored keys. -/
def storedWrites (toStore : K → SK) (writes : Dict K (ConditionalWrite V)) :
    Dict SK (ConditionalWrite V) :=
  writes.entries.foldl (fun d e => d.set (toStore e.1) e.2) Dict.empty

theorem storedWrites_get? {writes : Dict K (ConditionalWrite V)} {sk : SK} {w : ConditionalWrite V}
    (h : (storedWrites toStore writes).get? sk = some w) :
    ∃ k, writes.get? k = some w ∧ toStore k = sk := by
  unfold storedWrites at h
  obtain ⟨e, he, hsk, hw⟩ := get?_fill_empty (f := fun e : K × ConditionalWrite V => toStore e.1)
    (g := fun e => e.2) h
  rw [← hw]
  exact ⟨e.1, Dict.mem_entries.mp he, hsk⟩

variable (toStore) in
theorem mem_storedWrites {writes : Dict K (ConditionalWrite V)} {k : K} {w : ConditionalWrite V}
    (h : writes.get? k = some w) : ∃ w', (storedWrites toStore writes).get? (toStore k) = some w' := by
  obtain ⟨e, -, -, hget⟩ := (get?_fill (fun e : K × ConditionalWrite V => toStore e.1) (fun e => e.2)
    writes.entries Dict.empty (toStore k)).1 ⟨(k, w), Dict.mem_entries.mpr h, rfl⟩
  exact ⟨e.2, hget⟩

variable (toStore) in
/-- A conditional batch reports every key whose stored key was written. -/
theorem imapKeys_write (hv : v.Faithful) (fromStore : Option (SK → K))
    (writes : Dict K (ConditionalWrite V)) (ttl : Option TtlPolicy) (st : σ) :
    ∃ written, (imapKeysStore s toStore fromStore).batchWriteIfUnchanged writes ttl st =
        (.ok written, (s.batchWriteIfUnchanged (storedWrites toStore writes) ttl st).2) ∧
      ∀ k, k ∈ written ↔ (writes.get? k).isSome = true ∧
        ∃ w, (storedWrites toStore writes).get? (toStore k) = some w ∧ v.Current st (toStore k) w := by
  obtain ⟨stored, hok, hmem⟩ := hv.writes (storedWrites toStore writes) ttl st
  refine ⟨(writes.keys.filter fun key => toStore key ∈ stored).toFinset, ?_, fun k => ?_⟩
  · show (s.toKeyMap.batchWriteIfUnchanged (storedWrites toStore writes) ttl >>= fun written => _) st = _
    rw [bind_ok (Prod.ext hok rfl)]
    rfl
  · rw [List.mem_toFinset, List.mem_filter, decide_eq_true_iff, Dict.mem_keys, ← Option.isSome_iff_exists,
      hmem]

/-- Two keys of a batch that stand for one stored key are never both reported, but where
    the two writes made in turn would leave what is stored. -/
def NeverBothWritten (v : Versioning s.toKeyMap) (toStore : K → SK) (fromStore : Option (SK → K))
    (writes : Dict K (ConditionalWrite V)) (ttl : Option TtlPolicy) (st : σ) : Prop :=
  ∀ written s', (imapKeysStore s toStore fromStore).batchWriteIfUnchanged writes ttl st = (.ok written, s') →
    ∀ k k' w w', writes.get? k = some w → writes.get? k' = some w' → k ≠ k' → toStore k = toStore k' →
      k ∈ written → k' ∈ written →
        v.MadeInTurn ttl st s' (toStore k) w w' ∨ v.MadeInTurn ttl st s' (toStore k) w' w

/-- That is so exactly where the write filed last under a shared stored key is not current. -/
theorem neverBothWritten_iff (hv : v.Faithful) (fromStore : Option (SK → K))
    (writes : Dict K (ConditionalWrite V)) (ttl : Option TtlPolicy) (st : σ)
    (hissued : ∀ k w t, writes.get? k = some w → w.seen.version = some t → v.Issued st t) :
    NeverBothWritten v toStore fromStore writes ttl st ↔
      ∀ k k', (writes.get? k).isSome = true → (writes.get? k').isSome = true → k ≠ k' →
        toStore k = toStore k' → ∀ w, (storedWrites toStore writes).get? (toStore k) = some w →
          ¬ v.Current st (toStore k) w := by
  obtain ⟨written, hrun, hmem⟩ := imapKeys_write toStore hv fromStore writes ttl st
  constructor
  · intro hnever k k' hk hk' hne hsk w hlast hcurrent
    have hleft := hv.stored_write (storedWrites toStore writes) ttl st hlast hcurrent
    obtain ⟨last, hw, hlastKey⟩ := storedWrites_get? hlast
    -- the key filed last, and one of the two that is not it
    obtain ⟨other, w', hw', hother, hne'⟩ : ∃ other w', writes.get? other = some w' ∧
        toStore other = toStore k ∧ last ≠ other := by
      by_cases hlk : last = k
      · obtain ⟨w', hw'⟩ := Option.isSome_iff_exists.mp hk'
        exact ⟨k', w', hw', hsk.symm, by rw [hlk]; exact hne⟩
      · obtain ⟨w', hw'⟩ := Option.isSome_iff_exists.mp hk
        exact ⟨k, w', hw', rfl, hlk⟩
    have hreported : ∀ j wj, writes.get? j = some wj → toStore j = toStore k → j ∈ written := by
      intro j wj hj hjk
      rw [hmem, hjk]
      exact ⟨by rw [hj]; rfl, w, hlast, hcurrent⟩
    rw [← hlastKey] at hcurrent hleft hother
    rcases hnever written _ hrun last other w w' hw hw' hne' hother.symm
        (hreported last w hw hlastKey) (hreported other w' hw' (hother.trans hlastKey)) with hturn | hturn
    · exact hv.not_madeInTurn (.inl rfl) hcurrent hleft (fun t => hissued other w' t hw') hturn
    · exact hv.not_madeInTurn (.inr rfl) hcurrent hleft (fun t => hissued last w t hw) hturn
  · intro hapart written' s' hrun' k k' w w' hw hw' hne hsk hk hk'
    obtain ⟨hok, -⟩ := Prod.mk.inj (hrun.symm.trans hrun')
    obtain rfl : written = written' := Except.ok.inj hok
    obtain ⟨-, last, hlast, hcurrent⟩ := (hmem k).mp hk
    exact absurd hcurrent (hapart k k' (by rw [hw]; rfl) (by rw [hw']; rfl) hne hsk last hlast)

/-! ## Updates through the view -/

/-- What a read against versions shows of the caller keys. -/
def viewSeen (v : Versioning s.toKeyMap) (toStore : K → SK) (keys : List K) (st : σ) :
    Dict K (Versioned V) :=
  Dict.ofKeys keys fun k =>
    some ⟨(v.entry st (toStore k)).bind (v.live st), (v.entry st (toStore k)).map v.version⟩

/-- The writes an update decides on. -/
def decidedWrites (v : Versioning s.toKeyMap) (toStore : K → SK) (keys : List K)
    (decide : Dict K (Option V) → Dict K (Decision V)) (options : WriteOptions) (st : σ) :
    Dict K (ConditionalWrite V) :=
  KeyMap.roundWrites options.createdAt (Dict.unique keys) (viewSeen v toStore keys st)
    (decide (KeyMap.shown (Dict.unique keys) (viewSeen v toStore keys st)))

/-- What a decision makes of the value it was shown. -/
def afterDecision : Option (Decision V) → Option V → Option V
  | none, value => value
  | some .keep, value => value
  | some (.change c), _ => c.value?

/-- What one key's decision, made alone, leaves of the value it is shown. -/
def decidedAlone (decide : Dict K (Option V) → Dict K (Decision V)) (k : K) (value : Option V) : Option V :=
  afterDecision ((decide (Dict.single k value)).get? k) value

/-- Both keys' decisions made in turn, each shown what the one before left. -/
def decidedInTurn (decide : Dict K (Option V) → Dict K (Decision V)) (first second : K)
    (value : Option V) : Option V :=
  decidedAlone decide second (decidedAlone decide first value)

theorem seenAt_viewSeen {keys : List K} {k : K} (hk : k ∈ keys) (st : σ) :
    KeyMap.seenAt (viewSeen v toStore keys st) k =
      ⟨(v.entry st (toStore k)).bind (v.live st), (v.entry st (toStore k)).map v.version⟩ := by
  unfold KeyMap.seenAt viewSeen
  rw [Dict.get?_ofKeys, if_pos hk]
  rfl

variable (toStore) in
/-- A read against versions shows that, and changes no entry. -/
theorem imapKeys_readVersioned (hv : v.Faithful) (fromStore : Option (SK → K)) (keys : List K) (st : σ) :
    ∃ seen st', (imapKeysStore s toStore fromStore).batchReadVersioned keys st = (.ok seen, st') ∧
      (∀ k ∈ keys, KeyMap.seenAt seen k = KeyMap.seenAt (viewSeen v toStore keys st) k) ∧
      v.Later st st' ∧ ∀ sk, v.entry st' sk = v.entry st sk := by
  let stored := Dict.unique ((Dict.unique keys).map toStore)
  obtain ⟨found, hfound⟩ := hv.reads stored st
  obtain ⟨hlater, hentry, hread⟩ := v.read stored st
  refine ⟨Dict.ofKeys keys fun key => found.get? (toStore key), _, ?_, fun k hk => ?_, hlater, hentry⟩
  · show (s.toKeyMap.batchReadVersioned stored >>= fun found => _) st = _
    rw [bind_ok (Prod.ext hfound rfl)]
    rfl
  · have hin : toStore k ∈ stored :=
      Dict.mem_unique.mpr (List.mem_map_of_mem (Dict.mem_unique.mpr hk))
    rw [seenAt_viewSeen hk]
    unfold KeyMap.seenAt
    rw [Dict.get?_ofKeys, if_pos hk, hread found hfound (toStore k) hin]
    rfl

/-- A write an update decides on is current. -/
theorem decidedWrites_current {keys : List K} {decide : Dict K (Option V) → Dict K (Decision V)}
    {options : WriteOptions} {st : σ} {k : K} {w : ConditionalWrite V}
    (h : (decidedWrites v toStore keys decide options st).get? k = some w) :
    v.Current st (toStore k) w := by
  unfold decidedWrites KeyMap.roundWrites at h
  rw [Dict.get?_ofKeys] at h
  split at h
  · next hk =>
    rw [seenAt_viewSeen (Dict.mem_unique.mp hk)] at h
    generalize (decide _).get? k = decision at h
    cases decision with
    | none => cases h
    | some d =>
      cases d with
      | keep => cases h
      | change c =>
        cases c with
        | put x =>
          rw [← Option.some.inj h]
          exact ⟨rfl, fun hc => by cases hc⟩
        | remove =>
          unfold KeyMap.roundWrite at h
          simp only at h
          split at h
          · cases h
          · next hversion =>
            rw [← Option.some.inj h]
            exact ⟨rfl, fun _ => hversion⟩
  · cases h

variable (toStore) in
/-- An update of any keys reports every key it decided to change, and stores what was filed
    last under each stored key. -/
theorem imapKeys_update (hv : v.Faithful) (fromStore : Option (SK → K)) (keys : List K)
    (decide : Dict K (Option V) → Dict K (Decision V)) (options : WriteOptions) {attempts : Int}
    (hattempts : 1 ≤ attempts) (st : σ) :
    ∃ held st', (imapKeysStore s toStore fromStore).toKeyMap.batchUpdate keys decide options attempts st =
        (.ok (.ok held), st') ∧
      ∀ sk w, (storedWrites toStore (decidedWrites v toStore keys decide options st)).get? sk = some w →
        v.stored st' sk = w.change.value? := by
  obtain ⟨seen, st1, hread, hseen, hlater, hentry⟩ :=
    imapKeys_readVersioned toStore hv fromStore (Dict.unique keys) st
  have hpending : ∀ k ∈ Dict.unique keys, KeyMap.seenAt seen k = KeyMap.seenAt (viewSeen v toStore keys st) k := by
    intro k hk
    rw [hseen k hk, seenAt_viewSeen hk, seenAt_viewSeen (Dict.mem_unique.mp hk)]
  have hshown : KeyMap.shown (Dict.unique keys) seen =
      KeyMap.shown (Dict.unique keys) (viewSeen v toStore keys st) :=
    Dict.ofKeys_congr fun k hk => by rw [hpending k hk]
  have hwrites : KeyMap.roundWrites options.createdAt (Dict.unique keys) seen
      (decide (KeyMap.shown (Dict.unique keys) seen)) =
        decidedWrites v toStore keys decide options st := by
    unfold decidedWrites
    rw [hshown]
    exact Dict.ofKeys_congr fun k hk => by rw [hpending k hk]
  obtain ⟨n, hn⟩ : ∃ n, attempts.toNat = n + 1 := ⟨attempts.toNat - 1, by omega⟩
  obtain ⟨written, st2, hround, hall, hstored⟩ : ∃ written st2,
      (imapKeysStore s toStore fromStore).toKeyMap.writeRound
          (decidedWrites v toStore keys decide options st) options.ttl st1 = (.ok written, st2) ∧
        (∀ k ∈ (decidedWrites v toStore keys decide options st).keys, k ∈ written) ∧
        ∀ sk w, (storedWrites toStore (decidedWrites v toStore keys decide options st)).get? sk = some w →
          v.stored st2 sk = w.change.value? := by
    unfold KeyMap.writeRound
    by_cases hempty : (decidedWrites v toStore keys decide options st).entries.isEmpty = true
    · have hnone : (decidedWrites v toStore keys decide options st).entries = [] :=
        List.isEmpty_iff.mp hempty
      refine ⟨∅, st1, by rw [if_pos hempty]; rfl, fun k hk => ?_, fun sk w hw => ?_⟩
      · unfold Dict.keys at hk
        rw [hnone] at hk
        cases hk
      · unfold storedWrites at hw
        rw [hnone] at hw
        cases hw
    · rw [if_neg hempty]
      have hcurrent : ∀ k w, (storedWrites toStore (decidedWrites v toStore keys decide options st)).get? k =
          some w → v.Current st1 k w := by
        intro sk w hw
        obtain ⟨k, hk, hsk⟩ := storedWrites_get? hw
        have hcur := decidedWrites_current hk
        unfold Versioning.Current at hcur ⊢
        rw [hentry, ← hsk]
        exact hcur
      obtain ⟨written, hrun, hmem⟩ := imapKeys_write toStore hv fromStore
        (decidedWrites v toStore keys decide options st) options.ttl st1
      refine ⟨written, _, hrun, fun k hk => ?_, fun sk w hw => ?_⟩
      · obtain ⟨w, hw⟩ := Dict.mem_keys.mp hk
        obtain ⟨w', hw'⟩ := mem_storedWrites toStore hw
        exact (hmem k).mpr ⟨by rw [hw]; rfl, w', hw', hcurrent _ _ hw'⟩
      · exact hv.stored_write _ options.ttl st1 hw (hcurrent sk w hw)
  have hlost : KeyMap.lostKeys (decidedWrites v toStore keys decide options st) written = [] := by
    unfold KeyMap.lostKeys
    rw [List.filter_eq_nil_iff]
    intro k hk
    simp [hall k hk]
  refine ⟨KeyMap.heldWritten (decidedWrites v toStore keys decide options st) written
    (KeyMap.heldKept (Dict.unique keys) seen (decide (KeyMap.shown (Dict.unique keys) seen)) Dict.empty),
    st2, ?_, hstored⟩
  unfold KeyMap.batchUpdate
  rw [if_neg (by omega), hn, KeyMap.batchUpdateRounds, bind_ok hread]
  simp only
  rw [hwrites, bind_ok hround]
  simp only [hlost]
  rfl

/-- After an update, two keys that stand for one stored key and are both reported changed
    have both decisions, in turn, in what is stored. -/
def BothDecisionsStored (v : Versioning s.toKeyMap) (toStore : K → SK) (fromStore : Option (SK → K))
    (keys : List K) (decide : Dict K (Option V) → Dict K (Decision V)) (options : WriteOptions)
    (attempts : Int) (st : σ) : Prop :=
  ∀ held st', (imapKeysStore s toStore fromStore).toKeyMap.batchUpdate keys decide options attempts st =
      (.ok (.ok held), st') →
    ∀ k k', ((decidedWrites v toStore keys decide options st).get? k).isSome = true →
      ((decidedWrites v toStore keys decide options st).get? k').isSome = true → k ≠ k' →
      toStore k = toStore k' →
        v.stored st' (toStore k) =
            decidedInTurn decide k k' ((v.entry st (toStore k)).bind (v.live st)) ∨
          v.stored st' (toStore k) =
            decidedInTurn decide k' k ((v.entry st (toStore k)).bind (v.live st))

/-- That is so exactly where the last decision filed under a shared stored key leaves what
    both decisions leave, made in one order or the other. -/
theorem bothDecisionsStored_iff (hv : v.Faithful) (fromStore : Option (SK → K)) (keys : List K)
    (decide : Dict K (Option V) → Dict K (Decision V)) (options : WriteOptions) {attempts : Int}
    (hattempts : 1 ≤ attempts) (st : σ) :
    BothDecisionsStored v toStore fromStore keys decide options attempts st ↔
      ∀ k k', ((decidedWrites v toStore keys decide options st).get? k).isSome = true →
        ((decidedWrites v toStore keys decide options st).get? k').isSome = true → k ≠ k' →
        toStore k = toStore k' → ∀ w,
          (storedWrites toStore (decidedWrites v toStore keys decide options st)).get? (toStore k) = some w →
            w.change.value? = decidedInTurn decide k k' ((v.entry st (toStore k)).bind (v.live st)) ∨
              w.change.value? = decidedInTurn decide k' k ((v.entry st (toStore k)).bind (v.live st)) := by
  obtain ⟨held, st', hrun, hstored⟩ := imapKeys_update toStore hv fromStore keys decide
    options hattempts st
  constructor
  · intro hboth k k' hk hk' hne hsk w hw
    have hturn := hboth held st' hrun k k' hk hk' hne hsk
    rw [hstored _ w hw] at hturn
    exact hturn
  · intro hturn held' st'' hrun' k k' hk hk' hne hsk
    obtain ⟨-, rfl⟩ := Prod.mk.inj (hrun.symm.trans hrun')
    obtain ⟨wk, hwk⟩ := Option.isSome_iff_exists.mp hk
    obtain ⟨w, hw⟩ := mem_storedWrites toStore hwk
    rw [hstored _ w hw]
    exact hturn k k' hk hk' hne hsk w hw

/-- Over a source whose reads agree and that makes exactly the writes that are current: the
    batch forms of a key view agree with the point forms, and no two keys that stand for one
    stored key are both written, exactly where no such two keys meet what is held, what is
    current, or a decision that is not what both leave in turn. -/
theorem imapKeys_forms_iff (s : KvStore σ SK V) (v : Versioning s.toKeyMap) (hv : v.Faithful)
    (toStore : K → SK) (fromStore : Option (SK → K)) (st : σ) (content : SK → Option V)
    (h : s.readable.Answers st content) :
    (∀ keys, FormsAgree (imapKeysStore s toStore fromStore) keys st ↔
      ∀ k ∈ keys, ∀ k' ∈ keys, k ≠ k' → toStore k = toStore k' → content (toStore k) = none) ∧
    (∀ writes ttl, (∀ k w t, writes.get? k = some w → w.seen.version = some t → v.Issued st t) →
      (NeverBothWritten v toStore fromStore writes ttl st ↔
        ∀ k k', (writes.get? k).isSome = true → (writes.get? k').isSome = true → k ≠ k' →
          toStore k = toStore k' → ∀ w, (storedWrites toStore writes).get? (toStore k) = some w →
            ¬ v.Current st (toStore k) w)) ∧
    ∀ keys decide options attempts, 1 ≤ attempts →
      (BothDecisionsStored v toStore fromStore keys decide options attempts st ↔
        ∀ k k', ((decidedWrites v toStore keys decide options st).get? k).isSome = true →
          ((decidedWrites v toStore keys decide options st).get? k').isSome = true → k ≠ k' →
          toStore k = toStore k' → ∀ w,
            (storedWrites toStore (decidedWrites v toStore keys decide options st)).get? (toStore k) = some w →
              w.change.value? = decidedInTurn decide k k' ((v.entry st (toStore k)).bind (v.live st)) ∨
                w.change.value? = decidedInTurn decide k' k ((v.entry st (toStore k)).bind (v.live st))) :=
  ⟨fun keys => formsAgree_iff toStore fromStore h keys,
    fun writes ttl hissued => neverBothWritten_iff hv fromStore writes ttl st hissued,
    fun keys decide options _ hattempts =>
      bothDecisionsStored_iff hv fromStore keys decide options hattempts st⟩

end Writes

/-! ## Over a memory store -/

section Memory

open MemoryKvBackend

/-- A batch of conditional writes makes exactly those whose own write is made. -/
theorem foldl_made {σ K T E : Type} [DecidableEq K] (write : K → ConditionalWrite T → M σ Bool)
    (entry : σ → K → Option E) (C : Option E → ConditionalWrite T → Prop)
    (h : ∀ k w s, (∃ made, (write k w s).1 = .ok made ∧ (made = true ↔ C (entry s k) w)) ∧
      ∀ j, j ≠ k → entry (write k w s).2 j = entry s j)
    (es : List (K × ConditionalWrite T)) (hn : (es.map Prod.fst).Nodup) :
    ∀ (done : Finset K) (s : σ), ∃ written, (es.foldlM (addWritten write) done s).1 = .ok written ∧
      ∀ k, k ∈ written ↔ k ∈ done ∨ ∃ w, (k, w) ∈ es ∧ C (entry s k) w := by
  induction es with
  | nil =>
    intro done s
    exact ⟨done, rfl, fun k => by simp⟩
  | cons e es ih =>
    intro done s
    obtain ⟨k, w⟩ := e
    rw [List.map_cons, List.nodup_cons] at hn
    obtain ⟨⟨made, hmade, hiff⟩, hothers⟩ := h k w s
    have hstep : addWritten write done (k, w) s =
        (.ok (if made then insert k done else done), (write k w s).2) := by
      unfold addWritten
      exact bind_ok (Prod.ext hmade rfl)
    obtain ⟨written, hw, hmem⟩ := ih hn.2 (if made then insert k done else done) (write k w s).2
    refine ⟨written, ?_, fun j => ?_⟩
    · rw [List.foldlM_cons, bind_ok hstep]
      exact hw
    · have hdone : j ∈ (if made then insert k done else done) ↔ j ∈ done ∨ j = k ∧ C (entry s k) w := by
        rw [← hiff]
        cases made <;> simp [or_comm]
      have hrest : (∃ w', (j, w') ∈ es ∧ C (entry (write k w s).2 j) w') ↔
          ∃ w', (j, w') ∈ es ∧ C (entry s j) w' := by
        refine exists_congr fun w' => and_congr_right fun hin => ?_
        have hj : j ≠ k := fun he => hn.1 (List.mem_map.mpr ⟨(j, w'), hin, he⟩)
        rw [hothers j hj]
      rw [hmem, hdone, hrest]
      constructor
      · rintro ((hin | ⟨rfl, hc⟩) | ⟨w', hin, hc⟩)
        · exact .inl hin
        · exact .inr ⟨w, List.mem_cons_self, hc⟩
        · exact .inr ⟨w', List.mem_cons_of_mem _ hin, hc⟩
      · rintro (hin | ⟨w', hin, hc⟩)
        · exact .inl (.inl hin)
        · rcases List.mem_cons.mp hin with he | hin
          · obtain ⟨rfl, rfl⟩ := Prod.mk.inj he
            exact .inl (.inr ⟨rfl, hc⟩)
          · exact .inr ⟨w', hin, hc⟩

variable {K V α VB : Type} [DecidableEq α] (b : MemoryKvBackend K V α VB) {f : K → List α}

/-- A compare and write is made exactly of a current write, and leaves another entry than
    was there. -/
theorem writeIfUnchanged_made (hf : ∀ k, b.physicalKeyBlob k = .ok (f k)) (ttl : Option TtlPolicy)
    (k : K) (w : ConditionalWrite V) (r : MemoryRoot α VB) :
    ∃ made, (b.writeIfUnchanged ttl k w r).1 = .ok made ∧
      (made = true ↔ w.seen.version = (b.entry r k).map (fun e => Token.identity e.id) ∧
        (w.change = .remove → w.seen.version ≠ none)) ∧
      (made = true → b.entry (b.writeIfUnchanged ttl k w r).2 k ≠ b.entry r k) := by
  rw [b.writeIfUnchanged_apply hf]
  by_cases hv : (b.entry r k).map (fun e => Token.identity e.id) = w.seen.version
  · rw [if_neg (not_not.mpr hv)]
    cases hc : w.change with
    | put value =>
      simp only
      rw [bind_ok (b.set_apply (hf k) value _ r), pure_apply]
      refine ⟨true, rfl, ⟨fun _ => ⟨hv.symm, fun hc => by cases hc⟩, fun _ => rfl⟩, fun _ hsame => ?_⟩
      rw [(b.entry_put (hf k) r _ _ _ k).1 rfl] at hsame
      have hlt := MemoryRoot.bucket_fresh ((b.entry_eq (hf k) r).symm.trans hsame.symm)
      exact absurd hlt (Nat.lt_irrefl _)
    | remove =>
      simp only
      rw [b.delete_apply (hf k)]
      refine ⟨(b.entry r k).isSome, rfl, ?_, fun hsome hsame => ?_⟩
      · rw [← hv]
        cases b.entry r k with
        | none => simp
        | some e => simp
      · rw [(b.entry_pop (hf k) r k).1 rfl] at hsame
        rw [← hsame] at hsome
        cases hsome
  · rw [if_pos hv]
    exact ⟨false, rfl, ⟨fun h => (by cases h), fun h => absurd h.1.symm hv⟩, fun h => (by cases h)⟩

variable [DecidableEq K]

/-- A memory store whose keys and values all encode and decode. -/
theorem memoryVersioning_faithful (hf : ∀ k, b.physicalKeyBlob k = .ok (f k))
    (hd : ∀ blob, (b.kvset.valueSerde.deserialize blob).isSome = true) : (memoryVersioning b).Faithful where
  reads ks r := by
    have hask : ∀ k t, r = t → (b.readVersioned k t).1 = .ok
        ⟨(b.entry r k).bind (b.live r), (b.entry r k).map fun e => Token.identity e.id⟩ ∧
        t = (b.readVersioned k t).2 := by
      intro k t ht
      subst ht
      obtain ⟨hstate, hspec⟩ := b.readVersioned_spec k r
      rcases hrun : (b.readVersioned k r).1 with e | x
      · exfalso
        unfold readVersioned at hrun
        rw [b.physicalKey_ok (hf k), pure_bind, bind_apply, read_apply] at hrun
        simp only at hrun
        cases he : b.entryAt r (f k) with
        | none => rw [he] at hrun; cases hrun
        | some e =>
          rw [he] at hrun
          simp only at hrun
          split at hrun
          · cases hrun
          · obtain ⟨x, hx⟩ := Option.isSome_iff_exists.mp (hd e.valueBlob)
            unfold deserializeValue at hrun
            rw [hx] at hrun
            cases hrun
      · exact ⟨congrArg Except.ok (hspec x hrun), hstate.symm⟩
    obtain ⟨t, hrun, -⟩ := foldlM_answers (fun out k => rfl) hask (Dict.unique ks)
      Dict.empty r rfl
    exact ⟨_, congrArg Prod.fst hrun⟩
  writes ws ttl r := by
    obtain ⟨written, hw, hmem⟩ := foldl_made (b.writeIfUnchanged ttl) b.entry
      (fun e w => w.seen.version = e.map (fun e => Token.identity e.id) ∧
        (w.change = .remove → w.seen.version ≠ none))
      (fun k w r => by
        obtain ⟨made, hmade, hiff, -⟩ := writeIfUnchanged_made b hf ttl k w r
        exact ⟨⟨made, hmade, hiff⟩, (b.writesOne hf ttl k w r).others⟩) ws.entries ws.nodup ∅ r
    refine ⟨written, hw, fun k => ?_⟩
    rw [hmem]
    simp only [Finset.notMem_empty, false_or]
    exact exists_congr fun w => and_congr_left fun _ => Dict.mem_entries
  fresh ws ttl r written k e hw hk he := by
    intro ⟨r0, j, e0, hlater0, he0, hid⟩
    have hone : ∀ k w r, WritesOne (b.writeIfUnchanged ttl) b.entry b.Later
        (fun _ before after => after ≠ before) k w r := by
      intro k w r
      obtain ⟨made, hmade, -, hne⟩ := writeIfUnchanged_made b hf ttl k w r
      obtain ⟨hlater, hothers, made', hmade', hspec⟩ := b.writesOne hf ttl k w r
      obtain rfl : made = made' := Except.ok.inj (hmade.symm.trans hmade')
      refine ⟨hlater, hothers, made, hmade, ?_⟩
      cases made with
      | true => exact hne rfl
      | false => exact hspec
    obtain ⟨written', hw', hlater, hspec⟩ := eachConditional_spec hone ws r
    obtain rfl : written = written' := Except.ok.inj (hw.symm.trans hw')
    have hk' := hspec k
    rw [if_pos hk] at hk'
    obtain ⟨-, -, hne⟩ := hk'
    -- an old identity is an old entry
    have hlt : e.id < r.nextId := by
      have hid' : e0.id = e.id := Token.identity.inj hid
      have hbucket := (b.entry_eq (hf j) r0).symm.trans he0
      rw [← hid']
      exact Nat.lt_of_lt_of_le (MemoryRoot.bucket_fresh hbucket) hlater0.1
    refine hne (he.trans ?_)
    have hold := hlater.2 (f k) e ((b.entry_eq (hf k) _).symm.trans he) hlt
    exact ((b.entry_eq (hf k) r).trans hold).symm

theorem plain_faithful (V : Type) : (memoryVersioning (plain V)).Faithful :=
  memoryVersioning_faithful (plain V) (f := id) (fun _ => rfl) fun _ => rfl

end Memory

/-- A view whose keys are all one stored key. -/
def onTop (_ : List Char) : List Char := ['a']

/-- Two inserts that are filed under one stored key. -/
def bothInserts : Dict (List Char) (ConditionalWrite String) :=
  (Dict.single ['p'] ⟨Versioned.absent, .put "y", none⟩).set ['q'] ⟨Versioned.absent, .put "z", none⟩

/-- Two decisions about one stored key, whatever it holds. -/
def bothPut (_ : Dict (List Char) (Option String)) : Dict (List Char) (Decision String) :=
  (Dict.single ['p'] (.change (.put "y"))).set ['q'] (.change (.put "z"))

/-- Of two keys of one that is held, one is not told; neither is inserted, and what is put last is what
    putting both in turn leaves. -/
theorem imapKeys_forms_iff_onTop :
    let s := (MemoryKvBackend.plain String).store
    let v := memoryVersioning (MemoryKvBackend.plain String)
    ¬ FormsAgree (imapKeysStore s onTop none) [['p'], ['q']] oneHeld ∧
      NeverBothWritten v onTop none bothInserts none oneHeld ∧
      BothDecisionsStored v onTop none [['p'], ['q']] bothPut ⟨none, none⟩ 1 oneHeld := by
  intro s v
  obtain ⟨hreads, hwrites, hupdates⟩ := imapKeys_forms_iff s v (plain_faithful String) onTop none oneHeld _
    (MemoryKvBackend.plain_answers oneHeld)
  refine ⟨fun hagree => ?_, (hwrites bothInserts none ?_).mpr ?_, (hupdates _ _ _ 1 (by decide)).mpr ?_⟩
  · cases (hreads _).mp hagree ['p'] (by decide) ['q'] (by decide) (by decide) rfl
  · intro k w t hw ht
    unfold bothInserts at hw
    rw [Dict.get?_set, Dict.get?_single] at hw
    split at hw
    · rw [← Option.some.inj hw] at ht
      cases ht
    · split at hw
      · rw [← Option.some.inj hw] at ht
        cases ht
      · cases hw
  · intro k k' _ _ _ _ w hw ⟨hversion, _⟩
    cases hw
    cases hversion
  · intro k k' hk hk' hne _ w hw
    have hkeys : ∀ j, ((decidedWrites v onTop [['p'], ['q']] bothPut ⟨none, none⟩ oneHeld).get? j).isSome = true →
        j = ['p'] ∨ j = ['q'] := by
      intro j hj
      obtain ⟨x, hx⟩ := Option.isSome_iff_exists.mp hj
      exact (List.mem_cons.mp (Versioning.get?_roundWrites hx).1).imp_right List.mem_singleton.mp
    cases hw
    rcases hkeys k hk with rfl | rfl <;> rcases hkeys k' hk' with rfl | rfl
    · exact absurd rfl hne
    · exact .inl rfl
    · exact .inr rfl
    · exact absurd rfl hne

/-- Two keys that are both there: `batch_exists` names the one filed last. -/
theorem onTop_batch_disagrees :
    let view := imapKeysStore (MemoryKvBackend.plain String).store onTop none
    (view.batchExists [['p'], ['q']] oneHeld).1 = .ok {['q']} ∧ (view.existsKey ['p'] oneHeld).1 = .ok true ∧
      ¬ FormsAgree view [['p'], ['q']] oneHeld := by
  intro view
  refine ⟨rfl, rfl, fun h => ?_⟩
  have hnone := (formsAgree_iff onTop none (MemoryKvBackend.plain_answers oneHeld) [['p'], ['q']]).mp h ['p']
    (by decide) ['q'] (by decide) (by decide) rfl
  cases hnone

end Kvtsjl
