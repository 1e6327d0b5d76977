import Kvtsjl.Answers
import Kvtsjl.VectorIndex

/-
  A view that owns a part of an entry, and the rest of the entry.
  A sync through it reads the entry, builds it anew from parts and writes the whole of it, so what the view
  does not own has to be carried over. The document is carried over only where the embedding may be
  reused too. So a view that embeds anew each time leaves no document in what it writes
  (`sync_ownPart_iff`). Deleting takes the view's own fields and nothing else (`delete_clears`).
-/

namespace Kvtsjl

open Assoc (Dict)
open Effects Prog Delimited

theorem get?_dropFields {X : Type} (owned : List String) (data : Dict String X) (f : String) :
    (EntryData.dropFields owned data).get? f = if f ∈ owned then none else data.get? f := by
  show (owned.foldl (fun remaining field => remaining.erase field) data).get? f = _
  induction owned generalizing data with
  | nil => rfl
  | cons field owned ih =>
    rw [List.foldl_cons, ih, Dict.get?_erase]
    by_cases hf : f = field
    · have hmem : f ∈ field :: owned := by
        rw [hf]
        exact List.mem_cons_self
      rw [if_pos hf, if_pos hmem]
      split <;> rfl
    · rw [if_neg hf]
      simp only [List.mem_cons, hf, false_or]

namespace MemoryVectorIndex

variable {K V X α F Q : Type} [DecidableEq α] (i : MemoryVectorIndex K V (Dict String X) α F Q)

/-! ## What a patch view may touch -/

/-- The fields the view owns. One that declares none owns none. -/
def owns (f : String) : Prop := f ∈ i.indexSet.ownedFields.getD []

/-- Between two states no entry came or went, and of each entry only the view's own part changed. -/
structure OwnPartOnly (root root' : VectorRoot K (Dict String X) α F) : Prop where
  entries : ∀ pid, (root'.records.get? pid).isSome = (root.records.get? pid).isSome
  document : ∀ pid e e', root.records.get? pid = some e → root'.records.get? pid = some e' →
    e'.2.document = e.2.document
  embedding : i.indexSet.embeddingOf = none → ∀ pid, root'.vectors.get? pid = root.vectors.get? pid
  fields : ∀ pid e e', root.records.get? pid = some e → root'.records.get? pid = some e' →
    ∀ f, ¬ i.owns f → e'.2.data.get? f = e.2.data.get? f

/-- `merge_data` changes only the fields the view owns. -/
def MergesOwnFields : Prop :=
  ∀ key value (previous : Dict String X) f, ¬ i.owns f →
    (i.mergeDataFn key value (some previous)).get? f = previous.get? f

instance : Std.Refl (OwnPartOnly i) where
  refl root := by
    refine ⟨fun _ => rfl, fun pid e e' h h' => ?_, fun _ _ => rfl, fun pid e e' h h' f _ => ?_⟩
    · rw [Option.some.inj (h.symm.trans h')]
    · rw [Option.some.inj (h.symm.trans h')]

instance : IsTrans (VectorRoot K (Dict String X) α F) (OwnPartOnly i) where
  trans root₁ root₂ root₃ h h' := by
    have hmiddle : ∀ {pid e}, root₁.records.get? pid = some e → ∃ e₂, root₂.records.get? pid = some e₂ := by
      intro pid e he
      rw [← Option.isSome_iff_exists, h.entries, he]
      rfl
    refine ⟨fun pid => (h'.entries pid).trans (h.entries pid), ?_,
      fun hnone pid => (h'.embedding hnone pid).trans (h.embedding hnone pid), ?_⟩
    · intro pid e e₃ he he₃
      obtain ⟨e₂, he₂⟩ := hmiddle he
      exact (h'.document pid e₂ e₃ he₂ he₃).trans (h.document pid e e₂ he he₂)
    · intro pid e e₃ he he₃ f hf
      obtain ⟨e₂, he₂⟩ := hmiddle he
      exact (h'.fields pid e₂ e₃ he₂ he₃ f hf).trans (h.fields pid e e₂ he he₂ f hf)

/-! ## Syncing -/

/-- What `get` finds of an entry. -/
def held (root : VectorRoot K (Dict String X) α F) (key : K) : Option (VectorRecord (Dict String X) F) :=
  (root.records.get? (i.physicalIdBlob key)).map fun e => { e.2 with score := none }

/-- The sync does not write an entry that has a document by a view that carries none over. -/
def SyncSafe (root : VectorRoot K (Dict String X) α F) (key : K) (value : V) : Prop :=
  i.indexSet.reuseEmbedding = true ∨
    (i.indexSet.embeddingOf.bind fun embeddingOf => embeddingOf key value) = none ∨
    ∀ e, root.records.get? (i.physicalIdBlob key) = some e → e.2.document = none

variable {i}

theorem physicalIdBlob_injective : Function.Injective i.physicalIdBlob := by
  intro key key' h
  exact i.indexSet.idSerde.serialize_injective (join_last_injective _ _ h)

/-- An entry is replaced by one that differs in the view's own part. -/
theorem ownPartOnly_put {root : VectorRoot K (Dict String X) α F} {pid : List α}
    {e : K × VectorRecord (Dict String X) F} (he : root.records.get? pid = some e) {key : K} {data : Dict String X}
    {document : Option String} {emb : List F} :
    OwnPartOnly i root (root.put pid i.scope key data document emb) ↔
      document = e.2.document ∧ (i.indexSet.embeddingOf = none → some emb = e.2.embedding) ∧
        ∀ f, ¬ i.owns f → data.get? f = e.2.data.get? f := by
  obtain ⟨vec, hvec, hemb⟩ := VectorRoot.vector_of_record he
  have hnew : (root.put pid i.scope key data document emb).records.get? pid =
      some (key, ⟨data, document, some emb, none⟩) := by
    unfold VectorRoot.put
    rw [Dict.get?_set, if_pos rfl]
  have hother : ∀ p, p ≠ pid → (root.put pid i.scope key data document emb).records.get? p =
      root.records.get? p := by
    intro p hp
    unfold VectorRoot.put
    rw [Dict.get?_set, if_neg hp]
  constructor
  · intro h
    refine ⟨h.document pid e _ he hnew, fun hnone => ?_, h.fields pid e _ he hnew⟩
    have hsame := h.embedding hnone pid
    unfold VectorRoot.put at hsame
    rw [Dict.get?_set, if_pos rfl, hvec] at hsame
    rw [hemb, hsame]
  · rintro ⟨hdocument, hembedding, hfields⟩
    refine ⟨fun p => ?_, fun p e₁ e₂ h₁ h₂ => ?_, fun hnone p => ?_, fun p e₁ e₂ h₁ h₂ f hf => ?_⟩
    · by_cases hp : p = pid
      · rw [hp, hnew, he]
        rfl
      · rw [hother p hp]
    · by_cases hp : p = pid
      · rw [hp] at h₁ h₂
        rw [← Option.some.inj (he.symm.trans h₁), ← Option.some.inj (hnew.symm.trans h₂)]
        exact hdocument
      · rw [hother p hp] at h₂
        rw [Option.some.inj (h₁.symm.trans h₂)]
    · unfold VectorRoot.put
      rw [Dict.get?_set]
      split
      · next hp =>
        rw [hp, hvec, ← hemb]
        exact hembedding hnone
      · rfl
    · by_cases hp : p = pid
      · rw [hp] at h₁ h₂
        rw [← Option.some.inj (he.symm.trans h₁), ← Option.some.inj (hnew.symm.trans h₂)]
        exact hfields f hf
      · rw [hother p hp] at h₂
        rw [Option.some.inj (h₁.symm.trans h₂)]

/-- A view that may reuse the embedding carries the document over, and the vector where it has none of its own. -/
theorem metaOf_carries (hpatch : i.indexSet.documentOf = none) (hreuse : i.indexSet.reuseEmbedding = true)
    (key : K) (value : V) {prev : VectorRecord (Dict String X) F} {vec : List F} (hvec : prev.embedding = some vec) :
    ∃ emb, i.metaOf key value (some prev) =
        ⟨i.mergeDataFn key value (some prev.data), prev.document, some emb, none⟩ ∧
      (i.indexSet.embeddingOf = none → emb = vec) := by
  unfold metaOf
  simp only [hpatch, hreuse, if_true, Option.map_some, Option.bind_none, Option.bind_some]
  split
  · exact ⟨vec, by rw [hvec]; rfl, fun _ => rfl⟩
  · cases hof : i.indexSet.embeddingOf.bind fun embeddingOf => embeddingOf key value with
    | none => exact ⟨vec, by rw [hvec]; rfl, fun _ => rfl⟩
    | some emb =>
      refine ⟨emb, rfl, fun hnone => ?_⟩
      rw [hnone] at hof
      cases hof

/-- A view that embeds anew each time has no document to write. -/
theorem metaOf_anew (hpatch : i.indexSet.documentOf = none) (hreuse : i.indexSet.reuseEmbedding = false)
    (key : K) (value : V) (prev : VectorRecord (Dict String X) F) : i.metaOf key value (some prev) =
      ⟨i.mergeDataFn key value (some prev.data), none,
        i.indexSet.embeddingOf.bind fun embeddingOf => embeddingOf key value, none⟩ := by
  unfold metaOf canReuseEmbedding
  simp only [hpatch, hreuse, Bool.false_and, Bool.false_eq_true, if_false, Option.map_some, Option.bind_none]

/-- A write to an entry that is there. -/
theorem after_upsert {root : VectorRoot K (Dict String X) α F} {key : K} {e : K × VectorRecord (Dict String X) F}
    (he : root.records.get? (i.physicalIdBlob key) = some e) (value : V) (record : VectorRecord (Dict String X) F) :
    (i.upsert key value record).after root = match i.embeddingFor key value record with
      | .ok emb => root.put (i.physicalIdBlob key) i.scope key record.data record.document emb
      | .error _ => root := by
  have hskip : i.patchWriteIsSkippable (some e.2) = false := Bool.and_false _
  unfold upsert Prog.after
  rw [bind_apply, read_apply, he]
  simp only [Option.map_some, hskip, Bool.false_eq_true, if_false]
  rw [bind_apply]
  cases i.embeddingFor key value record <;> rfl

theorem after_upsert_absent (hpatch : i.indexSet.documentOf = none) {root : VectorRoot K (Dict String X) α F}
    {key : K} (he : root.records.get? (i.physicalIdBlob key) = none) (value : V)
    (record : VectorRecord (Dict String X) F) : (i.upsert key value record).after root = root := by
  have hskip : i.patchWriteIsSkippable none = true := by
    unfold patchWriteIsSkippable isPatchView
    rw [hpatch]
    rfl
  unfold upsert Prog.after
  rw [bind_apply, read_apply, he]
  simp only [Option.map_none, hskip, if_true]
  rfl

/-- The write of a sync, against what the state holds: nothing but the view's own part of the entry changes,
    or the entry had a document that the view does not carry over. -/
theorem upsert_ownPart_iff (hpatch : i.indexSet.documentOf = none) (hmerge : i.MergesOwnFields)
    (root : VectorRoot K (Dict String X) α F) (key : K) (value : V) :
    OwnPartOnly i root ((i.upsert key value (i.metaOf key value (i.held root key))).after root) ↔
      SyncSafe i root key value := by
  cases he : root.records.get? (i.physicalIdBlob key) with
  | none =>
    rw [after_upsert_absent hpatch he]
    refine iff_of_true (Std.Refl.refl root) (.inr (.inr fun e h => ?_))
    rw [he] at h
    cases h
  | some e =>
    obtain ⟨vec, -, hemb⟩ := VectorRoot.vector_of_record he
    have hheld : i.held root key = some { e.2 with score := none } := by
      unfold held
      rw [he]
      rfl
    have hfields : ∀ f, ¬ i.owns f → (i.mergeDataFn key value (some e.2.data)).get? f = e.2.data.get? f :=
      hmerge key value e.2.data
    rw [after_upsert he, hheld]
    cases hreuse : i.indexSet.reuseEmbedding with
    | true =>
      refine iff_of_true ?_ (.inl hreuse)
      obtain ⟨emb, hmeta, hsame⟩ := metaOf_carries hpatch hreuse key value
        (show ({ e.2 with score := none } : VectorRecord (Dict String X) F).embedding = some vec from hemb)
      rw [hmeta]
      exact (ownPartOnly_put he).mpr ⟨rfl, fun hnone => by rw [hsame hnone, hemb], hfields⟩
    | false =>
      rw [metaOf_anew hpatch hreuse]
      unfold embeddingFor SyncSafe
      rw [hreuse, he]
      cases hof : i.indexSet.embeddingOf.bind fun embeddingOf => embeddingOf key value with
      | none => exact iff_of_true (Std.Refl.refl root) (.inr (.inl rfl))
      | some emb =>
        refine (ownPartOnly_put he).trans ⟨fun h => .inr (.inr fun e' he' => ?_), fun h => ?_⟩
        · rw [← Option.some.inj he']
          exact h.1.symm
        · rcases h with h | h | h
          · cases h
          · cases h
          · refine ⟨(h e rfl).symm, fun hnone => ?_, hfields⟩
            rw [hnone] at hof
            cases hof

theorem after_sync (root : VectorRoot K (Dict String X) α F) (key : K) (value : V) :
    (i.sync key value).after root = (i.upsert key value (i.metaOf key value (i.held root key))).after root := rfl

/-- One sync changes nothing but the view's own part exactly where it is safe. -/
theorem sync_ownPart_iff (hpatch : i.indexSet.documentOf = none) (hmerge : i.MergesOwnFields)
    (root : VectorRoot K (Dict String X) α F) (key : K) (value : V) :
    OwnPartOnly i root ((i.sync key value).after root) ↔ SyncSafe i root key value := by
  rw [after_sync]
  exact upsert_ownPart_iff hpatch hmerge root key value

/-! ## Syncing a batch -/

theorem held_sameAt {root root' : VectorRoot K (Dict String X) α F} {key : K}
    (h : VectorRoot.SameAt (i.physicalIdBlob key) root root') : i.held root' key = i.held root key := by
  unfold held
  rw [h.2]

theorem SyncSafe.sameAt {root root' : VectorRoot K (Dict String X) α F} {key : K} {value : V}
    (h : VectorRoot.SameAt (i.physicalIdBlob key) root root') (hsafe : SyncSafe i root key value) :
    SyncSafe i root' key value := by
  unfold SyncSafe
  rw [h.2]
  exact hsafe

/-- The records are made before the first is written. Each key's turn finds its entry as it was then, for
    the writes before it were of other ids. -/
theorem batchUpsert_ownPart (hpatch : i.indexSet.documentOf = none) (hmerge : i.MergesOwnFields)
    {made : K × V → VectorRecord (Dict String X) F} {items : List (K × V)} (hnodup : (items.map Prod.fst).Nodup) :
    ∀ root, (∀ e ∈ items, SyncSafe i root e.1 e.2 ∧ made e = i.metaOf e.1 e.2 (i.held root e.1)) →
      OwnPartOnly i root ((forM items fun e => i.upsert e.1 e.2 (made e)).after root) := by
  induction items with
  | nil => exact fun root _ => Std.Refl.refl root
  | cons e items ih =>
    intro root hitems
    obtain ⟨hsafe, hmade⟩ := hitems e List.mem_cons_self
    obtain ⟨hfresh, hnodup⟩ := List.nodup_cons.mp hnodup
    have hfirst := (upsert_ownPart_iff hpatch hmerge root e.1 e.2).mpr hsafe
    rw [← hmade] at hfirst
    unfold Prog.after at hfirst ⊢
    rw [List.forM_cons, bind_apply]
    rcases hrun : i.upsert e.1 e.2 (made e) root with ⟨err | u, root'⟩
    · rw [hrun] at hfirst
      exact hfirst
    · rw [hrun] at hfirst
      refine IsTrans.trans _ _ _ hfirst (ih hnodup root' fun e' he' => ?_)
      have hne : e'.1 ≠ e.1 := by
        intro heq
        exact hfresh (heq ▸ List.mem_map_of_mem he')
      have hsame : VectorRoot.SameAt (i.physicalIdBlob e'.1) root root' := by
        have hmoves : Moves (VectorRoot.SameAt (i.physicalIdBlob e'.1)) (i.upsert e.1 e.2 (made e)) :=
          VectorCall.upsert_moves (fun _ _ _ _ =>
            VectorRoot.sameAt_put (fun h => hne (physicalIdBlob_injective h)) _ _ _ _ _) _ _
        have hmoves := hmoves root
        rw [hrun] at hmoves
        exact hmoves
      obtain ⟨hsafe', hmade'⟩ := hitems e' (List.mem_cons_of_mem _ he')
      exact ⟨hsafe'.sameAt hsame, by rw [hmade', held_sameAt hsame]⟩

section Batch

variable [DecidableEq K]

theorem batchGet_held (keys : List K) (root : VectorRoot K (Dict String X) α F) :
    ∃ d, i.batchGet keys root = (.ok d, root) ∧ ∀ key ∈ keys, d.get? key = i.held root key := by
  have hanswers : ∀ key t, Prog.Same root t →
      (i.get key t).1 = .ok (i.held root key) ∧ Prog.Same t (i.get key t).2 := by
    intro key t ht
    rw [← show t = root from ht]
    exact ⟨rfl, rfl⟩
  obtain ⟨d, root', hrun, hsame, hd⟩ := batchGet_run hanswers keys (Std.Refl.refl root)
  rw [show root' = root from hsame] at hrun
  refine ⟨d, hrun, fun key hkey => ?_⟩
  rw [hd, if_pos hkey]

theorem batchSync_ownPart (hpatch : i.indexSet.documentOf = none) (hmerge : i.MergesOwnFields)
    {items : Dict K V} {root : VectorRoot K (Dict String X) α F}
    (hsafe : ∀ key value, items.get? key = some value → SyncSafe i root key value) :
    OwnPartOnly i root ((i.batchSync items).after root) := by
  obtain ⟨d, hget, hd⟩ := batchGet_held (i := i) items.keys root
  have hentries : (items.map fun key value => (value, i.metaOf key value (d.get? key))).entries =
      items.entries.map fun e => (e.1, e.2, i.metaOf e.1 e.2 (d.get? e.1)) := by
    show List.filterMap _ items.entries = _
    simp
  unfold batchSync Prog.after
  rw [bind_ok hget]
  unfold batchUpsert
  rw [hentries, forM_map]
  refine batchUpsert_ownPart hpatch hmerge items.nodup root fun e he => ⟨hsafe e.1 e.2 (Dict.mem_entries.mp he), ?_⟩
  exact congrArg (i.metaOf e.1 e.2) (hd e.1 (List.mem_map_of_mem he))

end Batch

/-! ## Deleting -/

/-- The view's own fields go from one entry, and the rest of it and every other entry stay. -/
structure Cleared (i : MemoryVectorIndex K V (Dict String X) α F Q) (root root' : VectorRoot K (Dict String X) α F)
    (pid : List α) (owned : List String) : Prop where
  entry : ∀ e, root.records.get? pid = some e → ∃ data, root'.records.get? pid =
      some (e.1, ⟨data, e.2.document, e.2.embedding, none⟩) ∧
    ∀ f, data.get? f = if f ∈ owned then none else e.2.data.get? f
  others : ∀ p, p ≠ pid → root'.records.get? p = root.records.get? p
  vectors : ∀ p, root'.vectors.get? p = root.vectors.get? p

/-- What a delete through a patch view does: nothing where there is no entry, nothing but a refusal where
    the view declares no fields, and else it clears the fields it declares. Unset is the same. -/
structure ClearsOwned (i : MemoryVectorIndex K V (Dict String X) α F Q) (root : VectorRoot K (Dict String X) α F)
    (key : K) : Prop where
  absent : root.records.get? (i.physicalIdBlob key) = none → i.delete key root = (.ok false, root)
  refused : root.records.get? (i.physicalIdBlob key) ≠ none → i.indexSet.ownedFields = none →
    ∃ m, i.delete key root = (.error (.indexUnsupported m), root)
  cleared : ∀ owned, root.records.get? (i.physicalIdBlob key) ≠ none → i.indexSet.ownedFields = some owned →
    ∃ root', i.delete key root = (.ok true, root') ∧ Cleared i root root' (i.physicalIdBlob key) owned
  unset : i.unset key root = i.delete key root

/-- A delete through a patch view, where there is an entry. -/
theorem delete_present (hpatch : i.indexSet.documentOf = none) {root : VectorRoot K (Dict String X) α F} {key : K}
    {e : K × VectorRecord (Dict String X) F} (he : root.records.get? (i.physicalIdBlob key) = some e) :
    i.delete key root = match i.clearOwnedFields e.2.data with
      | .error err => (.error err, root)
      | .ok data => (.ok true, root.amend (i.physicalIdBlob key) data) := by
  have hview : i.isPatchView = true := by
    unfold isPatchView
    rw [hpatch]
    rfl
  unfold delete
  rw [bind_apply, read_apply, he]
  simp only [hview, if_true]
  rw [bind_apply]
  cases i.clearOwnedFields e.2.data <;> rfl

theorem delete_absent {root : VectorRoot K (Dict String X) α F} {key : K}
    (he : root.records.get? (i.physicalIdBlob key) = none) : i.delete key root = (.ok false, root) := by
  unfold delete
  rw [bind_apply, read_apply, he]
  rfl

theorem cleared_amend {root : VectorRoot K (Dict String X) α F} {pid : List α} {owned : List String}
    {e : K × VectorRecord (Dict String X) F} (he : root.records.get? pid = some e) :
    Cleared i root (root.amend pid (EntryData.dropFields owned e.2.data)) pid owned := by
  refine ⟨fun e' he' => ?_, fun p hp => ?_, fun p => ?_⟩
  · rw [VectorRoot.records_amend, if_pos rfl, he, ← Option.some.inj (he.symm.trans he')]
    exact ⟨_, rfl, get?_dropFields owned _⟩
  · rw [VectorRoot.records_amend, if_neg hp]
  · rw [VectorRoot.vectors_amend]

theorem delete_clears (hpatch : i.indexSet.documentOf = none) (root : VectorRoot K (Dict String X) α F) (key : K) :
    ClearsOwned i root key where
  absent := delete_absent
  refused := by
    intro hne hnone
    obtain ⟨e, he⟩ := Option.ne_none_iff_exists'.mp hne
    rw [delete_present hpatch he]
    unfold clearOwnedFields
    rw [hnone]
    exact ⟨_, rfl⟩
  cleared := by
    intro owned hne howned
    obtain ⟨e, he⟩ := Option.ne_none_iff_exists'.mp hne
    rw [delete_present hpatch he]
    unfold clearOwnedFields
    rw [howned]
    exact ⟨_, rfl, cleared_amend he⟩
  unset := rfl

/-- What is cleared is the view's own part. -/
theorem Cleared.ownPart {root root' : VectorRoot K (Dict String X) α F} {pid : List α} {owned : List String}
    (howned : i.indexSet.ownedFields = some owned) (h : Cleared i root root' pid owned)
    (hpid : root.records.get? pid ≠ none) : OwnPartOnly i root root' := by
  obtain ⟨e, he⟩ := Option.ne_none_iff_exists'.mp hpid
  obtain ⟨data, hnew, hdata⟩ := h.entry e he
  have hpart : ∀ p e₁ e₂, root.records.get? p = some e₁ → root'.records.get? p = some e₂ →
      e₂.2.document = e₁.2.document ∧ ∀ f, ¬ i.owns f → e₂.2.data.get? f = e₁.2.data.get? f := by
    intro p e₁ e₂ h₁ h₂
    by_cases hp : p = pid
    · rw [hp] at h₁ h₂
      rw [← Option.some.inj (he.symm.trans h₁), ← Option.some.inj (hnew.symm.trans h₂)]
      refine ⟨rfl, fun f hf => ?_⟩
      unfold owns at hf
      rw [howned, Option.getD_some] at hf
      exact (hdata f).trans (if_neg hf)
    · rw [h.others p hp] at h₂
      rw [Option.some.inj (h₁.symm.trans h₂)]
      exact ⟨rfl, fun _ _ => rfl⟩
  refine ⟨fun p => ?_, fun p e₁ e₂ h₁ h₂ => (hpart p e₁ e₂ h₁ h₂).1, fun _ => h.vectors,
    fun p e₁ e₂ h₁ h₂ => (hpart p e₁ e₂ h₁ h₂).2⟩
  by_cases hp : p = pid
  · rw [hp, hnew, he]
    rfl
  · rw [h.others p hp]

theorem delete_ownPart (hpatch : i.indexSet.documentOf = none) (key : K) :
    Moves (OwnPartOnly i) (i.delete key) := by
  intro root
  have hclears := delete_clears (i := i) hpatch root key
  by_cases he : root.records.get? (i.physicalIdBlob key) = none
  · rw [hclears.absent he]
    exact Std.Refl.refl root
  · cases howned : i.indexSet.ownedFields with
    | none =>
      obtain ⟨m, hrun⟩ := hclears.refused he howned
      rw [hrun]
      exact Std.Refl.refl root
    | some owned =>
      obtain ⟨root', hrun, hcleared⟩ := hclears.cleared owned he howned
      rw [hrun]
      exact hcleared.ownPart howned he

/-! ## Runs of one view -/

section Runs

variable [DecidableEq K] (i : MemoryVectorIndex K V (Dict String X) α F Q)

/-- The calls a composition makes of a view that owns a part. -/
def PatchCall : VectorCall K V (Dict String X) F → Prop
  | .sync _ _ | .batchSync _ | .delete _ | .batchDelete _ | .unset _ | .batchUnset _ => True
  | _ => False

def StepSafe (root : VectorRoot K (Dict String X) α F) : VectorCall K V (Dict String X) F → Prop
  | .sync key value => i.SyncSafe root key value
  | .batchSync items => ∀ key value, items.get? key = some value → i.SyncSafe root key value
  | _ => True

/-- Every sync of the run is safe where it is made. -/
def RunSafe : List (VectorCall K V (Dict String X) F) → VectorRoot K (Dict String X) α F → Prop
  | [], _ => True
  | call :: calls, root => i.StepSafe root call ∧ RunSafe calls ((call.run i).after root)

variable {i}

theorem patchCall_ownPart (hpatch : i.indexSet.documentOf = none) (hmerge : i.MergesOwnFields)
    {call : VectorCall K V (Dict String X) F} (hcall : PatchCall call) {root : VectorRoot K (Dict String X) α F}
    (hsafe : i.StepSafe root call) : OwnPartOnly i root ((call.run i).after root) := by
  have hcount : ∀ keys, Moves (OwnPartOnly i) (countTrue i.delete keys) := fun keys =>
    Moves.foldlM (fun n key _ => (delete_ownPart hpatch key).bind fun b => by
      split <;> exact Moves.pure _) 0
  cases call with
  | sync key value => exact (sync_ownPart_iff hpatch hmerge root key value).mpr hsafe
  | batchSync items => exact batchSync_ownPart hpatch hmerge hsafe
  | delete key => exact (delete_ownPart hpatch key).map root
  | batchDelete keys => exact (hcount keys).map root
  | unset key => exact (delete_ownPart hpatch key).map root
  | batchUnset keys => exact (hcount keys).map root
  | upsert key value record => exact hcall.elim
  | batchUpsert items => exact hcall.elim
  | set key record => exact hcall.elim
  | batchSet items => exact hcall.elim

/-- A run of a patch view whose syncs are safe changes nothing but the view's own part of the entries, and
    whatever it has come to, deleting takes exactly the view's own fields. -/
theorem patchRun_ownPart (hpatch : i.indexSet.documentOf = none) (hmerge : i.MergesOwnFields) :
    ∀ {calls : List (VectorCall K V (Dict String X) F)}, (∀ call ∈ calls, PatchCall call) →
      ∀ {root : VectorRoot K (Dict String X) α F}, i.RunSafe calls root →
        OwnPartOnly i root (runCalls (calls.map fun call => (i, call)) root) ∧
        ∀ key, ClearsOwned i (runCalls (calls.map fun call => (i, call)) root) key := by
  intro calls
  induction calls with
  | nil => exact fun _ root _ => ⟨Std.Refl.refl root, delete_clears hpatch root⟩
  | cons call calls ih =>
    intro hcalls root hsafe
    have hfirst := patchCall_ownPart hpatch hmerge (hcalls call List.mem_cons_self) hsafe.1
    obtain ⟨hrest, hclears⟩ := ih (fun c hc => hcalls c (List.mem_cons_of_mem _ hc)) hsafe.2
    exact ⟨IsTrans.trans _ _ _ hfirst hrest, hclears⟩

end Runs

/-! ## A view of feedback -/

/-- It owns one field, and embeds the value it is given. -/
def feedback (reuse : Bool) : MemoryVectorIndex (List Char) Int (Dict String String) Char Int String where
  indexSet := ⟨"notes", "1", KeyWire.str, .identity _, some fun _ n => some [n], none,
    some ["feedback"], reuse⟩
  mergeDataFn := fun _ _ previous => (previous.getD Dict.empty).set "feedback" "good"
  embedContent := none
  scope := .empty

theorem feedback_merges (reuse : Bool) : (feedback reuse).MergesOwnFields := by
  intro key value previous f hf
  have hne : f ≠ "feedback" := fun h => hf (List.mem_singleton.mpr h)
  show (previous.set "feedback" "good").get? f = previous.get? f
  rw [Dict.get?_set, if_neg hne]

/-- One note, written by the view that has documents. -/
def noted : VectorRoot (List Char) (Dict String String) Char Int :=
  runCalls [(notes .empty, .upsert ['x'] 7 ⟨Dict.empty, some "text", none, none⟩)] .empty

theorem feedback_ownPart :
    OwnPartOnly (feedback true) noted (runCalls ([.sync ['x'] 8, .delete ['x']].map fun call =>
      (feedback true, call)) noted) ∧
    ∀ key, ClearsOwned (feedback true) (runCalls ([.sync ['x'] 8, .delete ['x']].map fun call =>
      (feedback true, call)) noted) key := by
  refine patchRun_ownPart rfl (feedback_merges true) (fun call hcall => ?_) ⟨.inl rfl, trivial, trivial⟩
  rcases List.mem_cons.mp hcall with rfl | hcall
  · trivial
  · rw [List.mem_singleton.mp hcall]
    trivial

/-- Where every sync is to embed anew, the document goes. -/
theorem feedback_erases : (feedback false).indexSet.documentOf = none ∧ (feedback false).MergesOwnFields ∧
    ¬ OwnPartOnly (feedback false) noted (runCalls [(feedback false, .sync ['x'] 8)] noted) := by
  refine ⟨rfl, feedback_merges false, fun h => ?_⟩
  have hdocument := h.document ['x'] (['x'], ⟨Dict.empty, some "text", some [7], none⟩)
    (['x'], ⟨Dict.empty.set "feedback" "good", none, some [8], none⟩) rfl rfl
  cases hdocument

end MemoryVectorIndex

end Kvtsjl
