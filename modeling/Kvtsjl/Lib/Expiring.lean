import Kvtsjl.Lib.Script
import Kvtsjl.Lib.Dict

/-
  Clients of one map of entries that expire, some of which remove the expired entries they meet.
  A `Medium` holds the entries and the time. An action notes what it fetched, wrote, deleted
  and collected, and `Accounted` says its notes are all it did.

  Collecting takes two actions, one that fetches the entry and one that removes whatever is
  there by then. `puts_stay` says when that is harmless: where every collection comes
  of a fetch with no write after it, an entry once written stays until it is deleted,
  written over or past its time.
-/

namespace Effects

open Assoc (Dict)

/-- The entries of a map, and the time. -/
structure Medium (P E : Type) [DecidableEq P] where
  entries : Dict P E
  clock : Int

/-- What an action did with a key. -/
inductive Deed (P E : Type) where
  | fetched (p : P) (e : E)
  | wrote (p : P)
  | deleted (p : P)
  /-- Removed because an earlier fetch had shown it to hold `e`, past its time. -/
  | collected (p : P) (e : E)

namespace Medium

variable {P E : Type} [DecidableEq P]

/-- Time passes, and nothing else happens. -/
def Elapsed (m m' : Medium P E) : Prop := m'.entries = m.entries ∧ m.clock ≤ m'.clock

/-- Time does not run backwards. -/
def Later (m m' : Medium P E) : Prop := m.clock ≤ m'.clock

instance : Std.Refl (Later (P := P) (E := E)) := ⟨fun m => Int.le_refl m.clock⟩
instance : IsTrans (Medium P E) Later := ⟨fun _ _ _ h h' => Int.le_trans h h'⟩
instance : Std.Refl (Elapsed (P := P) (E := E)) := ⟨fun m => ⟨rfl, Int.le_refl m.clock⟩⟩
instance : IsTrans (Medium P E) Elapsed :=
  ⟨fun _ _ _ h h' => ⟨h'.1.trans h.1, Int.le_trans h.2 h'.2⟩⟩

/-- Time passes. -/
def wait (t : Nat) (m : Medium P E) : Medium P E := { m with clock := m.clock + t }

theorem wait_elapsed (t : Nat) (m : Medium P E) : m.Elapsed (m.wait t) :=
  ⟨rfl, by unfold wait; simp only; omega⟩

theorem wait_later (t : Nat) (m : Medium P E) : m.Later (m.wait t) := (wait_elapsed t m).2

end Medium

/-! ## Actions on a medium -/

namespace Medium

variable {ε P E α : Type} [DecidableEq P]

/-- What the time is. -/
def time : Script ε (Medium P E) (Deed P E) Int := .one (Prog.read fun m => m.clock) fun _ => []

/-- Fetch entries. -/
def fetch (f : Dict P E → List (P × E)) : Script ε (Medium P E) (Deed P E) (List (P × E)) :=
  .one (Prog.read fun m => f m.entries) fun found => found.map fun e => .fetched e.1 e.2

/-- Ask something about the entries. -/
def ask (f : Dict P E → α) : Script ε (Medium P E) (Deed P E) α :=
  .one (Prog.read fun m => f m.entries) fun _ => []

/-- Change the entries, the time being what it is. -/
def changeAt (f : Int → Dict P E → α × Dict P E) (note : α → List (Deed P E)) :
    Script ε (Medium P E) (Deed P E) α :=
  .one (fun m => (.ok (f m.clock m.entries).1, { m with entries := (f m.clock m.entries).2 })) note

/-- Change the entries. -/
def change (f : Dict P E → α × Dict P E) (note : α → List (Deed P E)) :
    Script ε (Medium P E) (Deed P E) α := changeAt (fun _ => f) note

end Medium

/-- The notes of an action are true of it, and leave out no entry it changed. -/
structure Accounted {P E : Type} [DecidableEq P] (expired : E → Int → Prop)
    (a : Action (Medium P E) (Deed P E)) : Prop where
  fetched : ∀ p e, .fetched p e ∈ a.notes → a.before.entries.get? p = some e
  reads : ∀ p e, .fetched p e ∈ a.notes → .wrote p ∉ a.notes
  collected : ∀ p e, .collected p e ∈ a.notes → expired e a.before.clock
  later : a.before.clock ≤ a.after.clock
  untouched : ∀ p, .wrote p ∉ a.notes → .deleted p ∉ a.notes → (∀ e, .collected p e ∉ a.notes) →
    a.after.entries.get? p = a.before.entries.get? p

namespace Medium

variable {ε P E α : Type} [DecidableEq P] {expired : E → Int → Prop} {s : Medium P E}

theorem time_upholds : (time : Script ε (Medium P E) (Deed P E) Int).Upholds Later
    (Accounted expired) (fun t m => t ≤ m.clock) s := by
  apply Script.Upholds.one
  intro m _
  refine ⟨m.clock, m, rfl, Std.Refl.refl m, ?_, Int.le_refl _⟩
  exact ⟨by simp, by simp, by simp, Int.le_refl _, fun _ _ _ _ => rfl⟩

theorem fetch_upholds {f : Dict P E → List (P × E)} (h : ∀ d, ∀ e ∈ f d, d.get? e.1 = some e.2) :
    (fetch f : Script ε _ _ _).Upholds Later (Accounted expired) (fun found _ => ∃ d, found = f d)
      s := by
  apply Script.Upholds.one
  intro m _
  refine ⟨f m.entries, m, rfl, Std.Refl.refl m, ?_, m.entries, rfl⟩
  refine ⟨fun p e he => ?_, by simp, by simp, Int.le_refl _, fun _ _ _ _ => rfl⟩
  obtain ⟨x, hx, hxe⟩ := List.mem_map.mp he
  obtain ⟨rfl, rfl⟩ := Deed.fetched.inj hxe
  exact h m.entries x hx

theorem ask_upholds {f : Dict P E → α} :
    (ask f : Script ε _ _ _).Upholds Later (Accounted expired) (fun _ _ => True) s := by
  apply Script.Upholds.one
  intro m _
  refine ⟨f m.entries, m, rfl, Std.Refl.refl m, ?_, trivial⟩
  exact ⟨by simp, by simp, by simp, Int.le_refl _, fun _ _ _ _ => rfl⟩

/-- A change accounts for itself where it notes every entry it touches, and what it
    collects was past its time before. -/
theorem changeAt_upholds (he : ∀ e t t', t ≤ t' → expired e t → expired e t')
    {f : Int → Dict P E → α × Dict P E} {note : α → List (Deed P E)}
    (hfetch : ∀ t d p e, .fetched p e ∉ note (f t d).1)
    (hcollect : ∀ t d p e, .collected p e ∈ note (f t d).1 → expired e s.clock)
    (hkeep : ∀ t d p, .wrote p ∉ note (f t d).1 → .deleted p ∉ note (f t d).1 →
      (∀ e, .collected p e ∉ note (f t d).1) → (f t d).2.get? p = d.get? p) :
    (changeAt f note : Script ε _ _ _).Upholds Later (Accounted expired) (fun _ _ => True) s := by
  apply Script.Upholds.one
  intro m hm
  refine ⟨(f m.clock m.entries).1, _, rfl, Int.le_refl _, ?_, trivial⟩
  exact ⟨fun p e h => absurd h (hfetch _ _ p e), fun p e h => absurd h (hfetch _ _ p e),
    fun p e h => he e _ _ hm (hcollect _ _ p e h), Int.le_refl _, hkeep m.clock m.entries⟩

theorem change_upholds (he : ∀ e t t', t ≤ t' → expired e t → expired e t')
    {f : Dict P E → α × Dict P E} {note : α → List (Deed P E)}
    (hfetch : ∀ d p e, .fetched p e ∉ note (f d).1)
    (hcollect : ∀ d p e, .collected p e ∈ note (f d).1 → expired e s.clock)
    (hkeep : ∀ d p, .wrote p ∉ note (f d).1 → .deleted p ∉ note (f d).1 →
      (∀ e, .collected p e ∉ note (f d).1) → (f d).2.get? p = d.get? p) :
    (change f note : Script ε _ _ _).Upholds Later (Accounted expired) (fun _ _ => True) s :=
  changeAt_upholds he (fun _ => hfetch) (fun _ => hcollect) fun _ => hkeep

end Medium

/-! ## Scripts that account for themselves -/

namespace Medium

/-- From `s` on, `t` accounts for what it does, and returns what meets `Q`. -/
def Accounts {ε P E α : Type} [DecidableEq P] (expired : E → Int → Prop)
    (t : Script ε (Medium P E) (Deed P E) α) (Q : α → Medium P E → Prop) (s : Medium P E) : Prop :=
  t.Upholds Later (Accounted expired) Q s

section Accounts

variable {ε P E α β γ : Type} [DecidableEq P] {expired : E → Int → Prop} {s : Medium P E}
  {t : Script ε (Medium P E) (Deed P E) α} {Q : α → Medium P E → Prop}

theorem Accounts.bind {f : α → Script ε (Medium P E) (Deed P E) β} {Q' : β → Medium P E → Prop}
    (h : Accounts expired t Q s)
    (hf : ∀ a s', s.Later s' → Q a s' → Accounts expired (f a) Q' s') :
    Accounts expired (t >>= f) Q' s := Script.Upholds.bind h hf

theorem Accounts.pure {a : α} (h : Q a s) :
    Accounts expired (Pure.pure a : Script ε (Medium P E) (Deed P E) α) Q s := h

theorem Accounts.ofExcept (r : Except ε α) :
    Accounts expired (.done r : Script ε (Medium P E) (Deed P E) α) (fun _ _ => True) s :=
  Script.Upholds.ofExcept fun _ _ => trivial

theorem Accounts.weaken (h : Accounts expired t Q s) :
    Accounts expired t (fun _ _ => True) s := Script.Upholds.weaken h fun _ _ _ => trivial

/-- A loop whose rounds account for themselves from wherever they begin. -/
theorem Accounts.foldlM {f : β → γ → Script ε (Medium P E) (Deed P E) β}
    (hf : ∀ acc x s, Accounts expired (f acc x) (fun _ _ => True) s) (xs : List γ) (acc : β) :
    Accounts expired (xs.foldlM f acc) (fun _ _ => True) s :=
  Script.Upholds.foldlM (I := fun _ _ => True) (fun acc x _ s _ => hf acc x s) trivial

/-- A script whose result is thrown away. -/
theorem Accounts.drop (h : Accounts expired t Q s) :
    Accounts expired (do let _ ← t; return () : Script ε (Medium P E) (Deed P E) Unit)
      (fun _ _ => True) s :=
  h.bind fun _ _ _ _ => Accounts.pure trivial

end Accounts

end Medium

/-! ## What stays -/

namespace World

variable {ι P E Q : Type} [DecidableEq P]

/-- What a call collects it fetched, and nobody wrote the key in between. -/
def Prompt (log : List (Tick ι (Medium P E) (Deed P E) Q))
    (t : Tick ι (Medium P E) (Deed P E) Q) : Prop :=
  ∀ p e, .collected p e ∈ t.notes → ∃ earlier f since, log = earlier ++ f :: since ∧
    f.who = t.who ∧ f.turn = t.turn ∧ .fetched p e ∈ f.notes ∧ ∀ u ∈ since, .wrote p ∉ u.notes

/-- Whatever an action wrote is there until its time is up, unless the key was written
    or deleted since. -/
def PutsStay (expired : E → Int → Prop) (log : List (Tick ι (Medium P E) (Deed P E) Q))
    (m : Medium P E) : Prop :=
  ∀ before t since p e, log = before ++ t :: since → .wrote p ∈ t.notes →
    t.after.entries.get? p = some e →
    (∀ u ∈ since, .wrote p ∉ u.notes ∧ .deleted p ∉ u.notes) →
    m.entries.get? p = some e ∨ expired e m.clock

section PutsStay

variable {expired : E → Int → Prop} {log : List (Tick ι (Medium P E) (Deed P E) Q)}

theorem history_concat {σ ν : Type} {R : σ → σ → Prop} {s s' : σ} {log : List (Tick ι σ ν Q)}
    {t : Tick ι σ ν Q} (h : History R s (log ++ [t]) s') :
    History R s log t.before ∧ R t.after s' := by
  induction log generalizing s with
  | nil => exact h
  | cons u log ih => exact ⟨⟨h.1, (ih h.2).1⟩, (ih h.2).2⟩

theorem PutsStay.elapsed (he : ∀ e t t', t ≤ t' → expired e t → expired e t')
    {m m' : Medium P E} (h : PutsStay expired log m) (hm : m.Elapsed m') :
    PutsStay expired log m' := by
  intro before t since p e hlog hw hp hs
  rw [hm.1]
  exact (h before t since p e hlog hw hp hs).imp_right (he e _ _ hm.2)

/-- One action more. What it collects has been there since it was written, for nobody
    wrote between the fetch and the removal. -/
theorem PutsStay.concat (he : ∀ e t t', t ≤ t' → expired e t → expired e t')
    {u : Tick ι (Medium P E) (Deed P E) Q}
    (hbefore : Guarded (fun before f => PutsStay expired before f.before) log)
    (h : PutsStay expired log u.before) (hA : ∀ t ∈ log, Accounted expired t.toAction)
    (hclock : ∀ t ∈ log, t.before.clock ≤ u.before.clock) (hu : Accounted expired u.toAction)
    (hprompt : Prompt log u) : PutsStay expired (log ++ [u]) u.after := by
  intro before t since p e hlog hw hp hs
  rcases List.eq_nil_or_concat since with rfl | ⟨since, u', rfl⟩
  · obtain ⟨-, heq⟩ := List.append_inj' hlog rfl
    rw [(List.cons.inj heq).1]
    exact .inl hp
  · rw [List.concat_eq_append, ← List.cons_append, ← List.append_assoc] at hlog
    obtain ⟨hl, heq⟩ := List.append_inj' hlog rfl
    obtain rfl := (List.cons.inj heq).1
    have hsince : ∀ v ∈ since, .wrote p ∉ v.notes ∧ .deleted p ∉ v.notes :=
      fun v hv => hs v (by simp [hv])
    have hlast := hs u (by simp)
    rcases h before t since p e hl hw hp hsince with hthere | hexp
    · by_cases hc : ∃ e', .collected p e' ∈ u.notes
      · obtain ⟨e', hc⟩ := hc
        obtain ⟨earlier, f, after, hf, -, -, hfetch, hafter⟩ := hprompt p e' hc
        have hmem : f ∈ log := by rw [hf]; simp
        have hfA := hA f hmem
        have hsame := hfA.fetched p e' hfetch
        -- The fetch lies after the write: nobody wrote after it, and it did not write itself.
        rw [hl] at hf
        have hmid : ∃ mid, since = mid ++ f :: after ∧ earlier = before ++ t :: mid := by
          rcases List.append_eq_append_iff.mp hf with ⟨x, hx, hx'⟩ | ⟨x, hx, hx'⟩
          · cases x with
            | nil =>
              rw [List.nil_append] at hx'
              obtain ⟨rfl, -⟩ := List.cons.inj hx'
              exact absurd hw (hfA.reads p e' hfetch)
            | cons y x =>
              rw [List.cons_append] at hx'
              obtain ⟨rfl, hx''⟩ := List.cons.inj hx'
              exact ⟨x, hx'', hx⟩
          · cases x with
            | nil =>
              rw [List.nil_append] at hx'
              obtain ⟨rfl, -⟩ := List.cons.inj hx'
              exact absurd hw (hfA.reads p e' hfetch)
            | cons y x =>
              obtain ⟨-, hx'⟩ := List.cons.inj hx'
              exact absurd hw (hafter t (by rw [hx']; simp))
        obtain ⟨mid, hmid, hearlier⟩ := hmid
        have hold := hbefore earlier f after (by rw [hl, hf]) before t mid p e hearlier hw hp
          fun v hv => hsince v (by rw [hmid]; simp [hv])
        have hgone := hu.collected p e' hc
        rcases hold with hold | hold
        · obtain rfl := Option.some.inj (hold.symm.trans hsame)
          exact .inr (he _ _ _ hu.later hgone)
        · exact .inr (he _ _ _ (Int.le_trans (hclock f hmem) hu.later) hold)
      · left
        rw [← hthere]
        exact hu.untouched p hlast.1 hlast.2 fun e' hc' => hc ⟨e', hc'⟩
    · exact .inr (he _ _ _ hu.later hexp)

/-- No action of a history began after its end. -/
theorem history_clock {s m : Medium P E} (h : History Medium.Elapsed s log m)
    (hA : ∀ t ∈ log, Accounted expired t.toAction) : ∀ t ∈ log, t.before.clock ≤ m.clock := by
  induction log using List.reverseRecOn generalizing m with
  | nil => simp
  | append_singleton log u ih =>
    obtain ⟨hlog, hend⟩ := history_concat h
    have hlast : u.before.clock ≤ m.clock := Int.le_trans (hA u (by simp)).later hend.2
    intro t ht
    rcases List.mem_append.mp ht with ht | ht
    · exact Int.le_trans (ih hlog (fun v hv => hA v (by simp [hv])) t ht) hlast
    · rw [List.mem_singleton.mp ht]
      exact hlast

/-- Where every collection is prompt, whatever was written stays. -/
theorem puts_stay (he : ∀ e t t', t ≤ t' → expired e t → expired e t') {s m : Medium P E}
    (h : History Medium.Elapsed s log m) (hA : ∀ t ∈ log, Accounted expired t.toAction)
    (hprompt : Guarded Prompt log) : PutsStay expired log m := by
  suffices hall : Guarded (fun before f => PutsStay expired before f.before) log ∧
      PutsStay expired log m from hall.2
  induction log using List.reverseRecOn generalizing m with
  | nil =>
    refine ⟨guarded_nil, ?_⟩
    intro before t since p e hlog
    simp at hlog
  | append_singleton log u ih =>
    have hA' : ∀ t ∈ log, Accounted expired t.toAction := fun v hv => hA v (by simp [hv])
    have hfirst : Guarded Prompt log := by
      intro before e after hl
      exact hprompt before e (after ++ [u]) (by rw [hl]; simp)
    obtain ⟨hlog, hend⟩ := history_concat h
    obtain ⟨hbefore, hstay⟩ := ih hlog hA' hfirst
    refine ⟨hbefore.concat hstay, PutsStay.elapsed he ?_ hend⟩
    exact hstay.concat he hbefore hA' (history_clock hlog hA') (hA u (by simp))
      (hprompt log u [] rfl)

/-- Clients whose scripts account for what they do, in any order, time passing in between. -/
theorem run_puts_stay {ε α : Type} [DecidableEq ι]
    (he : ∀ e t t', t ≤ t' → expired e t → expired e t')
    {script : Q → Script ε (Medium P E) (Deed P E) α}
    (hq : ∀ q s, Medium.Accounts expired (script q) (fun _ _ => True) s)
    (s : Medium P E) (requests : ι → List Q) (schedule : List (ι ⊕ Nat))
    (hprompt : Guarded Prompt (run script Medium.wait schedule (start s requests)).log) :
    PutsStay expired (run script Medium.wait schedule (start s requests)).log
      (run script Medium.wait schedule (start s requests)).store := by
  have hinv := invariant_run (R := Medium.Later) (E := Medium.Elapsed)
    (G := fun _ _ => Accounted expired) (fun q s => (hq q s).keeps []) Medium.wait_later
    Medium.wait_elapsed (invariant_start s requests) schedule
  refine puts_stay he hinv.history (fun t ht => ?_) hprompt
  obtain ⟨before, after, hlog⟩ := List.append_of_mem ht
  exact hinv.guaranteed before t after hlog

end PutsStay

end World

end Effects
