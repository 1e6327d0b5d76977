import Mathlib.Logic.Function.Basic
import Kvtsjl.Lib.Trace

/-
  Clients of a shared state, and every order their steps may come in.
  A `Script` is one request of a client: atomic actions, each followed by what the client
  does with the answer. `World.run` lets any number of clients take their steps in the
  order of a schedule, moves of the surroundings in between, and logs every action with
  the state before and after it.

  `Keeps` is the rely-guarantee condition on a script. `World.run_keeps` says that where
  every request keeps to it, every action of every schedule does what it guarantees.
  `Traces` is what a script may note whatever answers it gets.
-/

namespace Effects

/-- Atomic actions on a shared state. What an action notes is for the log alone. -/
inductive Script (ε σ ν α : Type) : Type 1 where
  | done (r : Except ε α)
  | act {β : Type} (m : Prog ε σ β) (note : β → List ν) (next : β → Script ε σ ν α)

namespace Script

variable {ε σ ν α β : Type}

/-- The script with nobody else about. -/
def run : Script ε σ ν α → Prog ε σ α
  | done r => Prog.ofExcept r
  | act m _ next => m >>= fun b => (next b).run

/-- The script, with `f` on what it returns. -/
def andThen (f : α → Except ε β) : Script ε σ ν α → Script ε σ ν β
  | done r => done (r.bind f)
  | act m note next => act m note fun b => (next b).andThen f

theorem run_andThen (f : α → Except ε β) (t : Script ε σ ν α) :
    (t.andThen f).run = t.run >>= fun a => Prog.ofExcept (f a) := by
  induction t with
  | done r => cases r <;> rfl
  | act m note next ih =>
    have h : ∀ b, ((next b).andThen f).run = (next b).run >>= fun a => Prog.ofExcept (f a) := ih
    show (m >>= fun b => ((next b).andThen f).run) = (m >>= fun b => (next b).run) >>= _
    rw [bind_assoc]
    exact congrArg (m >>= ·) (funext h)

/-- The script, and then what `f` makes of its result. -/
def bind : Script ε σ ν α → (α → Script ε σ ν β) → Script ε σ ν β
  | done (.ok a), f => f a
  | done (.error e), _ => done (.error e)
  | act m note next, f => act m note fun b => (next b).bind f

instance : Monad (Script ε σ ν) where
  pure a := done (.ok a)
  bind := bind

/-- One action, and what it notes. -/
def one (m : Prog ε σ α) (note : α → List ν) : Script ε σ ν α := act m note fun a => done (.ok a)

theorem run_bind (t : Script ε σ ν α) (f : α → Script ε σ ν β) :
    (t >>= f).run = t.run >>= fun a => (f a).run := by
  induction t with
  | done r => cases r <;> rfl
  | act m note next ih =>
    have h : ∀ b, ((next b).bind f).run = (next b).run >>= fun a => (f a).run := ih
    show (m >>= fun b => ((next b).bind f).run) = (m >>= fun b => (next b).run) >>= _
    rw [bind_assoc]
    exact congrArg (m >>= ·) (funext h)

instance : LawfulMonad (Script ε σ ν) := LawfulMonad.mk' _
  (by
    intro α t
    show t.bind (fun a => done (.ok (id a))) = t
    induction t with
    | done r => cases r <;> rfl
    | act m note next ih => exact congrArg (act m note) (funext ih))
  (fun _ _ => rfl)
  (by
    intro α β γ t f g
    show (t.bind f).bind g = t.bind fun a => (f a).bind g
    induction t with
    | done r => cases r <;> rfl
    | act m note next ih => exact congrArg (act m note) (funext ih))

/-- What the script may note, and how it may end, whatever the answers. -/
def Traces : Script ε σ ν α → List ν → Except ε α → Prop
  | done r, notes, res => notes = [] ∧ res = r
  | act _ note next, notes, res =>
    (∃ b more, notes = note b ++ more ∧ (next b).Traces more res) ∨
      notes = [] ∧ ∃ e, res = .error e

theorem traces_andThen {f : α → Except ε β} {t : Script ε σ ν α} {notes : List ν}
    {res : Except ε β} (h : (t.andThen f).Traces notes res) :
    ∃ r, t.Traces notes r ∧ res = r.bind f := by
  induction t generalizing notes with
  | done r => exact ⟨r, ⟨h.1, rfl⟩, h.2⟩
  | act m note next ih =>
    rcases h with ⟨b, more, rfl, h⟩ | ⟨hn, e, rfl⟩
    · obtain ⟨r, hr, hres⟩ := ih b h
      exact ⟨r, .inl ⟨b, more, rfl, hr⟩, hres⟩
    · exact ⟨.error e, .inr ⟨hn, e, rfl⟩, rfl⟩

end Script

/-! ## Worlds -/

/-- One action: the state before it, what it noted and the state after it. -/
structure Action (σ ν : Type) where
  before : σ
  notes : List ν
  after : σ

namespace Script

variable {ε σ ν α β : Type}

/-- The actions of the script from its beginning to its end, and what it comes to, whatever
    happens between them. -/
def Path : Script ε σ ν α → List (Action σ ν) → Except ε α → Prop
  | done r, actions, res => actions = [] ∧ res = r
  | act m note next, actions, res =>
    (∃ s b s' more, m s = (.ok b, s') ∧ actions = ⟨s, note b, s'⟩ :: more ∧
      (next b).Path more res) ∨
    ∃ s e s', m s = (.error e, s') ∧ actions = [⟨s, [], s'⟩] ∧ res = .error e

/-- What a script notes on its way is what it may note. -/
theorem Path.traces {t : Script ε σ ν α} {actions : List (Action σ ν)} {res : Except ε α}
    (h : t.Path actions res) : t.Traces (actions.flatMap Action.notes) res := by
  induction t generalizing actions with
  | done r => exact ⟨by rw [h.1]; rfl, h.2⟩
  | act m note next ih =>
    rcases h with ⟨s, b, s', more, -, rfl, hmore⟩ | ⟨s, e, s', -, rfl, rfl⟩
    · exact .inl ⟨b, _, rfl, ih b hmore⟩
    · exact .inr ⟨rfl, e, rfl⟩

/-- Every script can be gone through. -/
theorem exists_path (t : Script ε σ ν α) (s : σ) : ∃ actions res, t.Path actions res := by
  induction t generalizing s with
  | done r => exact ⟨[], r, rfl, rfl⟩
  | act m note next ih =>
    rcases hm : m s with ⟨e | b, s'⟩
    · exact ⟨_, _, .inr ⟨s, e, s', hm, rfl, rfl⟩⟩
    · obtain ⟨more, res, hmore⟩ := ih b s'
      exact ⟨_, res, .inl ⟨s, b, s', more, hm, rfl, hmore⟩⟩

/-- Whatever happens between its actions, the script goes through such as `Q` allows. -/
def Goes (t : Script ε σ ν α) (Q : List (Action σ ν) → Except ε α → Prop) : Prop :=
  ∀ actions res, t.Path actions res → Q actions res

section Goes

variable {Q : List (Action σ ν) → Except ε α → Prop} {Q' : List (Action σ ν) → Except ε β → Prop}

theorem Goes.weaken {Q' : List (Action σ ν) → Except ε α → Prop} {t : Script ε σ ν α}
    (h : t.Goes Q) (hQ : ∀ actions res, Q actions res → Q' actions res) : t.Goes Q' :=
  fun actions res hp => hQ actions res (h actions res hp)

theorem Goes.done {r : Except ε α} (h : Q [] r) : (done r : Script ε σ ν α).Goes Q := by
  intro actions res hp
  rw [hp.1, hp.2]
  exact h

theorem Goes.one {m : Prog ε σ α} {note : α → List ν}
    (hok : ∀ s a s', m s = (.ok a, s') → Q [⟨s, note a, s'⟩] (.ok a))
    (herror : ∀ s e s', m s = (.error e, s') → Q [⟨s, [], s'⟩] (.error e)) :
    (one m note).Goes Q := by
  intro actions res hp
  rcases hp with ⟨s, a, s', more, hm, rfl, rfl, rfl⟩ | ⟨s, e, s', hm, rfl, rfl⟩
  · exact hok s a s' hm
  · exact herror s e s' hm

/-- What the rest goes through follows what the first part went through. -/
theorem Goes.bind {t : Script ε σ ν α} {f : α → Script ε σ ν β} (ht : t.Goes Q)
    (hf : ∀ first a, Q first (.ok a) → (f a).Goes fun more res => Q' (first ++ more) res)
    (he : ∀ actions e, Q actions (.error e) → Q' actions (.error e)) : (t >>= f).Goes Q' := by
  induction t generalizing Q Q' with
  | done r =>
    have hr := ht [] r ⟨rfl, rfl⟩
    cases r with
    | error e =>
      intro actions res hp
      rw [hp.1, hp.2]
      exact he [] e hr
    | ok a => exact hf [] a hr
  | act m note next ih =>
    intro actions res hp
    rcases hp with ⟨s, b, s', more, hm, rfl, hmore⟩ | ⟨s, e, s', hm, rfl, rfl⟩
    · have hnext : (next b).Goes fun more res => Q (⟨s, note b, s'⟩ :: more) res :=
        fun more res hp => ht _ _ (.inl ⟨s, b, s', more, hm, rfl, hp⟩)
      have hrest : ((next b).bind f).Goes fun more res => Q' (⟨s, note b, s'⟩ :: more) res :=
        ih b hnext (fun first a h => hf _ a h) fun actions e h => he _ e h
      exact hrest more res hmore
    · exact he _ e (ht _ _ (.inr ⟨s, e, s', hm, rfl, rfl⟩))

/-- A loop goes through what its rounds go through, with an invariant of its accumulator
    and of all it went through so far. -/
theorem Goes.foldlM {γ : Type} {f : β → γ → Script ε σ ν β}
    {I : List (Action σ ν) → Except ε β → Prop} {xs : List γ}
    (hf : ∀ first acc, I first (.ok acc) → ∀ x ∈ xs,
      (f acc x).Goes fun more res => I (first ++ more) res)
    {first : List (Action σ ν)} {acc : β} (h : I first (.ok acc)) :
    (xs.foldlM f acc).Goes fun more res => I (first ++ more) res := by
  induction xs generalizing first acc with
  | nil =>
    rw [List.foldlM_nil]
    exact Goes.done (by rw [List.append_nil]; exact h)
  | cons x xs ih =>
    rw [List.foldlM_cons]
    refine (hf first acc h x (by simp)).bind (fun more acc' h' => ?_) fun _ _ h' => h'
    refine (ih (fun first acc h y hy => hf first acc h y (by simp [hy])) h').weaken ?_
    intro actions res h
    rw [← List.append_assoc]
    exact h

end Goes

/-- From any state the surroundings may make of `s`, the next action guarantees `G` of
    what the script did so far and of what it does now, and so on. -/
def Keeps (R : σ → σ → Prop) (G : List (Action σ ν) → Action σ ν → Prop) :
    Script ε σ ν α → List (Action σ ν) → σ → Prop
  | done _, _, _ => True
  | act m note next, past, s => ∀ s', R s s' →
    match m s' with
    | (.ok b, s'') => R s' s'' ∧ G past ⟨s', note b, s''⟩ ∧
        (next b).Keeps R G (past ++ [⟨s', note b, s''⟩]) s''
    | (.error _, s'') => R s' s'' ∧ G past ⟨s', [], s''⟩

theorem Keeps.later {R : σ → σ → Prop} [IsTrans σ R] {G : List (Action σ ν) → Action σ ν → Prop}
    {t : Script ε σ ν α} {past : List (Action σ ν)} {s s' : σ} (h : t.Keeps R G past s)
    (hs : R s s') : t.Keeps R G past s' := by
  cases t with
  | done r => trivial
  | act m note next => exact fun s'' hr => h s'' (IsTrans.trans _ _ _ hs hr)

/-- What holds of every action of every way through the script is kept. -/
theorem Goes.keeps {P : Action σ ν → Prop} {t : Script ε σ ν α}
    (h : t.Goes fun actions _ => ∀ a ∈ actions, P a) (past : List (Action σ ν)) (s : σ) :
    t.Keeps (fun _ _ => True) (fun _ => P) past s := by
  induction t generalizing past s with
  | done r => trivial
  | act m note next ih =>
    intro s' _
    rcases hm : m s' with ⟨e | b, s''⟩
    · exact ⟨trivial, h _ _ (.inr ⟨s', e, s'', hm, rfl, rfl⟩) _ (by simp)⟩
    · have hnext : (next b).Goes fun more _ => ∀ a ∈ (⟨s', note b, s''⟩ : Action σ ν) :: more, P a :=
        fun more res hp => h _ res (.inl ⟨s', b, s'', more, hm, rfl, hp⟩)
      obtain ⟨more, res, hmore⟩ := (next b).exists_path s''
      refine ⟨trivial, hnext more res hmore _ (by simp), ?_⟩
      exact ih b (hnext.weaken fun more _ hall a ha => hall a (by simp [ha])) _ _

theorem Keeps.andThen {R : σ → σ → Prop} {G : List (Action σ ν) → Action σ ν → Prop}
    (f : α → Except ε β) {t : Script ε σ ν α} {past : List (Action σ ν)} {s : σ}
    (h : t.Keeps R G past s) : (t.andThen f).Keeps R G past s := by
  induction t generalizing past s with
  | done r => trivial
  | act m note next ih =>
    intro s' hs
    have h' := h s' hs
    rcases hm : m s' with ⟨e | b, s''⟩ <;> rw [hm] at h'
    · exact h'
    · exact ⟨h'.1, h'.2.1, ih b h'.2.2⟩

/-- From any state the surroundings may make of `s`, every action meets `G`, and what is
    returned meets `Q` in the state it is returned in. -/
def Upholds (R : σ → σ → Prop) (G : Action σ ν → Prop) (Q : α → σ → Prop) :
    Script ε σ ν α → σ → Prop
  | done (.ok a), s => Q a s
  | done (.error _), _ => True
  | act m note next, s => ∀ s', R s s' →
    match m s' with
    | (.ok b, s'') => R s' s'' ∧ G ⟨s', note b, s''⟩ ∧ (next b).Upholds R G Q s''
    | (.error _, s'') => R s' s'' ∧ G ⟨s', [], s''⟩

section Upholds

variable {R : σ → σ → Prop} {G : Action σ ν → Prop} {Q : α → σ → Prop}

theorem Upholds.keeps {t : Script ε σ ν α} {s : σ} (h : t.Upholds R G Q s)
    (past : List (Action σ ν)) : t.Keeps R (fun _ => G) past s := by
  induction t generalizing past s with
  | done r => trivial
  | act m note next ih =>
    intro s' hs
    have h' := h s' hs
    rcases hm : m s' with ⟨e | b, s''⟩ <;> rw [hm] at h'
    · exact h'
    · exact ⟨h'.1, h'.2.1, ih b h'.2.2 _⟩

theorem Upholds.pure {a : α} {s : σ} (h : Q a s) :
    (pure a : Script ε σ ν α).Upholds R G Q s := h

theorem Upholds.ofExcept {r : Except ε α} {s : σ} (h : ∀ a, r = .ok a → Q a s) :
    (done r : Script ε σ ν α).Upholds R G Q s := by
  cases r with
  | error e => trivial
  | ok a => exact h a rfl

theorem Upholds.one {m : Prog ε σ α} {note : α → List ν} {s : σ}
    (h : ∀ s', R s s' → ∃ a s'', m s' = (.ok a, s'') ∧ R s' s'' ∧ G ⟨s', note a, s''⟩ ∧ Q a s'') :
    (one m note).Upholds R G Q s := by
  intro s' hs
  obtain ⟨a, s'', hm, hR, hG, hQ⟩ := h s' hs
  rw [hm]
  exact ⟨hR, hG, hQ⟩

theorem Upholds.weaken {Q' : α → σ → Prop} {t : Script ε σ ν α} {s : σ} (h : t.Upholds R G Q s)
    (hQ : ∀ a s, Q a s → Q' a s) : t.Upholds R G Q' s := by
  induction t generalizing s with
  | done r =>
    cases r with
    | error e => trivial
    | ok a => exact hQ a s h
  | act m note next ih =>
    intro s' hs
    have h' := h s' hs
    rcases hm : m s' with ⟨e | b, s''⟩ <;> rw [hm] at h'
    · exact h'
    · exact ⟨h'.1, h'.2.1, ih b h'.2.2⟩

theorem Upholds.guarantee {G' : Action σ ν → Prop} {t : Script ε σ ν α} {s : σ}
    (h : t.Upholds R G Q s) (hG : ∀ a, G a → G' a) : t.Upholds R G' Q s := by
  induction t generalizing s with
  | done r =>
    cases r with
    | error e => trivial
    | ok a => exact h
  | act m note next ih =>
    intro s' hs
    have h' := h s' hs
    rcases hm : m s' with ⟨e | b, s''⟩ <;> rw [hm] at h'
    · exact ⟨h'.1, hG _ h'.2⟩
    · exact ⟨h'.1, hG _ h'.2.1, ih b h'.2.2⟩

/-- What is returned is returned later on. -/
theorem Upholds.after [Std.Refl R] [IsTrans σ R] {t : Script ε σ ν α} {s : σ}
    (h : t.Upholds R G Q s) : t.Upholds R G (fun a s' => R s s' ∧ Q a s') s := by
  suffices hall : ∀ s0, R s0 s → t.Upholds R G (fun a s' => R s0 s' ∧ Q a s') s from
    hall s (Std.Refl.refl s)
  intro s0 hs0
  induction t generalizing s with
  | done r =>
    cases r with
    | error e => trivial
    | ok a => exact ⟨hs0, h⟩
  | act m note next ih =>
    intro s' hs
    have h' := h s' hs
    rcases hm : m s' with ⟨e | b, s''⟩ <;> rw [hm] at h'
    · exact h'
    · refine ⟨h'.1, h'.2.1, ih b h'.2.2 ?_⟩
      exact IsTrans.trans _ _ _ hs0 (IsTrans.trans _ _ _ hs h'.1)

/-- The script with nobody else about moves along `R`, to where `Q` holds. -/
theorem Upholds.run [Std.Refl R] [IsTrans σ R] {t : Script ε σ ν α} {s : σ}
    (h : t.Upholds R G Q s) :
    R s (t.run s).2 ∧ ∀ a, (t.run s).1 = .ok a → Q a (t.run s).2 := by
  induction t generalizing s with
  | done r =>
    cases r with
    | error e => exact ⟨Std.Refl.refl s, fun a ha => by cases ha⟩
    | ok a =>
      refine ⟨Std.Refl.refl s, fun a' ha => ?_⟩
      cases ha
      exact h
  | act m note next ih =>
    have h' := h s (Std.Refl.refl s)
    show R s ((m >>= fun b => (next b).run) s).2 ∧
      ∀ a, ((m >>= fun b => (next b).run) s).1 = .ok a →
        Q a ((m >>= fun b => (next b).run) s).2
    rw [Prog.bind_apply]
    rcases hm : m s with ⟨e | b, s''⟩ <;> rw [hm] at h'
    · exact ⟨h'.1, fun a ha => by cases ha⟩
    · exact ⟨IsTrans.trans _ _ _ h'.1 (ih b h'.2.2).1, (ih b h'.2.2).2⟩

/-- The rest begins in the state the first part ended in, which lies after `s`. -/
theorem Upholds.bind [Std.Refl R] [IsTrans σ R] {Q' : β → σ → Prop} {t : Script ε σ ν α}
    {f : α → Script ε σ ν β} {s : σ} (h : t.Upholds R G Q s)
    (hf : ∀ a s', R s s' → Q a s' → (f a).Upholds R G Q' s') :
    (t >>= f).Upholds R G Q' s := by
  induction t generalizing s with
  | done r =>
    cases r with
    | error e => trivial
    | ok a => exact hf a s (Std.Refl.refl s) h
  | act m note next ih =>
    intro s' hs
    have h' := h s' hs
    rcases hm : m s' with ⟨e | b, s''⟩ <;> rw [hm] at h'
    · exact h'
    · refine ⟨h'.1, h'.2.1, ih b h'.2.2 fun a s3 hs3 => hf a s3 ?_⟩
      exact IsTrans.trans _ _ _ hs (IsTrans.trans _ _ _ h'.1 hs3)

/-- A loop upholds what each of its rounds does, with an invariant of its accumulator. -/
theorem Upholds.foldlM [Std.Refl R] [IsTrans σ R] {γ : Type} {I : β → σ → Prop}
    {f : β → γ → Script ε σ ν β} {xs : List γ}
    (hf : ∀ acc, ∀ x ∈ xs, ∀ s, I acc s → (f acc x).Upholds R G I s) {acc : β} {s : σ}
    (h : I acc s) : (xs.foldlM f acc).Upholds R G I s := by
  induction xs generalizing acc s with
  | nil => exact h
  | cons x xs ih =>
    rw [List.foldlM_cons]
    refine (hf acc x (by simp) s h).bind fun acc' s' _ h' => ?_
    exact ih (fun acc y hy => hf acc y (by simp [hy])) h'

end Upholds

end Script

/-- One action in the log: the client, which of its requests, and the action. -/
structure Tick (ι σ ν Q : Type) extends Action σ ν where
  who : ι
  turn : Nat
  asked : Q

/-- A client: requests to come, the one under way, and those finished. -/
structure Client (ε σ ν α Q : Type) : Type 1 where
  waiting : List Q
  running : Option (Q × Script ε σ ν α)
  finished : List (Q × Except ε α)

structure World (ι ε σ ν α Q : Type) : Type 1 where
  store : σ
  clients : ι → Client ε σ ν α Q
  log : List (Tick ι σ ν Q)

namespace World

variable {ι ε σ ν α Q δ : Type} [DecidableEq ι]

/-- Clients that have not begun. -/
def start (s : σ) (requests : ι → List Q) : World ι ε σ ν α Q :=
  ⟨s, fun i => ⟨requests i, none, []⟩, []⟩

/-- Client `i` is now `c`. -/
def withClient (w : World ι ε σ ν α Q) (i : ι) (c : Client ε σ ν α Q) : World ι ε σ ν α Q :=
  { w with clients := Function.update w.clients i c }

/-- The action happens, and is logged. -/
def record (w : World ι ε σ ν α Q) (t : Tick ι σ ν Q) : World ι ε σ ν α Q :=
  { w with store := t.after, log := w.log ++ [t] }

section Access

variable (w : World ι ε σ ν α Q)

@[simp] theorem withClient_self (i : ι) (c : Client ε σ ν α Q) : (w.withClient i c).clients i = c :=
  Function.update_self ..

theorem withClient_other {i j : ι} (h : j ≠ i) (c : Client ε σ ν α Q) :
    (w.withClient i c).clients j = w.clients j := Function.update_of_ne h ..

@[simp] theorem withClient_log (i : ι) (c : Client ε σ ν α Q) : (w.withClient i c).log = w.log := rfl

@[simp] theorem withClient_store (i : ι) (c : Client ε σ ν α Q) :
    (w.withClient i c).store = w.store := rfl

omit [DecidableEq ι] in
@[simp] theorem record_clients (t : Tick ι σ ν Q) : (w.record t).clients = w.clients := rfl

omit [DecidableEq ι] in
@[simp] theorem record_log (t : Tick ι σ ν Q) : (w.record t).log = w.log ++ [t] := rfl

omit [DecidableEq ι] in
@[simp] theorem record_store (t : Tick ι σ ν Q) : (w.record t).store = t.after := rfl

end Access

/-- The tick of client `i` doing something for the request under way. -/
def tick (w : World ι ε σ ν α Q) (i : ι) (q : Q) (a : Action σ ν) : Tick ι σ ν Q :=
  { a with who := i, turn := (w.clients i).finished.length, asked := q }

/-- The next step of client `i`: take up a request, act once, or finish. -/
def act (script : Q → Script ε σ ν α) (w : World ι ε σ ν α Q) (i : ι) : World ι ε σ ν α Q :=
  let c := w.clients i
  match c.running with
  | none =>
    match c.waiting with
    | [] => w
    | q :: rest => w.withClient i ⟨rest, some (q, script q), c.finished⟩
  | some (q, .done r) => w.withClient i ⟨c.waiting, none, c.finished ++ [(q, r)]⟩
  | some (q, .act m note next) =>
    match m w.store with
    | (.ok b, s) =>
      (w.record (w.tick i q ⟨w.store, note b, s⟩)).withClient i
        ⟨c.waiting, some (q, next b), c.finished⟩
    | (.error e, s) =>
      (w.record (w.tick i q ⟨w.store, [], s⟩)).withClient i
        ⟨c.waiting, some (q, .done (.error e)), c.finished⟩

/-- One step of a schedule: of a client, or of the surroundings. -/
def step (script : Q → Script ε σ ν α) (move : δ → σ → σ) (w : World ι ε σ ν α Q) :
    ι ⊕ δ → World ι ε σ ν α Q
  | .inl i => w.act script i
  | .inr d => { w with store := move d w.store }

/-- The steps of a schedule, in its order. -/
def run (script : Q → Script ε σ ν α) (move : δ → σ → σ) (schedule : List (ι ⊕ δ))
    (w : World ι ε σ ν α Q) : World ι ε σ ν α Q :=
  schedule.foldl (step script move) w

theorem run_concat (script : Q → Script ε σ ν α) (move : δ → σ → σ) (schedule : List (ι ⊕ δ))
    (x : ι ⊕ δ) (w : World ι ε σ ν α Q) :
    w.run script move (schedule ++ [x]) = (w.run script move schedule).step script move x := by
  unfold run
  rw [List.foldl_append]
  rfl

/-- A step moves the surroundings, or does nothing to the state, or is an action of the request
    a client has under way. -/
theorem step_cases (script : Q → Script ε σ ν α) (move : δ → σ → σ) (w : World ι ε σ ν α Q)
    (x : ι ⊕ δ) :
    ((w.step script move x).log = w.log ∧ ((w.step script move x).store = w.store ∨
      ∃ d, (w.step script move x).store = move d w.store)) ∨
    ∃ t : Tick ι σ ν Q, (w.step script move x).log = w.log ++ [t] ∧ t.before = w.store ∧
      (w.step script move x).store = t.after ∧
      (∀ i, ((w.step script move x).clients i).finished = (w.clients i).finished) ∧
      t.turn = (w.clients t.who).finished.length := by
  cases x with
  | inr d => exact .inl ⟨rfl, .inr ⟨d, rfl⟩⟩
  | inl i =>
    have hfin : ∀ (t : Tick ι σ ν Q) (c : Client ε σ ν α Q), c.finished = (w.clients i).finished →
        ∀ j, (((w.record t).withClient i c).clients j).finished = (w.clients j).finished := by
      intro t c hc j
      by_cases hj : j = i
      · rw [hj, withClient_self, hc]
      · rw [withClient_other _ hj, record_clients]
    have hstep : w.step script move (.inl i) = w.act script i := rfl
    rw [hstep]
    cases hrun : (w.clients i).running with
    | none =>
      cases hwait : (w.clients i).waiting with
      | nil =>
        have hact : w.act script i = w := by
          unfold act
          simp only [hrun, hwait]
        rw [hact]
        exact .inl ⟨rfl, .inl rfl⟩
      | cons q rest =>
        have hact : w.act script i =
            w.withClient i ⟨rest, some (q, script q), (w.clients i).finished⟩ := by
          unfold act
          simp only [hrun, hwait]
        rw [hact]
        exact .inl ⟨rfl, .inl rfl⟩
    | some c =>
      obtain ⟨q, t⟩ := c
      cases t with
      | done r =>
        have hact : w.act script i =
            w.withClient i ⟨(w.clients i).waiting, none, (w.clients i).finished ++ [(q, r)]⟩ := by
          unfold act
          simp only [hrun]
        rw [hact]
        exact .inl ⟨rfl, .inl rfl⟩
      | act m note next =>
        rcases hm : m w.store with ⟨e | b, s'⟩
        · have hact : w.act script i = (w.record (w.tick i q ⟨w.store, [], s'⟩)).withClient i
              ⟨(w.clients i).waiting, some (q, .done (.error e)), (w.clients i).finished⟩ := by
            unfold act
            simp only [hrun, hm]
          rw [hact]
          exact .inr ⟨w.tick i q ⟨w.store, [], s'⟩, rfl, rfl, rfl, hfin _ _ rfl, rfl⟩
        · have hact : w.act script i = (w.record (w.tick i q ⟨w.store, note b, s'⟩)).withClient i
              ⟨(w.clients i).waiting, some (q, next b), (w.clients i).finished⟩ := by
            unfold act
            simp only [hrun, hm]
          rw [hact]
          exact .inr ⟨w.tick i q ⟨w.store, note b, s'⟩, rfl, rfl, rfl, hfin _ _ rfl, rfl⟩

/-- What one request of one client did so far. -/
def callTicks (log : List (Tick ι σ ν Q)) (i : ι) (turn : Nat) : List (Tick ι σ ν Q) :=
  log.filter fun t => t.who = i ∧ t.turn = turn

def callActions (log : List (Tick ι σ ν Q)) (i : ι) (turn : Nat) : List (Action σ ν) :=
  (callTicks log i turn).map Tick.toAction

def callNotes (log : List (Tick ι σ ν Q)) (i : ι) (turn : Nat) : List ν :=
  (callTicks log i turn).flatMap fun t => t.notes

theorem callTicks_concat (log : List (Tick ι σ ν Q)) (t : Tick ι σ ν Q) (i : ι) (turn : Nat) :
    callTicks (log ++ [t]) i turn =
      callTicks log i turn ++ if t.who = i ∧ t.turn = turn then [t] else [] := by
  unfold callTicks
  rw [List.filter_append, List.filter_singleton]
  simp

/-- The states a log passes through: from `s` to `s'`, with `E` between the actions. -/
def History (E : σ → σ → Prop) : σ → List (Tick ι σ ν Q) → σ → Prop
  | s, [], s' => E s s'
  | s, t :: ts, s' => E s t.before ∧ History E t.after ts s'

omit [DecidableEq ι] in
theorem History.concat {E : σ → σ → Prop} {s s' : σ} {log : List (Tick ι σ ν Q)}
    {t : Tick ι σ ν Q} (h : History E s log t.before) (ht : E t.after s') :
    History E s (log ++ [t]) s' := by
  induction log generalizing s with
  | nil => exact ⟨h, ht⟩
  | cons u log ih => exact ⟨h.1, ih h.2⟩

omit [DecidableEq ι] in
theorem History.later {E : σ → σ → Prop} [IsTrans σ E] {s s' s'' : σ}
    {log : List (Tick ι σ ν Q)} (h : History E s log s') (hs : E s' s'') :
    History E s log s'' := by
  induction log generalizing s with
  | nil => exact IsTrans.trans _ _ _ h hs
  | cons u log ih => exact ⟨h.1, ih h.2⟩

/-! ## What every schedule keeps -/

section Keeps

variable {script : Q → Script ε σ ν α} {R E : σ → σ → Prop}
  {G : Q → List (Action σ ν) → Action σ ν → Prop}

/-- Every action did what its request guarantees, given what the request did before. -/
def Guaranteed (G : Q → List (Action σ ν) → Action σ ν → Prop) (log : List (Tick ι σ ν Q)) : Prop :=
  Guarded (fun before t => G t.asked (callActions before t.who t.turn) t.toAction) log

structure Invariant (script : Q → Script ε σ ν α) (R E : σ → σ → Prop)
    (G : Q → List (Action σ ν) → Action σ ν → Prop) (s : σ) (w : World ι ε σ ν α Q) : Prop where
  running : ∀ i q t, (w.clients i).running = some (q, t) →
    t.Keeps R (G q) (callActions w.log i (w.clients i).finished.length) w.store ∧
      ∀ more res, t.Path more res →
        (script q).Path (callActions w.log i (w.clients i).finished.length ++ more) res
  idle : ∀ i, (w.clients i).running = none →
    callTicks w.log i (w.clients i).finished.length = []
  unborn : ∀ i turn, (w.clients i).finished.length < turn → callTicks w.log i turn = []
  finished : ∀ i turn c, (w.clients i).finished[turn]? = some c →
    (script c.1).Path (callActions w.log i turn) c.2
  guaranteed : Guaranteed G w.log
  history : History E s w.log w.store

theorem callActions_concat (log : List (Tick ι σ ν Q)) (t : Tick ι σ ν Q) (i : ι) (turn : Nat) :
    callActions (log ++ [t]) i turn =
      callActions log i turn ++ if t.who = i ∧ t.turn = turn then [t.toAction] else [] := by
  unfold callActions
  rw [callTicks_concat, List.map_append]
  split <;> rfl

theorem callNotes_eq (log : List (Tick ι σ ν Q)) (i : ι) (turn : Nat) :
    callNotes log i turn = (callActions log i turn).flatMap Action.notes := by
  unfold callNotes callActions
  rw [List.flatMap_map]

theorem invariant_start [Std.Refl E] (s : σ) (requests : ι → List Q) :
    Invariant script R E G s (start s requests) where
  running _ _ _ h := by cases h
  idle _ _ := rfl
  unborn _ _ _ := rfl
  finished _ _ _ h := by simp [start] at h
  guaranteed := guarded_nil
  history := Std.Refl.refl _

omit [DecidableEq ι] in
/-- A tick of client `i` is of no other call. -/
theorem not_call {w : World ι ε σ ν α Q} {i j : ι} {q : Q} {a : Action σ ν} {n : Nat}
    (h : j = i → n ≠ (w.clients i).finished.length) :
    ¬ ((w.tick i q a).who = j ∧ (w.tick i q a).turn = n) := by
  rintro ⟨hw, ht⟩
  exact h hw.symm ht.symm

/-- An action of client `i` leaves every other client where it was, and moves its own
    request on. -/
theorem Invariant.acted [IsTrans σ R] [Std.Refl E] {s : σ} {w : World ι ε σ ν α Q}
    (h : Invariant script R E G s w) {i : ι} {q : Q} {t u : Script ε σ ν α} {a : Action σ ν}
    (hi : (w.clients i).running = some (q, t)) (ha : a.before = w.store) (hR : R w.store a.after)
    (hG : G q (callActions w.log i (w.clients i).finished.length) a)
    (hk : u.Keeps R (G q) (callActions w.log i (w.clients i).finished.length ++ [a]) a.after)
    (ht : ∀ more res, u.Path more res → t.Path (a :: more) res) :
    Invariant script R E G s ((w.record (w.tick i q a)).withClient i
      ⟨(w.clients i).waiting, some (q, u), (w.clients i).finished⟩) := by
  have hfin : ∀ j, (((w.record (w.tick i q a)).withClient i
      ⟨(w.clients i).waiting, some (q, u), (w.clients i).finished⟩).clients j).finished =
        (w.clients j).finished := by
    intro j
    by_cases hji : j = i
    · subst hji; rw [withClient_self]
    · rw [withClient_other _ hji, record_clients]
  refine ⟨fun j p v hj => ?_, fun j hj => ?_, fun j turn hj => ?_, fun j turn c hj => ?_,
    h.guaranteed.concat hG, ?_⟩
  · rw [hfin, withClient_log, withClient_store, record_log, record_store]
    by_cases hji : j = i
    · subst hji
      rw [withClient_self] at hj
      cases hj
      rw [callActions_concat, if_pos ⟨rfl, rfl⟩]
      refine ⟨hk, fun more res hm => ?_⟩
      rw [List.append_assoc]
      exact (h.running j q t hi).2 _ res (ht more res hm)
    · rw [withClient_other _ hji, record_clients] at hj
      have hne := not_call (w := w) (q := q) (a := a) (n := (w.clients j).finished.length)
        fun hji' => absurd hji' hji
      rw [callActions_concat, if_neg hne, List.append_nil]
      exact ⟨(h.running j p v hj).1.later hR, (h.running j p v hj).2⟩
  · rw [hfin, withClient_log, record_log]
    by_cases hji : j = i
    · subst hji
      rw [withClient_self] at hj
      cases hj
    · rw [withClient_other _ hji, record_clients] at hj
      rw [callTicks_concat, h.idle j hj, if_neg (not_call fun hji' => absurd hji' hji)]
      rfl
  · rw [hfin] at hj
    rw [withClient_log, record_log, callTicks_concat, h.unborn j turn hj, if_neg (not_call ?_)]
    · rfl
    · rintro rfl
      exact Nat.ne_of_gt hj
  · rw [hfin] at hj
    have hlt := (List.getElem?_eq_some_iff.mp hj).1
    rw [withClient_log, record_log, callActions_concat, if_neg (not_call ?_), List.append_nil]
    · exact h.finished j turn c hj
    · rintro rfl
      exact Nat.ne_of_lt hlt
  · rw [withClient_log, withClient_store]
    refine History.concat (t := w.tick i q a) ?_ (Std.Refl.refl _)
    show History E s w.log a.before
    rw [ha]
    exact h.history

/-- The invariant does not look at the requests to come. -/
theorem Invariant.taken {s : σ} {w : World ι ε σ ν α Q} (h : Invariant script R E G s w) {i : ι}
    {q : Q} {rest : List Q} (hi : (w.clients i).running = none)
    (hq : (script q).Keeps R (G q) [] w.store) :
    Invariant script R E G s (w.withClient i ⟨rest, some (q, script q), (w.clients i).finished⟩) := by
  have hfin : ∀ j, ((w.withClient i ⟨rest, some (q, script q), (w.clients i).finished⟩).clients j).finished
      = (w.clients j).finished := by
    intro j
    by_cases hji : j = i
    · subst hji; rw [withClient_self]
    · rw [withClient_other _ hji]
  refine ⟨fun j p v hj => ?_, fun j hj => ?_, fun j turn hj => ?_, fun j turn c hj => ?_,
    h.guaranteed, h.history⟩
  · rw [hfin, withClient_log, withClient_store]
    by_cases hji : j = i
    · subst hji
      rw [withClient_self] at hj
      cases hj
      unfold callActions
      rw [h.idle j hi]
      exact ⟨hq, fun more res hm => hm⟩
    · rw [withClient_other _ hji] at hj
      exact h.running j p v hj
  · rw [hfin, withClient_log]
    by_cases hji : j = i
    · subst hji
      rw [withClient_self] at hj
      cases hj
    · rw [withClient_other _ hji] at hj
      exact h.idle j hj
  · rw [hfin] at hj
    exact h.unborn j turn hj
  · rw [hfin] at hj
    exact h.finished j turn c hj

/-- A request that is done is filed with the notes it made. -/
theorem Invariant.ended {s : σ} {w : World ι ε σ ν α Q} (h : Invariant script R E G s w) {i : ι}
    {q : Q} {r : Except ε α} (hi : (w.clients i).running = some (q, .done r)) :
    Invariant script R E G s
      (w.withClient i ⟨(w.clients i).waiting, none, (w.clients i).finished ++ [(q, r)]⟩) := by
  refine ⟨fun j p v hj => ?_, fun j hj => ?_, fun j turn hj => ?_, fun j turn c hj => ?_,
    h.guaranteed, h.history⟩ <;> rw [withClient_log]
  · by_cases hji : j = i
    · subst hji
      rw [withClient_self] at hj
      cases hj
    · rw [withClient_other _ hji] at hj ⊢
      exact h.running j p v hj
  · by_cases hji : j = i
    · subst hji
      rw [withClient_self]
      exact h.unborn j _ (by simp)
    · rw [withClient_other _ hji] at hj ⊢
      exact h.idle j hj
  · by_cases hji : j = i
    · subst hji
      rw [withClient_self, List.length_append] at hj
      exact h.unborn j turn (Nat.lt_of_le_of_lt (Nat.le_add_right _ _) hj)
    · rw [withClient_other _ hji] at hj
      exact h.unborn j turn hj
  · by_cases hji : j = i
    · subst hji
      rw [withClient_self] at hj
      rcases Nat.lt_or_ge turn (w.clients j).finished.length with hlt | hge
      · rw [List.getElem?_append_left hlt] at hj
        exact h.finished j turn c hj
      · rw [List.getElem?_append_right hge, List.getElem?_singleton] at hj
        split at hj
        · next h0 =>
          cases hj
          have hturn : turn = (w.clients j).finished.length := by omega
          have ht := (h.running j q _ hi).2 [] r ⟨rfl, rfl⟩
          rw [hturn]
          rwa [List.append_nil] at ht
        · cases hj
    · rw [withClient_other _ hji] at hj
      exact h.finished j turn c hj

/-- One step of any schedule. -/
theorem Invariant.step [Std.Refl R] [IsTrans σ R] [Std.Refl E] [IsTrans σ E] {move : δ → σ → σ}
    (hq : ∀ q s, (script q).Keeps R (G q) [] s) (hmR : ∀ d s, R s (move d s))
    (hmE : ∀ d s, E s (move d s)) {s : σ} {w : World ι ε σ ν α Q}
    (h : Invariant script R E G s w) (x : ι ⊕ δ) :
    Invariant script R E G s (w.step script move x) := by
  cases x with
  | inr d =>
    exact ⟨fun i q t hi => ⟨((h.running i q t hi).1).later (hmR d _), (h.running i q t hi).2⟩,
      h.idle, h.unborn, h.finished, h.guaranteed, h.history.later (hmE d _)⟩
  | inl i =>
    show Invariant script R E G s (w.act script i)
    unfold act
    cases hrun : (w.clients i).running with
    | none =>
      cases hwait : (w.clients i).waiting with
      | nil => simpa [hrun, hwait] using h
      | cons q rest => simpa [hrun, hwait] using h.taken hrun (hq q w.store)
    | some c =>
      obtain ⟨q, t⟩ := c
      cases t with
      | done r => simpa [hrun] using h.ended hrun
      | act m note next =>
        have hk := (h.running i q _ hrun).1 w.store (Std.Refl.refl _)
        rcases hm : m w.store with ⟨e | b, s'⟩ <;> rw [hm] at hk
        · have hend := h.acted hrun (u := .done (.error e)) (a := ⟨w.store, [], s'⟩) rfl hk.1 hk.2
            trivial fun more res hd => .inr ⟨w.store, e, s', hm, by rw [hd.1], hd.2⟩
          simpa only [hrun, hm] using hend
        · have hnext := h.acted hrun (a := ⟨w.store, note b, s'⟩) rfl hk.1 hk.2.1 hk.2.2
            fun more res hd => .inl ⟨w.store, b, s', more, hm, rfl, hd⟩
          simpa only [hrun, hm] using hnext

/-- Every schedule keeps the invariant. -/
theorem invariant_run [Std.Refl R] [IsTrans σ R] [Std.Refl E] [IsTrans σ E] {move : δ → σ → σ}
    (hq : ∀ q s, (script q).Keeps R (G q) [] s) (hmR : ∀ d s, R s (move d s))
    (hmE : ∀ d s, E s (move d s)) {s : σ} {w : World ι ε σ ν α Q}
    (h : Invariant script R E G s w) (schedule : List (ι ⊕ δ)) :
    Invariant script R E G s (w.run script move schedule) := by
  induction schedule generalizing w with
  | nil => exact h
  | cons x schedule ih => exact ih (h.step hq hmR hmE x)

/-- What a call did so far is the beginning of a way through its script, and all of one where
    the call is not under way. -/
theorem Invariant.goes {s : σ} {w : World ι ε σ ν α Q} (h : Invariant script R E G s w)
    {D : List (Action σ ν) → Prop} (hD : D [])
    (hq : ∀ q, (script q).Goes fun actions _ => D actions) (i : ι) (turn : Nat) :
    ∃ more, D (callActions w.log i turn ++ more) ∧
      (turn = (w.clients i).finished.length ∧ (w.clients i).running.isSome ∨ more = []) := by
  rcases Nat.lt_trichotomy turn (w.clients i).finished.length with hlt | rfl | hgt
  · have hf := h.finished i turn _ (List.getElem?_eq_getElem hlt)
    refine ⟨[], ?_, .inr rfl⟩
    rw [List.append_nil]
    exact hq _ _ _ hf
  · cases hrun : (w.clients i).running with
    | none =>
      refine ⟨[], ?_, .inr rfl⟩
      unfold callActions
      rw [h.idle i hrun]
      exact hD
    | some c =>
      obtain ⟨more, res, hpath⟩ := c.2.exists_path w.store
      refine ⟨more, ?_, .inl ⟨rfl, rfl⟩⟩
      exact hq c.1 _ _ ((h.running i c.1 c.2 hrun).2 more res hpath)
  · refine ⟨[], ?_, .inr rfl⟩
    unfold callActions
    rw [h.unborn i turn hgt]
    exact hD

end Keeps

/-! ## Which request an action was asked for by -/

/-- Each action in the log is of the request its client had under way. -/
def Credited (w : World ι ε σ ν α Q) : Prop :=
  ∀ t ∈ w.log, (∃ r, (w.clients t.who).finished[t.turn]? = some (t.asked, r)) ∨
    t.turn = (w.clients t.who).finished.length ∧
      ∃ u, (w.clients t.who).running = some (t.asked, u)

/-- A client that only takes up a request, or files one. -/
theorem Credited.client {w : World ι ε σ ν α Q} (h : Credited w) {i : ι} {c : Client ε σ ν α Q}
    (hc : ∀ t ∈ w.log, t.who = i → (∃ r, c.finished[t.turn]? = some (t.asked, r)) ∨
      t.turn = c.finished.length ∧ ∃ u, c.running = some (t.asked, u)) :
    Credited (w.withClient i c) := by
  intro t ht
  by_cases hi : t.who = i
  · rw [hi, withClient_self]
    exact hc t ht hi
  · rw [withClient_other _ hi]
    exact h t ht

/-- A client that acts for the request it has under way. -/
theorem Credited.acted {w : World ι ε σ ν α Q} (h : Credited w) {i : ι} {q : Q}
    {u : Script ε σ ν α} (hi : (w.clients i).running = some (q, u)) (a : Action σ ν)
    (u' : Script ε σ ν α) : Credited ((w.record (w.tick i q a)).withClient i
      ⟨(w.clients i).waiting, some (q, u'), (w.clients i).finished⟩) := by
  have hlogged : ∀ t ∈ (w.record (w.tick i q a)).log, t ∈ w.log ∨ t = w.tick i q a := by
    intro t ht
    rw [record_log] at ht
    simpa using ht
  intro t ht
  rcases hlogged t ht with ht | rfl
  · by_cases hwho : t.who = i
    · rw [hwho, withClient_self]
      have hold := h t ht
      rw [hwho] at hold
      refine hold.imp_right fun ⟨hturn, v, hv⟩ => ⟨hturn, u', ?_⟩
      rw [hi] at hv
      cases hv
      rfl
    · rw [withClient_other _ hwho, record_clients]
      exact h t ht
  · have hwho : (w.tick i q a).who = i := rfl
    rw [hwho, withClient_self]
    exact .inr ⟨rfl, u', rfl⟩

theorem Credited.step {script : Q → Script ε σ ν α} {move : δ → σ → σ} {w : World ι ε σ ν α Q}
    (h : Credited w) (x : ι ⊕ δ) : Credited (w.step script move x) := by
  cases x with
  | inr d => exact h
  | inl i =>
    show Credited (w.act script i)
    unfold act
    cases hrun : (w.clients i).running with
    | none =>
      cases hwait : (w.clients i).waiting with
      | nil => simpa [hrun, hwait] using h
      | cons q rest =>
        have htaken : Credited (w.withClient i ⟨rest, some (q, script q), (w.clients i).finished⟩) := by
          refine h.client fun t ht hi => ?_
          have hold := h t ht
          rw [hi] at hold
          rcases hold with hold | ⟨-, u, hu⟩
          · exact .inl hold
          · rw [hrun] at hu
            cases hu
        simpa [hrun, hwait] using htaken
    | some c =>
      obtain ⟨q, t⟩ := c
      cases t with
      | done r =>
        have hended : Credited (w.withClient i
            ⟨(w.clients i).waiting, none, (w.clients i).finished ++ [(q, r)]⟩) := by
          refine h.client fun t ht hi => .inl ?_
          have hold := h t ht
          rw [hi] at hold
          rcases hold with ⟨r', hr'⟩ | ⟨hturn, u, hu⟩
          · refine ⟨r', ?_⟩
            rw [List.getElem?_append_left (List.getElem?_eq_some_iff.mp hr').1]
            exact hr'
          · rw [hrun] at hu
            cases hu
            refine ⟨r, ?_⟩
            rw [hturn, List.getElem?_append_right (Nat.le_refl _), Nat.sub_self]
            rfl
        simpa [hrun] using hended
      | act m note next =>
        rcases hm : m w.store with ⟨e | b, s'⟩
        · simpa only [hrun, hm] using h.acted hrun ⟨w.store, [], s'⟩ (.done (.error e))
        · simpa only [hrun, hm] using h.acted hrun ⟨w.store, note b, s'⟩ (next b)

theorem credited_run (script : Q → Script ε σ ν α) (move : δ → σ → σ) (s : σ)
    (requests : ι → List Q) (schedule : List (ι ⊕ δ)) :
    Credited ((start s requests).run script move schedule) := by
  have hrun : ∀ {w : World ι ε σ ν α Q}, Credited w → Credited (w.run script move schedule) := by
    induction schedule with
    | nil => exact fun h => h
    | cons x schedule ih => exact fun h => ih (h.step x)
  refine hrun fun t ht => ?_
  cases ht

/-- The actions of a finished request did what it guarantees. -/
theorem Credited.guaranteed {G : Q → List (Action σ ν) → Action σ ν → Prop} {w : World ι ε σ ν α Q}
    (h : Credited w) (hG : Guaranteed G w.log) {i : ι} {turn : Nat} {q : Q} {r : Except ε α}
    (hq : (w.clients i).finished[turn]? = some (q, r)) {a : Action σ ν}
    (ha : a ∈ callActions w.log i turn) : ∃ past, G q past a := by
  obtain ⟨t, ht, rfl⟩ := List.mem_map.mp ha
  obtain ⟨hlog, hcall⟩ := List.mem_filter.mp ht
  have hcall : t.who = i ∧ t.turn = turn := by simpa using hcall
  have hasked : t.asked = q := by
    have hold := h t hlog
    rw [hcall.1, hcall.2] at hold
    rcases hold with ⟨r', hr'⟩ | ⟨hturn, -⟩
    · rw [hq] at hr'
      cases hr'
      rfl
    · have hlt := (List.getElem?_eq_some_iff.mp hq).1
      omega
  obtain ⟨before, after, hsplit⟩ := List.append_of_mem hlog
  have hguar : G t.asked (callActions before t.who t.turn) t.toAction := hG before t after hsplit
  rw [hasked] at hguar
  exact ⟨_, hguar⟩

end World

end Effects
