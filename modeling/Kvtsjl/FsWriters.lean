import Kvtsjl.Lib.Files
import Kvtsjl.Lib.Trace
import Kvtsjl.Exceptions

/-
  Writers of a file system through `FilesystemBlobDriver`.
  Each fills a temporary file beside its key and renames it over the key. `Sound` says that a
  temporary file is its writer's alone and holds what the writer has put there so far, and that a
  reader finds whole values. A step that opens no temporary file another writer has under
  way keeps it (`Sound.step`), so every run of such steps does (`writes_whole`). The
  name of a temporary file is made of its key, and of the process for a streamed write, so
  two writers of one key share it: `write_torn` is a run in which they do.
-/

namespace Kvtsjl

open Files Effects

/-! ## Writes -/

inductive WriteCall where
  | write
  | writeStream (pid : Nat)

/-- One call of the driver: the pieces in which its bytes reach the temporary file, and
    what stops it after them, if anything does. -/
structure BlobWrite where
  /-- The file the key's path leads to. Keys that lead to one file are one here. -/
  key : Path
  call : WriteCall
  pieces : List Bytes
  stops : Option Exn

namespace BlobWrite

def data (q : BlobWrite) : Bytes := q.pieces.flatten

/-- The name of the temporary file. -/
def tmp (q : BlobWrite) : Path :=
  match q.call with
  | .write => q.key ++ ".tmp"
  | .writeStream pid => q.key ++ "." ++ toString pid ++ ".tmp"

end BlobWrite

/-- Where a writer is: between calls, with its temporary file open and pieces to come, or about
    to remove the file because the call failed. -/
inductive Phase where
  | ready
  | filling (q : BlobWrite) (handle : Handle) (rest : List Bytes)
  | removing (q : BlobWrite) (e : Exn)

/-- The call under way. -/
def Phase.call? : Phase → Option BlobWrite
  | ready => none
  | filling q _ _ => some q
  | removing q _ => some q

/-- The temporary file under way. -/
def Phase.tmp? (p : Phase) : Option Path := p.call?.map BlobWrite.tmp

structure FsWriter where
  waiting : List BlobWrite
  phase : Phase
  finished : List (BlobWrite × Except Exn Unit)

namespace FsWriter

/-- The call is over. -/
def finish (x : FsWriter) (q : BlobWrite) (r : Except Exn Unit) : FsWriter :=
  { x with phase := .ready, finished := x.finished ++ [(q, r)] }

/-- A streamed write removes its temporary file before it raises. -/
def fail (x : FsWriter) (q : BlobWrite) (e : Exn) : FsWriter :=
  match q.call with
  | .write => x.finish q (.error e)
  | .writeStream _ => { x with phase := .removing q e }

end FsWriter

/-- The writers of one file system. -/
structure FsWriters (ι : Type) where
  fs : FileSystem
  writers : ι → FsWriter

namespace FsWriters

variable {ι : Type} [DecidableEq ι]

def start (fs : FileSystem) (asked : ι → List BlobWrite) : FsWriters ι :=
  ⟨fs, fun i => ⟨asked i, .ready, []⟩⟩

/-- Writer `i` has come to `x`, and the file system to `fs`. -/
def moved (w : FsWriters ι) (i : ι) (fs : FileSystem) (x : FsWriter) : FsWriters ι :=
  ⟨fs, Function.update w.writers i x⟩

/-- The next step of writer `i`: open the temporary file, put the next piece into it, rename it
    over the key, or remove it. -/
def step (w : FsWriters ι) (i : ι) : FsWriters ι :=
  let x := w.writers i
  match x.phase with
  | .ready =>
    match x.waiting with
    | [] => w
    | q :: waiting =>
      let (handle, fs) := w.fs.openWrite q.tmp
      w.moved i fs { x with waiting := waiting, phase := .filling q handle q.pieces }
  | .filling q handle (piece :: rest) =>
    let (handle, fs) := w.fs.write handle piece
    w.moved i fs { x with phase := .filling q handle rest }
  | .filling q _ [] =>
    match q.stops with
    | some e => w.moved i w.fs (x.fail q e)
    | none =>
      match w.fs.replace q.tmp q.key with
      | some fs => w.moved i fs (x.finish q (.ok ()))
      | none => w.moved i w.fs (x.fail q (.medium ("No such file or directory: '" ++ q.tmp ++ "'")))
  | .removing q e => w.moved i (w.fs.unlink q.tmp) (x.finish q (.error e))

/-- The steps of a schedule, in its order. -/
def run (schedule : List ι) (w : FsWriters ι) : FsWriters ι := schedule.foldl step w

/-- The step opens no temporary file that some writer has under way. -/
def OpensAlone (w : FsWriters ι) (i : ι) : Prop :=
  ∀ q waiting, (w.writers i).phase = .ready → (w.writers i).waiting = q :: waiting →
    ∀ j, (w.writers j).phase.tmp? ≠ some q.tmp

/-! ## What holds throughout -/

/-- Under every name but a temporary file's, a reader finds what was there at first or the
    complete bytes of one write of it. -/
def Whole (asked : ι → List BlobWrite) (first fs : FileSystem) : Prop :=
  ∀ k bs, (∀ i, ∀ q ∈ asked i, q.tmp ≠ k) → fs.read k = some bs →
    first.read k = some bs ∨ ∃ i, ∃ q ∈ asked i, q.key = k ∧ q.stops = none ∧ q.data = bs

/-- The name leads to the same file, and that to the same bytes. -/
def Untouched (fs fs' : FileSystem) (p : Path) : Prop :=
  ∀ n, fs.names.get? p = some n → fs'.names.get? p = some n ∧ fs'.bytes n = fs.bytes n

structure Sound (asked : ι → List BlobWrite) (first : FileSystem) (w : FsWriters ι) : Prop where
  asks : ∀ i, ∀ q ∈ (w.writers i).waiting, q ∈ asked i
  started : ∀ i q, (w.writers i).phase.call? = some q → q ∈ asked i
  fills : ∀ i q h rest, (w.writers i).phase = .filling q h rest →
    w.fs.names.get? q.tmp = some h.file ∧ h.offset = (w.fs.bytes h.file).length ∧
      ∃ done, q.pieces = done ++ rest ∧ w.fs.bytes h.file = done.flatten
  apart : ∀ i j t, i ≠ j → (w.writers i).phase.tmp? = some t → (w.writers j).phase.tmp? ≠ some t
  whole : Whole asked first w.fs

variable {asked : ι → List BlobWrite} {first fs : FileSystem} {w : FsWriters ι} {i : ι} {x : FsWriter}

omit [DecidableEq ι] in
theorem sound_start (first : FileSystem) : Sound asked first (start first asked) where
  asks _ _ h := h
  started _ _ h := by cases h
  fills _ _ _ _ h := by cases h
  apart _ _ _ _ h := by cases h
  whole _ _ _ h := .inl h

/-- A writer moves on: what the others have under way is untouched, and nobody else has what
    this one now has under way. -/
theorem Sound.moved (hw : Sound asked first w)
    (hothers : ∀ j t, j ≠ i → (w.writers j).phase.tmp? = some t → Untouched w.fs fs t)
    (hwaiting : ∀ q ∈ x.waiting, q ∈ asked i) (hcall : ∀ q, x.phase.call? = some q → q ∈ asked i)
    (hfills : ∀ q h rest, x.phase = .filling q h rest →
      fs.names.get? q.tmp = some h.file ∧ h.offset = (fs.bytes h.file).length ∧
        ∃ done, q.pieces = done ++ rest ∧ fs.bytes h.file = done.flatten)
    (halone : ∀ j t, j ≠ i → x.phase.tmp? = some t → (w.writers j).phase.tmp? ≠ some t)
    (hwhole : Whole asked first fs) : Sound asked first (w.moved i fs x) := by
  have hself : (w.moved i fs x).writers i = x := Function.update_self ..
  have hother : ∀ {j}, j ≠ i → (w.moved i fs x).writers j = w.writers j :=
    fun hj => Function.update_of_ne hj ..
  refine ⟨fun j => ?_, fun j q hq => ?_, fun j q h rest hp => ?_, fun j l t hjl ht => ?_, hwhole⟩
  · by_cases hj : j = i
    · rw [hj, hself]
      exact hwaiting
    · rw [hother hj]
      exact hw.asks j
  · by_cases hj : j = i
    · rw [hj, hself] at hq
      rw [hj]
      exact hcall q hq
    · rw [hother hj] at hq
      exact hw.started j q hq
  · by_cases hj : j = i
    · rw [hj, hself] at hp
      exact hfills q h rest hp
    · rw [hother hj] at hp
      obtain ⟨hname, hoffset, done, hpieces, hbytes⟩ := hw.fills j q h rest hp
      have htmp : (w.writers j).phase.tmp? = some q.tmp := by rw [hp]; rfl
      obtain ⟨hname', hbytes'⟩ := hothers j q.tmp hj htmp h.file hname
      refine ⟨hname', ?_, done, hpieces, ?_⟩
      · show h.offset = (fs.bytes h.file).length
        rw [hbytes']
        exact hoffset
      · exact hbytes'.trans hbytes
  · by_cases hj : j = i
    · have hl : l ≠ i := fun hl => hjl (hj.trans hl.symm)
      rw [hj, hself] at ht
      rw [hother hl]
      exact halone l t hl ht
    · rw [hother hj] at ht
      by_cases hl : l = i
      · rw [hl, hself]
        intro hx
        exact halone j t hj hx ht
      · rw [hother hl]
        exact hw.apart j l t hjl ht

/-! ## One step -/

theorem untouched_openWrite {p t : Path} (h : t ≠ p) : Untouched fs (fs.openWrite p).2 t :=
  fun n hn => ⟨by rw [FileSystem.openWrite_names h]; exact hn, FileSystem.openWrite_bytes h hn⟩

theorem untouched_write {p t : Path} {h : Handle} (hp : fs.names.get? p = some h.file) (ht : t ≠ p)
    (data : Bytes) : Untouched fs (fs.write h data).2 t := by
  refine fun n hn => ⟨hn, FileSystem.write_bytes_other ?_ data⟩
  intro hnf
  rw [hnf] at hn
  exact ht (fs.single t p _ hn hp)

theorem untouched_unlink {p t : Path} (h : t ≠ p) : Untouched fs (fs.unlink p) t :=
  fun n hn => ⟨by rw [FileSystem.unlink_names, if_neg h]; exact hn, rfl⟩

theorem untouched_replace {p q t : Path} {fs' : FileSystem} (hr : fs.replace p q = some fs') (htq : t ≠ q)
    (htp : t ≠ p) : Untouched fs fs' t :=
  fun n hn => ⟨by rw [FileSystem.replace_names hr htq htp]; exact hn, by
    rw [FileSystem.replace_bytes hr]⟩

theorem untouched_refl (t : Path) : Untouched fs fs t := fun _ hn => ⟨hn, rfl⟩

/-- A call that ends, or begins to clean up, has no more under way than it had. -/
theorem fail_phase (x : FsWriter) (q : BlobWrite) (e : Exn) :
    (x.fail q e).waiting = x.waiting ∧ (∀ h rest q', (x.fail q e).phase ≠ .filling q' h rest) ∧
      ∀ q', (x.fail q e).phase.call? = some q' → q' = q := by
  unfold FsWriter.fail
  cases q.call with
  | write => exact ⟨rfl, fun _ _ _ h => (by cases h), fun _ h => (by cases h)⟩
  | writeStream pid => exact ⟨rfl, fun _ _ _ h => (by cases h), fun q' h => (Option.some.inj h).symm⟩

theorem Sound.failed (hw : Sound asked first w) {q : BlobWrite} {h : Handle} {rest : List Bytes}
    (hphase : (w.writers i).phase = .filling q h rest) (e : Exn) :
    Sound asked first (w.moved i w.fs ((w.writers i).fail q e)) := by
  obtain ⟨hwaiting, hfilling, hcall⟩ := fail_phase (w.writers i) q e
  have htmp : (w.writers i).phase.tmp? = some q.tmp := by rw [hphase]; rfl
  refine hw.moved (fun j t _ _ => untouched_refl t) ?_ ?_ (fun q' h' rest' hp => ?_) ?_ hw.whole
  · rw [hwaiting]
    exact hw.asks i
  · intro q' hq'
    rw [hcall q' hq']
    exact hw.started i q (by rw [hphase]; rfl)
  · exact absurd hp (hfilling h' rest' q')
  · intro j t hj ht
    obtain ⟨q', hq', rfl⟩ := Option.map_eq_some_iff.mp ht
    rw [hcall q' hq']
    exact hw.apart i j q.tmp (Ne.symm hj) htmp

/-- A step that opens no temporary file under way elsewhere, where no key is the name of a
    temporary file. -/
theorem Sound.step (hw : Sound asked first w)
    (hkeys : ∀ i j, ∀ q ∈ asked i, ∀ q' ∈ asked j, q.key ≠ q'.tmp) (halone : w.OpensAlone i) :
    Sound asked first (w.step i) := by
  unfold FsWriters.step
  dsimp only
  cases hphase : (w.writers i).phase with
  | ready =>
    cases hwaiting : (w.writers i).waiting with
    | nil => exact hw
    | cons q waiting =>
      have hq : q ∈ asked i := hw.asks i q (by rw [hwaiting]; exact List.mem_cons_self)
      have hnot := halone q waiting hphase hwaiting
      refine hw.moved (fun j t _ ht => untouched_openWrite ?_) ?_ ?_ ?_ ?_ ?_
      · intro h
        rw [h] at ht
        exact hnot j ht
      · intro q' hq'
        exact hw.asks i q' (by rw [hwaiting]; exact List.mem_cons_of_mem q hq')
      · intro q' h
        cases h
        exact hq
      · intro q' h rest hp
        cases hp
        refine ⟨FileSystem.openWrite_name w.fs _, ?_, [], rfl, FileSystem.openWrite_empty w.fs _⟩
        rw [FileSystem.openWrite_offset, FileSystem.openWrite_empty]
        rfl
      · intro j t _ ht
        cases ht
        exact hnot j
      · intro k bs hk hread
        rw [FileSystem.read_openWrite (Ne.symm (hk i q hq))] at hread
        exact hw.whole k bs hk hread
  | filling q handle rest =>
    have hq : q ∈ asked i := hw.started i q (by rw [hphase]; rfl)
    have htmp : (w.writers i).phase.tmp? = some q.tmp := by rw [hphase]; rfl
    obtain ⟨hname, hoffset, done, hpieces, hbytes⟩ := hw.fills i q handle rest hphase
    have hothers : ∀ j t, j ≠ i → (w.writers j).phase.tmp? = some t → t ≠ q.tmp := by
      intro j t hj ht h
      rw [h] at ht
      exact hw.apart i j q.tmp (Ne.symm hj) htmp ht
    cases rest with
    | cons piece rest =>
      refine hw.moved (fun j t hj ht => untouched_write hname (hothers j t hj ht) piece) (hw.asks i) ?_ ?_
        ?_ ?_
      · intro q' h
        cases h
        exact hq
      · intro q' h rest' hp
        cases hp
        have hbytes' := FileSystem.write_bytes_end hoffset piece
        refine ⟨hname, ?_, done ++ [piece], by rw [hpieces]; simp, ?_⟩
        · show handle.offset + piece.length = ((w.fs.write handle piece).2.bytes handle.file).length
          rw [hbytes', hoffset, List.length_append]
        · show (w.fs.write handle piece).2.bytes handle.file = _
          rw [hbytes', hbytes]
          simp
      · intro j t hj ht
        cases ht
        exact hw.apart i j q.tmp (Ne.symm hj) htmp
      · intro k bs hk hread
        rw [FileSystem.read_write hname (Ne.symm (hk i q hq))] at hread
        exact hw.whole k bs hk hread
    | nil =>
      dsimp only
      cases hstops : q.stops with
      | some e => exact hw.failed hphase e
      | none =>
        dsimp only
        cases hreplace : w.fs.replace q.tmp q.key with
        | none => exact hw.failed hphase _
        | some fs =>
          have hcalls : ∀ q', ((w.writers i).finish q (.ok ())).phase.call? ≠ some q' :=
            fun _ h => by cases h
          refine hw.moved (fun j t hj ht => ?_) (hw.asks i) (fun q' h => absurd h (hcalls q'))
            (fun q' h rest hp => by cases hp) (fun j t _ ht => by cases ht) ?_
          · -- a key is no temporary file's name, so the name given up is the only one touched
            obtain ⟨q', hq', rfl⟩ := Option.map_eq_some_iff.mp ht
            exact untouched_replace hreplace (Ne.symm (hkeys i j q hq q' (hw.started j q' hq')))
              (hothers j _ hj ht)
          · intro k bs hk hread
            by_cases hkey : k = q.key
            · rw [hkey, FileSystem.read_replace hreplace] at hread
              unfold FileSystem.read at hread
              rw [hname, Option.map_some, hbytes] at hread
              refine .inr ⟨i, q, hq, hkey.symm, hstops, ?_⟩
              unfold BlobWrite.data
              rw [hpieces, List.append_nil]
              exact Option.some.inj hread
            · rw [FileSystem.read_replace_other hreplace hkey (Ne.symm (hk i q hq))] at hread
              exact hw.whole k bs hk hread
  | removing q e =>
    have hq : q ∈ asked i := hw.started i q (by rw [hphase]; rfl)
    have htmp : (w.writers i).phase.tmp? = some q.tmp := by rw [hphase]; rfl
    refine hw.moved (fun j t hj ht => untouched_unlink ?_) (hw.asks i) (fun q' h => by cases h)
      (fun q' h rest hp => by cases hp) (fun j t _ ht => by cases ht) ?_
    · intro h
      rw [h] at ht
      exact hw.apart i j q.tmp (Ne.symm hj) htmp ht
    · intro k bs hk hread
      rw [FileSystem.read_unlink (Ne.symm (hk i q hq))] at hread
      exact hw.whole k bs hk hread

theorem mem_finished_moved {j : ι} {c : BlobWrite × Except Exn Unit}
    (h : c ∈ ((w.moved i fs x).writers j).finished) :
    c ∈ (w.writers j).finished ∨ c ∈ x.finished := by
  by_cases hj : j = i
  · refine .inr ?_
    rw [hj] at h
    have hself : (w.moved i fs x).writers i = x := Function.update_self ..
    rw [hself] at h
    exact h
  · refine .inl ?_
    have hother : (w.moved i fs x).writers j = w.writers j := Function.update_of_ne hj ..
    rw [hother] at h
    exact h

theorem mem_finished_fail {q q' : BlobWrite} {e : Exn}
    (h : (q', .ok ()) ∈ (x.fail q e).finished) : (q', .ok ()) ∈ x.finished := by
  unfold FsWriter.fail at h
  cases hcall : q.call with
  | write =>
    rw [hcall] at h
    rcases List.mem_append.mp h with h | h
    · exact h
    · cases List.mem_singleton.mp h
  | writeStream pid =>
    rw [hcall] at h
    exact h

/-- What a step newly returns from is in place after it. -/
theorem Sound.finished_step (hw : Sound asked first w) {j : ι} {q : BlobWrite}
    (h : (q, .ok ()) ∈ ((w.step i).writers j).finished) :
    (∃ j, (q, .ok ()) ∈ (w.writers j).finished) ∨ (w.step i).fs.read q.key = some q.data := by
  unfold FsWriters.step at h ⊢
  dsimp only at h ⊢
  cases hphase : (w.writers i).phase with
  | ready =>
    rw [hphase] at h
    cases hwaiting : (w.writers i).waiting with
    | nil =>
      rw [hwaiting] at h
      exact .inl ⟨j, h⟩
    | cons q' waiting =>
      rw [hwaiting] at h
      rcases mem_finished_moved h with h | h
      · exact .inl ⟨j, h⟩
      · exact .inl ⟨i, h⟩
  | removing q' e =>
    rw [hphase] at h
    rcases mem_finished_moved h with h | h
    · exact .inl ⟨j, h⟩
    · rcases List.mem_append.mp h with h | h
      · exact .inl ⟨i, h⟩
      · cases List.mem_singleton.mp h
  | filling q' handle rest =>
    obtain ⟨hname, -, done, hpieces, hbytes⟩ := hw.fills i q' handle rest hphase
    rw [hphase] at h
    cases rest with
    | cons piece rest =>
      rcases mem_finished_moved h with h | h
      · exact .inl ⟨j, h⟩
      · exact .inl ⟨i, h⟩
    | nil =>
      dsimp only at h ⊢
      cases hstops : q'.stops with
      | some e =>
        rw [hstops] at h
        rcases mem_finished_moved h with h | h
        · exact .inl ⟨j, h⟩
        · exact .inl ⟨i, mem_finished_fail h⟩
      | none =>
        rw [hstops] at h
        dsimp only at h ⊢
        cases hreplace : w.fs.replace q'.tmp q'.key with
        | none =>
          rw [hreplace] at h
          rcases mem_finished_moved h with h | h
          · exact .inl ⟨j, h⟩
          · exact .inl ⟨i, mem_finished_fail h⟩
        | some fs =>
          rw [hreplace] at h
          rcases mem_finished_moved h with h | h
          · exact .inl ⟨j, h⟩
          · rcases List.mem_append.mp h with h | h
            · exact .inl ⟨i, h⟩
            · obtain ⟨rfl, -⟩ := Prod.mk.inj (List.mem_singleton.mp h)
              refine .inr ?_
              show fs.read q.key = some q.data
              rw [FileSystem.read_replace hreplace]
              unfold FileSystem.read BlobWrite.data
              rw [hname, Option.map_some, hbytes, hpieces, List.append_nil]

/-! ## Runs -/

theorem run_concat (schedule : List ι) (i : ι) (w : FsWriters ι) :
    run (schedule ++ [i]) w = (run schedule w).step i := by
  unfold run
  rw [List.foldl_append]
  rfl

theorem sound_run (hkeys : ∀ i j, ∀ q ∈ asked i, ∀ q' ∈ asked j, q.key ≠ q'.tmp) {schedule : List ι}
    (halone : Guarded (fun done i => (run done (start first asked)).OpensAlone i) schedule) :
    Sound asked first (run schedule (start first asked)) := by
  induction schedule using List.reverseRecOn with
  | nil => exact sound_start first
  | append_singleton schedule i ih =>
    rw [run_concat]
    exact (ih halone.left).step hkeys (halone schedule i [] rfl)

end FsWriters

/-- In every run of writers none of whose steps opens a temporary file another writer has under
    way, and where no key is a temporary file's name, a reader finds complete values only, and
    every write that returned normally had its bytes in place at some moment. -/
theorem writes_whole {ι : Type} [DecidableEq ι] (first : FileSystem) (asked : ι → List BlobWrite)
    (hkeys : ∀ i j, ∀ q ∈ asked i, ∀ q' ∈ asked j, q.key ≠ q'.tmp) (schedule : List ι)
    (halone : Guarded (fun done i => (FsWriters.run done (.start first asked)).OpensAlone i) schedule) :
    (∀ done more, schedule = done ++ more →
      FsWriters.Whole asked first (FsWriters.run done (.start first asked)).fs) ∧
    ∀ i q, (q, .ok ()) ∈ ((FsWriters.run schedule (.start first asked)).writers i).finished →
      ∃ done more, schedule = done ++ more ∧
        (FsWriters.run done (.start first asked)).fs.read q.key = some q.data := by
  refine ⟨?_, ?_⟩
  · intro done more h
    rw [h] at halone
    exact (FsWriters.sound_run hkeys halone.left).whole
  · intro i q hq
    induction schedule using List.reverseRecOn generalizing i with
    | nil => cases hq
    | append_singleton schedule l ih =>
      rw [FsWriters.run_concat] at hq
      rcases (FsWriters.sound_run hkeys halone.left).finished_step hq with ⟨j, hq⟩ | hread
      · obtain ⟨done, more, h, hread⟩ := ih halone.left j hq
        exact ⟨done, more ++ [l], by rw [h, List.append_assoc], hread⟩
      · refine ⟨schedule ++ [l], [], by simp, ?_⟩
        rw [FsWriters.run_concat]
        exact hread

/-! ## Two writers of one key -/

/-- Each writes its own bytes under `k`. -/
def rivals : Bool → List BlobWrite
  | true => [⟨"k", .write, [[1, 1, 1]], none⟩]
  | false => [⟨"k", .write, [[2]], none⟩]

/-- One after the other, they share the temporary file and do no harm. -/
def inTurn : List Bool := [true, true, true, false, false, false]

/-- The second opens the temporary file that the first has filled, and empties it. -/
def overlapping : List Bool := [true, true, false, true]

theorem writes_whole_inTurn :
    FsWriters.Whole rivals .empty (FsWriters.run inTurn (.start .empty rivals)).fs := by
  have hrivals : ∀ i, ∀ q ∈ rivals i, q.key = "k" ∧ q.tmp = "k.tmp" := by
    intro i q hq
    cases i <;> rw [List.mem_singleton.mp hq] <;> exact ⟨rfl, by decide⟩
  have hkeys : ∀ i j, ∀ q ∈ rivals i, ∀ q' ∈ rivals j, q.key ≠ q'.tmp := by
    intro i j q hq q' hq'
    rw [(hrivals i q hq).1, (hrivals j q' hq').2]
    decide
  -- the first step of each opens its file when the other has none under way, and no later
  -- step opens one
  have hopens : ∀ n < 6, ∀ i, inTurn[n]? = some i →
      (((FsWriters.run (inTurn.take n) (.start .empty rivals)).writers i).phase.call? = none →
        ∀ j, ((FsWriters.run (inTurn.take n) (.start .empty rivals)).writers j).phase.tmp? = none) := by
    decide
  have halone : Guarded (fun done i => (FsWriters.run done (.start .empty rivals)).OpensAlone i)
      inTurn := by
    intro before i after h q waiting hready _ j
    have htake : inTurn.take before.length = before := by rw [h]; simp
    have hget : inTurn[before.length]? = some i := by rw [h]; simp
    have hlt : before.length < 6 := (List.getElem?_eq_some_iff.mp hget).1
    have hnone := hopens before.length hlt i hget
    rw [htake] at hnone
    rw [hnone (by rw [hready]; rfl) j]
    simp
  exact (writes_whole .empty rivals hkeys inTurn halone).1 inTurn [] (by simp)

/-- Under `k` a reader finds nothing, which nobody wrote. -/
theorem write_torn : ¬ ∀ {ι : Type} [DecidableEq ι] (asked : ι → List BlobWrite) (schedule : List ι),
    (∀ i j, ∀ q ∈ asked i, ∀ q' ∈ asked j, q.key ≠ q'.tmp) →
    FsWriters.Whole asked .empty (FsWriters.run schedule (.start .empty asked)).fs := by
  intro hwhole
  have hrivals : ∀ i, ∀ q ∈ rivals i, q.key = "k" ∧ q.tmp = "k.tmp" ∧ q.data ≠ [] := by
    intro i q hq
    cases i <;> rw [List.mem_singleton.mp hq] <;> exact ⟨rfl, by decide, by decide⟩
  have hkeys : ∀ i j, ∀ q ∈ rivals i, ∀ q' ∈ rivals j, q.key ≠ q'.tmp := by
    intro i j q hq q' hq'
    rw [(hrivals i q hq).1, (hrivals j q' hq').2.1]
    decide
  have hread : (FsWriters.run overlapping (.start .empty rivals)).fs.read "k" = some [] := by
    decide
  have hnamed : ∀ i, ∀ q ∈ rivals i, q.tmp ≠ "k" := by
    intro i q hq
    rw [(hrivals i q hq).2.1]
    decide
  obtain hfirst | ⟨i, q, hq, -, -, hdata⟩ := hwhole rivals overlapping hkeys "k" [] hnamed hread
  · cases hfirst
  · exact (hrivals i q hq).2.2 hdata

end Kvtsjl
