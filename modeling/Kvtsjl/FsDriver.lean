import Mathlib.Data.Finset.Card
import Kvtsjl.Lib.Posix
import Kvtsjl.ObjectPaths
import Kvtsjl.ObjectStore

/-
  `FilesystemBlobDriver`, one call after another.
  An object is a file. The time it expires is in a sidecar, a file of that name and `.expires`, and
  its body comes from a temporary file, of that name and `.tmp`. `IsObject` says that a key is the
  text of its path, which starts where the others do and never goes up, and is neither. A call on such a
  key leaves the files of all others alone (`Touched`). So the driver is a map of such keys, over any run of
  calls on them (`driver_is_map`), where a listing walks all of them and none of them goes by another name.
-/

namespace Kvtsjl

open Assoc (Dict)
open Effects Prog Posix

/-! ## The host -/

structure FsFile where
  data : List UInt8
  mtime : Instant
  inode : Nat

/-- The files and directories of a host. Where paths start is a directory. -/
structure FsDisk where
  files : Dict Path FsFile
  dirs : List Path
  /-- The number of the next file. -/
  inodes : Nat
  /-- How many `uuid4` were asked for. -/
  drawn : Nat
  clock : Instant

/-- What the driver has from Python. -/
structure FsHost where
  /-- `uuid.uuid4().hex`, at each call. -/
  uuidHex : Nat → List Char
  /-- `str` of a number of seconds. -/
  secondsText : Instant → List Char
  /-- `datetime.fromtimestamp(float(token), tz=UTC)`. It raises a `ValueError` for what is no number, and
      another error for one that is too large. -/
  timestamp : List Char → Except Exn Instant

namespace FsDisk

def empty : FsDisk := ⟨Dict.empty, [], 0, 0, 0⟩

def isFile (d : FsDisk) (p : Path) : Bool := (d.files.get? p).isSome

def isDir (d : FsDisk) (p : Path) : Bool := p.parts = [] || p ∈ d.dirs

/-- A name on the way is a file's. -/
def blocked (d : FsDisk) (p : Path) : Bool := p.lineage.any d.isFile

def put (d : FsDisk) (p : Path) (f : FsFile) : FsDisk := { d with files := d.files.set p f }

def drop (d : FsDisk) (p : Path) : FsDisk := { d with files := d.files.erase p }

end FsDisk

def osError (reason : String) (p : Path) : Exn := .medium (reason ++ ": '" ++ String.ofList p.text ++ "'")

/-- `Path.mkdir(parents=True, exist_ok=True)` -/
def mkdirParents (p : Path) : M FsDisk Unit := fun d =>
  if d.isDir p then (.ok (), d)
  else if d.isFile p then (.error (osError "File exists" p), d)
  else if d.blocked p then (.error (osError "Not a directory" p), d)
  else (.ok (), { d with dirs := d.dirs ++ p.lineage.filter fun q => !d.isDir q })

def writeBytes (p : Path) (data : List UInt8) : M FsDisk Unit := fun d =>
  if d.isDir p then (.error (osError "Is a directory" p), d)
  else if d.isDir p.parent = false then (.error (osError "No such file or directory" p), d)
  else
    match d.files.get? p with
    | some f => (.ok (), d.put p { f with data := data, mtime := d.clock })
    | none => (.ok (), { d.put p ⟨data, d.clock, d.inodes⟩ with inodes := d.inodes + 1 })

/-- `os.replace` -/
def replaceFile (source target : Path) : M FsDisk Unit := fun d =>
  match d.files.get? source with
  | none => (.error (osError "No such file or directory" source), d)
  | some f =>
    if d.isDir target then (.error (osError "Is a directory" target), d)
    else if d.isDir target.parent = false then (.error (osError "No such file or directory" target), d)
    else (.ok (), (d.drop source).put target f)

/-- `os.link`, and whether the name was free. -/
def linkFile (source target : Path) : M FsDisk Bool := fun d =>
  match d.files.get? source with
  | none => (.error (osError "No such file or directory" source), d)
  | some f =>
    if d.isFile target || d.isDir target then (.ok false, d)
    else if d.isDir target.parent = false then (.error (osError "No such file or directory" target), d)
    else (.ok true, d.put target f)

/-- `Path.unlink(missing_ok=True)` -/
def unlinkFile (p : Path) : M FsDisk Unit := fun d =>
  if d.isDir p then (.error (osError "Is a directory" p), d)
  else if d.isFile p then (.ok (), d.drop p)
  else if d.blocked p then (.error (osError "Not a directory" p), d)
  else (.ok (), d)

/-- `os.utime` -/
def setTimes (p : Path) (t : Instant) : M FsDisk Unit := fun d =>
  match d.files.get? p with
  | some f => (.ok (), d.put p { f with mtime := t })
  | none => if d.isDir p then (.ok (), d) else (.error (osError "No such file or directory" p), d)

/-! ## The driver -/

def expiresSidecar (p : Path) : Path := .ofText (p.text ++ ".expires".toList)

def pathOf (key : String) : Path := .ofText key.toList

/-- The expiry a sidecar tells. Only a sidecar that cannot be opened tells none. -/
def sidecarExpires (host : FsHost) (data : List UInt8) : Except Exn Instant :=
  match decodeUtf8 data with
  | none => .error (.valueError "'utf-8' codec can't decode the sidecar")
  | some text =>
    if strip text = "none".toList then .ok ttlNoneExpiresAt
    else
      match host.timestamp (strip text) with
      | .error (.valueError _) => .ok 0
      | told => told

def nativeExpires (host : FsHost) (d : FsDisk) (p : Path) : Except Exn (Option Instant) :=
  match d.files.get? (expiresSidecar p) with
  | none => .ok none
  | some f => (sidecarExpires host f.data).map some

def statForPath (host : FsHost) (d : FsDisk) (p : Path) (key : String) : Except Exn (Option BlobStat) :=
  match d.files.get? p with
  | none => .ok none
  | some f => (nativeExpires host d p).map fun expires =>
    some ⟨key, some f.mtime, expires, some f.data.length, none,
      some (toString f.inode ++ ":" ++ toString (f.mtime * 1000))⟩

/-- The header that dates a file, if it is a number. -/
def HeaderValue.number? : HeaderValue → Option Instant
  | .instant t => some t
  | _ => none

/-- What a sidecar is to hold: a token, or nothing. -/
def HeaderValue.token? (host : FsHost) : HeaderValue → Option (List Char)
  | .instant t => some (host.secondsText t)
  | .seconds t => some (host.secondsText t)
  | .text t => some t.toList
  | .nothing => none

def applyMtime (p : Path) (headers : Headers) : M FsDisk Unit :=
  match (headers.get? "mtime").bind HeaderValue.number? with
  | some t => setTimes p t
  | none => pure ()

def applySidecar (host : FsHost) (p : Path) (headers : Headers) : M FsDisk Unit :=
  match headers.get? "expires_sidecar" with
  | none => pure ()
  | some value =>
    match value.token? host with
    | none => unlinkFile (expiresSidecar p)
    | some token => writeBytes (expiresSidecar p) (utf8 token)

def writeAtomic (p : Path) (data : List UInt8) : M FsDisk Unit := do
  mkdirParents p.parent
  let tmp := Path.ofText (p.text ++ ".tmp".toList)
  writeBytes tmp data
  replaceFile tmp p

def deleteWithSidecar (p : Path) : M FsDisk Unit := do
  unlinkFile p
  unlinkFile (expiresSidecar p)

/-- The temporary file of an insertion. Each call draws a name. -/
def drawTmp (host : FsHost) (p : Path) : M FsDisk Path := fun d =>
  match p.withName (p.name ++ '.' :: host.uuidHex d.drawn ++ ".tmp".toList) with
  | none => (.error (.valueError ("PosixPath('" ++ String.ofList p.text ++ "') has an empty name")),
      { d with drawn := d.drawn + 1 })
  | some tmp => (.ok tmp, { d with drawn := d.drawn + 1 })

/-- The body of an insertion, from which its temporary file is removed in any case. -/
def linkBody (p tmp : Path) (data : List UInt8) (headers : Headers) : M FsDisk Bool := do
  writeBytes tmp data
  applyMtime tmp headers
  linkFile tmp p

namespace FilesystemBlobDriver

def read (host : FsHost) (d : FsDisk) (key : String) : Except Exn (Option Blob) :=
  (statForPath host d (pathOf key) key).map fun stat =>
    stat.bind fun stat => (d.files.get? (pathOf key)).map fun f => ⟨f.data, stat⟩

def write (host : FsHost) (key : String) (data : List UInt8) (headers : Headers) : M FsDisk Unit := do
  writeAtomic (pathOf key) data
  applyMtime (pathOf key) headers
  applySidecar host (pathOf key) headers

def writeIfVersion (host : FsHost) (key : String) (data : List UInt8) (version : Option String) (headers : Headers) :
    M FsDisk Bool :=
  match version with
  | some _ => Prog.raise (.unsupported
      "the filesystem has no atomic compare-and-replace; it inserts only where no file is")
  | none => do
    mkdirParents (pathOf key).parent
    let tmp ← drawTmp host (pathOf key)
    let linked ← Prog.attempt (linkBody (pathOf key) tmp data headers)
    unlinkFile tmp
    let free ← Prog.ofExcept linked
    Prog.when (free = true) (applySidecar host (pathOf key) headers)
    pure free

def delete (key : String) : M FsDisk Bool := do
  let existed ← Prog.read fun d => d.isFile (pathOf key)
  deleteWithSidecar (pathOf key)
  pure existed

/-- One more key deleted, and counted if it existed. -/
def countDeleted (deleted : Nat) (key : String) : M FsDisk Nat := do
  let existed ← delete key
  pure (if existed then deleted + 1 else deleted)

def bulkDelete (keys : List String) : M FsDisk Nat := keys.foldlM countDeleted 0

/-- `prefix.rstrip("/")` -/
def rstripSlash (text : List Char) : List Char := (text.reverse.dropWhile fun c => c = '/').reverse

/-- The directory a listing walks, if it is one. -/
def walkRoot (d : FsDisk) (start : List Char) : Path :=
  if d.isDir (.ofText start) then .ofText start else (Path.ofText start).parent.climb d.isDir

/-- A name a listing passes over. -/
def skipped (name : List Char) : Bool :=
  ".tmp".toList.isSuffixOf name || ".expires".toList.isSuffixOf name

/-- A key is renamed that a prefix ending in a slash does not fit, but does without the slash. -/
def renamed (start key : List Char) : Bool :=
  ['/'].isSuffixOf start && !start.isPrefixOf key &&
    ((rstripSlash start ++ ['/']).isPrefixOf key || key = rstripSlash start)

def listedKey (start key : List Char) : List Char :=
  if renamed start key then start ++ key.drop ((rstripSlash start).length + 1) else key

/-- The files a listing asks for, and the keys it gives them. -/
def listedFiles (d : FsDisk) (start : List Char) : List (Path × List Char) :=
  (((d.files.keys.filter (walkRoot d start).under).filter fun p => !skipped p.name).map fun p =>
    (p, listedKey start p.text)).filter fun file => start.isPrefixOf file.2

def list (host : FsHost) (d : FsDisk) (start : String) : Except Exn (List BlobStat) :=
  if d.isDir (walkRoot d start.toList) then
    ((listedFiles d start.toList).mapM fun file => statForPath host d file.1 (String.ofList file.2)).map List.reduceOption
  else .ok []

end FilesystemBlobDriver

/-! ## Calls, and the map they are to be -/

/-- A call of the driver. -/
inductive FsCall where
  | write (key : String) (data : List UInt8) (headers : Headers)
  | writeIfVersion (key : String) (data : List UInt8) (version : Option String) (headers : Headers)
  | delete (key : String)
  | bulkDelete (keys : List String)
  | list (start : String)

inductive FsAnswer where
  | done
  | told (b : Bool)
  | count (n : Nat)
  | listed (stats : List BlobStat)

namespace FsCall

def run (host : FsHost) : FsCall → M FsDisk FsAnswer
  | write key data headers => do
    FilesystemBlobDriver.write host key data headers
    pure .done
  | writeIfVersion key data version headers =>
    FsAnswer.told <$> FilesystemBlobDriver.writeIfVersion host key data version headers
  | delete key => FsAnswer.told <$> FilesystemBlobDriver.delete key
  | bulkDelete keys => FsAnswer.count <$> FilesystemBlobDriver.bulkDelete keys
  | list start => fun d => ((FilesystemBlobDriver.list host d start).map .listed, d)

/-- The keys a call changes. -/
def keys : FsCall → List String
  | write key _ _ => [key]
  | writeIfVersion key _ _ _ => [key]
  | delete key => [key]
  | bulkDelete keys => keys
  | list _ => []

/-- What a call is to leave of its keys. -/
def leaves : FsCall → Option (List UInt8)
  | write _ data _ => some data
  | writeIfVersion _ data _ _ => some data
  | _ => none

end FsCall

/-- Objects by their keys. -/
abbrev Objects := String → Option (List UInt8)

/-- A call on a map of objects, its answer and the map it leaves. One that raises may have changed
    some of its keys, and a listing does not raise. -/
inductive MapStep : FsCall → Except Exn FsAnswer → Objects → Objects → Prop
  | write {key data headers m} :
    MapStep (.write key data headers) (.ok .done) m (Function.update m key (some data))
  | inserted {key data headers m} (h : m key = none) :
    MapStep (.writeIfVersion key data none headers) (.ok (.told true)) m (Function.update m key (some data))
  | taken {key data headers m} (h : m key ≠ none) :
    MapStep (.writeIfVersion key data none headers) (.ok (.told false)) m m
  | delete {key m} :
    MapStep (.delete key) (.ok (.told (m key).isSome)) m (Function.update m key none)
  | bulkDelete {keys m} :
    MapStep (.bulkDelete keys) (.ok (.count (keys.toFinset.filter fun key => (m key).isSome = true).card)) m
      fun key => if key ∈ keys then none else m key
  | list {start stats m} (hnodup : (stats.map BlobStat.key).Nodup)
    (h : ∀ key, key ∈ stats.map BlobStat.key ↔ (m key).isSome = true ∧ start.toList <+: key.toList) :
    MapStep (.list start) (.ok (.listed stats)) m m
  | raised {c e m m'} (hchanges : ∀ start, c ≠ .list start)
    (h : ∀ key, m' key = m key ∨ key ∈ c.keys ∧ m' key = c.leaves) : MapStep c (.error e) m m'

/-- A key is the text of its path, which starts where the others do and never goes up, and names neither a
    temporary file nor a sidecar. -/
structure IsObject (root : List Char) (key : String) : Prop where
  plain : (pathOf key).text = key.toList
  rooted : (pathOf key).root = root
  notUp : ['.', '.'] ∉ (pathOf key).parts
  notTmp : ¬ ".tmp".toList <:+ key.toList
  notSidecar : ¬ ".expires".toList <:+ key.toList

theorem isObject_iff {root : List Char} {key : String} : IsObject root key ↔
    (pathOf key).text = key.toList ∧ (pathOf key).root = root ∧ (∀ part ∈ (pathOf key).parts, part ≠ ['.', '.']) ∧
      ¬ ".tmp".toList <:+ key.toList ∧ ¬ ".expires".toList <:+ key.toList := by
  constructor
  · intro h
    exact ⟨h.plain, h.rooted, fun part hpart heq => h.notUp (heq ▸ hpart), h.notTmp, h.notSidecar⟩
  · intro ⟨hplain, hrooted, hup, htmp, hsidecar⟩
    exact ⟨hplain, hrooted, fun hmem => hup _ hmem rfl, htmp, hsidecar⟩

instance (root : List Char) (key : String) : Decidable (IsObject root key) := decidable_of_iff' _ isObject_iff

/-- The sidecar that headers ask for, if any, tells an expiry. -/
def TellsExpiry (host : FsHost) (headers : Headers) : Prop :=
  ∀ value token, headers.get? "expires_sidecar" = some value → value.token? host = some token →
    ∃ t, sidecarExpires host (utf8 token) = .ok t

namespace FsDisk

/-- The body of a key's file. -/
def held (d : FsDisk) (key : String) : Option (List UInt8) := (d.files.get? (pathOf key)).map FsFile.data

/-- The objects on a disk. -/
def objects (root : List Char) (d : FsDisk) : Objects := fun key => if IsObject root key then d.held key else none

/-- Sidecars tell an expiry. -/
def Legible (host : FsHost) (d : FsDisk) : Prop :=
  ∀ p f, d.files.get? p = some f → ".expires".toList <:+ p.text → ∃ t, sidecarExpires host f.data = .ok t

/-- No path goes up. -/
def Resolved (root : List Char) (d : FsDisk) : Prop :=
  ∀ p ∈ d.files.keys, p.root = root → FilesystemBlobDriver.skipped p.name = false → ['.', '.'] ∉ p.parts

end FsDisk

/-! ## The files of a key -/

/-- The files a call on a key may change: its own, its sidecar and temporary files. -/
def Touched (key : String) (p : Path) : Prop :=
  p = pathOf key ∨ p = expiresSidecar (pathOf key) ∨ ".tmp".toList <:+ p.text

section Files

variable {root : List Char} {key other : String} {d d' : FsDisk} {p : Path}

theorem text_expiresSidecar (p : Path) : (expiresSidecar p).text = p.text ++ ".expires".toList :=
  Path.text_ofText_append p (by decide)

theorem text_tmp (p : Path) : (Path.ofText (p.text ++ ".tmp".toList)).text = p.text ++ ".tmp".toList :=
  Path.text_ofText_append p (by decide)

theorem not_tmp_of_sidecar {text : List Char} (h : ".expires".toList <:+ text) : ¬ ".tmp".toList <:+ text := by
  intro htmp
  rcases List.suffix_or_suffix_of_suffix htmp h with h | h
  · exact absurd h (by decide)
  · exact absurd h (by decide)

theorem suffix_expiresSidecar (p : Path) : ".expires".toList <:+ (expiresSidecar p).text := by
  rw [text_expiresSidecar]
  exact List.suffix_append _ _

theorem IsObject.path_ne_sidecar (h : IsObject root key) (p : Path) : pathOf key ≠ expiresSidecar p := by
  intro heq
  refine h.notSidecar ?_
  rw [← h.plain, heq]
  exact suffix_expiresSidecar p

theorem IsObject.path_ne_tmp (h : IsObject root key) (hp : ".tmp".toList <:+ p.text) : p ≠ pathOf key := by
  rintro rfl
  rw [h.plain] at hp
  exact h.notTmp hp

/-- A call on one object touches no file of another. -/
theorem IsObject.apart (h : IsObject root key) (h' : IsObject root other) (hne : other ≠ key) :
    ¬ Touched key (pathOf other) ∧ ¬ Touched key (expiresSidecar (pathOf other)) := by
  have hpath : pathOf other ≠ pathOf key := by
    intro heq
    refine hne (String.toList_injective ?_)
    rw [← h.plain, ← h'.plain, heq]
  refine ⟨?_, ?_⟩
  · rintro (heq | heq | htmp)
    · exact hpath heq
    · exact h'.path_ne_sidecar _ heq
    · exact h'.path_ne_tmp htmp rfl
  · rintro (heq | heq | htmp)
    · exact h.path_ne_sidecar _ heq.symm
    · have htext := congrArg Path.text heq
      rw [text_expiresSidecar, text_expiresSidecar] at htext
      exact hpath (Path.text_injective (List.append_cancel_right htext))
    · exact not_tmp_of_sidecar (suffix_expiresSidecar _) htmp

/-- What a read tells depends on the two files of its key. -/
theorem read_congr (host : FsHost) (hfile : d'.files.get? (pathOf key) = d.files.get? (pathOf key))
    (hsidecar : d'.files.get? (expiresSidecar (pathOf key)) = d.files.get? (expiresSidecar (pathOf key))) :
    FilesystemBlobDriver.read host d' key = FilesystemBlobDriver.read host d key := by
  unfold FilesystemBlobDriver.read statForPath nativeExpires
  rw [hfile, hsidecar]

theorem nativeExpires_ok (host : FsHost) (h : d.Legible host) (p : Path) : ∃ expires, nativeExpires host d p = .ok expires := by
  unfold nativeExpires
  cases hsidecar : d.files.get? (expiresSidecar p) with
  | none => exact ⟨none, rfl⟩
  | some g =>
    obtain ⟨t, ht⟩ := h _ g hsidecar (suffix_expiresSidecar _)
    dsimp only
    rw [ht]
    exact ⟨some t, rfl⟩

/-- From legible sidecars a read answers, and gives the body of the key's file. -/
theorem read_held (host : FsHost) (h : d.Legible host) (key : String) :
    (FilesystemBlobDriver.read host d key).map (Option.map Blob.data) = .ok (d.held key) := by
  unfold FilesystemBlobDriver.read statForPath FsDisk.held
  cases hfile : d.files.get? (pathOf key) with
  | none => rfl
  | some f =>
    obtain ⟨expires, hexpires⟩ := nativeExpires_ok host h (pathOf key)
    dsimp only
    rw [hexpires]
    rfl

end Files

/-! ## What a call changes -/

/-- A call on a key that is to leave `v` of it, so far: the files it does not touch are as they were,
    and the key holds what it held or `v`. -/
structure Stays (host : FsHost) (key : String) (v : Option (List UInt8)) (d d' : FsDisk) : Prop where
  spares : ∀ p, ¬ Touched key p → d'.files.get? p = d.files.get? p
  legible : d.Legible host → d'.Legible host
  comes : d'.held key = d.held key ∨ d'.held key = v

section Steps

variable {host : FsHost} {root : List Char} {key : String} {v : Option (List UInt8)} {d d' : FsDisk} {p q : Path}
  {body : List UInt8}

instance : Std.Refl (Stays host key v) := ⟨fun _ => ⟨fun _ _ => rfl, id, .inl rfl⟩⟩

instance : IsTrans FsDisk (Stays host key v) := ⟨fun d d' d'' h h' => by
  refine ⟨fun p hp => (h'.spares p hp).trans (h.spares p hp), fun hd => h'.legible (h.legible hd), ?_⟩
  rcases h'.comes with h2 | h2
  · rw [h2]
    exact h.comes
  · exact .inr h2⟩

theorem Stays.of_files (h : d'.files = d.files) : Stays host key v d d' := by
  refine ⟨fun p _ => by rw [h], fun hd p f hf => hd p f (by rw [← h]; exact hf), .inl ?_⟩
  unfold FsDisk.held
  rw [h]

/-- One file is changed, to another or to none. -/
theorem Stays.of_change {x : Option FsFile} (hfiles : ∀ p, d'.files.get? p = if p = q then x else d.files.get? p)
    (htouched : Touched key q)
    (hlegible : d.Legible host → ".expires".toList <:+ q.text → ∀ f, x = some f →
      ∃ t, sidecarExpires host f.data = .ok t)
    (hcomes : q = pathOf key → x.map FsFile.data = d.held key ∨ x.map FsFile.data = v) : Stays host key v d d' := by
  refine ⟨fun p hp => ?_, fun hd p f hf hends => ?_, ?_⟩
  · rw [hfiles, if_neg]
    rintro rfl
    exact hp htouched
  · rw [hfiles] at hf
    split at hf
    · next heq =>
      rw [heq] at hends
      exact hlegible hd hends f hf
    · exact hd p f hf hends
  · unfold FsDisk.held
    rw [hfiles]
    split
    · next heq => exact hcomes heq.symm
    · exact .inl rfl

theorem mkdirParents_files (p : Path) (d : FsDisk) : (mkdirParents p d).2.files = d.files := by
  unfold mkdirParents
  repeat (split; · rfl)
  rfl

theorem drawTmp_files (host : FsHost) (p : Path) (d : FsDisk) : (drawTmp host p d).2.files = d.files := by
  unfold drawTmp
  split
  · rfl
  · rfl

theorem writeBytes_stays (htouched : Touched key p) (hother : p ≠ pathOf key)
    (hlegible : ".expires".toList <:+ p.text → ∃ t, sidecarExpires host body = .ok t) :
    Moves (Stays host key v) (writeBytes p body) := by
  intro d
  unfold writeBytes
  split
  · exact Std.Refl.refl d
  · split
    · exact Std.Refl.refl d
    · split
      · next f hf =>
        refine .of_change (fun r => Dict.get?_set _ _ _ _) htouched (fun _ hends g hg => ?_) fun heq => absurd heq hother
        rw [← Option.some.inj hg]
        exact hlegible hends
      · refine .of_change (fun r => Dict.get?_set _ _ _ _) htouched (fun _ hends g hg => ?_) fun heq => absurd heq hother
        rw [← Option.some.inj hg]
        exact hlegible hends

theorem unlinkFile_stays (htouched : Touched key p) (hcomes : p = pathOf key → v = none) :
    Moves (Stays host key v) (unlinkFile p) := by
  intro d
  unfold unlinkFile
  split
  · exact Std.Refl.refl d
  · split
    · refine .of_change (fun r => Dict.get?_erase _ _ _) htouched (fun _ _ g hg => by cases hg) fun heq => .inr ?_
      rw [hcomes heq]
      rfl
    · split
      · exact Std.Refl.refl d
      · exact Std.Refl.refl d

theorem setTimes_stays (htouched : Touched key p) (t : Instant) : Moves (Stays host key v) (setTimes p t) := by
  intro d
  unfold setTimes
  split
  · next f hf =>
    refine .of_change (fun r => Dict.get?_set _ _ _ _) htouched (fun hd hends g hg => ?_) fun heq => .inl ?_
    · rw [← Option.some.inj hg]
      exact hd p f hf hends
    · unfold FsDisk.held
      rw [← heq, hf]
      rfl
  · split
    · exact Std.Refl.refl d
    · exact Std.Refl.refl d

/-- A file put at the key holds what the call is to leave. -/
theorem Stays.put {f : FsFile} (h : IsObject root key) (hbody : f.data = body) :
    Stays host key (some body) d (d.put (pathOf key) f) := by
  refine .of_change (fun r => Dict.get?_set _ _ _ _) (.inl rfl) (fun _ hends => ?_) fun _ => .inr ?_
  · rw [h.plain] at hends
    exact absurd hends h.notSidecar
  · rw [← hbody]
    rfl

theorem replaceFile_stays (h : IsObject root key) (htmp : ".tmp".toList <:+ p.text)
    (hbody : (d.files.get? p).map FsFile.data = some body) :
    Stays host key (some body) d (replaceFile p (pathOf key) d).2 := by
  unfold replaceFile
  split
  · exact Std.Refl.refl d
  · next f hf =>
    rw [hf] at hbody
    split
    · exact Std.Refl.refl d
    · split
      · exact Std.Refl.refl d
      · have hdrop : Stays host key (some body) d (d.drop p) :=
          .of_change (fun r => Dict.get?_erase _ _ _) (.inr (.inr htmp)) (fun _ _ g hg => by cases hg)
            fun heq => absurd heq (h.path_ne_tmp htmp)
        exact IsTrans.trans _ _ _ hdrop (.put h (Option.some.inj hbody))

theorem linkFile_stays (h : IsObject root key) (hbody : (d.files.get? p).map FsFile.data = some body) :
    Stays host key (some body) d (linkFile p (pathOf key) d).2 := by
  unfold linkFile
  split
  · exact Std.Refl.refl d
  · next f hf =>
    rw [hf] at hbody
    split
    · exact Std.Refl.refl d
    · split
      · exact Std.Refl.refl d
      · exact .put h (Option.some.inj hbody)

end Steps

/-! ## Whole calls -/

section Calls

variable {host : FsHost} {root : List Char} {key : String} {v : Option (List UInt8)} {d s : FsDisk} {p q : Path}
  {body : List UInt8}

/-- What is right whatever a call is to leave leaves the key as it was. -/
theorem held_of_stays (host : FsHost) (h : ∀ v, Stays host key v d s) : s.held key = d.held key := by
  rcases (h (d.held key)).comes with h | h
  · exact h
  · exact h

theorem stays_from {α : Type} {m : M FsDisk α} (h : Moves (Stays host key v) m) :
    Ensures (Stays host key v d) m fun _ s => Stays host key v d s :=
  fun s hs => IsTrans.trans _ _ _ hs (h s)

theorem mkdirParents_stays (p : Path) : Moves (Stays host key v) (mkdirParents p) :=
  fun d => .of_files (mkdirParents_files p d)

theorem applyMtime_stays (htouched : Touched key p) (headers : Headers) :
    Moves (Stays host key v) (applyMtime p headers) := by
  unfold applyMtime
  split
  · exact setTimes_stays htouched _
  · exact Moves.pure ()

theorem applySidecar_stays (h : IsObject root key) {headers : Headers} (htells : TellsExpiry host headers) :
    Moves (Stays host key v) (applySidecar host (pathOf key) headers) := by
  unfold applySidecar
  split
  · exact Moves.pure ()
  · next value hvalue =>
    split
    · exact unlinkFile_stays (.inr (.inl rfl)) fun heq => absurd heq.symm (h.path_ne_sidecar _)
    · next token htoken =>
      exact writeBytes_stays (.inr (.inl rfl)) (h.path_ne_sidecar _).symm fun _ => htells value token hvalue htoken

theorem writeBytes_holds (h : (writeBytes p body d).1 = .ok ()) :
    ((writeBytes p body d).2.files.get? p).map FsFile.data = some body := by
  unfold writeBytes at h ⊢
  split at h
  · cases h
  · next hdir =>
    rw [if_neg hdir]
    split at h
    · cases h
    · next hparent =>
      rw [if_neg hparent]
      split
      · show ((d.files.set p _).get? p).map FsFile.data = some body
        rw [Dict.get?_set, if_pos rfl]
        rfl
      · show ((d.files.set p _).get? p).map FsFile.data = some body
        rw [Dict.get?_set, if_pos rfl]
        rfl

theorem setTimes_data (t : Instant) (q : Path) (d : FsDisk) :
    ((setTimes p t d).2.files.get? q).map FsFile.data = (d.files.get? q).map FsFile.data := by
  unfold setTimes
  split
  · next f hf =>
    show ((d.files.set p _).get? q).map FsFile.data = _
    rw [Dict.get?_set]
    split
    · next heq =>
      rw [heq, hf]
      rfl
    · rfl
  · split
    · rfl
    · rfl

theorem applyMtime_data (headers : Headers) (q : Path) (d : FsDisk) :
    ((applyMtime p headers d).2.files.get? q).map FsFile.data = (d.files.get? q).map FsFile.data := by
  unfold applyMtime
  cases (headers.get? "mtime").bind HeaderValue.number? with
  | none => rfl
  | some t => exact setTimes_data t q d

theorem replaceFile_holds (hbody : (d.files.get? p).map FsFile.data = some body)
    (h : (replaceFile p q d).1 = .ok ()) :
    ((replaceFile p q d).2.files.get? q).map FsFile.data = some body := by
  unfold replaceFile at h ⊢
  cases hf : d.files.get? p with
  | none =>
    rw [hf] at hbody
    cases hbody
  | some f =>
    rw [hf] at h hbody
    dsimp only at h ⊢
    split at h
    · cases h
    · next hdir =>
      rw [if_neg hdir]
      split at h
      · cases h
      · next hparent =>
        rw [if_neg hparent]
        show (((d.drop p).files.set q f).get? q).map FsFile.data = some body
        rw [Dict.get?_set, if_pos rfl]
        exact hbody

/-- What a call on `key` that is to leave `body` has come to: the files it does not touch are as they were, and
    if it is through the key holds the body. -/
def Written (host : FsHost) (key : String) (body : List UInt8) (d : FsDisk) (r : Except Exn Unit) (s : FsDisk) : Prop :=
  Stays host key (some body) d s ∧ (r = .ok () → s.held key = some body)

theorem Written.of_error {e : Exn} (h : Stays host key (some body) d s) : Written host key body d (.error e) s :=
  ⟨h, fun heq => by cases heq⟩

theorem writeAtomic_written (h : IsObject root key) (d : FsDisk) :
    Ensures (Stays host key (some body) d) (writeAtomic (pathOf key) body) (Written host key body d) := by
  have htmp : ".tmp".toList <:+ (Path.ofText ((pathOf key).text ++ ".tmp".toList)).text := by
    rw [text_tmp]
    exact List.suffix_append _ _
  refine (stays_from (mkdirParents_stays _)).bind (fun _ => ?_) fun e s hs => .of_error hs
  refine Ensures.bind (Q := fun r s => Stays host key (some body) d s ∧ (r = .ok () →
    (s.files.get? (Path.ofText ((pathOf key).text ++ ".tmp".toList))).map FsFile.data = some body))
    (fun s hs => ⟨?_, writeBytes_holds⟩) (fun _ s hs => ⟨?_, replaceFile_holds (hs.2 rfl)⟩) fun e s hs => .of_error hs.1
  · exact stays_from (writeBytes_stays (.inr (.inr htmp)) (h.path_ne_tmp htmp) fun hends =>
      absurd htmp (not_tmp_of_sidecar hends)) s hs
  · exact IsTrans.trans _ _ _ hs.1 (replaceFile_stays h htmp (hs.2 rfl))

theorem write_written (h : IsObject root key) {headers : Headers} (htells : TellsExpiry host headers) (d : FsDisk) :
    Ensures (Stays host key (some body) d) (FilesystemBlobDriver.write host key body headers) (Written host key body d) := by
  refine (writeAtomic_written h d).bind (fun _ => ?_) fun e s hs => .of_error hs.1
  refine Ensures.bind (Q := Written host key body d) (fun s hs => ⟨?_, fun _ => ?_⟩) (fun _ s hs => ⟨?_, fun _ => ?_⟩)
    fun e s hs => .of_error hs.1
  · exact IsTrans.trans _ _ _ hs.1 (applyMtime_stays (.inl rfl) headers s)
  · exact (applyMtime_data headers _ s).trans (hs.2 rfl)
  · exact IsTrans.trans _ _ _ hs.1 (applySidecar_stays h htells s)
  · exact (held_of_stays host fun v => applySidecar_stays h htells s).trans (hs.2 rfl)

theorem writeBytes_dirs (p : Path) (body : List UInt8) (d : FsDisk) : (writeBytes p body d).2.dirs = d.dirs := by
  unfold writeBytes
  split
  · rfl
  · split
    · rfl
    · split
      · rfl
      · rfl

theorem applyMtime_dirs (p : Path) (headers : Headers) (d : FsDisk) : (applyMtime p headers d).2.dirs = d.dirs := by
  unfold applyMtime
  cases (headers.get? "mtime").bind HeaderValue.number? with
  | none => rfl
  | some t =>
    show (setTimes p t d).2.dirs = d.dirs
    unfold setTimes
    split
    · rfl
    · split
      · rfl
      · rfl

theorem isDir_congr (h : s.dirs = d.dirs) (p : Path) : s.isDir p = d.isDir p := by
  unfold FsDisk.isDir
  rw [h]

/-- Directories are made above a path, so it is none of them. -/
theorem isDir_mkdirParents (h : d.isDir p = false) : (mkdirParents p.parent d).2.isDir p = false := by
  have hdir := h
  unfold FsDisk.isDir at h
  rw [Bool.or_eq_false_iff, decide_eq_false_iff_not, decide_eq_false_iff_not] at h
  unfold mkdirParents
  split
  · exact hdir
  · split
    · exact hdir
    · split
      · exact hdir
      · unfold FsDisk.isDir
        rw [Bool.or_eq_false_iff, decide_eq_false_iff_not, decide_eq_false_iff_not]
        refine ⟨h.1, fun hmem => ?_⟩
        rcases List.mem_append.mp hmem with hmem | hmem
        · exact h.2 hmem
        · exact Path.not_mem_lineage_parent h.1 (List.mem_filter.mp hmem).1

theorem drawTmp_tmp {tmp : Path} (h : (drawTmp host p d).1 = .ok tmp) : ".tmp".toList <:+ tmp.text := by
  unfold drawTmp at h
  cases hname : p.withName (p.name ++ '.' :: host.uuidHex d.drawn ++ ".tmp".toList) with
  | none =>
    rw [hname] at h
    cases h
  | some q =>
    rw [hname] at h
    obtain rfl := Except.ok.inj h
    obtain ⟨hparts, hlast⟩ := Path.withName_text hname
    rw [Path.suffix_text_iff hparts (by decide), hlast]
    exact List.suffix_append _ _

/-- Where an insertion is before it links its body: the key is as it was, and no directory. -/
structure Inserting (host : FsHost) (key : String) (body : List UInt8) (d s : FsDisk) : Prop where
  stays : Stays host key (some body) d s
  held : s.held key = d.held key
  isDir : s.isDir (pathOf key) = false

/-- What an insertion has come to: free, the key holds the body, and taken it holds what it held. -/
structure Inserted (host : FsHost) (key : String) (body : List UInt8) (d : FsDisk) (r : Except Exn Bool)
    (s : FsDisk) : Prop where
  stays : Stays host key (some body) d s
  free : r = .ok true → d.held key = none ∧ s.held key = some body
  taken : r = .ok false → d.held key ≠ none ∧ s.held key = d.held key

theorem Inserted.of_error {e : Exn} (h : Stays host key (some body) d s) : Inserted host key body d (.error e) s where
  stays := h
  free heq := by cases heq
  taken heq := by cases heq

/-- A step that leaves the key as it is keeps what an insertion has come to. -/
theorem Inserted.step {r : Except Exn Bool} (h : Inserted host key body d r s) {d' : FsDisk}
    (hstep : ∀ v, Stays host key v s d') :
    Inserted host key body d r d' := by
  have hheld := held_of_stays host hstep
  refine ⟨IsTrans.trans _ _ _ h.stays (hstep _), fun heq => ?_, fun heq => ?_⟩
  · rw [hheld]
    exact h.free heq
  · rw [hheld]
    exact h.taken heq

theorem linkFile_inserted {tmp : Path} (h : IsObject root key) (hs : Inserting host key body d s)
    (hbody : (s.files.get? tmp).map FsFile.data = some body) :
    Inserted host key body d (linkFile tmp (pathOf key) s).1 (linkFile tmp (pathOf key) s).2 := by
  refine ⟨IsTrans.trans _ _ _ hs.stays (linkFile_stays h hbody), fun hfree => ?_, fun htaken => ?_⟩
  · unfold linkFile at hfree ⊢
    cases hf : s.files.get? tmp with
    | none =>
      rw [hf] at hbody
      cases hbody
    | some f =>
      rw [hf] at hbody hfree
      dsimp only at hfree ⊢
      split at hfree
      · cases hfree
      · next hname =>
        rw [if_neg hname]
        rw [Bool.not_eq_true, Bool.or_eq_false_iff] at hname
        split at hfree
        · cases hfree
        · next hparent =>
          rw [if_neg hparent]
          refine ⟨?_, ?_⟩
          · rw [← hs.held]
            show (s.files.get? (pathOf key)).map FsFile.data = none
            rw [Option.not_isSome_iff_eq_none.mp (ne_true_of_eq_false hname.1)]
            rfl
          · show ((s.files.set (pathOf key) f).get? (pathOf key)).map FsFile.data = some body
            rw [Dict.get?_set, if_pos rfl]
            exact hbody
  · unfold linkFile at htaken ⊢
    cases hf : s.files.get? tmp with
    | none =>
      rw [hf] at hbody
      cases hbody
    | some f =>
      rw [hf] at hbody htaken
      dsimp only at htaken ⊢
      split at htaken
      · next hname =>
        rw [if_pos hname]
        refine ⟨?_, hs.held⟩
        rw [hs.isDir, Bool.or_false] at hname
        obtain ⟨g, hg⟩ := Option.isSome_iff_exists.mp hname
        rw [← hs.held]
        show (s.files.get? (pathOf key)).map FsFile.data ≠ none
        rw [hg]
        exact Option.some_ne_none _
      · split at htaken
        · cases htaken
        · cases htaken

theorem linkBody_inserted {tmp : Path} (h : IsObject root key) (headers : Headers) (htmp : ".tmp".toList <:+ tmp.text) :
    Ensures (Inserting host key body d) (linkBody (pathOf key) tmp body headers) (Inserted host key body d) := by
  have hwrite : ∀ v, Moves (Stays host key v) (writeBytes tmp body) := fun v =>
    writeBytes_stays (.inr (.inr htmp)) (h.path_ne_tmp htmp) fun hends => absurd htmp (not_tmp_of_sidecar hends)
  refine Ensures.bind (Q := fun r s => Inserting host key body d s ∧
    (r = .ok () → (s.files.get? tmp).map FsFile.data = some body))
    (fun s hs => ⟨⟨?_, ?_, ?_⟩, writeBytes_holds⟩) (fun _ => ?_) fun e s hs => .of_error hs.1.stays
  · exact stays_from (hwrite _) s hs.stays
  · exact (held_of_stays host fun v => hwrite v s).trans hs.held
  · rw [isDir_congr (writeBytes_dirs tmp body s)]
    exact hs.isDir
  refine Ensures.bind (Q := fun r s => Inserting host key body d s ∧
    (r = .ok () → (s.files.get? tmp).map FsFile.data = some body))
    (fun s hs => ⟨⟨?_, ?_, ?_⟩, fun _ => ?_⟩) (fun _ s hs => linkFile_inserted h hs.1 (hs.2 rfl))
    fun e s hs => .of_error hs.1.stays
  · exact stays_from (applyMtime_stays (.inr (.inr htmp)) headers) s hs.1.stays
  · exact (held_of_stays host fun v => applyMtime_stays (.inr (.inr htmp)) headers s).trans hs.1.held
  · rw [isDir_congr (applyMtime_dirs tmp headers s)]
    exact hs.1.isDir
  · rw [applyMtime_data]
    exact hs.2 rfl

theorem writeIfVersion_inserted (h : IsObject root key) {headers : Headers} (htells : TellsExpiry host headers)
    (hdir : d.isDir (pathOf key) = false) :
    Ensures (fun s => s = d) (FilesystemBlobDriver.writeIfVersion host key body none headers) (Inserted host key body d) := by
  refine Ensures.bind (Q := fun _ s => Inserting host key body d s) (fun s hs => ?_) (fun _ => ?_)
    fun e s hs => .of_error hs.stays
  · obtain rfl := hs
    exact ⟨mkdirParents_stays _ s, held_of_stays host fun v => mkdirParents_stays _ s, isDir_mkdirParents hdir⟩
  refine Ensures.bind (Q := fun r s => Inserting host key body d s ∧ ∀ tmp, r = .ok tmp → ".tmp".toList <:+ tmp.text)
    (fun s hs => ⟨⟨?_, ?_, ?_⟩, fun tmp => drawTmp_tmp⟩) (fun tmp => ?_) fun e s hs => .of_error hs.1.stays
  · exact IsTrans.trans _ _ _ hs.stays (.of_files (drawTmp_files host _ s))
  · exact (held_of_stays host fun v => .of_files (drawTmp_files host _ s)).trans hs.held
  · rw [isDir_congr (by unfold drawTmp; split <;> rfl)]
    exact hs.isDir
  intro s hs
  have htmp := hs.2 tmp rfl
  have hunlink : ∀ v, Moves (Stays host key v) (unlinkFile tmp) := fun v =>
    unlinkFile_stays (.inr (.inr htmp)) fun heq => absurd heq (h.path_ne_tmp htmp)
  have hbody : Inserted host key body d _ _ := linkBody_inserted h headers htmp s hs.1
  rw [bind_ok (attempt_apply _ s)]
  have hgone := hbody.step fun v => hunlink v _
  rcases hu : unlinkFile tmp (linkBody (pathOf key) tmp body headers s).2 with ⟨e | u, s2⟩
  · rw [hu] at hgone
    rw [bind_error hu]
    exact .of_error hgone.stays
  rw [hu] at hgone
  rw [bind_ok hu]
  cases hr : (linkBody (pathOf key) tmp body headers s).1 with
  | error e => exact .of_error hgone.stays
  | ok free =>
    rw [hr] at hgone
    cases free with
    | false => exact hgone
    | true =>
      have hsidecar := hgone.step fun v => applySidecar_stays h htells s2
      show Inserted host key body d ((applySidecar host (pathOf key) headers >>= fun _ => pure true) s2).1
        ((applySidecar host (pathOf key) headers >>= fun _ => pure true) s2).2
      rcases ha : applySidecar host (pathOf key) headers s2 with ⟨e | u, s3⟩
      · rw [ha] at hsidecar
        rw [bind_error ha]
        exact .of_error hsidecar.stays
      · rw [ha] at hsidecar
        rw [bind_ok ha]
        exact hsidecar

theorem unlinkFile_gone (h : (unlinkFile p d).1 = .ok ()) : (unlinkFile p d).2.files.get? p = none := by
  unfold unlinkFile at h ⊢
  split at h
  · cases h
  · next hdir =>
    rw [if_neg hdir]
    split at h
    · next hfile =>
      rw [if_pos hfile]
      show (d.files.erase p).get? p = none
      rw [Dict.get?_erase, if_pos rfl]
    · next hfile =>
      rw [if_neg hfile]
      have hnone : d.files.get? p = none := Option.not_isSome_iff_eq_none.mp hfile
      split at h
      · cases h
      · next hblocked =>
        rw [if_neg hblocked]
        exact hnone

/-- What deleting a key has come to. -/
structure Deleted (host : FsHost) (key : String) (d : FsDisk) (r : Except Exn Bool) (s : FsDisk) : Prop where
  stays : Stays host key none d s
  through : ∀ existed, r = .ok existed → existed = (d.held key).isSome ∧ s.held key = none

theorem delete_deleted (host : FsHost) (h : IsObject root key) (d : FsDisk) :
    Deleted host key d (FilesystemBlobDriver.delete key d).1 (FilesystemBlobDriver.delete key d).2 := by
  have hfile : Stays host key none d (unlinkFile (pathOf key) d).2 := unlinkFile_stays (.inl rfl) (fun _ => rfl) d
  have hsidecar : ∀ v, Moves (Stays host key v) (unlinkFile (expiresSidecar (pathOf key))) := fun v =>
    unlinkFile_stays (.inr (.inl rfl)) fun heq => absurd heq.symm (h.path_ne_sidecar _)
  have hread : FilesystemBlobDriver.delete key d = (deleteWithSidecar (pathOf key) >>= fun _ =>
      pure (d.isFile (pathOf key))) d := rfl
  rw [hread]
  unfold deleteWithSidecar
  rcases hu : unlinkFile (pathOf key) d with ⟨e | u, s⟩
  · rw [hu] at hfile
    rw [bind_error (bind_error hu)]
    exact ⟨hfile, fun existed heq => by cases heq⟩
  have hgone := unlinkFile_gone (p := pathOf key) (d := d) (by rw [hu])
  rw [hu] at hfile hgone
  rcases hx : unlinkFile (expiresSidecar (pathOf key)) s with ⟨e | u, s'⟩
  · have hrest := hsidecar none s
    rw [hx] at hrest
    rw [bind_error ((bind_ok hu).trans hx)]
    exact ⟨IsTrans.trans _ _ _ hfile hrest, fun existed heq => by cases heq⟩
  · have hrest := fun v => hsidecar v s
    rw [hx] at hrest
    rw [bind_ok ((bind_ok hu).trans hx)]
    refine ⟨IsTrans.trans _ _ _ hfile (hrest none), fun existed heq => ?_⟩
    obtain rfl := Except.ok.inj heq
    refine ⟨(Option.isSome_map ..).symm, (held_of_stays host hrest).trans ?_⟩
    show (s.files.get? (pathOf key)).map FsFile.data = none
    rw [hgone]
    rfl

theorem Stays.other {other : String} (hs : Stays host key v d s) (h : IsObject root key) (h' : IsObject root other)
    (hne : other ≠ key) : s.files.get? (pathOf other) = d.files.get? (pathOf other) ∧
      s.files.get? (expiresSidecar (pathOf other)) = d.files.get? (expiresSidecar (pathOf other)) :=
  ⟨hs.spares _ (h.apart h' hne).1, hs.spares _ (h.apart h' hne).2⟩

theorem suffix_of_skipped {name : List Char} : FilesystemBlobDriver.skipped name = true ↔
    ".tmp".toList <:+ name ∨ ".expires".toList <:+ name := by
  unfold FilesystemBlobDriver.skipped
  rw [Bool.or_eq_true, List.isSuffixOf_iff_suffix, List.isSuffixOf_iff_suffix]

/-- A call on an object makes no path that goes up, but for files that listings pass over. -/
theorem Stays.resolved (hs : Stays host key v d s) (h : IsObject root key) (hd : d.Resolved root) : s.Resolved root := by
  intro p hp hroot hname hup
  have hends : ¬ (".tmp".toList <:+ p.text ∨ ".expires".toList <:+ p.text) := by
    have hparts : p.parts ≠ [] := List.ne_nil_of_mem hup
    rw [Path.suffix_text_iff hparts (by decide), Path.suffix_text_iff hparts (by decide), ← suffix_of_skipped, hname]
    exact Bool.false_ne_true
  rw [not_or] at hends
  by_cases htouched : Touched key p
  · rcases htouched with rfl | rfl | htmp
    · exact h.notUp hup
    · exact hends.2 (suffix_expiresSidecar _)
    · exact hends.1 htmp
  · rw [Dict.mem_keys, hs.spares p htouched, ← Dict.mem_keys] at hp
    exact hd p hp hroot hname hup

/-- What deleting keys one after another has come to. -/
structure ClearedKeys (host : FsHost) (root : List Char) (keys : List String) (d s : FsDisk) : Prop where
  spares : ∀ other, IsObject root other → other ∉ keys → s.files.get? (pathOf other) = d.files.get? (pathOf other) ∧
    s.files.get? (expiresSidecar (pathOf other)) = d.files.get? (expiresSidecar (pathOf other))
  legible : d.Legible host → s.Legible host
  resolved : d.Resolved root → s.Resolved root
  comes : ∀ key ∈ keys, s.held key = d.held key ∨ s.held key = none

theorem held_congr {other : String} (h : s.files.get? (pathOf other) = d.files.get? (pathOf other)) :
    s.held other = d.held other := by
  unfold FsDisk.held
  rw [h]

theorem ClearedKeys.cons {keys : List String} {d' : FsDisk} (h : IsObject root key) (hkeys : ∀ key ∈ keys, IsObject root key)
    (hs : Stays host key none d s) (hrest : ClearedKeys host root keys s d') : ClearedKeys host root (key :: keys) d d' := by
  refine ⟨fun other h' hnot => ?_, fun hd => hrest.legible (hs.legible hd),
    fun hd => hrest.resolved (hs.resolved h hd), fun j hj => ?_⟩
  · rw [List.mem_cons, not_or] at hnot
    have hfirst := hs.other h h' hnot.1
    have hlast := hrest.spares other h' hnot.2
    exact ⟨hlast.1.trans hfirst.1, hlast.2.trans hfirst.2⟩
  · have hfirst : s.held j = d.held j ∨ s.held j = none := by
      by_cases hne : j = key
      · rw [hne]
        exact hs.comes
      · have hobject := hkeys j ((List.mem_cons.mp hj).resolve_left hne)
        exact .inl (held_congr (hs.other h hobject hne).1)
    have hlast : d'.held j = s.held j ∨ d'.held j = none := by
      by_cases hmem : j ∈ keys
      · exact hrest.comes j hmem
      · obtain rfl := (List.mem_cons.mp hj).resolve_right hmem
        exact .inl (held_congr (hrest.spares j h hmem).1)
    rcases hlast with hlast | hlast
    · rw [hlast]
      exact hfirst
    · exact .inr hlast

/-- How many of the keys are held. -/
def heldCount (d : FsDisk) (keys : List String) : Nat :=
  (keys.toFinset.filter fun key => (d.held key).isSome = true).card

theorem heldCount_cons {keys : List String} (hgone : s.held key = none)
    (hothers : ∀ other ∈ keys, other ≠ key → s.held other = d.held other) :
    heldCount d (key :: keys) = (if (d.held key).isSome = true then 1 else 0) + heldCount s keys := by
  unfold heldCount
  have hleft : (keys.toFinset.filter fun key => (s.held key).isSome = true) =
      (keys.toFinset.filter fun key => (d.held key).isSome = true).erase key := by
    ext other
    rw [Finset.mem_erase, Finset.mem_filter, Finset.mem_filter, List.mem_toFinset]
    by_cases hne : other = key
    · rw [hne, hgone]
      simp
    · refine ⟨fun h => ⟨hne, h.1, ?_⟩, fun h => ⟨h.2.1, ?_⟩⟩
      · rw [← hothers other h.1 hne]
        exact h.2
      · rw [hothers other h.2.1 hne]
        exact h.2.2
  rw [List.toFinset_cons, Finset.filter_insert, hleft]
  split
  · rw [← Finset.card_erase_add_one (Finset.mem_insert_self key _), Finset.erase_insert_eq_erase, Nat.add_comm]
  · next hnone =>
    rw [Nat.zero_add, Finset.erase_eq_of_notMem]
    rw [Finset.mem_filter]
    exact fun h => hnone h.2

theorem countDeleted_keys (host : FsHost) {keys : List String} (hkeys : ∀ key ∈ keys, IsObject root key) :
    ∀ (n : Nat) (d : FsDisk), ClearedKeys host root keys d (keys.foldlM FilesystemBlobDriver.countDeleted n d).2 ∧
      ∀ m, (keys.foldlM FilesystemBlobDriver.countDeleted n d).1 = .ok m → m = n + heldCount d keys ∧
        ∀ key ∈ keys, (keys.foldlM FilesystemBlobDriver.countDeleted n d).2.held key = none := by
  induction keys with
  | nil =>
    intro n d
    refine ⟨⟨fun _ _ _ => ⟨rfl, rfl⟩, id, id, fun _ h => (nomatch h)⟩, fun m hm => ⟨?_, fun _ h => (nomatch h)⟩⟩
    obtain rfl := Except.ok.inj hm
    rfl
  | cons key keys ih =>
    intro n d
    have h := hkeys key List.mem_cons_self
    have hrest := fun j hj => hkeys j (List.mem_cons_of_mem key hj)
    have hdeleted := delete_deleted host h d
    rw [List.foldlM_cons]
    rcases hd : FilesystemBlobDriver.delete key d with ⟨e | existed, s⟩
    · rw [hd] at hdeleted
      have hstep : FilesystemBlobDriver.countDeleted n key d = (.error e, s) := bind_error hd
      rw [bind_error hstep]
      have hsame : ClearedKeys host root keys s s := ⟨fun _ _ _ => ⟨rfl, rfl⟩, id, id, fun _ _ => .inl rfl⟩
      exact ⟨.cons h hrest hdeleted.stays hsame, fun m hm => by cases hm⟩
    · rw [hd] at hdeleted
      have hstep : FilesystemBlobDriver.countDeleted n key d = (.ok (if existed then n + 1 else n), s) := bind_ok hd
      rw [bind_ok hstep]
      obtain ⟨hcleared, hcount⟩ := ih hrest (if existed then n + 1 else n) s
      refine ⟨.cons h hrest hdeleted.stays hcleared, fun m hm => ?_⟩
      obtain ⟨hexisted, hgone⟩ := hdeleted.through existed rfl
      obtain ⟨hm, hnone⟩ := hcount m hm
      refine ⟨?_, fun j hj => ?_⟩
      · rw [hm, heldCount_cons hgone fun other hother hne =>
          held_congr (hdeleted.stays.other h (hrest other hother) hne).1, ← hexisted]
        cases existed with
        | true => simp only [if_true]; omega
        | false => simp
      · by_cases hmem : j ∈ keys
        · exact hnone j hmem
        · obtain rfl := (List.mem_cons.mp hj).resolve_right hmem
          exact (held_congr (hcleared.spares j h hmem).1).trans hgone

end Calls

/-! ## Listings -/

section Listings

variable {host : FsHost} {root : List Char} {d : FsDisk} {key : String} {p : Path} {start : String}

open FilesystemBlobDriver (listedFiles listedKey renamed skipped walkRoot)

theorem isDir_walkRoot (d : FsDisk) (start : List Char) : d.isDir (walkRoot d start) = true := by
  unfold walkRoot
  split
  · next hdir => exact hdir
  · refine Path.isDir_climb (fun p hp => ?_) _
    unfold FsDisk.isDir
    rw [decide_eq_true hp]
    rfl

/-- The stats of files are given under the keys asked. -/
theorem list_stats (h : d.Legible host) (files : List (Path × List Char)) (hfiles : ∀ file ∈ files, file.1 ∈ d.files.keys) :
    ∃ stats, (files.mapM fun file => statForPath host d file.1 (String.ofList file.2)).map List.reduceOption = .ok stats ∧
      stats.map BlobStat.key = files.map fun file => String.ofList file.2 := by
  have hstat : ∀ file ∈ files, ∃ stat, statForPath host d file.1 (String.ofList file.2) = .ok (some stat) ∧
      stat.key = String.ofList file.2 := by
    intro file hfile
    obtain ⟨f, hf⟩ := Dict.mem_keys.mp (hfiles file hfile)
    obtain ⟨expires, hexpires⟩ := nativeExpires_ok host h file.1
    unfold statForPath
    rw [hf, hexpires]
    exact ⟨_, rfl, rfl⟩
  clear hfiles
  induction files with
  | nil => exact ⟨[], rfl, rfl⟩
  | cons file files ih =>
    obtain ⟨stat, hok, hkey⟩ := hstat file List.mem_cons_self
    obtain ⟨stats, hstats, hkeys⟩ := ih fun file hfile => hstat file (List.mem_cons_of_mem _ hfile)
    refine ⟨stat :: stats, ?_, ?_⟩
    · rw [List.mapM_cons, hok]
      cases hrest : files.mapM fun file => statForPath host d file.1 (String.ofList file.2) with
      | error e =>
        rw [hrest] at hstats
        cases hstats
      | ok rest =>
        rw [hrest] at hstats
        exact congrArg (fun stats => Except.ok (stat :: stats)) (Except.ok.inj hstats)
    · rw [List.map_cons, List.map_cons, hkey, hkeys]

/-- A file that a listing does not pass over is an object's, and its text is the key. -/
theorem isObject_of_listed (hroot : p.root = root) (hup : ['.', '.'] ∉ p.parts) (hp : p.parts ≠ [])
    (hname : skipped p.name = false) :
    IsObject root (String.ofList p.text) ∧ pathOf (String.ofList p.text) = p := by
  have hpath : pathOf (String.ofList p.text) = p := by
    unfold pathOf
    rw [String.toList_ofList, Path.ofText_text]
  have hends : ¬ (".tmp".toList <:+ p.name ∨ ".expires".toList <:+ p.name) := fun h => by
    rw [suffix_of_skipped.mpr h] at hname
    cases hname
  rw [not_or, ← Path.suffix_text_iff hp (by decide), ← Path.suffix_text_iff hp (by decide)] at hends
  have htext : (String.ofList p.text).toList = p.text := String.toList_ofList
  exact ⟨⟨by rw [hpath, htext], by rw [hpath, hroot], by rw [hpath]; exact hup, htext.symm ▸ hends.1,
    htext.symm ▸ hends.2⟩, hpath⟩

/-- A listing starts where keys do, walks every object it is asked for, and gives none another name. -/
structure ListsOwn (root : List Char) (d : FsDisk) (start : String) : Prop where
  rooted : (pathOf start).root = root
  notUp : ['.', '.'] ∉ (pathOf start).parts
  walks : ∀ key, (d.objects root key).isSome = true → start.toList <+: key.toList →
    (walkRoot d start.toList).under (pathOf key) = true
  names : ∀ key, (d.objects root key).isSome = true → renamed start.toList key.toList = false

/-- A file that a listing walks and does not pass over is an object's. -/
theorem ListsOwn.isObject (h : ListsOwn root d start) (hd : d.Resolved root) (hfile : p ∈ d.files.keys)
    (hunder : (walkRoot d start.toList).under p = true) (hname : skipped p.name = false) :
    IsObject root (String.ofList p.text) ∧ pathOf (String.ofList p.text) = p := by
  have hwalk : (walkRoot d start.toList).root = root := by
    unfold walkRoot
    split
    · exact h.rooted
    · exact (Path.root_climb _ _).trans h.rooted
  have hroot : p.root = root := (Path.root_of_under hunder).trans hwalk
  exact isObject_of_listed hroot (hd p hfile hroot hname) (Path.parts_of_under hunder) hname

theorem objects_isSome :
    (d.objects root key).isSome = true ↔ IsObject root key ∧ pathOf key ∈ d.files.keys := by
  unfold FsDisk.objects
  split
  · next h =>
    unfold FsDisk.held
    rw [Option.isSome_map, Option.isSome_iff_exists, Dict.mem_keys]
    exact (and_iff_right h).symm
  · next h => exact iff_of_false Bool.false_ne_true fun hobject => h hobject.1

/-- The files a listing asks for are the objects with the prefix, under their own keys. -/
theorem listedFiles_eq (hd : d.Resolved root) (h : ListsOwn root d start) :
    listedFiles d start.toList = ((d.files.keys.filter fun p => (walkRoot d start.toList).under p && !skipped p.name).filter
      fun p => start.toList.isPrefixOf p.text).map fun p => (p, p.text) := by
  unfold listedFiles
  rw [List.filter_filter, List.filter_congr fun p _ => Bool.and_comm _ _]
  have hown : ∀ p ∈ d.files.keys.filter (fun p => (walkRoot d start.toList).under p && !skipped p.name),
      (p, listedKey start.toList p.text) = (p, p.text) := by
    intro p hp
    obtain ⟨hfile, hlisted⟩ := List.mem_filter.mp hp
    rw [Bool.and_eq_true, Bool.not_eq_true'] at hlisted
    obtain ⟨hobject, hpath⟩ := h.isObject hd hfile hlisted.1 hlisted.2
    have hnot := h.names _ (objects_isSome.mpr ⟨hobject, by rw [hpath]; exact hfile⟩)
    rw [String.toList_ofList] at hnot
    unfold listedKey
    rw [hnot]
    rfl
  rw [List.map_congr_left hown, List.filter_map]
  rfl

theorem list_objects (hlegible : d.Legible host) (hd : d.Resolved root) (h : ListsOwn root d start) :
    ∃ stats, FilesystemBlobDriver.list host d start = .ok stats ∧ (stats.map BlobStat.key).Nodup ∧
      ∀ key, key ∈ stats.map BlobStat.key ↔ (d.objects root key).isSome = true ∧ start.toList <+: key.toList := by
  have hfiles : ∀ file ∈ listedFiles d start.toList, file.1 ∈ d.files.keys := by
    rw [listedFiles_eq hd h]
    intro file hfile
    obtain ⟨p, hp, rfl⟩ := List.mem_map.mp hfile
    exact (List.mem_filter.mp (List.mem_filter.mp hp).1).1
  obtain ⟨stats, hstats, hkeys⟩ := list_stats hlegible _ hfiles
  refine ⟨stats, ?_, ?_, fun key => ?_⟩
  · unfold FilesystemBlobDriver.list
    rw [if_pos (isDir_walkRoot d start.toList)]
    exact hstats
  · rw [hkeys, listedFiles_eq hd h, List.map_map]
    refine ((d.files.nodup.filter _).filter _).map fun p q heq => Path.text_injective ?_
    exact String.ofList_injective heq
  · rw [hkeys, listedFiles_eq hd h, List.map_map, List.mem_map, objects_isSome]
    constructor
    · rintro ⟨p, hp, rfl⟩
      obtain ⟨hp, hstart⟩ := List.mem_filter.mp hp
      obtain ⟨hfile, hlisted⟩ := List.mem_filter.mp hp
      rw [Bool.and_eq_true, Bool.not_eq_true'] at hlisted
      obtain ⟨hobject, hpath⟩ := h.isObject hd hfile hlisted.1 hlisted.2
      refine ⟨⟨hobject, ?_⟩, ?_⟩
      · show pathOf (String.ofList p.text) ∈ d.files.keys
        rw [hpath]
        exact hfile
      · show start.toList <+: (String.ofList p.text).toList
        rw [String.toList_ofList]
        exact List.isPrefixOf_iff_prefix.mp hstart
    · rintro ⟨⟨hobject, hfile⟩, hstart⟩
      have hunder := h.walks key (objects_isSome.mpr ⟨hobject, hfile⟩) hstart
      have hparts := Path.parts_of_under hunder
      have hname : skipped (pathOf key).name = false := by
        rw [← Bool.not_eq_true, suffix_of_skipped, not_or, ← Path.suffix_text_iff hparts (by decide),
          ← Path.suffix_text_iff hparts (by decide), hobject.plain]
        exact ⟨hobject.notTmp, hobject.notSidecar⟩
      refine ⟨pathOf key, List.mem_filter.mpr ⟨List.mem_filter.mpr ⟨hfile, ?_⟩, ?_⟩, ?_⟩
      · rw [hunder, hname]
        rfl
      · rw [hobject.plain]
        exact List.isPrefixOf_iff_prefix.mpr hstart
      · show String.ofList (pathOf key).text = key
        rw [hobject.plain, String.ofList_toList]

end Listings

/-! ## Runs -/

/-- What a call is asked: keys of objects, a sidecar that tells an expiry, an insertion not at a directory, and a
    listing that walks what it is to list. -/
def FsCall.Meets (host : FsHost) (root : List Char) (d : FsDisk) : FsCall → Prop
  | .write key _ headers => IsObject root key ∧ TellsExpiry host headers
  | .writeIfVersion key _ _ headers => IsObject root key ∧ TellsExpiry host headers ∧ d.isDir (pathOf key) = false
  | .delete key => IsObject root key
  | .bulkDelete keys => ∀ key ∈ keys, IsObject root key
  | .list start => ListsOwn root d start

/-- The driver does as the map does: the call is a step on the objects, no other object's value or
    expiry changes, and afterwards a read gives the object a key has. -/
structure Mapped (host : FsHost) (root : List Char) (c : FsCall) (d : FsDisk) (r : Except Exn FsAnswer)
    (s : FsDisk) : Prop where
  steps : MapStep c r (d.objects root) (s.objects root)
  spares : ∀ other, IsObject root other → other ∉ c.keys →
    FilesystemBlobDriver.read host s other = FilesystemBlobDriver.read host d other
  reads : ∀ key, IsObject root key →
    (FilesystemBlobDriver.read host s key).map (Option.map Blob.data) = .ok (s.objects root key)

/-- The disk at a time. -/
def FsDisk.clocked (d : FsDisk) (now : Instant) : FsDisk := { d with clock := now }

/-- Every call of a run meets what it is asked, where it is made. -/
def CallsMeet (host : FsHost) (root : List Char) : List (Instant × FsCall) → FsDisk → Prop
  | [], _ => True
  | (now, c) :: rest, d => c.Meets host root (d.clocked now) ∧ CallsMeet host root rest (c.run host (d.clocked now)).2

/-- Every call of a run does as the map does. -/
def Follows (host : FsHost) (root : List Char) : List (Instant × FsCall) → FsDisk → Prop
  | [], _ => True
  | (now, c) :: rest, d => Mapped host root c d (c.run host (d.clocked now)).1 (c.run host (d.clocked now)).2 ∧
      Follows host root rest (c.run host (d.clocked now)).2

section Runs

variable (host : FsHost) {root : List Char} {key : String} {d s : FsDisk} {v : Option (List UInt8)}

theorem objects_of (h : IsObject root key) (d : FsDisk) : d.objects root key = d.held key := if_pos h

theorem objects_update (h : IsObject root key) (hs : Stays host key v d s) :
    s.objects root = Function.update (d.objects root) key (s.held key) := by
  funext other
  by_cases hne : other = key
  · rw [hne, Function.update_self, objects_of h]
  · rw [Function.update_of_ne hne]
    unfold FsDisk.objects
    split
    · next h' => exact held_congr (hs.other h h' hne).1
    · rfl

theorem objects_same (h : IsObject root key) (hs : Stays host key v d s) (hheld : s.held key = d.held key) :
    s.objects root = d.objects root := by
  rw [objects_update host h hs, hheld, ← objects_of h d, Function.update_eq_self]

/-- A call on one key that raised left it as it was, or as it was to leave it. -/
theorem raised_step {c : FsCall} {e : Exn} (h : IsObject root key) (hkeys : c.keys = [key]) (hleaves : c.leaves = v)
    (hs : Stays host key v d s) : MapStep c (.error e) (d.objects root) (s.objects root) := by
  refine .raised ?_ fun other => ?_
  · rintro start rfl
    cases hkeys
  · by_cases hne : other = key
    · rw [hne, objects_of h, objects_of h, hkeys, hleaves]
      rcases hs.comes with hcomes | hcomes
      · exact .inl hcomes
      · exact .inr ⟨List.mem_singleton_self key, hcomes⟩
    · rw [objects_update host h hs, Function.update_of_ne hne]
      exact .inl rfl

theorem mapped_of_stays {c : FsCall} {r : Except Exn FsAnswer} (hlegible : d.Legible host) (h : IsObject root key)
    (hkeys : c.keys = [key]) (hs : Stays host key v d s) (hsteps : MapStep c r (d.objects root) (s.objects root)) :
    Mapped host root c d r s := by
  refine ⟨hsteps, fun other h' hnot => ?_, fun other h' => ?_⟩
  · rw [hkeys, List.mem_singleton] at hnot
    exact read_congr host (hs.other h h' hnot).1 (hs.other h h' hnot).2
  · rw [objects_of h']
    exact read_held host (hs.legible hlegible) other

theorem write_mapped (hlegible : d.Legible host) (h : IsObject root key) (data : List UInt8) {headers : Headers}
    (htells : TellsExpiry host headers) :
    Mapped host root (.write key data headers) d ((FsCall.write key data headers).run host d).1
      ((FsCall.write key data headers).run host d).2 ∧
        Stays host key (some data) d ((FsCall.write key data headers).run host d).2 := by
  obtain ⟨hs, hbody⟩ := write_written h htells d d (Std.Refl.refl d)
  show Mapped host root _ d ((FilesystemBlobDriver.write host key data headers >>= fun _ => pure FsAnswer.done) d).1
    ((FilesystemBlobDriver.write host key data headers >>= fun _ => pure FsAnswer.done) d).2 ∧ Stays _ _ _ _
      ((FilesystemBlobDriver.write host key data headers >>= fun _ => pure FsAnswer.done) d).2
  rcases hw : FilesystemBlobDriver.write host key data headers d with ⟨e | u, s⟩
  · rw [hw] at hs
    rw [bind_error hw]
    exact ⟨mapped_of_stays host hlegible h rfl hs (raised_step host h rfl rfl hs), hs⟩
  · rw [hw] at hs hbody
    rw [bind_ok hw]
    refine ⟨mapped_of_stays host hlegible h rfl hs ?_, hs⟩
    show MapStep _ (.ok .done) (d.objects root) (s.objects root)
    rw [objects_update host h hs, hbody rfl]
    exact .write

theorem writeIfVersion_mapped (hlegible : d.Legible host) (h : IsObject root key) (hdir : d.isDir (pathOf key) = false)
    (data : List UInt8) (version : Option String) {headers : Headers} (htells : TellsExpiry host headers) :
    Mapped host root (.writeIfVersion key data version headers) d
      ((FsCall.writeIfVersion key data version headers).run host d).1
      ((FsCall.writeIfVersion key data version headers).run host d).2 ∧
        Stays host key (some data) d ((FsCall.writeIfVersion key data version headers).run host d).2 := by
  cases version with
  | some version =>
    have hs : Stays host key (some data) d d := Std.Refl.refl d
    exact ⟨mapped_of_stays host hlegible h rfl hs (raised_step host h rfl rfl hs), hs⟩
  | none =>
    have hw : Inserted host key data d _ _ := writeIfVersion_inserted h htells hdir d rfl
    show Mapped host root _ d ((FsAnswer.told <$> FilesystemBlobDriver.writeIfVersion host key data none headers) d).1
      ((FsAnswer.told <$> FilesystemBlobDriver.writeIfVersion host key data none headers) d).2 ∧ Stays _ _ _ _
        ((FsAnswer.told <$> FilesystemBlobDriver.writeIfVersion host key data none headers) d).2
    rw [map_apply]
    cases hr : (FilesystemBlobDriver.writeIfVersion host key data none headers d).1 with
    | error e => exact ⟨mapped_of_stays host hlegible h rfl hw.stays (raised_step host h rfl rfl hw.stays), hw.stays⟩
    | ok free =>
      refine ⟨mapped_of_stays host hlegible h rfl hw.stays ?_, hw.stays⟩
      cases free with
      | true =>
        obtain ⟨hnone, hbody⟩ := hw.free hr
        show MapStep _ (.ok (.told true)) (d.objects root) _
        rw [objects_update host h hw.stays, hbody]
        exact .inserted ((objects_of h d).trans hnone)
      | false =>
        obtain ⟨hsome, hsame⟩ := hw.taken hr
        show MapStep _ (.ok (.told false)) (d.objects root) _
        rw [objects_same host h hw.stays hsame]
        exact .taken fun hnone => hsome ((objects_of h d).symm.trans hnone)

theorem delete_mapped (hlegible : d.Legible host) (h : IsObject root key) :
    Mapped host root (.delete key) d ((FsCall.delete key).run host d).1 ((FsCall.delete key).run host d).2 ∧
      Stays host key none d ((FsCall.delete key).run host d).2 := by
  have hd := delete_deleted host h d
  show Mapped host root _ d ((FsAnswer.told <$> FilesystemBlobDriver.delete key) d).1
    ((FsAnswer.told <$> FilesystemBlobDriver.delete key) d).2 ∧ Stays _ _ _ _
      ((FsAnswer.told <$> FilesystemBlobDriver.delete key) d).2
  rw [map_apply]
  cases hr : (FilesystemBlobDriver.delete key d).1 with
  | error e => exact ⟨mapped_of_stays host hlegible h rfl hd.stays (raised_step host h rfl rfl hd.stays), hd.stays⟩
  | ok existed =>
    obtain ⟨hexisted, hnone⟩ := hd.through existed hr
    refine ⟨mapped_of_stays host hlegible h rfl hd.stays ?_, hd.stays⟩
    show MapStep _ (.ok (.told existed)) (d.objects root) _
    rw [objects_update host h hd.stays, hnone, hexisted, ← objects_of h]
    exact .delete

theorem bulkDelete_mapped (hlegible : d.Legible host) {keys : List String} (hkeys : ∀ key ∈ keys, IsObject root key) :
    Mapped host root (.bulkDelete keys) d ((FsCall.bulkDelete keys).run host d).1
      ((FsCall.bulkDelete keys).run host d).2 ∧
      ClearedKeys host root keys d ((FsCall.bulkDelete keys).run host d).2 := by
  obtain ⟨hcleared, hcount⟩ := countDeleted_keys host hkeys 0 d
  show Mapped host root _ d ((FsAnswer.count <$> FilesystemBlobDriver.bulkDelete keys) d).1
    ((FsAnswer.count <$> FilesystemBlobDriver.bulkDelete keys) d).2 ∧ ClearedKeys host root keys d
      ((FsAnswer.count <$> FilesystemBlobDriver.bulkDelete keys) d).2
  rw [map_apply]
  have hothers : ∀ other, other ∉ keys →
      (FilesystemBlobDriver.bulkDelete keys d).2.objects root other = d.objects root other := by
    intro other hnot
    unfold FsDisk.objects
    split
    · next h' => exact held_congr (hcleared.spares other h' hnot).1
    · rfl
  refine ⟨⟨?_, fun other h' hnot => read_congr host (hcleared.spares other h' hnot).1 (hcleared.spares other h' hnot).2,
    fun other h' => ?_⟩, hcleared⟩
  · cases hr : (FilesystemBlobDriver.bulkDelete keys d).1 with
    | error e =>
      refine .raised (fun start heq => by cases heq) fun other => ?_
      by_cases hmem : other ∈ keys
      · have h := hkeys other hmem
        rw [objects_of h, objects_of h]
        exact (hcleared.comes other hmem).imp_right fun hnone => ⟨hmem, hnone⟩
      · exact .inl (hothers other hmem)
    | ok n =>
      obtain ⟨hn, hnone⟩ := hcount n hr
      have hobjects : (FilesystemBlobDriver.bulkDelete keys d).2.objects root =
          fun key => if key ∈ keys then none else d.objects root key := by
        funext other
        by_cases hmem : other ∈ keys
        · rw [if_pos hmem, objects_of (hkeys other hmem)]
          exact hnone other hmem
        · rw [if_neg hmem]
          exact hothers other hmem
      have hheld : n = (keys.toFinset.filter fun key => (d.objects root key).isSome = true).card := by
        rw [hn, Nat.zero_add]
        refine congrArg Finset.card (Finset.filter_congr fun key hmem => ?_)
        rw [objects_of (hkeys key (List.mem_toFinset.mp hmem))]
      show MapStep _ (.ok (.count n)) (d.objects root) _
      rw [hobjects, hheld]
      exact .bulkDelete
  · rw [objects_of h']
    exact read_held host (hcleared.legible hlegible) other

/-- Where it meets what it is asked, a call does as the map does. -/
theorem call_mapped {c : FsCall} (hlegible : d.Legible host) (hd : d.Resolved root) (hmeets : c.Meets host root d) :
    Mapped host root c d (c.run host d).1 (c.run host d).2 ∧ (c.run host d).2.Legible host ∧
      (c.run host d).2.Resolved root := by
  cases c with
  | write key data headers =>
    obtain ⟨hmapped, hs⟩ := write_mapped host hlegible hmeets.1 data hmeets.2
    exact ⟨hmapped, hs.legible hlegible, hs.resolved hmeets.1 hd⟩
  | writeIfVersion key data version headers =>
    obtain ⟨h, htells, hdir⟩ := hmeets
    obtain ⟨hmapped, hs⟩ := writeIfVersion_mapped host hlegible h hdir data version htells
    exact ⟨hmapped, hs.legible hlegible, hs.resolved h hd⟩
  | delete key =>
    obtain ⟨hmapped, hs⟩ := delete_mapped host hlegible hmeets
    exact ⟨hmapped, hs.legible hlegible, hs.resolved hmeets hd⟩
  | bulkDelete keys =>
    obtain ⟨hmapped, hcleared⟩ := bulkDelete_mapped host hlegible hmeets
    exact ⟨hmapped, hcleared.legible hlegible, hcleared.resolved hd⟩
  | list start =>
    obtain ⟨stats, hstats, hnodup, hkeys⟩ := list_objects hlegible hd hmeets
    have hrun : (FsCall.list start).run host d = (.ok (.listed stats), d) := by
      show ((FilesystemBlobDriver.list host d start).map FsAnswer.listed, d) = _
      rw [hstats]
      rfl
    rw [hrun]
    exact ⟨⟨.list hnodup hkeys, fun _ _ _ => rfl, fun other h' => by
      rw [objects_of h']
      exact read_held host hlegible other⟩, hlegible, hd⟩

/-- The driver is a map of objects, over every run of calls that meet what they are asked. -/
theorem driver_is_map (calls : List (Instant × FsCall)) (d : FsDisk) (hlegible : d.Legible host) (hd : d.Resolved root)
    (hmeet : CallsMeet host root calls d) : Follows host root calls d := by
  induction calls generalizing d with
  | nil => exact trivial
  | cons call rest ih =>
    obtain ⟨now, c⟩ := call
    obtain ⟨hfirst, hrest⟩ := hmeet
    have hclocked : (d.clocked now).Legible host := hlegible
    have hresolved : (d.clocked now).Resolved root := hd
    obtain ⟨hmapped, hlater, hpaths⟩ := call_mapped host hclocked hresolved hfirst
    exact ⟨⟨hmapped.steps, hmapped.spares, hmapped.reads⟩, ih _ hlater hpaths hrest⟩

/-- A host that reads no number. -/
def plainHost : FsHost :=
  ⟨fun _ => ['0'], fun _ => ['0'], fun _ => .error (.valueError "could not convert string to float")⟩

def noteA : FsCall := .write "/objects/a" [1] Dict.empty

/-- The disk with one object. -/
def diskA : FsDisk := (noteA.run plainHost (FsDisk.empty.clocked 0)).2

theorem diskA_keys : diskA.files.keys = [pathOf "/objects/a"] := by decide

theorem listsOwn_diskA : ListsOwn ['/'] (diskA.clocked 1) "/objects/" := by
  have hone : ∀ key, ((diskA.clocked 1).objects ['/'] key).isSome = true → key = "/objects/a" := by
    intro key hkey
    obtain ⟨h, hfile⟩ := objects_isSome.mp hkey
    have hpath : pathOf key = pathOf "/objects/a" := List.mem_singleton.mp (diskA_keys ▸ hfile)
    refine String.toList_injective ?_
    rw [← h.plain, hpath]
    decide
  refine ⟨by decide, by decide, fun key hkey _ => ?_, fun key hkey => ?_⟩
  · rw [hone key hkey]
    decide
  · rw [hone key hkey]
    decide

/-- An object written, listed, and deleted with another that is not there. -/
theorem driver_is_map_diskA :
    Follows plainHost ['/'] [(0, noteA), (1, .list "/objects/"), (2, .writeIfVersion "/objects/b" [2] none Dict.empty),
      (3, .bulkDelete ["/objects/a", "/objects/c"])] FsDisk.empty := by
  have htells : TellsExpiry plainHost Dict.empty := fun _ _ hvalue _ => by cases hvalue
  refine driver_is_map plainHost _ FsDisk.empty (fun p f hf => by cases hf) (fun p hp => by cases hp)
    ⟨⟨?_, htells⟩, listsOwn_diskA, ⟨?_, htells, ?_⟩, ?_, trivial⟩
  · exact (by decide : IsObject ['/'] "/objects/a")
  · exact (by decide : IsObject ['/'] "/objects/b")
  · decide
  · exact (by decide : ∀ key ∈ ["/objects/a", "/objects/c"], IsObject ['/'] key)

/-- The body of an object is written to its temporary file, and an object of that name is lost. -/
example : (FilesystemBlobDriver.write plainHost "x.tmp" [1] Dict.empty FsDisk.empty).2.held "x.tmp" = some [1] ∧
    (FilesystemBlobDriver.write plainHost "x" [2] Dict.empty
      (FilesystemBlobDriver.write plainHost "x.tmp" [1] Dict.empty FsDisk.empty).2).2.held "x.tmp" = none := by
  decide

end Runs

end Kvtsjl
