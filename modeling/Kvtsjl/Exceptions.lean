import Kvtsjl.Lib.Prog
import Kvtsjl.Lib.Dict

/-
  The framework's errors, and the programs that raise them.
  `medium` is whatever else a medium raises: a driver's own exception, which no
  code of the framework looks into.
-/

namespace Kvtsjl

inductive Exn where
  | kvStoreError (message : String)
  | unsupported (message : String)
  | scanUnsupported (message : String)
  | ttlUnsupported (message : String)
  | indexUnsupported (message : String)
  | scopeError (message : String)
  | indexError (message : String)
  | serDeError (message : String)
  | valueError (message : String)
  | typeError (message : String)
  | notImplemented (message : String)
  | medium (message : String)
  | uncommitted (message : String) (failures : List (String × Exn))
  | partialSync (message : String) (failures : List (String × Exn))

namespace Exn

/-- `KvStoreUnsupported` and what derives from it. -/
def isUnsupported : Exn → Bool
  | unsupported _ => true
  | scanUnsupported _ => true
  | ttlUnsupported _ => true
  | indexUnsupported _ => true
  | _ => false

/-- `UncommittedWriteError`: the commit point was not written. -/
def isUncommitted : Exn → Bool
  | uncommitted _ _ => true
  | _ => false

/-- `PartialSyncError`: the commit point was written, something after it failed. -/
def isPartialSync : Exn → Bool
  | partialSync _ _ => true
  | _ => false

/-- `RecordWriteError`: it says which side of the commit point failed. -/
def isRecordWriteError (e : Exn) : Bool := e.isUncommitted || e.isPartialSync

end Exn

/-- `failures.update(more)`: a label met again keeps its place and takes the new error. -/
def updateFailures (failures more : List (String × Exn)) : List (String × Exn) :=
  more.foldl (fun fs p => Assoc.insert p.1 p.2 fs) failures

/-- A program of the framework over the state `σ`. -/
abbrev M (σ α : Type) : Type := Effects.Prog Exn σ α

/-- `repr` of a list of names. -/
def reprNames (names : List String) : String :=
  "[" ++ String.intercalate ", " (names.map fun n => "'" ++ n ++ "'") ++ "]"

end Kvtsjl
