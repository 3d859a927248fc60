import Tilbo.Index.StoreSpec
import Tilbo.Graph.Edges
import Tilbo.Rules.Engine
import Tilbo.Xattr.Csv
import Tilbo.Lib.Process

/-! # The daemon's world

What the operations of the daemon share: the index, the files with their extended attributes, the graph,
the paths marked as not worth a retry, and the events sent to clients. An operation (`Op`) is a process
that makes one atomic call after the other on this world: a method of the index, a method of the xattr
service, or a change of the graph. A call shows a `Call`, which records the calls that read or write
tags with their arguments and results.

The content of a file and its other attributes are left out. -/

namespace Tilbo.Daemon.State

open Tilbo.Index.Schema Tilbo.Index.Store Tilbo.Graph.Edges Tilbo.Rules.Engine Tilbo.Harvester.Meta
open Tilbo.Xattr.Csv Tilbo.Lib.Pairs Tilbo.Lib.Txn Tilbo.Lib.Process

variable {F α : Type}

/-- A file: what `stat` says and the attributes the program uses (`user.xdg.tags`, `user.meta.*` and
`user.tags.source`). -/
structure File where
  stat : FileStat
  tags : Option String := none
  metadata : List (String × String) := []
  source : Option String := none
deriving DecidableEq, Repr

/-- A `FileTagged` event. -/
structure FileTagged where
  path : String
  added : List String
  removed : List String
deriving DecidableEq, Repr

/-- The state all operations work on. -/
structure World where
  db : DB
  files : String → Option File
  graph : TagGraph
  nonRetryablePaths : String → Bool
  fileTagged : List FileTagged

/-- What the operations report. -/
inductive OpError where
  /-- The context is cancelled. -/
  | cancelled
  /-- A system call failed. -/
  | errno
  | index (e : Error)
  | csv (e : ParseError)
  | json
  /-- `fmt.Errorf` around another error. -/
  | wrapped (format : String) (args : List String) (cause : OpError)
deriving DecidableEq, Repr

/-- `errors.Is(err, sql.ErrNoRows)`. -/
def isNoRows : OpError → Bool
  | .index e => go e
  | .wrapped _ _ cause => isNoRows cause
  | _ => false
where
  go : Error → Bool
    | .noRows => true
    | .wrapped _ _ cause => go cause
    | _ => false

/-- What the rules are evaluated on, apart from the overrides. -/
structure Query (F : Type) where
  path : String
  fileId : ℕ
  rules : List (Rule F)
  order : MapOrder
  md : MetaMap F
  existingTags : List String

/-- The result of the evaluation. -/
def Query.diff (q : Query F) (overrides : List (String × String)) : TagDiff :=
  eval q.rules q.order q.md q.existingTags overrides

/-- The calls a run is judged by, with their arguments and results. -/
inductive Call (F : Type) where
  | readTags (path : String) (result : Except OpError (List String))
  /-- The list written, and the evaluation result it comes from, if any. -/
  | writeTags (path : String) (tags : List String) (diff : Option TagDiff) (result : Except OpError Unit)
  | setxattrTags (path data : String) (result : Except OpError Unit)
  | getFileIDByPath (path : String) (result : Except OpError ℕ)
  | getFileTags (path : String) (result : Except OpError (List String))
  /-- `GetTagOverrides`, right before the rules are evaluated with its result. -/
  | evaluate (query : Query F) (result : Except OpError (List (String × String)))
  | setFileTags (path : String) (fileId : ℕ) (tags : List String) (result : Except OpError Unit)
  | modifyFileTags (path : String) (tags : List String) (op : String) (result : Except OpError Unit)
  | syncFileApply (path : String) (stat : FileStat) (tags : List String) (now : ℤ) (result : Except OpError ℕ)
  | deleteFile (path : String) (result : Except OpError Unit)
  | deleteStaleFiles (basePath : String) (since : ℤ) (result : Except OpError Unit)
  | setGraphTags (path : String) (tags : List String)
  /-- Files come, go or change, all at once; the label shows them before and after. -/
  | changeFiles (before after : String → Option File)
  | other

/-- One atomic call. -/
abbrev Act (α : Type) : Type := Prog World OpError α

/-- An operation. -/
abbrev Op (F α : Type) : Type := Proc World (Call F) OpError α

/-- What an operation gets from outside: the rules, the harvesters and the embedder as they behave for
it, the order in which its ranges over maps go, which of its errors are not worth a retry, whether the
file can be written, and the clock. -/
structure Env (F : Type) where
  rules : List (Rule F)
  order : MapOrder
  /-- `Pipeline.Run`. -/
  pipeline : Input F → List (String × MetaValue F) × Option OpError
  /-- `EmbedText`, if there is an embedder. -/
  embedText : Option (String → Option (List UInt32))
  /-- `isNonRetryableProcessingErr`. -/
  isNonRetryable : OpError → Bool
  /-- `unix.Access(path, W_OK)` for a path that is marked. -/
  writable : Bool
  now : ℤ

/-! ### Calls -/

/-- `fmt.Errorf(format, args…, err)`. -/
def errorf (format : String) (args : List String) (m : Act α) : Act α := Prog.wrap (OpError.wrapped format args) m

/-- A method of the index. -/
def onIndex (m : Sql α) : Act α :=
  Prog.wrap OpError.index (Prog.zoom World.db (fun db w => { w with db := db }) m)

/-- A change of the graph. -/
def onGraph (f : TagGraph → TagGraph) : Act Unit := Prog.modify fun w => { w with graph := f w.graph }

/-- `OnFileTagged`. -/
def onFileTagged (path : String) (added removed : List String) : Act Unit :=
  Prog.modify fun w => { w with fileTagged := w.fileTagged ++ [⟨path, added, removed⟩] }

/-- A call that is not recorded. -/
def call (m : Act α) : Op F α := Proc.atom (fun _ => .other) m

/-- A system call that changes which files there are; it fails where `f` gives nothing. -/
def changeFiles (f : (String → Option File) → Option (String → Option File)) : Op F Unit :=
  .call (fun c => .changeFiles c.store.files ((f c.store.files).getD c.store.files))
    (fun c => ⟨{ c.store with files := (f c.store.files).getD c.store.files }, c.faults⟩)
    fun c => if (f c.store.files).isSome then .done (.ok ()) else .done (.error .errno)

/-- `v, _ := m`, with `default` for the value on an error. -/
def orElse (default : α) (m : Op F α) : Op F α := do
  match ← (Proc.attempt m : Op F (Except OpError α)) with
  | .ok a => return a
  | .error _ => return default

/-! ### Paths not worth a retry -/

/-- `markPathNonRetryable`. -/
def markPathNonRetryable (path : String) : Act Unit := Prog.modify fun w =>
  if path = "" then w else { w with nonRetryablePaths := Function.update w.nonRetryablePaths path true }

/-- `clearPathNonRetryable`. -/
def clearPathNonRetryable (path : String) : Act Unit := Prog.modify fun w =>
  if path = "" then w else { w with nonRetryablePaths := Function.update w.nonRetryablePaths path false }

/-- `consumeNonRetryablePathErr`. -/
def consumeNonRetryablePathErr (env : Env F) (path : String) (err : OpError) : Op F Bool := do
  if env.isNonRetryable err then
    call (markPathNonRetryable path)
    return true
  else return false

end Tilbo.Daemon.State
