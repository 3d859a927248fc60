import Tilbo.Daemon.State

/-! # The xattr service

The methods of `xattr.Service` as the daemon uses them, without a sidecar store. A read that fails reads
nothing: only a cancelled context and a value that does not parse are errors of `ReadTags` and
`ReadSource`. -/

namespace Tilbo.Xattr.Service

open Tilbo.Daemon.State Tilbo.Xattr.Csv Tilbo.Harvester.Meta Tilbo.Lib.Pairs Tilbo.Lib.Txn
open Tilbo.Lib.Txn.Prog

variable {F α : Type}

/-- `ctx.Err()`. -/
def ctxErr : Act Unit := stmt .cancelled fun w => .ok ((), w)

/-- A system call that reads the file. -/
def get (path : String) (f : File → Option α) : Act α := stmt .errno fun w =>
  match (w.files path).bind f with
  | some a => .ok (a, w)
  | none => .error .errno

/-- A system call that changes the attributes of the file. -/
def set (path : String) (f : File → Option File) : Act Unit := stmt .errno fun w =>
  match (w.files path).bind f with
  | some file => .ok ((), { w with files := Function.update w.files path (some file) })
  | none => .error .errno

/-- `ReadTags`. -/
def readTags (path : String) : Act (List String) := do
  ctxErr
  match ← attempt (get path File.tags) with
  | .error (_ : OpError) => return []
  | .ok val => match parseTags val with
    | .ok tags => return tags
    | .error e => fail (.wrapped "xattr parse tags %q: %w" [path] (.csv e))

/-- `WriteTags`. -/
def writeTags (path : String) (tags : List String) : Act Unit := do
  ctxErr
  errorf "xattr write tags %q: %w" [path] (set path fun f => some { f with tags := some (formatTags tags) })

/-- `ReadAllMeta`: one call lists the attributes, one more reads each. -/
def readAllMeta (path : String) : Act (List (String × String)) := do
  ctxErr
  let attrs ← errorf "xattr list %q: %w" [path] (get path fun f => some f.metadata)
  each (fun kv => do
    let _ ← errorf "xattr read meta %q attr %q: %w" [path, "user.meta." ++ kv.1]
      (get path fun f => f.metadata.lookup kv.1)) attrs
  return attrs

/-- `WriteMeta`. -/
def writeMeta (path key value : String) : Act Unit := do
  ctxErr
  errorf "xattr write meta %q key %q: %w" [path, key]
    (set path fun f => some { f with metadata := put f.metadata key value })

/-- `ReadSource`. -/
def readSource (P : Platform F) (path : String) : Act (List (String × String)) := do
  ctxErr
  match ← attempt (get path File.source) with
  | .error (_ : OpError) => return []
  | .ok val =>
    if val = "" then return []
    else match P.unmarshal val with
      | some m => return m
      | none => fail (.wrapped "xattr parse source %q: %w" [path] .json)

/-- `WriteSource`. -/
def writeSource (P : Platform F) (path : String) (source : List (String × String)) : Act Unit := do
  ctxErr
  errorf "xattr write source %q: %w" [path] (set path fun f => some { f with source := some (P.marshal source) })

end Tilbo.Xattr.Service
