import Tilbo.Daemon.Processor

/-! # Synchronising one file

`Syncer.SyncFile`: read the xattrs of a file and make its index entry say the same. -/

namespace Tilbo.Sync.SyncFile

open Tilbo.Daemon.State Tilbo.Xattr.Service Tilbo.Index.Store Tilbo.Harvester.Meta
open Tilbo.Lib.Txn Tilbo.Lib.Process Tilbo.Lib.Process.Proc

variable {F : Type} (P : Platform F) (env : Env F) (path : String)

/-- Whether the file should be harvested: it has no MIME type yet, or has changed since it was indexed. -/
def needsHarvest (md : List (String × String)) (stat : FileStat) : Op F Bool :=
  if (md.lookup "mime").isNone then pure true
  else do
    match ← (attempt (call (onIndex (getFileStat path))) : Op F (Except OpError (ℤ × ℤ))) with
    | .error _ => pure true
    | .ok (storedMtime, storedSize) => pure (decide (storedMtime ≠ stat.mtime ∨ storedSize ≠ stat.size))

/-- `SyncFile`: whether the file should be harvested. -/
def syncFile (stat : FileStat) : Op F Bool := do
  let tags ← atom (.readTags path) (errorf "read tags: %w" [] (readTags path))
  let md ← call (errorf "read meta: %w" [] (readAllMeta path))
  let sourceMap ← call (errorf "read source: %w" [] (readSource P path))
  let harvest ← needsHarvest path md stat
  let _ ← atom (.syncFileApply path stat tags env.now)
    (errorf "apply file sync: %w" [] (onIndex (syncFileApply path stat tags md sourceMap env.now)))
  return harvest

end Tilbo.Sync.SyncFile
