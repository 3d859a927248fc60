import Tilbo.Sync.SyncFile

/-! # The handlers

Requests that change tags (`handleTag`) and filesystem events (`handleFSEvent`). -/

namespace Tilbo.Daemon.Handlers

open Tilbo.Daemon.State Tilbo.Daemon.Processor Tilbo.Sync.SyncFile Tilbo.Xattr.Service Tilbo.Index.Store
open Tilbo.Index.StoreSpec (afterModify afterModify_add afterModify_remove afterModify_set)
open Tilbo.Harvester.Meta Tilbo.Lib.Pairs Tilbo.Lib.Txn Tilbo.Lib.Process Tilbo.Lib.Process.Proc

variable {F : Type} (P : Platform F) (env : Env F)

/-! ### Tag requests -/

/-- `TagOperation`; a message can carry other numbers as well. -/
inductive TagOperation where
  | unspecified
  | add
  | remove
  | set
  | unknown (n : ℕ)
deriving DecidableEq, Repr

/-- The operation as a word; empty if there is none. -/
def opStr : TagOperation → String
  | .add => "add"
  | .remove => "remove"
  | .set => "set"
  | .unspecified | .unknown _ => ""

/-- The tags of a set after an operation. -/
def applyOp (op : String) (existing tags : List String) : List String :=
  if op = "add" then tags.foldl (fun s t => s.insert t) existing.dedup
  else if op = "remove" then existing.dedup.filter (· ∉ tags)
  else if op = "set" then tags.dedup
  else existing.dedup

/-- What is in the set after an operation. -/
theorem mem_applyOp {op n : String} {existing tags : List String} (hop : op = "add" ∨ op = "remove" ∨ op = "set") :
    n ∈ applyOp op existing tags ↔ afterModify op tags (· ∈ existing) n := by
  have hinsert : ∀ (l acc : List String), n ∈ l.foldl (fun s t => s.insert t) acc ↔ n ∈ acc ∨ n ∈ l := by
    intro l
    induction l with
    | nil => simp
    | cons t l ih =>
      intro acc
      rw [List.foldl_cons, ih, List.mem_insert_iff, List.mem_cons]
      tauto
  rcases hop with rfl | rfl | rfl
  · rw [applyOp, if_pos rfl, hinsert, List.mem_dedup, afterModify_add]
  · simp [applyOp, afterModify_remove]
  · simp [applyOp, afterModify_set]

/-- `applyTagsXattr`. -/
def applyTagsXattr (path : String) (tagNames : List String) (op : String) : Op F Unit := do
  let existing ← orElse [] (atom (.readTags path) (readTags path))
  let merged := env.order.visit (applyOp op existing tagNames)
  atom (.writeTags path merged none) (writeTags path merged)

/-- `GetFileTags` as a recorded call. -/
def listFileTags (path : String) : Op F (List String) := atom (.getFileTags path) (onIndex (getFileTags path))

/-- Keep the graph in step with the index, if the index can be read. -/
def refreshGraph (path : String) : Op F Unit := do
  match ← (attempt (listFileTags path) : Op F (Except OpError (List String))) with
  | .error _ => pure ()
  | .ok updated => setGraphTags path updated

/-- The part of `handleTag` for one path; an error puts the path in `PathsError`. -/
def handleTagPath (op : String) (tags : List String) (path : String) : Op F Unit := do
  let oldTags ← orElse [] (listFileTags path)
  let newTags := applyOp op oldTags tags
  let added := (env.order.visit newTags).filter (· ∉ oldTags)
  let removed := (env.order.visit oldTags).filter (· ∉ newTags)
  -- On a filesystem without xattrs the index still gets the tags.
  orElse () (applyTagsXattr env path tags op)
  atom (.modifyFileTags path tags op) (onIndex (modifyFileTags path tags op))
  refreshGraph path
  if added ≠ [] ∨ removed ≠ [] then call (onFileTagged path added removed) else pure ()

/-- `TagResponse`; the errors are values here, not their texts. -/
structure TagResponse where
  pathsOk : List String := []
  pathsError : List String := []
  errors : List (String × OpError) := []

/-- Put a path where its result belongs. -/
def TagResponse.record (r : TagResponse) (path : String) : Except OpError Unit → TagResponse
  | .ok _ => { r with pathsOk := r.pathsOk ++ [path] }
  | .error e => { r with pathsError := r.pathsError ++ [path], errors := put r.errors path e }

/-- The loop of `handleTag` over the paths. -/
def handleTagPaths (op : String) (tags : List String) : List String → TagResponse → Op F TagResponse
  | [], r => return r
  | path :: paths, r => do
    let result ← (attempt (handleTagPath env op tags path) : Op F (Except OpError Unit))
    handleTagPaths op tags paths (r.record path result)

/-- `handleTag`; nothing stands for the response "invalid tag operation". -/
def handleTag (operation : TagOperation) (paths tags : List String) : Op F (Option TagResponse) :=
  if opStr operation = "" then return none
  else do
    let r ← handleTagPaths env (opStr operation) tags paths {}
    return some r

/-! ### Filesystem events -/

/-- `watcher.EventKind`. -/
inductive EventKind where
  | create
  | modify
  | delete
  | rename
deriving DecidableEq, Repr

/-- `watcher.Event`. -/
structure Event where
  path : String
  oldPath : String := ""
  kind : EventKind
deriving DecidableEq, Repr

/-- `DB.DeleteFile` as a recorded call; the callers log its error. -/
def deleteFromIndex (path : String) : Op F Unit :=
  orElse () (atom (.deleteFile path) (onIndex (deleteFile path)))

/-- Stat the file, synchronise it, and process it. -/
def syncAndProcess (path : String) : Op F Unit := do
  match ← (attempt (call (get path fun f => some f.stat)) : Op F (Except OpError FileStat)) with
  | .error _ => return ()
  | .ok stat =>
    let _ ← orElse false (syncFile P env path stat)
    ProcessFile P env path

/-- `handleFSEvent`. -/
def handleFSEvent (ev : Event) : Op F Unit :=
  match ev.kind with
  | .create | .modify => do
    call (clearPathNonRetryable ev.path)
    syncAndProcess P env ev.path
  | .delete => deleteFromIndex ev.path
  | .rename => do
    deleteFromIndex ev.oldPath
    syncAndProcess P env ev.path

/-! ### Browser requests -/

/-- What the system does to the files when it is asked to move or remove one, or a directory; nothing if
it refuses. -/
abbrev FileChange : Type := (String → Option File) → Option (String → Option File)

/-- `RenameFile`, `DeleteFile` and `TrashFile` of the browser, past the checks of the request: the system
moves or removes what is at the path, and the entry of the path is removed from the index. -/
def removeByBrowser (change : FileChange) (path : String) : Op F Unit := do
  changeFiles change
  deleteFromIndex path

end Tilbo.Daemon.Handlers
