import Tilbo.Xattr.Service

/-! # The processor

`Processor`: harvest a file, evaluate the rules on what is known of it, and write the new tags to the
xattrs, the index and the graph. Async harvesters report back through `handleAsyncResult`, an operation
of its own. -/

namespace Tilbo.Daemon.Processor

open Tilbo.Daemon.State Tilbo.Xattr.Service Tilbo.Index.Store Tilbo.Rules.Engine
open Tilbo.Harvester.Meta Tilbo.Lib.Pairs Tilbo.Lib.Txn Tilbo.Lib.Process Tilbo.Lib.Process.Proc

variable {F : Type} (P : Platform F) (env : Env F) (path : String)

/-- `GetFileIDByPath` as a recorded call. -/
def lookupFileID (path : String) : Op F ℕ := atom (.getFileIDByPath path) (onIndex (getFileIDByPath path))

/-- `Graph.SetFileTags` as a recorded call. -/
def setGraphTags (path : String) (tags : List String) : Op F Unit :=
  atom (fun _ => .setGraphTags path tags) (onGraph (Graph.Edges.setFileTags · path tags))

/-! ### Harvesting -/

/-- `runPipelinePhase`; nothing means stop. -/
def runPipelinePhase (input : Input F) : Option (List (String × MetaValue F)) :=
  match env.pipeline input with
  | (additional, none) => some additional
  | (additional, some err) => if env.isNonRetryable err then none else some additional

/-- The two phases of a harvest: `maybeRunSecondPipelinePhase` runs the pipeline again if the first phase
found the MIME type. The result is the metadata map so far and what the harvesters add; nothing means
stop. -/
def harvest (input : Input F) (md : MetaMap F) : Option (MetaMap F × List (String × MetaValue F)) :=
  (runPipelinePhase env input).bind fun additional =>
    let newMIME := textOf (additional.lookup "mime")
    if input.mime ≠ "" ∨ newMIME = "" then some (md, additional)
    else
      let md := md.copy additional
      (runPipelinePhase env { input with mime := newMIME, existing := md }).map fun phase2 =>
        (md, putAll additional phase2)

/-- An error ends the operation if it is not worth a retry, and is logged otherwise. -/
def stopIfNonRetryable (m : Op F Unit) : Op F Unit := do
  match ← (attempt m : Op F (Except OpError Unit)) with
  | .error err => if env.isNonRetryable err then fail err else pure ()
  | .ok _ => pure ()

/-- `persistMetaValue`. -/
def persistMetaValue (fileId : ℕ) (persistToIndex : Bool) (source key value : String) : Op F Unit := do
  stopIfNonRetryable env (call (writeMeta path key value))
  if persistToIndex then
    stopIfNonRetryable env (call (onIndex (upsertFileMeta fileId key value source)))
  else pure ()

/-- `mergeAndPersistMeta`: keys that start with an underscore are not persisted. -/
def mergeAndPersistMeta (fileId : ℕ) (persistToIndex : Bool) (source : String) (base : MetaMap F)
    (updates : List (String × MetaValue F)) : Op F (MetaMap F) := do
  each (fun kv =>
    if kv.1.toList.head? = some '_' then pure ()
    else persistMetaValue env path fileId persistToIndex source kv.1 (valueToString P kv.2)) updates
  return base.copy updates

/-! ### Writing the result -/

/-- The loop of `applyDiff` and `sweepFile` that records where the tags come from; errors are dropped. -/
def recordSources (fileId : ℕ) (sources : List (String × String)) : Op F Unit :=
  each (fun ts => do
    match ← (attempt (call (onIndex (upsertTag ts.1))) : Op F (Except OpError ℕ)) with
    | .error _ => pure ()
    | .ok tagID => orElse () (call (onIndex (setProvenance fileId tagID ts.2 env.now)))) sources

/-- The update of the provenance attribute; errors are dropped. -/
def updateSource (sources : List (String × String)) : Op F Unit := do
  let sourceMap ← orElse [] (call (readSource P path))
  orElse () (call (writeSource P path (putAll sourceMap sources)))

/-- `applyDiff`. -/
def applyDiff (fileId : ℕ) (existingTags : List String) (diff : TagDiff) : Op F Unit := do
  let newTags := existingTags ++ diff.added
  atom (.writeTags path newTags (some diff)) (errorf "write tags: %w" [] (writeTags path newTags))
  updateSource P path diff.sources
  atom (.setFileTags path fileId newTags)
    (errorf "set file tags: %w" [] (onIndex (setFileTags fileId newTags)))
  setGraphTags path newTags
  recordSources env fileId diff.sources
  call (onFileTagged path diff.added [])

/-- `updateEmbedding`; without an embedder it does nothing. -/
def updateEmbedding (fileId : ℕ) (existingTags : List String) (md : MetaMap F) : Op F Unit :=
  match env.embedText with
  | none => pure ()
  | some embedText =>
    let part (key : String) : List String := if textOf (md key) = "" then [] else [textOf (md key)]
    let textParts := path :: existingTags ++ part "description" ++ part "title" ++ part "text"
    match embedText (" ".intercalate textParts) with
    | none => pure ()
    | some vec => do
      match ← (attempt (call (onIndex (upsertEmbedding fileId vec))) : Op F (Except OpError Unit)) with
      | .error _ => pure ()
      | .ok _ => call (onGraph (Graph.Edges.setEmbedding · path vec))

/-- `GetTagOverrides`, whose result the rules are evaluated with next. -/
def readOverrides (fileId : ℕ) (md : MetaMap F) (existingTags : List String) : Op F (List (String × String)) :=
  atom (.evaluate ⟨path, fileId, env.rules, env.order, md, existingTags⟩) (onIndex (getTagOverrides fileId))

/-! ### The operations -/

/-- The part of `processFile` after the metadata is persisted. -/
def evalAndApply (idErr : Except OpError ℕ) (existingTags : List String) (md : MetaMap F) : Op F Unit := do
  match idErr with
  | .error err =>
    if ← consumeNonRetryablePathErr env path err then return ()
    -- The file is not in the index: no rule is evaluated.
    else if isNoRows err then return ()
    else fail (.wrapped "get file id: %w" [] err)
  | .ok fileId =>
    match ← (attempt (readOverrides env path fileId md existingTags) :
        Op F (Except OpError (List (String × String)))) with
    | .error err =>
      if ← consumeNonRetryablePathErr env path err then return ()
      else fail (.wrapped "get tag overrides: %w" [] err)
    | .ok overrides =>
      let diff := eval env.rules env.order md existingTags overrides
      updateEmbedding env path fileId existingTags md
      if diff.added = [] then return () else applyDiff P env path fileId existingTags diff

/-- `processFile`. -/
def processFile : Op F Unit := do
  let existingTags ← atom (.readTags path) (errorf "read tags: %w" [] (readTags path))
  let existingMeta ← call (errorf "read meta: %w" [] (readAllMeta path))
  let md := parseStoredMeta P existingMeta
  match harvest env ⟨path, textOf (md "mime"), md⟩ md with
  | none => return ()
  | some (md, additional) =>
    let idErr ← (attempt (lookupFileID path) : Op F (Except OpError ℕ))
    match ← (attempt (mergeAndPersistMeta P env path (idErr.toOption.getD 0) idErr.isOk "harvester" md
        additional) : Op F (Except OpError (MetaMap F))) with
    | .error err => if ← consumeNonRetryablePathErr env path err then return () else fail err
    | .ok md => evalAndApply P env path idErr existingTags md

/-- `preparePath`. -/
def preparePath : Op F Bool := do
  let running : Op F Bool := orElse false do
    call ctxErr
    return true
  if ← call (Prog.peek fun w => w.nonRetryablePaths path) then
    if path = "" ∨ env.writable = false then return false
    else
      call (clearPathNonRetryable path)
      running
  else running

/-- `ProcessFile`. -/
def ProcessFile : Op F Unit := do
  if ← preparePath env path then
    match ← (attempt (processFile P env path) : Op F (Except OpError Unit)) with
    | .ok _ => return ()
    | .error err =>
      let _ ← consumeNonRetryablePathErr env path err
      return ()
  else return ()

/-- The part of `handleAsyncResult` that can fail: the caller logs the error or marks the path. -/
def asyncUpdate (harvesterName : String) (asyncMeta : List (String × MetaValue F)) : Op F Unit := do
  let fileId ← lookupFileID path
  let existingTags ← orElse [] (atom (.readTags path) (readTags path))
  let existingMeta ← orElse [] (call (readAllMeta path))
  let md ← mergeAndPersistMeta P env path fileId true harvesterName (parseStoredMeta P existingMeta) asyncMeta
  let overrides ← readOverrides env path fileId md existingTags
  let diff := eval env.rules env.order md existingTags overrides
  if diff.added = [] then return ()
  else
    updateEmbedding env path fileId existingTags md
    applyDiff P env path fileId existingTags diff

/-- `handleAsyncResult`. -/
def handleAsyncResult (harvesterName : String) (asyncMeta : List (String × MetaValue F)) : Op F Unit := do
  if ← preparePath env path then
    match ← (attempt (asyncUpdate P env path harvesterName asyncMeta) : Op F (Except OpError Unit)) with
    | .ok _ => return ()
    | .error err =>
      let _ ← consumeNonRetryablePathErr env path err
      return ()
  else return ()

end Tilbo.Daemon.Processor
