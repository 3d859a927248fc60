import Tilbo.Daemon.Processor

/-! # The sweep

`Sweeper.sweepFile`: the same as the processor, run over every indexed file after the rules changed. It
knows neither the graph nor the clients, and it stops at no harvester error. -/

namespace Tilbo.Rules.Sweep

open Tilbo.Daemon.State Tilbo.Daemon.Processor Tilbo.Xattr.Service Tilbo.Index.Store Tilbo.Rules.Engine
open Tilbo.Harvester.Meta Tilbo.Lib.Pairs Tilbo.Lib.Txn Tilbo.Lib.Process Tilbo.Lib.Process.Proc

variable {F : Type} (P : Platform F) (env : Env F) (path : String)

/-- The two phases of a harvest in a sweep, which goes on after an error. -/
def sweepHarvest (input : Input F) (md : MetaMap F) : MetaMap F × List (String × MetaValue F) :=
  let additional := (env.pipeline input).1
  let newMIME := textOf (additional.lookup "mime")
  if input.mime = "" ∧ newMIME ≠ "" then
    let md := md.copy additional
    (md, putAll additional (env.pipeline { input with mime := newMIME, existing := md }).1)
  else (md, additional)

/-- The loop that merges and persists what was harvested; errors are dropped. -/
def sweepPersist (idErr : Except OpError ℕ) (additional : List (String × MetaValue F)) : Op F Unit :=
  each (fun kv =>
    if kv.1.toList.head? = some '_' then pure ()
    else do
      let strVal := valueToString P kv.2
      orElse () (call (writeMeta path kv.1 strVal))
      match idErr with
      | .ok fileId => orElse () (call (onIndex (upsertFileMeta fileId kv.1 strVal "harvester")))
      | .error _ => pure ()) additional

/-- `sweepFile`: whether tags were added. -/
def sweepFile : Op F Bool := do
  let existingTags ← atom (.readTags path) (readTags path)
  let existingMeta ← call (readAllMeta path)
  let md := parseStoredMeta P existingMeta
  let (md, additional) := sweepHarvest env ⟨path, textOf (md "mime"), md⟩ md
  let idErr ← (attempt (lookupFileID path) : Op F (Except OpError ℕ))
  sweepPersist P path idErr additional
  let md := md.copy additional
  match idErr with
  | .error err => fail err
  | .ok fileId => do
    let overrides ← readOverrides env path fileId md existingTags
    let diff := eval env.rules env.order md existingTags overrides
    if diff.added = [] then return false
    else
      let newTags := existingTags ++ diff.added
      atom (.writeTags path newTags (some diff)) (writeTags path newTags)
      updateSource P path diff.sources
      atom (.setFileTags path fileId newTags) (onIndex (setFileTags fileId newTags))
      recordSources env fileId diff.sources
      return true

end Tilbo.Rules.Sweep
