import Tilbo.Daemon.Operations

/-! # What clients hear

Which operations send `FileTagged` events, and for which files: nearly every call leaves the events alone
(`Still`), and an operation that changes tags sends events for its own files only (`Speaks`). None of these
operations removes a file from the index. -/

namespace Tilbo.Daemon.Speech

open Tilbo.Daemon.State Tilbo.Daemon.Calls Tilbo.Daemon.Processor Tilbo.Daemon.Handlers
open Tilbo.Daemon.Operations Tilbo.Rules.Sweep Tilbo.Rules.Engine Tilbo.Sync.SyncFile Tilbo.Fuse.Server
open Tilbo.Xattr.Service Tilbo.Index.Schema Tilbo.Index.Store Tilbo.Harvester.Meta Tilbo.Lib.Pairs
open Tilbo.Lib.Txn Tilbo.Lib.Txn.Prog Tilbo.Lib.Process Tilbo.Lib.Process.Proc

variable {F α β : Type} {path : String}

/-! ### Calls that send nothing -/

/-- The call sends no event. -/
def Still (m : Act α) : Prop := ∀ evs, Lib.Txn.Keeps (fun w : World => w.fileTagged = evs) m

theorem Still.run {m : Act α} (hm : Still m) (c : Conn World) :
    (m c).2.store.fileTagged = c.store.fileTagged := (hm _).run rfl

theorem still_modify {f : World → World} (hf : ∀ w, (f w).fileTagged = w.fileTagged) : Still (Prog.modify f) :=
  fun _ => Keeps.modify fun w h => (hf w).trans h

theorem still_errorf {m : Act α} {format : String} {args : List String} (hm : Still m) :
    Still (Daemon.State.errorf format args m) := fun evs => Keeps.wrap (hm evs)

theorem still_onIndex (m : Sql α) : Still (onIndex m) := by
  refine fun evs w h => wp_wrap (wp_zoom fun fs => ?_)
  split <;> exact h

theorem still_writeTags {tags : List String} : Still (writeTags path tags) :=
  fun _ => keeps_writeTags fun _ _ h => h

theorem still_writeMeta {key value : String} : Still (writeMeta path key value) :=
  fun _ => keeps_writeMeta fun _ _ h => h

theorem still_writeSource (P : Platform F) {source : List (String × String)} :
    Still (writeSource P path source) := fun _ => keeps_writeSource (fun _ _ h => h) P

theorem still_markPathNonRetryable : Still (markPathNonRetryable path) :=
  still_modify fun w => by split_ifs <;> rfl

theorem still_clearPathNonRetryable : Still (clearPathNonRetryable path) :=
  still_modify fun w => by split_ifs <;> rfl

/-! ### Operations that speak of some files only -/

/-- The call removes a file from the index. -/
def Removes : Call F → Prop
  | .deleteFile _ _ | .deleteStaleFiles _ _ _ => True
  | _ => False

/-- A call may add events for these files; it removes none from the index. -/
def speech (F : Type) (heard : String → Prop) : Protocol Unit World (Call F) where
  advance _ _ := ()
  allowed _ w l w' :=
    (∃ evs, w'.fileTagged = w.fileTagged ++ evs ∧ ∀ ev ∈ evs, heard ev.path) ∧ ¬ Removes l

/-- The process sends events for these files only. -/
def Speaks (heard : String → Prop) (p : Op F α) : Prop := Follows (speech F heard) p (fun _ _ => True) ()

section Speaks
variable {heard : String → Prop} {p : Op F α}

theorem speaks_pure (a : α) : Speaks heard (pure a : Op F α) := trivial

theorem speaks_fail (e : OpError) : Speaks heard (fail e : Op F α) := trivial

theorem speaks_andThen {f : α → Op F β} (hp : Speaks heard p) (hf : ∀ a, Speaks heard (f a)) :
    Speaks heard (p >>= f) := by
  refine follows_andThen (Follows.mono hp fun r ph _ => ?_)
  cases r with
  | ok a => exact hf a
  | error e => trivial

theorem speaks_attempt (hp : Speaks heard p) : Speaks heard (attempt p : Op F (Except OpError α)) :=
  follows_attempt hp

theorem speaks_orElse {a : α} (hp : Speaks heard p) : Speaks heard (orElse a p) := by
  refine speaks_andThen (speaks_attempt hp) fun r => ?_
  cases r <;> exact speaks_pure _

theorem speaks_each {f : β → Op F Unit} (hf : ∀ b, Speaks heard (f b)) (l : List β) :
    Speaks heard (each f l) := by
  induction l with
  | nil => exact speaks_pure ()
  | cons b l ih => exact speaks_andThen (hf b) fun _ => ih

theorem speaks_atom {label : Except OpError α → Call F} {m : Act α} (hm : Still m)
    (hlabel : ∀ r, ¬ Removes (label r)) : Speaks heard (atom label m) :=
  follows_atom fun c => ⟨⟨⟨[], by rw [hm.run c, List.append_nil], fun _ h => absurd h List.not_mem_nil⟩,
    hlabel _⟩, trivial⟩

theorem speaks_call {m : Act α} (hm : Still m) : Speaks heard (call m : Op F α) := speaks_atom hm fun _ => id

theorem speaks_onFileTagged (h : heard path) (added removed : List String) :
    Speaks heard (call (onFileTagged path added removed) : Op F Unit) := by
  refine follows_atom fun c => ⟨⟨⟨[⟨path, added, removed⟩], rfl, fun ev hev => ?_⟩, id⟩, trivial⟩
  rw [List.mem_singleton.mp hev]
  exact h

section Parts
variable (P : Platform F) (env : Env F)

theorem speaks_consume (err : OpError) : Speaks heard (consumeNonRetryablePathErr env path err) := by
  unfold consumeNonRetryablePathErr
  split_ifs
  · exact speaks_andThen (speaks_call still_markPathNonRetryable) fun _ => speaks_pure _
  · exact speaks_pure _

theorem speaks_stopIfNonRetryable {m : Op F Unit} (hm : Speaks heard m) :
    Speaks heard (stopIfNonRetryable env m) := by
  refine speaks_andThen (speaks_attempt hm) fun r => ?_
  cases r with
  | ok _ => exact speaks_pure _
  | error err =>
    dsimp only
    split_ifs
    · exact speaks_fail _
    · exact speaks_pure _

theorem speaks_mergeAndPersistMeta (i : ℕ) (persistToIndex : Bool) (source : String) (base : MetaMap F)
    (updates : List (String × MetaValue F)) :
    Speaks heard (mergeAndPersistMeta P env path i persistToIndex source base updates) := by
  refine speaks_andThen (speaks_each (fun kv => ?_) _) fun _ => speaks_pure _
  split_ifs
  · exact speaks_pure _
  · refine speaks_andThen (speaks_stopIfNonRetryable env (speaks_call still_writeMeta)) fun _ => ?_
    split_ifs
    · exact speaks_stopIfNonRetryable env (speaks_call (still_onIndex _))
    · exact speaks_pure _

theorem speaks_recordSources (i : ℕ) (sources : List (String × String)) :
    Speaks heard (recordSources env i sources) := by
  refine speaks_each (fun ts => ?_) _
  refine speaks_andThen (speaks_attempt (speaks_call (still_onIndex _))) fun r => ?_
  cases r with
  | error _ => exact speaks_pure _
  | ok t => exact speaks_orElse (speaks_call (still_onIndex _))

theorem speaks_updateSource (sources : List (String × String)) :
    Speaks heard (updateSource P path sources) :=
  speaks_andThen (speaks_orElse (speaks_call fun _ => keeps_readSource P)) fun _ =>
    speaks_orElse (speaks_call (still_writeSource P))

theorem speaks_updateEmbedding (i : ℕ) (existingTags : List String) (md : MetaMap F) :
    Speaks heard (updateEmbedding env path i existingTags md) := by
  unfold updateEmbedding
  split
  · exact speaks_pure _
  · dsimp only
    split
    · exact speaks_pure _
    · refine speaks_andThen (speaks_attempt (speaks_call (still_onIndex _))) fun r => ?_
      cases r with
      | error _ => exact speaks_pure _
      | ok _ => exact speaks_call (still_modify fun _ => rfl)

theorem speaks_preparePath : Speaks heard (preparePath env path) := by
  have hrun : Speaks heard (orElse false do
      call ctxErr
      return true : Op F Bool) :=
    speaks_orElse (speaks_andThen (speaks_call fun _ => keeps_ctxErr) fun _ => speaks_pure _)
  refine speaks_andThen (speaks_call fun _ => Keeps.peek) fun marked => ?_
  split_ifs
  · exact speaks_pure _
  · exact speaks_andThen (speaks_call still_clearPathNonRetryable) fun _ => hrun
  · exact hrun

theorem speaks_sweepPersist (idErr : Except OpError ℕ) (additional : List (String × MetaValue F)) :
    Speaks heard (sweepPersist P path idErr additional) := by
  refine speaks_each (fun kv => ?_) _
  split_ifs
  · exact speaks_pure _
  · refine speaks_andThen (speaks_orElse (speaks_call still_writeMeta)) fun _ => ?_
    cases idErr with
    | ok i => exact speaks_orElse (speaks_call (still_onIndex _))
    | error _ => exact speaks_pure _

theorem speaks_lookupFileID : Speaks heard (lookupFileID (F := F) path) :=
  speaks_atom (still_onIndex _) fun _ => id

theorem speaks_readOverrides (i : ℕ) (md : MetaMap F) (existingTags : List String) :
    Speaks heard (readOverrides env path i md existingTags) := speaks_atom (still_onIndex _) fun _ => id

theorem speaks_setGraphTags (tags : List String) : Speaks heard (setGraphTags (F := F) path tags) :=
  speaks_atom (still_modify fun _ => rfl) fun _ => id

theorem speaks_needsHarvest (md : List (String × String)) (stat : FileStat) :
    Speaks heard (needsHarvest (F := F) path md stat) := by
  unfold needsHarvest
  split_ifs
  · exact speaks_pure _
  · refine speaks_andThen (speaks_attempt (speaks_call (still_onIndex _))) fun r => ?_
    cases r <;> exact speaks_pure _

theorem speaks_guarded {m : Op F Unit} (hm : Speaks heard m) : Speaks heard (do
    if ← preparePath env path then
      match ← (attempt m : Op F (Except OpError Unit)) with
      | .ok _ => return ()
      | .error err =>
        let _ ← consumeNonRetryablePathErr env path err
        return ()
    else return ()) := by
  refine speaks_andThen (speaks_preparePath env) fun b => ?_
  cases b
  · exact speaks_pure ()
  · refine speaks_andThen (speaks_attempt hm) fun r => ?_
    cases r with
    | ok _ => exact speaks_pure ()
    | error err => exact speaks_andThen (speaks_consume env err) fun _ => speaks_pure ()

end Parts

/-! ### The operations -/

section Operations
variable (P : Platform F) (env : Env F) (h : heard path)
include h

theorem speaks_applyDiff (i : ℕ) (existingTags : List String) (diff : TagDiff) :
    Speaks heard (applyDiff P env path i existingTags diff) :=
  speaks_andThen (speaks_atom (still_errorf still_writeTags) fun _ => id) fun _ =>
    speaks_andThen (speaks_updateSource P _) fun _ =>
      speaks_andThen (speaks_atom (still_errorf (still_onIndex _)) fun _ => id) fun _ =>
        speaks_andThen (speaks_setGraphTags _) fun _ =>
          speaks_andThen (speaks_recordSources env i _) fun _ => speaks_onFileTagged h _ _

theorem speaks_evalAndApply (idErr : Except OpError ℕ) (existingTags : List String) (md : MetaMap F) :
    Speaks heard (evalAndApply P env path idErr existingTags md) := by
  unfold evalAndApply
  split
  · refine speaks_andThen (speaks_consume env _) fun b => ?_
    split_ifs
    · exact speaks_pure _
    · exact speaks_pure _
    · exact speaks_fail _
  · refine speaks_andThen (speaks_attempt (speaks_readOverrides env _ md existingTags)) fun r => ?_
    split
    · refine speaks_andThen (speaks_consume env _) fun b => ?_
      split_ifs
      · exact speaks_pure _
      · exact speaks_fail _
    · refine speaks_andThen (speaks_updateEmbedding env _ existingTags md) fun _ => ?_
      split_ifs
      · exact speaks_pure _
      · exact speaks_applyDiff P env h _ existingTags _

theorem speaks_processFile : Speaks heard (processFile P env path) := by
  refine speaks_andThen (speaks_atom (still_errorf fun _ => keeps_readTags) fun _ => id) fun existingTags => ?_
  refine speaks_andThen (speaks_call (still_errorf fun _ => keeps_readAllMeta)) fun existingMeta => ?_
  dsimp only
  split
  · exact speaks_pure _
  · refine speaks_andThen (speaks_attempt speaks_lookupFileID) fun idErr => ?_
    refine speaks_andThen (speaks_attempt (speaks_mergeAndPersistMeta P env _ _ _ _ _)) fun r => ?_
    cases r with
    | error err =>
      refine speaks_andThen (speaks_consume env err) fun b => ?_
      split_ifs
      · exact speaks_pure _
      · exact speaks_fail _
    | ok md => exact speaks_evalAndApply P env h idErr existingTags md

theorem speaks_asyncUpdate (harvesterName : String) (asyncMeta : List (String × MetaValue F)) :
    Speaks heard (asyncUpdate P env path harvesterName asyncMeta) := by
  refine speaks_andThen speaks_lookupFileID fun i => ?_
  refine speaks_andThen (speaks_orElse (speaks_atom (fun _ => keeps_readTags) fun _ => id)) fun existingTags => ?_
  refine speaks_andThen (speaks_orElse (speaks_call fun _ => keeps_readAllMeta)) fun existingMeta => ?_
  refine speaks_andThen (speaks_mergeAndPersistMeta P env _ _ _ _ _) fun md => ?_
  refine speaks_andThen (speaks_readOverrides env _ _ _) fun overrides => ?_
  dsimp only
  split_ifs
  · exact speaks_pure _
  · exact speaks_andThen (speaks_updateEmbedding env _ _ _) fun _ => speaks_applyDiff P env h _ _ _

/-- `handleTagPath` sends an event for its path. -/
theorem speaks_handleTagPath (op : String) (tags : List String) :
    Speaks heard (handleTagPath env op tags path) := by
  have hread : ∀ {heard}, Speaks heard (listFileTags (F := F) path) := speaks_atom (still_onIndex _) fun _ => id
  refine speaks_andThen (speaks_orElse hread) fun oldTags => ?_
  refine speaks_andThen (speaks_orElse ?_) fun _ => ?_
  · exact speaks_andThen (speaks_orElse (speaks_atom (fun _ => keeps_readTags) fun _ => id)) fun _ =>
      speaks_atom still_writeTags fun _ => id
  refine speaks_andThen (speaks_atom (still_onIndex _) fun _ => id) fun _ => ?_
  refine speaks_andThen (speaks_andThen (speaks_attempt hread) fun r => ?_) fun _ => ?_
  · cases r with
    | error _ => exact speaks_pure _
    | ok updated => exact speaks_setGraphTags updated
  · split_ifs
    · exact speaks_onFileTagged h _ _
    · exact speaks_pure _

end Operations

section Silent
variable (P : Platform F) (env : Env F)

theorem speaks_sweepFile : Speaks heard (sweepFile P env path) := by
  refine speaks_andThen (speaks_atom (fun _ => keeps_readTags) fun _ => id) fun existingTags => ?_
  refine speaks_andThen (speaks_call fun _ => keeps_readAllMeta) fun existingMeta => ?_
  refine speaks_andThen (speaks_attempt speaks_lookupFileID) fun idErr => ?_
  refine speaks_andThen (speaks_sweepPersist P idErr _) fun _ => ?_
  cases idErr with
  | error err => exact speaks_fail _
  | ok i =>
    refine speaks_andThen (speaks_readOverrides env _ _ _) fun overrides => ?_
    dsimp only
    split_ifs
    · exact speaks_pure _
    · exact speaks_andThen (speaks_atom still_writeTags fun _ => id) fun _ =>
        speaks_andThen (speaks_updateSource P _) fun _ =>
          speaks_andThen (speaks_atom (still_onIndex _) fun _ => id) fun _ =>
            speaks_andThen (speaks_recordSources env i _) fun _ => speaks_pure _

theorem speaks_syncFile (stat : FileStat) : Speaks heard (syncFile P env path stat) :=
  speaks_andThen (speaks_atom (still_errorf fun _ => keeps_readTags) fun _ => id) fun _ =>
    speaks_andThen (speaks_call (still_errorf fun _ => keeps_readAllMeta)) fun _ =>
      speaks_andThen (speaks_call (still_errorf fun _ => keeps_readSource P)) fun _ =>
        speaks_andThen (speaks_needsHarvest _ stat) fun _ =>
          speaks_andThen (speaks_atom (still_errorf (still_onIndex _)) fun _ => id) fun _ => speaks_pure _

theorem speaks_retag (srcTags dstTags : List String) : Speaks heard (retag (F := F) path srcTags dstTags) := by
  have hone : ∀ op t, Speaks heard (orElse () (atom (.modifyFileTags path [t] op)
      (onIndex (modifyFileTags path [t] op))) : Op F Unit) := fun op t =>
    speaks_orElse (speaks_atom (still_onIndex _) fun _ => id)
  exact speaks_andThen (speaks_each (hone "remove") srcTags) fun _ => speaks_each (hone "add") dstTags

theorem speaks_rename (d : TagDir) (name : String) (newParent : Option TagDir) :
    Speaks heard (rename (F := F) d name newParent) := by
  unfold rename
  split
  · exact speaks_pure _
  · exact speaks_pure _
  · split
    · exact speaks_pure _
    · split_ifs
      · exact speaks_pure _
      · split
        · exact speaks_andThen (speaks_retag _ _) fun _ => speaks_pure _
        · exact speaks_pure _

theorem speaks_changeFiles (change : FileChange) : Speaks heard (changeFiles (F := F) change) := by
  refine fun c => ⟨⟨⟨[], (List.append_nil _).symm, fun _ h => absurd h List.not_mem_nil⟩, id⟩, ?_⟩
  dsimp only
  split_ifs <;> trivial

end Silent

end Speaks

/-! ### Operations that change tags -/

/-- The operations that change the tags of files, and other programs' changes of the files themselves. -/
def Tagging : Operation F → Prop
  | .handleTag _ _ _ | .processFile _ | .handleAsyncResult _ _ _ | .sweepFile _ | .syncFile _ _ | .rename _ _ _
  | .external _ => True
  | _ => False

/-- Each of them speaks of its own files, and removes none from the index. -/
theorem speaks_run (P : Platform F) (env : Env F) {o : Operation F} (ho : Tagging o) :
    Speaks o.script.on (o.run P env) := by
  cases o with
  | handleTag operation paths tags =>
    have hpaths : ∀ (ps : List String) (r : TagResponse), (∀ p ∈ ps, p ∈ paths) →
        Speaks (· ∈ paths) (handleTagPaths env (opStr operation) tags ps r) := by
      intro ps
      induction ps with
      | nil => exact fun r _ => speaks_pure r
      | cons p ps ih =>
        intro r hps
        have hp : p ∈ paths := hps p (List.mem_cons_self ..)
        exact speaks_andThen (speaks_attempt (speaks_handleTagPath env hp _ tags)) fun result =>
          ih _ fun q hq => hps q (List.mem_cons_of_mem _ hq)
    refine speaks_andThen ?_ fun _ => speaks_pure ()
    unfold handleTag
    split_ifs
    · exact speaks_pure _
    · exact speaks_andThen (hpaths paths {} fun _ hp => hp) fun r => speaks_pure (some r)
  | processFile path => exact speaks_guarded env (speaks_processFile P env rfl)
  | handleAsyncResult path harvesterName asyncMeta =>
    have hon : (Operation.handleAsyncResult path harvesterName asyncMeta).script.on path := rfl
    exact speaks_guarded env (speaks_asyncUpdate P env hon harvesterName asyncMeta)
  | sweepFile path => exact speaks_andThen (speaks_sweepFile P env) fun _ => speaks_pure ()
  | syncFile path stat => exact speaks_andThen (speaks_syncFile P env stat) fun _ => speaks_pure ()
  | rename d name newParent => exact speaks_andThen (speaks_rename d name newParent) fun _ => speaks_pure ()
  | external change => exact speaks_changeFiles change
  | handleFSEvent | deleteStaleFiles | setxattr | removeByBrowser => exact ho.elim

end Tilbo.Daemon.Speech
