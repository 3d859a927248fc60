import Tilbo.Daemon.Scripts

/-! # The operations of the daemon

Everything that changes the index, the tag attributes or the graph while the daemon runs, as one type,
and what other programs do to the files. Each operation keeps to a script (`keepsTo_run`). -/

namespace Tilbo.Daemon.Operations

open Tilbo.Daemon.State Tilbo.Daemon.Calls Tilbo.Daemon.Processor Tilbo.Daemon.Handlers
open Tilbo.Daemon.Scripts Tilbo.Rules.Sweep Tilbo.Sync.SyncFile Tilbo.Fuse.Server Tilbo.Xattr.Service
open Tilbo.Index.Schema Tilbo.Index.Store Tilbo.Rules.Engine Tilbo.Harvester.Meta Tilbo.Lib.Pairs
open Tilbo.Lib.Txn Tilbo.Lib.Process Tilbo.Lib.Process.Proc

variable {F : Type} {S : Script} (P : Platform F) (env : Env F)

/-! ### The operations -/

/-- What can be asked of the daemon, or happen to it. -/
inductive Operation (F : Type) where
  | handleTag (operation : TagOperation) (paths tags : List String)
  | handleFSEvent (ev : Event)
  | processFile (path : String)
  | handleAsyncResult (path harvesterName : String) (asyncMeta : List (String × MetaValue F))
  | sweepFile (path : String)
  | syncFile (path : String) (stat : FileStat)
  /-- The end of a scan. -/
  | deleteStaleFiles (basePath : String) (since : ℤ)
  | rename (d : TagDir) (name : String) (newParent : Option TagDir)
  | setxattr (realPath data : String) (flags : Flags)
  | removeByBrowser (change : FileChange) (path : String)
  /-- Another program changes the files. -/
  | external (change : FileChange)

/-- `DB.DeleteStaleFiles` as a recorded call; `Run` logs its error. -/
def purge (basePath : String) (since : ℤ) : Op F Unit :=
  orElse () (atom (.deleteStaleFiles basePath since) (onIndex (deleteStaleFiles basePath since)))

/-- The operation as a process; what it answers is left out. -/
def Operation.run : Operation F → Op F Unit
  | handleTag operation paths tags => do
    let _ ← Handlers.handleTag env operation paths tags
  | handleFSEvent ev => Handlers.handleFSEvent P env ev
  | processFile path => ProcessFile P env path
  | handleAsyncResult path harvesterName asyncMeta =>
    Processor.handleAsyncResult P env path harvesterName asyncMeta
  | sweepFile path => do
    let _ ← Rules.Sweep.sweepFile P env path
  | syncFile path stat => do
    let _ ← Sync.SyncFile.syncFile P env path stat
  | deleteStaleFiles basePath since => purge basePath since
  | rename d name newParent => do
    let _ ← Fuse.Server.rename d name newParent
  | setxattr realPath data flags => setxattrTags realPath data flags
  | removeByBrowser change path => Handlers.removeByBrowser change path
  | external change => changeFiles change

/-- The files it is about and who asks for it. -/
def Operation.script : Operation F → Script
  | handleTag operation paths tags => ⟨(· ∈ paths), .tag (opStr operation) tags⟩
  | handleFSEvent ev => ⟨fun p => p = ev.path ∨ p = ev.oldPath, .none⟩
  | processFile path | handleAsyncResult path _ _ | sweepFile path | syncFile path _ => ⟨(· = path), .none⟩
  | deleteStaleFiles _ _ => ⟨fun _ => False, .purge⟩
  | rename d name _ => ⟨fun p => d.cache.bind (· name) = some p, .retag⟩
  | setxattr realPath _ _ => ⟨(· = realPath), .retag⟩
  | removeByBrowser _ path => ⟨(· = path), .files⟩
  | external _ => ⟨fun _ => False, .files⟩

/-! ### Every operation keeps to its script -/

variable {path : String}

theorem keepsTo_handleTagPaths {op : String} {tags : List String} (hreq : S.request = .tag op tags)
    {paths : List String} (hon : ∀ p ∈ paths, S.on p) (r : TagResponse) :
    KeepsTo S (handleTagPaths env op tags paths r) := by
  induction paths generalizing r with
  | nil => exact (steady_pure r).keepsTo
  | cons p paths ih =>
    refine keepsTo_andThen (keepsTo_attempt fun ph _ => ?_) fun result =>
      ih (fun q hq => hon q (by simp [hq])) (r.record p result)
    exact (follows_handleTagPath env p (hon p (by simp)) hreq).mono fun _ _ h => h.1

theorem keepsTo_deleteFromIndex (hon : S.on path) : KeepsTo S (deleteFromIndex (F := F) path) :=
  keepsTo_orElse (keepsTo_recorded recorded_deleteFile (fun _ _ => hon) fun _ _ => rfl)

theorem keepsTo_syncAndProcess (hon : S.on path) (hreq : S.request = .none) :
    KeepsTo S (syncAndProcess P env path) := by
  refine keepsTo_andThen (steady_attempt (steady_call isQuiet_get)).keepsTo fun r => ?_
  cases r with
  | error e => exact (steady_pure ()).keepsTo
  | ok stat =>
    exact keepsTo_andThen (keepsTo_orElse (keepsTo_syncFile P env path hon hreq stat)) fun _ =>
      keepsTo_ProcessFile P env path hon hreq

theorem keepsTo_handleFSEvent (ev : Event) (hreq : S.request = .none) (hpath : S.on ev.path)
    (hold : S.on ev.oldPath) : KeepsTo S (handleFSEvent P env ev) := by
  unfold handleFSEvent
  cases ev.kind with
  | create | modify =>
    exact keepsTo_andThen (steady_call isQuiet_clearPathNonRetryable).keepsTo fun _ =>
      keepsTo_syncAndProcess P env hpath hreq
  | delete => exact keepsTo_deleteFromIndex hpath
  | rename =>
    exact keepsTo_andThen (keepsTo_deleteFromIndex hold) fun _ => keepsTo_syncAndProcess P env hpath hreq

/-- Retagging by one tag; the error is logged. -/
theorem keepsTo_retagOne {op tag : String} (hon : S.on path) (hreq : S.request = .retag) :
    KeepsTo S (orElse () (atom (.modifyFileTags path [tag] op) (onIndex (modifyFileTags path [tag] op))) :
      Op F Unit) := by
  refine fun ph _ => follows_orElse (follows_recorded recorded_modifyFileTags
    (fun _ => ⟨hon, Or.inl hreq⟩) fun _ p tags h => ?_)
  cases h

theorem keepsTo_retag (hon : S.on path) (hreq : S.request = .retag) (srcTags dstTags : List String) :
    KeepsTo S (retag (F := F) path srcTags dstTags) :=
  keepsTo_andThen (keepsTo_each (fun _ => keepsTo_retagOne hon hreq) srcTags) fun _ =>
    keepsTo_each (fun _ => keepsTo_retagOne hon hreq) dstTags

theorem keepsTo_rename (d : TagDir) (name : String) (newParent : Option TagDir) (hreq : S.request = .retag)
    (hon : ∀ p, d.cache.bind (· name) = some p → S.on p) :
    KeepsTo S (rename (F := F) d name newParent) := by
  unfold rename
  split
  · exact (steady_pure _).keepsTo
  · exact (steady_pure _).keepsTo
  · rename_i dest byName hcache
    split
    · exact (steady_pure _).keepsTo
    · rename_i realPath hname
      split_ifs
      · exact (steady_pure _).keepsTo
      · split
        · exact keepsTo_andThen (keepsTo_retag (hon _ (by simp [hcache, hname])) hreq _ _) fun _ =>
            (steady_pure _).keepsTo
        · exact (steady_pure _).keepsTo

theorem keepsTo_changeFiles (change : FileChange) (hreq : S.request = .files) :
    KeepsTo S (changeFiles (F := F) change) := by
  refine fun ph h c => ⟨⟨⟨rfl, rfl⟩, hreq⟩, ?_⟩
  dsimp only
  split_ifs <;> exact h

/-- **Every operation keeps to its script**, whatever the others do in between. -/
theorem keepsTo_run (o : Operation F) : KeepsTo o.script (o.run P env) := by
  cases o with
  | handleTag operation paths tags =>
    have hpure : ∀ r : Option TagResponse,
        KeepsTo (Operation.handleTag (F := F) operation paths tags).script (pure () : Op F Unit) :=
      fun _ => (steady_pure ()).keepsTo
    refine keepsTo_andThen ?_ hpure
    unfold handleTag
    split_ifs
    · exact (steady_pure _).keepsTo
    · exact keepsTo_andThen (keepsTo_handleTagPaths env rfl (fun _ h => h) {}) fun r =>
        (steady_pure (some r)).keepsTo
  | handleFSEvent ev => exact keepsTo_handleFSEvent P env ev rfl (Or.inl rfl) (Or.inr rfl)
  | processFile path => exact keepsTo_ProcessFile P env path rfl rfl
  | handleAsyncResult path harvesterName asyncMeta =>
    exact keepsTo_handleAsyncResult P env path rfl rfl harvesterName asyncMeta
  | sweepFile path =>
    exact keepsTo_andThen (keepsTo_sweepFile P env path rfl rfl) fun _ => (steady_pure ()).keepsTo
  | syncFile path stat =>
    exact keepsTo_andThen (keepsTo_syncFile P env path rfl rfl stat) fun _ => (steady_pure ()).keepsTo
  | deleteStaleFiles basePath since =>
    exact keepsTo_orElse (keepsTo_recorded recorded_deleteStaleFiles (fun _ _ => rfl) fun _ _ => rfl)
  | rename d name newParent =>
    exact keepsTo_andThen (keepsTo_rename d name newParent rfl fun _ h => h) fun _ =>
      (steady_pure ()).keepsTo
  | setxattr realPath data flags =>
    exact keepsTo_recorded recorded_setxattrTags (fun _ _ => ⟨rfl, rfl⟩) fun _ _ => rfl
  | removeByBrowser change path =>
    exact keepsTo_andThen (keepsTo_changeFiles change rfl) fun _ => keepsTo_deleteFromIndex rfl
  | external change => exact keepsTo_changeFiles change rfl

/-! ### The daemon at work -/

section Daemon
variable {ι : Type}

/-- One process for each operation. -/
def daemon (w : World) (ops : ι → Operation F) (envs : ι → Env F) : Pool ι World (Call F) OpError Unit where
  store := w
  proc i := (ops i).run P (envs i)

theorem follows_daemon {w : World} {ops : ι → Operation F} {envs : ι → Env F} (i : ι) :
    Follows (ops i).script.protocol ((daemon P w ops envs).proc i) (fun _ ph' => ph'.Settled) {} :=
  keepsTo_run P (envs i) (ops i) {} fun _ _ h => by cases h

end Daemon

/-! ### A daemon without harvesters -/

/-- A platform for files without metadata. -/
def plainPlatform : Platform Unit where
  ofInt _ := ()
  parseFloat _ := none
  toInt _ := none
  formatFloat _ := ""
  marshal _ := ""
  unmarshal _ := none

/-- No harvester, no embedder, and every file can be written. -/
def plainEnv (rules : List (Rule Unit)) : Env Unit where
  rules := rules
  order := .inserted
  pipeline _ := ([], none)
  embedText := none
  isNonRetryable _ := false
  writable := true
  now := 0

/-- The daemon after `graph.Load`. -/
def worldOf (db : DB) (files : List (String × File)) : World where
  db := db
  files p := files.lookup p
  graph := Graph.Edges.load Graph.Edges.new (fileTagPairs db.toTables)
  nonRetryablePaths _ := false
  fileTagged := []

/-- The next `n` calls of process `i`, without a fault. -/
def calls {ι : Type} (i : ι) (n : ℕ) : List (ι × List Bool) := List.replicate n (i, [])

end Tilbo.Daemon.Operations
