import Tilbo.Sync.Rebuild

/-! # What one `SyncFile` comes to

Whatever fails on the way, `SyncFile` either makes the index entry of the file say what it read, or leaves the index
alone. Which of the two it is, and what it read, depends on the files and on the failures only, not on what the index
says (`syncedAs`). A read that fails may read as nothing: what the index is made to say is not always what the file
carries. -/

namespace Tilbo.Sync.Outcome

open Tilbo.Daemon.State Tilbo.Daemon.Calls Tilbo.Sync.SyncFile Tilbo.Sync.Rebuild Tilbo.Xattr.Service Tilbo.Xattr.Csv
open Tilbo.Index.Store Tilbo.Index.StoreSpec Tilbo.Index.StoreRuns Tilbo.Lib.Txn Tilbo.Lib.Txn.Prog
open Tilbo.Harvester.Meta Tilbo.Lib.Process Tilbo.Lib.Process.Proc

variable {F α β : Type} (P : Platform F)

/-- The reads of `SyncFile`. -/
def reads (path : String) : Act Attributes := do
  let tags ← errorf "read tags: %w" [] (readTags path)
  let md ← errorf "read meta: %w" [] (readAllMeta path)
  let source ← errorf "read source: %w" [] (readSource P path)
  return ⟨tags, md, source⟩

/-- The statements that find out whether the file should be harvested. -/
def harvestStatements (a : Attributes) : ℕ := if (a.metadata.lookup "mime").isNone then 0 else 1

/-- What the index entry is made to say, if it is changed. The flags say which calls fail. -/
def syncedAs (w : World) (path : String) (fs : List Bool) : Option Attributes :=
  match reads P path ⟨w, fs⟩ with
  | (.ok a, c) =>
    if true ∈ (c.faults.drop (harvestStatements a)).take (applyStatements a.tags a.metadata a.source) then none
    else some a
  | (.error _, _) => none

/-! ### Programs that look at the files -/

/-- The program changes nothing, and what it finds depends on the files. -/
def Looks (m : Act α) : Prop :=
  ∀ (w : World) (fs : List Bool), ∃ r fs', ∀ w' : World, w'.files = w.files → m ⟨w', fs⟩ = (r, ⟨w', fs'⟩)

section Looks
variable {m : Act α} {k : α → Act β}

theorem looks_pure (a : α) : Looks (pure a : Act α) := fun _ fs => ⟨.ok a, fs, fun _ _ => rfl⟩

theorem looks_fail (e : OpError) : Looks (Prog.fail e : Act α) := fun _ fs => ⟨.error e, fs, fun _ _ => rfl⟩

theorem looks_andThen (hm : Looks m) (hk : ∀ a, Looks (k a)) : Looks (m >>= k) := by
  intro w fs
  obtain ⟨r, fs', h⟩ := hm w fs
  cases r with
  | error e => exact ⟨.error e, fs', fun w' hw' => bind_error (h w' hw')⟩
  | ok a =>
    obtain ⟨r', fs'', h'⟩ := hk a w fs'
    exact ⟨r', fs'', fun w' hw' => (bind_ok (h w' hw')).trans (h' w' hw')⟩

theorem looks_attempt (hm : Looks m) : Looks (Prog.attempt m : Act (Except OpError α)) := by
  intro w fs
  obtain ⟨r, fs', h⟩ := hm w fs
  exact ⟨.ok r, fs', fun w' hw' => attempt_run (h w' hw')⟩

theorem looks_errorf (format : String) (args : List String) (hm : Looks m) : Looks (errorf format args m) := by
  intro w fs
  obtain ⟨r, fs', h⟩ := hm w fs
  exact ⟨r.mapError (OpError.wrapped format args), fs', fun w' hw' => wrap_run (h w' hw')⟩

theorem looks_each {f : β → Act Unit} (hf : ∀ b, Looks (f b)) : ∀ l : List β, Looks (Prog.each f l)
  | [] => looks_pure ()
  | b :: bs => looks_andThen (hf b) fun _ => looks_each hf bs

theorem looks_ctxErr : Looks ctxErr := by
  intro w fs
  cases h : fs.headD false with
  | true => exact ⟨_, fs.tail, fun w' _ => stmt_fault h⟩
  | false => exact ⟨_, fs.tail, fun w' _ => stmt_ok h rfl⟩

theorem looks_get (path : String) (f : File → Option α) : Looks (get path f) := by
  intro w fs
  cases h : fs.headD false with
  | true => exact ⟨_, fs.tail, fun w' _ => stmt_fault h⟩
  | false =>
    cases hf : (w.files path).bind f with
    | some a => exact ⟨.ok a, fs.tail, fun w' hw' => stmt_ok h (by simp only [hw', hf])⟩
    | none => exact ⟨.error .errno, fs.tail, fun w' hw' => stmt_error h (by simp only [hw', hf])⟩

theorem looks_readTags (path : String) : Looks (readTags path) := by
  refine looks_andThen looks_ctxErr fun _ => looks_andThen (looks_attempt (looks_get path _)) fun r => ?_
  cases r with
  | error e => exact looks_pure _
  | ok val =>
    dsimp only
    cases parseTags val with
    | ok tags => exact looks_pure _
    | error e => exact looks_fail _

theorem looks_readAllMeta (path : String) : Looks (readAllMeta path) := by
  refine looks_andThen looks_ctxErr fun _ => looks_andThen (looks_errorf _ _ (looks_get path _)) fun attrs => ?_
  refine looks_andThen (looks_each (fun kv => ?_) attrs) fun _ => looks_pure _
  exact looks_andThen (looks_errorf _ _ (looks_get path _)) fun _ => looks_pure _

theorem looks_readSource (path : String) : Looks (readSource P path) := by
  refine looks_andThen looks_ctxErr fun _ => looks_andThen (looks_attempt (looks_get path _)) fun r => ?_
  cases r with
  | error e => exact looks_pure _
  | ok val =>
    dsimp only
    split_ifs
    · exact looks_pure _
    · cases P.unmarshal val with
      | some m => exact looks_pure _
      | none => exact looks_fail _

theorem looks_reads (path : String) : Looks (reads P path) := by
  refine looks_andThen (looks_errorf _ _ (looks_readTags path)) fun tags => ?_
  refine looks_andThen (looks_errorf _ _ (looks_readAllMeta path)) fun md => ?_
  exact looks_andThen (looks_errorf _ _ (looks_readSource P path)) fun source => looks_pure _

end Looks

/-! ### `SyncFile` -/

section SyncFile
variable {P} {w w' : World} {path : String} {stat : FileStat} {fs : List Bool} {env : Env F} {a : Attributes}

/-- What is read does not depend on the index. -/
theorem syncedAs_congr (h : w'.files = w.files) : syncedAs P w' path fs = syncedAs P w path fs := by
  obtain ⟨r, fs', hreads⟩ := looks_reads P path w fs
  rw [syncedAs, syncedAs, hreads w' h, hreads w rfl]
  cases r <;> rfl

theorem getFileStat_run (w : World) (path : String) (fs : List Bool) :
    ∃ r, (onIndex (getFileStat path)) ⟨w, fs⟩ = (r, ⟨w, fs.drop 1⟩) := by
  rw [List.drop_one]
  have hquery : ∃ r, getFileStat path ⟨w.db, fs⟩ = (r, ⟨w.db, fs.tail⟩) := by
    cases h : fs.headD false with
    | true => exact ⟨_, wrap_run (stmt_fault h)⟩
    | false =>
      cases hf : (Lib.Rows.lookup Index.Schema.FileRow.path w.db.files path).map fun f => (f.mtime, f.sizeBytes) with
      | none => exact ⟨_, wrap_run (stmt_error (d := .noRows) h (by simp only [hf]))⟩
      | some a => exact ⟨_, wrap_run (stmt_ok (a := a) h (by simp only [hf]))⟩
  obtain ⟨r, hr⟩ := hquery
  exact ⟨_, wrap_run (zoom_run hr)⟩

theorem needsHarvest_run (w : World) (path : String) (stat : FileStat) (a : Attributes) (fs : List Bool) :
    ∃ b, run (needsHarvest (F := F) path a.metadata stat) ⟨w, fs⟩ = (.ok b, ⟨w, fs.drop (harvestStatements a)⟩) := by
  unfold needsHarvest harvestStatements
  split_ifs with hmime
  · exact ⟨true, rfl⟩
  · obtain ⟨r, hr⟩ := getFileStat_run w path fs
    rw [run_andThen, run_attempt]
    cases r with
    | error e => exact ⟨true, bind_ok (attempt_run hr)⟩
    | ok st => exact ⟨_, bind_ok (attempt_run hr)⟩

/-- `SyncFile` in one piece. -/
theorem syncFile_eq (env : Env F) (path : String) (stat : FileStat) : run (syncFile P env path stat) =
    reads P path >>= fun a => run (needsHarvest (F := F) path a.metadata stat) >>= fun harvest =>
      Daemon.State.errorf "apply file sync: %w" [] (onIndex (syncFileApply path stat a.tags a.metadata a.source env.now)) >>=
        fun _ => pure harvest := by
  simp only [syncFile, run_andThen, Daemon.State.call, run_atom, run_pure, reads, Lib.Txn.bind_assoc]
  rfl

theorem onIndex_eq {m : Sql α} {r : Except Error α} {c : Conn Index.Schema.DB} (h : m ⟨w.db, fs⟩ = (r, c)) :
    onIndex m ⟨w, fs⟩ = (r.mapError OpError.index, ⟨{ w with db := c.store }, c.faults⟩) :=
  wrap_run (zoom_run h)

/-- **What one `SyncFile` comes to**, whatever fails. -/
theorem syncFile_outcome (env : Env F) (w : World) (path : String) (stat : FileStat) (fs : List Bool) :
    match syncedAs P w path fs with
    | some a => ∃ b fs' i db, run (syncFile P env path stat) ⟨w, fs⟩ = (.ok b, ⟨{ w with db := db }, fs'⟩) ∧
        Applied path stat a.tags a.metadata a.source env.now i w.db db
    | none => ∃ e fs', run (syncFile P env path stat) ⟨w, fs⟩ = (.error e, ⟨w, fs'⟩) := by
  obtain ⟨r, fs', hreads⟩ := looks_reads P path w fs
  have hreads : reads P path ⟨w, fs⟩ = (r, ⟨w, fs'⟩) := hreads w rfl
  rw [syncFile_eq, syncedAs, hreads]
  cases r with
  | error e => exact ⟨e, fs', bind_error hreads⟩
  | ok a =>
    obtain ⟨b, hharvest⟩ := needsHarvest_run (F := F) w path stat a fs'
    have happly := spends_syncFileApply w.db path stat a.tags a.metadata a.source env.now (fs'.drop (harvestStatements a))
    dsimp only
    split_ifs with hfault
    · obtain ⟨e, c, hc⟩ := happly.1 hfault
      have hstore : c.store = w.db := wp_syncFileApply.error hc
      have hrun := wrap_run (f := OpError.wrapped "apply file sync: %w" []) (onIndex_eq hc)
      rw [hstore] at hrun
      exact ⟨_, c.faults, (bind_ok hreads).trans ((bind_ok hharvest).trans (bind_error hrun))⟩
    · obtain ⟨i, db, hdb, -⟩ := happly.2 hfault
      have hrun := wrap_run (f := OpError.wrapped "apply file sync: %w" []) (onIndex_eq hdb)
      exact ⟨b, _, i, db, (bind_ok hreads).trans ((bind_ok hharvest).trans (bind_ok hrun)), wp_syncFileApply.ok hdb⟩

/-- If nothing fails, the entry is made to say what the file carries. -/
theorem syncedAs_nil (w : World) (path : String) : syncedAs P w path [] = attributes P w path := by
  have htags := runs_readTags w path
  have hsource := runs_readSource P w path
  have hreads : ∀ {r}, Runs (reads P path) w r w → syncedAs P w path [] = r.toOption := by
    intro r hr
    rw [syncedAs, hr]
    cases r with
    | ok a => simp [Except.toOption]
    | error e => rfl
  unfold attributes
  cases ht : xattrTags w path with
  | error e =>
    rw [ht] at htags
    rw [hreads htags.wrap.andThen_error]
    cases w.files path <;> rfl
  | ok tags =>
    rw [ht] at htags
    cases hf : w.files path with
    | none =>
      obtain ⟨e, hmeta⟩ := runs_readAllMeta_none hf
      rw [hreads (htags.wrap.andThen hmeta.wrap.andThen_error)]
      rfl
    | some f =>
      cases hs : xattrSource P w path with
      | none =>
        rw [hs] at hsource
        rw [hreads (htags.wrap.andThen ((runs_readAllMeta hf).wrap.andThen hsource.wrap.andThen_error))]
        rfl
      | some source =>
        rw [hs] at hsource
        rw [hreads (htags.wrap.andThen ((runs_readAllMeta hf).wrap.andThen (hsource.wrap.andThen Runs.ret)))]
        rfl

end SyncFile

end Tilbo.Sync.Outcome
