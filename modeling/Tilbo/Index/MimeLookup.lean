import Tilbo.Index.Entries
import Tilbo.Index.RowSpec

/-! # The MIME type of a path

The harvested MIME type is written to the table `metadata` under the key `mime`. `GetFileMime` looks for the key
`mime.type` in a table `file_meta`, which no migration creates, and the browser handlers drop its error: they see a MIME
type just if there is none (`mime_agrees_iff`). -/

namespace Tilbo.Index.MimeLookup

open Tilbo.Lib.Rows Tilbo.Lib.Txn Tilbo.Lib.Txn.Prog Tilbo.Index.Schema Tilbo.Index.Schema.Tables Tilbo.Index.Store
open Tilbo.Index.StoreSpec Tilbo.Index.StoreRuns Tilbo.Index.Entries Tilbo.Index.RowSpec

/-! ### The code -/

/-- The tables that the migrations create. -/
def migrated : List String :=
  ["schema_migrations", "files", "tags", "file_tags", "metadata", "tag_provenance", "tag_overrides", "metadata_fts",
    "sidecar_data", "file_embeddings"]

/-- The rows of a table that has the columns `file_id`, `key` and `value`. -/
def rowsOf (T : Tables) (table : String) : Option (List MetadataRow) :=
  if table ∈ migrated ∧ table = "metadata" then some T.metadata else none

/-- `SELECT fm.value FROM table fm JOIN files f ON f.id = fm.file_id WHERE f.path = ? AND fm.key = key LIMIT 1`; a table
or a column that is not there is an error of the driver. -/
def selectValue (table key path : String) : Sql String := stmt .driver fun db =>
  match rowsOf db.toTables table with
  | none => .error .driver
  | some rows =>
    match rows.find? fun r => r.key = key ∧ db.fileId path = some r.fileId with
    | some r => .ok (r.value, db)
    | none => .error .noRows

/-- `DB.GetFileMime`. -/
def getFileMime (path : String) : Sql String := do
  match ← attempt (selectValue "file_meta" "mime.type" path) with
  | .ok mime => return mime
  | .error .noRows => return ""
  | .error e => fail (.wrapped "index: get mime for %q: %w" [path] e)

/-- `mime, _ := GetFileMime(…)`: the callers drop the error. -/
def mimeOf (db : DB) (path : String) : String := ((getFileMime path ⟨db, []⟩).1.toOption).getD ""

/-- The key of `MIMEHarvester`. -/
def mimeKey : String := "mime"

/-! ### What was persisted -/

/-- A write to the index: of the sync, or of one value by the processor. -/
inductive Write where
  | sync (path : String) (st : FileStat) (tagNames : List String) (metadata sources : List (String × String)) (now : ℤ)
  | persist (path key value source : String)

def Write.run : Write → Sql Unit
  | .sync path st tagNames metadata sources now => do let _ ← syncFileApply path st tagNames metadata sources now
  | .persist path key value source => do
    let fileID ← getFileIDByPath path
    upsertFileMeta fileID key value source

/-- The MIME type that the write has for the path. -/
def Write.mime (path : String) : Write → Option String
  | .sync p _ _ metadata _ _ => if p = path then lastValue metadata mimeKey else none
  | .persist p key value _ => if p = path ∧ key = mimeKey then some value else none

/-- One write, with the faults of its statements: the index, and the MIME type persisted last. -/
def step (path : String) (s : DB × Option String) (w : Write × List Bool) : DB × Option String :=
  let r := w.1.run ⟨s.1, w.2⟩
  (r.2.store, if r.1.isOk then (w.1.mime path).or s.2 else s.2)

/-- After the writes, from the migrated schema. -/
def after (path : String) (writes : List (Write × List Bool)) : DB × Option String :=
  writes.foldl (step path) (DB.empty, none)

/-- The callers see the MIME type persisted last, and none only if none was persisted. -/
def Agrees (mime : String) (last : Option String) : Prop := (∀ v, last = some v → mime = v) ∧ (mime = "" → last = none)

variable {db : DB} {path : String}

/-! ### What the index has -/

/-- A write goes through or leaves the index as it is, for the MIME type of the path. -/
theorem wp_write (w : Write) {x : Option String} (h : MetaIs db path mimeKey x) :
    wp w.run (fun _ db' => MetaIs db' path mimeKey ((w.mime path).or x))
      (fun _ db' => MetaIs db' path mimeKey x) db := by
  cases w with
  | sync p st tagNames metadata sources now =>
    refine wp_andThen (wp_syncFileApply.mono (fun i db' happ => wp_ret ?_) fun _ _ hsame => hsame ▸ h)
    intro v
    by_cases hp : p = path
    · subst hp
      rw [metaAt_applied happ, overlay, Write.mime, if_pos rfl]
      cases lastValue metadata mimeKey with
      | none => exact h v
      | some u => exact eq_comm.trans (Option.some_inj.symm.trans Iff.rfl)
    · rw [Write.mime, if_neg hp, Option.none_or, (sameEntry_applied happ (Ne.symm hp)).value]
      exact h v
  | persist p key value source =>
    refine wp_andThen (wp_errorf (wp_queryRow (fun i hi => ?_) (fun _ => h) h))
    refine wp_upsertFileMeta_rows.mono (fun _ db' hw v => ?_) fun _ _ hsame => hsame ▸ h
    have hid : db'.fileId path = db.fileId path := by simp only [fileId, hw.files]
    have hold : MetaAt db' path mimeKey v ↔ ∃ j, db.fileId path = some j ∧
        if j = i ∧ mimeKey = key then some value = some v else db.HasMeta j mimeKey v := by
      simp only [MetaAt, hid, hw.hasMeta]
    rw [hold, Write.mime]
    by_cases hpk : p = path ∧ key = mimeKey
    · obtain ⟨rfl, rfl⟩ := hpk
      rw [if_pos ⟨rfl, rfl⟩, Option.some_or]
      refine ⟨fun hrow => ?_, fun hv => ⟨i, hi, by rwa [if_pos ⟨rfl, rfl⟩]⟩⟩
      obtain ⟨j, hj, hv⟩ := hrow
      obtain rfl : i = j := Option.some.inj (hi.symm.trans hj)
      rwa [if_pos ⟨rfl, rfl⟩] at hv
    · rw [if_neg hpk, Option.none_or, ← h v]
      refine exists_congr fun j => and_congr_right fun hj => ?_
      rw [if_neg fun hji : j = i ∧ mimeKey = key => hpk ⟨fileId_inj hi (hji.1 ▸ hj), hji.2.symm⟩]

/-- **The index has the MIME type that was persisted last.** -/
theorem after_metaIs (path : String) (writes : List (Write × List Bool)) :
    MetaIs (after path writes).1 path mimeKey (after path writes).2 := by
  induction writes using List.reverseRecOn with
  | nil => exact fun v => iff_of_false (not_metaAt rfl) fun h => by cases h
  | append_singleton writes w ih =>
    have hwrite := wp_write w.1 ih w.2
    rw [after, List.foldl_append]
    show MetaIs (step path (after path writes) w).1 path mimeKey (step path (after path writes) w).2
    unfold step
    dsimp only
    rcases hrun : w.1.run ⟨(after path writes).1, w.2⟩ with ⟨r, c⟩
    rw [hrun] at hwrite
    cases r with
    | error e => exact hwrite
    | ok u => exact hwrite

/-! ### What the callers see -/

theorem runs_selectValue_missing {table key : String} (h : rowsOf db.toTables table = none) :
    Runs (selectValue table key path) db (.error .driver) db := Runs.stmt_error (by simp only [h])

theorem mimeOf_eq (db : DB) (path : String) : mimeOf db path = "" := by
  have hmissing : Runs (selectValue "file_meta" "mime.type" path) db (.error .driver) db :=
    runs_selectValue_missing (if_neg (by decide))
  have hrun : Runs (getFileMime path) db (.error (.wrapped "index: get mime for %q: %w" [path] .driver)) db :=
    hmissing.attempt.andThen Runs.fail
  rw [mimeOf, hrun]
  rfl

/-- **When the MIME lookup agrees with what was persisted.** For every run of writes: just if no MIME type was persisted
for the path. -/
theorem mime_agrees_iff (path : String) (writes : List (Write × List Bool)) :
    Agrees (mimeOf (after path writes).1 path) (after path writes).2 ↔ (after path writes).2 = none := by
  rw [mimeOf_eq]
  constructor
  · exact fun h => h.2 rfl
  · exact fun h => ⟨fun v hv => (by rw [h] at hv; cases hv), fun _ => h⟩

/-- The same query for the key `mime` of the table `metadata` finds what was persisted last. -/
theorem selectValue_finds (path : String) (writes : List (Write × List Bool)) :
    Runs (selectValue "metadata" mimeKey path) (after path writes).1
      ((after path writes).2.elim (.error .noRows) .ok) (after path writes).1 := by
  have hmeta := after_metaIs path writes
  generalize (after path writes).1 = db at hmeta ⊢
  generalize (after path writes).2 = last at hmeta ⊢
  have hrows : rowsOf db.toTables "metadata" = some db.metadata := if_pos (by decide)
  cases hfind : db.metadata.find? fun r => r.key = mimeKey ∧ db.fileId path = some r.fileId with
  | some r =>
    have hr : r.key = mimeKey ∧ db.fileId path = some r.fileId := by simpa using List.find?_some hfind
    have hlast : last = some r.value :=
      (hmeta r.value).mp ⟨r.fileId, hr.2, r, List.mem_of_find?_eq_some hfind, rfl, hr.1, rfl⟩
    rw [hlast]
    exact Runs.stmt (by simp only [hrows, hfind])
  | none =>
    have hlast : last = none := by
      cases last with
      | none => rfl
      | some v =>
        obtain ⟨i, hi, r, hr, hri, hrk, -⟩ := (hmeta v).mpr rfl
        have hno := List.find?_eq_none.mp hfind r hr
        exact absurd (decide_eq_true ⟨hrk, hi.trans (congrArg some hri.symm)⟩) hno
    rw [hlast]
    exact Runs.stmt_error (by simp only [hrows, hfind])

/-! ### An image -/

/-- A file is synced, and harvested. -/
def imageWrites : List (Write × List Bool) :=
  [(.sync "/a.png" ⟨1, 1, 0, 0⟩ [] [] [] 0, []), (.persist "/a.png" "mime" "image/png" "harvester", [])]

theorem image_has_no_mime : (after "/a.png" imageWrites).2 = some "image/png" ∧
    ¬ Agrees (mimeOf (after "/a.png" imageWrites).1 "/a.png") (after "/a.png" imageWrites).2 := by
  have hlast : (after "/a.png" imageWrites).2 = some "image/png" := by decide
  refine ⟨hlast, fun h => ?_⟩
  rw [mimeOf_eq, hlast] at h
  cases h.2 rfl

end Tilbo.Index.MimeLookup
