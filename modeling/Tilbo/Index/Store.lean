import Tilbo.Index.Statements
import Tilbo.Lib.Txn
import Tilbo.Lib.Like
import Mathlib.Data.List.Sort

/-! # The operations of the index

The methods of `index.DB` that the daemon, the sync, the rules and the FUSE mount use, statement by
statement: a method is a program over the database (`Sql`), any of its statements may fail, and a
method that opens a transaction runs its statements `atomically`. Errors keep the format text and the
arguments of the `fmt.Errorf` they are wrapped in.

Each method has one specification (`wp_…`) that says what it changes whatever fails. Maps are lists of
their pairs, in the order in which the `range` loop happens to visit them. -/

namespace Tilbo.Index.Store

open Tilbo.Lib.Rows Tilbo.Lib.Txn Tilbo.Lib.Like Tilbo.Index.Schema Tilbo.Index.Statements
open Tilbo.Index.Schema.Tables Tilbo.Lib.Txn.Prog

/-- What the methods report. -/
inductive Error where
  /-- The driver failed (disk, lock, cancelled context). -/
  | driver
  /-- `sql.ErrNoRows`. -/
  | noRows
  /-- A row refers to a parent that is not there. -/
  | foreignKey
  /-- `fmt.Errorf` around another error. -/
  | wrapped (format : String) (args : List String) (cause : Error)
  /-- `fmt.Errorf` without a cause. -/
  | message (format : String) (args : List String)
deriving DecidableEq, Repr

/-- A program over the index database. -/
abbrev Sql (α : Type) : Type := Prog DB Error α

/-! ### Statements as programs -/

/-- A statement that only reads. -/
def query {α : Type} (f : Tables → α) : Sql α := stmt .driver fun db => .ok (f db.toTables, db)

/-- A query for one row. -/
def queryRow {α : Type} (f : Tables → Option α) : Sql α := stmt .driver fun db =>
  match f db.toTables with
  | some a => .ok (a, db)
  | none => .error .noRows

/-- A statement that always goes through. -/
def exec (f : Tables → Tables) (h : ∀ T, T.Valid → (f T).Valid) : Sql Unit :=
  stmt .driver fun db => .ok ((), ⟨f db.toTables, h _ db.valid⟩)

/-- A statement that may violate a foreign key. -/
def execFk (f : Tables → Option Tables)
    (h : ∀ T U, T.Valid → f T = some U → U.Valid) : Sql Unit :=
  stmt .driver fun db =>
    match hf : f db.toTables with
    | some U => .ok ((), ⟨U, h _ _ db.valid hf⟩)
    | none => .error .foreignKey

/-- `err = fmt.Errorf(format, args…, err)`. -/
def errorf {α : Type} (format : String) (args : List String) (m : Sql α) : Sql α :=
  wrap (Error.wrapped format args) m

/-- `d.db.BeginTx … tx.Commit()`. -/
def tx {α : Type} (m : Sql α) : Sql α := atomically .driver .driver m

/-! ### Queries -/

/-- `DB.GetFileIDByPath`. -/
def getFileIDByPath (path : String) : Sql ℕ :=
  errorf "index: get file id for %q: %w" [path] (queryRow fun T => T.fileId path)

/-- `SELECT t.name … WHERE ft.file_id = ? ORDER BY t.name`. -/
def fileTagsOrdered (T : Tables) (fileId : ℕ) : List String :=
  (T.fileTagNames fileId).insertionSort (· ≤ ·)

/-- `DB.GetFileTags`: no tags for a path that is not in the index. -/
def getFileTags (path : String) : Sql (List String) := do
  match ← attempt (queryRow fun T => T.fileId path) with
  | .ok fileId => errorf "index: get tags for %q: %w" [path] (query fun T => fileTagsOrdered T fileId)
  | .error .noRows => return []
  | .error e => fail (.wrapped "index: get file id for tags %q: %w" [path] e)

/-- The rows of `GetTagOverrides`: pairs of a tag name and a rule name. -/
def tagOverridePairs (T : Tables) (fileId : ℕ) : List (String × String) :=
  (T.tagOverrides.filter fun r => r.fileId = fileId).filterMap fun r =>
    (lookup TagRow.id T.tags r.tagId).map fun g => (g.name, r.ruleName)

/-- `DB.GetTagOverrides`; the map from a tag to its rules is read off the pairs. -/
def getTagOverrides (fileId : ℕ) : Sql (List (String × String)) :=
  errorf "index: get tag overrides for file %d: %w" [toString fileId] (query fun T => tagOverridePairs T fileId)

/-- `DB.ListFileTagPairs`. -/
def fileTagPairs (T : Tables) : List (String × String) :=
  T.fileTags.filterMap fun r =>
    (lookup FileRow.id T.files r.fileId).bind fun f =>
      (lookup TagRow.id T.tags r.tagId).map fun g => (f.path, g.name)

/-- `DB.GetFileStat`. -/
def getFileStat (path : String) : Sql (ℤ × ℤ) :=
  errorf "index: get file stat for %q: %w" [path]
    (queryRow fun T => (lookup FileRow.path T.files path).map fun f => (f.mtime, f.sizeBytes))

/-! ### Tags -/

/-- `resolveTagIDTx`. -/
def resolveTagIDTx (name op label : String) : Sql ℕ := do
  errorf "index: %s upsert %s %q: %w" [op, label, name] (exec (insertTag · name) fun _ h => Valid.insertTag h)
  errorf "index: %s resolve %s %q: %w" [op, label, name] (queryRow fun T => T.tagId name)

/-- `replaceFileTagsTx`. -/
def replaceFileTagsTx (fileId : ℕ) (tagNames : List String) (op : String) : Sql Unit := do
  errorf "index: %s clear tags file=%d: %w" [op, toString fileId]
    (exec (deleteFileTags · fun r => r.fileId = fileId) fun _ h => Valid.deleteFileTags h _)
  each (fun name => do
    let tagID ← resolveTagIDTx name op "tag"
    errorf "index: %s add tag %q: %w" [op, name]
      (execFk (insertFileTag · fileId tagID) fun _ _ h hU => Valid.insertFileTag h hU)) tagNames

/-- `DB.SetFileTags`. -/
def setFileTags (fileId : ℕ) (tagNames : List String) : Sql Unit :=
  tx (replaceFileTagsTx fileId tagNames "SetFileTags")

/-- `DB.UpsertTag`: one statement that inserts the name if need be and returns its id. -/
def upsertTag (name : String) : Sql ℕ :=
  errorf "index: upsert tag %q: %w" [name] <| stmt .driver fun db =>
    let db' : DB := ⟨insertTag db.toTables name, Valid.insertTag db.valid⟩
    match db'.tagId name with
    | some id => .ok (id, db')
    | none => .error .noRows

/-- `DB.AddFileTag`. -/
def addFileTag (fileId tagId : ℕ) : Sql Unit :=
  errorf "index: add file tag file=%d tag=%d: %w" [toString fileId, toString tagId]
    (execFk (insertFileTag · fileId tagId) fun _ _ h hU => Valid.insertFileTag h hU)

/-- `DB.RemoveFileTag`. -/
def removeFileTag (fileId tagId : ℕ) : Sql Unit :=
  errorf "index: remove file tag file=%d tag=%d: %w" [toString fileId, toString tagId]
    (exec (deleteFileTags · fun r => r.fileId = fileId && r.tagId = tagId)
      fun _ h => Valid.deleteFileTags h _)

/-- The loop body of `DB.ModifyFileTags` for `"add"`. -/
def modifyAdd (fileId : ℕ) (name : String) : Sql Unit := do
  let tagID ← upsertTag name
  addFileTag fileId tagID

/-- The loop body of `DB.ModifyFileTags` for `"remove"`: an unknown tag is skipped. -/
def modifyRemove (fileId : ℕ) (name : String) : Sql Unit := do
  match ← attempt (queryRow fun T => T.tagId name) with
  | .ok tagID => removeFileTag fileId tagID
  | .error .noRows => return ()
  | .error e => fail (.wrapped "index: resolve tag %q: %w" [name] e)

/-- `DB.ModifyFileTags`. -/
def modifyFileTags (path : String) (tags : List String) (op : String) : Sql Unit := do
  let fileID ← errorf "index: modify tags: file not in index %q: %w" [path] (getFileIDByPath path)
  if op = "add" then each (modifyAdd fileID) tags
  else if op = "remove" then each (modifyRemove fileID) tags
  else if op = "set" then setFileTags fileID tags
  else fail (.message "index: unknown tag operation %q" [op])

/-! ### Files -/

/-- `DB.DeleteFile`; errors of the first two statements are dropped. -/
def deleteFile (path : String) : Sql Unit := tx do
  match ← attempt (queryRow fun T => T.fileId path) with
  | .ok id =>
    let _ ← attempt (exec (deleteEmbeddings · fun r => r.fileId = id) fun _ h => Valid.deleteEmbeddings h _)
  | .error (_ : Error) => pure ()
  errorf "index: delete file %q: %w" [path]
    (exec (deleteFiles · fun f => f.path = path) fun _ h => Valid.deleteFiles h _)

/-- The file facts a scan reads off `stat`. -/
structure FileStat where
  inode : ℤ
  device : ℤ
  mtime : ℤ
  size : ℤ
deriving DecidableEq, Repr

/-- `upsertFileTx`. -/
def upsertFileTx (path : String) (st : FileStat) (now : ℤ) : Sql ℕ :=
  errorf "index: SyncFileApply upsert file %q: %w" [path] <| stmt .driver fun db =>
    let db' : DB := ⟨upsertFile db.toTables path st.inode st.device st.mtime st.size now,
      Valid.upsertFile db.valid _ _ _ _ _⟩
    match db'.fileId path with
    | some id => .ok (id, db')
    | none => .error .noRows

/-- `DB.UpsertFile`; the driver reports `lastInsertId`, which is not used if it is zero. -/
def upsertFileRow (path : String) (st : FileStat) (now : ℤ) (lastInsertId : Except Error ℕ) : Sql ℕ := do
  errorf "index: upsert file %q: %w" [path]
    (exec (upsertFile · path st.inode st.device st.mtime st.size now)
      fun _ h => Valid.upsertFile h _ _ _ _ _)
  match lastInsertId with
  | .ok (id + 1) => return id + 1
  | .ok 0 =>
    wrap (fun _ => Error.message "index: resolve file id for %q: %w" [path])
      (queryRow fun T => T.fileId path)
  | .error e =>
    wrap (fun _ => Error.wrapped "index: resolve file id for %q: %w" [path] e)
      (queryRow fun T => T.fileId path)

/-- `upsertMetadataTx`. -/
def upsertMetadataTx (fileId : ℕ) (metadata : List (String × String)) : Sql Unit :=
  each (fun kv => errorf "index: SyncFileApply upsert meta file=%d key=%q: %w" [toString fileId, kv.1]
    (execFk (upsertMeta · fileId kv.1 kv.2 "manual") fun _ _ h hU => Valid.upsertMeta h hU)) metadata

/-- `upsertTagProvenanceTx`. -/
def upsertTagProvenanceTx (fileId : ℕ) (sourceMap : List (String × String)) (now : ℤ) : Sql Unit :=
  each (fun ts => do
    let tagID ← resolveTagIDTx ts.1 "SyncFileApply" "source tag"
    errorf "index: SyncFileApply set tag provenance file=%d tag=%d: %w" [toString fileId, toString tagID]
      (execFk (setTagProvenance · fileId tagID ts.2 now) fun _ _ h hU => Valid.setTagProvenance h hU)) sourceMap

/-- `DB.SyncFileApply`. -/
def syncFileApply (path : String) (st : FileStat) (tagNames : List String)
    (metadata sourceMap : List (String × String)) (now : ℤ) : Sql ℕ := tx do
  let fileID ← upsertFileTx path st now
  replaceFileTagsTx fileID tagNames "SyncFileApply"
  upsertMetadataTx fileID metadata
  upsertTagProvenanceTx fileID sourceMap now
  return fileID

/-- The pattern `DB.DeleteStaleFiles` matches paths with. -/
def stalePrefix (basePath : String) : List Char :=
  basePath.toList ++ (if basePath.toList.getLast? = some '/' then ['%'] else ['/', '%'])

/-- Is the row stale: under the pattern, and not refreshed since? -/
def stale (basePath : String) (since : ℤ) (f : FileRow) : Bool :=
  like (stalePrefix basePath) f.path.toList && f.indexedAt < since

/-- `DB.DeleteStaleFiles`. -/
def deleteStaleFiles (basePath : String) (since : ℤ) : Sql Unit := tx do
  errorf "index: delete stale embeddings: %w" []
    (stmt .driver fun db => .ok ((),
      ⟨deleteEmbeddings db.toTables fun r => picks db.toTables (stale basePath since) r.fileId,
        Valid.deleteEmbeddings db.valid _⟩))
  errorf "index: delete stale files prefix %q since %d: %w" [basePath, toString since]
    (exec (deleteFiles · (stale basePath since)) fun _ h => Valid.deleteFiles h _)

/-- `DB.SetTagProvenance`. -/
def setProvenance (fileId tagId : ℕ) (source : String) (now : ℤ) : Sql Unit :=
  errorf "index: set tag provenance file=%d tag=%d: %w" [toString fileId, toString tagId]
    (execFk (setTagProvenance · fileId tagId source now) fun _ _ h hU => Valid.setTagProvenance h hU)

/-- `DB.UpsertMeta`. -/
def upsertFileMeta (fileId : ℕ) (key value source : String) : Sql Unit :=
  errorf "index: upsert meta file=%d key=%q: %w" [toString fileId, key]
    (execFk (upsertMeta · fileId key value source) fun _ _ h hU => Valid.upsertMeta h hU)

/-- `DB.DeleteMeta`. -/
def deleteFileMeta (path key : String) : Sql Unit := do
  let fileID ← errorf "index: get file for delete meta %q: %w" [path] (queryRow fun T => T.fileId path)
  errorf "index: delete meta %q key %q: %w" [path, key]
    (exec (deleteMetadata · fun r => r.fileId = fileID && r.key = key)
      fun _ h => Valid.deleteMetadata h _)

/-- The number of components of an embedding. -/
def EmbeddingDim : ℕ := 384

/-- `DB.UpsertEmbedding`. -/
def upsertEmbedding (fileId : ℕ) (vec : List UInt32) : Sql Unit :=
  if vec.length ≠ EmbeddingDim then
    fail (.message "index: embedding must have %d dimensions, got %d" [toString EmbeddingDim, toString vec.length])
  else tx do
    errorf "index: upsert embedding delete old file=%d: %w" [toString fileId]
      (exec (deleteEmbeddings · fun r => r.fileId = fileId) fun _ h => Valid.deleteEmbeddings h _)
    errorf "index: upsert embedding insert file=%d: %w" [toString fileId]
      (execFk (insertEmbedding · fileId vec) fun _ _ h hU => Valid.insertEmbedding h hU)

end Tilbo.Index.Store
