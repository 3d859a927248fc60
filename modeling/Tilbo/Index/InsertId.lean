import Tilbo.Index.StoreRuns

/-! # The id of an upserted file

`UpsertFile` returns what the driver reports as the last insert id, unless that is zero. SQLite keeps it for the
connection: it is the id of the last row that was inserted, into whichever table, and an upsert that updates a row
leaves it alone. `returnsItsId_iff` says when it is the id of the file. -/

namespace Tilbo.Index.InsertId

open Tilbo.Lib.Rows Tilbo.Lib.Txn Tilbo.Index.Schema Tilbo.Index.Statements Tilbo.Index.Store
open Tilbo.Index.StoreSpec Tilbo.Index.StoreRuns Tilbo.Index.Schema.Tables

/-! ### The connection -/

/-- `sqlite3_last_insert_rowid`, after rows with these ids were inserted on the connection. -/
def lastInsertRowid (inserted : List ℕ) : ℕ := inserted.getLast?.getD 0

/-- The rows that `INSERT … ON CONFLICT(path) DO UPDATE` inserts. -/
def insertedBy (T : Tables) (path : String) : List ℕ :=
  if (T.fileId path).isSome then [] else [fresh FileRow.id T.files]

/-- `DB.UpsertFile` on a connection on which these rows were inserted before. -/
def upsertFile (inserted : List ℕ) (db : DB) (path : String) (st : FileStat) (now : ℤ) : Sql ℕ :=
  upsertFileRow path st now (.ok (lastInsertRowid (inserted ++ insertedBy db.toTables path)))

/-- The id that is returned is that of the row of the path, whatever fails; and one is returned if nothing fails. -/
def ReturnsItsId (inserted : List ℕ) (db : DB) (path : String) (st : FileStat) (now : ℤ) : Prop :=
  wp (upsertFile inserted db path st now) (fun id db' => db'.fileId path = some id) (fun _ _ => True) db ∧
    ∃ id db', Runs (upsertFile inserted db path st now) db (.ok id) db'

variable {inserted : List ℕ} {db : DB} {path : String} {st : FileStat} {now : ℤ} {id : ℕ}

/-! ### What is returned -/

/-- The database after the upsert. -/
def upserted (db : DB) (path : String) (st : FileStat) (now : ℤ) : DB :=
  ⟨Statements.upsertFile db.toTables path st.inode st.device st.mtime st.size now, Valid.upsertFile db.valid _ _ _ _ _⟩

theorem fileId_upserted : (upserted db path st now).fileId path = some (upsertId db.toTables path) :=
  fileId_upsertFile db.valid

/-- The id that is returned, if nothing fails: that of the last insert, or else the one that is looked up. -/
def returned (lastId id : ℕ) : ℕ := if lastId = 0 then id else lastId

theorem runs_upsertFileRow (lastId : ℕ) : Runs (upsertFileRow path st now (.ok lastId)) db
    (.ok (returned lastId (upsertId db.toTables path))) (upserted db path st now) := by
  refine (runs_errorf runs_exec).andThen ?_
  change Runs _ (upserted db path st now) _ _
  rcases lastId with _ | n
  · exact (runs_queryRow fileId_upserted).wrap
  · exact Runs.ret

/-- What is returned, whatever fails. -/
theorem wp_upsertFileRow (lastId : ℕ) : wp (upsertFileRow path st now (.ok lastId))
    (fun id db' => id = returned lastId (upsertId db.toTables path) ∧ db' = upserted db path st now)
    (fun _ _ => True) db := by
  refine wp_andThen (wp_errorf (wp_exec ?_ trivial))
  show wp _ _ _ (upserted db path st now)
  cases lastId with
  | zero =>
    refine wp_wrap (wp_queryRow (fun id hid => ⟨?_, rfl⟩) (fun _ => trivial) trivial)
    exact Option.some.inj (hid.symm.trans fileId_upserted)
  | succ n => exact wp_ret ⟨rfl, rfl⟩

/-- What SQLite reports after the upsert: the new id, or what it was. -/
theorem lastInsertRowid_upsert : lastInsertRowid (inserted ++ insertedBy db.toTables path) =
    if (db.fileId path).isSome then lastInsertRowid inserted else upsertId db.toTables path := by
  cases hid : db.fileId path with
  | none => simp [lastInsertRowid, insertedBy, upsertId, hid]
  | some i => simp [insertedBy, hid]

/-- The one id that `UpsertFile` can return is right. -/
theorem returnsItsId_iff_returned : ReturnsItsId inserted db path st now ↔
    returned (lastInsertRowid (inserted ++ insertedBy db.toTables path)) (upsertId db.toTables path) =
      upsertId db.toTables path := by
  have hruns := @runs_upsertFileRow db path st now (lastInsertRowid (inserted ++ insertedBy db.toTables path))
  have hwp := @wp_upsertFileRow db path st now (lastInsertRowid (inserted ++ insertedBy db.toTables path))
  constructor
  · intro h
    exact (Option.some.inj (fileId_upserted.symm.trans (h.1.ok hruns))).symm
  · intro h
    refine ⟨hwp.mono ?_ fun _ _ _ => trivial, _, _, hruns⟩
    rintro id db' ⟨rfl, rfl⟩
    rw [h, fileId_upserted]

/-- **`UpsertFile` returns the id of the file** if and only if the file is new, or nothing has been inserted on the
connection, or the last row that was inserted has the number of the file's. -/
theorem returnsItsId_iff (inserted : List ℕ) (db : DB) (path : String) (st : FileStat) (now : ℤ) :
    ReturnsItsId inserted db path st now ↔ db.fileId path = none ∨ lastInsertRowid inserted = 0 ∨
      db.fileId path = some (lastInsertRowid inserted) := by
  rw [returnsItsId_iff_returned, lastInsertRowid_upsert]
  cases hid : db.fileId path with
  | none => simp [returned]
  | some i =>
    have hupsert : upsertId db.toTables path = i := by rw [upsertId, hid, Option.getD_some]
    simp only [Option.isSome_some, if_true, hupsert, returned, Option.some.injEq, reduceCtorEq, false_or]
    split_ifs with hzero
    · exact iff_of_true rfl (Or.inl hzero)
    · exact ⟨fun h => Or.inr h.symm, fun h => (h.resolve_left hzero).symm⟩

/-! ### Two files, and the first again -/

def someStat : FileStat := ⟨1, 1, 1700000000, 1024⟩

/-- `/a` and then `/b` are new. -/
def twoFiles : DB := upserted (upserted DB.empty "/a" someStat 5) "/b" someStat 5

/-- The rows that this has inserted. -/
def twoInserted : List ℕ :=
  insertedBy DB.empty.toTables "/a" ++ insertedBy (upserted DB.empty "/a" someStat 5).toTables "/b"

theorem updated_gets_other : ¬ ReturnsItsId twoInserted twoFiles "/a" someStat 6 ∧
    twoFiles.fileId "/a" = some 1 ∧ Runs (upsertFile twoInserted twoFiles "/a" someStat 6) twoFiles (.ok 2)
      (upserted twoFiles "/a" someStat 6) := by
  have hid : twoFiles.fileId "/a" = some 1 := by decide
  refine ⟨fun h => ?_, hid, runs_upsertFileRow 2⟩
  exact absurd (returnsItsId_iff_returned.mp h) (by decide)

end Tilbo.Index.InsertId
