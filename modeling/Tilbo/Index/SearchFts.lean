import Tilbo.Index.Search

/-! # Full-text search

A full-text query joins each file with its matching metadata values, so a file comes once for each of
them. The results are files, and the total counts files, exactly as long as no file that meets the
other filters has two values that match. -/

namespace Tilbo.Index.SearchFts

open Tilbo.Lib.Rows Tilbo.Index.Schema Tilbo.Index.Search

variable {R : Type} [LinearOrder R] [Zero R] {q : Sqlite R} {p : SearchParams} {f : FileRow}

/-- Does the file have a matching metadata value? -/
def hasMatch (q : Sqlite R) (T : Tables) (query : String) (f : FileRow) : Bool :=
  T.metadata.any fun m => m.fileId = f.id &&
    T.metadataFts.any fun e => e.rowid = m.rowid && q.matches? query e

/-- The rows of a file. -/
def rowsOf (q : Sqlite R) (T : Tables) (p : SearchParams) (f : FileRow) : List FtsRow :=
  if wanted q T p f then ftsRows q T p.ftsQuery f else []

end Tilbo.Index.SearchFts
