import Tilbo.Fuse.Listing
import Tilbo.Index.SearchTags

/-! # Browsing by tags

`BrowseDir` lists the tags that occur together with those of the directory, and the directory of each has
`BrowseFilesDir` below it, which runs a search. The two queries are written separately: both count the
distinct tags of a file among those asked for and compare the count with the length of the list, so a
repeated tag makes both empty. -/

namespace Tilbo.Fuse.Browse

open Tilbo.Fuse.Grammar Tilbo.Fuse.Listing Tilbo.Index.Schema Tilbo.Index.Search Tilbo.Index.SearchTags
open Tilbo.Index.Schema.Tables

section Browse
variable {R : Type} [LinearOrder R] [Zero R]

variable {q : Sqlite R} {inc exc : List String} {t : String} {f : FileRow}

/-! ### The query for the tags -/

end Browse

end Tilbo.Fuse.Browse
