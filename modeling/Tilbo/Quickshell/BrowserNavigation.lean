import Tilbo.Lib.Pairs
import Mathlib.Algebra.Order.Group.Int
import Mathlib.Data.List.Sort

/-! # The navigation of the browser window

The state of a browser window, the requests that its functions send to the daemon, and what their callbacks do with
the answers. A function returns the new state and the calls it makes; a `Call` is a request together with the
variables that its callback closes over, and `Browser.answered` runs the callback.

`toLowerCase` is that of JavaScript's strings. -/

namespace Tilbo.Quickshell.BrowserNavigation

open Tilbo.Lib.Pairs

/-! ### Entries, and their order -/

/-- A file as the callbacks get it, with the properties that are read here. -/
structure Entry where
  path : String
  name : String
  isDir : Bool := false
  size : ℤ := 0
  mtime : ℤ := 0
  tags : List String := []
  deriving DecidableEq

/-- An entry of the trash. -/
structure TrashEntry where
  name : String
  originalPath : String
  deletionDate : ℤ
  sizeBytes : ℤ
  deriving DecidableEq

/-- What `_sortEntries` reads of an entry; `none` is `undefined`. -/
structure Row where
  isDir : Bool
  name : String
  size : Option ℤ
  mtime : Option ℤ
  tags : List String

def Entry.row (e : Entry) : Row := ⟨e.isDir, e.name, some e.size, some e.mtime, e.tags⟩

def TrashEntry.row (e : TrashEntry) : Row := ⟨false, e.name, none, none, []⟩

/-- The code units of a string. -/
def utf16 (s : String) : List ℕ :=
  s.toList.flatMap fun c =>
    if c.toNat < 0x10000 then [c.toNat]
    else [0xD800 + (c.toNat - 0x10000) / 0x400, 0xDC00 + (c.toNat - 0x10000) % 0x400]

/-- A value that `_sortEntries` compares. -/
inductive SortValue where
  | text (s : String)
  | number (n : Option ℤ)

/-- `valA < valB`; it is false if one of them is undefined. -/
def SortValue.lt : SortValue → SortValue → Bool
  | .text a, .text b => utf16 a < utf16 b
  | .number (some a), .number (some b) => a < b
  | _, _ => false

variable (toLowerCase : String → String)

/-- The value of a row in a column; any other column sorts by name. -/
def Row.value (col : String) (a : Row) : SortValue :=
  if col = "size" then .number a.size
  else if col = "mtime" then .number a.mtime
  else if col = "tags" then .text (",".intercalate a.tags)
  else .text (toLowerCase a.name)

/-- The comparison of `_sortEntries`. -/
def Row.compare (col : String) (asc : Bool) (a b : Row) : ℤ :=
  if a.isDir && !b.isDir then -1
  else if !a.isDir && b.isDir then 1
  else if (a.value toLowerCase col).lt (b.value toLowerCase col) then if asc then -1 else 1
  else if (b.value toLowerCase col).lt (a.value toLowerCase col) then if asc then 1 else -1
  else 0

/-- `_sortEntries`; the sort is stable. -/
def sortRows {α : Type} (row : α → Row) (col : String) (asc : Bool) (arr : List α) : List α :=
  arr.insertionSort fun a b => (row a).compare toLowerCase col asc (row b) ≤ 0

variable {toLowerCase} in
theorem sortRows_perm {α : Type} {row : α → Row} {col : String} {asc : Bool} {arr : List α} :
    (sortRows toLowerCase row col asc arr).Perm arr := List.perm_insertionSort _ _

/-! ### The history -/

/-- The visited paths and the one that is shown, `-1` before the first. -/
structure History where
  paths : List String := []
  index : ℤ := -1
  lower : -1 ≤ index := by decide
  upper : index < paths.length := by decide

namespace History

variable (h : History)

/-- `_history[_historyIndex]`. -/
def current : Option String := if 0 ≤ h.index then h.paths[h.index.toNat]? else none

/-- The paths behind the shown one are dropped, and a path is put after it. -/
def push (path : String) : History where
  paths := h.paths.take (h.index + 1).toNat ++ [path]
  index := (h.paths.take (h.index + 1).toNat ++ [path]).length - 1
  lower := by simp
  upper := by omega

/-- `_historyIndex--`, with the path it then shows. -/
def back (hback : 0 < h.index) : History × String :=
  (⟨h.paths, h.index - 1, by omega, by have := h.upper; omega⟩,
    h.paths.get ⟨(h.index - 1).toNat, by have := h.upper; omega⟩)

/-- `_historyIndex++`, with the path it then shows. -/
def forward (hforward : h.index < h.paths.length - 1) : History × String :=
  (⟨h.paths, h.index + 1, by have := h.lower; omega, by omega⟩,
    h.paths.get ⟨(h.index + 1).toNat, by have := h.lower; omega⟩)

end History

/-! ### Requests and answers -/

/-- A search request. -/
structure SearchRequest where
  tags : List String
  tagsAny : Bool := false
  tagExclude : List String := []
  metaFilters : List (String × String)
  ftsQuery : String
  limit : ℕ := 1000
  offset : ℕ := 0
  sortBy : List String := []
  deriving DecidableEq

/-- A request for a walk of the file system. -/
structure GlobRequest where
  patterns : List String
  limit : ℕ := 1000
  allowHidden : Bool
  deriving DecidableEq

/-- A call that waits for its answer: the request, and what its callback closes over. -/
inductive Call where
  | listDirectory (path : String) (hidden : Bool)
  | hydrateTags (paths : List String)
  | listTrash
  | search (request : SearchRequest) (globPats : List String) (allowHid : Bool)
  | globSearch (request : GlobRequest)
  deriving DecidableEq

/-- A response; what it does not carry is empty. -/
structure Reply where
  listDirectory : List Entry := []
  hydrateTags : List (String × List String) := []
  listTrash : List TrashEntry := []
  search : List Entry := []
  globSearch : List Entry := []

/-! ### The window -/

/-- The navigation state of a window. -/
structure Browser where
  currentPath : String := "/"
  showHidden : Bool := false
  isSearchMode : Bool := false
  searchChips : List String := []
  isTrashView : Bool := false
  history : History := {}
  sortColumn : String := "name"
  sortAscending : Bool := true
  dirEntries : List Entry := []
  searchResults : List Entry := []
  trashEntries : List TrashEntry := []

namespace Browser

variable (b : Browser)

/-- `_sortEntries` on files. -/
def sortEntries (arr : List Entry) : List Entry :=
  sortRows toLowerCase Entry.row b.sortColumn b.sortAscending arr

/-- `_sortEntries` on the trash. -/
def sortTrash (arr : List TrashEntry) : List TrashEntry :=
  sortRows toLowerCase TrashEntry.row b.sortColumn b.sortAscending arr

/-- `_loadDirectory`. -/
def loadDirectory (path : String) : Browser × List Call := (b, [.listDirectory path b.showHidden])

/-- `_loadTrash`. -/
def loadTrash : Browser × List Call := (b, [.listTrash])

/-- The view is a directory from now on. -/
def leave : Browser := { b with isSearchMode := false, isTrashView := false, searchChips := [] }

/-- `navigateTo`. -/
def navigateTo (path : String) : Browser × List Call :=
  if path = "" then (b, [])
  else
    let b := b.leave
    let history := if b.history.current = some path then b.history else b.history.push path
    loadDirectory { b with history := history, currentPath := path } path

/-- `goBack`. -/
def goBack : Browser × List Call :=
  if h : 0 < b.history.index then
    let (history, path) := b.history.back h
    loadDirectory { b.leave with history := history, currentPath := path } path
  else (b, [])

/-- `goForward`. -/
def goForward : Browser × List Call :=
  if h : b.history.index < b.history.paths.length - 1 then
    let (history, path) := b.history.forward h
    loadDirectory { b.leave with history := history, currentPath := path } path
  else (b, [])

/-- `navigateToTrash`. -/
def navigateToTrash : Browser × List Call :=
  loadTrash { b with isSearchMode := false, isTrashView := true, searchChips := [] }

end Browser

/-! ### Search chips -/

/-- What `_executeSearch` makes of the chips. -/
structure Chips where
  tagChips : List String := []
  globPats : List String := []
  ftsChips : List String := []
  metaFilters : List (String × String) := []
  allowHid : Bool

/-- `set[k] = v` for a string `v` on a new object: its prototype does not become a string. -/
def setProperty {α : Type} (set : List (String × α)) (k : String) (v : α) : List (String × α) :=
  if k = "__proto__" then set else put set k v

/-- The rest of a chip that starts with a text. -/
def after (start : String) (c : String) : Option (List Char) :=
  if start.toList <+: c.toList then some (c.toList.drop start.toList.length) else none

/-- One turn of the loop over the chips. -/
def Chips.read (s : Chips) (c : String) : Chips :=
  match after "glob:" c with
  | some pat => { s with globPats := s.globPats ++ [String.ofList pat] }
  | none =>
    if c = "hidden:any" then { s with allowHid := true }
    else
      match after "fts:" c with
      | some text => { s with ftsChips := s.ftsChips ++ [String.ofList text] }
      | none =>
        match after "meta:" c with
        | some text =>
          match text.splitOn '=' with
          | [key, value] =>
            { s with metaFilters := setProperty s.metaFilters (String.ofList key) (String.ofList value) }
          | _ => s
        | none => { s with tagChips := s.tagChips ++ [c] }

/-- The chips of a search in a window that shows hidden files or not. -/
def readChips (showHidden : Bool) (chips : List String) : Chips := chips.foldl Chips.read { allowHid := showHidden }

/-- The indexed search for the chips, if there is one. -/
def Chips.request (s : Chips) : Option SearchRequest :=
  if s.tagChips ≠ [] ∨ s.ftsChips ≠ [] ∨ s.metaFilters ≠ [] then
    some { tags := s.tagChips, metaFilters := s.metaFilters, ftsQuery := " ".intercalate s.ftsChips }
  else none

namespace Browser

variable (b : Browser)

/-- `_runGlobSearch`. -/
def runGlobSearch (patterns : List String) (allowHidden : Bool) : Browser × List Call :=
  (b, [.globSearch { patterns := patterns, allowHidden := allowHidden }])

/-- The glob search, or none. -/
def globOrNothing (globPats : List String) (allowHid : Bool) : Browser × List Call :=
  if globPats ≠ [] then b.runGlobSearch globPats allowHid else ({ b with searchResults := [] }, [])

/-- `_executeSearch`. -/
def runSearch (chips : List String) : Browser × List Call :=
  let s := readChips b.showHidden chips
  match s.request with
  | some request => (b, [.search request s.globPats s.allowHid])
  | none => b.globOrNothing s.globPats s.allowHid

/-- `executeSearch`. -/
def executeSearch (chips : List String) : Browser × List Call :=
  let b := { b with isSearchMode := chips.length > 0, searchChips := chips }
  if !b.isSearchMode then b.navigateTo b.currentPath else b.runSearch chips

/-- The refresh shortcut. -/
def refresh : Browser × List Call :=
  if b.isTrashView then b.loadTrash
  else if b.isSearchMode then b.runSearch b.searchChips
  else b.loadDirectory b.currentPath

/-! ### The callbacks -/

/-- An entry with the tags that the daemon has told for its path. -/
def hydrate (tagged : List (String × List String)) (e : Entry) : Entry :=
  { e with tags := ((putAll [] tagged).lookup e.path).getD [] }

/-- The callback of `listDirectory`. -/
def listed (answer : Except String Reply) : Browser × List Call :=
  match answer with
  | .error _ => ({ b with dirEntries := [] }, [])
  | .ok reply =>
    let entries := reply.listDirectory
    let b := { b with dirEntries := b.sortEntries toLowerCase entries }
    if entries = [] then (b, []) else (b, [.hydrateTags (entries.map Entry.path)])

/-- The callback of `hydrateTags`. -/
def hydrated (answer : Except String Reply) : Browser × List Call :=
  match answer with
  | .error _ => (b, [])
  | .ok reply => ({ b with dirEntries := b.dirEntries.map (hydrate reply.hydrateTags) }, [])

/-- The callback of `listTrash`. -/
def trashListed (answer : Except String Reply) : Browser × List Call :=
  match answer with
  | .error _ => ({ b with trashEntries := [] }, [])
  | .ok reply => ({ b with trashEntries := b.sortTrash toLowerCase reply.listTrash }, [])

/-- The callback of `search`. -/
def found (globPats : List String) (allowHid : Bool) (answer : Except String Reply) : Browser × List Call :=
  match answer with
  | .error _ => b.globOrNothing globPats allowHid
  | .ok reply =>
    if reply.search ≠ [] then ({ b with searchResults := b.sortEntries toLowerCase reply.search }, [])
    else b.globOrNothing globPats allowHid

/-- The callback of `globSearch`. -/
def globbed (answer : Except String Reply) : Browser × List Call :=
  match answer with
  | .error _ => ({ b with searchResults := [] }, [])
  | .ok reply => ({ b with searchResults := b.sortEntries toLowerCase reply.globSearch }, [])

/-- A call is answered. -/
def answered (call : Call) (answer : Except String Reply) : Browser × List Call :=
  match call with
  | .listDirectory _ _ => b.listed toLowerCase answer
  | .hydrateTags _ => b.hydrated answer
  | .listTrash => b.trashListed toLowerCase answer
  | .search _ globPats allowHid => b.found toLowerCase globPats allowHid answer
  | .globSearch _ => b.globbed toLowerCase answer

/-- All calls are answered, and those that their callbacks make: each is answered before the next. -/
inductive Settles (answer : Call → Except String Reply) : Browser → List Call → Browser → Prop
  | done {b : Browser} : Settles answer b [] b
  | answered {b b' : Browser} {call : Call} {calls : List Call}
      (rest : Settles answer (b.answered toLowerCase call (answer call)).1
        ((b.answered toLowerCase call (answer call)).2 ++ calls) b') :
      Settles answer b (call :: calls) b'

variable {toLowerCase} {answer : Call → Except String Reply} {b b' : Browser} {call : Call} {calls : List Call}

theorem settles_nil_iff : Settles toLowerCase answer b [] b' ↔ b' = b :=
  ⟨fun h => by cases h; rfl, fun h => h ▸ .done⟩

theorem settles_cons_iff : Settles toLowerCase answer b (call :: calls) b' ↔
    Settles toLowerCase answer (b.answered toLowerCase call (answer call)).1
      ((b.answered toLowerCase call (answer call)).2 ++ calls) b' :=
  ⟨fun h => by cases h; assumption, .answered⟩

/-! ### What a search asks for -/

variable {chips : List String} {request : SearchRequest}

theorem runSearch_some (h : (readChips b.showHidden chips).request = some request) : b.runSearch chips =
    (b, [.search request (readChips b.showHidden chips).globPats (readChips b.showHidden chips).allowHid]) := by
  rw [runSearch, h]

theorem runSearch_none (h : (readChips b.showHidden chips).request = none) : b.runSearch chips =
    b.globOrNothing (readChips b.showHidden chips).globPats (readChips b.showHidden chips).allowHid := by
  rw [runSearch, h]

end Browser

end Tilbo.Quickshell.BrowserNavigation
