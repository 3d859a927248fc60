import Tilbo.Index.Statements
import Tilbo.Lib.Like
import Tilbo.Lib.Strings
import Mathlib

/-! # `DB.Search`

The query `Search` puts together, evaluated on the tables: the rows of its `FROM` clause (with a
full-text query one row per matching metadata value), the conditions of its `WHERE` clause in the order
in which they are written, the count of the rows, and the page that `ORDER BY`, `LIMIT` and `OFFSET`
select. The branch for a `VectorQuery` (`vectorSearch`) is not part of this file.

What SQLite itself decides is a parameter, `Sqlite`: which full-text entries `MATCH` a query and their
rank, the values of `CAST(… AS REAL)` and of numeric affinity, and the order in which rows that compare
equal come out. -/

namespace Tilbo.Index.Search

open Tilbo.Lib.Rows Tilbo.Lib.Like Tilbo.Lib.Strings Tilbo.Index.Schema Tilbo.Index.Statements
open Tilbo.Index.Schema.Tables

/-- A file search query. -/
structure SearchParams where
  tags : List String := []
  tagsAny : Bool := false
  tagExclude : List String := []
  metaFilters : StringMap := {}
  ftsQuery : String := ""
  mtimeSince : ℤ := 0
  untagged : Bool := false
  limit : ℕ := 0
  offset : ℕ := 0
  sortBy : List String := []

/-- A row of the query: a file, and `fts.rank`. -/
structure Row (R : Type) where
  file : FileRow
  rank : R

/-- The columns of `ORDER BY`. -/
inductive Column where
  | mtime
  | path
  | sizeBytes
  | rank
deriving DecidableEq, Repr

/-- A term of `ORDER BY`. -/
structure OrderTerm where
  col : Column
  desc : Bool
deriving DecidableEq, Repr

/-- The parts of SQLite a search depends on, over an ordered type of real values. -/
structure Sqlite (R : Type) where
  /-- `fts.value MATCH query`. -/
  matches? : String → FtsRow → Bool
  /-- `fts.rank`. -/
  rank : String → FtsRow → R
  /-- `CAST(value AS REAL)`. -/
  castReal : String → R
  /-- The number a text stands for where numeric affinity applies, if it looks like one. -/
  numeric : String → Option R
  /-- The empty text does not look like a number. -/
  numeric_empty : numeric "" = none
  /-- The order in which the rows of a query are visited. -/
  scan : SearchParams → List (Row R) → List (Row R)
  scan_perm : ∀ p l, (scan p l).Perm l

/-- An engine that finds no text, reads no numbers and visits rows as they are stored. -/
def Sqlite.plain : Sqlite ℤ where
  matches? _ _ := false
  rank _ _ := 0
  castReal _ := 0
  numeric _ := none
  numeric_empty := rfl
  scan _ l := l
  scan_perm _ _ := List.Perm.refl _

/-- One result. -/
structure SearchResult (R : Type) where
  path : String
  tags : List String
  metadata : List (String × String)
  mtime : ℤ
  sizeBytes : ℤ
  score : R

section Model
variable {R : Type} [LinearOrder R]

/-! ### The conditions -/

/-- `strings.ToUpper` on the letters of `ASC` and `DESC`: besides the small letters, only `ſ` becomes
one of them. -/
def upperChar (c : Char) : Char := if c = 'ſ' then 'S' else c.toUpper

/-- One sort specification such as `mtime:desc`; an unknown column is dropped. -/
def orderTerm (spec : String) : Option OrderTerm :=
  let (col, dir, _) := cut ':' spec
  let desc := dir.toList.map upperChar = ['D', 'E', 'S', 'C']
  if col = "mtime" then some ⟨.mtime, desc⟩
  else if col = "name" then some ⟨.path, desc⟩
  else if col = "size" then some ⟨.sizeBytes, desc⟩
  else none

/-- `buildOrderClauses`. -/
def buildOrderClauses (sortBy : List String) : List OrderTerm := sortBy.filterMap orderTerm

/-- The terms of `ORDER BY`. -/
def orderBy (p : SearchParams) : List OrderTerm :=
  if buildOrderClauses p.sortBy ≠ [] then buildOrderClauses p.sortBy
  else if p.ftsQuery ≠ "" then [⟨.rank, false⟩] else [⟨.mtime, true⟩]

/-- `AND f.id IN (SELECT …)` for `Tags`. -/
def tagInclude (T : Tables) (p : SearchParams) (f : FileRow) : Bool :=
  if p.tags = [] then true
  else if p.tagsAny then (T.fileTagNames f.id).any (· ∈ p.tags)
  else ((T.fileTagNames f.id).filter (· ∈ p.tags)).dedup.length = p.tags.length

/-- `AND NOT EXISTS (SELECT 1 …)` for `TagExclude`. -/
def tagExclude (T : Tables) (p : SearchParams) (f : FileRow) : Bool :=
  if p.tagExclude = [] then true else !(T.fileTagNames f.id).any (· ∈ p.tagExclude)

/-- `AND f.mtime >= ?`. -/
def mtimeSince (p : SearchParams) (f : FileRow) : Bool :=
  if p.mtimeSince > 0 then p.mtimeSince ≤ f.mtime else true

/-- `AND NOT EXISTS (SELECT 1 FROM file_tags …)` for `Untagged`. -/
def untagged (T : Tables) (p : SearchParams) (f : FileRow) : Bool :=
  if p.untagged then !T.fileTags.any (·.fileId = f.id) else true

/-- `AND f.path = ?` for the pseudo-filter `__path__`. -/
def pathFilter (p : SearchParams) (f : FileRow) : Bool :=
  match p.metaFilters.get? "__path__" with
  | some pf => f.path = (cut ':' pf).2.1
  | none => true

/-- The condition a filter puts on a metadata value, or nothing for an operator that is skipped. A text
bound with numeric affinity stays a text if it does not look like a number, and every number is less
than a text. -/
def valueCond (q : Sqlite R) (op val : String) : Option (String → Bool) :=
  if op = "eq" ∨ op = "" then some fun v => v = val
  else if op = "contains" then some fun v => like ('%' :: (val.toList ++ ['%'])) v.toList
  else if op = "gt" then some fun v => (q.numeric val).any fun b => b < q.castReal v
  else if op = "gte" then some fun v => (q.numeric val).any fun b => b ≤ q.castReal v
  else if op = "lt" then some fun v => (q.numeric val).all fun b => q.castReal v < b
  else if op = "lte" then some fun v => (q.numeric val).all fun b => q.castReal v ≤ b
  else none

/-- One iteration of `applyMetaFilters`. -/
def metaFilter (q : Sqlite R) (T : Tables) (kv : String × String) (f : FileRow) : Bool :=
  if kv.1 = "__path__" then true
  else match valueCond q (cut ':' kv.2).1 (cut ':' kv.2).2.1 with
    | some cond => T.metadata.any fun m => m.fileId = f.id && m.key = kv.1 && cond m.value
    | none => true

/-- `applyMetaFilters`. -/
def applyMetaFilters (q : Sqlite R) (T : Tables) (p : SearchParams) (f : FileRow) : Bool :=
  p.metaFilters.pairs.all fun kv => metaFilter q T kv f

/-- The `WHERE` clause, apart from `MATCH`. -/
def wanted (q : Sqlite R) (T : Tables) (p : SearchParams) (f : FileRow) : Bool :=
  tagInclude T p f && tagExclude T p f && mtimeSince p f && untagged T p f && pathFilter p f &&
    applyMetaFilters q T p f

/-! ### The order -/

/-- Does `a` come before `b` in the column? -/
def Column.less : Column → Row R → Row R → Bool
  | .mtime, a, b => a.file.mtime < b.file.mtime
  | .path, a, b => a.file.path < b.file.path
  | .sizeBytes, a, b => a.file.sizeBytes < b.file.sizeBytes
  | .rank, a, b => a.rank < b.rank

/-- Does `a` come before `b` by the term? -/
def OrderTerm.less (t : OrderTerm) (a b : Row R) : Bool :=
  if t.desc then t.col.less b a else t.col.less a b

/-- Is `a` before `b`, or level with it, by the terms in turn? -/
def upTo : List OrderTerm → Row R → Row R → Prop
  | [], _, _ => True
  | t :: ts, a, b => t.less a b = true ∨ t.less b a = false ∧ upTo ts a b

instance decidableUpTo : ∀ (ts : List OrderTerm) (a b : Row R), Decidable (upTo ts a b)
  | [], _, _ => isTrue trivial
  | _ :: ts, a, b =>
    have := decidableUpTo ts a b
    inferInstanceAs (Decidable (_ ∨ _ ∧ _))

theorem less_iff_lt (t : OrderTerm) : ∃ (κ : Type) (_ : LinearOrder κ) (key : Row R → κ),
    ∀ a b, t.less a b = true ↔ key a < key b := by
  obtain ⟨col, desc⟩ := t
  cases desc <;> cases col
  · exact ⟨ℤ, inferInstance, fun r => r.file.mtime, by simp [OrderTerm.less, Column.less]⟩
  · exact ⟨String, inferInstance, fun r => r.file.path, by simp [OrderTerm.less, Column.less]⟩
  · exact ⟨ℤ, inferInstance, fun r => r.file.sizeBytes, by simp [OrderTerm.less, Column.less]⟩
  · exact ⟨R, inferInstance, fun r => r.rank, by simp [OrderTerm.less, Column.less]⟩
  · exact ⟨ℤᵒᵈ, inferInstance, fun r => OrderDual.toDual r.file.mtime,
      by simp [OrderTerm.less, Column.less]⟩
  · exact ⟨Stringᵒᵈ, inferInstance, fun r => OrderDual.toDual r.file.path,
      by simp [OrderTerm.less, Column.less]⟩
  · exact ⟨ℤᵒᵈ, inferInstance, fun r => OrderDual.toDual r.file.sizeBytes,
      by simp [OrderTerm.less, Column.less]⟩
  · exact ⟨Rᵒᵈ, inferInstance, fun r => OrderDual.toDual r.rank,
      by simp [OrderTerm.less, Column.less]⟩

theorem upTo_total : ∀ (ts : List OrderTerm) (a b : Row R), upTo ts a b ∨ upTo ts b a
  | [], _, _ => Or.inl trivial
  | t :: ts, a, b => by
    obtain ⟨κ, _, key, hkey⟩ := less_iff_lt (R := R) t
    simp only [upTo, ← Bool.not_eq_true, hkey, not_lt]
    rcases lt_trichotomy (key a) (key b) with h | h | h
    · exact Or.inl (Or.inl h)
    · exact (upTo_total ts a b).imp (fun hu => Or.inr ⟨h.le, hu⟩) fun hu => Or.inr ⟨h.ge, hu⟩
    · exact Or.inr (Or.inl h)

theorem upTo_trans : ∀ (ts : List OrderTerm) {a b c : Row R}, upTo ts a b → upTo ts b c → upTo ts a c
  | [], _, _, _, _, _ => trivial
  | t :: ts, a, b, c, hab, hbc => by
    obtain ⟨κ, _, key, hkey⟩ := less_iff_lt (R := R) t
    simp only [upTo, ← Bool.not_eq_true, hkey, not_lt] at hab hbc ⊢
    rcases hab with hab | ⟨hab, hu⟩ <;> rcases hbc with hbc | ⟨hbc, hu'⟩
    · exact Or.inl (hab.trans hbc)
    · exact Or.inl (hab.trans_le hbc)
    · exact Or.inl (hab.trans_lt hbc)
    · exact Or.inr ⟨hab.trans hbc, upTo_trans ts hu hu'⟩

instance (ts : List OrderTerm) : Std.Total (upTo (R := R) ts) := ⟨upTo_total ts⟩

instance (ts : List OrderTerm) : IsTrans (Row R) (upTo ts) := ⟨fun _ _ _ => upTo_trans ts⟩

variable [Zero R]

/-! ### The rows -/

/-- The full-text entries of a file that match: `JOIN metadata m … JOIN metadata_fts fts … MATCH ?`. -/
def ftsRows (q : Sqlite R) (T : Tables) (query : String) (f : FileRow) : List FtsRow :=
  (T.metadata.filter fun m => m.fileId = f.id).flatMap fun m =>
    T.metadataFts.filter fun e => e.rowid = m.rowid && q.matches? query e

/-- The rows of the `FROM` clause. -/
def fromRows (q : Sqlite R) (T : Tables) (p : SearchParams) : List (Row R) :=
  if p.ftsQuery ≠ "" then
    T.files.flatMap fun f => (ftsRows q T p.ftsQuery f).map fun e => ⟨f, q.rank p.ftsQuery e⟩
  else T.files.map fun f => ⟨f, 0⟩

/-- The rows of the query. -/
def rows (q : Sqlite R) (T : Tables) (p : SearchParams) : List (Row R) :=
  (fromRows q T p).filter fun r => wanted q T p r.file

/-- The rows in the order of the query. -/
def ordered (q : Sqlite R) (T : Tables) (p : SearchParams) : List (Row R) :=
  (q.scan p (rows q T p)).insertionSort (upTo (orderBy p))

/-- `LIMIT ? OFFSET ?`; no limit means 50. -/
def page {α : Type} (limit offset : ℕ) (l : List α) : List α :=
  (l.drop offset).take (if limit = 0 then 50 else limit)

/-- A row with the tags and the metadata of its file. -/
def enrich (T : Tables) (r : Row R) : SearchResult R where
  path := r.file.path
  tags := T.fileTagNames r.file.id
  metadata := (T.metadata.filter fun m => m.fileId = r.file.id).map fun m => (m.key, m.value)
  mtime := r.file.mtime
  sizeBytes := r.file.sizeBytes
  score := r.rank

/-- `DB.Search`: the results and the total. -/
def search (q : Sqlite R) (T : Tables) (p : SearchParams) : List (SearchResult R) × ℕ :=
  ((page p.limit p.offset (ordered q T p)).map (enrich T), (rows q T p).length)

/-! ### What the result list is made of -/

variable {q : Sqlite R} {T : Tables} {p : SearchParams}

theorem ordered_perm : (ordered q T p).Perm (rows q T p) :=
  (List.perm_insertionSort _ _).trans (q.scan_perm p _)

/-- Without a full-text query there is one row per file. -/
theorem rows_files (h : p.ftsQuery = "") :
    (rows q T p).map (·.file) = T.files.filter (wanted q T p) := by
  simp only [rows, fromRows, h, ne_eq, not_true, if_false, List.filter_map, List.map_map]
  exact List.map_id'' (fun _ => rfl) _

end Model

end Tilbo.Index.Search
