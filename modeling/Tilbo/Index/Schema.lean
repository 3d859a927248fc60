import Tilbo.Lib.Rows
import Mathlib.Data.Int.Notation
import Mathlib.Tactic.Common

/-! # The tables of the index

The schema of `migrations/*.sql`: one row type a table, with the columns the code writes
(`files.content_hash` never is). `Tables.Valid` collects what SQLite enforces with foreign keys on:
the `PRIMARY KEY` and `UNIQUE` constraints and the references of the child tables. A `DB` is a set of
tables together with that, so a statement about every database needs no hypothesis about it.

Row ids are natural numbers. `file_embeddings` is a `vec0` table and has no foreign key. -/

namespace Tilbo.Index.Schema

open Tilbo.Lib.Rows

/-- `files`: one row per indexed file. -/
structure FileRow where
  id : ℕ
  path : String
  inode : ℤ
  device : ℤ
  mtime : ℤ
  sizeBytes : ℤ
  indexedAt : ℤ
deriving DecidableEq, Repr

/-- `tags`: the tag names, with the counter the triggers keep. -/
structure TagRow where
  id : ℕ
  name : String
  cardinality : ℤ
deriving DecidableEq, Repr

/-- `file_tags`: which file has which tag. -/
structure FileTagRow where
  fileId : ℕ
  tagId : ℕ
deriving DecidableEq, Repr

/-- `metadata`: key and value pairs of a file. -/
structure MetadataRow where
  rowid : ℕ
  fileId : ℕ
  key : String
  value : String
  source : String
deriving DecidableEq, Repr

/-- An entry of the full-text index `metadata_fts`. -/
structure FtsRow where
  rowid : ℕ
  value : String
deriving DecidableEq, Repr

/-- `tag_provenance`: who applied a tag, and when. -/
structure ProvenanceRow where
  fileId : ℕ
  tagId : ℕ
  source : String
  setAt : ℤ
deriving DecidableEq, Repr

/-- `tag_overrides`: a tag that a rule must not apply to a file. -/
structure OverrideRow where
  fileId : ℕ
  tagId : ℕ
  ruleName : String
  suppressedAt : ℤ
deriving DecidableEq, Repr

/-- `file_embeddings`: the vector of a file, as the bits of its components. -/
structure EmbeddingRow where
  fileId : ℕ
  embedding : List UInt32
deriving DecidableEq, Repr

/-- The migrated schema. -/
structure Tables where
  files : List FileRow := []
  tags : List TagRow := []
  fileTags : List FileTagRow := []
  metadata : List MetadataRow := []
  metadataFts : List FtsRow := []
  tagProvenance : List ProvenanceRow := []
  tagOverrides : List OverrideRow := []
  fileEmbeddings : List EmbeddingRow := []
deriving DecidableEq, Repr

/-- The constraints of the schema. -/
structure Tables.Valid (T : Tables) : Prop where
  filesId : UniqueKey FileRow.id T.files
  filesPath : UniqueKey FileRow.path T.files
  tagsId : UniqueKey TagRow.id T.tags
  tagsName : UniqueKey TagRow.name T.tags
  fileTagsKey : UniqueKey (fun r : FileTagRow => (r.fileId, r.tagId)) T.fileTags
  fileTagsFile : Refs FileTagRow.fileId T.fileTags FileRow.id T.files
  fileTagsTag : Refs FileTagRow.tagId T.fileTags TagRow.id T.tags
  metaRowid : UniqueKey MetadataRow.rowid T.metadata
  metaKey : UniqueKey (fun r : MetadataRow => (r.fileId, r.key)) T.metadata
  metaFile : Refs MetadataRow.fileId T.metadata FileRow.id T.files
  ftsRowid : UniqueKey FtsRow.rowid T.metadataFts
  provKey : UniqueKey (fun r : ProvenanceRow => (r.fileId, r.tagId)) T.tagProvenance
  provFile : Refs ProvenanceRow.fileId T.tagProvenance FileRow.id T.files
  provTag : Refs ProvenanceRow.tagId T.tagProvenance TagRow.id T.tags
  overKey : UniqueKey (fun r : OverrideRow => (r.fileId, r.tagId, r.ruleName)) T.tagOverrides
  overFile : Refs OverrideRow.fileId T.tagOverrides FileRow.id T.files
  overTag : Refs OverrideRow.tagId T.tagOverrides TagRow.id T.tags
  embFile : UniqueKey EmbeddingRow.fileId T.fileEmbeddings

instance (T : Tables) : Decidable T.Valid :=
  have (α κ : Type) [DecidableEq κ] (key : α → κ) (t : List α) : Decidable (UniqueKey key t) :=
    inferInstanceAs (Decidable (t.map key).Nodup)
  have (α β : Type) (ref : α → ℕ) (t : List α) (key : β → ℕ) (u : List β) :
      Decidable (Refs ref t key u) := inferInstanceAs (Decidable (∀ a ∈ t, ∃ b ∈ u, key b = ref a))
  decidable_of_iff
    (((UniqueKey FileRow.id T.files ∧ UniqueKey FileRow.path T.files) ∧
      UniqueKey TagRow.id T.tags ∧ UniqueKey TagRow.name T.tags) ∧
      (UniqueKey (fun r : FileTagRow => (r.fileId, r.tagId)) T.fileTags ∧
        Refs FileTagRow.fileId T.fileTags FileRow.id T.files ∧
        Refs FileTagRow.tagId T.fileTags TagRow.id T.tags) ∧
      (UniqueKey MetadataRow.rowid T.metadata ∧
        UniqueKey (fun r : MetadataRow => (r.fileId, r.key)) T.metadata ∧
        Refs MetadataRow.fileId T.metadata FileRow.id T.files ∧ UniqueKey FtsRow.rowid T.metadataFts) ∧
      (UniqueKey (fun r : ProvenanceRow => (r.fileId, r.tagId)) T.tagProvenance ∧
        Refs ProvenanceRow.fileId T.tagProvenance FileRow.id T.files ∧
        Refs ProvenanceRow.tagId T.tagProvenance TagRow.id T.tags) ∧
      (UniqueKey (fun r : OverrideRow => (r.fileId, r.tagId, r.ruleName)) T.tagOverrides ∧
        Refs OverrideRow.fileId T.tagOverrides FileRow.id T.files ∧
        Refs OverrideRow.tagId T.tagOverrides TagRow.id T.tags) ∧
      UniqueKey EmbeddingRow.fileId T.fileEmbeddings)
    ⟨fun ⟨⟨⟨a, b⟩, c, d⟩, ⟨e, f, g⟩, ⟨h, i, j, k⟩, ⟨l, m, n⟩, ⟨o, p, q⟩, r⟩ =>
        ⟨a, b, c, d, e, f, g, h, i, j, k, l, m, n, o, p, q, r⟩,
      fun ⟨a, b, c, d, e, f, g, h, i, j, k, l, m, n, o, p, q, r⟩ =>
        ⟨⟨⟨a, b⟩, c, d⟩, ⟨e, f, g⟩, ⟨h, i, j, k⟩, ⟨l, m, n⟩, ⟨o, p, q⟩, r⟩⟩

/-- A database: tables that meet the constraints. -/
structure DB extends Tables where
  valid : toTables.Valid

/-- The database right after the migrations. -/
def DB.empty : DB where
  toTables := {}
  valid := by
    constructor <;> first | exact UniqueKey.nil _ | exact fun _ h => absurd h List.not_mem_nil

/-! ### Reading the tables -/

namespace Tables

/-- `SELECT id FROM files WHERE path = ?`. -/
def fileId (T : Tables) (path : String) : Option ℕ := (lookup FileRow.path T.files path).map FileRow.id

/-- `SELECT id FROM tags WHERE name = ?`. -/
def tagId (T : Tables) (name : String) : Option ℕ := (lookup TagRow.name T.tags name).map TagRow.id

/-- The names of a file's tags, in the order of `file_tags`: the join with `tags`. -/
def fileTagNames (T : Tables) (fileId : ℕ) : List String :=
  (T.fileTags.filter fun r => r.fileId = fileId).filterMap fun r =>
    (lookup TagRow.id T.tags r.tagId).map TagRow.name

/-- `tagId` is the id of the tag `name`. -/
def NameOf (T : Tables) (tagId : ℕ) (name : String) : Prop :=
  ∃ g ∈ T.tags, g.id = tagId ∧ g.name = name

/-- The file with this id has the tag. -/
def Tagged (T : Tables) (fileId : ℕ) (name : String) : Prop :=
  ∃ r ∈ T.fileTags, r.fileId = fileId ∧ T.NameOf r.tagId name

/-- The rule is recorded as overridden for this tag of this file. -/
def Overridden (T : Tables) (fileId : ℕ) (name rule : String) : Prop :=
  ∃ r ∈ T.tagOverrides, r.fileId = fileId ∧ r.ruleName = rule ∧ T.NameOf r.tagId name

/-- The file has the metadata value under the key. -/
def HasMeta (T : Tables) (fileId : ℕ) (key value : String) : Prop :=
  ∃ r ∈ T.metadata, r.fileId = fileId ∧ r.key = key ∧ r.value = value

/-- The provenance of the file's tag is recorded. -/
def HasProvenance (T : Tables) (fileId : ℕ) (name source : String) : Prop :=
  ∃ r ∈ T.tagProvenance, r.fileId = fileId ∧ r.source = source ∧ T.NameOf r.tagId name

/-- The path is in the index. -/
def HasPath (T : Tables) (path : String) : Prop := ∃ f ∈ T.files, f.path = path

end Tables

open Tables

variable {T : Tables} {path name : String} {i j : ℕ}

theorem Tables.Valid.fileId_iff (h : T.Valid) :
    T.fileId path = some i ↔ ∃ f ∈ T.files, f.path = path ∧ f.id = i := by
  simp only [fileId, Option.map_eq_some_iff, h.filesPath.lookup_iff, and_assoc]

theorem Tables.fileId_none_iff : T.fileId path = none ↔ ¬ T.HasPath path := by
  simp [fileId, lookup_none_iff, HasPath]

theorem Tables.Valid.tagId_iff (h : T.Valid) : T.tagId name = some i ↔ T.NameOf i name := by
  simp only [tagId, Option.map_eq_some_iff, h.tagsName.lookup_iff, NameOf, and_assoc]
  exact ⟨fun ⟨g, hg, hn, hi⟩ => ⟨g, hg, hi, hn⟩, fun ⟨g, hg, hi, hn⟩ => ⟨g, hg, hn, hi⟩⟩

theorem Tables.tagId_none_iff : T.tagId name = none ↔ ∀ i, ¬ T.NameOf i name := by
  simp only [tagId, Option.map_eq_none_iff, lookup_none_iff, NameOf]
  exact ⟨fun h i ⟨g, hg, _, hn⟩ => h g hg hn, fun h g hg hn => h g.id ⟨g, hg, rfl, hn⟩⟩

theorem Tables.Valid.nameOf_unique (h : T.Valid) {m n : String} (hm : T.NameOf i m)
    (hn : T.NameOf i n) : m = n := by
  obtain ⟨g, hg, hgi, rfl⟩ := hm
  obtain ⟨g', hg', hgi', rfl⟩ := hn
  rw [h.tagsId.eq_of_mem hg hg' (hgi.trans hgi'.symm)]

theorem Tables.Valid.idOf_unique (h : T.Valid) (hi : T.NameOf i name) (hj : T.NameOf j name) :
    i = j := by
  obtain ⟨g, hg, rfl, hn⟩ := hi
  obtain ⟨g', hg', rfl, hn'⟩ := hj
  rw [h.tagsName.eq_of_mem hg hg' (hn.trans hn'.symm)]

theorem Tables.Valid.mem_fileTagNames (h : T.Valid) :
    name ∈ T.fileTagNames i ↔ T.Tagged i name := by
  simp only [fileTagNames, List.mem_filterMap, List.mem_filter, decide_eq_true_eq,
    Option.map_eq_some_iff, h.tagsId.lookup_iff, Tagged, NameOf, and_assoc]

/-- A file lists no tag twice. -/
theorem Tables.Valid.fileTagNames_nodup (h : T.Valid) (i : ℕ) : (T.fileTagNames i).Nodup := by
  have hkeys := List.pairwise_map.mp (h.fileTagsKey.filter fun r => decide (r.fileId = i))
  refine List.pairwise_filterMap.mpr (hkeys.imp_of_mem fun {r r'} hr hr' hne m hm n hn hmn => ?_)
  simp only [Option.map_eq_some_iff, h.tagsId.lookup_iff] at hm hn
  obtain ⟨g, ⟨hg, hgr⟩, rfl⟩ := hm
  obtain ⟨g', ⟨hg', hgr'⟩, rfl⟩ := hn
  have hid : r.tagId = r'.tagId := by rw [← hgr, ← hgr', h.tagsName.eq_of_mem hg hg' hmn]
  have hi : r.fileId = i := by simpa using (List.mem_filter.mp hr).2
  have hi' : r'.fileId = i := by simpa using (List.mem_filter.mp hr').2
  exact hne (by rw [hi, hi', hid])

end Tilbo.Index.Schema
