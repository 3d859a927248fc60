import Tilbo.Index.Schema

/-! # The statements of the index

What each SQL statement the code runs does to the tables: with its triggers (`tag_cardinality_inc`,
`tag_cardinality_dec`, the three that keep `metadata_fts`), its `ON DELETE CASCADE`s, its
`ON CONFLICT` clause, and the foreign key error that rejects a child row without its parent. Each
statement keeps the constraints, and for each one there are lemmas that say how it changes what the
tables record about a file (`Tagged`, `HasMeta`, `HasProvenance`, `Overridden`, `HasPath`). -/

namespace Tilbo.Index.Statements

open Tilbo.Lib.Rows Tilbo.Index.Schema
open Tilbo.Index.Schema.Tables

/-! ### The counters of the tags -/

/-- `UPDATE tags SET cardinality = cardinality + …`, the body of the triggers. -/
def addCardinality (T : Tables) (d : ℕ → ℤ) : Tables :=
  { T with tags := T.tags.map fun g => { g with cardinality := g.cardinality + d g.id } }

variable {T : Tables} {d : ℕ → ℤ} {i j t : ℕ} {name path k v src rule : String}

@[simp] theorem nameOf_addCardinality : (addCardinality T d).NameOf t name ↔ T.NameOf t name := by
  simp [NameOf, addCardinality]

theorem Valid.addCardinality (h : T.Valid) : (addCardinality T d).Valid :=
  have keep : ∀ g ∈ T.tags, ∃ g' ∈ (Statements.addCardinality T d).tags, g'.id = g.id :=
    fun _ hg => ⟨_, List.mem_map_of_mem hg, rfl⟩
  { h with
    tagsId := h.tagsId.map_same fun _ _ => rfl
    tagsName := h.tagsName.map_same fun _ _ => rfl
    fileTagsTag := h.fileTagsTag.mono keep
    provTag := h.provTag.mono keep
    overTag := h.overTag.mono keep }

/-! ### Files -/

/-- `INSERT INTO files(…) VALUES (…) ON CONFLICT(path) DO UPDATE SET …`. -/
def upsertFile (T : Tables) (path : String) (inode device mtime size now : ℤ) : Tables :=
  { T with
    files := upsert FileRow.path T.files ⟨fresh FileRow.id T.files, path, inode, device, mtime, size, now⟩
      fun f => { f with inode := inode, device := device, mtime := mtime, sizeBytes := size,
                        indexedAt := now } }

/-- Is `id` the id of a file that `p` picks? -/
def picks (T : Tables) (p : FileRow → Bool) (id : ℕ) : Bool := T.files.any fun f => p f && f.id = id

/-- `DELETE FROM file_tags WHERE …`, with the trigger `tag_cardinality_dec` for each row. -/
def deleteFileTags (T : Tables) (p : FileTagRow → Bool) : Tables :=
  addCardinality { T with fileTags := T.fileTags.filter fun r => !p r }
    fun id => -((T.fileTags.filter p).countP fun r => r.tagId = id : ℕ)

/-- `DELETE FROM metadata WHERE …`, with the trigger `metadata_fts_delete` for each row. -/
def deleteMetadata (T : Tables) (p : MetadataRow → Bool) : Tables :=
  { T with
    metadata := T.metadata.filter fun r => !p r
    metadataFts := T.metadataFts.filter fun e =>
      !(T.metadata.any fun r => p r && r.rowid = e.rowid && r.value = e.value) }

/-- `DELETE FROM files WHERE …`: the rows that refer to a deleted file go with it. -/
def deleteFiles (T : Tables) (p : FileRow → Bool) : Tables :=
  let U := deleteMetadata (deleteFileTags T fun r => picks T p r.fileId) fun r => picks T p r.fileId
  { U with
    files := T.files.filter fun f => !p f
    tagProvenance := T.tagProvenance.filter fun r => !picks T p r.fileId
    tagOverrides := T.tagOverrides.filter fun r => !picks T p r.fileId }

/-- `DELETE FROM file_embeddings WHERE …`. -/
def deleteEmbeddings (T : Tables) (p : EmbeddingRow → Bool) : Tables :=
  { T with fileEmbeddings := T.fileEmbeddings.filter fun r => !p r }

/-! ### Tags of files -/

/-- `INSERT OR IGNORE INTO tags(name) VALUES (?)`. -/
def insertTag (T : Tables) (name : String) : Tables :=
  { T with tags := insertNew TagRow.name T.tags ⟨fresh TagRow.id T.tags, name, 0⟩ }

/-- `INSERT OR IGNORE INTO file_tags(file_id, tag_id) VALUES (?, ?)`, with the trigger
`tag_cardinality_inc`. `OR IGNORE` does not cover the foreign keys. -/
def insertFileTag (T : Tables) (fileId tagId : ℕ) : Option Tables :=
  if has FileRow.id T.files fileId && has TagRow.id T.tags tagId then
    if has (fun r : FileTagRow => (r.fileId, r.tagId)) T.fileTags (fileId, tagId) then some T
    else some (addCardinality { T with fileTags := T.fileTags ++ [⟨fileId, tagId⟩] }
      fun id => if id = tagId then 1 else 0)
  else none

/-! ### Metadata, provenance, embeddings -/

/-- `INSERT INTO metadata_fts(rowid, value) VALUES (…)`. -/
def ftsInsert (t : List FtsRow) (rowid : ℕ) (value : String) : List FtsRow :=
  upsert FtsRow.rowid t ⟨rowid, value⟩ fun e => { e with value := value }

/-- `INSERT INTO metadata_fts(metadata_fts, rowid, value) VALUES ('delete', …)`. -/
def ftsDelete (t : List FtsRow) (rowid : ℕ) (value : String) : List FtsRow :=
  t.filter fun e => !(e.rowid = rowid && e.value = value)

/-- `INSERT INTO metadata(…) VALUES (…) ON CONFLICT(file_id, key) DO UPDATE SET …`, with the triggers
`metadata_fts_insert` and `metadata_fts_update`. -/
def upsertMeta (T : Tables) (fileId : ℕ) (key value source : String) : Option Tables :=
  if has FileRow.id T.files fileId then
    let new : MetadataRow := ⟨fresh MetadataRow.rowid T.metadata, fileId, key, value, source⟩
    let keyOf := fun r : MetadataRow => (r.fileId, r.key)
    some { T with
      metadata := upsert keyOf T.metadata new fun r => { r with value := value, source := source }
      metadataFts := match lookup keyOf T.metadata (fileId, key) with
        | some old => ftsInsert (ftsDelete T.metadataFts old.rowid old.value) old.rowid value
        | none => ftsInsert T.metadataFts new.rowid value }
  else none

/-- `INSERT INTO tag_provenance(…) VALUES (…) ON CONFLICT(file_id, tag_id) DO UPDATE SET …`. -/
def setTagProvenance (T : Tables) (fileId tagId : ℕ) (source : String) (setAt : ℤ) : Option Tables :=
  if has FileRow.id T.files fileId && has TagRow.id T.tags tagId then
    some { T with
      tagProvenance := upsert (fun r : ProvenanceRow => (r.fileId, r.tagId)) T.tagProvenance
        ⟨fileId, tagId, source, setAt⟩ fun r => { r with source := source, setAt := setAt } }
  else none

/-- `INSERT INTO file_embeddings(file_id, embedding) VALUES (?, ?)`, which fails on a taken id. -/
def insertEmbedding (T : Tables) (fileId : ℕ) (embedding : List UInt32) : Option Tables :=
  if has EmbeddingRow.fileId T.fileEmbeddings fileId then none
  else some { T with fileEmbeddings := T.fileEmbeddings ++ [⟨fileId, embedding⟩] }

/-! ### Every statement keeps the constraints -/

theorem Valid.upsertFile (h : T.Valid) (inode device mtime size now : ℤ) :
    (upsertFile T path inode device mtime size now).Valid :=
  have keep : ∀ f ∈ T.files, ∃ f' ∈ (Statements.upsertFile T path inode device mtime size now).files,
      f'.id = f.id := fun _ hf => upsert_keeps (fun _ _ => rfl) hf
  { h with
    filesId := h.filesId.upsert_of (fun _ _ _ => rfl) fun _ _ hf => ne_fresh hf
    filesPath := h.filesPath.upsert fun _ _ => rfl
    fileTagsFile := h.fileTagsFile.mono keep
    metaFile := h.metaFile.mono keep
    provFile := h.provFile.mono keep
    overFile := h.overFile.mono keep }

theorem Valid.deleteFileTags (h : T.Valid) (p : FileTagRow → Bool) : (deleteFileTags T p).Valid :=
  Valid.addCardinality { h with
    fileTagsKey := h.fileTagsKey.filter _
    fileTagsFile := h.fileTagsFile.filter _
    fileTagsTag := h.fileTagsTag.filter _ }

theorem Valid.deleteMetadata (h : T.Valid) (p : MetadataRow → Bool) : (deleteMetadata T p).Valid :=
  { h with
    metaRowid := h.metaRowid.filter _
    metaKey := h.metaKey.filter _
    metaFile := h.metaFile.filter _
    ftsRowid := h.ftsRowid.filter _ }

theorem picks_of_mem {p : FileRow → Bool} {f : FileRow} (hf : f ∈ T.files) (hp : p f = true) :
    picks T p f.id = true := by
  simp only [picks, List.any_eq_true, Bool.and_eq_true, decide_eq_true_eq]
  exact ⟨f, hf, hp, rfl⟩

theorem Valid.deleteFiles (h : T.Valid) (p : FileRow → Bool) : (deleteFiles T p).Valid := by
  have hU := Valid.deleteMetadata (Valid.deleteFileTags h fun r => picks T p r.fileId)
    fun r => picks T p r.fileId
  have stays : ∀ {i : ℕ}, (!picks T p i) = true → ∀ f ∈ T.files, f.id = i → (!p f) = true := by
    intro i hi f hf hfi
    by_contra hp
    have hpick := picks_of_mem hf (by simpa using hp)
    rw [hfi] at hpick
    simp [hpick] at hi
  exact
    { hU with
      filesId := h.filesId.filter _
      filesPath := h.filesPath.filter _
      fileTagsFile := h.fileTagsFile.cascade fun _ _ hq => stays hq
      metaFile := h.metaFile.cascade fun _ _ hq => stays hq
      provKey := h.provKey.filter _
      provFile := h.provFile.cascade fun _ _ hq => stays hq
      provTag := hU.provTag.filter _
      overKey := h.overKey.filter _
      overFile := h.overFile.cascade fun _ _ hq => stays hq
      overTag := hU.overTag.filter _ }

theorem Valid.deleteEmbeddings (h : T.Valid) (p : EmbeddingRow → Bool) :
    (deleteEmbeddings T p).Valid :=
  { h with embFile := h.embFile.filter _ }

theorem Valid.insertTag (h : T.Valid) : (insertTag T name).Valid := by
  have keep : ∀ g ∈ T.tags, ∃ g' ∈ (Statements.insertTag T name).tags, g'.id = g.id :=
    fun g hg => ⟨g, insertNew_keeps hg, rfl⟩
  refine { h with tagsId := ?_, tagsName := h.tagsName.insertNew, fileTagsTag := h.fileTagsTag.mono keep,
                  provTag := h.provTag.mono keep, overTag := h.overTag.mono keep }
  show UniqueKey TagRow.id (insertNew _ _ _)
  unfold insertNew
  split_ifs
  · exact h.tagsId
  · exact h.tagsId.append_new fun g hg => ne_fresh hg

theorem Valid.insertFileTag (h : T.Valid) {U : Tables} (hU : insertFileTag T i t = some U) :
    U.Valid := by
  unfold Statements.insertFileTag at hU
  split_ifs at hU with hfk hk
  · cases hU; exact h
  · cases hU
    obtain ⟨hf, hg⟩ := (Bool.and_eq_true _ _).mp hfk |>.imp has_iff.mp has_iff.mp
    exact Valid.addCardinality { h with
      fileTagsKey := h.fileTagsKey.append_new (n := ⟨i, t⟩) (not_has_iff.mp hk)
      fileTagsFile := h.fileTagsFile.append hf
      fileTagsTag := h.fileTagsTag.append hg }

theorem Valid.upsertMeta (h : T.Valid) {U : Tables} (hU : upsertMeta T i k v src = some U) :
    U.Valid := by
  unfold Statements.upsertMeta at hU
  split_ifs at hU with hf
  cases hU
  refine { h with
    metaRowid := h.metaRowid.upsert_of (fun _ _ _ => rfl) fun _ _ hr => ne_fresh hr
    metaKey := h.metaKey.upsert fun _ _ => rfl
    metaFile := ?_
    ftsRowid := ?_ }
  · intro r hr
    rcases mem_upsert.mp hr with ⟨hr, -⟩ | ⟨a, ha, -, rfl⟩ | ⟨rfl, -⟩
    · exact h.metaFile r hr
    · exact h.metaFile a ha
    · exact has_iff.mp hf
  · dsimp only
    split
    · exact (h.ftsRowid.filter _).upsert fun _ _ => rfl
    · exact h.ftsRowid.upsert fun _ _ => rfl

theorem Valid.setTagProvenance (h : T.Valid) {U : Tables} {setAt : ℤ}
    (hU : setTagProvenance T i t src setAt = some U) : U.Valid := by
  unfold Statements.setTagProvenance at hU
  split_ifs at hU with hfk
  cases hU
  obtain ⟨hf, hg⟩ := (Bool.and_eq_true _ _).mp hfk |>.imp has_iff.mp has_iff.mp
  refine { h with provKey := h.provKey.upsert fun _ _ => rfl, provFile := ?_, provTag := ?_ }
  all_goals
    intro r hr
    rcases mem_upsert.mp hr with ⟨hr, -⟩ | ⟨a, ha, -, rfl⟩ | ⟨rfl, -⟩
  · exact h.provFile r hr
  · exact h.provFile a ha
  · exact hf
  · exact h.provTag r hr
  · exact h.provTag a ha
  · exact hg

theorem Valid.insertEmbedding (h : T.Valid) {U : Tables} {e : List UInt32}
    (hU : insertEmbedding T i e = some U) : U.Valid := by
  unfold Statements.insertEmbedding at hU
  split_ifs at hU with hk
  cases hU
  exact { h with embFile := h.embFile.append_new (n := ⟨i, e⟩) (not_has_iff.mp hk) }

/-! ### What the statements do to the tags of a file -/

theorem tagged_addCardinality : (addCardinality T d).Tagged j name ↔ T.Tagged j name := by
  simp only [Tagged, nameOf_addCardinality]
  rfl

/-- Deleting rows of `file_tags` by file. -/
theorem tagged_deleteFileTags_file :
    (deleteFileTags T fun r => r.fileId = i).Tagged j name ↔ T.Tagged j name ∧ j ≠ i := by
  refine tagged_addCardinality.trans ⟨?_, ?_⟩
  · rintro ⟨r, hr, rfl, hn⟩
    obtain ⟨hr, hri⟩ := List.mem_filter.mp hr
    exact ⟨⟨r, hr, rfl, hn⟩, by simpa using hri⟩
  · rintro ⟨⟨r, hr, rfl, hn⟩, hi⟩
    exact ⟨r, List.mem_filter.mpr ⟨hr, by simpa using hi⟩, rfl, hn⟩

/-- Deleting one row of `file_tags`. -/
theorem tagged_deleteFileTags_one (h : T.Valid) (ht : T.NameOf t path) :
    (deleteFileTags T fun r => r.fileId = i && r.tagId = t).Tagged j name ↔
      T.Tagged j name ∧ ¬ (j = i ∧ name = path) := by
  refine tagged_addCardinality.trans ⟨?_, ?_⟩
  · rintro ⟨r, hr, rfl, hn⟩
    obtain ⟨hr, hri⟩ := List.mem_filter.mp hr
    refine ⟨⟨r, hr, rfl, hn⟩, ?_⟩
    rintro ⟨hi, rfl⟩
    simp [hi, h.idOf_unique hn ht] at hri
  · rintro ⟨⟨r, hr, rfl, hn⟩, hi⟩
    refine ⟨r, List.mem_filter.mpr ⟨hr, ?_⟩, rfl, hn⟩
    have : ¬ (r.fileId = i ∧ r.tagId = t) := by
      rintro ⟨hri, hrt⟩
      exact hi ⟨hri, h.nameOf_unique hn (hrt ▸ ht)⟩
    simpa [imp_iff_not_or] using this

theorem tagged_insertFileTag {U : Tables} (hU : insertFileTag T i t = some U) :
    U.Tagged j name ↔ T.Tagged j name ∨ j = i ∧ T.NameOf t name := by
  unfold insertFileTag at hU
  split_ifs at hU with hfk hk
  · cases hU
    obtain ⟨r, hr, hrk⟩ := has_iff.mp hk
    refine ⟨Or.inl, fun h' => h'.elim (fun h' => h') ?_⟩
    rintro ⟨rfl, hn⟩
    cases hrk
    exact ⟨r, hr, rfl, hn⟩
  · cases hU
    refine tagged_addCardinality.trans ⟨?_, ?_⟩
    · rintro ⟨r, hr, rfl, hn⟩
      rcases List.mem_append.mp hr with hr | hr
      · exact Or.inl ⟨r, hr, rfl, hn⟩
      · obtain rfl : r = ⟨i, t⟩ := by simpa using hr
        exact Or.inr ⟨rfl, hn⟩
    · rintro (⟨r, hr, rfl, hn⟩ | ⟨rfl, hn⟩)
      · exact ⟨r, List.mem_append_left _ hr, rfl, hn⟩
      · exact ⟨⟨j, t⟩, List.mem_append_right _ (by simp), rfl, hn⟩

theorem insertFileTag_ne_none (hi : has FileRow.id T.files i = true)
    (ht : has TagRow.id T.tags t = true) : insertFileTag T i t ≠ none := by
  unfold insertFileTag
  rw [hi, ht]
  split_ifs <;> simp_all

/-! ### A new tag name changes nothing about the files -/

theorem nameOf_insertTag_of_nameOf (h : T.NameOf t name) : (insertTag T path).NameOf t name := by
  obtain ⟨g, hg, hgt, hgn⟩ := h
  exact ⟨g, insertNew_keeps hg, hgt, hgn⟩

/-- The ids in use keep their names. -/
theorem nameOf_insertTag (ht : ∃ g ∈ T.tags, g.id = t) :
    (insertTag T path).NameOf t name ↔ T.NameOf t name := by
  refine ⟨?_, nameOf_insertTag_of_nameOf⟩
  rintro ⟨g, hg, rfl, hgn⟩
  rcases mem_insertNew.mp hg with hg | ⟨rfl, -⟩
  · exact ⟨g, hg, rfl, hgn⟩
  · obtain ⟨g', hg', hid⟩ := ht
    exact absurd hid (ne_fresh hg')

/-- After the insert the name has an id. -/
theorem exists_nameOf_insertTag (T : Tables) (name : String) : ∃ t, (insertTag T name).NameOf t name := by
  obtain ⟨g, hg, hn⟩ := has_insertNew_self TagRow.name T.tags ⟨fresh TagRow.id T.tags, name, 0⟩
  exact ⟨g.id, g, hg, rfl, hn⟩

theorem tagged_insertTag (h : T.Valid) : (insertTag T path).Tagged j name ↔ T.Tagged j name :=
  exists_congr fun r => and_congr_right fun hr => and_congr_right fun _ =>
    nameOf_insertTag (h.fileTagsTag r hr)

theorem overridden_insertTag (h : T.Valid) :
    (insertTag T path).Overridden j name rule ↔ T.Overridden j name rule :=
  exists_congr fun r => and_congr_right fun hr => and_congr_right fun _ => and_congr_right fun _ =>
    nameOf_insertTag (h.overTag r hr)

theorem hasProvenance_insertTag (h : T.Valid) :
    (insertTag T path).HasProvenance j name src ↔ T.HasProvenance j name src :=
  exists_congr fun r => and_congr_right fun hr => and_congr_right fun _ => and_congr_right fun _ =>
    nameOf_insertTag (h.provTag r hr)

/-! ### Deleting files -/

theorem nameOf_deleteFiles {p : FileRow → Bool} :
    (deleteFiles T p).NameOf t name ↔ T.NameOf t name := by
  simp [NameOf, deleteFiles, deleteMetadata, deleteFileTags, addCardinality]

/-- A file that stays is not picked by the ids of those that go. -/
theorem picks_false_of_mem (h : T.Valid) {p : FileRow → Bool} {f : FileRow} (hf : f ∈ T.files)
    (hp : p f = false) : picks T p f.id = false := by
  rw [← Bool.not_eq_true]
  simp only [picks, List.any_eq_true, Bool.and_eq_true, decide_eq_true_eq, not_exists, not_and]
  intro g hg hpg hid
  rw [h.filesId.eq_of_mem hg hf hid, hp] at hpg
  simp at hpg

theorem tagged_deleteFiles {p : FileRow → Bool} :
    (deleteFiles T p).Tagged j name ↔ T.Tagged j name ∧ picks T p j = false := by
  refine ⟨?_, ?_⟩
  · rintro ⟨r, hr, rfl, hn⟩
    obtain ⟨hr, hp⟩ := List.mem_filter.mp hr
    exact ⟨⟨r, hr, rfl, nameOf_deleteFiles.mp hn⟩, by simpa using hp⟩
  · rintro ⟨⟨r, hr, rfl, hn⟩, hp⟩
    exact ⟨r, List.mem_filter.mpr ⟨hr, by simp [hp]⟩, rfl, nameOf_deleteFiles.mpr hn⟩

theorem hasMeta_deleteFiles {p : FileRow → Bool} :
    (deleteFiles T p).HasMeta j k v ↔ T.HasMeta j k v ∧ picks T p j = false := by
  refine ⟨?_, ?_⟩
  · rintro ⟨r, hr, rfl, hk, hv⟩
    obtain ⟨hr, hp⟩ := List.mem_filter.mp hr
    exact ⟨⟨r, hr, rfl, hk, hv⟩, by simpa using hp⟩
  · rintro ⟨⟨r, hr, rfl, hk, hv⟩, hp⟩
    exact ⟨r, List.mem_filter.mpr ⟨hr, by simp [hp]⟩, rfl, hk, hv⟩

theorem hasProvenance_deleteFiles {p : FileRow → Bool} :
    (deleteFiles T p).HasProvenance j name src ↔ T.HasProvenance j name src ∧ picks T p j = false := by
  refine ⟨?_, ?_⟩
  · rintro ⟨r, hr, rfl, hs, hn⟩
    obtain ⟨hr, hp⟩ := List.mem_filter.mp hr
    exact ⟨⟨r, hr, rfl, hs, nameOf_deleteFiles.mp hn⟩, by simpa using hp⟩
  · rintro ⟨⟨r, hr, rfl, hs, hn⟩, hp⟩
    exact ⟨r, List.mem_filter.mpr ⟨hr, by simp [hp]⟩, rfl, hs, nameOf_deleteFiles.mpr hn⟩

theorem overridden_deleteFiles {p : FileRow → Bool} :
    (deleteFiles T p).Overridden j name rule ↔ T.Overridden j name rule ∧ picks T p j = false := by
  refine ⟨?_, ?_⟩
  · rintro ⟨r, hr, rfl, hs, hn⟩
    obtain ⟨hr, hp⟩ := List.mem_filter.mp hr
    exact ⟨⟨r, hr, rfl, hs, nameOf_deleteFiles.mp hn⟩, by simpa using hp⟩
  · rintro ⟨⟨r, hr, rfl, hs, hn⟩, hp⟩
    exact ⟨r, List.mem_filter.mpr ⟨hr, by simp [hp]⟩, rfl, hs, nameOf_deleteFiles.mpr hn⟩

/-! ### Metadata and provenance -/

theorem upsertMeta_shape {U : Tables} (hU : upsertMeta T i k v src = some U) :
    ∃ m fts, U = { T with metadata := m, metadataFts := fts } := by
  unfold upsertMeta at hU
  split_ifs at hU
  exact ⟨_, _, (Option.some.inj hU).symm⟩

theorem hasMeta_upsertMeta {U : Tables} (hU : upsertMeta T i k v src = some U) {l w : String} :
    U.HasMeta j l w ↔ if j = i ∧ l = k then w = v else T.HasMeta j l w := by
  unfold upsertMeta at hU
  split_ifs at hU
  cases hU
  simp only [HasMeta, mem_upsert, ne_eq, Prod.mk.injEq]
  refine ⟨?_, ?_⟩
  · rintro ⟨r, ⟨hr, hne⟩ | ⟨a, ha, ⟨hai, hak⟩, rfl⟩ | ⟨rfl, -⟩, rfl, rfl, rfl⟩
    · rw [if_neg hne]; exact ⟨r, hr, rfl, rfl, rfl⟩
    · rw [if_pos ⟨hai, hak⟩]
    · rw [if_pos ⟨rfl, rfl⟩]
  · split_ifs with hjk
    · rintro rfl
      obtain ⟨rfl, rfl⟩ := hjk
      by_cases hex : ∃ a ∈ T.metadata, a.fileId = j ∧ a.key = l
      · obtain ⟨a, ha, hai, hak⟩ := hex
        exact ⟨_, Or.inr (Or.inl ⟨a, ha, ⟨hai, hak⟩, rfl⟩), hai, hak, rfl⟩
      · exact ⟨_, Or.inr (Or.inr ⟨rfl, fun a ha hk => hex ⟨a, ha, hk⟩⟩), rfl, rfl, rfl⟩
    · rintro ⟨r, hr, rfl, rfl, rfl⟩
      exact ⟨r, Or.inl ⟨hr, hjk⟩, rfl, rfl, rfl⟩

theorem setTagProvenance_shape {U : Tables} {setAt : ℤ}
    (hU : setTagProvenance T i t src setAt = some U) : ∃ p, U = { T with tagProvenance := p } := by
  unfold setTagProvenance at hU
  split_ifs at hU
  exact ⟨_, (Option.some.inj hU).symm⟩

theorem hasProvenance_setTagProvenance (h : T.Valid) {U : Tables} {setAt : ℤ}
    (hU : setTagProvenance T i t src setAt = some U) (ht : T.NameOf t name) {n s : String} :
    U.HasProvenance j n s ↔ if j = i ∧ n = name then s = src else T.HasProvenance j n s := by
  unfold setTagProvenance at hU
  split_ifs at hU
  cases hU
  simp only [HasProvenance, mem_upsert, ne_eq, Prod.mk.injEq]
  have same : ∀ {r : ℕ}, T.NameOf r n → (r = t ↔ n = name) := fun hr =>
    ⟨fun hrt => h.nameOf_unique hr (hrt ▸ ht), fun hn => h.idOf_unique (hn ▸ hr) ht⟩
  refine ⟨?_, ?_⟩
  · rintro ⟨r, ⟨hr, hne⟩ | ⟨a, ha, ⟨hai, hat⟩, rfl⟩ | ⟨rfl, -⟩, rfl, rfl, hn⟩
    · have hn' : T.NameOf r.tagId n := hn
      rw [if_neg fun hc => hne ⟨hc.1, (same hn').mpr hc.2⟩]
      exact ⟨r, hr, rfl, rfl, hn⟩
    · rw [if_pos ⟨hai, (same hn).mp hat⟩]
    · rw [if_pos ⟨rfl, (same hn).mp rfl⟩]
  · split_ifs with hjn
    · rintro rfl
      obtain ⟨rfl, rfl⟩ := hjn
      by_cases hex : ∃ a ∈ T.tagProvenance, a.fileId = j ∧ a.tagId = t
      · obtain ⟨a, ha, hai, rfl⟩ := hex
        exact ⟨_, Or.inr (Or.inl ⟨a, ha, ⟨hai, rfl⟩, rfl⟩), hai, rfl, ht⟩
      · exact ⟨_, Or.inr (Or.inr ⟨rfl, fun a ha hk => hex ⟨a, ha, hk⟩⟩), rfl, rfl, ht⟩
    · rintro ⟨r, hr, rfl, rfl, hn⟩
      exact ⟨r, Or.inl ⟨hr, fun hc => hjn ⟨hc.1, (same hn).mp hc.2⟩⟩, rfl, rfl, hn⟩

/-! ### New and refreshed file rows -/

/-- The id an upsert of `path` returns. -/
def upsertId (T : Tables) (path : String) : ℕ := (T.fileId path).getD (fresh FileRow.id T.files)

theorem mem_upsertFile (h : T.Valid) {inode device mtime size now : ℤ} {f : FileRow} :
    f ∈ (upsertFile T path inode device mtime size now).files ↔
      (f ∈ T.files ∧ f.path ≠ path) ∨
        f = ⟨upsertId T path, path, inode, device, mtime, size, now⟩ := by
  simp only [upsertFile, mem_upsert]
  refine or_congr_right ?_
  by_cases hex : ∃ g ∈ T.files, g.path = path
  · obtain ⟨g, hg, hgp⟩ := hex
    have hid : upsertId T path = g.id := by
      simp only [upsertId, h.fileId_iff.mpr ⟨g, hg, hgp, rfl⟩, Option.getD_some]
    refine ⟨?_, ?_⟩
    · rintro (⟨a, ha, hap, rfl⟩ | ⟨-, hno⟩)
      · obtain rfl := h.filesPath.eq_of_mem ha hg (hap.trans hgp.symm)
        rw [hid, ← hgp]
      · exact absurd hgp (hno g hg)
    · rintro rfl
      exact Or.inl ⟨g, hg, hgp, by rw [hid, ← hgp]⟩
  · have hno : T.fileId path = none := fileId_none_iff.mpr hex
    simp only [not_exists, not_and] at hex
    simp only [upsertId, hno, Option.getD_none]
    refine ⟨?_, ?_⟩
    · rintro (⟨a, ha, hap, -⟩ | ⟨rfl, -⟩)
      · exact absurd hap (hex a ha)
      · rfl
    · rintro rfl
      exact Or.inr ⟨rfl, hex⟩

theorem fileId_upsertFile (h : T.Valid) {inode device mtime size now : ℤ} :
    (upsertFile T path inode device mtime size now).fileId path = some (upsertId T path) :=
  (Valid.upsertFile h inode device mtime size now).fileId_iff.mpr
    ⟨_, (mem_upsertFile h).mpr (Or.inr rfl), rfl, rfl⟩

end Tilbo.Index.Statements
