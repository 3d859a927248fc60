import Tilbo.Index.Store

/-! # The counters and the full-text index stay in step

`tags.cardinality` and `metadata_fts` repeat what other tables record, and only triggers keep them so.
`Mirrored` says that they agree with what they repeat. Every statement keeps it, so every method does,
whatever fails and wherever a method stops (`keeps_run`); a run of methods from the migrated schema
never leaves it. -/

namespace Tilbo.Index.Consistency

open Tilbo.Lib.Rows Tilbo.Lib.Txn Tilbo.Index.Schema Tilbo.Index.Statements Tilbo.Index.Store
open Tilbo.Index.Schema.Tables Tilbo.Lib.Txn.Prog

/-- The number of rows of `file_tags` that have the tag. -/
def tagUses (T : Tables) (tagId : ℕ) : ℕ := T.fileTags.countP fun r => r.tagId = tagId

/-- The entry the full-text index should have for a metadata row. -/
def ftsEntry (m : MetadataRow) : FtsRow := ⟨m.rowid, m.value⟩

/-- The copies agree with what they copy. -/
structure Mirrored (T : Tables) : Prop where
  cardinality : ∀ g ∈ T.tags, g.cardinality = tagUses T g.id
  fts : ∀ e, e ∈ T.metadataFts ↔ ∃ m ∈ T.metadata, ftsEntry m = e

variable {T U : Tables} {i t : ℕ} {name path k v src : String}

theorem ftsEntry_eq {m : MetadataRow} {e : FtsRow} :
    ftsEntry m = e ↔ m.rowid = e.rowid ∧ m.value = e.value := by
  cases e
  simp [ftsEntry]

/-- The full-text index has exactly one entry for each metadata row. -/
theorem Mirrored.fts_perm (h : Mirrored T) (hv : T.Valid) :
    T.metadataFts.Perm (T.metadata.map ftsEntry) := by
  refine (List.perm_ext_iff_of_nodup hv.ftsRowid.nodup ?_).mpr fun e => ?_
  · refine List.Nodup.of_map FtsRow.rowid ?_
    rw [List.map_map]
    exact hv.metaRowid
  · rw [h.fts, List.mem_map]

/-! ### Every statement keeps the copies in step -/

theorem Mirrored.of_eq (h : Mirrored T) (htags : U.tags = T.tags) (hft : U.fileTags = T.fileTags)
    (hm : U.metadata = T.metadata) (hf : U.metadataFts = T.metadataFts) : Mirrored U := by
  refine ⟨fun g hg => ?_, fun e => ?_⟩
  · rw [tagUses, hft]
    exact h.cardinality g (htags ▸ hg)
  · rw [hm, hf]
    exact h.fts e

theorem Mirrored.upsertFile (h : Mirrored T) {inode device mtime size now : ℤ} :
    Mirrored (upsertFile T path inode device mtime size now) := h.of_eq rfl rfl rfl rfl

theorem Mirrored.deleteEmbeddings (h : Mirrored T) {p : EmbeddingRow → Bool} :
    Mirrored (deleteEmbeddings T p) := h.of_eq rfl rfl rfl rfl

theorem Mirrored.setTagProvenance (h : Mirrored T) {setAt : ℤ}
    (hU : setTagProvenance T i t src setAt = some U) : Mirrored U := by
  obtain ⟨_, rfl⟩ := setTagProvenance_shape hU
  exact h.of_eq rfl rfl rfl rfl

/-- The trigger for deletes takes off exactly the deleted rows of each tag. -/
theorem Mirrored.deleteFileTags (h : Mirrored T) (p : FileTagRow → Bool) :
    Mirrored (deleteFileTags T p) := by
  refine ⟨fun g hg => ?_, h.fts⟩
  obtain ⟨g₀, hg₀, rfl⟩ := List.mem_map.mp hg
  have hsplit := List.countP_eq_countP_filter_add T.fileTags (fun r => decide (r.tagId = g₀.id)) p
  have hcard := h.cardinality g₀ hg₀
  simp only [tagUses] at hcard
  simp only [tagUses, Statements.deleteFileTags, addCardinality]
  omega

/-- Deleting metadata deletes the entries of the rows that go, and no other. -/
theorem Mirrored.deleteMetadata (h : Mirrored T) (hv : T.Valid) (p : MetadataRow → Bool) :
    Mirrored (deleteMetadata T p) := by
  refine ⟨h.cardinality, fun e => ?_⟩
  simp only [Statements.deleteMetadata, List.mem_filter, h.fts, Bool.not_eq_true',
    List.any_eq_false, Bool.and_eq_true, decide_eq_true_eq, not_and, ftsEntry_eq]
  refine ⟨?_, ?_⟩
  · rintro ⟨⟨m, hm, hr, hval⟩, hno⟩
    refine ⟨m, ⟨hm, ?_⟩, hr, hval⟩
    rw [← Bool.not_eq_true]
    exact fun hp => hno m hm ⟨hp, hr⟩ hval
  · rintro ⟨m, ⟨hm, hp⟩, hr, hval⟩
    refine ⟨⟨m, hm, hr, hval⟩, fun m' hm' hboth _ => ?_⟩
    obtain ⟨hp', hr'⟩ := hboth
    rw [hv.metaRowid.eq_of_mem hm' hm (hr'.trans hr.symm), hp] at hp'
    exact Bool.false_ne_true hp'

/-- The cascades fire the triggers of the child tables. -/
theorem Mirrored.deleteFiles (h : Mirrored T) (hv : T.Valid) (p : FileRow → Bool) :
    Mirrored (deleteFiles T p) :=
  ((h.deleteFileTags _).deleteMetadata (Valid.deleteFileTags hv _) _).of_eq rfl rfl rfl rfl

/-- A new tag has no files yet. -/
theorem Mirrored.insertTag (h : Mirrored T) (hv : T.Valid) : Mirrored (insertTag T name) := by
  refine ⟨fun g hg => ?_, h.fts⟩
  rcases mem_insertNew.mp hg with hg | ⟨rfl, -⟩
  · exact h.cardinality g hg
  · have hnone : tagUses T (fresh TagRow.id T.tags) = 0 := by
      refine List.countP_eq_zero.mpr fun r hr => ?_
      obtain ⟨g, hg, hgr⟩ := hv.fileTagsTag r hr
      have : g.id ≠ fresh TagRow.id T.tags := ne_fresh hg
      simp only [decide_eq_true_eq]
      omega
    show (0 : ℤ) = (tagUses T (fresh TagRow.id T.tags) : ℕ)
    rw [hnone]
    rfl

/-- The trigger for inserts counts a row that is new, and an ignored insert fires none. -/
theorem Mirrored.insertFileTag (h : Mirrored T) (hU : insertFileTag T i t = some U) : Mirrored U := by
  unfold Statements.insertFileTag at hU
  split_ifs at hU
  · cases hU
    exact h
  · cases hU
    refine ⟨fun g hg => ?_, h.fts⟩
    obtain ⟨g₀, hg₀, rfl⟩ := List.mem_map.mp hg
    have hcard := h.cardinality g₀ hg₀
    simp only [tagUses] at hcard
    simp only [tagUses, addCardinality, List.countP_append, List.countP_singleton,
      decide_eq_true_eq, hcard, eq_comm (a := t)]
    split_ifs <;> simp

/-- Inserting an entry replaces the one of its row id. -/
theorem mem_ftsInsert {fts : List FtsRow} {e : FtsRow} {rowid : ℕ} :
    e ∈ ftsInsert fts rowid v ↔ (e ∈ fts ∧ e.rowid ≠ rowid) ∨ e = ⟨rowid, v⟩ := by
  simp only [ftsInsert, mem_upsert]
  refine or_congr_right ⟨?_, ?_⟩
  · rintro (⟨⟨r, w⟩, -, hr, rfl⟩ | ⟨rfl, -⟩)
    · exact congrArg (FtsRow.mk · v) hr
    · rfl
  · rintro rfl
    by_cases hex : ∃ a ∈ fts, a.rowid = rowid
    · obtain ⟨a, ha, har⟩ := hex
      exact Or.inl ⟨a, ha, har, congrArg (FtsRow.mk · v) har.symm⟩
    · exact Or.inr ⟨rfl, fun a ha har => hex ⟨a, ha, har⟩⟩

/-- An upsert of metadata leaves the entry of the value that is current then. -/
theorem Mirrored.upsertMeta (h : Mirrored T) (hv : T.Valid) (hU : upsertMeta T i k v src = some U) :
    Mirrored U := by
  unfold Statements.upsertMeta at hU
  split_ifs at hU
  cases hU
  refine ⟨h.cardinality, fun e => ?_⟩
  dsimp only
  cases hold : lookup (fun r : MetadataRow => (r.fileId, r.key)) T.metadata (i, k) with
  | none =>
    have hno := lookup_none_iff.mp hold
    simp only [mem_ftsInsert, h.fts, mem_upsert]
    refine ⟨?_, ?_⟩
    · rintro (⟨⟨m, hm, he⟩, -⟩ | rfl)
      · exact ⟨m, Or.inl ⟨hm, hno m hm⟩, he⟩
      · exact ⟨_, Or.inr (Or.inr ⟨rfl, hno⟩), rfl⟩
    · rintro ⟨m, ⟨hm, -⟩ | ⟨a, ha, hak, -⟩ | ⟨rfl, -⟩, rfl⟩
      · have hne : m.rowid ≠ fresh MetadataRow.rowid T.metadata := ne_fresh hm
        exact Or.inl ⟨⟨m, hm, rfl⟩, hne⟩
      · exact absurd hak (hno a ha)
      · exact Or.inr rfl
  | some old =>
    obtain ⟨hmem, hkey⟩ := hv.metaKey.lookup_iff.mp hold
    simp only [mem_ftsInsert, ftsDelete, List.mem_filter, h.fts, mem_upsert]
    have same : ∀ {m}, m ∈ T.metadata → ((m.fileId, m.key) = (i, k) ↔ m.rowid = old.rowid) :=
      fun {m} hm => ⟨fun hk => by rw [hv.metaKey.eq_of_mem hm hmem (hk.trans hkey.symm)],
        fun hr => by rw [hv.metaRowid.eq_of_mem hm hmem hr]; exact hkey⟩
    refine ⟨?_, ?_⟩
    · rintro (⟨⟨⟨m, hm, rfl⟩, -⟩, hr⟩ | rfl)
      · exact ⟨m, Or.inl ⟨hm, fun hk => hr ((same hm).mp hk)⟩, rfl⟩
      · exact ⟨_, Or.inr (Or.inl ⟨old, hmem, hkey, rfl⟩), rfl⟩
    · rintro ⟨m, ⟨hm, hk⟩ | ⟨a, ha, hak, rfl⟩ | ⟨-, hno⟩, rfl⟩
      · have hr : m.rowid ≠ old.rowid := fun hr => hk ((same hm).mpr hr)
        exact Or.inl ⟨⟨⟨m, hm, rfl⟩, by simp [ftsEntry, hr]⟩, hr⟩
      · exact Or.inr (congrArg (FtsRow.mk · v) ((same ha).mp hak))
      · exact absurd hkey (hno old hmem)

/-! ### Every method keeps the copies in step -/

/-- The copies of the database are in step. -/
def InStep (db : DB) : Prop := Mirrored db.toTables

theorem keeps_queryRow {α : Type} {f : Tables → Option α} : Keeps InStep (queryRow f) := by
  refine Keeps.stmt fun db a db' h hq => ?_
  split at hq
  · cases hq; exact h
  · cases hq

theorem keeps_exec {f : Tables → Tables} {hf : ∀ T, T.Valid → (f T).Valid}
    (hk : ∀ T, T.Valid → Mirrored T → Mirrored (f T)) : Keeps InStep (exec f hf) :=
  Keeps.stmt fun db a db' h hq => by cases hq; exact hk _ db.valid h

theorem keeps_execFk {f : Tables → Option Tables} {hf : ∀ T U, T.Valid → f T = some U → U.Valid}
    (hk : ∀ T U, T.Valid → f T = some U → Mirrored T → Mirrored U) : Keeps InStep (execFk f hf) := by
  refine Keeps.stmt fun db a db' h hq => ?_
  split at hq
  · cases hq; exact hk _ _ db.valid ‹_› h
  · cases hq

theorem keeps_resolveTagIDTx {op label : String} : Keeps InStep (resolveTagIDTx name op label) :=
  Keeps.andThen (Keeps.wrap (keeps_exec fun _ hv h => h.insertTag hv)) fun _ =>
    Keeps.wrap keeps_queryRow

theorem keeps_replaceFileTagsTx {names : List String} {op : String} :
    Keeps InStep (replaceFileTagsTx i names op) :=
  Keeps.andThen (Keeps.wrap (keeps_exec fun _ _ h => h.deleteFileTags _)) fun _ =>
    Keeps.each (fun _ => Keeps.andThen keeps_resolveTagIDTx fun _ =>
      Keeps.wrap (keeps_execFk fun _ _ _ hU h => h.insertFileTag hU)) _

theorem keeps_upsertFileRow {st : FileStat} {now : ℤ} {lastInsertId : Except Error ℕ} :
    Keeps InStep (upsertFileRow path st now lastInsertId) := by
  refine Keeps.andThen (Keeps.wrap (keeps_exec fun _ _ h => h.upsertFile)) fun _ => ?_
  match lastInsertId with
  | .ok (id + 1) => exact Keeps.ret
  | .ok 0 => exact Keeps.wrap keeps_queryRow
  | .error e => exact Keeps.wrap keeps_queryRow

theorem keeps_upsertFileTx {st : FileStat} {now : ℤ} : Keeps InStep (upsertFileTx path st now) := by
  refine Keeps.wrap (Keeps.stmt fun db a db' h hq => ?_)
  dsimp only at hq
  split at hq
  · cases hq; exact Mirrored.upsertFile h
  · cases hq

theorem keeps_syncFileApply {st : FileStat} {names : List String}
    {metadata sourceMap : List (String × String)} {now : ℤ} :
    Keeps InStep (syncFileApply path st names metadata sourceMap now) := by
  refine Keeps.atomically (Keeps.andThen keeps_upsertFileTx fun _ => ?_)
  refine Keeps.andThen keeps_replaceFileTagsTx fun _ => ?_
  refine Keeps.andThen (Keeps.each (fun _ => Keeps.wrap ?_) _) fun _ => ?_
  · exact keeps_execFk fun _ _ hv hU h => h.upsertMeta hv hU
  refine Keeps.andThen (Keeps.each (fun _ => ?_) _) fun _ => Keeps.ret
  exact Keeps.andThen keeps_resolveTagIDTx fun _ =>
    Keeps.wrap (keeps_execFk fun _ _ _ hU h => h.setTagProvenance hU)

theorem keeps_setFileTags {names : List String} : Keeps InStep (setFileTags i names) :=
  Keeps.atomically keeps_replaceFileTagsTx

theorem keeps_upsertTag : Keeps InStep (upsertTag name) := by
  refine Keeps.wrap (Keeps.stmt fun db a db' h hq => ?_)
  dsimp only at hq
  split at hq
  · cases hq; exact Mirrored.insertTag h db.valid
  · cases hq

theorem keeps_modifyAdd : Keeps InStep (modifyAdd i name) :=
  Keeps.andThen keeps_upsertTag fun _ =>
    Keeps.wrap (keeps_execFk fun _ _ _ hU h => h.insertFileTag hU)

theorem keeps_modifyRemove : Keeps InStep (modifyRemove i name) := by
  refine Keeps.andThen (Keeps.attempt keeps_queryRow) fun r => ?_
  split
  · exact Keeps.wrap (keeps_exec fun _ _ h => h.deleteFileTags _)
  · exact Keeps.ret
  · exact Keeps.fail

theorem keeps_modifyFileTags {names : List String} {op : String} :
    Keeps InStep (modifyFileTags path names op) := by
  refine Keeps.andThen (Keeps.wrap (Keeps.wrap keeps_queryRow)) fun _ => ?_
  split_ifs
  · exact Keeps.each (fun _ => keeps_modifyAdd) _
  · exact Keeps.each (fun _ => keeps_modifyRemove) _
  · exact keeps_setFileTags
  · exact Keeps.fail

theorem keeps_upsertFileMeta : Keeps InStep (upsertFileMeta i k v src) :=
  Keeps.wrap (keeps_execFk fun _ _ hv hU h => h.upsertMeta hv hU)

theorem keeps_deleteFileMeta : Keeps InStep (deleteFileMeta path k) :=
  Keeps.andThen (Keeps.wrap keeps_queryRow) fun _ =>
    Keeps.wrap (keeps_exec fun _ hv h => h.deleteMetadata hv _)

theorem keeps_setProvenance {now : ℤ} : Keeps InStep (setProvenance i t src now) :=
  Keeps.wrap (keeps_execFk fun _ _ _ hU h => h.setTagProvenance hU)

theorem keeps_deleteFile : Keeps InStep (deleteFile path) := by
  refine Keeps.atomically (Keeps.andThen (Keeps.attempt keeps_queryRow) fun r => ?_)
  have hdelete : Keeps InStep (errorf "index: delete file %q: %w" [path]
      (exec (deleteFiles · fun f => f.path = path) fun _ h => Valid.deleteFiles h _)) :=
    Keeps.wrap (keeps_exec fun _ hv h => h.deleteFiles hv _)
  split
  · exact Keeps.andThen (Keeps.attempt (keeps_exec fun _ _ h => h.deleteEmbeddings)) fun _ => hdelete
  · exact hdelete

theorem keeps_deleteStaleFiles {since : ℤ} : Keeps InStep (deleteStaleFiles path since) :=
  Keeps.atomically (Keeps.andThen
    (Keeps.wrap (Keeps.stmt fun _ _ _ h hq => by cases hq; exact Mirrored.deleteEmbeddings h))
    fun _ => Keeps.wrap (keeps_exec fun _ hv h => h.deleteFiles hv _))

/-! ### Runs of methods -/

/-- A call of a method that writes. -/
inductive Method where
  | upsertFile (path : String) (st : FileStat) (now : ℤ) (lastInsertId : Except Error ℕ)
  | syncFileApply (path : String) (st : FileStat) (tagNames : List String)
      (metadata sourceMap : List (String × String)) (now : ℤ)
  | setFileTags (fileId : ℕ) (tagNames : List String)
  | modifyFileTags (path : String) (tags : List String) (op : String)
  | upsertMeta (fileId : ℕ) (key value source : String)
  | deleteMeta (path key : String)
  | setTagProvenance (fileId tagId : ℕ) (source : String) (now : ℤ)
  | deleteFile (path : String)
  | deleteStaleFiles (basePath : String) (since : ℤ)

/-- What the call runs; its result is dropped. -/
def Method.run : Method → Sql Unit
  | .upsertFile path st now lastInsertId => do let _ ← upsertFileRow path st now lastInsertId
  | .syncFileApply path st tagNames metadata sourceMap now => do
    let _ ← Store.syncFileApply path st tagNames metadata sourceMap now
  | .setFileTags fileId tagNames => Store.setFileTags fileId tagNames
  | .modifyFileTags path tags op => Store.modifyFileTags path tags op
  | .upsertMeta fileId key value source => upsertFileMeta fileId key value source
  | .deleteMeta path key => deleteFileMeta path key
  | .setTagProvenance fileId tagId source now => setProvenance fileId tagId source now
  | .deleteFile path => Store.deleteFile path
  | .deleteStaleFiles basePath since => Store.deleteStaleFiles basePath since

theorem keeps_run : ∀ m : Method, Keeps InStep m.run
  | .upsertFile .. => Keeps.andThen keeps_upsertFileRow fun _ => Keeps.ret
  | .syncFileApply .. => Keeps.andThen keeps_syncFileApply fun _ => Keeps.ret
  | .setFileTags .. => keeps_setFileTags
  | .modifyFileTags .. => keeps_modifyFileTags
  | .upsertMeta .. => keeps_upsertFileMeta
  | .deleteMeta .. => keeps_deleteFileMeta
  | .setTagProvenance .. => keeps_setProvenance
  | .deleteFile .. => keeps_deleteFile
  | .deleteStaleFiles .. => keeps_deleteStaleFiles

/-- The database after a run of calls; with each call, which of its statements fail. -/
def runAll (db : DB) (ms : List (Method × List Bool)) : DB :=
  ms.foldl (fun db m => (m.1.run ⟨db, m.2⟩).2.store) db

theorem inStep_runAll (ms : List (Method × List Bool)) {db : DB} (h : InStep db) :
    InStep (runAll db ms) := by
  induction ms generalizing db with
  | nil => exact h
  | cons m ms ih => exact ih ((keeps_run m.1).run (c := ⟨db, m.2⟩) h)

/-- What the tables promise their readers. -/
structure Consistent (T : Tables) : Prop where
  paths : (T.files.map FileRow.path).Nodup
  names : (T.tags.map TagRow.name).Nodup
  fileTags : ∀ r ∈ T.fileTags, (∃ f ∈ T.files, f.id = r.fileId) ∧ ∃ g ∈ T.tags, g.id = r.tagId
  metadata : ∀ m ∈ T.metadata, ∃ f ∈ T.files, f.id = m.fileId
  provenance : ∀ r ∈ T.tagProvenance,
    (∃ f ∈ T.files, f.id = r.fileId) ∧ ∃ g ∈ T.tags, g.id = r.tagId
  overrides : ∀ r ∈ T.tagOverrides, (∃ f ∈ T.files, f.id = r.fileId) ∧ ∃ g ∈ T.tags, g.id = r.tagId
  cardinality : ∀ g ∈ T.tags, g.cardinality = tagUses T g.id ∧ 0 ≤ g.cardinality
  fts : T.metadataFts.Perm (T.metadata.map ftsEntry)

theorem InStep.consistent {db : DB} (h : InStep db) : Consistent db.toTables where
  paths := db.valid.filesPath
  names := db.valid.tagsName
  fileTags r hr := ⟨db.valid.fileTagsFile r hr, db.valid.fileTagsTag r hr⟩
  metadata := db.valid.metaFile
  provenance r hr := ⟨db.valid.provFile r hr, db.valid.provTag r hr⟩
  overrides r hr := ⟨db.valid.overFile r hr, db.valid.overTag r hr⟩
  cardinality g hg := by
    have hcard := h.cardinality g hg
    exact ⟨hcard, by omega⟩
  fts := h.fts_perm db.valid

/-- **The index is consistent after every call.** From the migrated schema, after any run of calls,
with any failures of their statements. -/
theorem consistent_runAll (ms : List (Method × List Bool)) :
    Consistent (runAll DB.empty ms).toTables := by
  refine InStep.consistent (inStep_runAll ms ⟨?_, ?_⟩)
  · exact fun _ hg => absurd hg List.not_mem_nil
  · exact fun e => ⟨fun he => absurd he List.not_mem_nil, fun ⟨_, hm, _⟩ => absurd hm List.not_mem_nil⟩

/-- Two files share a tag, then one of them goes. -/
example : (runAll DB.empty [(.upsertFile "/a" ⟨1, 1, 1, 1⟩ 5 (.ok 1), []),
    (.syncFileApply "/b" ⟨2, 1, 1, 1⟩ ["x", "x"] [("k", "v"), ("k", "w")] [] 5, []),
    (.setFileTags 1 ["x"], []), (.deleteFile "/a", [])]).toTables =
    { files := [⟨2, "/b", 2, 1, 1, 1, 5⟩], tags := [⟨1, "x", 1⟩], fileTags := [⟨2, 1⟩],
      metadata := [⟨1, 2, "k", "w", "manual"⟩], metadataFts := [⟨1, "w"⟩] } := by decide +kernel

end Tilbo.Index.Consistency
