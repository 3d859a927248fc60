import Tilbo.Index.Entries

/-! # What the operations do to files, metadata and embeddings

A coarser reading of the methods than that of `StoreSpec`: what becomes of the rows of `files`, `metadata`
and `file_embeddings`. Most methods leave all three alone (`SameRows`). -/

namespace Tilbo.Index.RowSpec

open Tilbo.Lib.Rows Tilbo.Lib.Txn Tilbo.Index.Schema Tilbo.Index.Statements Tilbo.Index.Store
open Tilbo.Index.StoreSpec Tilbo.Index.Schema.Tables Tilbo.Lib.Txn.Prog

/-- The files, the metadata and the embeddings are as before. -/
structure SameRows (s s' : DB) : Prop where
  files : s'.files = s.files
  metadata : s'.metadata = s.metadata
  embeddings : s'.fileEmbeddings = s.fileEmbeddings

/-- The metadata of one file under one key was set, or deleted. -/
structure WroteMeta (i : ℕ) (key : String) (value : Option String) (s s' : DB) : Prop where
  files : s'.files = s.files
  embeddings : s'.fileEmbeddings = s.fileEmbeddings
  hasMeta : ∀ j l w, s'.HasMeta j l w ↔ if j = i ∧ l = key then value = some w else s.HasMeta j l w

/-- The embedding under one id was replaced. -/
structure WroteEmbedding (i : ℕ) (vec : List UInt32) (s s' : DB) : Prop where
  files : s'.files = s.files
  metadata : s'.metadata = s.metadata
  embeddings : ∀ r, r ∈ s'.fileEmbeddings ↔ r ∈ s.fileEmbeddings ∧ r.fileId ≠ i ∨ r = ⟨i, vec⟩

variable {s s' s'' : DB} {path name : String} {i t : ℕ}

theorem SameRows.refl (s : DB) : SameRows s s := ⟨rfl, rfl, rfl⟩

theorem SameRows.trans (h : SameRows s s') (h' : SameRows s' s'') : SameRows s s'' :=
  ⟨h'.files.trans h.files, h'.metadata.trans h.metadata, h'.embeddings.trans h.embeddings⟩

theorem sameRows_frame {p : ℕ → Prop} (h : Frame p s s') : SameRows s s' := ⟨h.files, h.metadata, h.embeddings⟩

/-! ### Methods that leave the rows alone -/

/-- Whatever fails, the rows are as before. -/
def KeepsRows {α : Type} (m : Sql α) : Prop := ∀ s, wp m (fun _ => SameRows s) (fun _ => SameRows s) s

theorem keepsRows_setFileTags {names : List String} : KeepsRows (setFileTags i names) := fun s =>
  wp_setFileTags.mono (fun _ _ h => sameRows_frame h.1) fun _ _ h => h ▸ SameRows.refl s

theorem keepsRows_modifyFileTags {tags : List String} {op : String} :
    KeepsRows (modifyFileTags path tags op) := by
  refine fun s => wp_modifyFileTags.mono (fun _ _ h => ?_) fun _ _ h => ?_
  · obtain ⟨-, i, -, hframe, -⟩ := h
    exact sameRows_frame hframe
  · rcases h with rfl | ⟨-, i, -, hframe, -⟩
    · exact SameRows.refl _
    · exact sameRows_frame hframe

theorem keepsRows_upsertTag : KeepsRows (upsertTag name) := fun s =>
  wp_upsertTag (fun _ _ h _ => sameRows_frame h) fun _ => SameRows.refl s

theorem keepsRows_setProvenance {source : String} {now : ℤ} : KeepsRows (setProvenance i t source now) := by
  refine fun s => wp_errorf (wp_execFk (fun U hU => ?_) (fun _ => SameRows.refl s) (SameRows.refl s))
  obtain ⟨m, rfl⟩ := setTagProvenance_shape hU
  exact ⟨rfl, rfl, rfl⟩

/-! ### Metadata -/

theorem wp_upsertFileMeta_rows {key value source : String} :
    wp (upsertFileMeta i key value source) (fun _ s' => WroteMeta i key (some value) s s')
      (fun _ s' => s' = s) s := by
  refine wp_errorf (wp_execFk (fun U hU => ?_) (fun _ => rfl) rfl)
  have hm := fun j l w => hasMeta_upsertMeta (j := j) hU (l := l) (w := w)
  obtain ⟨m, fts, rfl⟩ := upsertMeta_shape hU
  refine ⟨rfl, rfl, fun j l w => (hm j l w).trans ?_⟩
  split_ifs
  · rw [Option.some.injEq, eq_comm]
  · exact Iff.rfl

theorem wp_deleteFileMeta_rows {key : String} :
    wp (deleteFileMeta path key)
      (fun _ s' => ∃ i, s.fileId path = some i ∧ WroteMeta i key none s s') (fun _ s' => s' = s) s := by
  refine wp_andThen (wp_errorf (wp_queryRow (fun i hi => ?_) (fun _ => rfl) rfl))
  refine wp_errorf (wp_exec ⟨i, hi, rfl, rfl, fun j l w => ?_⟩ rfl)
  refine ⟨?_, ?_⟩
  · rintro ⟨r, hr, rfl, rfl, rfl⟩
    obtain ⟨hr, hno⟩ := List.mem_filter.mp hr
    have hne : ¬ (r.fileId = i ∧ r.key = key) := by simpa [imp_iff_not_or] using hno
    rw [if_neg hne]
    exact ⟨r, hr, rfl, rfl, rfl⟩
  · split_ifs with hjk
    · intro h
      cases h
    · rintro ⟨r, hr, rfl, rfl, rfl⟩
      exact ⟨r, List.mem_filter.mpr ⟨hr, by simpa [imp_iff_not_or] using hjk⟩, rfl, rfl, rfl⟩

/-! ### Embeddings -/

theorem wp_upsertEmbedding_rows {vec : List UInt32} :
    wp (upsertEmbedding i vec) (fun _ s' => WroteEmbedding i vec s s') (fun _ s' => s' = s) s := by
  unfold upsertEmbedding
  split_ifs
  · exact wp_fail rfl
  refine wp_tx (wp_andThen (wp_errorf (wp_exec ?_ trivial)))
  refine wp_errorf (wp_execFk (fun U hU => ?_) (fun _ => trivial) trivial)
  unfold insertEmbedding at hU
  split_ifs at hU
  cases hU
  refine ⟨rfl, rfl, fun r => ?_⟩
  simp [deleteEmbeddings]

/-! ### Deleting files -/

/-- The files that `p` picks are gone with what hangs on them; their embeddings may have stayed. -/
structure Deleted (p : FileRow → Bool) (s s' : DB) : Prop where
  removed : Removed p s s'
  embeddings : ∀ r ∈ s'.fileEmbeddings, r ∈ s.fileEmbeddings

/-- No embedding of a file that `p` picks is left. -/
def Purged (p : FileRow → Bool) (s s' : DB) : Prop :=
  ∀ r ∈ s'.fileEmbeddings, picks s.toTables p r.fileId = false

theorem wp_deleteStaleFiles_rows {since : ℤ} :
    wp (deleteStaleFiles path since)
      (fun _ s' => Deleted (stale path since) s s' ∧ Purged (stale path since) s s')
      (fun _ s' => s' = s) s := by
  have hembeddings : wp (deleteStaleFiles path since) (fun _ s' => ∀ r ∈ s'.fileEmbeddings,
      r ∈ s.fileEmbeddings ∧ picks s.toTables (stale path since) r.fileId = false) (fun _ s' => s' = s) s := by
    refine wp_tx (wp_andThen (wp_errorf (wp_stmt trivial ?_)))
    refine wp_errorf (wp_exec (fun r hr => ?_) trivial)
    obtain ⟨hr, hno⟩ := List.mem_filter.mp hr
    exact ⟨hr, by simpa using hno⟩
  refine (wp_deleteStaleFiles.and hembeddings).mono (fun _ s' h => ?_) fun _ _ h => h.1
  exact ⟨⟨h.1, fun r hr => (h.2 r hr).1⟩, fun r hr => (h.2 r hr).2⟩

theorem wp_deleteFile_rows :
    wp (deleteFile path) (fun _ s' => Deleted (fun f => f.path = path) s s') (fun _ s' => s' = s) s := by
  have hembeddings : wp (deleteFile path) (fun _ s' => ∀ r ∈ s'.fileEmbeddings, r ∈ s.fileEmbeddings)
      (fun _ s' => s' = s) s := by
    have hdelete : ∀ s₁ : DB, (∀ r ∈ s₁.fileEmbeddings, r ∈ s.fileEmbeddings) →
        wp (errorf "index: delete file %q: %w" [path]
          (exec (deleteFiles · fun f => f.path = path) fun _ h => Valid.deleteFiles h _))
          (fun _ s' => ∀ r ∈ s'.fileEmbeddings, r ∈ s.fileEmbeddings) (fun _ _ => True) s₁ :=
      fun s₁ h₁ => wp_errorf (wp_exec h₁ trivial)
    refine wp_tx (wp_andThen (wp_attempt (wp_queryRow (fun i _ => ?_) (fun _ => ?_) ?_)))
    · refine wp_andThen (wp_attempt (wp_exec ?_ ?_))
      · exact hdelete _ fun r hr => List.mem_of_mem_filter hr
      · exact hdelete s fun r hr => hr
    · exact hdelete s fun r hr => hr
    · exact hdelete s fun r hr => hr
  exact (wp_deleteFile.and hembeddings).mono (fun _ s' h => ⟨h.1, h.2⟩) fun _ _ h => h.1

/-- `DeleteFile` drops the errors of the statements that look for the embedding and delete it: if neither
fails, the embedding goes with the file. -/
theorem purged_deleteFile {fs : List Bool} {c : Conn DB} (hfs : true ∉ fs.take 3)
    (hrun : deleteFile path ⟨s, fs⟩ = (.ok (), c)) : Purged (fun f => f.path = path) s c.store := by
  have hflags : fs.tail.headD false = false ∧ fs.tail.tail.headD false = false := by
    rcases fs with _ | ⟨a, _ | ⟨b, _ | ⟨c, fs⟩⟩⟩ <;> simp_all
  obtain ⟨hlookup, hembedding⟩ := hflags
  obtain ⟨c₁, hbody, hstore⟩ := atomically_ok hrun
  obtain ⟨r, c₂, hquery, hrest⟩ := andThen_ok hbody
  rw [hstore]
  have hpicked : ∀ {j}, picks s.toTables (fun f => f.path = path) j = true → s.fileId path = some j := by
    intro j hpick
    simp only [picks, List.any_eq_true, Bool.and_eq_true, decide_eq_true_eq] at hpick
    obtain ⟨f, hf, hfp, rfl⟩ := hpick
    exact s.valid.fileId_iff.mpr ⟨f, hf, hfp, rfl⟩
  cases hid : s.fileId path with
  | none =>
    intro r _
    refine Bool.eq_false_iff.mpr fun hpick => ?_
    exact absurd ((hpicked hpick).symm.trans hid) (by simp)
  | some i =>
    simp only [Prog.attempt, queryRow, stmt, hlookup, hid, Bool.false_eq_true, if_false] at hquery
    cases hquery
    obtain ⟨r, c₃, hdelete, hfiles⟩ := andThen_ok hrest
    simp only [Prog.attempt, exec, stmt, hembedding, Bool.false_eq_true, if_false] at hdelete
    cases hdelete
    have hkept : ∀ s₁ : DB, wp (Store.errorf "index: delete file %q: %w" [path]
        (exec (deleteFiles · fun f => f.path = path) fun _ h => Valid.deleteFiles h _))
        (fun _ s' => s'.fileEmbeddings = s₁.fileEmbeddings) (fun _ _ => True) s₁ :=
      fun s₁ => wp_errorf (wp_exec rfl trivial)
    intro r hr
    rw [(hkept _).ok hfiles] at hr
    obtain ⟨hr, hno⟩ := List.mem_filter.mp hr
    refine Bool.eq_false_iff.mpr fun hpick => ?_
    have hri : r.fileId = i := Option.some.inj ((hpicked hpick).symm.trans hid)
    simp [hri] at hno

end Tilbo.Index.RowSpec
