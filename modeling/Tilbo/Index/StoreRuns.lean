import Tilbo.Index.StoreSpec

/-! # Operations of the index that nothing stops

With no failure from outside a statement can only be stopped by a missing parent row. `SyncFileApply`
inserts the row of the file and the names of its tags before the rows that refer to them, so it goes
through. -/

namespace Tilbo.Index.StoreRuns

open Tilbo.Lib.Rows Tilbo.Lib.Txn Tilbo.Index.Schema Tilbo.Index.Statements Tilbo.Index.Store
open Tilbo.Index.StoreSpec Tilbo.Index.Schema.Tables Tilbo.Lib.Txn.Prog

variable {α : Type} {s : DB} {i t : ℕ} {name path : String}

/-! ### Statements -/

theorem runs_queryRow {f : Tables → Option α} {a : α} (h : f s.toTables = some a) :
    Runs (queryRow f) s (.ok a) s := Runs.stmt (by simp only [h])

theorem runs_queryRow_none {f : Tables → Option α} (h : f s.toTables = none) :
    Runs (queryRow f) s (.error .noRows) s := Runs.stmt_error (by simp only [h])

theorem runs_exec {f : Tables → Tables} {h : ∀ T, T.Valid → (f T).Valid} :
    Runs (exec f h) s (.ok ()) ⟨f s.toTables, h _ s.valid⟩ := Runs.stmt rfl

theorem runs_execFk {f : Tables → Option Tables} {h : ∀ T U, T.Valid → f T = some U → U.Valid}
    (hf : f s.toTables ≠ none) :
    ∃ U hU, Runs (execFk f h) s (.ok ()) ⟨U, h _ _ s.valid hU⟩ := by
  obtain ⟨U, hU⟩ := Option.ne_none_iff_exists'.mp hf
  refine ⟨U, hU, Runs.stmt ?_⟩
  split
  · rename_i V hV
    obtain rfl := Option.some.inj (hV.symm.trans hU)
    rfl
  · rename_i hnone
    exact absurd (hnone.symm.trans hU) (by simp)

theorem runs_errorf {m : Sql α} {a : α} {s' : DB} {format : String} {args : List String}
    (h : Runs m s (.ok a) s') : Runs (errorf format args m) s (.ok a) s' := h.wrap

/-! ### `SyncFileApply` -/

theorem spends_resolveTagIDTx (s : DB) (name op label : String) : Spends (resolveTagIDTx name op label) s (1 + 1)
    fun t s' => s'.files = s.files ∧ has TagRow.id s'.tags t = true := by
  obtain ⟨t, g, hg, ht, hn⟩ := exists_nameOf_insertTag s.toTables name
  refine Spends.andThen (Spends.wrap (spends_exec (Spends.wrap (spends_queryRow (a := t) ?_ ?_))))
  · exact (Valid.insertTag s.valid).tagId_iff.mpr ⟨g, hg, ht, hn⟩
  · exact ⟨rfl, has_iff.mpr ⟨g, hg, ht⟩⟩

theorem spends_replaceFileTagsTx (names : List String) (op : String) (hi : has FileRow.id s.files i = true) :
    Spends (replaceFileTagsTx i names op) s (1 + names.length * (1 + 1 + 1)) fun _ s' => s'.files = s.files := by
  refine Spends.andThen (Spends.wrap (spends_exec ?_))
  refine Spends.each (I := fun s' : DB => s'.files = s.files) (fun name s₁ hs₁ => ?_) names rfl
  refine Spends.andThen ((spends_resolveTagIDTx s₁ name op "tag").mono fun t s₂ h => ?_)
  have hne : insertFileTag s₂.toTables i t ≠ none := insertFileTag_ne_none (by rw [h.1, hs₁]; exact hi) h.2
  refine Spends.wrap (spends_execFk hne fun U hU => ?_)
  unfold insertFileTag at hU
  split_ifs at hU <;> (cases hU; exact h.1.trans hs₁)

theorem runs_replaceFileTagsTx (names : List String) (op : String) (hi : has FileRow.id s.files i = true) :
    ∃ s', Runs (replaceFileTagsTx i names op) s (.ok ()) s' ∧ s'.files = s.files := by
  obtain ⟨_, s', hrun, hfiles⟩ := (spends_replaceFileTagsTx names op hi).runs
  exact ⟨s', hrun, hfiles⟩

theorem spends_upsertMetadataTx (metadata : List (String × String)) (hi : has FileRow.id s.files i = true) :
    Spends (upsertMetadataTx i metadata) s (metadata.length * 1) fun _ s' => s'.files = s.files := by
  refine Spends.each (I := fun s' : DB => s'.files = s.files) (fun kv s₁ hs₁ => ?_) metadata rfl
  have hne : upsertMeta s₁.toTables i kv.1 kv.2 "manual" ≠ none := by
    rw [upsertMeta, hs₁, if_pos hi]
    simp
  refine Spends.wrap (spends_execFk hne fun U hU => ?_)
  obtain ⟨m, fts, rfl⟩ := upsertMeta_shape hU
  exact hs₁

theorem spends_upsertTagProvenanceTx (sourceMap : List (String × String)) (now : ℤ)
    (hi : has FileRow.id s.files i = true) : Spends (upsertTagProvenanceTx i sourceMap now) s
      (sourceMap.length * (1 + 1 + 1)) fun _ s' => s'.files = s.files := by
  refine Spends.each (I := fun s' : DB => s'.files = s.files) (fun ts s₁ hs₁ => ?_) sourceMap rfl
  refine Spends.andThen ((spends_resolveTagIDTx s₁ ts.1 "SyncFileApply" "source tag").mono fun t s₂ h => ?_)
  have hne : setTagProvenance s₂.toTables i t ts.2 now ≠ none := by
    rw [setTagProvenance, h.1, hs₁, hi, h.2]
    simp
  refine Spends.wrap (spends_execFk hne fun U hU => ?_)
  obtain ⟨p, rfl⟩ := setTagProvenance_shape hU
  exact h.1.trans hs₁

theorem spends_upsertFileTx (s : DB) (path : String) (st : FileStat) (now : ℤ) :
    Spends (upsertFileTx path st now) s 1 fun i s' => has FileRow.id s'.files i = true := by
  have hid : (upsertFile s.toTables path st.inode st.device st.mtime st.size now).fileId path =
    some (upsertId s.toTables path) := fileId_upsertFile s.valid
  have hvalid : (upsertFile s.toTables path st.inode st.device st.mtime st.size now).Valid :=
    Valid.upsertFile s.valid _ _ _ _ _
  refine Spends.wrap (Spends.stmt (show _ = Except.ok (upsertId s.toTables path, (⟨_, hvalid⟩ : DB)) by
    simp only [hid]) ?_)
  obtain ⟨f, hf, -, hfi⟩ := hvalid.fileId_iff.mp hid
  exact has_iff.mpr ⟨f, hf, hfi⟩

/-- The statements of a `SyncFileApply`, with the begin and the commit of its transaction. -/
def applyStatements (tagNames : List String) (metadata sourceMap : List (String × String)) : ℕ :=
  1 + ((1 + ((1 + tagNames.length * (1 + 1 + 1)) + (metadata.length * 1 + (sourceMap.length * (1 + 1 + 1) + 0)))) +
    (1 + 0))

/-- **`SyncFileApply` is stopped by a failure only.** -/
theorem spends_syncFileApply (s : DB) (path : String) (st : FileStat) (tagNames : List String)
    (metadata sourceMap : List (String × String)) (now : ℤ) :
    Spends (syncFileApply path st tagNames metadata sourceMap now) s (applyStatements tagNames metadata sourceMap)
      fun _ _ => True := by
  refine Spends.atomically (Spends.andThen ((spends_upsertFileTx s path st now).mono fun i s₁ hi => ?_))
  refine Spends.andThen ((spends_replaceFileTagsTx tagNames "SyncFileApply" hi).mono fun _ s₂ h₂ => ?_)
  refine Spends.andThen ((spends_upsertMetadataTx metadata (by rw [h₂]; exact hi)).mono fun _ s₃ h₃ => ?_)
  refine Spends.andThen ((spends_upsertTagProvenanceTx sourceMap now (by rw [h₃, h₂]; exact hi)).mono fun _ s₄ _ => ?_)
  exact Spends.ret trivial

theorem runs_syncFileApply (s : DB) (path : String) (st : FileStat) (tagNames : List String)
    (metadata sourceMap : List (String × String)) (now : ℤ) :
    ∃ i s', Runs (syncFileApply path st tagNames metadata sourceMap now) s (.ok i) s' ∧
      Applied path st tagNames metadata sourceMap now i s s' := by
  obtain ⟨i, s', hrun, _⟩ := (spends_syncFileApply s path st tagNames metadata sourceMap now).runs
  exact ⟨i, s', hrun, wp_syncFileApply.ok hrun⟩

/-! ### `DeleteStaleFiles` -/

/-- The statements of a `DeleteStaleFiles`, with the begin and the commit of its transaction. -/
def purgeStatements : ℕ := 1 + ((1 + 1) + (1 + 0))

/-- `DeleteStaleFiles` is stopped by a failure only. -/
theorem spends_deleteStaleFiles (s : DB) (basePath : String) (since : ℤ) :
    Spends (deleteStaleFiles basePath since) s purgeStatements fun _ _ => True :=
  Spends.atomically (Spends.andThen (Spends.wrap (Spends.stmt rfl (Spends.wrap (spends_exec trivial)))))

end Tilbo.Index.StoreRuns
