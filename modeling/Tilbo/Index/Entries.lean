import Tilbo.Index.StoreRuns

/-! # What the index says of a path

The tags, the metadata and the provenance the index has under a path, and what `SyncFileApply` and the
deletion of files do to them, for the path they are about and for the others. -/

namespace Tilbo.Index.Entries

open Tilbo.Lib.Rows Tilbo.Lib.Txn Tilbo.Index.Schema Tilbo.Index.Statements Tilbo.Index.Store
open Tilbo.Index.StoreSpec Tilbo.Index.StoreRuns Tilbo.Index.Schema.Tables Tilbo.Lib.Txn.Prog

/-- The path is in the index with the tag. -/
def TagAt (s : DB) (path name : String) : Prop := ∃ i, s.fileId path = some i ∧ s.Tagged i name

/-- The path is in the index with the metadata value under the key. -/
def MetaAt (s : DB) (path key value : String) : Prop := ∃ i, s.fileId path = some i ∧ s.HasMeta i key value

/-- The path is in the index with the source of the tag. -/
def SourceAt (s : DB) (path name source : String) : Prop :=
  ∃ i, s.fileId path = some i ∧ s.HasProvenance i name source

/-- The two databases say the same of the path. -/
structure SameEntry (s s' : DB) (path : String) : Prop where
  tag : ∀ n, TagAt s' path n ↔ TagAt s path n
  value : ∀ k v, MetaAt s' path k v ↔ MetaAt s path k v
  source : ∀ n r, SourceAt s' path n r ↔ SourceAt s path n r

section SameEntry
variable {s s' s'' : DB} {path : String}

theorem SameEntry.refl (s : DB) (path : String) : SameEntry s s path :=
  ⟨fun _ => Iff.rfl, fun _ _ => Iff.rfl, fun _ _ => Iff.rfl⟩

theorem SameEntry.trans (h : SameEntry s s' path) (h' : SameEntry s' s'' path) : SameEntry s s'' path where
  tag n := (h'.tag n).trans (h.tag n)
  value k v := (h'.value k v).trans (h.value k v)
  source n r := (h'.source n r).trans (h.source n r)

end SameEntry

variable {s s' : DB} {path q : String} {i : ℕ}

/-! ### Under the id of the row -/

theorem tagAt_iff (hi : s.fileId path = some i) {n : String} : TagAt s path n ↔ s.Tagged i n := by
  simp [TagAt, hi]

theorem metaAt_iff (hi : s.fileId path = some i) {k v : String} : MetaAt s path k v ↔ s.HasMeta i k v := by
  simp [MetaAt, hi]

theorem sourceAt_iff (hi : s.fileId path = some i) {n r : String} :
    SourceAt s path n r ↔ s.HasProvenance i n r := by
  simp [SourceAt, hi]

/-- The index says nothing of a path that is not in it. -/
theorem not_metaAt (hno : s.fileId path = none) {k v : String} : ¬ MetaAt s path k v := by
  simp [MetaAt, hno]

/-- No row refers to the id a new file will get. -/
theorem metaAt_upsertId {k v : String} : s.HasMeta (upsertId s.toTables path) k v ↔ MetaAt s path k v := by
  cases hid : s.fileId path with
  | some i => rw [metaAt_iff hid, upsertId, hid, Option.getD_some]
  | none =>
    refine iff_of_false ?_ (not_metaAt hid)
    rintro ⟨r, hr, hri, -⟩
    obtain ⟨f, hf, hfr⟩ := s.valid.metaFile r hr
    rw [upsertId, hid, Option.getD_none] at hri
    exact ne_fresh hf (hfr.trans hri)

theorem sourceAt_upsertId {n r : String} :
    s.HasProvenance (upsertId s.toTables path) n r ↔ SourceAt s path n r := by
  cases hid : s.fileId path with
  | some i => rw [sourceAt_iff hid, upsertId, hid, Option.getD_some]
  | none =>
    refine iff_of_false ?_ (by simp [SourceAt, hid])
    rintro ⟨p, hp, hpi, -⟩
    obtain ⟨f, hf, hfp⟩ := s.valid.provFile p hp
    rw [upsertId, hid, Option.getD_none] at hpi
    exact ne_fresh hf (hfp.trans hpi)

/-! ### `SyncFileApply` -/

section Apply
variable {st : FileStat} {tagNames : List String} {metadata sourceMap : List (String × String)} {now : ℤ}

/-- The tags are replaced; keys of the metadata and of the provenance that are not given stay. -/
theorem tagAt_applied (h : Applied path st tagNames metadata sourceMap now i s s') (n : String) :
    TagAt s' path n ↔ n ∈ tagNames := (tagAt_iff h.fileId).trans (h.tagged n)

theorem metaAt_applied (h : Applied path st tagNames metadata sourceMap now i s s') (k v : String) :
    MetaAt s' path k v ↔ overlay metadata (MetaAt s path) k v := by
  have hold : s.HasMeta i = MetaAt s path := by
    funext k v
    rw [h.id, metaAt_upsertId]
  rw [metaAt_iff h.fileId, h.hasMeta, hold]

theorem sourceAt_applied (h : Applied path st tagNames metadata sourceMap now i s s') (n r : String) :
    SourceAt s' path n r ↔ overlay sourceMap (SourceAt s path) n r := by
  have hold : s.HasProvenance i = SourceAt s path := by
    funext n r
    rw [h.id, sourceAt_upsertId]
  rw [sourceAt_iff h.fileId, h.hasProvenance, hold]

/-- The other paths keep their entries. -/
theorem sameEntry_applied (h : Applied path st tagNames metadata sourceMap now i s s') (hq : q ≠ path) :
    SameEntry s s' q := by
  have hother : ∀ j, s.fileId q = some j → j ≠ i := fun j hj hji =>
    hq (fileId_inj ((h.fileId_other hq).trans hj) (hji ▸ h.fileId))
  refine ⟨fun n => ?_, fun k v => ?_, fun n r => ?_⟩ <;> refine exists_congr fun j => ?_ <;>
    rw [h.fileId_other hq] <;> refine and_congr_right fun hj => ?_
  · exact h.taggedOther j n (hother j hj)
  · exact h.hasMetaOther j k v (hother j hj)
  · exact h.hasProvenanceOther j n r (hother j hj)

end Apply

/-! ### Files that go -/

/-- A path has its values after a deletion if it had them before and is not one of those deleted. -/
theorem metaAt_removed {p : FileRow → Bool} (h : Removed p s s') {k v : String} :
    MetaAt s' path k v ↔ MetaAt s path k v ∧ ∀ f ∈ s.files, f.path = path → p f = false := by
  constructor
  · rintro ⟨i, hid, hv⟩
    obtain ⟨hid, hp⟩ := h.fileId_iff.mp hid
    refine ⟨⟨i, hid, ((h.hasMeta i k v).mp hv).1⟩, fun f hf hfp => ?_⟩
    by_contra hpf
    have hfi : f.id = i := Option.some.inj ((s.valid.fileId_iff.mpr ⟨f, hf, hfp, rfl⟩).symm.trans hid)
    rw [← hfi, picks_of_mem hf (by simpa using hpf)] at hp
    exact Bool.noConfusion hp
  · rintro ⟨⟨i, hid, hv⟩, hno⟩
    obtain ⟨f, hf, hfp, rfl⟩ := s.valid.fileId_iff.mp hid
    have hp : picks s.toTables p f.id = false := picks_false_of_mem s.valid hf (hno f hf hfp)
    exact ⟨f.id, h.fileId_iff.mpr ⟨hid, hp⟩, (h.hasMeta _ k v).mpr ⟨hv, hp⟩⟩

/-! ### Reassigned keys -/

section Overlay
variable {l : List (String × String)} {old : String → String → Prop} {k v : String}

theorem lastValue_none_iff : lastValue l k = none ↔ k ∉ l.map Prod.fst := by
  rw [lastValue, List.lookup_eq_none_iff]
  simp only [List.mem_reverse, bne_iff_ne, List.mem_map, not_exists, not_and]
  exact ⟨fun h p hp hk => h p hp hk.symm, fun h p hp hk => h p hp hk.symm⟩

/-- Assigning twice is assigning once. -/
theorem overlay_overlay : overlay l (overlay l old) k v ↔ overlay l old k v := by
  unfold overlay
  cases lastValue l k <;> rfl

/-- What was there before does not matter if all its keys are assigned. -/
theorem overlay_eq_iff : (∀ k v, overlay l old k v ↔ overlay l (fun _ _ => False) k v) ↔
    ∀ k v, old k v → k ∈ l.map Prod.fst := by
  refine ⟨fun h k v hold => ?_, fun h k v => ?_⟩
  · by_contra hk
    have hkv := h k v
    rw [overlay, overlay, lastValue_none_iff.mpr hk] at hkv
    exact hkv.mp hold
  · unfold overlay
    cases hl : lastValue l k with
    | some w => rfl
    | none => exact iff_false_intro fun hold => lastValue_none_iff.mp hl (h k v hold)

end Overlay

/-! ### `GetFileMeta` -/

/-- `DB.GetFileMeta`: the values and the sources, and nothing for a path that is not in the index. -/
def getFileMeta (path : String) : Sql (Option (List (String × String) × List (String × String))) := do
  match ← attempt (queryRow fun T => T.fileId path) with
  | .ok fileID => do
    let rows ← errorf "index: get meta %q: %w" [path]
      (query fun T => T.metadata.filter fun r => r.fileId = fileID)
    return some (rows.map fun r => (r.key, r.value), rows.map fun r => (r.key, r.source))
  | .error .noRows => return none
  | .error e => fail (.wrapped "index: get file for meta %q: %w" [path] e)

/-- `GetFileMeta` reports this value under the key, or none. -/
def Reports (s : DB) (path key : String) (x : Option String) : Prop :=
  ∃ r, Runs (getFileMeta path) s (.ok r) s ∧ (r.bind fun m => m.1.lookup key) = x

/-- What the index has for the path under the key. -/
def MetaIs (s : DB) (path key : String) (x : Option String) : Prop := ∀ v, MetaAt s path key v ↔ x = some v

theorem MetaIs.reports {s : DB} {path key : String} {x : Option String} (h : MetaIs s path key x) :
    Reports s path key x := by
  cases hid : s.fileId path with
  | none =>
    refine ⟨none, (runs_queryRow_none hid).attempt.andThen Runs.ret, ?_⟩
    cases x with
    | none => rfl
    | some v => exact absurd ((h v).mpr rfl) (not_metaAt hid)
  | some i =>
    have hquery : Runs (errorf "index: get meta %q: %w" [path]
        (query fun T => T.metadata.filter fun r => r.fileId = i)) s
        (.ok (s.metadata.filter fun r => r.fileId = i)) s := Runs.wrap (Runs.stmt rfl)
    refine ⟨_, (runs_queryRow hid).attempt.andThen (hquery.andThen Runs.ret), ?_⟩
    have hmem : ∀ {v}, (key, v) ∈ (s.metadata.filter fun r => r.fileId = i).map (fun r => (r.key, r.value)) ↔
        x = some v := by
      intro v
      rw [← h v, metaAt_iff hid]
      simp only [List.mem_map, List.mem_filter, decide_eq_true_eq, Prod.mk.injEq, and_assoc]
      rfl
    show List.lookup key _ = x
    cases hl : List.lookup key ((s.metadata.filter fun r => r.fileId = i).map fun r => (r.key, r.value)) with
    | some v =>
      obtain ⟨l₁, l₂, hsplit, -⟩ := List.lookup_eq_some_iff.mp hl
      exact (hmem.mp (by rw [hsplit]; simp)).symm
    | none =>
      cases x with
      | none => rfl
      | some v =>
        have hne := List.lookup_eq_none_iff.mp hl _ (hmem.mpr rfl)
        simp at hne

end Tilbo.Index.Entries
