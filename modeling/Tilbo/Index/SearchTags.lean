import Tilbo.Index.Search

/-! # Searching by tags

The part of `SearchParams` that the tag directories of the mount use: tags to have, tags not to have, a
lower bound on the modification time, and `Untagged`. `Meets` says what these ask of a file, with the
list of tags read as a set. The query answers exactly that unless it asks for all of a list of tags in
which one is repeated: the count of distinct names is then compared with the length of the list, and no
file ever has as many. -/

namespace Tilbo.Index.SearchTags

open Tilbo.Lib.Rows Tilbo.Lib.Strings Tilbo.Index.Schema Tilbo.Index.Search
open Tilbo.Index.Schema.Tables

/-- A query without full text, metadata filters or vector. -/
structure TagQuery where
  tags : List String := []
  tagsAny : Bool := false
  tagExclude : List String := []
  mtimeSince : ℤ := 0
  untagged : Bool := false
  limit : ℕ := 0
  offset : ℕ := 0
  sortBy : List String := []

/-- The query as parameters of `Search`. -/
abbrev TagQuery.params (p : TagQuery) : SearchParams where
  tags := p.tags
  tagsAny := p.tagsAny
  tagExclude := p.tagExclude
  mtimeSince := p.mtimeSince
  untagged := p.untagged
  limit := p.limit
  offset := p.offset
  sortBy := p.sortBy

/-- Does the file carry the tags the query asks for? An empty list asks for nothing. -/
def Carries (T : Tables) (p : TagQuery) (f : FileRow) : Prop :=
  p.tags = [] ∨
    if p.tagsAny then ∃ t ∈ p.tags, T.Tagged f.id t else ∀ t ∈ p.tags, T.Tagged f.id t

/-- What the query asks of a file. -/
structure Meets (T : Tables) (p : TagQuery) (f : FileRow) : Prop where
  carries : Carries T p f
  excludes : ∀ t ∈ p.tagExclude, ¬ T.Tagged f.id t
  recent : 0 < p.mtimeSince → p.mtimeSince ≤ f.mtime
  bare : p.untagged = true → ∀ t, ¬ T.Tagged f.id t

section Search
variable {R : Type} [LinearOrder R] [Zero R]

variable {q : Sqlite R} {p : TagQuery} {f : FileRow}

theorem tagExclude_iff (db : DB) :
    tagExclude db.toTables p.params f = true ↔ ∀ t ∈ p.tagExclude, ¬ db.Tagged f.id t := by
  have hmem : ∀ t, t ∈ db.fileTagNames f.id ↔ db.Tagged f.id t := fun t => db.valid.mem_fileTagNames
  unfold tagExclude
  by_cases hnil : p.tagExclude = []
  · simp [hnil]
  · rw [if_neg hnil]
    simp only [Bool.not_eq_true', List.any_eq_false, decide_eq_true_eq, hmem]
    exact ⟨fun h t ht hf => h t hf ht, fun h t hf ht => h t ht hf⟩

theorem mtimeSince_iff : mtimeSince p.params f = true ↔ (0 < p.mtimeSince → p.mtimeSince ≤ f.mtime) := by
  unfold mtimeSince
  split_ifs with h
  · simp only [gt_iff_lt] at h ⊢
    simp [h]
  · simp only [gt_iff_lt] at h
    simp [h]

theorem untagged_iff (db : DB) :
    untagged db.toTables p.params f = true ↔ (p.untagged = true → ∀ t, ¬ db.Tagged f.id t) := by
  unfold untagged
  cases hu : p.untagged with
  | false => simp [hu]
  | true =>
    simp only [hu, if_true, Bool.not_eq_true', List.any_eq_false, decide_eq_true_eq,
      true_implies]
    refine ⟨fun h t ⟨r, hr, hrf, _⟩ => h r hr hrf, fun h r hr hrf => ?_⟩
    obtain ⟨g, hg, hgr⟩ := db.valid.fileTagsTag r hr
    exact h g.name ⟨r, hr, hrf, g, hg, hgr, rfl⟩

/-- How many of the names a file has are in the list. -/
theorem card_names_le (names : List String) {l : List String} (hl : l.Nodup) :
    (l.filter (· ∈ names)).dedup.length ≤ names.dedup.length := by
  rw [(hl.filter _).dedup]
  refine (List.subperm_of_subset (hl.filter _) fun t ht => ?_).length_le
  exact List.mem_dedup.mpr (by simpa using (List.mem_filter.mp ht).2)

/-- The count in `HAVING` is the length of a list without repetitions exactly if the file has all. -/
theorem card_names_eq_iff {l names : List String} (hl : l.Nodup) (hn : names.Nodup) :
    (l.filter (· ∈ names)).dedup.length = names.length ↔ ∀ t ∈ names, t ∈ l := by
  rw [(hl.filter _).dedup]
  refine ⟨fun h t ht => ?_, fun h => ?_⟩
  · have hsub : (l.filter (· ∈ names)).Subperm names :=
      List.subperm_of_subset (hl.filter _) fun t ht => by simpa using (List.mem_filter.mp ht).2
    have := (hsub.perm_of_length_le h.ge).mem_iff.mpr ht
    exact List.mem_of_mem_filter this
  · refine le_antisymm ?_ ?_
    · have := card_names_le names hl
      rwa [(hl.filter _).dedup, hn.dedup] at this
    · refine (List.subperm_of_subset hn fun t ht => ?_).length_le
      exact List.mem_filter.mpr ⟨h t ht, by simpa using ht⟩

theorem tagInclude_iff (db : DB) (h : p.tagsAny = true ∨ p.tags.Nodup) :
    tagInclude db.toTables p.params f = true ↔ Carries db.toTables p f := by
  have hmem : ∀ t, t ∈ db.fileTagNames f.id ↔ db.Tagged f.id t := fun t => db.valid.mem_fileTagNames
  unfold tagInclude Carries
  by_cases hnil : p.tags = []
  · simp [hnil]
  rw [if_neg hnil, or_iff_right hnil]
  by_cases hany : p.tagsAny = true
  · rw [if_pos hany, if_pos hany]
    simp only [List.any_eq_true, decide_eq_true_eq, hmem]
    exact ⟨fun ⟨t, hf, ht⟩ => ⟨t, ht, hf⟩, fun ⟨t, ht, hf⟩ => ⟨t, hf, ht⟩⟩
  · rw [if_neg hany, if_neg hany]
    simp only [decide_eq_true_eq, ← hmem]
    exact card_names_eq_iff (db.valid.fileTagNames_nodup _) (h.resolve_left hany)

omit [Zero R] in
theorem wanted_eq (T : Tables) : wanted q T p.params f =
    (tagInclude T p.params f && tagExclude T p.params f && mtimeSince p.params f &&
      untagged T p.params f) := by
  simp [wanted, TagQuery.params, pathFilter, applyMetaFilters, StringMap.get?]

omit [Zero R] in
theorem wanted_iff (db : DB) (h : p.tagsAny = true ∨ p.tags.Nodup) :
    wanted q db.toTables p.params f = true ↔ Meets db.toTables p f := by
  rw [wanted_eq]
  simp only [Bool.and_eq_true, tagInclude_iff db h, tagExclude_iff, mtimeSince_iff, untagged_iff]
  exact ⟨fun ⟨⟨⟨a, b⟩, c⟩, d⟩ => ⟨a, b, c, d⟩, fun ⟨a, b, c, d⟩ => ⟨⟨⟨a, b⟩, c⟩, d⟩⟩

/-! ### The result list -/

end Search

/-! ### A repeated tag -/

end Tilbo.Index.SearchTags
