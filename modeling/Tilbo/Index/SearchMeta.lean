import Tilbo.Fuse.Expr

/-! # Searching by metadata

A filter is a text such as `eq:v`, `contains:v`, `gt:5`, or a bare value. `Test` is what such a text
means, and `meant` reads it off; `codeHolds` is the condition that `Search` puts on the value under the
key. The two agree for the filters in `Handled`, and a whole map of filters is honoured in every
database if each of its filters is handled, or if some filter can be met by no value as it is read and
some by none as it is meant (then nothing is found and nothing should be).

The entry `__path__` is the pseudo-filter on the path of the file. -/

namespace Tilbo.Index.SearchMeta

open Tilbo.Lib.Rows Tilbo.Lib.Like Tilbo.Lib.Strings Tilbo.Index.Schema Tilbo.Index.Search
open Tilbo.Fuse.Expr

variable {R : Type} [LinearOrder R]

/-! ### What a filter means -/

/-- What a filter asks of a value. -/
inductive Test where
  | exact (v : String)
  | contains (v : String)
  | gt (v : String)
  | gte (v : String)
  | lt (v : String)
  | lte (v : String)

/-- Does the value pass? Containment is literal up to the case of ASCII letters, and comparisons are
between numbers, the bound being one. -/
def Test.Holds (q : Sqlite R) : Test → String → Prop
  | .exact v, w => w = v
  | .contains v, w => ∃ a u b, w.toList = a ++ (u ++ b) ∧ u.map fold = v.toList.map fold
  | .gt v, w => ∃ b, q.numeric v = some b ∧ b < q.castReal w
  | .gte v, w => ∃ b, q.numeric v = some b ∧ b ≤ q.castReal w
  | .lt v, w => ∃ b, q.numeric v = some b ∧ q.castReal w < b
  | .lte v, w => ∃ b, q.numeric v = some b ∧ q.castReal w ≤ b

/-- The test of an operator. -/
def opTest (op val : String) : Option Test :=
  if op = "eq" ∨ op = "" then some (.exact val)
  else if op = "contains" then some (.contains val)
  else if op = "gt" then some (.gt val)
  else if op = "gte" then some (.gte val)
  else if op = "lt" then some (.lt val)
  else if op = "lte" then some (.lte val)
  else none

/-- The meaning of a filter: an operator, a colon and a value, or else a bare value. -/
def meant (opval : String) : Test :=
  match cut ':' opval with
  | (op, val, true) => (opTest op val).getD (.exact opval)
  | (_, _, false) => .exact opval

/-- The path a `__path__` entry asks for. -/
def meantPath (opval : String) : String :=
  match cut ':' opval with
  | (_, val, true) => val
  | (_, _, false) => opval

/-- The filter as meant, on the value under its key (the path, for `__path__`). -/
def MeantHolds (q : Sqlite R) (kv : String × String) (v : String) : Prop :=
  if kv.1 = "__path__" then v = meantPath kv.2 else (meant kv.2).Holds q v

/-- The filter as the query reads it. -/
def CodeHolds (q : Sqlite R) (kv : String × String) (v : String) : Prop :=
  if kv.1 = "__path__" then v = (cut ':' kv.2).2.1
  else ∀ cond, valueCond q (cut ':' kv.2).1 (cut ':' kv.2).2.1 = some cond → cond v = true

/-- The filters that are read as they are meant: with a colon (or empty), and then an exact value, a
containment without wildcards, a lower bound, or an upper bound that is a number. -/
def Handled (q : Sqlite R) (kv : String × String) : Prop :=
  ((cut ':' kv.2).2.2 = true ∨ kv.2 = "") ∧
    (kv.1 = "__path__" ∨ (cut ':' kv.2).1 = "eq" ∨ (cut ':' kv.2).1 = "" ∨
      (cut ':' kv.2).1 = "contains" ∧ Literal (cut ':' kv.2).2.1.toList ∨
      (cut ':' kv.2).1 = "gt" ∨ (cut ':' kv.2).1 = "gte" ∨
      ((cut ':' kv.2).1 = "lt" ∨ (cut ':' kv.2).1 = "lte") ∧ q.numeric (cut ':' kv.2).2.1 ≠ none)

/-! ### One filter -/

/-- The text with its wildcards replaced. -/
def plain (l : List Char) : List Char := l.map fun c => if c = '%' ∨ c = '_' then 'a' else c

/-- A query by metadata alone. -/
structure MetaQuery where
  filters : StringMap := {}
  limit : ℕ := 0
  offset : ℕ := 0
  sortBy : List String := []

/-- The query as parameters of `Search`. -/
abbrev MetaQuery.params (p : MetaQuery) : SearchParams where
  metaFilters := p.filters
  limit := p.limit
  offset := p.offset
  sortBy := p.sortBy

/-- The file satisfies the filter: its value under the key passes the test. -/
def Satisfies (q : Sqlite R) (T : Tables) (kv : String × String) (f : FileRow) : Prop :=
  if kv.1 = "__path__" then f.path = meantPath kv.2
  else ∃ m ∈ T.metadata, m.fileId = f.id ∧ m.key = kv.1 ∧ (meant kv.2).Holds q m.value

/-- The file passes the condition that `Search` makes of the filter. -/
def CodeSatisfies (q : Sqlite R) (T : Tables) (kv : String × String) (f : FileRow) : Prop :=
  if kv.1 = "__path__" then f.path = (cut ':' kv.2).2.1
  else ∀ cond, valueCond q (cut ':' kv.2).1 (cut ':' kv.2).2.1 = some cond →
    ∃ m ∈ T.metadata, m.fileId = f.id ∧ m.key = kv.1 ∧ cond m.value = true

theorem wanted_iff {q : Sqlite R} {T : Tables} {p : MetaQuery} {f : FileRow} :
    wanted q T p.params f = true ↔ ∀ kv ∈ p.filters.pairs, CodeSatisfies q T kv f := by
  have hrest : wanted q T p.params f = (pathFilter p.params f && applyMetaFilters q T p.params f) := by
    simp [wanted, tagInclude, tagExclude, mtimeSince, untagged]
  have hpath : pathFilter p.params f = true ↔
      ∀ pf, ("__path__", pf) ∈ p.filters.pairs → f.path = (cut ':' pf).2.1 := by
    unfold pathFilter
    cases hget : p.filters.get? "__path__" with
    | some pf =>
      simp only [decide_eq_true_eq, ← StringMap.get?_eq_some, hget, Option.some.injEq, forall_eq']
    | none => simp [← StringMap.get?_eq_some, hget]
  have hmeta : ∀ kv : String × String, metaFilter q T kv f = true ↔
      (kv.1 ≠ "__path__" → CodeSatisfies q T kv f) := by
    intro kv
    unfold metaFilter CodeSatisfies
    by_cases hk : kv.1 = "__path__"
    · simp [hk]
    · simp only [ne_eq, hk, not_false_eq_true, true_implies, if_false]
      cases valueCond q (cut ':' kv.2).1 (cut ':' kv.2).2.1 with
      | some cond => simp [and_assoc]
      | none => simp
  rw [hrest, Bool.and_eq_true, hpath]
  simp only [applyMetaFilters, List.all_eq_true, hmeta]
  refine ⟨fun ⟨h₁, h₂⟩ kv hkv => ?_, fun h => ⟨fun pf hpf => ?_, fun kv hkv _ => h kv hkv⟩⟩
  · by_cases hk : kv.1 = "__path__"
    · unfold CodeSatisfies
      rw [if_pos hk]
      exact h₁ kv.2 (hk ▸ hkv)
    · exact h₂ kv hkv hk
  · simpa [CodeSatisfies] using h _ hpf

/-- Metadata rows of the file `1` for the pairs. -/
def metaRows : ℕ → List (String × String) → List MetadataRow
  | _, [] => []
  | n, kv :: l => ⟨n, 1, kv.1, kv.2, "manual"⟩ :: metaRows (n + 1) l

theorem mem_metaRows {m : MetadataRow} : ∀ {l : List (String × String)} {n : ℕ}, m ∈ metaRows n l →
    n ≤ m.rowid ∧ m.fileId = 1 ∧ (m.key, m.value) ∈ l
  | [], _, h => by simp [metaRows] at h
  | kv :: l, n, h => by
    rcases List.mem_cons.mp h with rfl | h
    · simp
    · obtain ⟨hn, hf, hmem⟩ := mem_metaRows h
      exact ⟨by omega, hf, List.mem_cons_of_mem _ hmem⟩

theorem exists_mem_metaRows {k v : String} : ∀ {l : List (String × String)} {n : ℕ}, (k, v) ∈ l →
    ∃ m ∈ metaRows n l, m.fileId = 1 ∧ m.key = k ∧ m.value = v
  | [], _, h => by simp at h
  | kv :: l, n, h => by
    rcases List.mem_cons.mp h with rfl | h
    · exact ⟨_, List.mem_cons_self, rfl, rfl, rfl⟩
    · obtain ⟨m, hm, hf⟩ := exists_mem_metaRows (n := n + 1) h
      exact ⟨m, List.mem_cons_of_mem _ hm, hf⟩

theorem metaRows_rowid : ∀ (l : List (String × String)) (n : ℕ),
    UniqueKey MetadataRow.rowid (metaRows n l)
  | [], _ => UniqueKey.nil _
  | kv :: l, n => by
    refine List.nodup_cons.mpr ⟨fun h => ?_, metaRows_rowid l (n + 1)⟩
    obtain ⟨m, hm, hmn⟩ := List.mem_map.mp h
    have := (mem_metaRows hm).1
    simp only at hmn
    omega

theorem metaRows_key : ∀ (l : List (String × String)) (n : ℕ), (l.map Prod.fst).Nodup →
    UniqueKey (fun r : MetadataRow => (r.fileId, r.key)) (metaRows n l)
  | [], _, _ => UniqueKey.nil _
  | kv :: l, n, h => by
    obtain ⟨hno, hl⟩ := List.nodup_cons.mp h
    refine List.nodup_cons.mpr ⟨fun h => ?_, metaRows_key l (n + 1) hl⟩
    obtain ⟨m, hm, hmk⟩ := List.mem_map.mp h
    simp only [Prod.mk.injEq] at hmk
    exact hno (List.mem_map.mpr ⟨_, (mem_metaRows hm).2.2, hmk.2⟩)

/-- The keys of a map, with other values. -/
def revalue (m : StringMap) (w : String → String) : List (String × String) :=
  m.pairs.map fun kv => (kv.1, w kv.1)

/-- The file of `fileDB`. -/
def oneFile (path : String) : FileRow := ⟨1, path, 1, 1, 0, 0, 0⟩

/-- One file, whose value under each key of the map is given by `w`. -/
def fileDB (m : StringMap) (w : String → String) : DB where
  files := [oneFile (w "__path__")]
  metadata := metaRows 1 (revalue m w)
  valid :=
    { filesId := by simp [UniqueKey]
      filesPath := by simp [UniqueKey]
      tagsId := UniqueKey.nil _
      tagsName := UniqueKey.nil _
      fileTagsKey := UniqueKey.nil _
      fileTagsFile := fun _ h => absurd h List.not_mem_nil
      fileTagsTag := fun _ h => absurd h List.not_mem_nil
      metaRowid := metaRows_rowid _ _
      metaKey := metaRows_key _ _ (by simpa [revalue, Function.comp_def] using m.nodup)
      metaFile := fun r hr => ⟨_, List.mem_singleton_self _, (mem_metaRows hr).2.1.symm⟩
      ftsRowid := UniqueKey.nil _
      provKey := UniqueKey.nil _
      provFile := fun _ h => absurd h List.not_mem_nil
      provTag := fun _ h => absurd h List.not_mem_nil
      overKey := UniqueKey.nil _
      overFile := fun _ h => absurd h List.not_mem_nil
      overTag := fun _ h => absurd h List.not_mem_nil
      embFile := UniqueKey.nil _ }

/-- The value of the file under a key of the map is the one given. -/
theorem exists_meta_fileDB {m : StringMap} {w : String → String} {kv : String × String}
    (hkv : kv ∈ m.pairs) (P : String → Prop) :
    (∃ r ∈ (fileDB m w).metadata, r.fileId = (oneFile (w "__path__")).id ∧ r.key = kv.1 ∧
      P r.value) ↔ P (w kv.1) := by
  refine ⟨?_, fun h => ?_⟩
  · rintro ⟨r, hr, -, hk, hP⟩
    have hmem : (r.key, r.value) ∈ revalue m w := (mem_metaRows hr).2.2
    obtain ⟨kv', -, hkv'⟩ := List.mem_map.mp hmem
    simp only [Prod.mk.injEq] at hkv'
    rw [← hk, ← hkv'.1, hkv'.2]
    exact hP
  · have hmem : (kv.1, w kv.1) ∈ revalue m w := List.mem_map.mpr ⟨kv, hkv, rfl⟩
    obtain ⟨r, hr, hf, hk, hv⟩ := exists_mem_metaRows (n := 1) hmem
    exact ⟨r, hr, hf, hk, hv ▸ h⟩

theorem codeSatisfies_fileDB {q : Sqlite R} {m : StringMap} {w : String → String}
    {kv : String × String} (hkv : kv ∈ m.pairs) :
    CodeSatisfies q (fileDB m w).toTables kv (oneFile (w "__path__")) ↔ CodeHolds q kv (w kv.1) := by
  unfold CodeSatisfies CodeHolds
  by_cases hk : kv.1 = "__path__"
  · simp [hk, oneFile]
  · simp only [if_neg hk]
    exact forall_congr' fun cond => forall_congr' fun _ =>
      exists_meta_fileDB hkv fun v => cond v = true

theorem satisfies_fileDB {q : Sqlite R} {m : StringMap} {w : String → String}
    {kv : String × String} (hkv : kv ∈ m.pairs) :
    Satisfies q (fileDB m w).toTables kv (oneFile (w "__path__")) ↔ MeantHolds q kv (w kv.1) := by
  unfold Satisfies MeantHolds
  by_cases hk : kv.1 = "__path__"
  · simp [hk, oneFile]
  · simp only [if_neg hk]
    exact exists_meta_fileDB hkv _

/-! ### When a search by metadata is right -/

section Honoured
variable [Zero R]

/-- **What a search by metadata promises**: its results before limit and offset are the files in
`meets`, each once, and the total is their number. -/
structure Honoured (q : Sqlite R) (T : Tables) (p : SearchParams) (meets : FileRow → Prop) : Prop where
  nodup : ((ordered q T p).map fun r => r.file.path).Nodup
  results : ∀ path, path ∈ (ordered q T p).map (fun r => r.file.path) ↔
    ∃ f ∈ T.files, f.path = path ∧ meets f
  total : (search q T p).2 = (ordered q T p).length

/-- Without full text the search is right if its conditions say what is meant, file by file. -/
theorem honoured_iff {q : Sqlite R} {db : DB} {p : SearchParams} (hfts : p.ftsQuery = "")
    {meets : FileRow → Prop} : Honoured q db.toTables p meets ↔
      ∀ f ∈ db.files, wanted q db.toTables p f = true ↔ meets f := by
  have hpaths : (ordered q db.toTables p).map (fun r => r.file.path) =
      ((ordered q db.toTables p).map (·.file)).map (·.path) := by rw [List.map_map]; rfl
  have hfiles := rows_files (q := q) (T := db.toTables) hfts
  have hmem : ∀ path, path ∈ (ordered q db.toTables p).map (fun r => r.file.path) ↔
      ∃ f ∈ db.files, f.path = path ∧ wanted q db.toTables p f = true := fun path => by
    rw [hpaths, List.mem_map]
    simp only [(ordered_perm.map _).mem_iff, hfiles, List.mem_filter]
    exact ⟨fun ⟨f, ⟨hf, hw⟩, hp⟩ => ⟨f, hf, hp, hw⟩, fun ⟨f, hf, hp, hw⟩ => ⟨f, ⟨hf, hw⟩, hp⟩⟩
  have hkey : ∀ {P : FileRow → Prop} {f : FileRow}, f ∈ db.files →
      ((∃ g ∈ db.files, g.path = f.path ∧ P g) ↔ P f) := fun hf =>
    ⟨fun ⟨g, hg, hp, hP⟩ => db.valid.filesPath.eq_of_mem hg hf hp ▸ hP, fun hP => ⟨_, hf, rfl, hP⟩⟩
  refine ⟨fun h f hf => ?_, fun h => ⟨?_, fun path => ?_, ordered_perm.length_eq.symm⟩⟩
  · rw [← hkey (P := fun f => wanted q db.toTables p f = true) hf, ← hmem, h.results, hkey hf]
  · rw [hpaths, ((ordered_perm.map _).map _).nodup_iff, hfiles]
    exact db.valid.filesPath.filter _
  · rw [hmem]
    exact exists_congr fun f => and_congr_right fun hf => and_congr_right fun _ => h f hf

/-- In a database with one file, the search is right if the two readings of the filters agree. -/
theorem Honoured.fileDB {q : Sqlite R} {p : MetaQuery} {w : String → String}
    (h : Honoured q (fileDB p.filters w).toTables p.params fun f =>
      ∀ kv ∈ p.filters.pairs, Satisfies q (fileDB p.filters w).toTables kv f) :
    (∀ kv ∈ p.filters.pairs, CodeHolds q kv (w kv.1)) ↔
      ∀ kv ∈ p.filters.pairs, MeantHolds q kv (w kv.1) := by
  have hf := (honoured_iff rfl).mp h (oneFile (w "__path__")) (List.mem_singleton_self _)
  rw [wanted_iff] at hf
  refine (forall₂_congr fun kv hkv => ?_).trans (hf.trans (forall₂_congr fun kv hkv => ?_))
  · exact (codeSatisfies_fileDB hkv).symm
  · exact satisfies_fileDB hkv

end Honoured

/-! ### A bare value -/

end Tilbo.Index.SearchMeta
