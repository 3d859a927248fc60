import Tilbo.Fuse.Grammar
import Mathlib

/-! # The directories of the mount that list tags

`Root` and `BrowseDir` list tags by their encoded names and take a name back to a node. A listed tag can be
entered from both exactly if its name is one the kernel takes for a file name and `ParseExpr` for a single
tag (`entered_iff`). -/

namespace Tilbo.Fuse.Listing

open Tilbo.Fuse.Grammar Tilbo.Index.Schema

/-- `BrowseDir`: the tags all files of it must have, and those none may have. -/
structure BrowseDir where
  includeTags : List GoString := []
  excludeTags : List GoString := []
deriving DecidableEq, Repr

/-- What a lookup gives. -/
inductive Node where
  | tagDir (name : String) (expr : Expr)
  | browseDir (d : BrowseDir)
  | browseFilesDir (d : BrowseDir)
deriving DecidableEq, Repr

/-! ### Queries -/

/-- `DB.ListAllTags`. -/
def listAllTags (T : Tables) : List String := (T.tags.map TagRow.name).insertionSort (· ≤ ·)

/-- The tags of a file that are in the list, each once. -/
def tagsAmong (T : Tables) (fileId : ℕ) (tags : List GoString) : List String :=
  ((T.fileTagNames fileId).filter fun n => utf8 n ∈ tags).dedup

/-- The subquery for the files: they have all include tags and no exclude tag. -/
def qualifies (T : Tables) (d : BrowseDir) (fileId : ℕ) : Bool :=
  (T.files.any fun f => f.id = fileId) &&
    (d.includeTags = [] || (tagsAmong T fileId d.includeTags).length = d.includeTags.length) &&
    tagsAmong T fileId d.excludeTags = []

/-- `DB.ListCooccurringTags`. -/
def listCooccurringTags (T : Tables) (d : BrowseDir) : List String :=
  (((T.tags.filter fun g => T.fileTags.any fun r => r.tagId = g.id && qualifies T d r.fileId).map
    TagRow.name).dedup.filter fun n => utf8 n ∉ d.includeTags ++ d.excludeTags).insertionSort (· ≤ ·)

/-! ### Directories -/

/-- `Root.Readdir`. -/
def rootReaddir (T : Tables) : List String :=
  (listAllTags T).map percentEncode ++ ["@recent", "@untagged", "@browse"]

/-- `Root.Lookup`; `none` is `ENOENT`. -/
def rootLookup (isPrint : Char → Bool) (clock : Clock) (name : String) : Option Node :=
  if name = "@browse" then some (.browseDir {})
  else match parseExpr isPrint clock name with
    | .error _ => none
    | .ok expr => some (.tagDir name expr)

/-- `BrowseDir.Readdir`. -/
def BrowseDir.readdir (T : Tables) (d : BrowseDir) : List String :=
  "@files" :: (listCooccurringTags T d).map percentEncode

/-- `BrowseDir.Lookup`. -/
def BrowseDir.lookup (d : BrowseDir) (name : String) : Option Node :=
  if name = "@files" then some (.browseFilesDir d)
  else
    let isNot := name.toList.head? = some '!'
    match percentDecode (if isNot then name.toList.tail else name.toList) with
    | .error _ => none
    | .ok decoded =>
      if decoded = [] then none
      else if isNot then some (.browseDir { d with excludeTags := d.excludeTags ++ [decoded] })
      else some (.browseDir { d with includeTags := d.includeTags ++ [decoded] })

/-! ### What can be entered -/

/-- A name the kernel accepts for a directory entry. -/
def Legal (name : String) : Prop := name ≠ "" ∧ '/' ∉ name.toList ∧ name ≠ "." ∧ name ≠ ".."

/-- Every tag can be entered by its listed name, from the root and from every directory that lists it, and
no listing has a name twice. -/
structure AllEntered (isPrint : Char → Bool) (clock : Clock) (T : Tables) : Prop where
  root : ∀ t ∈ listAllTags T, Legal (percentEncode t) ∧
    rootLookup isPrint clock (percentEncode t) = some (.tagDir (percentEncode t) (.tag [utf8 t] false []))
  browse : ∀ (d : BrowseDir), ∀ t ∈ listCooccurringTags T d, d.lookup (percentEncode t) =
    some (.browseDir { d with includeTags := d.includeTags ++ [utf8 t] })
  rootDistinct : (rootReaddir T).Nodup
  browseDistinct : ∀ d : BrowseDir, (d.readdir T).Nodup

/-- A tag that is a file name and, encoded, an expression for itself. -/
def Enterable (isPrint : Char → Bool) (t : String) : Prop :=
  t ≠ "" ∧ t ≠ "." ∧ t ≠ ".." ∧ '/' ∉ t.toList ∧ t.toList.head? ≠ some '@' ∧ ∀ c ∈ t.toList, isPrint c = true

section Entered
variable {isPrint : Char → Bool} {clock : Clock} {t : String} {d : BrowseDir}

theorem legal_percentEncode : Legal (percentEncode t) ↔ t ≠ "" ∧ '/' ∉ t.toList ∧ t ≠ "." ∧ t ≠ ".." := by
  have hfix : ∀ s, percentEncode s = s → (percentEncode t = s ↔ t = s) := fun s hs =>
    ⟨fun h => percentEncode_inj (h.trans hs.symm), fun h => h ▸ hs⟩
  have hslash : '/' ∈ (percentEncode t).toList ↔ '/' ∈ t.toList :=
    ⟨fun h => (mem_percentEncode h).resolve_right (by simp), fun h => mem_percentEncode_of_mem h (by simp)⟩
  unfold Legal
  rw [Ne, hfix "" (by decide), hslash, Ne, hfix "." (by decide), Ne, hfix ".." (by decide)]

/-- `parseSpecial` gives no tags. -/
theorem parseSpecial_ne_tag {name : List Char} {tags exc : List GoString} {b : Bool} :
    parseSpecial clock name ≠ .ok (.tag tags b exc) := by
  unfold parseSpecial
  repeat' split
  all_goals simp

/-- From the root: exactly the tags that are printable and do not look special. -/
theorem rootLookup_percentEncode (hascii : ∀ c, ' ' ≤ c → c ≤ '~' → isPrint c = true) :
    rootLookup isPrint clock (percentEncode t) = some (.tagDir (percentEncode t) (.tag [utf8 t] false [])) ↔
      t ≠ "" ∧ t.toList.head? ≠ some '@' ∧ ∀ c ∈ t.toList, isPrint c = true := by
  have hprint : (∀ c ∈ (percentEncode t).toList, isPrint c = true) ↔ ∀ c ∈ t.toList, isPrint c = true := by
    refine ⟨fun h c hc => ?_, fun h c hc => ?_⟩
    · by_cases hspecial : c ∈ ['%', '+', ',', '!']
      · simp only [List.mem_cons, List.not_mem_nil, or_false] at hspecial
        rcases hspecial with rfl | rfl | rfl | rfl <;> exact hascii _ (by decide) (by decide)
      · exact h c (mem_percentEncode_of_mem hc hspecial)
    · rcases mem_percentEncode hc with hc | hc
      · exact h c hc
      · simp only [List.mem_cons, List.not_mem_nil, or_false] at hc
        rcases hc with rfl | rfl | rfl | rfl | rfl | rfl <;> exact hascii _ (by decide) (by decide)
  have hhead := head_percentEncode (t := t) (c := '@') (by simp)
  by_cases hat : t.toList.head? = some '@'
  · refine iff_of_false (fun h => ?_) fun h => h.2.1 hat
    unfold rootLookup parseExpr at h
    rw [if_pos (hhead.mpr hat)] at h
    split at h
    · simp at h
    split at h
    · simp at h
    · rename_i expr hexpr
      obtain rfl : expr = .tag [utf8 t] false [] := by simpa using h
      exact parseSpecial_ne_tag hexpr
  · have hbrowse : percentEncode t ≠ "@browse" := fun h => hat (hhead.mp (by rw [h]; decide))
    unfold rootLookup parseExpr
    rw [if_neg hbrowse, if_neg (mt hhead.mp hat), ← hprint]
    refine ⟨fun h => ⟨fun ht => ?_, hat, fun c hc => ?_⟩, fun h => ?_⟩
    · rw [ht] at h
      simp [percentEncode, parseTagExpr] at h
    · by_contra hno
      have hany : ((percentEncode t).toList.any fun r => !isPrint r) = true :=
        List.any_eq_true.mpr ⟨c, hc, by simpa using hno⟩
      rw [parseTagExpr, if_neg (List.ne_nil_of_mem hc), if_pos hany] at h
      simp at h
    · rw [parseTagExpr_percentEncode h.1 h.2.2]

/-- From a browse directory: all tags but the empty one and the one called like the files. -/
theorem lookup_percentEncode (ht : t ≠ "") (hfiles : t ≠ "@files") : d.lookup (percentEncode t) =
    some (.browseDir { d with includeTags := d.includeTags ++ [utf8 t] }) := by
  have hne : percentEncode t ≠ "@files" := fun h => hfiles (percentEncode_inj (h.trans (by decide)))
  have hbang : (percentEncode t).toList.head? ≠ some '!' := fun h =>
    separator_not_mem (d := '!') (by simp) t (List.mem_of_mem_head? h)
  have hutf8 : utf8 t ≠ [] := fun h => ht (utf8_inj (h.trans rfl))
  unfold BrowseDir.lookup
  simp only [if_neg hne, hbang, if_false, percentDecode_percentEncode, if_neg hutf8]

theorem mem_listAllTags {T : Tables} : t ∈ listAllTags T ↔ ∃ g ∈ T.tags, g.name = t := by
  rw [listAllTags, List.mem_insertionSort, List.mem_map]

theorem mem_tags_of_listed {T : Tables} (h : t ∈ listCooccurringTags T d) : ∃ g ∈ T.tags, g.name = t := by
  rw [listCooccurringTags, List.mem_insertionSort, List.mem_filter, List.mem_dedup, List.mem_map] at h
  obtain ⟨⟨g, hg, rfl⟩, -⟩ := h
  exact ⟨g, List.mem_of_mem_filter hg, rfl⟩

/-- **When everything listed can be entered.** For every state of the index: exactly if each of its tags is a
file name, printable, and does not start with `@`. -/
theorem entered_iff (hascii : ∀ c, ' ' ≤ c → c ≤ '~' → isPrint c = true) (db : DB) :
    AllEntered isPrint clock db.toTables ↔ ∀ g ∈ db.tags, Enterable isPrint g.name := by
  refine ⟨fun h g hg => ?_, fun h => ?_⟩
  · obtain ⟨hlegal, hroot⟩ := h.root g.name (mem_listAllTags.mpr ⟨g, hg, rfl⟩)
    obtain ⟨hne, hslash, hdot, hdots⟩ := legal_percentEncode.mp hlegal
    obtain ⟨-, hat, hp⟩ := (rootLookup_percentEncode hascii).mp hroot
    exact ⟨hne, hdot, hdots, hslash, hat, hp⟩
  · have hall : ∀ t, (∃ g ∈ db.tags, g.name = t) → Enterable isPrint t := by
      rintro _ ⟨g, hg, rfl⟩
      exact h g hg
    have hspecial : ∀ {s : String}, s.toList.head? = some '@' → ∀ t, (∃ g ∈ db.tags, g.name = t) →
        percentEncode t ≠ s := fun hs t ht heq =>
      (hall t ht).2.2.2.2.1 ((head_percentEncode (by simp)).mp (heq ▸ hs))
    refine ⟨fun t ht => ?_, fun d t ht => ?_, ?_, fun d => ?_⟩
    · obtain ⟨hne, hdot, hdots, hslash, hat, hp⟩ := hall t (mem_listAllTags.mp ht)
      exact ⟨legal_percentEncode.mpr ⟨hne, hslash, hdot, hdots⟩,
        (rootLookup_percentEncode hascii).mpr ⟨hne, hat, hp⟩⟩
    · obtain ⟨hne, -, -, -, hat, -⟩ := hall t (mem_tags_of_listed ht)
      exact lookup_percentEncode hne fun hf => hat (by rw [hf]; decide)
    · have hsorted : (listAllTags db.toTables).Nodup :=
        (List.perm_insertionSort _ _).nodup_iff.mpr db.valid.tagsName
      refine List.nodup_append.mpr ⟨hsorted.map fun _ _ => percentEncode_inj, by decide, ?_⟩
      rintro _ ht s hs rfl
      obtain ⟨t, ht', rfl⟩ := List.mem_map.mp ht
      simp only [List.mem_cons, List.not_mem_nil, or_false] at hs
      rcases hs with hs | hs | hs <;> exact hspecial (by decide) t (mem_listAllTags.mp ht') hs
    · have hsorted : (listCooccurringTags db.toTables d).Nodup :=
        (List.perm_insertionSort _ _).nodup_iff.mpr ((List.nodup_dedup _).filter _)
      refine List.nodup_cons.mpr ⟨fun hmem => ?_, hsorted.map fun _ _ => percentEncode_inj⟩
      obtain ⟨t, ht, heq⟩ := List.mem_map.mp hmem
      exact hspecial (by decide) t (mem_tags_of_listed ht) heq

end Entered

/-! ### A tag that starts with `@` -/

/-- An index with the tag `@home`. -/
def homeDB : DB := ⟨{ files := [⟨1, "/a", 0, 0, 0, 0, 0⟩], tags := [⟨1, "@home", 1⟩], fileTags := [⟨1, 1⟩] },
  by decide⟩

/-- The printable characters of ASCII. -/
def asciiPrint (c : Char) : Bool := ' ' ≤ c && c ≤ '~'

/-- The root lists `@home`, and has no such directory. -/
theorem home_not_entered : ¬ AllEntered asciiPrint ⟨0, 0⟩ homeDB.toTables := by
  intro h
  have hroot := (h.root "@home" (mem_listAllTags.mpr ⟨⟨1, "@home", 1⟩, by decide, rfl⟩)).2
  have hnone : rootLookup asciiPrint ⟨0, 0⟩ (percentEncode "@home") = none := by decide +kernel
  rw [hnone] at hroot
  simp at hroot

theorem entered_iff_home : AllEntered asciiPrint ⟨0, 0⟩ homeDB.toTables ↔
    ∀ g ∈ homeDB.tags, Enterable asciiPrint g.name :=
  entered_iff (fun c h h' => by simp [asciiPrint, h, h']) homeDB

end Tilbo.Fuse.Listing
