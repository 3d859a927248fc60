import Tilbo.Index.Entries
import Mathlib.Data.Finset.Card
import Mathlib.Data.String.Basic

/-! # Tags of many paths at once

`GetFileTagsBatch` is one query for what `GetFileTags` asks path by path. It leaves out the empty tag, and SQLite takes
no more than 32766 variables in one statement; in everything else the two agree (`batch_agrees_iff`). -/

namespace Tilbo.Index.BatchTags

open Tilbo.Lib.Rows Tilbo.Lib.Txn Tilbo.Lib.Txn.Prog Tilbo.Index.Schema Tilbo.Index.Schema.Tables Tilbo.Index.Store
open Tilbo.Index.StoreSpec Tilbo.Index.StoreRuns Tilbo.Index.Entries

/-! ### The code -/

/-- How many variables SQLite takes in one statement. -/
def maxVariables : ℕ := 32766

/-- The paths, each once. -/
def unique (paths : List String) : List String := paths.foldl (fun u p => if p ∈ u then u else u ++ [p]) []

/-- `ORDER BY t.name`: a missing name comes first. -/
def nameLe : Option String → Option String → Bool
  | none, _ => true
  | some _, none => false
  | some m, some n => m ≤ n

/-- `ORDER BY f.path, t.name`. -/
def rowLe (a b : String × Option String) : Bool := a.1 < b.1 || a.1 = b.1 && nameLe a.2 b.2

/-- The left joins, for one file. -/
def joined (T : Tables) (f : FileRow) : List (String × Option String) :=
  let rows := T.fileTags.filter fun r => r.fileId = f.id
  if rows = [] then [(f.path, none)] else rows.map fun r => (f.path, (lookup TagRow.id T.tags r.tagId).map TagRow.name)

/-- The rows of the query. -/
def batchRows (T : Tables) (paths : List String) : List (String × Option String) :=
  ((T.files.filter fun f => f.path ∈ paths).flatMap (joined T)).insertionSort fun a b => rowLe a b = true

/-- One row of the loop. -/
def addRow (result : String → Option (List String)) (row : String × Option String) : String → Option (List String) :=
  match row.2 with
  | some tag => if tag = "" then result else Function.update result row.1 (some ((result row.1).getD [] ++ [tag]))
  | none => result

/-- The map before the loop. -/
def noTags (paths : List String) : String → Option (List String) :=
  (unique paths).foldl (fun m p => Function.update m p (some [])) fun _ => none

/-- The query. -/
def selectBatch (paths : List String) : Sql (List (String × Option String)) := stmt .driver fun db =>
  if (unique paths).length ≤ maxVariables then .ok (batchRows db.toTables (unique paths), db) else .error .driver

/-- `DB.GetFileTagsBatch`. -/
def getFileTagsBatch (paths : List String) : Sql (String → Option (List String)) :=
  if paths = [] then pure fun _ => none
  else do
    let rows ← errorf "index: batch get tags: %w" [] (selectBatch paths)
    return rows.foldl addRow (noTags paths)

/-- The batch succeeds, has the requested paths as keys, and says of each what `GetFileTags` says. -/
def Agrees (db : DB) (paths : List String) : Prop :=
  ∃ m, Runs (getFileTagsBatch paths) db (.ok m) db ∧ (∀ p, (m p).isSome = true ↔ p ∈ paths) ∧
    ∀ p ∈ paths, ∃ tags, Runs (getFileTags p) db (.ok tags) db ∧ m p = some tags

variable {db : DB} {T : Tables} {paths : List String} {p q : String} {f : FileRow} {i : ℕ}

/-! ### The paths -/

theorem unique_append (l : List String) : unique (l ++ [p]) = if p ∈ unique l then unique l else unique l ++ [p] := by
  rw [unique, List.foldl_append]
  rfl

theorem mem_unique : p ∈ unique paths ↔ p ∈ paths := by
  induction paths using List.reverseRecOn with
  | nil => rfl
  | append_singleton l q ih =>
    rw [unique_append, List.mem_append, List.mem_singleton, ← ih]
    split_ifs with hq
    · exact ⟨Or.inl, fun h => h.elim (fun h => h) fun h => h ▸ hq⟩
    · rw [List.mem_append, List.mem_singleton]

theorem nodup_unique : (unique paths).Nodup := by
  induction paths using List.reverseRecOn with
  | nil => exact List.nodup_nil
  | append_singleton l q ih =>
    rw [unique_append]
    split_ifs with hq
    · exact ih
    · exact List.nodup_append.mpr ⟨ih, List.nodup_singleton q, fun a ha b hb hab => hq (by
        rw [List.mem_singleton] at hb
        rwa [← hb, ← hab])⟩

theorem length_unique : (unique paths).length = paths.toFinset.card := by
  rw [← List.toFinset_card_of_nodup nodup_unique]
  congr 1
  ext p
  rw [List.mem_toFinset, List.mem_toFinset, mem_unique]

/-- Every requested path starts with no tags. -/
theorem foldl_noTags (u : List String) (m : String → Option (List String)) :
    u.foldl (fun m p => Function.update m p (some [])) m p = if p ∈ u then some [] else m p := by
  induction u generalizing m with
  | nil => simp
  | cons q u ih =>
    rw [List.foldl_cons, ih, Function.update_apply]
    by_cases hp : p ∈ u
    · simp [hp]
    · by_cases hq : p = q
      · simp [hq]
      · simp [hp, hq]

/-! ### The order of the rows -/

theorem nameLe_total (m n : Option String) : nameLe m n = true ∨ nameLe n m = true := by
  cases m <;> cases n <;> simp [nameLe, le_total]

theorem nameLe_trans {l m n : Option String} (h : nameLe l m = true) (h' : nameLe m n = true) : nameLe l n = true := by
  cases l <;> cases m <;> cases n <;> simp_all [nameLe]
  exact le_trans h h'

instance : Std.Total fun a b => rowLe a b = true := ⟨fun a b => by
  simp only [rowLe, Bool.or_eq_true, Bool.and_eq_true, decide_eq_true_eq]
  rcases lt_trichotomy a.1 b.1 with h | h | h
  · exact .inl (.inl h)
  · exact (nameLe_total a.2 b.2).imp (fun hn => .inr ⟨h, hn⟩) fun hn => .inr ⟨h.symm, hn⟩
  · exact .inr (.inl h)⟩

instance : IsTrans _ fun a b => rowLe a b = true := ⟨fun a b c hab hbc => by
  simp only [rowLe, Bool.or_eq_true, Bool.and_eq_true, decide_eq_true_eq] at hab hbc ⊢
  rcases hab with hab | ⟨hab, hn⟩
  · exact .inl (hbc.elim hab.trans fun h => h.1 ▸ hab)
  · exact hbc.imp (fun h => hab ▸ h) fun h => ⟨hab.trans h.1, nameLe_trans hn h.2⟩⟩

/-! ### The names in the rows of a path -/

/-- The names in the rows of a path. -/
def namesOf (rows : List (String × Option String)) (p : String) : List String :=
  (rows.filter fun r => r.1 = p).filterMap Prod.snd

theorem namesOf_append (rows rows' : List (String × Option String)) :
    namesOf (rows ++ rows') p = namesOf rows p ++ namesOf rows' p := by
  rw [namesOf, List.filter_append, List.filterMap_append]
  rfl

theorem namesOf_perm {rows rows' : List (String × Option String)} (h : rows.Perm rows') :
    (namesOf rows p).Perm (namesOf rows' p) := (h.filter _).filterMap _

theorem addRow_some {tag : String} (m : String → Option (List String)) : addRow m (q, some tag) =
    if tag = "" then m else Function.update m q (some ((m q).getD [] ++ [tag])) := rfl

/-- The loop appends the names that are not empty. -/
theorem foldl_addRow (rows : List (String × Option String)) {m : String → Option (List String)} {l : List String}
    (hp : m p = some l) : rows.foldl addRow m p = some (l ++ (namesOf rows p).filter (· ≠ "")) := by
  induction rows generalizing m l with
  | nil => simp [namesOf, hp]
  | cons r rows ih =>
    obtain ⟨q, name⟩ := r
    rw [List.foldl_cons, ← List.singleton_append, namesOf_append, List.filter_append]
    cases name with
    | none =>
      have hnone : namesOf [(q, none)] p = [] := by
        unfold namesOf
        by_cases hq : q = p <;> simp [hq]
      rw [hnone, List.filter_nil, List.nil_append]
      exact ih hp
    | some tag =>
      by_cases hq : q = p
      · have hone : namesOf [(q, some tag)] p = [tag] := by simp [namesOf, hq]
        rw [hone]
        by_cases htag : tag = ""
        · rw [addRow_some, if_pos htag, ih hp, htag]
          rfl
        · rw [addRow_some, if_neg htag, ih (l := l ++ [tag]) (by rw [hq, Function.update_self, hp]; rfl),
            List.append_assoc]
          simp [htag]
      · have hnone : namesOf [(q, some tag)] p = [] := by simp [namesOf, hq]
        rw [hnone, List.filter_nil, List.nil_append, addRow_some]
        split_ifs
        · exact ih hp
        · exact ih ((Function.update_of_ne (Ne.symm hq) ..).trans hp)

/-- The other paths stay as they are. -/
theorem foldl_addRow_none (rows : List (String × Option String)) {m : String → Option (List String)}
    (hrows : ∀ r ∈ rows, r.1 ≠ p) : rows.foldl addRow m p = m p := by
  induction rows generalizing m with
  | nil => rfl
  | cons r rows ih =>
    have hr : r.1 ≠ p := hrows r List.mem_cons_self
    rw [List.foldl_cons, ih fun r hr => hrows r (List.mem_cons_of_mem _ hr)]
    obtain ⟨q, name⟩ := r
    cases name with
    | none => rfl
    | some tag =>
      rw [addRow_some]
      split_ifs
      · rfl
      · exact Function.update_of_ne hr.symm ..

/-! ### The rows of the query -/

theorem namesOf_joined : namesOf (joined T f) p = if f.path = p then T.fileTagNames f.id else [] := by
  unfold namesOf joined fileTagNames
  dsimp only
  by_cases hp : f.path = p
  · rw [if_pos hp]
    split_ifs with hrows
    · simp [hrows]
    · rw [List.filter_map, List.filterMap_map]
      simp [hp, Function.comp_def]
  · rw [if_neg hp]
    split_ifs
    · simp [hp]
    · simp [List.filter_map, hp, Function.comp_def]

theorem path_of_mem_joined {r : String × Option String} (h : r ∈ joined T f) : r.1 = f.path := by
  unfold joined at h
  dsimp only at h
  split_ifs at h
  · rw [List.mem_singleton.mp h]
  · obtain ⟨ft, -, rfl⟩ := List.mem_map.mp h
    rfl

theorem path_of_mem_batchRows {r : String × Option String} (h : r ∈ batchRows T paths) : r.1 ∈ paths := by
  rw [batchRows, List.mem_insertionSort] at h
  obtain ⟨f, hf, hr⟩ := List.mem_flatMap.mp h
  rw [path_of_mem_joined hr]
  exact of_decide_eq_true (List.mem_filter.mp hf).2

/-- Before they are sorted, the names of a path are those of its file. -/
theorem namesOf_flatMap (hp : p ∈ paths) (hkey : UniqueKey FileRow.path T.files) :
    namesOf ((T.files.filter fun f => f.path ∈ paths).flatMap (joined T)) p =
      ((T.fileId p).map T.fileTagNames).getD [] := by
  have hfiles : ∀ l : List FileRow, UniqueKey FileRow.path l →
      namesOf ((l.filter fun f => f.path ∈ paths).flatMap (joined T)) p =
        (((lookup FileRow.path l p).map FileRow.id).map T.fileTagNames).getD [] := by
    intro l hl
    induction l with
    | nil => rfl
    | cons f l ih =>
      have hl' : UniqueKey FileRow.path l := (List.nodup_cons.mp hl).2
      by_cases hf : f.path = p
      · -- no other file has the path
        have hno : lookup FileRow.path l p = none := lookup_none_iff.mpr fun g hg hgp =>
          (List.nodup_cons.mp hl).1 (by rw [hf, ← hgp]; exact List.mem_map_of_mem hg)
        rw [List.filter_cons_of_pos (by simpa [hf] using hp), List.flatMap_cons, namesOf_append,
          namesOf_joined, if_pos hf, ih hl', hno]
        simp [lookup, hf]
      · have hlookup : lookup FileRow.path (f :: l) p = lookup FileRow.path l p := by
          simp [lookup, hf]
        rw [hlookup, ← ih hl', List.filter_cons]
        split_ifs
        · rw [List.flatMap_cons, namesOf_append, namesOf_joined, if_neg hf, List.nil_append]
        · rfl
  exact hfiles T.files hkey

/-- The names of a path come in the order of `GetFileTags`. -/
theorem namesOf_batchRows (hp : p ∈ paths) (hkey : UniqueKey FileRow.path T.files) :
    namesOf (batchRows T paths) p = ((T.fileId p).map (fileTagsOrdered T)).getD [] := by
  have hsorted : (namesOf (batchRows T paths) p).Pairwise (· ≤ ·) := by
    have hrows := List.pairwise_insertionSort (fun a b => rowLe a b = true)
      ((T.files.filter fun f => f.path ∈ paths).flatMap (joined T))
    refine List.pairwise_filterMap.mpr ((hrows.filter _).imp_of_mem fun {a b} ha hb hab m hm n hn => ?_)
    have hpath : a.1 = b.1 := (of_decide_eq_true (List.mem_filter.mp ha).2).trans
      (of_decide_eq_true (List.mem_filter.mp hb).2).symm
    rw [rowLe, hm, hn] at hab
    simpa [hpath, nameLe] using hab
  have hperm : (namesOf (batchRows T paths) p).Perm (((T.fileId p).map T.fileTagNames).getD []) := by
    rw [← namesOf_flatMap hp hkey]
    exact namesOf_perm (List.perm_insertionSort _ _)
  cases hid : T.fileId p with
  | none =>
    rw [hid] at hperm
    exact hperm.eq_nil
  | some i =>
    rw [hid] at hperm
    exact (hperm.trans (List.perm_insertionSort _ _).symm).eq_of_pairwise' hsorted (List.pairwise_insertionSort _ _)

/-! ### The batch -/

theorem runs_getFileTags (p : String) :
    Runs (getFileTags p) db (.ok (((db.fileId p).map (fileTagsOrdered db.toTables)).getD [])) db := by
  unfold getFileTags
  cases hid : db.fileId p with
  | none => exact (runs_queryRow_none hid).attempt.andThen Runs.ret
  | some i => exact (runs_queryRow hid).attempt.andThen (runs_errorf (Runs.stmt rfl))

/-- What the batch says of a path, if SQLite takes the statement. -/
theorem runs_getFileTagsBatch (hlen : paths.toFinset.card ≤ maxVariables) :
    ∃ m, Runs (getFileTagsBatch paths) db (.ok m) db ∧ ∀ p, m p = if p ∈ paths then
      some ((((db.fileId p).map (fileTagsOrdered db.toTables)).getD []).filter (· ≠ "")) else none := by
  by_cases hnil : paths = []
  · refine ⟨fun _ => none, ?_, fun p => ?_⟩
    · rw [getFileTagsBatch, if_pos hnil]
      exact Runs.ret
    · rw [hnil, if_neg List.not_mem_nil]
  · have hselect : Runs (selectBatch paths) db (.ok (batchRows db.toTables (unique paths))) db :=
      Runs.stmt (if_pos (length_unique.trans_le hlen))
    refine ⟨(batchRows db.toTables (unique paths)).foldl addRow (noTags paths), ?_, fun p => ?_⟩
    · rw [getFileTagsBatch, if_neg hnil]
      exact (runs_errorf hselect).andThen Runs.ret
    · split_ifs with hp
      · have hp' : p ∈ unique paths := mem_unique.mpr hp
        have hstart : noTags paths p = some [] := (foldl_noTags _ _).trans (if_pos hp')
        rw [foldl_addRow _ hstart, List.nil_append, namesOf_batchRows hp' db.valid.filesPath]
      · have hp' : p ∉ unique paths := fun h => hp (mem_unique.mp h)
        have hrows : ∀ r ∈ batchRows db.toTables (unique paths), r.1 ≠ p := fun r hr hrp =>
          hp' (hrp ▸ path_of_mem_batchRows hr)
        rw [foldl_addRow_none _ hrows]
        exact (foldl_noTags _ _).trans (if_neg hp')

theorem getFileTagsBatch_refused (hlen : ¬ paths.toFinset.card ≤ maxVariables) :
    Runs (getFileTagsBatch paths) db (.error (.wrapped "index: batch get tags: %w" [] .driver)) db := by
  have hnil : paths ≠ [] := fun h => hlen (by rw [h]; exact Nat.zero_le _)
  have hselect : Runs (selectBatch paths) db (.error .driver) db :=
    Runs.stmt_error (if_neg fun h => hlen (length_unique.symm.trans_le h))
  rw [getFileTagsBatch, if_neg hnil]
  exact hselect.wrap.andThen_error

/-- **When the batch agrees with single lookups.** For every database and every list of paths: just if there are no more
than 32766 different paths and none of them has the empty tag. -/
theorem batch_agrees_iff : Agrees db paths ↔ paths.toFinset.card ≤ maxVariables ∧ ∀ p ∈ paths, ¬ TagAt db p "" := by
  have hfull : ∀ p, ((((db.fileId p).map (fileTagsOrdered db.toTables)).getD []).filter (· ≠ "") =
      ((db.fileId p).map (fileTagsOrdered db.toTables)).getD []) ↔ ¬ TagAt db p "" := fun p => by
    rw [List.filter_eq_self]
    cases hid : db.fileId p with
    | none => exact iff_of_true (fun _ h => absurd h List.not_mem_nil) fun ⟨i, hi, _⟩ => by rw [hid] at hi; cases hi
    | some i =>
      rw [tagAt_iff hid, ← mem_fileTagsOrdered]
      exact ⟨fun h hmem => absurd rfl (of_decide_eq_true (h "" hmem)),
        fun h t ht => decide_eq_true fun h' => h (h' ▸ ht)⟩
  constructor
  · rintro ⟨m, hrun, -, hm⟩
    have hlen : paths.toFinset.card ≤ maxVariables := by
      by_contra hlen
      cases (Prod.mk.inj (hrun.symm.trans (getFileTagsBatch_refused hlen))).1
    obtain ⟨m', hrun', hm'⟩ := @runs_getFileTagsBatch db paths hlen
    obtain rfl : m = m' := Except.ok.inj (Prod.mk.inj (hrun.symm.trans hrun')).1
    refine ⟨hlen, fun p hp => (hfull p).mp ?_⟩
    obtain ⟨tags, htags, hmp⟩ := hm p hp
    have hsingle := Except.ok.inj (Prod.mk.inj (htags.symm.trans (runs_getFileTags p))).1
    rw [hm', if_pos hp, hsingle] at hmp
    exact Option.some.inj hmp
  · rintro ⟨hlen, htags⟩
    obtain ⟨m, hrun, hm⟩ := @runs_getFileTagsBatch db paths hlen
    refine ⟨m, hrun, fun p => ?_, fun p hp => ⟨_, runs_getFileTags p, ?_⟩⟩
    · rw [hm]
      split_ifs with hp <;> simp [hp]
    · rw [hm, if_pos hp, (hfull p).mpr (htags p hp)]

/-! ### The empty tag -/

/-- A file with the empty tag. -/
def emptyTag : Tables :=
  { files := [⟨1, "/a", 1, 1, 0, 0, 0⟩], tags := [⟨1, "", 1⟩], fileTags := [⟨1, 1⟩] }

theorem emptyTag_valid : emptyTag.Valid := by decide

/-- The batch leaves it out. -/
theorem empty_tag_left_out : ¬ Agrees ⟨emptyTag, emptyTag_valid⟩ ["/a"] := by
  rintro ⟨m, hrun, -, hm⟩
  obtain ⟨tags, htags, hmp⟩ := hm "/a" List.mem_cons_self
  have hsingle : tags = [""] := (Except.ok.inj (Prod.mk.inj htags).1).symm
  have hbatch : m "/a" = some [] := congrFun (Except.ok.inj (Prod.mk.inj hrun).1).symm "/a"
  rw [hbatch, hsingle] at hmp
  cases hmp

end Tilbo.Index.BatchTags
