import Tilbo.Fsutil.Hidden
import Tilbo.Index.Purge
import Tilbo.Lib.DirWalks
import Tilbo.Sync.Outcome

/-! # The scan

`Syncer.Run` walks through the watched tree, synchronises every file it comes to, and then purges the rows below the
watched directory that were not refreshed since it began. What fails on the way is skipped: an unreadable directory, a
file whose attributes cannot be read or whose index entry cannot be written. The purge does not know of it.

`fate` says what becomes of every path, whatever fails. The dispatch of harvests (`OnFileSynced`) is left out. -/

namespace Tilbo.Sync.Scan

open Tilbo.Daemon.State Tilbo.Sync.SyncFile Tilbo.Sync.Rebuild Tilbo.Sync.Outcome Tilbo.Fsutil.Hidden
open Tilbo.Index.Schema Tilbo.Index.Store Tilbo.Index.StoreSpec Tilbo.Index.StoreRuns Tilbo.Index.Entries
open Tilbo.Index.Statements Tilbo.Index.Purge
open Tilbo.Harvester.Meta Tilbo.Lib.CleanPaths Tilbo.Lib.DirWalks Tilbo.Lib.Rows Tilbo.Lib.Txn
open Tilbo.Lib.Process.Proc

variable {F : Type} (P : Platform F)

/-- `Syncer`, as the scan uses it. -/
structure Syncer where
  watchPath : String
  watchHidden : Bool
  excludePaths : List String

/-- `New`. -/
def new (watchPath : String) (watchHidden : Bool) (excludePaths : List String) : Syncer :=
  ⟨clean watchPath, watchHidden, excludePaths.map clean⟩

/-- What comes from outside in the course of a scan. -/
structure Course (F : Type) where
  /-- The environment of a `SyncFile`, with the time at which the index is written. -/
  env : String → Env F
  /-- `d.Info()`; none where it fails. -/
  info : String → Option FileStat
  /-- Which calls of a `SyncFile` fail. -/
  faults : String → List Bool
  /-- `ctx.Err() != nil`, when the walk calls. -/
  cancelled : Visit → Bool
  /-- When the scan began. -/
  start : ℤ
  /-- Which statements of the purge fail. -/
  purgeFaults : List Bool

variable (S : Syncer) (c : Course F)

/-- An excluded directory is not entered. -/
def excludes (call : Visit) : Bool := call.isDir && S.excludePaths.contains (clean call.path)

/-- Hidden files are passed over. -/
def hides (path : String) : Bool := !S.watchHidden && hasHiddenComponentBelowRoot S.watchPath path

/-- `walkEntry`. -/
def walkEntry : Fn World := fun call w =>
  if call.failed then (none, w)
  else if c.cancelled call then (some .error, w)
  else if excludes S call then (some .skipDir, w)
  else if hides S call.path then (if call.isDir then some .skipDir else none, w)
  else if call.isDir then (none, w)
  else match c.info call.path with
    | none => (none, w)
    | some stat =>
      (none, (run (syncFile P (c.env call.path) call.path stat) ⟨w, c.faults call.path⟩).2.store)

/-- The walk. Without a root there is one call, which reports that. -/
def walk (root : Option Entry) (w : World) : Option Stop × World :=
  match root with
  | none => walkEntry P S c ⟨S.watchPath, false, true⟩ w
  | some e => walkDir (walkEntry P S c) S.watchPath e w

/-- `DeleteStaleFiles`, after the walk. -/
def purge (w : World) : World := (onIndex (deleteStaleFiles S.watchPath c.start) ⟨w, c.purgeFaults⟩).2.store

/-- `Run`. A walk that was cut short is not followed by a purge. -/
def runScan (root : Option Entry) (w : World) : World :=
  match walk P S c root w with
  | (some .error, w') => w'
  | (_, w') => purge S c w'

/-! ### The walk, as a list of calls -/

/-- What `walkEntry` answers. -/
def answer (call : Visit) : Option Stop :=
  if call.failed then none
  else if c.cancelled call then some .error
  else if excludes S call then some .skipDir
  else if hides S call.path then if call.isDir then some .skipDir else none
  else none

/-- The attributes of the file to synchronise, if there is one. -/
def indexed (call : Visit) : Option FileStat :=
  if call.failed || c.cancelled call || call.isDir || hides S call.path then none else c.info call.path

/-- What `walkEntry` does. -/
def act (call : Visit) (w : World) : World :=
  match indexed S c call with
  | none => w
  | some stat => (run (syncFile P (c.env call.path) call.path stat) ⟨w, c.faults call.path⟩).2.store

theorem walkEntry_eq : walkEntry P S c = fun call w => (answer S c call, act P S c call w) := by
  funext call w
  unfold walkEntry answer act indexed
  by_cases hfailed : call.failed = true
  · simp [hfailed]
  by_cases hcancelled : c.cancelled call = true
  · simp [hfailed, hcancelled]
  by_cases hexcl : excludes S call = true
  · have hdir : call.isDir = true := (Bool.and_eq_true_iff.mp hexcl).1
    simp [hfailed, hcancelled, hexcl, hdir]
  by_cases hhides : hides S call.path = true
  · simp [hfailed, hcancelled, hexcl, hhides]
  by_cases hdir : call.isDir = true
  · simp [hfailed, hcancelled, hexcl, hhides, hdir]
  · cases c.info call.path <;> simp [hfailed, hcancelled, hexcl, hhides, hdir]

/-- The calls that the walk makes, and how it ends. -/
def called (root : Option Entry) : Option Stop × List Visit :=
  match root with
  | none => (none, [])
  | some e => calls (answer S c) S.watchPath e

theorem walk_eq (root : Option Entry) (w : World) : walk P S c root w =
    ((called S c root).1, (called S c root).2.foldl (fun w call => act P S c call w) w) := by
  cases root with
  | none => rfl
  | some e =>
    rw [walk, walkEntry_eq]
    exact walkDir_eq _ e w

/-! ### What becomes of a path in the walk -/

/-- The row of the path. -/
def row (s : DB) (path : String) : Option FileRow := lookup FileRow.path s.files path

/-- With what the path is synchronised, if it is, by a walk that makes these calls. -/
def entered (visits : List Visit) (w : World) (path : String) : Option (FileStat × Attributes) :=
  if ⟨path, false, false⟩ ∈ visits then
    (indexed S c ⟨path, false, false⟩).bind fun stat => (syncedAs P w path (c.faults path)).map (stat, ·)
  else none

/-- The path was synchronised with these attributes at this time, or left alone. Its id stays. -/
def Became (now : ℤ) (path : String) (s s' : DB) : Option (FileStat × Attributes) → Prop
  | some (stat, a) =>
    (∃ i, row s' path = some ⟨i, path, stat.inode, stat.device, stat.mtime, stat.size, now⟩ ∧
      ∀ j, s.fileId path = some j → i = j) ∧ After path s s' (some a)
  | none => row s' path = row s path ∧ SameEntry s s' path

/-- What no `SyncFile` touches. -/
structure Untouched (s s' : DB) : Prop where
  overridden : ∀ j n r, s'.Overridden j n r ↔ s.Overridden j n r
  embeddings : s'.fileEmbeddings = s.fileEmbeddings

section Became
variable {s s' s'' : DB} {path : String} {now : ℤ} {x : Option (FileStat × Attributes)} {i : ℕ}

theorem row_fileId : s.fileId path = (row s path).map FileRow.id := rfl

theorem Became.refl : Became now path s s none := ⟨rfl, SameEntry.refl s path⟩

theorem Became.then_none (h : Became now path s s' x) (h' : Became now path s' s'' none) :
    Became now path s s'' x := by
  obtain ⟨hrow', hsame⟩ := h'
  cases x with
  | none => exact ⟨hrow'.trans h.1, h.2.trans hsame⟩
  | some a =>
    obtain ⟨⟨i, hrow, hid⟩, hafter⟩ := h
    exact ⟨⟨i, hrow'.trans hrow, hid⟩, hafter.then_same hsame⟩

theorem Became.none_then (h : Became now path s s' none) (h' : Became now path s' s'' x) :
    Became now path s s'' x := by
  obtain ⟨hrow, hsame⟩ := h
  cases x with
  | none => exact ⟨h'.1.trans hrow, hsame.trans h'.2⟩
  | some a =>
    obtain ⟨⟨i, hrow', hid⟩, hafter⟩ := h'
    refine ⟨⟨i, hrow', fun j hj => hid j ?_⟩, After.of_same hsame hafter⟩
    rw [row_fileId, hrow]
    exact hj

/-- Synchronising twice is synchronising once. -/
theorem Became.again (h : Became now path s s' x) (h' : Became now path s' s'' x) : Became now path s s'' x := by
  cases x with
  | none => exact h.then_none h'
  | some a =>
    obtain ⟨⟨i, hrow, hid⟩, hafter⟩ := h
    obtain ⟨⟨i', hrow', hid'⟩, hafter'⟩ := h'
    have hii : i' = i := hid' i (by rw [row_fileId, hrow]; rfl)
    exact ⟨⟨i, hii ▸ hrow', hid⟩, After.trans hafter hafter'⟩

theorem Untouched.refl (s : DB) : Untouched s s := ⟨fun _ _ _ => Iff.rfl, rfl⟩

theorem Untouched.trans (h : Untouched s s') (h' : Untouched s' s'') : Untouched s s'' :=
  ⟨fun j n r => (h'.overridden j n r).trans (h.overridden j n r), h'.embeddings.trans h.embeddings⟩

variable {stat : FileStat} {tags : List String} {md source : List (String × String)} {q : String}

theorem became_applied (h : Applied path stat tags md source now i s s') :
    Became now path s s' (some (stat, ⟨tags, md, source⟩)) := by
  refine ⟨⟨i, s'.valid.filesPath.lookup_iff.mpr ⟨(h.files _).mpr (.inr rfl), rfl⟩, fun j hj => ?_⟩,
    tagAt_applied h, metaAt_applied h, sourceAt_applied h⟩
  rw [h.id, Index.Statements.upsertId, hj, Option.getD_some]

theorem became_applied_other (h : Applied path stat tags md source now i s s') (hq : q ≠ path) {now' : ℤ} :
    Became now' q s s' none := by
  refine ⟨?_, sameEntry_applied h hq⟩
  refine Option.ext fun f => ?_
  show lookup _ _ _ = some f ↔ lookup _ _ _ = some f
  rw [s'.valid.filesPath.lookup_iff, s.valid.filesPath.lookup_iff, h.files]
  constructor
  · rintro ⟨⟨hf, -⟩ | rfl, hfq⟩
    · exact ⟨hf, hfq⟩
    · exact absurd hfq.symm hq
  · rintro ⟨hf, rfl⟩
    exact ⟨.inl ⟨hf, hq⟩, rfl⟩

end Became

section Walk
variable {P} {S} {c} {w w' : World} {visits : List Visit} {q : String}

theorem entered_congr (h : w'.files = w.files) (visits : List Visit) (q : String) :
    entered P S c visits w' q = entered P S c visits w q := by
  simp only [entered, syncedAs_congr h]

theorem indexed_eq_some {visit : Visit} {stat : FileStat} (h : indexed S c visit = some stat) :
    visit = ⟨visit.path, false, false⟩ := by
  unfold indexed at h
  split_ifs at h with hno
  simp only [Bool.or_eq_true, not_or, Bool.not_eq_true] at hno
  obtain ⟨path, isDir, failed⟩ := visit
  obtain ⟨⟨⟨rfl, -⟩, rfl⟩, -⟩ := hno
  rfl

/-- One call of the walk. -/
theorem act_became (visit : Visit) (w : World) : (act P S c visit w).files = w.files ∧
    Untouched w.db (act P S c visit w).db ∧
    ∀ q, Became (c.env q).now q w.db (act P S c visit w).db (entered P S c [visit] w q) := by
  unfold act
  cases hstat : indexed S c visit with
  | none =>
    refine ⟨rfl, Untouched.refl _, fun q => ?_⟩
    have hnone : entered P S c [visit] w q = none := by
      unfold entered
      split_ifs with hq
      · rw [List.mem_singleton.mp hq, hstat]
        rfl
      · rfl
    rw [hnone]
    exact Became.refl
  | some stat =>
    have hvisit := indexed_eq_some hstat
    have hentered : ∀ q, entered P S c [visit] w q = if q = visit.path then
        (syncedAs P w q (c.faults q)).map (stat, ·) else none := by
      intro q
      have hmem : (⟨q, false, false⟩ : Visit) ∈ [visit] ↔ q = visit.path := by
        rw [List.mem_singleton, hvisit, Visit.mk.injEq, and_iff_left ⟨rfl, rfl⟩]
      unfold entered
      by_cases hq : q = visit.path
      · rw [if_pos (hmem.mpr hq), if_pos hq, hq, ← hvisit, hstat, Option.bind_some]
      · rw [if_neg (mt hmem.mp hq), if_neg hq]
    have houtcome := syncFile_outcome (P := P) (c.env visit.path) w visit.path stat (c.faults visit.path)
    cases hsynced : syncedAs P w visit.path (c.faults visit.path) with
    | none =>
      rw [hsynced] at houtcome
      obtain ⟨e, fs', hrun⟩ := houtcome
      dsimp only
      rw [hrun]
      refine ⟨rfl, Untouched.refl _, fun q => ?_⟩
      rw [hentered]
      split_ifs with hq
      · rw [hq, hsynced]
        exact Became.refl
      · exact Became.refl
    | some a =>
      rw [hsynced] at houtcome
      obtain ⟨b, fs', i, db, hrun, happlied⟩ := houtcome
      dsimp only
      rw [hrun]
      refine ⟨rfl, ⟨happlied.overridden, happlied.embeddings⟩, fun q => ?_⟩
      rw [hentered]
      split_ifs with hq
      · rw [hq, hsynced]
        exact became_applied happlied
      · exact became_applied_other happlied hq

/-- **The walk**: every path is synchronised as often as its file is called on, and otherwise left alone. -/
theorem foldl_became (visits : List Visit) (w : World) :
    (visits.foldl (fun w visit => act P S c visit w) w).files = w.files ∧
    Untouched w.db (visits.foldl (fun w visit => act P S c visit w) w).db ∧
    ∀ q, Became (c.env q).now q w.db (visits.foldl (fun w visit => act P S c visit w) w).db
      (entered P S c visits w q) := by
  induction visits generalizing w with
  | nil => exact ⟨rfl, Untouched.refl _, fun q => Became.refl⟩
  | cons visit visits ih =>
    obtain ⟨hfiles, huntouched, hbecame⟩ := act_became (P := P) (S := S) (c := c) visit w
    obtain ⟨hfiles', huntouched', hbecame'⟩ := ih (act P S c visit w)
    refine ⟨hfiles'.trans hfiles, huntouched.trans huntouched', fun q => ?_⟩
    have hfirst := hbecame q
    have hrest := hbecame' q
    rw [entered_congr hfiles] at hrest
    simp only [entered, List.mem_singleton] at hfirst
    simp only [entered, List.mem_cons] at hrest ⊢
    by_cases hv : ⟨q, false, false⟩ = visit
    · rw [if_pos hv] at hfirst
      rw [if_pos (Or.inl hv)]
      by_cases hvs : ⟨q, false, false⟩ ∈ visits
      · rw [if_pos hvs] at hrest
        exact hfirst.again hrest
      · rw [if_neg hvs] at hrest
        exact hfirst.then_none hrest
    · rw [if_neg hv] at hfirst
      by_cases hvs : ⟨q, false, false⟩ ∈ visits
      · rw [if_pos hvs] at hrest
        rw [if_pos (Or.inr hvs)]
        exact hfirst.none_then hrest
      · rw [if_neg hvs] at hrest
        rw [if_neg (not_or.mpr ⟨hv, hvs⟩)]
        exact hfirst.none_then hrest

end Walk

/-! ### The purge -/

section Purge
variable {S} {c} {w : World} {s s' : DB} {p : FileRow → Bool} {path : String} {i : ℕ}

theorem row_removed (h : Removed p s s') {f : FileRow} :
    row s' path = some f ↔ row s path = some f ∧ p f = false := by
  unfold row
  rw [s'.valid.filesPath.lookup_iff, s.valid.filesPath.lookup_iff, h.files, List.mem_filter]
  simp only [Bool.not_eq_true', and_right_comm]

/-- A row that is left says what it said. -/
theorem sameEntry_removed (h : Removed p s s') (hi : s'.fileId path = some i) : SameEntry s s' path := by
  obtain ⟨hold, hpicks⟩ := h.fileId_iff.mp hi
  refine ⟨fun n => ?_, fun k v => ?_, fun n r => ?_⟩
  · rw [tagAt_iff hi, tagAt_iff hold, h.tagged, and_iff_left hpicks]
  · rw [metaAt_iff hi, metaAt_iff hold, h.hasMeta, and_iff_left hpicks]
  · rw [sourceAt_iff hi, sourceAt_iff hold, h.hasProvenance, and_iff_left hpicks]

theorem onIndex_store {α : Type} (m : Sql α) (w : World) (fs : List Bool) :
    (onIndex m ⟨w, fs⟩).2.store = { w with db := (m ⟨w.db, fs⟩).2.store } := by
  rcases hm : m ⟨w.db, fs⟩ with ⟨r, d⟩
  rw [onIndex, wrap_run (zoom_run hm)]

/-- The purge removes what is stale, or fails and changes nothing. -/
theorem purge_cases (S : Syncer) (c : Course F) (w : World) : ∃ db, purge S c w = { w with db := db } ∧
    if true ∈ c.purgeFaults.take purgeStatements then db = w.db
    else Removed (stale S.watchPath c.start) w.db db := by
  have hspends := spends_deleteStaleFiles w.db S.watchPath c.start c.purgeFaults
  refine ⟨(deleteStaleFiles S.watchPath c.start ⟨w.db, c.purgeFaults⟩).2.store, ?_, ?_⟩
  · exact onIndex_store _ w c.purgeFaults
  · split_ifs with hfault
    · obtain ⟨e, d, hd⟩ := hspends.1 hfault
      rw [hd]
      exact wp_deleteStaleFiles.error hd
    · obtain ⟨u, s', hs', -⟩ := hspends.2 hfault
      rw [hs']
      exact wp_deleteStaleFiles.ok hs'

end Purge

/-! ### The fate of a path -/

/-- The purge follows, goes through, and its pattern matches the path. -/
def Swept (root : Option Entry) (path : String) : Prop :=
  (called S c root).1 ≠ some .error ∧ true ∉ c.purgeFaults.take purgeStatements ∧
    Lib.Like.like (stalePrefix S.watchPath) path.toList = true

/-- When the row of the path was last refreshed, at the end of the walk; none if there is no row. -/
def refreshedAt (root : Option Entry) (w : World) (path : String) : Option ℤ :=
  match entered P S c (called S c root).2 w path with
  | some _ => some (c.env path).now
  | none => (row w.db path).map FileRow.indexedAt

/-- What a scan makes of a path. -/
structure Fate (root : Option Entry) (w : World) (s' : DB) (path : String) : Prop where
  /-- It has a row if it had one or got one, unless the purge takes it: refreshed before the scan began. -/
  isSome_iff : (s'.fileId path).isSome = true ↔
    ∃ t, refreshedAt P S c root w path = some t ∧ (Swept S c root path → c.start ≤ t)
  id : ∀ i j, w.db.fileId path = some i → s'.fileId path = some j → i = j
  refreshed : ∀ f, row s' path = some f → refreshedAt P S c root w path = some f.indexedAt
  /-- The tags, metadata and provenance are as one `SyncFile` makes them. -/
  entry : (s'.fileId path).isSome = true →
    After path w.db s' ((entered P S c (called S c root).2 w path).map Prod.snd)
  overridden : ∀ i, w.db.fileId path = some i → s'.fileId path = some i →
    ∀ n r, s'.Overridden i n r ↔ w.db.Overridden i n r
  embedding : ∀ i, s'.fileId path = some i → ∀ r ∈ w.db.fileEmbeddings, r.fileId = i → r ∈ s'.fileEmbeddings

section Fate
variable {P} {S} {c} {w : World} {root : Option Entry} {s' : DB} {path : String}

/-- The walk alone. -/
theorem refreshedAt_eq {s : DB}
    (h : Became (c.env path).now path w.db s (entered P S c (called S c root).2 w path)) :
    refreshedAt P S c root w path = (row s path).map FileRow.indexedAt := by
  unfold refreshedAt
  cases hx : entered P S c (called S c root).2 w path with
  | none =>
    rw [hx] at h
    rw [h.1]
  | some x =>
    rw [hx] at h
    obtain ⟨⟨i, hrow, -⟩, -⟩ := h
    rw [hrow]
    rfl

theorem Became.id {s s' : DB} {now : ℤ} {x : Option (FileStat × Attributes)} (h : Became now path s s' x)
    {i j : ℕ} (hi : s.fileId path = some i) (hj : s'.fileId path = some j) : i = j := by
  cases x with
  | none =>
    rw [row_fileId, h.1, ← row_fileId, hi] at hj
    exact Option.some.inj hj
  | some x =>
    obtain ⟨⟨k, hrow, hk⟩, -⟩ := h
    rw [row_fileId, hrow] at hj
    exact (hk i hi).symm.trans (Option.some.inj hj)

theorem Became.after {s s' : DB} {now : ℤ} {x : Option (FileStat × Attributes)} (h : Became now path s s' x) :
    After path s s' (x.map Prod.snd) := by
  cases x with
  | none => exact h.2
  | some x => exact h.2

theorem isSome_fileId (s : DB) (path : String) : (s.fileId path).isSome = true ↔ ∃ f, row s path = some f := by
  rw [row_fileId, Option.isSome_map, Option.isSome_iff_exists]

/-- Without a purge all is as after the walk. -/
theorem fate_unswept (hbecame : Became (c.env path).now path w.db s' (entered P S c (called S c root).2 w path))
    (huntouched : Untouched w.db s') (hswept : ¬ Swept S c root path) :
    Fate P S c root w s' path where
  isSome_iff := by
    rw [isSome_fileId, refreshedAt_eq hbecame]
    simp only [Option.map_eq_some_iff]
    exact ⟨fun ⟨f, hf⟩ => ⟨_, ⟨f, hf, rfl⟩, fun h => absurd h hswept⟩, fun ⟨_, ⟨f, hf, _⟩, _⟩ => ⟨f, hf⟩⟩
  id i j := hbecame.id
  refreshed f hf := by
    rw [refreshedAt_eq hbecame, hf]
    rfl
  entry _ := hbecame.after
  overridden i _ _ := huntouched.overridden i
  embedding i _ r hr _ := by
    rw [huntouched.embeddings]
    exact hr

/-- The purge takes the rows that its pattern matches and that are old. -/
theorem fate_swept {s : DB}
    (hbecame : Became (c.env path).now path w.db s (entered P S c (called S c root).2 w path))
    (huntouched : Untouched w.db s) (hremoved : Removed (stale S.watchPath c.start) s s')
    (hpurge : (called S c root).1 ≠ some .error ∧ true ∉ c.purgeFaults.take purgeStatements) :
    Fate P S c root w s' path where
  isSome_iff := by
    rw [isSome_fileId, refreshedAt_eq hbecame]
    simp only [row_removed hremoved, Option.map_eq_some_iff]
    have hpath : ∀ {f}, row s path = some f → f.path = path := fun hf => (s.valid.filesPath.lookup_iff.mp hf).2
    constructor
    · rintro ⟨f, hf, hstale⟩
      refine ⟨_, ⟨f, hf, rfl⟩, fun hswept => ?_⟩
      rw [stale, hpath hf, hswept.2.2, Bool.true_and, decide_eq_false_iff_not, not_lt] at hstale
      exact hstale
    · rintro ⟨_, ⟨f, hf, rfl⟩, hstart⟩
      refine ⟨f, hf, ?_⟩
      rw [stale, hpath hf]
      cases hlike : Lib.Like.like (stalePrefix S.watchPath) path.toList with
      | false => rfl
      | true => simpa using hstart ⟨hpurge.1, hpurge.2, hlike⟩
  id i j hi hj := hbecame.id hi (hremoved.fileId_iff.mp hj).1
  refreshed f hf := by
    rw [refreshedAt_eq hbecame, ((row_removed hremoved).mp hf).1]
    rfl
  entry hsome := by
    obtain ⟨i, hi⟩ := Option.isSome_iff_exists.mp hsome
    exact hbecame.after.then_same (sameEntry_removed hremoved hi)
  overridden i _ hi n r := by
    rw [hremoved.overridden, and_iff_left (hremoved.fileId_iff.mp hi).2]
    exact huntouched.overridden i n r
  embedding i hi r hr hri := by
    refine hremoved.embeddings r (huntouched.embeddings.symm ▸ hr) ?_
    rw [hri]
    exact (hremoved.fileId_iff.mp hi).2

/-- **The fate of a path in a scan**, whatever fails on the way. -/
theorem fate (S : Syncer) (c : Course F) (root : Option Entry) (w : World) (path : String) :
    Fate P S c root w (runScan P S c root w).db path := by
  obtain ⟨-, huntouched, hbecame⟩ := foldl_became (P := P) (S := S) (c := c) (called S c root).2 w
  unfold runScan
  rw [walk_eq]
  set w₁ := (called S c root).2.foldl (fun w visit => act P S c visit w) w
  by_cases hcut : (called S c root).1 = some .error
  · rw [hcut]
    exact fate_unswept (hbecame path) huntouched fun h => h.1 hcut
  have hpurged : Fate P S c root w (purge S c w₁).db path := by
    obtain ⟨db, hdb, hcases⟩ := purge_cases S c w₁
    rw [hdb]
    split_ifs at hcases with hfault
    · subst hcases
      exact fate_unswept (hbecame path) huntouched fun h => h.2.1 hfault
    · exact fate_swept (hbecame path) huntouched hcases ⟨hcut, hfault⟩
  rcases hend : (called S c root).1 with _ | _ | _
  · exact hpurged
  · exact hpurged
  · exact absurd hend hcut

/-- **What a scan forgets**, whatever fails on the way: if the purge comes about, the paths that its pattern matches and
that were last refreshed before the scan began. A file that the walk could not get to or `SyncFile` could not read is not
refreshed. -/
theorem forgets_iff (S : Syncer) (c : Course F) (root : Option Entry) (w : World) (path : String) :
    ((w.db.fileId path).isSome = true ∧ (runScan P S c root w).db.fileId path = none) ↔
      Swept S c root path ∧ ∃ f, row w.db path = some f ∧
        (if (entered P S c (called S c root).2 w path).isSome then (c.env path).now else f.indexedAt) < c.start := by
  have hrefreshed : ∀ f, row w.db path = some f → refreshedAt P S c root w path =
      some (if (entered P S c (called S c root).2 w path).isSome then (c.env path).now else f.indexedAt) := by
    intro f hf
    rw [refreshedAt, hf]
    cases entered P S c (called S c root).2 w path <;> rfl
  rw [isSome_fileId, ← Option.not_isSome_iff_eq_none, (fate (P := P) S c root w path).isSome_iff]
  constructor
  · rintro ⟨⟨f, hf⟩, hgone⟩
    rw [hrefreshed f hf] at hgone
    have hold : ¬ (Swept S c root path → c.start ≤ _) := fun h => hgone ⟨_, rfl, h⟩
    obtain ⟨hswept, hlate⟩ := Classical.not_imp.mp hold
    exact ⟨hswept, f, hf, not_le.mp hlate⟩
  · rintro ⟨hswept, f, hf, hold⟩
    refine ⟨⟨f, hf⟩, ?_⟩
    rintro ⟨t, ht, hlate⟩
    rw [hrefreshed f hf] at ht
    exact absurd (Option.some.inj ht ▸ hlate hswept) (not_le.mpr hold)

end Fate

end Tilbo.Sync.Scan
