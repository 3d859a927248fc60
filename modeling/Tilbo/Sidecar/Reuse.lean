import Tilbo.Index.Store
import Tilbo.Lib.Steps
import Tilbo.Sidecar.Isolation

/-! # Numbers that are used again

Whoever takes care of a deletion, the row of the file goes from the index and its sidecar stays. When the file system
gives the number of the file to a new one, the new file has the tags of the old one. `nothing_until_written` says for
which creations that does not happen. -/

namespace Tilbo.Sidecar.Reuse

open Tilbo.Lib Tilbo.Lib.Strings Tilbo.Lib.StringMaps Tilbo.Lib.Txn Tilbo.Lib.Txn.Prog
open Tilbo.Sidecar.Store Tilbo.Sidecar.Fallback Tilbo.Sidecar.Transparent Tilbo.Sidecar.Isolation
open Tilbo.Xattr.Csv (formatTags)
open Tilbo.Index.Schema (DB)
open Tilbo.Index.Store (Sql)

/-! ### The files and the index -/

/-- The files with their sidecars, and the other tables of the index. -/
structure World where
  files : Files
  db : DB

/-- The inode and device number of the file at a path. -/
def World.number (w : World) (path : String) : Option (UInt64 × UInt64) := w.files.disk.inode path

/-- A new file, with a number that the file system chooses. -/
def World.create (w : World) (path : String) (file : UInt64 × UInt64) : World :=
  { w with files := { w.files with
    attrs := Function.update w.files.attrs path (some empty)
    disk := { w.files.disk with inode := Function.update w.files.disk.inode path (some file) } } }

/-- The files at these paths are gone for good. -/
def World.remove (w : World) (gone : String → Bool) : World :=
  { w with files := { w.files with
    attrs := fun p => if gone p then none else w.files.attrs p
    disk := { w.files.disk with inode := fun p => if gone p then none else w.files.disk.inode p } } }

/-- A method of the index; the handlers log its error. -/
def onIndex (m : Sql Unit) : Prog World Unit Unit := do
  let _ ← attempt (zoom World.db (fun db w => { w with db := db }) m)

/-- Who takes care of a deletion. -/
inductive Handler where
  /-- `handleFSEvent`, when the file at the path was deleted. -/
  | handleFSEvent (path : String)
  /-- `DeleteFile` without the trash; `RemoveAll` takes away these paths. -/
  | deleteFile (realPath : String) (gone : String → Bool)
  /-- The end of a scan. -/
  | run (basePath : String) (since : ℤ)

def Handler.handle : Handler → Prog World Unit Unit
  | handleFSEvent path => onIndex (Index.Store.deleteFile path)
  | deleteFile realPath gone => do
    stmt () fun w => .ok ((), w.remove gone)
    onIndex (Index.Store.deleteFile realPath)
  | run basePath since => onIndex (Index.Store.deleteStaleFiles basePath since)

/-- A method that writes for a file. -/
inductive Write where
  | tags (tags : List String)
  | metadata (key value : String)
  | source (source : Option StringMap)

/-- The method, of a service with a sidecar store. -/
def Write.run (path : String) : Write → Act Unit
  | tags l => writeTags ⟨true⟩ path l
  | metadata key value => writeMeta ⟨true⟩ path key value
  | source m => writeSource ⟨true⟩ path m

/-! ### Runs -/

/-- What happens; any statement can fail. -/
inductive Event where
  | created (path : String) (file : UInt64 × UInt64)
  /-- Another program deletes files. -/
  | removed (gone : String → Bool)
  | handled (h : Handler) (faults : List Bool)
  | written (path : String) (m : Write) (faults : List Bool)

/-- A number is given to one file at a time, and may have been that of a deleted one. -/
inductive Step : World → Event → World → Prop
  | created {w : World} {path : String} {file : UInt64 × UInt64} (hpath : w.number path = none)
      (hfile : ∀ p, w.number p ≠ some file) : Step w (.created path file) (w.create path file)
  | removed (w : World) (gone : String → Bool) : Step w (.removed gone) (w.remove gone)
  | handled (w : World) (h : Handler) (faults : List Bool) : Step w (.handled h faults) (h.handle ⟨w, faults⟩).2.store
  | written (w : World) (path : String) (m : Write) (faults : List Bool) :
      Step w (.written path m faults) { w with files := (m.run path ⟨w.files, faults⟩).2.store }

/-- The event is a write for the file at the path. -/
def Event.Writes (path : String) (e : Event) : Prop := ∃ m faults, e = .written path m faults

/-- The file at the path was created in the run, and nothing has been written for it since. -/
def Fresh (path : String) (tr : List (World × Event)) (t : World) : Prop :=
  ∃ before w file after, tr = before ++ (w, .created path file) :: after ∧
    (∀ e ∈ after, ¬ e.2.Writes path ∧ (e.1.number path).isSome) ∧ (t.number path).isSome

/-- The file system knows no attributes. -/
def NoAttributes (w : World) : Prop := ∀ path, w.files.supported path = false

/-- All that is read for the file is empty. -/
structure Nothing (path : String) (w : Files) : Prop where
  tags : Runs (readTags ⟨true⟩ path) w (.ok []) w
  metadata : ∃ m, Runs (readAllMeta ⟨true⟩ path) w (.ok m) w ∧ m.pairs = []
  source : ∃ m, Runs (readSource ⟨true⟩ path) w (.ok (some m)) w ∧ m.pairs = []

/-- A file is created under a number that has no row of a sidecar, and shares its row with no file there is. -/
def CleanNumber (w : World) : Event → Prop
  | .created _ file => w.files.disk.sidecar (rowKey file) = none ∧
      ∀ p other, w.number p = some other → Apart other.1 file.1 ∨ Apart other.2 file.2
  | _ => True

variable {path : String} {w w' t : World} {e : Event} {tr : List (World × Event)} {file : UInt64 × UInt64}

/-! ### A file without a sidecar -/

/-- The file has no row, and its row is that of no other file. -/
def Blank (path : String) (w : World) : Prop :=
  ∃ file, Fallen path file {} w.files ∧ w.files.disk.sidecar (rowKey file) = none ∧
    ∀ p other, p ≠ path → w.number p = some other → rowKey other ≠ rowKey file

/-- What is read where the row of the file holds the content. -/
structure Found (path : String) (d : Data) (w : Files) : Prop where
  tags : Runs (readTags ⟨true⟩ path) w (tagsOf path d.tags) w
  metadata : ∃ m, Runs (readAllMeta ⟨true⟩ path) w (.ok m) w ∧ StringMaps.Same m d.metadata
  source : ∃ m, Runs (readSource ⟨true⟩ path) w (.ok (some m)) w ∧ StringMaps.Same m d.source

theorem found_of_fallen {d : Data} {files : Files} (h : Fallen path file d files) : Found path d files := by
  obtain ⟨d₁, hd₁, htags⟩ := runs_readFallback h "sidecar read tags %q: %w" [path] Data.tags rfl
  obtain ⟨d₂, hd₂, hmeta⟩ := runs_readFallback h "sidecar list meta %q: %w" [path] Data.metadata rfl
  obtain ⟨d₃, hd₃, hsource⟩ := runs_readFallback h "sidecar read source %q: %w" [path] (fun sc => some sc.source) rfl
  refine ⟨?_, ⟨d₂.metadata, ?_, hd₂.metadata⟩, ⟨d₃.source, ?_, hd₃.source⟩⟩
  · refine Runs.andThen runs_ctxErr (Runs.andThen (get_fallen h _).attempt (Runs.andThen htags ?_))
    rw [hd₁.tags]
    exact runs_parseTagValue d.tags
  · exact Runs.andThen runs_ctxErr (Runs.andThen (list_fallen h).attempt hmeta)
  · exact Runs.andThen runs_ctxErr (Runs.andThen (get_fallen h _).attempt hsource)

theorem nothing_iff_of_fallen {d : Data} {files : Files} (h : Fallen path file d files) :
    Nothing path files ↔ tagsOf path d.tags = .ok [] ∧ d.metadata.pairs = [] ∧ d.source.pairs = [] := by
  obtain ⟨htags, ⟨m, hmeta, hm⟩, ⟨m', hsource, hm'⟩⟩ := found_of_fallen h
  constructor
  · rintro ⟨htags', ⟨n, hmeta', hn⟩, ⟨n', hsource', hn'⟩⟩
    refine ⟨(Prod.mk.inj (htags.symm.trans htags')).1, ?_, ?_⟩
    · obtain rfl : m = n := Except.ok.inj (Prod.mk.inj (hmeta.symm.trans hmeta')).1
      exact same_empty_iff.mp (hm.symm.trans (same_empty_iff.mpr hn))
    · obtain rfl : m' = n' := Option.some.inj (Except.ok.inj (Prod.mk.inj (hsource.symm.trans hsource')).1)
      exact same_empty_iff.mp (hm'.symm.trans (same_empty_iff.mpr hn'))
  · rintro ⟨htags', hmeta', hsource'⟩
    exact ⟨htags' ▸ htags, ⟨m, hmeta, same_empty_iff.mp (hm.trans (same_empty_iff.mpr hmeta'))⟩,
      ⟨m', hsource, same_empty_iff.mp (hm'.trans (same_empty_iff.mpr hsource'))⟩⟩

theorem Blank.nothing (h : Blank path w) : Nothing path w.files := by
  obtain ⟨file, hfallen, -, -⟩ := h
  exact (nothing_iff_of_fallen hfallen).mpr ⟨rfl, rfl, rfl⟩

/-! ### Writes -/

/-- A disk that differs from another in the row of the file at most. -/
structure SameElsewhere (path : String) (disk disk' : Disk) : Prop where
  inode : disk'.inode = disk.inode
  sidecar : ∀ key, (∀ file, disk.inode path = some file → key ≠ rowKey file) → disk'.sidecar key = disk.sidecar key

theorem SameElsewhere.refl (disk : Disk) : SameElsewhere path disk disk := ⟨rfl, fun _ _ => rfl⟩

theorem sameElsewhere_update {disk : Disk} (hfile : disk.inode path = some file) (row : Option String) :
    SameElsewhere path disk { disk with sidecar := Function.update disk.sidecar (rowKey file) row } :=
  ⟨rfl, fun _ hkey => Function.update_of_ne (hkey file hfile) ..⟩

theorem wp_store_write {disk : Disk} (data : Data) : wp (Store.write path data)
    (fun _ disk' => SameElsewhere path disk disk') (fun _ disk' => SameElsewhere path disk disk') disk := by
  refine wp_andThen (wp_wrap (wp_stmt (.refl disk) ?_))
  cases hfile : disk.inode path with
  | none => exact .refl disk
  | some file =>
    dsimp only
    split_ifs
    · exact wp_wrap (wp_stmt (.refl disk) (sameElsewhere_update hfile none))
    · exact wp_wrap (wp_stmt (.refl disk) (sameElsewhere_update hfile (some data.marshal)))

/-- Files that differ from others in the row of one file at most. -/
def OwnRow (path : String) (files files' : Files) : Prop :=
  ∃ disk, files' = { files with disk := disk } ∧ SameElsewhere path files.disk disk

theorem OwnRow.refl (files : Files) : OwnRow path files files := ⟨files.disk, rfl, .refl files.disk⟩

/-- What a method that writes does where there are no attributes, whatever fails. -/
theorem wp_writeMethod {files : Files} {name val format readFormat writeFormat : String} {args : List String}
    {f : Data → Data} (hsupported : files.supported path = false) :
    wp (do
        ctxErr
        let r ← attempt (Fallback.set path name val)
        endWrite ⟨true⟩ format args (writeFallback path readFormat writeFormat args f) r)
      (fun _ files' => OwnRow path files files') (fun _ files' => OwnRow path files files') files := by
  have hattributes : ∃ err, attributes path files = .error err := by
    unfold attributes
    split
    · exact ⟨_, rfl⟩
    · rw [hsupported]
      exact ⟨_, rfl⟩
  obtain ⟨err, herr⟩ := hattributes
  refine wp_andThen (wp_stmt (.refl files) (wp_andThen (wp_attempt (wp_stmt ?_ ?_))))
  · exact wp_fail (.refl files)
  · rw [herr]
    show wp (if _ then _ else _) _ _ files
    split_ifs
    · refine wp_andThen (wp_attempt (wp_zoom (Stored.wp_read.mono ?_ ?_)))
      · rintro d _ ⟨rfl, -⟩
        exact wp_wrap (wp_zoom ((wp_store_write (f d)).mono (fun _ disk' h => ⟨disk', rfl, h⟩)
          fun _ disk' h => ⟨disk', rfl, h⟩))
      · rintro err _ ⟨rfl, -⟩
        cases err
        case noSidecar =>
          exact wp_wrap (wp_zoom ((wp_store_write (f {})).mono (fun _ disk' h => ⟨disk', rfl, h⟩)
            fun _ disk' h => ⟨disk', rfl, h⟩))
        all_goals exact wp_fail (.refl files)
    · exact wp_fail (.refl files)

theorem ownRow_run {files : Files} (hsupported : files.supported path = false) (m : Write) (faults : List Bool) :
    OwnRow path files (m.run path ⟨files, faults⟩).2.store := by
  have hwp : wp (m.run path) (fun _ files' => OwnRow path files files') (fun _ files' => OwnRow path files files')
      files := by
    cases m <;> exact wp_writeMethod hsupported
  have h := hwp faults
  split at h
  all_goals
    rename_i hrun
    rw [hrun]
    exact h

/-! ### Deletions -/

/-- No handler changes a file or a sidecar with a method of the index. -/
theorem wp_onIndex {files : Files} (m : Sql Unit) (h : w.files = files) :
    wp (onIndex m) (fun _ w' => w'.files = files) (fun _ w' => w'.files = files) w := by
  refine wp_andThen (wp_attempt (wp_zoom fun faults => ?_))
  split
  all_goals exact wp_ret h

/-- What a handler leaves of the files, with all the sidecars. -/
theorem handle_files (h : Handler) (w : World) (faults : List Bool) :
    ∃ gone, (h.handle ⟨w, faults⟩).2.store.files = (w.remove gone).files := by
  have hnone : w.files = (w.remove fun _ => false).files := by simp [World.remove]
  have hwp : wp h.handle (fun _ w' => ∃ gone, w'.files = (w.remove gone).files)
      (fun _ w' => ∃ gone, w'.files = (w.remove gone).files) w := by
    cases h with
    | handleFSEvent path | run basePath since =>
      exact (wp_onIndex _ hnone).mono (fun _ _ h => ⟨_, h⟩) fun _ _ h => ⟨_, h⟩
    | deleteFile realPath gone =>
      refine wp_andThen (wp_stmt ⟨_, hnone⟩ ?_)
      exact (wp_onIndex _ rfl).mono (fun _ _ h => ⟨gone, h⟩) fun _ _ h => ⟨gone, h⟩
  have h := hwp faults
  split at h
  all_goals
    rename_i hrun
    rw [hrun]
    exact h

/-! ### Steps -/

theorem noAttributes_step (h : Step w e w') (hw : NoAttributes w) : NoAttributes w' := by
  cases h with
  | created | removed => exact hw
  | handled h faults =>
    obtain ⟨gone, hfiles⟩ := handle_files h w faults
    intro p
    rw [hfiles]
    exact hw p
  | written path m faults =>
    obtain ⟨disk, hfiles, -⟩ := ownRow_run (hw path) m faults
    intro p
    show (m.run path ⟨w.files, faults⟩).2.store.supported p = false
    rw [hfiles]
    exact hw p

/-- A file that is created under a clean number is blank. -/
theorem blank_create (hw : NoAttributes w) (hclean : CleanNumber w (.created path file)) :
    Blank path (w.create path file) := by
  obtain ⟨hrow, hapart⟩ := hclean
  have hempty : Data.Same {} {} := ⟨rfl, StringMaps.Same.refl _, StringMaps.Same.refl _⟩
  refine ⟨file, ⟨hw path, ?_, Function.update_self .., Or.inl ⟨hrow, hempty⟩⟩, hrow, fun p other hne hother => ?_⟩
  · simp [World.create]
  · rw [World.number, World.create] at hother
    dsimp only at hother
    rw [Function.update_of_ne hne] at hother
    exact fun heq => rowKey_eq_iff.mp heq (hapart p other hother)

/-- Another file that is created does not share its row. -/
theorem Blank.create {p : String} (hblank : Blank path w) (hpath : w.number p = none)
    (hapart : ∀ p' other, w.number p' = some other → Apart other.1 file.1 ∨ Apart other.2 file.2) :
    Blank path (w.create p file) := by
  obtain ⟨own, hfallen, hrow, hothers⟩ := hblank
  have hne : path ≠ p := by
    rintro rfl
    have hown : w.number path = some own := hfallen.inode
    rw [hpath] at hown
    cases hown
  refine ⟨own, ⟨hfallen.supported, ?_, ?_, hfallen.row⟩, hrow, fun p' other hne' hother => ?_⟩
  · simpa [World.create, Function.update_of_ne hne] using hfallen.attrs
  · simpa [World.create, Function.update_of_ne hne] using hfallen.inode
  · rw [World.number, World.create] at hother
    dsimp only at hother
    by_cases heq : p' = p
    · rw [heq, Function.update_self] at hother
      cases hother
      exact fun hkey => rowKey_eq_iff.mp hkey.symm (hapart path own hfallen.inode)
    · rw [Function.update_of_ne heq] at hother
      exact hothers p' other hne' hother

/-- A file that is not taken away stays blank when others are. -/
theorem Blank.remove {gone : String → Bool} (hblank : Blank path w) (hkept : gone path = false) :
    Blank path (w.remove gone) := by
  obtain ⟨file, hfallen, hrow, hothers⟩ := hblank
  refine ⟨file, ⟨hfallen.supported, ?_, ?_, hfallen.row⟩, hrow, fun p other hne hother => hothers p other hne ?_⟩
  · simpa [World.remove, hkept] using hfallen.attrs
  · simpa [World.remove, hkept] using hfallen.inode
  · rw [World.number, World.remove] at hother
    dsimp only at hother
    split_ifs at hother
    exact hother

theorem Blank.congr (hblank : Blank path w) (hfiles : w'.files = w.files) : Blank path w' := by
  obtain ⟨file, hfallen, hrow, hothers⟩ := hblank
  refine ⟨file, hfiles ▸ hfallen, hfiles ▸ hrow, fun p other hne hother => hothers p other hne ?_⟩
  rw [World.number, hfiles] at hother
  exact hother

/-- A write for another file leaves it blank. -/
theorem Blank.write {p : String} {files : Files} (hblank : Blank path w) (hne : p ≠ path) (h : OwnRow p w.files files) :
    Blank path { w with files := files } := by
  obtain ⟨file, hfallen, hrow, hothers⟩ := hblank
  obtain ⟨disk, rfl, hinode, hsidecar⟩ := h
  have hkey : disk.sidecar (rowKey file) = none := by
    rw [hsidecar _ fun other hother => (hothers p other hne hother).symm]
    exact hrow
  have hempty : Data.Same {} {} := ⟨rfl, StringMaps.Same.refl _, StringMaps.Same.refl _⟩
  refine ⟨file, ⟨hfallen.supported, hfallen.attrs, hinode ▸ hfallen.inode, Or.inl ⟨hkey, hempty⟩⟩, hkey, ?_⟩
  intro p' other hne' hother
  refine hothers p' other hne' ?_
  rw [← hother]
  exact congrFun hinode.symm p'

/-- **One step.** What is blank stays blank until something is written for it, or it is gone. -/
theorem Blank.step (h : Step w e w') (hw : NoAttributes w) (hclean : CleanNumber w e) (hblank : Blank path w)
    (hno : ¬ e.Writes path) (hstill : (w'.number path).isSome) : Blank path w' := by
  have hgone : ∀ gone, w'.files = (w.remove gone).files → Blank path w' := fun gone hfiles => by
    have hkept : gone path = false := by
      by_contra hgone
      rw [World.number, hfiles] at hstill
      simp [World.remove, hgone] at hstill
    exact (hblank.remove hkept).congr hfiles
  cases h with
  | @created p file' hpath hfile => exact hblank.create hpath hclean.2
  | removed gone => exact hgone gone rfl
  | handled h faults =>
    obtain ⟨gone, hfiles⟩ := handle_files h w faults
    exact hgone gone hfiles
  | written p m faults =>
    have hne : p ≠ path := fun heq => hno ⟨m, faults, heq ▸ rfl⟩
    exact hblank.write hne (ownRow_run (hw p) m faults)

/-! ### A file that is deleted -/

/-- Nothing there. -/
def start : World := ⟨⟨fun _ => none, fun _ => false, ⟨fun _ => none, fun _ => none⟩⟩, DB.empty⟩

/-- The file `/a` with a tag. -/
def tagged : World :=
  let w := start.create "/a" (7, 1)
  { w with files := ((Write.tags ["x"]).run "/a" ⟨w.files, []⟩).2.store }

/-- After the deletion of `/a`, and after `handleFSEvent`. -/
def deleted : World :=
  ((Handler.handleFSEvent "/a").handle ⟨tagged.remove (· = "/a"), []⟩).2.store

def history : List (World × Event) :=
  [(start, .created "/a" (7, 1)), (start.create "/a" (7, 1), .written "/a" (.tags ["x"]) []),
    (tagged, .removed (· = "/a")), (tagged.remove (· = "/a"), .handled (.handleFSEvent "/a") [])]

theorem runs_history : Steps.Runs Step start history deleted :=
  ((((Steps.Runs.nil.snoc (.created rfl nofun)).snoc (.written _ "/a" (.tags ["x"]) [])).snoc
    (.removed _ (· = "/a"))).snoc (.handled _ (.handleFSEvent "/a") []))

theorem noAttributes_start : NoAttributes start := fun _ => rfl

theorem clean_history : Steps.Meets CleanNumber history := by
  intro e he
  simp only [history, List.mem_cons, List.not_mem_nil, or_false] at he
  rcases he with rfl | rfl | rfl | rfl
  · refine ⟨rfl, fun p other h => ?_⟩
    cases h
  all_goals trivial

/-- The tag is left. -/
theorem deleted_files : (∀ p, deleted.number p = none) ∧
    (∃ d, d.tags = formatTags ["x"] ∧ HoldsRow deleted.files.disk (7, 1) d) ∧
    ∀ key, key ≠ rowKey (7, 1) → deleted.files.disk.sidecar key = none := by
  have hempty : Data.Same {} {} := ⟨rfl, StringMaps.Same.refl _, StringMaps.Same.refl _⟩
  have hfallen : Fallen "/a" (7, 1) {} (start.create "/a" (7, 1)).files := ⟨rfl, rfl, rfl, Or.inl ⟨rfl, hempty⟩⟩
  obtain ⟨d, files, -, hwrite, hfiles⟩ := runs_writeFallback hfallen "sidecar read for tags update %q: %w"
    "sidecar write tags %q: %w" ["/a"] fun sc => { sc with tags := formatTags ["x"] }
  have hrun : Runs ((Write.tags ["x"]).run "/a") (start.create "/a" (7, 1)).files (.ok ()) files :=
    Runs.andThen runs_ctxErr (Runs.andThen (set_fallen hfallen _ _).attempt hwrite)
  have htagged : tagged.files = files := congrArg (fun r => r.2.store) hrun
  obtain ⟨disk, hdisk, hinode, hsidecar⟩ := ownRow_run hfallen.supported (Write.tags ["x"]) []
  obtain ⟨gone, hgone⟩ := handle_files (.handleFSEvent "/a") (tagged.remove (· = "/a")) []
  have hdisk' : files.disk = disk := by
    rw [← htagged]
    exact congrArg Files.disk hdisk
  have hdeleted : deleted.files.disk.sidecar = disk.sidecar := by
    rw [← hdisk', ← htagged]
    exact congrArg (fun f => f.disk.sidecar) hgone
  refine ⟨fun p => ?_, ⟨{ d with tags := formatTags ["x"] }, rfl, ?_⟩, fun key hkey => ?_⟩
  · have hnumber : deleted.number p =
        if gone p then none else if p = "/a" then none else tagged.files.disk.inode p := by
      rw [World.number, show deleted.files = _ from hgone]
      simp [World.remove]
    rw [hnumber, htagged, hdisk', hinode]
    split_ifs with h h'
    · rfl
    · rfl
    · exact Function.update_of_ne h' ..
  · have hrow := hfiles.row
    unfold HoldsRow at hrow ⊢
    rw [hdeleted, ← hdisk']
    exact hrow
  · rw [hdeleted, hsidecar key fun file hfile => ?_]
    · rfl
    · cases hfile
      exact hkey

/-! ### Whole runs -/

/-- A file that is fresh after a step was created by it, or was fresh before. -/
theorem fresh_snoc {u : World} {a : Event} (h : Fresh path (tr ++ [(t, a)]) u) :
    (∃ file, a = .created path file) ∨ Fresh path tr t ∧ ¬ a.Writes path ∧ (u.number path).isSome := by
  obtain ⟨before, w, file, after, htr, hafter, hstill⟩ := h
  rcases List.eq_nil_or_concat' after with rfl | ⟨after, e, rfl⟩
  · obtain ⟨-, hlast⟩ := List.append_inj' htr rfl
    cases hlast
    exact Or.inl ⟨file, rfl⟩
  · rw [← List.cons_append, ← List.append_assoc] at htr
    obtain ⟨rfl, hlast⟩ := List.append_inj' htr rfl
    cases hlast
    obtain ⟨hafter, hlast⟩ := List.forall_mem_append.mp hafter
    obtain ⟨hno, hbefore⟩ := hlast _ (List.mem_singleton_self _)
    exact Or.inr ⟨⟨before, w, file, after, rfl, hafter, hbefore⟩, hno, hstill⟩

theorem noAttributes_run (hrun : Steps.Runs Step w tr t) (hw : NoAttributes w) : NoAttributes t :=
  hrun.invariant NoAttributes Steps.meets_any hw fun _ _ _ hw _ h => noAttributes_step h hw

theorem blank_of_fresh (hrun : Steps.Runs Step w tr t) (hw : NoAttributes w) (hclean : Steps.Meets CleanNumber tr)
    (hfresh : Fresh path tr t) : Blank path t := by
  induction hrun with
  | nil =>
    obtain ⟨before, _, _, after, htr, -⟩ := hfresh
    cases before <;> cases htr
  | @snoc tr t u a hbefore hlast ih =>
    obtain ⟨hclean, hcleanLast⟩ := Steps.meets_snoc_iff.mp hclean
    have ht := noAttributes_run hbefore hw
    rcases fresh_snoc hfresh with ⟨file, rfl⟩ | ⟨hfresh, hno, hstill⟩
    · cases hlast
      exact blank_create ht hcleanLast
    · exact (ih hclean hfresh).step hlast ht hcleanLast hno hstill

/-- **A new file has nothing until something is written for it.** In every run on a file system without attributes in
which files are created under clean numbers. -/
theorem nothing_until_written (hrun : Steps.Runs Step w tr t) (hw : NoAttributes w)
    (hclean : Steps.Meets CleanNumber tr) (hfresh : Fresh path tr t) : Nothing path t.files :=
  (blank_of_fresh hrun hw hclean hfresh).nothing

/-- The file `/b` is created after `/a` was deleted, under a number of its own. -/
theorem nothing_of_deleted : Nothing "/b" (deleted.create "/b" (8, 1)).files := by
  obtain ⟨hnumber, -, hrows⟩ := deleted_files
  have hcreated : Step deleted (.created "/b" (8, 1)) (deleted.create "/b" (8, 1)) :=
    .created (hnumber "/b") fun p hp => by
      rw [hnumber p] at hp
      cases hp
  have hclean : CleanNumber deleted (.created "/b" (8, 1)) :=
    ⟨hrows _ (by decide), fun p other hp => by
      rw [hnumber p] at hp
      cases hp⟩
  have hfresh : Fresh "/b" (history ++ [(deleted, .created "/b" (8, 1))]) (deleted.create "/b" (8, 1)) :=
    ⟨history, deleted, (8, 1), [], rfl, nofun, by simp [World.number, World.create]⟩
  exact nothing_until_written (runs_history.snoc hcreated) noAttributes_start (clean_history.snoc hclean) hfresh

/-! ### A number that is not clean -/

/-- **What is left is read.** A new file has what the row of its number holds. -/
theorem nothing_create_iff {d : Data} (hw : NoAttributes w) (hrow : HoldsRow w.files.disk file d) :
    Nothing path (w.create path file).files ↔
      tagsOf path d.tags = .ok [] ∧ d.metadata.pairs = [] ∧ d.source.pairs = [] :=
  nothing_iff_of_fallen ⟨hw path, by simp [World.create], Function.update_self .., hrow⟩

/-- The file `/b` gets the number of `/a`, and its tag. -/
theorem tag_of_deleted : ¬ ∀ w tr t path, Steps.Runs Step w tr t → NoAttributes w →
    (∀ key, w.files.disk.sidecar key = none) → Fresh path tr t → Nothing path t.files := by
  intro h
  obtain ⟨hnumber, ⟨d, htags, hrow⟩, -⟩ := deleted_files
  have hcreated : Step deleted (.created "/b" (7, 1)) (deleted.create "/b" (7, 1)) :=
    .created (hnumber "/b") fun p hp => by
      rw [hnumber p] at hp
      cases hp
  have hfresh : Fresh "/b" (history ++ [(deleted, .created "/b" (7, 1))]) (deleted.create "/b" (7, 1)) :=
    ⟨history, deleted, (7, 1), [], rfl, nofun, by simp [World.number, World.create]⟩
  have hnothing := h start _ _ "/b" (runs_history.snoc hcreated) noAttributes_start (fun _ => rfl) hfresh
  have hnone := ((nothing_create_iff (noAttributes_run runs_history noAttributes_start) hrow).mp hnothing).1
  rw [htags] at hnone
  exact absurd (Except.ok.inj hnone) (by decide)

end Tilbo.Sidecar.Reuse
