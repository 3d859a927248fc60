import Tilbo.Daemon.Operations
import Tilbo.Rules.Sweep
import Tilbo.Sidecar.Stored

/-! # Failed reads

The operations that read tags or provenance and write them back, on the xattr service with its sidecar store:
`applyTagsXattr`, `handleAsyncResult`, `applyDiff` and `sweepFile`. They take a failed read for an empty value
and go on to write. `kept_iff` says when what is stored is kept all the same. -/

namespace Tilbo.Daemon.FailedReads

open Tilbo.Daemon.State Tilbo.Index.Store Tilbo.Rules.Engine Tilbo.Harvester.Meta
open Tilbo.Lib Tilbo.Lib.Strings Tilbo.Lib.StringMaps Tilbo.Lib.Pairs Tilbo.Lib.Txn Tilbo.Lib.Txn.Prog
open Tilbo.Sidecar.Fallback Tilbo.Sidecar.Stored Tilbo.Xattr.Csv
open Tilbo.Index.StoreSpec (afterModify)

/-! ### Operations -/

/-- The index, the graph and so on, and the files with their attributes and sidecars. -/
structure Site where
  world : World
  files : Files

inductive Failure where
  | op (e : OpError)
  | xattr (e : Sidecar.Fallback.Error)
  /-- `fmt.Errorf` around another error. -/
  | wrapped (format : String) (cause : Failure)

abbrev Job (α : Type) : Type := Prog Site Failure α

variable {F α : Type}

/-- A part that does not use the xattr service. -/
def onWorld (p : Op F α) : Job α := wrap .op (zoom Site.world (fun w s => { s with world := w }) (Process.Proc.run p))

/-- A method of the xattr service. -/
def onFiles (m : Sidecar.Fallback.Act α) : Job α := wrap .xattr (zoom Site.files (fun w s => { s with files := w }) m)

/-- `v, _ := m`, with `default` for the value on an error. -/
def valueOr {σ ε : Type} (default : α) (m : Prog σ ε α) : Prog σ ε α := do
  match ← attempt m with
  | .ok a => return a
  | .error (_ : ε) => return default

variable (P : Platform F) (env : Env F) (svc : Service) (isNonRetryable : Failure → Bool) (path : String)

/-- `applyTagsXattr`. -/
def applyTagsXattr (tagNames : List String) (op : String) : Sidecar.Fallback.Act Unit := do
  let existing ← valueOr [] (readTags svc path)
  writeTags svc path (env.order.visit (Handlers.applyOp op existing tagNames))

/-- `readAsyncState`. -/
def readAsyncState : Job (List String × MetaMap F) := do
  let existingTags ← valueOr [] (onFiles (readTags svc path))
  let existingMeta ← valueOr empty (onFiles (readAllMeta svc path))
  return (existingTags, parseStoredMeta P existingMeta.pairs)

/-- `consumeNonRetryablePathErr`. -/
def consumeNonRetryablePathErr (err : Failure) : Job Bool := do
  if isNonRetryable err then
    onWorld (call (markPathNonRetryable path) : Op F Unit)
    return true
  else return false

/-- An error ends the operation if it is not worth a retry, and is logged otherwise. -/
def stopIfNonRetryable (m : Job Unit) : Job Unit := do
  match ← attempt m with
  | .error err => if isNonRetryable err then fail err else pure ()
  | .ok _ => pure ()

/-- `persistMetaValue`. -/
def persistMetaValue (fileId : ℕ) (persistToIndex : Bool) (source key value : String) : Job Unit := do
  stopIfNonRetryable isNonRetryable (onFiles (writeMeta svc path key value))
  if persistToIndex then
    stopIfNonRetryable isNonRetryable (onWorld (call (onIndex (upsertFileMeta fileId key value source)) : Op F Unit))
  else pure ()

/-- `mergeAndPersistMeta`. -/
def mergeAndPersistMeta (fileId : ℕ) (persistToIndex : Bool) (source : String) (base : MetaMap F)
    (updates : List (String × MetaValue F)) : Job (MetaMap F) := do
  each (fun kv =>
    if kv.1.toList.head? = some '_' then pure ()
    else persistMetaValue (F := F) svc isNonRetryable path fileId persistToIndex source kv.1 (valueToString P kv.2))
      updates
  return base.copy updates

/-- The update of the provenance; errors are dropped. -/
def updateSource (sources : List (String × String)) : Job Unit := do
  let sourceMap ← valueOr none (onFiles (readSource svc path))
  valueOr () (onFiles (writeSource svc path (some (setAll (sourceMap.getD empty) sources))))

/-- The part of `applyDiff` after the provenance. -/
def indexDiff (fileId : ℕ) (newTags : List String) (diff : TagDiff) : Op F Unit := do
  Process.Proc.atom (.setFileTags path fileId newTags)
    (errorf "set file tags: %w" [] (onIndex (setFileTags fileId newTags)))
  Processor.setGraphTags path newTags
  Processor.recordSources env fileId diff.sources
  call (onFileTagged path diff.added [])

/-- `applyDiff`. -/
def applyDiff (fileId : ℕ) (existingTags : List String) (diff : TagDiff) : Job Unit := do
  let newTags := existingTags ++ diff.added
  wrap (.wrapped "write tags: %w") (onFiles (writeTags svc path newTags))
  updateSource svc path diff.sources
  onWorld (indexDiff env path fileId newTags diff)

/-- The part of `handleAsyncResult` between the reading of the file and `applyDiff`. -/
def asyncDiff (fileId : ℕ) (existingTags : List String) (md : MetaMap F) (harvesterName : String)
    (asyncMeta : List (String × MetaValue F)) : Job TagDiff := do
  let md ← mergeAndPersistMeta P svc isNonRetryable path fileId true harvesterName md asyncMeta
  let overrides ← onWorld (Processor.readOverrides env path fileId md existingTags)
  let diff := eval env.rules env.order md existingTags overrides
  if diff.added = [] then return diff
  else
    onWorld (Processor.updateEmbedding env path fileId existingTags md)
    return diff

/-- The part of `handleAsyncResult` that can fail. -/
def asyncUpdate (harvesterName : String) (asyncMeta : List (String × MetaValue F)) : Job Unit := do
  let fileId ← onWorld (Processor.lookupFileID path : Op F ℕ)
  let (existingTags, md) ← readAsyncState P svc path
  let diff ← asyncDiff P env svc isNonRetryable path fileId existingTags md harvesterName asyncMeta
  if diff.added = [] then return () else applyDiff env svc path fileId existingTags diff

/-- `handleAsyncResult`. -/
def handleAsyncResult (harvesterName : String) (asyncMeta : List (String × MetaValue F)) : Job Unit := do
  if ← onWorld (Processor.preparePath env path) then
    match ← attempt (asyncUpdate P env svc isNonRetryable path harvesterName asyncMeta) with
    | .ok _ => return ()
    | .error err =>
      let _ ← consumeNonRetryablePathErr (F := F) isNonRetryable path err
      return ()
  else return ()

/-- The loop of `sweepFile` that persists what was harvested; errors are dropped. -/
def sweepPersist (idErr : Except Failure ℕ) (additional : List (String × MetaValue F)) : Job Unit :=
  each (fun kv =>
    if kv.1.toList.head? = some '_' then pure ()
    else do
      let strVal := valueToString P kv.2
      valueOr () (onFiles (writeMeta svc path kv.1 strVal))
      match idErr with
      | .ok fileId => valueOr () (onWorld (call (onIndex (upsertFileMeta fileId kv.1 strVal "harvester")) : Op F Unit))
      | .error _ => pure ()) additional

/-- The part of `sweepFile` up to the evaluation of the rules: the id of the file, its tags and the result. -/
def sweepDiff : Job (ℕ × List String × TagDiff) := do
  let existingTags ← onFiles (readTags svc path)
  let existingMeta ← onFiles (readAllMeta svc path)
  let md := parseStoredMeta P existingMeta.pairs
  let (md, additional) := Rules.Sweep.sweepHarvest env ⟨path, textOf (md "mime"), md⟩ md
  let idErr ← attempt (onWorld (Processor.lookupFileID path : Op F ℕ))
  sweepPersist P svc path idErr additional
  let md := md.copy additional
  match idErr with
  | .error err => fail err
  | .ok fileId =>
    let overrides ← onWorld (Processor.readOverrides env path fileId md existingTags)
    return (fileId, existingTags, eval env.rules env.order md existingTags overrides)

/-- `sweepFile`: whether tags were added. -/
def sweepFile : Job Bool := do
  let (fileId, existingTags, diff) ← sweepDiff P env svc path
  if diff.added = [] then return false
  else
    let newTags := existingTags ++ diff.added
    onFiles (writeTags svc path newTags)
    updateSource svc path diff.sources
    onWorld (Process.Proc.atom (.setFileTags path fileId newTags) (onIndex (setFileTags fileId newTags)) : Op F Unit)
    onWorld (Processor.recordSources env fileId diff.sources)
    return true

/-! ### Runs -/

section Runs
variable {σ ε : Type} {m : Prog σ ε α} {c c' : Conn σ}

theorem valueOr_run {v : α} {r : Except ε α} (h : m c = (r, c')) :
    valueOr v m c = (.ok (r.toOption.getD v), c') := by
  unfold valueOr
  rw [bind_ok (attempt_run h)]
  cases r <;> rfl

end Runs

variable {path : String} {svc : Service} {c c' c₁ c₂ : Conn Site} {d d' : Conn Files}

/-- What the xattr service sees. -/
def filesOf (c : Conn Site) : Conn Files := ⟨c.store.files, c.faults⟩

/-- What the xattr service leaves. -/
def putFiles (c : Conn Site) (d : Conn Files) : Conn Site := ⟨{ c.store with files := d.store }, d.faults⟩

theorem onFiles_run {m : Sidecar.Fallback.Act α} {r : Except Sidecar.Fallback.Error α} (h : m (filesOf c) = (r, d)) :
    onFiles m c = (r.mapError .xattr, putFiles c d) := by
  unfold onFiles wrap zoom
  rw [show m ⟨c.store.files, c.faults⟩ = (r, d) from h]
  cases r <;> rfl

/-- A part that does not use the service leaves the files alone. -/
theorem onWorld_files (p : Op F α) (c : Conn Site) : (onWorld p c).2.store.files = c.store.files := by
  unfold onWorld wrap zoom
  rcases Process.Proc.run p ⟨c.store.world, c.faults⟩ with ⟨r | e, c'⟩ <;> rfl

theorem keeps_onWorld {φ : Files → Prop} (p : Op F α) : Keeps (fun s => φ s.files) (onWorld p) := by
  intro s hs fs
  have hfiles := onWorld_files p ⟨s, fs⟩
  rcases hrun : onWorld p ⟨s, fs⟩ with ⟨r | e, c⟩ <;> rw [hrun] at hfiles
  all_goals
    show φ c.store.files
    rwa [show c.store.files = s.files from hfiles]

theorem files_of_keeps {m : Job α} (h : ∀ φ : Files → Prop, Keeps (fun s => φ s.files) m) (c : Conn Site) :
    (m c).2.store.files = c.store.files := (h (· = c.store.files)).run rfl

theorem keeps_onFiles {φ : Files → Prop} {m : Sidecar.Fallback.Act α} (h : Keeps φ m) :
    Keeps (fun s => φ s.files) (onFiles m) := fun s hs => wp_wrap (wp_zoom (h s.files hs))

theorem keeps_valueOr {σ ε : Type} {I : σ → Prop} {m : Prog σ ε α} {default : α} (h : Keeps I m) :
    Keeps I (valueOr default m) := by
  refine Keeps.andThen (Keeps.attempt h) fun r => ?_
  cases r with
  | ok a => exact Keeps.ret
  | error e => exact Keeps.ret

/-! ### One write after a failed read -/

/-- A write of the tags keeps them if it fails, or if it writes what is stored. -/
theorem tags_kept_iff (tags : List String) (d : Conn Files) :
    storedTags path (writeTags svc path tags d).2.store = storedTags path d.store ↔
      ((writeTags svc path tags d).1 = .ok () → storedTags path d.store = some (.ok (stored tags))) := by
  rcases hrun : writeTags svc path tags d with ⟨e | u, d'⟩
  · have hsame := (wp_writeTags tags).error hrun
    simp [hsame]
  · obtain ⟨htags, -⟩ := (wp_writeTags tags).ok hrun
    rw [htags]
    exact ⟨fun h _ => h.symm, fun h => (h rfl).symm⟩

/-- A write of the provenance keeps it if it fails, or if it writes what is stored. -/
theorem source_kept_iff (svc : Service) (path : String) (m : StringMap) (d : Conn Files) :
    SameSource path d.store (writeSource svc path (some m) d).2.store ↔
      ((writeSource svc path (some m) d).1 = .ok () →
        Option.Rel StringMaps.Same (storedSource path d.store) (some m)) := by
  rcases hrun : writeSource svc path (some m) d with ⟨e | u, d'⟩
  · have hsame := (wp_writeSource (some m)).error hrun
    rw [show d'.store = d.store from hsame]
    exact ⟨nofun, fun _ => SameSource.refl _⟩
  · obtain ⟨-, m', hm', hsame⟩ := (wp_writeSource (some m)).ok hrun
    unfold SameSource
    rw [hm']
    have hiff : ∀ o : Option StringMap, Option.Rel StringMaps.Same o (some m') ↔
        Option.Rel StringMaps.Same o (some m) := by
      intro o
      constructor
      · rintro (h | _)
        exact .some (h.trans hsame)
      · rintro (h | _)
        exact .some (h.trans hsame.symm)
    rw [hiff]
    exact ⟨fun h _ => h, fun h => h rfl⟩

theorem applyTagsXattr_unreadable {env : Env F} {tagNames : List String} {op : String}
    (h : TagsUnreadable svc path d) : applyTagsXattr env svc path tagNames op d =
      writeTags svc path (env.order.visit (Handlers.applyOp op [] tagNames)) (readTags svc path d).2 := by
  obtain ⟨r, fs, hrun, hr⟩ := readTags_unreadable h
  unfold applyTagsXattr
  rw [bind_ok (valueOr_run hrun), hrun]
  obtain rfl | ⟨err, rfl⟩ := hr
  · rfl
  · rfl

theorem updateSource_unreadable {sources : List (String × String)} (h : SourceUnreadable svc path (filesOf c)) :
    updateSource svc path sources c = (.ok (), putFiles c
      (writeSource svc path (some (setAll empty sources)) (readSource svc path (filesOf c)).2).2) := by
  obtain ⟨r, fs, hrun, hr⟩ := readSource_unreadable h
  have hread := valueOr_run (v := (none : Option StringMap)) (onFiles_run hrun)
  unfold updateSource
  rw [bind_ok hread, hrun]
  have hmap : (((r.mapError Failure.xattr).toOption.getD none).getD empty) = empty := by
    obtain rfl | ⟨err, rfl⟩ := hr
    · rfl
    · rfl
  rw [hmap]
  exact valueOr_run (onFiles_run (c := putFiles c ⟨(filesOf c).store, fs⟩) rfl)

/-! ### The steps before the write -/

variable {P : Platform F} {env : Env F} {isNonRetryable : Failure → Bool} {w : Files}

/-- The steps that keep the tags and the provenance of the file. -/
abbrev Spares (path : String) (w : Files) (m : Job α) : Prop := Keeps (fun s => Untouched path w s.files) m

theorem spares_onWorld (p : Op F α) : Spares path w (onWorld p) := keeps_onWorld p

theorem spares_read {m : Sidecar.Fallback.Act α} (h : ∀ w, Keeps (· = w) m) : Spares path w (onFiles m) := by
  refine keeps_onFiles fun w' hw' => (h w' w' rfl).mono ?_ ?_
  · rintro _ _ rfl
    exact hw'
  · rintro _ _ rfl
    exact hw'

theorem keeps_readTags : Keeps (· = w) (readTags svc path) := by
  rintro w' rfl fs
  obtain ⟨r, fs', hrun, -⟩ := reads_readTags svc path ⟨w', fs⟩
  rw [hrun]
  cases r <;> rfl

theorem spares_writeMeta (key value : String) : Spares path w (onFiles (writeMeta svc path key value)) := by
  refine keeps_onFiles fun w' hw' => (wp_writeMeta key value).mono (fun _ _ h => hw'.trans h) ?_
  rintro _ _ rfl
  exact hw'

theorem spares_stop {m : Job Unit} (h : Spares path w m) : Spares path w (stopIfNonRetryable isNonRetryable m) := by
  refine Keeps.andThen (Keeps.attempt h) fun r => ?_
  cases r with
  | ok _ => exact Keeps.ret
  | error err =>
    dsimp only
    split_ifs
    · exact Keeps.fail
    · exact Keeps.ret

theorem spares_mergeAndPersistMeta {fileId : ℕ} {persistToIndex : Bool} {source : String} {base : MetaMap F}
    {updates : List (String × MetaValue F)} : Spares path w
      (mergeAndPersistMeta P svc isNonRetryable path fileId persistToIndex source base updates) := by
  refine Keeps.andThen (Keeps.each (fun kv => ?_) updates) fun _ => Keeps.ret
  split_ifs
  · exact Keeps.ret
  · refine Keeps.andThen (spares_stop (spares_writeMeta _ _)) fun _ => ?_
    split_ifs
    · exact spares_stop (spares_onWorld _)
    · exact Keeps.ret

theorem spares_asyncDiff {fileId : ℕ} {existingTags : List String} {md : MetaMap F} {harvesterName : String}
    {asyncMeta : List (String × MetaValue F)} : Spares path w
      (asyncDiff P env svc isNonRetryable path fileId existingTags md harvesterName asyncMeta) := by
  refine Keeps.andThen spares_mergeAndPersistMeta fun _ => Keeps.andThen (spares_onWorld _) fun _ => ?_
  dsimp only
  split_ifs
  · exact Keeps.ret
  · exact Keeps.andThen (spares_onWorld _) fun _ => Keeps.ret

theorem spares_sweepDiff : Spares path w (sweepDiff P env svc path) := by
  refine Keeps.andThen (spares_read fun _ => keeps_readTags) fun _ =>
    Keeps.andThen (spares_read fun _ => keeps_readAllMeta) fun _ => Keeps.andThen
      (Keeps.attempt (spares_onWorld _)) fun idErr => Keeps.andThen (Keeps.each (fun kv => ?_) _) fun _ => ?_
  · split_ifs
    · exact Keeps.ret
    · refine Keeps.andThen (keeps_valueOr (spares_writeMeta _ _)) fun _ => ?_
      cases idErr with
      | ok fileId => exact keeps_valueOr (spares_onWorld _)
      | error err => exact Keeps.ret
  · cases idErr with
    | ok fileId => exact Keeps.andThen (spares_onWorld _) fun _ => Keeps.ret
    | error err => exact Keeps.fail

/-! ### The four paths -/

section Paths
variable {fileId : ℕ} {existingTags tagNames : List String} {diff : TagDiff} {op harvesterName : String}
  {asyncMeta : List (String × MetaValue F)}

/-- The write of the provenance after a failed read. -/
theorem source_after_iff {m : StringMap} (hw : SameSource path w d.store) (hread : SourceUnreadable svc path d) :
    SameSource path w (writeSource svc path (some m) (readSource svc path d).2).2.store ↔
      ((writeSource svc path (some m) (readSource svc path d).2).1 = .ok () →
        Option.Rel StringMaps.Same (storedSource path w) (some m)) := by
  obtain ⟨r, fs, hrun, -⟩ := readSource_unreadable hread
  have hkept := source_kept_iff svc path m (readSource svc path d).2
  rw [hrun] at hkept ⊢
  constructor
  · intro h hok
    have hrel := hkept.mp (hw.symm.trans h) hok
    unfold SameSource at hw
    generalize storedSource path w = a at hw ⊢
    generalize storedSource path d.store = b at hw hrel
    cases hrel with
    | some h =>
      cases hw with
      | some h' => exact .some (h'.trans h)
  · intro h
    refine hw.trans (hkept.mpr fun hok => ?_)
    have hrel := h hok
    unfold SameSource at hw
    generalize storedSource path w = a at hw hrel
    generalize storedSource path d.store = b at hw ⊢
    cases hrel with
    | some h =>
      cases hw with
      | some h' => exact .some (h'.symm.trans h)

/-- `applyTagsXattr` after a failed read. -/
theorem applyTagsXattr_iff (h : TagsUnreadable svc path d) :
    storedTags path (applyTagsXattr env svc path tagNames op d).2.store = storedTags path d.store ↔
      ((writeTags svc path (env.order.visit (Handlers.applyOp op [] tagNames)) (readTags svc path d).2).1 = .ok () →
        storedTags path d.store = some (.ok (stored (env.order.visit (Handlers.applyOp op [] tagNames))))) := by
  obtain ⟨r, fs, hrun, -⟩ := readTags_unreadable h
  rw [applyTagsXattr_unreadable h, hrun]
  exact tags_kept_iff _ ⟨d.store, fs⟩

/-- `applyDiff` after a failed read. -/
theorem applyDiff_iff (hwrite : writeTags svc path (existingTags ++ diff.added) (filesOf c) = (.ok (), d))
    (hread : SourceUnreadable svc path d) :
    SameSource path c.store.files (applyDiff env svc path fileId existingTags diff c).2.store.files ↔
      ((writeSource svc path (some (setAll empty diff.sources)) (readSource svc path d).2).1 = .ok () →
        Option.Rel StringMaps.Same (storedSource path c.store.files) (some (setAll empty diff.sources))) := by
  have hsource : SameSource path c.store.files d.store := ((wp_writeTags _).ok hwrite).2
  have htags : wrap (Failure.wrapped "write tags: %w") (onFiles (writeTags svc path (existingTags ++ diff.added))) c =
      (.ok (), putFiles c d) := by
    rw [wrap, onFiles_run hwrite]
    rfl
  unfold applyDiff
  rw [bind_ok htags, bind_ok (updateSource_unreadable (c := putFiles c d) hread), onWorld_files]
  exact source_after_iff hsource hread

/-- `sweepFile` after a failed read. -/
theorem sweepFile_iff (hdiff : sweepDiff P env svc path c = (.ok (fileId, existingTags, diff), c₁))
    (hadded : diff.added ≠ [])
    (hwrite : writeTags svc path (existingTags ++ diff.added) (filesOf c₁) = (.ok (), d))
    (hread : SourceUnreadable svc path d) :
    SameSource path c.store.files (sweepFile P env svc path c).2.store.files ↔
      ((writeSource svc path (some (setAll empty diff.sources)) (readSource svc path d).2).1 = .ok () →
        Option.Rel StringMaps.Same (storedSource path c.store.files) (some (setAll empty diff.sources))) := by
  have hspared : Untouched path c.store.files (sweepDiff P env svc path c).2.store.files :=
    spares_sweepDiff.run (Untouched.refl _)
  rw [hdiff] at hspared
  have hsource : SameSource path c.store.files d.store := hspared.source.trans ((wp_writeTags _).ok hwrite).2
  unfold sweepFile
  rw [bind_ok hdiff]
  dsimp only
  rw [if_neg hadded, bind_ok (onFiles_run hwrite), bind_ok (updateSource_unreadable (c := putFiles c₁ d) hread)]
  rw [files_of_keeps]
  · exact source_after_iff hsource hread
  · exact fun φ => Keeps.andThen (keeps_onWorld _) fun _ => Keeps.andThen (keeps_onWorld _) fun _ => Keeps.ret

theorem keeps_readSource : Keeps (· = w) (readSource svc path) := by
  rintro w' rfl fs
  obtain ⟨r, fs', hrun, -⟩ := reads_readSource svc path ⟨w', fs⟩
  rw [hrun]
  cases r <;> rfl

theorem keepsTags_updateSource {X : Option (Except ParseError (List String))} {sources : List (String × String)} :
    Keeps (fun s => storedTags path s.files = X) (updateSource svc path sources) := by
  refine Keeps.andThen (keeps_valueOr (keeps_onFiles (φ := fun w => storedTags path w = X) ?_)) fun _ =>
    keeps_valueOr (keeps_onFiles (φ := fun w => storedTags path w = X) ?_)
  · refine fun w' hw' => (keeps_readSource w' rfl).mono ?_ ?_
    · rintro _ _ rfl
      exact hw'
    · rintro _ _ rfl
      exact hw'
  · refine fun w' hw' => (wp_writeSource _).mono (fun _ _ h => h.1.trans hw') ?_
    rintro _ _ rfl
    exact hw'

/-- What `applyDiff` does to the tags, it does by its one write. -/
theorem applyDiff_tags : storedTags path (applyDiff env svc path fileId existingTags diff c).2.store.files =
    storedTags path (writeTags svc path (existingTags ++ diff.added) (filesOf c)).2.store := by
  unfold applyDiff
  rcases hwrite : writeTags svc path (existingTags ++ diff.added) (filesOf c) with ⟨err | u, d⟩
  · have htags : wrap (Failure.wrapped "write tags: %w")
        (onFiles (writeTags svc path (existingTags ++ diff.added))) c =
        (.error (.wrapped "write tags: %w" (.xattr err)), putFiles c d) := by
      rw [wrap, onFiles_run hwrite]
      rfl
    rw [bind_error htags]
    rfl
  · have htags : wrap (Failure.wrapped "write tags: %w")
        (onFiles (writeTags svc path (existingTags ++ diff.added))) c = (.ok u, putFiles c d) := by
      rw [wrap, onFiles_run hwrite]
      rfl
    rw [bind_ok htags]
    exact Keeps.run (Keeps.andThen keepsTags_updateSource fun _ =>
      keeps_onWorld (φ := fun w => storedTags path w = storedTags path d.store) _) rfl

/-- The tags that `readAsyncState` reports after a failed read. -/
theorem readAsyncState_unreadable (h : TagsUnreadable svc path (filesOf c)) :
    ∃ md c', readAsyncState P svc path c = (.ok ([], md), c') ∧ c'.store.files = c.store.files := by
  obtain ⟨r, fs, hrun, hr⟩ := readTags_unreadable h
  have htags : (r.mapError Failure.xattr).toOption.getD [] = [] := by
    obtain rfl | ⟨err, rfl⟩ := hr
    · rfl
    · rfl
  have hread := valueOr_run (v := ([] : List String)) (onFiles_run hrun)
  rcases hmeta : onFiles (readAllMeta svc path) (putFiles c ⟨(filesOf c).store, fs⟩) with ⟨r', c'⟩
  refine ⟨parseStoredMeta P (r'.toOption.getD empty).pairs, c', ?_, ?_⟩
  · unfold readAsyncState
    rw [bind_ok hread, bind_ok (valueOr_run hmeta), htags]
    rfl
  · have hkeeps : (onFiles (readAllMeta svc path) (putFiles c ⟨(filesOf c).store, fs⟩)).2.store.files = c.store.files :=
      Keeps.run (keeps_onFiles (φ := fun w => w = c.store.files) keeps_readAllMeta) rfl
    rwa [hmeta] at hkeeps

/-- What `handleAsyncResult` leaves of the files, `asyncUpdate` has left. -/
theorem handleAsyncResult_files (hprepare : onWorld (Processor.preparePath env path) c = (.ok true, c₁)) :
    (handleAsyncResult P env svc isNonRetryable path harvesterName asyncMeta c).2.store.files =
      (asyncUpdate P env svc isNonRetryable path harvesterName asyncMeta c₁).2.store.files := by
  unfold handleAsyncResult
  rw [bind_ok hprepare, if_pos rfl]
  rcases hrun : asyncUpdate P env svc isNonRetryable path harvesterName asyncMeta c₁ with ⟨err | u, c₂⟩
  · rw [bind_ok (attempt_run hrun)]
    refine files_of_keeps (fun φ => Keeps.andThen ?_ fun _ => Keeps.ret) c₂
    unfold consumeNonRetryablePathErr
    split_ifs
    · exact Keeps.andThen (keeps_onWorld _) fun _ => Keeps.ret
    · exact Keeps.ret
  · rw [bind_ok (attempt_run hrun)]
    rfl

/-- `handleAsyncResult` after a failed read. -/
theorem handleAsyncResult_iff (hprepare : onWorld (Processor.preparePath env path) c = (.ok true, c₁))
    (hlookup : onWorld (Processor.lookupFileID path : Op F ℕ) c₁ = (.ok fileId, c₂))
    (hread : TagsUnreadable svc path (filesOf c₂)) :
    storedTags path (handleAsyncResult P env svc isNonRetryable path harvesterName asyncMeta c).2.store.files =
        storedTags path c.store.files ↔
      ∀ md c₃ diff c₄, readAsyncState P svc path c₂ = (.ok ([], md), c₃) →
        asyncDiff P env svc isNonRetryable path fileId [] md harvesterName asyncMeta c₃ = (.ok diff, c₄) →
        diff.added ≠ [] → (writeTags svc path diff.added (filesOf c₄)).1 = .ok () →
        storedTags path c.store.files = some (.ok (stored diff.added)) := by
  have hfiles₁ : c₁.store.files = c.store.files := by
    have h := onWorld_files (Processor.preparePath env path) c
    rwa [hprepare] at h
  have hfiles₂ : c₂.store.files = c₁.store.files := by
    have h := onWorld_files (Processor.lookupFileID path : Op F ℕ) c₁
    rwa [hlookup] at h
  obtain ⟨md, c₃, hstate, hfiles₃⟩ := readAsyncState_unreadable (P := P) hread
  have hfiles : c₃.store.files = c.store.files := hfiles₃.trans (hfiles₂.trans hfiles₁)
  rw [handleAsyncResult_files hprepare]
  unfold asyncUpdate
  rw [bind_ok hlookup, bind_ok hstate]
  dsimp only
  have hspared : Untouched path c.store.files
      (asyncDiff P env svc isNonRetryable path fileId [] md harvesterName asyncMeta c₃).2.store.files :=
    spares_asyncDiff.run (hfiles ▸ Untouched.refl _)
  rcases hdiff : asyncDiff P env svc isNonRetryable path fileId [] md harvesterName asyncMeta c₃ with ⟨err | diff, c₄⟩
  · rw [hdiff] at hspared
    rw [bind_error hdiff]
    refine ⟨fun _ md' c₃' diff c₄ hstate' hdiff' => ?_, fun _ => hspared.tags⟩
    rw [hstate] at hstate'
    cases hstate'
    rw [hdiff] at hdiff'
    cases hdiff'
  · rw [hdiff] at hspared
    rw [bind_ok hdiff]
    have hforall : (∀ md c₃ diff c₄, readAsyncState P svc path c₂ = (.ok ([], md), c₃) →
        asyncDiff P env svc isNonRetryable path fileId [] md harvesterName asyncMeta c₃ = (.ok diff, c₄) →
        diff.added ≠ [] → (writeTags svc path diff.added (filesOf c₄)).1 = .ok () →
        storedTags path c.store.files = some (.ok (stored diff.added))) ↔
        (diff.added ≠ [] → (writeTags svc path diff.added (filesOf c₄)).1 = .ok () →
          storedTags path c.store.files = some (.ok (stored diff.added))) := by
      refine ⟨fun h => h md c₃ diff c₄ hstate hdiff, fun h md' c₃' diff' c₄' hstate' hdiff' => ?_⟩
      rw [hstate] at hstate'
      cases hstate'
      rw [hdiff] at hdiff'
      cases hdiff'
      exact h
    rw [hforall]
    split_ifs with hadded
    · exact ⟨fun _ h => absurd hadded h, fun _ => hspared.tags⟩
    · rw [applyDiff_tags, List.nil_append, ← hspared.tags]
      exact (tags_kept_iff diff.added (filesOf c₄)).trans ⟨fun h _ => h, fun h => h hadded⟩

/-- `applyTagsXattr` after a read that succeeds. -/
theorem applyTagsXattr_readable (hop : op = "add" ∨ op = "remove" ∨ op = "set") (h : ¬ TagsUnreadable svc path d) :
    ∃ existing merged, storedTags path d.store = some (.ok existing) ∧
      (∀ t, t ∈ merged ↔ afterModify op tagNames (· ∈ existing) t) ∧
      applyTagsXattr env svc path tagNames op d = writeTags svc path merged (readTags svc path d).2 := by
  obtain ⟨existing, fs, hrun, hstored⟩ := readTags_readable h
  refine ⟨existing, env.order.visit (Handlers.applyOp op existing tagNames), hstored, fun t => ?_, ?_⟩
  · rw [MapOrder.mem_visit]
    exact Handlers.mem_applyOp hop
  · unfold applyTagsXattr
    rw [bind_ok (valueOr_run hrun), hrun]
    rfl

end Paths

/-- **A failed read erases what is stored unless the write does not come through.** After a failed read the
tags (the provenance) are kept if and only if no write follows, or it fails, or it writes what is stored; after
a read that succeeds, the tags are changed as the operation says. -/
theorem kept_iff (P : Platform F) (env : Env F) (svc : Service) (isNonRetryable : Failure → Bool) (path : String) :
    (∀ op tagNames d, op = "add" ∨ op = "remove" → TagsUnreadable svc path d →
      (storedTags path (applyTagsXattr env svc path tagNames op d).2.store = storedTags path d.store ↔
        ((writeTags svc path (env.order.visit (Handlers.applyOp op [] tagNames)) (readTags svc path d).2).1 = .ok () →
          storedTags path d.store = some (.ok (stored (env.order.visit (Handlers.applyOp op [] tagNames))))))) ∧
    (∀ harvesterName asyncMeta c c₁ fileId c₂, onWorld (Processor.preparePath env path) c = (.ok true, c₁) →
      onWorld (Processor.lookupFileID path : Op F ℕ) c₁ = (.ok fileId, c₂) → TagsUnreadable svc path (filesOf c₂) →
      (storedTags path (handleAsyncResult P env svc isNonRetryable path harvesterName asyncMeta c).2.store.files =
          storedTags path c.store.files ↔
        ∀ md c₃ diff c₄, readAsyncState P svc path c₂ = (.ok ([], md), c₃) →
          asyncDiff P env svc isNonRetryable path fileId [] md harvesterName asyncMeta c₃ = (.ok diff, c₄) →
          diff.added ≠ [] → (writeTags svc path diff.added (filesOf c₄)).1 = .ok () →
          storedTags path c.store.files = some (.ok (stored diff.added)))) ∧
    (∀ fileId existingTags diff c d, writeTags svc path (existingTags ++ diff.added) (filesOf c) = (.ok (), d) →
      SourceUnreadable svc path d →
      (SameSource path c.store.files (applyDiff env svc path fileId existingTags diff c).2.store.files ↔
        ((writeSource svc path (some (setAll empty diff.sources)) (readSource svc path d).2).1 = .ok () →
          Option.Rel StringMaps.Same (storedSource path c.store.files) (some (setAll empty diff.sources))))) ∧
    (∀ fileId existingTags diff c c₁ d, sweepDiff P env svc path c = (.ok (fileId, existingTags, diff), c₁) →
      diff.added ≠ [] → writeTags svc path (existingTags ++ diff.added) (filesOf c₁) = (.ok (), d) →
      SourceUnreadable svc path d →
      (SameSource path c.store.files (sweepFile P env svc path c).2.store.files ↔
        ((writeSource svc path (some (setAll empty diff.sources)) (readSource svc path d).2).1 = .ok () →
          Option.Rel StringMaps.Same (storedSource path c.store.files) (some (setAll empty diff.sources))))) ∧
    ∀ op tagNames d, op = "add" ∨ op = "remove" ∨ op = "set" → ¬ TagsUnreadable svc path d →
      ∃ existing merged, storedTags path d.store = some (.ok existing) ∧
        (∀ t, t ∈ merged ↔ afterModify op tagNames (· ∈ existing) t) ∧
        applyTagsXattr env svc path tagNames op d = writeTags svc path merged (readTags svc path d).2 :=
  ⟨fun _ _ _ _ hread => applyTagsXattr_iff hread,
    fun _ _ _ _ _ _ hprepare hlookup hread => handleAsyncResult_iff hprepare hlookup hread,
    fun _ _ _ _ _ hwrite hread => applyDiff_iff hwrite hread,
    fun _ _ _ _ _ _ hdiff hadded hwrite hread => sweepFile_iff hdiff hadded hwrite hread,
    fun _ _ _ hop hread => applyTagsXattr_readable hop hread⟩

/-! ### A broken list and a read that fails -/

/-- A file with this text for its tags, on a file system with attributes. -/
def tagged (text : String) : Files where
  attrs _ := some (StringMaps.set empty xattrTagKey text)
  supported _ := true
  disk := ⟨fun _ => none, fun _ => none⟩

/-- A file whose provenance is broken, and rules that add a tag to it. -/
def untraceable : Site where
  world := Operations.worldOf Index.Schema.DB.empty []
  files := { tagged "work" with attrs := fun _ => some (StringMaps.set empty xattrSourceKey "[") }

/-- The system call that reads the tags fails, and a tag is removed: all tags are gone. A tag is added to a file with
a broken provenance: what was broken is gone. -/
theorem kept_iff_erased :
    storedTags "/a" (applyTagsXattr (Operations.plainEnv []) ⟨false⟩ "/a" ["x"] "remove"
        ⟨tagged "work,home", [false, true]⟩).2.store ≠ storedTags "/a" (tagged "work,home") ∧
      ¬ SameSource "/a" untraceable.files (applyDiff (Operations.plainEnv []) ⟨false⟩ "/a" 1 []
        ⟨["x"], [("x", "rule:r")]⟩ ⟨untraceable, []⟩).2.store.files := by
  obtain ⟨htags, -, hsource, -, -⟩ :=
    kept_iff Operations.plainPlatform (Operations.plainEnv []) ⟨false⟩ (fun _ => false) "/a"
  constructor
  · rw [ne_eq, htags "remove" ["x"] ⟨tagged "work,home", [false, true]⟩ (.inr rfl) (.inr rfl)]
    intro hkept
    exact absurd (hkept rfl) (by decide)
  · rw [hsource 1 [] ⟨["x"], [("x", "rule:r")]⟩ ⟨untraceable, []⟩ _ rfl (.inl ⟨_, rfl⟩)]
    intro hkept
    cases hkept rfl

/-- A list that does not parse is replaced by the tag that is added to it. -/
theorem add_erases : TagsUnreadable ⟨false⟩ "/a" ⟨tagged "a\"b", []⟩ ∧
    (applyTagsXattr (Operations.plainEnv []) ⟨false⟩ "/a" ["x"] "add" ⟨tagged "a\"b", []⟩).1 = .ok () ∧
    storedTags "/a" (tagged "a\"b") = some (.error .bareQuote) ∧
    storedTags "/a" (applyTagsXattr (Operations.plainEnv []) ⟨false⟩ "/a" ["x"] "add" ⟨tagged "a\"b", []⟩).2.store =
      some (.ok ["x"]) := by
  refine ⟨.inl ⟨_, rfl⟩, ?_, ?_, ?_⟩
  · rfl
  · decide
  · decide

end Tilbo.Daemon.FailedReads
