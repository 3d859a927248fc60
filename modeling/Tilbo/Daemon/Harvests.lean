import Tilbo.Daemon.Moments
import Mathlib

/-! # When a file is harvested

`SyncFile` asks for a harvest if the file has no MIME type yet, or if its modification time or size are not
those the index has. The index has them from the last `SyncFile`, not from the last harvest: a file
that was synchronised and then not harvested looks harvested to the next `SyncFile`.

The processes here are the two halves of an event or of a step of a scan, `SyncFile` and `ProcessFile`,
and all operations that do neither. Each shows how it ends, so that a trace tells which harvests were
completed and what `SyncFile` reported. -/

namespace Tilbo.Daemon.Harvests

open Tilbo.Daemon.State Tilbo.Daemon.Processor Tilbo.Daemon.Handlers Tilbo.Daemon.Operations
open Tilbo.Daemon.Moments Tilbo.Xattr.Service Tilbo.Sync.SyncFile Tilbo.Index.Schema
open Tilbo.Index.Statements Tilbo.Index.Store Tilbo.Index.StoreSpec Tilbo.Index.RowSpec
open Tilbo.Harvester.Meta Tilbo.Lib.Rows Tilbo.Lib.Txn Tilbo.Lib.Process Tilbo.Lib.Process.Proc

variable {F ι : Type} (P : Platform F) (env : Env F) (path : String)

/-! ### Completed harvests -/

/-- `processFile`, and whether the harvest came to its end: a harvester's error that is not worth a retry
stops it silently. -/
def processedFile : Op F Bool := do
  let existingTags ← atom (.readTags path) (errorf "read tags: %w" [] (readTags path))
  let existingMeta ← call (errorf "read meta: %w" [] (readAllMeta path))
  let md := parseStoredMeta P existingMeta
  match harvest env ⟨path, textOf (md "mime"), md⟩ md with
  | none => return false
  | some (md, additional) =>
    let idErr ← (attempt (lookupFileID path) : Op F (Except OpError ℕ))
    match ← (attempt (mergeAndPersistMeta P env path (idErr.toOption.getD 0) idErr.isOk "harvester" md
        additional) : Op F (Except OpError (MetaMap F))) with
    | .error err => if ← consumeNonRetryablePathErr env path err then return false else fail err
    | .ok md =>
      evalAndApply P env path idErr existingTags md
      return true

/-- `ProcessFile`, and whether it completed the harvest. -/
def harvestFile : Op F Bool := do
  if ← preparePath env path then
    match ← (attempt (processedFile P env path) : Op F (Except OpError Bool)) with
    | .ok completed => return completed
    | .error err =>
      let _ ← consumeNonRetryablePathErr env path err
      return false
  else return false

/-- Without that, it is `processFile`. -/
theorem processFile_eq : processFile P env path = (do
    let _ ← processedFile P env path
    return ()) := by
  unfold processFile processedFile
  simp only [andThen_assoc]
  refine congrArg _ (funext fun existingTags => congrArg _ (funext fun existingMeta => ?_))
  cases harvest env ⟨path, textOf (parseStoredMeta P existingMeta "mime"), parseStoredMeta P existingMeta⟩
    (parseStoredMeta P existingMeta) with
  | none => rfl
  | some found =>
    simp only [andThen_assoc]
    refine congrArg _ (funext fun idErr => congrArg _ (funext fun r => ?_))
    cases r with
    | ok md =>
      simp only [andThen_assoc, pure_andThen]
      exact (andThen_pure _).symm
    | error err =>
      simp only [andThen_assoc]
      refine congrArg _ (funext fun consumed => ?_)
      cases consumed <;> rfl

/-- The same for `ProcessFile`. -/
theorem ProcessFile_eq : ProcessFile P env path = (do
    let _ ← harvestFile P env path
    return ()) := by
  unfold ProcessFile harvestFile
  rw [andThen_assoc]
  refine congrArg _ (funext fun ready => ?_)
  cases ready with
  | false => rfl
  | true =>
    simp only [if_true, andThen_assoc]
    rw [processFile_eq, attempt_forget, andThen_assoc]
    refine congrArg _ (funext fun r => ?_)
    cases r with
    | ok completed => rfl
    | error err => simp only [pure_andThen, andThen_assoc, Except.map]

/-! ### Works -/

/-- How a work ended: what `SyncFile` reported, or whether the harvest was completed. -/
inductive Outcome where
  | synced (needsHarvest : Bool)
  | processed (completed : Bool)
  | operation
deriving DecidableEq, Repr

/-- The operation synchronises or processes a file. -/
def syncsOrProcesses : Operation F → Bool
  | .syncFile .. | .processFile .. => true
  | .handleFSEvent ev => decide (ev.kind ≠ .delete)
  | _ => false

/-- What the daemon does at a time; an event for a file that is there is two works, `SyncFile` with the
stat it found and `ProcessFile`. -/
inductive Work (F : Type) where
  | syncFile (path : String) (stat : FileStat)
  | processFile (path : String)
  | operation (o : Operation F) (h : syncsOrProcesses o = false)

/-- The work as a process. -/
def Work.run : Work F → Op F Outcome
  | syncFile path stat => do
    let needsHarvest ← Sync.SyncFile.syncFile P env path stat
    return .synced needsHarvest
  | processFile path => do
    let completed ← harvestFile P env path
    return .processed completed
  | operation o _ => do
    o.run P env
    return .operation

/-- The operation it is. -/
def Work.asOperation : Work F → Operation F
  | syncFile path stat => .syncFile path stat
  | processFile path => .processFile path
  | operation o _ => o

/-- A work is its operation, with a word on how it ended. -/
theorem Work.run_asOperation (work : Work F) : work.asOperation.run P env = (do
    let _ ← work.run P env
    return ()) := by
  cases work with
  | syncFile path stat =>
    show _ = (Sync.SyncFile.syncFile P env path stat >>= _) >>= _
    rw [andThen_assoc]
    rfl
  | processFile path =>
    show ProcessFile P env path = (harvestFile P env path >>= _) >>= _
    rw [andThen_assoc, ProcessFile_eq]
    rfl
  | operation o _ =>
    show o.run P env = (o.run P env >>= _) >>= _
    rw [andThen_assoc]
    exact (andThen_pure _).symm

/-- A call as it happened, and how the work ended if it was its last. -/
abbrev Shown (F : Type) : Type := Moment F × Option (Except OpError Outcome)

/-- One process for each work. -/
def working (w : World) (works : ι → Work F) (envs : ι → Env F) : Pool ι World (Shown F) OpError Outcome where
  store := w
  proc i := ((works i).run P (envs i)).observe.ending

/-! ### Versions -/

/-- The modification time, in seconds, and the size. -/
def version (stat : FileStat) : ℤ × ℤ := (stat.mtime, stat.size)

/-- The version the index has. -/
def storedVersion (s : DB) (path : String) : Option (ℤ × ℤ) :=
  (lookup FileRow.path s.files path).map fun f => (f.mtime, f.sizeBytes)

/-- The version of the file. -/
def currentVersion (w : World) (path : String) : Option (ℤ × ℤ) :=
  (w.files path).map fun f => version f.stat

section Traces
variable (works : ι → Work F)

/-- A harvest of the file is completed. -/
def completes (e : ι × Shown F) : Bool :=
  match works e.1, e.2.2 with
  | .processFile p, some (.ok (.processed true)) => decide (p = path)
  | _, _ => false

/-- A `SyncFileApply` puts another version of the file into the index. -/
def stores (e : ι × Shown F) : Bool :=
  match e.2.1.label with
  | .syncFileApply p stat _ _ (.ok _) =>
    decide (p = path ∧ storedVersion e.2.1.before.store.db path ≠ some (version stat))
  | _ => false

/-- The version of the file at its last completed harvest, `start` if there was none in the run. -/
def lastHarvest (start : Option (ℤ × ℤ)) (tr : List (ι × Shown F)) : Option (ℤ × ℤ) :=
  tr.foldl (fun last e => if completes path works e then currentVersion e.2.1.before.store path else last) start

/-- The index got its version of the file after the last completed harvest of the run. -/
def unharvested (tr : List (ι × Shown F)) : Bool :=
  tr.foldl (fun u e => if stores path e then true else if completes path works e then false else u) false

variable {works} {path} in
theorem lastHarvest_append {start : Option (ℤ × ℤ)} {tr : List (ι × Shown F)} {e : ι × Shown F} :
    lastHarvest path works start (tr ++ [e]) =
      if completes path works e then currentVersion e.2.1.before.store path
      else lastHarvest path works start tr := by
  rw [lastHarvest, List.foldl_append]
  rfl

variable {works} {path} in
theorem unharvested_append {tr : List (ι × Shown F)} {e : ι × Shown F} :
    unharvested path works (tr ++ [e]) =
      if stores path e then true else if completes path works e then false else unharvested path works tr := by
  rw [unharvested, List.foldl_append]
  rfl

end Traces

/-- The call with which a `SyncFile` asks for the stored version: it has read metadata with a MIME type. -/
def AsksVersion (h : List (Moment F)) (path : String) (c : Moment F) : Prop :=
  ∃ r m s, h = [r, m, s] ∧ ((m.before.store.files path).bind fun f => f.metadata.lookup "mime").isSome ∧
    c.label = .other

/-- The `SyncFile` has found this version in the index, and not yet applied its own. -/
def Asked (h : List (Moment F)) (path : String) (x : ℤ × ℤ) : Prop :=
  ∃ h' c, h = h' ++ [c] ∧ AsksVersion h' path c ∧ storedVersion c.before.store.db path = some x

/-! ### One work -/

section Works
variable {P env path} {S : Source} {h : List (Moment F)} {c : Moment F}

/-- The last call of `SyncFile`. -/
theorem follows_apply {α : Type} {m : Act α} {label : Except OpError α → Call F} {b : Bool} :
    Follows (Protocol.ofHistory fun _ _ => True) (atom label m >>= fun _ => (pure b : Op F Bool)).observe
      (fun r h' => r = .ok false → b = false ∧ ∃ c, h' = h ++ [c]) h := by
  rw [observe_andThen]
  refine follows_andThen (follows_observe_atom fun c => ⟨trivial, ?_⟩)
  generalize (m c).1 = r
  cases r with
  | error e => exact fun h => (nomatch h)
  | ok a =>
    intro hb
    cases hb
    exact ⟨rfl, _, rfl⟩

/-- `SyncFile` reports that there is nothing to harvest only if it found its own version in the index. -/
theorem follows_syncFile_report (stat : FileStat) :
    Follows (Protocol.ofHistory fun _ _ => True) (syncFile P env path stat).observe
      (fun r h => r = .ok false → ∃ h' c, h = h' ++ [c] ∧ Asked h' path (version stat)) [] := by
  unfold syncFile
  rw [observe_andThen]
  refine follows_andThen (follows_observe_atom fun c₁ => ⟨trivial, ?_⟩)
  generalize (Daemon.State.errorf "read tags: %w" [] (readTags path) c₁).1 = r₁
  cases r₁ with
  | error e => exact fun h => (nomatch h)
  | ok tags =>
  dsimp only
  rw [observe_andThen]
  refine follows_andThen (follows_observe_atom fun c₂ => ⟨trivial, ?_⟩)
  generalize hr₂ : (Daemon.State.errorf "read meta: %w" [] (readAllMeta path) c₂).1 = r₂
  cases r₂ with
  | error e => exact fun h => (nomatch h)
  | ok md =>
  have hwp : wp (Daemon.State.errorf "read meta: %w" [] (readAllMeta path))
      (fun md _ => (c₂.store.files path).map File.metadata = some md) (fun _ _ => True) c₂.store :=
    wp_wrap wp_readAllMeta
  have hmd : (c₂.store.files path).map File.metadata = some md := hwp.ok (Prod.ext hr₂ rfl)
  dsimp only
  rw [observe_andThen]
  refine follows_andThen (follows_observe_atom fun c₃ => ⟨trivial, ?_⟩)
  generalize (Daemon.State.errorf "read source: %w" [] (readSource P path) c₃).1 = r₃
  cases r₃ with
  | error e => exact fun h => (nomatch h)
  | ok sourceMap =>
  dsimp only
  unfold needsHarvest
  split_ifs with hmime
  · rw [pure_andThen]
    exact follows_apply.mono fun r h hr hfalse => (nomatch (hr hfalse).1)
  · rw [andThen_assoc, observe_andThen, observe_attempt]
    refine follows_andThen (follows_attempt (follows_observe_atom fun c₄ => ⟨trivial, ?_⟩))
    generalize hr₄ : (onIndex (getFileStat path) c₄).1 = r₄
    cases r₄ with
    | error e => exact follows_apply.mono fun r h hr hfalse => (nomatch (hr hfalse).1)
    | ok stored =>
      obtain ⟨storedMtime, storedSize⟩ := stored
      have hwp₄ : wp (onIndex (getFileStat path))
          (fun a _ => storedVersion c₄.store.db path = some a) (fun _ _ => True) c₄.store :=
        wp_wrap (wp_zoom (wp_errorf (wp_queryRow (fun a ha => ha) (fun _ => trivial) trivial)))
      have hstored : storedVersion c₄.store.db path = some (storedMtime, storedSize) :=
        hwp₄.ok (Prod.ext hr₄ rfl)
      refine follows_apply.mono fun r h hr hfalse => ?_
      obtain ⟨hsame, c₅, rfl⟩ := hr hfalse
      have heq : (storedMtime, storedSize) = version stat := by simpa [version] using hsame
      refine ⟨_, c₅, rfl, [_, _, _], _, rfl, ⟨_, _, _, rfl, ?_, rfl⟩, heq ▸ hstored⟩
      obtain ⟨f, hf, rfl⟩ := Option.map_eq_some_iff.mp hmd
      rw [hf, Option.bind_some, ← Option.not_isNone, Bool.not_eq_true', ← Bool.not_eq_true]
      exact hmime

theorem storedVersion_iff {s : DB} {x : ℤ × ℤ} :
    storedVersion s path = some x ↔ ∃ f ∈ s.files, f.path = path ∧ (f.mtime, f.sizeBytes) = x := by
  simp only [storedVersion, Option.map_eq_some_iff, s.valid.filesPath.lookup_iff, and_assoc]

/-- Only a `SyncFileApply` gives the index another version of a file; a deletion takes it away. -/
theorem storedVersion_touches (ht : Touches S h c) (hstores : ∀ stat tags now i,
    c.label = .syncFileApply path stat tags now (.ok i) → storedVersion c.before.store.db path = some (version stat))
    {x : ℤ × ℤ} (hx : storedVersion c.after.db path = some x) : storedVersion c.before.store.db path = some x := by
  have hsame : c.after.db.files = c.before.store.db.files → storedVersion c.before.store.db path = some x := by
    intro hfiles
    rw [← hx, storedVersion, storedVersion, hfiles]
  obtain ⟨f, hf, hpath, hfx⟩ := storedVersion_iff.mp hx
  unfold Touches at ht
  dsimp only at ht
  split at ht
  · rename_i p stat tags now i hlabel
    obtain ⟨md, sourceMap, -, happlied⟩ := ht
    rcases (happlied.files f).mp hf with ⟨hold, -⟩ | rfl
    · exact storedVersion_iff.mpr ⟨f, hold, hpath, hfx⟩
    · obtain rfl : p = path := hpath
      rw [hstores stat tags now i hlabel, ← hfx]
      rfl
  · rw [ht.1.removed.files] at hf
    exact storedVersion_iff.mpr ⟨f, List.mem_of_mem_filter hf, hpath, hfx⟩
  · rw [ht.1.removed.files] at hf
    exact storedVersion_iff.mpr ⟨f, List.mem_of_mem_filter hf, hpath, hfx⟩
  · rcases ht with h | ⟨p, k, l, y, -, -, h⟩ | ⟨p, k, vec, -, -, h⟩ <;> exact hsame h.files
  · exact hsame ht.files

end Works

/-! ### Runs -/

section Runs
variable [DecidableEq ι] {P} {w : World} {works : ι → Work F} {envs : ι → Env F} {path : String}
  {start : Option (ℤ × ℤ)}

/-- The call comes in time: a `SyncFile` that finds its own version in the index finds one that has been
harvested since the index got it; and a harvest is completed on the version the index has, which is that
of every `SyncFile` of the file that has found its own and is not done yet. -/
structure InTime (works : ι → Work F) (path : String) (tr : List (ι × Shown F)) (i : ι) (e : Shown F) : Prop where
  asks : ∀ stat, works i = .syncFile path stat → AsksVersion (history i (moments tr)) path e.1 →
    storedVersion e.1.before.store.db path = some (version stat) → unharvested path works tr = false
  harvests : completes path works (i, e) = true → ∀ x, storedVersion e.1.before.store.db path = some x →
    currentVersion e.1.before.store path = some x
  undisturbed : completes path works (i, e) = true → ∀ j stat, works j = .syncFile path stat →
    Asked (history j (moments tr)) path (version stat) →
      currentVersion e.1.before.store path = some (version stat)

omit [DecidableEq ι] in
/-- What a work does to the rows, and what it reports. -/
theorem follows_working (i : ι) : Follows
    ((Protocol.ofHistory fun h c => Touches (source P (envs i) (works i).asOperation) h c ∧ True).ending
      fun r h => ∀ path stat, works i = .syncFile path stat → r = .ok (.synced false) →
        ∃ h' c, h = h' ++ [c] ∧ Asked h' path (version stat)) ((working P w works envs).proc i)
    (fun r h => ∀ path stat, works i = .syncFile path stat → r = .ok (.synced false) →
      ∃ h' c, h = h' ++ [c] ∧ Asked h' path (version stat)) [] := by
  have htouches : Follows (Protocol.ofHistory (Touches (source P (envs i) (works i).asOperation)))
      ((works i).run P (envs i)).observe (fun _ _ => True) [] := by
    refine follows_of_forget ?_
    have hwithin := within_run P (envs i) (works i).asOperation [] knows_none
    rw [Work.run_asOperation, observe_andThen] at hwithin
    exact hwithin.mono fun _ _ _ => trivial
  have hreport : Follows (Protocol.ofHistory fun _ _ => True) ((works i).run P (envs i)).observe
      (fun r h => ∀ path stat, works i = .syncFile path stat → r = .ok (.synced false) →
        ∃ h' c, h = h' ++ [c] ∧ Asked h' path (version stat)) [] := by
    cases hi : works i with
    | syncFile path stat =>
      show Follows _ (syncFile P (envs i) path stat >>= fun b => (pure (.synced b) : Op F Outcome)).observe _ []
      rw [observe_andThen]
      refine follows_andThen ((follows_syncFile_report stat).mono fun r h hr => ?_)
      cases r with
      | error e => exact fun _ _ _ h => (nomatch h)
      | ok needsHarvest =>
        rintro path stat h hfalse
        cases h
        cases hfalse
        exact hr rfl
    | processFile _ => exact follows_any.mono fun _ _ _ _ _ h => (nomatch h)
    | operation _ _ => exact follows_any.mono fun _ _ _ _ _ h => (nomatch h)
  exact ((htouches.and hreport).mono fun _ _ h => h.2).ending

/-- What is known as long as all calls come in time: a version that is not unharvested was harvested last,
and so was that of a `SyncFile` which has found it and is not done. -/
structure Harvested (works : ι → Work F) (path : String) (start : Option (ℤ × ℤ)) (tr : List (ι × Shown F))
    (w : World) : Prop where
  stored : unharvested path works tr = false → ∀ x, storedVersion w.db path = some x →
    lastHarvest path works start tr = some x
  asked : ∀ j stat, works j = .syncFile path stat → Asked (history j (moments tr)) path (version stat) →
    lastHarvest path works start tr = some (version stat)

/-- One call. -/
theorem harvested_step {tr : List (ι × Shown F)} {i : ι} {c : Moment F} {r : Option (Except OpError Outcome)}
    {S : Source} (ht : Touches S (history i (moments tr)) c) (hin : InTime works path tr i (c, r))
    (h : Harvested works path start tr c.before.store) :
    Harvested works path start (tr ++ [(i, c, r)]) c.after := by
  refine ⟨fun hu x hx => ?_, fun j stat hj hasked => ?_⟩
  · rw [unharvested_append] at hu
    cases hstores : stores path (i, c, r) with
    | true => simp [hstores] at hu
    | false =>
      have hbefore : storedVersion c.before.store.db path = some x := by
        refine storedVersion_touches ht (fun stat tags now k hlabel => ?_) hx
        simpa [stores, hlabel] using hstores
      rw [lastHarvest_append]
      split_ifs with hcompletes
      · exact hin.harvests hcompletes x hbefore
      · rw [hstores, if_neg Bool.false_ne_true, if_neg hcompletes] at hu
        exact h.stored hu x hbefore
  · rw [moments, List.map_append, history_append, ← moments] at hasked
    by_cases hij : i = j
    · subst hij
      have hnot : completes path works (i, c, r) = false := by simp [completes, hj]
      obtain ⟨h', c', hcalls, hasks, hstored⟩ := hasked
      have hself : history i (List.map (fun e : ι × Shown F => (e.1, e.2.1)) [(i, c, r)]) = [c] := by
        simp [history]
      rw [hself] at hcalls
      obtain ⟨rfl, hc⟩ := List.append_inj' hcalls rfl
      cases hc
      rw [lastHarvest_append, if_neg (by simp [hnot])]
      exact h.stored (hin.asks stat hj hasks hstored) _ hstored
    · have hother : history j (List.map (fun e : ι × Shown F => (e.1, e.2.1)) [(i, c, r)]) = [] := by
        simp [history, hij]
      rw [hother, List.append_nil] at hasked
      rw [lastHarvest_append]
      split_ifs with hcompletes
      · exact hin.undisturbed hcompletes j stat hj hasked
      · exact h.asked j stat hj hasked

/-- **No missed harvest** in a run whose calls come in time: when `SyncFile` reports that the file needs no
harvest, the last completed one was on the version it was given. -/
theorem no_missed_harvest {before rest : List (ι × Shown F)} {i : ι} {c : Moment F} {stat : FileStat}
    {T : Pool ι World (Shown F) OpError Outcome}
    (hrun : Run (working P w works envs) (before ++ (i, c, some (.ok (.synced false))) :: rest) T)
    (hi : works i = .syncFile path stat) (hstart : ∀ x, storedVersion w.db path = some x → start = some x)
    (hin : ∀ a j e b, before ++ (i, c, some (.ok (.synced false))) :: rest = a ++ (j, e) :: b →
      InTime works path a j e) :
    lastHarvest path works start before = some (version stat) := by
  refine (hrun.history_ending (fun tr w' =>
    (∀ a j e b, tr = a ++ (j, e) :: b → InTime works path a j e) → Harvested works path start tr w' ∧
      ∀ before i c stat rest, tr = before ++ (i, c, some (.ok (.synced false))) :: rest →
        works i = .syncFile path stat → lastHarvest path works start before = some (version stat))
    follows_working (fun _ => ⟨?_, ?_⟩) ?_ hin).2 before i c stat rest rfl hi
  · refine ⟨fun _ x hx => hstart x hx, fun j stat _ hasked => ?_⟩
    obtain ⟨h', c', hcalls, -⟩ := hasked
    simp [moments, history] at hcalls
  · exact fun before i c stat rest h => by simp at h
  intro tr i c r ht hend ih hin
  have hbefore := ih fun a j e b htr => hin a j e (b ++ [(i, c, r)]) (by rw [htr]; simp)
  refine ⟨harvested_step ht.1 (hin tr i (c, r) [] rfl) hbefore.1, fun before k d stat rest htr hk => ?_⟩
  rcases List.eq_nil_or_concat rest with rfl | ⟨rest, e', rfl⟩
  · obtain ⟨rfl, hlast⟩ := List.append_inj' htr rfl
    cases hlast
    obtain ⟨h', d', hcalls, hasked⟩ := hend _ rfl path stat hk rfl
    obtain ⟨rfl, -⟩ := List.append_inj' hcalls rfl
    exact hbefore.1.asked i stat hk hasked
  · rw [List.concat_eq_append, ← List.cons_append, ← List.append_assoc] at htr
    obtain ⟨rfl, -⟩ := List.append_inj' htr rfl
    exact hbefore.2 before k d stat rest rfl hk

end Runs

/-! ### A daemon that stops after `SyncFile` -/

/-- `/a` was harvested at second 1 and modified at second 2. -/
def modified : World :=
  worldOf ⟨{ files := [⟨1, "/a", 1, 1, 1, 1, 1⟩] }, by decide⟩
    [("/a", { stat := ⟨1, 1, 2, 1⟩, metadata := [("mime", "text/plain")] })]

/-- The scans of two starts of the daemon. -/
def scans : Fin 2 → Work Unit := fun _ => .syncFile "/a" ⟨1, 1, 2, 1⟩

/-- The daemon stops after the first `SyncFile`. -/
def scansRun : List (Fin 2 × Shown Unit) × Pool (Fin 2) World (Shown Unit) OpError Outcome :=
  (working plainPlatform modified scans fun _ => plainEnv []).exec ((List.finRange 2).flatMap fun i => calls i 5)

/-- The first `SyncFile` asks for a harvest, the second does not, and there was none. -/
theorem harvest_missed : ∃ before c T,
    Run (working plainPlatform modified scans fun _ => plainEnv [])
      (before ++ [(1, c, some (.ok (.synced false)))]) T ∧
      (∃ d, (0, d, some (.ok (.synced true))) ∈ before) ∧
      (∀ x, storedVersion modified.db "/a" = some x → some (1, 1) = some x) ∧
      lastHarvest "/a" scans (some (1, 1)) before ≠ some (version ⟨1, 1, 2, 1⟩) := by
  have hsecond : (scansRun.1.map fun e => (e.1, e.2.2))[9]? = some (1, some (.ok (.synced false))) := by
    decide +kernel
  have hfirst : ((scansRun.1.take 9).map fun e => (e.1, e.2.2))[4]? = some (0, some (.ok (.synced true))) := by
    decide +kernel
  obtain ⟨⟨c, r⟩, hr, htrace⟩ := trace_split (fun l : Shown Unit => l.2) hsecond
  obtain ⟨⟨d, q⟩, hq, hbefore⟩ := trace_split (fun l : Shown Unit => l.2) hfirst
  obtain rfl : r = _ := hr
  obtain rfl : q = _ := hq
  have hrest : scansRun.1.drop 10 = [] := by
    rw [List.drop_eq_nil_iff]
    decide +kernel
  have hrun : Run (working plainPlatform modified scans fun _ => plainEnv []) scansRun.1 scansRun.2 :=
    Pool.run_exec _ _
  rw [htrace, hrest] at hrun
  have hin : (0, d, some (.ok (.synced true))) ∈ scansRun.1.take 9 := by
    rw [hbefore]
    exact List.mem_append_right _ List.mem_cons_self
  have hlast : lastHarvest "/a" scans (some (1, 1)) (scansRun.1.take 9) ≠ some (version ⟨1, 1, 2, 1⟩) := by
    decide +kernel
  have hstart : storedVersion modified.db "/a" = some (1, 1) := by decide
  exact ⟨_, c, _, hrun, ⟨d, hin⟩, fun x hx => hstart.symm.trans hx, hlast⟩

/-- `/a` has not changed since it was harvested. -/
def unmodified : World :=
  worldOf ⟨{ files := [⟨1, "/a", 1, 1, 1, 1, 1⟩] }, by decide⟩
    [("/a", { stat := ⟨1, 1, 1, 1⟩, metadata := [("mime", "text/plain")] })]

def rescan : Fin 1 → Work Unit := fun _ => .syncFile "/a" ⟨1, 1, 1, 1⟩

def rescanRun : List (Fin 1 × Shown Unit) × Pool (Fin 1) World (Shown Unit) OpError Outcome :=
  (working plainPlatform unmodified rescan fun _ => plainEnv []).exec (calls 0 5)

/-- Nothing to harvest, and the last harvest was on this version. -/
theorem no_missed_harvest_again : ∃ c, rescanRun.1 = rescanRun.1.take 4 ++ [(0, c, some (.ok (.synced false)))] ∧
    lastHarvest "/a" rescan (some (1, 1)) (rescanRun.1.take 4) = some (version ⟨1, 1, 1, 1⟩) := by
  have hfifth : (rescanRun.1.map fun e => (e.1, e.2.2))[4]? = some (0, some (.ok (.synced false))) := by
    decide +kernel
  obtain ⟨⟨c, r⟩, hr, htrace⟩ := trace_split (fun l : Shown Unit => l.2) hfifth
  obtain rfl : r = _ := hr
  have hrest : rescanRun.1.drop 5 = [] := by
    rw [List.drop_eq_nil_iff]
    decide +kernel
  rw [hrest] at htrace
  refine ⟨c, htrace, ?_⟩
  have hrun : Run (working plainPlatform unmodified rescan fun _ => plainEnv []) rescanRun.1 rescanRun.2 :=
    Pool.run_exec _ _
  have hstored : storedVersion unmodified.db "/a" = some (1, 1) := by decide
  have hlength : rescanRun.1.length = 5 := by decide +kernel
  have hquiet : ∀ n < 5, unharvested "/a" rescan (rescanRun.1.take n) = false := by decide +kernel
  rw [htrace] at hrun
  refine no_missed_harvest hrun rfl (fun x hx => hstored.symm.trans hx) fun a j e b hsplit => ?_
  rw [← htrace] at hsplit
  refine ⟨fun _ _ _ _ => ?_, fun h => ?_, fun h => ?_⟩
  · have hn : a.length < 5 := by
      rw [← hlength, hsplit, List.length_append, List.length_cons]
      omega
    have ha : rescanRun.1.take a.length = a := by rw [hsplit, List.take_left]
    rw [← ha]
    exact hquiet a.length hn
  · simp [completes, rescan] at h
  · simp [completes, rescan] at h

end Tilbo.Daemon.Harvests
