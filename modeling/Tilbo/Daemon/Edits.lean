import Tilbo.Daemon.Moments

/-! # Edited metadata

`handleMetadataSet` writes to the index only. A later `SyncFile` writes what the attributes of the file say,
so the edit survives if the attribute of its key has no other value whenever a `SyncFile` reads it.

`EditSurvives` is about runs: the edit, with any other operations before it and still under way, and then
any operations, interleaved call by call. -/

namespace Tilbo.Daemon.Edits

open Tilbo.Daemon.State Tilbo.Daemon.Processor Tilbo.Daemon.Handlers Tilbo.Daemon.Operations
open Tilbo.Daemon.Moments Tilbo.Index.Schema Tilbo.Index.Statements Tilbo.Index.Store
open Tilbo.Index.StoreSpec Tilbo.Index.StoreRuns Tilbo.Index.Entries Tilbo.Index.RowSpec
open Tilbo.Harvester.Meta Tilbo.Lib.Rows Tilbo.Lib.Txn Tilbo.Lib.Process Tilbo.Lib.Process.Proc

variable {F ι : Type} (P : Platform F)

/-! ### The request and the query -/

/-- `daemonInternalErrCode`. -/
def daemonInternalErrCode : ℕ := 3

/-- The response to the request; the text of an error is a format, its arguments and an error. -/
inductive Response where
  | metadata (path : String)
  | errResponse (code : ℕ) (format : String) (args : List String) (cause : Option OpError)
deriving DecidableEq, Repr

/-- `handleMetadataSet`. -/
def handleMetadataSet (path key value : String) : Op F Response := do
  match ← (attempt (lookupFileID path) : Op F (Except OpError ℕ)) with
  | .error _ => return .errResponse 1 "file not in index: %s" [path] none
  | .ok fileID =>
    if value = "" then
      match ← (attempt (call (onIndex (deleteFileMeta path key))) : Op F (Except OpError Unit)) with
      | .error err => return .errResponse daemonInternalErrCode "delete meta failed: %v" [] (some err)
      | .ok _ => return .metadata path
    else
      match ← (attempt (call (onIndex (upsertFileMeta fileID key value "user"))) :
          Op F (Except OpError Unit)) with
      | .error err => return .errResponse daemonInternalErrCode "set meta failed: %v" [] (some err)
      | .ok _ => return .metadata path

/-- What an edit asks for: an empty value deletes. -/
def edited (value : String) : Option String := if value = "" then none else some value

/-! ### Edits among the other operations -/

/-- What can happen to the daemon, edits included. -/
inductive Task (F : Type) where
  | operation (o : Operation F)
  | metadataSet (path key value : String)

/-- The task as a process, with the response to an edit. -/
def Task.run (env : Env F) : Task F → Op F (Option Response)
  | operation o => do
    o.run P env
    return none
  | metadataSet path key value => do
    let response ← handleMetadataSet path key value
    return some response

/-- What the task brings in. -/
def Task.source (env : Env F) : Task F → Source
  | operation o => Moments.source P env o
  | metadataSet path key value =>
    { writes := fun p k v => p = path ∧ k = key ∧ v = edited value, computes := fun _ _ => False }

/-- One process for each task, with its calls shown as they happen. -/
def serving (w : World) (tasks : ι → Task F) (envs : ι → Env F) :
    Pool ι World (Moment F) OpError (Option Response) where
  store := w
  proc i := ((tasks i).run P (envs i)).observe

/-- The calls are those of an edit that went through: the value went to the id that was looked up, or
was deleted from the row of the path. -/
def Edited (path key value : String) (h : List (Moment F)) : Prop :=
  ∃ c₁ c₂ i, h = [c₁, c₂] ∧
    (value ≠ "" ∧ c₁.label = .getFileIDByPath path (.ok i) ∨
      value = "" ∧ c₂.before.store.db.fileId path = some i) ∧
    WroteMeta i key (edited value) c₂.before.store.db c₂.after.db

section Calls
variable {path key value : String} {S : Source}

/-- A method of the index as one call: what it does, by its result. -/
theorem onIndex_ok {α : Type} {m : Sql α} {R : DB → DB → Prop} {c : Conn World}
    (hm : ∀ s, wp m (fun _ s' => R s s') (fun _ s' => s' = s) s) :
    (∃ e, (onIndex m c).1 = .error e ∧ (onIndex m c).2.store.db = c.store.db) ∨
      ∃ a, (onIndex m c).1 = .ok a ∧ R c.store.db (onIndex m c).2.store.db := by
  have hwp : wp (onIndex m) (fun _ w => R c.store.db w.db) (fun _ w => w.db = c.store.db) c.store :=
    wp_wrap (wp_zoom (hm c.store.db))
  have hc := hwp c.faults
  rcases hrun : onIndex m c with ⟨e | a, c'⟩ <;> rw [hrun] at hc
  · exact Or.inl ⟨e, rfl, hc⟩
  · exact Or.inr ⟨a, rfl, hc⟩

/-- An edit writes what it asks for, and says so only if it did. -/
theorem follows_handleMetadataSet (hw : S.writes path key (edited value)) :
    Follows (Protocol.ofHistory (Touches S)) (handleMetadataSet path key value : Op F Response).observe
      (fun r h => r = .ok (.metadata path) → Edited path key value h) [] := by
  unfold handleMetadataSet
  rw [observe_andThen, observe_attempt]
  refine follows_andThen (follows_attempt (follows_observe_atom fun c₁ =>
    ⟨touches_same trivial (rowsKept_getFileIDByPath.run c₁), ?_⟩))
  generalize hr₁ : (onIndex (getFileIDByPath path) c₁).1 = r₁
  cases r₁ with
  | error e => exact fun h => (nomatch h)
  | ok i =>
  have hlooked : LookedUp (F := F) [⟨c₁, .getFileIDByPath path (.ok i),
      (onIndex (getFileIDByPath path) c₁).2.store⟩] path i :=
    ⟨_, List.mem_singleton_self _, rfl⟩
  by_cases hvalue : value = ""
  · have hnone : edited value = none := if_pos hvalue
    rw [hnone] at hw
    simp only [if_pos hvalue]
    rw [observe_andThen, observe_attempt]
    refine follows_andThen (follows_attempt (follows_observe_atom fun c₂ => ?_))
    have hwp : ∀ s, wp (deleteFileMeta path key)
        (fun _ s' => ∃ i, s.fileId path = some i ∧ WroteMeta i key none s s') (fun _ s' => s' = s) s :=
      fun s => wp_deleteFileMeta_rows
    rcases onIndex_ok (c := c₂) hwp with
      ⟨e, hr₂, hdb⟩ | ⟨_, hr₂, j, hid, hwrote⟩
    · refine ⟨touches_same trivial (hdb ▸ SameRows.refl _), ?_⟩
      rw [hr₂]
      exact fun h => (nomatch h)
    · refine ⟨Or.inr (Or.inl ⟨path, j, key, none, Or.inr hid, hw, hwrote⟩), ?_⟩
      rw [hr₂]
      exact fun _ => ⟨_, _, j, rfl, Or.inr ⟨hvalue, hid⟩, hnone ▸ hwrote⟩
  · have hsome : edited value = some value := if_neg hvalue
    rw [hsome] at hw
    simp only [if_neg hvalue]
    rw [observe_andThen, observe_attempt]
    refine follows_andThen (follows_attempt (follows_observe_atom fun c₂ => ?_))
    have hwp : ∀ s, wp (upsertFileMeta i key value "user")
        (fun _ s' => WroteMeta i key (some value) s s') (fun _ s' => s' = s) s :=
      fun s => wp_upsertFileMeta_rows
    rcases onIndex_ok (c := c₂) hwp with ⟨e, hr₂, hdb⟩ | ⟨_, hr₂, hwrote⟩
    · refine ⟨touches_same trivial (hdb ▸ SameRows.refl _), ?_⟩
      rw [hr₂]
      exact fun h => (nomatch h)
    · refine ⟨Or.inr (Or.inl ⟨path, i, key, some value, Or.inl hlooked, hw, hwrote⟩), ?_⟩
      rw [hr₂]
      exact fun _ => ⟨_, _, i, rfl, Or.inl ⟨hvalue, rfl⟩, hsome ▸ hwrote⟩

/-! ### One call -/

variable {s s' : DB} {x : Option String} {i : ℕ}

theorem metaIs_sameRows (hx : MetaIs s path key x) (h : SameRows s s') : MetaIs s' path key x := by
  have hid : s'.fileId path = s.fileId path := by unfold Tables.fileId; rw [h.files]
  intro v
  rw [← hx v]
  unfold MetaAt Tables.HasMeta
  rw [hid, h.metadata]

/-- Metadata goes to another file, to another key, or is what the key has anyway. -/
theorem metaIs_wroteElsewhere (hx : MetaIs s path key x) {k : String} {y : Option String}
    (h : WroteMeta i k y s s') (hy : s.fileId path = some i → k = key → y = x) : MetaIs s' path key x := by
  have hid : s'.fileId path = s.fileId path := by unfold Tables.fileId; rw [h.files]
  intro v
  cases hj : s.fileId path with
  | none => rw [← hx v]; simp [MetaAt, hid, hj]
  | some j =>
    rw [metaAt_iff (hid.trans hj), h.hasMeta]
    split_ifs with hik
    · obtain ⟨rfl, rfl⟩ := hik
      rw [hy hj rfl]
    · rw [← metaAt_iff hj, hx v]

/-- An edit of the row of the path. -/
theorem metaIs_wroteMeta (hid : s.fileId path = some i) (h : WroteMeta i key x s s') :
    MetaIs s' path key x := by
  have hid' : s'.fileId path = some i := by rw [← hid]; unfold Tables.fileId; rw [h.files]
  intro v
  rw [metaAt_iff hid', h.hasMeta, if_pos ⟨rfl, rfl⟩]

/-- The attribute of the key is missing, or has the value. -/
theorem metaIs_applied (hx : MetaIs s path key x) {p : String} {st : FileStat} {tags : List String}
    {md sourceMap : List (String × String)} {now : ℤ} (h : Applied p st tags md sourceMap now i s s')
    (hmd : p = path → lastValue md key = none ∨ lastValue md key = x) : MetaIs s' path key x := by
  intro v
  by_cases hp : p = path
  · subst hp
    rw [metaAt_applied h, overlay]
    rcases hl : lastValue md key with _ | w
    · exact hx v
    · have hw : some w = x := ((hmd rfl).resolve_left (by simp [hl])) ▸ hl.symm
      rw [← hw, Option.some.injEq, eq_comm]
  · rw [(sameEntry_applied h (Ne.symm hp)).value, hx v]

/-- The row stays, or there was nothing to lose. -/
theorem metaIs_removed (hx : MetaIs s path key x) {p : FileRow → Bool} (h : Removed p s s')
    (hstays : x ≠ none → ∀ f ∈ s.files, f.path = path → p f = false) : MetaIs s' path key x := by
  intro v
  rw [metaAt_removed h, hx v]
  refine ⟨And.left, fun hv => ⟨hv, hstays ?_⟩⟩
  rw [hv]
  simp

end Calls

/-! ### Runs -/

section Runs
variable [DecidableEq ι]

/-- A call that the edit gets over: nobody brings in another value for the key, no metadata goes to the
row of the path in place of another file, a `SyncFile` read no other value from the attribute of the key,
and the row of a path with a value stays. -/
structure Spares (tasks : ι → Task F) (envs : ι → Env F) (path key value : String) (tr : List (ι × Moment F))
    (i : ι) (c : Moment F) : Prop where
  supplied : ∀ v, ((tasks i).source P (envs i)).writes path key v → v = edited value
  owner : c.label = .other → c.after.db.metadata ≠ c.before.store.db.metadata →
    ∀ p k, LookedUp (history i tr) p k → c.before.store.db.fileId path = some k → p = path
  synced : ∀ stat tags now k, c.label = .syncFileApply path stat tags now (.ok k) →
    ∀ md, ReadsMeta (history i tr) path md → lastValue md key = none ∨ lastValue md key = edited value
  deleteFile : value ≠ "" → c.label ≠ .deleteFile path (.ok ())
  deleteStaleFiles : value ≠ "" → ∀ base since, c.label = .deleteStaleFiles base since (.ok ()) →
    ∀ f ∈ c.before.store.db.files, f.path = path → stale base since f = false

variable {P} {w : World} {tasks : ι → Task F} {envs : ι → Env F} {path key value : String}
  {tr : List (ι × Moment F)} {i : ι} {c : Moment F}

/-- One call. -/
theorem metaIs_touches (hx : MetaIs c.before.store.db path key (edited value))
    (ht : Touches ((tasks i).source P (envs i)) (history i tr) c)
    (hs : Spares P tasks envs path key value tr i c) : MetaIs c.after.db path key (edited value) := by
  have hvalue : edited value ≠ none → value ≠ "" := fun h hv => h (if_pos hv)
  unfold Touches at ht
  dsimp only at ht
  split at ht
  · rename_i p stat tags now k hlabel
    obtain ⟨md, sourceMap, hread, happlied⟩ := ht
    refine metaIs_applied hx happlied fun hp => ?_
    subst hp
    exact hs.synced stat tags now k hlabel md hread
  · rename_i p r hlabel
    refine metaIs_removed hx ht.1.removed fun h f _ hf => ?_
    refine decide_eq_false fun hfp => hs.deleteFile (hvalue h) ?_
    rw [hlabel, ← hfp, hf]
  · rename_i base since r hlabel
    exact metaIs_removed hx ht.1.removed fun h => hs.deleteStaleFiles (hvalue h) base since hlabel
  · rename_i hlabel
    rcases ht with hsame | ⟨p, k, l, y, hk, hw, hmeta⟩ | ⟨p, k, vec, -, -, hemb⟩
    · exact metaIs_sameRows hx hsame
    · by_cases hchange : c.after.db.metadata = c.before.store.db.metadata
      · exact metaIs_sameRows hx ⟨hmeta.files, hchange, hmeta.embeddings⟩
      · refine metaIs_wroteElsewhere hx hmeta fun hid hl => ?_
        subst hl
        have hp : p = path := by
          rcases hk with hlooked | hidp
          · exact hs.owner hlabel hchange p k hlooked hid
          · exact fileId_inj hidp hid
        exact hs.supplied y (hp ▸ hw)
    · unfold MetaIs MetaAt Tables.fileId Tables.HasMeta
      rw [hemb.files, hemb.metadata]
      exact hx
  · exact metaIs_sameRows hx ht

omit [DecidableEq ι] in
/-- What an edit wrote when it reported success. -/
theorem follows_serving (i : ι) :
    Follows (Protocol.ofHistory (Touches ((tasks i).source P (envs i)))) ((serving P w tasks envs).proc i)
      (fun r h => ∀ path key value, tasks i = .metadataSet path key value →
        r = .ok (some (.metadata path)) → Edited path key value h) [] := by
  show Follows _ ((tasks i).run P (envs i)).observe _ []
  cases hi : tasks i with
  | operation o =>
    show Follows _ (o.run P (envs i) >>= fun _ => (pure none : Op F (Option Response))).observe _ []
    rw [observe_andThen]
    refine follows_andThen ((within_run P (envs i) o [] knows_none).mono fun r h _ => ?_)
    cases r <;> exact fun _ _ _ h => (nomatch h)
  | metadataSet p k v =>
    show Follows _ (handleMetadataSet p k v >>= fun response =>
      (pure (some response) : Op F (Option Response))).observe _ []
    rw [observe_andThen]
    refine follows_andThen ((follows_handleMetadataSet (S := Task.source P (envs i) (.metadataSet p k v))
      ⟨rfl, rfl, rfl⟩).mono fun r h hedited => ?_)
    cases r with
    | error e => exact fun _ _ _ _ h => (nomatch h)
    | ok response =>
      rintro path key value h hr
      cases h
      cases hr
      exact hedited rfl

/-- **An edit survives** every run in which the file still had the id the edit looked up when it was
written, and whose later calls spare it. -/
theorem edit_survives {e : ι} {before rest : List (ι × Moment F)}
    {T : Pool ι World (Moment F) OpError (Option Response)}
    (hedit : tasks e = .metadataSet path key value)
    (hrun : Run (serving P w tasks envs) (before ++ (e, c) :: rest) T)
    (hsuccess : (T.proc e).result = some (.ok (some (.metadata path)))) (hlast : history e rest = [])
    (hid : value ≠ "" → ∀ k, LookedUp (history e before) path k → c.before.store.db.fileId path = some k)
    (hspares : ∀ between i d later, rest = between ++ (i, d) :: later →
      Spares P tasks envs path key value (before ++ (e, c) :: between) i d) :
    Reports T.store.db path key (edited value) := by
  have hedited : Edited path key value (history e (before ++ (e, c) :: rest)) :=
    ((hrun.history (fun _ _ => True) follows_serving trivial fun _ _ _ _ _ => trivial).2 e).result
      hsuccess path key value hedit rfl
  refine MetaIs.reports ((hrun.history (fun tr s => ∀ between, tr = before ++ (e, c) :: between →
    between <+: rest → MetaIs s.db path key (edited value)) follows_serving ?_ ?_).1 rest rfl List.prefix_rfl)
  · exact fun between h => by simp at h
  intro tr i d ht ih between htr hbetween
  rcases List.eq_nil_or_concat between with rfl | ⟨between, ⟨j, d'⟩, rfl⟩
  · obtain ⟨rfl, hd⟩ := List.append_inj' htr rfl
    cases hd
    obtain ⟨c₁, c₂, k, hcalls, hk, hwrote⟩ := hedited
    rw [history_append, show history e ((e, c) :: rest) = [c] ++ history e rest by simp [history], hlast,
      List.append_nil] at hcalls
    have hsplit : history e tr ++ [c] = [c₁] ++ [c₂] := hcalls
    obtain ⟨hfirst, hd⟩ := List.append_inj' hsplit rfl
    cases hd
    refine metaIs_wroteMeta ?_ hwrote
    rcases hk with ⟨hvalue, hlabel⟩ | ⟨-, hk⟩
    · exact hid hvalue k ⟨c₁, hfirst ▸ List.mem_singleton_self _, hlabel⟩
    · exact hk
  · rw [List.concat_eq_append, ← List.cons_append, ← List.append_assoc] at htr
    obtain ⟨rfl, hd⟩ := List.append_inj' htr rfl
    cases hd
    obtain ⟨later, hlater⟩ := hbetween
    have hrest : rest = between ++ (i, d) :: later := by rw [← hlater]; simp
    refine metaIs_touches (ih between rfl ⟨(i, d) :: later, hrest.symm⟩) ht ?_
    exact hspares between i d later hrest

end Runs

/-! ### An edit between two synchronisations -/

/-- `/a` with a title. -/
def titled : World := worldOf DB.empty [("/a", { stat := ⟨1, 1, 1, 1⟩, metadata := [("title", "old")] })]

/-- The title is changed between two `SyncFile`s. -/
def retitling : Fin 3 → Task Unit :=
  ![.operation (.syncFile "/a" ⟨1, 1, 1, 1⟩), .metadataSet "/a" "title" "new",
    .operation (.syncFile "/a" ⟨1, 1, 1, 1⟩)]

def retitlingRun : List (Fin 3 × Moment Unit) × Pool (Fin 3) World (Moment Unit) OpError (Option Response) :=
  (serving plainPlatform titled retitling fun _ => plainEnv []).exec (calls 0 4 ++ calls 1 2 ++ calls 2 4)

/-- The second `SyncFile` brings the old title back, though nobody has supplied another one. -/
theorem edit_reverted : ∃ before c rest T,
    Run (serving plainPlatform titled retitling fun _ => plainEnv []) (before ++ (1, c) :: rest) T ∧
      (T.proc 1).result = some (.ok (some (.metadata "/a"))) ∧ rest.map Prod.fst = [2, 2, 2, 2] ∧
      (∀ i v, ((retitling i).source plainPlatform (plainEnv [])).writes "/a" "title" v → v = edited "new") ∧
      ¬ Reports T.store.db "/a" "title" (edited "new") := by
  have hfifth : (retitlingRun.1.map fun e => (e.1, ()))[5]? = some (1, ()) := by decide +kernel
  obtain ⟨c, -, htrace⟩ := trace_split (fun _ => ()) hfifth
  have hrun : Run (serving plainPlatform titled retitling fun _ => plainEnv []) retitlingRun.1 retitlingRun.2 :=
    Pool.run_exec _ _
  rw [htrace] at hrun
  have hlater : (retitlingRun.1.drop 6).map Prod.fst = [2, 2, 2, 2] := by decide +kernel
  refine ⟨_, c, _, retitlingRun.2, hrun, by decide +kernel, hlater, ?_, ?_⟩
  · intro i v hw
    fin_cases i
    · exact hw.elim
    · exact hw.2.2
    · exact hw.elim
  · rintro ⟨r, hruns, hr⟩
    have hold : (getFileMeta "/a" ⟨retitlingRun.2.store.db, []⟩).1 =
        .ok (some ([("title", "old")], [("title", "manual")])) := by decide +kernel
    rw [hruns] at hold
    cases hold
    exact absurd hr (by decide)

/-- `/a` is in the index; it is edited, and another file goes. -/
def indexed : World := worldOf ⟨{ files := [⟨1, "/a", 0, 0, 0, 0, 0⟩] }, by decide⟩ []

def editing : Fin 2 → Task Unit :=
  ![.metadataSet "/a" "title" "new", .operation (.handleFSEvent { path := "/b", kind := .delete })]

def editingRun : List (Fin 2 × Moment Unit) × Pool (Fin 2) World (Moment Unit) OpError (Option Response) :=
  (serving plainPlatform indexed editing fun _ => plainEnv []).exec (calls 0 2 ++ calls 1 1)

/-- The edit survives the event for the other file. -/
theorem edit_survives_other : ∃ T, Run (serving plainPlatform indexed editing fun _ => plainEnv []) editingRun.1 T ∧
    Reports T.store.db "/a" "title" (edited "new") := by
  have hsecond : (editingRun.1.map fun e => (e.1, e.2.before.store.db.fileId "/a"))[1]? = some (0, some 1) := by
    decide +kernel
  obtain ⟨c, hid, htrace⟩ := trace_split (fun d : Moment Unit => d.before.store.db.fileId "/a") hsecond
  have hrun : Run (serving plainPlatform indexed editing fun _ => plainEnv []) editingRun.1 editingRun.2 :=
    Pool.run_exec _ _
  refine ⟨editingRun.2, hrun, ?_⟩
  have hlater : ∃ d r, editingRun.1.drop 2 = [(1, d)] ∧ d.label = .deleteFile "/b" r := ⟨_, _, rfl, rfl⟩
  obtain ⟨d, r, hlater, hlabel⟩ := hlater
  rw [htrace, hlater] at hrun
  have hlooked : ∀ k, LookedUp (history 0 (editingRun.1.take 1)) "/a" k → k = 1 := by
    have hfirst : ∃ d, editingRun.1.take 1 = [(0, d)] ∧ d.label = .getFileIDByPath "/a" (.ok 1) := ⟨_, rfl, rfl⟩
    obtain ⟨d, hfirst, hlabel⟩ := hfirst
    rintro k ⟨d', hd', hlabel'⟩
    rw [mem_history, hfirst, List.mem_singleton] at hd'
    cases hd'
    cases hlabel.symm.trans hlabel'
    rfl
  refine edit_survives (e := 0) rfl hrun (by decide +kernel) rfl (fun _ k hk => ?_) fun between i d' later h => ?_
  · rw [hid, hlooked k hk]
  · rcases between with _ | ⟨b, between⟩
    · cases h
      exact
        { supplied := fun v hw => absurd hw.1 (by decide)
          owner := fun hl => (nomatch hlabel.symm.trans hl)
          synced := fun _ _ _ _ hl => (nomatch hlabel.symm.trans hl)
          deleteFile := fun _ hl => absurd (Call.deleteFile.inj (hlabel.symm.trans hl)).1 (by decide)
          deleteStaleFiles := fun _ _ _ hl => (nomatch hlabel.symm.trans hl) }
    · simp at h

end Tilbo.Daemon.Edits
