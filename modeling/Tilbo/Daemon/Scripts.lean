import Tilbo.Daemon.Calls
import Tilbo.Rules.Sweep

/-! # The scripts of the operations

Which recorded calls an operation makes, and with which arguments, given what its earlier calls returned.
A `Phase` holds the results an operation goes on with; `Scripted` says which call may come next. Every
operation keeps to its script, whatever other operations do in between (`follows_…`).

Calls that are not recorded do not move the phase: `Steady` is what is made of such calls only. -/

namespace Tilbo.Daemon.Scripts

open Tilbo.Daemon.State Tilbo.Daemon.Calls Tilbo.Daemon.Processor Tilbo.Daemon.Handlers
open Tilbo.Rules.Engine Tilbo.Rules.Sweep Tilbo.Sync.SyncFile Tilbo.Fuse.Server Tilbo.Xattr.Service
open Tilbo.Index.Store Tilbo.Harvester.Meta Tilbo.Lib.Txn Tilbo.Lib.Process Tilbo.Lib.Process.Proc

variable {F α β : Type}

/-! ### Phases and scripts -/

/-- What an operation has to go on with: the tags it read, the id it looked up, its last evaluation, what
it wrote to the tag attribute since it last changed the index (and whether that went through), the same
for its last write ever, the tags it last saw in the index or gave to it, and whether its last
`ModifyFileTags` went through. -/
structure Phase (F : Type) where
  read : Option (String × List String) := none
  fileId : Option (String × ℕ) := none
  evaluation : Option (Query F × List (String × String)) := none
  wrote : Option (String × List String × Bool) := none
  lastWrite : Option (String × List String × Bool) := none
  indexed : Option (String × List String) := none
  modified : Option (String × Bool) := none

/-- A call moves the phase on. -/
def advance (ph : Phase F) : Call F → Phase F
  | .readTags p r => { ph with read := some (p, r.toOption.getD []) }
  | .getFileIDByPath p (.ok i) => { ph with fileId := some (p, i) }
  | .evaluate q (.ok overrides) => { ph with evaluation := some (q, overrides) }
  | .writeTags p tags _ r =>
    { ph with wrote := some (p, tags, r.isOk), lastWrite := some (p, tags, r.isOk) }
  | .setFileTags p _ tags _ => { ph with wrote := none, indexed := some (p, tags) }
  | .modifyFileTags p _ _ r => { ph with wrote := none, indexed := none, modified := some (p, r.isOk) }
  | .syncFileApply _ _ _ _ _ | .deleteFile _ _ | .deleteStaleFiles _ _ _ =>
    { ph with fileId := none, indexed := none }
  | .getFileTags p (.ok tags) => { ph with indexed := some (p, tags) }
  | _ => ph

/-- Who asks for a change of tags. -/
inductive Request where
  /-- Nobody: the rules, or the file itself. -/
  | none
  /-- A tag request. -/
  | tag (op : String) (tags : List String)
  /-- A change made through the mount. -/
  | retag
  /-- A change of the files themselves. -/
  | files
  /-- The end of a scan. -/
  | purge
deriving DecidableEq

/-- The files an operation is about, and who asks for it. -/
structure Script where
  on : String → Prop
  request : Request

/-- The call may come next. -/
def Script.Scripted (S : Script) (ph : Phase F) : Call F → Prop
  | .readTags p _ => S.on p
  | .getFileIDByPath p _ => S.on p
  | .getFileTags p _ => S.on p
  | .evaluate q _ => S.on q.path ∧ ph.fileId = some (q.path, q.fileId) ∧
      ph.read = some (q.path, q.existingTags) ∧ S.request = .none
  | .writeTags p tags (some diff) _ => S.on p ∧ S.request = .none ∧ ∃ q overrides,
      ph.evaluation = some (q, overrides) ∧ q.path = p ∧ ph.read = some (p, q.existingTags) ∧
      diff = q.diff overrides ∧ tags = q.existingTags ++ diff.added
  | .writeTags p tags none _ => S.on p ∧ ∃ op req existing, S.request = .tag op req ∧
      ph.read = some (p, existing) ∧ tags.Perm (applyOp op existing req)
  | .setFileTags p i tags _ => S.on p ∧ S.request = .none ∧ ph.fileId = some (p, i) ∧
      ph.wrote = some (p, tags, true)
  | .modifyFileTags p tags op _ => S.on p ∧ (S.request = .retag ∨ S.request = .tag op tags ∧
      ∃ l ok, ph.wrote = some (p, l, ok))
  | .syncFileApply p _ tags _ _ => S.on p ∧ S.request = .none ∧ ph.read = some (p, tags)
  | .setGraphTags p tags => S.on p ∧ ph.indexed = some (p, tags)
  | .deleteFile p _ => S.on p
  | .setxattrTags p _ _ => S.on p ∧ S.request = .retag
  | .deleteStaleFiles _ _ _ => S.request = .purge
  | .changeFiles _ _ => S.request = .files
  | .other => True

/-- The protocol of a script: each call does what its label says, and the labels are scripted. -/
def Script.protocol (S : Script) : Protocol (Phase F) World (Call F) where
  advance := advance
  allowed ph w l w' := Effect w l w' ∧ S.Scripted ph l

/-- Nothing written to the tag attribute waits for the index. -/
def Phase.Settled (ph : Phase F) : Prop := ∀ p tags, ph.wrote ≠ some (p, tags, true)

variable {S : Script} {ph : Phase F} {R : Except OpError β → Phase F → Prop}

/-! ### Steady parts -/

/-- The process makes unrecorded calls only. -/
def Steady (p : Op F α) : Prop :=
  ∀ (S : Script) (ph : Phase F), Follows S.protocol p (fun _ ph' => ph' = ph) ph

theorem steady_pure (a : α) : Steady (pure a : Op F α) := fun _ _ => rfl

theorem steady_fail (e : OpError) : Steady (fail e : Op F α) := fun _ _ => rfl

theorem steady_call {m : Act α} (hm : IsQuiet m) : Steady (call m : Op F α) := by
  refine fun S ph => follows_atom fun c => ⟨⟨?_, trivial⟩, rfl⟩
  have h := hm c.store c.faults
  revert h
  cases m c with
  | mk r c' => cases r <;> exact id

theorem steady_andThen {p : Op F α} {f : α → Op F β} (hp : Steady p) (hf : ∀ a, Steady (f a)) :
    Steady (p >>= f) := by
  refine fun S ph => follows_andThen ((hp S ph).mono fun r ph' h => ?_)
  subst h
  cases r with
  | ok a => exact hf a S ph'
  | error e => rfl

theorem steady_attempt {p : Op F α} (hp : Steady p) : Steady (attempt p : Op F (Except OpError α)) :=
  fun S ph => follows_attempt (hp S ph)

theorem steady_orElse {p : Op F α} {a : α} (hp : Steady p) : Steady (orElse a p) := by
  refine steady_andThen (steady_attempt hp) fun r => ?_
  cases r <;> exact steady_pure _

theorem steady_each {f : α → Op F Unit} (hf : ∀ a, Steady (f a)) (l : List α) : Steady (each f l) := by
  induction l with
  | nil => exact steady_pure ()
  | cons a l ih => exact steady_andThen (hf a) fun _ => ih

/-- A steady part in front. -/
theorem follows_steady {p : Op F α} {f : α → Op F β} (hp : Steady p) (herr : ∀ e, R (.error e) ph)
    (hf : ∀ a, Follows S.protocol (f a) R ph) : Follows S.protocol (p >>= f) R ph := by
  refine follows_andThen ((hp S ph).mono fun r ph' h => ?_)
  subst h
  cases r with
  | ok a => exact hf a
  | error e => exact herr e

/-- A recorded call. -/
theorem follows_recorded {label : Except OpError α → Call F} {m : Act α}
    {Q : Except OpError α → Phase F → Prop} (hm : Recorded label m)
    (hscript : ∀ r, S.Scripted ph (label r)) (hQ : ∀ r, Q r (advance ph (label r))) :
    Follows S.protocol (atom label m) Q ph := by
  refine follows_atom fun c => ⟨⟨?_, hscript _⟩, hQ _⟩
  have h := hm c.store c.faults
  revert h
  cases m c with
  | mk r c' => cases r <;> exact id

/-- A recorded call that cannot fail. -/
theorem follows_recorded_modify {label : Except OpError Unit → Call F} {f : World → World}
    {Q : Except OpError Unit → Phase F → Prop} (hm : Recorded label (Prog.modify f))
    (hscript : S.Scripted ph (label (.ok ()))) (hQ : Q (.ok ()) (advance ph (label (.ok ())))) :
    Follows S.protocol (atom label (Prog.modify f)) Q ph :=
  follows_atom fun c => ⟨⟨hm c.store c.faults, hscript⟩, hQ⟩

theorem follows_orElse {p : Op F α} {a : α} {Q : Except OpError α → Phase F → Prop}
    (h : Follows S.protocol p (fun r ph' => Q (.ok (r.toOption.getD a)) ph') ph) :
    Follows S.protocol (orElse a p) Q ph := by
  refine follows_andThen (follows_attempt (h.mono fun r ph' hr => ?_))
  cases r <;> exact hr

section Steady
variable (P : Platform F) (env : Env F) (path : String)

theorem steady_consumeNonRetryablePathErr (err : OpError) :
    Steady (consumeNonRetryablePathErr env path err) := by
  unfold consumeNonRetryablePathErr
  split_ifs
  · exact steady_andThen (steady_call isQuiet_markPathNonRetryable) fun _ => steady_pure _
  · exact steady_pure _

theorem steady_stopIfNonRetryable {m : Op F Unit} (hm : Steady m) : Steady (stopIfNonRetryable env m) := by
  refine steady_andThen (steady_attempt hm) fun r => ?_
  cases r with
  | ok _ => exact steady_pure _
  | error err =>
    dsimp only
    split_ifs
    · exact steady_fail _
    · exact steady_pure _

theorem steady_persistMetaValue (i : ℕ) (persistToIndex : Bool) (source key value : String) :
    Steady (persistMetaValue env path i persistToIndex source key value) := by
  refine steady_andThen (steady_stopIfNonRetryable env (steady_call isQuiet_writeMeta)) fun _ => ?_
  split_ifs
  · exact steady_stopIfNonRetryable env (steady_call isQuiet_upsertFileMeta)
  · exact steady_pure _

theorem steady_mergeAndPersistMeta (i : ℕ) (persistToIndex : Bool) (source : String) (base : MetaMap F)
    (updates : List (String × MetaValue F)) :
    Steady (mergeAndPersistMeta P env path i persistToIndex source base updates) := by
  refine steady_andThen (steady_each (fun kv => ?_) _) fun _ => steady_pure _
  split_ifs
  · exact steady_pure _
  · exact steady_persistMetaValue env path i _ _ _ _

theorem steady_recordSources (i : ℕ) (sources : List (String × String)) :
    Steady (recordSources env i sources) := by
  refine steady_each (fun ts => ?_) _
  refine steady_andThen (steady_attempt (steady_call isQuiet_upsertTag)) fun r => ?_
  cases r with
  | error _ => exact steady_pure _
  | ok t => exact steady_orElse (steady_call isQuiet_setProvenance)

/-- The update of the provenance attribute never ends the operation. -/
theorem follows_updateSource (sources : List (String × String)) :
    Follows S.protocol (updateSource P path sources) (fun r ph' => ph' = ph ∧ r = .ok ()) ph := by
  refine follows_andThen (follows_orElse ?_)
  refine (steady_call (isQuiet_readSource P) S ph).mono fun r ph' h => ?_
  subst h
  refine follows_orElse ((steady_call (isQuiet_writeSource P) S ph').mono fun r ph'' h => ⟨h, ?_⟩)
  rfl

theorem steady_updateSource (sources : List (String × String)) : Steady (updateSource P path sources) :=
  fun _ _ => (follows_updateSource P path sources).mono fun _ _ h => h.1

theorem steady_updateEmbedding (i : ℕ) (existingTags : List String) (md : MetaMap F) :
    Steady (updateEmbedding env path i existingTags md) := by
  unfold updateEmbedding
  cases env.embedText with
  | none => exact steady_pure _
  | some embedText =>
    dsimp only
    split
    · exact steady_pure _
    · refine steady_andThen (steady_attempt (steady_call isQuiet_upsertEmbedding)) fun r => ?_
      cases r with
      | error _ => exact steady_pure _
      | ok _ => exact steady_call isQuiet_setEmbedding

theorem steady_preparePath : Steady (preparePath env path) := by
  have hrun : Steady (F := F) (orElse false do
      call ctxErr
      return true) :=
    steady_orElse (steady_andThen (steady_call isQuiet_ctxErr) fun _ => steady_pure _)
  refine steady_andThen (steady_call isQuiet_peek) fun marked => ?_
  split_ifs
  · exact steady_pure _
  · exact steady_andThen (steady_call isQuiet_clearPathNonRetryable) fun _ => hrun
  · exact hrun

theorem steady_sweepPersist (idErr : Except OpError ℕ) (additional : List (String × MetaValue F)) :
    Steady (sweepPersist P path idErr additional) := by
  refine steady_each (fun kv => ?_) _
  split_ifs
  · exact steady_pure _
  · refine steady_andThen (steady_orElse (steady_call isQuiet_writeMeta)) fun _ => ?_
    cases idErr with
    | ok i => exact steady_orElse (steady_call isQuiet_upsertFileMeta)
    | error _ => exact steady_pure _

end Steady

/-! ### Every operation keeps to its script -/

/-- The process keeps to the script, and leaves nothing unsettled. -/
def KeepsTo (S : Script) (p : Op F α) : Prop :=
  ∀ ph : Phase F, ph.Settled → Follows S.protocol p (fun _ ph' => ph'.Settled) ph

theorem Steady.keepsTo {p : Op F α} (hp : Steady p) : KeepsTo S p :=
  fun ph h => (hp S ph).mono fun _ _ h' => h' ▸ h

theorem keepsTo_andThen {p : Op F α} {f : α → Op F β} (hp : KeepsTo S p) (hf : ∀ a, KeepsTo S (f a)) :
    KeepsTo S (p >>= f) := by
  refine fun ph h => follows_andThen ((hp ph h).mono fun r ph' h' => ?_)
  cases r with
  | ok a => exact hf a ph' h'
  | error e => exact h'

theorem keepsTo_attempt {p : Op F α} (hp : KeepsTo S p) :
    KeepsTo S (attempt p : Op F (Except OpError α)) := fun ph h => follows_attempt (hp ph h)

theorem keepsTo_orElse {p : Op F α} {a : α} (hp : KeepsTo S p) : KeepsTo S (orElse a p) :=
  fun ph h => follows_orElse (hp ph h)

theorem keepsTo_each {f : α → Op F Unit} (hf : ∀ a, KeepsTo S (f a)) (l : List α) :
    KeepsTo S (each f l) := by
  induction l with
  | nil => exact (steady_pure ()).keepsTo
  | cons a l ih => exact keepsTo_andThen (hf a) fun _ => ih

/-- A recorded call that changes neither the attribute nor what waits for the index. -/
theorem keepsTo_recorded {label : Except OpError α → Call F} {m : Act α} (hm : Recorded label m)
    (hscript : ∀ ph : Phase F, ∀ r, S.Scripted ph (label r))
    (hwrote : ∀ ph : Phase F, ∀ r, (advance ph (label r)).wrote = ph.wrote) : KeepsTo S (atom label m) :=
  fun ph h => follows_recorded hm (hscript ph) fun r p tags => by rw [hwrote]; exact h p tags

section Operations
variable (P : Platform F) (env : Env F) (path : String)

/-- What `applyDiff` and `sweepFile` write: the tag attribute, the provenance, the index. -/
theorem follows_writeDiff (hon : S.on path) (hreq : S.request = .none) {q : Query F} {i : ℕ}
    {overrides : List (String × String)} (hpath : q.path = path)
    (hfile : ph.fileId = some (path, i)) (hread : ph.read = some (path, q.existingTags))
    (heval : ph.evaluation = some (q, overrides)) {newTags : List String}
    (hnew : newTags = q.existingTags ++ (q.diff overrides).added) {writeX writeI : Act Unit}
    (hwriteX : Recorded (F := F) (.writeTags path newTags (some (q.diff overrides))) writeX)
    (hwriteI : Recorded (F := F) (.setFileTags path i newTags) writeI) {rest : Op F β}
    (hstop : ∀ e ph', ph'.Settled → R (.error e) ph')
    (hrest : ∀ ph', ph'.Settled → ph'.indexed = some (path, newTags) → Follows S.protocol rest R ph') :
    Follows S.protocol (do
      atom (.writeTags path newTags (some (q.diff overrides))) writeX
      updateSource P path (q.diff overrides).sources
      atom (.setFileTags path i newTags) writeI
      rest) R ph := by
  refine follows_andThen (follows_recorded hwriteX
    (fun r => ⟨hon, hreq, q, overrides, heval, hpath, hread, rfl, hnew⟩) fun r => ?_)
  cases r with
  | error e =>
    refine hstop e _ fun p tags h => ?_
    have h : some (path, newTags, false) = some (p, tags, true) := h
    simp at h
  | ok _ =>
    refine follows_andThen ((follows_updateSource P path _).mono ?_)
    rintro r ph' ⟨rfl, rfl⟩
    refine follows_andThen (follows_recorded hwriteI (fun r => ⟨hon, hreq, hfile, rfl⟩) fun r => ?_)
    cases r with
    | error e => exact hstop e _ fun p tags h => by cases h
    | ok _ => exact hrest _ (fun p tags h => by cases h) rfl

theorem follows_applyDiff (hon : S.on path) (hreq : S.request = .none) {q : Query F} {i : ℕ}
    {overrides : List (String × String)} (hpath : q.path = path)
    (hfile : ph.fileId = some (path, i)) (hread : ph.read = some (path, q.existingTags))
    (heval : ph.evaluation = some (q, overrides)) :
    Follows S.protocol (applyDiff P env path i q.existingTags (q.diff overrides))
      (fun _ ph' => ph'.Settled) ph := by
  refine follows_writeDiff P path hon hreq hpath hfile hread heval rfl
    (recorded_writeTags.errorf fun _ _ _ _ h => h) (recorded_setFileTags.errorf fun _ _ _ _ h => h)
    (fun _ _ h => h) fun ph' hsettled hindexed => ?_
  refine follows_andThen (follows_recorded recorded_setGraphTags (fun _ => ⟨hon, hindexed⟩) fun r => ?_)
  cases r with
  | error e => exact hsettled
  | ok _ =>
    exact (steady_andThen (steady_recordSources env i _) fun _ =>
      steady_call isQuiet_onFileTagged).keepsTo _ hsettled

/-- Evaluate the rules, and go on with the overrides they were evaluated with. -/
theorem follows_readOverrides (hon : S.on path) (hreq : S.request = .none) {i : ℕ} {md : MetaMap F}
    {existing : List String} (hfile : ph.fileId = some (path, i)) (hread : ph.read = some (path, existing))
    {Q : Except OpError (List (String × String)) → Phase F → Prop} (herr : ∀ e, Q (.error e) ph)
    (hQ : ∀ overrides ph', ph'.wrote = ph.wrote → ph'.fileId = ph.fileId → ph'.read = ph.read →
      ph'.evaluation = some (⟨path, i, env.rules, env.order, md, existing⟩, overrides) →
      Q (.ok overrides) ph') :
    Follows S.protocol (readOverrides env path i md existing) Q ph := by
  refine follows_recorded recorded_evaluate (fun _ => ⟨hon, hfile, hread, hreq⟩) fun r => ?_
  cases r with
  | error e => exact herr e
  | ok overrides => exact hQ overrides _ rfl rfl rfl rfl

/-- Apply what an evaluation added, if anything. -/
theorem follows_update (hon : S.on path) (hreq : S.request = .none) {i : ℕ} {md : MetaMap F}
    {existing : List String} {overrides : List (String × String)} (hsettled : ph.Settled)
    (hfile : ph.fileId = some (path, i)) (hread : ph.read = some (path, existing))
    (heval : ph.evaluation = some (⟨path, i, env.rules, env.order, md, existing⟩, overrides)) :
    Follows S.protocol
      (if (eval env.rules env.order md existing overrides).added = [] then (pure () : Op F Unit)
        else applyDiff P env path i existing (eval env.rules env.order md existing overrides))
      (fun _ ph' => ph'.Settled) ph := by
  split_ifs
  · exact hsettled
  · exact follows_applyDiff P env path hon hreq
      (q := ⟨path, i, env.rules, env.order, md, existing⟩) rfl hfile hread heval

theorem keepsTo_consume (err : OpError) (done : Op F Unit) (hdone : KeepsTo S done) :
    KeepsTo S (do
      if ← consumeNonRetryablePathErr env path err then return ()
      else done) := by
  refine keepsTo_andThen (steady_consumeNonRetryablePathErr env path err).keepsTo fun b => ?_
  cases b
  · exact hdone
  · exact (steady_pure ()).keepsTo

theorem follows_evalAndApply (hon : S.on path) (hreq : S.request = .none) {idErr : Except OpError ℕ}
    {md : MetaMap F} {existing : List String} (hsettled : ph.Settled)
    (hfile : ∀ i, idErr = .ok i → ph.fileId = some (path, i)) (hread : ph.read = some (path, existing)) :
    Follows S.protocol (evalAndApply P env path idErr existing md) (fun _ ph' => ph'.Settled) ph := by
  cases idErr with
  | error err =>
    refine keepsTo_consume env path err _ ?_ ph hsettled
    split_ifs
    · exact (steady_pure ()).keepsTo
    · exact (steady_fail _).keepsTo
  | ok i =>
    refine follows_andThen (follows_attempt (follows_readOverrides env path hon hreq (hfile i rfl) hread
      (fun err => ?_) fun overrides ph' hw hf hr he => ?_))
    · exact keepsTo_consume env path err _ (steady_fail _).keepsTo ph hsettled
    · have hsettled' : ph'.Settled := fun p tags => by rw [hw]; exact hsettled p tags
      refine follows_steady (steady_updateEmbedding env path i existing md) (fun _ => hsettled') fun _ => ?_
      exact follows_update P env path hon hreq hsettled' (hf.trans (hfile i rfl)) (hr.trans hread) he

/-- Read the tags, and go on with the tags read. -/
theorem follows_readTags (hon : S.on path) {m : Act (List String)}
    (hm : Recorded (F := F) (.readTags path) m) {Q : Except OpError (List String) → Phase F → Prop}
    (hQ : ∀ r ph', ph'.wrote = ph.wrote → ph'.fileId = ph.fileId →
      ph'.read = some (path, r.toOption.getD []) → Q r ph') :
    Follows S.protocol (atom (.readTags path) m) Q ph :=
  follows_recorded hm (fun _ => hon) fun r => hQ r _ rfl rfl rfl

theorem recorded_readTags_errorf {format : String} {args : List String} :
    Recorded (F := F) (.readTags path) (errorf format args (readTags path)) :=
  recorded_readTags.errorf fun _ _ _ _ h => ⟨h.1, fun _ h => by cases h⟩

theorem follows_lookupFileID (hon : S.on path) {Q : Except OpError ℕ → Phase F → Prop}
    (hQ : ∀ r ph', ph'.wrote = ph.wrote → ph'.read = ph.read →
      (∀ i, r = .ok i → ph'.fileId = some (path, i)) → Q r ph') :
    Follows S.protocol (lookupFileID path) Q ph := by
  refine follows_recorded recorded_getFileIDByPath (fun _ => hon) fun r => ?_
  cases r with
  | error e => exact hQ _ _ rfl rfl fun i h => by cases h
  | ok i => exact hQ _ _ rfl rfl fun j h => by cases h; rfl

theorem keepsTo_processFile (hon : S.on path) (hreq : S.request = .none) :
    KeepsTo S (processFile P env path) := by
  refine fun ph hsettled => follows_andThen (follows_readTags path hon (recorded_readTags_errorf path)
    fun r ph₁ hw₁ _ hr₁ => ?_)
  have hs₁ : ph₁.Settled := fun p tags => by rw [hw₁]; exact hsettled p tags
  cases r with
  | error e => exact hs₁
  | ok existing =>
    refine follows_steady (steady_call (isQuiet_errorf isQuiet_readAllMeta)) (fun _ => hs₁) fun md => ?_
    dsimp only
    split
    · exact hs₁
    · refine follows_andThen (follows_attempt (follows_lookupFileID path hon fun r ph₂ hw₂ hr₂ hf₂ => ?_))
      have hs₂ : ph₂.Settled := fun p tags => by rw [hw₂]; exact hs₁ p tags
      refine follows_steady (steady_attempt (steady_mergeAndPersistMeta P env path _ _ _ _ _))
        (fun _ => hs₂) fun merged => ?_
      cases merged with
      | error err => exact keepsTo_consume env path err _ (steady_fail _).keepsTo ph₂ hs₂
      | ok md' => exact follows_evalAndApply P env path hon hreq hs₂ hf₂ (hr₂.trans hr₁)

theorem keepsTo_guarded {m : Op F Unit} (hm : KeepsTo S m) : KeepsTo S (do
    if ← preparePath env path then
      match ← (attempt m : Op F (Except OpError Unit)) with
      | .ok _ => return ()
      | .error err =>
        let _ ← consumeNonRetryablePathErr env path err
        return ()
    else return ()) := by
  refine keepsTo_andThen (steady_preparePath env path).keepsTo fun b => ?_
  cases b
  · exact (steady_pure ()).keepsTo
  · refine keepsTo_andThen (keepsTo_attempt hm) fun r => ?_
    cases r with
    | ok _ => exact (steady_pure ()).keepsTo
    | error err =>
      exact (steady_andThen (steady_consumeNonRetryablePathErr env path err) fun _ => steady_pure ()).keepsTo

theorem keepsTo_ProcessFile (hon : S.on path) (hreq : S.request = .none) :
    KeepsTo S (ProcessFile P env path) := keepsTo_guarded env path (keepsTo_processFile P env path hon hreq)

theorem keepsTo_handleAsyncResult (hon : S.on path) (hreq : S.request = .none) (harvesterName : String)
    (asyncMeta : List (String × MetaValue F)) :
    KeepsTo S (handleAsyncResult P env path harvesterName asyncMeta) := by
  refine keepsTo_guarded env path fun ph hsettled => ?_
  refine follows_andThen (follows_lookupFileID path hon fun r ph₁ hw₁ _ hf₁ => ?_)
  have hs₁ : ph₁.Settled := fun p tags => by rw [hw₁]; exact hsettled p tags
  cases r with
  | error e => exact hs₁
  | ok i =>
    refine follows_andThen (follows_orElse (follows_readTags path hon recorded_readTags
      fun r ph₂ hw₂ hf₂ hr₂ => ?_))
    have hs₂ : ph₂.Settled := fun p tags => by rw [hw₂]; exact hs₁ p tags
    refine follows_steady (steady_orElse (steady_call isQuiet_readAllMeta)) (fun _ => hs₂) fun md => ?_
    refine follows_steady (steady_mergeAndPersistMeta P env path _ _ _ _ _) (fun _ => hs₂) fun md' => ?_
    have hfile : ph₂.fileId = some (path, i) := hf₂.trans (hf₁ i rfl)
    refine follows_andThen (follows_readOverrides env path hon hreq hfile hr₂ (fun _ => hs₂)
      fun overrides ph₃ hw₃ hf₃ hr₃ he₃ => ?_)
    have hs₃ : ph₃.Settled := fun p tags => by rw [hw₃]; exact hs₂ p tags
    dsimp only
    split_ifs
    · exact hs₃
    · refine follows_steady (steady_updateEmbedding env path i _ md') (fun _ => hs₃) fun _ => ?_
      exact follows_applyDiff P env path hon hreq (q := ⟨path, i, env.rules, env.order, md', _⟩) rfl
        (hf₃.trans hfile) (hr₃.trans hr₂) he₃

theorem keepsTo_sweepFile (hon : S.on path) (hreq : S.request = .none) :
    KeepsTo S (sweepFile P env path) := by
  refine fun ph hsettled => follows_andThen (follows_readTags path hon recorded_readTags
    fun r ph₁ hw₁ _ hr₁ => ?_)
  have hs₁ : ph₁.Settled := fun p tags => by rw [hw₁]; exact hsettled p tags
  cases r with
  | error e => exact hs₁
  | ok existing =>
    refine follows_steady (steady_call isQuiet_readAllMeta) (fun _ => hs₁) fun md => ?_
    refine follows_andThen (follows_attempt (follows_lookupFileID path hon fun r ph₂ hw₂ hr₂ hf₂ => ?_))
    have hs₂ : ph₂.Settled := fun p tags => by rw [hw₂]; exact hs₁ p tags
    refine follows_steady (steady_sweepPersist P path _ _) (fun _ => hs₂) fun _ => ?_
    cases r with
    | error e => exact hs₂
    | ok i =>
      refine follows_andThen (follows_readOverrides env path hon hreq (hf₂ i rfl) (hr₂.trans hr₁)
        (fun _ => hs₂) fun overrides ph₃ hw₃ hf₃ hr₃ he₃ => ?_)
      have hs₃ : ph₃.Settled := fun p tags => by rw [hw₃]; exact hs₂ p tags
      dsimp only
      split_ifs
      · exact hs₃
      · refine follows_writeDiff P path hon hreq (q := ⟨path, i, env.rules, env.order, _, existing⟩) rfl
          (hf₃.trans (hf₂ i rfl)) (hr₃.trans (hr₂.trans hr₁)) he₃ rfl recorded_writeTags
          recorded_setFileTags (fun _ _ h => h) fun ph' hs' _ => ?_
        exact (steady_andThen (steady_recordSources env i _) fun _ => steady_pure true).keepsTo ph' hs'

theorem steady_needsHarvest (md : List (String × String)) (stat : FileStat) :
    Steady (needsHarvest (F := F) path md stat) := by
  unfold needsHarvest
  split_ifs
  · exact steady_pure _
  · refine steady_andThen (steady_attempt (steady_call isQuiet_getFileStat)) fun r => ?_
    cases r <;> exact steady_pure _

theorem keepsTo_syncFile (hon : S.on path) (hreq : S.request = .none) (stat : FileStat) :
    KeepsTo S (syncFile P env path stat) := by
  refine fun ph hsettled => follows_andThen (follows_readTags path hon (recorded_readTags_errorf path)
    fun r ph₁ hw₁ _ hr₁ => ?_)
  have hs₁ : ph₁.Settled := fun p tags => by rw [hw₁]; exact hsettled p tags
  cases r with
  | error e => exact hs₁
  | ok tags =>
    refine follows_steady (steady_call (isQuiet_errorf isQuiet_readAllMeta)) (fun _ => hs₁) fun md => ?_
    refine follows_steady (steady_call (isQuiet_errorf (isQuiet_readSource P))) (fun _ => hs₁) fun src => ?_
    refine follows_steady (steady_needsHarvest path md stat) (fun _ => hs₁) fun harvest => ?_
    refine follows_andThen (follows_recorded (recorded_syncFileApply.errorf fun _ _ _ _ h => h)
      (fun _ => ⟨hon, hreq, hr₁⟩) fun r => ?_)
    cases r <;> exact hs₁

/-! ### Requests and events -/

/-- Refreshing the graph succeeds and writes no tags. -/
theorem follows_refreshGraph (hon : S.on path) : Follows S.protocol (refreshGraph (F := F) path)
    (fun r ph' => r = .ok () ∧ ph'.wrote = ph.wrote ∧ ph'.lastWrite = ph.lastWrite ∧
      ph'.modified = ph.modified) ph := by
  refine follows_andThen (follows_attempt (follows_recorded recorded_getFileTags (fun _ => hon) fun r => ?_))
  cases r with
  | error e => exact ⟨rfl, rfl, rfl, rfl⟩
  | ok tags => exact follows_recorded_modify recorded_setGraphTags ⟨hon, rfl⟩ ⟨rfl, rfl, rfl, rfl⟩

/-- The tag request for one path. It succeeds if the index takes the change; the tag attribute has then
been written to, or at least been tried. -/
theorem follows_handleTagPath {op : String} {tags : List String} (hon : S.on path)
    (hreq : S.request = .tag op tags) :
    Follows S.protocol (handleTagPath env op tags path) (fun r ph' => ph'.Settled ∧
      (r.isOk → ∃ l ok, ph'.lastWrite = some (path, l, ok)) ∧
      (r.isOk ↔ ph'.modified = some (path, true))) ph := by
  refine follows_andThen (follows_orElse (follows_recorded recorded_getFileTags (fun _ => hon) fun _ => ?_))
  refine follows_andThen (follows_orElse ?_)
  refine follows_andThen (follows_orElse (follows_readTags path hon recorded_readTags
    fun r ph₁ _ _ hr₁ => ?_))
  refine follows_recorded recorded_writeTags
    (fun _ => ⟨hon, op, tags, _, hreq, hr₁, env.order.perm _⟩) fun r => ?_
  refine follows_andThen (follows_recorded recorded_modifyFileTags
    (fun _ => ⟨hon, Or.inr ⟨hreq, _, _, rfl⟩⟩) fun r' => ?_)
  cases r' with
  | error e =>
    refine ⟨fun p tags h => (by cases h), fun h => (by cases h), ?_⟩
    simp [advance, Except.isOk, Except.toBool]
  | ok _ =>
    refine follows_andThen ((follows_refreshGraph path hon).mono ?_)
    rintro r'' ph' ⟨rfl, hwrote, hlast, hmodified⟩
    have hend : ph'.Settled ∧ ((Except.ok () : Except OpError Unit).isOk →
        ∃ l ok, ph'.lastWrite = some (path, l, ok)) ∧
        ((Except.ok () : Except OpError Unit).isOk ↔ ph'.modified = some (path, true)) :=
      ⟨fun p tags h => (by rw [hwrote] at h; cases h), fun _ => ⟨_, _, hlast⟩, fun _ => hmodified,
        fun _ => rfl⟩
    dsimp only
    split_ifs
    · exact follows_recorded_modify (recorded_other isQuiet_onFileTagged) trivial hend
    · exact hend

end Operations

end Tilbo.Daemon.Scripts
