import Tilbo.Index.RowSpec
import Tilbo.Daemon.Operations

/-! # What the calls do to the rows

Any operation, interleaved with any others, shows its calls as they happen. `Touches S h c` says what the
call `c` of an operation whose earlier calls were `h` may do to the rows of files, metadata and embeddings:
most calls do nothing to them, a `SyncFileApply` applies the metadata read right after the tags, and a
metadata value or an embedding goes to the id the operation looked up before. The `Source` says which
values come from outside. -/

namespace Tilbo.Daemon.Moments

open Tilbo.Daemon.State Tilbo.Daemon.Calls Tilbo.Daemon.Processor Tilbo.Daemon.Handlers Tilbo.Daemon.Operations
open Tilbo.Rules.Engine Tilbo.Rules.Sweep Tilbo.Sync.SyncFile Tilbo.Fuse.Server Tilbo.Xattr.Service
open Tilbo.Xattr.Csv Tilbo.Index.Schema Tilbo.Index.Store Tilbo.Index.StoreSpec Tilbo.Index.RowSpec
open Tilbo.Harvester.Meta Tilbo.Lib.Pairs Tilbo.Lib.Txn Tilbo.Lib.Process Tilbo.Lib.Process.Proc

variable {F α β : Type}

/-- A call of the daemon as it happened. -/
abbrev Moment (F : Type) : Type := Seen World (Call F)

/-- The id of the path was looked up. -/
def LookedUp (h : List (Moment F)) (path : String) (i : ℕ) : Prop :=
  ∃ c ∈ h, c.label = .getFileIDByPath path (.ok i)

/-- The call after the tags of the path were read: it finds this metadata on the file. -/
def ReadsMeta (h : List (Moment F)) (path : String) (md : List (String × String)) : Prop :=
  ∃ a r c b, h = a ++ r :: c :: b ∧ (∃ tags, r.label = .readTags path tags) ∧
    (c.before.store.files path).map File.metadata = some md

/-- Which values an operation may bring in: metadata under a key (none to delete it), and embeddings. -/
structure Source where
  writes : String → String → Option String → Prop
  computes : String → List UInt32 → Prop

/-- What the call may do to the rows. -/
def Touches (S : Source) (h : List (Moment F)) (c : Moment F) : Prop :=
  let s := c.before.store.db
  let s' := c.after.db
  match c.label with
  | .syncFileApply path stat tags now (.ok i) => ∃ md sourceMap, ReadsMeta h path md ∧
      Applied path stat tags md sourceMap now i s s'
  | .deleteFile path (.ok _) => Deleted (fun f => f.path = path) s s' ∧
      (true ∉ c.before.faults.take 3 → Purged (fun f => f.path = path) s s')
  | .deleteStaleFiles base since (.ok _) => Deleted (stale base since) s s' ∧ Purged (stale base since) s s'
  | .other => SameRows s s' ∨
      (∃ path i key value, (LookedUp h path i ∨ s.fileId path = some i) ∧ S.writes path key value ∧
        WroteMeta i key value s s') ∨
      ∃ path i vec, LookedUp h path i ∧ S.computes path vec ∧ WroteEmbedding i vec s s'
  | _ => SameRows s s'

variable {S : Source} {h : List (Moment F)} {c : Moment F} {path : String} {i : ℕ}

/-- A call that promises nothing about the rows. -/
def Plain : Call F → Prop
  | .syncFileApply .. | .deleteFile .. | .deleteStaleFiles .. => False
  | _ => True

theorem touches_same (hlabel : Plain c.label) (hrows : SameRows c.before.store.db c.after.db) :
    Touches S h c := by
  unfold Touches
  cases hc : c.label with
  | other => exact Or.inl hrows
  | syncFileApply | deleteFile | deleteStaleFiles => rw [hc] at hlabel; exact absurd hlabel id
  | _ => exact hrows

/-! ### Calls that leave the rows alone -/

/-- Whatever fails, the rows are as before. -/
def RowsKept (m : Act α) : Prop := ∀ s, Lib.Txn.Keeps (fun w : World => SameRows s w.db) m

theorem RowsKept.run {m : Act α} (hm : RowsKept m) (c : Conn World) : SameRows c.store.db (m c).2.store.db :=
  (hm c.store.db).run (SameRows.refl _)

theorem rowsKept_ctxErr : RowsKept ctxErr := fun _ => keeps_ctxErr

theorem rowsKept_get {f : File → Option α} : RowsKept (get path f) := fun _ => keeps_get

theorem rowsKept_set {f : File → Option File} : RowsKept (set path f) := fun _ => keeps_set fun _ _ h => h

theorem rowsKept_modify {f : World → World} (hf : ∀ w, (f w).db = w.db) :
    RowsKept (Prog.modify f) := fun _ => Keeps.modify fun w h => by rw [hf]; exact h

theorem rowsKept_onIndex {m : Sql α} (hm : KeepsRows m) : RowsKept (onIndex m) := fun _ w h =>
  wp_wrap (wp_zoom ((hm w.db).mono (fun _ _ h' => h.trans h') fun _ _ h' => h.trans h'))

/-- A query of the index. -/
theorem rowsKept_query {m : Sql α} (hm : ∀ s, Lib.Txn.Keeps (fun s' => s' = s) m) : RowsKept (onIndex m) :=
  rowsKept_onIndex fun s => (hm s s rfl).mono (fun _ _ h => h ▸ SameRows.refl s) fun _ _ h => h ▸ SameRows.refl s

theorem keeps_query {f : Tables → α} (s : DB) : Lib.Txn.Keeps (fun s' => s' = s) (query f) :=
  Keeps.stmt fun s' a s'' h hq => by cases hq; exact h

theorem keeps_queryRow {f : Tables → Option α} (s : DB) : Lib.Txn.Keeps (fun s' => s' = s) (queryRow f) := by
  refine Keeps.stmt fun s' a s'' h hq => ?_
  split at hq
  · cases hq; exact h
  · cases hq

theorem rowsKept_getFileIDByPath : RowsKept (onIndex (getFileIDByPath path)) :=
  rowsKept_query fun s => Keeps.wrap (keeps_queryRow s)

theorem rowsKept_getFileStat : RowsKept (onIndex (getFileStat path)) :=
  rowsKept_query fun s => Keeps.wrap (keeps_queryRow s)

theorem rowsKept_getTagOverrides : RowsKept (onIndex (getTagOverrides i)) :=
  rowsKept_query fun s => Keeps.wrap (keeps_query s)

theorem rowsKept_getFileTags : RowsKept (onIndex (getFileTags path)) := by
  refine rowsKept_query fun s => Keeps.andThen (Keeps.attempt (keeps_queryRow s)) fun r => ?_
  split
  · exact Keeps.wrap (keeps_query s)
  · exact Keeps.ret
  · exact Keeps.fail

theorem rowsKept_readTags : RowsKept (readTags path) := fun _ => keeps_readTags

theorem rowsKept_readAllMeta : RowsKept (readAllMeta path) := fun _ => keeps_readAllMeta

theorem rowsKept_readSource (P : Platform F) : RowsKept (readSource P path) := fun _ => keeps_readSource P

theorem rowsKept_writeTags {tags : List String} : RowsKept (writeTags path tags) :=
  fun _ => keeps_writeTags fun _ _ h => h

theorem rowsKept_writeMeta {key value : String} : RowsKept (writeMeta path key value) :=
  fun _ => keeps_writeMeta fun _ _ h => h

theorem rowsKept_writeSource (P : Platform F) {source : List (String × String)} :
    RowsKept (writeSource P path source) := fun _ => keeps_writeSource (fun _ _ h => h) P

theorem rowsKept_markPathNonRetryable : RowsKept (markPathNonRetryable path) :=
  rowsKept_modify fun w => by split_ifs <;> rfl

theorem rowsKept_clearPathNonRetryable : RowsKept (clearPathNonRetryable path) :=
  rowsKept_modify fun w => by split_ifs <;> rfl

theorem rowsKept_errorf {m : Act α} {format : String} {args : List String} (hm : RowsKept m) :
    RowsKept (Daemon.State.errorf format args m) := fun s => Keeps.wrap (hm s)

/-! ### Parts that need no more than an id -/

/-- The id is known from a lookup. -/
def Knows (known : Option (String × ℕ)) (h : List (Moment F)) : Prop :=
  ∀ p i, known = some (p, i) → LookedUp h p i

theorem Knows.later {known : Option (String × ℕ)} (hk : Knows known h) : Knows known (h ++ [c]) :=
  fun p i hpi => (hk p i hpi).imp fun _ hc => ⟨List.mem_append_left _ hc.1, hc.2⟩

theorem knows_none : Knows none h := fun _ _ h => by cases h

theorem knows_some (hi : LookedUp h path i) : Knows (some (path, i)) h := fun _ _ h => by cases h; exact hi

/-- The calls of the process do to the rows what they may, once the id is known. -/
def Within (S : Source) (known : Option (String × ℕ)) (p : Op F α) : Prop :=
  ∀ h, Knows known h → Follows (Protocol.ofHistory (Touches S)) p.observe (fun _ h' => Knows known h') h

variable {known : Option (String × ℕ)}

theorem within_pure (a : α) : Within S known (pure a : Op F α) := fun _ hk => hk

theorem within_fail (e : OpError) : Within S known (fail e : Op F α) := fun _ hk => hk

theorem within_andThen {p : Op F α} {f : α → Op F β} (hp : Within S known p)
    (hf : ∀ a, Within S known (f a)) : Within S known (p >>= f) := by
  intro h hk
  rw [observe_andThen]
  refine follows_andThen ((hp h hk).mono fun r h' hk' => ?_)
  cases r with
  | ok a => exact hf a h' hk'
  | error e => exact hk'

theorem within_attempt {p : Op F α} (hp : Within S known p) :
    Within S known (attempt p : Op F (Except OpError α)) := by
  intro h hk
  rw [observe_attempt]
  exact follows_attempt (hp h hk)

theorem within_orElse {p : Op F α} {a : α} (hp : Within S known p) : Within S known (orElse a p) := by
  refine within_andThen (within_attempt hp) fun r => ?_
  cases r <;> exact within_pure _

theorem within_each {f : α → Op F Unit} {l : List α} (hf : ∀ a ∈ l, Within S known (f a)) :
    Within S known (each f l) := by
  induction l with
  | nil => exact within_pure ()
  | cons a l ih =>
    exact within_andThen (hf a List.mem_cons_self) fun _ => ih fun b hb => hf b (List.mem_cons_of_mem _ hb)

/-- A call that leaves the rows alone. -/
theorem within_atom {label : Except OpError α → Call F} {m : Act α} (hm : RowsKept m)
    (hlabel : ∀ r, Plain (label r)) : Within S known (atom label m) := fun _ hk =>
  follows_observe_atom fun c => ⟨touches_same (hlabel _) (hm.run c), hk.later⟩

theorem within_call {m : Act α} (hm : RowsKept m) : Within S known (call m : Op F α) :=
  within_atom hm fun _ => trivial

theorem within_modify {f : World → World} (hf : ∀ w, (f w).db = w.db) :
    Within S known (call (Prog.modify f) : Op F Unit) := within_call (rowsKept_modify hf)

/-- What is within its bounds once the id is known, is so after a lookup that found it. -/
theorem follows_lookupFileID {Q : Except OpError ℕ → List (Moment F) → Prop}
    (herr : ∀ e h', Q (.error e) h') (hok : ∀ i h', Knows (some (path, i)) h' → Q (.ok i) h') :
    Follows (Protocol.ofHistory (Touches S)) (lookupFileID path : Op F ℕ).observe Q h := by
  refine follows_observe_atom fun c => ⟨touches_same trivial (rowsKept_getFileIDByPath.run c), ?_⟩
  generalize hr : (onIndex (getFileIDByPath path) c).1 = r
  cases r with
  | error e => exact herr e _
  | ok i => exact hok i _ (knows_some ⟨_, List.mem_append_right _ (List.mem_singleton_self _), rfl⟩)

/-! ### The parts of the operations -/

/-- What a method of the index does whatever its result. -/
theorem onIndex_run {m : Sql α} {R : DB → Prop} {c : Conn World}
    (hm : wp m (fun _ => R) (fun _ => R) c.store.db) : R (onIndex m c).2.store.db := by
  have hrun : wp (onIndex m) (fun _ w => R w.db) (fun _ w => R w.db) c.store := wp_wrap (wp_zoom hm)
  have hc := hrun c.faults
  split at hc <;> rename_i heq <;> simpa only [heq] using hc

section Parts
variable (P : Platform F) (env : Env F)

theorem within_consumeNonRetryablePathErr (err : OpError) :
    Within S known (consumeNonRetryablePathErr env path err) := by
  unfold consumeNonRetryablePathErr
  split_ifs
  · exact within_andThen (within_call rowsKept_markPathNonRetryable) fun _ => within_pure _
  · exact within_pure _

theorem within_stopIfNonRetryable {m : Op F Unit} (hm : Within S known m) :
    Within S known (stopIfNonRetryable env m) := by
  refine within_andThen (within_attempt hm) fun r => ?_
  cases r with
  | ok _ => exact within_pure _
  | error err =>
    dsimp only
    split_ifs
    · exact within_fail _
    · exact within_pure _

/-- A metadata value for the known id. -/
theorem within_upsertFileMeta {key value source : String} (hknown : known = some (path, i))
    (hw : S.writes path key (some value)) :
    Within S known (call (onIndex (upsertFileMeta i key value source)) : Op F Unit) := by
  refine fun h hk => follows_observe_atom fun c => ⟨?_, hk.later⟩
  have hrows := onIndex_run (m := upsertFileMeta i key value source) (c := c) (R := fun s' =>
    s' = c.store.db ∨ WroteMeta i key (some value) c.store.db s')
    (wp_upsertFileMeta_rows.mono (fun _ _ => Or.inr) fun _ _ => Or.inl)
  rcases hrows with hrows | hrows
  · exact Or.inl (hrows ▸ SameRows.refl _)
  · exact Or.inr (Or.inl ⟨path, i, key, some value, Or.inl (hk _ _ hknown), hw, hrows⟩)

/-- An embedding for the known id. -/
theorem within_upsertEmbedding {vec : List UInt32} (hknown : known = some (path, i))
    (hv : S.computes path vec) : Within S known (call (onIndex (upsertEmbedding i vec)) : Op F Unit) := by
  refine fun h hk => follows_observe_atom fun c => ⟨?_, hk.later⟩
  have hrows := onIndex_run (m := upsertEmbedding i vec) (c := c) (R := fun s' =>
    s' = c.store.db ∨ WroteEmbedding i vec c.store.db s')
    (wp_upsertEmbedding_rows.mono (fun _ _ => Or.inr) fun _ _ => Or.inl)
  rcases hrows with hrows | hrows
  · exact Or.inl (hrows ▸ SameRows.refl _)
  · exact Or.inr (Or.inr ⟨path, i, vec, hk _ _ hknown, hv, hrows⟩)

theorem within_persistMetaValue {persistToIndex : Bool} {source key value : String}
    (hknown : persistToIndex = true → known = some (path, i)) (hw : S.writes path key (some value)) :
    Within S known (persistMetaValue env path i persistToIndex source key value) := by
  refine within_andThen (within_stopIfNonRetryable env (within_call rowsKept_writeMeta)) fun _ => ?_
  split_ifs with hp
  · exact within_stopIfNonRetryable env (within_upsertFileMeta (hknown hp) hw)
  · exact within_pure _

theorem within_mergeAndPersistMeta {persistToIndex : Bool} {source : String} {base : MetaMap F}
    {updates : List (String × MetaValue F)} (hknown : persistToIndex = true → known = some (path, i))
    (hw : ∀ kv ∈ updates, S.writes path kv.1 (some (valueToString P kv.2))) :
    Within S known (mergeAndPersistMeta P env path i persistToIndex source base updates) := by
  refine within_andThen (within_each fun kv hkv => ?_) fun _ => within_pure _
  split_ifs
  · exact within_pure _
  · exact within_persistMetaValue env hknown (hw kv hkv)

theorem within_recordSources (i : ℕ) (sources : List (String × String)) :
    Within S known (recordSources env i sources) := by
  refine within_each fun ts _ => within_andThen
    (within_attempt (within_call (rowsKept_onIndex keepsRows_upsertTag))) fun r => ?_
  cases r with
  | error _ => exact within_pure _
  | ok t => exact within_orElse (within_call (rowsKept_onIndex keepsRows_setProvenance))

theorem within_updateSource (sources : List (String × String)) :
    Within S known (updateSource P path sources) :=
  within_andThen (within_orElse (within_call (rowsKept_readSource P))) fun _ =>
    within_orElse (within_call (rowsKept_writeSource P))

theorem within_setGraphTags (tags : List String) : Within S known (setGraphTags path tags : Op F Unit) :=
  within_atom (rowsKept_modify fun _ => rfl) fun _ => trivial

theorem within_applyDiff (i : ℕ) (existingTags : List String) (diff : TagDiff) :
    Within S known (applyDiff P env path i existingTags diff) :=
  within_andThen (within_atom (rowsKept_errorf rowsKept_writeTags) fun _ => trivial) fun _ =>
    within_andThen (within_updateSource P _) fun _ =>
      within_andThen (within_atom (rowsKept_errorf (rowsKept_onIndex keepsRows_setFileTags))
        fun _ => trivial) fun _ =>
        within_andThen (within_setGraphTags _) fun _ =>
          within_andThen (within_recordSources env i _) fun _ => within_modify fun _ => rfl

theorem within_updateEmbedding {existingTags : List String} {md : MetaMap F} (hknown : known = some (path, i))
    (hv : ∀ embedText text vec, env.embedText = some embedText →
      embedText (" ".intercalate (path :: text)) = some vec → S.computes path vec) :
    Within S known (updateEmbedding env path i existingTags md) := by
  unfold updateEmbedding
  cases hembed : env.embedText with
  | none => exact within_pure _
  | some embedText =>
    dsimp only
    split
    · exact within_pure _
    · rename_i vec htext
      refine within_andThen (within_attempt (within_upsertEmbedding hknown ?_)) fun r => ?_
      · exact hv embedText _ vec hembed (by simpa only [List.cons_append] using htext)
      · cases r with
        | error _ => exact within_pure _
        | ok _ => exact within_modify fun _ => rfl

theorem within_readOverrides (i : ℕ) (md : MetaMap F) (existingTags : List String) :
    Within S known (readOverrides env path i md existingTags) :=
  within_atom rowsKept_getTagOverrides fun _ => trivial

theorem within_preparePath : Within S known (preparePath env path) := by
  have hrun : Within (F := F) S known (orElse false do
      call ctxErr
      return true) :=
    within_orElse (within_andThen (within_call rowsKept_ctxErr) fun _ => within_pure _)
  refine within_andThen (within_call fun s => Keeps.peek) fun marked => ?_
  split_ifs
  · exact within_pure _
  · exact within_andThen (within_call rowsKept_clearPathNonRetryable) fun _ => hrun
  · exact hrun

theorem within_readTags {m : Act (List String)} (hm : RowsKept m) :
    Within S known (atom (.readTags path) m : Op F (List String)) := within_atom hm fun _ => trivial

theorem within_listFileTags : Within S known (listFileTags path : Op F (List String)) :=
  within_atom rowsKept_getFileTags fun _ => trivial

end Parts

/-! ### Where the values come from -/

section Sources
variable (P : Platform F) (env : Env F)

/-- The harvesters give the file the value under the key. -/
def Harvests (path key value : String) : Prop :=
  ∃ input x, input.path = path ∧ (key, x) ∈ (env.pipeline input).1 ∧ valueToString P x = value

/-- The embedder gives the file the embedding, for some text that starts with its path. -/
def Embeds (path : String) (vec : List UInt32) : Prop :=
  ∃ embedText text, env.embedText = some embedText ∧ embedText (" ".intercalate (path :: text)) = some vec

/-- What a harvest of the file brings in. -/
def harvestSource (path : String) : Source where
  writes p key value := p = path ∧ ∃ x, value = some x ∧ Harvests P env path key x
  computes p vec := p = path ∧ Embeds env path vec

/-- What the operation brings in. -/
def source : Operation F → Source
  | .processFile path | .sweepFile path => harvestSource P env path
  | .handleFSEvent ev => harvestSource P env ev.path
  | .handleAsyncResult path _ asyncMeta =>
    { harvestSource P env path with
      writes p key value := p = path ∧ ∃ x, (key, x) ∈ asyncMeta ∧ value = some (valueToString P x) }
  | _ => ⟨fun _ _ _ => False, fun _ _ => False⟩

variable {P} {env}

theorem harvests_runPipelinePhase {input : Input F} {additional : List (String × MetaValue F)}
    (hrun : runPipelinePhase env input = some additional) {kv : String × MetaValue F}
    (hkv : kv ∈ additional) : Harvests P env input.path kv.1 (valueToString P kv.2) := by
  unfold runPipelinePhase at hrun
  refine ⟨input, kv.2, rfl, ?_, rfl⟩
  split at hrun <;> rename_i hp <;> rw [hp]
  · cases hrun; exact hkv
  · split_ifs at hrun
    cases hrun
    exact hkv

theorem harvests_harvest {input : Input F} {md md' : MetaMap F} {additional : List (String × MetaValue F)}
    (hrun : harvest env input md = some (md', additional)) {kv : String × MetaValue F}
    (hkv : kv ∈ additional) : Harvests P env input.path kv.1 (valueToString P kv.2) := by
  obtain ⟨additional₁, h₁, hrest⟩ := Option.bind_eq_some_iff.mp hrun
  dsimp only at hrest
  split_ifs at hrest
  · cases hrest
    exact harvests_runPipelinePhase h₁ hkv
  · obtain ⟨phase2, h₂, hput⟩ := Option.map_eq_some_iff.mp hrest
    cases hput
    rcases mem_putAll hkv with hkv | hkv
    · exact harvests_runPipelinePhase h₁ hkv
    · exact harvests_runPipelinePhase h₂ hkv

theorem harvests_sweepHarvest {input : Input F} {md : MetaMap F} {kv : String × MetaValue F}
    (hkv : kv ∈ (sweepHarvest env input md).2) : Harvests P env input.path kv.1 (valueToString P kv.2) := by
  unfold sweepHarvest at hkv
  dsimp only at hkv
  split_ifs at hkv
  · rcases mem_putAll hkv with hkv | hkv
    · exact ⟨input, kv.2, rfl, hkv, rfl⟩
    · refine ⟨_, kv.2, ?_, hkv, rfl⟩
      rfl
  · exact ⟨input, kv.2, rfl, hkv, rfl⟩

end Sources

/-! ### The operations -/

section Operations
variable {P : Platform F} {env : Env F}

/-- Evaluate the rules, record the embedding and write the new tags. -/
theorem within_evalAndApply {idErr : Except OpError ℕ} {existingTags : List String} {md : MetaMap F}
    (hknown : ∀ i, idErr = .ok i → known = some (path, i))
    (hv : ∀ vec, Embeds env path vec → S.computes path vec) :
    Within S known (evalAndApply P env path idErr existingTags md) := by
  cases idErr with
  | error err =>
    refine within_andThen (within_consumeNonRetryablePathErr env err) fun b => ?_
    cases b
    · simp only [Bool.false_eq_true, if_false]
      split_ifs
      · exact within_pure _
      · exact within_fail _
    · exact within_pure _
  | ok i =>
    refine within_andThen (within_attempt (within_readOverrides env i md existingTags)) fun r => ?_
    cases r with
    | error err =>
      refine within_andThen (within_consumeNonRetryablePathErr env err) fun b => ?_
      cases b
      · exact within_fail _
      · exact within_pure _
    | ok overrides =>
      refine within_andThen (within_updateEmbedding env (hknown i rfl) fun embedText text vec he ht =>
        hv vec ⟨embedText, text, he, ht⟩) fun _ => ?_
      split_ifs
      · exact within_pure _
      · exact within_applyDiff P env i existingTags _

/-- A part that looks up the id of its file and goes on with what it found. -/
theorem within_attempt_lookupFileID {f : Except OpError ℕ → Op F α}
    (herr : ∀ e, Within S none (f (.error e))) (hok : ∀ i, Within S (some (path, i)) (f (.ok i))) :
    Within S none (do
      let r ← (attempt (lookupFileID path) : Op F (Except OpError ℕ))
      f r) := by
  intro h _
  rw [observe_andThen, observe_attempt]
  refine follows_andThen (follows_attempt (follows_lookupFileID (fun e h' => ?_) fun i h' hk => ?_))
  · exact herr e h' knows_none
  · exact (hok i h' hk).mono fun _ _ _ => knows_none

theorem within_lookupFileID {f : ℕ → Op F α} (hok : ∀ i, Within S (some (path, i)) (f i)) :
    Within S none (do
      let i ← lookupFileID path
      f i) := by
  intro h _
  rw [observe_andThen]
  refine follows_andThen (follows_lookupFileID (fun e h' => knows_none) fun i h' hk => ?_)
  exact (hok i h' hk).mono fun _ _ _ => knows_none

theorem within_processFile (hw : ∀ key value, Harvests P env path key value → S.writes path key (some value))
    (hv : ∀ vec, Embeds env path vec → S.computes path vec) :
    Within S none (processFile P env path) := by
  refine within_andThen (within_readTags (rowsKept_errorf rowsKept_readTags)) fun existingTags => ?_
  refine within_andThen (within_call (rowsKept_errorf rowsKept_readAllMeta)) fun existingMeta => ?_
  dsimp only
  split
  · exact within_pure _
  · rename_i md additional hharvest
    have hwrites : ∀ kv ∈ additional, S.writes path kv.1 (some (valueToString P kv.2)) := fun kv hkv =>
      hw _ _ (harvests_harvest hharvest hkv)
    refine within_attempt_lookupFileID (fun e => ?_) fun i => ?_
    · refine within_andThen (within_attempt (within_mergeAndPersistMeta P env (by simp [Except.isOk, Except.toBool])
        hwrites)) fun r => ?_
      cases r with
      | error err =>
        refine within_andThen (within_consumeNonRetryablePathErr env err) fun b => ?_
        cases b
        · exact within_fail _
        · exact within_pure _
      | ok md => exact within_evalAndApply (fun i h => by cases h) hv
    · refine within_andThen (within_attempt (within_mergeAndPersistMeta P env (fun _ => rfl) hwrites)) fun r => ?_
      cases r with
      | error err =>
        refine within_andThen (within_consumeNonRetryablePathErr env err) fun b => ?_
        cases b
        · exact within_fail _
        · exact within_pure _
      | ok md => exact within_evalAndApply (fun i h => by cases h; rfl) hv

theorem within_guarded {m : Op F Unit} (hm : Within S known m) : Within S known (do
    if ← preparePath env path then
      match ← (attempt m : Op F (Except OpError Unit)) with
      | .ok _ => return ()
      | .error err =>
        let _ ← consumeNonRetryablePathErr env path err
        return ()
    else return ()) := by
  refine within_andThen (within_preparePath env) fun b => ?_
  cases b
  · exact within_pure _
  · refine within_andThen (within_attempt hm) fun r => ?_
    cases r with
    | ok _ => exact within_pure _
    | error err =>
      exact within_andThen (within_consumeNonRetryablePathErr env err) fun _ => within_pure _

theorem within_ProcessFile (hw : ∀ key value, Harvests P env path key value → S.writes path key (some value))
    (hv : ∀ vec, Embeds env path vec → S.computes path vec) :
    Within S none (ProcessFile P env path) := within_guarded (within_processFile hw hv)

theorem within_handleAsyncResult {harvesterName : String} {asyncMeta : List (String × MetaValue F)}
    (hw : ∀ kv ∈ asyncMeta, S.writes path kv.1 (some (valueToString P kv.2)))
    (hv : ∀ vec, Embeds env path vec → S.computes path vec) :
    Within S none (handleAsyncResult P env path harvesterName asyncMeta) := by
  refine within_guarded (within_lookupFileID fun i => ?_)
  refine within_andThen (within_orElse (within_readTags rowsKept_readTags)) fun existingTags => ?_
  refine within_andThen (within_orElse (within_call rowsKept_readAllMeta)) fun existingMeta => ?_
  refine within_andThen (within_mergeAndPersistMeta P env (fun _ => rfl) hw) fun md => ?_
  refine within_andThen (within_readOverrides env i md existingTags) fun overrides => ?_
  dsimp only
  split_ifs
  · exact within_pure _
  · refine within_andThen (within_updateEmbedding env rfl fun embedText text vec he ht =>
      hv vec ⟨embedText, text, he, ht⟩) fun _ => ?_
    exact within_applyDiff P env i existingTags _

theorem within_sweepPersist {idErr : Except OpError ℕ} {additional : List (String × MetaValue F)}
    (hknown : ∀ i, idErr = .ok i → known = some (path, i))
    (hw : ∀ kv ∈ additional, S.writes path kv.1 (some (valueToString P kv.2))) :
    Within S known (sweepPersist P path idErr additional) := by
  refine within_each fun kv hkv => ?_
  split_ifs
  · exact within_pure _
  · refine within_andThen (within_orElse (within_call rowsKept_writeMeta)) fun _ => ?_
    cases idErr with
    | ok i => exact within_orElse (within_upsertFileMeta (hknown i rfl) (hw kv hkv))
    | error _ => exact within_pure _

theorem within_sweepFile (hw : ∀ key value, Harvests P env path key value → S.writes path key (some value)) :
    Within S none (sweepFile P env path) := by
  refine within_andThen (within_readTags rowsKept_readTags) fun existingTags => ?_
  refine within_andThen (within_call rowsKept_readAllMeta) fun existingMeta => ?_
  dsimp only
  have hwrites : ∀ kv ∈ (sweepHarvest env ⟨path, textOf (parseStoredMeta P existingMeta "mime"),
      parseStoredMeta P existingMeta⟩ (parseStoredMeta P existingMeta)).2,
      S.writes path kv.1 (some (valueToString P kv.2)) :=
    fun kv hkv => hw _ _ (harvests_sweepHarvest hkv)
  refine within_attempt_lookupFileID (fun e => ?_) fun i => ?_
  · refine within_andThen (within_sweepPersist (fun i h => by cases h) hwrites) fun _ => ?_
    exact within_fail _
  · refine within_andThen (within_sweepPersist (fun i h => by cases h; rfl) hwrites) fun _ => ?_
    refine within_andThen (within_readOverrides env i _ existingTags) fun overrides => ?_
    split_ifs
    · exact within_pure _
    · refine within_andThen (within_atom rowsKept_writeTags fun _ => trivial) fun _ => ?_
      refine within_andThen (within_updateSource P _) fun _ => ?_
      refine within_andThen (within_atom (rowsKept_onIndex keepsRows_setFileTags) fun _ => trivial) fun _ => ?_
      exact within_andThen (within_recordSources env i _) fun _ => within_pure _

/-! ### Synchronising and deleting -/

theorem within_needsHarvest (md : List (String × String)) (stat : FileStat) :
    Within S known (needsHarvest (F := F) path md stat) := by
  unfold needsHarvest
  split_ifs
  · exact within_pure _
  · refine within_andThen (within_attempt (within_call rowsKept_getFileStat)) fun r => ?_
    cases r <;> exact within_pure _

theorem ReadsMeta.later {h' : List (Moment F)} {md : List (String × String)} (hread : ReadsMeta h path md)
    (hgrows : h <+: h') : ReadsMeta h' path md := by
  obtain ⟨a, r, c, b, rfl, hr, hc⟩ := hread
  obtain ⟨rest, rfl⟩ := hgrows
  exact ⟨a, r, c, b ++ rest, by simp, hr, hc⟩

/-- What `ReadAllMeta` finds. -/
theorem wp_readAllMeta {w : World} : wp (readAllMeta path)
    (fun md _ => (w.files path).map File.metadata = some md) (fun _ _ => True) w := by
  refine wp_andThen (wp_stmt trivial (wp_andThen (wp_wrap (wp_stmt trivial ?_))))
  cases hf : w.files path with
  | none => trivial
  | some f =>
    refine wp_andThen ((wp_each (fun _ _ => True) (fun _ _ _ _ _ _ => ?_) trivial).mono (fun _ _ _ => ?_)
      fun _ _ h => h)
    · refine wp_andThen (wp_wrap (wp_stmt trivial ?_))
      split
      · exact wp_ret trivial
      · trivial
    · exact wp_ret (by simp)

theorem touches_syncFileApply {stat : FileStat} {tags : List String} {md sourceMap : List (String × String)}
    {now : ℤ} {format : String} {args : List String} (hread : ReadsMeta h path md) (c : Conn World) :
    Touches (F := F) S h
      ⟨c, .syncFileApply path stat tags now
        (State.errorf format args (onIndex (syncFileApply path stat tags md sourceMap now)) c).1,
        (State.errorf format args (onIndex (syncFileApply path stat tags md sourceMap now)) c).2.store⟩ := by
  have hwp : wp (State.errorf format args (onIndex (syncFileApply path stat tags md sourceMap now)))
      (fun i w' => Applied path stat tags md sourceMap now i c.store.db w'.db)
      (fun _ w' => w'.db = c.store.db) c.store := wp_wrap (wp_wrap (wp_zoom wp_syncFileApply))
  have hc := hwp c.faults
  revert hc
  rcases hrun : State.errorf format args (onIndex (syncFileApply path stat tags md sourceMap now)) c with
    ⟨_ | i, c'⟩ <;> intro hc
  · have hdb : c'.store.db = c.store.db := by simpa only [hrun] using hc
    show SameRows c.store.db c'.store.db
    rw [hdb]
    exact SameRows.refl _
  · exact ⟨md, sourceMap, hread, by simpa only [hrun] using hc⟩

theorem touches_deleteFile (c : Conn World) : Touches (F := F) S h
    ⟨c, .deleteFile path (onIndex (deleteFile path) c).1, (onIndex (deleteFile path) c).2.store⟩ := by
  have hrun : onIndex (deleteFile path) c = (((deleteFile path ⟨c.store.db, c.faults⟩).1).mapError .index,
      ⟨{ c.store with db := (deleteFile path ⟨c.store.db, c.faults⟩).2.store },
        (deleteFile path ⟨c.store.db, c.faults⟩).2.faults⟩) := by
    unfold onIndex Prog.wrap Prog.zoom
    cases (deleteFile path ⟨c.store.db, c.faults⟩).1 <;> rfl
  have hwp : wp (deleteFile path) (fun _ s' => Deleted (fun f => f.path = path) c.store.db s')
    (fun _ s' => s' = c.store.db) c.store.db := wp_deleteFile_rows
  have hc := hwp c.faults
  rw [hrun]
  rcases hdelete : deleteFile path ⟨c.store.db, c.faults⟩ with ⟨e | _, c'⟩ <;> rw [hdelete] at hc
  · exact hc ▸ SameRows.refl _
  · exact ⟨hc, fun hfs => purged_deleteFile hfs hdelete⟩

theorem touches_deleteStaleFiles {since : ℤ} (c : Conn World) : Touches (F := F) S h
    ⟨c, .deleteStaleFiles path since (onIndex (deleteStaleFiles path since) c).1,
      (onIndex (deleteStaleFiles path since) c).2.store⟩ := by
  have hwp : wp (onIndex (deleteStaleFiles path since))
      (fun _ w' => Deleted (stale path since) c.store.db w'.db ∧ Purged (stale path since) c.store.db w'.db)
      (fun _ w' => w'.db = c.store.db) c.store := wp_wrap (wp_zoom wp_deleteStaleFiles_rows)
  have hc := hwp c.faults
  revert hc
  rcases hrun : onIndex (deleteStaleFiles path since) c with ⟨_ | _, c'⟩ <;> intro hc
  · have hdb : c'.store.db = c.store.db := by simpa only [hrun] using hc
    show SameRows c.store.db c'.store.db
    rw [hdb]
    exact SameRows.refl _
  · show Deleted (stale path since) c.store.db c'.store.db ∧ Purged (stale path since) c.store.db c'.store.db
    simpa only [hrun] using hc

/-- A part that needs no id, in front of one that needs the history so far. -/
theorem follows_then {p : Op F α} {f : α → Op F β} {Q : Except OpError β → List (Moment F) → Prop}
    (hp : Within S none p) (herr : ∀ e h', Q (.error e) h')
    (hf : ∀ a h', h <+: h' → Follows (Protocol.ofHistory (Touches S)) (f a).observe Q h') :
    Follows (Protocol.ofHistory (Touches S)) (p >>= f).observe Q h := by
  rw [observe_andThen]
  refine follows_andThen ((hp h knows_none).grows.mono fun r h' hgrows => ?_)
  cases r with
  | ok a => exact hf a h' hgrows.2
  | error e => exact herr e h'

theorem within_syncFile (stat : FileStat) : Within S none (syncFile P env path stat) := by
  intro h _
  unfold syncFile
  rw [observe_andThen]
  refine follows_andThen (follows_observe_atom fun c₁ =>
    ⟨touches_same trivial ((rowsKept_errorf rowsKept_readTags).run c₁), ?_⟩)
  generalize hr₁ : ((State.errorf "read tags: %w" [] (readTags path)) c₁).1 = r₁
  cases r₁ with
  | error e => exact knows_none
  | ok tags =>
  dsimp only
  rw [observe_andThen]
  refine follows_andThen (follows_observe_atom fun c₂ =>
    ⟨touches_same trivial ((rowsKept_errorf rowsKept_readAllMeta).run c₂), ?_⟩)
  generalize hr₂ : ((State.errorf "read meta: %w" [] (readAllMeta path)) c₂).1 = r₂
  cases r₂ with
  | error e => exact knows_none
  | ok md =>
  have hwp : wp (State.errorf "read meta: %w" [] (readAllMeta path))
      (fun md _ => (c₂.store.files path).map File.metadata = some md) (fun _ _ => True) c₂.store :=
    wp_wrap wp_readAllMeta
  have hmd : (c₂.store.files path).map File.metadata = some md := hwp.ok (Prod.ext hr₂ rfl)
  refine follows_then (within_call (rowsKept_errorf (rowsKept_readSource P))) (fun _ _ => knows_none)
    fun sourceMap h₃ h₂₃ => ?_
  refine follows_then (within_needsHarvest md stat) (fun _ _ => knows_none) fun harvest h₄ h₃₄ => ?_
  have hread : ReadsMeta h₄ path md := ReadsMeta.later
    ⟨h, _, _, [], by rw [List.append_assoc]; rfl, ⟨_, rfl⟩, hmd⟩ (h₂₃.trans h₃₄)
  rw [observe_andThen]
  refine follows_andThen (follows_observe_atom fun c₅ => ⟨?_, ?_⟩)
  · exact touches_syncFileApply hread c₅
  · generalize ((State.errorf "apply file sync: %w" []
      (onIndex (syncFileApply path stat tags md sourceMap env.now))) c₅).1 = r₅
    cases r₅ <;> exact knows_none

theorem within_deleteFromIndex : Within S known (deleteFromIndex path : Op F Unit) :=
  within_orElse fun _ hk => follows_observe_atom fun c => ⟨touches_deleteFile c, hk.later⟩

theorem within_purge {since : ℤ} : Within S known (purge path since : Op F Unit) :=
  within_orElse fun _ hk => follows_observe_atom fun c => ⟨touches_deleteStaleFiles c, hk.later⟩

theorem within_changeFiles (change : FileChange) : Within S known (changeFiles change : Op F Unit) := by
  intro h hk c
  refine ⟨⟨rfl, rfl, touches_same trivial (SameRows.refl _)⟩, ?_⟩
  dsimp only
  split_ifs <;> exact hk.later

theorem within_syncAndProcess (hw : ∀ key value, Harvests P env path key value → S.writes path key (some value))
    (hv : ∀ vec, Embeds env path vec → S.computes path vec) :
    Within S none (syncAndProcess P env path) := by
  refine within_andThen (within_attempt (within_call rowsKept_get)) fun r => ?_
  cases r with
  | error e => exact within_pure _
  | ok stat => exact within_andThen (within_orElse (within_syncFile stat)) fun _ => within_ProcessFile hw hv

theorem within_handleFSEvent (ev : Event)
    (hw : ∀ key value, Harvests P env ev.path key value → S.writes ev.path key (some value))
    (hv : ∀ vec, Embeds env ev.path vec → S.computes ev.path vec) :
    Within S none (handleFSEvent P env ev) := by
  unfold handleFSEvent
  cases ev.kind with
  | create | modify =>
    exact within_andThen (within_call rowsKept_clearPathNonRetryable) fun _ => within_syncAndProcess hw hv
  | delete => exact within_deleteFromIndex
  | rename => exact within_andThen within_deleteFromIndex fun _ => within_syncAndProcess hw hv

/-! ### Requests -/

theorem within_modifyFileTags {tags : List String} {op : String} : Within S known
    (atom (.modifyFileTags path tags op) (onIndex (modifyFileTags path tags op)) : Op F Unit) :=
  within_atom (rowsKept_onIndex keepsRows_modifyFileTags) fun _ => trivial

theorem within_handleTagPath {op : String} {tags : List String} :
    Within S known (handleTagPath env op tags path) := by
  refine within_andThen (within_orElse within_listFileTags) fun oldTags => ?_
  refine within_andThen (within_orElse ?_) fun _ => ?_
  · exact within_andThen (within_orElse (within_readTags rowsKept_readTags)) fun existing =>
      within_atom rowsKept_writeTags fun _ => trivial
  refine within_andThen within_modifyFileTags fun _ => within_andThen ?_ fun _ => ?_
  · refine within_andThen (within_attempt within_listFileTags) fun r => ?_
    cases r with
    | error _ => exact within_pure _
    | ok updated => exact within_setGraphTags updated
  · split_ifs
    · exact within_modify fun _ => rfl
    · exact within_pure _

theorem within_handleTagPaths {op : String} {tags : List String} (paths : List String) (r : TagResponse) :
    Within S known (handleTagPaths env op tags paths r) := by
  induction paths generalizing r with
  | nil => exact within_pure r
  | cons p paths ih => exact within_andThen (within_attempt within_handleTagPath) fun result => ih _

theorem within_rename (d : TagDir) (name : String) (newParent : Option TagDir) :
    Within S known (rename (F := F) d name newParent) := by
  unfold rename
  split
  · exact within_pure _
  · exact within_pure _
  · split
    · exact within_pure _
    · split_ifs
      · exact within_pure _
      · split
        · refine within_andThen (within_andThen (within_each fun t _ => ?_) fun _ => within_each fun t _ => ?_)
            fun _ => within_pure _
          · exact within_orElse within_modifyFileTags
          · exact within_orElse within_modifyFileTags
        · exact within_pure _

/-- **Every operation** does to the rows what it may, whatever the others do in between. -/
theorem within_run (P : Platform F) (env : Env F) (o : Operation F) : Within (source P env o) none (o.run P env) := by
  have hw : ∀ path key value, Harvests P env path key value →
      (harvestSource P env path).writes path key (some value) := fun path key value hv => ⟨rfl, value, rfl, hv⟩
  have hv : ∀ path vec, Embeds env path vec → (harvestSource P env path).computes path vec :=
    fun path vec hv => ⟨rfl, hv⟩
  cases o with
  | handleTag operation paths tags =>
    refine within_andThen ?_ fun _ => within_pure _
    unfold handleTag
    split_ifs
    · exact within_pure _
    · exact within_andThen (within_handleTagPaths paths {}) fun r => within_pure _
  | handleFSEvent ev => exact within_handleFSEvent ev (hw ev.path) (hv ev.path)
  | processFile path => exact within_ProcessFile (hw path) (hv path)
  | handleAsyncResult path harvesterName asyncMeta =>
    exact within_handleAsyncResult (fun kv hkv => ⟨rfl, kv.2, hkv, rfl⟩) fun vec hvec => ⟨rfl, hvec⟩
  | sweepFile path => exact within_andThen (within_sweepFile (hw path)) fun _ => within_pure _
  | syncFile path stat => exact within_andThen (within_syncFile stat) fun _ => within_pure _
  | deleteStaleFiles basePath since => exact within_purge
  | rename d name newParent => exact within_andThen (within_rename d name newParent) fun _ => within_pure _
  | setxattr realPath data flags => exact within_atom rowsKept_set fun _ => trivial
  | removeByBrowser change path =>
    exact within_andThen (within_changeFiles change) fun _ => within_deleteFromIndex
  | external change => exact within_changeFiles change

end Operations

end Tilbo.Daemon.Moments
