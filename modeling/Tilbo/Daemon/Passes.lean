import Tilbo.Sync.Rebuild
import Tilbo.Index.RowSpec

/-! # One pass over a file

`processFile` twice in a row, with harvesters that depend on the path, the MIME type and the content of the file
alone, and with no failure from outside. The pipeline runs a second time only if no MIME type was stored, so a file
of another type than stored is harvested for the stored one. `onePass_iff` says what it takes for one pass to be
enough. -/

namespace Tilbo.Daemon.Passes

open Tilbo.Daemon.State Tilbo.Daemon.Calls Tilbo.Daemon.Processor Tilbo.Daemon.Operations Tilbo.Xattr.Service
open Tilbo.Sync.Rebuild Tilbo.Rules.Engine Tilbo.Harvester.Meta Tilbo.Lib.Pairs
open Tilbo.Index.Schema Tilbo.Index.Store Tilbo.Index.StoreSpec Tilbo.Index.StoreRuns
open Tilbo.Index.RowSpec Tilbo.Index.Entries
open Tilbo.Index.Statements Tilbo.Lib.Rows Tilbo.Lib.Txn Tilbo.Lib.Process Tilbo.Lib.Process.Proc

variable {F : Type} (P : Platform F) (env : Env F)

/-! ### The harvesters -/

/-- A synchronous harvester, as it is for one file: what it does depends on the MIME type. -/
structure Harvester (F : Type) where
  runsOn : String → Bool
  run : String → List (String × MetaValue F)

variable (hs : List (Harvester F)) (path : String) (w : World)

/-- What `Pipeline.Run` finds for a MIME type; the harvesters come in ascending priority. -/
def merged (mime : String) : List (String × MetaValue F) :=
  (hs.filter (·.runsOn mime)).foldl (fun m h => putAll m (h.run mime)) []

/-- The daemon with these harvesters. -/
def harvesting : Env F := { env with pipeline := fun input => (merged hs input.mime, none) }

/-- What a run finds that starts from a MIME type, in both phases. -/
def found (mime : String) : List (String × MetaValue F) :=
  let newMIME := textOf ((merged hs mime).lookup "mime")
  if mime ≠ "" ∨ newMIME = "" then merged hs mime else putAll (merged hs mime) (merged hs newMIME)

/-- The MIME type that the run detects, if any. -/
def detected (mime : String) : String := textOf ((found hs mime).lookup "mime")

/-! ### What one pass should do -/

/-- The world after `processFile`. -/
def pass (w : World) : World := (run (processFile P (harvesting env hs) path) ⟨w, []⟩).2.store

/-- Keys that are not persisted. -/
def isInternal (k : String) : Bool := k.toList.head? = some '_'

/-- The text of a metadata attribute. -/
def metaText (k : String) : Option String := (w.files path).bind (·.metadata.lookup k)

/-- The tags of the file, by its attribute. -/
def tagList : List String := (xattrTags w path).toOption.getD []

/-- The MIME type that a run starts from. -/
def storedMime (texts : String → Option String) : String := textOf ((texts "mime").map (parseMetaValue P))

/-- `processFile` gets beyond the two reads. -/
def Readable : Prop := (w.files path).isSome ∧ (xattrTags w path).isOk = true

/-- The values are in the attributes, and in the index if the file is. -/
def Persisted (l : List (String × MetaValue F)) (indexed : Prop) (w : World) : Prop :=
  ∀ k v, l.lookup k = some v → isInternal k = false →
    metaText path w k = some (valueToString P v) ∧ (indexed → MetaAt w.db path k (valueToString P v))

/-- The metadata and the tags of the file are as before. -/
structure Unchanged (w w' : World) : Prop where
  value : ∀ k, metaText path w' k = metaText path w k
  indexValue : ∀ k v, MetaAt w'.db path k v ↔ MetaAt w.db path k v
  tag : ∀ t, t ∈ tagList path w' ↔ t ∈ tagList path w
  indexTag : ∀ t, IndexTag w' path t ↔ IndexTag w path t

/-- One pass is enough: what the harvesters find for the MIME type that it detects is there afterwards, and another
pass changes nothing. -/
structure OnePass : Prop where
  complete : Readable path w → detected hs (storedMime P (metaText path w)) ≠ "" →
    Persisted P path (merged hs (detected hs (storedMime P (metaText path w))))
      ((w.db.fileId path).isSome = true) (pass P env hs path w)
  settled : Unchanged path (pass P env hs path w) (pass P env hs path (pass P env hs path w))

/-! ### When it does -/

/-- The text that a run which found `l` leaves under a key. -/
def textAfter (l : List (String × MetaValue F)) (k : String) : Option String :=
  if isInternal k then metaText path w k else ((l.lookup k).map (valueToString P)).or (metaText path w k)

/-- The value that a run which found `l` leaves in the index. -/
def indexAfter (l : List (String × MetaValue F)) (k t : String) : Prop :=
  match if isInternal k then none else l.lookup k with
  | some v => valueToString P v = t
  | none => MetaAt w.db path k t

/-- What the rules see of a file of which `l` was found. -/
def seen (l : List (String × MetaValue F)) (texts : String → Option String) : MetaMap F :=
  fun k => (l.lookup k).or ((texts k).map (parseMetaValue P))

/-- The tags that the rules add to the tags of the file. -/
def added (l : List (String × MetaValue F)) (texts : String → Option String) (tags : List String) (i : ℕ) :
    List String :=
  (eval env.rules env.order (seen P l texts) tags (tagOverridePairs w.db.toTables i)).added

/-- The tags of the attribute, once these are added to it. -/
def tagsAfter (tags new : List String) : List String := if new = [] then tags else Xattr.Csv.stored (tags ++ new)

/-- The tags in the index, once these are added to those of the attribute. -/
def indexTagsAfter (tags new : List String) (t : String) : Prop :=
  if new = [] then IndexTag w path t else t ∈ tags ++ new

/-- What the run finds. -/
def first : List (String × MetaValue F) := found hs (storedMime P (metaText path w))

/-- The texts of the attributes after the run. -/
def texts (k : String) : Option String := textAfter P path w (first P hs path w) k

/-- What the next run finds. -/
def second : List (String × MetaValue F) := found hs (storedMime P (texts P hs path w))

/-- The run has found these values, or they have been stored before and it has found no others. -/
def Covered (l : List (String × MetaValue F)) : Prop :=
  ∀ k v, l.lookup k = some v → isInternal k = false →
    match (first P hs path w).lookup k with
    | some u => valueToString P u = valueToString P v
    | none => metaText path w k = some (valueToString P v) ∧
        ((w.db.fileId path).isSome = true → MetaAt w.db path k (valueToString P v))

/-- The next run adds no tag, or none that makes a difference. -/
def TagsSettled (i : ℕ) : Prop :=
  let new := added P env w (first P hs path w) (metaText path w) (tagList path w) i
  let tags := tagsAfter (tagList path w) new
  let more := added P env w (second P hs path w) (texts P hs path w) tags i
  more = [] ∨ (∀ t, t ∈ tagsAfter tags more ↔ t ∈ tags) ∧
    ∀ t, t ∈ tags ++ more ↔ indexTagsAfter path w (tagList path w) new t

/-- One pass is enough, by what is found and stored. -/
structure Steady : Prop where
  complete : detected hs (storedMime P (metaText path w)) ≠ "" →
    Covered P hs path w (merged hs (detected hs (storedMime P (metaText path w))))
  again : Covered P hs path w (second P hs path w)
  tags : ∀ i, w.db.fileId path = some i → TagsSettled P env hs path w i

variable {P env hs path w} {w' : World} {l l' : List (String × MetaValue F)} {k t : String} {i : ℕ}

/-! ### What is found -/

theorem nodup_merged (mime : String) : ((merged hs mime).map Prod.fst).Nodup := by
  have h : ∀ (l : List (Harvester F)) (m : List (String × MetaValue F)), (m.map Prod.fst).Nodup →
      ((l.foldl (fun m h => putAll m (h.run mime)) m).map Prod.fst).Nodup := by
    intro l
    induction l with
    | nil => exact fun _ h => h
    | cons a l ih => exact fun m h => ih _ (nodup_keys_putAll h)
  exact h _ [] List.nodup_nil

theorem nodup_found (mime : String) : ((found hs mime).map Prod.fst).Nodup := by
  unfold found
  dsimp only
  split_ifs
  · exact nodup_merged mime
  · exact nodup_keys_putAll (nodup_merged mime)

/-- With every key once, copying looks up in the updates first. -/
theorem copy_apply (md : MetaMap F) (hl : (l.map Prod.fst).Nodup) (k : String) :
    md.copy l k = (l.lookup k).or (md k) := by
  induction l using List.reverseRecOn with
  | nil => rfl
  | append_singleton l p ih =>
    obtain ⟨k', v⟩ := p
    rw [List.map_append, List.nodup_append] at hl
    have hk : k' ∉ l.map Prod.fst := fun h => hl.2.2 k' h k' (by simp) rfl
    rw [MetaMap.copy, List.foldl_append, lookup_concat (lookup_eq_none hk)]
    show MetaMap.set (md.copy l) k' v k = _
    rw [MetaMap.set, ih hl.1]
    split_ifs <;> rfl

/-- The harvest of a run, and what the rules will see. -/
theorem harvest_eq (mime : String) (md : MetaMap F) : ∃ md',
    harvest (harvesting env hs) ⟨path, mime, md⟩ md = some (md', found hs mime) ∧
      ∀ k, md'.copy (found hs mime) k = ((found hs mime).lookup k).or (md k) := by
  unfold harvest runPipelinePhase found harvesting
  dsimp only [Option.bind_some]
  split_ifs with h
  · exact ⟨md, rfl, copy_apply md (nodup_merged mime)⟩
  · refine ⟨_, rfl, fun k => ?_⟩
    rw [copy_apply _ (nodup_keys_putAll (nodup_merged mime)), copy_apply md (nodup_merged mime),
      lookup_putAll (nodup_merged _)]
    cases (merged hs (textOf ((merged hs mime).lookup "mime"))).lookup k <;>
      cases (merged hs mime).lookup k <;> rfl

/-! ### Persisting -/

/-- The file at the path is replaced. -/
def withFile (path : String) (w : World) (f : File) : World :=
  { w with files := Function.update w.files path (some f) }

@[simp] theorem withFile_files {f : File} : (withFile path w f).files path = some f := Function.update_self ..

theorem runs_set {f f' : File} (g : File → Option File) (hf : w.files path = some f) (hg : g f = some f') :
    Runs (Xattr.Service.set path g) w (.ok ()) (withFile path w f') :=
  Runs.stmt (by simp only [hf, Option.bind_some, hg]; rfl)

theorem runs_writeMeta {f : File} (hf : w.files path = some f) (k v : String) :
    Runs (writeMeta path k v) w (.ok ()) (withFile path w { f with metadata := put f.metadata k v }) := by
  have hset := runs_set (fun f => some { f with metadata := put f.metadata k v }) hf rfl
  exact runs_ctxErr.andThen hset.wrap

theorem runs_upsertFileMeta {s : DB} {k v source : String} (hi : has FileRow.id s.files i = true) :
    ∃ s', Runs (upsertFileMeta i k v source) s (.ok ()) s' ∧ Keeps s s' ∧
      ∀ j l t, s'.HasMeta j l t ↔ if j = i ∧ l = k then v = t else s.HasMeta j l t := by
  have hne : upsertMeta s.toTables i k v source ≠ none := by
    rw [upsertMeta, if_pos hi]
    exact Option.some_ne_none _
  obtain ⟨U, hU, hrun⟩ := runs_execFk (h := fun _ _ h hU => Valid.upsertMeta h hU) hne
  have hrun : Runs (upsertFileMeta i k v source) s (.ok ()) ⟨U, _⟩ := runs_errorf hrun
  refine ⟨_, hrun, wp_upsertFileMeta.ok hrun, fun j l t => ?_⟩
  rw [(wp_upsertFileMeta_rows.ok hrun).hasMeta, Option.some.injEq]

theorem has_of_fileId {s : DB} (h : s.fileId path = some i) : has FileRow.id s.files i = true := by
  obtain ⟨r, hr, -, hid⟩ := s.valid.fileId_iff.mp h
  exact has_iff.mpr ⟨r, hr, hid⟩

/-- The run has persisted `l`, for a file with this id. -/
structure Persisting (P : Platform F) (path : String) (w : World) (l : List (String × MetaValue F)) (s : World) :
    Prop where
  file : ∃ f f', w.files path = some f ∧ s.files path = some f' ∧ f'.tags = f.tags
  text : ∀ k, metaText path s k = textAfter P path w l k
  keeps : Keeps w.db s.db
  value : (w.db.fileId path).isSome = true → ∀ k t, MetaAt s.db path k t ↔ indexAfter P path w l k t

theorem persisting_nil (h : (w.files path).isSome) : Persisting P path w [] w := by
  obtain ⟨f, hf⟩ := Option.isSome_iff_exists.mp h
  refine ⟨⟨f, f, hf, hf, rfl⟩, fun k => ?_, .refl _, fun _ k t => ?_⟩
  · simp [textAfter]
  · simp [indexAfter]

/-- One value more. -/
theorem runs_persist_step {kv : String × MetaValue F} {source : String} (h : Persisting P path w l w')
    (hk : kv.1 ∉ l.map Prod.fst) :
    ∃ s, Runs (run (if kv.1.toList.head? = some '_' then pure () else persistMetaValue (harvesting env hs) path
        ((w.db.fileId path).getD 0) (w.db.fileId path).isSome source kv.1 (valueToString P kv.2)))
      w' (.ok ()) s ∧ Persisting P path w (l ++ [kv]) s := by
  obtain ⟨k, v⟩ := kv
  obtain ⟨⟨f, f', hf, hf', htags⟩, htext, hkeeps, hvalue⟩ := h
  by_cases hin : k.toList.head? = some '_'
  · rw [if_pos hin]
    have hin : isInternal k = true := decide_eq_true hin
    refine ⟨w', Runs.ret, ⟨f, f', hf, hf', htags⟩, fun j => ?_, hkeeps, fun hid j t => ?_⟩
    · rw [htext, textAfter, textAfter]
      by_cases hj : isInternal j = true
      · rw [if_pos hj, if_pos hj]
      · rw [if_neg hj, if_neg hj, lookup_concat (lookup_eq_none hk), if_neg fun h => hj (by rw [h]; exact hin)]
    · rw [hvalue hid, indexAfter, indexAfter]
      by_cases hj : isInternal j = true
      · rw [if_pos hj, if_pos hj]
      · rw [if_neg hj, if_neg hj, lookup_concat (lookup_eq_none hk), if_neg fun h => hj (by rw [h]; exact hin)]
  · rw [if_neg hin]
    have hin : isInternal k = false := decide_eq_false hin
    have hwrite := runs_writeMeta hf' k (valueToString P v)
    have hstop : ∀ {m : Act Unit} {s s' : World}, Runs m s (.ok ()) s' →
        Runs (run (stopIfNonRetryable (harvesting env hs) (call m))) s (.ok ()) s' := fun hm => by
      rw [stopIfNonRetryable, run_andThen, run_attempt]
      exact hm.attempt.andThen Runs.ret
    have htext' : ∀ j, (put f'.metadata k (valueToString P v)).lookup j = textAfter P path w (l ++ [(k, v)]) j := by
      intro j
      rw [lookup_put, textAfter, lookup_concat (lookup_eq_none hk)]
      by_cases hj : j = k
      · rw [if_pos hj, if_pos hj, if_neg (by rw [hj, hin]; decide)]
        rfl
      · rw [if_neg hj, if_neg hj, ← textAfter, ← htext, metaText, hf']
        rfl
    rw [persistMetaValue, run_andThen]
    cases hid : w.db.fileId path with
    | none =>
      refine ⟨_, (hstop hwrite).andThen Runs.ret, ⟨f, _, hf, withFile_files, htags⟩, fun j => ?_, hkeeps,
        fun h => by rw [hid] at h; cases h⟩
      rw [← htext', metaText]
      simp
    | some i =>
      have hid' : w'.db.fileId path = some i := (hkeeps.fileId path).trans hid
      obtain ⟨s', hupsert, hkeeps', hvalue'⟩ := @runs_upsertFileMeta i w'.db k (valueToString P v) source
        (has_of_fileId hid')
      refine ⟨_, (hstop hwrite).andThen (hstop (runs_onIndex hupsert)), ⟨f, _, hf, withFile_files, htags⟩,
        fun j => ?_, hkeeps.trans hkeeps', fun _ j t => ?_⟩
      · rw [← htext', metaText]
        simp
      · have hold := hvalue (by rw [hid]; rfl) j t
        rw [metaAt_iff ((hkeeps'.fileId path).trans hid'), hvalue' i j t]
        rw [metaAt_iff hid'] at hold
        rw [hold, indexAfter, indexAfter, lookup_concat (lookup_eq_none hk)]
        by_cases hj : j = k
        · rw [if_pos ⟨rfl, hj⟩, if_pos hj, if_neg (by rw [hj, hin]; decide)]
        · rw [if_neg fun h => hj h.2, if_neg hj]

theorem runs_persist (h : (w.files path).isSome) (hl : (l.map Prod.fst).Nodup) (base : MetaMap F) (source : String) :
    ∃ s, Runs (run (mergeAndPersistMeta P (harvesting env hs) path ((w.db.fileId path).getD 0)
      (w.db.fileId path).isSome source base l)) w (.ok (base.copy l)) s ∧ Persisting P path w l s := by
  obtain ⟨s, hrun, hdone⟩ := Runs.each (l := l) (fun done s => Persisting P path w done s)
    (fun done kv rest s hsplit hs' => @runs_persist_step F P env hs path w s done kv source hs' fun hk => by
      rw [hsplit, List.map_append, List.nodup_append] at hl
      exact hl.2.2 _ hk _ (by simp) rfl)
    (persisting_nil h)
  refine ⟨s, ?_, hdone⟩
  rw [mergeAndPersistMeta, run_andThen, run_each]
  exact hrun.andThen Runs.ret

/-! ### What else a run does -/

/-- The tags and the metadata of the file are as before, and so are the overrides. -/
structure Aside (path : String) (s s' : World) : Prop where
  metadata : ∀ k, metaText path s' k = metaText path s k
  tags : (s'.files path).bind File.tags = (s.files path).bind File.tags
  file : (s'.files path).isSome = (s.files path).isSome
  keeps : Keeps s.db s'.db
  hasMeta : ∀ j k t, s'.db.HasMeta j k t ↔ s.db.HasMeta j k t

theorem Aside.refl (s : World) : Aside path s s :=
  ⟨fun _ => rfl, rfl, rfl, .refl _, fun _ _ _ => Iff.rfl⟩

theorem Aside.trans {s s' s'' : World} (h : Aside path s s') (h' : Aside path s' s'') : Aside path s s'' where
  metadata k := (h'.metadata k).trans (h.metadata k)
  tags := h'.tags.trans h.tags
  file := h'.file.trans h.file
  keeps := h.keeps.trans h'.keeps
  hasMeta j k t := (h'.hasMeta j k t).trans (h.hasMeta j k t)

/-- It goes on whatever happens, and does nothing to the tags and the metadata of the file. -/
def GoesAside {α : Type} (path : String) (m : Act α) : Prop := ∀ s, ∃ r s', Runs m s r s' ∧ Aside path s s'

theorem goesAside_andThen {α β : Type} {m : Act α} {k : α → Act β} (hm : GoesAside path m)
    (hk : ∀ a, GoesAside path (k a)) : GoesAside path (m >>= k) := fun s => by
  obtain ⟨r, s', hrun, h⟩ := hm s
  cases r with
  | error e => exact ⟨_, s', hrun.andThen_error, h⟩
  | ok a =>
    obtain ⟨r', s'', hrun', h'⟩ := hk a s'
    exact ⟨r', s'', hrun.andThen hrun', h.trans h'⟩

/-- Besides, it does not fail. -/
def GoesOn {α : Type} (path : String) (m : Act α) : Prop := ∀ s, ∃ a s', Runs m s (.ok a) s' ∧ Aside path s s'

theorem goesOn_pure {α : Type} (a : α) : GoesOn path (pure a : Act α) := fun s => ⟨a, s, Runs.ret, .refl s⟩

theorem goesOn_andThen {α β : Type} {m : Act α} {k : α → Act β} (hm : GoesOn path m)
    (hk : ∀ a, GoesOn path (k a)) : GoesOn path (m >>= k) := fun s => by
  obtain ⟨a, s', hrun, h⟩ := hm s
  obtain ⟨b, s'', hrun', h'⟩ := hk a s'
  exact ⟨b, s'', hrun.andThen hrun', h.trans h'⟩

theorem goesOn_attempt {α : Type} {m : Act α} (hm : GoesAside path m) :
    GoesOn path (Prog.attempt m : Act (Except OpError α)) := fun s => by
  obtain ⟨r, s', hrun, h⟩ := hm s
  exact ⟨r, s', hrun.attempt, h⟩

theorem goesOn_each {β : Type} {f : β → Act Unit} (hf : ∀ b, GoesOn path (f b)) (l : List β) :
    GoesOn path (Prog.each f l) := by
  induction l with
  | nil => exact goesOn_pure ()
  | cons b l ih => exact goesOn_andThen (hf b) fun _ => ih

/-- A method of the index that keeps the tags and the metadata. -/
theorem goesAside_onIndex {α : Type} {m : Sql α}
    (hm : ∀ s, ∃ r s', Runs m s r s' ∧ Keeps s s' ∧ s'.metadata = s.metadata) :
    GoesAside path (onIndex m) := fun s => by
  obtain ⟨r, db, hrun, hkeeps, hmetadata⟩ := hm s.db
  refine ⟨_, _, Runs.wrap (Runs.zoom hrun), fun _ => rfl, rfl, rfl, hkeeps, fun j k t => ?_⟩
  unfold Tables.HasMeta
  rw [hmetadata]

theorem runs_upsertEmbedding (vec : List UInt32) (s : DB) :
    ∃ r s', Runs (upsertEmbedding i vec) s r s' ∧ Keeps s s' ∧ s'.metadata = s.metadata := by
  have h : Undisturbed (upsertEmbedding i vec) := by
    unfold upsertEmbedding
    split_ifs
    · exact undisturbed_fail
    · exact (((undisturbed_stmt _ _).wrap).andThen fun _ => (undisturbed_stmt _ _).wrap).atomically
  obtain ⟨r, s', hrun⟩ := h s
  exact ⟨r, s', hrun, hrun.post (wp_upsertEmbedding.mono (fun _ _ h => h) fun _ _ h => h ▸ .refl s),
    hrun.post (Q := fun s' => s'.metadata = s.metadata)
      (wp_upsertEmbedding_rows.mono (fun _ _ h => h.metadata) fun _ _ h => h ▸ rfl)⟩

theorem runs_upsertTag (name : String) (s : DB) :
    ∃ r s', Runs (upsertTag name) s r s' ∧ Keeps s s' ∧ s'.metadata = s.metadata := by
  have h : Undisturbed (upsertTag name) := (undisturbed_stmt _ _).wrap
  obtain ⟨r, s', hrun⟩ := h s
  exact ⟨r, s', hrun, hrun.post (wp_upsertTag (fun _ _ h _ => h.keeps) fun _ => .refl s),
    hrun.post (Q := fun s' => s'.metadata = s.metadata)
      (wp_upsertTag (fun _ _ h _ => h.metadata) fun _ => rfl)⟩

theorem runs_setProvenance (tagId : ℕ) (source : String) (now : ℤ) (s : DB) :
    ∃ r s', Runs (setProvenance i tagId source now) s r s' ∧ Keeps s s' ∧ s'.metadata = s.metadata := by
  have h : Undisturbed (setProvenance i tagId source now) := (undisturbed_stmt _ _).wrap
  obtain ⟨r, s', hrun⟩ := h s
  exact ⟨r, s', hrun, hrun.post (wp_setProvenance.mono (fun _ _ h => h) fun _ _ h => h ▸ .refl s),
    hrun.post (Q := fun s' => s'.metadata = s.metadata)
      ((keepsRows_setProvenance s).mono (fun _ _ h => h.metadata) fun _ _ h => h.metadata)⟩

theorem goesOn_orElse {α : Type} {a : α} {m : Act α} (hm : GoesAside path m) :
    GoesOn path (run (orElse a (call m) : Op F α)) := by
  rw [orElse, run_andThen, run_attempt]
  refine goesOn_andThen (goesOn_attempt hm) fun r => ?_
  cases r <;> exact goesOn_pure _

theorem goesOn_updateEmbedding (tags : List String) (md : MetaMap F) :
    GoesOn path (run (updateEmbedding env path i tags md)) := by
  unfold updateEmbedding
  split
  · exact goesOn_pure _
  · dsimp only
    split
    · exact goesOn_pure _
    · rw [run_andThen, run_attempt]
      refine goesOn_andThen (goesOn_attempt (goesAside_onIndex (runs_upsertEmbedding _))) fun r => ?_
      cases r with
      | error e => exact goesOn_pure _
      | ok u => exact fun s => ⟨_, _, rfl, fun _ => rfl, rfl, rfl, .refl _, fun _ _ _ => Iff.rfl⟩

theorem goesOn_recordSources (sources : List (String × String)) :
    GoesOn path (run (recordSources env i sources)) := by
  rw [recordSources, run_each]
  refine goesOn_each (fun ts => ?_) sources
  rw [run_andThen, run_attempt]
  refine goesOn_andThen (goesOn_attempt (goesAside_onIndex (runs_upsertTag _))) fun r => ?_
  cases r with
  | error e => exact goesOn_pure _
  | ok t => exact goesOn_orElse (goesAside_onIndex (runs_setProvenance t _ _))

theorem goesOn_updateSource (sources : List (String × String)) :
    GoesOn path (run (updateSource P path sources : Op F Unit)) := by
  rw [updateSource, run_andThen]
  refine goesOn_andThen (goesOn_orElse fun s => ⟨_, s, runs_readSource P s path, .refl s⟩) fun sourceMap => ?_
  refine goesOn_orElse (goesAside_andThen (fun s => ⟨_, s, runs_ctxErr, .refl s⟩) fun _ => fun s => ?_)
  cases hf : s.files path with
  | none => exact ⟨_, s, (Runs.stmt_error (by simp only [hf]; rfl)).wrap, .refl s⟩
  | some f =>
    have hset := runs_set (fun f => some { f with source := some (P.marshal (putAll sourceMap sources)) }) hf rfl
    refine ⟨_, _, hset.wrap, fun k => ?_, ?_, ?_, .refl _, fun _ _ _ => Iff.rfl⟩
    all_goals simp [metaText, hf]

/-! ### Writing the tags -/

theorem runs_setFileTags {s : DB} (names : List String) (hi : has FileRow.id s.files i = true) :
    ∃ s', Runs (setFileTags i names) s (.ok ()) s' ∧ Frame (· = i) s s' ∧ ∀ n, s'.Tagged i n ↔ n ∈ names := by
  obtain ⟨s', hrun, -⟩ := runs_replaceFileTagsTx names "SetFileTags" hi
  have hrun : Runs (setFileTags i names) s (.ok ()) s' := hrun.atomically
  exact ⟨s', hrun, wp_setFileTags.ok hrun⟩

/-- The tags of the file have been replaced in both stores. -/
structure Retagged (path : String) (i : ℕ) (tags : List String) (w w' : World) : Prop where
  metadata : ∀ k, metaText path w' k = metaText path w k
  attr : (w'.files path).bind File.tags = some (Xattr.Csv.formatTags tags)
  file : (w'.files path).isSome = true
  files : w'.db.files = w.db.files
  overridden : ∀ j n r, w'.db.Overridden j n r ↔ w.db.Overridden j n r
  hasMeta : ∀ j k t, w'.db.HasMeta j k t ↔ w.db.HasMeta j k t
  tagged : ∀ n, w'.db.Tagged i n ↔ n ∈ tags

theorem Retagged.aside {tags : List String} {w'' : World} (h : Retagged path i tags w w') (h' : Aside path w' w'') :
    Retagged path i tags w w'' where
  metadata k := (h'.metadata k).trans (h.metadata k)
  attr := h'.tags.trans h.attr
  file := h'.file.trans h.file
  files := h'.keeps.files.trans h.files
  overridden j n r := (h'.keeps.overridden j n r).trans (h.overridden j n r)
  hasMeta j k t := (h'.hasMeta j k t).trans (h.hasMeta j k t)
  tagged n := (h'.keeps.tagged i n).trans (h.tagged n)

theorem runs_applyDiff (hi : w.db.fileId path = some i) (hfile : (w.files path).isSome) (existing : List String)
    (diff : TagDiff) : ∃ w', Runs (run (applyDiff P env path i existing diff)) w (.ok ()) w' ∧
      Retagged path i (existing ++ diff.added) w w' := by
  obtain ⟨f, hf⟩ := Option.isSome_iff_exists.mp hfile
  have hset := runs_set (fun f => some { f with tags := some (Xattr.Csv.formatTags (existing ++ diff.added)) }) hf rfl
  let wrote : World := withFile path w { f with tags := some (Xattr.Csv.formatTags (existing ++ diff.added)) }
  obtain ⟨u, w₁, hsource, hw₁⟩ := @goesOn_updateSource F P path diff.sources wrote
  obtain ⟨db, htags, hframe, htagged⟩ := runs_setFileTags (s := w₁.db) (existing ++ diff.added)
    (has_of_fileId ((hw₁.keeps.fileId path).trans hi))
  let set : World := { w₁ with db := db, graph := Graph.Edges.setFileTags w₁.graph path (existing ++ diff.added) }
  obtain ⟨v, w₂, hrecord, hw₂⟩ := @goesOn_recordSources F env path i diff.sources set
  have hset' : Retagged path i (existing ++ diff.added) w set := {
    metadata := fun k => (hw₁.metadata k).trans (by simp [metaText, wrote, hf])
    attr := hw₁.tags.trans (by simp [wrote])
    file := hw₁.file.trans (by simp [wrote])
    files := hframe.files.trans hw₁.keeps.files
    overridden := fun j n r => (hframe.overridden j n r).trans (hw₁.keeps.overridden j n r)
    hasMeta := fun j k t =>
      (by unfold Tables.HasMeta; rw [hframe.metadata] : db.HasMeta j k t ↔ w₁.db.HasMeta j k t).trans
      (hw₁.hasMeta j k t)
    tagged := htagged }
  refine ⟨{ w₂ with fileTagged := w₂.fileTagged ++ [⟨path, diff.added, []⟩] }, ?_,
    hset'.aside (hw₂.trans ⟨fun _ => rfl, rfl, rfl, .refl _, fun _ _ _ => Iff.rfl⟩)⟩
  have hwrite : Runs (writeTags path (existing ++ diff.added)) w (.ok ()) wrote := runs_ctxErr.andThen hset.wrap
  unfold applyDiff setGraphTags
  simp only [run_andThen, run_atom, State.call]
  refine hwrite.wrap.andThen (hsource.andThen ((runs_onIndex htags).wrap.andThen ?_))
  have hgraph : Runs (onGraph (Graph.Edges.setFileTags · path (existing ++ diff.added))) { w₁ with db := db } (.ok ())
    set := rfl
  exact hgraph.andThen (hrecord.andThen rfl)

/-! ### A run -/

/-- What a run leaves. -/
structure Passed (P : Platform F) (env : Env F) (hs : List (Harvester F)) (path : String) (w w' : World) : Prop where
  file : (w'.files path).isSome = true
  text : ∀ k, metaText path w' k = texts P hs path w k
  files : w'.db.files = w.db.files
  overridden : ∀ j n r, w'.db.Overridden j n r ↔ w.db.Overridden j n r
  value : (w.db.fileId path).isSome = true → ∀ k t,
    MetaAt w'.db path k t ↔ indexAfter P path w (first P hs path w) k t
  tags : w.db.fileId path = none → xattrTags w' path = xattrTags w path
  tagsAdded : ∀ i, w.db.fileId path = some i → xattrTags w' path = .ok (tagsAfter (tagList path w)
    (added P env w (first P hs path w) (metaText path w) (tagList path w) i))
  indexTag : ∀ i, w.db.fileId path = some i → ∀ t, IndexTag w' path t ↔ indexTagsAfter path w (tagList path w)
    (added P env w (first P hs path w) (metaText path w) (tagList path w) i) t

theorem xattrTags_congr (h : (w'.files path).bind File.tags = (w.files path).bind File.tags) :
    xattrTags w' path = xattrTags w path := by
  rw [xattrTags, xattrTags, h]

theorem Persisting.tags {s : World} (h : Persisting P path w l s) :
    (s.files path).bind File.tags = (w.files path).bind File.tags := by
  obtain ⟨f, f', hf, hf', htags⟩ := h.file
  rw [hf, hf', Option.bind_some, Option.bind_some, htags]

theorem Persisting.isSome {s : World} (h : Persisting P path w l s) : (s.files path).isSome = true := by
  obtain ⟨f, f', -, hf', -⟩ := h.file
  rw [hf']
  rfl

/-- The part after the metadata is persisted, for a file that is not in the index. -/
theorem runs_eval_missing {s : World} {err : OpError} (hno : isNoRows err = true) (tags : List String)
    (md : MetaMap F) :
    ∃ s', Runs (run (evalAndApply P env path (.error err) tags md)) s (.ok ()) s' ∧
      s'.files = s.files ∧ s'.db = s.db := by
  unfold evalAndApply consumeNonRetryablePathErr
  simp only [run_andThen]
  by_cases herr : env.isNonRetryable err = true
  · rw [if_pos herr]
    have hmark : Runs (markPathNonRetryable path) s (.ok ())
      (if path = "" then s else { s with nonRetryablePaths := Function.update s.nonRetryablePaths path true }) := rfl
    refine ⟨_, (hmark.andThen (k := fun _ => pure true) Runs.ret).andThen Runs.ret, ?_, ?_⟩ <;> split_ifs <;> rfl
  · rw [if_neg herr]
    refine ⟨s, Runs.andThen (a := false) Runs.ret ?_, rfl, rfl⟩
    rw [if_neg Bool.false_ne_true, if_pos hno]
    exact Runs.ret

/-- The same for a file in the index: the rules are evaluated, and their tags are written. -/
theorem runs_eval_indexed {s : World} (hi : s.db.fileId path = some i) (hfile : (s.files path).isSome)
    (tags : List String) (md : MetaMap F) :
    ∃ s', Runs (run (evalAndApply P env path (.ok i) tags md)) s (.ok ()) s' ∧
      if (eval env.rules env.order md tags (tagOverridePairs s.db.toTables i)).added = [] then Aside path s s'
      else
        Retagged path i (tags ++ (eval env.rules env.order md tags (tagOverridePairs s.db.toTables i)).added) s s' := by
  have hread : Runs (onIndex (getTagOverrides i)) s (.ok (tagOverridePairs s.db.toTables i)) s :=
    runs_onIndex (runs_errorf (Runs.stmt rfl))
  obtain ⟨u, s₁, hembed, hs₁⟩ := @goesOn_updateEmbedding F env path i tags md s
  unfold evalAndApply readOverrides
  simp only [run_andThen, run_attempt, run_atom]
  by_cases hadded : (eval env.rules env.order md tags (tagOverridePairs s.db.toTables i)).added = []
  · refine ⟨s₁, hread.attempt.andThen ?_, ?_⟩
    · simp only [run_andThen]
      refine hembed.andThen ?_
      rw [if_pos hadded]
      exact Runs.ret
    · rw [if_pos hadded]
      exact hs₁
  · obtain ⟨s₂, happly, hs₂⟩ := @runs_applyDiff F P env path s₁ i ((hs₁.keeps.fileId path).trans hi)
      (hs₁.file.trans hfile) tags (eval env.rules env.order md tags (tagOverridePairs s.db.toTables i))
    refine ⟨s₂, hread.attempt.andThen ?_, ?_⟩
    · simp only [run_andThen]
      refine hembed.andThen ?_
      rw [if_neg hadded]
      exact happly
    · rw [if_neg hadded]
      exact { hs₂ with
        metadata := fun k => (hs₂.metadata k).trans (hs₁.metadata k)
        files := hs₂.files.trans hs₁.keeps.files
        overridden := fun j n r => (hs₂.overridden j n r).trans (hs₁.keeps.overridden j n r)
        hasMeta := fun j k t => (hs₂.hasMeta j k t).trans (hs₁.hasMeta j k t) }

/-- The error of `GetFileIDByPath` for a path that is not in the index. -/
def notIndexed (path : String) : OpError := .index (.wrapped "index: get file id for %q: %w" [path] .noRows)

theorem runs_missing (hid : w.db.fileId path = none) :
    Runs (onIndex (getFileIDByPath path)) w (.error (notIndexed path)) w := by
  have hquery : Runs (queryRow fun T => T.fileId path) w.db (.error .noRows) w.db := runs_queryRow_none hid
  exact hquery.wrap.zoom.wrap

theorem overrides_congr {s s' : DB} (h : ∀ j n r, s'.Overridden j n r ↔ s.Overridden j n r) (p : String × String) :
    p ∈ tagOverridePairs s'.toTables i ↔ p ∈ tagOverridePairs s.toTables i := by
  rw [mem_tagOverridePairs, mem_tagOverridePairs]
  exact h i p.1 p.2

theorem passed_indexed {s : World} (hid : w.db.fileId path = some i) (htags : xattrTags w path = .ok (tagList path w))
    (hs' : Persisting P path w (first P hs path w) s)
    (hw' : if (eval env.rules env.order (seen P (first P hs path w) (metaText path w)) (tagList path w)
        (tagOverridePairs s.db.toTables i)).added = [] then Aside path s w'
      else Retagged path i (tagList path w ++ (eval env.rules env.order (seen P (first P hs path w) (metaText path w))
        (tagList path w) (tagOverridePairs s.db.toTables i)).added) s w') :
    Passed P env hs path w w' := by
  have hid' : s.db.fileId path = some i := (hs'.keeps.fileId path).trans hid
  rw [eval_congr (overrides_congr hs'.keeps.overridden)] at hw'
  change if added P env w (first P hs path w) (metaText path w) (tagList path w) i = [] then _ else Retagged path i
    (_ ++ added P env w (first P hs path w) (metaText path w) (tagList path w) i) s w' at hw'
  have hvalue : ∀ k t, s.db.HasMeta i k t ↔ indexAfter P path w (first P hs path w) k t := fun k t =>
    (metaAt_iff hid').symm.trans (hs'.value (by rw [hid]; rfl) k t)
  split_ifs at hw' with hadded
  · have hid'' : w'.db.fileId path = some i := (hw'.keeps.fileId path).trans hid'
    exact {
      file := hw'.file.trans hs'.isSome
      text := fun k => (hw'.metadata k).trans (hs'.text k)
      files := hw'.keeps.files.trans hs'.keeps.files
      overridden := fun j n r => (hw'.keeps.overridden j n r).trans (hs'.keeps.overridden j n r)
      value := fun _ k t => by rw [metaAt_iff hid'', hw'.hasMeta, hvalue]
      tags := fun h => by rw [hid] at h; cases h
      tagsAdded := fun j hj => by
        cases hid.symm.trans hj
        rw [tagsAfter, if_pos hadded, xattrTags_congr (hw'.tags.trans hs'.tags), htags]
      indexTag := fun j hj t => by
        cases hid.symm.trans hj
        rw [indexTagsAfter, if_pos hadded]
        exact (tagAt_iff hid'').trans
          ((hw'.keeps.tagged i t).trans ((hs'.keeps.tagged i t).trans (tagAt_iff hid).symm)) }
  · have hid'' : w'.db.fileId path = some i := by
      simp only [Tables.fileId, hw'.files]
      exact hid'
    exact {
      file := hw'.file
      text := fun k => (hw'.metadata k).trans (hs'.text k)
      files := hw'.files.trans hs'.keeps.files
      overridden := fun j n r => (hw'.overridden j n r).trans (hs'.keeps.overridden j n r)
      value := fun _ k t => by rw [metaAt_iff hid'', hw'.hasMeta, hvalue]
      tags := fun h => by rw [hid] at h; cases h
      tagsAdded := fun j hj => by
        cases hid.symm.trans hj
        rw [tagsAfter, if_neg hadded, xattrTags, hw'.attr]
        exact Xattr.Csv.parseTags_formatTags _
      indexTag := fun j hj t => by
        cases hid.symm.trans hj
        rw [indexTagsAfter, if_neg hadded]
        exact (tagAt_iff hid'').trans (hw'.tagged t) }

/-- **A run over a file that can be read.** -/
theorem passed (h : Readable path w) : Passed P env hs path w (pass P env hs path w) := by
  obtain ⟨hfile, hok⟩ := h
  obtain ⟨f, hf⟩ := Option.isSome_iff_exists.mp hfile
  have htags : xattrTags w path = .ok (tagList path w) := by
    unfold tagList
    cases ht : xattrTags w path with
    | error e => rw [ht] at hok; cases hok
    | ok tags => rfl
  have hread : Runs (readTags path) w (.ok (tagList path w)) w := by simpa [htags] using runs_readTags w path
  obtain ⟨md, hharvest, hmd⟩ :=
    @harvest_eq F env hs path (storedMime P (metaText path w)) (parseStoredMeta P f.metadata)
  obtain ⟨s, hpersist, hs'⟩ := @runs_persist F P env hs path w (first P hs path w) hfile
    (nodup_found (storedMime P (metaText path w))) md "harvester"
  have hmime : textOf (parseStoredMeta P f.metadata "mime") = storedMime P (metaText path w) := by
    rw [storedMime, metaText, hf]
    rfl
  have hseen : md.copy (first P hs path w) = seen P (first P hs path w) (metaText path w) := by
    funext k
    rw [first, hmd, seen, metaText, hf]
    rfl
  suffices hrun : ∃ w', Runs (run (processFile P (harvesting env hs) path)) w (.ok ()) w' ∧ Passed P env hs path w w' by
    obtain ⟨w', hrun, hpassed⟩ := hrun
    rw [pass, hrun]
    exact hpassed
  have hreads : ∀ {r : Except OpError ℕ} {w' : World}, Runs (onIndex (getFileIDByPath path)) w r w →
      r.toOption.getD 0 = (w.db.fileId path).getD 0 → r.isOk = (w.db.fileId path).isSome →
      Runs (run (evalAndApply P (harvesting env hs) path r (tagList path w)
        (seen P (first P hs path w) (metaText path w)))) s (.ok ()) w' →
      Runs (run (processFile P (harvesting env hs) path)) w (.ok ()) w' := by
    intro r w' hlookup hid hok heval
    unfold processFile lookupFileID
    simp only [run_andThen, run_atom, State.call]
    refine hread.wrap.andThen ((runs_readAllMeta hf).wrap.andThen ?_)
    rw [hmime, hharvest]
    simp only [run_andThen, run_attempt, run_atom]
    refine hlookup.attempt.andThen ?_
    rw [hid, hok]
    refine hpersist.attempt.andThen ?_
    dsimp only
    rw [hseen]
    exact heval
  cases hid : w.db.fileId path with
  | none =>
    obtain ⟨w', heval, hfiles, hdb⟩ := @runs_eval_missing F P (harvesting env hs) path s (notIndexed path) rfl
      (tagList path w)
      (seen P (first P hs path w) (metaText path w))
    have htags' : xattrTags w' path = xattrTags w path := xattrTags_congr (by rw [hfiles, hs'.tags])
    refine ⟨w', hreads (runs_missing hid) (by rw [hid]; rfl) (by rw [hid]; rfl) heval, ?_⟩
    exact {
      file := by rw [hfiles]; exact hs'.isSome
      text := fun k => by rw [metaText, hfiles]; exact hs'.text k
      files := by rw [hdb]; exact hs'.keeps.files
      overridden := fun j n r => by rw [hdb]; exact hs'.keeps.overridden j n r
      value := fun h => by rw [hid] at h; cases h
      tags := fun _ => htags'
      tagsAdded := fun i hi => by rw [hid] at hi; cases hi
      indexTag := fun i hi => by rw [hid] at hi; cases hi }
  | some i =>
    obtain ⟨w', heval, hw'⟩ := @runs_eval_indexed F P (harvesting env hs) path i s ((hs'.keeps.fileId path).trans hid)
      hs'.isSome (tagList path w) (seen P (first P hs path w) (metaText path w))
    refine ⟨w', hreads (runs_onIndex (runs_errorf (runs_queryRow hid))) (by rw [hid]; rfl) (by rw [hid]; rfl) heval, ?_⟩
    exact passed_indexed hid htags hs' hw'

/-- A file that cannot be read stays as it is. -/
theorem pass_unreadable (h : ¬ Readable path w) : pass P env hs path w = w := by
  have hread := runs_readTags w path
  have hrun : ∃ e, Runs (run (processFile P (harvesting env hs) path)) w (.error e) w := by
    unfold processFile
    simp only [run_andThen, run_atom, State.call]
    cases htags : xattrTags w path with
    | error e =>
      rw [htags] at hread
      exact ⟨_, hread.wrap.andThen_error⟩
    | ok tags =>
      rw [htags] at hread
      cases hf : w.files path with
      | some f => exact absurd ⟨by rw [hf]; rfl, by rw [htags]; rfl⟩ h
      | none =>
        obtain ⟨e, hmeta⟩ := runs_readAllMeta_none hf
        exact ⟨_, hread.wrap.andThen hmeta.wrap.andThen_error⟩
  obtain ⟨e, hrun⟩ := hrun
  rw [pass, hrun]

/-! ### The next run -/

theorem metaAt_unique {s : DB} {t' : String} (h : MetaAt s path k t) (h' : MetaAt s path k t') : t = t' := by
  obtain ⟨i, hi, r, hr, hri, hrk, hrt⟩ := h
  obtain ⟨j, hj, r', hr', hrj, hrk', hrt'⟩ := h'
  have hij : i = j := Option.some.inj (hi.symm.trans hj)
  have hrow : r = r' := s.valid.metaKey.eq_of_mem hr hr' (by rw [hri, hrj, hij, hrk, hrk'])
  rw [← hrt, ← hrt', hrow]

theorem Passed.fileId (h : Passed P env hs path w w') : w'.db.fileId path = w.db.fileId path := by
  simp only [Tables.fileId, h.files]

theorem Passed.readable (h : Passed P env hs path w w') (hw : Readable path w) : Readable path w' := by
  refine ⟨h.file, ?_⟩
  cases hid : w.db.fileId path with
  | none => rw [h.tags hid]; exact hw.2
  | some i => rw [h.tagsAdded i hid]; rfl

theorem Passed.first_eq (h : Passed P env hs path w w') : first P hs path w' = second P hs path w := by
  rw [first, second, show metaText path w' = texts P hs path w from funext h.text]

/-- What is there after a run. -/
theorem Passed.persisted_iff (h : Passed P env hs path w w') :
    Persisted P path l ((w.db.fileId path).isSome = true) w' ↔ Covered P hs path w l := by
  have key : ∀ k v, isInternal k = false →
      ((metaText path w' k = some (valueToString P v) ∧
          ((w.db.fileId path).isSome = true → MetaAt w'.db path k (valueToString P v))) ↔
        match (first P hs path w).lookup k with
        | some u => valueToString P u = valueToString P v
        | none => metaText path w k = some (valueToString P v) ∧
            ((w.db.fileId path).isSome = true → MetaAt w.db path k (valueToString P v))) := by
    intro k v hin
    have hvalue : (w.db.fileId path).isSome = true → (MetaAt w'.db path k (valueToString P v) ↔
        indexAfter P path w (first P hs path w) k (valueToString P v)) := fun hid => h.value hid k _
    rw [h.text, texts, textAfter, if_neg (ne_true_of_eq_false hin)]
    rw [forall_congr' hvalue, indexAfter, if_neg (ne_true_of_eq_false hin)]
    cases (first P hs path w).lookup k with
    | none => rfl
    | some u => exact ⟨fun hu => Option.some.inj hu.1, fun hu => ⟨congrArg some hu, fun _ => hu⟩⟩
  exact forall_congr' fun k => forall_congr' fun v => forall_congr' fun _ => forall_congr' fun hin => key k v hin

/-- The metadata stays as it is just if what is found is there. -/
theorem Passed.unchanged_values_iff (h : Passed P env hs path w w') :
    ((∀ k, metaText path w' k = metaText path w k) ∧ ∀ k t, MetaAt w'.db path k t ↔ MetaAt w.db path k t) ↔
      Persisted P path (first P hs path w) ((w.db.fileId path).isSome = true) w := by
  constructor
  · rintro ⟨htext, hvalue⟩ k v hv hin
    rw [← htext, h.text, texts, textAfter, if_neg (ne_true_of_eq_false hin), hv]
    refine ⟨rfl, fun hid => ?_⟩
    rw [← hvalue, h.value hid, indexAfter, if_neg (ne_true_of_eq_false hin), hv]
  · intro hthere
    constructor
    · intro k
      rw [h.text, texts, textAfter]
      split_ifs with hin
      · rfl
      · cases hv : (first P hs path w).lookup k with
        | none => rfl
        | some v => exact (hthere k v hv (Bool.eq_false_iff.mpr hin)).1.symm
    · intro k t
      cases hid : w.db.fileId path with
      | none => exact iff_of_false (not_metaAt (h.fileId.trans hid)) (not_metaAt hid)
      | some i =>
        have hsome : (w.db.fileId path).isSome = true := by rw [hid]; rfl
        rw [h.value hsome, indexAfter]
        split_ifs with hin
        · rfl
        · cases hv : (first P hs path w).lookup k with
          | none => rfl
          | some v =>
            have hat := (hthere k v hv (Bool.eq_false_iff.mpr hin)).2 hsome
            exact ⟨fun hvt => hvt ▸ hat, fun ht => metaAt_unique hat ht⟩

/-- The tags stay as they are just if no tag is added, or none that makes a difference. -/
theorem Passed.unchanged_tags_iff (h : Passed P env hs path w w') (hid : w.db.fileId path = some i) :
    ((∀ t, t ∈ tagList path w' ↔ t ∈ tagList path w) ∧ ∀ t, IndexTag w' path t ↔ IndexTag w path t) ↔
      added P env w (first P hs path w) (metaText path w) (tagList path w) i = [] ∨
        (∀ t, t ∈ tagsAfter (tagList path w)
          (added P env w (first P hs path w) (metaText path w) (tagList path w) i) ↔ t ∈ tagList path w) ∧
        ∀ t, t ∈ tagList path w ++ added P env w (first P hs path w) (metaText path w) (tagList path w) i ↔
          IndexTag w path t := by
  have hlist : tagList path w' = tagsAfter (tagList path w)
      (added P env w (first P hs path w) (metaText path w) (tagList path w) i) := by
    rw [tagList, h.tagsAdded i hid]
    rfl
  rw [hlist]
  simp only [h.indexTag i hid]
  by_cases hnew : added P env w (first P hs path w) (metaText path w) (tagList path w) i = []
  · refine iff_of_true ⟨fun t => ?_, fun t => ?_⟩ (.inl hnew)
    · rw [tagsAfter, if_pos hnew]
    · rw [indexTagsAfter, if_pos hnew]
  · have hafter : ∀ t, indexTagsAfter path w (tagList path w)
        (added P env w (first P hs path w) (metaText path w) (tagList path w) i) t ↔
          t ∈ tagList path w ++ added P env w (first P hs path w) (metaText path w) (tagList path w) i := fun t => by
      rw [indexTagsAfter, if_neg hnew]
    simp only [hafter, hnew, false_or]

/-- The tags of a file that is not in the index stay as they are. -/
theorem Passed.unchanged_tags_missing (h : Passed P env hs path w w') (hid : w.db.fileId path = none) :
    (∀ t, t ∈ tagList path w' ↔ t ∈ tagList path w) ∧ ∀ t, IndexTag w' path t ↔ IndexTag w path t := by
  constructor
  · intro t
    rw [tagList, h.tags hid]
    rfl
  · rintro t
    constructor
    · rintro ⟨i, hi, -⟩
      rw [h.fileId, hid] at hi
      cases hi
    · rintro ⟨i, hi, -⟩
      rw [hid] at hi
      cases hi

theorem Passed.added_eq (h : Passed P env hs path w w') (tags : List String) :
    added P env w' (second P hs path w) (metaText path w') tags i =
      added P env w (second P hs path w) (texts P hs path w) tags i := by
  rw [added, added, eval_congr (overrides_congr h.overridden), show metaText path w' = texts P hs path w from
    funext h.text]

theorem unchanged_iff : Unchanged path w w' ↔
    ((∀ k, metaText path w' k = metaText path w k) ∧ ∀ k t, MetaAt w'.db path k t ↔ MetaAt w.db path k t) ∧
      (∀ t, t ∈ tagList path w' ↔ t ∈ tagList path w) ∧ ∀ t, IndexTag w' path t ↔ IndexTag w path t :=
  ⟨fun h => ⟨⟨h.value, h.indexValue⟩, h.tag, h.indexTag⟩, fun h => ⟨h.1.1, h.1.2, h.2.1, h.2.2⟩⟩

/-- The run after a run. -/
theorem Passed.settled_iff {w'' : World} (h : Passed P env hs path w w') (h' : Passed P env hs path w' w'') :
    Unchanged path w' w'' ↔ Covered P hs path w (second P hs path w) ∧
      ∀ i, w.db.fileId path = some i → TagsSettled P env hs path w i := by
  rw [unchanged_iff, h'.unchanged_values_iff, h.first_eq, h.fileId, h.persisted_iff]
  refine and_congr_right fun _ => ?_
  cases hid : w.db.fileId path with
  | none => exact iff_of_true (h'.unchanged_tags_missing (h.fileId.trans hid)) fun i hi => by cases hi
  | some i =>
    have hlist : tagList path w' = tagsAfter (tagList path w)
        (added P env w (first P hs path w) (metaText path w) (tagList path w) i) := by
      rw [tagList, h.tagsAdded i hid]
      rfl
    rw [h'.unchanged_tags_iff (h.fileId.trans hid), h.first_eq, h.added_eq, hlist]
    simp only [h.indexTag i hid]
    exact ⟨fun hsettled j hj => by cases hj; exact hsettled, fun hsettled => hsettled i rfl⟩

/-- **One pass is enough just for a file whose stored MIME type has the harvesters run that find all there is.** -/
theorem onePass_iff : OnePass P env hs path w ↔ (Readable path w → Steady P env hs path w) := by
  by_cases hw : Readable path w
  · have h : Passed P env hs path w _ := passed hw
    have h' : Passed P env hs path _ _ := passed (h.readable hw)
    constructor
    · rintro ⟨hcomplete, hsettled⟩ -
      obtain ⟨hagain, htags⟩ := (h.settled_iff h').mp hsettled
      exact ⟨fun hmime => h.persisted_iff.mp (hcomplete hw hmime), hagain, htags⟩
    · intro hsteady
      exact ⟨fun _ hmime => h.persisted_iff.mpr ((hsteady hw).complete hmime),
        (h.settled_iff h').mpr ⟨(hsteady hw).again, (hsteady hw).tags⟩⟩
  · refine iff_of_true ⟨fun h => absurd h hw, ?_⟩ fun h => absurd h hw
    rw [pass_unreadable hw, pass_unreadable hw]
    exact ⟨fun _ => rfl, fun _ _ => Iff.rfl, fun _ => Iff.rfl, fun _ => Iff.rfl⟩

/-! ### A stable type -/

/-- With no stored type or the detected one, the run ends with what there is for the detected one. -/
theorem lookup_found {m mime : String} {v : MetaValue F} (hm : m ≠ "") (hstart : mime = "" ∨ mime = m)
    (hfresh : textOf ((merged hs "").lookup "mime") = m) (hv : (merged hs m).lookup k = some v) :
    (found hs mime).lookup k = some v := by
  unfold found
  dsimp only
  rcases hstart with rfl | rfl
  · rw [hfresh, if_neg (by simp [hm]), lookup_putAll (nodup_merged m), hv]
    rfl
  · rw [if_pos (.inl hm), hv]

/-- With no stored type or the detected one, a type that is detected again and whose text reads as text, and settled
tags, one pass is enough. -/
theorem steady_of_stable {m : String} (hm : m ≠ "")
    (hstart : storedMime P (metaText path w) = "" ∨ storedMime P (metaText path w) = m)
    (hfresh : textOf ((merged hs "").lookup "mime") = m) (hagain : (merged hs m).lookup "mime" = some (.text m))
    (hreads : parseMetaValue P m = .text m)
    (htags : ∀ i, w.db.fileId path = some i → TagsSettled P env hs path w i) : Steady P env hs path w := by
  have hfound : ∀ {k : String} {v : MetaValue F}, (merged hs m).lookup k = some v →
      (first P hs path w).lookup k = some v := lookup_found hm hstart hfresh
  have hcovered : Covered P hs path w (merged hs m) := fun k v hv _ => by
    rw [hfound hv]
  have hdetected : detected hs (storedMime P (metaText path w)) = m := by
    rw [detected, ← first, hfound hagain]
    rfl
  have htext : texts P hs path w "mime" = some m := by
    rw [texts, textAfter, hfound hagain]
    rfl
  have hsecond : second P hs path w = merged hs m := by
    rw [second, storedMime, htext, Option.map_some, hreads]
    exact if_pos (.inl hm)
  exact ⟨fun _ => hdetected.symm ▸ hcovered, hsecond.symm ▸ hcovered, htags⟩

/-! ### A file of another type -/

/-- The type of every file, and the camera of an image. -/
def imageHarvesters : List (Harvester Unit) :=
  [⟨fun _ => true, fun _ => [("mime", .text "image/png")]⟩,
   ⟨fun mime => mime == "image/png", fun _ => [("camera", .text "x")]⟩]

/-- An image that has taken the place of a text. -/
def replaced : World := worldOf DB.empty [("/a", { stat := ⟨1, 1, 1, 1⟩, metadata := [("mime", "text/plain")] })]

/-- The first pass detects the image, and the camera is not found before the second. -/
theorem replaced_needs_two : ¬ OnePass plainPlatform (plainEnv []) imageHarvesters "/a" replaced := by
  intro h
  have hcamera := (h.complete ⟨rfl, rfl⟩ (by decide) "camera" (.text "x") rfl rfl).1
  have hnone : metaText "/a" (pass plainPlatform (plainEnv []) imageHarvesters "/a" replaced) "camera" = none := by
    decide
  rw [hnone] at hcamera
  cases hcamera

end Tilbo.Daemon.Passes
