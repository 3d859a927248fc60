import Tilbo.Fuse.Server

/-! # What a call does

`Effect w l w'`: what the call with label `l` may do to the world, whatever fails. A call that is not
recorded is `Quiet`: it leaves alone the tags of every file (in its attribute and in the index), the rows
of the files, the overrides, and the edges of the graph. There is one lemma for each call. -/

namespace Tilbo.Daemon.Calls

open Tilbo.Daemon.State Tilbo.Xattr.Service Tilbo.Xattr.Csv Tilbo.Index.Schema Tilbo.Index.Store
open Tilbo.Index.StoreSpec Tilbo.Harvester.Meta Tilbo.Lib.Pairs Tilbo.Lib.Txn Tilbo.Lib.Txn.Prog

variable {F α : Type} {w w' w'' : World} {path : String}

/-! ### The tags of a file -/

/-- The tags `ReadTags` finds if its read goes through. -/
def xattrTags (w : World) (path : String) : Except ParseError (List String) :=
  match (w.files path).bind File.tags with
  | some val => parseTags val
  | none => .ok []

/-- The file is in the index with the tag. -/
def IndexTag (w : World) (path name : String) : Prop :=
  ∃ i, w.db.fileId path = some i ∧ w.db.Tagged i name

/-- The rule is overridden for the tag of the file. -/
def IndexOverride (w : World) (path name rule : String) : Prop :=
  ∃ i, w.db.fileId path = some i ∧ w.db.Overridden i name rule

/-! ### Quiet calls -/

/-- Nothing about tags differs. -/
structure Quiet (w w' : World) : Prop where
  db : Keeps w.db w'.db
  tags : ∀ p, (w'.files p).map File.tags = (w.files p).map File.tags
  graph : w'.graph.fileAdj = w.graph.fileAdj

theorem Quiet.refl (w : World) : Quiet w w := ⟨Keeps.refl _, fun _ => rfl, rfl⟩

theorem Quiet.trans (h : Quiet w w') (h' : Quiet w' w'') : Quiet w w'' where
  db := h.db.trans h'.db
  tags p := (h'.tags p).trans (h.tags p)
  graph := h'.graph.trans h.graph

theorem Quiet.of_db {db : DB} (h : Keeps w.db db) : Quiet w { w with db := db } := ⟨h, fun _ => rfl, rfl⟩

theorem xattrTags_congr (h : (w'.files path).map File.tags = (w.files path).map File.tags) :
    xattrTags w' path = xattrTags w path := by
  have hbind : ∀ o : Option File, o.bind File.tags = (o.map File.tags).bind id := fun o => by
    cases o <;> rfl
  rw [xattrTags, xattrTags, hbind, hbind, h]

theorem Quiet.xattrTags (h : Quiet w w') (path : String) : xattrTags w' path = xattrTags w path :=
  xattrTags_congr (h.tags path)

theorem Quiet.indexTag (h : Quiet w w') {name : String} : IndexTag w' path name ↔ IndexTag w path name := by
  unfold IndexTag
  rw [h.db.fileId]
  exact exists_congr fun i => and_congr_right fun _ => h.db.tagged i name

/-- The call is quiet, whatever fails. -/
def IsQuiet (m : Act α) : Prop := ∀ w, wp m (fun _ => Quiet w) (fun _ => Quiet w) w

theorem isQuiet_ret {a : α} : IsQuiet (pure a : Act α) := fun w => wp_ret (Quiet.refl w)

theorem isQuiet_fail {e : OpError} : IsQuiet (fail e : Act α) := fun w => wp_fail (Quiet.refl w)

theorem isQuiet_andThen {β : Type} {m : Act α} {k : α → Act β} (hm : IsQuiet m)
    (hk : ∀ a, IsQuiet (k a)) : IsQuiet (m >>= k) := by
  intro w
  refine wp_andThen ((hm w).mono (fun a w' h => ?_) fun _ _ h => h)
  exact (hk a w').mono (fun _ _ h' => h.trans h') fun _ _ h' => h.trans h'

theorem isQuiet_errorf {m : Act α} {format : String} {args : List String} (hm : IsQuiet m) :
    IsQuiet (errorf format args m) := fun w => wp_wrap (hm w)

theorem isQuiet_attempt {m : Act α} (hm : IsQuiet m) :
    IsQuiet (Prog.attempt m : Act (Except OpError α)) := fun w => wp_attempt (hm w)

theorem isQuiet_each {β : Type} {f : β → Act Unit} (hf : ∀ b, IsQuiet (f b)) (l : List β) :
    IsQuiet (Prog.each f l) := by
  induction l with
  | nil => exact isQuiet_ret
  | cons b l ih => exact isQuiet_andThen (hf b) fun _ => ih

theorem isQuiet_modify {f : World → World} (hf : ∀ w, Quiet w (f w)) : IsQuiet (modify f) :=
  fun w => wp_modify (hf w)

theorem isQuiet_peek {f : World → α} : IsQuiet (peek f) := fun w => wp_peek (Quiet.refl w)

theorem isQuiet_onIndex {m : Sql α}
    (hm : ∀ s, wp m (fun _ => Keeps s) (fun _ => Keeps s) s) : IsQuiet (onIndex m) := fun w =>
  wp_wrap (wp_zoom ((hm w.db).mono (fun _ _ h => Quiet.of_db h) fun _ _ h => Quiet.of_db h))

theorem isQuiet_ctxErr : IsQuiet ctxErr := fun w => wp_stmt (Quiet.refl w) (Quiet.refl w)

theorem isQuiet_get {f : File → Option α} : IsQuiet (get path f) := by
  refine fun w => wp_stmt (Quiet.refl w) ?_
  cases (w.files path).bind f <;> exact Quiet.refl w

/-- A system call that keeps the tag attribute. -/
theorem isQuiet_set {f : File → File} (hf : ∀ file, (f file).tags = file.tags) :
    IsQuiet (set path fun file => some (f file)) := by
  refine fun w => wp_stmt (Quiet.refl w) ?_
  cases hfile : w.files path with
  | none => exact Quiet.refl w
  | some file =>
    refine ⟨Keeps.refl _, fun p => ?_, rfl⟩
    by_cases hp : p = path
    · subst hp
      simp [hfile, hf]
    · simp [hp]

theorem isQuiet_readAllMeta : IsQuiet (readAllMeta path) := by
  refine isQuiet_andThen isQuiet_ctxErr fun _ => ?_
  refine isQuiet_andThen (isQuiet_errorf isQuiet_get) fun attrs => ?_
  refine isQuiet_andThen (isQuiet_each (fun kv => ?_) attrs) fun _ => isQuiet_ret
  exact isQuiet_andThen (isQuiet_errorf isQuiet_get) fun _ => isQuiet_ret

theorem isQuiet_readSource (P : Platform F) : IsQuiet (readSource P path) := by
  refine isQuiet_andThen isQuiet_ctxErr fun _ => isQuiet_andThen (isQuiet_attempt isQuiet_get) fun r => ?_
  cases r with
  | error e => exact isQuiet_ret
  | ok val =>
    dsimp only
    split_ifs
    · exact isQuiet_ret
    · cases P.unmarshal val with
      | none => exact isQuiet_fail
      | some m => exact isQuiet_ret

theorem isQuiet_writeMeta {key value : String} : IsQuiet (writeMeta path key value) :=
  isQuiet_andThen isQuiet_ctxErr fun _ => isQuiet_errorf (isQuiet_set fun _ => rfl)

theorem isQuiet_writeSource (P : Platform F) {source : List (String × String)} :
    IsQuiet (writeSource P path source) :=
  isQuiet_andThen isQuiet_ctxErr fun _ => isQuiet_errorf (isQuiet_set fun _ => rfl)

theorem isQuiet_markPathNonRetryable : IsQuiet (markPathNonRetryable path) := by
  refine isQuiet_modify fun w => ?_
  split_ifs
  · exact Quiet.refl w
  · exact ⟨Keeps.refl _, fun _ => rfl, rfl⟩

theorem isQuiet_clearPathNonRetryable : IsQuiet (clearPathNonRetryable path) := by
  refine isQuiet_modify fun w => ?_
  split_ifs
  · exact Quiet.refl w
  · exact ⟨Keeps.refl _, fun _ => rfl, rfl⟩

theorem isQuiet_onFileTagged {added removed : List String} : IsQuiet (onFileTagged path added removed) :=
  isQuiet_modify fun _ => ⟨Keeps.refl _, fun _ => rfl, rfl⟩

theorem isQuiet_setEmbedding {vec : List UInt32} :
    IsQuiet (onGraph (Graph.Edges.setEmbedding · path vec)) :=
  isQuiet_modify fun _ => ⟨Keeps.refl _, fun _ => rfl, rfl⟩

theorem isQuiet_upsertFileMeta {i : ℕ} {key value source : String} :
    IsQuiet (onIndex (upsertFileMeta i key value source)) :=
  isQuiet_onIndex fun s => wp_upsertFileMeta.mono (fun _ _ h => h) fun _ _ h => h ▸ Keeps.refl s

theorem isQuiet_setProvenance {i t : ℕ} {source : String} {now : ℤ} :
    IsQuiet (onIndex (setProvenance i t source now)) :=
  isQuiet_onIndex fun s => wp_setProvenance.mono (fun _ _ h => h) fun _ _ h => h ▸ Keeps.refl s

theorem isQuiet_upsertEmbedding {i : ℕ} {vec : List UInt32} : IsQuiet (onIndex (upsertEmbedding i vec)) :=
  isQuiet_onIndex fun s => wp_upsertEmbedding.mono (fun _ _ h => h) fun _ _ h => h ▸ Keeps.refl s

theorem isQuiet_upsertTag {name : String} : IsQuiet (onIndex (upsertTag name)) :=
  isQuiet_onIndex fun s => wp_upsertTag (fun _ _ h _ => h.keeps) fun _ => Keeps.refl s

theorem isQuiet_getFileStat : IsQuiet (onIndex (getFileStat path)) :=
  isQuiet_onIndex fun s => wp_errorf (wp_queryRow (fun _ _ => Keeps.refl s) (fun _ => Keeps.refl s)
    (Keeps.refl s))

/-! ### What does not look at the files

Every system call keeps what does not depend on the files. -/

section Keeps
variable {I : World → Prop}

theorem keeps_ctxErr : Lib.Txn.Keeps I ctxErr := Keeps.stmt fun w a w' h hq => by cases hq; exact h

theorem keeps_get {f : File → Option α} : Lib.Txn.Keeps I (get path f) := by
  refine Keeps.stmt fun w a w' h hq => ?_
  split at hq
  · cases hq; exact h
  · cases hq

theorem keeps_readTags : Lib.Txn.Keeps I (readTags path) := by
  refine Keeps.andThen keeps_ctxErr fun _ => Keeps.andThen (Keeps.attempt keeps_get) fun r => ?_
  split
  · exact Keeps.ret
  · split
    · exact Keeps.ret
    · exact Keeps.fail

theorem keeps_readAllMeta : Lib.Txn.Keeps I (readAllMeta path) :=
  Keeps.andThen keeps_ctxErr fun _ => Keeps.andThen (Keeps.wrap keeps_get) fun _ =>
    Keeps.andThen (Keeps.each (fun _ => Keeps.andThen (Keeps.wrap keeps_get) fun _ => Keeps.ret) _)
      fun _ => Keeps.ret

theorem keeps_readSource (P : Platform F) : Lib.Txn.Keeps I (readSource P path) := by
  refine Keeps.andThen keeps_ctxErr fun _ => Keeps.andThen (Keeps.attempt keeps_get) fun r => ?_
  split
  · exact Keeps.ret
  · split_ifs
    · exact Keeps.ret
    · split
      · exact Keeps.ret
      · exact Keeps.fail

variable (hI : ∀ w files, I w → I { w with files := files })
include hI

theorem keeps_set {f : File → Option File} : Lib.Txn.Keeps I (set path f) := by
  refine Keeps.stmt fun w a w' h hq => ?_
  split at hq
  · cases hq; exact hI w _ h
  · cases hq

theorem keeps_writeTags {tags : List String} : Lib.Txn.Keeps I (writeTags path tags) :=
  Keeps.andThen keeps_ctxErr fun _ => Keeps.wrap (keeps_set hI)

theorem keeps_writeMeta {key value : String} : Lib.Txn.Keeps I (writeMeta path key value) :=
  Keeps.andThen keeps_ctxErr fun _ => Keeps.wrap (keeps_set hI)

theorem keeps_writeSource (P : Platform F) {source : List (String × String)} :
    Lib.Txn.Keeps I (writeSource P path source) :=
  Keeps.andThen keeps_ctxErr fun _ => Keeps.wrap (keeps_set hI)

end Keeps

/-! ### Recorded calls -/

/-- What the call may do, given what it shows. -/
def Effect (w : World) (l : Call F) (w' : World) : Prop :=
  match l with
  | .readTags p r => Quiet w w' ∧ ∀ tags, r = .ok tags → tags = [] ∨ xattrTags w p = .ok tags
  | .writeTags p tags _ r => match r with
    | .ok _ => ∃ f, w.files p = some f ∧
        w' = { w with files := Function.update w.files p (some { f with tags := some (formatTags tags) }) }
    | .error _ => w' = w
  | .setxattrTags p data r => match r with
    | .ok _ => ∃ f, w.files p = some f ∧
        w' = { w with files := Function.update w.files p (some { f with tags := some data }) }
    | .error _ => w' = w
  | .getFileIDByPath p r => w' = w ∧ ∀ i, r = .ok i → w.db.fileId p = some i
  | .getFileTags p r => w' = w ∧ ∀ tags, r = .ok tags → ∀ n, n ∈ tags ↔ IndexTag w p n
  | .evaluate q r => w' = w ∧ ∀ overrides, r = .ok overrides →
      overrides = tagOverridePairs w.db.toTables q.fileId
  | .setFileTags _ i tags r => ∃ db, w' = { w with db := db } ∧ match r with
    | .ok _ => Frame (· = i) w.db db ∧ ∀ n, db.Tagged i n ↔ n ∈ tags
    | .error _ => db = w.db
  | .modifyFileTags p tags op r => ∃ db, w' = { w with db := db } ∧ match r with
    | .ok _ => ∃ i, w.db.fileId p = some i ∧ Frame (· = i) w.db db ∧
        ∀ n, db.Tagged i n ↔ afterModify op tags (w.db.Tagged i) n
    | .error _ => db = w.db ∨ (op = "add" ∨ op = "remove") ∧ ∃ i, w.db.fileId p = some i ∧
        PartlyModified op tags i w.db db
  | .syncFileApply p st tags now r => ∃ db, w' = { w with db := db } ∧ match r with
    | .ok i => ∃ md sourceMap, Applied p st tags md sourceMap now i w.db db
    | .error _ => db = w.db
  | .deleteFile p r => ∃ db, w' = { w with db := db } ∧ match r with
    | .ok _ => Removed (fun f => f.path = p) w.db db
    | .error _ => db = w.db
  | .deleteStaleFiles base since r => ∃ db, w' = { w with db := db } ∧ match r with
    | .ok _ => Removed (stale base since) w.db db
    | .error _ => db = w.db
  | .setGraphTags p tags => w' = { w with graph := Graph.Edges.setFileTags w.graph p tags }
  | .changeFiles before after => before = w.files ∧ w' = { w with files := after }
  | .other => Quiet w w'

/-- The call does what its label says. -/
def Recorded (label : Except OpError α → Call F) (m : Act α) : Prop :=
  ∀ w, wp m (fun a => Effect w (label (.ok a))) (fun e => Effect w (label (.error e))) w

/-- No call records an override. -/
theorem Effect.overridden {l : Call F} (h : Effect w l w') {i : ℕ} {name rule : String}
    (ho : w'.db.Overridden i name rule) : w.db.Overridden i name rule := by
  cases l with
  | readTags p r => exact (h.1.db.overridden _ _ _).mp ho
  | other => exact (Quiet.db h).overridden _ _ _ |>.mp ho
  | writeTags p tags diff r | setxattrTags p data r =>
    cases r with
    | error e => exact h ▸ ho
    | ok _ =>
      obtain ⟨f, -, rfl⟩ := h
      exact ho
  | getFileIDByPath p r | getFileTags p r | evaluate q r => exact h.1 ▸ ho
  | setGraphTags p tags =>
    have h : w' = { w with graph := Graph.Edges.setFileTags w.graph p tags } := h
    subst h
    exact ho
  | changeFiles before after =>
    obtain ⟨-, rfl⟩ := h
    exact ho
  | setFileTags p j tags r =>
    obtain ⟨db, rfl, h⟩ := h
    cases r with
    | error e => exact h ▸ ho
    | ok _ => exact (h.1.overridden _ _ _).mp ho
  | modifyFileTags p tags op r =>
    obtain ⟨db, rfl, h⟩ := h
    cases r with
    | error e =>
      rcases h with rfl | ⟨-, j, -, h⟩
      · exact ho
      · exact (h.1.overridden _ _ _).mp ho
    | ok _ =>
      obtain ⟨j, -, h, -⟩ := h
      exact (h.overridden _ _ _).mp ho
  | syncFileApply p st tags now r =>
    obtain ⟨db, rfl, h⟩ := h
    cases r with
    | error e => exact h ▸ ho
    | ok j =>
      obtain ⟨md, sourceMap, h⟩ := h
      exact (h.overridden _ _ _).mp ho
  | deleteFile p r | deleteStaleFiles base since r =>
    obtain ⟨db, rfl, h⟩ := h
    cases r with
    | error e => exact h ▸ ho
    | ok _ => exact ((h.overridden _ _ _).mp ho).1

theorem wp_onIndex {m : Sql α} {Q : α → World → Prop} {E : OpError → World → Prop}
    (h : wp m (fun a db => Q a { w with db := db }) (fun e db => E (.index e) { w with db := db }) w.db) :
    wp (onIndex m) Q E w := wp_wrap (wp_zoom h)

/-- The error may be wrapped: what a failed call does never depends on the error. -/
theorem Recorded.errorf {label : Except OpError α → Call F} {m : Act α} (h : Recorded label m)
    (hlabel : ∀ w w' e e', Effect w (label (.error e)) w' → Effect w (label (.error e')) w')
    {format : String} {args : List String} : Recorded label (errorf format args m) := fun w =>
  wp_wrap ((h w).mono (fun _ _ h => h) fun _ w' h => hlabel w w' _ _ h)

theorem recorded_other {m : Act α} (hm : IsQuiet m) : Recorded (F := F) (fun _ => .other) m := hm

theorem recorded_readTags : Recorded (F := F) (.readTags path) (readTags path) := by
  intro w
  have hq : ∀ {w'} {e : OpError}, Quiet w w' → Effect (F := F) w (.readTags path (.error e)) w' :=
    fun h => ⟨h, fun _ h => by cases h⟩
  refine wp_andThen (wp_stmt (hq (Quiet.refl w)) ?_)
  refine wp_andThen (wp_attempt (wp_stmt ?_ ?_))
  · exact wp_ret ⟨Quiet.refl w, fun tags h => Or.inl (Except.ok.inj h).symm⟩
  cases hval : (w.files path).bind File.tags with
  | none => exact wp_ret ⟨Quiet.refl w, fun tags h => Or.inl (Except.ok.inj h).symm⟩
  | some val =>
    cases hparse : parseTags val with
    | error e =>
      simp only [hparse]
      exact wp_fail (hq (Quiet.refl w))
    | ok tags =>
      simp only [hparse]
      refine wp_ret ⟨Quiet.refl w, fun tags' h => Or.inr ?_⟩
      cases h
      rw [xattrTags, hval]
      exact hparse

theorem recorded_writeTags {tags : List String} {diff : Option Rules.Engine.TagDiff} :
    Recorded (F := F) (.writeTags path tags diff) (writeTags path tags) := by
  intro w
  refine wp_andThen (wp_stmt rfl (wp_wrap (wp_stmt rfl ?_)))
  cases hfile : w.files path with
  | none => exact rfl
  | some f => exact ⟨f, hfile, rfl⟩

theorem recorded_getFileIDByPath :
    Recorded (F := F) (.getFileIDByPath path) (onIndex (getFileIDByPath path)) := fun _ =>
  wp_onIndex (wp_errorf (wp_queryRow (fun _ hi => ⟨rfl, fun _ h => Except.ok.inj h ▸ hi⟩)
    (fun _ => ⟨rfl, fun _ h => by cases h⟩) ⟨rfl, fun _ h => by cases h⟩))

theorem recorded_getFileTags : Recorded (F := F) (.getFileTags path) (onIndex (getFileTags path)) := by
  refine fun w => wp_onIndex (wp_getFileTags (fun i hi => ⟨rfl, fun tags h n => ?_⟩)
    (fun hno => ⟨rfl, fun tags h n => ?_⟩) fun e => ⟨rfl, fun _ h => by cases h⟩)
  · cases h
    rw [mem_fileTagsOrdered]
    refine ⟨fun ht => ⟨i, hi, ht⟩, fun ⟨j, hj, ht⟩ => ?_⟩
    rw [hi] at hj
    exact Option.some.inj hj ▸ ht
  · cases h
    simp [IndexTag, hno]

theorem recorded_evaluate {q : Query F} :
    Recorded (.evaluate q) (onIndex (getTagOverrides q.fileId)) := fun _ =>
  wp_onIndex (wp_errorf (wp_query ⟨rfl, fun _ h => (Except.ok.inj h).symm⟩ ⟨rfl, fun _ h => by cases h⟩))

theorem recorded_setFileTags {i : ℕ} {tags : List String} :
    Recorded (F := F) (.setFileTags path i tags) (onIndex (setFileTags i tags)) := fun _ =>
  wp_onIndex (wp_setFileTags.mono (fun _ _ h => ⟨_, rfl, h⟩) fun _ _ h => ⟨_, rfl, h⟩)

theorem recorded_modifyFileTags {tags : List String} {op : String} :
    Recorded (F := F) (.modifyFileTags path tags op) (onIndex (modifyFileTags path tags op)) := fun _ =>
  wp_onIndex (wp_modifyFileTags.mono (fun _ _ h => ⟨_, rfl, h.2⟩) fun _ _ h => ⟨_, rfl, h⟩)

theorem recorded_syncFileApply {st : FileStat} {tags : List String} {md sourceMap : List (String × String)}
    {now : ℤ} : Recorded (F := F) (.syncFileApply path st tags now)
      (onIndex (syncFileApply path st tags md sourceMap now)) := fun _ =>
  wp_onIndex (wp_syncFileApply.mono (fun _ _ h => ⟨_, rfl, md, sourceMap, h⟩) fun _ _ h => ⟨_, rfl, h⟩)

theorem recorded_deleteFile : Recorded (F := F) (.deleteFile path) (onIndex (deleteFile path)) := fun _ =>
  wp_onIndex (wp_deleteFile.mono (fun _ _ h => ⟨_, rfl, h⟩) fun _ _ h => ⟨_, rfl, h⟩)

theorem recorded_deleteStaleFiles {since : ℤ} :
    Recorded (F := F) (.deleteStaleFiles path since) (onIndex (deleteStaleFiles path since)) := fun _ =>
  wp_onIndex (wp_deleteStaleFiles.mono (fun _ _ h => ⟨_, rfl, h⟩) fun _ _ h => ⟨_, rfl, h⟩)

theorem recorded_setxattrTags {data : String} {flags : Fuse.Server.Flags} :
    Recorded (F := F) (.setxattrTags path data) (set path fun f =>
      if flags.create && f.tags.isSome || flags.replace && f.tags.isNone then none
      else some { f with tags := some data }) := by
  refine fun w => wp_stmt rfl ?_
  cases hfile : w.files path with
  | none => exact rfl
  | some f =>
    simp only [Option.bind_some]
    split_ifs
    · exact rfl
    · exact ⟨f, hfile, rfl⟩

theorem recorded_setGraphTags {tags : List String} :
    Recorded (F := F) (fun _ => .setGraphTags path tags) (onGraph (Graph.Edges.setFileTags · path tags)) :=
  fun _ => wp_modify rfl

end Tilbo.Daemon.Calls
