import Tilbo.Daemon.Alone

/-! # The index and the tag attribute

The xattrs are the source of truth, the index is a cache of them: after a change of tags the two should
agree (`UpToDate`), so that the next synchronisation changes nothing. Each kind of change is followed
through, and `Agrees` says when it leaves the two in agreement. -/

namespace Tilbo.Daemon.Agreement

open Tilbo.Daemon.State Tilbo.Daemon.Calls Tilbo.Daemon.Processor Tilbo.Daemon.Handlers
open Tilbo.Daemon.Scripts Tilbo.Daemon.Operations Tilbo.Daemon.Alone Tilbo.Rules.Engine Tilbo.Rules.Sweep
open Tilbo.Sync.SyncFile Tilbo.Fuse.Server Tilbo.Xattr.Service Tilbo.Xattr.Csv Tilbo.Harvester.Meta
open Tilbo.Index.Schema Tilbo.Index.Store Tilbo.Index.StoreSpec Tilbo.Lib.Pairs Tilbo.Lib.Txn
open Tilbo.Lib.Process Tilbo.Lib.Process.Proc

variable {F : Type}

/-! ### Agreement -/

/-- The index holds the tags that the attribute reads as. -/
def UpToDate (w : World) (path : String) : Prop :=
  ∃ tags, xattrTags w path = .ok tags ∧ ∀ n, IndexTag w path n ↔ n ∈ tags

/-- A synchronisation of the file that reads its tags changes no tag in the index. -/
def Resyncs (P : Platform F) (w : World) (path : String) : Prop :=
  ∀ (env : Env F) (stat : FileStat) (tags : List String), xattrTags w path = .ok tags →
    wp (alone (syncFile P env path stat))
      (fun _ st => .readTags path (.ok tags) ∈ st.2 → ∀ n, IndexTag st.1 path n ↔ IndexTag w path n)
      (fun _ st => ∀ n, IndexTag st.1 path n ↔ IndexTag w path n) (w, [])

/-! ### Changes of tags -/

/-- An operation that changes the tags of one file. -/
inductive TagChange (F : Type) where
  /-- The part of a tag request for the file. -/
  | handleTag (op : String) (tags : List String)
  | applyDiff (fileId : ℕ) (existingTags : List String) (diff : TagDiff)
  | sweepFile
  | syncFile (stat : FileStat)
  | rename (d : TagDir) (name : String) (newParent : Option TagDir)
  | setxattr (data : String) (flags : Flags)

/-- Make the change, and say whether it reports success. -/
def TagChange.run (P : Platform F) (env : Env F) (path : String) : TagChange F → Op F Bool
  | handleTag op tags => do
    handleTagPath env op tags path
    return true
  | applyDiff fileId existingTags diff => do
    Processor.applyDiff P env path fileId existingTags diff
    return true
  | sweepFile => do
    let _ ← Rules.Sweep.sweepFile P env path
    return true
  | syncFile stat => do
    let _ ← Sync.SyncFile.syncFile P env path stat
    return true
  | rename d name newParent => do
    let errno ← Fuse.Server.rename d name newParent
    return errno = .ok
  | setxattr data flags => do
    setxattrTags path data flags
    return true

/-- The change is about the file: its callers look up the id, the mount the path. -/
def TagChange.About (w : World) (path : String) : TagChange F → Prop
  | applyDiff fileId _ _ => w.db.fileId path = some fileId
  | rename d name _ => d.cache.bind (· name) = some path
  | _ => True

/-! ### What a log says -/

/-- The tags `ReadTags` returned; none if it failed. -/
def tagsRead : List (Call F) → List String
  | [] => []
  | .readTags _ r :: _ => r.toOption.getD []
  | _ :: log => tagsRead log

/-- `WriteTags` went through. -/
def wroteTags : List (Call F) → Bool
  | [] => false
  | .writeTags _ _ _ r :: log => r.isOk || wroteTags log
  | _ :: log => wroteTags log

/-- What the rules were evaluated on, and the overrides they were given. -/
def evaluated : List (Call F) → Option (Query F × List (String × String))
  | [] => none
  | .evaluate q (.ok overrides) :: _ => some (q, overrides)
  | _ :: log => evaluated log

/-- The change leaves the index and the attribute in agreement. -/
def TagChange.Agrees (env : Env F) (w : World) (path : String) (log : List (Call F)) : TagChange F → Prop
  | handleTag op tags => ∃ X, (if wroteTags log then
        X = stored (env.order.visit (applyOp op (tagsRead log) tags))
      else xattrTags w path = .ok X) ∧
    ∀ n, afterModify op tags (IndexTag w path) n ↔ n ∈ X
  | applyDiff _ existingTags diff =>
    ∀ n, n ∈ existingTags ++ diff.added ↔ n ∈ stored (existingTags ++ diff.added)
  | sweepFile => ∃ q overrides, evaluated log = some (q, overrides) ∧
    if (q.diff overrides).added = [] then UpToDate w path
    else ∀ n, n ∈ q.existingTags ++ (q.diff overrides).added ↔
      n ∈ stored (q.existingTags ++ (q.diff overrides).added)
  | syncFile _ => ∃ X, xattrTags w path = .ok X ∧ ∀ n, n ∈ tagsRead log ↔ n ∈ X
  | rename _ _ _ => ∃ X, xattrTags w path = .ok X ∧
    ∀ n, (IndexTag w path n ∧ .modifyFileTags path [n] "remove" (.ok ()) ∉ log) ∨
      .modifyFileTags path [n] "add" (.ok ()) ∈ log ↔ n ∈ X
  | setxattr data _ => ∃ X, parseTags data = .ok X ∧ ∀ n, IndexTag w path n ↔ n ∈ X

/-! ### One change -/

section Changes
variable (P : Platform F) (env : Env F) {w : World} {path : String} {id : Option ℕ}
  {X : Except ParseError (List String)} {I G : String → Prop} {log : List (Call F)}

theorem upToDate_iff (h : Shows w path id X I G) :
    UpToDate w path ↔ ∃ tags, X = .ok tags ∧ ∀ n, I n ↔ n ∈ tags := by
  unfold UpToDate
  rw [h.xattr]
  exact exists_congr fun tags => and_congr_right fun _ => forall_congr' fun n => by rw [h.index n]

/-- The two agree after a write if the written tags survive it. -/
theorem upToDate_written {tags : List String} (h : Shows w path id (.ok (stored tags)) (· ∈ tags) G) :
    UpToDate w path ↔ ∀ n, n ∈ tags ↔ n ∈ stored tags := by
  rw [upToDate_iff h]
  simp

/-- The read of the attribute. -/
theorem wp_readTags {Q : List String → World × List (Call F) → Prop}
    {E : OpError → World × List (Call F) → Prop} {m : Act (List String)}
    (hm : Recorded (F := F) (.readTags path) m) (h : Shows w path id X I G)
    (hok : ∀ tags w', Shows w' path id X I G → (tags = [] ∨ X = .ok tags) →
      Q tags (w', log ++ [.readTags path (.ok tags)]))
    (herr : ∀ e w', Shows w' path id X I G → E e (w', log ++ [.readTags path (.error e)])) :
    wp (alone (atom (.readTags path) m)) Q E (w, log) := by
  refine wp_alone_call hm (fun _ => rfl) (fun tags w' he => ?_) fun e w' he => herr e w' (h.quiet he.1)
  exact hok tags w' (h.quiet he.1) (by rw [← h.xattr]; exact he.2 tags rfl)

/-- `GetFileTags` as a recorded call. -/
theorem wp_listFileTags {Q : List String → World × List (Call F) → Prop}
    {E : OpError → World × List (Call F) → Prop} (h : Shows w path id X I G)
    (hok : ∀ tags, (∀ n, n ∈ tags ↔ I n) → Q tags (w, log ++ [.getFileTags path (.ok tags)]))
    (herr : ∀ e, E e (w, log ++ [.getFileTags path (.error e)])) :
    wp (alone (listFileTags path)) Q E (w, log) := by
  refine wp_alone_call recorded_getFileTags (fun _ => rfl) (fun tags w' he => ?_) fun e w' he => ?_
  · obtain ⟨rfl, htags⟩ := he
    exact hok tags fun n => (htags tags rfl n).trans (h.index n)
  · obtain ⟨rfl, -⟩ := he
    exact herr e

/-- `applyTagsXattr`: whether or not it succeeds, it has read and then tried to write. -/
theorem wp_applyTagsXattr {op : String} {tags : List String} {Q : Unit → World × List (Call F) → Prop}
    {E : OpError → World × List (Call F) → Prop} (h : Shows w path id X I G)
    (hQ : ∀ r wr w', Shows w' path id
        (if wr.isOk then .ok (stored (env.order.visit (applyOp op (r.toOption.getD []) tags))) else X) I G →
      Q () (w', log ++ [.readTags path r,
        .writeTags path (env.order.visit (applyOp op (r.toOption.getD []) tags)) none wr])) :
    wp (alone (orElse () (applyTagsXattr env path tags op))) Q E (w, log) := by
  have hwrite : ∀ (r : Except OpError (List String)) w', Shows w' path id X I G →
      wp (alone (atom (.writeTags path (env.order.visit (applyOp op (r.toOption.getD []) tags)) none)
        (writeTags path (env.order.visit (applyOp op (r.toOption.getD []) tags))))) Q (fun _ => Q ())
        (w', log ++ [.readTags path r]) := by
    intro r w' h'
    refine wp_alone_call recorded_writeTags (fun _ => rfl) (fun _ w'' he => ?_) fun e w'' he => ?_
    · rw [List.append_assoc]
      exact hQ r (.ok ()) w'' (h'.writeTags he)
    · have he : w'' = w' := he
      rw [List.append_assoc, he]
      exact hQ r (.error e) w' h'
  refine wp_alone_orElse (wp_alone_andThen (wp_alone_orElse ?_))
  exact wp_readTags recorded_readTags h (fun tags w' h' _ => hwrite (.ok tags) w' h') fun e w' h' =>
    hwrite (.error e) w' h'

/-- Refreshing the graph. -/
theorem wp_refreshGraph {Q : Unit → World × List (Call F) → Prop}
    {E : OpError → World × List (Call F) → Prop} (h : Shows w path id X I G)
    (hok : ∀ tags w', Shows w' path id X I I →
      Q () (w', log ++ [.getFileTags path (.ok tags), .setGraphTags path tags]))
    (herr : ∀ e, Q () (w, log ++ [.getFileTags path (.error e)])) :
    wp (alone (refreshGraph path)) Q E (w, log) := by
  refine wp_alone_andThen (wp_alone_attempt (wp_listFileTags h (fun tags htags => ?_) fun e => ?_))
  · have hcall : ∀ w', Effect (F := F) w (.setGraphTags path tags) w' →
        Q () (w', log ++ [.getFileTags path (.ok tags)] ++ [.setGraphTags path tags]) := by
      intro w' he
      rw [List.append_assoc]
      have h' := h.setGraphTags he
      exact hok tags w' { h' with graph := fun n => (h'.graph n).trans (htags n) }
    exact fun fs => hcall _ rfl
  · exact wp_alone_pure (herr e)

/-- The event for the clients, if there is one. -/
theorem steady_announce {c : Prop} [Decidable c] {added removed : List String} :
    Steady (if c then call (onFileTagged path added removed) else pure () : Op F Unit) := by
  split_ifs
  · exact steady_call isQuiet_onFileTagged
  · exact steady_pure ()

/-- The tag request for one path. -/
theorem wp_handleTagPath {op : String} {tags : List String} (h : Shows w path id X I G) :
    wp (alone (handleTagPath env op tags path))
      (fun _ st => ∃ X' G', Shows st.1 path id X' (afterModify op tags I) G' ∧
        X' = if wroteTags st.2 then .ok (stored (env.order.visit (applyOp op (tagsRead st.2) tags))) else X)
      (fun _ _ => True) (w, []) := by
  refine wp_alone_andThen (wp_alone_orElse (wp_listFileTags h (fun oldTags _ => ?_) fun _ => ?_))
  all_goals
    refine wp_alone_andThen (wp_applyTagsXattr env h fun r wr w₁ h₁ => ?_)
    refine wp_alone_andThen (wp_alone_call recorded_modifyFileTags (fun _ => rfl) (fun _ w₂ he => ?_)
      fun _ _ _ => trivial)
    have h₂ := h₁.modifyFileTags he
    refine wp_alone_andThen (wp_refreshGraph h₂ (fun updated w₃ h₃ => ?_) fun e => ?_)
    · refine wp_alone_steady steady_announce (fun _ w₄ hq => ?_) fun _ _ _ => trivial
      exact ⟨_, _, h₃.quiet hq, by simp [wroteTags, tagsRead]⟩
    · refine wp_alone_steady steady_announce (fun _ w₄ hq => ?_) fun _ _ _ => trivial
      exact ⟨_, _, h₂.quiet hq, by simp [wroteTags, tagsRead]⟩

/-- The write of an evaluation result: attribute first, then the index. Until the index is written, its
tags are as before. -/
theorem wp_writeDiff {i : ℕ} {tags : List String} {diff : TagDiff} {sources : List (String × String)}
    {α : Type} {rest : Op F α} {Q : α → World × List (Call F) → Prop}
    {E : OpError → World × List (Call F) → Prop} {writeX writeI : Act Unit}
    (h : Shows w path (some i) X I G) (hwriteX : Recorded (F := F) (.writeTags path tags (some diff)) writeX)
    (hwriteI : Recorded (F := F) (.setFileTags path i tags) writeI)
    (herr : ∀ e X' st, Shows st.1 path (some i) X' I G → E e st)
    (hrest : ∀ w', Shows w' path (some i) (.ok (stored tags)) (· ∈ tags) G → wp (alone rest) Q E
      (w', log ++ [.writeTags path tags (some diff) (.ok ()), .setFileTags path i tags (.ok ())])) :
    wp (alone (do
      atom (.writeTags path tags (some diff)) writeX
      updateSource P path sources
      atom (.setFileTags path i tags) writeI
      rest)) Q E (w, log) := by
  refine wp_alone_andThen (wp_alone_call hwriteX (fun _ => rfl) (fun _ w₁ he₁ => ?_) fun e w₁ he₁ => ?_)
  · have h₁ := h.writeTags he₁
    refine wp_alone_andThen (wp_alone_steady (steady_updateSource P path sources) (fun _ w₂ hq => ?_)
      fun e w₂ hq => herr e _ _ (h₁.quiet hq))
    have h₂ := h₁.quiet hq
    refine wp_alone_andThen (wp_alone_call hwriteI (fun _ => rfl) (fun _ w₃ he₃ => ?_) fun e w₃ he₃ => ?_)
    · rw [List.append_assoc]
      exact hrest w₃ (h₂.setFileTags he₃)
    · obtain ⟨db, rfl, rfl⟩ := he₃
      exact herr e _ _ h₂
  · have he₁ : w₁ = w := he₁
    exact herr e X _ (he₁ ▸ h)

/-- Recording the sources never fails. -/
theorem wp_recordSources {i : ℕ} {sources : List (String × String)} {E : OpError → World × List (Call F) → Prop} :
    wp (alone (recordSources env i sources)) (fun _ st => Quiet w st.1 ∧ st.2 = log) E (w, log) := by
  unfold recordSources
  rw [alone, record_each]
  refine wp_each (fun (_ : List (String × String)) (st : World × List (Call F)) =>
    Quiet w st.1 ∧ st.2 = log) ?_ ⟨Quiet.refl w, rfl⟩
  rintro done ts rest ⟨w', log'⟩ - ⟨hq, rfl⟩
  refine wp_alone_andThen (wp_alone_attempt (wp_alone_steady (steady_call isQuiet_upsertTag)
    (fun t w'' h'' => ?_) fun e w'' h'' => ?_))
  · refine wp_alone_orElse (wp_alone_steady (steady_call isQuiet_setProvenance) (fun _ w₃ h₃ => ?_)
      fun _ w₃ h₃ => ?_)
    · exact ⟨(hq.trans h'').trans h₃, rfl⟩
    · exact ⟨(hq.trans h'').trans h₃, rfl⟩
  · exact wp_alone_pure ⟨hq.trans h'', rfl⟩

theorem wp_applyDiff {i : ℕ} {existingTags : List String} {diff : TagDiff}
    (h : Shows w path (some i) X I G) :
    wp (alone (applyDiff P env path i existingTags diff))
      (fun _ st => Shows st.1 path (some i) (.ok (stored (existingTags ++ diff.added)))
        (· ∈ existingTags ++ diff.added) (· ∈ existingTags ++ diff.added)) (fun _ _ => True) (w, log) := by
  refine wp_writeDiff P h (recorded_writeTags.errorf fun _ _ _ _ h => h)
    (recorded_setFileTags.errorf fun _ _ _ _ h => h) (fun _ _ _ _ => trivial) fun w₁ h₁ => ?_
  refine wp_alone_andThen (wp_alone_call recorded_setGraphTags (fun _ => rfl) (fun _ w₂ he₂ => ?_)
    fun _ _ _ => trivial)
  have h₂ := h₁.setGraphTags he₂
  refine wp_alone_andThen ((wp_recordSources env (E := fun _ _ => True)).mono ?_ fun _ _ h => h)
  rintro _ ⟨w₃, _⟩ ⟨hq₃, -⟩
  exact wp_alone_steady (steady_call isQuiet_onFileTagged) (fun _ _ hq => (h₂.quiet hq₃).quiet hq)
    fun _ _ _ => trivial

/-- A sweep of the file writes what the rules add, and nothing if they add nothing. If it fails, the tags of
the index are as before. -/
theorem wp_sweepFile (h : Shows w path id X I G) :
    wp (alone (sweepFile P env path)) (fun _ st => ∃ q overrides,
        evaluated st.2 = some (q, overrides) ∧
        if (q.diff overrides).added = [] then Shows st.1 path id X I G
        else Shows st.1 path id (.ok (stored (q.existingTags ++ (q.diff overrides).added)))
          (· ∈ q.existingTags ++ (q.diff overrides).added) G)
      (fun _ st => ∃ X', Shows st.1 path id X' I G) (w, []) := by
  refine wp_alone_andThen (wp_readTags recorded_readTags h (fun existing w₁ h₁ _ => ?_)
    fun _ _ h₁ => ⟨X, h₁⟩)
  refine wp_alone_andThen (wp_alone_steady (steady_call isQuiet_readAllMeta) (fun md w₂ hq₂ => ?_)
    fun _ _ hq₂ => ⟨X, h₁.quiet hq₂⟩)
  have h₂ := h₁.quiet hq₂
  refine wp_alone_andThen (wp_alone_attempt (wp_alone_call recorded_getFileIDByPath (fun _ => rfl)
    (fun i w₃ he₃ => ?_) fun e w₃ he₃ => ?_))
  · obtain ⟨rfl, hi⟩ := he₃
    have hid : id = some i := h₂.fileId.symm.trans (hi i rfl)
    subst hid
    refine wp_alone_andThen (wp_alone_steady (steady_sweepPersist P path _ _) (fun _ w₄ hq₄ => ?_)
      fun _ _ hq₄ => ⟨X, h₂.quiet hq₄⟩)
    have h₄ := h₂.quiet hq₄
    refine wp_alone_andThen (wp_alone_call recorded_evaluate (fun _ => rfl) (fun overrides w₅ he₅ => ?_)
      fun _ w₅ he₅ => ?_)
    · obtain ⟨rfl, -⟩ := he₅
      dsimp only
      split_ifs with hadded
      · refine wp_alone_pure ⟨_, _, rfl, ?_⟩
        exact (if_pos hadded).mpr h₄
      · refine wp_writeDiff P h₄ recorded_writeTags recorded_setFileTags (fun _ X' _ h' => ⟨X', h'⟩)
          fun w₆ h₆ => ?_
        refine wp_alone_andThen ((wp_recordSources env).mono ?_ fun _ _ h => h)
        rintro _ ⟨w₇, _⟩ ⟨hq₇, rfl⟩
        refine wp_alone_pure ⟨_, _, rfl, ?_⟩
        exact (if_neg hadded).mpr (h₆.quiet hq₇)
    · obtain ⟨rfl, -⟩ := he₅
      exact ⟨X, h₄⟩
  · -- The file is not in the index: the sweep of it fails.
    obtain ⟨rfl, -⟩ := he₃
    refine wp_alone_andThen (wp_alone_steady (steady_sweepPersist P path _ _) (fun _ w₄ hq₄ => ?_)
      fun _ w₄ hq₄ => ⟨X, h₂.quiet hq₄⟩)
    exact wp_alone_fail ⟨X, h₂.quiet hq₄⟩

/-- `SyncFile` gives the index the tags it reads, or leaves them alone. -/
theorem wp_syncFile (stat : FileStat) (h : Shows w path id X I G) :
    wp (alone (syncFile P env path stat)) (fun _ st => ∃ i tags, (tags = [] ∨ X = .ok tags) ∧
        st.2 = log ++ [.readTags path (.ok tags), .syncFileApply path stat tags env.now (.ok i)] ∧
        Shows st.1 path (some i) X (· ∈ tags) G)
      (fun _ st => Shows st.1 path id X I G) (w, log) := by
  refine wp_alone_andThen (wp_readTags (recorded_readTags_errorf path) h (fun tags w₁ h₁ htags => ?_)
    fun _ _ h₁ => h₁)
  refine wp_alone_andThen (wp_alone_steady (steady_call (isQuiet_errorf isQuiet_readAllMeta))
    (fun md w₂ hq₂ => ?_) fun _ _ hq => h₁.quiet hq)
  have h₂ := h₁.quiet hq₂
  refine wp_alone_andThen (wp_alone_steady (steady_call (isQuiet_errorf (isQuiet_readSource P)))
    (fun src w₃ hq₃ => ?_) fun _ _ hq => h₂.quiet hq)
  have h₃ := h₂.quiet hq₃
  refine wp_alone_andThen (wp_alone_steady (steady_needsHarvest path md stat) (fun harvest w₄ hq₄ => ?_)
    fun _ _ hq => h₃.quiet hq)
  have h₄ := h₃.quiet hq₄
  refine wp_alone_andThen (wp_alone_call (recorded_syncFileApply.errorf fun _ _ _ _ h => h)
    (fun _ => rfl) (fun i w₅ he => ?_) fun e w₅ he => ?_)
  · refine wp_alone_pure ⟨i, tags, htags, ?_, h₄.syncFileApply he⟩
    rw [List.append_assoc]
    rfl
  · obtain ⟨db, rfl, rfl⟩ := he
    exact h₄

/-- The tags of the index after the retagging calls in the log. -/
def retagged (I : String → Prop) (path : String) (log : List (Call F)) (n : String) : Prop :=
  (I n ∧ .modifyFileTags path [n] "remove" (.ok ()) ∉ log) ∨ .modifyFileTags path [n] "add" (.ok ()) ∈ log

section Retagged
variable {n t op : String} {e : OpError}

theorem retagged_remove (hno : .modifyFileTags path [n] "add" (.ok ()) ∉ log) :
    retagged I path (log ++ [.modifyFileTags path [t] "remove" (.ok ())]) n ↔
      afterModify "remove" [t] (retagged I path log) n := by
  simp only [retagged, afterModify_remove, hno, List.mem_append, List.mem_singleton, Call.modifyFileTags.injEq,
    true_and, and_true, List.cons.injEq, or_false, not_or]
  simp [and_assoc]

theorem retagged_add : retagged I path (log ++ [.modifyFileTags path [t] "add" (.ok ())]) n ↔
    afterModify "add" [t] (retagged I path log) n := by
  simp [retagged, afterModify_add, or_assoc]

theorem retagged_failed : retagged I path (log ++ [.modifyFileTags path [t] op (.error e)]) n ↔
    retagged I path log n := by
  simp [retagged]

end Retagged

/-- One retagging call. -/
theorem wp_retagOne {op tag : String} {Q : Unit → World × List (Call F) → Prop}
    {E : OpError → World × List (Call F) → Prop} (h : Shows w path id X I G)
    (hok : ∀ w', Shows w' path id X (afterModify op [tag] I) G →
      Q () (w', log ++ [.modifyFileTags path [tag] op (.ok ())]))
    (herr : ∀ e w', Shows w' path id X I G →
      Q () (w', log ++ [.modifyFileTags path [tag] op (.error e)])) :
    wp (alone (orElse () (atom (.modifyFileTags path [tag] op) (onIndex (modifyFileTags path [tag] op)))))
      Q E (w, log) :=
  wp_alone_orElse (wp_alone_call recorded_modifyFileTags (fun _ => rfl)
    (fun _ w' he => hok w' (h.modifyFileTags he)) fun e w' he => herr e w' (h.modifyFileTags_failed he))

theorem wp_retag {E : OpError → World × List (Call F) → Prop} (srcTags dstTags : List String)
    (h : Shows w path id X I G) : wp (alone (retag (F := F) path srcTags dstTags))
      (fun _ st => Shows st.1 path id X (retagged I path st.2) G) E (w, []) := by
  refine wp_alone_andThen ?_
  rw [alone, record_each]
  -- First the removals: no tag has been added yet.
  refine (wp_each (fun _ st => Shows st.1 path id X (retagged I path st.2) G ∧
    ∀ n r, .modifyFileTags path [n] "add" r ∉ st.2) ?_ ⟨h.congr_index (by simp [retagged]), by simp⟩).mono
      ?_ fun _ _ h => h
  · rintro done t rest ⟨w', log⟩ - ⟨h', hno⟩
    refine wp_retagOne h' (fun w'' h'' => ⟨?_, ?_⟩) fun e w'' h'' => ⟨?_, ?_⟩
    · exact h''.congr_index fun n => retagged_remove (hno n _)
    · intro n r
      simp [hno n r]
    · exact h''.congr_index fun n => retagged_failed
    · intro n r
      simp [hno n r]
  · rintro _ ⟨w', log⟩ ⟨h', -⟩
    rw [alone, record_each]
    refine wp_each (fun (_ : List String) (st : World × List (Call F)) =>
      Shows st.1 path id X (retagged I path st.2) G) ?_ h'
    rintro done t rest ⟨w'', log⟩ - h''
    refine wp_retagOne h'' (fun w₃ h₃ => ?_) fun e w₃ h₃ => ?_
    · exact h₃.congr_index fun n => retagged_add
    · exact h₃.congr_index fun n => retagged_failed

theorem UpToDate.resyncs (h : UpToDate w path) : Resyncs P w path := by
  obtain ⟨tags, hX, hI⟩ := h
  intro env stat tags' htags'
  have hsame : tags' = tags := Except.ok.inj (htags'.symm.trans hX)
  refine (wp_syncFile P env stat (Shows.refl w path)).mono ?_ fun _ st h' => h'.index
  rintro _ ⟨w', log⟩ ⟨i, read, -, rfl, h'⟩ hread n
  have hread : tags' = read := by simpa using hread
  rw [h'.index n, hI n, ← hread, hsame]

/-- **When a change leaves index and attribute in agreement.** For every kind of change, every state and
whatever fails on the way: if the change reports success, the index holds the tags of the attribute, so
that a synchronisation changes nothing, exactly if `Agrees` says so. -/
theorem upToDate_after_iff (c : TagChange F) (hc : c.About w path) :
    wp (alone (c.run P env path))
      (fun ok st => ok = true → (UpToDate st.1 path ∧ Resyncs P st.1 path ↔ c.Agrees env w path st.2))
      (fun _ _ => True) (w, []) := by
  have hboth : ∀ w', (UpToDate w' path ∧ Resyncs P w' path) ↔ UpToDate w' path :=
    fun w' => and_iff_left_of_imp (UpToDate.resyncs P)
  simp only [hboth]
  have h := Shows.refl w path
  cases c with
  | handleTag op tags =>
    refine wp_alone_andThen ((wp_handleTagPath env h).mono ?_ fun _ _ _ => trivial)
    rintro _ ⟨w', log⟩ ⟨X', G', h', rfl⟩
    refine wp_alone_pure fun _ => ?_
    rw [upToDate_iff h']
    unfold TagChange.Agrees
    refine exists_congr fun X => and_congr_left fun _ => ?_
    split_ifs
    · exact ⟨fun hX => (Except.ok.inj hX).symm, fun hX => congrArg Except.ok hX.symm⟩
    · exact Iff.rfl
  | applyDiff i existingTags diff =>
    have hc : w.db.fileId path = some i := hc
    rw [hc] at h
    refine wp_alone_andThen ((wp_applyDiff P env h).mono ?_ fun _ _ _ => trivial)
    rintro _ ⟨w', log⟩ h'
    refine wp_alone_pure fun _ => ?_
    rw [upToDate_written h']
    exact Iff.rfl
  | sweepFile =>
    refine wp_alone_andThen ((wp_sweepFile P env h).mono ?_ fun _ _ _ => trivial)
    rintro _ ⟨w', log⟩ ⟨q, overrides, hq, h'⟩
    refine wp_alone_pure fun _ => ?_
    have hagrees : TagChange.sweepFile.Agrees env w path log ↔ if (q.diff overrides).added = [] then
        UpToDate w path else ∀ n, n ∈ q.existingTags ++ (q.diff overrides).added ↔
          n ∈ stored (q.existingTags ++ (q.diff overrides).added) := by
      unfold TagChange.Agrees
      rw [hq]
      simp
    rw [hagrees]
    split_ifs at h' ⊢ with hadded
    · rw [upToDate_iff h', upToDate_iff h]
    · rw [upToDate_written h']
  | syncFile stat =>
    refine wp_alone_andThen ((wp_syncFile P env stat h).mono ?_ fun _ _ _ => trivial)
    rintro _ ⟨w', log⟩ ⟨i, tags, -, rfl, h'⟩
    refine wp_alone_pure fun _ => ?_
    rw [upToDate_iff h']
    exact Iff.rfl
  | rename d name newParent =>
    have hpath : d.cache.bind (· name) = some path := hc
    have hnothing : (UpToDate w path ↔
        (TagChange.rename d name newParent).Agrees env w path ([] : List (Call F))) := by
      rw [upToDate_iff h]
      simp [TagChange.Agrees]
    refine wp_alone_andThen ?_
    unfold rename
    split
    · exact wp_alone_pure (wp_alone_pure fun h => by simp at h)
    · exact wp_alone_pure (wp_alone_pure fun h => by simp at h)
    · rename_i dest byName hcache
      have hname : byName name = some path := by simpa [hcache] using hpath
      simp only [hname]
      split_ifs
      · exact wp_alone_pure (wp_alone_pure fun _ => hnothing)
      · split
        · refine wp_alone_andThen ((wp_retag _ _ h).mono ?_ fun _ _ h => h)
          rintro _ ⟨w', log⟩ h'
          refine wp_alone_pure (wp_alone_pure fun _ => ?_)
          rw [upToDate_iff h']
          exact Iff.rfl
        · exact wp_alone_pure (wp_alone_pure fun h => by simp at h)
  | setxattr data flags =>
    refine wp_alone_andThen (wp_alone_call recorded_setxattrTags (fun _ => rfl) (fun _ w' he => ?_)
      fun _ _ _ => trivial)
    refine wp_alone_pure fun _ => ?_
    rw [upToDate_iff (h.setxattrTags he)]
    exact Iff.rfl

end Changes

/-! ### A move inside the mount -/

/-- One file with one tag, which index and attribute agree on. -/
def movedWorld : World :=
  worldOf ⟨{ files := [⟨1, "/a", 0, 0, 0, 0, 0⟩], tags := [⟨1, "x", 1⟩], fileTags := [⟨1, 1⟩] }, by decide⟩
    [("/a", { stat := ⟨0, 0, 0, 0⟩, tags := some "x" })]

/-- The link of the file is moved from the directory of one tag to that of another. -/
def move : TagChange Unit :=
  .rename ⟨"x", { isTag := true, tags := ["x"] }, some fun name => if name = "a" then some "/a" else none⟩
    "a" (some ⟨"y", { isTag := true, tags := ["y"] }, none⟩)

/-- The move, with no fault. -/
def moved : Except OpError Bool × Conn (World × List (Call Unit)) :=
  alone (move.run plainPlatform (plainEnv []) "/a") ⟨(movedWorld, []), []⟩

/-- `Rename` returns 0, and the attribute still has the old tag. -/
theorem move_out_of_date : UpToDate movedWorld "/a" ∧ moved.1 = .ok true ∧
    ¬ (UpToDate moved.2.store.1 "/a" ∧ Resyncs plainPlatform moved.2.store.1 "/a") := by
  have hindex : ∀ {w : World} {l : List String}, w.db.fileId "/a" = some 1 → w.db.fileTagNames 1 = l →
      ∀ n, IndexTag w "/a" n ↔ n ∈ l := by
    intro w l hid hl n
    rw [indexTag_iff hid, ← w.db.valid.mem_fileTagNames, hl]
  refine ⟨⟨["x"], by decide +kernel, hindex (by decide +kernel) (by decide +kernel)⟩, by decide +kernel, ?_⟩
  rintro ⟨⟨tags, hX, hI⟩, -⟩
  have htags : xattrTags moved.2.store.1 "/a" = .ok ["x"] := by decide +kernel
  have hy : IndexTag moved.2.store.1 "/a" "y" :=
    (hindex (l := ["y"]) (by decide +kernel) (by decide +kernel) "y").mpr (by simp)
  have hmem := (hI "y").mp hy
  rw [← Except.ok.inj (htags.symm.trans hX)] at hmem
  simp at hmem

theorem upToDate_after_iff_moved : wp (alone (move.run plainPlatform (plainEnv []) "/a"))
    (fun ok st => ok = true → (UpToDate st.1 "/a" ∧ Resyncs plainPlatform st.1 "/a" ↔
      move.Agrees (plainEnv []) movedWorld "/a" st.2)) (fun _ _ => True) (movedWorld, []) :=
  upToDate_after_iff plainPlatform (plainEnv []) move rfl

end Tilbo.Daemon.Agreement
