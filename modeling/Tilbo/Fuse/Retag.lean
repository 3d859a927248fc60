import Tilbo.Daemon.Agreement

/-! # What a move between tag directories does

`TagDir.Rename` takes the include tags of the source directory off the file, one call of the index for
each, and puts those of the destination on it. The exclude list of the destination is not looked at, and
an error of a call is logged. So the file ends up in the destination directory exactly if nothing fails
and no exclude tag is left over (`retags_iff`). -/

namespace Tilbo.Fuse.Retag

open Tilbo.Daemon.State Tilbo.Daemon.Calls Tilbo.Daemon.Alone Tilbo.Daemon.Agreement
open Tilbo.Daemon.Operations Tilbo.Fuse.Server Tilbo.Index.Schema Tilbo.Index.Store
open Tilbo.Index.StoreSpec Tilbo.Lib.Txn Tilbo.Lib.Process Tilbo.Lib.Process.Proc

variable {F : Type} {w : World} {path : String} {log : List (Call F)}

/-! ### The calls of a move -/

/-- A call for one tag in one of the loops. -/
def retagOne (path op tag : String) : Prog (World × List (Call F)) OpError Unit :=
  record recorded (orElse () (atom (.modifyFileTags path [tag] op) (onIndex (modifyFileTags path [tag] op))))

/-- The call, as the index runs it. -/
abbrev indexCall (path op tag : String) : Act Unit := onIndex (modifyFileTags path [tag] op)

theorem retagOne_run {op tag : String} {fs : List Bool} : retagOne path op tag ⟨(w, log), fs⟩ =
    (.ok (), ⟨((indexCall path op tag ⟨w, fs⟩).2.store,
      log ++ [.modifyFileTags path [tag] op (indexCall path op tag ⟨w, fs⟩).1]),
      (indexCall path op tag ⟨w, fs⟩).2.faults⟩) := by
  unfold retagOne orElse
  rw [record_andThen, record_attempt]
  simp only [bind, Prog.andThen, Prog.attempt, record_atom]
  cases (indexCall path op tag ⟨w, fs⟩).1 <;> rfl

theorem spends_indexCall {op tag : String} {i : ℕ} (hop : op = "add" ∨ op = "remove")
    (hi : w.db.fileId path = some i) :
    Spends (indexCall path op tag) w (modifyStatements w.db tag op) fun _ w' =>
      w'.db.fileId path = some i ∧ (op = "remove" → ∀ n, w'.db.tagId n = w.db.tagId n) :=
  Spends.wrap (Spends.zoom (spends_modifyFileTags hop hi))

/-- A path without a row makes every call fail. -/
theorem indexCall_missing (op tag : String) (hi : w.db.fileId path = none) (fs : List Bool) :
    ∃ e, (indexCall path op tag ⟨w, fs⟩).1 = .error e := by
  have h := (recorded_modifyFileTags : Recorded (F := Unit) (.modifyFileTags path [tag] op) _) w fs
  cases hr : indexCall path op tag ⟨w, fs⟩ with
  | mk r c =>
    cases r with
    | error e => exact ⟨e, rfl⟩
    | ok a =>
      rw [show onIndex (modifyFileTags path [tag] op) ⟨w, fs⟩ = _ from hr] at h
      obtain ⟨db, -, i, hi', -⟩ := h
      exact absurd (hi.symm.trans hi') (by simp)

/-- A call of the log failed. -/
def Failed (log : List (Call F)) : Prop := ∃ p tags op e, .modifyFileTags p tags op (.error e) ∈ log

theorem Failed.append_left {calls : List (Call F)} (h : Failed log) : Failed (log ++ calls) := by
  obtain ⟨p, tags, op, e, h⟩ := h
  exact ⟨p, tags, op, e, List.mem_append_left _ h⟩

/-- A loop goes through all its tags, and its calls are logged. -/
theorem each_grows (path op : String) : ∀ (tags : List String) (w : World) (log : List (Call F))
    (fs : List Bool), ∃ w' calls fs', Prog.each (retagOne path op) tags ⟨(w, log), fs⟩ =
      (.ok (), ⟨(w', log ++ calls), fs'⟩)
  | [], w, log, fs => ⟨w, [], fs, by simp [Prog.each, Prog.ret]⟩
  | tag :: tags, w, log, fs => by
    obtain ⟨w', calls, fs', h⟩ := each_grows path op tags (indexCall path op tag ⟨w, fs⟩).2.store
      (log ++ [.modifyFileTags path [tag] op (indexCall path op tag ⟨w, fs⟩).1])
      (indexCall path op tag ⟨w, fs⟩).2.faults
    refine ⟨w', .modifyFileTags path [tag] op (indexCall path op tag ⟨w, fs⟩).1 :: calls, fs', ?_⟩
    simp only [Prog.each, Prog.andThen, retagOne_run]
    rw [h, List.append_assoc]
    rfl

/-- One loop: it gets through without a failed call exactly if none of its statements fails. -/
theorem loop_run (path op : String) (I : World → Prop) (cost : String → ℕ)
    (hcall : ∀ w tag, I w → Spends (indexCall path op tag) w (cost tag) fun _ w' => I w') :
    ∀ (tags : List String) (w : World) (log : List (Call F)) (fs : List Bool), I w →
      (true ∈ fs.take (tags.map cost).sum → Failed (Prog.each (retagOne path op) tags ⟨(w, log), fs⟩).2.store.2) ∧
      (true ∉ fs.take (tags.map cost).sum → ∃ w', I w' ∧ Prog.each (retagOne path op) tags ⟨(w, log), fs⟩ =
        (.ok (), ⟨(w', log ++ tags.map fun t => .modifyFileTags path [t] op (.ok ())),
          fs.drop (tags.map cost).sum⟩))
  | [], w, log, fs, hw => by
    refine ⟨fun hfs => absurd hfs (by simp), fun _ => ⟨w, hw, ?_⟩⟩
    simp [Prog.each, Prog.ret]
  | tag :: tags, w, log, fs, hw => by
    have hstep : ∀ w' log' fs', retagOne path op tag ⟨(w, log), fs⟩ = (.ok (), ⟨(w', log'), fs'⟩) →
        Prog.each (retagOne (F := F) path op) (tag :: tags) ⟨(w, log), fs⟩ =
          Prog.each (retagOne path op) tags ⟨(w', log'), fs'⟩ := by
      intro w' log' fs' h
      simp only [Prog.each, Prog.andThen, h]
    rw [List.map_cons, List.sum_cons, mem_take_add, ← List.drop_drop]
    by_cases hfs : true ∈ fs.take (cost tag)
    · obtain ⟨e, c, hr⟩ := (hcall w tag hw fs).1 hfs
      rw [hstep _ _ _ retagOne_run, hr]
      refine ⟨fun _ => ?_, fun hno => absurd (Or.inl hfs) hno⟩
      obtain ⟨w', calls, fs', hcalls⟩ := each_grows path op tags c.store
        (log ++ [.modifyFileTags path [tag] op (.error e)]) c.faults
      rw [hcalls]
      exact Failed.append_left ⟨path, [tag], op, e, by simp⟩
    · obtain ⟨a, w', hr, hw'⟩ := (hcall w tag hw fs).2 hfs
      rw [hstep _ _ _ retagOne_run, hr]
      obtain ⟨hbad, hgood⟩ := loop_run path op I cost hcall tags w' (log ++ [.modifyFileTags path [tag] op (.ok a)])
        (fs.drop (cost tag)) hw'
      refine ⟨fun h => hbad (h.resolve_left hfs), fun h => ?_⟩
      obtain ⟨w'', hw'', hrun⟩ := hgood fun h' => h (Or.inr h')
      exact ⟨w'', hw'', by rw [hrun]; simp⟩

/-- The statements of both loops, if none of them fails. -/
def statements (db : DB) (srcTags dstTags : List String) : ℕ :=
  (srcTags.map fun t => modifyStatements db t "remove").sum +
    (dstTags.map fun t => modifyStatements db t "add").sum

theorem alone_retag (srcTags dstTags : List String) : alone (retag (F := F) path srcTags dstTags) =
    (Prog.each (retagOne path "remove") srcTags >>= fun _ =>
      Prog.each (retagOne path "add") dstTags) := by
  rw [alone, retag, record_andThen, record_each, record_each]
  rfl

/-- What is logged stays logged while the loops go on. -/
theorem loops_grow (path : String) (srcTags dstTags : List String) (w : World) (log : List (Call F)) (fs : List Bool) :
    ∃ w' calls fs', (Prog.each (retagOne path "remove") srcTags >>= fun _ =>
      Prog.each (retagOne path "add") dstTags) ⟨(w, log), fs⟩ = (.ok (), ⟨(w', log ++ calls), fs'⟩) := by
  obtain ⟨w', calls, fs', h⟩ := each_grows path "remove" srcTags w log fs
  obtain ⟨w'', calls', fs'', h'⟩ := each_grows path "add" dstTags w' (log ++ calls) fs'
  refine ⟨w'', calls ++ calls', fs'', ?_⟩
  simp only [bind, Prog.andThen, h]
  rw [h', List.append_assoc]

/-- Both loops, on a file of the index. -/
theorem retag_run {i : ℕ} (hi : w.db.fileId path = some i) (srcTags dstTags : List String) (fs : List Bool) :
    (true ∈ fs.take (statements w.db srcTags dstTags) →
      Failed (alone (retag (F := F) path srcTags dstTags) ⟨(w, []), fs⟩).2.store.2) ∧
    (true ∉ fs.take (statements w.db srcTags dstTags) →
      (alone (retag (F := F) path srcTags dstTags) ⟨(w, []), fs⟩).2.store.2 =
        (srcTags.map fun t => .modifyFileTags path [t] "remove" (.ok ())) ++
          dstTags.map fun t => .modifyFileTags path [t] "add" (.ok ())) := by
  have hremove := loop_run (F := F) path "remove"
    (fun w' => w'.db.fileId path = some i ∧ ∀ n, w'.db.tagId n = w.db.tagId n)
    (fun t => modifyStatements w.db t "remove") (fun w' tag hw' => by
      have hcost : modifyStatements w.db tag "remove" = modifyStatements w'.db tag "remove" := by
        rw [modifyStatements, modifyStatements, hw'.2]
      rw [hcost]
      exact (spends_indexCall (Or.inr rfl) hw'.1).mono fun _ w'' h =>
        ⟨h.1, fun n => (h.2 rfl n).trans (hw'.2 n)⟩) srcTags w [] fs ⟨hi, fun _ => rfl⟩
  have hadd := loop_run (F := F) path "add" (fun w' => w'.db.fileId path = some i)
    (fun t => modifyStatements w.db t "add") (fun w' tag hw' => by
      have hcost : modifyStatements w.db tag "add" = modifyStatements w'.db tag "add" := by
        simp [modifyStatements]
      rw [hcost]
      exact (spends_indexCall (Or.inl rfl) hw').mono fun _ w'' h => h.1) dstTags
  rw [alone_retag, statements, mem_take_add]
  by_cases hfs : true ∈ fs.take (srcTags.map fun t => modifyStatements w.db t "remove").sum
  · refine ⟨fun _ => ?_, fun hno => absurd (Or.inl hfs) hno⟩
    have hfailed := hremove.1 hfs
    obtain ⟨w', calls, fs', hrun⟩ := each_grows (F := F) path "remove" srcTags w [] fs
    obtain ⟨w'', calls', fs'', hrun'⟩ := each_grows path "add" dstTags w' ([] ++ calls) fs'
    rw [hrun] at hfailed
    simp only [bind, Prog.andThen, hrun]
    rw [hrun']
    exact hfailed.append_left
  · obtain ⟨w', hw', hrun⟩ := hremove.2 hfs
    have hadd := hadd w' ([] ++ srcTags.map fun t => .modifyFileTags path [t] "remove" (.ok ()))
      (fs.drop (srcTags.map fun t => modifyStatements w.db t "remove").sum) hw'.1
    simp only [bind, Prog.andThen, hrun]
    refine ⟨fun h => hadd.1 (h.resolve_left hfs), fun h => ?_⟩
    obtain ⟨w'', -, hrun'⟩ := hadd.2 fun h' => h (Or.inr h')
    rw [hrun']
    rfl

/-- A file that is not in the index: the first call fails. -/
theorem retag_missing (hi : w.db.fileId path = none) {srcTags : List String} (hsrc : srcTags ≠ [])
    (dstTags : List String) (fs : List Bool) :
    Failed (alone (retag (F := F) path srcTags dstTags) ⟨(w, []), fs⟩).2.store.2 := by
  obtain ⟨tag, tags, rfl⟩ := List.exists_cons_of_ne_nil hsrc
  obtain ⟨e, he⟩ := indexCall_missing "remove" tag hi fs
  have hfirst : retagOne path "remove" tag ⟨(w, ([] : List (Call F))), fs⟩ = _ := retagOne_run
  rw [he] at hfirst
  have hrest : alone (retag (F := F) path (tag :: tags) dstTags) ⟨(w, []), fs⟩ =
      (Prog.each (retagOne path "remove") tags >>= fun _ => Prog.each (retagOne path "add") dstTags)
        ⟨((indexCall path "remove" tag ⟨w, fs⟩).2.store,
          [] ++ [.modifyFileTags path [tag] "remove" (.error e)]),
          (indexCall path "remove" tag ⟨w, fs⟩).2.faults⟩ := by
    rw [alone_retag]
    simp only [bind, Prog.andThen, Prog.each, hfirst]
  obtain ⟨w', calls, fs', hcalls⟩ := loops_grow path tags dstTags
    (indexCall path "remove" tag ⟨w, fs⟩).2.store
    ([] ++ [.modifyFileTags path [tag] "remove" (.error e)] : List (Call F))
    (indexCall path "remove" tag ⟨w, fs⟩).2.faults
  rw [hrest, hcalls]
  exact Failed.append_left ⟨path, [tag], "remove", e, by simp⟩

/-! ### When a move does what it says -/

/-- The tags after the move are those of the destination, and nothing else has changed. -/
structure Retagged (before after : String → Prop) (src dst : Expr) : Prop where
  included : ∀ t ∈ dst.tags, after t
  excluded : ∀ t ∈ dst.tagExclude, ¬ after t
  removed : ∀ t ∈ src.tags, t ∉ dst.tags → ¬ after t
  others : ∀ t, t ∉ src.tags → t ∉ dst.tags → t ∉ dst.tagExclude → (after t ↔ before t)

/-- A plain tag directory: an AND of tags and of exclusions. -/
def Plain (e : Expr) : Prop := e.isTag = true ∧ e.tagsAny = false

/-- The move, run alone: what it returned, and the world and the calls it leaves. -/
def moved (w : World) (src : TagDir) (name : String) (dst : TagDir) (faults : List Bool) :
    Except OpError Errno × Conn (World × List (Call F)) :=
  alone (rename src name (some dst)) ⟨(w, []), faults⟩

/-- If the move returns 0 the file is retagged, and if a call of the index failed it returns an error and
the tags are as before. -/
def Retags (F : Type) (w : World) (src : TagDir) (name path : String) (dst : TagDir) (faults : List Bool) :
    Prop :=
  let r := moved (F := F) w src name dst faults
  (r.1 = .ok .ok →
    Retagged (IndexTag w path) (IndexTag r.2.store.1 path) src.expr dst.expr) ∧
  (Failed r.2.store.2 → r.1 ≠ .ok .ok ∧ ∀ t, IndexTag r.2.store.1 path t ↔ IndexTag w path t)

/-- After both loops, with no failure. -/
theorem retagged_log {I : String → Prop} {srcTags dstTags : List String} {n : String} :
    retagged I path ((srcTags.map fun t => (.modifyFileTags path [t] "remove" (.ok ()) : Call F)) ++
      dstTags.map fun t => .modifyFileTags path [t] "add" (.ok ())) n ↔
        (I n ∧ n ∉ srcTags) ∨ n ∈ dstTags := by
  simp [retagged]

theorem retagged_iff {I J : String → Prop} {src dst : Expr}
    (hJ : ∀ n, J n ↔ (I n ∧ n ∉ src.tags) ∨ n ∈ dst.tags) : Retagged I J src dst ↔
      ∀ t ∈ dst.tagExclude, t ∉ dst.tags ∧ (I t → t ∈ src.tags) := by
  refine ⟨fun h t ht => ?_, fun h => ⟨fun t ht => ?_, fun t ht => ?_, fun t ht hno => ?_, fun t hs hd _ => ?_⟩⟩
  · have hno := h.excluded t ht
    rw [hJ, not_or, not_and, not_not] at hno
    exact ⟨hno.2, hno.1⟩
  · exact (hJ t).mpr (Or.inr ht)
  · rw [hJ, not_or, not_and, not_not]
    exact ⟨(h t ht).2, (h t ht).1⟩
  · rw [hJ, not_or, not_and, not_not]
    exact ⟨fun _ => ht, hno⟩
  · rw [hJ]
    simp [hs, hd]

section Move
variable {src dst : TagDir} {name : String} {faults : List Bool}

/-- A move between plain directories that ask for tags runs both loops. -/
theorem moved_loops (hlisted : src.cache.bind (· name) = some path) (hsrc : Plain src.expr)
    (hdst : Plain dst.expr) (hne : src.name ≠ dst.name) (hs : src.expr.tags ≠ [])
    (hd : dst.expr.tags ≠ []) : moved (F := F) w src name dst faults =
      (alone (retag (F := F) path src.expr.tags dst.expr.tags >>= fun _ => pure Errno.ok) ⟨(w, []), faults⟩) := by
  obtain ⟨byName, hcache, hname⟩ := Option.bind_eq_some_iff.mp hlisted
  have hsimple : ∀ {e : Expr}, Plain e → e.tags ≠ [] → simpleTagsFromExpr e = some e.tags := by
    rintro e ⟨he, ha⟩ ht
    simp [simpleTagsFromExpr, he, ha, ht]
  unfold moved rename
  simp only [hcache, hname, if_neg hne, hsimple hsrc hs, hsimple hdst hd]

/-- A directory that asks for no tag is no source and no destination. -/
theorem moved_refused (hlisted : src.cache.bind (· name) = some path) (hne : src.name ≠ dst.name)
    (ht : src.expr.tags = [] ∨ dst.expr.tags = []) :
    moved (F := F) w src name dst faults = (.ok .eperm, ⟨(w, []), faults⟩) := by
  obtain ⟨byName, hcache, hname⟩ := Option.bind_eq_some_iff.mp hlisted
  have hrefuse : simpleTagsFromExpr src.expr = none ∨ simpleTagsFromExpr dst.expr = none :=
    ht.imp (fun h => by simp [simpleTagsFromExpr, h]) fun h => by simp [simpleTagsFromExpr, h]
  unfold moved rename
  simp only [hcache, hname, if_neg hne]
  rcases hrefuse with h | h
  · rw [h]
    rfl
  · rw [h]
    cases simpleTagsFromExpr src.expr <;> rfl

/-- **When `mv` retags.** Between two different plain directories, for every state of the index, every
listed file and whatever fails: the move is right exactly if one of them asks for no tag (it is refused), or
the file is in the index, no statement of the loops fails, and no tag the destination excludes is also asked
for by it, or on the file and not taken off with the tags of the source. -/
theorem retags_iff (hlisted : src.cache.bind (· name) = some path) (hsrc : Plain src.expr)
    (hdst : Plain dst.expr) (hne : src.name ≠ dst.name) :
    Retags F w src name path dst faults ↔ src.expr.tags = [] ∨ dst.expr.tags = [] ∨
      w.db.HasPath path ∧ true ∉ faults.take (statements w.db src.expr.tags dst.expr.tags) ∧
        ∀ t ∈ dst.expr.tagExclude, t ∉ dst.expr.tags ∧ (IndexTag w path t → t ∈ src.expr.tags) := by
  by_cases ht : src.expr.tags = [] ∨ dst.expr.tags = []
  · refine iff_of_true ?_ (ht.imp_right Or.inl)
    unfold Retags
    rw [moved_refused hlisted hne ht]
    exact ⟨fun h => by simp at h, fun ⟨_, _, _, _, h⟩ => absurd h List.not_mem_nil⟩
  · obtain ⟨hs, hd⟩ := not_or.mp ht
    simp only [hs, hd, false_or]
    obtain ⟨w', calls, fs', hrun⟩ := loops_grow (F := F) path src.expr.tags dst.expr.tags w [] faults
    rw [← alone_retag] at hrun
    have hmoved : moved (F := F) w src name dst faults = (.ok .ok, ⟨(w', [] ++ calls), fs'⟩) := by
      rw [moved_loops hlisted hsrc hdst hne hs hd, alone, record_andThen]
      simp only [bind, Prog.andThen]
      rw [show record recorded (retag path src.expr.tags dst.expr.tags) ⟨(w, []), faults⟩ = _ from hrun]
      rfl
    have hshows := wp_retag (F := F) (E := fun _ _ => False) src.expr.tags dst.expr.tags
      (Shows.refl w path) faults
    rw [hrun] at hshows
    have hright : Retags F w src name path dst faults ↔
        Retagged (IndexTag w path) (IndexTag w' path) src.expr dst.expr ∧ ¬ Failed ([] ++ calls) := by
      unfold Retags
      rw [hmoved]
      simp
    rw [hright]
    cases hi : w.db.fileId path with
    | none =>
      have hfailed := retag_missing (F := F) hi hs dst.expr.tags faults
      rw [hrun] at hfailed
      exact iff_of_false (fun h => h.2 hfailed) fun h => Tables.fileId_none_iff.mp hi h.1
    | some i =>
      have hpath : w.db.HasPath path := by
        obtain ⟨f, hf, hp, -⟩ := w.db.valid.fileId_iff.mp hi
        exact ⟨f, hf, hp⟩
      obtain ⟨hbad, hgood⟩ := retag_run (F := F) hi src.expr.tags dst.expr.tags faults
      rw [hrun] at hbad hgood
      by_cases hfs : true ∈ faults.take (statements w.db src.expr.tags dst.expr.tags)
      · exact iff_of_false (fun h => h.2 (hbad hfs)) fun h => h.2.1 hfs
      · have hlog := hgood hfs
        have hJ : ∀ n, IndexTag w' path n ↔ (IndexTag w path n ∧ n ∉ src.expr.tags) ∨ n ∈ dst.expr.tags :=
          fun n => by rw [hshows.index n, hlog, retagged_log]
        have hnot : ¬ Failed ([] ++ calls) := by
          rintro ⟨p, tags, op, e, h⟩
          rw [show [] ++ calls = _ from hlog] at h
          simp at h
        rw [retagged_iff hJ, and_iff_left hnot]
        exact ⟨fun h => ⟨hpath, hfs, h⟩, fun h => h.2.2⟩

end Move

/-! ### An exclusion that is left over -/

/-- A file with the tags `work` and `archived`. -/
def archivedWorld : World :=
  worldOf ⟨{ files := [⟨1, "/a", 0, 0, 0, 0, 0⟩], tags := [⟨1, "work", 1⟩, ⟨2, "archived", 1⟩],
             fileTags := [⟨1, 1⟩, ⟨1, 2⟩] }, by decide⟩
    [("/a", { stat := ⟨0, 0, 0, 0⟩, tags := some "work,archived" })]

/-- The directory `work`, which lists the file. -/
def work : TagDir :=
  ⟨"work", { isTag := true, tags := ["work"] }, some fun name => if name = "a" then some "/a" else none⟩

/-- The directory `work+!archived`. -/
def notArchived : TagDir :=
  ⟨"work+!archived", { isTag := true, tags := ["work"], tagExclude := ["archived"] }, none⟩

/-- `mv work/a work+!archived/` returns 0, and the file is still archived. -/
theorem archived_not_retagged : ¬ Retags Unit archivedWorld work "a" "/a" notArchived [] := by
  rintro ⟨hok, -⟩
  have hrun : (moved (F := Unit) archivedWorld work "a" notArchived []).1 = .ok .ok := by decide +kernel
  refine (hok hrun).excluded "archived" (by decide) ?_
  have hid : (moved (F := Unit) archivedWorld work "a" notArchived []).2.store.1.db.fileId "/a" = some 1 := by
    decide +kernel
  rw [indexTag_iff hid, ← DB.valid _ |>.mem_fileTagNames]
  decide +kernel

theorem retags_iff_archived : Retags Unit archivedWorld work "a" "/a" notArchived [] ↔
    work.expr.tags = [] ∨ notArchived.expr.tags = [] ∨
      archivedWorld.db.HasPath "/a" ∧
        true ∉ [].take (statements archivedWorld.db work.expr.tags notArchived.expr.tags) ∧
        ∀ t ∈ notArchived.expr.tagExclude, t ∉ notArchived.expr.tags ∧
          (IndexTag archivedWorld "/a" t → t ∈ work.expr.tags) :=
  retags_iff rfl ⟨rfl, rfl⟩ ⟨rfl, rfl⟩ (by decide)

end Tilbo.Fuse.Retag
