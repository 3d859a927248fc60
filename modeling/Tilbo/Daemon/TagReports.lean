import Tilbo.Daemon.Alone
import Tilbo.Index.PartialTags

/-! # What `handleTag` reports

A tag request goes path by path. Each turn writes the attribute first and then the index, and only the index decides
in which list the path ends. `reports_iff` says when the lists tell the truth about both. -/

namespace Tilbo.Daemon.TagReports

open Tilbo.Daemon.State Tilbo.Daemon.Calls Tilbo.Daemon.Handlers Tilbo.Daemon.Alone Tilbo.Xattr.Csv
open Tilbo.Xattr.Service Tilbo.Index.Schema Tilbo.Index.Store Tilbo.Index.StoreSpec Tilbo.Index.PartialTags
open Tilbo.Lib.Pairs Tilbo.Lib.Txn Tilbo.Lib.Process

variable {F : Type} (env : Env F) (op : String) (tags : List String) (path : String) (c : Conn World)

/-! ### One turn -/

/-- The state when the attribute is read: the index has been asked for the old tags. -/
def beforeRead : Conn World := (onIndex (getFileTags path) c).2

/-- The two steps of the read come through. -/
def Reads (fs : List Bool) : Prop := true ∉ fs.take 2

instance (fs : List Bool) : Decidable (Reads fs) := inferInstanceAs (Decidable (_ ∉ _))

/-- The file is there, and the two steps of the write come through; a read that is cancelled has one step. -/
def Writes (file : Option File) (fs : List Bool) : Prop :=
  file.isSome ∧ true ∉ (fs.drop (if fs.headD false then 1 else 2)).take 2

instance (file : Option File) (fs : List Bool) : Decidable (Writes file fs) :=
  inferInstanceAs (Decidable (_ ∧ _))

/-- What a turn writes over the attribute. -/
def merged (X : Except ParseError (List String)) : List String :=
  env.order.visit (applyOp op (if Reads (beforeRead path c).faults then X.toOption.getD [] else []) tags)

/-- What a turn makes of the attribute. -/
def attrStep (X : Except ParseError (List String)) : Except ParseError (List String) :=
  if Writes (c.store.files path) (beforeRead path c).faults then .ok (stored (merged env op tags path c X)) else X

/-- The state when the index is changed. -/
def beforeIndex : Conn World := (Proc.run (applyTagsXattr env path tags op) (beforeRead path c)).2

/-- The index step goes through. -/
def Indexed : Bool := (modifyFileTags path tags op ⟨(beforeIndex env op tags path c).store.db,
  (beforeIndex env op tags path c).faults⟩).1.isOk

/-- If the index step stops half way, what it has done changes nothing. -/
def IndexHarmless : Prop := Harmless path tags op ⟨(beforeIndex env op tags path c).store.db,
  (beforeIndex env op tags path c).faults⟩

/-- The state after a turn. -/
def next : Conn World := (Proc.run (handleTagPath env op tags path) c).2

/-! ### All turns -/

/-- The turns of a request, with the state before each. -/
def turns : List String → Conn World → List (String × Conn World)
  | [], _ => []
  | path :: paths, c => (path, c) :: turns paths (next env op tags path c)

/-- The states before the turns of one path. -/
def turnsOf (paths : List String) : List (Conn World) :=
  ((turns env op tags paths c).filter fun t => t.1 = path).map Prod.snd

/-- What the turns of a path make of its attribute. -/
def attrAfter (ts : List (Conn World)) (X : Except ParseError (List String)) : Except ParseError (List String) :=
  ts.foldl (fun X c => attrStep env op tags path c X) X

/-! ### Honest reports -/

/-- The attribute reads as before, up to the order of the tags. -/
def SameTags (X Y : Except ParseError (List String)) : Prop :=
  X = Y ∨ ∃ l l', X = .ok l ∧ Y = .ok l' ∧ ∀ n, n ∈ l' ↔ n ∈ l

/-- The attribute has the requested change; one that does not parse holds no tags. -/
def HasChange (X Y : Except ParseError (List String)) : Prop :=
  ∃ l, Y = .ok l ∧ ∀ n, n ∈ l ↔ afterModify op tags (· ∈ X.toOption.getD []) n

/-- A response that tells the truth. -/
structure Reports (paths : List String) (r : TagResponse) (w w' : World) : Prop where
  failed : ∀ p ∈ r.pathsError, SameTags (xattrTags w p) (xattrTags w' p) ∧ ∀ n, IndexTag w' p n ↔ IndexTag w p n
  changed : ∀ p ∈ r.pathsOk, HasChange op tags (xattrTags w p) (xattrTags w' p) ∧
    ∀ n, IndexTag w' p n ↔ afterModify op tags (IndexTag w p) n
  once : ∀ p ∈ paths, (p ∉ r.pathsError ∧ r.pathsOk.count p = paths.count p) ∨
    (p ∉ r.pathsOk ∧ r.pathsError.count p = paths.count p)

/-- The turns of a path end alike; if the index step fails, the writes that come through and the tags done in the
index change nothing, and if not, the writes that come through make the requested change. -/
structure Honest (paths : List String) : Prop where
  alike : ∀ t ∈ turnsOf env op tags path c paths, ∀ t' ∈ turnsOf env op tags path c paths,
    Indexed env op tags path t = Indexed env op tags path t'
  failed : (∀ t ∈ turnsOf env op tags path c paths, Indexed env op tags path t = false) →
    SameTags (xattrTags c.store path)
      (attrAfter env op tags path (turnsOf env op tags path c paths) (xattrTags c.store path)) ∧
    ∀ t ∈ turnsOf env op tags path c paths, IndexHarmless env op tags path t
  changed : (∀ t ∈ turnsOf env op tags path c paths, Indexed env op tags path t = true) →
    HasChange op tags (xattrTags c.store path)
      (attrAfter env op tags path (turnsOf env op tags path c paths) (xattrTags c.store path))

/-! ### What a turn does -/

section Turn
variable {env op tags path c} {w w' : World} {fs : List Bool} {q n : String}

theorem beforeRead_store : (beforeRead path c).store = c.store := by
  have h := @recorded_getFileTags Unit path c.store c.faults
  unfold beforeRead
  rcases hrun : onIndex (getFileTags path) c with ⟨e | r, c'⟩ <;>
    rw [show onIndex (getFileTags path) ⟨c.store, c.faults⟩ = _ from hrun] at h <;> exact h.1

theorem ctxErr_fault (h : fs.headD false = true) : ctxErr ⟨w, fs⟩ = (.error .cancelled, ⟨w, fs.tail⟩) :=
  stmt_fault h

theorem ctxErr_ok (h : fs.headD false = false) : ctxErr ⟨w, fs⟩ = (.ok (), ⟨w, fs.tail⟩) := stmt_ok h rfl

/-- A read takes its steps, and gives what is stored if they come through. -/
theorem readTags_run (path : String) (w : World) (fs : List Bool) :
    ∃ r, readTags path ⟨w, fs⟩ = (r, ⟨w, fs.drop (if fs.headD false then 1 else 2)⟩) ∧
      r.toOption.getD [] = if Reads fs then (xattrTags w path).toOption.getD [] else [] := by
  have hreads : Reads fs ↔ ¬ (fs.headD false = true ∨ fs.tail.headD false = true) := not_congr mem_take_two
  simp only [hreads]
  unfold readTags xattrTags
  cases h : fs.headD false with
  | true =>
    refine ⟨.error .cancelled, ?_, by simp [Except.toOption]⟩
    rw [bind_error (ctxErr_fault h), if_pos rfl, List.drop_one]
  | false =>
    have hdrop : fs.drop 2 = fs.tail.tail := by rw [← List.drop_one, ← List.drop_one, List.drop_drop]
    rw [bind_ok (ctxErr_ok h), if_neg Bool.false_ne_true, hdrop]
    cases h' : fs.tail.headD false with
    | true => exact ⟨_, bind_ok (attempt_run (stmt_fault h')), by simp [Except.toOption]⟩
    | false =>
      cases hval : (w.files path).bind File.tags with
      | none =>
        have hget : get path File.tags ⟨w, fs.tail⟩ = (.error .errno, ⟨w, fs.tail.tail⟩) :=
          stmt_error h' (by simp only [hval])
        exact ⟨_, bind_ok (attempt_run hget), by simp [Except.toOption]⟩
      | some val =>
        have hget : get path File.tags ⟨w, fs.tail⟩ = (.ok val, ⟨w, fs.tail.tail⟩) :=
          stmt_ok h' (by simp only [hval])
        rw [bind_ok (attempt_run hget)]
        cases hparse : parseTags val with
        | ok l => exact ⟨.ok l, by simp only [hparse]; rfl, by simp [Except.toOption, hparse]⟩
        | error e => exact ⟨.error _, by simp only [hparse]; rfl, by simp [Except.toOption, hparse]⟩

/-- The world with these tags in the attribute of a file. -/
def withTags (w : World) (path : String) (file : File) (l : List String) : World :=
  { w with files := Function.update w.files path (some { file with tags := some (formatTags l) }) }

/-- A write changes the attribute of the file, or nothing. -/
theorem writeTags_run (path : String) (l : List String) (w : World) (fs : List Bool) :
    (∃ file, w.files path = some file ∧ true ∉ fs.take 2 ∧
      (writeTags path l ⟨w, fs⟩).2.store = withTags w path file l) ∨
    (¬ ((w.files path).isSome ∧ true ∉ fs.take 2) ∧ (writeTags path l ⟨w, fs⟩).2.store = w) := by
  rw [mem_take_two]
  unfold writeTags
  cases h : fs.headD false with
  | true =>
    rw [bind_error (ctxErr_fault h)]
    exact .inr ⟨by simp, rfl⟩
  | false =>
    rw [bind_ok (ctxErr_ok h)]
    cases h' : fs.tail.headD false with
    | true =>
      rw [State.errorf, Prog.wrap, Xattr.Service.set, stmt_fault h']
      exact .inr ⟨by simp, rfl⟩
    | false =>
      cases hfile : w.files path with
      | none =>
        rw [State.errorf, Prog.wrap, Xattr.Service.set, stmt_error (d := .errno) h' (by simp only [hfile]; rfl)]
        exact .inr ⟨by simp, rfl⟩
      | some file =>
        rw [State.errorf, Prog.wrap, Xattr.Service.set, stmt_ok (a := ()) h' (by simp only [hfile]; rfl)]
        exact .inl ⟨file, rfl, by simp, rfl⟩

theorem orElse_run {α : Type} {d : α} {p : Op F α} {r : Except OpError α} {c' : Conn World}
    (h : Proc.run p c = (r, c')) : Proc.run (orElse d p) c = (.ok (r.toOption.getD d), c') := by
  unfold orElse
  rw [Proc.run_andThen, Proc.run_attempt, bind_ok (attempt_run h)]
  cases r <;> rfl

/-- The write of the turn. -/
theorem beforeIndex_store :
    (∃ file, c.store.files path = some file ∧ Writes (c.store.files path) (beforeRead path c).faults ∧
      (beforeIndex env op tags path c).store =
        withTags c.store path file (merged env op tags path c (xattrTags c.store path))) ∨
    (¬ Writes (c.store.files path) (beforeRead path c).faults ∧ (beforeIndex env op tags path c).store = c.store) := by
  obtain ⟨r, hread, hr⟩ := readTags_run path (beforeRead path c).store (beforeRead path c).faults
  have hrun : Proc.run (orElse [] (Proc.atom (Call.readTags path) (readTags path)) : Op F (List String))
      (beforeRead path c) = _ := orElse_run hread
  have hbefore : beforeIndex env op tags path c = (writeTags path (merged env op tags path c (xattrTags c.store path))
      ⟨c.store, (beforeRead path c).faults.drop (if (beforeRead path c).faults.headD false then 1 else 2)⟩).2 := by
    unfold beforeIndex applyTagsXattr merged
    rw [Proc.run_andThen, bind_ok hrun, hr, beforeRead_store]
    rfl
  rw [hbefore]
  rcases writeTags_run path (merged env op tags path c (xattrTags c.store path)) c.store _ with
    ⟨file, hfile, hfs, hstore⟩ | ⟨hno, hstore⟩
  · exact .inl ⟨file, hfile, ⟨by rw [hfile]; rfl, hfs⟩, hstore⟩
  · exact .inr ⟨hno, hstore⟩

theorem beforeIndex_db : (beforeIndex env op tags path c).store.db = c.store.db := by
  obtain ⟨file, -, -, h⟩ | ⟨-, h⟩ := @beforeIndex_store F env op tags path c
  · rw [h, withTags]
  · rw [h]

/-- What the turn makes of the attribute. -/
theorem xattrTags_beforeIndex : xattrTags (beforeIndex env op tags path c).store path =
    attrStep env op tags path c (xattrTags c.store path) := by
  unfold attrStep
  obtain ⟨file, -, hwrites, h⟩ | ⟨hno, h⟩ := @beforeIndex_store F env op tags path c
  · rw [h, if_pos hwrites]
    simp [xattrTags, withTags, parseTags_formatTags]
  · rw [h, if_neg hno]

theorem xattrTags_beforeIndex_other (hq : q ≠ path) :
    xattrTags (beforeIndex env op tags path c).store q = xattrTags c.store q := by
  obtain ⟨file, -, -, h⟩ | ⟨-, h⟩ := @beforeIndex_store F env op tags path c
  · rw [h]
    simp [xattrTags, withTags, Function.update_of_ne hq]
  · rw [h]

theorem refreshGraph_run (c : Conn World) : ∃ c', Proc.run (refreshGraph path : Op F Unit) c = (.ok (), c') ∧
    c'.store.db = c.store.db ∧ c'.store.files = c.store.files := by
  have hstore : (beforeRead path c).store = c.store := beforeRead_store
  unfold beforeRead at hstore
  unfold refreshGraph
  rw [Proc.run_andThen, Proc.run_attempt]
  rcases hrun : onIndex (getFileTags path) c with ⟨e | l, c₁⟩ <;> rw [hrun] at hstore
  · rw [bind_ok (attempt_run (m := Proc.run (listFileTags path : Op F (List String))) hrun)]
    exact ⟨c₁, rfl, by rw [hstore], by rw [hstore]⟩
  · rw [bind_ok (attempt_run (m := Proc.run (listFileTags path : Op F (List String))) hrun)]
    refine ⟨_, rfl, ?_, ?_⟩
    · show c₁.store.db = c.store.db
      rw [show c₁.store = c.store from hstore]
    · show c₁.store.files = c.store.files
      rw [show c₁.store = c.store from hstore]

/-- **A turn.** It ends as its index step does, and leaves what the two steps leave. -/
theorem turn_run (env : Env F) (op : String) (tags : List String) (path : String) (c : Conn World) :
    ∃ r c', Proc.run (handleTagPath env op tags path) c = (r, c') ∧
    r.isOk = Indexed env op tags path c ∧ c'.store.files = (beforeIndex env op tags path c).store.files ∧
    c'.store.db = (modifyFileTags path tags op ⟨(beforeIndex env op tags path c).store.db,
      (beforeIndex env op tags path c).faults⟩).2.store := by
  unfold handleTagPath Indexed
  rw [Proc.run_andThen, bind_ok (orElse_run (p := listFileTags path) (Prod.eta _).symm)]
  dsimp only
  rw [Proc.run_andThen, bind_ok (orElse_run (p := applyTagsXattr env path tags op) (Prod.eta _).symm), Proc.run_andThen]
  change ∃ r c', (onIndex (modifyFileTags path tags op) >>= _) (beforeIndex env op tags path c) = _ ∧ _
  rcases hrun : modifyFileTags path tags op ⟨(beforeIndex env op tags path c).store.db,
    (beforeIndex env op tags path c).faults⟩ with ⟨e | u, d⟩
  · have hindex : onIndex (modifyFileTags path tags op) (beforeIndex env op tags path c) = (.error (.index e),
        ⟨{ (beforeIndex env op tags path c).store with db := d.store }, d.faults⟩) := by
      unfold onIndex Prog.wrap Prog.zoom
      rw [hrun]
    exact ⟨_, _, bind_error hindex, rfl, rfl, rfl⟩
  · have hindex : onIndex (modifyFileTags path tags op) (beforeIndex env op tags path c) = (.ok u,
        ⟨{ (beforeIndex env op tags path c).store with db := d.store }, d.faults⟩) := by
      unfold onIndex Prog.wrap Prog.zoom
      rw [hrun]
    rw [bind_ok hindex, Proc.run_andThen]
    obtain ⟨c', hgraph, hdb, hfiles⟩ := @refreshGraph_run F path
      ⟨{ (beforeIndex env op tags path c).store with db := d.store }, d.faults⟩
    rw [bind_ok hgraph]
    split_ifs
    · exact ⟨_, _, rfl, rfl, hfiles, hdb⟩
    · exact ⟨_, _, rfl, rfl, hfiles, hdb⟩

/-! ### What a turn changes -/

/-- The attributes after a turn. -/
theorem xattrTags_next (q : String) : xattrTags (next env op tags path c).store q =
    if q = path then attrStep env op tags path c (xattrTags c.store path) else xattrTags c.store q := by
  obtain ⟨r, c', hrun, -, hfiles, -⟩ := turn_run env op tags path c
  have hsame : xattrTags (next env op tags path c).store q = xattrTags (beforeIndex env op tags path c).store q := by
    unfold next xattrTags
    rw [hrun, hfiles]
  rw [hsame]
  split_ifs with hq
  · rw [hq, xattrTags_beforeIndex]
  · exact xattrTags_beforeIndex_other hq

/-- What the index step does to the tags of a file. -/
theorem indexTag_next (q : String) : IndexTag (next env op tags path c).store q n ↔
    PathTagged (modifyFileTags path tags op ⟨c.store.db, (beforeIndex env op tags path c).faults⟩).2.store q n := by
  obtain ⟨r, c', hrun, -, -, hdb⟩ := turn_run env op tags path c
  unfold next IndexTag PathTagged
  rw [hrun, hdb, beforeIndex_db]

/-- A turn leaves the other files alone. -/
theorem indexTag_next_other (hq : q ≠ path) :
    IndexTag (next env op tags path c).store q n ↔ IndexTag c.store q n := by
  rw [indexTag_next]
  have hframe : ∀ {i s'}, c.store.db.fileId path = some i → Frame (· = i) c.store.db s' →
      (PathTagged s' q n ↔ IndexTag c.store q n) := fun hi h => (elsewhere_frame h hi).index q hq n
  rcases hrun : modifyFileTags path tags op ⟨c.store.db, (beforeIndex env op tags path c).faults⟩ with ⟨e | u, d⟩
  · rcases wp_modifyFileTags.error hrun with h | ⟨-, i, hi, h⟩
    · rw [show d.store = c.store.db from h]
      exact Iff.rfl
    · exact hframe hi h.1
  · obtain ⟨-, i, hi, h, -⟩ := wp_modifyFileTags.ok hrun
    exact hframe hi h

/-- A turn whose index step goes through makes the requested change in the index. -/
theorem indexTag_next_ok (h : Indexed env op tags path c = true) :
    IndexTag (next env op tags path c).store path n ↔ afterModify op tags (IndexTag c.store path) n := by
  rw [indexTag_next]
  unfold Indexed at h
  rw [beforeIndex_db] at h
  rcases hrun : modifyFileTags path tags op ⟨c.store.db, (beforeIndex env op tags path c).faults⟩ with ⟨e | u, d⟩
  · rw [hrun] at h
    cases h
  · obtain ⟨-, i, hi, hframe, htags⟩ := wp_modifyFileTags.ok hrun
    have hold : IndexTag c.store path = c.store.db.Tagged i := funext fun n => propext (indexTag_iff hi)
    rw [pathTagged_iff ((hframe.fileId path).trans hi), htags, hold]

/-- A turn whose index step fails changes no tags if what it has done is harmless. -/
theorem indexTag_next_failed (h : Indexed env op tags path c = false) :
    (∀ n, IndexTag (next env op tags path c).store path n ↔ IndexTag c.store path n) ↔
      IndexHarmless env op tags path c := by
  unfold Indexed at h
  unfold IndexHarmless
  rw [beforeIndex_db] at h ⊢
  rw [← allOrNothing_iff]
  unfold AllOrNothing
  simp only [indexTag_next]
  rcases hrun : modifyFileTags path tags op ⟨c.store.db, (beforeIndex env op tags path c).faults⟩ with ⟨e | u, d⟩
  · exact ⟨fun hsame => ⟨fun _ => hsame, nofun⟩, fun hall => hall.1 ⟨e, rfl⟩⟩
  · rw [hrun] at h
    cases h

/-- Tags only come with `"add"`, and only go with `"remove"`. -/
structure Shift (op : String) (I I' : String → Prop) : Prop where
  grows : op ≠ "remove" → ∀ n, I n → I' n
  shrinks : op ≠ "add" → ∀ n, I' n → I n

theorem Shift.trans {I I' I'' : String → Prop} (h : Shift op I I') (h' : Shift op I' I'') : Shift op I I'' :=
  ⟨fun hop n hn => h'.grows hop n (h.grows hop n hn), fun hop n hn => h.shrinks hop n (h'.shrinks hop n hn)⟩

theorem Shift.of_iff {I I' : String → Prop} (h : ∀ n, I' n ↔ I n) : Shift op I I' :=
  ⟨fun _ n => (h n).mpr, fun _ n => (h n).mp⟩

/-- There is no way back. -/
theorem Shift.between {I I' I'' : String → Prop} (h : Shift op I I') (h' : Shift op I' I'')
    (hback : ∀ n, I'' n ↔ I n) (n : String) : I' n ↔ I n := by
  by_cases hop : op = "remove"
  · have hne : op ≠ "add" := by rw [hop]; decide
    exact ⟨h.shrinks hne n, fun hn => h'.shrinks hne n ((hback n).mpr hn)⟩
  · exact ⟨fun hn => (hback n).mp (h'.grows hop n hn), h.grows hop n⟩

theorem shift_next (h : Indexed env op tags path c = false) :
    Shift op (IndexTag c.store path) (IndexTag (next env op tags path c).store path) := by
  unfold Indexed at h
  rw [beforeIndex_db] at h
  have hnext : ∀ n, IndexTag (next env op tags path c).store path n ↔ _ := fun n => indexTag_next path
  rcases hrun : modifyFileTags path tags op ⟨c.store.db, (beforeIndex env op tags path c).faults⟩ with ⟨e | u, d⟩
  · rw [hrun] at hnext
    rcases wp_modifyFileTags.error hrun with hsame | ⟨hop, i, hi, hframe, done, rest, -, -, htags⟩
    · rw [show d.store = c.store.db from hsame] at hnext
      exact .of_iff hnext
    · have hnew : ∀ n, IndexTag (next env op tags path c).store path n ↔
        afterModify op done (IndexTag c.store path) n := by
        intro n
        have hold : IndexTag c.store path = c.store.db.Tagged i := funext fun n => propext (indexTag_iff hi)
        rw [hnext, pathTagged_iff ((hframe.fileId path).trans hi), htags, hold]
      rcases hop with rfl | rfl
      · exact ⟨fun _ n hn => (hnew n).mpr (.inl hn), fun hne => absurd rfl hne⟩
      · exact ⟨fun hne => absurd rfl hne, fun _ n hn => ((hnew n).mp hn).1⟩
  · rw [hrun] at h
    cases h

end Turn

/-! ### What a request does -/

section Request
variable {env op tags path c} {q n : String} {paths : List String}

/-- The state after all turns. -/
def lastOf (env : Env F) (op : String) (tags : List String) : List String → Conn World → Conn World
  | [], c => c
  | path :: paths, c => lastOf env op tags paths (next env op tags path c)

/-- Each path ends in the list that its turn's index step decides. -/
theorem handleTagPaths_run (env : Env F) (op : String) (tags : List String) (r : TagResponse) :
    ∃ r', Proc.run (handleTagPaths env op tags paths r) c = (.ok r', lastOf env op tags paths c) ∧
      r'.pathsOk = r.pathsOk ++
        ((turns env op tags paths c).filter fun t => Indexed env op tags t.1 t.2).map Prod.fst ∧
      r'.pathsError = r.pathsError ++
        ((turns env op tags paths c).filter fun t => !Indexed env op tags t.1 t.2).map Prod.fst := by
  induction paths generalizing c r with
  | nil => exact ⟨r, rfl, by simp [turns], by simp [turns]⟩
  | cons path paths ih =>
    obtain ⟨result, c', hrun, hok, -, -⟩ := turn_run env op tags path c
    have hnext : next env op tags path c = c' := by rw [next, hrun]
    obtain ⟨r', hrest, hpathsOk, hpathsError⟩ := @ih c' (r.record path result)
    refine ⟨r', ?_, ?_, ?_⟩
    · unfold handleTagPaths lastOf
      rw [Proc.run_andThen, Proc.run_attempt, bind_ok (attempt_run hrun), hrest, hnext]
    · rw [hpathsOk, turns, hnext]
      cases result with
      | ok u => simp [TagResponse.record, ← hok, Except.isOk, Except.toBool]
      | error e => simp [TagResponse.record, ← hok, Except.isOk, Except.toBool]
    · rw [hpathsError, turns, hnext]
      cases result with
      | ok u => simp [TagResponse.record, ← hok, Except.isOk, Except.toBool]
      | error e => simp [TagResponse.record, ← hok, Except.isOk, Except.toBool]

theorem turnsOf_cons (path q : String) (paths : List String) (c : Conn World) :
    turnsOf env op tags q c (path :: paths) = if path = q then
      c :: turnsOf env op tags q (next env op tags path c) paths
      else turnsOf env op tags q (next env op tags path c) paths := by
  unfold turnsOf
  rw [turns, List.filter_cons]
  by_cases h : path = q <;> simp [h]

/-- The attribute of a path after the request. -/
theorem xattrTags_last : xattrTags (lastOf env op tags paths c).store q =
    attrAfter env op tags q (turnsOf env op tags q c paths) (xattrTags c.store q) := by
  induction paths generalizing c with
  | nil => rfl
  | cons path paths ih =>
    rw [lastOf, ih, xattrTags_next, turnsOf_cons]
    by_cases h : path = q
    · subst h
      rw [if_pos rfl, if_pos rfl]
      rfl
    · rw [if_neg (Ne.symm h), if_neg h]

theorem afterModify_twice {I : String → Prop} :
    afterModify op tags (afterModify op tags I) n ↔ afterModify op tags I n := by
  unfold afterModify
  split_ifs <;> tauto

/-- If the index steps of a path all go through, the index has the requested change. -/
theorem indexTag_last_ok (hok : ∀ t ∈ turnsOf env op tags q c paths, Indexed env op tags q t = true) :
    IndexTag (lastOf env op tags paths c).store q n ↔
      if turnsOf env op tags q c paths = [] then IndexTag c.store q n else
        afterModify op tags (IndexTag c.store q) n := by
  induction paths generalizing c with
  | nil => simp [lastOf, turnsOf, turns]
  | cons path paths ih =>
    rw [turnsOf_cons] at hok ⊢
    rw [lastOf]
    by_cases h : path = q
    · subst h
      rw [if_pos rfl] at hok ⊢
      have hnext : IndexTag (next env op tags path c).store path = afterModify op tags (IndexTag c.store path) :=
        funext fun n => propext (indexTag_next_ok (hok c List.mem_cons_self))
      rw [ih fun t ht => hok t (List.mem_cons_of_mem c ht), hnext, if_neg (List.cons_ne_nil c _), afterModify_twice,
        ite_self]
    · rw [if_neg h] at hok ⊢
      have hnext : IndexTag (next env op tags path c).store q = IndexTag c.store q :=
        funext fun n => propext (indexTag_next_other (Ne.symm h))
      rw [ih hok, hnext]

/-- If the index steps of a path all fail, the index is as before if what they have done is harmless. -/
theorem indexTag_last_failed (hfail : ∀ t ∈ turnsOf env op tags q c paths, Indexed env op tags q t = false) :
    Shift op (IndexTag c.store q) (IndexTag (lastOf env op tags paths c).store q) ∧
    ((∀ n, IndexTag (lastOf env op tags paths c).store q n ↔ IndexTag c.store q n) ↔
      ∀ t ∈ turnsOf env op tags q c paths, IndexHarmless env op tags q t) := by
  induction paths generalizing c with
  | nil => exact ⟨.of_iff fun _ => Iff.rfl, iff_of_true (fun _ => Iff.rfl) (by simp [turnsOf, turns])⟩
  | cons path paths ih =>
    rw [turnsOf_cons] at hfail ⊢
    rw [lastOf]
    by_cases h : path = q
    · subst h
      rw [if_pos rfl] at hfail ⊢
      have hc := hfail c List.mem_cons_self
      obtain ⟨hshift, hiff⟩ := ih fun t ht => hfail t (List.mem_cons_of_mem c ht)
      have hfirst := shift_next hc
      refine ⟨hfirst.trans hshift, ?_⟩
      rw [List.forall_mem_cons, ← hiff, ← indexTag_next_failed hc]
      constructor
      · intro hback
        have hstill := hfirst.between hshift hback
        exact ⟨hstill, fun n => (hback n).trans (hstill n).symm⟩
      · rintro ⟨hstill, hlast⟩ n
        exact (hlast n).trans (hstill n)
    · rw [if_neg h] at hfail ⊢
      have hnext : IndexTag (next env op tags path c).store q = IndexTag c.store q :=
        funext fun n => propext (indexTag_next_other (Ne.symm h))
      rw [← hnext]
      exact ih hfail

/-! ### The lists -/

theorem count_turns (p : Bool → Bool) :
    (((turns env op tags paths c).filter fun t => p (Indexed env op tags t.1 t.2)).map Prod.fst).count q =
      ((turnsOf env op tags q c paths).filter fun t => p (Indexed env op tags q t)).length := by
  unfold turnsOf
  induction turns env op tags paths c with
  | nil => rfl
  | cons t ts ih =>
    obtain ⟨path, t⟩ := t
    by_cases h : path = q
    · subst h
      by_cases hp : p (Indexed env op tags path t) = true <;> simp [hp, ih]
    · by_cases hp : p (Indexed env op tags path t) = true <;> simp [hp, h, ih]

theorem length_turnsOf (q : String) (paths : List String) (c : Conn World) :
    (turnsOf env op tags q c paths).length = paths.count q := by
  induction paths generalizing c with
  | nil => rfl
  | cons path paths ih =>
    rw [turnsOf_cons, List.count_cons]
    by_cases h : path = q <;> simp [h, ih]

/-- The lists of a response. -/
structure Listed (env : Env F) (op : String) (tags paths : List String) (c : Conn World) (r : TagResponse) : Prop where
  countOk : ∀ q, r.pathsOk.count q = ((turnsOf env op tags q c paths).filter fun t => Indexed env op tags q t).length
  countError : ∀ q,
    r.pathsError.count q = ((turnsOf env op tags q c paths).filter fun t => !Indexed env op tags q t).length

variable {r : TagResponse}

theorem Listed.mem_ok (h : Listed env op tags paths c r) :
    q ∈ r.pathsOk ↔ ∃ t ∈ turnsOf env op tags q c paths, Indexed env op tags q t = true := by
  rw [← List.count_pos_iff, h.countOk, List.length_pos_iff_exists_mem]
  simp

theorem Listed.mem_error (h : Listed env op tags paths c r) :
    q ∈ r.pathsError ↔ ∃ t ∈ turnsOf env op tags q c paths, Indexed env op tags q t = false := by
  rw [← List.count_pos_iff, h.countError, List.length_pos_iff_exists_mem]
  simp

theorem Listed.all_ok (h : Listed env op tags paths c r) (hq : q ∉ r.pathsError) :
    ∀ t ∈ turnsOf env op tags q c paths, Indexed env op tags q t = true := by
  intro t ht
  by_contra hne
  exact hq (h.mem_error.mpr ⟨t, ht, by simpa using hne⟩)

theorem Listed.all_failed (h : Listed env op tags paths c r) (hq : q ∉ r.pathsOk) :
    ∀ t ∈ turnsOf env op tags q c paths, Indexed env op tags q t = false := by
  intro t ht
  by_contra hne
  exact hq (h.mem_ok.mpr ⟨t, ht, by simpa using hne⟩)

theorem turnsOf_ne_nil (hq : q ∈ paths) : turnsOf env op tags q c paths ≠ [] := by
  rw [← List.length_pos_iff, length_turnsOf]
  exact List.count_pos_iff.mpr hq

theorem exists_turn (hq : q ∈ paths) : ∃ t, t ∈ turnsOf env op tags q c paths :=
  List.exists_mem_of_ne_nil _ (turnsOf_ne_nil hq)

/-- A path is in one list, as often as it was requested, if its turns end alike. -/
theorem Listed.once_iff (h : Listed env op tags paths c r) (hq : q ∈ paths) :
    ((q ∉ r.pathsError ∧ r.pathsOk.count q = paths.count q) ∨ (q ∉ r.pathsOk ∧ r.pathsError.count q = paths.count q)) ↔
      ∀ t ∈ turnsOf env op tags q c paths, ∀ t' ∈ turnsOf env op tags q c paths,
        Indexed env op tags q t = Indexed env op tags q t' := by
  constructor
  · rintro (⟨hno, -⟩ | ⟨hno, -⟩) t ht t' ht'
    · rw [h.all_ok hno t ht, h.all_ok hno t' ht']
    · rw [h.all_failed hno t ht, h.all_failed hno t' ht']
  · intro halike
    obtain ⟨t, ht⟩ := @exists_turn F env op tags c q paths hq
    rw [h.countOk, h.countError, ← length_turnsOf q paths c]
    cases hb : Indexed env op tags q t with
    | true =>
      have hall : ∀ t' ∈ turnsOf env op tags q c paths, Indexed env op tags q t' = true :=
        fun t' ht' => (halike t' ht' t ht).trans hb
      refine .inl ⟨fun herr => ?_, by rw [List.filter_eq_self.mpr hall]⟩
      obtain ⟨t', ht', hf⟩ := h.mem_error.mp herr
      exact Bool.noConfusion ((hall t' ht').symm.trans hf)
    | false =>
      have hall : ∀ t' ∈ turnsOf env op tags q c paths, Indexed env op tags q t' = false :=
        fun t' ht' => (halike t' ht' t ht).trans hb
      refine .inr ⟨fun hok => ?_, ?_⟩
      · obtain ⟨t', ht', hf⟩ := h.mem_ok.mp hok
        exact Bool.noConfusion ((hall t' ht').symm.trans hf)
      · rw [List.filter_eq_self.mpr fun t' ht' => by rw [hall t' ht']; rfl]

/-- A response is true if and only if the turns of each path are honest. -/
theorem Listed.reports_iff (h : Listed env op tags paths c r) :
    Reports op tags paths r c.store (lastOf env op tags paths c).store ↔
      ∀ p ∈ paths, Honest env op tags p c paths := by
  constructor
  · intro hr p hp
    have halike := (h.once_iff hp).mp (hr.once p hp)
    obtain ⟨t, ht⟩ := @exists_turn F env op tags c p paths hp
    refine ⟨halike, fun hfail => ?_, fun hok => ?_⟩
    · obtain ⟨hattr, hindex⟩ := hr.failed p (h.mem_error.mpr ⟨t, ht, hfail t ht⟩)
      rw [xattrTags_last] at hattr
      exact ⟨hattr, (indexTag_last_failed hfail).2.mp hindex⟩
    · obtain ⟨hattr, -⟩ := hr.changed p (h.mem_ok.mpr ⟨t, ht, hok t ht⟩)
      rwa [xattrTags_last] at hattr
  · intro hh
    have hmem : ∀ {p t}, t ∈ turnsOf env op tags p c paths → p ∈ paths := by
      intro p t ht
      rw [← List.count_pos_iff, ← length_turnsOf p paths c]
      exact List.length_pos_of_mem ht
    refine ⟨fun p hp => ?_, fun p hp => ?_, fun p hp => (h.once_iff hp).mpr (hh p hp).alike⟩
    · obtain ⟨t, ht, hf⟩ := h.mem_error.mp hp
      have hhonest := hh p (hmem ht)
      have hall : ∀ t' ∈ turnsOf env op tags p c paths, Indexed env op tags p t' = false :=
        fun t' ht' => (hhonest.alike t' ht' t ht).trans hf
      rw [xattrTags_last]
      exact ⟨(hhonest.failed hall).1, (indexTag_last_failed hall).2.mpr (hhonest.failed hall).2⟩
    · obtain ⟨t, ht, hf⟩ := h.mem_ok.mp hp
      have hhonest := hh p (hmem ht)
      have hall : ∀ t' ∈ turnsOf env op tags p c paths, Indexed env op tags p t' = true :=
        fun t' ht' => (hhonest.alike t' ht' t ht).trans hf
      rw [xattrTags_last]
      refine ⟨hhonest.changed hall, fun n => ?_⟩
      rw [indexTag_last_ok hall, if_neg (List.ne_nil_of_mem ht)]

end Request

/-- **`handleTag` reports honestly** if and only if, for each path: its turns all end alike; where the index step fails,
the attribute writes that come through and the tags done in the index change nothing; and where it goes through, the
attribute writes that come through make the requested change. -/
theorem handleTag_reports_iff {F : Type} (env : Env F) (operation : TagOperation) (paths tags : List String)
    (c : Conn World) :
    match Proc.run (handleTag env operation paths tags) c with
    | (.ok (some r), c') => Reports (opStr operation) tags paths r c.store c'.store ↔
        ∀ p ∈ paths, Honest env (opStr operation) tags p c paths
    | (.ok none, c') => opStr operation = "" ∧ c' = c
    | (.error _, _) => False := by
  unfold handleTag
  by_cases hop : opStr operation = ""
  · rw [if_pos hop]
    exact ⟨hop, rfl⟩
  · rw [if_neg hop]
    obtain ⟨r, hrun, hpathsOk, hpathsError⟩ :=
      @handleTagPaths_run F c paths env (opStr operation) tags {}
    have hlisted : Listed env (opStr operation) tags paths c r := by
      refine ⟨fun q => ?_, fun q => ?_⟩
      · rw [hpathsOk]
        exact count_turns fun b => b
      · rw [hpathsError]
        exact count_turns fun b => !b
    rw [Proc.run_andThen, bind_ok hrun]
    exact hlisted.reports_iff

/-! ### A file that is not in the index -/

/-- A file without tags that is not in the index. -/
def unindexed : World :=
  Operations.worldOf DB.empty [("/a", { stat := ⟨1, 1, 0, 0⟩ })]

/-- The tag is written to the file, and the path is reported as failed. -/
theorem written_reported_failed :
    ∃ r c', Proc.run (handleTag (Operations.plainEnv []) .add ["/a"] ["x"]) ⟨unindexed, []⟩ = (.ok (some r), c') ∧
      r.pathsOk = [] ∧ r.pathsError = ["/a"] ∧ xattrTags unindexed "/a" = .ok [] ∧ xattrTags c'.store "/a" = .ok ["x"] ∧
      ¬ Reports "add" ["x"] ["/a"] r unindexed c'.store := by
  have hold : xattrTags unindexed "/a" = .ok [] := rfl
  refine ⟨_, _, rfl, rfl, rfl, hold, by decide, fun h => ?_⟩
  have hnew : xattrTags (Proc.run (handleTag (Operations.plainEnv []) .add ["/a"] ["x"]) ⟨unindexed, []⟩).2.store "/a" =
      .ok ["x"] := by decide
  rcases (h.failed "/a" (by decide)).1 with hsame | ⟨l, l', hl, hl', hmem⟩
  · cases hold.symm.trans (hsame.trans hnew)
  · cases hold.symm.trans hl
    cases hnew.symm.trans hl'
    exact absurd ((hmem "x").mp List.mem_cons_self) (by decide)

end Tilbo.Daemon.TagReports
