import Tilbo.Trash.Restore

/-! # Renames onto what exists

Renaming a file in the browser, pasting what was cut, and restoring from the trash all end in a rename to a path that
the user, the clipboard or the trash gives. None of them looks whether there is something at it. `spares_iff` says when
nothing is lost: if no rename finds another file or link at its target. -/

namespace Tilbo.Daemon.Clobber

open Tilbo.Lib.CleanPaths Tilbo.Lib.Files Tilbo.Lib.Files.FileSystem Tilbo.Daemon.Drops Tilbo.Daemon.Unix
  Tilbo.Trash.Restore

/-! ### The operations -/

/-- Why `validateNewName` refuses a name. -/
inductive NameError where
  /-- "name must not be empty" -/
  | empty
  /-- "name must not contain null bytes" -/
  | nullBytes
  /-- "name must not contain path separator" -/
  | separator
deriving DecidableEq

def validateNewName (name : String) : Except NameError Unit :=
  if name = "" then .error .empty
  else if '\x00' ∈ name.toList then .error .nullBytes
  else if '/' ∈ name.toList then .error .separator
  else .ok ()

/-- Why a file is not renamed; the last one is "rename: %w". -/
inductive RenameError where
  | path (err : PathError)
  | name (err : NameError)
  | rename (err : Fault)

/-- `RenameFile`, without the index. -/
def renameFile (k : Kernel) (path newName : String) (w : World) : Except RenameError String × World :=
  match validatePath path with
  | .error err => (.error (.path err), w)
  | .ok clean =>
    match validateNewName newName with
    | .error err => (.error (.name err), w)
    | .ok _ =>
      let newPath := join [dir clean, newName]
      match w.rename k clean newPath with
      | (.error err, w) => (.error (.rename err), w)
      | (.ok _, w) => (.ok newPath, w)

/-- An operation that moves files. -/
inductive Operation where
  | renameFile (path newName : String)
  | paste (clipboardPaths : List String) (dest : String)
  | restoreFromTrash (trashBase trashName : String)

/-- The world after an operation. -/
def Operation.run (k : Kernel) (w : World) : Operation → World
  | .renameFile path newName => (Clobber.renameFile k path newName w).2
  | .paste clipboardPaths dest => (Drops.paste (unix k) ⟨clipboardPaths, true⟩ dest w).2.2
  | .restoreFromTrash trashBase trashName => (Trash.Restore.restoreFromTrash k trashBase trashName w).2

/-- The renames that an operation makes on a file system. -/
def Operation.renames (k : Kernel) (fs : FileSystem) (op : Operation) : List Renamed := (op.run k ⟨fs, []⟩).renames

/-! ### What is to be shown -/

/-- A rename destroys nothing: there is nothing at its target, or its own file, or it fails and changes nothing. -/
def Spared (r : Renamed) : Prop :=
  (∀ j, r.before.resolve false (parse r.new) ≠ .ok j) ∨
    (∃ i, r.before.resolve false (parse r.old) = .ok i ∧ r.before.resolve false (parse r.new) = .ok i) ∨
    (r.error ≠ none ∧ r.after = r.before)

/-- The node that the last name of a path leads to. -/
def entryAt (fs : FileSystem) (p : Path) : Option ℕ :=
  match fs.locate p with
  | .ok (i, name) => ((fs.node i).bind Node.dir?).bind fun d => d.lookup name
  | .error _ => none

/-- Both paths lead to a file or link, and not to the same one; and the kernel does not refuse the rename. -/
def Overwrites (k : Kernel) (r : Renamed) : Prop :=
  ∃ i j, entryAt r.before (parse r.old) = some i ∧ entryAt r.before (parse r.new) = some j ∧ i ≠ j ∧
    r.before.isDir i = false ∧ r.before.isDir j = false ∧
    k.refuses r.before (.rename (parse r.old) (parse r.new)) = none

/-! ### One rename -/

variable {k : Kernel} {fs fs' : FileSystem} {r : Renamed} {w : World} {p old new : Path} {i j : ℕ}

/-- What `lstat` finds is an entry, unless the path ends in no name. -/
theorem resolve_eq_ok_iff (h : ∃ d name, fs.locate p = .ok (d, name) ∧ fs.isDir d = true) :
    fs.resolve false p = .ok i ↔ entryAt fs p = some i := by
  obtain ⟨d, name, hlocate, hdir⟩ := h
  unfold FileSystem.isDir at hdir
  cases hnode : fs.node d with
  | none =>
    rw [hnode] at hdir
    cases hdir
  | some node =>
    cases node with
    | file | link =>
      rw [hnode] at hdir
      cases hdir
    | dir dir =>
      rw [resolve_of_locate hlocate hnode, entryAt, hlocate]
      simp only [hnode, Option.bind_some, Node.dir?]
      cases dir.lookup name <;> simp

/-- The directory and the name that a path ends in exist. -/
def Located (fs : FileSystem) (p : Path) : Prop := ∃ d name, fs.locate p = .ok (d, name) ∧ fs.isDir d = true

theorem isDir_eq_true_iff {d : ℕ} : fs.isDir d = true ↔ ∃ dir, fs.node d = some (.dir dir) := by
  unfold FileSystem.isDir
  cases fs.node d with
  | none => simp
  | some node => cases node <;> simp [Node.isDir]

theorem bind_dir_eq_some_iff {d : ℕ} {dir : Directory} :
    (fs.node d).bind Node.dir? = some dir ↔ fs.node d = some (.dir dir) := by
  cases fs.node d with
  | none => simp
  | some node => cases node <;> simp [Node.dir?]

theorem entryAt_eq {d : ℕ} {name : String} {dir : Directory} (hlocate : fs.locate p = .ok (d, name))
    (hdir : fs.node d = some (.dir dir)) : entryAt fs p = dir.lookup name := by
  simp [entryAt, hlocate, hdir, Node.dir?]

/-- What a rename finds if it does not fail. -/
theorem rename_ok (h : fs.rename old new = .ok fs') : Located fs old ∧ Located fs new ∧
    ∃ i, entryAt fs old = some i ∧ ∀ j, entryAt fs new = some j → i ≠ j → fs.isDir i = fs.isDir j := by
  unfold FileSystem.rename at h
  split at h
  · cases h
  · cases h
  · rename_i a oldName b newName hold hnew
    split at h
    · rename_i da db ha hb
      rw [bind_dir_eq_some_iff] at ha hb
      refine ⟨⟨a, oldName, hold, isDir_eq_true_iff.mpr ⟨da, ha⟩⟩,
        ⟨b, newName, hnew, isDir_eq_true_iff.mpr ⟨db, hb⟩⟩, ?_⟩
      rw [entryAt_eq hold ha, entryAt_eq hnew hb]
      split at h
      · cases h
      · rename_i i hi
        refine ⟨i, hi, fun j hj hne => ?_⟩
        rw [hj, if_neg fun heq => hne (Option.some_inj.mp heq).symm] at h
        -- a directory is not moved onto something else, nor something else onto a directory
        cases hidir : fs.isDir i with
        | false =>
          cases hjdir : fs.isDir j with
          | false => rfl
          | true => simp [hidir, hjdir] at h
        | true =>
          cases hjdir : fs.isDir j with
          | false =>
            simp only [hidir, hjdir, Bool.true_and, Bool.not_false, if_true] at h
            split_ifs at h
          | true => rfl
    · cases h

/-- A file or link is moved onto another one. -/
theorem rename_overwrites (hi : entryAt fs old = some i) (hj : entryAt fs new = some j) (hne : i ≠ j)
    (hidir : fs.isDir i = false) (hjdir : fs.isDir j = false) : ∃ fs', fs.rename old new = .ok fs' := by
  unfold entryAt at hi hj
  cases hold : fs.locate old with
  | error err => rw [hold] at hi; cases hi
  | ok a =>
    cases hnew : fs.locate new with
    | error err => rw [hnew] at hj; cases hj
    | ok b =>
      rw [hold] at hi
      rw [hnew] at hj
      obtain ⟨da, hda, hi⟩ := Option.bind_eq_some_iff.mp hi
      obtain ⟨db, hdb, hj⟩ := Option.bind_eq_some_iff.mp hj
      have hname : IsName b.2 := (locate_eq_ok_iff.mp hnew).1
      have halive : (fs.node i).isSome :=
        (fs.closed a.1 da (bind_dir_eq_some_iff.mp hda)).2 (a.2, i) (List.lookup_eq_some_iff.mp hi |> fun h => by
          obtain ⟨l₁, l₂, hl, -⟩ := h
          rw [hl]
          simp)
      have halive' : (fs.node b.1).isSome := by rw [bind_dir_eq_some_iff.mp hdb]; rfl
      unfold FileSystem.rename
      simp only [hold, hnew, hda, hdb, hi, hj]
      rw [if_neg fun heq => hne (Option.some_inj.mp heq).symm, hidir, hjdir]
      simp only [Bool.false_and, Bool.false_eq_true, if_false]
      exact ⟨_, dif_pos ⟨hname, halive, halive'⟩⟩

theorem ask_eq_ok_iff {α : Type} {call : Call} {answer : Except Fault α} {a : α} :
    k.ask fs call answer = .ok a ↔ k.refuses fs call = none ∧ answer = .ok a := by
  unfold Kernel.ask
  cases k.refuses fs call with
  | none => simp
  | some err => simp

/-- The record of a rename that `os.Rename` has made. -/
def Made (k : Kernel) (r : Renamed) : Prop :=
  match k.osRename r.before r.old r.new with
  | .ok fs => r.error = none ∧ r.after = fs
  | .error err => r.error = some err ∧ r.after = r.before

/-- `os.Rename` finds what the kernel finds, and no other directory at its target. -/
theorem osRename_ok {old new : String} (h : k.osRename fs old new = .ok fs') :
    k.rename fs (parse old) (parse new) = .ok fs' ∧
      ∀ i j, fs.resolve false (parse old) = .ok i → fs.resolve false (parse new) = .ok j → i ≠ j →
        fs.isDir j = false := by
  unfold Kernel.osRename at h
  split at h
  · rename_i err herr
    exact ⟨h, fun i j _ hj => by rw [hj] at herr; cases herr⟩
  · rename_i j hj
    split_ifs at h with hjdir
    · split at h
      · cases h
      · rename_i i hi
        split_ifs at h with hsame
        refine ⟨h, fun i' j' hi' hj' hne => ?_⟩
        rw [hi] at hi'
        rw [hj] at hj'
        obtain rfl := Except.ok.inj hi'
        obtain rfl := Except.ok.inj hj'
        exact absurd hne fun hne => hsame (Or.inr hne)
    · refine ⟨h, fun i' j' _ hj' _ => ?_⟩
      rw [hj] at hj'
      obtain rfl := Except.ok.inj hj'
      exact Bool.eq_false_iff.mpr hjdir

theorem located_of_entryAt (h : entryAt fs p = some i) : Located fs p := by
  unfold entryAt at h
  cases hlocate : fs.locate p with
  | error err => rw [hlocate] at h; cases h
  | ok a =>
    rw [hlocate] at h
    obtain ⟨dir, hdir, -⟩ := Option.bind_eq_some_iff.mp h
    exact ⟨a.1, a.2, hlocate, isDir_eq_true_iff.mpr ⟨dir, bind_dir_eq_some_iff.mp hdir⟩⟩

/-- **One rename.** It destroys something exactly if it moves a file or link onto another one. -/
theorem spared_iff (h : Made k r) : Spared r ↔ ¬ Overwrites k r := by
  constructor
  · rintro hspared ⟨i, j, hi, hj, hne, hidir, hjdir, hallowed⟩
    have hold := (resolve_eq_ok_iff (located_of_entryAt hi)).mpr hi
    have hnew := (resolve_eq_ok_iff (located_of_entryAt hj)).mpr hj
    obtain ⟨fs', hrename⟩ := rename_overwrites hi hj hne hidir hjdir
    have hok : k.osRename r.before r.old r.new = .ok fs' := by
      rw [Kernel.osRename, hnew]
      simp only [hjdir, Bool.false_eq_true, if_false]
      exact ask_eq_ok_iff.mpr ⟨hallowed, hrename⟩
    rw [Made, hok] at h
    rcases hspared with habsent | ⟨i', hi', hj'⟩ | ⟨hfails, -⟩
    · exact habsent j hnew
    · rw [hold] at hi'
      rw [hnew] at hj'
      exact hne ((Except.ok.inj hi').trans (Except.ok.inj hj').symm)
    · exact hfails h.1
  · intro hnot
    unfold Made at h
    cases hrename : k.osRename r.before r.old r.new with
    | error err =>
      rw [hrename] at h
      exact Or.inr (Or.inr ⟨by rw [h.1]; simp, h.2⟩)
    | ok fs' =>
      obtain ⟨hkernel, hdir⟩ := osRename_ok hrename
      obtain ⟨hallowed, hok⟩ := ask_eq_ok_iff.mp hkernel
      obtain ⟨hold, hnew, i, hi, hsame⟩ := rename_ok hok
      have hi' := (resolve_eq_ok_iff hold).mpr hi
      by_contra hspared
      obtain ⟨habsent, hother⟩ := not_or.mp hspared
      obtain ⟨j, hj⟩ := not_forall.mp habsent
      have hj := not_not.mp hj
      have hentry := (resolve_eq_ok_iff hnew).mp hj
      have hne : i ≠ j := fun heq => hother (Or.inl ⟨i, hi', heq ▸ hj⟩)
      have hjdir := hdir i j hi' hj hne
      exact hnot ⟨i, j, hi, hentry, hne, (hsame j hentry hne).trans hjdir, hjdir, hallowed⟩

/-! ### Operations -/

theorem made_rename {old new : String} (hw : ∀ r ∈ w.renames, Made k r) :
    ∀ r ∈ (w.rename k old new).2.renames, Made k r := by
  intro r hr
  unfold World.rename at hr
  cases hrename : k.osRename w.files old new with
  | ok fs =>
    rw [hrename] at hr
    rcases List.mem_append.mp hr with hr | hr
    · exact hw r hr
    · rw [List.mem_singleton.mp hr, Made, hrename]
      exact ⟨rfl, rfl⟩
  | error err =>
    rw [hrename] at hr
    rcases List.mem_append.mp hr with hr | hr
    · exact hw r hr
    · rw [List.mem_singleton.mp hr, Made, hrename]
      exact ⟨rfl, rfl⟩

theorem renames_update {result : Except Fault FileSystem} : (w.update result).2.renames = w.renames := by
  cases result <;> rfl

theorem renames_mkdirAll (k : Kernel) (path : String) (mode : ℕ) (w : World) :
    ((unix k).mkdirAll path mode w).2.renames = w.renames := rfl

theorem made_transferAll {cleanDest : String} {paths : List String} (hw : ∀ r ∈ w.renames, Made k r) :
    ∀ r ∈ (transferAll (unix k) true cleanDest paths w).2.renames, Made k r := by
  induction paths generalizing w with
  | nil => exact hw
  | cons src rest ih =>
    have hmade : ∀ r ∈ ((transfer true cleanDest src).run (unix k) w).2.renames, Made k r := made_rename hw
    unfold transferAll
    split
    · rename_i err w' hrun
      rw [hrun] at hmade
      exact hmade
    · rename_i w' hrun
      rw [hrun] at hmade
      exact ih hmade

theorem made_renameFile {path newName : String} (hw : ∀ r ∈ w.renames, Made k r) :
    ∀ r ∈ (renameFile k path newName w).2.renames, Made k r := by
  unfold renameFile
  split
  · exact hw
  · rename_i clean _
    split
    · exact hw
    · have hmade : ∀ r ∈ (w.rename k clean (join [dir clean, newName])).2.renames, Made k r := made_rename hw
      dsimp only
      split
      · rename_i err w' hrename
        rw [hrename] at hmade
        exact hmade
      · rename_i w' hrename
        rw [hrename] at hmade
        exact hmade

/-- What holds of the renames so far and of a rename from the path of the entry holds of the renames after a restore. -/
theorem forall_restoreFromTrash {P : Renamed → Prop} {trashBase trashName : String} (hw : ∀ r ∈ w.renames, P r)
    (hrename : ∀ w' : World, (∀ r ∈ w'.renames, P r) →
      ∀ dst, ∀ r ∈ (w'.rename k (join [trashBase, "files", trashName]) dst).2.renames, P r) :
    ∀ r ∈ (restoreFromTrash k trashBase trashName w).2.renames, P r := by
  unfold restoreFromTrash
  dsimp only
  split
  · exact hw
  · split
    · exact hw
    · rename_i dst _
      split_ifs
      · exact hw
      · have hparent : ∀ r ∈ ((unix k).mkdirAll (dir dst) 0o750 w).2.renames, P r := by
          rw [renames_mkdirAll]
          exact hw
        split
        · rename_i err w' hmkdir
          rw [hmkdir] at hparent
          exact hparent
        · rename_i w' hmkdir
          rw [hmkdir] at hparent
          have hmade := hrename w' hparent dst
          split
          · rename_i err w'' hfails
            rw [hfails] at hmade
            exact hmade
          · rename_i w'' hmoved
            rw [hmoved] at hmade
            rw [renames_update]
            exact hmade

theorem made_restoreFromTrash {trashBase trashName : String} (hw : ∀ r ∈ w.renames, Made k r) :
    ∀ r ∈ (restoreFromTrash k trashBase trashName w).2.renames, Made k r :=
  forall_restoreFromTrash hw fun _ hw' _ => made_rename hw'

/-- Every rename of an operation is one of `os.Rename`. -/
theorem made_of_mem {op : Operation} (hr : r ∈ op.renames k fs) : Made k r := by
  have hnone : ∀ r ∈ (⟨fs, []⟩ : World).renames, Made k r := fun _ h => absurd h List.not_mem_nil
  cases op with
  | renameFile path newName => exact made_renameFile hnone r hr
  | restoreFromTrash trashBase trashName => exact made_restoreFromTrash hnone r hr
  | paste clipboardPaths dest =>
    unfold Operation.renames Operation.run Drops.paste at hr
    dsimp only at hr
    split_ifs at hr
    · exact hnone r hr
    · split at hr
      · exact hnone r hr
      · exact made_transferAll hnone r hr

/-- **When moving files destroys nothing.** For every file system, kernel and operation: exactly if no rename that it
makes finds a file or link at its target, other than the one it moves, and moves a file or link there. -/
theorem spares_iff (k : Kernel) (fs : FileSystem) (op : Operation) :
    (∀ r ∈ op.renames k fs, Spared r) ↔ ∀ r ∈ op.renames k fs, ¬ Overwrites k r :=
  forall₂_congr fun _ hr => spared_iff (made_of_mem hr)

/-! ### A name that is taken -/

/-- The files `/a` and `/b`. -/
def twoFiles : FileSystem where
  node i :=
    match i with
    | 0 => some (.dir ⟨0, [("a", 1), ("b", 2)], by decide, by decide⟩)
    | 1 => some (.file [65] 0)
    | 2 => some (.file [66] 0)
    | _ => none
  root := 0
  cwd := 0
  next := 3
  fresh i hi := by
    match i with
    | 0 | 1 | 2 => exact absurd hi (by decide)
    | i + 3 => rfl
  rooted := ⟨rfl, rfl⟩
  closed i d hi := by
    match i, hi with
    | 0, hi =>
      cases hi
      exact ⟨rfl, by decide⟩
    | 1, hi | 2, hi | i + 3, hi => cases hi

/-- What a rename finds at its two paths. -/
def found (r : Renamed) : Option ℕ × Option ℕ × Bool × Bool :=
  (entryAt r.before (parse r.old), entryAt r.before (parse r.new), r.before.isDir 1, r.before.isDir 2)

/-- Renamed to `b`, the file `/a` takes the place of the file `/b`. -/
theorem renamed_onto_other : ¬ ∀ r ∈ (Operation.renameFile "/a" "b").renames .willing twoFiles, Spared r := by
  intro h
  have hfound : ((Operation.renameFile "/a" "b").renames .willing twoFiles).map found =
      [(some 1, some 2, false, false)] := by decide
  obtain ⟨r, rest, hlog, hr, -⟩ := List.map_eq_cons_iff.mp hfound
  have hmem : r ∈ (Operation.renameFile "/a" "b").renames .willing twoFiles := by
    rw [hlog]
    exact List.mem_cons_self
  simp only [found, Prod.mk.injEq] at hr
  exact (spared_iff (made_of_mem hmem)).mp (h r hmem) ⟨1, 2, hr.1, hr.2.1, by decide, hr.2.2.1, hr.2.2.2, rfl⟩

end Tilbo.Daemon.Clobber
