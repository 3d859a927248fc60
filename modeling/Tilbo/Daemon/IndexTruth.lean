import Tilbo.Daemon.Clobber
import Tilbo.Daemon.ResolveForDelete

/-! # The index after an operation of the browser

A rename, a deletion and a move to the trash each take away what is at a path, with all that is below it, and then the
row of that one path from the index. `truthful_iff` says when the index is right afterwards. -/

namespace Tilbo.Daemon.IndexTruth

open Tilbo.Lib.CleanPaths Tilbo.Lib.Files Tilbo.Daemon.Drops Tilbo.Daemon.Unix Tilbo.Daemon.Clobber
  Tilbo.Daemon.ResolveForDelete

/-! ### The operations -/

/-- The calls on the files, and which paths exist. -/
structure Calls (φ ε : Type) where
  present : φ → String → Prop
  evalSymlinks : φ → String → Option String
  rename (oldpath newpath : String) : φ → Except ε Unit × φ
  removeAll (path : String) : φ → Except ε Unit × φ
  moveToTrash (path : String) : φ → Except ε Unit × φ

/-- What the operations read of the configuration. -/
structure Settings where
  fuseMount : String
  useTrash : Option Bool

inductive Operation where
  | renameFile (path newName : String)
  | deleteFile (path : String)
  | trashFile (path : String)

/-- Why an operation fails. -/
inductive OpError (ε : Type) where
  | path (err : PathError)
  | name (err : NameError)
  | resolve (err : ResolveError)
  /-- "browser: cannot delete virtual directory", "browser: cannot trash virtual directory" -/
  | virtualDirectory
  | call (err : ε)

variable {φ ε : Type}

/-- A call that succeeds, on the path whose row is to go. -/
def tried (path : String) (result : Except ε Unit × φ) : Except (OpError ε) String × φ :=
  match result with
  | (.error err, files) => (.error (.call err), files)
  | (.ok _, files) => (.ok path, files)

/-- The path that is taken away, if it is not virtual. -/
def realPath (c : Calls φ ε) (settings : Settings) (path : String) (files : φ) : Except (OpError ε) String :=
  match resolveForDelete settings.fuseMount (c.evalSymlinks files) path with
  | .error err => .error (.resolve err)
  | .ok (_, true) => .error .virtualDirectory
  | .ok (realPath, false) => .ok realPath

/-- What an operation does to the files, and the path that it removes from the index. -/
def Operation.act (c : Calls φ ε) (settings : Settings) (files : φ) : Operation → Except (OpError ε) String × φ
  | .renameFile path newName =>
    match validatePath path with
    | .error err => (.error (.path err), files)
    | .ok clean =>
      match validateNewName newName with
      | .error err => (.error (.name err), files)
      | .ok _ => tried clean (c.rename clean (join [dir clean, newName]) files)
  | .deleteFile path =>
    match realPath c settings path files with
    | .error err => (.error err, files)
    | .ok realPath =>
      tried realPath (if settings.useTrash.getD true then c.moveToTrash realPath files else c.removeAll realPath files)
  | .trashFile path =>
    match realPath c settings path files with
    | .error err => (.error err, files)
    | .ok realPath => tried realPath (c.moveToTrash realPath files)

/-- The paths that have a row after `DB.DeleteFile`; the transaction may fail, which is only logged. -/
def deleteRow (dbFails : Bool) (rows : List String) (path : String) : List String :=
  if dbFails then rows else rows.filter (· ≠ path)

/-- The files and the paths that have a row. -/
structure State (φ : Type) where
  files : φ
  rows : List String

/-- An operation. -/
def Operation.run (c : Calls φ ε) (settings : Settings) (dbFails : Bool) (op : Operation) (s : State φ) :
    Except (OpError ε) Unit × State φ :=
  match op.act c settings s.files with
  | (.error err, files) => (.error err, { s with files := files })
  | (.ok path, files) => (.ok (), ⟨files, deleteRow dbFails s.rows path⟩)

/-! ### What is to be shown -/

/-- The index has no row for a path that has disappeared, and still has those of the paths that exist. -/
structure Truthful (c : Calls φ ε) (before after : State φ) : Prop where
  gone : ∀ path, c.present before.files path → ¬ c.present after.files path → path ∉ after.rows
  kept : ∀ path ∈ before.rows, c.present after.files path → path ∈ after.rows

/-- No other path with a row disappears; if the path has a row and it is deleted, the path does not exist afterwards,
and if the deletion fails, the path does not disappear. -/
structure Alone (c : Calls φ ε) (dbFails : Bool) (s : State φ) (path : String) (files : φ) : Prop where
  others : ∀ other ∈ s.rows, other ≠ path → c.present s.files other → c.present files other
  deleted : dbFails = false → path ∈ s.rows → ¬ c.present files path
  failed : dbFails = true → path ∈ s.rows → c.present s.files path → c.present files path

/-! ### One operation -/

variable {c : Calls φ ε} {dbFails : Bool} {s : State φ} {path : String} {files : φ}

theorem mem_deleteRow {rows : List String} {other : String} :
    other ∈ deleteRow dbFails rows path ↔ other ∈ rows ∧ (dbFails = true ∨ other ≠ path) := by
  cases dbFails <;> simp [deleteRow]

theorem truthful_deleteRow_iff :
    Truthful c s ⟨files, deleteRow dbFails s.rows path⟩ ↔ Alone c dbFails s path files := by
  constructor
  · rintro ⟨hgone, hkept⟩
    refine ⟨fun other hrow hne hbefore => ?_, fun hdb hrow hafter => ?_, fun hdb hrow hbefore => ?_⟩
    · by_contra hafter
      exact hgone other hbefore hafter (mem_deleteRow.mpr ⟨hrow, Or.inr hne⟩)
    · rcases (mem_deleteRow.mp (hkept path hrow hafter)).2 with hfails | hne
      · rw [hdb] at hfails
        cases hfails
      · exact hne rfl
    · by_contra hafter
      exact hgone path hbefore hafter (mem_deleteRow.mpr ⟨hrow, Or.inl hdb⟩)
  · rintro ⟨hothers, hdeleted, hfailed⟩
    refine ⟨fun other hbefore hafter hrow => ?_, fun other hrow hafter => ?_⟩
    · obtain ⟨hmem, hleft⟩ := mem_deleteRow.mp hrow
      by_cases heq : other = path
      · rw [heq] at hmem hbefore hafter
        exact hafter (hfailed (hleft.resolve_right (not_not.mpr heq)) hmem hbefore)
      · exact hafter (hothers other hmem heq hbefore)
    · refine mem_deleteRow.mpr ⟨hrow, ?_⟩
      by_contra hleft
      obtain ⟨hdb, heq⟩ := not_or.mp hleft
      obtain rfl := not_not.mp heq
      exact hdeleted (by simpa using hdb) hrow hafter

/-- **When the index is right.** For all files, calls, settings and rows, and every operation: if it succeeds, the index
is right exactly if no other path with a row disappears, and the path itself does if its row is deleted and does not if
that fails. -/
theorem truthful_iff (c : Calls φ ε) (settings : Settings) (dbFails : Bool) (op : Operation) (s : State φ) :
    ((op.run c settings dbFails s).1 = .ok () → Truthful c s (op.run c settings dbFails s).2) ↔
      ∀ path files, op.act c settings s.files = (.ok path, files) → Alone c dbFails s path files := by
  unfold Operation.run
  cases hact : op.act c settings s.files with
  | mk result files =>
    cases result with
    | error err => simp
    | ok path =>
      refine ⟨fun h path' files' heq => ?_, fun h _ => truthful_deleteRow_iff.mpr (h path files rfl)⟩
      cases heq
      exact truthful_deleteRow_iff.mp (h rfl)

/-! ### A file that keeps its name -/

/-- The calls of the kernel, with the rest of them given. -/
def unixCalls (k : Kernel) (evalSymlinks : FileSystem → String → Option String)
    (removeAll moveToTrash : String → FileSystem → Except Fault Unit × FileSystem) : Calls FileSystem Fault where
  present fs path := ∃ i, fs.resolve false (parse path) = .ok i
  evalSymlinks := evalSymlinks
  rename oldpath newpath fs :=
    match k.osRename fs oldpath newpath with
    | .error err => (.error err, fs)
    | .ok fs => (.ok (), fs)
  removeAll := removeAll
  moveToTrash := moveToTrash

/-- The directory `/a` with the file `/a/f`. -/
def directory : FileSystem where
  node i :=
    match i with
    | 0 => some (.dir ⟨0, [("a", 1)], by decide, by decide⟩)
    | 1 => some (.dir ⟨0, [("f", 2)], by decide, by decide⟩)
    | 2 => some (.file [65] 0)
    | _ => none
  root := 0
  cwd := 0
  next := 3
  fresh i hi := by
    match i with
    | 0 | 1 | 2 => exact absurd hi (by decide)
    | i + 3 => rfl
  rooted := ⟨rfl, rfl⟩
  closed i d hi := by
    match i, hi with
    | 0, hi | 1, hi =>
      cases hi
      exact ⟨rfl, by decide⟩
    | 2, hi | i + 3, hi => cases hi

def noCalls : Calls FileSystem Fault :=
  unixCalls .willing (fun _ path => some path) (fun _ fs => (.error .invalid, fs)) fun _ fs => (.error .invalid, fs)

/-- The file `/a/f` is renamed to `f`. It is still there, and its row is gone. -/
theorem row_of_kept_name :
    ((Operation.renameFile "/a/f" "f").run noCalls ⟨"", none⟩ false ⟨directory, ["/a", "/a/f"]⟩).1 = .ok () ∧
      ((Operation.renameFile "/a/f" "f").run noCalls ⟨"", none⟩ false ⟨directory, ["/a", "/a/f"]⟩).2.rows = ["/a"] ∧
      ¬ Truthful noCalls ⟨directory, ["/a", "/a/f"]⟩
        ((Operation.renameFile "/a/f" "f").run noCalls ⟨"", none⟩ false ⟨directory, ["/a", "/a/f"]⟩).2 := by
  have hrows : ((Operation.renameFile "/a/f" "f").run noCalls ⟨"", none⟩ false ⟨directory, ["/a", "/a/f"]⟩).2.rows =
      ["/a"] := by decide
  refine ⟨rfl, hrows, fun h => ?_⟩
  have hkept := h.kept "/a/f" (by decide) ⟨2, by decide⟩
  rw [hrows] at hkept
  exact absurd hkept (by decide)

/-- The directory `/a` becomes `/b`: the file `/a/f` has disappeared, and its row is still there. -/
example : ((Operation.renameFile "/a" "b").run noCalls ⟨"", none⟩ false ⟨directory, ["/a", "/a/f"]⟩).2.rows =
    ["/a/f"] := by
  decide

end Tilbo.Daemon.IndexTruth
