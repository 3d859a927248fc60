import Tilbo.Sidecar.Stored

/-! # One sidecar for each file

A row of `sidecar_data` belongs to an inode and a device number. The columns are signed, and a number from `2^63` on is
stored as `2^63 - 1`: two files that differ only in such numbers share their row. `isolated_iff` says which pairs of
numbers are kept apart. -/

namespace Tilbo.Sidecar.Isolation

open Tilbo.Lib.Txn Tilbo.Lib.Txn.Prog Tilbo.Sidecar.Store Tilbo.Sidecar.Stored

/-- A call for the row of a file. -/
inductive Op where
  | read
  | write (data : String)
  | delete

/-- The call as a program; a text that is read is dropped here. -/
def Op.run (file : UInt64 × UInt64) : Op → Prog Disk Error Unit
  | .read => do let _ ← readSidecar file
  | .write data => writeSidecar file data
  | .delete => deleteSidecar file

/-- A call for a file; it may fail. -/
structure Call where
  file : UInt64 × UInt64
  op : Op
  fails : Bool

/-- The disk after one call. -/
def step (d : Disk) (c : Call) : Disk := (c.op.run c.file ⟨d, [c.fails]⟩).2.store

/-- The disk after the calls. -/
def after (d : Disk) (calls : List Call) : Disk := calls.foldl step d

/-- `ReadSidecar` returns the text. -/
def Reads (d : Disk) (file : UInt64 × UInt64) (text : String) : Prop := Runs (readSidecar file) d (.ok text) d

/-- After any calls, one for `file` does not change what is read for `other`. -/
def Untouched (file other : UInt64 × UInt64) : Prop :=
  ∀ d calls op fails text, Reads (after d calls) other text → Reads (after d (calls ++ [⟨file, op, fails⟩])) other text

/-- What is written is read. -/
def ReadBack (file : UInt64 × UInt64) : Prop :=
  ∀ d calls data, Reads (after d (calls ++ [⟨file, .write data, false⟩])) file data

/-- The files do not get in each other's way. -/
structure Isolated (file other : UInt64 × UInt64) : Prop where
  untouched : Untouched file other
  untouched' : Untouched other file
  readBack : ReadBack file
  readBack' : ReadBack other

/-- The numbers differ, and one of them is below the largest of the column. -/
def Apart (m n : UInt64) : Prop := m ≠ n ∧ (m.toNat < 2 ^ 63 - 1 ∨ n.toNat < 2 ^ 63 - 1)

variable {d : Disk} {file other : UInt64 × UInt64} {m n : UInt64} {text : String}

/-! ### The key -/

theorem saturating_eq_iff : saturatingInt64FromUint64 m = saturatingInt64FromUint64 n ↔ ¬ Apart m n := by
  unfold saturatingInt64FromUint64 Apart
  rw [ne_eq, ← UInt64.toNat_inj]
  split_ifs <;> omega

theorem rowKey_eq_iff : rowKey file = rowKey other ↔ ¬ (Apart file.1 other.1 ∨ Apart file.2 other.2) := by
  rw [rowKey, rowKey, Prod.mk.injEq, saturating_eq_iff, saturating_eq_iff, not_or]

/-! ### The calls -/

theorem reads_iff : Reads d file text ↔ (d.sidecar (rowKey file)).getD "" = text := by
  have hrun : Runs (readSidecar file) d (.ok ((d.sidecar (rowKey file)).getD "")) d := Runs.stmt rfl
  constructor
  · intro h
    exact Except.ok.inj (Prod.mk.inj (hrun.symm.trans h)).1
  · rintro rfl
    exact hrun

theorem after_snoc (calls : List Call) (c : Call) : after d (calls ++ [c]) = step (after d calls) c := by
  rw [after, List.foldl_append]
  rfl

/-- A call changes no row but its own. -/
theorem sidecar_step (c : Call) {key : ℤ × ℤ} (hkey : key ≠ rowKey c.file) :
    (step d c).sidecar key = d.sidecar key := by
  obtain ⟨file, op, fails⟩ := c
  cases fails with
  | true => cases op <;> rfl
  | false =>
    cases op with
    | read => rfl
    | write data => exact Function.update_of_ne hkey ..
    | delete => exact Function.update_of_ne hkey ..

theorem untouched_of_ne (hkey : rowKey other ≠ rowKey file) : Untouched file other := by
  intro d calls op fails text h
  rw [reads_iff] at h ⊢
  rw [after_snoc, sidecar_step _ hkey]
  exact h

/-- A write for a file that shares the row is read. -/
theorem not_untouched_of_eq (hkey : rowKey other = rowKey file) : ¬ Untouched file other := by
  intro h
  have hold : Reads (after ⟨fun _ => none, fun _ => none⟩ []) other "" := reads_iff.mpr rfl
  have hnew := reads_iff.mp (h _ [] (.write "{}") false "" hold)
  rw [hkey] at hnew
  have hwritten : (step ⟨fun _ => none, fun _ => none⟩ ⟨file, .write "{}", false⟩).sidecar (rowKey file) = some "{}" :=
    Function.update_self ..
  rw [after_snoc, after, List.foldl_nil, hwritten] at hnew
  exact absurd hnew (by decide)

theorem readBack : ReadBack file := by
  intro d calls data
  rw [reads_iff, after_snoc]
  have hwritten : (step (after d calls) ⟨file, .write data, false⟩).sidecar (rowKey file) = some data :=
    Function.update_self ..
  rw [hwritten]
  rfl

/-- **Which files are kept apart.** For any two pairs of numbers: those that differ in the inode or the device number,
one of the two numbers being below `2^63 - 1`. -/
theorem isolated_iff : Isolated file other ↔ Apart file.1 other.1 ∨ Apart file.2 other.2 := by
  constructor
  · intro h
    by_contra hnot
    exact not_untouched_of_eq (rowKey_eq_iff.mpr hnot).symm h.untouched
  · intro h
    have hkey : rowKey file ≠ rowKey other := fun heq => rowKey_eq_iff.mp heq h
    exact ⟨untouched_of_ne hkey.symm, untouched_of_ne hkey, readBack, readBack⟩

/-! ### The store -/

/-- Whatever fails, `Store.Write` leaves alone what the store has for a file with other numbers. -/
theorem wp_write_elsewhere {path path' : String} (data : Data) (hfile : d.inode path = some file)
    (hother : d.inode path' = some other) (hapart : Apart file.1 other.1 ∨ Apart file.2 other.2) :
    wp (Store.write path data) (fun _ d' => sidecarData path' d' = sidecarData path' d)
      (fun _ d' => sidecarData path' d' = sidecarData path' d) d := by
  have hkey : rowKey other ≠ rowKey file := fun heq => rowKey_eq_iff.mp heq.symm hapart
  have hsame : ∀ row, sidecarData path' { d with sidecar := Function.update d.sidecar (rowKey file) row } =
      sidecarData path' d := fun row => by
    simp [sidecarData, hother, Function.update_of_ne hkey]
  refine wp_andThen (wp_wrap (wp_stmt rfl ?_))
  rw [hfile]
  dsimp only
  split_ifs
  · exact wp_wrap (wp_stmt rfl (hsame none))
  · exact wp_wrap (wp_stmt rfl (hsame (some data.marshal)))

/-! ### Two large numbers -/

/-- The row of inode `2^63` is read for inode `2^63 + 1`. -/
theorem large_not_isolated : ¬ Isolated (9223372036854775808, 1) (9223372036854775809, 1) := by
  intro h
  have hkey : rowKey (9223372036854775808, 1) = rowKey (9223372036854775809, 1) :=
    rowKey_eq_iff.mpr (by unfold Apart; decide)
  exact not_untouched_of_eq hkey.symm h.untouched

end Tilbo.Sidecar.Isolation
