import Tilbo.Daemon.Unix

/-! # Restoring a file from the trash

`RestoreFromTrash` reads the path that a `.trashinfo` gives and moves the file of the trash back to it. -/

namespace Tilbo.Trash.Restore

open Tilbo.Lib.CleanPaths Tilbo.Daemon.Unix

/-! ### The original path -/

/-- The longest line that fits into the buffer of the scanner, and one more. -/
def maxTokenSize : ℕ := 64 * 1024

/-- `bufio.ScanLines`; none if the scanner ends with an error because a line is too long. -/
def scanLines (content : List UInt8) : Option (List (List UInt8)) :=
  let lines := content.splitOn 0x0a
  let lines := if lines.getLast? = some [] then lines.dropLast else lines
  if lines.all fun line => line.length < maxTokenSize then
    some (lines.map fun line => if line.getLast? = some 0x0d then line.dropLast else line)
  else none

/-- The value of a hexadecimal digit. -/
def unhex (b : UInt8) : Option UInt8 :=
  if 0x30 ≤ b ∧ b ≤ 0x39 then some (b - 0x30)
  else if 0x61 ≤ b ∧ b ≤ 0x66 then some (b - 0x61 + 10)
  else if 0x41 ≤ b ∧ b ≤ 0x46 then some (b - 0x41 + 10)
  else none

/-- `url.PathUnescape`. -/
def pathUnescape : List UInt8 → Option (List UInt8)
  | [] => some []
  | 0x25 :: hi :: lo :: rest => do return (16 * (← unhex hi) + (← unhex lo)) :: (← pathUnescape rest)
  | b :: rest => if b = 0x25 then none else do return b :: (← pathUnescape rest)

/-- `strings.CutPrefix(line, "Path=")`. -/
def cutPath (line : List UInt8) : Option (List UInt8) :=
  let key := "Path=".toUTF8.toList
  if key <+: line then some (line.drop key.length) else none

/-- The original path that `parseTrashInfo` finds: that of the last line with one. A path that is no text has no place
here, and counts as none. -/
def parseTrashInfo (content : List UInt8) : Option String :=
  (scanLines content).map fun lines =>
    let path := (lines.filterMap cutPath).getLast?.getD []
    (String.fromUTF8? ⟨((pathUnescape path).getD path).toArray⟩).getD ""

/-! ### The move -/

/-- Why a file is not restored. -/
inductive RestoreError where
  /-- "trash: read trashinfo for %q: %w"; none if a line is too long -/
  | readInfo (err : Option Tilbo.Lib.Files.Fault)
  /-- "trash: no original path in trashinfo for %q" -/
  | noOriginalPath
  /-- "trash: create parent dir for restore: %w" -/
  | parent (err : Tilbo.Lib.Files.Fault)
  /-- "trash: restore file: %w" -/
  | restore (err : Tilbo.Lib.Files.Fault)

/-- `RestoreFromTrash`. -/
def restoreFromTrash (k : Kernel) (trashBase trashName : String) (w : World) : Except RestoreError Unit × World :=
  let infoPath := join [trashBase, "info", trashName ++ ".trashinfo"]
  let src := join [trashBase, "files", trashName]
  match k.read w.files (parse infoPath) with
  | .error err => (.error (.readInfo (some err)), w)
  | .ok content =>
    match parseTrashInfo content with
    | none => (.error (.readInfo none), w)
    | some dst =>
      if dst = "" then (.error .noOriginalPath, w)
      else
        match (unix k).mkdirAll (dir dst) 0o750 w with
        | (.error err, w) => (.error (.parent err), w)
        | (.ok _, w) =>
          match w.rename k src dst with
          | (.error err, w) => (.error (.restore err), w)
          | (.ok _, w) => (.ok (), (w.update (k.remove w.files (parse infoPath))).2)

end Tilbo.Trash.Restore
