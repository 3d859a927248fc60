import Tilbo.Lib.Words
import Tilbo.Xattr.Csv

/-! # Launching applications

`LaunchApp` puts the path of a file into the Exec line of an application and then cuts the line into arguments.
`intact_iff` says when each file field code ends up as the path within one argument. -/

namespace Tilbo.Desktopfile.LaunchApp

open Tilbo.Lib.Words Tilbo.Xattr.Csv

/-! ### The arguments -/

/-- The letters of `fieldCodeRe`. -/
def codes : List Char := ['f', 'F', 'u', 'U', 'd', 'D', 'n', 'N', 'i', 'c', 'k', 'v', 'm', '%']

/-- `ReplaceAllStringFunc` with `fieldCodeRe`: each percent sign with a letter is replaced, and the rest is left. -/
def replaceCodes {β : Type} (keep : Char → β) (replace : Char → List β) : List Char → List β
  | [] => []
  | [c] => [keep c]
  | c :: d :: rest =>
    if c = '%' ∧ d ∈ codes then replace d ++ replaceCodes keep replace rest
    else keep c :: replaceCodes keep replace (d :: rest)

/-- What `LaunchApp` puts in place of a field code. -/
def substitute (filePath : List Char) (code : Char) : List Char :=
  if code = 'f' ∨ code = 'u' then filePath
  else if code = 'F' ∨ code = 'U' then filePath
  else if code = '%' then ['%']
  else []

/-- The command that `LaunchApp` starts, with its arguments, for an Exec line and a path. There is none if the list is
empty. The cut is `strings.Fields`. -/
def launchApp (exec filePath : String) : List (List Char) :=
  words isSpace (replaceCodes id (substitute filePath.toList) exec.toList)

/-! ### What is to be shown -/

/-- A piece of an Exec line: a character, or a code that stands for the file. -/
inductive Piece where
  | char (c : Char)
  | file
deriving DecidableEq

namespace Piece

/-- What a piece stands for. -/
def text (filePath : List Char) : Piece → List Char
  | .char c => [c]
  | .file => filePath

def isSpace : Piece → Bool
  | .char c => Xattr.Csv.isSpace c
  | .file => false

end Piece

/-- A field code as pieces; a code that does not stand for the file is nothing. -/
def Piece.ofCode (code : Char) : List Piece :=
  if code ∈ ['f', 'F', 'u', 'U'] then [.file] else if code = '%' then [.char '%'] else []

/-- The pieces of an Exec line. -/
def pieces (line : List Char) : List Piece := replaceCodes .char Piece.ofCode line

/-- The arguments of an Exec line, with the codes that stand for the file. -/
def template (exec : String) : List (List Piece) := words Piece.isSpace (pieces exec.toList)

/-- The arguments are those of the Exec line, with the path in place of each code that stands for the file. -/
def Intact (exec filePath : String) : Prop :=
  launchApp exec filePath = (template exec).map (List.flatMap (Piece.text filePath.toList))

/-- No code stands for the file; or there is no white space in the path, and it is not empty, unless there is something
else in each argument. -/
def Plain (exec filePath : String) : Prop :=
  .file ∉ pieces exec.toList ∨
    (∀ c ∈ filePath.toList, isSpace c = false) ∧ (filePath = "" → ∀ w ∈ template exec, ∃ c, .char c ∈ w)

/-! ### One line -/

variable {exec filePath : String}

theorem replaceCodes_flatMap {β γ : Type} {keep : Char → β} {replace : Char → List β} {f : β → List γ}
    {keep' : Char → γ} (hkeep : ∀ c, f (keep c) = [keep' c]) (line : List Char) :
    (replaceCodes keep replace line).flatMap f = replaceCodes keep' (fun c => (replace c).flatMap f) line := by
  fun_induction replaceCodes keep replace line with
  | case1 => rfl
  | case2 c => simp [replaceCodes, hkeep]
  | case3 c d rest hcode ih => rw [replaceCodes, if_pos hcode, List.flatMap_append, ih]
  | case4 c d rest hcode ih => rw [replaceCodes, if_neg hcode, List.flatMap_cons, hkeep, ih, List.singleton_append]

/-- The line with the path put in is the text of its pieces. -/
theorem expanded_eq (path line : List Char) :
    replaceCodes id (substitute path) line = (pieces line).flatMap (Piece.text path) := by
  have hcode : ∀ c, (Piece.ofCode c).flatMap (Piece.text path) = substitute path c := by
    intro c
    unfold Piece.ofCode substitute
    by_cases hfile : c ∈ ['f', 'F', 'u', 'U']
    · rw [if_pos hfile]
      simp only [List.mem_cons, List.not_mem_nil, or_false] at hfile
      rcases hfile with rfl | rfl | rfl | rfl <;> simp [Piece.text]
    · rw [if_neg hfile]
      simp only [List.mem_cons, List.not_mem_nil, or_false, not_or] at hfile
      obtain ⟨hf, hF, hu, hU⟩ := hfile
      rw [if_neg (not_or.mpr ⟨hf, hu⟩), if_neg (not_or.mpr ⟨hF, hU⟩)]
      by_cases hpercent : c = '%'
      · rw [if_pos hpercent, if_pos hpercent]
        rfl
      · rw [if_neg hpercent, if_neg hpercent]
        rfl
  have hpieces := @replaceCodes_flatMap _ _ Piece.char Piece.ofCode (Piece.text path) id (fun _ => rfl) line
  simp only [hcode] at hpieces
  exact hpieces.symm

/-- Where the path is plain, the words are those of the template. -/
theorem intact_of_plain (h : Plain exec filePath) : Intact exec filePath := by
  unfold Intact launchApp template
  rw [expanded_eq]
  refine words_flatMap (fun piece _ hspace => ?_) (fun piece hpiece hspace b hb => ?_) fun w hw => ?_
  · cases piece with
    | char c => exact ⟨c, rfl, hspace⟩
    | file => cases hspace
  · cases piece with
    | char c =>
      obtain rfl := List.mem_singleton.mp hb
      exact hspace
    | file => exact (h.resolve_left fun hnone => hnone hpiece).1 b hb
  · obtain ⟨hne, -⟩ := mem_words hw
    intro hnil
    have hpiece : ∀ piece ∈ w, piece.text filePath.toList = [] := List.flatMap_eq_nil_iff.mp hnil
    have hfile : ∀ piece ∈ w, piece = .file := fun piece hmem => by
      cases piece with
      | char c => cases hpiece _ hmem
      | file => rfl
    obtain ⟨piece, hmem⟩ := List.exists_mem_of_ne_nil w hne
    obtain rfl := hfile piece hmem
    have hempty : filePath = "" := String.toList_injective (hpiece _ hmem)
    obtain ⟨hspace, hother⟩ := h.resolve_left fun hnone => hnone (mem_of_mem_words hw hmem)
    obtain ⟨c, hc⟩ := hother hempty w hw
    cases hfile _ hc

/-- A path that is not plain does not stay in one argument. -/
theorem plain_of_intact (h : Intact exec filePath) : Plain exec filePath := by
  by_contra hnot
  obtain ⟨hfile, hbad⟩ := not_or.mp hnot
  have hfile : .file ∈ pieces exec.toList := not_not.mp hfile
  obtain ⟨w, hw, hmem⟩ : ∃ w ∈ template exec, Piece.file ∈ w := exists_mem_words hfile rfl
  -- an argument has no white space and is not empty
  have hargs : ∀ w ∈ template exec, w.flatMap (Piece.text filePath.toList) ≠ [] ∧
      ∀ c ∈ w.flatMap (Piece.text filePath.toList), isSpace c = false := fun w hw => by
    refine mem_words (l := replaceCodes id (substitute filePath.toList) exec.toList) ?_
    unfold Intact launchApp at h
    rw [h]
    exact List.mem_map_of_mem hw
  refine hbad ⟨fun c hc => (hargs w hw).2 c ?_, fun hempty w hw => ?_⟩
  · exact List.mem_flatMap.mpr ⟨.file, hmem, hc⟩
  · by_contra hnone
    refine (hargs w hw).1 (List.flatMap_eq_nil_iff.mpr fun piece hpiece => ?_)
    cases piece with
    | char c => exact absurd ⟨c, hpiece⟩ hnone
    | file =>
      rw [hempty]
      rfl

/-- **When a path is passed intact.** For every Exec line and path: exactly if no code stands for the file, or there is
no white space in the path and it is not empty (or does not stand alone). -/
theorem intact_iff (exec filePath : String) : Intact exec filePath ↔ Plain exec filePath :=
  ⟨plain_of_intact, intact_of_plain⟩

/-- The path `/my file` becomes two arguments. -/
theorem path_is_split :
    launchApp "view %f" "/my file" = ["view".toList, "/my".toList, "file".toList] ∧ ¬ Intact "view %f" "/my file" := by
  have hargs : launchApp "view %f" "/my file" = ["view".toList, "/my".toList, "file".toList] := by decide
  refine ⟨hargs, fun h => ?_⟩
  rw [Intact, hargs] at h
  exact absurd h (by decide)

end Tilbo.Desktopfile.LaunchApp
