import Tilbo.Lib.Lines
import Tilbo.Lib.Trim
import Tilbo.Lib.Words
import Mathlib.Data.List.Nodup
import Mathlib.Data.List.TakeWhile

/-! # Bookmarks of the file chooser

At every start the daemon adds three bookmarks to those of GTK that are not there. It reads the lines of the file, looks
at the first word of each, and if a bookmark is missing writes the lines back with what is missing behind them. The
scanner ends at a line that does not fit into its buffer, which nobody notices. `injects_iff` says when this can be done
again without a change, and when no line is lost. Contents of files and paths are bytes. -/

namespace Tilbo.Bookmarks.Inject

open Tilbo.Lib.Lines (Bytes bytes newline dropCR)
open Tilbo.Lib.Trim

/-! ### Lines -/

/-- `' '`. -/
def space : UInt8 := 0x20

/-- The white space of `unicode.IsSpace`, in UTF-8. -/
def spaces : List Bytes :=
  [[0x09], [0x0a], [0x0b], [0x0c], [0x0d], [0x20], [0xc2, 0x85], [0xc2, 0xa0], [0xe1, 0x9a, 0x80],
    [0xe2, 0x80, 0x80], [0xe2, 0x80, 0x81], [0xe2, 0x80, 0x82], [0xe2, 0x80, 0x83], [0xe2, 0x80, 0x84],
    [0xe2, 0x80, 0x85], [0xe2, 0x80, 0x86], [0xe2, 0x80, 0x87], [0xe2, 0x80, 0x88], [0xe2, 0x80, 0x89],
    [0xe2, 0x80, 0x8a], [0xe2, 0x80, 0xa8], [0xe2, 0x80, 0xa9], [0xe2, 0x80, 0xaf], [0xe2, 0x81, 0x9f],
    [0xe3, 0x80, 0x80]]

/-- `strings.TrimSpace`. -/
def trimSpace (line : Bytes) : Bytes := trim spaces line

/-- The longest line that fits into the buffer of the scanner, and one more. -/
def maxTokenSize : ℕ := 64 * 1024

/-- The line fits into the buffer. -/
def Fits (line : Bytes) : Prop := line.length < maxTokenSize

instance (line : Bytes) : Decidable (Fits line) := inferInstanceAs (Decidable (_ < _))

/-- The lines that `Scan` gives until it gives up. -/
def scanLines (content : Bytes) : List Bytes :=
  let lines := content.splitOn newline
  let lines := if lines.getLast? = some [] then lines.dropLast else lines
  (lines.takeWhile (Fits ·)).map dropCR

/-- `strings.SplitN(line, " ", 2)[0]`. -/
def firstWord (line : Bytes) : Bytes := line.takeWhile (· ≠ space)

/-- The lines that are kept. -/
def readLines (content : Bytes) : List Bytes := ((scanLines content).map trimSpace).filter (· ≠ [])

/-! ### The injection -/

structure Bookmark where
  uri : Bytes
  label : Bytes
deriving DecidableEq

/-- `fmt.Sprintf("%s %s", b.URI, b.Label)`. -/
def Bookmark.line (b : Bookmark) : Bytes := b.uri ++ space :: b.label

/-- What `InjectVirtualTags` adds. -/
def bookmarksToAdd (fuseMountPath : Bytes) : List Bookmark :=
  [⟨bytes "file://" ++ fuseMountPath ++ bytes "/@recent", bytes "Recent (tilbo)"⟩,
    ⟨bytes "file://" ++ fuseMountPath ++ bytes "/@untagged", bytes "Untagged (tilbo)"⟩,
    ⟨bytes "file://" ++ fuseMountPath ++ bytes "/work", bytes "Work"⟩]

/-- The bookmarks whose URI is not the first word of a line. -/
def missing (toAdd : List Bookmark) (lines : List Bytes) : List Bookmark :=
  toAdd.filter fun b => !(lines.map firstWord).contains b.uri

/-- `strings.Join(lines, "\n") + "\n"`. -/
def joinLines (lines : List Bytes) : Bytes := [newline].intercalate lines ++ [newline]

/-- What goes wrong; a write that fails has left something in the file. -/
inductive Fault (ε : Type) where
  | mkdirAll (err : ε)
  | open (err : ε)
  | writeFile (err : ε) (left : Bytes)

/-- `injectBookmarks`: there may be no file. -/
def injectBookmarks {ε : Type} (fault : Option (Fault ε)) (toAdd : List Bookmark) (file : Option Bytes) :
    Except ε Unit × Option Bytes :=
  match fault with
  | some (.mkdirAll err) | some (.open err) => (.error err, file)
  | fault =>
    let lines := (file.map readLines).getD []
    let added := missing toAdd lines
    if added = [] then (.ok (), file)
    else
      match fault with
      | some (.writeFile err left) => (.error err, some left)
      | _ => (.ok (), some (joinLines (lines ++ added.map Bookmark.line)))

/-- What is in the file after the bookmarks are injected. -/
def inject (fuseMountPath : Bytes) (file : Option Bytes) : Option Bytes :=
  (injectBookmarks (none : Option (Fault Unit)) (bookmarksToAdd fuseMountPath) file).2

/-! ### What is to be shown -/

/-- A line without its end and without white space around it. -/
def tidy (line : Bytes) : Bytes := trimSpace (dropCR line)

/-- The lines that are not blank, up to white space around them. -/
def nonBlank (lines : List Bytes) : List Bytes := (lines.map tidy).filter (· ≠ [])

/-- All lines of a file. -/
def linesOf (file : Option Bytes) : List Bytes := (file.getD []).splitOn newline

/-- A line has the bookmark: it is its URI, or that and a label. -/
def Bookmark.Occurs (b : Bookmark) (line : Bytes) : Prop := line = b.uri ∨ b.uri ++ [space] <+: line

instance (b : Bookmark) (line : Bytes) : Decidable (b.Occurs line) := inferInstanceAs (Decidable (_ ∨ _))

/-- Injecting the bookmarks again changes nothing; the lines that are not blank are kept in their order; and a bookmark
that was not there is there once. -/
structure Injects (fuseMountPath : Bytes) (file : Option Bytes) : Prop where
  again : inject fuseMountPath (inject fuseMountPath file) = inject fuseMountPath file
  kept : (nonBlank (linesOf file)).Sublist (nonBlank (linesOf (inject fuseMountPath file)))
  once : ∀ b ∈ bookmarksToAdd fuseMountPath, (∀ line ∈ nonBlank (linesOf file), ¬ b.Occurs line) →
    (nonBlank (linesOf (inject fuseMountPath file))).countP (b.Occurs ·) = 1

/-- What the scanner reads. -/
def reached (file : Option Bytes) : List Bytes := nonBlank ((linesOf file).takeWhile (Fits ·))

/-- The lines from the first on that does not fit. -/
def lost (file : Option Bytes) : List Bytes := nonBlank ((linesOf file).dropWhile (Fits ·))

/-- The condition: every bookmark is the first word of a line that is read; or the path of the mount has no line break,
it has no space (or is so long that the first line that is written is not read again), and what is not read is
written, as it is among the lines of the bookmarks that are missing. -/
def Harmless (fuseMountPath : Bytes) (file : Option Bytes) : Prop :=
  let missing := missing (bookmarksToAdd fuseMountPath) (reached file)
  missing = [] ∨
    newline ∉ fuseMountPath ∧ (space ∉ fuseMountPath ∨ ∀ b ∈ missing.head?, ¬ Fits b.line) ∧
      (lost file).Sublist (missing.map Bookmark.line)

/-! ### Lines that are read -/

variable {mount line content : Bytes} {file : Option Bytes} {lines : List Bytes} {b b' : Bookmark}

theorem spaces_ne_nil : ∀ code ∈ spaces, code ≠ [] := by decide

theorem dropCR_prefix : dropCR line <+: line := by
  unfold dropCR
  split_ifs
  · exact List.dropLast_prefix line
  · exact List.prefix_rfl

theorem tidy_infix : tidy line <:+: line := trim_infix.trans dropCR_prefix.isInfix

/-- A line that is tidy stays as it is. -/
theorem tidy_tidy : tidy (tidy line) = tidy line := by
  have hbare : ¬ [0x0d] <:+ tidy line := (bare_trim spaces_ne_nil (by decide)).2
  have hcr : dropCR (tidy line) = tidy line := by
    refine if_neg fun hlast => hbare ?_
    obtain ⟨rest, hrest⟩ := List.getLast?_eq_some_iff.mp hlast
    exact ⟨rest, hrest.symm⟩
  rw [tidy, hcr]
  exact trim_trim spaces_ne_nil

theorem mem_nonBlank (h : line ∈ nonBlank lines) : line ≠ [] ∧ tidy line = line ∧ ∃ raw ∈ lines, line <:+: raw := by
  obtain ⟨hmem, hne⟩ := List.mem_filter.mp h
  obtain ⟨raw, hraw, rfl⟩ := List.mem_map.mp hmem
  exact ⟨by simpa using hne, tidy_tidy, raw, hraw, tidy_infix⟩

theorem nonBlank_append (lines lines' : List Bytes) :
    nonBlank (lines ++ lines') = nonBlank lines ++ nonBlank lines' := by
  simp only [nonBlank, List.map_append, List.filter_append]

/-- Lines that are tidy already. -/
theorem nonBlank_eq_self (h : ∀ line ∈ lines, line ≠ [] ∧ tidy line = line) : nonBlank lines = lines := by
  have hmap : lines.map tidy = lines :=
    (List.map_congr_left fun line hline => (h line hline).2).trans (List.map_id lines)
  rw [nonBlank, hmap, List.filter_eq_self]
  exact fun line hline => by simpa using (h line hline).1

theorem nonBlank_blank : nonBlank [[]] = [] := by decide

theorem newline_not_mem_linesOf : ∀ line ∈ linesOf file, newline ∉ line :=
  fun _ => Tilbo.Lib.Words.not_mem_of_mem_splitOn

theorem newline_not_mem_nonBlank (hlines : ∀ line ∈ lines, newline ∉ line) :
    ∀ line ∈ nonBlank lines, newline ∉ line := by
  intro line hline hmem
  obtain ⟨-, -, raw, hraw, hpart⟩ := mem_nonBlank hline
  exact hlines raw hraw (hpart.subset hmem)

theorem reached_append_lost : reached file ++ lost file = nonBlank (linesOf file) := by
  rw [reached, lost, ← nonBlank_append, List.takeWhile_append_dropWhile]

theorem mem_reached (h : line ∈ reached file) : line ≠ [] ∧ tidy line = line ∧ newline ∉ line ∧ Fits line := by
  obtain ⟨hne, htidy, raw, hraw, hpart⟩ := mem_nonBlank h
  have hfits : Fits raw := by simpa using List.mem_takeWhile_imp hraw
  have hmem : raw ∈ linesOf file := (List.takeWhile_prefix _).subset hraw
  exact ⟨hne, htidy, fun hnl => newline_not_mem_linesOf raw hmem (hpart.subset hnl),
    lt_of_le_of_lt hpart.length_le hfits⟩

/-- An empty line at the end is not read, which makes no difference. -/
theorem takeWhile_blank (lines : List Bytes) :
    nonBlank ((lines ++ [[]]).takeWhile (Fits ·)) = nonBlank (lines.takeWhile (Fits ·)) := by
  have hblank : [([] : Bytes)].takeWhile (Fits ·) = [[]] := by decide
  rw [List.takeWhile_append]
  split_ifs with hall
  · rw [hblank, nonBlank_append, nonBlank_blank, List.append_nil,
      (List.takeWhile_prefix _).eq_of_length hall]
  · rfl

theorem readLines_eq : (file.map readLines).getD [] = reached file := by
  cases file with
  | none => decide
  | some content =>
    have hread : readLines content = nonBlank ((if (content.splitOn newline).getLast? = some [] then
        (content.splitOn newline).dropLast else content.splitOn newline).takeWhile (Fits ·)) := by
      simp only [readLines, scanLines, nonBlank, List.map_map]
      rfl
    rw [Option.map_some, Option.getD_some, hread]
    split_ifs with hlast
    · obtain ⟨init, hinit⟩ := List.getLast?_eq_some_iff.mp hlast
      have hlines : linesOf (some content) = init ++ [[]] := hinit
      rw [reached, hlines, hinit, List.dropLast_concat, takeWhile_blank]
    · rfl

/-- What is missing from a file. -/
abbrev missingFrom (mount : Bytes) (file : Option Bytes) : List Bookmark :=
  missing (bookmarksToAdd mount) (reached file)

/-- What an injection makes of a file. -/
theorem inject_eq (mount : Bytes) (file : Option Bytes) : inject mount file = if missingFrom mount file = [] then file
    else some (joinLines (reached file ++ (missingFrom mount file).map Bookmark.line)) := by
  simp only [inject, injectBookmarks, readLines_eq]
  split_ifs <;> rfl

/-! ### Lines that are written -/

theorem splitOn_joinLines (hne : lines ≠ []) : (joinLines lines).splitOn newline =
    lines.flatMap (·.splitOn newline) ++ [[]] := by
  induction lines with
  | nil => exact absurd rfl hne
  | cons line rest ih =>
    cases rest with
    | nil =>
      have hjoin : joinLines [line] = line ++ newline :: [] := by simp [joinLines, List.intercalate]
      rw [hjoin, List.splitOn_append_cons_self, List.flatMap_cons, List.flatMap_nil, List.append_nil]
      rfl
    | cons line' rest =>
      have hjoin : joinLines (line :: line' :: rest) = line ++ newline :: joinLines (line' :: rest) := by
        simp [joinLines, List.intercalate]
      rw [hjoin, List.splitOn_append_cons_self, ih (List.cons_ne_nil _ _), List.flatMap_cons (x := line),
        List.append_assoc]

/-- Lines without line breaks are found again. -/
theorem linesOf_joinLines (hne : lines ≠ []) (hlines : ∀ line ∈ lines, newline ∉ line) :
    linesOf (some (joinLines lines)) = lines ++ [[]] := by
  have hsplit : lines.flatMap (·.splitOn newline) = lines := by
    rw [List.flatMap_congr fun line hline => List.splitOn_eq_singleton (hlines line hline)]
    exact List.flatMap_singleton' lines
  exact (splitOn_joinLines hne).trans (by rw [hsplit])

/-! ### The bookmarks -/

theorem ends_of_mem (h : b ∈ bookmarksToAdd mount) :
    b.line.head? = some 0x66 ∧ (b.line.getLast? = some 0x29 ∨ b.line.getLast? = some 0x6b) := by
  simp only [bookmarksToAdd, List.mem_cons, List.not_mem_nil, or_false] at h
  have hfile : bytes "file://" = 0x66 :: bytes "ile://" := by decide
  rcases h with rfl | rfl | rfl
  · exact ⟨by simp [Bookmark.line, hfile], Or.inl (List.getLast?_append.trans rfl)⟩
  · exact ⟨by simp [Bookmark.line, hfile], Or.inl (List.getLast?_append.trans rfl)⟩
  · exact ⟨by simp [Bookmark.line, hfile], Or.inr (List.getLast?_append.trans rfl)⟩

theorem spaces_ends :
    ∀ code ∈ spaces, code.head? ≠ some 0x66 ∧ code.getLast? ≠ some 0x29 ∧ code.getLast? ≠ some 0x6b := by
  decide

/-- The line of a bookmark is tidy. -/
theorem tidy_line (h : b ∈ bookmarksToAdd mount) : b.line ≠ [] ∧ tidy b.line = b.line := by
  obtain ⟨hhead, hlast⟩ := ends_of_mem h
  have hne : b.line ≠ [] := fun hnil => by simp [hnil] at hhead
  have hcr : dropCR b.line = b.line := by
    refine if_neg fun hcr => ?_
    rw [hcr] at hlast
    exact absurd hlast (by decide)
  refine ⟨hne, ?_⟩
  rw [tidy, hcr]
  refine trim_eq_self fun code hcode => ?_
  have hcne := spaces_ne_nil code hcode
  obtain ⟨hfirst, hparen, hk⟩ := spaces_ends code hcode
  constructor
  · rintro ⟨rest, hrest⟩
    rw [← hrest, List.head?_append_of_ne_nil _ hcne] at hhead
    exact hfirst hhead
  · rintro ⟨rest, hrest⟩
    rw [← hrest, List.getLast?_append_of_ne_nil _ hcne] at hlast
    exact hlast.elim hparen hk

/-- A byte that is in none of the texts around it is in a URI if it is in the path. -/
theorem mem_uri_iff {c : UInt8} (hc : c = newline ∨ c = space) (h : b ∈ bookmarksToAdd mount) :
    c ∈ b.uri ↔ c ∈ mount := by
  simp only [bookmarksToAdd, List.mem_cons, List.not_mem_nil, or_false] at h
  have hnot : ∀ s ∈ ["file://", "/@recent", "/@untagged", "/work"], c ∉ bytes s := by
    rcases hc with rfl | rfl <;> decide
  rcases h with rfl | rfl | rfl <;> simp [hnot]

theorem newline_not_mem_line (hmount : newline ∉ mount) (h : b ∈ bookmarksToAdd mount) : newline ∉ b.line := by
  have huri : newline ∉ b.uri := fun hmem => hmount ((mem_uri_iff (Or.inl rfl) h).mp hmem)
  have hlabels : ∀ s ∈ ["Recent (tilbo)", "Untagged (tilbo)", "Work"], newline ∉ space :: bytes s := by decide
  have hlabel : newline ∉ space :: b.label := by
    simp only [bookmarksToAdd, List.mem_cons, List.not_mem_nil, or_false] at h
    rcases h with rfl | rfl | rfl <;> exact hlabels _ (by simp)
  exact fun hmem => (List.mem_append.mp hmem).elim huri hlabel

/-- Without spaces the URI is the first word. -/
theorem firstWord_line (hmount : space ∉ mount) (h : b ∈ bookmarksToAdd mount) : firstWord b.line = b.uri := by
  have huri : ∀ c ∈ b.uri, c ≠ space := fun c hc heq => hmount ((mem_uri_iff (Or.inr rfl) h).mp (heq ▸ hc))
  rw [firstWord, Bookmark.line, List.takeWhile_append_of_pos (by simpa using huri),
    List.takeWhile_cons_of_neg (by simp), List.append_nil]

theorem space_not_mem_firstWord : space ∉ firstWord line := fun hmem => by
  simpa using List.mem_takeWhile_imp hmem

/-- With a space in the path no bookmark is ever found. -/
theorem missing_eq_self_of_space (hmount : space ∈ mount) (lines : List Bytes) :
    missing (bookmarksToAdd mount) lines = bookmarksToAdd mount := by
  rw [missing, List.filter_eq_self]
  intro b hb
  rw [Bool.not_eq_true', ← Bool.not_eq_true, List.contains_iff_mem]
  intro hmem
  obtain ⟨line, -, hline⟩ := List.mem_map.mp hmem
  exact space_not_mem_firstWord (hline ▸ (mem_uri_iff (Or.inr rfl) hb).mpr hmount)

theorem nodup_uris : ((bookmarksToAdd mount).map Bookmark.uri).Nodup := by
  have hne : bytes "/@recent" ≠ bytes "/@untagged" ∧ bytes "/@recent" ≠ bytes "/work" ∧
      bytes "/@untagged" ≠ bytes "/work" := by decide
  simp [bookmarksToAdd, hne.1, hne.2.1, hne.2.2]

/-- A line whose first word is the URI has the bookmark. -/
theorem occurs_of_firstWord (h : firstWord line = b.uri) : b.Occurs line := by
  have hline : firstWord line ++ line.dropWhile (· ≠ space) = line := List.takeWhile_append_dropWhile
  cases hdrop : line.dropWhile (· ≠ space) with
  | nil =>
    rw [hdrop, List.append_nil, h] at hline
    exact Or.inl hline.symm
  | cons c rest =>
    have hc : c = space := by
      have hhead := List.head?_dropWhile_not (· ≠ space) line
      rw [hdrop] at hhead
      simpa using hhead
    rw [hdrop, h, hc] at hline
    exact Or.inr ⟨rest, by rw [← hline]; simp⟩

/-- A bookmark occurs in no line of another. -/
theorem occurs_line_iff (hb : b ∈ bookmarksToAdd mount) (hb' : b' ∈ bookmarksToAdd mount) :
    b.Occurs b'.line ↔ b' = b := by
  constructor
  · intro h
    simp only [bookmarksToAdd, List.mem_cons, List.not_mem_nil, or_false] at hb hb'
    rcases hb with rfl | rfl | rfl <;> rcases hb' with rfl | rfl | rfl
    all_goals first
      | rfl
      | exfalso
        simp only [Bookmark.Occurs, Bookmark.line, List.append_assoc, List.append_cancel_left_eq,
          List.prefix_append_right_inj] at h
        revert h
        decide
  · rintro rfl
    exact Or.inr ⟨b'.label, by simp [Bookmark.line]⟩

/-! ### One injection -/

theorem mem_toAdd (h : b ∈ missingFrom mount file) : b ∈ bookmarksToAdd mount := (List.mem_filter.mp h).1

/-- The lines behind an injection: those that were read, and the bookmarks that were missing. -/
theorem linesOf_inject (hmount : newline ∉ mount) (hne : missingFrom mount file ≠ []) :
    linesOf (inject mount file) = reached file ++ (missingFrom mount file).map Bookmark.line ++ [[]] := by
  rw [inject_eq, if_neg hne]
  refine linesOf_joinLines (fun hnil => hne ?_) fun line hline => ?_
  · exact List.map_eq_nil_iff.mp (List.append_eq_nil_iff.mp hnil).2
  · rcases List.mem_append.mp hline with hline | hline
    · exact (mem_reached hline).2.2.1
    · obtain ⟨b, hb, rfl⟩ := List.mem_map.mp hline
      exact newline_not_mem_line hmount (mem_toAdd hb)

theorem nonBlank_reached : nonBlank (reached file) = reached file :=
  nonBlank_eq_self fun _ hline => ⟨(mem_reached hline).1, (mem_reached hline).2.1⟩

/-- Lines of bookmarks are tidy. -/
theorem nonBlank_bookmarks {bs : List Bookmark} (h : ∀ b ∈ bs, b ∈ bookmarksToAdd mount) :
    nonBlank (bs.map Bookmark.line) = bs.map Bookmark.line := by
  refine nonBlank_eq_self fun line hline => ?_
  obtain ⟨b, hb, rfl⟩ := List.mem_map.mp hline
  exact tidy_line (h b hb)

theorem nonBlank_inject (hmount : newline ∉ mount) (hne : missingFrom mount file ≠ []) :
    nonBlank (linesOf (inject mount file)) = reached file ++ (missingFrom mount file).map Bookmark.line := by
  rw [linesOf_inject hmount hne, nonBlank_append, nonBlank_append, nonBlank_reached,
    nonBlank_bookmarks fun _ => mem_toAdd, nonBlank_blank, List.append_nil]

/-- Of the lines that are written, the next injection reads the bookmarks up to the first that does not fit. -/
theorem reached_inject (hmount : newline ∉ mount) (hne : missingFrom mount file ≠ []) :
    reached (inject mount file) =
      reached file ++ ((missingFrom mount file).takeWhile (Fits ·.line)).map Bookmark.line := by
  have hfits : ∀ line ∈ reached file, (Fits line : Bool) = true := fun line hline => by
    simpa using (mem_reached hline).2.2.2
  rw [reached, linesOf_inject hmount hne, takeWhile_blank, List.takeWhile_append_of_pos hfits, nonBlank_append,
    nonBlank_reached, List.takeWhile_map]
  congr 1
  exact nonBlank_bookmarks fun b hb => mem_toAdd ((List.takeWhile_prefix _).subset hb)

/-- With spaces in the path, the lines of the bookmarks are written again and again, once the first of them is read. -/
theorem again_iff_of_space (hmount : newline ∉ mount) (hspace : space ∈ mount) :
    inject mount (inject mount file) = inject mount file ↔ ∀ b ∈ (bookmarksToAdd mount).head?, ¬ Fits b.line := by
  have hmissing : ∀ file, missingFrom mount file = bookmarksToAdd mount := fun _ => missing_eq_self_of_space hspace _
  have hne : ∀ file, missingFrom mount file ≠ [] := fun file => by
    rw [hmissing]
    exact List.cons_ne_nil _ _
  have hread := reached_inject hmount (hne file)
  rw [hmissing] at hread
  constructor
  · intro h b hb hfits
    have hlines := congrArg linesOf h
    rw [linesOf_inject hmount (hne _), linesOf_inject hmount (hne _), hmissing, hmissing, hread] at hlines
    have hlen := congrArg List.length hlines
    obtain ⟨rest, hrest⟩ := List.head?_eq_some_iff.mp hb
    rw [hrest, List.takeWhile_cons_of_pos (by simpa using hfits)] at hlen
    simp only [List.length_append, List.length_map, List.length_cons] at hlen
    omega
  · intro h
    have hnone : (bookmarksToAdd mount).takeWhile (Fits ·.line) = [] := by
      cases hto : bookmarksToAdd mount with
      | nil => rfl
      | cons b rest =>
        rw [hto] at h
        exact List.takeWhile_cons_of_neg (by simpa using h b rfl)
    rw [hnone, List.map_nil, List.append_nil] at hread
    rw [inject_eq, if_neg (hne _), hread, hmissing, inject_eq, if_neg (hne _), hmissing]

/-- What is left of a list when some of its first elements have been found. -/
theorem filter_not_contains {α β : Type} [BEq β] [LawfulBEq β] {f : α → β} {p s : List α}
    (h : ((p ++ s).map f).Nodup) :
    (p ++ s).filter (fun a => !(p.map f).contains (f a)) = s := by
  rw [List.map_append, List.nodup_append'] at h
  have hp : p.filter (fun a => !(p.map f).contains (f a)) = [] :=
    List.filter_eq_nil_iff.mpr fun a ha => by simpa using ⟨a, ha, rfl⟩
  have hs : s.filter (fun a => !(p.map f).contains (f a)) = s := List.filter_eq_self.mpr fun a ha => by
    rw [Bool.not_eq_true', ← Bool.not_eq_true, List.contains_iff_mem]
    exact fun hmem => h.2.2 hmem (List.mem_map_of_mem ha)
  rw [List.filter_append, hp, hs, List.nil_append]

/-- Without spaces in the path, the second injection finds what it can read, and adds the rest again. -/
theorem again_of_no_space (hmount : newline ∉ mount) (hspace : space ∉ mount) :
    inject mount (inject mount file) = inject mount file := by
  by_cases hne : missingFrom mount file = []
  · rw [inject_eq mount file, if_pos hne, inject_eq, if_pos hne]
  have hread := reached_inject hmount hne
  generalize hp : (missingFrom mount file).takeWhile (Fits ·.line) = p at hread
  generalize hs : (missingFrom mount file).dropWhile (Fits ·.line) = s
  have hsplit : p ++ s = missingFrom mount file := by
    rw [← hp, ← hs]
    exact List.takeWhile_append_dropWhile
  have hwords : (p.map Bookmark.line).map firstWord = p.map Bookmark.uri := by
    rw [List.map_map]
    exact List.map_congr_left fun b hb =>
      firstWord_line hspace (mem_toAdd (hsplit ▸ List.mem_append_left s hb))
  have hleft : missingFrom mount (inject mount file) = s := by
    have hnodup : ((p ++ s).map Bookmark.uri).Nodup := by
      rw [hsplit]
      exact nodup_uris.sublist ((List.filter_sublist (l := bookmarksToAdd mount)).map _)
    have hfilter := filter_not_contains hnodup
    rw [hsplit] at hfilter
    rw [← hfilter, missingFrom, missing, hread, List.map_append, hwords, missingFrom, missing, List.filter_filter]
    exact List.filter_congr fun b _ => by
      rw [List.contains_append, Bool.not_or, Bool.and_comm]
  rw [inject_eq mount (inject mount file), hleft, hread]
  split_ifs with hnil
  · rfl
  · rw [inject_eq mount file, if_neg hne, List.append_assoc, ← List.map_append, hsplit]

/-! ### The condition -/

/-- A bookmark that is nowhere in the file is missing. -/
theorem mem_missingFrom (hb : b ∈ bookmarksToAdd mount) (hfree : ∀ line ∈ nonBlank (linesOf file), ¬ b.Occurs line) :
    b ∈ missingFrom mount file := by
  refine List.mem_filter.mpr ⟨hb, ?_⟩
  rw [Bool.not_eq_true', ← Bool.not_eq_true, List.contains_iff_mem]
  intro hmem
  obtain ⟨line, hline, hword⟩ := List.mem_map.mp hmem
  have hfull : line ∈ nonBlank (linesOf file) := by
    rw [← reached_append_lost]
    exact List.mem_append_left _ hline
  exact hfree line hfull (occurs_of_firstWord hword)

theorem once_of_missing (hmount : newline ∉ mount) (hb : b ∈ bookmarksToAdd mount)
    (hfree : ∀ line ∈ nonBlank (linesOf file), ¬ b.Occurs line) :
    (nonBlank (linesOf (inject mount file))).countP (b.Occurs ·) = 1 := by
  have hmem := mem_missingFrom hb hfree
  have hread : (reached file).countP (b.Occurs ·) = 0 := List.countP_eq_zero.mpr fun line hline => by
    have hfull : line ∈ nonBlank (linesOf file) := by
      rw [← reached_append_lost]
      exact List.mem_append_left _ hline
    simpa using hfree line hfull
  have hnodup : (missingFrom mount file).Nodup :=
    (List.Nodup.of_map _ nodup_uris).sublist List.filter_sublist
  rw [nonBlank_inject hmount (List.ne_nil_of_mem hmem), List.countP_append, hread, Nat.zero_add, List.countP_map]
  calc (missingFrom mount file).countP (fun b' => decide (b.Occurs b'.line))
      = (missingFrom mount file).count b := List.countP_congr fun b' hb' => by
        simp [occurs_line_iff hb (mem_toAdd hb')]
    _ = 1 := List.count_eq_one_of_mem hnodup hmem

/-- A path with a line break makes bookmarks that are never there. -/
theorem not_once_of_newline (hmount : newline ∈ mount) : ¬ Injects mount file := by
  intro h
  have hmem : (⟨bytes "file://" ++ mount ++ bytes "/@recent", bytes "Recent (tilbo)"⟩ : Bookmark) ∈
    bookmarksToAdd mount := List.mem_cons_self
  generalize (⟨bytes "file://" ++ mount ++ bytes "/@recent", bytes "Recent (tilbo)"⟩ : Bookmark) = b at hmem
  have huri : newline ∈ b.uri := (mem_uri_iff (Or.inl rfl) hmem).mpr hmount
  have hnone : ∀ file, ∀ line ∈ nonBlank (linesOf file), ¬ b.Occurs line := by
    intro file line hline hocc
    refine newline_not_mem_nonBlank newline_not_mem_linesOf line hline ?_
    rcases hocc with rfl | hpre
    · exact huri
    · exact hpre.subset (List.mem_append_left _ huri)
  have hzero : (nonBlank (linesOf (inject mount file))).countP (b.Occurs ·) = 0 :=
    List.countP_eq_zero.mpr fun line hline => by simpa using hnone _ line hline
  exact absurd (hzero.symm.trans (h.once b hmem (hnone file))) (by decide)

/-- **When the injection does no harm.** -/
theorem injects_iff (mount : Bytes) (file : Option Bytes) : Injects mount file ↔ Harmless mount file := by
  by_cases hne : missingFrom mount file = []
  · have hsame : inject mount file = file := by rw [inject_eq, if_pos hne]
    refine ⟨fun _ => Or.inl hne, fun _ => ⟨by rw [hsame, hsame], by rw [hsame], fun b hb hfree => ?_⟩⟩
    exact absurd (mem_missingFrom hb hfree) (by rw [hne]; exact List.not_mem_nil)
  by_cases hnl : newline ∈ mount
  · exact iff_of_false (not_once_of_newline hnl) fun h => h.elim hne fun h => h.1 hnl
  have hkept : (nonBlank (linesOf file)).Sublist (nonBlank (linesOf (inject mount file))) ↔
      (lost file).Sublist ((missingFrom mount file).map Bookmark.line) := by
    rw [nonBlank_inject hnl hne, ← reached_append_lost]
    exact List.append_sublist_append_left _
  have hagain : inject mount (inject mount file) = inject mount file ↔
      space ∉ mount ∨ ∀ b ∈ (missingFrom mount file).head?, ¬ Fits b.line := by
    by_cases hspace : space ∈ mount
    · rw [again_iff_of_space hnl hspace, missingFrom, missing_eq_self_of_space hspace]
      exact (or_iff_right (not_not.mpr hspace)).symm
    · exact iff_of_true (again_of_no_space hnl hspace) (Or.inl hspace)
  constructor
  · exact fun h => Or.inr ⟨hnl, hagain.mp h.again, hkept.mp h.kept⟩
  · rintro (hnil | ⟨-, hspace, hlost⟩)
    · exact absurd hnil hne
    · exact ⟨hagain.mpr hspace, hkept.mpr hlost, fun b hb hfree => once_of_missing hnl hb hfree⟩

/-- A mount below a directory with a space in its name: every start adds the bookmarks again. -/
theorem added_again : ¬ Injects (bytes "/my files") none := by
  intro h
  have hnl : newline ∉ bytes "/my files" := by decide
  have hspace : space ∈ bytes "/my files" := by decide
  exact absurd ((again_iff_of_space hnl hspace).mp h.again) (by decide)

end Tilbo.Bookmarks.Inject
