import Tilbo.Bookmarks.Inject
import Tilbo.Lib.CleanPaths
import Tilbo.Lib.Fields
import Tilbo.Trash.TrashInfo
import Mathlib.Data.List.MinMax

/-! # Mount points

The watcher looks a path up in the table of mounts to find what is to be marked. The kernel writes the table, a line for
each mount, with the white space of ASCII in a path escaped; `mountPointForPath` takes the fifth field of each line. It
adds a slash to a mount point and asks whether the path begins so, which no path does for the root. `finds_iff` says when
the longest mount point is found that covers the path. Paths and the table are bytes. -/

namespace Tilbo.Watch.Mounts

open Tilbo.Lib Tilbo.Lib.Fields
open Tilbo.Bookmarks.Inject (space spaces)
open Tilbo.Lib.Lines (Bytes bytes newline)
open Tilbo.Trash.TrashInfo (byteOf digits isDigit isDigit_byteOf)

/-! ### The table, as the kernel writes it -/

/-- `'/'`. -/
def slash : UInt8 := 0x2f

/-- `'\\'`. -/
def backslash : UInt8 := 0x5c

/-- A mount; `rest` is what comes behind the mount point. -/
structure Mount where
  id : ℕ
  parent : ℕ
  major : ℕ
  minor : ℕ
  root : Bytes
  mountPoint : Bytes
  rest : Bytes
  root_ne : root ≠ []
  absolute : mountPoint.head? = some slash
  rest_line : newline ∉ rest

/-- A blank, a tab, a line end and a backslash become three octal digits behind a backslash. -/
def mangleByte (b : UInt8) : Bytes :=
  if b ∈ [space, 0x09, newline, backslash] then [backslash, 0x30 + b / 64, 0x30 + b / 8 % 8, 0x30 + b % 8] else [b]

def mangle (path : Bytes) : Bytes := path.flatMap mangleByte

/-- The line of a mount. -/
def Mount.line (e : Mount) : Bytes :=
  digits e.id ++ space :: (digits e.parent ++ space :: (digits e.major ++ 0x3a :: digits e.minor ++ space ::
    (mangle e.root ++ space :: (mangle e.mountPoint ++ space :: e.rest))))

/-- `/proc/self/mountinfo`. -/
def mountinfo (table : List Mount) : Bytes := table.flatMap fun e => e.line ++ [newline]

/-! ### The lookup -/

/-- `filepath.Clean`, which works on bytes; each stands for the character of its number. -/
def clean (path : Bytes) : Bytes :=
  (CleanPaths.clean (String.ofList (path.map fun b => Char.ofNat b.toNat))).toList.map byteOf

/-- What is replaced, and what by. -/
def replacements : List (Bytes × UInt8) :=
  [([backslash, 0x30, 0x34, 0x30], space), ([backslash, 0x30, 0x31, 0x31], 0x09),
    ([backslash, 0x30, 0x31, 0x32], newline), ([backslash, 0x31, 0x33, 0x34], backslash)]

/-- `Replace`, when so many bytes have been replaced already. -/
def replace : ℕ → Bytes → Bytes
  | _, [] => []
  | n + 1, _ :: s => replace n s
  | 0, b :: s =>
    match replacements.find? (·.1 <+: b :: s) with
    | some (old, new) => new :: replace (old.length - 1) s
    | none => b :: replace 0 s

/-- `unescapeMountInfoPath`. -/
def unescapeMountInfoPath (s : Bytes) : Bytes := replace 0 s

/-- `mountInfoMinFields`. -/
def mountInfoMinFields : ℕ := 5

/-- The mount point of a line. -/
def readPoint (line : Bytes) : Option Bytes :=
  if line = [] then none
  else
    let fs := fields spaces line
    if fs.length < mountInfoMinFields then none else some (unescapeMountInfoPath (fs.getD 4 []))

/-- The path is the mount point, or begins with it and a slash. -/
def Matches (mp path : Bytes) : Prop := path = mp ∨ mp ++ [slash] <+: path

instance (mp path : Bytes) : Decidable (Matches mp path) := inferInstanceAs (Decidable (_ ∨ _))

/-- The body of the loop over the lines. -/
def consider (path best line : Bytes) : Bytes :=
  match readPoint line with
  | none => best
  | some mp => if Matches mp path then if best.length < mp.length then mp else best else best

/-- What `mountPointForPath` fails with. -/
inductive LookupError where
  | readFile (err : String)
  | noMountPoint (path : Bytes)
deriving DecidableEq, Repr

/-- `mountPointForPath`, of what `os.ReadFile` returns. -/
def mountPointForPath (file : Except String Bytes) (path : Bytes) : Except LookupError Bytes :=
  let path := clean path
  match file with
  | .error err => .error (.readFile err)
  | .ok data =>
    let best := (data.splitOn newline).foldl (consider path) []
    if best = [] then .error (.noMountPoint path) else .ok best

/-! ### What is to be found -/

/-- The root. -/
def root : Bytes := [slash]

/-- The path is absolute and clean. -/
def IsCleanAbs (path : Bytes) : Prop := path.head? = some slash ∧ clean path = path

instance (path : Bytes) : Decidable (IsCleanAbs path) := inferInstanceAs (Decidable (_ ∧ _))

/-- The path is the mount point or below it. -/
def Covers (mp path : Bytes) : Prop := path = mp ∨ mp ++ [slash] <+: path ∨ mp = root

/-- The longest of these mount points that cover the path. -/
structure IsLongest (points : List Bytes) (path mp : Bytes) : Prop where
  mem : mp ∈ points
  covers : Covers mp path
  le : ∀ other ∈ points, Covers other path → other.length ≤ mp.length

/-- The mount points. -/
def points (table : List Mount) : List Bytes := table.map Mount.mountPoint

/-- The mount points, as they are read from the lines. -/
def pointsRead (table : List Mount) : List Bytes := table.filterMap fun e => readPoint e.line

/-- The longest mount point that covers the path is returned, and an error only if there is none. -/
def Finds (table : List Mount) (path : Bytes) : Prop :=
  match mountPointForPath (.ok (mountinfo table)) path with
  | .ok mp => IsLongest (points table) path mp
  | .error _ => ∀ mp ∈ points table, ¬ Covers mp path

/-- The path does not belong to the root mount, unless it is the root, and the lines are read right where it matters. -/
structure Regular (table : List Mount) (path : Bytes) : Prop where
  root : path = root ∨ ¬ IsLongest (points table) path root
  read : ∀ mp, (mp = Mounts.root → path = Mounts.root) →
    (IsLongest (points table) path mp ↔ IsLongest (pointsRead table) path mp)

/-! ### Escapes -/

variable {table : List Mount} {path mp best : Bytes} {lines : List Bytes} {b : UInt8} {s code : Bytes}

/-- The bytes that are escaped. -/
theorem mangleByte_cases (b : UInt8) : (mangleByte b, b) ∈ replacements ∨
    mangleByte b = [b] ∧ b ≠ backslash ∧ b ∉ [space, 0x09, newline] := by
  unfold mangleByte
  split_ifs with h
  · refine Or.inl ?_
    simp only [List.mem_cons, List.not_mem_nil, or_false] at h
    rcases h with rfl | rfl | rfl | rfl
    all_goals decide
  · simp only [List.mem_cons, List.not_mem_nil, or_false, not_or] at h ⊢
    exact Or.inr ⟨trivial, h.2.2.2, h.1, h.2.1, h.2.2.1⟩

/-- What is to be replaced has four bytes, and is replaced. -/
theorem replace_escape (h : (code, b) ∈ replacements) (s : Bytes) : replace 0 (code ++ s) = b :: replace 0 s := by
  simp only [replacements, List.mem_cons, Prod.mk.injEq, List.not_mem_nil, or_false] at h
  rcases h with ⟨rfl, rfl⟩ | ⟨rfl, rfl⟩ | ⟨rfl, rfl⟩ | ⟨rfl, rfl⟩
  all_goals rfl

/-- Nothing else is. -/
theorem replace_cons (hb : b ≠ backslash) (s : Bytes) : replace 0 (b :: s) = b :: replace 0 s := by
  have hnone : replacements.find? (·.1 <+: b :: s) = none := List.find?_eq_none.mpr fun entry hentry => by
    have hhead : ∀ entry ∈ replacements, entry.1.head? = some backslash := by decide
    intro hpre
    obtain ⟨rest, hrest⟩ := of_decide_eq_true hpre
    have h := hhead entry hentry
    rcases hcode : entry.1 with _ | ⟨a, code⟩
    · rw [hcode] at h
      cases h
    · rw [hcode] at h hrest
      exact hb (((List.cons.inj hrest).1).symm.trans (Option.some.inj h))
  rw [replace, hnone]

/-- **An escaped path is found again.** -/
theorem unescape_mangle (path : Bytes) : unescapeMountInfoPath (mangle path) = path := by
  unfold unescapeMountInfoPath mangle
  induction path with
  | nil => rfl
  | cons b path ih =>
    rw [List.flatMap_cons]
    rcases mangleByte_cases b with h | ⟨h, hb, -⟩
    · rw [replace_escape h, ih]
    · rw [h, List.singleton_append, replace_cons hb, ih]

/-! ### The fields of a line -/

/-- There is no white space in the path but for blanks, tabs and line ends. -/
def Plain (path : Bytes) : Prop := ∀ code ∈ spaces, code <:+: path → code ∈ [[space], [0x09], [newline]]

/-- No byte of a space is in what is replaced. -/
theorem not_mem_escape : ∀ code ∈ spaces, code ≠ [] ∧ ∀ b ∈ code, ∀ entry ∈ replacements, b ∉ entry.1 := by
  have hall : ∀ code ∈ spaces, code ≠ [] ∧ code.all fun b => ∀ entry ∈ replacements, b ∉ entry.1 := by decide
  intro code hcode
  obtain ⟨hne, hfree⟩ := hall code hcode
  exact ⟨hne, fun b hb => of_decide_eq_true (List.all_eq_true.mp hfree b hb)⟩

theorem mem_mangle (hb : b ∈ mangle path) : b ∉ [space, 0x09, newline] := by
  obtain ⟨a, -, ha⟩ := List.mem_flatMap.mp hb
  rcases mangleByte_cases a with h | ⟨h, -, ha'⟩
  · have hall : ∀ entry ∈ replacements, entry.1.all (· ∉ [space, 0x09, newline]) := by decide
    exact of_decide_eq_true (List.all_eq_true.mp (hall _ h) b ha)
  · rw [h, List.mem_singleton] at ha
    exact ha ▸ ha'

theorem prefix_of_mangle (hcode : ∀ b ∈ code, ∀ entry ∈ replacements, b ∉ entry.1) (h : code <+: mangle path) :
    code <+: path := by
  induction path generalizing code with
  | nil => exact h
  | cons a path ih =>
    rcases code with _ | ⟨b, code⟩
    · exact List.nil_prefix
    · obtain ⟨hb, hrest⟩ := List.forall_mem_cons.mp hcode
      rw [mangle, List.flatMap_cons] at h
      rcases mangleByte_cases a with hescape | ⟨hplain, -⟩
      · obtain ⟨c, tail, htail⟩ : ∃ c tail, mangleByte a = c :: tail :=
          List.exists_cons_of_ne_nil fun hnil => by
            rw [hnil] at hescape
            exact absurd hescape (by simp [replacements])
        rw [htail, List.cons_append] at h
        obtain rfl := (List.cons_prefix_cons.mp h).1
        exact absurd (htail ▸ List.mem_cons_self) (hb _ hescape)
      · rw [hplain, List.singleton_append] at h
        obtain ⟨heq, htail⟩ := List.cons_prefix_cons.mp h
        exact List.cons_prefix_cons.mpr ⟨heq, ih hrest htail⟩

/-- What has none of the letters that stand in front is in the rest. -/
theorem infix_of_append {front rest : Bytes} (hne : code ≠ []) (hfront : ∀ b ∈ code, b ∉ front)
    (h : code <:+: front ++ rest) : code <:+: rest := by
  induction front with
  | nil => exact h
  | cons a front ih =>
    rcases List.infix_cons_iff.mp h with hpre | hin
    · obtain ⟨b, code, rfl⟩ := List.exists_cons_of_ne_nil hne
      obtain rfl := (List.cons_prefix_cons.mp hpre).1
      exact absurd List.mem_cons_self (hfront b List.mem_cons_self)
    · exact ih (fun b hb hmem => hfront b hb (List.mem_cons_of_mem _ hmem)) hin

theorem infix_of_mangle (hne : code ≠ []) (hcode : ∀ b ∈ code, ∀ entry ∈ replacements, b ∉ entry.1)
    (h : code <:+: mangle path) : code <:+: path := by
  induction path with
  | nil => exact h
  | cons a path ih =>
    rcases mangleByte_cases a with hescape | ⟨hplain, -⟩
    · exact List.infix_cons (ih (infix_of_append hne (fun b hb => hcode b hb _ hescape) h))
    · rw [mangle, List.flatMap_cons, hplain, List.singleton_append] at h
      rcases List.infix_cons_iff.mp h with hpre | hin
      · have hwhole : code <+: mangle (a :: path) := by
          rw [mangle, List.flatMap_cons, hplain]
          exact hpre
        exact (prefix_of_mangle hcode hwhole).isInfix
      · exact List.infix_cons (ih hin)

/-- There is no white space in an escaped path. -/
theorem free_mangle (h : Plain path) : Free spaces (mangle path) := by
  intro code hcode hin
  obtain ⟨hne, hescape⟩ := not_mem_escape code hcode
  have hmem := h code hcode (infix_of_mangle hne hescape hin)
  simp only [List.mem_cons, List.not_mem_nil, or_false] at hmem
  rcases hmem with rfl | rfl | rfl
  all_goals exact mem_mangle (hin.subset List.mem_cons_self) (by decide)

theorem separates_space : Separates spaces space := ⟨by decide, by decide⟩

/-- There is none in numbers. -/
theorem free_digits (h : ∀ b ∈ s, isDigit b = true ∨ b = 0x3a) : Free spaces s := by
  have hall : ∀ code ∈ spaces, code ≠ [] ∧ code.all fun b => ¬ (isDigit b = true ∨ b = 0x3a) := by decide
  intro code hcode hin
  obtain ⟨hne, hnot⟩ := hall code hcode
  obtain ⟨b, code, rfl⟩ := List.exists_cons_of_ne_nil hne
  have hb := of_decide_eq_true (List.all_eq_true.mp hnot b List.mem_cons_self)
  exact hb (h b (hin.subset List.mem_cons_self))

theorem mem_digits {n : ℕ} (hb : b ∈ digits n) : isDigit b = true := by
  obtain ⟨c, hc, rfl⟩ := List.mem_map.mp hb
  exact isDigit_byteOf (Nat.isDigit_of_mem_toDigits (by decide) (by decide) hc)

theorem digits_ne (n : ℕ) : digits n ≠ [] := by simp [digits]

theorem free_number (n : ℕ) : Free spaces (digits n) := free_digits fun _ hb => Or.inl (mem_digits hb)

/-- **The mount point is read from the line.** -/
theorem readPoint_line {e : Mount} (hroot : Plain e.root) (hpoint : Plain e.mountPoint) :
    readPoint e.line = some e.mountPoint := by
  have hdev : Free spaces (digits e.major ++ 0x3a :: digits e.minor) := free_digits fun b hb => by
    rcases List.mem_append.mp hb with hb | hb
    · exact Or.inl (mem_digits hb)
    · exact (List.mem_cons.mp hb).elim Or.inr fun hb => Or.inl (mem_digits hb)
  have hmangle : ∀ {path}, path ≠ [] → mangle path ≠ [] := fun {path} hne hnil => by
    have hback := unescape_mangle path
    rw [hnil] at hback
    exact hne hback.symm
  have hpoint_ne : e.mountPoint ≠ [] := by
    have h := e.absolute
    rintro hnil
    rw [hnil] at h
    cases h
  have hfields : fields spaces e.line = digits e.id :: digits e.parent :: (digits e.major ++ 0x3a :: digits e.minor) ::
      mangle e.root :: mangle e.mountPoint :: fields spaces e.rest := by
    rw [Mount.line, fields_append separates_space (digits_ne _) (free_number _),
      fields_append separates_space (digits_ne _) (free_number _),
      fields_append separates_space (by simp) hdev,
      fields_append separates_space (hmangle e.root_ne) (free_mangle hroot),
      fields_append separates_space (hmangle hpoint_ne) (free_mangle hpoint)]
  have hline : e.line ≠ [] := by simp [Mount.line]
  have hlength : ¬ (fields spaces e.line).length < mountInfoMinFields := by
    rw [hfields, mountInfoMinFields]
    simp
  rw [readPoint, if_neg hline]
  dsimp only
  rw [if_neg hlength, hfields]
  exact congrArg some (unescape_mangle e.mountPoint)

/-- Where no path has other white space, all of the mount points are read. -/
theorem pointsRead_of_plain (h : ∀ e ∈ table, Plain e.root ∧ Plain e.mountPoint) : pointsRead table = points table := by
  induction table with
  | nil => rfl
  | cons e table ih =>
    obtain ⟨he, htable⟩ := List.forall_mem_cons.mp h
    have hread := readPoint_line he.1 he.2
    rw [pointsRead, List.filterMap_cons, hread, points, List.map_cons]
    exact congrArg _ (ih htable)

/-! ### The lines of the table -/

theorem newline_not_mem_line (e : Mount) : newline ∉ e.line := by
  have hdigits : ∀ n, newline ∉ digits n := fun n hmem => absurd (mem_digits hmem) (by decide)
  have hmangle : ∀ path, newline ∉ mangle path := fun path hmem => mem_mangle hmem (by decide)
  have hspace : newline ≠ space := by decide
  have hcolon : newline ≠ 0x3a := by decide
  simp only [Mount.line, List.mem_append, List.mem_cons, hdigits, hmangle, hspace, hcolon, e.rest_line, or_self,
    not_false_eq_true]

theorem splitOn_mountinfo (table : List Mount) : (mountinfo table).splitOn newline = table.map Mount.line ++ [[]] := by
  unfold mountinfo
  induction table with
  | nil => rfl
  | cons e table ih =>
    rw [List.flatMap_cons, List.append_assoc, List.singleton_append,
      List.splitOn_append_cons_self_of_not_mem (newline_not_mem_line e), ih]
    rfl

/-- What one line changes. -/
theorem consider_spec (path best : Bytes) {line : Bytes} (h : readPoint line = some mp) :
    (consider path best line = best ∨ consider path best line = mp ∧ Matches mp path) ∧
    best.length ≤ (consider path best line).length ∧
    (Matches mp path → mp.length ≤ (consider path best line).length) := by
  simp only [consider, h]
  split_ifs with hmatch hlt
  · exact ⟨Or.inr ⟨rfl, hmatch⟩, by omega, fun _ => le_rfl⟩
  · exact ⟨Or.inl rfl, le_rfl, fun _ => by omega⟩
  · exact ⟨Or.inl rfl, le_rfl, fun h => absurd h hmatch⟩

/-- **What the loop finds.** -/
theorem foldl_consider (path best : Bytes) (lines : List Bytes) :
    (lines.foldl (consider path) best = best ∨ lines.foldl (consider path) best ∈ lines.filterMap readPoint ∧
      Matches (lines.foldl (consider path) best) path) ∧
    best.length ≤ (lines.foldl (consider path) best).length ∧
    ∀ mp ∈ lines.filterMap readPoint, Matches mp path → mp.length ≤ (lines.foldl (consider path) best).length := by
  induction lines generalizing best with
  | nil => exact ⟨Or.inl rfl, le_rfl, by simp⟩
  | cons line lines ih =>
    rw [List.foldl_cons]
    obtain ⟨hfrom, hgrows, hall⟩ := ih (consider path best line)
    generalize lines.foldl (consider path) (consider path best line) = result at hfrom hgrows hall ⊢
    rcases hread : readPoint line with _ | mp
    · have hsame : consider path best line = best := by simp only [consider, hread]
      rw [List.filterMap_cons_none hread]
      rw [hsame] at hfrom hgrows
      exact ⟨hfrom, hgrows, hall⟩
    · obtain ⟨hstep, hlonger, hcovered⟩ := consider_spec path best hread
      rw [List.filterMap_cons_some hread]
      refine ⟨?_, hlonger.trans hgrows, List.forall_mem_cons.mpr ⟨fun h => (hcovered h).trans hgrows, hall⟩⟩
      rcases hfrom with heq | ⟨hmem, hmatch⟩
      · rw [heq]
        rcases hstep with hbest | ⟨hmp, hmatch⟩
        · exact Or.inl hbest
        · exact Or.inr ⟨hmp ▸ List.mem_cons_self, hmp.symm ▸ hmatch⟩
      · exact Or.inr ⟨List.mem_cons_of_mem _ hmem, hmatch⟩

/-! ### Clean paths -/

theorem byteOf_ofNat (b : UInt8) : byteOf (Char.ofNat b.toNat) = b := by
  have hvalid : b.toNat.isValidChar := Or.inl (by have := b.toNat_lt; omega)
  have hnat : (Char.ofNat b.toNat).toNat = b.toNat := by
    rw [Char.ofNat, dif_pos hvalid]
    rfl
  rw [byteOf, hnat, Nat.toUInt8_eq, UInt8.ofNat_toNat]

/-- A clean path does not begin with two slashes. -/
theorem not_two_slashes (h : IsCleanAbs path) : ¬ root ++ [slash] <+: path := by
  obtain ⟨hhead, hclean⟩ := h
  rintro ⟨rest, hpath⟩
  generalize htext : String.ofList (path.map fun b => Char.ofNat b.toNat) = text at *
  have hchars : text.toList = path.map fun b => Char.ofNat b.toNat := by rw [← htext, String.toList_ofList]
  have habs : CleanPaths.isAbs text = true := by
    rw [CleanPaths.isAbs, hchars, List.head?_map, hhead]
    rfl
  have helements := CleanPaths.isElement_elements habs
  rw [clean, htext, CleanPaths.clean, habs] at hclean
  rcases hes : CleanPaths.elements text with _ | ⟨e, es⟩
  · rw [hes, ← hpath] at hclean
    simp [CleanPaths.ofElements, root] at hclean
  · obtain ⟨hne, -, -, hslash⟩ := helements e (hes ▸ List.mem_cons_self)
    obtain ⟨c, e', rfl⟩ := List.exists_cons_of_ne_nil hne
    have hmem : c ∈ text.toList := by
      by_contra hc
      exact CleanPaths.not_mem_elements hc _ (hes ▸ List.mem_cons_self) List.mem_cons_self
    obtain ⟨tail, htail⟩ : ∃ tail, ['/'].intercalate ((c :: e') :: es) = c :: tail := by
      rcases es with _ | ⟨e₂, es⟩
      · exact ⟨e', by simp [List.intercalate]⟩
      · exact ⟨e' ++ '/' :: ['/'].intercalate (e₂ :: es), by simp [List.intercalate, List.intersperse]⟩
    rw [hes, ← hpath, CleanPaths.ofElements, if_pos rfl, String.toList_ofList, htail] at hclean
    simp only [List.map_cons, root, List.cons_append, List.nil_append, List.cons.injEq] at hclean
    rw [hchars] at hmem
    obtain ⟨b, -, rfl⟩ := List.mem_map.mp hmem
    rw [byteOf_ofNat] at hclean
    rw [hclean.2.1] at hslash
    have hchar : Char.ofNat slash.toNat = '/' := by decide
    exact hslash (hchar ▸ List.mem_cons_self)

/-- Only the root is looked for in another way. -/
theorem matches_iff (h : IsCleanAbs path) : Matches mp path ↔ Covers mp path ∧ (mp = root → path = root) := by
  constructor
  · intro hmatch
    refine ⟨hmatch.imp_right Or.inl, fun hroot => ?_⟩
    subst hroot
    exact hmatch.resolve_right (not_two_slashes h)
  · rintro ⟨heq | hpre | hroot, himp⟩
    · exact Or.inl heq
    · exact Or.inr hpre
    · exact Or.inl ((himp hroot).trans hroot.symm)

/-! ### The longest mount point -/

/-- The mount point that the loop finds, empty if there is none. -/
def found (table : List Mount) (path : Bytes) : Bytes := ((mountinfo table).splitOn newline).foldl (consider path) []

theorem mountPointForPath_eq (h : IsCleanAbs path) : mountPointForPath (.ok (mountinfo table)) path =
    if found table path = [] then .error (.noMountPoint path) else .ok (found table path) := by
  rw [mountPointForPath, h.2]
  rfl

theorem found_spec (table : List Mount) (path : Bytes) :
    (found table path = [] ∨ found table path ∈ pointsRead table ∧ Matches (found table path) path) ∧
    ∀ mp ∈ pointsRead table, Matches mp path → mp.length ≤ (found table path).length := by
  have hread : ((mountinfo table).splitOn newline).filterMap readPoint = pointsRead table := by
    rw [splitOn_mountinfo, List.filterMap_append, List.filterMap_map]
    exact List.append_nil _
  obtain ⟨hfrom, -, hall⟩ := foldl_consider path [] ((mountinfo table).splitOn newline)
  rw [hread] at hfrom hall
  exact ⟨hfrom, hall⟩

/-- What is found is the longest of the mount points that are read, but for the root. -/
theorem isLongest_found (h : IsCleanAbs path) (hne : found table path ≠ []) :
    IsLongest (pointsRead table) path (found table path) ∧ (found table path = root → path = root) := by
  obtain ⟨hfrom, hall⟩ := found_spec table path
  obtain ⟨hmem, hmatch⟩ := hfrom.resolve_left hne
  obtain ⟨hcovers, hroot⟩ := (matches_iff h).mp hmatch
  refine ⟨⟨hmem, hcovers, fun other hother hcover => ?_⟩, hroot⟩
  by_cases himp : other = root → path = root
  · exact hall other hother ((matches_iff h).mpr ⟨hcover, himp⟩)
  · rw [(Classical.not_imp.mp himp).1]
    exact List.length_pos_iff.mpr hne

theorem ne_nil_of_mem_pointsRead (h : mp ∈ pointsRead table) : mp ≠ [] := by
  obtain ⟨e, -, hread⟩ := List.mem_filterMap.mp h
  unfold readPoint at hread
  dsimp only at hread
  split_ifs at hread with hline hlength
  obtain rfl := Option.some.inj hread
  have hlt : 4 < (fields spaces e.line).length := by
    unfold mountInfoMinFields at hlength
    omega
  have hfield : (fields spaces e.line).getD 4 [] ∈ fields spaces e.line := by
    rw [List.getD_eq_getElem?_getD, List.getElem?_eq_getElem hlt]
    exact List.getElem_mem hlt
  obtain ⟨b, s, hs⟩ := List.exists_cons_of_ne_nil (ne_nil_of_mem_fields hfield)
  rw [hs, unescapeMountInfoPath, replace]
  split
  · exact List.cons_ne_nil _ _
  · exact List.cons_ne_nil _ _

/-- If nothing is found, then nothing covers the path but the root. -/
theorem root_of_not_found (h : IsCleanAbs path) (hnil : found table path = []) (hmem : mp ∈ pointsRead table)
    (hcovers : Covers mp path) : mp = root ∧ path ≠ root := by
  by_contra hnot
  have himp : mp = root → path = root := fun hroot => by_contra fun hpath => hnot ⟨hroot, hpath⟩
  have hle := (found_spec table path).2 mp hmem ((matches_iff h).mpr ⟨hcovers, himp⟩)
  rw [hnil] at hle
  exact ne_nil_of_mem_pointsRead hmem (List.length_eq_zero_iff.mp (Nat.le_zero.mp hle))

/-- Mount points that cover a path and are of the same length are the same. -/
theorem IsLongest.eq {names : List Bytes} {other : Bytes} (hpath : path.head? = some slash)
    (h : IsLongest names path mp) (h' : IsLongest names path other) : mp = other := by
  have hpre : ∀ {mp}, Covers mp path → mp <+: path := by
    rintro mp (rfl | hpre | rfl)
    · exact List.prefix_rfl
    · exact (List.prefix_append mp [slash]).trans hpre
    · rcases path with _ | ⟨b, path⟩
      · cases hpath
      · rw [Option.some.inj hpath]
        exact ⟨path, rfl⟩
  have hlength : mp.length = other.length := le_antisymm (h'.le mp h.mem h.covers) (h.le other h'.mem h'.covers)
  exact (List.prefix_of_prefix_length_le (hpre h.covers) (hpre h'.covers) hlength.le).eq_of_length hlength

/-- Where there is a mount point that covers the path, there is a longest one. -/
theorem exists_isLongest {names : List Bytes} (hmem : mp ∈ names) (hcovers : Covers mp path) :
    ∃ long, IsLongest names path long := by
  classical
  have hin : mp ∈ names.filter (Covers · path) := List.mem_filter.mpr ⟨hmem, decide_eq_true hcovers⟩
  rcases hmax : (names.filter (Covers · path)).argmax List.length with _ | long
  · exact absurd (List.argmax_eq_none.mp hmax) (List.ne_nil_of_mem hin)
  · obtain ⟨hlong, hcover⟩ := List.mem_filter.mp (List.argmax_mem hmax)
    exact ⟨long, hlong, of_decide_eq_true hcover, fun other hother h =>
      List.le_of_mem_argmax (List.mem_filter.mpr ⟨hother, decide_eq_true h⟩) hmax⟩

/-- Where no path has other white space, it is only the root that matters. -/
theorem regular_of_plain_iff (hplain : ∀ e ∈ table, Plain e.root ∧ Plain e.mountPoint) :
    Regular table path ↔ path = root ∨ ¬ IsLongest (points table) path root :=
  ⟨Regular.root, fun hroot => ⟨hroot, fun mp _ => by rw [pointsRead_of_plain hplain]⟩⟩

/-- **The longest mount point that covers a path is found** if and only if it is not only the root, and is read from its
line, and no longer one is. -/
theorem finds_iff (h : IsCleanAbs path) : Finds table path ↔ Regular table path := by
  rw [Finds, mountPointForPath_eq h]
  by_cases hnil : found table path = []
  · rw [if_pos hnil]
    dsimp only
    have hread : ∀ mp, (mp = root → path = root) → ¬ IsLongest (pointsRead table) path mp := fun mp himp hlong => by
      obtain ⟨hroot, hpath⟩ := root_of_not_found h hnil hlong.mem hlong.covers
      exact hpath (himp hroot)
    constructor
    · intro hnone
      have hno : ∀ mp, ¬ IsLongest (points table) path mp := fun mp hlong => hnone mp hlong.mem hlong.covers
      exact ⟨Or.inr (hno root), fun mp himp => iff_of_false (hno mp) (hread mp himp)⟩
    · intro hregular mp hmem hcovers
      obtain ⟨long, hlong⟩ := exists_isLongest hmem hcovers
      by_cases himp : long = root → path = root
      · exact hread long himp ((hregular.read long himp).mp hlong)
      · obtain ⟨hroot, hpath⟩ := Classical.not_imp.mp himp
        exact hregular.root.resolve_left hpath (hroot ▸ hlong)
  · rw [if_neg hnil]
    dsimp only
    obtain ⟨hlong, hroot⟩ := isLongest_found h hnil
    constructor
    · intro hmeant
      refine ⟨?_, fun mp himp => ⟨fun hmp => ?_, fun hmp => ?_⟩⟩
      · by_contra hnot
        obtain ⟨hpath, hrootLong⟩ := not_or.mp hnot
        exact hpath (hroot (hmeant.eq h.1 (not_not.mp hrootLong)))
      · rw [hmp.eq h.1 hmeant]
        exact hlong
      · rw [hmp.eq h.1 hlong]
        exact hmeant
    · exact fun hregular => (hregular.read _ hroot).mpr hlong

/-! ### A table with a root -/

/-- A partition that is mounted at the root. -/
def rootMount : Mount where
  id := 28
  parent := 1
  major := 259
  minor := 2
  root := bytes "/"
  mountPoint := bytes "/"
  rest := bytes "rw,relatime shared:1 - ext4 /dev/nvme0n1p2 rw"
  root_ne := by decide
  absolute := by decide
  rest_line := by decide

/-- One at a path with a blank. -/
def diskMount : Mount := { rootMount with
  id := 41, parent := 28, minor := 5, mountPoint := bytes "/mnt/my disk", absolute := by decide }

theorem finds_photos : IsCleanAbs (bytes "/mnt/my disk/photos") ∧
    (Finds [rootMount, diskMount] (bytes "/mnt/my disk/photos") ↔
      Regular [rootMount, diskMount] (bytes "/mnt/my disk/photos")) :=
  ⟨by decide, finds_iff (by decide)⟩

/-- The mount point of a home directory that is on the root partition is not found. -/
theorem home_not_found : IsCleanAbs (bytes "/home") ∧
    mountPointForPath (.ok (mountinfo [rootMount, diskMount])) (bytes "/home") = .error (.noMountPoint (bytes "/home")) ∧
    ¬ Finds [rootMount, diskMount] (bytes "/home") := by
  have hlookup : mountPointForPath (.ok (mountinfo [rootMount, diskMount])) (bytes "/home") =
      .error (.noMountPoint (bytes "/home")) := by decide
  refine ⟨by decide, hlookup, fun h => ?_⟩
  rw [Finds, hlookup] at h
  exact h root (by decide) (Or.inr (Or.inr rfl))

end Tilbo.Watch.Mounts
