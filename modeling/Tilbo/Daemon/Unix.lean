import Tilbo.Daemon.Drops
import Tilbo.Lib.Files

/-! # The file calls on a file system with links

The functions of the package `os` that the daemon calls, on the file system of the library. The kernel may refuse any
call but `lstat` for a reason of its own: permissions, a full disk, a path that is too long. Permissions are no part of
the file system otherwise. A `World` keeps a record of the renames. -/

namespace Tilbo.Daemon.Unix

open Tilbo.Lib.CleanPaths Tilbo.Lib.Paths Tilbo.Lib.Files Tilbo.Lib.Files.FileSystem Tilbo.Daemon.Drops

/-! ### Paths -/

/-- The elements of a path, for the kernel; a slash at the end asks for a directory. -/
def parse (path : String) : Path :=
  let es := ((path.toList.splitOn '/').filter (· ≠ [])).map String.ofList
  ⟨isAbs path, if es ≠ [] ∧ path.toList.getLast? = some '/' then es ++ ["."] else es⟩

/-- `filepath.Dir`. -/
def dir (path : String) : String := clean (String.ofList (path.toList.rdropWhile (· ≠ '/')))

section Clean

variable {es a : List String} {name path cleaned : String}

/-- The absolute path with these names. -/
def pathOf (es : List String) : String := ofElements true (es.map String.toList)

theorem isElement_of_isName (h : IsName name) : IsElement name.toList := by
  obtain ⟨hempty, hdot, hdots, hslash, -⟩ := h
  refine ⟨fun heq => hempty ?_, fun heq => hdot ?_, fun heq => hdots ?_, hslash⟩
  all_goals exact String.toList_injective heq

theorem isElement_map (h : ∀ e ∈ es, IsName e) : ∀ e ∈ es.map String.toList, IsElement e := by
  intro e he
  obtain ⟨name, hname, rfl⟩ := List.mem_map.mp he
  exact isElement_of_isName (h name hname)

/-- The kernel finds in a clean path the names that it is made of. -/
theorem parse_pathOf (h : ∀ e ∈ es, IsName e) : parse (pathOf es) = ⟨true, es⟩ := by
  rcases List.eq_nil_or_concat' es with rfl | ⟨front, last, rfl⟩
  · decide
  · have hne : (front ++ [last]).map String.toList ≠ [] := by simp
    have hparts : (((pathOf (front ++ [last])).toList.splitOn '/').filter (· ≠ [])).map String.ofList =
        front ++ [last] := by
      rw [pathOf, splitOn_ofElements (isElement_map h) hne, List.filter_cons_of_neg (by simp),
        List.filter_eq_self.mpr fun e he => by simpa using (isElement_map h e he).1, List.map_map]
      simp [Function.comp_def, String.ofList_toList]
    have hlast : IsElement last.toList := isElement_of_isName (h last (by simp))
    have hslash : (pathOf (front ++ [last])).toList.getLast? ≠ some '/' := by
      rw [pathOf, List.map_append]
      obtain ⟨text, htext⟩ := toList_ofElements_concat (front.map String.toList) last.toList
      rw [List.map_singleton, htext, List.getLast?_append_of_ne_nil _ (by simp), List.getLast?_cons_of_ne_nil hlast.1]
      exact fun hmem => hlast.2.2.2 (List.mem_of_getLast? hmem)
    unfold parse
    dsimp only
    rw [hparts, if_neg fun hc => hslash hc.2, pathOf, isAbs_ofElements]

theorem join_pathOf (h : ∀ e ∈ es, IsName e) (hname : IsName name) :
    join [pathOf es, name] = pathOf (es ++ [name]) := by
  have hjoin := join_name (isElement_map h) (isElement_of_isName hname)
  rw [String.ofList_toList] at hjoin
  rw [pathOf, hjoin, pathOf, List.map_append]
  rfl

theorem base_pathOf (h : IsName name) : base (pathOf (es ++ [name])) = name := by
  obtain ⟨text, htext⟩ := toList_ofElements_concat (es.map String.toList) name.toList
  obtain ⟨hne, -, -, hslash⟩ := isElement_of_isName h
  have hlist : (pathOf (es ++ [name])).toList = text ++ '/' :: name.toList := by
    rw [pathOf, List.map_append, List.map_singleton, htext]
  have hdrop : (text ++ '/' :: name.toList).rdropWhile (· = '/') = text ++ '/' :: name.toList := by
    rw [List.rdropWhile_eq_self_iff]
    intro hl
    rw [List.getLast_append_of_ne_nil _ (List.cons_ne_nil _ _), List.getLast_cons hne]
    simpa using fun heq : name.toList.getLast hne = '/' => hslash (heq ▸ List.getLast_mem hne)
  have htake : (text ++ '/' :: name.toList).rtakeWhile (· ≠ '/') = name.toList :=
    Tilbo.Lib.Words.rtakeWhile_append (by simp) fun c hc => by simpa using fun heq : c = '/' => hslash (heq ▸ hc)
  unfold base
  rw [hlist, if_neg (by simp)]
  dsimp only
  rw [hdrop, htake, if_neg hne, String.ofList_toList]

/-- A path that is accepted has names. -/
theorem validatePath_eq_ok (h : validatePath path = .ok cleaned) :
    ∃ es, (∀ e ∈ es, IsName e) ∧ cleaned = pathOf es := by
  unfold validatePath at h
  split_ifs at h with hempty hnull habs
  cases h
  have habs' : isAbs path = true := isAbs_of_clean habs
  refine ⟨(elements path).map String.ofList, fun name hname => ?_, ?_⟩
  · obtain ⟨e, he, rfl⟩ := List.mem_map.mp hname
    obtain ⟨hne, hdot, hdots, hslash⟩ := isElement_elements habs' e he
    refine ⟨fun heq => hne ?_, fun heq => hdot ?_, fun heq => hdots ?_, ?_, ?_⟩
    all_goals first
      | exact String.ofList_injective heq
      | rw [String.toList_ofList]
    · exact hslash
    · exact not_mem_elements hnull e he
  · rw [clean, pathOf, habs', List.map_map]
    simp [Function.comp_def, String.toList_ofList]

theorem mapM_validatePath {paths cleaned : List String} (h : paths.mapM validatePath = .ok cleaned) :
    ∀ src ∈ cleaned, ∃ es, (∀ e ∈ es, IsName e) ∧ src = pathOf es := by
  induction paths generalizing cleaned with
  | nil =>
    cases h
    simp
  | cons path rest ih =>
    rw [List.mapM_cons] at h
    cases hpath : validatePath path with
    | error err =>
      rw [hpath] at h
      cases h
    | ok src =>
      cases hrest : rest.mapM validatePath with
      | error err =>
        rw [hpath, hrest] at h
        cases h
      | ok srcs =>
        rw [hpath, hrest] at h
        cases h
        exact List.forall_mem_cons.mpr ⟨validatePath_eq_ok hpath, ih hrest⟩

/-- The clipboard of a `Copy` has clean paths. -/
theorem clipboard_eq_ok {paths : List String} {isMove : Bool} {clipboard : Clipboard}
    (h : copy paths isMove = .ok clipboard) :
    clipboard.isMove = isMove ∧ ∀ src ∈ clipboard.paths, ∃ es, (∀ e ∈ es, IsName e) ∧ src = pathOf es := by
  unfold copy at h
  cases hpaths : paths.mapM validatePath with
  | error err =>
    rw [hpaths] at h
    cases h
  | ok cleaned =>
    rw [hpaths] at h
    cases h
    exact ⟨rfl, mapM_validatePath hpaths⟩

end Clean

/-! ### The kernel -/

/-- A call that the kernel can refuse. -/
inductive Call where
  | stat (p : Path)
  | mkdir (p : Path)
  | readDir (p : Path)
  | openFile (p : Path)
  | create (p : Path)
  | copy (dst src : Path)
  | rename (old new : Path)
  | remove (p : Path)

/-- What the kernel refuses. -/
structure Kernel where
  refuses : FileSystem → Call → Option Fault

/-- A kernel that refuses nothing. -/
def Kernel.willing : Kernel := ⟨fun _ _ => none⟩

namespace Kernel

variable (k : Kernel) (fs : FileSystem)

/-- A call is made if it is not refused. -/
def ask {α : Type} (call : Call) (answer : Except Fault α) : Except Fault α :=
  match k.refuses fs call with
  | some err => .error err
  | none => answer

def stat (p : Path) : Except Fault Node := k.ask fs (.stat p) (fs.stat p)

def mkdir (p : Path) : Except Fault FileSystem := k.ask fs (.mkdir p) (fs.mkdir p)

def readDir (p : Path) : Except Fault (List String) := k.ask fs (.readDir p) (fs.readDir p)

def rename (old new : Path) : Except Fault FileSystem := k.ask fs (.rename old new) (fs.rename old new)

def remove (p : Path) : Except Fault FileSystem := k.ask fs (.remove p) (fs.remove p)

def create (p : Path) : Except Fault FileSystem := k.ask fs (.create p) (fs.create p)

/-- A file, opened and read to its end. -/
def read (p : Path) : Except Fault (List UInt8) :=
  k.ask fs (.openFile p) <|
    match fs.stat p with
    | .ok (.file content _) => .ok content
    | .ok _ => .error .isDirectory
    | .error err => .error err

/-- What is read from one file is written to the other, from its start. -/
def copy (dst src : Path) : Except Fault FileSystem :=
  k.ask fs (.copy dst src) <|
    match fs.resolve true dst, fs.stat src with
    | .ok i, .ok (.file content _) =>
      match fs.node i with
      | some (.file _ version) => .ok (fs.setFile i content version)
      | _ => .error .invalid
    | _, _ => .error .invalid

/-- `os.MkdirAll`, on the elements of the path from the last to the first. -/
def mkdirAll (absolute : Bool) : List String → FileSystem → Except Fault Unit × FileSystem
  | [], fs => (.ok (), fs)
  | e :: front, fs =>
    let p : Path := ⟨absolute, (e :: front).reverse⟩
    match k.stat fs p with
    | .ok node => (if node.isDir then .ok () else .error .notDirectory, fs)
    | .error _ =>
      match mkdirAll absolute front fs with
      | (.error err, fs) => (.error err, fs)
      | (.ok _, fs) =>
        match k.mkdir fs p with
        | .ok fs => (.ok (), fs)
        | .error err =>
          match fs.resolve false p with
          | .ok i => (if fs.isDir i then .ok () else .error err, fs)
          | .error _ => (.error err, fs)

/-- `os.Rename`; a directory is never replaced. -/
def osRename (old new : String) : Except Fault FileSystem :=
  match fs.resolve false (parse new) with
  | .error _ => k.rename fs (parse old) (parse new)
  | .ok j =>
    if fs.isDir j then
      match fs.resolve false (parse old) with
      | .error err => .error err
      | .ok i => if new = old ∨ i ≠ j then .error .exists else k.rename fs (parse old) (parse new)
    else k.rename fs (parse old) (parse new)

end Kernel

/-! ### The world -/

/-- A rename that was made. -/
structure Renamed where
  before : FileSystem
  old : String
  new : String
  error : Option Fault
  after : FileSystem

/-- The files, and the renames so far. -/
structure World where
  files : FileSystem
  renames : List Renamed := []

/-- A call that leaves the files alone if it fails. -/
def World.update (w : World) (result : Except Fault FileSystem) : Except Fault Unit × World :=
  match result with
  | .ok fs => (.ok (), { w with files := fs })
  | .error err => (.error err, w)

/-- `os.Rename`, with a record of it. -/
def World.rename (k : Kernel) (w : World) (old new : String) : Except Fault Unit × World :=
  match k.osRename w.files old new with
  | .ok fs => (.ok (), ⟨fs, w.renames ++ [⟨w.files, old, new, none, fs⟩]⟩)
  | .error err => (.error err, ⟨w.files, w.renames ++ [⟨w.files, old, new, some err, w.files⟩]⟩)

/-- The functions of `os`, by which the daemon moves and copies. -/
def unix (k : Kernel) : Os World Fault where
  rename old new w := w.rename k old new
  stat name w := ((k.stat w.files (parse name)).map fun node => ⟨node.isDir, 0⟩, w)
  mkdirAll path _ w :=
    let made := k.mkdirAll (parse path).absolute (parse path).elements.reverse w.files
    (made.1, { w with files := made.2 })
  readDir name w := (k.readDir w.files (parse name), w)
  openFile name w := ((k.read w.files (parse name)).map fun _ => (), w)
  create name _ w := w.update (k.create w.files (parse name))
  copy dst src w := w.update (k.copy w.files (parse dst) (parse src))
  nameTooLong := .nameTooLong

end Tilbo.Daemon.Unix
