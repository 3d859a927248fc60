import Tilbo.Lib.Pairs
import Mathlib.Data.List.Sort
import Mathlib.Data.String.Basic
import Mathlib.Logic.Function.Basic

/-! # A file system with links

Files, links and directories are nodes with a number; a directory takes names to numbers, so that several names can
lead to one node. A path is walked name by name, through the links on its way. A walk that fails for want of an entry
tells which one. -/

namespace Tilbo.Lib.Files

open Tilbo.Lib.Pairs

/-! ### Nodes -/

/-- The names that an entry can have. -/
def IsName (s : String) : Prop := s ≠ "" ∧ s ≠ "." ∧ s ≠ ".." ∧ '/' ∉ s.toList ∧ '\x00' ∉ s.toList

instance (s : String) : Decidable (IsName s) := by unfold IsName; infer_instance

/-- A path: where it starts, and its elements. -/
structure Path where
  absolute : Bool
  elements : List String
deriving DecidableEq

structure Directory where
  parent : ℕ
  entries : List (String × ℕ)
  nodup : (entries.map Prod.fst).Nodup
  names : ∀ e ∈ entries, IsName e.1

namespace Directory

variable (d : Directory) (name : String) (i : ℕ)

def lookup : Option ℕ := d.entries.lookup name

/-- A directory without entries. -/
def empty (parent : ℕ) : Directory := ⟨parent, [], List.nodup_nil, by simp⟩

/-- The entry with the name leads to the node, whether or not there was one. -/
def put (h : IsName name) : Directory where
  parent := d.parent
  entries := Pairs.put d.entries name i
  nodup := nodup_keys_put d.nodup
  names e he := (mem_put he).elim (d.names e) fun heq => heq ▸ h

/-- The entry with the name is taken away. -/
def remove : Directory where
  parent := d.parent
  entries := d.entries.filter fun e => e.1 ≠ name
  nodup := (List.filter_sublist.map _).nodup d.nodup
  names e he := d.names e (List.mem_of_mem_filter he)

/-- The names, in their order. -/
def listing : List String := (d.entries.map Prod.fst).insertionSort (· ≤ ·)

end Directory

/-- What a number stands for. The version of a file goes up each time it is opened to be overwritten. -/
inductive Node where
  | file (content : List UInt8) (version : ℕ)
  | link (target : Path)
  | dir (d : Directory)

namespace Node

def isDir : Node → Bool
  | .dir _ => true
  | _ => false

/-- The target of a node that may be a link. -/
def link? : Node → Option Path
  | .link target => some target
  | _ => none

/-- The directory that a node may be. -/
def dir? : Node → Option Directory
  | .dir d => some d
  | _ => none

end Node

/-- The nodes up to a number. What a directory leads to exists. -/
structure FileSystem where
  node : ℕ → Option Node
  root : ℕ
  cwd : ℕ
  next : ℕ
  fresh : ∀ i, next ≤ i → node i = none
  rooted : (node root).isSome ∧ (node cwd).isSome
  closed : ∀ i d, node i = some (.dir d) → (node d.parent).isSome ∧ ∀ e ∈ d.entries, (node e.2).isSome

/-- Why a call fails. -/
inductive Fault where
  /-- The directory has no entry with the name; `last` says whether it is the last one of the path. -/
  | missing (dir : ℕ) (name : String) (last : Bool)
  | notDirectory
  | isDirectory
  | loop
  | exists
  | notEmpty
  | busy
  | invalid
  | nameTooLong
  /-- The kernel has a reason of its own. -/
  | refused (reason : String)
deriving DecidableEq

/-! ### Walks -/

namespace FileSystem

variable (fs : FileSystem)

/-- What one name of a path does: it leads on to a node, or through a link to where its target starts. -/
inductive Move where
  | goes (j : ℕ)
  | jumps (j : ℕ) (target : List String)
  | fails (err : Fault)

/-- The move along a name; a link that is the last of the path is followed or not. -/
def move (last follow : Bool) (i : ℕ) (c : String) : Move :=
  match fs.node i with
  | some (.dir d) =>
    if c = "." then .goes i
    else if c = ".." then .goes d.parent
    else
      match d.lookup c with
      | none => .fails (.missing i c last)
      | some j =>
        match (fs.node j).bind Node.link? with
        | some target =>
          if last && !follow then .goes j else .jumps (if target.absolute then fs.root else i) target.elements
        | none => .goes j
  | _ => .fails .notDirectory

/-- The walk to the first link; `jump` goes on from there. -/
def walkFrom (jump : ℕ → List String → Except Fault ℕ) (follow : Bool) : ℕ → List String → Except Fault ℕ
  | i, [] => .ok i
  | i, c :: rest =>
    match fs.move rest.isEmpty follow i c with
    | .goes j => walkFrom jump follow j rest
    | .jumps j target => jump j (target ++ rest)
    | .fails err => .error err

/-- A walk that goes through at most so many links. A link at the end is followed or not. -/
def walk (follow : Bool) : ℕ → ℕ → List String → Except Fault ℕ
  | 0 => fs.walkFrom (fun _ _ => .error .loop) follow
  | n + 1 => fs.walkFrom (walk follow n) follow

/-- The number of links that a path may lead through. -/
def maxLinks : ℕ := 40

/-- Where a path starts. -/
def start (p : Path) : ℕ := if p.absolute then fs.root else fs.cwd

/-- The node that a path leads to. -/
def resolve (follow : Bool) (p : Path) : Except Fault ℕ :=
  if p.absolute = false ∧ p.elements = [] then .error (.missing fs.cwd "" true)
  else fs.walk follow maxLinks (fs.start p) p.elements

/-- The directory and the name that a path ends in. -/
def locate (p : Path) : Except Fault (ℕ × String) :=
  match p.elements.getLast? with
  | none => .error .busy
  | some name =>
    if IsName name then
      match fs.walk true maxLinks (fs.start p) p.elements.dropLast with
      | .ok i => .ok (i, name)
      | .error err => .error err
    else .error .busy

/-! ### Changes -/

/-- The file or directory that a call makes. -/
inductive Kind where
  | file
  | dir

/-- A new node. -/
def Kind.node (parent : ℕ) : Kind → Node
  | .file => .file [] 1
  | .dir => .dir (.empty parent)

/-- A new node with a new entry in a directory. -/
def insert (i : ℕ) (d : Directory) (hi : fs.node i = some (.dir d)) (name : String) (hname : IsName name)
    (kind : Kind) : FileSystem where
  node := Function.update (Function.update fs.node fs.next (some (kind.node i))) i
    (some (.dir (d.put name fs.next hname)))
  root := fs.root
  cwd := fs.cwd
  next := fs.next + 1
  fresh j hj := by
    have hlt : i < fs.next := by
      by_contra hge
      rw [fs.fresh i (by omega)] at hi
      cases hi
    rw [Function.update_of_ne (by omega), Function.update_of_ne (by omega)]
    exact fs.fresh j (by omega)
  rooted := by
    have hsome : ∀ j, (fs.node j).isSome →
        (Function.update (Function.update fs.node fs.next (some (kind.node i))) i
          (some (.dir (d.put name fs.next hname))) j).isSome := by
      intro j hj
      simp only [Function.update_apply]
      split_ifs <;> simp [hj]
    exact ⟨hsome _ fs.rooted.1, hsome _ fs.rooted.2⟩
  closed j d' hj := by
    have hsome : ∀ j, ((fs.node j).isSome ∨ j = fs.next) →
        (Function.update (Function.update fs.node fs.next (some (kind.node i))) i
          (some (.dir (d.put name fs.next hname))) j).isSome := by
      intro j hj
      simp only [Function.update_apply]
      split_ifs with h1 h2
      · rfl
      · rfl
      · exact hj.resolve_right h2
    have hi' : (fs.node i).isSome := by rw [hi]; rfl
    simp only [Function.update_apply] at hj
    split_ifs at hj with h1 h2
    · obtain rfl : d.put name fs.next hname = d' := by simpa using hj
      obtain ⟨hparent, hentries⟩ := fs.closed i d hi
      refine ⟨hsome _ (Or.inl hparent), fun e he => ?_⟩
      rcases mem_put he with he | rfl
      · exact hsome _ (Or.inl (hentries e he))
      · exact hsome _ (Or.inr rfl)
    · cases kind with
      | file => simp [Kind.node] at hj
      | dir =>
        obtain rfl : Directory.empty i = d' := by simpa [Kind.node] using hj
        exact ⟨hsome _ (Or.inl hi'), by simp [Directory.empty]⟩
    · obtain ⟨hparent, hentries⟩ := fs.closed j d' hj
      exact ⟨hsome _ (Or.inl hparent), fun e he => hsome _ (Or.inl (hentries e he))⟩

/-- The nodes are changed one by one, none of them into nothing and none from nothing. -/
def mapNodes (f : ℕ → Node → Node)
    (hf : ∀ i n d, fs.node i = some n → f i n = .dir d →
      (fs.node d.parent).isSome ∧ ∀ e ∈ d.entries, (fs.node e.2).isSome) : FileSystem where
  node i := (fs.node i).map (f i)
  root := fs.root
  cwd := fs.cwd
  next := fs.next
  fresh i hi := by rw [fs.fresh i hi]; rfl
  rooted := by simpa using fs.rooted
  closed i d hi := by
    obtain ⟨n, hn, hd⟩ := Option.map_eq_some_iff.mp hi
    simpa using hf i n d hn hd

/-- A file gets a content and a version. -/
def setFile (i : ℕ) (content : List UInt8) (version : ℕ) : FileSystem :=
  fs.mapNodes (fun j n => match n with
    | .file _ _ => if j = i then .file content version else n
    | _ => n) (by
      intro j n d hn hd
      cases n with
      | file c v =>
        dsimp only at hd
        split_ifs at hd
      | link target => cases hd
      | dir d' =>
        cases hd
        exact fs.closed j d hn)

/-- The entry `oldName` of directory `a` becomes the entry `newName` of directory `b`. -/
def relink (a : ℕ) (oldName : String) (b : ℕ) (newName : String) (i : ℕ) (hname : IsName newName)
    (hi : (fs.node i).isSome) (hb : (fs.node b).isSome) : FileSystem :=
  fs.mapNodes (fun j n => match n with
    | .dir d =>
      let d := if j = a then d.remove oldName else d
      let d := if j = b then d.put newName i hname else d
      .dir { d with parent := if j = i then b else d.parent }
    | n => n) (by
      intro j n d hn hd
      cases n with
      | file c v => cases hd
      | link target => cases hd
      | dir d' =>
        obtain ⟨hparent, hentries⟩ := fs.closed j d' hn
        have hremoved : ∀ e ∈ (if j = a then d'.remove oldName else d').entries, (fs.node e.2).isSome := by
          intro e he
          split_ifs at he
          · exact hentries e (List.mem_of_mem_filter he)
          · exact hentries e he
        have hput : ∀ d' : Directory, ∀ e ∈ (if j = b then d'.put newName i hname else d').entries,
            e ∈ d'.entries ∨ e = (newName, i) := by
          intro d' e he
          split_ifs at he
          · exact mem_put he
          · exact Or.inl he
        cases hd
        refine ⟨?_, fun e he => ?_⟩
        · dsimp only
          split_ifs
          · exact hb
          all_goals exact hparent
        · exact (hput _ e he).elim (hremoved e) fun heq => heq ▸ hi)

/-- The entry of a directory is taken away. -/
def unlink (a : ℕ) (name : String) : FileSystem :=
  fs.mapNodes (fun j n => match n with
    | .dir d => if j = a then .dir (d.remove name) else n
    | _ => n) (by
      intro j n d hn hd
      cases n with
      | file c v => cases hd
      | link target => cases hd
      | dir d' =>
        obtain ⟨hparent, hentries⟩ := fs.closed j d' hn
        dsimp only at hd
        split_ifs at hd
        · cases hd
          exact ⟨hparent, fun e he => hentries e (List.mem_of_mem_filter he)⟩
        · cases hd
          exact ⟨hparent, hentries⟩)

/-! ### Calls -/

/-- Whether a node is a directory. -/
def isDir (i : ℕ) : Bool := (fs.node i).any Node.isDir

/-- The directory of that number is `i` or lies in it, at most so many levels up. -/
def inside (i : ℕ) : ℕ → ℕ → Bool
  | 0, _ => false
  | n + 1, j =>
    j = i || match fs.node j with
      | some (.dir d) => d.parent ≠ j && inside i n d.parent
      | _ => false

/-- A directory that has no entries. -/
def isEmpty (i : ℕ) : Bool := ((fs.node i).bind Node.dir?).any fun d => d.entries = []

/-- An entry is moved, over what it leads to at its new place. -/
def moveEntry (a : ℕ) (oldName : String) (b : ℕ) (newName : String) (i : ℕ) : Except Fault FileSystem :=
  if h : IsName newName ∧ (fs.node i).isSome ∧ (fs.node b).isSome then
    .ok (fs.relink a oldName b newName i h.1 h.2.1 h.2.2)
  else .error .invalid

/-- `rename`. What is at the new path is replaced, unless one of the two is a directory and the other is not, or it is
a directory that has entries. -/
def rename (old new : Path) : Except Fault FileSystem :=
  match fs.locate old, fs.locate new with
  | .error err, _ => .error err
  | _, .error err => .error err
  | .ok (a, oldName), .ok (b, newName) =>
    match (fs.node a).bind Node.dir?, (fs.node b).bind Node.dir? with
    | some da, some db =>
      match da.lookup oldName with
      | none => .error (.missing a oldName true)
      | some i =>
        if db.lookup newName = some i then .ok fs
        else if fs.isDir i && fs.inside i fs.next b then .error .invalid
        else
          match db.lookup newName with
          | none => fs.moveEntry a oldName b newName i
          | some j =>
            if fs.isDir i then
              if !fs.isDir j then .error .notDirectory
              else if !fs.isEmpty j then .error .notEmpty
              else fs.moveEntry a oldName b newName i
            else if fs.isDir j then .error .isDirectory
            else fs.moveEntry a oldName b newName i
    | _, _ => .error .notDirectory

/-- `unlink`, or `rmdir` for a directory. -/
def remove (p : Path) : Except Fault FileSystem :=
  match fs.locate p with
  | .error err => .error err
  | .ok (a, name) =>
    match (fs.node a).bind fun n => n.dir?.bind fun d => d.lookup name with
    | none => .error (.missing a name true)
    | some i => if fs.isDir i && !fs.isEmpty i then .error .notEmpty else .ok (fs.unlink a name)

/-- A node is made where a walk has found no entry. -/
def make (kind : Kind) (i : ℕ) (name : String) : Except Fault FileSystem :=
  match hi : fs.node i with
  | some (.dir d) => if hname : IsName name then .ok (fs.insert i d hi name hname kind) else .error .invalid
  | _ => .error .notDirectory

/-- `mkdir`; a link at the end is not followed. -/
def mkdir (p : Path) : Except Fault FileSystem :=
  match fs.resolve false p with
  | .ok _ => .error .exists
  | .error (.missing i name true) => fs.make .dir i name
  | .error err => .error err

/-- A file is opened to be overwritten: it is made if there is none, and empty. -/
def create (p : Path) : Except Fault FileSystem :=
  match fs.resolve true p with
  | .ok i =>
    match fs.node i with
    | some (.file _ version) => .ok (fs.setFile i [] (version + 1))
    | some (.dir _) => .error .isDirectory
    | _ => .error .invalid
  | .error (.missing i name true) => fs.make .file i name
  | .error err => .error err

/-- The node at a path. -/
def stat (p : Path) : Except Fault Node :=
  match fs.resolve true p with
  | .ok i => (fs.node i).elim (.error .invalid) .ok
  | .error err => .error err

/-- The names in a directory. -/
def readDir (p : Path) : Except Fault (List String) :=
  match fs.stat p with
  | .ok (.dir d) => .ok d.listing
  | .ok _ => .error .notDirectory
  | .error err => .error err

/-! ### What walks find -/

section Walks

variable {fs : FileSystem} {follow : Bool} {n i j : ℕ} {a b : List String} {name : String} {d : Directory} {p : Path}

/-- How a walk goes on from a link. -/
def jump (fs : FileSystem) (follow : Bool) : ℕ → ℕ → List String → Except Fault ℕ
  | 0 => fun _ _ => .error .loop
  | n + 1 => fs.walk follow n

theorem walk_eq (fs : FileSystem) (follow : Bool) (n : ℕ) :
    fs.walk follow n = fs.walkFrom (fs.jump follow n) follow := by
  cases n <;> rfl

@[simp] theorem walk_nil : fs.walk follow n i [] = .ok i := by
  rw [walk_eq]
  rfl

theorem walk_cons {c : String} {rest : List String} : fs.walk follow n i (c :: rest) =
    match fs.move rest.isEmpty follow i c with
    | .goes j => fs.walk follow n j rest
    | .jumps j target => fs.jump follow n j (target ++ rest)
    | .fails err => .error err := by
  rw [walk_eq]
  rfl

/-- A move along a name, in a directory. -/
theorem move_dir {last : Bool} {c : String} (hi : fs.node i = some (.dir d)) (hdot : c ≠ ".") (hdots : c ≠ "..") :
    fs.move last follow i c =
    match d.lookup c with
    | none => .fails (.missing i c last)
    | some j =>
      match (fs.node j).bind Node.link? with
      | some target =>
        if last && !follow then .goes j else .jumps (if target.absolute then fs.root else i) target.elements
      | none => .goes j := by
  rw [move, hi]
  dsimp only
  rw [if_neg hdot, if_neg hdots]

/-- A name that is not the last leads where it leads as the last, if that is followed. -/
theorem move_inner (fs : FileSystem) (last follow : Bool) (i : ℕ) (c : String) :
    fs.move false follow i c = fs.move last true i c ∨
      ∃ err err', fs.move false follow i c = .fails err ∧ fs.move last true i c = .fails err' := by
  unfold move
  cases fs.node i with
  | none => exact Or.inl rfl
  | some node =>
    cases node with
    | file content version => exact Or.inl rfl
    | link target => exact Or.inl rfl
    | dir d =>
      dsimp only
      by_cases hdot : c = "."
      · exact Or.inl (by rw [if_pos hdot, if_pos hdot])
      · rw [if_neg hdot, if_neg hdot]
        by_cases hdots : c = ".."
        · exact Or.inl (by rw [if_pos hdots, if_pos hdots])
        · rw [if_neg hdots, if_neg hdots]
          cases d.lookup c with
          | none => exact Or.inr ⟨_, _, rfl, rfl⟩
          | some j => exact Or.inl (by simp)

/-- A walk goes through the end of the walk along its first part. -/
theorem walk_append (h : fs.walk true n i a = .ok j) :
    ∃ m, ∀ b, b ≠ [] → fs.walk follow n i (a ++ b) = fs.walk follow m j b := by
  induction n generalizing i a with
  | zero | succ n ih =>
    induction a generalizing i with
    | nil =>
      rw [walk_nil] at h
      cases h
      exact ⟨_, fun b _ => rfl⟩
    | cons c rest iha =>
      rw [walk_cons] at h
      have hmove : ∀ b : List String, b ≠ [] → fs.move (rest ++ b).isEmpty follow i c =
        fs.move rest.isEmpty true i c := by
        intro b hb
        have hne : (rest ++ b).isEmpty = false := by simp [hb]
        rw [hne]
        refine (move_inner fs rest.isEmpty follow i c).resolve_right ?_
        rintro ⟨err, err', -, hfails⟩
        rw [hfails] at h
        cases h
      cases hto : fs.move rest.isEmpty true i c with
      | goes k =>
        rw [hto] at h
        obtain ⟨m, hm⟩ := iha h
        refine ⟨m, fun b hb => ?_⟩
        rw [List.cons_append, walk_cons, hmove b hb, hto]
        exact hm b hb
      | jumps k target =>
        rw [hto] at h
        first
          | cases h
          | obtain ⟨m, hm⟩ := ih h
            refine ⟨m, fun b hb => ?_⟩
            rw [List.cons_append, walk_cons, hmove b hb, hto]
            have hassoc := hm b hb
            rw [List.append_assoc] at hassoc
            exact hassoc
      | fails err =>
        rw [hto] at h
        cases h

/-- A walk fails if the walk along its first part does. -/
theorem walk_append_error {err : Fault} (h : fs.walk true n i a = .error err) (hb : b ≠ []) :
    ∃ err', fs.walk follow n i (a ++ b) = .error err' := by
  induction n generalizing i a with
  | zero | succ n ih =>
    induction a generalizing i with
    | nil =>
      rw [walk_nil] at h
      cases h
    | cons c rest iha =>
      rw [walk_cons] at h
      have hne : (rest ++ b).isEmpty = false := by simp [hb]
      rw [List.cons_append, walk_cons, hne]
      rcases move_inner fs rest.isEmpty follow i c with hsame | ⟨err', -, hfails, -⟩
      · rw [hsame]
        cases hto : fs.move rest.isEmpty true i c with
        | goes k =>
          rw [hto] at h
          exact iha h
        | jumps k target =>
          rw [hto] at h
          first
            | exact ⟨_, rfl⟩
            | obtain ⟨err', herr'⟩ := ih h
              rw [List.append_assoc] at herr'
              exact ⟨err', herr'⟩
        | fails err' => exact ⟨err', rfl⟩
      · rw [hfails]
        exact ⟨err', rfl⟩

/-- A name in a directory that is the last of a path. -/
theorem walk_name (hi : fs.node i = some (.dir d)) (hname : IsName name) (hfollow : follow = false) :
    fs.walk follow n i [name] =
      match d.lookup name with
      | none => .error (.missing i name true)
      | some j => .ok j := by
  subst hfollow
  rw [walk_cons, move, hi]
  dsimp only
  rw [if_neg hname.2.1, if_neg hname.2.2.1]
  cases d.lookup name with
  | none => rfl
  | some j =>
    dsimp only
    cases (fs.node j).bind Node.link? <;> simp

/-- A name that leads somewhere leads somewhere if its link is not followed. -/
theorem walk_unfollowed {m m' : ℕ} (h : fs.walk true m i [name] = .ok j) :
    ∃ j', fs.walk false m' i [name] = .ok j' := by
  rw [walk_cons, move] at h
  simp only [walk_cons, move]
  cases hnode : fs.node i with
  | none => simp [hnode] at h
  | some node =>
    cases node with
    | file content version | link target => simp [hnode] at h
    | dir d =>
      by_cases hdot : name = "."
      · simp [hdot]
      · by_cases hdots : name = ".."
        · simp [hdots]
        · cases hj : d.lookup name with
          | none => simp [hnode, hdot, hdots, hj] at h
          | some k =>
            cases hlink : (fs.node k).bind Node.link? <;> simp [hdot, hdots, hj, hlink]

theorem locate_eq_ok_iff : fs.locate p = .ok (i, name) ↔
    IsName name ∧ ∃ front, p.elements = front ++ [name] ∧ fs.walk true maxLinks (fs.start p) front = .ok i := by
  unfold locate
  rcases List.eq_nil_or_concat' p.elements with hnil | ⟨front, last, hlast⟩
  · simp [hnil]
  · rw [hlast, List.getLast?_append, List.dropLast_concat]
    simp only [List.getLast?_singleton, Option.some_or]
    by_cases hname : IsName last
    · rw [if_pos hname]
      cases hwalk : fs.walk true maxLinks (fs.start p) front with
      | error err =>
        refine ⟨by simp, fun ⟨_, front', hfront', hok⟩ => ?_⟩
        obtain ⟨rfl, -⟩ := List.append_inj' hfront' rfl
        rw [hwalk] at hok
        cases hok
      | ok k =>
        constructor
        · intro h
          obtain ⟨rfl, rfl⟩ := Prod.mk.inj (Except.ok.inj h)
          exact ⟨hname, front, rfl, hwalk⟩
        · rintro ⟨-, front', hfront', hok⟩
          obtain ⟨rfl, hlast'⟩ := List.append_inj' hfront' rfl
          rw [hwalk] at hok
          rw [Except.ok.inj hok, (List.cons.inj hlast').1]
    · rw [if_neg hname]
      refine ⟨by simp, fun ⟨hname', front', hfront', _⟩ => ?_⟩
      obtain ⟨-, hlast'⟩ := List.append_inj' hfront' rfl
      exact absurd ((List.cons.inj hlast').1 ▸ hname') hname

theorem resolve_eq_walk (h : p.elements ≠ []) :
    fs.resolve follow p = fs.walk follow maxLinks (fs.start p) p.elements := by
  rw [resolve, if_neg fun hp => h hp.2]

/-- What a path leads to, if its last link is not followed, is what the entry leads to. -/
theorem resolve_of_locate (h : fs.locate p = .ok (i, name)) (hi : fs.node i = some (.dir d)) :
    fs.resolve false p =
      match d.lookup name with
      | none => .error (.missing i name true)
      | some j => .ok j := by
  obtain ⟨hname, front, hfront, hwalk⟩ := locate_eq_ok_iff.mp h
  obtain ⟨m, hm⟩ := @walk_append _ false _ _ _ _ hwalk
  rw [resolve_eq_walk (by simp [hfront]), hfront, hm _ (List.cons_ne_nil _ _)]
  exact walk_name hi hname rfl

end Walks

end FileSystem

end Tilbo.Lib.Files
