import Tilbo.Lib.DirTrees
import Tilbo.Lib.Steps
import Tilbo.Watch.Inotify

/-! # The directories that are watched

The kernel tells of what happens in a directory with a watch, and of nothing below it. `addWatchRecursive` walks through a
tree and adds a watch to each directory before it reads it; `processEvents` walks through every directory it is told was
made. Meanwhile others make, remove and move directories.

`covered_of_run` says that when all events are taken and no walk is under way, every directory has its watch, under its
own path, but for those that were moved or on which a call failed, and what is below them. Symbolic links are left out, and
so is a queue that overflows. A directory that was moved into the tree is not watched. -/

namespace Tilbo.Watch.Coverage

open Tilbo.Daemon.Handlers (EventKind)
open Tilbo.Lib Tilbo.Lib.DirTrees Tilbo.Lib.Steps Tilbo.Watch.Mounts Tilbo.Watch.Fanotify Tilbo.Watch.Inotify
open Tilbo.Lib.Lines (Bytes bytes)
open Tilbo.Trash.TrashInfo (byteOf)

/-! ### The state -/

def dot : UInt8 := 0x2e

/-- What a file can be called. -/
def IsName (n : Bytes) : Prop := n ≠ [] ∧ n ≠ [dot] ∧ n ≠ [dot, dot] ∧ slash ∉ n

instance (n : Bytes) : Decidable (IsName n) := inferInstanceAs (Decidable (_ ∧ _))

abbrev Name := {n : Bytes // IsName n}

/-- The fields of an `inotifyImpl` that do not change. -/
structure Config where
  rootPath : Bytes
  watchHidden : Bool
  excludePaths : List Bytes

/-- An event in the queue of the kernel. -/
structure Notice where
  wd : Int32
  mask : UInt32
  name : Bytes
deriving DecidableEq

/-- What a walk is about to do. -/
inductive Task where
  /-- `WalkDir` looks at where it is to begin. -/
  | stat (path : Bytes)
  /-- It calls the function, for an entry that was a directory or not; `top` where it began. -/
  | visit (path : Bytes) (isDir top : Bool)
  /-- It reads the directory. -/
  | read (path : Bytes)
deriving DecidableEq

variable {D : Type}

structure State (D : Type) where
  tree : Tree D Name
  /-- The watches of the kernel. -/
  watch : D → Option Int32
  queue : List Notice
  wdToDir : Int32 → Option Bytes
  work : List Task
  out : List Event
  /-- Which directories were moved, or missed because a call failed. -/
  lost : D → Prop

/-- The path of an entry. -/
def below (path : Bytes) (n : Name) : Bytes := path ++ slash :: n.1

/-- `filepath.Join` of a path and a name. -/
def join (path name : Bytes) : Bytes := clean (path ++ slash :: name)

variable (W : Config)

/-- The directory the kernel finds at a path. -/
abbrev Found (s : State D) : D → Bytes → Prop := At s.tree W.rootPath below

/-- The event loop; a walk has its own steps. -/
def impl : InotifyImpl (State D) where
  rootPath := W.rootPath
  watchHidden := W.watchHidden
  excludePaths := W.excludePaths
  wdToDir := State.wdToDir
  addWatchRecursive path s := { s with work := .stat path :: s.work }
  debounce e s := { s with out := s.out ++ [e] }

/-- The function of the walk gets as far as `addWatch`. -/
def watches (path : Bytes) (isDir top : Bool) : Bool :=
  if isDir && !top && isExcluded W.excludePaths path then false
  else if !W.watchHidden && hasHiddenComponentBelowRoot W.rootPath path then false
  else isDir

/-- The event the kernel queues, if the directory has a watch. -/
def State.tell (s : State D) (d : D) (mask : UInt32) (n : Name) : List Notice :=
  match s.watch d with
  | some wd => [⟨wd, mask, n.1⟩]
  | none => []

/-- A directory was made. -/
def Notice.IsMkdir (e : Notice) : Prop := e.mask &&& IN_CREATE ≠ 0 ∧ e.mask &&& IN_ISDIR ≠ 0

/-- The queue has the event that the directory was made. -/
def State.Announced (s : State D) (d : D) : Prop :=
  ∃ parent n wd, s.tree.place d = some (parent, n) ∧ s.watch parent = some wd ∧ ⟨wd, IN_CREATE ||| IN_ISDIR, n.1⟩ ∈ s.queue

/-! ### The steps -/

/-- Who takes a step. -/
inductive Agent where
  | others
  | watcher

/-- One atomic step. -/
inductive Step [DecidableEq D] (s : State D) : Agent → State D → Prop
  | mkdir {d parent : D} {n : Name} (hroot : d ≠ s.tree.root) (hfree : ∀ x, s.tree.place x ≠ some (parent, n))
      (hnew : s.tree.place d = none ∧ s.watch d = none) (hempty : ∀ x m, s.tree.place x ≠ some (d, m)) (hne : d ≠ parent) :
      Step s .others { s with
        tree := s.tree.put d parent n hroot hfree
        queue := s.queue ++ s.tell parent (IN_CREATE ||| IN_ISDIR) n }
  | rmdir {d parent : D} {n : Name} (hplace : s.tree.place d = some (parent, n))
      (hempty : ∀ x m, s.tree.place x ≠ some (d, m)) :
      Step s .others { s with
        tree := s.tree.remove d
        watch := Function.update s.watch d none
        queue := s.queue ++ s.tell parent (IN_DELETE ||| IN_ISDIR) n }
  | rename {d source target : D} {n m : Name} (hplace : s.tree.place d = some (source, n)) (hroot : d ≠ s.tree.root)
      (hfree : ∀ x, s.tree.place x ≠ some (target, m)) :
      Step s .others { s with
        tree := s.tree.put d target m hroot hfree
        queue := s.queue ++ s.tell source (IN_MOVED_FROM ||| IN_ISDIR) n ++ s.tell target (IN_MOVED_TO ||| IN_ISDIR) m
        lost := fun x => s.lost x ∨ x = d }
  /-- Something else happens, to a file say. -/
  | other {e : Notice} (he : ¬ e.IsMkdir) : Step s .others { s with queue := s.queue ++ [e] }
  /-- The body of the loop of `processEvents`, which waits for the walk to end. -/
  | dispatch {e : Notice} {rest : List Notice} (hwork : s.work = []) (hqueue : s.queue = e :: rest) :
      Step s .watcher (Inotify.dispatch (impl W) e.wd e.mask e.name { s with queue := rest })
  | stat {path : Bytes} {rest : List Task} {d : D} (hwork : s.work = .stat path :: rest) (hd : Found W s d path) :
      Step s .watcher { s with work := .visit path true true :: rest }
  /-- There is no directory, or the call fails. -/
  | statFailed {path : Bytes} {rest : List Task} (hwork : s.work = .stat path :: rest) :
      Step s .watcher { s with work := rest, lost := fun x => s.lost x ∨ Found W s x path }
  | pass {path : Bytes} {isDir top : Bool} {rest : List Task} (hwork : s.work = .visit path isDir top :: rest)
      (hno : watches W path isDir top = false) : Step s .watcher { s with work := rest }
  /-- A directory keeps its descriptor; a descriptor that is in use is not given again. -/
  | addWatch {path : Bytes} {isDir top : Bool} {rest : List Task} {d : D} {wd : Int32}
      (hwork : s.work = .visit path isDir top :: rest) (hyes : watches W path isDir top = true) (hd : Found W s d path)
      (hwd : s.watch d = some wd ∨ s.watch d = none ∧ ∀ x, s.watch x ≠ some wd) :
      Step s .watcher { s with
        watch := Function.update s.watch d (some wd)
        wdToDir := Function.update s.wdToDir wd (some path)
        work := .read path :: rest }
  | addWatchFailed {path : Bytes} {isDir top : Bool} {rest : List Task} (hwork : s.work = .visit path isDir top :: rest)
      (hyes : watches W path isDir top = true) :
      Step s .watcher { s with work := .read path :: rest, lost := fun x => s.lost x ∨ Found W s x path }
  /-- What was there all the time is listed, if nothing fails. -/
  | readDir {path : Bytes} {rest : List Task} {d : D} (entries : List (Name × Bool)) (hwork : s.work = .read path :: rest)
      (hd : Found W s d path) :
      Step s .watcher { s with
        work := entries.map (fun e => .visit (join path e.1.1) e.2 false) ++ rest
        lost := fun x => s.lost x ∨ ∃ n, s.tree.place x = some (d, n) ∧ (n, true) ∉ entries ∧ ¬ s.Announced x }
  | readNone {path : Bytes} {rest : List Task} (hwork : s.work = .read path :: rest) (hnone : ∀ d, ¬ Found W s d path) :
      Step s .watcher { s with work := rest }

/-- `newInotify`, before its walk. -/
def start (t : Tree D Name) : State D where
  tree := t
  watch _ := none
  queue := []
  wdToDir _ := none
  work := [.stat W.rootPath]
  out := []
  lost _ := False

/-! ### The invariant -/

/-- The path is neither hidden nor excluded. -/
def Visible (path : Bytes) : Prop :=
  isExcluded W.excludePaths path = false ∧ (!W.watchHidden && hasHiddenComponentBelowRoot W.rootPath path) = false

/-- The directory lies at the path, and nothing on the way is lost, hidden or excluded. -/
abbrev Kept (s : State D) : D → Bytes → Prop := Along s.tree W.rootPath below fun d path => ¬ s.lost d ∧ Visible W path

/-- The walk is about to add a watch there. -/
def Due (work : List Task) (path : Bytes) : Prop := .stat path ∈ work ∨ ∃ top, .visit path true top ∈ work

/-- A directory without a watch is one the watcher will come to, or is told of, or is in a directory without a watch. -/
structure Inv (s : State D) : Prop where
  labels : ∀ d path wd, Kept W s d path → s.watch d = some wd → s.wdToDir wd = some path
  distinct : ∀ d d' wd, s.watch d = some wd → s.watch d' = some wd → d = d'
  root : Kept W s s.tree.root W.rootPath → (s.watch s.tree.root).isSome ∨ Due s.work W.rootPath
  inside : ∀ d parent path n, Kept W s parent path → s.tree.place d = some (parent, n) → Kept W s d (below path n) →
    (s.watch d).isSome ∨ Due s.work (below path n) ∨ .read path ∈ s.work ∨ s.Announced d ∨ s.watch parent = none

/-! ### Paths -/

section Paths
variable {path path' : Bytes} {n n' : Name}

theorem joins_below : Joins below where
  inj {p p' n n'} h := by
    have hno : ∀ (n n' : Name) (a : Bytes), slash :: n.1 = a ++ slash :: n'.1 → a = [] := by
      intro n n' a ha
      rcases a with _ | ⟨b, a⟩
      · rfl
      · have hmem : slash ∈ n.1 := by
          rw [(List.cons.inj ha).2]
          exact List.mem_append_right _ List.mem_cons_self
        exact absurd hmem n.2.2.2.2
    rcases List.append_eq_append_iff.mp h with ⟨a, rfl, ha⟩ | ⟨a, rfl, ha⟩
    · obtain rfl := hno n n' a ha
      exact ⟨(List.append_nil _).symm, Subtype.ext (List.cons.inj ha).2⟩
    · obtain rfl := hno n' n a ha
      exact ⟨List.append_nil _, Subtype.ext (List.cons.inj ha).2.symm⟩
  grows := ⟨List.length, fun p n => by simp only [below, List.length_append, List.length_cons]; omega⟩

theorem mem_ofElements {es : List CleanPaths.Element} {c : Char} (h : c ∈ (CleanPaths.ofElements true es).toList) :
    c = '/' ∨ ∃ e ∈ es, c ∈ e := by
  have hmem : ∀ es : List CleanPaths.Element, c ∈ ['/'].intercalate es → c = '/' ∨ ∃ e ∈ es, c ∈ e := by
    intro es
    induction es with
    | nil => simp [List.intercalate]
    | cons e es ih =>
      intro hc
      by_cases hnil : es = []
      · subst hnil
        exact .inr ⟨e, List.mem_cons_self, by simpa [List.intercalate] using hc⟩
      · rw [List.intercalate_cons_of_ne_nil hnil, List.append_assoc] at hc
        rcases List.mem_append.mp hc with hc | hc
        · exact .inr ⟨e, List.mem_cons_self, hc⟩
        · rcases List.mem_cons.mp hc with rfl | hc
          · exact .inl rfl
          · exact (ih hc).imp_right fun ⟨e', he', hc⟩ => ⟨e', List.mem_cons_of_mem _ he', hc⟩
  rw [CleanPaths.ofElements, if_pos rfl, String.toList_ofList] at h
  rcases List.mem_cons.mp h with rfl | h
  · exact .inl rfl
  · exact hmem es h

theorem isAbs_textOf (h : path.head? = some slash) : CleanPaths.isAbs (textOf path) = true := by
  rw [CleanPaths.isAbs, textOf, String.toList_ofList, List.head?_map, h]
  rfl

/-- A clean path is the text of its elements. -/
theorem textOf_clean (h : IsCleanAbs path) :
    textOf path = CleanPaths.ofElements true (CleanPaths.elements (textOf path)) := by
  obtain ⟨hhead, hclean⟩ := h
  have hpath : (CleanPaths.ofElements true (CleanPaths.elements (textOf path))).toList.map byteOf = path := by
    have hc := hclean
    rwa [clean, ← textOf, CleanPaths.clean, isAbs_textOf hhead] at hc
  have hchar : ∀ c ∈ (CleanPaths.ofElements true (CleanPaths.elements (textOf path))).toList,
      Char.ofNat (byteOf c).toNat = c := by
    intro c hc
    rcases mem_ofElements hc with rfl | ⟨e, he, hce⟩
    · decide
    · have hmem : c ∈ (textOf path).toList := by
        by_contra hno
        exact CleanPaths.not_mem_elements hno e he hce
      rw [textOf, String.toList_ofList] at hmem
      obtain ⟨b, -, rfl⟩ := List.mem_map.mp hmem
      rw [byteOf_ofNat]
  calc textOf path = String.ofList (((CleanPaths.ofElements true (CleanPaths.elements (textOf path))).toList.map
        byteOf).map fun b => Char.ofNat b.toNat) := by rw [hpath, textOf]
    _ = String.ofList (CleanPaths.ofElements true (CleanPaths.elements (textOf path))).toList := by
        rw [List.map_map]
        exact congrArg String.ofList ((List.map_congr_left hchar).trans (List.map_id _))
    _ = _ := String.ofList_toList

/-- The characters of a name. -/
theorem isElement_name (n : Name) : CleanPaths.IsElement (n.1.map fun b => Char.ofNat b.toNat) := by
  have hback : ∀ l : List Char, (n.1.map fun b => Char.ofNat b.toNat) = l → n.1 = l.map byteOf := by
    rintro l rfl
    rw [List.map_map]
    exact ((List.map_congr_left fun b _ => byteOf_ofNat b).trans (List.map_id _)).symm
  obtain ⟨hne, hdot, hdots, hslash⟩ := n.2
  refine ⟨fun h => hne (hback _ h), fun h => hdot (hback _ h), fun h => hdots (hback _ h), fun h => ?_⟩
  obtain ⟨b, hb, hchar⟩ := List.mem_map.mp h
  have hbyte : b = slash := by
    rw [← byteOf_ofNat b, hchar]
    decide
  exact hslash (hbyte ▸ hb)

theorem elements_ne_nil (h : IsCleanAbs path) (hroot : path ≠ Mounts.root) : CleanPaths.elements (textOf path) ≠ [] := by
  intro hnil
  have htext := textOf_clean h
  rw [hnil] at htext
  refine hroot ?_
  have hclean := h.2
  rw [clean, ← textOf, htext] at hclean
  rw [← hclean]
  decide

/-- What is below a directory other than the root has one element more. -/
theorem textOf_below (h : IsCleanAbs path) (hroot : path ≠ Mounts.root) (n : Name) : textOf (below path n) =
    CleanPaths.ofElements true (CleanPaths.elements (textOf path) ++ [n.1.map fun b => Char.ofNat b.toNat]) := by
  have htext := textOf_clean h
  refine String.toList_injective ?_
  rw [CleanPaths.toList_ofElements_append true (elements_ne_nil h hroot) (by simp), ← htext]
  simp only [textOf, below, String.toList_ofList, List.map_append, List.map_cons]
  simp [List.intercalate]
  decide

theorem isCleanAbs_below (h : IsCleanAbs path) (hroot : path ≠ Mounts.root) (n : Name) :
    IsCleanAbs (below path n) ∧ below path n ≠ Mounts.root := by
  have hne : path ≠ [] := by
    rintro rfl
    cases h.1
  have hnames : ∀ e ∈ CleanPaths.elements (textOf path) ++ [n.1.map fun b => Char.ofNat b.toNat], CleanPaths.IsElement e := by
    intro e he
    rcases List.mem_append.mp he with he | he
    · exact CleanPaths.isElement_elements (isAbs_textOf h.1) e he
    · rw [List.mem_singleton.mp he]
      exact isElement_name n
  have hbelow := textOf_below h hroot n
  refine ⟨⟨?_, ?_⟩, ?_⟩
  · rw [below, List.head?_append_of_ne_nil _ hne]
    exact h.1
  · rw [clean, ← textOf, hbelow, CleanPaths.clean_ofElements (CleanPaths.settled_of_isElement hnames), ← hbelow, textOf,
      String.toList_ofList, List.map_map]
    exact (List.map_congr_left fun b _ => byteOf_ofNat b).trans (List.map_id _)
  · intro heq
    have hlength := congrArg List.length heq
    have hpos := List.length_pos_of_ne_nil hne
    simp only [below, Mounts.root, List.length_append, List.length_cons, List.length_nil] at hlength
    omega

theorem join_eq (h : IsCleanAbs path) (hroot : path ≠ Mounts.root) (n : Name) : join path n.1 = below path n :=
  (isCleanAbs_below h hroot n).1.2

/-- The watched directory is not hidden below itself. -/
theorem hasHidden_self (path : Bytes) : hasHiddenComponentBelowRoot path path = false := by
  unfold hasHiddenComponentBelowRoot
  simp

end Paths

/-! ### What one step preserves -/

section Steps
variable {W} {s : State D} {d parent : D} {path : Bytes} {n : Name} {C : D → Bytes → Prop} {t : Tree D Name} {wd : Int32}
  {task : Task} {rest work : List Task}

theorem Due.mono (h : Due rest path) (hsub : ∀ k ∈ rest, k ∈ work) : Due work path :=
  h.imp (hsub _) fun ⟨top, htop⟩ => ⟨top, hsub _ htop⟩

theorem due_cons (h : Due (task :: rest) path) :
    task = .stat path ∨ (∃ top, task = .visit path true top) ∨ Due rest path := by
  rcases h with h | ⟨top, h⟩
  · rcases List.mem_cons.mp h with h | h
    · exact .inl h.symm
    · exact .inr (.inr (.inl h))
  · rcases List.mem_cons.mp h with h | h
    · exact .inr (.inl ⟨top, h.symm⟩)
    · exact .inr (.inr (.inr ⟨top, h⟩))

/-- What lies in the tree has a clean path. -/
theorem isCleanAbs_along (hclean : IsCleanAbs W.rootPath) (hroot : W.rootPath ≠ Mounts.root)
    (h : Along t W.rootPath below C d path) : IsCleanAbs path ∧ path ≠ Mounts.root := by
  induction h with
  | root => exact ⟨hclean, hroot⟩
  | down _ _ _ ih => exact isCleanAbs_below ih.1 ih.2 _

/-- The walk adds a watch to what is visible. -/
theorem watches_of_visible (h : Visible W path) (top : Bool) : watches W path true top = true := by
  obtain ⟨hexcluded, hhidden⟩ := h
  rw [watches, hexcluded, hhidden]
  simp

theorem dispatch_fields (wd : Int32) (mask : UInt32) (name : Bytes) (s : State D) :
    ∃ work out, Inotify.dispatch (impl W) wd mask name s = { s with work := work, out := out } := by
  unfold Inotify.dispatch
  rcases (impl W).wdToDir s wd with _ | dir
  · exact ⟨_, _, rfl⟩
  · dsimp only
    generalize (if name ≠ [] then dir ++ slash :: name else dir) = path
    split_ifs
    · exact ⟨_, _, rfl⟩
    · exact ⟨_, _, rfl⟩
    · exact ⟨_, _, rfl⟩
    · exact ⟨_, _, rfl⟩
    · rcases kindOf mask with _ | kind <;> exact ⟨_, _, rfl⟩
    · rcases kindOf mask with _ | kind <;> exact ⟨_, _, rfl⟩

theorem visible_impl (h : Visible W (below path n)) :
    isExcluded (impl (D := D) W).excludePaths (path ++ slash :: n.1) = false ∧
      (!(impl (D := D) W).watchHidden &&
        hasHiddenComponentBelowRoot (impl (D := D) W).rootPath (path ++ slash :: n.1)) = false := h

/-- A walk begins at a directory that was made. -/
theorem dispatch_mkdir (hlabel : s.wdToDir wd = some path) (hvisible : Visible W (below path n)) :
    Inotify.dispatch (impl W) wd (IN_CREATE ||| IN_ISDIR) n.1 s = { s with work := .stat (below path n) :: s.work } := by
  obtain ⟨hexcluded, hhidden⟩ := visible_impl hvisible
  have hmask : (IN_CREATE ||| IN_ISDIR) &&& IN_CREATE ≠ 0 ∧ (IN_CREATE ||| IN_ISDIR) &&& IN_ISDIR ≠ 0 := by decide
  have hlabel : (impl W).wdToDir s wd = some path := hlabel
  unfold Inotify.dispatch
  rw [hlabel]
  dsimp only
  rw [if_pos n.2.1, hexcluded, hhidden, if_neg Bool.false_ne_true, if_neg Bool.false_ne_true, if_pos hmask,
    if_pos hmask.2]
  rfl

/-- A step of the walk that adds no watch: only what its task was about has to be looked at. -/
theorem Inv.of_task (h : Inv W s) (hwork : s.work = task :: rest) (work : List Task) (lost : D → Prop)
    (hrest : ∀ k ∈ rest, k ∈ work) (hlost : ∀ x, s.lost x → lost x)
    (hdue : ∀ x path, Kept W { s with work := work, lost := lost } x path →
      task = .stat path ∨ (∃ top, task = .visit path true top) → Due work path)
    (hread : ∀ x parent path m, task = .read path → Kept W { s with work := work, lost := lost } parent path →
      s.tree.place x = some (parent, m) → Kept W { s with work := work, lost := lost } x (below path m) →
      Due work (below path m) ∨ s.Announced x) :
    Inv W { s with work := work, lost := lost } := by
  have hkept : ∀ {x path}, Kept W { s with work := work, lost := lost } x path → Kept W s x path := fun hk =>
    hk.mono fun _ _ hx => ⟨mt (hlost _) hx.1, hx.2⟩
  have hstays : ∀ {x path}, Kept W { s with work := work, lost := lost } x path → Due s.work path → Due work path := by
    intro x path hk hd
    rw [hwork] at hd
    rcases due_cons hd with htask | htask | hd
    · exact hdue x path hk (.inl htask)
    · exact hdue x path hk (.inr htask)
    · exact hd.mono hrest
  refine ⟨fun x path wd hk => h.labels x path wd (hkept hk), h.distinct, fun hk => ?_, fun x parent path m hk hplace hx => ?_⟩
  · exact (h.root (hkept hk)).imp_right (hstays hk)
  · rcases h.inside x parent path m (hkept hk) hplace (hkept hx) with hw | hd | hr | ha | hno
    · exact .inl hw
    · exact .inr (.inl (hstays hx hd))
    · rw [hwork] at hr
      rcases List.mem_cons.mp hr with hr | hr
      · rcases hread x parent path m hr.symm hk hplace hx with hd | ha
        · exact .inr (.inl hd)
        · exact .inr (.inr (.inr (.inl ha)))
      · exact .inr (.inr (.inl (hrest _ hr)))
    · exact .inr (.inr (.inr (.inl ha)))
    · exact .inr (.inr (.inr (.inr hno)))

/-- The queue grows. -/
theorem Inv.of_queue (h : Inv W s) (queue : List Notice) (hqueue : ∀ e ∈ s.queue, e ∈ queue) :
    Inv W { s with queue := queue } where
  labels := h.labels
  distinct := h.distinct
  root := h.root
  inside x parent path m hk hplace hx := by
    rcases h.inside x parent path m hk hplace hx with hw | hd | hr | ⟨q, m', wd, hq, hwd, hmem⟩ | hno
    · exact .inl hw
    · exact .inr (.inl hd)
    · exact .inr (.inr (.inl hr))
    · exact .inr (.inr (.inr (.inl ⟨q, m', wd, hq, hwd, hqueue _ hmem⟩)))
    · exact .inr (.inr (.inr (.inr hno)))

/-- An event is taken. -/
theorem Inv.of_dispatch {e : Notice} {rest : List Notice} (h : Inv W s) (hwork : s.work = []) (hqueue : s.queue = e :: rest) :
    Inv W (Inotify.dispatch (impl W) e.wd e.mask e.name { s with queue := rest }) := by
  obtain ⟨work, out, heq⟩ := dispatch_fields (W := W) e.wd e.mask e.name { s with queue := rest }
  rw [heq]
  refine ⟨h.labels, h.distinct, fun hk => ?_, fun x parent path m hk hplace hx => ?_⟩
  · have hroot := h.root hk
    rw [hwork] at hroot
    exact hroot.imp_right fun hd => absurd hd (by simp [Due])
  · rcases h.inside x parent path m hk hplace hx with hw | hd | hr | ⟨q, m', wd, hq, hwd, hmem⟩ | hno
    · exact .inl hw
    · rw [hwork] at hd
      exact absurd hd (by simp [Due])
    · rw [hwork] at hr
      exact absurd hr List.not_mem_nil
    · rw [hqueue] at hmem
      rcases List.mem_cons.mp hmem with rfl | hmem
      -- The directory is where the event says, as it was not moved.
      · obtain ⟨rfl, rfl⟩ := Prod.mk.inj (Option.some.inj (hq.symm.trans hplace))
        have hlabel := h.labels q path wd hk hwd
        rw [dispatch_mkdir (s := { s with queue := rest }) hlabel hx.here.2] at heq
        have hworks : .stat (below path m') :: s.work = work := congrArg State.work heq
        exact .inr (.inl (.inl (hworks ▸ List.mem_cons_self)))
      · exact .inr (.inr (.inr (.inl ⟨q, m', wd, hq, hwd, hmem⟩)))
    · exact .inr (.inr (.inr (.inr hno)))

theorem mem_tell {mask : UInt32} (h : s.watch d = some wd) : ⟨wd, mask, n.1⟩ ∈ s.tell d mask n := by
  rw [State.tell, h]
  exact List.mem_singleton_self _

section Changes
variable [DecidableEq D]

/-- A watch is added, and the directory is about to be read. -/
theorem Inv.of_addWatch {isDir top : Bool} (h : Inv W s) (hwork : s.work = .visit path isDir top :: rest)
    (hd : Found W s d path) (hwd : s.watch d = some wd ∨ s.watch d = none ∧ ∀ x, s.watch x ≠ some wd) :
    Inv W { s with
      watch := Function.update s.watch d (some wd)
      wdToDir := Function.update s.wdToDir wd (some path)
      work := .read path :: rest } := by
  have hother : ∀ {x wd'}, x ≠ d → s.watch x = some wd' → wd' ≠ wd := by
    rintro x wd' hne hx rfl
    rcases hwd with hold | ⟨-, hfree⟩
    · exact hne (h.distinct x d _ hx hold)
    · exact hfree x hx
  have hdue : ∀ {x path'}, Kept W s x path' → Due s.work path' → x = d ∨ Due (.read path :: rest) path' := by
    intro x path' hx hdue
    rw [hwork] at hdue
    rcases due_cons hdue with hno | ⟨_, hvisit⟩ | hdue
    · cases hno
    · obtain ⟨rfl, -⟩ := Task.visit.inj hvisit
      exact .inl (hx.dir_eq joins_below hd)
    · exact .inr (hdue.mono fun _ => List.mem_cons_of_mem _)
  refine ⟨fun x path' wd' hk hx => ?_, fun x x' wd' hx hx' => ?_, fun hk => ?_, fun x parent path' m hk hplace hx => ?_⟩
  · dsimp only at hx ⊢
    rcases eq_or_ne x d with rfl | hne
    · rw [Function.update_self] at hx
      obtain rfl := Option.some.inj hx
      rw [Function.update_self, hk.path_eq hd]
    · rw [Function.update_of_ne hne] at hx
      rw [Function.update_of_ne (hother hne hx)]
      exact h.labels x path' wd' hk hx
  · dsimp only at hx hx'
    rcases eq_or_ne x d with rfl | hne <;> rcases eq_or_ne x' x with rfl | hne'
    · rfl
    · rw [Function.update_self] at hx
      rw [Function.update_of_ne hne'] at hx'
      exact absurd (Option.some.inj hx).symm (hother hne' hx')
    · rfl
    · rcases eq_or_ne x' d with rfl | hne''
      · rw [Function.update_self] at hx'
        rw [Function.update_of_ne hne] at hx
        exact absurd (Option.some.inj hx').symm (hother hne hx)
      · rw [Function.update_of_ne hne] at hx
        rw [Function.update_of_ne hne''] at hx'
        exact h.distinct x x' wd' hx hx'
  · dsimp only
    rcases eq_or_ne s.tree.root d with heq | hne
    · exact .inl (by rw [heq, Function.update_self]; rfl)
    · rw [Function.update_of_ne hne]
      rcases h.root hk with hw | hd'
      · exact .inl hw
      · exact .inr ((hdue hk hd').resolve_left hne)
  · dsimp only
    rcases eq_or_ne x d with rfl | hne
    · exact .inl (by rw [Function.update_self]; rfl)
    rw [Function.update_of_ne hne]
    rcases eq_or_ne parent d with rfl | hparent
    · exact .inr (.inr (.inl (by rw [hk.path_eq hd]; exact List.mem_cons_self)))
    rcases h.inside x parent path' m hk hplace hx with hw | hd' | hr | ⟨q, m', wd', hq, hwd', hmem⟩ | hno
    · exact .inl hw
    · exact .inr (.inl ((hdue hx hd').resolve_left hne))
    · rw [hwork] at hr
      rcases List.mem_cons.mp hr with hr | hr
      · cases hr
      · exact .inr (.inr (.inl (List.mem_cons_of_mem _ hr)))
    · obtain ⟨rfl, rfl⟩ := Prod.mk.inj (Option.some.inj (hq.symm.trans hplace))
      exact .inr (.inr (.inr (.inl ⟨q, m', wd', hq, (Function.update_of_ne hparent _ _).trans hwd', hmem⟩)))
    · exact .inr (.inr (.inr (.inr (by rw [Function.update_of_ne hparent, hno]))))

/-- A directory is made: the kernel tells of it if it watches where it is. -/
theorem Inv.of_mkdir (h : Inv W s) (hroot : d ≠ s.tree.root) (hfree : ∀ x, s.tree.place x ≠ some (parent, n))
    (hnew : s.watch d = none) (hempty : ∀ x m, s.tree.place x ≠ some (d, m)) (hne : d ≠ parent) :
    Inv W { s with
      tree := s.tree.put d parent n hroot hfree
      queue := s.queue ++ s.tell parent (IN_CREATE ||| IN_ISDIR) n } := by
  have hkept : ∀ {x path}, Along (s.tree.put d parent n hroot hfree) W.rootPath below
      (fun d path => ¬ s.lost d ∧ Visible W path) x path → x ≠ d → Kept W s x path := fun hx => hx.of_new hne hempty
  refine ⟨fun x path wd hk hx => ?_, h.distinct, fun hk => h.root (hkept hk hroot.symm), fun x q path m hk hplace hx => ?_⟩
  · have hxd : x ≠ d := by
      rintro rfl
      rw [hnew] at hx
      cases hx
    exact h.labels x path wd (hkept hk hxd) hx
  · dsimp only at hplace ⊢
    by_cases hxd : x = d
    · subst hxd
      obtain ⟨rfl, rfl⟩ := Prod.mk.inj (Option.some.inj (place_put_self.symm.trans hplace))
      rcases hwatch : s.watch parent with _ | wd
      · exact .inr (.inr (.inr (.inr rfl)))
      · exact .inr (.inr (.inr (.inl ⟨parent, n, wd, hplace, hwatch,
          List.mem_append_right _ (mem_tell hwatch)⟩)))
    · have hold : s.tree.place x = some (q, m) := (place_put_of_ne hxd).symm.trans hplace
      have hq : q ≠ d := by
        rintro rfl
        exact hempty x m hold
      rcases h.inside x q path m (hkept hk hq) hold (hkept hx hxd) with hw | hd | hr | ⟨q', m', wd, hq', hwd, hmem⟩ | hno
      · exact .inl hw
      · exact .inr (.inl hd)
      · exact .inr (.inr (.inl hr))
      · exact .inr (.inr (.inr (.inl ⟨q', m', wd, (Function.update_of_ne hxd _ _).trans hq', hwd,
          List.mem_append_left _ hmem⟩)))
      · exact .inr (.inr (.inr (.inr hno)))

/-- A directory is removed, and its watch with it. -/
theorem Inv.of_rmdir {queue : List Notice} (h : Inv W s) (hplace : s.tree.place d = some (parent, n))
    (hempty : ∀ x m, s.tree.place x ≠ some (d, m)) (hqueue : ∀ e ∈ s.queue, e ∈ queue) :
    Inv W { s with tree := s.tree.remove d, watch := Function.update s.watch d none, queue := queue } := by
  have hwatch : ∀ {x wd}, Function.update s.watch d none x = some wd → s.watch x = some wd := by
    intro x wd hx
    rcases eq_or_ne x d with rfl | hxd
    · rw [Function.update_self] at hx
      cases hx
    · rwa [Function.update_of_ne hxd] at hx
  have hroot : s.tree.root ≠ d := by
    rintro rfl
    rw [s.tree.place_root] at hplace
    cases hplace
  refine ⟨fun x path wd hk hx => h.labels x path wd hk.of_remove (hwatch hx),
    fun x x' wd hx hx' => h.distinct x x' wd (hwatch hx) (hwatch hx'), fun hk => ?_, fun x q path m hk hx' hx => ?_⟩
  · dsimp only [remove_root] at hk ⊢
    rw [Function.update_of_ne hroot]
    exact h.root hk.of_remove
  · obtain ⟨hxd, hold⟩ := place_remove.mp hx'
    have hq : q ≠ d := by
      rintro rfl
      exact hempty x m hold
    dsimp only
    rw [Function.update_of_ne hxd, Function.update_of_ne hq]
    rcases h.inside x q path m hk.of_remove hold hx.of_remove with hw | hd | hr | ⟨q', m', wd, hq', hwd, hmem⟩ | hno
    · exact .inl hw
    · exact .inr (.inl hd)
    · exact .inr (.inr (.inl hr))
    · obtain ⟨rfl, rfl⟩ := Prod.mk.inj (Option.some.inj (hq'.symm.trans hold))
      exact .inr (.inr (.inr (.inl ⟨q', m', wd, place_remove.mpr ⟨hxd, hq'⟩,
        (Function.update_of_ne hq _ _).trans hwd, hqueue _ hmem⟩)))
    · exact .inr (.inr (.inr (.inr hno)))

/-- A directory is moved, and from then on not spoken of, nor what is below it. -/
theorem Inv.of_rename {queue : List Notice} (h : Inv W s) (hroot : d ≠ s.tree.root)
    (hfree : ∀ x, s.tree.place x ≠ some (parent, n)) (hqueue : ∀ e ∈ s.queue, e ∈ queue) :
    Inv W { s with tree := s.tree.put d parent n hroot hfree, queue := queue, lost := fun x => s.lost x ∨ x = d } := by
  have hkept : ∀ {x path}, Along (s.tree.put d parent n hroot hfree) W.rootPath below
      (fun x path => ¬ (s.lost x ∨ x = d) ∧ Visible W path) x path → Kept W s x path := fun hx =>
    (hx.of_put fun _ hd => hd.1 (.inr rfl)).mono fun _ _ hd => ⟨mt Or.inl hd.1, hd.2⟩
  refine ⟨fun x path wd hk => h.labels x path wd (hkept hk), h.distinct, fun hk => h.root (hkept hk),
    fun x q path m hk hplace hx => ?_⟩
  have hxd : x ≠ d := fun heq => hx.here.1 (.inr heq)
  have hold : s.tree.place x = some (q, m) := (Function.update_of_ne hxd _ _).symm.trans hplace
  rcases h.inside x q path m (hkept hk) hold (hkept hx) with hw | hd | hr | ⟨q', m', wd, hq', hwd, hmem⟩ | hno
  · exact .inl hw
  · exact .inr (.inl hd)
  · exact .inr (.inr (.inl hr))
  · exact .inr (.inr (.inr (.inl ⟨q', m', wd, (Function.update_of_ne hxd _ _).trans hq', hwd, hqueue _ hmem⟩)))
  · exact .inr (.inr (.inr (.inr hno)))

/-- One step. -/
theorem Inv.step {s' : State D} {a : Agent} (hclean : IsCleanAbs W.rootPath) (hroot : W.rootPath ≠ Mounts.root)
    (h : Inv W s) (hstep : Step W s a s') : Inv W s' := by
  rcases hstep with @⟨d, parent, n, hnotroot, hfree, hnew, hempty, hne⟩ | @⟨d, parent, n, hplace, hempty⟩ |
    @⟨d, source, target, n, m, -, hnotroot, hfree⟩ | ⟨-⟩ | ⟨hwork, hqueue⟩ | @⟨path, rest, d, hwork, hd⟩ |
    @⟨path, rest, hwork⟩ | @⟨path, isDir, top, rest, hwork, hno⟩ | ⟨hwork, -, hd, hwd⟩ |
    @⟨path, isDir, top, rest, hwork, -⟩ | @⟨path, rest, d, entries, hwork, hd⟩ | @⟨path, rest, hwork, hnone⟩
  case mkdir => exact h.of_mkdir hnotroot hfree hnew.2 hempty hne
  case rmdir => exact h.of_rmdir hplace hempty fun e he => List.mem_append_left _ he
  case rename =>
    exact h.of_rename hnotroot hfree fun e he => List.mem_append_left _ (List.mem_append_left _ he)
  case other => exact h.of_queue _ fun e he => List.mem_append_left _ he
  case dispatch => exact h.of_dispatch hwork hqueue
  case addWatch => exact h.of_addWatch hwork hd hwd
  case stat =>
    refine h.of_task hwork _ s.lost (fun _ => List.mem_cons_of_mem _) (fun _ => id) (fun x path' _ htask => ?_)
      fun x q path' m htask => by cases htask
    rcases htask with hstat | ⟨_, hvisit⟩
    · obtain rfl := Task.stat.inj hstat
      exact .inr ⟨true, List.mem_cons_self⟩
    · cases hvisit
  case statFailed =>
    refine h.of_task hwork _ _ (fun _ => id) (fun _ => Or.inl) (fun x path' hx htask => ?_)
      fun x q path' m htask => by cases htask
    rcases htask with hstat | ⟨_, hvisit⟩
    · obtain rfl := Task.stat.inj hstat
      exact absurd (Or.inr hx.at) hx.here.1
    · cases hvisit
  case pass =>
    refine h.of_task hwork _ s.lost (fun _ => id) (fun _ => id) (fun x path' hx htask => ?_)
      fun x q path' m htask => by cases htask
    rcases htask with hstat | ⟨top', hvisit⟩
    · cases hstat
    · obtain ⟨rfl, rfl, rfl⟩ := Task.visit.inj hvisit
      rw [watches_of_visible hx.here.2] at hno
      cases hno
  case addWatchFailed =>
    refine h.of_task hwork _ _ (fun _ => List.mem_cons_of_mem _) (fun _ => Or.inl) (fun x path' hx htask => ?_)
      fun x q path' m htask => by cases htask
    rcases htask with hstat | ⟨top', hvisit⟩
    · cases hstat
    · obtain ⟨rfl, -, -⟩ := Task.visit.inj hvisit
      exact absurd (Or.inr hx.at) hx.here.1
  case readDir =>
    refine h.of_task hwork _ _ (fun _ => List.mem_append_right _) (fun _ => Or.inl) (fun x path' _ htask => ?_)
      fun x q path' m htask hk hplace hx => ?_
    · rcases htask with hstat | ⟨top', hvisit⟩
      · cases hstat
      · cases hvisit
    -- An entry that is not listed was made after the watch was added, or it is lost.
    · obtain rfl := Task.read.inj htask
      obtain rfl := hk.dir_eq joins_below hd
      obtain ⟨hpath, hne⟩ := isCleanAbs_along hclean hroot hk
      by_cases hlisted : (m, true) ∈ entries
      · refine .inl (.inr ⟨false, List.mem_append_left _ (List.mem_map.mpr ⟨(m, true), hlisted, ?_⟩)⟩)
        rw [join_eq hpath hne]
      · by_cases hannounced : s.Announced x
        · exact .inr hannounced
        · exact absurd (Or.inr ⟨m, hplace, hlisted, hannounced⟩) hx.here.1
  case readNone =>
    refine h.of_task hwork _ s.lost (fun _ => id) (fun _ => id) (fun x path' _ htask => ?_)
      fun x q path' m htask hk _ _ => ?_
    · rcases htask with hstat | ⟨top', hvisit⟩
      · cases hstat
      · cases hvisit
    · obtain rfl := Task.read.inj htask
      exact absurd hk.at (hnone q)

end Changes

end Steps

/-! ### Runs -/

section Runs
variable {W} {t : Tree D Name} {s : State D} {tr : List (State D × Agent)} {d : D} {path : Bytes}

theorem inv_start : Inv W (start W t) where
  labels _ _ _ _ h := by cases h
  distinct _ _ _ h := by cases h
  root _ := .inr (.inl List.mem_cons_self)
  inside _ _ _ _ _ _ _ := .inr (.inr (.inr (.inr rfl)))

/-- When there is nothing left to do, what is kept is watched. -/
theorem Inv.watched (h : Inv W s) (hwork : s.work = []) (hqueue : s.queue = []) (hk : Kept W s d path) :
    (s.watch d).isSome := by
  have hdue : ∀ path, ¬ Due s.work path := by simp [Due, hwork]
  induction hk with
  | root hroot => exact (h.root (.root hroot)).resolve_right (hdue _)
  | @down d parent path n hparent hplace hd ih =>
    rcases h.inside d parent path n hparent hplace (.down hparent hplace hd) with hw | hd | hr | ⟨_, _, _, _, _, hmem⟩ | hno
    · exact hw
    · exact absurd hd (hdue _)
    · rw [hwork] at hr
      exact absurd hr List.not_mem_nil
    · rw [hqueue] at hmem
      exact absurd hmem List.not_mem_nil
    · rw [hno] at ih
      cases ih

theorem dispatch_file {wd : Int32} {mask : UInt32} {kind : EventKind} {n : Name} (hlabel : s.wdToDir wd = some path)
    (hdir : mask &&& IN_ISDIR = 0) (hkind : kindOf mask = some kind) (hvisible : Visible W (below path n)) :
    Inotify.dispatch (impl W) wd mask n.1 s = { s with out := s.out ++ [⟨below path n, kind⟩] } := by
  obtain ⟨hexcluded, hhidden⟩ := visible_impl hvisible
  have hlabel : (impl W).wdToDir s wd = some path := hlabel
  unfold Inotify.dispatch
  rw [hlabel]
  dsimp only
  rw [if_pos n.2.1, hexcluded, hhidden, if_neg Bool.false_ne_true, if_neg Bool.false_ne_true,
    if_neg (not_not_intro hdir), hkind]
  dsimp only
  rw [if_neg fun h => h.2 hdir]
  rfl

end Runs

/-! ### A directory that is made while its parent is read -/

/-- The watcher of `/w`. -/
def plain : Config := ⟨bytes "/w", false, []⟩

/-- There is nothing in `/w`. -/
def bare : Tree ℕ Name where
  root := 0
  place _ := none
  place_root := rfl
  apart h := by cases h

end Tilbo.Watch.Coverage
