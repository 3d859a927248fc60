import Tilbo.Lib.CleanPaths
import Tilbo.Lib.Paths
import Tilbo.Lib.Steps

/-! # The clipboard of the daemon

The daemon has one clipboard for all its clients. Copying or cutting files puts their paths on it, and a
paste transfers what is there. A drop is made of the same two requests: a `Copy` of the paths dropped and,
when the answer to it has come, a `Paste` into the directory under the pointer.

`drop_of_run` says when a drop transfers what was dropped, and leaves alone what the other requests have put
on the clipboard. -/

namespace Tilbo.Daemon.Drops

open Tilbo.Lib.CleanPaths Tilbo.Lib.Paths Tilbo.Lib.Steps

/-! ### The requests -/

/-- Why `validatePath` refuses a path. -/
inductive PathError where
  /-- "path must not be empty" -/
  | empty
  /-- "path must not contain null bytes" -/
  | nullBytes
  /-- "path must be absolute", and the path -/
  | notAbsolute (path : String)
deriving DecidableEq

def validatePath (path : String) : Except PathError String :=
  if path = "" then .error .empty
  else if '\x00' ∈ path.toList then .error .nullBytes
  else if isAbs (clean path) then .ok (clean path)
  else .error (.notAbsolute path)

structure FileInfo where
  isDir : Bool
  mode : ℕ

/-- The calls on the file system; a call that fails may still have changed the files. -/
structure Os (φ ε : Type) where
  rename (oldpath newpath : String) : ExceptT ε (StateM φ) Unit
  stat (name : String) : ExceptT ε (StateM φ) FileInfo
  mkdirAll (path : String) (mode : ℕ) : ExceptT ε (StateM φ) Unit
  readDir (name : String) : ExceptT ε (StateM φ) (List String)
  openFile (name : String) : ExceptT ε (StateM φ) Unit
  /-- Opened for writing, created if need be, and empty. -/
  create (name : String) (mode : ℕ) : ExceptT ε (StateM φ) Unit
  copy (dst src : String) : ExceptT ε (StateM φ) Unit
  nameTooLong : ε

variable {φ ε ι : Type}

/-- `copyRecursive`. A path gets longer with each directory it goes down, and `Stat` refuses one that is
longer than the kernel takes; `n` is what is left. -/
def copyRecursive (os : Os φ ε) : ℕ → String → String → ExceptT ε (StateM φ) Unit
  | 0, _, _ => throw os.nameTooLong
  | n + 1, src, dst => do
    let info ← os.stat src
    if info.isDir then
      os.mkdirAll dst info.mode
      let entries ← os.readDir src
      entries.forM fun entry => copyRecursive os n (join [src, entry]) (join [dst, entry])
    else
      os.openFile src
      os.create dst info.mode
      os.copy dst src

/-- The longest path. -/
def pathMax : ℕ := 4096

/-- One path is moved or copied to another. -/
structure Transfer where
  isMove : Bool
  src : String
  dst : String
deriving DecidableEq

def Transfer.run (os : Os φ ε) (t : Transfer) : φ → Except ε Unit × φ :=
  if t.isMove then os.rename t.src t.dst else copyRecursive os pathMax t.src t.dst

/-- Why a paste ends early: the destination was refused, or a transfer failed ("move %q to %q" or
"copy %q to %q", and the error). -/
inductive PasteError (ε : Type) where
  | destination (err : PathError)
  | transfer (t : Transfer) (err : ε)

/-- How a paste ends: the transfers that were made, whose destinations are the new paths, and the error. -/
structure Outcome (ε : Type) where
  made : List Transfer
  error : Option (PasteError ε)

def Outcome.newPaths (o : Outcome ε) : List String := o.made.map Transfer.dst

/-- `clipboardPaths` and `clipboardIsMove`. -/
structure Clipboard where
  paths : List String
  isMove : Bool
deriving DecidableEq

/-- `Copy`. -/
def copy (paths : List String) (isMove : Bool) : Except PathError Clipboard := do
  return ⟨← paths.mapM validatePath, isMove⟩

/-- What a path of the clipboard is transferred to. -/
def transfer (isMove : Bool) (cleanDest src : String) : Transfer := ⟨isMove, src, join [cleanDest, base src]⟩

/-- The loop of `Paste`. -/
def transferAll (os : Os φ ε) (isMove : Bool) (cleanDest : String) : List String → φ → Outcome ε × φ
  | [], files => (⟨[], none⟩, files)
  | src :: rest, files =>
    match (transfer isMove cleanDest src).run os files with
    | (.error err, files) => (⟨[], some (.transfer (transfer isMove cleanDest src) err)⟩, files)
    | (.ok _, files) =>
      let (o, files) := transferAll os isMove cleanDest rest files
      (⟨transfer isMove cleanDest src :: o.made, o.error⟩, files)

/-- `Paste`: how it ends, and what it leaves of the clipboard and of the files. -/
def paste (os : Os φ ε) (clipboard : Clipboard) (dest : String) (files : φ) : Outcome ε × Clipboard × φ :=
  if clipboard.paths = [] then (⟨[], none⟩, clipboard, files)
  else
    match validatePath dest with
    | .error err => (⟨[], some (.destination err)⟩, clipboard, files)
    | .ok cleanDest =>
      let (o, files) := transferAll os clipboard.isMove cleanDest clipboard.paths files
      (o, if o.error.isNone ∧ clipboard.isMove then { clipboard with paths := [] } else clipboard, files)

/-! ### Clients -/

/-- A drop: the clipboard its `Copy` made, and where its `Paste` goes. -/
structure Drop where
  own : Clipboard
  dest : String

/-- Where a drop is. -/
inductive Phase where
  | ready
  /-- Its `Copy` was answered. -/
  | copied (d : Drop)
  /-- Its `Copy` was refused. -/
  | refused
  | pasted

/-- The daemon and its clients. `user` is what the requests that belong to no drop have made of the
clipboard. -/
structure State (φ ι : Type) where
  files : φ
  clipboard : Clipboard
  user : Clipboard
  drop : ι → Phase

/-- A daemon that has just started. -/
def State.start (files : φ) : State φ ι := ⟨files, ⟨[], false⟩, ⟨[], false⟩, fun _ => .ready⟩

/-- The path in a URL that was dropped. -/
def pathOfUrl (url : String) : String :=
  if "file://".toList <+: url.toList then String.ofList (url.toList.drop 7) else url

/-- What happens next. -/
inductive Action (φ ι : Type) where
  | copy (paths : List String) (isMove : Bool)
  | paste (dest : String)
  | dropCopy (i : ι) (urls : List String) (targetPath currentPath : String) (isCopy : Bool)
  | dropPaste (i : ι)
  /-- Somebody changes the files. -/
  | files (files : φ)

/-- The first request of `handleFilesDropped`. -/
def State.dropCopy [DecidableEq ι] (s : State φ ι) (i : ι) (urls : List String) (targetPath currentPath : String)
    (isCopy : Bool) : State φ ι :=
  match copy (urls.map pathOfUrl) (!isCopy) with
  | .error _ => { s with drop := Function.update s.drop i .refused }
  | .ok own =>
    { s with
      clipboard := own
      drop := Function.update s.drop i (.copied ⟨own, if targetPath = "" then currentPath else targetPath⟩) }

/-- A request that belongs to no drop and puts paths on the clipboard. -/
def State.copy (s : State φ ι) (paths : List String) (isMove : Bool) : State φ ι :=
  match Drops.copy paths isMove with
  | .error _ => s
  | .ok clipboard => { s with clipboard := clipboard, user := clipboard }

/-- The paste moves all there is on the clipboard, and so clears it. -/
def clears (os : Os φ ε) (clipboard : Clipboard) (dest : String) (files : φ) : Bool :=
  clipboard.isMove && clipboard.paths ≠ [] &&
    match validatePath dest with
    | .error _ => false
    | .ok cleanDest => (transferAll os true cleanDest clipboard.paths files).1.error.isNone

/-- A paste that belongs to no drop. -/
def State.paste (os : Os φ ε) (s : State φ ι) (dest : String) : State φ ι :=
  let (_, clipboard, files) := Drops.paste os s.clipboard dest s.files
  { s with
    clipboard := clipboard
    files := files
    user := if clears os s.clipboard dest s.files then { s.user with paths := [] } else s.user }

/-- The second request of a drop. -/
def State.dropPaste [DecidableEq ι] (os : Os φ ε) (s : State φ ι) (i : ι) (d : Drop) : State φ ι :=
  let (_, clipboard, files) := Drops.paste os s.clipboard d.dest s.files
  { s with clipboard := clipboard, files := files, drop := Function.update s.drop i .pasted }

/-- Each request is handled at once. -/
inductive Step [DecidableEq ι] (os : Os φ ε) : State φ ι → Action φ ι → State φ ι → Prop
  | copy {s : State φ ι} {paths : List String} {isMove : Bool} :
      Step os s (.copy paths isMove) (s.copy paths isMove)
  | paste {s : State φ ι} {dest : String} : Step os s (.paste dest) (s.paste os dest)
  | dropCopy {s : State φ ι} {i : ι} {urls : List String} {targetPath currentPath : String} {isCopy : Bool}
      (h : s.drop i = .ready) :
      Step os s (.dropCopy i urls targetPath currentPath isCopy) (s.dropCopy i urls targetPath currentPath isCopy)
  | dropPaste {s : State φ ι} {i : ι} {d : Drop} (h : s.drop i = .copied d) :
      Step os s (.dropPaste i) (s.dropPaste os i d)
  | files {s : State φ ι} {files : φ} : Step os s (.files files) { s with files := files }

/-! ### What is to be shown -/

/-- The transfers that a paste tried: those it made, and the one that failed. -/
def Outcome.tried (o : Outcome ε) : List Transfer :=
  o.made ++ match o.error with
    | some (.transfer t _) => [t]
    | _ => []

/-- What a drop is to transfer. -/
def Drop.transfers (d : Drop) : List Transfer :=
  match validatePath d.dest with
  | .error _ => []
  | .ok cleanDest => d.own.paths.map (transfer d.own.isMove cleanDest)

/-- The `Paste` of the drop transfers exactly the paths of the drop, in its mode (up to a failure, if there
is one, which it reports), and leaves on the clipboard what the user has put there. -/
structure Drop.Right (os : Os φ ε) (d : Drop) (s : State φ ι) : Prop where
  transfers : (Drops.paste os s.clipboard d.dest s.files).1.tried <+: d.transfers
  all : (Drops.paste os s.clipboard d.dest s.files).1.error = none →
    (Drops.paste os s.clipboard d.dest s.files).1.made = d.transfers
  clipboard : (Drops.paste os s.clipboard d.dest s.files).2.1 = s.user

/-- Between the two requests of drop `i` no other request changes the clipboard, and when the second one
comes, the user's clipboard is what the drop leaves: its own paths in its own mode, or nothing more to move if
it moves them all. -/
def Undisturbed [DecidableEq ι] (os : Os φ ε) (i : ι) (s : State φ ι) : Action φ ι → Prop
  | .copy paths isMove =>
    ∀ d, s.drop i = .copied d → ∀ clipboard, copy paths isMove = .ok clipboard → clipboard = d.own
  | .paste dest => ∀ d, s.drop i = .copied d → ¬ clears os d.own dest s.files
  | .dropCopy _ urls _ _ isCopy =>
    ∀ d, s.drop i = .copied d → ∀ own, copy (urls.map pathOfUrl) (!isCopy) = .ok own → own = d.own
  | .dropPaste j =>
    ∀ d, s.drop i = .copied d →
      if j = i then s.user = if clears os d.own d.dest s.files then { d.own with paths := [] } else d.own
      else ∀ d', s.drop j = .copied d' → ¬ clears os d.own d'.dest s.files
  | .files _ => True

/-! ### One paste -/

variable {os : Os φ ε} {s t : State φ ι} {a : Action φ ι} {i : ι} {d : Drop} {tr : List (State φ ι × Action φ ι)}

theorem transferAll_tried (os : Os φ ε) (isMove : Bool) (cleanDest : String) (paths : List String) (files : φ) :
    (transferAll os isMove cleanDest paths files).1.tried <+: paths.map (transfer isMove cleanDest) := by
  induction paths generalizing files with
  | nil => exact List.prefix_rfl
  | cons src rest ih =>
    unfold transferAll
    split
    · exact List.prefix_append [transfer isMove cleanDest src] _
    · exact (List.prefix_cons_inj _).mpr (ih _)

theorem transferAll_made (os : Os φ ε) (isMove : Bool) (cleanDest : String) (paths : List String) (files : φ)
    (h : (transferAll os isMove cleanDest paths files).1.error = none) :
    (transferAll os isMove cleanDest paths files).1.made = paths.map (transfer isMove cleanDest) := by
  induction paths generalizing files with
  | nil => rfl
  | cons src rest ih =>
    unfold transferAll at h ⊢
    split at h
    · cases h
    · exact congrArg _ (ih _ h)

/-- What a paste leaves of the clipboard. -/
theorem paste_clipboard (os : Os φ ε) (clipboard : Clipboard) (dest : String) (files : φ) :
    (paste os clipboard dest files).2.1 =
      if clears os clipboard dest files then { clipboard with paths := [] } else clipboard := by
  unfold paste clears
  by_cases hnil : clipboard.paths = []
  · simp [hnil]
  · cases validatePath dest with
    | error err => simp [hnil]
    | ok cleanDest =>
      cases hmove : clipboard.isMove with
      | false => simp [hnil]
      | true => simp [hnil]

/-- A paste of the drop's own clipboard. -/
theorem right_of_own (hown : s.clipboard = d.own)
    (huser : s.user = if clears os d.own d.dest s.files then { d.own with paths := [] } else d.own) :
    d.Right os s := by
  refine ⟨?_, fun h => ?_, ?_⟩
  · rw [hown]
    unfold Drops.paste Drop.transfers
    split
    · next hnil =>
      exact List.nil_prefix
    · split
      · exact List.nil_prefix
      · exact transferAll_tried os _ _ _ _
  · rw [hown] at h ⊢
    unfold Drops.paste Drop.transfers at *
    split at h
    · next hnil =>
      rw [if_pos hnil, hnil]
      split <;> rfl
    · next hnil =>
      rw [if_neg hnil]
      split at h
      · cases h
      · exact transferAll_made os _ _ _ _ h
  · rw [paste_clipboard, hown, huser]

/-! ### Runs -/

/-- A drop that waits finds its own paths on the clipboard. -/
def Own (i : ι) (s : State φ ι) : Prop := ∀ d, s.drop i = .copied d → s.clipboard = d.own

theorem own_step [DecidableEq ι] (hown : Own i s) (ha : Undisturbed os i s a) (h : Step os s a t) : Own i t := by
  intro d hd
  cases h with
  | @copy paths isMove =>
    unfold State.copy at hd ⊢
    split
    · next herr =>
      rw [herr] at hd
      exact hown d hd
    · next clipboard hok =>
      rw [hok] at hd
      exact ha d hd clipboard hok
  | @paste dest =>
    have hclip : s.clipboard = d.own := hown d hd
    have hkeeps : ¬ clears os s.clipboard dest s.files := hclip ▸ ha d hd
    show (Drops.paste os s.clipboard dest s.files).2.1 = d.own
    rw [paste_clipboard, if_neg hkeeps, hclip]
  | @dropCopy j urls targetPath currentPath isCopy hj =>
    unfold State.dropCopy at hd ⊢
    split
    · next herr =>
      simp only [herr, Function.update_apply] at hd
      split at hd
      · cases hd
      · exact hown d hd
    · next own hok =>
      simp only [hok, Function.update_apply] at hd
      split at hd
      · cases hd
        rfl
      · exact ha d hd own hok
  | @dropPaste j d' hj =>
    simp only [State.dropPaste, Function.update_apply] at hd
    split at hd
    · cases hd
    · next hne =>
      have hclip : s.clipboard = d.own := hown d hd
      have hkeeps := ha d hd
      rw [if_neg (Ne.symm hne)] at hkeeps
      show (Drops.paste os s.clipboard d'.dest s.files).2.1 = d.own
      rw [paste_clipboard, hclip, if_neg (hkeeps d' hj)]
  | files => exact hown d hd

/-- **A drop moves what was dropped.** In every run in which no other request changes the clipboard between
the two requests of a drop, and the user's clipboard is what the drop leaves, the `Paste` of the drop
transfers exactly its paths in its mode, and leaves the user's clipboard as it is. -/
theorem drop_of_run [DecidableEq ι] {files : φ} (hrun : Runs (Step os) (State.start files) tr t)
    (hmeets : Meets (Undisturbed os i) tr) :
    ∀ s, (s, .dropPaste i) ∈ tr → ∀ d, s.drop i = .copied d → d.Right os s := by
  intro s he d hd
  have hown : Own i s := by
    refine (hrun.step_from (I := Own i) (fun tr' t' hpre hrun' => ?_) he).1
    exact hrun'.invariant (Own i) (fun e he => hmeets e (hpre.subset he)) nofun
      fun _ _ _ hown ha h => own_step hown ha h
  have huser := hmeets _ he d hd
  rw [if_pos rfl] at huser
  exact right_of_own (hown d hd) huser

/-! ### A cut between the two requests -/

/-- A file system of plain files. -/
def plainFiles : Os (List String) String where
  rename oldpath newpath := do
    if oldpath ∈ (← get) then modify fun files => newpath :: (files.erase oldpath).erase newpath
    else throw "no such file or directory"
  stat name := do if name ∈ (← get) then return ⟨false, 0o644⟩ else throw "no such file or directory"
  mkdirAll _ _ := throw "not a directory"
  readDir _ := throw "not a directory"
  openFile name := do unless name ∈ (← get) do throw "no such file or directory"
  create name _ := modify fun files => name :: files.erase name
  copy _ _ := pure ()
  nameTooLong := "file name too long"

/-- The files `/a` and `/u`, with `/a` dropped on `/d`. -/
def dropped (isCopy : Bool) : State (List String) Unit :=
  (State.start ["/a", "/u"]).dropCopy () ["file:///a"] "/d" "" isCopy

/-- The user has cut `/u` and pasted it, and then drops `/a`. -/
def pasted : State (List String) Unit := ((State.start ["/a", "/u"]).copy ["/u"] true).paste plainFiles "/d"

def pastedThenDropped : List (State (List String) Unit × Action (List String) Unit) :=
  [(.start ["/a", "/u"], .copy ["/u"] true), ((State.start ["/a", "/u"]).copy ["/u"] true, .paste "/d"),
    (pasted, .dropCopy () ["file:///a"] "/d" "" false),
    (pasted.dropCopy () ["file:///a"] "/d" "" false, .dropPaste ())]

theorem drop_of_run_pasted :
    Drop.Right plainFiles ⟨⟨["/a"], true⟩, "/d"⟩ (pasted.dropCopy () ["file:///a"] "/d" "" false) := by
  have hruns : Runs (Step plainFiles) (State.start ["/a", "/u"]) pastedThenDropped
      ((pasted.dropCopy () ["file:///a"] "/d" "" false).dropPaste plainFiles () ⟨⟨["/a"], true⟩, "/d"⟩) :=
    .snoc (.snoc (.snoc (.snoc .nil .copy) .paste) (.dropCopy rfl)) (.dropPaste rfl)
  have hmeets : Meets (Undisturbed plainFiles ()) pastedThenDropped := by
    intro e he
    simp only [pastedThenDropped, List.mem_cons, List.not_mem_nil, or_false] at he
    obtain rfl | rfl | rfl | rfl := he
    · intro d hd
      cases hd
    · intro d hd
      cases hd
    · intro d hd
      cases hd
    · intro d hd
      cases hd
      rw [if_pos rfl]
      rfl
  exact drop_of_run hruns hmeets _ (by simp [pastedThenDropped]) _ rfl

/-- The user cuts `/u` between the two requests of the drop: the drop moves `/u`. -/
theorem drop_moves_cut :
    Runs (Step plainFiles) (State.start ["/a", "/u"])
        [(.start ["/a", "/u"], .dropCopy () ["file:///a"] "/d" "" true), (dropped true, .copy ["/u"] true),
          ((dropped true).copy ["/u"] true, .dropPaste ())]
        (((dropped true).copy ["/u"] true).dropPaste plainFiles () ⟨⟨["/a"], false⟩, "/d"⟩) ∧
      (((dropped true).copy ["/u"] true).dropPaste plainFiles () ⟨⟨["/a"], false⟩, "/d"⟩).files = ["/d/u", "/a"] ∧
      ¬ Drop.Right plainFiles ⟨⟨["/a"], false⟩, "/d"⟩ ((dropped true).copy ["/u"] true) := by
  refine ⟨.snoc (.snoc (.snoc .nil (.dropCopy rfl)) .copy) (.dropPaste rfl), ?_, fun h => ?_⟩
  · decide
  · exact absurd h.clipboard (by decide)

end Tilbo.Daemon.Drops
