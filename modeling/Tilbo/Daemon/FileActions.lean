import Tilbo.Daemon.Drops

/-! # Actions of extensions

The context menu of a file lists the actions that the extensions offer for it. When one is picked, the extensions are
asked again, always as for a file that is no directory, and the first action with the identifier runs. `picked_iff`
says when that is the action that was picked. -/

namespace Tilbo.Daemon.FileActions

open Tilbo.Daemon.Drops

/-! ### The registry -/

/-- `ExtAction`. -/
structure ExtAction where
  id : String
  label : String
  command : List String
deriving DecidableEq

/-- An extension: its hooks, and what it answers for a path that is a directory or not. -/
structure Extension (ε : Type) where
  hooks : List String
  actionsFor : String → Bool → Except ε (List ExtAction)

variable {ε : Type}

/-- What one extension adds, hook by hook: an error leaves the hook out, an answer ends the loop. -/
def Extension.add (ext : Extension ε) (path : String) (isDir : Bool) : List String → List ExtAction
  | [] => []
  | h :: hooks =>
    if h = "menu_action" then
      match ext.actionsFor path isDir with
      | .error _ => ext.add path isDir hooks
      | .ok actions => actions
    else ext.add path isDir hooks

/-- `ActionsFor`. -/
def actionsFor (extensions : List (Extension ε)) (path : String) (isDir : Bool) : List ExtAction :=
  extensions.flatMap fun ext => ext.add path isDir ext.hooks

/-- `strings.ReplaceAll(arg, "{path}", path)`. -/
def replacePath (path : List Char) : List Char → List Char
  | '\x7b' :: 'p' :: 'a' :: 't' :: 'h' :: '\x7d' :: rest => path ++ replacePath path rest
  | c :: rest => c :: replacePath path rest
  | [] => []

/-- The arguments of a command. -/
def args (command : List String) (path : String) : List String :=
  command.map fun arg => String.ofList (replacePath path.toList arg.toList)

/-- What a request to run an action does. -/
inductive Ran (ε : Type) where
  | nothing
  | started (args : List String)
  | failed (err : ε)
deriving DecidableEq

/-- `runActionCommand`; `start` says why a command cannot be started. -/
def runActionCommand (start : List String → Option ε) (command : List String) (path : String) : Ran ε :=
  if command = [] then .nothing
  else
    match start (args command path) with
    | some err => .failed err
    | none => .started (args command path)

/-- `RunAction`. -/
def runAction (start : List String → Option ε) (extensions : List (Extension ε)) (path actionID : String) : Ran ε :=
  match (actionsFor extensions path false).find? (·.id = actionID) with
  | some a => runActionCommand start a.command path
  | none => .nothing

/-! ### The requests -/

/-- An entry of the menu. -/
structure FileAction where
  id : String
  label : String
deriving DecidableEq

/-- `GetFileActions`; there may be no registry. -/
def getFileActions (extRegistry : Option (List (Extension ε))) (isDir : String → Bool) (path : String) :
    Except PathError (List FileAction) := do
  let clean ← validatePath path
  match extRegistry with
  | none => return []
  | some extensions => return (actionsFor extensions clean (isDir clean)).map fun a => ⟨a.id, a.label⟩

/-- `RunFileAction`. -/
def runFileAction (start : List String → Option ε) (extRegistry : Option (List (Extension ε)))
    (path actionID : String) :
    Except PathError (Ran ε) := do
  let clean ← validatePath path
  match extRegistry with
  | none => return .nothing
  | some extensions => return runAction start extensions clean actionID

/-! ### What is to be shown -/

/-- The actions behind the entries of a menu, with the cleaned path. -/
def offered (extRegistry : Option (List (Extension ε))) (isDir : String → Bool) (path : String) :
    List (String × ExtAction) :=
  match validatePath path, extRegistry with
  | .ok clean, some extensions => (actionsFor extensions clean (isDir clean)).map fun a => (clean, a)
  | _, _ => []

/-- Running the entry of an action runs its command, or reports an error. -/
def Right (start : List String → Option ε) (extRegistry : Option (List (Extension ε))) (path : String)
    (entry : String × ExtAction) : Prop :=
  runFileAction start extRegistry path entry.2.id = .ok (runActionCommand start entry.2.command entry.1) ∨
    ∃ err, runFileAction start extRegistry path entry.2.id = .ok (.failed err)

/-- The first action with the identifier that the extensions offer for a file of that path has the same arguments, or
cannot be started; or there is none, and no command either. -/
def First (start : List String → Option ε) (extRegistry : Option (List (Extension ε)))
    (entry : String × ExtAction) : Prop :=
  match (actionsFor (extRegistry.getD []) entry.1 false).find? (·.id = entry.2.id) with
  | some a => args a.command entry.1 = args entry.2.command entry.1 ∨
      (a.command ≠ [] ∧ (start (args a.command entry.1)).isSome)
  | none => entry.2.command = []

variable {start : List String → Option ε} {extRegistry : Option (List (Extension ε))} {isDir : String → Bool}
  {path : String} {entry : String × ExtAction} {command command' : List String}

/-- The entries of a menu are those of the actions. -/
theorem getFileActions_eq {entries : List FileAction} (h : getFileActions extRegistry isDir path = .ok entries) :
    entries = (offered extRegistry isDir path).map fun e => ⟨e.2.id, e.2.label⟩ := by
  unfold getFileActions at h
  unfold offered
  cases hpath : validatePath path with
  | error err =>
    rw [hpath] at h
    cases h
  | ok clean =>
    rw [hpath] at h
    cases extRegistry with
    | none =>
      cases h
      rfl
    | some extensions =>
      cases h
      simp

/-! ### One entry -/

theorem args_eq_nil_iff : args command path = [] ↔ command = [] := by simp [args]

/-- Two commands do the same, or the first one fails, exactly if they have the same arguments or it cannot be
started. -/
theorem runActionCommand_iff :
    (runActionCommand start command path = runActionCommand start command' path ∨
        ∃ err, runActionCommand start command path = .failed err) ↔
      args command path = args command' path ∨ (command ≠ [] ∧ (start (args command path)).isSome) := by
  unfold runActionCommand
  by_cases hnil : command = []
  · subst hnil
    rw [if_pos rfl]
    by_cases hnil' : command' = []
    · simp [hnil']
    · rw [if_neg hnil']
      have hargs : ¬ args [] path = args command' path := fun h => hnil' (args_eq_nil_iff.mp h.symm)
      cases start (args command' path) <;> simp [hargs]
  · rw [if_neg hnil]
    cases hstart : start (args command path) with
    | some err => simp [hnil]
    | none =>
      by_cases hargs : args command path = args command' path
      · have hnil' : command' ≠ [] := fun h => hnil (args_eq_nil_iff.mp (hargs.trans (args_eq_nil_iff.mpr h)))
        rw [if_neg hnil', ← hargs, hstart]
        simp
      · split_ifs with hnil'
        · simp [hargs]
        · cases start (args command' path) <;> simp [hargs]

/-- **The action that is picked.** Every entry of the menu runs its own command exactly if for each of them the first
action with its identifier, as offered for a file that is no directory, has the same arguments or cannot be started. -/
theorem picked_iff (start : List String → Option ε) (extRegistry : Option (List (Extension ε))) (isDir : String → Bool)
    (path : String) :
    (∀ entry ∈ offered extRegistry isDir path, Right start extRegistry path entry) ↔
      ∀ entry ∈ offered extRegistry isDir path, First start extRegistry entry := by
  refine forall₂_congr fun entry hentry => ?_
  unfold offered at hentry
  split at hentry
  · rename_i clean extensions hpath
    obtain ⟨a, -, rfl⟩ := List.mem_map.mp hentry
    have hrun : runFileAction start (some extensions) path a.id = .ok (runAction start extensions clean a.id) := by
      unfold runFileAction
      rw [hpath]
      rfl
    unfold Right First
    rw [hrun]
    simp only [Option.getD_some, Except.ok.injEq]
    unfold runAction
    cases hfound : (actionsFor extensions clean false).find? (·.id = a.id) with
    | none =>
      -- nothing runs
      unfold runActionCommand
      split_ifs with hnil
      · simp [hnil]
      · cases start (args a.command clean) <;> simp [hnil]
    | some b => exact runActionCommand_iff
  · cases hentry

/-! ### Two extensions with one identifier -/

/-- Both offer to open a file; the second one also opens directories. -/
def openers : List (Extension String) :=
  [⟨["menu_action"], fun _ isDir =>
    if isDir then .error "not a file" else .ok [⟨"open", "View", ["view", "\x7bpath\x7d"]⟩]⟩,
    ⟨["badge", "menu_action"], fun _ _ => .ok [⟨"open", "Browse", ["browse", "\x7bpath\x7d"]⟩]⟩]

/-- The menu of the directory `/d` has the entry of the second extension, and the command of the first one runs. -/
theorem other_action_runs :
    getFileActions (some openers) (fun _ => true) "/d" = .ok [⟨"open", "Browse"⟩] ∧
      runFileAction (fun _ => none) (some openers) "/d" "open" = .ok (.started ["view", "/d"]) ∧
      ¬ ∀ entry ∈ offered (some openers) (fun _ => true) "/d", Right (fun _ => none) (some openers) "/d" entry := by
  have hrun : runFileAction (fun _ => none) (some openers) "/d" "open" = .ok (.started ["view", "/d"]) := by decide
  refine ⟨by decide, hrun, fun h => ?_⟩
  rcases h ("/d", ⟨"open", "Browse", ["browse", "\x7bpath\x7d"]⟩) (by decide) with hsame | ⟨err, herr⟩
  · exact absurd hsame (by decide)
  · rw [hrun] at herr
    cases herr

end Tilbo.Daemon.FileActions
