import Tilbo.Lib.CleanPaths

/-! # Walks through a directory tree

A walk calls a function on a path, on what is below it if it is a directory, and so on. The function is told whether
the path is a directory and whether reading that directory went wrong; it may go on, skip the directory or stop.

`walkDir` threads a state through the calls. If what the function answers does not depend on the state, the walk is the
list of its `calls`, and a walk that was not stopped has called the function on exactly what it can get to. -/

namespace Tilbo.Lib.DirWalks

open Tilbo.Lib.CleanPaths

variable {σ : Type}

/-- The name of an entry. -/
abbrev Name := {e : Element // IsElement e}

/-- What there is. A directory has entries that a walk is told of when it reads the directory, and those that it misses
because the reading goes wrong; what is not a directory is a file. -/
inductive Entry where
  | file (name : Name)
  | dir (name : Name) (listed missed : List Entry)

/-- The name of an entry. -/
def Entry.element : Entry → Element
  | file n | dir n _ _ => n.1

theorem Entry.isElement : ∀ e : Entry, IsElement e.element
  | file n => n.2
  | dir n _ _ => n.2

/-- The name as it is joined to the path of its directory. -/
def Entry.name (e : Entry) : String := String.ofList e.element

/-- Why the function does not go on: the directory is skipped, or the walk is stopped. -/
inductive Stop where
  | skipDir
  | error
deriving DecidableEq

/-- A call of the function. -/
structure Visit where
  path : String
  isDir : Bool
  /-- The directory could not be read. -/
  failed : Bool
deriving DecidableEq

/-- The function that is called. -/
abbrev Fn (σ : Type) := Visit → σ → Option Stop × σ

mutual

/-- The walk from an entry on. -/
def walkDir (fn : Fn σ) (path : String) : Entry → σ → Option Stop × σ
  | .file _, s => fn ⟨path, false, false⟩ s
  | .dir _ listed missed, s =>
    match fn ⟨path, true, false⟩ s with
    | (some .skipDir, s) => (none, s)
    | (some .error, s) => (some .error, s)
    | (none, s) =>
      -- A second call reports that the directory could not be read; the walk goes on with what was read.
      match if missed.isEmpty then (none, s) else fn ⟨path, true, true⟩ s with
      | (some .skipDir, s) => (none, s)
      | (some .error, s) => (some .error, s)
      | (none, s) => walkAll fn path listed s

/-- The walk through the entries of a directory. -/
def walkAll (fn : Fn σ) (path : String) : List Entry → σ → Option Stop × σ
  | [], s => (none, s)
  | e :: es, s =>
    match walkDir fn (join [path, e.name]) e s with
    | (none, s) => walkAll fn path es s
    -- The rest of the directory is skipped.
    | (some .skipDir, s) => (none, s)
    | (some .error, s) => (some .error, s)

end

/-! ### The calls -/

mutual

/-- The calls that are made, and how the walk ends, for a function that answers `answer`. -/
def calls (answer : Visit → Option Stop) (path : String) : Entry → Option Stop × List Visit
  | .file _ => (answer ⟨path, false, false⟩, [⟨path, false, false⟩])
  | .dir _ listed missed =>
    match answer ⟨path, true, false⟩ with
    | some .skipDir => (none, [⟨path, true, false⟩])
    | some .error => (some .error, [⟨path, true, false⟩])
    | none =>
      if missed.isEmpty then
        ((callsAll answer path listed).1, ⟨path, true, false⟩ :: (callsAll answer path listed).2)
      else
        match answer ⟨path, true, true⟩ with
        | some .skipDir => (none, [⟨path, true, false⟩, ⟨path, true, true⟩])
        | some .error => (some .error, [⟨path, true, false⟩, ⟨path, true, true⟩])
        | none => ((callsAll answer path listed).1,
            ⟨path, true, false⟩ :: ⟨path, true, true⟩ :: (callsAll answer path listed).2)

/-- The calls for the entries of a directory. -/
def callsAll (answer : Visit → Option Stop) (path : String) : List Entry → Option Stop × List Visit
  | [] => (none, [])
  | e :: es =>
    match (calls answer (join [path, e.name]) e).1 with
    | none => ((callsAll answer path es).1, (calls answer (join [path, e.name]) e).2 ++ (callsAll answer path es).2)
    | some .skipDir => (none, (calls answer (join [path, e.name]) e).2)
    | some .error => (some .error, (calls answer (join [path, e.name]) e).2)

end

section Calls
variable {answer : Visit → Option Stop} {act : Visit → σ → σ}

mutual

theorem walkDir_eq (path : String) : ∀ (e : Entry) (s : σ), walkDir (fun c s => (answer c, act c s)) path e s =
    ((calls answer path e).1, (calls answer path e).2.foldl (fun s c => act c s) s)
  | .file _, s => rfl
  | .dir _ listed missed, s => by
    rw [walkDir, calls]
    cases answer ⟨path, true, false⟩ with
    | some stop => cases stop <;> rfl
    | none =>
      dsimp only
      split_ifs
      · exact walkAll_eq path listed _
      · cases answer ⟨path, true, true⟩ with
        | some stop => cases stop <;> rfl
        | none => exact walkAll_eq path listed _

theorem walkAll_eq (path : String) : ∀ (es : List Entry) (s : σ), walkAll (fun c s => (answer c, act c s)) path es s =
    ((callsAll answer path es).1, (callsAll answer path es).2.foldl (fun s c => act c s) s)
  | [], s => rfl
  | e :: es, s => by
    rw [walkAll, callsAll, walkDir_eq _ e s]
    cases (calls answer (join [path, e.name]) e).1 with
    | some stop => cases stop <;> rfl
    | none =>
      dsimp only
      rw [walkAll_eq path es, List.foldl_append]

end

end Calls

/-! ### What the walk gets to -/

/-- The walk goes into the directory. -/
def Enters (answer : Visit → Option Stop) (path : String) (missed : List Entry) : Prop :=
  answer ⟨path, true, false⟩ = none ∧ (missed ≠ [] → answer ⟨path, true, true⟩ = none)

/-- The walk from an entry gets to another one. -/
inductive Reaches (answer : Visit → Option Stop) : String → Entry → String → Entry → Prop
  | here (path : String) (e : Entry) : Reaches answer path e path e
  | down {path path' : String} {n : Name} {listed missed : List Entry} {e e' : Entry}
      (henters : Enters answer path missed) (he : e ∈ listed) (h : Reaches answer (join [path, e.name]) e path' e') :
      Reaches answer path (.dir n listed missed) path' e'

section Reaches
variable {answer : Visit → Option Stop} {path p : String} {n : Name} {listed missed : List Entry}

theorem reaches_file : (∃ n', Reaches answer path (.file n) p (.file n')) ↔ p = path := by
  constructor
  · rintro ⟨n', h⟩
    cases h
    rfl
  · rintro rfl
    exact ⟨n, .here p _⟩

theorem reaches_dir : (∃ n', Reaches answer path (.dir n listed missed) p (.file n')) ↔
    Enters answer path missed ∧ ∃ e ∈ listed, ∃ n', Reaches answer (join [path, e.name]) e p (.file n') := by
  constructor
  · rintro ⟨n', h⟩
    cases h with
    | down henters he h => exact ⟨henters, _, he, n', h⟩
  · rintro ⟨henters, e, he, n', h⟩
    exact ⟨n', .down henters he h⟩

/-- A directory is never skipped as a whole. -/
theorem calls_ne_skipDir (hfile : ∀ v, v.isDir = false → answer v ≠ some .skipDir) (e : Entry) :
    (calls answer path e).1 ≠ some .skipDir ∧ ∀ es, (callsAll answer path es).1 ≠ some .skipDir := by
  have hall : ∀ (path : String) (es : List Entry), (callsAll answer path es).1 ≠ some .skipDir := by
    intro path es
    induction es with
    | nil => simp [callsAll]
    | cons e es ih =>
      rw [callsAll]
      cases (calls answer (join [path, e.name]) e).1 with
      | none => exact ih
      | some stop => cases stop <;> simp
  refine ⟨?_, hall path⟩
  cases e with
  | file n => exact hfile _ rfl
  | dir n listed missed =>
    rw [calls]
    cases answer ⟨path, true, false⟩ with
    | some stop => cases stop <;> simp
    | none =>
      dsimp only
      split_ifs
      · exact hall path listed
      · cases answer ⟨path, true, true⟩ with
        | some stop => cases stop <;> simp
        | none => exact hall path listed

mutual

/-- A walk whose function never answers with an error is not stopped. -/
theorem calls_end (hfile : ∀ v, v.isDir = false → answer v = none) (hdir : ∀ v, answer v ≠ some .error)
    (path : String) : ∀ e : Entry, (calls answer path e).1 = none
  | .file n => hfile _ rfl
  | .dir n listed missed => by
    rw [calls]
    cases hanswer : answer ⟨path, true, false⟩ with
    | some stop =>
      cases stop with
      | skipDir => rfl
      | error => exact absurd hanswer (hdir _)
    | none =>
      dsimp only
      split_ifs
      · exact callsAll_end hfile hdir path listed
      · cases hagain : answer ⟨path, true, true⟩ with
        | some stop =>
          cases stop with
          | skipDir => rfl
          | error => exact absurd hagain (hdir _)
        | none => exact callsAll_end hfile hdir path listed

theorem callsAll_end (hfile : ∀ v, v.isDir = false → answer v = none) (hdir : ∀ v, answer v ≠ some .error)
    (path : String) : ∀ es : List Entry, (callsAll answer path es).1 = none
  | [] => rfl
  | e :: es => by
    rw [callsAll, calls_end hfile hdir _ e]
    exact callsAll_end hfile hdir path es

end

mutual

/-- **A walk that was not stopped** has called the function on the files that it can get to. -/
theorem mem_calls (hfile : ∀ v, v.isDir = false → answer v ≠ some .skipDir) (p : String) (path : String) :
    ∀ e : Entry, (calls answer path e).1 = none →
      (⟨p, false, false⟩ ∈ (calls answer path e).2 ↔ ∃ n, Reaches answer path e p (.file n))
  | .file n, _ => by
    rw [reaches_file]
    simp [calls]
  | .dir n listed missed, hend => by
    rw [reaches_dir]
    unfold Enters
    rw [calls] at hend ⊢
    cases hanswer : answer ⟨path, true, false⟩ with
    | some stop =>
      rw [hanswer] at hend
      cases stop with
      | skipDir => simp
      | error => cases hend
    | none =>
      rw [hanswer] at hend
      dsimp only at hend ⊢
      by_cases hmissed : missed = []
      · subst hmissed
        rw [if_pos List.isEmpty_nil] at hend ⊢
        simpa using mem_callsAll hfile p path listed hend
      · rw [if_neg (by simpa using hmissed)] at hend ⊢
        cases hagain : answer ⟨path, true, true⟩ with
        | some stop =>
          rw [hagain] at hend
          cases stop with
          | skipDir => simp [hmissed]
          | error => cases hend
        | none =>
          rw [hagain] at hend
          simpa using mem_callsAll hfile p path listed hend

theorem mem_callsAll (hfile : ∀ v, v.isDir = false → answer v ≠ some .skipDir) (p : String) (path : String) :
    ∀ es : List Entry, (callsAll answer path es).1 = none →
      (⟨p, false, false⟩ ∈ (callsAll answer path es).2 ↔
        ∃ e ∈ es, ∃ n, Reaches answer (join [path, e.name]) e p (.file n))
  | [], _ => by simp [callsAll]
  | e :: es, hend => by
    rw [callsAll] at hend ⊢
    cases hstop : (calls answer (join [path, e.name]) e).1 with
    | some stop =>
      cases stop with
      | skipDir => exact absurd hstop (calls_ne_skipDir hfile e).1
      | error =>
        rw [hstop] at hend
        cases hend
    | none =>
      rw [hstop] at hend
      dsimp only at hend ⊢
      rw [List.mem_append, mem_calls hfile p _ e hstop, mem_callsAll hfile p path es hend, List.exists_mem_cons_iff]

end

end Reaches

end Tilbo.Lib.DirWalks
