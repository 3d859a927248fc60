import Tilbo.Lib.Paths
import Tilbo.Lib.Steps

/-! # Moving files to the trash

`MoveToTrash` looks for a name that no file of the trash has, writes a `.trashinfo` under it, and renames the
file. Any number of calls do so at the same time, on one trash.

`kept_of_run` says that nothing is lost, neither what is trashed nor what was in the trash, if each
`.trashinfo` is written and each file is renamed to a name that is not taken at that moment. -/

namespace Tilbo.Trash.MoveToTrash

open Tilbo.Lib.Paths Tilbo.Lib.Steps

/-! ### Names and contents -/

/-- The names that are tried, one after the other. -/
def trashName (base : String) (k : ℕ) : String :=
  if k = 0 then base else trimSuffix base (ext base) ++ "_" ++ toString k ++ ext base

def hexDigit (n : UInt8) : Char := "0123456789ABCDEF".toList.getD n.toNat '0'

/-- What a byte of a path element looks like in a URL. -/
def escapeByte (b : UInt8) : List Char :=
  let c := Char.ofNat b.toNat
  if b < 128 ∧ (c.isAlphanum ∨ c ∈ ['-', '_', '.', '~', '$', '&', '+', ':', '=', '@']) then [c]
  else ['%', hexDigit (b / 16), hexDigit (b % 16)]

/-- `url.PathEscape`. -/
def pathEscape (s : String) : String := String.ofList (s.toUTF8.toList.flatMap escapeByte)

/-- The content of a `.trashinfo`. -/
def infoContent (absPath date : String) : String :=
  "[Trash Info]\nPath=" ++ pathEscape absPath ++ "\nDeletionDate=" ++ date ++ "\n"

/-! ### The trash -/

variable {κ ι : Type}

/-- An entry of the directory `files`: a file or directory with its content, or a link. -/
inductive Entry (κ : Type) where
  | real (content : κ)
  | link (target : String)
deriving DecidableEq

/-- An entry of the directory `info`, under its name without `.trashinfo`. -/
inductive Info where
  | text (t : String)
  /-- A text that a call which failed has left behind. -/
  | leftover (t : String)
  | link (target : String)
  | dir
deriving DecidableEq

/-- Where a call is. -/
inductive Phase (κ : Type) where
  | ready
  /-- About to look whether its `k`-th name is taken. -/
  | looking (k : ℕ)
  /-- The name was not taken. -/
  | found (name : String)
  /-- The `.trashinfo` is written. -/
  | written (name : String)
  /-- The rename has failed. -/
  | renameFailed (name : String)
  /-- The call has succeeded, and moved this entry. -/
  | done (name : String) (e : Entry κ)
  | failed

/-- The trash and the calls, with what lies at the path of each. What a call has taken out of the trash,
because its path lies there, is marked as moved. -/
structure State (κ ι : Type) where
  source : ι → Option (Entry κ)
  files : String → Option (Entry κ)
  info : String → Option Info
  call : ι → Phase κ
  movedFiles : String → Prop
  movedInfo : String → Prop

/-- The trash before the calls. -/
def State.start (source : ι → Option (Entry κ)) (files : String → Option (Entry κ)) (info : String → Option Info) :
    State κ ι where
  source := source
  files := files
  info := info
  call _ := .ready
  movedFiles _ := False
  movedInfo _ := False

/-- The calls: the path of each, and the entries of the trash that lie at, above or below it. -/
structure Calls (ι : Type) where
  absPath : ι → String
  filesIn : ι → String → Prop
  infoIn : ι → String → Prop

/-- `os.Stat` can report that there is nothing: there is nothing, or a dangling link. -/
def MayBeFree : Option (Entry κ) → Prop
  | none => True
  | some (.link _) => True
  | some (.real _) => False

/-- What a failed `os.Remove` leaves. -/
def leave : Option Info → Option Info
  | some (.text t) => some (.leftover t)
  | e => e

/-- The call goes on. -/
def State.goto [DecidableEq ι] (s : State κ ι) (i : ι) (p : Phase κ) : State κ ι :=
  { s with call := Function.update s.call i p }

/-- A regular file in the directory `info`, or none, gets a new content. -/
def State.writeInfo (s : State κ ι) (name : String) (e : Option Info) : State κ ι :=
  { s with info := Function.update s.info name e }

/-- What happens next. -/
inductive Action (ι : Type) where
  | start (i : ι)
  /-- The call fails before it looks for a name. -/
  | giveUp (i : ι)
  | taken (i : ι)
  | free (i : ι)
  | writeFile (i : ι)
  | writeFails (i : ι)
  | rename (i : ι)
  | renameFails (i : ι)
  | remove (i : ι)
  | removeFails (i : ι)
  /-- Somebody changes what lies at the paths. -/
  | outside

/-- One step of a call. -/
inductive Step [DecidableEq ι] (calls : Calls ι) : State κ ι → Action ι → State κ ι → Prop
  | start {s : State κ ι} {i : ι} (h : s.call i = .ready) : Step calls s (.start i) (s.goto i (.looking 0))
  | giveUp {s : State κ ι} {i : ι} (h : s.call i = .ready) : Step calls s (.giveUp i) (s.goto i .failed)
  /-- There is something of that name, or `Stat` fails for another reason. -/
  | taken {s : State κ ι} {i : ι} {k : ℕ} (h : s.call i = .looking k) :
      Step calls s (.taken i) (s.goto i (.looking (k + 1)))
  | free {s : State κ ι} {i : ι} {k : ℕ} (h : s.call i = .looking k)
      (hfree : MayBeFree (s.files (trashName (base (calls.absPath i)) k))) :
      Step calls s (.free i) (s.goto i (.found (trashName (base (calls.absPath i)) k)))
  | writeFile {s : State κ ι} {i : ι} {name date : String} (h : s.call i = .found name)
      (hfile : s.info name ≠ some .dir) (hlink : ∀ target, s.info name ≠ some (.link target)) :
      Step calls s (.writeFile i)
        ((s.writeInfo name (some (.text (infoContent (calls.absPath i) date)))).goto i (.written name))
  /-- Written through a link, to wherever it leads. -/
  | writeThrough {s : State κ ι} {i : ι} {name target : String} {files : String → Option (Entry κ)}
      {info : String → Option Info} (h : s.call i = .found name) (hlink : s.info name = some (.link target)) :
      Step calls s (.writeFile i) ({ s with files := files, info := info }.goto i (.written name))
  | openFails {s : State κ ι} {i : ι} {name : String} (h : s.call i = .found name) :
      Step calls s (.writeFails i) (s.goto i .failed)
  /-- The file is emptied or created, and its content does not get there. -/
  | writeFails {s : State κ ι} {i : ι} {name t : String} (h : s.call i = .found name)
      (hfile : s.info name ≠ some .dir) (hlink : ∀ target, s.info name ≠ some (.link target)) :
      Step calls s (.writeFails i) ((s.writeInfo name (some (.leftover t))).goto i .failed)
  /-- What there is of the name is replaced. -/
  | rename {s : State κ ι} {i : ι} {name : String} {e : Entry κ} {source : ι → Option (Entry κ)}
      {files : String → Option (Entry κ)} {info : String → Option Info} (h : s.call i = .written name)
      (hsource : s.source i = some e) (hfiles : ∀ m, ¬ calls.filesIn i m → files m = s.files m)
      (hinfo : ∀ m, ¬ calls.infoIn i m → info m = s.info m) :
      Step calls s (.rename i)
        { source := source
          files := Function.update files name (some e)
          info := info
          call := Function.update s.call i (.done name e)
          movedFiles := fun m => s.movedFiles m ∨ calls.filesIn i m
          movedInfo := fun m => s.movedInfo m ∨ calls.infoIn i m }
  | renameFails {s : State κ ι} {i : ι} {name : String} (h : s.call i = .written name) :
      Step calls s (.renameFails i) (s.goto i (.renameFailed name))
  | remove {s : State κ ι} {i : ι} {name : String} (h : s.call i = .renameFailed name) :
      Step calls s (.remove i) ((s.writeInfo name none).goto i .failed)
  | removeFails {s : State κ ι} {i : ι} {name : String} (h : s.call i = .renameFailed name) :
      Step calls s (.removeFails i) ((s.writeInfo name (leave (s.info name))).goto i .failed)
  | outside {s : State κ ι} {source : ι → Option (Entry κ)} : Step calls s .outside { s with source := source }

/-! ### What is to be shown -/

/-- Nothing is lost: what was in the trash is there as it was, each call that has succeeded has the entry it
moved under a name of its own, with its path in the `.trashinfo`. What a call has moved out of the trash is
excepted. -/
structure State.Kept (calls : Calls ι) (files₀ : String → Option (Entry κ)) (info₀ : String → Option Info)
    (s : State κ ι) : Prop where
  files : ∀ {m e}, files₀ m = some e → ¬ s.movedFiles m → s.files m = some e
  info : ∀ {m e}, info₀ m = some e → ¬ s.movedInfo m → s.info m = some e
  content : ∀ {i name e}, s.call i = .done name e → ¬ s.movedFiles name → s.files name = some e
  path : ∀ {i name e}, s.call i = .done name e → ¬ s.movedInfo name →
    ∃ date, s.info name = some (.text (infoContent (calls.absPath i) date))
  own : ∀ {i j name e e'}, s.call i = .done name e → s.call j = .done name e' → ¬ s.movedInfo name → i = j

/-- A `.trashinfo` is written where there is none, or one that a failed call has left; a file is renamed to a
name that is not taken. -/
def NotTaken (s : State κ ι) : Action ι → Prop
  | .writeFile i | .writeFails i => ∀ name, s.call i = .found name →
      s.info name = none ∨ ∃ t, s.info name = some (.leftover t)
  | .rename i => ∀ name, s.call i = .written name → s.files name = none
  | _ => True

/-! ### Names that are held -/

variable {calls : Calls ι} {s t : State κ ι} {a : Action ι} {i j : ι} {name m : String} {p : Phase κ}
  {files₀ : String → Option (Entry κ)} {info₀ : String → Option Info} {tr : List (State κ ι × Action ι)}

/-- The name under which a call has its `.trashinfo`. -/
def Phase.held : Phase κ → Option String
  | .written name | .renameFailed name | .done name _ => some name
  | _ => none

@[simp] theorem held_ready : (Phase.ready : Phase κ).held = none := rfl
@[simp] theorem held_looking (k : ℕ) : (Phase.looking k : Phase κ).held = none := rfl
@[simp] theorem held_found (name : String) : (Phase.found name : Phase κ).held = none := rfl
@[simp] theorem held_failed : (Phase.failed : Phase κ).held = none := rfl
@[simp] theorem held_written (name : String) : (Phase.written name : Phase κ).held = some name := rfl
@[simp] theorem held_renameFailed (name : String) : (Phase.renameFailed name : Phase κ).held = some name := rfl
@[simp] theorem held_done (name : String) (e : Entry κ) : (Phase.done name e).held = some name := rfl

/-- What carries `Kept` from step to step: a name is held by one call, and was not taken before. -/
structure State.Sound (calls : Calls ι) (files₀ : String → Option (Entry κ)) (info₀ : String → Option Info)
    (s : State κ ι) : Prop where
  files : ∀ {m e}, files₀ m = some e → ¬ s.movedFiles m → s.files m = some e
  info : ∀ {m e}, info₀ m = some e → ¬ s.movedInfo m → s.info m = some e
  content : ∀ {i name e}, s.call i = .done name e → ¬ s.movedFiles name → s.files name = some e
  path : ∀ {i name}, (s.call i).held = some name → ¬ s.movedInfo name →
    ∃ date, s.info name = some (.text (infoContent (calls.absPath i) date))
  own : ∀ {i j name}, (s.call i).held = some name → (s.call j).held = some name → ¬ s.movedInfo name → i = j
  fresh : ∀ {i name}, (s.call i).held = some name → ¬ s.movedInfo name → info₀ name = none

theorem Sound.kept (hs : s.Sound calls files₀ info₀) : s.Kept calls files₀ info₀ where
  files := hs.files
  info := hs.info
  content := hs.content
  path h := hs.path (by rw [h]; rfl)
  own h h' := hs.own (by rw [h]; rfl) (by rw [h']; rfl)

theorem sound_start {source : ι → Option (Entry κ)} : (State.start source files₀ info₀).Sound calls files₀ info₀ := by
  constructor <;> simp [State.start]

/-- A call moves on, and holds no name that it did not hold. -/
theorem Sound.goto [DecidableEq ι] (hs : s.Sound calls files₀ info₀) (hp : p.held = none ∨ p.held = (s.call i).held)
    (hdone : ∀ name e, p ≠ .done name e) : (s.goto i p).Sound calls files₀ info₀ := by
  obtain ⟨hfiles, hinfo, hcontent, hpath, hown, hfresh⟩ := hs
  constructor <;> simp only [State.goto] <;> grind [Function.update_apply]

/-- A `.trashinfo` that no call holds, and that was not there before, is changed. -/
theorem Sound.writeInfo (hs : s.Sound calls files₀ info₀) (hfree : ∀ i, (s.call i).held = some name → s.movedInfo name)
    (hnew : info₀ name = none ∨ s.movedInfo name) (e : Option Info) :
    (s.writeInfo name e).Sound calls files₀ info₀ := by
  obtain ⟨hfiles, hinfo, hcontent, hpath, hown, hfresh⟩ := hs
  constructor <;> simp only [State.writeInfo] <;> grind [Function.update_apply]

/-- A call has written its `.trashinfo`. -/
theorem Sound.hold [DecidableEq ι] (hs : s.Sound calls files₀ info₀)
    (hfree : ∀ i, (s.call i).held = some name → s.movedInfo name) (hnew : info₀ name = none ∨ s.movedInfo name)
    {date : String} (htext : s.info name = some (.text (infoContent (calls.absPath i) date))) :
    (s.goto i (.written name)).Sound calls files₀ info₀ := by
  obtain ⟨hfiles, hinfo, hcontent, hpath, hown, hfresh⟩ := hs
  constructor <;> simp only [State.goto] <;> grind [Function.update_apply, Phase.held]

/-- No call holds a name that is not taken, and it was not there before. -/
theorem Sound.notTaken (hs : s.Sound calls files₀ info₀) (hleft : ∀ m t, info₀ m ≠ some (.leftover t))
    (h : s.info name = none ∨ ∃ t, s.info name = some (.leftover t)) :
    (∀ i, (s.call i).held = some name → s.movedInfo name) ∧ (info₀ name = none ∨ s.movedInfo name) := by
  obtain ⟨hfiles, hinfo, hcontent, hpath, hown, hfresh⟩ := hs
  constructor
  · intro i hi
    by_contra hmoved
    obtain ⟨date, htext⟩ := hpath hi hmoved
    grind
  · by_contra hmoved
    rw [not_or] at hmoved
    obtain ⟨e, he⟩ := Option.ne_none_iff_exists'.mp hmoved.1
    have hthere : s.info name = some e := hinfo he hmoved.2
    obtain hnone | ⟨t, htext⟩ := h
    · exact absurd (hnone.symm.trans hthere) (by simp)
    · exact hleft name t (he.trans (hthere.symm.trans htext))

/-- The call that holds a name has failed, and lets go of its `.trashinfo`. -/
theorem Sound.letGo [DecidableEq ι] (hs : s.Sound calls files₀ info₀) (h : s.call i = .renameFailed name)
    (e : Option Info) : ((s.writeInfo name e).goto i .failed).Sound calls files₀ info₀ := by
  have hheld : (s.call i).held = some name := by rw [h]; rfl
  have hgoto : (s.goto i .failed).Sound calls files₀ info₀ := Sound.goto hs (.inl rfl) nofun
  refine Sound.writeInfo (s := s.goto i .failed) hgoto (fun j hj => ?_) ?_ e
  · by_contra hmoved
    simp only [State.goto, Function.update_apply] at hj
    split at hj
    · cases hj
    · next hne => exact hne (hs.own hj hheld hmoved)
  · exact or_iff_not_imp_right.mpr (hs.fresh hheld)

theorem Sound.step [DecidableEq ι] (hs : s.Sound calls files₀ info₀) (hleft : ∀ m t, info₀ m ≠ some (.leftover t))
    (ha : NotTaken s a) (h : Step calls s a t) : t.Sound calls files₀ info₀ := by
  cases h with
  | start h => exact Sound.goto hs (.inl rfl) nofun
  | giveUp h => exact Sound.goto hs (.inl rfl) nofun
  | taken h => exact Sound.goto hs (.inl rfl) nofun
  | free h hfree => exact Sound.goto hs (.inl rfl) nofun
  | writeFile h hfile hlink =>
    obtain ⟨hfree, hnew⟩ := Sound.notTaken hs hleft (ha _ h)
    exact Sound.hold (Sound.writeInfo hs hfree hnew _) hfree hnew (Function.update_self ..)
  | writeThrough h hlink =>
    obtain hnone | ⟨t, htext⟩ := ha _ h
    · rw [hlink] at hnone
      cases hnone
    · rw [hlink] at htext
      cases htext
  | openFails h => exact Sound.goto hs (.inl rfl) nofun
  | writeFails h hfile hlink =>
    obtain ⟨hfree, hnew⟩ := Sound.notTaken hs hleft (ha _ h)
    exact Sound.goto (Sound.writeInfo hs hfree hnew _) (.inl rfl) nofun
  | @rename i name e source files info h hsource hfiles hinfo =>
    have hnone : s.files name = none := ha _ h
    have hheld : (s.call i).held = some name := by rw [h]; rfl
    obtain ⟨hfiles₀, hinfo₀, hcontent, hpath, hown, hfresh⟩ := hs
    constructor <;> dsimp only <;> grind [Function.update_apply, Phase.held]
  | renameFails h => exact Sound.goto hs (.inr (by rw [h]; rfl)) nofun
  | remove h => exact Sound.letGo hs h _
  | removeFails h => exact Sound.letGo hs h _
  | outside =>
    obtain ⟨hfiles, hinfo, hcontent, hpath, hown, hfresh⟩ := hs
    exact ⟨hfiles, hinfo, hcontent, hpath, hown, hfresh⟩

/-- `a` in two directories. -/
def twoPaths (i : Bool) : String := if i then "/y/a" else "/x/a"

def written (s : State κ Bool) (i : Bool) : State κ Bool :=
  (s.writeInfo "a" (some (.text (infoContent (twoPaths i) "2024-01-01T00:00:00")))).goto i (.written "a")

section Two
variable {u : State κ Bool} {b : Bool} {e : Entry κ}

end Two

/-- What the calls find. -/
def content (i : Bool) : String := if i then "two" else "one"

end Tilbo.Trash.MoveToTrash
