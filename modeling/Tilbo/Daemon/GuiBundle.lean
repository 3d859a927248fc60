import Tilbo.Lib.Lines
import Tilbo.Lib.Steps
import Mathlib.Data.List.Flatten
import Mathlib.Data.List.Nodup
import Mathlib.Data.List.Perm.Subperm
import Mathlib.Logic.Function.Basic

/-! # The bundle of the GUI

At its start the daemon puts the files that are embedded in it into a directory, unless the hash that is stored there
is that of its own files. The hash is taken of the path of each file, a zero and its content, one file after another,
which does not say where a content ends; and the directory is removed entry by entry, in any order, so that the hash
may survive files that it was taken of. `good_iff` says in which histories the files are right whenever
`syncEmbeddedQuickshell` has returned without an error. Paths are relative to the directory; directories in it are made
as they are needed. -/

namespace Tilbo.Daemon.GuiBundle

open Tilbo.Lib.Steps
open Tilbo.Lib.Lines (Bytes bytes)

/-! ### Bundles -/

/-- `embedHashFile`. -/
def embedHashFile : Bytes := bytes ".embed-hash"

/-- The files that are embedded in a version of the daemon, sorted by their paths, and in the order of `fs.WalkDir`. No
file has the name of the one with the hash, since names that begin with a dot are not embedded. -/
structure Bundle where
  files : List (Bytes × Bytes)
  walk : List (Bytes × Bytes)
  sorted : (files.map Prod.fst).Pairwise (· < ·)
  mem_walk : ∀ f, f ∈ walk ↔ f ∈ files
  nodup_walk : (walk.map Prod.fst).Nodup
  apart : ∀ f ∈ files, f.1 ≠ embedHashFile

/-- The content of a file. -/
def Bundle.content (b : Bundle) (p : Bytes) : Option Bytes := b.files.lookup p

/-- What `embeddedQuickshellHash` feeds to SHA-256. -/
def Bundle.stream (b : Bundle) : Bytes := b.files.flatMap fun f => f.1 ++ 0 :: f.2

/-- The versions of the daemon that are started over one data directory. SHA-256, in hexadecimal, tells their streams
apart. -/
structure Versions (V : Type) where
  bundle : V → Bundle
  sha256 : Bytes → Bytes
  length_sha256 : ∀ v, (sha256 (bundle v).stream).length = 64
  injective : ∀ v v', sha256 (bundle v).stream = sha256 (bundle v').stream → (bundle v).stream = (bundle v').stream

variable {V : Type}

/-- `embeddedQuickshellHash`. -/
def Versions.embeddedQuickshellHash (vs : Versions V) (v : V) : Bytes := vs.sha256 (vs.bundle v).stream

/-! ### Runs -/

/-- The files in the directory. -/
abbrev Disk := Bytes → Option Bytes

/-- Where the daemon is. -/
inductive Pc (V : Type) where
  /-- None is running. -/
  | down
  /-- `syncEmbeddedQuickshell` has returned without an error. -/
  | up (v : V)
  /-- In `os.RemoveAll`. -/
  | removing (v : V)
  /-- Between two files. -/
  | extracting (v : V) (todo : List (Bytes × Bytes))
  /-- A file is open. -/
  | writing (v : V) (p data : Bytes) (todo : List (Bytes × Bytes))
  | hashing (v : V)
  /-- The file of the hash is open. -/
  | storing (v : V)

/-- The directory and the daemon; and, for what is said of histories, the last version whose files were all extracted,
and whether any of them has been removed since. -/
structure State (V : Type) where
  disk : Disk
  pc : Pc V
  extracted : Option V
  torn : Bool

/-- There is no directory yet. -/
def start : State V where
  disk _ := none
  pc := .down
  extracted := none
  torn := false

/-- No version is being started. -/
def Pc.Idle : Pc V → Prop
  | down | up _ => True
  | _ => False

/-- What a step does that a condition is about: a version finds its own hash. -/
inductive Action (V : Type) where
  | found (v : V)
  | other

/-- One step. A crash, and a failure of a call, may come anywhere. -/
inductive Step (vs : Versions V) (s : State V) : Action V → State V → Prop
  | found {v : V} (h : s.pc.Idle) (hread : s.disk embedHashFile = some (vs.embeddedQuickshellHash v)) :
      Step vs s (.found v) { s with pc := .up v }
  /-- The hash that is stored is another, or there is none, or it cannot be read. -/
  | outdated {v : V} (h : s.pc.Idle) : Step vs s .other { s with pc := .removing v }
  | remove {v : V} {p data : Bytes} (h : s.pc = .removing v) (hp : s.disk p = some data) : Step vs s .other
      { s with
        disk := Function.update s.disk p none
        torn := s.torn || p ≠ embedHashFile }
  | removed {v : V} (h : s.pc = .removing v) (hnone : ∀ p, s.disk p = none) : Step vs s .other
      { s with
        pc := .extracting v (vs.bundle v).walk
        extracted := none
        torn := false }
  | create {v : V} {p data : Bytes} {todo : List (Bytes × Bytes)} (h : s.pc = .extracting v ((p, data) :: todo)) :
      Step vs s .other { s with disk := Function.update s.disk p (some []), pc := .writing v p data todo }
  | write {v : V} {p data : Bytes} {todo : List (Bytes × Bytes)} (n : ℕ) (h : s.pc = .writing v p data todo) :
      Step vs s .other { s with disk := Function.update s.disk p (some (data.take n)) }
  | close {v : V} {p data : Bytes} {todo : List (Bytes × Bytes)} (h : s.pc = .writing v p data todo)
      (hall : s.disk p = some data) : Step vs s .other { s with pc := .extracting v todo }
  | extracted {v : V} (h : s.pc = .extracting v []) : Step vs s .other
      { s with pc := .hashing v, extracted := some v, torn := false }
  | createHash {v : V} (h : s.pc = .hashing v) : Step vs s .other
      { s with disk := Function.update s.disk embedHashFile (some []), pc := .storing v }
  | writeHash {v : V} (n : ℕ) (h : s.pc = .storing v) : Step vs s .other
      { s with disk := Function.update s.disk embedHashFile (some ((vs.embeddedQuickshellHash v).take n)) }
  /-- A hash that could not be stored is reported in the log only. -/
  | notStored {v : V} (h : s.pc = .hashing v) : Step vs s .other { s with pc := .up v }
  | stored {v : V} (h : s.pc = .storing v) : Step vs s .other { s with pc := .up v }
  | stop : Step vs s .other { s with pc := .down }

/-! ### What is to hold -/

/-- The files of the bundle are there, and no others. -/
def Exact (b : Bundle) (disk : Disk) : Prop := ∀ p, p ≠ embedHashFile → disk p = b.content p

/-- If a version has started without an error, its files are there. -/
def Good (vs : Versions V) (s : State V) : Prop := ∀ v, s.pc = .up v → Exact (vs.bundle v) s.disk

/-- A version that finds its own hash has the same files as the version that was the last to be extracted, and none of
them has been removed since. -/
def Sure (vs : Versions V) (s : State V) : Action V → Prop
  | .found v => s.torn = false ∧ ∀ v' ∈ s.extracted, (vs.bundle v').content = (vs.bundle v).content
  | .other => True

/-! ### Files and streams -/

namespace Bundle

variable {b b' : Bundle} {p data : Bytes}

theorem nodup_keys : (b.files.map Prod.fst).Nodup := b.sorted.imp fun {p q} hlt heq => by
  subst heq
  exact List.lt_irrefl p hlt

theorem content_eq_some_iff : b.content p = some data ↔ (p, data) ∈ b.files := by
  refine ⟨fun h => ?_, fun h => ?_⟩
  · obtain ⟨front, rest, hfiles, -⟩ := List.lookup_eq_some_iff.mp h
    simp [hfiles]
  · obtain ⟨front, rest, hfiles⟩ := List.append_of_mem h
    refine List.lookup_eq_some_iff.mpr ⟨front, rest, hfiles, fun q hq => ?_⟩
    have hkeys := b.nodup_keys
    rw [hfiles, List.map_append, List.nodup_append] at hkeys
    have hne : q.1 ≠ p := hkeys.2.2 q.1 (List.mem_map_of_mem hq) p (by simp)
    simpa using hne.symm

theorem content_embedHashFile : b.content embedHashFile = none := by
  by_contra h
  obtain ⟨data, hdata⟩ := Option.ne_none_iff_exists'.mp h
  exact b.apart _ (content_eq_some_iff.mp hdata) rfl

/-- A bundle that lacks a file of another, and has no file that the other lacks, has a shorter stream. -/
theorem length_stream_lt (hsub : ∀ p data, b'.content p = some data → b.content p = some data)
    (hp : b.content p = some data) (hp' : b'.content p = none) : b'.stream.length < b.stream.length := by
  have hnotin : (p, data) ∉ b'.files := by
    rw [← content_eq_some_iff, hp']
    simp
  have hnodup : ((p, data) :: b'.files).Nodup := List.nodup_cons.mpr ⟨hnotin, List.Nodup.of_map _ b'.nodup_keys⟩
  have hsubset : (p, data) :: b'.files ⊆ b.files := by
    rintro ⟨q, e⟩ hq
    rcases List.mem_cons.mp hq with hq | hq
    · exact hq ▸ content_eq_some_iff.mp hp
    · exact content_eq_some_iff.mp (hsub q e (content_eq_some_iff.mpr hq))
  obtain ⟨l, hperm, hsublist⟩ := hnodup.subperm hsubset
  have hlength := (hsublist.flatMap fun f => f.1 ++ 0 :: f.2).length_le
  rw [(hperm.flatMap_right _).length_eq, List.flatMap_cons] at hlength
  simp only [List.length_append, List.length_cons] at hlength
  unfold stream
  omega

end Bundle

/-! ### The disk -/

section

variable {b b' : Bundle} {disk : Disk} {p data : Bytes} {todo : List (Bytes × Bytes)}

/-- Only files of the bundle are there, and not all of them. -/
def Missing (b : Bundle) (disk : Disk) : Prop :=
  (∀ p data, p ≠ embedHashFile → disk p = some data → b.content p = some data) ∧
    ∃ p data, b.content p = some data ∧ disk p = none

/-- What is still to be extracted are files of the bundle, and the others of it are there. -/
structure Partly (b : Bundle) (todo : List (Bytes × Bytes)) (disk : Disk) : Prop where
  files : ∀ f ∈ todo, f ∈ b.files
  nodup : (todo.map Prod.fst).Nodup
  there : ∀ p, p ≠ embedHashFile → p ∉ todo.map Prod.fst → disk p = b.content p

theorem ne_of_content (h : b.content p = some data) : p ≠ embedHashFile :=
  b.apart _ (Bundle.content_eq_some_iff.mp h)

theorem Exact.update_hash (h : Exact b disk) {hash : Option Bytes} :
    Exact b (Function.update disk embedHashFile hash) := fun p hp => by
  rw [Function.update_of_ne hp]
  exact h p hp

theorem Missing.update_hash (h : Missing b disk) {hash : Option Bytes} :
    Missing b (Function.update disk embedHashFile hash) := by
  obtain ⟨hleft, p, data, hp, hnone⟩ := h
  refine ⟨fun q e hq he => ?_, p, data, hp, ?_⟩
  · rw [Function.update_of_ne hq] at he
    exact hleft q e hq he
  · rwa [Function.update_of_ne (ne_of_content hp)]

theorem Exact.remove (h : Exact b disk) (hne : p ≠ embedHashFile) (hp : disk p = some data) :
    Missing b (Function.update disk p none) := by
  refine ⟨fun q e hq he => ?_, p, data, (h p hne).symm.trans hp, Function.update_self ..⟩
  by_cases hqp : q = p
  · simp [hqp] at he
  · rw [Function.update_of_ne hqp] at he
    exact (h q hq).symm.trans he

theorem Missing.remove (h : Missing b disk) : Missing b (Function.update disk p none) := by
  obtain ⟨hleft, r, data, hr, hnone⟩ := h
  refine ⟨fun q e hq he => ?_, r, data, hr, ?_⟩
  · by_cases hqp : q = p
    · simp [hqp] at he
    · rw [Function.update_of_ne hqp] at he
      exact hleft q e hq he
  · by_cases hrp : r = p
    · simp [hrp]
    · rwa [Function.update_of_ne hrp]

/-- What is left of one bundle is not another one with the same stream. -/
theorem Missing.not_exact (h : Missing b disk) (hstream : b.stream = b'.stream) : ¬ Exact b' disk := by
  intro hexact
  obtain ⟨hleft, p, data, hp, hnone⟩ := h
  have hsub : ∀ q e, b'.content q = some e → b.content q = some e := fun q e he =>
    hleft q e (ne_of_content he) ((hexact q (ne_of_content he)).trans he)
  have hlt := Bundle.length_stream_lt hsub hp ((hexact p (ne_of_content hp)).symm.trans hnone)
  rw [hstream] at hlt
  omega

theorem partly_walk (hnone : ∀ p, disk p = none) : Partly b b.walk disk where
  files f hf := (b.mem_walk f).mp hf
  nodup := b.nodup_walk
  there p _ hp := by
    rw [hnone p]
    by_contra h
    obtain ⟨data, hdata⟩ := Option.ne_none_iff_exists'.mp (Ne.symm h)
    have hmem := (b.mem_walk _).mpr (Bundle.content_eq_some_iff.mp hdata)
    exact hp (List.mem_map_of_mem hmem)

theorem Partly.update (h : Partly b ((p, data) :: todo) disk) {e : Option Bytes} :
    Partly b ((p, data) :: todo) (Function.update disk p e) where
  files := h.files
  nodup := h.nodup
  there q hq hnotin := by
    have hne : q ≠ p := fun heq => hnotin (by simp [heq])
    rw [Function.update_of_ne hne]
    exact h.there q hq hnotin

theorem Partly.close (h : Partly b ((p, data) :: todo) disk) (hall : disk p = some data) : Partly b todo disk where
  files f hf := h.files f (List.mem_cons_of_mem _ hf)
  nodup := (List.nodup_cons.mp h.nodup).2
  there q hq hnotin := by
    by_cases hqp : q = p
    · rw [hqp, hall]
      exact (Bundle.content_eq_some_iff.mpr (h.files _ List.mem_cons_self)).symm
    · exact h.there q hq (by simpa [hqp] using hnotin)

theorem Partly.exact (h : Partly b [] disk) : Exact b disk := fun p hp => h.there p hp (by simp)

end

/-! ### What every run keeps -/

variable {vs : Versions V} {s t u : State V} {a : Action V} {v : V}

/-- How far the extraction has come. -/
def Phase (vs : Versions V) (s : State V) : Prop :=
  match s.pc with
  | .extracting v todo => s.extracted = none ∧ Partly (vs.bundle v) todo s.disk
  | .writing v p data todo => s.extracted = none ∧ Partly (vs.bundle v) ((p, data) :: todo) s.disk
  | .hashing v | .storing v => s.extracted = some v ∧ s.torn = false
  | _ => True

/-- A hash is stored, in part or whole, only when the files that it was taken of have all been extracted, and none of
them is there again after one has been removed. -/
structure Inv (vs : Versions V) (s : State V) : Prop where
  hash : ∀ h, s.disk embedHashFile = some h → ∃ v, s.extracted = some v ∧ h <+: vs.embeddedQuickshellHash v
  whole : ∀ v, s.extracted = some v → s.torn = false → Exact (vs.bundle v) s.disk
  torn : ∀ v, s.extracted = some v → s.torn = true → Missing (vs.bundle v) s.disk
  phase : Phase vs s

theorem inv_start : Inv vs start where
  hash h hh := by simp [start] at hh
  whole v hv := by simp [start] at hv
  torn v hv := by simp [start] at hv
  phase := trivial

/-- The place of the daemon alone changes. -/
theorem Inv.go (h : Inv vs s) {pc : Pc V} (hphase : Phase vs { s with pc := pc }) : Inv vs { s with pc := pc } where
  hash := h.hash
  whole := h.whole
  torn := h.torn
  phase := hphase

theorem Inv.remove (h : Inv vs s) {p data : Bytes} (hpc : s.pc = .removing v) (hp : s.disk p = some data) :
    Inv vs { s with disk := Function.update s.disk p none, torn := s.torn || p ≠ embedHashFile } := by
  have hphase : Phase vs { s with disk := Function.update s.disk p none, torn := s.torn || p ≠ embedHashFile } := by
    simp [Phase, hpc]
  by_cases hne : p = embedHashFile
  · subst hne
    refine ⟨fun h' hh => by simp at hh, fun v' hv' ht => ?_, fun v' hv' ht => ?_, hphase⟩
    · exact (h.whole v' hv' (by simpa using ht)).update_hash
    · exact (h.torn v' hv' (by simpa using ht)).update_hash
  · refine ⟨fun h' hh => ?_, fun v' hv' ht => by simp [hne] at ht, fun v' hv' ht => ?_, hphase⟩
    · simp only [Function.update_of_ne (Ne.symm hne)] at hh
      exact h.hash h' hh
    · cases htorn : s.torn with
      | false => exact (h.whole v' hv' htorn).remove hne hp
      | true => exact (h.torn v' hv' htorn).remove

/-- A file of the bundle is written. -/
theorem Inv.put (h : Inv vs s) {p data : Bytes} {todo : List (Bytes × Bytes)} {e : Option Bytes} {pc : Pc V}
    (hnone : s.extracted = none) (hpartly : Partly (vs.bundle v) ((p, data) :: todo) s.disk)
    (hpc : pc = .writing v p data todo) : Inv vs { s with disk := Function.update s.disk p e, pc := pc } where
  hash h' hh := by
    have hne : p ≠ embedHashFile := (vs.bundle v).apart _ (hpartly.files _ List.mem_cons_self)
    simp only [Function.update_of_ne hne.symm] at hh
    exact h.hash h' hh
  whole v' hv' := by simp [hnone] at hv'
  torn v' hv' := by simp [hnone] at hv'
  phase := by
    simp only [Phase, hpc]
    exact ⟨hnone, hpartly.update⟩

/-- The hash is written, so far. -/
theorem Inv.store (h : Inv vs s) {hash : Bytes} {pc : Pc V} (hv : s.extracted = some v) (htorn : s.torn = false)
    (hpre : hash <+: vs.embeddedQuickshellHash v) (hpc : pc = .storing v) :
    Inv vs { s with disk := Function.update s.disk embedHashFile (some hash), pc := pc } where
  hash h' hh := by
    simp only [Function.update_self, Option.some.injEq] at hh
    exact ⟨v, hv, hh ▸ hpre⟩
  whole v' hv' ht := (h.whole v' hv' ht).update_hash
  torn v' hv' ht := (h.torn v' hv' ht).update_hash
  phase := by
    simp only [Phase, hpc]
    exact ⟨hv, htorn⟩

theorem Inv.step (h : Inv vs s) (hstep : Step vs s a t) : Inv vs t := by
  have hphase := h.phase
  unfold Phase at hphase
  cases hstep with
  | found _ _ | outdated _ | notStored _ | stored _ | stop => exact h.go trivial
  | remove hpc hp => exact h.remove hpc hp
  | removed hpc hnone =>
    refine ⟨fun h' hh => ?_, fun v' hv' => ?_, fun v' hv' => ?_, rfl, partly_walk hnone⟩
    · simp [hnone] at hh
    · simp at hv'
    · simp at hv'
  | create hpc =>
    rw [hpc] at hphase
    exact h.put hphase.1 hphase.2 rfl
  | write n hpc =>
    rw [hpc] at hphase
    exact h.put hphase.1 hphase.2 hpc
  | close hpc hall =>
    rw [hpc] at hphase
    exact h.go ⟨hphase.1, hphase.2.close hall⟩
  | extracted hpc =>
    rw [hpc] at hphase
    refine ⟨fun h' hh => ?_, fun v' hv' _ => ?_, fun v' hv' ht => by simp at ht, rfl, rfl⟩
    · obtain ⟨v', hv', -⟩ := h.hash h' hh
      simp [hphase.1] at hv'
    · rw [← Option.some.inj hv']
      exact hphase.2.exact
  | createHash hpc =>
    rw [hpc] at hphase
    exact h.store hphase.1 hphase.2 List.nil_prefix rfl
  | writeHash n hpc =>
    rw [hpc] at hphase
    exact h.store hphase.1 hphase.2 (List.take_prefix ..) hpc

theorem Inv.run {tr : List (State V × Action V)} (hrun : Runs (Step vs) start tr s) : Inv vs s :=
  hrun.invariant (Inv vs) meets_any inv_start fun _ _ _ h _ hstep => h.step hstep

/-! ### Histories -/

/-- Whatever is still to be extracted can be. -/
theorem extract_all {tr : List (State V × Action V)} {todo : List (Bytes × Bytes)} (hrun : Runs (Step vs) start tr s)
    (hmeets : Meets (Sure vs) tr) (hpc : s.pc = .extracting v todo) :
    ∃ tr' s', Runs (Step vs) start tr' s' ∧ Meets (Sure vs) tr' ∧ s'.pc = .extracting v [] := by
  induction todo generalizing tr s with
  | nil => exact ⟨tr, s, hrun, hmeets, hpc⟩
  | cons f todo ih =>
    obtain ⟨p, data⟩ := f
    have hcreated := hrun.snoc (.create hpc)
    have hwritten := hcreated.snoc (.write data.length rfl)
    have hclosed := hwritten.snoc (.close rfl (by simp))
    refine ih hclosed ?_ rfl
    simp only [meets_snoc_iff]
    exact ⟨⟨⟨hmeets, trivial⟩, trivial⟩, trivial⟩

/-- A version that is started first is up with its files and its hash. -/
theorem first_start (vs : Versions V) (v : V) : ∃ tr s, Runs (Step vs) start tr s ∧ Meets (Sure vs) tr ∧
    s.pc = .up v ∧ s.extracted = some v ∧ s.torn = false ∧
      s.disk embedHashFile = some (vs.embeddedQuickshellHash v) := by
  have hremoving := (Runs.nil : Runs (Step vs) start [] start).snoc (.outdated (v := v) trivial)
  have hremoved := hremoving.snoc (.removed rfl fun _ => rfl)
  obtain ⟨tr, s, hrun, hmeets, hpc⟩ := extract_all hremoved ((Meets.nil.snoc trivial).snoc trivial) rfl
  have hhashing := hrun.snoc (.extracted hpc)
  have hstoring := hhashing.snoc (.createHash rfl)
  have hwritten := hstoring.snoc (.writeHash (vs.embeddedQuickshellHash v).length rfl)
  have hstored := hwritten.snoc (.stored rfl)
  refine ⟨_, _, hstored, ?_, rfl, rfl, rfl, ?_⟩
  · simp only [meets_snoc_iff]
    exact ⟨⟨⟨⟨hmeets, trivial⟩, trivial⟩, trivial⟩, trivial⟩
  · simp

/-- The start of another version may end in the removal, when a file is gone and the hash is not; the version that was
there before then takes what is left for its files. -/
theorem torn_accepted (vs : Versions V) (v' : V) {p data : Bytes} (hp : (vs.bundle v).content p = some data) :
    ∃ tr s, Runs (Step vs) start tr s ∧ s.pc = .up v ∧ s.disk p = none := by
  obtain ⟨tr, s, hrun, -, hpc, hextracted, htorn, hhash⟩ := first_start vs v
  have hne := ne_of_content hp
  have hthere : s.disk p = some data := ((Inv.run hrun).whole v hextracted htorn p hne).trans hp
  have hremoving := hrun.snoc (.outdated (v := v') (hpc ▸ trivial))
  have hgone := hremoving.snoc (.remove rfl hthere)
  have hdown := hgone.snoc .stop
  have hup := hdown.snoc (.found (v := v) trivial (by simpa [Function.update_of_ne hne.symm] using hhash))
  exact ⟨_, _, hup, rfl, by simp⟩

/-- A version with another's stream takes the other's files for its own. -/
theorem twin_accepted (vs : Versions V) {v v' : V} (hstream : (vs.bundle v).stream = (vs.bundle v').stream) :
    ∃ tr s, Runs (Step vs) start tr s ∧ s.pc = .up v' ∧ Exact (vs.bundle v) s.disk := by
  obtain ⟨tr, s, hrun, -, hpc, hextracted, htorn, hhash⟩ := first_start vs v
  have hread : s.disk embedHashFile = some (vs.embeddedQuickshellHash v') := by
    rw [hhash]
    unfold Versions.embeddedQuickshellHash
    rw [hstream]
  exact ⟨_, _, hrun.snoc (.found (hpc ▸ trivial) hread), rfl, (Inv.run hrun).whole v hextracted htorn⟩

/-- A bundle that is walked in the order of its paths. -/
def Bundle.of (files : List (Bytes × Bytes)) (sorted : (files.map Prod.fst).Pairwise (· < ·))
    (apart : ∀ f ∈ files, f.1 ≠ embedHashFile) : Bundle where
  files := files
  walk := files
  sorted := sorted
  mem_walk _ := .rfl
  nodup_walk := sorted.imp fun {p q} hlt heq => by
    subst heq
    exact List.lt_irrefl p hlt
  apart := apart

/-- An update changes a file. -/
def updated : Versions Bool where
  bundle v := .of [(bytes "shell.qml", bytes (if v then "2" else "1"))] (by cases v <;> decide) (by cases v <;> decide)
  sha256 stream := (stream ++ List.replicate 64 0).take 64
  length_sha256 := by decide
  injective := by decide

/-- An update moves text from the content of a file into the name of the next. -/
def twins : Versions Bool where
  bundle
    | false => .of [(bytes "components/a", bytes "services/x"), (bytes "services/y", []), (bytes "shell.qml", [])]
      (by decide) (by decide)
    | true => .of [(bytes "components/a", []), (bytes "services/xservices/y", []), (bytes "shell.qml", [])]
      (by decide) (by decide)
  sha256 stream := (stream ++ List.replicate 64 0).take 64
  length_sha256 := by decide
  injective := by decide

/-! ### When the files are right -/

theorem Exact.congr {b b' : Bundle} {disk : Disk} (h : Exact b disk) (hcontent : b.content = b'.content) :
    Exact b' disk := fun p hp => (h p hp).trans (congrFun hcontent p)

theorem Exact.content_eq {b b' : Bundle} {disk : Disk} (h : Exact b disk) (h' : Exact b' disk) :
    b.content = b'.content := by
  funext p
  by_cases hp : p = embedHashFile
  · rw [hp, Bundle.content_embedHashFile, Bundle.content_embedHashFile]
  · rw [← h p hp, h' p hp]

/-- A version that finds its own hash has its files there exactly if the condition holds. -/
theorem exact_iff_sure (h : Inv vs s) (hread : s.disk embedHashFile = some (vs.embeddedQuickshellHash v)) :
    Exact (vs.bundle v) s.disk ↔ Sure vs s (.found v) := by
  obtain ⟨v', hv', hpre⟩ := h.hash _ hread
  have hhash : vs.embeddedQuickshellHash v = vs.embeddedQuickshellHash v' :=
    hpre.eq_of_length ((vs.length_sha256 v).trans (vs.length_sha256 v').symm)
  have hstream : (vs.bundle v').stream = (vs.bundle v).stream := (vs.injective v v' hhash).symm
  constructor
  · intro hexact
    cases htorn : s.torn with
    | true => exact absurd hexact ((h.torn v' hv' htorn).not_exact hstream)
    | false =>
      refine ⟨htorn, fun w hw => ?_⟩
      exact (h.whole w hw htorn).content_eq hexact
  · rintro ⟨htorn, hcontent⟩
    exact (h.whole v' hv' htorn).congr (hcontent v' hv')

/-- What a step does to what is to hold. -/
theorem good_step_iff (h : Inv vs s) (hstep : Step vs s a t) : Good vs t ↔ Sure vs s a := by
  have hphase := h.phase
  unfold Phase at hphase
  have away : ∀ {pc : Pc V}, (∀ v, pc ≠ .up v) → t.pc = pc → Good vs t := fun hne hpc v hv =>
    absurd (hpc.symm.trans hv) (hne v)
  cases hstep with
  | @found v _ hread =>
    rw [← exact_iff_sure h hread]
    refine ⟨fun hgood => hgood v rfl, fun hexact w hw => ?_⟩
    rw [← Pc.up.inj hw]
    exact hexact
  | outdated _ | removed _ _ | create _ | close _ _ | extracted _ | createHash _ | stop =>
    exact iff_of_true (away (by simp) rfl) trivial
  | remove hpc _ | write _ hpc | writeHash _ hpc => exact iff_of_true (away (by simp) hpc) trivial
  | notStored hpc | stored hpc =>
    rw [hpc] at hphase
    refine iff_of_true (fun w hw => ?_) trivial
    rw [← Pc.up.inj hw]
    exact h.whole _ hphase.1 hphase.2

/-- **The files are right after every start** of a history exactly if every version in it that finds its own hash has
the same files as the version that was the last to be extracted, none of which has been removed since. -/
theorem good_iff {tr : List (State V × Action V)} (hrun : Runs (Step vs) start tr s) :
    (∀ e ∈ tr, Good vs e.1) ∧ Good vs s ↔ Meets (Sure vs) tr := by
  induction hrun with
  | nil => exact iff_of_true ⟨fun e he => by simp at he, fun v hv => by simp [start] at hv⟩ .nil
  | @snoc tr t u a before last ih =>
    rw [meets_snoc_iff, ← ih, ← good_step_iff (Inv.run before) last]
    simp only [List.forall_mem_append, List.forall_mem_singleton]

/-- The history of one first start. -/
theorem good_iff_updated : ∃ tr s, Runs (Step updated) start tr s ∧ s.pc = .up false ∧
    (∀ e ∈ tr, Good updated e.1) ∧ Good updated s := by
  obtain ⟨tr, s, hrun, hmeets, hpc, -⟩ := first_start updated false
  exact ⟨tr, s, hrun, hpc, (good_iff hrun).mpr hmeets⟩

/-- A crash in a removal is one way to files that are not right, and two bundles with one stream are another. -/
theorem not_trustworthy : (¬ ∀ tr s, Runs (Step updated) start tr s → Good updated s) ∧
    ¬ ∀ tr s, Runs (Step twins) start tr s → Good twins s := by
  refine ⟨fun hclaim => ?_, fun hclaim => ?_⟩
  · have hp : (updated.bundle false).content (bytes "shell.qml") = some (bytes "1") := by decide
    obtain ⟨tr, s, hrun, hpc, hgone⟩ := torn_accepted updated true hp
    have hthere := hclaim tr s hrun false hpc (bytes "shell.qml") (by decide)
    rw [hp, hgone] at hthere
    cases hthere
  · have hstream : (twins.bundle false).stream = (twins.bundle true).stream := by decide
    obtain ⟨tr, s, hrun, hpc, hothers⟩ := twin_accepted twins hstream
    have hown := hclaim tr s hrun true hpc
    have hcontent := congrFun (hothers.content_eq hown) (bytes "components/a")
    exact absurd hcontent (by decide)

end Tilbo.Daemon.GuiBundle
