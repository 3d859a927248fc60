import Tilbo.Daemon.Drops

/-! # Moves that fail halfway

A paste of what was cut renames one path after the other and ends with the first rename that fails. The paths it
reports are those that were moved; the clipboard keeps them all. `resume_iff` says when the rest can be pasted again:
if it was the first rename that failed. -/

namespace Tilbo.Daemon.Resume

open Tilbo.Daemon.Drops

variable {φ ε : Type} {os : Os φ ε} {clipboard : Clipboard} {dest cleanDest : String} {files files' later later' : φ}
  {isMove : Bool} {paths : List String} {t : Transfer} {ts : List Transfer} {err : ε}

/-! ### What is to be shown -/

/-- The transfers succeed, one after the other. -/
inductive Moves (os : Os φ ε) : φ → List Transfer → φ → Prop
  | nil {files : φ} : Moves os files [] files
  | cons {files files₁ files' : φ} {t : Transfer} {ts : List Transfer} (h : t.run os files = (.ok (), files₁))
      (hrest : Moves os files₁ ts files') : Moves os files (t :: ts) files'

/-- What is left to be moved after a paste. -/
def rest (os : Os φ ε) (clipboard : Clipboard) (dest : String) (files : φ) : List String :=
  clipboard.paths.drop (paste os clipboard dest files).1.made.length

/-- After a paste in which the transfer `t` has failed, the transfers that it reports are those that succeeded before
`t`; the clipboard holds the sources from that of `t` on; and a paste at a time when they can be moved moves them. -/
structure Resumable (os : Os φ ε) (clipboard : Clipboard) (dest cleanDest : String) (files : φ)
    (t : Transfer) (err : ε) :
    Prop where
  reported : ∃ before, Moves os files (paste os clipboard dest files).1.made before ∧
    t.run os before = (.error err, (paste os clipboard dest files).2.2) ∧
    (paste os clipboard dest files).1.made ++ [t] <+: clipboard.paths.map (transfer true cleanDest)
  left : (paste os clipboard dest files).2.1 = ⟨rest os clipboard dest files, true⟩
  again : ∀ later later', Moves os later ((rest os clipboard dest files).map (transfer true cleanDest)) later' →
    paste os (paste os clipboard dest files).2.1 dest later =
      (⟨(rest os clipboard dest files).map (transfer true cleanDest), none⟩, ⟨[], true⟩, later')

/-- The first rename of a paste fails. -/
def FirstFails (os : Os φ ε) (clipboard : Clipboard) (cleanDest : String) (files : φ) : Prop :=
  ∃ src rest err, clipboard.paths = src :: rest ∧ ((transfer true cleanDest src).run os files).1 = .error err

/-! ### One paste -/

/-- A paste that fails has made the transfers before the one that failed. -/
theorem transferAll_error (h : (transferAll os isMove cleanDest paths files).1.error = some (.transfer t err)) :
    ∃ before, Moves os files (transferAll os isMove cleanDest paths files).1.made before ∧
      t.run os before = (.error err, (transferAll os isMove cleanDest paths files).2) ∧
      (transferAll os isMove cleanDest paths files).1.made ++ [t] <+: paths.map (transfer isMove cleanDest) := by
  induction paths generalizing files with
  | nil => cases h
  | cons src rest ih =>
    unfold transferAll at h ⊢
    split at h
    · rename_i err' files₁ hrun
      cases h
      exact ⟨files, .nil, hrun, List.prefix_append [transfer isMove cleanDest src] _⟩
    · rename_i files₁ hrun
      obtain ⟨before, hmoves, hfails, hprefix⟩ := ih h
      exact ⟨before, .cons hrun hmoves, hfails, (List.prefix_cons_inj _).mpr hprefix⟩

/-- Transfers that succeed are made. -/
theorem transferAll_moves (h : Moves os files (paths.map (transfer isMove cleanDest)) files') :
    transferAll os isMove cleanDest paths files = (⟨paths.map (transfer isMove cleanDest), none⟩, files') := by
  induction paths generalizing files with
  | nil =>
    cases h
    rfl
  | cons src rest ih =>
    cases h with
    | cons hrun hrest =>
      unfold transferAll
      rw [hrun]
      dsimp only
      rw [ih hrest]
      rfl

/-- What a paste of cut paths does, if there are any. -/
theorem paste_cut (hdest : validatePath dest = .ok cleanDest) (hpaths : paths ≠ []) :
    paste os ⟨paths, true⟩ dest files =
      ((transferAll os true cleanDest paths files).1,
        (if (transferAll os true cleanDest paths files).1.error.isNone then ⟨[], true⟩ else ⟨paths, true⟩),
        (transferAll os true cleanDest paths files).2) := by
  unfold paste
  rw [if_neg hpaths, hdest]
  simp

/-- **A move that can be resumed.** A paste of cut paths in which a rename fails can be resumed exactly if it was the
first one. -/
theorem resume_iff (hmove : clipboard.isMove = true) (hdest : validatePath dest = .ok cleanDest)
    (herr : (paste os clipboard dest files).1.error = some (.transfer t err)) :
    Resumable os clipboard dest cleanDest files t err ↔ FirstFails os clipboard cleanDest files := by
  obtain ⟨paths, isMove⟩ := clipboard
  obtain rfl : isMove = true := hmove
  have hpaths : paths ≠ [] := by
    rintro rfl
    cases herr
  rw [paste_cut hdest hpaths] at herr
  obtain ⟨before, hmoves, hfails, hprefix⟩ := transferAll_error herr
  have hkept : (paste os ⟨paths, true⟩ dest files).2.1 = ⟨paths, true⟩ := by
    rw [paste_cut hdest hpaths]
    dsimp only at herr ⊢
    rw [herr]
    rfl
  have hmade : (paste os ⟨paths, true⟩ dest files).1.made = (transferAll os true cleanDest paths files).1.made := by
    rw [paste_cut hdest hpaths]
  constructor
  · intro h
    have hleft := h.left
    rw [hkept] at hleft
    -- the clipboard has all the paths, so none has been moved
    have hdrop : paths = paths.drop (transferAll os true cleanDest paths files).1.made.length := by
      rw [← hmade]
      exact congrArg Clipboard.paths hleft
    have hnone : (transferAll os true cleanDest paths files).1.made = [] := by
      by_contra hsome
      have hlength := congrArg List.length hdrop
      rw [List.length_drop] at hlength
      have := List.length_pos_iff.mpr hpaths
      have := List.length_pos_iff.mpr hsome
      omega
    rw [hnone] at hmoves hprefix
    cases hmoves
    obtain ⟨src, rest, rfl⟩ := List.exists_cons_of_ne_nil hpaths
    obtain ⟨more, hmore⟩ := hprefix
    obtain rfl : t = transfer true cleanDest src := (List.cons.inj hmore).1
    exact ⟨src, rest, err, rfl, congrArg Prod.fst hfails⟩
  · rintro ⟨src, more, err', hcons, hfirst⟩
    obtain rfl : paths = src :: more := hcons
    have hnone : (transferAll os true cleanDest (src :: more) files).1.made = [] := by
      unfold transferAll
      split
      · rfl
      · rename_i hrun
        rw [hrun] at hfirst
        cases hfirst
    have hrest : rest os ⟨src :: more, true⟩ dest files = src :: more := by
      rw [rest, hmade, hnone]
      rfl
    refine ⟨⟨before, hmade ▸ hmoves, ?_, hmade ▸ hprefix⟩, ?_, fun later later' h => ?_⟩
    · rw [paste_cut hdest hpaths]
      exact hfails
    · rw [hkept, hrest]
    · rw [hrest] at h ⊢
      rw [hkept, paste_cut hdest hpaths, transferAll_moves h]
      rfl

/-! ### A directory that is full -/

/-- A file system of plain files; a rename to the path `full` fails. -/
def withFull (full : String) : Os (List String) String :=
  { plainFiles with
    rename := fun oldpath newpath => do
      if newpath = full then throw "no space left on device"
      plainFiles.rename oldpath newpath }

/-- `/a` and `/b` are cut, and the first rename fails. -/
theorem resume_iff_first : Resumable (withFull "/d/a") ⟨["/a", "/b"], true⟩ "/d" "/d" ["/a", "/b"]
    ⟨true, "/a", "/d/a"⟩ "no space left on device" :=
  have hdest : validatePath "/d" = .ok "/d" := by decide
  (resume_iff rfl hdest rfl).mpr ⟨"/a", ["/b"], "no space left on device", rfl, rfl⟩

/-- `/a` is moved and `/b` is not. The clipboard still holds both, so that another paste, when there is space, fails at
`/a`, which is not there any more. -/
theorem moved_stays_cut :
    (paste (withFull "/d/b") ⟨["/a", "/b"], true⟩ "/d" ["/a", "/b"]).1.made = [⟨true, "/a", "/d/a"⟩] ∧
      (paste (withFull "/d/b") ⟨["/a", "/b"], true⟩ "/d" ["/a", "/b"]).2.1 = ⟨["/a", "/b"], true⟩ ∧
      (paste plainFiles (paste (withFull "/d/b") ⟨["/a", "/b"], true⟩ "/d" ["/a", "/b"]).2.1 "/d"
        (paste (withFull "/d/b") ⟨["/a", "/b"], true⟩ "/d" ["/a", "/b"]).2.2).1.made = [] ∧
      ¬ Resumable (withFull "/d/b") ⟨["/a", "/b"], true⟩ "/d" "/d" ["/a", "/b"] ⟨true, "/b", "/d/b"⟩
        "no space left on device" := by
  refine ⟨by decide, by decide, by decide, fun h => ?_⟩
  exact absurd h.left (by decide)

end Tilbo.Daemon.Resume
