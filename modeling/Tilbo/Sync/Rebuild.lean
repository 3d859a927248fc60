import Tilbo.Index.Entries
import Tilbo.Daemon.Operations

/-! # Synchronising against rebuilding

The index is meant to be a cache of the extended attributes: `SyncFile` on every file should leave what it
leaves in an empty index. It replaces the tags of a file but only adds to its metadata and provenance,
so what an earlier operation left under a key that the attributes no longer have stays. -/

namespace Tilbo.Sync.Rebuild

open Tilbo.Daemon.State Tilbo.Daemon.Calls Tilbo.Daemon.Operations Tilbo.Sync.SyncFile Tilbo.Xattr.Service
open Tilbo.Xattr.Csv
open Tilbo.Index.Schema Tilbo.Index.Store Tilbo.Index.StoreSpec Tilbo.Index.StoreRuns Tilbo.Index.Entries
open Tilbo.Harvester.Meta Tilbo.Lib.Txn Tilbo.Lib.Process Tilbo.Lib.Process.Proc

variable {F : Type} (P : Platform F) (env : Env F)

/-! ### The attributes of a file -/

/-- What `ReadSource` finds if its read goes through. -/
def xattrSource (w : World) (path : String) : Option (List (String × String)) :=
  match (w.files path).bind File.source with
  | some val => if val = "" then some [] else P.unmarshal val
  | none => some []

/-- What the attributes of a file say. -/
structure Attributes where
  tags : List String
  metadata : List (String × String)
  source : List (String × String)

/-- The attributes of the file, if there is one and they parse. -/
def attributes (w : World) (path : String) : Option Attributes :=
  match w.files path, xattrTags w path, xattrSource P w path with
  | some f, .ok tags, some source => some ⟨tags, f.metadata, source⟩
  | _, _, _ => none

/-! ### The runs -/

/-- `SyncFile` on one file after the other; the scan goes on after an error. -/
def syncFiles (files : List (String × FileStat)) : Op F Unit :=
  each (fun f => do
    let _ ← orElse false (syncFile P env f.1 f.2)
    pure ()) files

/-- The world afterwards, if nothing fails from outside. -/
def synced (files : List (String × FileStat)) (w : World) : World :=
  (run (syncFiles P env files) ⟨w, []⟩).2.store

/-- For every file, the index says what it would say if it had been empty before. -/
def EqualsRebuild (files : List (String × FileStat)) (w : World) : Prop :=
  ∀ f ∈ files, SameEntry (synced P env files { w with db := DB.empty }).db (synced P env files w).db f.1

/-- The index has nothing of the file under keys that its attributes do not have. -/
def NothingLeftOver (w : World) (path : String) : Prop :=
  match attributes P w path with
  | some a => (∀ k v, MetaAt w.db path k v → k ∈ a.metadata.map Prod.fst) ∧
      ∀ n r, SourceAt w.db path n r → n ∈ a.source.map Prod.fst
  -- `SyncFile` fails, and leaves the entry as it is.
  | none => (∀ n, ¬ TagAt w.db path n) ∧ (∀ k v, ¬ MetaAt w.db path k v) ∧ ∀ n r, ¬ SourceAt w.db path n r

/-! ### One `SyncFile` -/

section Reads
variable {P} {w : World} {path : String}

theorem runs_get {α : Type} {f : File → Option α} {a : α} (h : (w.files path).bind f = some a) :
    Runs (get path f) w (.ok a) w := Runs.stmt (by simp only [h])

theorem runs_get_none {α : Type} {f : File → Option α} (h : (w.files path).bind f = none) :
    Runs (get path f) w (.error .errno) w := Runs.stmt_error (by simp only [h])

theorem runs_ctxErr : Runs ctxErr w (.ok ()) w := Runs.stmt rfl

theorem runs_readTags (w : World) (path : String) : Runs (readTags path) w (match xattrTags w path with
    | .ok tags => .ok tags
    | .error e => .error (.wrapped "xattr parse tags %q: %w" [path] (.csv e))) w := by
  refine runs_ctxErr.andThen ?_
  unfold xattrTags
  cases hval : (w.files path).bind File.tags with
  | none => exact (runs_get_none hval).attempt.andThen Runs.ret
  | some val =>
    refine (runs_get hval).attempt.andThen ?_
    simp only
    cases parseTags val with
    | ok tags => exact Runs.ret
    | error e => exact Runs.fail

theorem runs_readAllMeta {f : File} (hf : w.files path = some f) :
    Runs (readAllMeta path) w (.ok f.metadata) w := by
  have step : ∀ kv ∈ f.metadata, Runs (do
      let _ ← errorf "xattr read meta %q attr %q: %w" [path, "user.meta." ++ kv.1]
        (get path fun f => f.metadata.lookup kv.1)) w (.ok ()) w := by
    intro kv hkv
    have hkey : ∃ v, f.metadata.lookup kv.1 = some v := by
      rw [← Option.isSome_iff_exists, List.lookup_isSome_iff]
      exact ⟨kv, hkv, by simp⟩
    obtain ⟨v, hv⟩ := hkey
    exact (Runs.wrap (runs_get (a := v) (by simp [hf, hv]))).andThen Runs.ret
  have loop : ∀ done kv rest s, f.metadata = done ++ kv :: rest → s = w →
      ∃ w', Runs (do
        let _ ← errorf "xattr read meta %q attr %q: %w" [path, "user.meta." ++ kv.1]
          (get path fun f => f.metadata.lookup kv.1)) s (.ok ()) w' ∧ w' = w := by
    rintro done kv rest s hl rfl
    exact ⟨s, step kv (by rw [hl]; simp), rfl⟩
  obtain ⟨w', hloop, rfl⟩ := Runs.each (fun _ w' => w' = w) loop rfl
  exact runs_ctxErr.andThen ((Runs.wrap (runs_get (a := f.metadata) (by simp [hf]))).andThen
    (hloop.andThen Runs.ret))

theorem runs_readAllMeta_none (hf : w.files path = none) :
    ∃ e, Runs (readAllMeta path) w (.error e) w :=
  ⟨_, runs_ctxErr.andThen (Runs.wrap (runs_get_none (by simp [hf]))).andThen_error⟩

theorem runs_readSource (P : Platform F) (w : World) (path : String) :
    Runs (readSource P path) w (match xattrSource P w path with
    | some m => .ok m
    | none => .error (.wrapped "xattr parse source %q: %w" [path] .json)) w := by
  refine runs_ctxErr.andThen ?_
  unfold xattrSource
  cases hval : (w.files path).bind File.source with
  | none => exact (runs_get_none hval).attempt.andThen Runs.ret
  | some val =>
    refine (runs_get hval).attempt.andThen ?_
    by_cases hempty : val = ""
    · simp only [hempty, if_true]
      exact Runs.ret
    · simp only [hempty, if_false]
      cases P.unmarshal val with
      | some m => exact Runs.ret
      | none => exact Runs.fail

end Reads

section SyncFile
variable {P} {env} {w : World} {path : String} {stat : FileStat}

theorem runs_onIndex {α : Type} {m : Sql α} {a : α} {db : DB} (h : Runs m w.db (.ok a) db) :
    Runs (onIndex m) w (.ok a) { w with db := db } := h.zoom.wrap

theorem runs_getFileStat (w : World) (path : String) : ∃ r, Runs (onIndex (getFileStat path)) w r w := by
  cases hf : Lib.Rows.lookup FileRow.path w.db.files path with
  | none => exact ⟨_, ((Runs.wrap (runs_queryRow_none (by simp only [hf, Option.map_none]))).zoom).wrap⟩
  | some f => exact ⟨_, ((Runs.wrap (runs_queryRow (a := (f.mtime, f.sizeBytes)) (by simp [hf]))).zoom).wrap⟩

theorem runs_needsHarvest (w : World) (path : String) (stat : FileStat) (md : List (String × String)) :
    ∃ b, Runs (run (needsHarvest (F := F) path md stat)) w (.ok b) w := by
  unfold needsHarvest
  split_ifs with hmime
  · exact ⟨true, Runs.ret⟩
  · obtain ⟨r, hstat⟩ := runs_getFileStat w path
    rw [run_andThen, run_attempt]
    cases r with
    | error e => exact ⟨_, hstat.attempt.andThen Runs.ret⟩
    | ok st => exact ⟨_, hstat.attempt.andThen Runs.ret⟩

/-- `SyncFile` on a file whose attributes parse. -/
theorem runs_syncFile (P : Platform F) (env : Env F) (path : String) (stat : FileStat) {a : Attributes}
    (ha : attributes P w path = some a) :
    ∃ b db i, Runs (run (syncFile P env path stat)) w (.ok b) { w with db := db } ∧
      Applied path stat a.tags a.metadata a.source env.now i w.db db := by
  unfold attributes at ha
  split at ha
  · rename_i f tags source hf htags hsource
    cases ha
    have hread : Runs (readTags path) w (.ok tags) w := by simpa [htags] using runs_readTags w path
    have hmeta : Runs (readAllMeta path) w (.ok f.metadata) w := runs_readAllMeta hf
    have hsrc : Runs (readSource P path) w (.ok source) w := by
      simpa [hsource] using runs_readSource P w path
    obtain ⟨b, hharvest⟩ := runs_needsHarvest (F := F) w path stat f.metadata
    obtain ⟨i, db, happly, hdone⟩ := runs_syncFileApply w.db path stat tags f.metadata source env.now
    refine ⟨b, db, i, ?_, hdone⟩
    simp only [syncFile, run_andThen, Daemon.State.call, run_atom, run_pure]
    exact hread.wrap.andThen (hmeta.wrap.andThen (hsrc.wrap.andThen (hharvest.andThen
      ((runs_onIndex happly).wrap.andThen Runs.ret))))
  · cases ha

/-- `SyncFile` on any other file changes nothing. -/
theorem runs_syncFile_none (P : Platform F) (env : Env F) (path : String) (stat : FileStat)
    (ha : attributes P w path = none) :
    ∃ e, Runs (run (syncFile P env path stat)) w (.error e) w := by
  simp only [syncFile, run_andThen, Daemon.State.call, run_atom, run_pure]
  have hread := runs_readTags w path
  cases htags : xattrTags w path with
  | error e =>
    rw [htags] at hread
    exact ⟨_, hread.wrap.andThen_error⟩
  | ok tags =>
    rw [htags] at hread
    cases hf : w.files path with
    | none =>
      obtain ⟨e, hmeta⟩ := runs_readAllMeta_none hf
      exact ⟨_, hread.wrap.andThen hmeta.wrap.andThen_error⟩
    | some f =>
      have hsrc := runs_readSource P w path
      cases hsource : xattrSource P w path with
      | some source => exact absurd ha (by simp [attributes, hf, htags, hsource])
      | none =>
        rw [hsource] at hsrc
        exact ⟨_, hread.wrap.andThen ((runs_readAllMeta hf).wrap.andThen hsrc.wrap.andThen_error)⟩

end SyncFile

/-! ### A run over the files -/

/-- What `SyncFile` makes of the entry of a file with these attributes. -/
def After (path : String) (s s' : DB) : Option Attributes → Prop
  | some a => (∀ n, TagAt s' path n ↔ n ∈ a.tags) ∧
      (∀ k v, MetaAt s' path k v ↔ overlay a.metadata (MetaAt s path) k v) ∧
      ∀ n r, SourceAt s' path n r ↔ overlay a.source (SourceAt s path) n r
  | none => SameEntry s s' path

section Runs
variable {P} {env} {w w' : World} {path : String} {s₀ s₁ s₂ : DB} {a : Option Attributes}

theorem attributes_congr (h : w'.files = w.files) : attributes P w' path = attributes P w path := by
  simp only [attributes, xattrTags, xattrSource, h]

theorem overlay_congr {l : List (String × String)} {old old' : String → String → Prop}
    (h : ∀ k v, old' k v ↔ old k v) (k v : String) : overlay l old' k v ↔ overlay l old k v := by
  unfold overlay
  cases Index.StoreSpec.lastValue l k with
  | some x => rfl
  | none => exact h k v

theorem After.trans (h : After path s₀ s₁ a) (h' : After path s₁ s₂ a) : After path s₀ s₂ a := by
  cases a with
  | none => exact SameEntry.trans h h'
  | some a =>
    obtain ⟨-, hmeta, hsource⟩ := h
    obtain ⟨htags, hmeta', hsource'⟩ := h'
    refine ⟨htags, fun k v => ?_, fun n r => ?_⟩
    · exact (hmeta' k v).trans ((overlay_congr hmeta k v).trans overlay_overlay)
    · exact (hsource' n r).trans ((overlay_congr hsource n r).trans overlay_overlay)

theorem After.of_same (h : SameEntry s₀ s₁ path) (h' : After path s₁ s₂ a) : After path s₀ s₂ a := by
  cases a with
  | none => exact SameEntry.trans h h'
  | some a =>
    obtain ⟨htags, hmeta, hsource⟩ := h'
    exact ⟨htags, fun k v => (hmeta k v).trans (overlay_congr h.value k v),
      fun n r => (hsource n r).trans (overlay_congr h.source n r)⟩

theorem After.then_same (h : After path s₀ s₁ a) (h' : SameEntry s₁ s₂ path) : After path s₀ s₂ a := by
  cases a with
  | none => exact SameEntry.trans h h'
  | some a =>
    obtain ⟨htags, hmeta, hsource⟩ := h
    exact ⟨fun n => (h'.tag n).trans (htags n), fun k v => (h'.value k v).trans (hmeta k v),
      fun n r => (h'.source n r).trans (hsource n r)⟩

/-- One file of the run. -/
theorem runs_step (w : World) (path : String) (stat : FileStat) :
    ∃ w', Runs (run (do
        let _ ← orElse false (syncFile P env path stat)
        pure ())) w (.ok ()) w' ∧
      w'.files = w.files ∧ After path w.db w'.db (attributes P w path) ∧
      ∀ q ≠ path, SameEntry w.db w'.db q := by
  simp only [run_andThen, orElse, run_attempt, run_pure]
  cases ha : attributes P w path with
  | none =>
    obtain ⟨e, hrun⟩ := runs_syncFile_none P env path stat ha
    refine ⟨w, Runs.andThen (a := false) (hrun.attempt.andThen ?_) Runs.ret, rfl, SameEntry.refl _ _,
      fun q _ => SameEntry.refl _ _⟩
    exact Runs.ret
  | some a =>
    obtain ⟨b, db, i, hrun, happlied⟩ := runs_syncFile P env path stat ha
    refine ⟨{ w with db := db }, Runs.andThen (a := b) (hrun.attempt.andThen ?_) Runs.ret, rfl,
      ⟨tagAt_applied happlied, metaAt_applied happlied, sourceAt_applied happlied⟩,
      fun q hq => sameEntry_applied happlied hq⟩
    exact Runs.ret

/-- **A run over the files** makes of each entry what one `SyncFile` makes of it. -/
theorem after_synced (files : List (String × FileStat)) (w : World) :
    ∀ f ∈ files, After f.1 w.db (synced P env files w).db (attributes P w f.1) := by
  have step : ∀ (done : List (String × FileStat)) (f : String × FileStat) (rest : List (String × FileStat))
      (w₁ : World), files = done ++ f :: rest →
      (w₁.files = w.files ∧ ∀ q, (q ∈ done.map Prod.fst → After q w.db w₁.db (attributes P w q)) ∧
        (q ∉ done.map Prod.fst → SameEntry w.db w₁.db q)) →
      ∃ w₂, Runs (run (do
          let _ ← orElse false (syncFile P env f.1 f.2)
          pure ())) w₁ (.ok ()) w₂ ∧
        w₂.files = w.files ∧ ∀ q, (q ∈ (done ++ [f]).map Prod.fst → After q w.db w₂.db (attributes P w q)) ∧
          (q ∉ (done ++ [f]).map Prod.fst → SameEntry w.db w₂.db q) := by
    rintro done f rest w₁ - ⟨hfiles, hdone⟩
    obtain ⟨w₂, hrun, hfiles₂, hafter, hothers⟩ := @runs_step F P env w₁ f.1 f.2
    rw [attributes_congr hfiles] at hafter
    refine ⟨w₂, hrun, hfiles₂.trans hfiles, fun q => ⟨fun hq => ?_, fun hq => ?_⟩⟩
    · by_cases hqf : q = f.1
      · subst hqf
        by_cases hin : f.1 ∈ done.map Prod.fst
        · exact ((hdone _).1 hin).trans hafter
        · exact After.of_same ((hdone _).2 hin) hafter
      · have hin : q ∈ done.map Prod.fst := by simpa [hqf] using hq
        exact ((hdone q).1 hin).then_same (hothers q hqf)
    · have hin : q ∉ done.map Prod.fst ∧ q ≠ f.1 := by simpa using hq
      exact ((hdone q).2 hin.1).trans (hothers q hin.2)
  obtain ⟨w', hrun, -, hall⟩ := Runs.each (s := w) (fun done w₁ => w₁.files = w.files ∧
    ∀ q, (q ∈ done.map Prod.fst → After q w.db w₁.db (attributes P w q)) ∧
      (q ∉ done.map Prod.fst → SameEntry w.db w₁.db q)) step
    ⟨rfl, fun q => ⟨fun hq => absurd hq (by simp), fun _ => SameEntry.refl _ _⟩⟩
  have hsynced : synced P env files w = w' := by
    unfold synced syncFiles
    rw [run_each, hrun]
  exact fun f hf => hsynced ▸ (hall f.1).1 (List.mem_map_of_mem hf)

end Runs

/-! ### Equal to a rebuild -/

theorem entry_empty (path : String) : (∀ n, ¬ TagAt DB.empty path n) ∧ (∀ k v, ¬ MetaAt DB.empty path k v) ∧
    ∀ n r, ¬ SourceAt DB.empty path n r := by
  have hno : DB.empty.fileId path = none := rfl
  simp [TagAt, MetaAt, SourceAt, hno]

/-- **Synchronising equals rebuilding** exactly if the index has nothing under keys that the attributes do
not have. -/
theorem equalsRebuild_iff (files : List (String × FileStat)) (w : World) :
    EqualsRebuild P env files w ↔ ∀ f ∈ files, NothingLeftOver P w f.1 := by
  refine forall₂_congr fun f hf => ?_
  have hold := @after_synced F P env files w f hf
  have hnew := @after_synced F P env files { w with db := DB.empty } f hf
  have hattrs : attributes P { w with db := DB.empty } f.1 = attributes P w f.1 := attributes_congr rfl
  obtain ⟨htag, hmeta, hsource⟩ := entry_empty f.1
  rw [hattrs] at hnew
  unfold NothingLeftOver
  generalize attributes P w f.1 = a at hold hnew
  cases a with
  | none =>
    obtain ⟨holdTag, holdMeta, holdSource⟩ := hold
    obtain ⟨newTag, newMeta, newSource⟩ := hnew
    refine ⟨fun h => ⟨fun n => ?_, fun k v => ?_, fun n r => ?_⟩, fun ⟨h₁, h₂, h₃⟩ => ⟨fun n => ?_, fun k v => ?_,
      fun n r => ?_⟩⟩
    · rw [← holdTag, h.tag, newTag]
      exact htag n
    · rw [← holdMeta, h.value, newMeta]
      exact hmeta k v
    · rw [← holdSource, h.source, newSource]
      exact hsource n r
    · rw [holdTag, newTag]
      exact iff_of_false (h₁ n) (htag n)
    · rw [holdMeta, newMeta]
      exact iff_of_false (h₂ k v) (hmeta k v)
    · rw [holdSource, newSource]
      exact iff_of_false (h₃ n r) (hsource n r)
  | some a =>
    obtain ⟨hold₁, hold₂, hold₃⟩ := hold
    obtain ⟨hnew₁, hnew₂, hnew₃⟩ := hnew
    have hvalue : (∀ k v, MetaAt (synced P env files w).db f.1 k v ↔
        MetaAt (synced P env files { w with db := DB.empty }).db f.1 k v) ↔
        ∀ k v, MetaAt w.db f.1 k v → k ∈ a.metadata.map Prod.fst := by
      rw [← overlay_eq_iff]
      refine forall₂_congr fun k v => ?_
      rw [hold₂, hnew₂, @overlay_congr _ (fun _ _ => False) _ fun k v => iff_false_intro (hmeta k v)]
    have hprov : (∀ n r, SourceAt (synced P env files w).db f.1 n r ↔
        SourceAt (synced P env files { w with db := DB.empty }).db f.1 n r) ↔
        ∀ n r, SourceAt w.db f.1 n r → n ∈ a.source.map Prod.fst := by
      rw [← overlay_eq_iff]
      refine forall₂_congr fun n r => ?_
      rw [hold₃, hnew₃, @overlay_congr _ (fun _ _ => False) _ fun n r => iff_false_intro (hsource n r)]
    refine Iff.trans ?_ (and_congr hvalue hprov)
    exact ⟨fun h => ⟨h.value, h.source⟩, fun ⟨h₂, h₃⟩ => ⟨fun n => (hold₁ n).trans (hnew₁ n).symm, h₂, h₃⟩⟩

/-! ### An attribute that was removed -/

/-- A file with an author. -/
def authored : World := worldOf DB.empty [("/a", { stat := ⟨1, 1, 1, 1⟩, metadata := [("author", "me")] })]

/-- The index after a first `SyncFile`; then the attribute is removed. -/
def anonymous : World :=
  { synced plainPlatform (plainEnv []) [("/a", ⟨1, 1, 1, 1⟩)] authored with
    files := (worldOf DB.empty [("/a", { stat := ⟨1, 1, 1, 1⟩ })]).files }

theorem anonymous_not_rebuilt : ¬ EqualsRebuild plainPlatform (plainEnv []) [("/a", ⟨1, 1, 1, 1⟩)] anonymous := by
  intro h
  have hentry := (h ("/a", ⟨1, 1, 1, 1⟩) (by simp)).value "author" "me"
  have hold : (synced plainPlatform (plainEnv []) [("/a", ⟨1, 1, 1, 1⟩)] anonymous).db.fileId "/a" = some 1 ∧
      (synced plainPlatform (plainEnv []) [("/a", ⟨1, 1, 1, 1⟩)] anonymous).db.metadata =
        [⟨1, 1, "author", "me", "manual"⟩] := by decide +kernel
  have hnew : (synced plainPlatform (plainEnv []) [("/a", ⟨1, 1, 1, 1⟩)]
      { anonymous with db := DB.empty }).db.metadata = [] := by decide +kernel
  have hmeta : MetaAt (synced plainPlatform (plainEnv []) [("/a", ⟨1, 1, 1, 1⟩)] anonymous).db "/a" "author" "me" :=
    ⟨1, hold.1, _, by rw [hold.2]; exact List.mem_singleton_self _, rfl, rfl, rfl⟩
  obtain ⟨i, -, m, hm, -⟩ := hentry.mp hmeta
  rw [hnew] at hm
  exact List.not_mem_nil hm

end Tilbo.Sync.Rebuild
