import Tilbo.Daemon.Embeddings

/-! # Rows of files that are gone

A path gets its row from a `SyncFileApply`, and the operation that makes it has read the attributes of the file some
calls before. If the file goes in between, and its row is deleted, the row comes back for a file that is not there, and
no event will tell of it. `row_gone_iff` says which runs leave no such row. -/

namespace Tilbo.Daemon.Ghosts

open Tilbo.Daemon.State Tilbo.Daemon.Handlers Tilbo.Daemon.Operations Tilbo.Daemon.Moments
open Tilbo.Daemon.Embeddings (observed follows_observed)
open Tilbo.Index.Schema Tilbo.Index.Store Tilbo.Index.StoreSpec Tilbo.Index.RowSpec Tilbo.Harvester.Meta
open Tilbo.Lib.Rows Tilbo.Lib.Txn Tilbo.Lib.Process Tilbo.Lib.Process.Proc

variable {F ι : Type} (P : Platform F)

/-! ### What becomes of a row -/

section Calls
variable (path : String) (c : Moment F)

/-- The call gives the path a row. -/
def Enters : Prop := ∃ stat tags now i, c.label = .syncFileApply path stat tags now (.ok i)

/-- The call takes the row of the path away: a deletion of the file, or a purge that the row is stale for. -/
def Erases : Prop :=
  c.label = .deleteFile path (.ok ()) ∨ ∃ base since, c.label = .deleteStaleFiles base since (.ok ()) ∧
    ∃ f ∈ c.before.store.db.files, f.path = path ∧ stale base since f = true

/-- A run that takes the row away. -/
def Erased (tr : List (ι × Moment F)) : Prop := ∃ e ∈ tr, Erases path e.2

variable {path c} {S : Source} {h : List (Moment F)} {s s' : DB} {p : FileRow → Bool}

theorem hasPath_of_files (hfiles : s'.files = s.files) : s'.HasPath path ↔ s.HasPath path := by
  unfold Tables.HasPath
  rw [hfiles]

theorem hasPath_deleted (hd : Deleted p s s') :
    s'.HasPath path ↔ ∃ f ∈ s.files, f.path = path ∧ p f = false := by
  have hmem : ∀ f, f ∈ s'.files ↔ f ∈ s.files ∧ p f = false := by
    intro f
    rw [hd.removed.files, List.mem_filter, Bool.not_eq_true']
  simp only [Tables.HasPath, hmem]
  exact exists_congr fun f => by tauto

/-- A call that neither enters nor erases the row leaves it. -/
theorem hasPath_touches (ht : Touches S h c) (henters : ¬ Enters path c) (herases : ¬ Erases path c) :
    c.after.db.HasPath path ↔ c.before.store.db.HasPath path := by
  unfold Touches at ht
  dsimp only at ht
  split at ht
  · rename_i path' stat tags now i hlabel
    obtain ⟨md, sourceMap, -, happlied⟩ := ht
    have hne : path' ≠ path := by
      rintro rfl
      exact henters ⟨stat, tags, now, i, hlabel⟩
    simp only [Tables.HasPath, happlied.files]
    refine ⟨?_, ?_⟩
    · rintro ⟨f, ⟨hf, -⟩ | rfl, hpath⟩
      · exact ⟨f, hf, hpath⟩
      · exact absurd hpath hne
    · rintro ⟨f, hf, rfl⟩
      exact ⟨f, .inl ⟨hf, fun heq => hne heq.symm⟩, rfl⟩
  · rename_i path' r hlabel
    have hne : path' ≠ path := by
      rintro rfl
      exact herases (.inl hlabel)
    rw [hasPath_deleted ht.1]
    refine exists_congr fun f => and_congr_right fun _ => and_iff_left_of_imp ?_
    rintro rfl
    exact decide_eq_false fun heq => hne heq.symm
  · rename_i base since r hlabel
    rw [hasPath_deleted ht.1]
    refine exists_congr fun f => and_congr_right fun hf => and_iff_left_of_imp fun hpath => ?_
    by_contra hstale
    exact herases (.inr ⟨base, since, hlabel, f, hf, hpath, Bool.of_not_eq_false hstale⟩)
  · rcases ht with hsame | ⟨path', i, key, value, -, -, hmeta⟩ | ⟨path', i, vec, -, -, hwrote⟩
    · exact hasPath_of_files hsame.files
    · exact hasPath_of_files hmeta.files
    · exact hasPath_of_files hwrote.files
  · exact hasPath_of_files ht.files

theorem hasPath_enters (ht : Touches S h c) (henters : Enters path c) :
    c.after.db.HasPath path ∧ ∃ md, ReadsMeta h path md := by
  obtain ⟨stat, tags, now, i, hlabel⟩ := henters
  unfold Touches at ht
  rw [hlabel] at ht
  obtain ⟨md, sourceMap, hread, happlied⟩ := ht
  exact ⟨⟨_, (happlied.files _).mpr (.inr rfl), rfl⟩, md, hread⟩

theorem hasPath_erases (ht : Touches S h c) (herases : Erases path c) : ¬ c.after.db.HasPath path := by
  unfold Touches at ht
  rcases herases with hlabel | ⟨base, since, hlabel, f, hf, hpath, hstale⟩
  · rw [hlabel] at ht
    rw [hasPath_deleted ht.1]
    rintro ⟨f, -, hpath, hno⟩
    exact absurd hpath (of_decide_eq_false hno)
  · rw [hlabel] at ht
    rw [hasPath_deleted ht.1]
    rintro ⟨f', hf', hpath', hno⟩
    -- The path has one row only.
    have heq : f' = f := c.before.store.db.valid.filesPath.eq_of_mem hf' hf (hpath'.trans hpath.symm)
    rw [heq, hstale] at hno
    cases hno

theorem not_enters_of_erases (herases : Erases path c) : ¬ Enters path c := by
  rintro ⟨stat, tags, now, i, hlabel⟩
  rcases herases with hdelete | ⟨base, since, hpurge, -⟩
  · rw [hlabel] at hdelete
    cases hdelete
  · rw [hlabel] at hpurge
    cases hpurge

end Calls

/-! ### Runs -/

section Runs
variable [DecidableEq ι] {w : World} {ops : ι → Operation F} {envs : ι → Env F} {path : String}
  {earlier tr : List (ι × Moment F)} {M T : Pool ι World (Moment F) OpError Unit} {i : ι} {c : Moment F}

/-- The operation has read the attributes of the file. -/
def UnderWay (earlier : List (ι × Moment F)) (path : String) (i : ι) : Prop := ∃ md, ReadsMeta (history i earlier) path md

/-- The row that there was is taken away, and so is each that an operation still gives the path which was under way. -/
structure Cleared (earlier : List (ι × Moment F)) (path : String) (had : Prop) (tr : List (ι × Moment F)) : Prop where
  first : had → Erased path tr
  late : ∀ a i c b, tr = a ++ (i, c) :: b → Enters path c → UnderWay earlier path i → Erased path b

variable {had : Prop}

omit [DecidableEq ι] in
/-- A place in a run that goes on for one more call. -/
theorem split_snoc {x y : ι × Moment F} {a b : List (ι × Moment F)} (h : tr ++ [x] = a ++ y :: b) :
    b = [] ∧ a = tr ∧ y = x ∨ ∃ b', b = b' ++ [x] ∧ tr = a ++ y :: b' := by
  rcases List.eq_nil_or_concat b with rfl | ⟨b', e, rfl⟩
  · obtain ⟨htr, hlast⟩ := List.append_inj' h rfl
    exact .inl ⟨rfl, htr.symm, (List.singleton_inj.mp hlast).symm⟩
  · rw [List.concat_eq_append, ← List.cons_append, ← List.append_assoc] at h
    obtain ⟨htr, hlast⟩ := List.append_inj' h rfl
    obtain rfl := List.singleton_inj.mp hlast
    exact .inr ⟨b', List.concat_eq_append, htr⟩

omit [DecidableEq ι] in
theorem erased_snoc : Erased path (tr ++ [(i, c)]) ↔ Erased path tr ∨ Erases path c := by
  simp [Erased, or_and_right, exists_or]

theorem cleared_snoc : Cleared earlier path had (tr ++ [(i, c)]) ↔
    Erases path c ∨ Cleared earlier path had tr ∧ ¬ (Enters path c ∧ UnderWay earlier path i) := by
  refine ⟨fun h => ?_, ?_⟩
  · by_cases herases : Erases path c
    · exact .inl herases
    · refine .inr ⟨⟨fun hhad => ?_, fun a j d b htr henters hunder => ?_⟩, ?_⟩
      · exact (erased_snoc.mp (h.first hhad)).resolve_right herases
      · have hb : Erased path (b ++ [(i, c)]) := h.late a j d (b ++ [(i, c)]) (by rw [htr]; simp) henters hunder
        exact (erased_snoc.mp hb).resolve_right herases
      · rintro ⟨henters, hunder⟩
        obtain ⟨e, he, -⟩ := h.late tr i c [] rfl henters hunder
        exact List.not_mem_nil he
  · rintro (herases | ⟨h, hno⟩)
    · refine ⟨fun _ => erased_snoc.mpr (.inr herases), fun a j d b htr henters _ => ?_⟩
      rcases split_snoc htr with ⟨-, -, hlast⟩ | ⟨b, rfl, -⟩
      · cases hlast
        exact absurd henters (not_enters_of_erases herases)
      · exact erased_snoc.mpr (.inr herases)
    · refine ⟨fun hhad => erased_snoc.mpr (.inl (h.first hhad)), fun a j d b htr henters hunder => ?_⟩
      rcases split_snoc htr with ⟨-, -, hlast⟩ | ⟨b, rfl, htr'⟩
      · cases hlast
        exact absurd ⟨henters, hunder⟩ hno
      · exact erased_snoc.mpr (.inl (h.late a j d b htr' henters hunder))

/-- Attributes are read of a file that is there, and so were read before it went. -/
theorem underWay_of_reads {h : List (Moment F)} {md : List (String × String)}
    (hmissing : ∀ d ∈ h, d.before.store.files path = none)
    (hread : ReadsMeta (history i earlier ++ h) path md) : UnderWay earlier path i := by
  obtain ⟨a, r, d, b, hsplit, htags, hmd⟩ := hread
  have hd : d ∉ h := by
    intro hd
    rw [hmissing d hd] at hmd
    cases hmd
  have hsplit' : history i earlier ++ h = ((a ++ [r]) ++ [d]) ++ b := by rw [hsplit]; simp
  rcases List.append_eq_append_iff.mp hsplit' with ⟨k, hk, hrest⟩ | ⟨k, hk, -⟩
  · rcases List.eq_nil_or_concat k with rfl | ⟨k, e, rfl⟩
    · rw [List.append_nil] at hk
      exact ⟨md, a, r, d, [], by rw [← hk]; simp, htags, hmd⟩
    · rw [List.concat_eq_append, ← List.append_assoc] at hk
      obtain ⟨-, hlast⟩ := List.append_inj' hk rfl
      obtain rfl := List.singleton_inj.mp hlast
      exact absurd (by rw [hrest]; simp) hd
  · exact ⟨md, a, r, d, k, by rw [hk]; simp, htags, hmd⟩

/-- **A row outlives its file** exactly if nothing takes it away once the file is gone, or an operation that had read the
attributes before gives it back after the last deletion. In every run, from any state `M` on and for as long as the file
is not there. -/
theorem row_gone_iff (hbefore : Run (observed P w ops envs) earlier M) (hrun : Run M tr T)
    (hmissing : ∀ e ∈ tr, e.2.before.store.files path = none) :
    ¬ T.store.db.HasPath path ↔ Cleared earlier path (M.store.db.HasPath path) tr := by
  have hfollows := (hbefore.history (fun _ _ => True) (follows_observed P) trivial fun _ _ _ _ _ => trivial).2
  refine (hrun.history (fun tr w' => (∀ e ∈ tr, e.2.before.store.files path = none) →
    (¬ w'.db.HasPath path ↔ Cleared earlier path (M.store.db.HasPath path) tr)) hfollows ?_ ?_).1 hmissing
  · refine fun _ => ⟨fun h => ⟨fun hhad => absurd hhad h, fun a j d b htr => ?_⟩, fun h hhad => ?_⟩
    · exact absurd (congrArg List.length htr) (by simp)
    · obtain ⟨e, he, -⟩ := h.first hhad
      exact List.not_mem_nil he
  · intro tr i c ht ih hmissing
    have ih := ih fun e he => hmissing e (List.mem_append_left _ he)
    rw [cleared_snoc]
    by_cases herases : Erases path c
    · exact iff_of_true (hasPath_erases ht herases) (.inl herases)
    · by_cases henters : Enters path c
      · obtain ⟨hhas, md, hread⟩ := hasPath_enters ht henters
        have hunder : UnderWay earlier path i := by
          refine underWay_of_reads (fun d hd => ?_) hread
          exact hmissing (i, d) (List.mem_append_left _ (mem_history.mp hd))
        refine iff_of_false (not_not_intro hhas) ?_
        rintro (h | ⟨-, hno⟩)
        · exact herases h
        · exact hno ⟨henters, hunder⟩
      · rw [hasPath_touches ht henters herases, ih]
        simp [herases, henters]

end Runs

/-! ### A file that goes while it is synchronised -/

/-- Who is at work. -/
inductive Party where
  | scan
  | program
  | watcher
deriving DecidableEq

/-- A scan has found `/a`, another program removes it, and there is an event for that. -/
def removalOps : Party → Operation Unit
  | .scan => .syncFile "/a" ⟨1, 1, 1, 1⟩
  | .program => .external fun files => some (Function.update files "/a" none)
  | .watcher => .handleFSEvent { path := "/a", kind := .delete }

/-- The scan has read the attributes when the file goes. -/
def removalRead : List (Party × Moment Unit) × Pool Party World (Moment Unit) OpError Unit :=
  (observed plainPlatform (worldOf DB.empty [("/a", { stat := ⟨1, 1, 1, 1⟩ })]) removalOps fun _ => plainEnv []).exec
    (calls .scan 3 ++ calls .program 1)

/-- The event is handled before the scan applies what it has read. -/
def removalRun : List (Party × Moment Unit) × Pool Party World (Moment Unit) OpError Unit :=
  removalRead.2.exec (calls .watcher 1 ++ calls .scan 1)

theorem row_gone_iff_removal : removalRun.2.store.files "/a" = none ∧ removalRun.2.store.db.HasPath "/a" ∧
    (∃ e ∈ removalRun.1, Erases "/a" e.2) ∧
    ¬ Cleared removalRead.1 "/a" (removalRead.2.store.db.HasPath "/a") removalRun.1 := by
  have hmissing : (removalRun.1.all fun e => (e.2.before.store.files "/a").isNone) = true := by decide +kernel
  have herased : (removalRun.1.map fun e => e.2.label).head? = some (.deleteFile "/a" (.ok ())) := by rfl
  have hhas : removalRun.2.store.db.HasPath "/a" := by
    have hfiles : removalRun.2.store.db.files = [⟨1, "/a", 1, 1, 1, 1, 0⟩] := by decide +kernel
    exact ⟨_, by rw [hfiles]; exact List.mem_singleton_self _, rfl⟩
  obtain ⟨e, he, hlabel⟩ := List.mem_map.mp (List.mem_of_mem_head? herased)
  refine ⟨by decide +kernel, hhas, ⟨e, he, .inl hlabel⟩, fun hcleared => ?_⟩
  refine (row_gone_iff plainPlatform (Pool.run_exec _ _) (Pool.run_exec _ _) fun e he => ?_).mpr hcleared hhas
  exact Option.isNone_iff_eq_none.mp (List.all_eq_true.mp hmissing e he)

end Tilbo.Daemon.Ghosts
