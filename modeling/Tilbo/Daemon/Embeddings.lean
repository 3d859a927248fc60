import Tilbo.Daemon.Moments

/-! # Whose embedding it is

`file_embeddings` refers to files by their id, without a foreign key, and the id a harvest writes to was
looked up before the harvest. An embedding belongs to its file if the file has that id when the
embedding is written, and if the statements of `DeleteFile` whose errors are dropped do not fail; a
deleted file in between leaves a row without a file, or one that another file inherits with the id. -/

namespace Tilbo.Daemon.Embeddings

open Tilbo.Daemon.State Tilbo.Daemon.Handlers Tilbo.Daemon.Operations Tilbo.Daemon.Moments
open Tilbo.Index.Schema Tilbo.Index.Statements Tilbo.Index.Store Tilbo.Index.StoreSpec
open Tilbo.Index.RowSpec Tilbo.Harvester.Meta Tilbo.Lib.Rows Tilbo.Lib.Txn Tilbo.Lib.Process
open Tilbo.Lib.Process.Proc

variable {F ι : Type} (P : Platform F)

/-- One process for each operation, with its calls shown as they happen. -/
def observed (w : World) (ops : ι → Operation F) (envs : ι → Env F) : Pool ι World (Moment F) OpError Unit where
  store := w
  proc i := ((ops i).run P (envs i)).observe

theorem follows_observed {w : World} {ops : ι → Operation F} {envs : ι → Env F} (i : ι) :
    Follows (Protocol.ofHistory (Touches (source P (envs i) (ops i)))) ((observed P w ops envs).proc i)
      (fun _ h => Knows none h) [] := within_run P (envs i) (ops i) [] knows_none

/-- The embedding was computed for the path: by an operation of the run, or the index had it before. -/
def ComputedFor (w : World) (ops : ι → Operation F) (envs : ι → Env F) (path : String) (vec : List UInt32) :
    Prop :=
  (∃ i, (source P (envs i) (ops i)).computes path vec) ∨
    ∃ k, w.db.fileId path = some k ∧ ⟨k, vec⟩ ∈ w.db.fileEmbeddings

/-- Every embedding has a file, and was computed for its path. -/
def Belong (computed : String → List UInt32 → Prop) (s : DB) : Prop :=
  ∀ r ∈ s.fileEmbeddings, ∃ f ∈ s.files, f.id = r.fileId ∧ computed f.path r.embedding

/-- The call is an `UpsertEmbedding` that goes through. -/
def WritesEmbedding (c : Moment F) : Prop :=
  c.label = .other ∧ c.after.db.fileEmbeddings ≠ c.before.store.db.fileEmbeddings

/-- The path has an embedding. -/
def HasEmbedding (s : DB) (path : String) : Prop :=
  ∃ k, s.fileId path = some k ∧ has EmbeddingRow.fileId s.fileEmbeddings k = true

/-- The call finds what its operation relies on: an embedding is written while the path still has the id
that was looked up, and a `DeleteFile` of a path with an embedding has no failure before its last
statement. -/
def Relies [DecidableEq ι] (tr : List (ι × Moment F)) (i : ι) (c : Moment F) : Prop :=
  (WritesEmbedding c → ∀ path k, LookedUp (history i tr) path k → c.before.store.db.fileId path = some k) ∧
  ∀ path, c.label = .deleteFile path (.ok ()) → HasEmbedding c.before.store.db path →
    true ∉ c.before.faults.take 3

/-! ### One call -/

section Calls
variable {computed : String → List UInt32 → Prop} {s s' : DB} {path : String} {k : ℕ} {p : FileRow → Bool}

theorem Belong.sameRows (hb : Belong computed s) (h : SameRows s s') : Belong computed s' := by
  unfold Belong
  rw [h.files, h.embeddings]
  exact hb

theorem Belong.wroteMeta (hb : Belong computed s) {key : String} {value : Option String}
    (h : WroteMeta k key value s s') : Belong computed s' := by
  unfold Belong
  rw [h.files, h.embeddings]
  exact hb

/-- A synchronised file keeps its id and its path. -/
theorem Belong.applied (hb : Belong computed s) {st : FileStat} {tags : List String}
    {md sourceMap : List (String × String)} {now : ℤ} (h : Applied path st tags md sourceMap now k s s') :
    Belong computed s' := by
  intro r hr
  rw [h.embeddings] at hr
  obtain ⟨f, hf, hfr, hc⟩ := hb r hr
  by_cases hp : f.path = path
  · have hid : s.fileId path = some f.id := s.valid.fileId_iff.mpr ⟨f, hf, hp, rfl⟩
    have hk : k = f.id := by rw [h.id, upsertId, hid, Option.getD_some]
    exact ⟨_, (h.files _).mpr (Or.inr rfl), hk.trans hfr, hp ▸ hc⟩
  · exact ⟨f, (h.files f).mpr (Or.inl ⟨hf, hp⟩), hfr, hc⟩

/-- Files that go take their embeddings with them. -/
theorem Belong.deleted (hb : Belong computed s) (h : Deleted p s s') (hp : Purged p s s') :
    Belong computed s' := by
  intro r hr
  obtain ⟨f, hf, hfr, hc⟩ := hb r (h.embeddings r hr)
  refine ⟨f, ?_, hfr, hc⟩
  rw [h.removed.files]
  refine List.mem_filter.mpr ⟨hf, ?_⟩
  by_contra hpf
  have hpick := picks_of_mem hf (by simpa using hpf)
  rw [hfr, hp r hr] at hpick
  exact Bool.noConfusion hpick

/-- A file without an embedding can go alone. -/
theorem purged_of_none (h : Deleted (fun f => f.path = path) s s')
    (hno : ¬ HasEmbedding s path) : Purged (fun f => f.path = path) s s' := by
  refine fun r hr => Bool.eq_false_iff.mpr fun hpick => hno ?_
  simp only [picks, List.any_eq_true, Bool.and_eq_true, decide_eq_true_eq] at hpick
  obtain ⟨f, hf, hfp, hfr⟩ := hpick
  exact ⟨f.id, s.valid.fileId_iff.mpr ⟨f, hf, hfp, rfl⟩, has_iff.mpr ⟨r, h.embeddings r hr, hfr.symm⟩⟩

theorem Belong.wroteEmbedding (hb : Belong computed s) {vec : List UInt32}
    (h : WroteEmbedding k vec s s') (hid : s.fileId path = some k) (hc : computed path vec) :
    Belong computed s' := by
  intro r hr
  rw [h.files]
  rcases (h.embeddings r).mp hr with ⟨hr, -⟩ | rfl
  · exact hb r hr
  · obtain ⟨f, hf, rfl, rfl⟩ := s.valid.fileId_iff.mp hid
    exact ⟨f, hf, rfl, hc⟩

/-- What one call of an operation preserves, if it finds what the operation relies on. -/
theorem Belong.touches [DecidableEq ι] {S : Source} (hS : ∀ path vec, S.computes path vec → computed path vec)
    {tr : List (ι × Moment F)} {i : ι} {c : Moment F} (ht : Touches S (history i tr) c)
    (hr : Relies tr i c) (hb : Belong computed c.before.store.db) : Belong computed c.after.db := by
  unfold Touches at ht
  dsimp only at ht
  split at ht
  · obtain ⟨md, sourceMap, -, happlied⟩ := ht
    exact hb.applied happlied
  · rename_i path r hlabel
    obtain ⟨hdeleted, hpurged⟩ := ht
    refine hb.deleted hdeleted ?_
    by_cases hhas : HasEmbedding c.before.store.db path
    · exact hpurged (hr.2 path hlabel hhas)
    · exact purged_of_none hdeleted hhas
  · exact hb.deleted ht.1 ht.2
  · rename_i hlabel
    rcases ht with hsame | ⟨path, k, key, value, -, -, hmeta⟩ | ⟨path, k, vec, hlooked, hcomputes, hwrote⟩
    · exact hb.sameRows hsame
    · exact hb.wroteMeta hmeta
    · by_cases hchange : c.after.db.fileEmbeddings = c.before.store.db.fileEmbeddings
      · exact hb.sameRows ⟨hwrote.files, hwrote.metadata, hchange⟩
      · exact hb.wroteEmbedding hwrote (hr.1 ⟨hlabel, hchange⟩ path k hlooked) (hS path vec hcomputes)
  · exact hb.sameRows ht

end Calls

/-! ### Runs -/

section Runs
variable [DecidableEq ι] {w : World} {ops : ι → Operation F} {envs : ι → Env F}
  {tr : List (ι × Moment F)} {T : Pool ι World (Moment F) OpError Unit}

/-- **Embeddings belong to their files** in every state of a run whose calls find what they rely on. -/
theorem belong_throughout (hrun : Run (observed P w ops envs) tr T)
    (hstart : Belong (ComputedFor P w ops envs) w.db)
    (hrelies : ∀ before i c rest, tr = before ++ (i, c) :: rest → Relies before i c) :
    Belong (ComputedFor P w ops envs) T.store.db := by
  refine (hrun.history (fun tr w' => (∀ before i c rest, tr = before ++ (i, c) :: rest → Relies before i c) →
    Belong (ComputedFor P w ops envs) w'.db) (follows_observed P) (fun _ => hstart) ?_).1 hrelies
  intro tr i c ht ih hall
  refine Belong.touches (fun path vec h => Or.inl ⟨i, h⟩) ht (hall tr i c [] rfl) (ih ?_)
  exact fun before j d rest htr => hall before j d (rest ++ [(i, c)]) (by rw [htr]; simp)

end Runs

/-! ### A file deleted while it is processed -/

/-- An embedder that gives every text the same vector. -/
def embedder : Env Unit := { plainEnv [] with embedText := some fun _ => some (List.replicate EmbeddingDim 1) }

/-- `/a` is synchronised and processed, deleted in the meantime, and `/b` is synchronised. -/
def reuseOps : Fin 4 → Operation Unit :=
  ![.syncFile "/a" ⟨1, 1, 1, 1⟩, .processFile "/a", .handleFSEvent { path := "/a", kind := .delete },
    .syncFile "/b" ⟨2, 1, 1, 1⟩]

def reuseWorld : World :=
  worldOf DB.empty [("/a", { stat := ⟨1, 1, 1, 1⟩ }), ("/b", { stat := ⟨2, 1, 1, 1⟩ })]

/-- The event and the second file come between the lookup of the id and the write of the embedding. -/
def reuseRun : List (Fin 4 × Moment Unit) × Pool (Fin 4) World (Moment Unit) OpError Unit :=
  (observed plainPlatform reuseWorld reuseOps fun _ => embedder).exec
    (calls 0 4 ++ calls 1 6 ++ calls 2 1 ++ calls 3 4 ++ calls 1 2)

theorem embedding_migrates : ∃ tr T,
    Run (observed plainPlatform reuseWorld reuseOps fun _ => embedder) tr T ∧
      ¬ Belong (ComputedFor plainPlatform reuseWorld reuseOps fun _ => embedder) T.store.db := by
  refine ⟨reuseRun.1, reuseRun.2, Pool.run_exec _ _, fun hb => ?_⟩
  have hemb : reuseRun.2.store.db.fileEmbeddings = [⟨1, List.replicate EmbeddingDim 1⟩] := by decide +kernel
  have hfiles : reuseRun.2.store.db.files = [⟨1, "/b", 2, 1, 1, 1, 0⟩] := by decide +kernel
  obtain ⟨f, hf, -, hc⟩ := hb ⟨1, List.replicate EmbeddingDim 1⟩ (by rw [hemb]; exact List.mem_singleton_self _)
  rw [hfiles, List.mem_singleton] at hf
  subst hf
  rcases hc with ⟨i, hi⟩ | ⟨k, hk, -⟩
  · fin_cases i
    · exact hi
    · exact absurd hi.1 (by decide)
    · exact absurd hi.1 (by decide)
    · exact hi
  · have hno : reuseWorld.db.fileId "/b" = none := by decide
    exact absurd (hno.symm.trans hk) (by simp)

/-- One file with an embedding, which is deleted. -/
def embeddedWorld : World :=
  worldOf ⟨{ files := [⟨1, "/a", 0, 0, 0, 0, 0⟩], fileEmbeddings := [⟨1, []⟩] }, by decide⟩ []

def deletionOps : Fin 1 → Operation Unit := fun _ => .handleFSEvent { path := "/a", kind := .delete }

/-- The embedding goes with its file. -/
theorem belong_throughout_deletion :
    Belong (ComputedFor plainPlatform embeddedWorld deletionOps fun _ => embedder)
      ((observed plainPlatform embeddedWorld deletionOps fun _ => embedder).exec (calls 0 1)).2.store.db := by
  refine belong_throughout plainPlatform (Pool.run_exec _ _) ?_ ?_
  · intro r hr
    obtain rfl : r = ⟨1, []⟩ := by simpa [embeddedWorld, worldOf] using hr
    exact ⟨⟨1, "/a", 0, 0, 0, 0, 0⟩, List.mem_singleton_self _, rfl, Or.inr ⟨1, by decide, List.mem_singleton_self _⟩⟩
  · rintro (_ | ⟨e, before⟩) i c rest htr
    · cases htr
      refine ⟨fun hw => ?_, fun _ _ _ => List.not_mem_nil⟩
      cases hw.1
    · have hlen := congrArg List.length htr
      have hone : ((observed plainPlatform embeddedWorld deletionOps fun _ => embedder).exec
        (calls 0 1)).1.length = 1 := by decide +kernel
      simp only [hone, List.cons_append, List.length_cons, List.length_append] at hlen
      omega

end Tilbo.Daemon.Embeddings
