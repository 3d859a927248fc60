import Tilbo.Daemon.Agreement
import Mathlib

/-! # The graph and the index

The graph is loaded from the index once, and then kept in step by hand: it should always be what loading
it again would give (`Mirrors`). `Tells` says for each operation when the graph hears of every change of
tags that the operation makes in the index. -/

namespace Tilbo.Daemon.Mirror

open Tilbo.Daemon.State Tilbo.Daemon.Calls Tilbo.Daemon.Processor Tilbo.Daemon.Handlers
open Tilbo.Daemon.Scripts Tilbo.Daemon.Operations Tilbo.Daemon.Alone Tilbo.Daemon.Agreement
open Tilbo.Rules.Engine Tilbo.Rules.Sweep Tilbo.Sync.SyncFile Tilbo.Fuse.Server Tilbo.Xattr.Service
open Tilbo.Xattr.Csv Tilbo.Harvester.Meta Tilbo.Graph.Edges Tilbo.Index Tilbo.Index.Schema
open Tilbo.Index.Store Tilbo.Index.StoreSpec Tilbo.Lib.Pairs Tilbo.Lib.Txn Tilbo.Lib.Process
open Tilbo.Lib.Process.Proc

variable {F α β : Type} {w w' : World} {path : String}

/-! ### Being in step -/

/-- The graph has the edges that `ListFileTagPairs` lists. -/
def Mirrors (w : World) : Prop := ∀ p n, w.graph.HasEdge p n ↔ (p, n) ∈ fileTagPairs w.db.toTables

theorem mirrors_iff : Mirrors w ↔ ∀ p n, w.graph.HasEdge p n ↔ IndexTag w p n :=
  forall_congr' fun p => forall_congr' fun n => by rw [mem_fileTagPairs]; rfl

theorem Mirrors.quiet (h : Mirrors w) (hq : Quiet w w') : Mirrors w' :=
  mirrors_iff.mpr fun p n => (Quiet.hasEdge hq).trans ((mirrors_iff.mp h p n).trans hq.indexTag.symm)

/-- Run alone, the process ends where it started: in `J`. -/
def Preserves (J : World → Prop) (p : Op F α) : Prop :=
  ∀ w log, J w → wp (alone p) (fun _ st => J st.1) (fun _ st => J st.1) (w, log)

section Preserves
variable {J : World → Prop} {p : Op F α} {f : α → Op F β}

end Preserves

/-! ### The processor -/

section Processor
variable (P : Platform F) (env : Env F)

/-- The index and the graph have the id of the file and its tags in step. -/
def InStep (path : String) (i : ℕ) (w : World) : Prop := Mirrors w ∧ w.db.fileId path = some i

variable {i : ℕ}

theorem InStep.quiet (w w' : World) (hq : Quiet w w') (h : InStep path i w) : InStep path i w' :=
  ⟨h.1.quiet hq, (hq.db.fileId path).trans h.2⟩

end Processor

/-! ### Tag requests -/

section Tags
variable (env : Env F) {log : List (Call F)} {op : String} {tags : List String}

/-- No query for tags fails, and no change of tags stops half way: it fails only for a file that was not in
the index, or before it did anything. -/
structure Heard (w : World) (log : List (Call F)) : Prop where
  queries : ∀ p e, .getFileTags p (.error e) ∉ log
  changes : ∀ p tags op e, .modifyFileTags p tags op (.error e) ∈ log →
    w.db.fileId p = none ∨ op = "set" ∨ tags.length ≤ 1

variable {w₁ : World}

theorem Heard.left {calls : List (Call F)} (h : Heard w (log ++ calls)) : Heard w log :=
  ⟨fun p e hc => h.queries p e (by simp [hc]), fun p tags op e hc => h.changes p tags op e (by simp [hc])⟩

theorem Heard.right {calls : List (Call F)} (h : Heard w (log ++ calls)) : Heard w calls :=
  ⟨fun p e hc => h.queries p e (by simp [hc]), fun p tags op e hc => h.changes p tags op e (by simp [hc])⟩

/-- `ModifyFileTags` that fails changes nothing, if it is heard of. -/
theorem modifyFileTags_failed {id : Option ℕ} {X : Except ParseError (List String)} {I G : String → Prop}
    {e : OpError} (h : Shows w path id X I G)
    (he : Effect (F := F) w (.modifyFileTags path tags op (.error e)) w')
    (hheard : id = none ∨ op = "set" ∨ tags.length ≤ 1) : Shows w' path id X I G := by
  obtain ⟨db, rfl, rfl | ⟨hop, i, hi, hpart⟩⟩ := he
  · exact h
  · have hid : db.fileId path = some i := (hpart.1.fileId path).trans hi
    have hlen : tags.length ≤ 1 := by
      rcases hheard with hnone | rfl | hlen
      · rw [← h.fileId, hi] at hnone
        cases hnone
      · simp at hop
      · exact hlen
    refine ⟨(hpart.1.fileId path).trans h.fileId, h.xattr, fun n => ?_, h.graph⟩
    rw [indexTag_iff hid, hpart.short hlen hop, ← indexTag_iff hi]
    exact h.index n

/-- The graph and the index show the same of the file. -/
def Same (w : World) (path : String) (id : Option ℕ) : Prop :=
  ∃ X I, Shows w path id X I I

end Tags

/-! ### The other operations -/

section Others
variable (P : Platform F) (env : Env F) {log : List (Call F)} {w₁ : World}

/-- The tags a synchronisation gives the file are those it has in the index. -/
def Synced (w : World) (path : String) (log : List (Call F)) : Prop :=
  ∀ stat tags now i, .syncFileApply path stat tags now (.ok i) ∈ log → ∀ n, n ∈ tags ↔ IndexTag w path n

/-- An entry is removed from the index only for a file without tags. -/
def Untagged (w : World) (path : String) (log : List (Call F)) : Prop :=
  .deleteFile path (.ok ()) ∈ log → ∀ n, ¬ IndexTag w path n

/-- A sweep writes to the index what it says already, or nothing. -/
def Swept (w : World) (path : String) (log : List (Call F)) : Prop :=
  ∀ q overrides, evaluated log = some (q, overrides) → (q.diff overrides).added = [] ∨
    ∀ n, n ∈ q.existingTags ++ (q.diff overrides).added ↔ IndexTag w path n

/-- The graph hears of every change of tags that the operation makes in the index: `log` is what it called
from `w` on. -/
def Tells (w : World) (log : List (Call F)) : Operation F → Prop
  | .handleTag _ _ _ => Heard w log
  | .handleFSEvent ev => match ev.kind with
    | .create | .modify => Synced w ev.path log
    | .delete => Untagged w ev.path log
    | .rename => Untagged w ev.oldPath log ∧ Synced w ev.path log
  | .sweepFile path => Swept w path log
  | .syncFile path _ => Synced w path log
  | .deleteStaleFiles base since => .deleteStaleFiles base since (.ok ()) ∈ log →
    ∀ f ∈ w.db.files, stale base since f = true → ∀ n, ¬ w.db.Tagged f.id n
  | .rename d name _ => ∀ path, d.cache.bind (· name) = some path →
    ∀ n, retagged (IndexTag w path) path log n ↔ IndexTag w path n
  | .removeByBrowser _ path => Untagged w path log
  | .processFile _ | .handleAsyncResult _ _ _ | .setxattr _ _ _ | .external _ => True

end Others

/-! ### Sequences -/

/-- An operation, what it gets from outside, and which of its statements fail. -/
structure Step (F : Type) where
  operation : Operation F
  env : Env F
  faults : List Bool := []

section Sequences
variable (P : Platform F)

/-- The world after the step, and the calls of the step. -/
def stepFrom (w : World) (s : Step F) : World × List (Call F) :=
  (alone (s.operation.run P s.env) ⟨(w, []), s.faults⟩).2.store

/-- The world after a sequence of operations. -/
def after (w : World) (steps : List (Step F)) : World := steps.foldl (fun w s => (stepFrom P w s).1) w

/-- At each step the graph hears of every change of tags. -/
def AllTold (w : World) : List (Step F) → Prop
  | [] => True
  | s :: rest => Tells w (stepFrom P w s).2 s.operation ∧ AllTold (stepFrom P w s).1 rest

theorem AllTold.left {done rest : List (Step F)} (h : AllTold P w (done ++ rest)) : AllTold P w done := by
  induction done generalizing w with
  | nil => trivial
  | cons s done ih => exact ⟨h.1, ih h.2⟩

end Sequences

/-! ### A deleted file stays in the graph -/

end Tilbo.Daemon.Mirror
