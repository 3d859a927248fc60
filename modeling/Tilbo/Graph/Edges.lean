import Tilbo.Lib.KeyedSets
import Mathlib.Tactic.Common

/-! # The tag graph

`graph.Graph` (here `TagGraph`): which file has which tag, kept twice (`fileAdj` by file, `tagAdj` by tag), with the
counts that are recomputed after every change and the embeddings. Nodes are strings with a prefix that
says what they are. The backing store of `dominikbraun/graph` is written but never read, and left out. -/

namespace Tilbo.Graph.Edges

open Tilbo.Lib.KeyedSets

def filePrefix : String := "f:"

def tagPrefix : String := "t:"

/-- The in-memory graph between files and tags. -/
structure TagGraph where
  fileAdj : SetMap String String
  tagAdj : SetMap String String
  fileEmbeddings : String → Option (List UInt32)
  tagCardinality : String → ℕ
  totalFiles : ℕ

/-- `New`. -/
def new : TagGraph where
  fileAdj := empty
  tagAdj := empty
  fileEmbeddings _ := none
  tagCardinality _ := 0
  totalFiles := 0

/-- `rebuildCountsLocked`. -/
def rebuildCountsLocked (g : TagGraph) : TagGraph :=
  { g with
    totalFiles := g.fileAdj.keys.card
    tagCardinality := fun tag => (g.tagAdj.get (tagPrefix ++ tag)).card }

/-- `addEdgeLocked`. -/
def addEdgeLocked (g : TagGraph) (path tagName : String) : TagGraph :=
  { g with
    fileAdj := put g.fileAdj (filePrefix ++ path) (tagPrefix ++ tagName)
    tagAdj := put g.tagAdj (tagPrefix ++ tagName) (filePrefix ++ path) }

/-- The part `SetFileTags` and `RemoveFile` share: the node and its edges go. -/
def removeEdges (g : TagGraph) (path : String) : TagGraph :=
  { g with
    fileAdj := delete g.fileAdj (filePrefix ++ path)
    tagAdj := deleteFrom g.tagAdj (g.fileAdj.get (filePrefix ++ path)) (filePrefix ++ path) }

/-- `Load`; the embeddings stay. -/
def load (g : TagGraph) (pairs : List (String × String)) : TagGraph :=
  rebuildCountsLocked (pairs.foldl (fun g p => addEdgeLocked g p.1 p.2)
    { g with fileAdj := empty, tagAdj := empty })

/-- `SetFileTags`. -/
def setFileTags (g : TagGraph) (path : String) (tagNames : List String) : TagGraph :=
  rebuildCountsLocked (tagNames.foldl (fun g name => addEdgeLocked g path name) (removeEdges g path))

/-- `RemoveFile`. -/
def removeFile (g : TagGraph) (path : String) : TagGraph :=
  let g' := removeEdges g path
  rebuildCountsLocked { g' with
    fileEmbeddings := Function.update g'.fileEmbeddings (filePrefix ++ path) none }

/-- `SetEmbedding`. -/
def setEmbedding (g : TagGraph) (path : String) (vec : List UInt32) : TagGraph :=
  { g with fileEmbeddings := Function.update g.fileEmbeddings (filePrefix ++ path) (some vec) }

/-- The file has the tag, as the graph sees it. -/
def TagGraph.HasEdge (g : TagGraph) (path tag : String) : Prop :=
  tagPrefix ++ tag ∈ g.fileAdj.get (filePrefix ++ path)

variable {g : TagGraph} {path q tag name : String} {tagNames : List String} {vec : List UInt32}

theorem filePrefix_inj : filePrefix ++ path = filePrefix ++ q ↔ path = q := String.append_right_inj _

theorem tagPrefix_inj : tagPrefix ++ tag = tagPrefix ++ name ↔ tag = name := String.append_right_inj _

@[simp] theorem hasEdge_new : ¬ new.HasEdge path tag := by simp [TagGraph.HasEdge, new]

@[simp] theorem hasEdge_rebuildCountsLocked : (rebuildCountsLocked g).HasEdge path tag ↔ g.HasEdge path tag :=
  Iff.rfl

@[simp] theorem hasEdge_setEmbedding : (setEmbedding g q vec).HasEdge path tag ↔ g.HasEdge path tag :=
  Iff.rfl

theorem hasEdge_addEdgeLocked :
    (addEdgeLocked g q name).HasEdge path tag ↔ g.HasEdge path tag ∨ path = q ∧ tag = name := by
  simp only [TagGraph.HasEdge, addEdgeLocked, mem_get_put, filePrefix_inj, tagPrefix_inj]

theorem hasEdge_removeEdges : (removeEdges g q).HasEdge path tag ↔ g.HasEdge path tag ∧ path ≠ q := by
  simp only [TagGraph.HasEdge, removeEdges, mem_get_delete, ne_eq, filePrefix_inj]

/-- Edge by edge. -/
theorem hasEdge_foldl (path tag : String) (pairs : List (String × String)) : ∀ g : TagGraph,
    (pairs.foldl (fun g p => addEdgeLocked g p.1 p.2) g).HasEdge path tag ↔
      g.HasEdge path tag ∨ (path, tag) ∈ pairs := by
  induction pairs with
  | nil => intro g; simp
  | cons p pairs ih =>
    intro g
    rw [List.foldl_cons, ih, hasEdge_addEdgeLocked, or_assoc, List.mem_cons, Prod.ext_iff]

/-- **`Load`** gives the relation of the pairs. -/
theorem hasEdge_load {pairs : List (String × String)} :
    (load g pairs).HasEdge path tag ↔ (path, tag) ∈ pairs := by
  rw [load, hasEdge_rebuildCountsLocked, hasEdge_foldl]
  simp [TagGraph.HasEdge]

/-- **`SetFileTags`** gives the file exactly these tags and leaves the other files alone. -/
theorem hasEdge_setFileTags :
    (setFileTags g q tagNames).HasEdge path tag ↔
      if path = q then tag ∈ tagNames else g.HasEdge path tag := by
  have hpairs := hasEdge_foldl path tag (tagNames.map fun n => (q, n)) (removeEdges g q)
  rw [List.foldl_map] at hpairs
  rw [setFileTags, hasEdge_rebuildCountsLocked, hpairs, hasEdge_removeEdges]
  by_cases h : path = q
  · simp [h]
  · simp [h, Ne.symm h]

/-- **`RemoveFile`** takes the file out. -/
theorem hasEdge_removeFile : (removeFile g q).HasEdge path tag ↔ g.HasEdge path tag ∧ path ≠ q := by
  rw [removeFile, hasEdge_rebuildCountsLocked]
  exact hasEdge_removeEdges

end Tilbo.Graph.Edges
