import Tilbo.Graph.Edges
import Mathlib.Data.Set.Card

/-! # The relation a graph stands for

The abstract graph is a tagging, the tags of each path. The calls of `graph.Graph` act on taggings in the
plain way; whatever calls were made, the two maps and the counts describe the tagging
(`represents_run`). -/

namespace Tilbo.Graph.Relation

open Tilbo.Lib.KeyedSets Tilbo.Graph.Edges

/-- The calls that change a graph. -/
inductive Call
  | new
  | load (pairs : List (String × String))
  | loadEmbeddings (embs : List (String × List UInt32))
  | setEmbedding (path : String) (vec : List UInt32)
  | setFileTags (path : String) (tagNames : List String)
  | removeFile (path : String)

/-- `LoadEmbeddings`. -/
def loadEmbeddings (g : TagGraph) (embs : List (String × List UInt32)) : TagGraph :=
  embs.foldl (fun g e => setEmbedding g e.1 e.2) g

/-- What a call makes of the graph. -/
def step (g : TagGraph) : Call → TagGraph
  | .new => new
  | .load pairs => load g pairs
  | .loadEmbeddings embs => loadEmbeddings g embs
  | .setEmbedding path vec => setEmbedding g path vec
  | .setFileTags path tagNames => setFileTags g path tagNames
  | .removeFile path => removeFile g path

/-- The graph after these calls. -/
def run (calls : List Call) : TagGraph := calls.foldl step new

/-! ### The abstract graph -/

/-- The tags of each path; a path that is not there has none. -/
abbrev Tagging := String → Finset String

/-- The tags these pairs give. -/
def tagging (pairs : List (String × String)) : Tagging := fun path =>
  ((pairs.filter fun p => p.1 = path).map Prod.snd).toFinset

/-- What a call means: the tags of a path are the last ones assigned. -/
def Call.act (f : Tagging) : Call → Tagging
  | .new => fun _ => ∅
  | .load pairs => tagging pairs
  | .loadEmbeddings _ => f
  | .setEmbedding _ _ => f
  | .setFileTags path tagNames => Function.update f path tagNames.toFinset
  | .removeFile path => Function.update f path ∅

/-- The tagging after these calls. -/
def meaning (calls : List Call) : Tagging := calls.foldl Call.act fun _ => ∅

/-! ### The two maps -/

/-- The two maps hold the same edges, between nodes with the right prefixes, and a file is there as long
as it has an edge. -/
structure Sound (g : TagGraph) : Prop where
  symm : ∀ k t, t ∈ g.fileAdj.get k ↔ k ∈ g.tagAdj.get t
  prefixed : ∀ k t, t ∈ g.fileAdj.get k → (∃ path, k = filePrefix ++ path) ∧ ∃ tag, t = tagPrefix ++ tag
  keys : ∀ k, k ∈ g.fileAdj.keys ↔ (g.fileAdj.get k).Nonempty

/-- The counts are those of the maps. -/
structure Counted (g : TagGraph) : Prop where
  totalFiles : g.totalFiles = g.fileAdj.keys.card
  tagCardinality : ∀ tag, g.tagCardinality tag = (g.tagAdj.get (tagPrefix ++ tag)).card

variable {g : TagGraph} {f : Tagging} {path tag name : String} {pairs : List (String × String)}

theorem sound_new : Sound new where
  symm k t := by simp [new]
  prefixed k t h := by simp [new] at h
  keys k := by simp [new, empty]

theorem Sound.addEdgeLocked (h : Sound g) : Sound (addEdgeLocked g path name) where
  symm k t := by
    rw [Edges.addEdgeLocked, mem_get_put, mem_get_put, h.symm]
    tauto
  prefixed k t ht := by
    rw [Edges.addEdgeLocked, mem_get_put] at ht
    rcases ht with ht | ⟨rfl, rfl⟩
    · exact h.prefixed k t ht
    · exact ⟨⟨path, rfl⟩, ⟨name, rfl⟩⟩
  keys k := by
    have hget : ((put g.fileAdj (filePrefix ++ path) (tagPrefix ++ name)).get k).Nonempty ↔
        (g.fileAdj.get k).Nonempty ∨ k = filePrefix ++ path := by
      simp only [Finset.Nonempty, mem_get_put]
      constructor
      · rintro ⟨t, ht | ⟨hk, -⟩⟩
        · exact .inl ⟨t, ht⟩
        · exact .inr hk
      · rintro (⟨t, ht⟩ | hk)
        · exact ⟨t, .inl ht⟩
        · exact ⟨_, .inr ⟨hk, rfl⟩⟩
    rw [Edges.addEdgeLocked, hget, ← h.keys]
    exact Finset.mem_insert.trans or_comm

theorem Sound.foldl (pairs : List (String × String)) : ∀ {g : TagGraph}, Sound g →
    Sound (pairs.foldl (fun g p => Edges.addEdgeLocked g p.1 p.2) g) := by
  induction pairs with
  | nil => exact id
  | cons p pairs ih => exact fun h => ih h.addEdgeLocked

theorem Sound.removeEdges (h : Sound g) : Sound (removeEdges g path) where
  symm k t := by
    rw [Edges.removeEdges, mem_get_delete, mem_get_deleteFrom, ← h.symm]
    constructor
    · rintro ⟨ht, hne⟩
      exact ⟨ht, fun hk => hne hk.2⟩
    · rintro ⟨ht, hne⟩
      refine ⟨ht, ?_⟩
      rintro rfl
      exact hne ⟨ht, rfl⟩
  prefixed k t ht := h.prefixed k t (mem_get_delete.mp ht).1
  keys k := by
    have hkeys : k ∈ (delete g.fileAdj (filePrefix ++ path)).keys ↔
        k ≠ filePrefix ++ path ∧ (g.fileAdj.get k).Nonempty := by
      rw [← h.keys]
      exact Finset.mem_erase
    rw [Edges.removeEdges, hkeys]
    simp only [Finset.Nonempty, mem_get_delete]
    tauto

theorem Sound.rebuildCountsLocked (h : Sound g) : Sound (rebuildCountsLocked g) :=
  ⟨h.symm, h.prefixed, h.keys⟩

theorem Sound.withEmbeddings (h : Sound g) (e : String → Option (List UInt32)) :
    Sound { g with fileEmbeddings := e } :=
  ⟨h.symm, h.prefixed, h.keys⟩

theorem counted_rebuildCountsLocked : Counted (rebuildCountsLocked g) := ⟨rfl, fun _ => rfl⟩

theorem Counted.withEmbeddings (h : Counted g) (e : String → Option (List UInt32)) :
    Counted { g with fileEmbeddings := e } :=
  ⟨h.totalFiles, h.tagCardinality⟩

/-- Embeddings change the embeddings only. -/
theorem loadEmbeddings_eq (embs : List (String × List UInt32)) : ∀ g : TagGraph,
    ∃ e, loadEmbeddings g embs = { g with fileEmbeddings := e } := by
  induction embs with
  | nil => exact fun g => ⟨g.fileEmbeddings, rfl⟩
  | cons x embs ih =>
    intro g
    obtain ⟨e, he⟩ := ih (setEmbedding g x.1 x.2)
    exact ⟨e, he⟩

/-! ### What the graph represents -/

/-- The graph is this tagging. -/
structure Represents (g : TagGraph) (f : Tagging) : Prop where
  sound : Sound g
  counted : Counted g
  edges : ∀ path tag, g.HasEdge path tag ↔ tag ∈ f path

theorem Represents.withEmbeddings (h : Represents g f) (e : String → Option (List UInt32)) :
    Represents { g with fileEmbeddings := e } f :=
  ⟨h.sound.withEmbeddings e, h.counted.withEmbeddings e, h.edges⟩

theorem represents_new : Represents new fun _ => ∅ where
  sound := sound_new
  counted := ⟨rfl, fun _ => rfl⟩
  edges path tag := by simp

theorem mem_tagging : tag ∈ tagging pairs path ↔ (path, tag) ∈ pairs := by
  simp only [tagging, List.mem_toFinset, List.mem_map, List.mem_filter, decide_eq_true_eq]
  constructor
  · rintro ⟨p, ⟨hp, rfl⟩, rfl⟩
    exact hp
  · intro hp
    exact ⟨_, ⟨hp, rfl⟩, rfl⟩

theorem represents_load : Represents (load g pairs) (tagging pairs) where
  sound := by
    have hempty : Sound { g with fileAdj := empty, tagAdj := empty } :=
      ⟨sound_new.symm, sound_new.prefixed, sound_new.keys⟩
    exact (hempty.foldl pairs).rebuildCountsLocked
  counted := counted_rebuildCountsLocked
  edges path tag := by rw [hasEdge_load, mem_tagging]

theorem Represents.setFileTags (h : Represents g f) (path : String) (tagNames : List String) :
    Represents (setFileTags g path tagNames) (Function.update f path tagNames.toFinset) where
  sound := by
    have hremoved : Sound (Edges.removeEdges g path) := h.sound.removeEdges
    have hfold := hremoved.foldl (tagNames.map fun n => (path, n))
    rw [List.foldl_map] at hfold
    exact hfold.rebuildCountsLocked
  counted := counted_rebuildCountsLocked
  edges q tag := by
    rw [hasEdge_setFileTags, Function.update_apply, h.edges]
    split_ifs
    · exact List.mem_toFinset.symm
    · exact Iff.rfl

theorem Represents.removeFile (h : Represents g f) (path : String) :
    Represents (removeFile g path) (Function.update f path ∅) where
  sound := (h.sound.removeEdges.withEmbeddings _).rebuildCountsLocked
  counted := counted_rebuildCountsLocked
  edges q tag := by
    rw [hasEdge_removeFile, Function.update_apply, h.edges]
    split_ifs with hq
    · simp [hq]
    · simp [hq]

/-- One call. -/
theorem Represents.step (h : Represents g f) (call : Call) : Represents (step g call) (call.act f) := by
  cases call with
  | new => exact represents_new
  | load pairs => exact represents_load
  | loadEmbeddings embs =>
    obtain ⟨e, he⟩ := loadEmbeddings_eq embs g
    rw [Relation.step, he]
    exact h.withEmbeddings e
  | setEmbedding path vec => exact h.withEmbeddings _
  | setFileTags path tagNames => exact h.setFileTags path tagNames
  | removeFile path => exact h.removeFile path

/-- **Representation.** After any calls the graph is their meaning. -/
theorem represents_run (calls : List Call) : Represents (run calls) (meaning calls) := by
  have hrun : ∀ (calls : List Call) (g : TagGraph) (f : Tagging), Represents g f →
      Represents (calls.foldl Relation.step g) (calls.foldl Call.act f) := by
    intro calls
    induction calls with
    | nil => exact fun _ _ h => h
    | cons call calls ih => exact fun _ _ h => ih _ _ (h.step call)
  exact hrun calls new _ represents_new

/-! ### Counts -/

/-- The count of a tag is the number of files that have it. -/
theorem Represents.tagCardinality (h : Represents g f) (tag : String) :
    (g.tagCardinality tag : ℕ∞) = Set.encard {path | tag ∈ f path} := by
  have himage : (g.tagAdj.get (tagPrefix ++ tag) : Set String) =
      (fun path => filePrefix ++ path) '' {path | tag ∈ f path} := by
    ext k
    simp only [Finset.mem_coe, Set.mem_image, Set.mem_ofPred_eq, ← h.sound.symm, ← h.edges]
    constructor
    · intro hk
      obtain ⟨⟨path, rfl⟩, -⟩ := h.sound.prefixed k _ hk
      exact ⟨path, hk, rfl⟩
    · rintro ⟨path, hp, rfl⟩
      exact hp
  have hinj : Function.Injective fun path => filePrefix ++ path := fun p q hpq => filePrefix_inj.mp hpq
  rw [h.counted.tagCardinality, ← Set.encard_coe_eq_coe_finsetCard, himage, hinj.encard_image]

theorem Represents.mem_keys (h : Represents g f) {k : String} :
    k ∈ g.fileAdj.keys ↔ ∃ path, k = filePrefix ++ path ∧ (f path).Nonempty := by
  rw [h.sound.keys]
  constructor
  · rintro ⟨t, ht⟩
    obtain ⟨⟨path, rfl⟩, tag, rfl⟩ := h.sound.prefixed k t ht
    exact ⟨path, rfl, tag, (h.edges path tag).mp ht⟩
  · rintro ⟨path, rfl, tag, htag⟩
    exact ⟨_, (h.edges path tag).mpr htag⟩

/-- `totalFiles` is the number of files with a tag. -/
theorem Represents.totalFiles (h : Represents g f) :
    (g.totalFiles : ℕ∞) = Set.encard {path | (f path).Nonempty} := by
  have himage : (g.fileAdj.keys : Set String) =
      (fun path => filePrefix ++ path) '' {path | (f path).Nonempty} := by
    ext k
    simp only [Finset.mem_coe, h.mem_keys, Set.mem_image, Set.mem_ofPred_eq]
    constructor
    · rintro ⟨path, rfl, hp⟩
      exact ⟨path, hp, rfl⟩
    · rintro ⟨path, hp, rfl⟩
      exact ⟨path, rfl, hp⟩
  have hinj : Function.Injective fun path => filePrefix ++ path := fun p q hpq => filePrefix_inj.mp hpq
  rw [h.counted.totalFiles, ← Set.encard_coe_eq_coe_finsetCard, himage, hinj.encard_image]

end Tilbo.Graph.Relation
