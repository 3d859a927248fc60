import Tilbo.Graph.Distances

/-! # The graph refines its tagging

Graphs that represent one tagging are the same to `Related`, however they came about. -/

namespace Tilbo.Graph.Refinement

open Tilbo.Lib.KeyedSets Tilbo.Lib.Tables
open Tilbo.Graph.Edges Tilbo.Graph.Relation Tilbo.Graph.Related Tilbo.Graph.Distances

/-- What `Related` reads of a graph, embeddings apart. -/
structure Alike (g g' : TagGraph) : Prop where
  fileKeys : g.fileAdj.keys = g'.fileAdj.keys
  fileAdj : g.fileAdj.get = g'.fileAdj.get
  tagAdj : g.tagAdj.get = g'.tagAdj.get
  tagCardinality : g.tagCardinality = g'.tagCardinality
  totalFiles : g.totalFiles = g'.totalFiles

section Alike

variable {R : Type} {S : Scoring R} {C : Choices} {g g' : TagGraph} {f : Tagging}
  {v v' : Option (List UInt32)} {card : ℕ} {maxF : ℤ}

/-- The edges of the nodes. -/
theorem edge_iff (h : Represents g f) (k t : String) :
    t ∈ g.fileAdj.get k ↔ ∃ path tag, k = filePrefix ++ path ∧ t = tagPrefix ++ tag ∧ tag ∈ f path := by
  constructor
  · intro ht
    obtain ⟨⟨path, rfl⟩, tag, rfl⟩ := h.sound.prefixed k t ht
    exact ⟨path, tag, rfl, rfl, (h.edges path tag).mp ht⟩
  · rintro ⟨path, tag, rfl, rfl, htag⟩
    exact (h.edges path tag).mpr htag

/-- **One tagging, one graph.** -/
theorem alike (h : Represents g f) (h' : Represents g' f) : Alike g g' := by
  have hfile : g.fileAdj.get = g'.fileAdj.get := by
    funext k
    ext t
    rw [edge_iff h, edge_iff h']
  have htag : g.tagAdj.get = g'.tagAdj.get := by
    funext t
    ext k
    rw [← h.sound.symm, ← h'.sound.symm, hfile]
  have hkeys : g.fileAdj.keys = g'.fileAdj.keys := by
    ext k
    rw [h.sound.keys, h'.sound.keys, hfile]
  refine ⟨hkeys, hfile, htag, ?_, ?_⟩
  · funext tag
    rw [h.counted.tagCardinality, h'.counted.tagCardinality, htag]
  · rw [h.counted.totalFiles, h'.counted.totalFiles, hkeys]

theorem Alike.discoverNextHop (h : Alike g g') : discoverNextHop S C g = discoverNextHop S C g' := by
  unfold Related.discoverNextHop creditTags creditFiles
  simp only [h.fileAdj, h.tagAdj, h.tagCardinality, h.totalFiles]

/-- One hop, if the embeddings make no difference to it. -/
theorem Alike.oneHop (h : Alike g g')
    (hboost : ∀ pending, applySimilarityBoost S g pending v = applySimilarityBoost S g' pending v')
    (hsim : similarity S g v = similarity S g' v') (hop : ℕ) (st : Progress R) :
    oneHop S C g v card maxF hop st = oneHop S C g' v' card maxF hop st := by
  unfold Related.oneHop advanceFrontier
  simp only [h.discoverNextHop, hboost, hsim]

theorem Alike.relatedLoop (h : Alike g g')
    (hboost : ∀ pending, applySimilarityBoost S g pending v = applySimilarityBoost S g' pending v')
    (hsim : similarity S g v = similarity S g' v') (hops : ℕ) : ∀ (hop : ℕ) (st : Progress R),
    relatedLoop S C g v card maxF hops hop st = relatedLoop S C g' v' card maxF hops hop st := by
  induction hops with
  | zero => exact fun _ _ => rfl
  | succ hops ih =>
    intro hop st
    rw [Related.relatedLoop, Related.relatedLoop, h.discoverNextHop, h.oneHop hboost hsim, ih]

/-- **Graphs that are alike give the same results**, if their embeddings make no difference. -/
theorem Alike.related (h : Alike g g') (seed : String) (maxHops limit : ℤ)
    (hboost : ∀ pending, applySimilarityBoost S g pending (g.fileEmbeddings (filePrefix ++ seed)) =
      applySimilarityBoost S g' pending (g'.fileEmbeddings (filePrefix ++ seed)))
    (hsim : similarity S g (g.fileEmbeddings (filePrefix ++ seed)) =
      similarity S g' (g'.fileEmbeddings (filePrefix ++ seed))) :
    related S C g seed maxHops limit = related S C g' seed maxHops limit := by
  have hcard : maxCard g = maxCard g' := by rw [maxCard, maxCard, h.totalFiles]
  have hscores : relatedScores S C g seed maxHops limit = relatedScores S C g' seed maxHops limit := by
    rw [relatedScores, relatedScores, hcard]
    exact h.relatedLoop hboost hsim _ _ _
  rw [Related.related, Related.related, h.fileKeys, hscores]

/-- With scores ignored there is nothing for the embeddings to change. -/
theorem Alike.related_unit (h : Alike g g') (S : Scoring Unit) (C : Choices) (seed : String)
    (maxHops limit : ℤ) :
    Related.related S C g seed maxHops limit = Related.related S C g' seed maxHops limit := by
  have hsame : ∀ (g : TagGraph) (pending : Table String Unit) (v : Option (List UInt32)),
      applySimilarityBoost S g pending v = pending := by
    intro g pending v
    cases v <;> rfl
  refine h.related seed maxHops limit (fun pending => ?_) (funext fun k => ?_)
  · rw [hsame, hsame]
  · rfl

end Alike

/-- **Graph refinement.** After any calls the two maps hold one relation, which is the tags last assigned
to each path; the counts are those of the relation; and `Related` gives what it gives on a graph freshly
loaded from the pairs of the relation, the same candidates with scores ignored, and the same results
with the same embeddings. -/
theorem refines (calls : List Call) :
    (∀ k t, t ∈ (run calls).fileAdj.get k ↔ k ∈ (run calls).tagAdj.get t) ∧
    (∀ k t, t ∈ (run calls).fileAdj.get k ↔
      ∃ path tag, k = filePrefix ++ path ∧ t = tagPrefix ++ tag ∧ tag ∈ meaning calls path) ∧
    (∀ tag, ((run calls).tagCardinality tag : ℕ∞) = Set.encard {path | tag ∈ meaning calls path}) ∧
    ((run calls).totalFiles : ℕ∞) = Set.encard {path | (meaning calls path).Nonempty} ∧
    ∀ pairs : List (String × String), (∀ path tag, (path, tag) ∈ pairs ↔ tag ∈ meaning calls path) →
      (∀ (S : Scoring Unit) (C : Choices) (seed : String) (maxHops limit : ℤ),
        related S C (run calls) seed maxHops limit = related S C (load new pairs) seed maxHops limit) ∧
      ∀ (R : Type) (S : Scoring R) (C : Choices) (seed : String) (maxHops limit : ℤ),
        related S C (run calls) seed maxHops limit =
          related S C { load new pairs with fileEmbeddings := (run calls).fileEmbeddings }
            seed maxHops limit := by
  have hrep := represents_run calls
  refine ⟨hrep.sound.symm, edge_iff hrep, hrep.tagCardinality, hrep.totalFiles, fun pairs hpairs => ?_⟩
  have hload : Represents (load new pairs) (meaning calls) := by
    have htags : tagging pairs = meaning calls := by
      funext path
      ext tag
      rw [mem_tagging, hpairs]
    rw [← htags]
    exact represents_load
  constructor
  · exact (alike hrep hload).related_unit
  · intro R S C seed maxHops limit
    exact (alike hrep (hload.withEmbeddings _)).related seed maxHops limit (fun _ => rfl) rfl

end Tilbo.Graph.Refinement
