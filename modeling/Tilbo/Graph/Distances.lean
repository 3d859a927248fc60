import Tilbo.Graph.Related
import Mathlib.Data.Finset.Sort
import Mathlib.Data.String.Basic

/-! # Related files are those at a distance

`Related` on a graph that calls have built, said of paths instead of nodes: each result is a walk away
over tags below the threshold (`related_bfs`), and when nothing is cut off the results are the files at
distance `1, …, maxHops`. -/

namespace Tilbo.Graph.Distances

open Tilbo.Lib.KeyedSets Tilbo.Lib.Tables Tilbo.Lib.Walks
open Tilbo.Graph.Edges Tilbo.Graph.Relation Tilbo.Graph.Related

/-! ### Nodes and paths -/

section Paths

variable {g : TagGraph} {f : Tagging} {card n : ℕ} {p k : String}

/-- A step from a file goes to a file. -/
theorem next_file (h : Represents g f) :
    Next g card (filePrefix ++ p) k ↔ ∃ q, k = filePrefix ++ q ∧ Linked g card p q := by
  constructor
  · rintro ⟨tk, htk, hcard, hk⟩
    obtain ⟨-, tag, rfl⟩ := h.sound.prefixed _ tk htk
    have hedge := (h.sound.symm k _).mpr hk
    obtain ⟨⟨q, rfl⟩, -⟩ := h.sound.prefixed k _ hedge
    rw [trimPrefix_append] at hcard
    exact ⟨q, rfl, tag, htk, hedge, hcard⟩
  · rintro ⟨q, rfl, tag, hp, hq, hcard⟩
    refine ⟨tagPrefix ++ tag, hp, ?_, (h.sound.symm _ _).mp hq⟩
    rwa [trimPrefix_append]

theorem walk_file (h : Represents g f) :
    Walk (Next g card) n (filePrefix ++ p) k ↔ ∃ q, k = filePrefix ++ q ∧ Walk (Linked g card) n p q :=
  walk_rename fun _ _ => next_file h

theorem dist_file (h : Represents g f) :
    Dist (Next g card) n (filePrefix ++ p) k ↔ ∃ q, k = filePrefix ++ q ∧ Dist (Linked g card) n p q :=
  dist_rename (fun _ _ => next_file h) fun _ _ hpq => filePrefix_inj.mp hpq

/-- A file without tags is linked to nothing. -/
theorem not_linked_of_absent (h : Represents g f) (hp : filePrefix ++ p ∉ g.fileAdj.keys) (q : String) :
    ¬ Linked g card p q := by
  rintro ⟨tag, hedge, -⟩
  exact hp ((h.sound.keys _).mpr ⟨_, hedge⟩)

end Paths

/-! ### The output -/

section Output

variable {R : Type} {S : Scoring R} {C : Choices} {scores : Table String (ScoringResult R)}
  {limit : ℤ} {r : RelatedFile R}

/-- The output before the limit. -/
theorem sorted_perm : (C.sortSlice (fun a b => S.gt a.score b.score)
      ((C.visit .scores scores.keys).map fun fk => resultFor fk (scores.val fk))).Perm
    ((C.visit .scores scores.keys).map fun fk => resultFor fk (scores.val fk)) :=
  C.sortSlice_perm _ _

/-- The limit cuts the end off. -/
theorem format_sublist : (formatRelatedOutput S C scores limit).Sublist
    (C.sortSlice (fun a b => S.gt a.score b.score)
      ((C.visit .scores scores.keys).map fun fk => resultFor fk (scores.val fk))) := by
  rw [formatRelatedOutput]
  split_ifs
  · exact List.take_sublist _ _
  · exact List.Sublist.refl _

theorem mem_of_mem_format (h : r ∈ formatRelatedOutput S C scores limit) :
    ∃ k ∈ scores.keys, r = resultFor k (scores.val k) := by
  have hmem := sorted_perm.mem_iff.mp (format_sublist.subset h)
  obtain ⟨k, hk, rfl⟩ := List.mem_map.mp hmem
  exact ⟨k, (C.mem_visit _ _ _).mp hk, rfl⟩

theorem format_length (hlimit : 0 < limit) : ((formatRelatedOutput S C scores limit).length : ℤ) ≤ limit := by
  rw [formatRelatedOutput]
  split_ifs with h
  · rw [List.length_take]
    omega
  · rw [not_and] at h
    exact Int.not_lt.mp (h hlimit)

/-- Nothing is cut off if there are at most `limit` scores. -/
theorem mem_format (hle : (scores.keys.card : ℤ) ≤ limit) :
    r ∈ formatRelatedOutput S C scores limit ↔ ∃ k ∈ scores.keys, r = resultFor k (scores.val k) := by
  constructor
  · exact mem_of_mem_format
  · rintro ⟨k, hk, rfl⟩
    have hlen : (C.visit .scores scores.keys).length = scores.keys.card := by
      rw [← List.toFinset_card_of_nodup (C.visit_nodup _ _)]
      congr 1
      ext k
      rw [List.mem_toFinset, C.mem_visit]
    have hfull : formatRelatedOutput S C scores limit = C.sortSlice (fun a b => S.gt a.score b.score)
        ((C.visit .scores scores.keys).map fun fk => resultFor fk (scores.val fk)) := by
      refine if_neg fun hcut => ?_
      rw [sorted_perm.length_eq, List.length_map, hlen] at hcut
      exact absurd hcut.2 (Int.not_lt.mpr hle)
    rw [hfull, sorted_perm.mem_iff, List.mem_map]
    exact ⟨k, (C.mem_visit _ _ _).mpr hk, rfl⟩

/-- No path comes twice, if the scores are of files. -/
theorem format_nodup (hfiles : ∀ k ∈ scores.keys, ∃ q, k = filePrefix ++ q) :
    ((formatRelatedOutput S C scores limit).map RelatedFile.path).Nodup := by
  refine (format_sublist.map _).nodup ((sorted_perm.map _).nodup_iff.mpr ?_)
  rw [List.map_map]
  refine (C.visit_nodup _ _).map_on fun k hk l hl hpath => ?_
  obtain ⟨p, rfl⟩ := hfiles k ((C.mem_visit _ _ _).mp hk)
  obtain ⟨q, rfl⟩ := hfiles l ((C.mem_visit _ _ _).mp hl)
  simp only [Function.comp_apply, resultFor, trimPrefix_append] at hpath
  rw [hpath]

/-- The best results come first. -/
theorem format_sorted (hasymm : ∀ a b, S.gt a b = true → S.gt b a = false)
    (htrans : ∀ a b c, S.gt b a = false → S.gt c b = false → S.gt c a = false) :
    (formatRelatedOutput S C scores limit).Pairwise fun a b => S.gt b.score a.score = false :=
  (C.sortSlice_sorted _ _ (fun a b => hasymm a.score b.score)
    fun a b c => htrans a.score b.score c.score).sublist format_sublist

end Output

/-! ### The search, said of paths -/

section Search

variable {R : Type} (S : Scoring R) (C : Choices) (calls : List Call) (seed : String) (maxHops limit : ℤ)

/-- Each score is of another file, with the length of a walk there. -/
theorem relatedScores_reached {k : String} (hk : k ∈ (relatedScores S C (run calls) seed maxHops limit).keys) :
    ∃ q, k = filePrefix ++ q ∧ q ≠ seed ∧
      1 ≤ ((relatedScores S C (run calls) seed maxHops limit).val k).hop ∧
      (((relatedScores S C (run calls) seed maxHops limit).val k).hop : ℤ) ≤ maxHops ∧
      Walk (Linked (run calls) (maxCard (run calls)))
        ((relatedScores S C (run calls) seed maxHops limit).val k).hop seed q := by
  have hrep := represents_run calls
  have hstart : Reached (run calls) (maxCard (run calls)) (filePrefix ++ seed) 0
      (start S (filePrefix ++ seed)) := reached_start
  obtain ⟨m, hm, st, hst, heq⟩ := @Reached.relatedLoop R S C (run calls)
    ((run calls).fileEmbeddings (filePrefix ++ seed)) _ (maxFrontier limit) _ maxHops.toNat _ _ hstart
  have hscores : relatedScores S C (run calls) seed maxHops limit = st.scores := heq
  rw [hscores] at hk ⊢
  obtain ⟨h1, hle, hwalk⟩ := hst.scores k hk
  obtain ⟨q, rfl, hq⟩ := (walk_file hrep).mp hwalk
  refine ⟨q, rfl, ?_, h1, by omega, hq⟩
  rintro rfl
  exact hst.seed hk

/-- Uncut, the scores are the files at distance `1, …, maxHops`. -/
theorem relatedScores_exact (hcut : Uncut S C (run calls) seed maxHops limit) (k : String) (n : ℕ) :
    k ∈ (relatedScores S C (run calls) seed maxHops limit).keys ∧
        ((relatedScores S C (run calls) seed maxHops limit).val k).hop = n ↔
      1 ≤ n ∧ (n : ℤ) ≤ maxHops ∧
        ∃ q, k = filePrefix ++ q ∧ Dist (Linked (run calls) (maxCard (run calls))) n seed q := by
  have hstart : Exact (run calls) (maxCard (run calls)) (filePrefix ++ seed) 0
      (start S (filePrefix ++ seed)) := exact_start
  have hloop := hstart.relatedLoop maxHops.toNat hcut.1 k n
  rw [dist_file (represents_run calls), Nat.zero_add] at hloop
  rw [relatedScores, hloop]
  constructor
  · rintro ⟨h1, hn, hd⟩
    exact ⟨h1, by omega, hd⟩
  · rintro ⟨h1, hn, hd⟩
    exact ⟨h1, by omega, hd⟩

/-- **Related is bounded breadth-first search.** Never the seed, no path twice, at most `limit` results,
each as many steps away as it says; and if nothing is truncated or cut off, exactly the files at distance
`1, …, maxHops` over tags below the threshold, each with its distance. -/
theorem related_bfs (hlimit : 0 < limit) :
    (∀ r ∈ related S C (run calls) seed maxHops limit, r.path ≠ seed) ∧
    ((related S C (run calls) seed maxHops limit).map RelatedFile.path).Nodup ∧
    ((related S C (run calls) seed maxHops limit).length : ℤ) ≤ limit ∧
    (∀ r ∈ related S C (run calls) seed maxHops limit, 1 ≤ r.hopDistance ∧ (r.hopDistance : ℤ) ≤ maxHops ∧
      Walk (Linked (run calls) (maxCard (run calls))) r.hopDistance seed r.path) ∧
    (Uncut S C (run calls) seed maxHops limit → ∀ path n,
      (∃ r ∈ related S C (run calls) seed maxHops limit, r.path = path ∧ r.hopDistance = n) ↔
        1 ≤ n ∧ (n : ℤ) ≤ maxHops ∧ Dist (Linked (run calls) (maxCard (run calls))) n seed path) := by
  by_cases hseed : filePrefix ++ seed ∈ (run calls).fileAdj.keys
  · rw [related, if_pos hseed]
    have hreached : ∀ r ∈ formatRelatedOutput S C (relatedScores S C (run calls) seed maxHops limit) limit,
        r.path ≠ seed ∧ 1 ≤ r.hopDistance ∧ (r.hopDistance : ℤ) ≤ maxHops ∧
          Walk (Linked (run calls) (maxCard (run calls))) r.hopDistance seed r.path := by
      intro r hr
      obtain ⟨k, hk, rfl⟩ := mem_of_mem_format hr
      obtain ⟨q, rfl, hq⟩ := relatedScores_reached S C calls seed maxHops limit hk
      rwa [resultFor, trimPrefix_append]
    refine ⟨fun r hr => (hreached r hr).1, format_nodup ?_, format_length hlimit,
      fun r hr => (hreached r hr).2, ?_⟩
    · intro k hk
      obtain ⟨q, hq, -⟩ := relatedScores_reached S C calls seed maxHops limit hk
      exact ⟨q, hq⟩
    · intro hcut path n
      have hexact := relatedScores_exact S C calls seed maxHops limit hcut
      constructor
      · rintro ⟨r, hr, rfl, rfl⟩
        obtain ⟨k, hk, rfl⟩ := (mem_format hcut.2).mp hr
        obtain ⟨h1, hn, q, rfl, hd⟩ := (hexact k _).mp ⟨hk, rfl⟩
        rw [resultFor, trimPrefix_append]
        exact ⟨h1, hn, hd⟩
      · rintro ⟨h1, hn, hd⟩
        obtain ⟨hk, hhop⟩ := (hexact (filePrefix ++ path) n).mpr ⟨h1, hn, path, rfl, hd⟩
        exact ⟨_, (mem_format hcut.2).mpr ⟨_, hk, rfl⟩, trimPrefix_append, hhop⟩
  · -- a seed without tags: no results, and no links
    rw [related, if_neg hseed]
    refine ⟨by simp, List.nodup_nil, hlimit.le, by simp, ?_⟩
    intro _ path n
    constructor
    · rintro ⟨r, hr, -⟩
      exact absurd hr List.not_mem_nil
    · rintro ⟨h1, -, hd⟩
      obtain ⟨m, rfl⟩ := Nat.exists_eq_add_of_le' h1
      obtain ⟨q, hq⟩ := hd.1.first
      exact absurd hq (not_linked_of_absent (represents_run calls) hseed q)

end Search

/-! ### A run -/

/-- Maps visited in the order of the strings, and a merge sort. -/
def inOrder : Choices where
  visit _ s := s.sort (· ≤ ·)
  visit_nodup _ s := s.sort_nodup (· ≤ ·)
  mem_visit _ s k := s.mem_sort (· ≤ ·)
  sortSlice less xs := xs.mergeSort fun a b => !less b a
  sortSlice_perm less xs := xs.mergeSort_perm _
  sortSlice_sorted less xs hasymm htrans := by
    have htr : ∀ a b c, (!less b a) = true → (!less c b) = true → (!less c a) = true := by
      simpa using htrans
    have htot : ∀ a b, ((!less b a) || !less a b) = true := by
      intro a b
      cases hab : less a b with
      | true => simp [hasymm a b hab]
      | false => simp
    exact (List.pairwise_mergeSort htr htot xs).imp fun h => by simpa using h

/-- Each tag counts one. -/
def counting : Scoring ℕ where
  zero := 0
  add := (· + ·)
  contrib _ _ _ := 1
  cosineSimilarity _ _ := 0
  weigh := id
  gt a b := decide (b < a)

/-- The chain `/a -[x]- /b -[y]- /c`. -/
def chain : List Call :=
  [.setFileTags "/a" ["x"], .setFileTags "/b" ["x", "y"], .setFileTags "/c" ["y"]]

theorem related_bfs_chain : (0 : ℤ) < 10 ∧
    ((related counting inOrder (run chain) "/a" 2 10).map RelatedFile.path).Nodup ∧
    ∀ r ∈ related counting inOrder (run chain) "/a" 2 10, r.path ≠ "/a" ∧ 1 ≤ r.hopDistance := by
  have hbfs := related_bfs counting inOrder chain "/a" 2 10 (by decide)
  exact ⟨by decide, hbfs.2.1, fun r hr => ⟨hbfs.1 r hr, (hbfs.2.2.2.1 r hr).1⟩⟩

end Tilbo.Graph.Distances
