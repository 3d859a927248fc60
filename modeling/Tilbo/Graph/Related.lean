import Tilbo.Graph.Relation
import Tilbo.Lib.Tables
import Tilbo.Lib.Walks

/-! # Related files

`Related`: breadth-first search from a file over its tags, with the scores of each hop, cut to the best
of a hop and to the best of all. The numbers, the order in which a map is visited and what a sort makes
of equal scores are parameters. -/

namespace Tilbo.Graph.Related

open Tilbo.Lib.KeyedSets Tilbo.Lib.Tables Tilbo.Lib.Walks Tilbo.Graph.Edges Tilbo.Graph.Relation

/-! ### Parameters -/

/-- The arithmetic of the scores: `contrib totalFiles card hop` is `hopWeight * idf / hop`, `weigh` is
the product with `vecWeight` and `gt` compares. -/
structure Scoring (R : Type) where
  zero : R
  add : R → R → R
  contrib : ℕ → ℕ → ℕ → R
  cosineSimilarity : List UInt32 → List UInt32 → R
  weigh : R → R
  gt : R → R → Bool

/-- The loops over maps whose order can be seen. -/
inductive Place
  | frontier (hop : ℕ)
  | tags (hop : ℕ) (cur : String)
  | files (hop : ℕ) (cur tk : String)
  | pending (hop : ℕ)
  | scores

/-- What Go leaves open: the order in which each loop visits a map, and `sort.Slice`, which sorts by a
strict weak order but may put equal elements in any order. -/
structure Choices where
  visit : Place → Finset String → List String
  visit_nodup : ∀ p s, (visit p s).Nodup
  mem_visit : ∀ p s k, k ∈ visit p s ↔ k ∈ s
  sortSlice : ∀ {α : Type}, (α → α → Bool) → List α → List α
  sortSlice_perm : ∀ {α : Type} (less : α → α → Bool) (xs : List α), (sortSlice less xs).Perm xs
  sortSlice_sorted : ∀ {α : Type} (less : α → α → Bool) (xs : List α),
    (∀ a b, less a b = true → less b a = false) →
    (∀ a b c, less b a = false → less c b = false → less c a = false) →
    (sortSlice less xs).Pairwise fun a b => less b a = false

/-- `strings.TrimPrefix`. -/
def trimPrefix (s pre : String) : String :=
  if pre.toList <+: s.toList then String.ofList (s.toList.drop pre.toList.length) else s

/-- Go's `int` on a 64-bit machine. -/
def int64 (n : ℤ) : ℤ := n.bmod (2 ^ 64)

/-! ### The search -/

structure ScoringResult (R : Type) where
  score : R
  hop : ℕ
  cosineSim : R

structure RelatedFile (R : Type) where
  path : String
  score : R
  hopDistance : ℕ
  cosineSim : R

/-- What the search has so far. -/
structure Progress (R : Type) where
  scores : Table String (ScoringResult R)
  scored : Finset String
  frontier : Finset String

section Search

variable {R : Type} (S : Scoring R) (C : Choices) (g : TagGraph)

/-- Tags of at least this many files are passed over. -/
def maxCard : ℕ := max (g.totalFiles / 20) 50

def maxFrontier (limit : ℤ) : ℤ := if int64 (limit * 8) ≤ 0 then 400 else int64 (limit * 8)

/-- The loop of `discoverNextHop` over the files of a tag. -/
def creditFiles (scored : Finset String) (hop : ℕ) (cur tk : String) (card : ℕ) (pending : Table String R) :
    Table String R :=
  (C.visit (.files hop cur tk) (g.tagAdj.get tk)).foldl (fun pending nfk =>
    if nfk ∈ scored then pending else bump S.zero S.add pending nfk (S.contrib g.totalFiles card hop)) pending

/-- The loop over the tags of a file of the frontier. -/
def creditTags (scored : Finset String) (maxCard hop : ℕ) (cur : String) (pending : Table String R) :
    Table String R :=
  (C.visit (.tags hop cur) (g.fileAdj.get cur)).foldl (fun pending tk =>
    let card := g.tagCardinality (trimPrefix tk tagPrefix)
    if maxCard ≤ card then pending else creditFiles S C g scored hop cur tk card pending) pending

/-- `discoverNextHop`. -/
def discoverNextHop (frontier scored : Finset String) (maxCard hop : ℕ) : Table String R :=
  (C.visit (.frontier hop) frontier).foldl
    (fun pending cur => creditTags S C g scored maxCard hop cur pending) (empty S.zero)

/-- `applySimilarityBoost`. -/
def applySimilarityBoost (pending : Table String R) (seedVec : Option (List UInt32)) : Table String R :=
  match seedVec with
  | none => pending
  | some seedVec => adjust (fun nfk sc =>
      match g.fileEmbeddings nfk with
      | none => sc
      | some tgtVec =>
        let sim := S.cosineSimilarity seedVec tgtVec
        if S.gt sim S.zero then S.add sc (S.weigh sim) else sc) pending

/-- The similarity `advanceFrontier` notes for a file. -/
def similarity (seedVec : Option (List UInt32)) (nfk : String) : R :=
  match seedVec, g.fileEmbeddings nfk with
  | some seedVec, some tgtVec => S.cosineSimilarity seedVec tgtVec
  | _, _ => S.zero

/-- The best `maxFrontier` of a hop. -/
def truncate (pending : Table String R) (maxFrontier : ℤ) (hop : ℕ) : Table String R :=
  let sl := (C.visit (.pending hop) pending.keys).map fun k => (k, pending.val k)
  ofEntries S.zero ((C.sortSlice (fun a b => S.gt a.2 b.2) sl).take maxFrontier.toNat)

/-- The candidates that `advanceFrontier` keeps. -/
def candidates (pending : Table String R) (maxFrontier : ℤ) (hop : ℕ) : Table String R :=
  if maxFrontier < pending.keys.card then truncate S C pending maxFrontier hop else pending

/-- `advanceFrontier`. -/
def advanceFrontier (pending : Table String R) (seedVec : Option (List UInt32)) (maxFrontier : ℤ) (hop : ℕ)
    (st : Progress R) : Progress R :=
  let kept := candidates S C pending maxFrontier hop
  { scores := merge st.scores
      ⟨kept.keys, fun nfk => ⟨kept.val nfk, hop, similarity S g seedVec nfk⟩⟩
    scored := st.scored ∪ kept.keys
    frontier := kept.keys }

/-- One hop. -/
def oneHop (seedVec : Option (List UInt32)) (maxCard : ℕ) (maxFrontier : ℤ) (hop : ℕ) (st : Progress R) :
    Progress R :=
  let pending := discoverNextHop S C g st.frontier st.scored maxCard hop
  advanceFrontier S C g (applySimilarityBoost S g pending seedVec) seedVec maxFrontier hop st

/-- The loop of `Related` for so many more hops. -/
def relatedLoop (seedVec : Option (List UInt32)) (maxCard : ℕ) (maxFrontier : ℤ) :
    ℕ → ℕ → Progress R → Table String (ScoringResult R)
  | 0, _, st => st.scores
  | hops + 1, hop, st =>
    if (discoverNextHop S C g st.frontier st.scored maxCard hop).keys.card = 0 then st.scores
    else relatedLoop seedVec maxCard maxFrontier hops (hop + 1) (oneHop S C g seedVec maxCard maxFrontier hop st)

/-- Before the first hop. -/
def start (fk : String) : Progress R where
  scores := empty ⟨S.zero, 0, S.zero⟩
  scored := {fk}
  frontier := {fk}

/-- The scores `Related` ends with. -/
def relatedScores (seedPath : String) (maxHops limit : ℤ) : Table String (ScoringResult R) :=
  let fk := filePrefix ++ seedPath
  relatedLoop S C g (g.fileEmbeddings fk) (maxCard g) (maxFrontier limit) maxHops.toNat 1 (start S fk)

/-- The result for a scored file. -/
def resultFor (fk : String) (r : ScoringResult R) : RelatedFile R :=
  ⟨trimPrefix fk filePrefix, r.score, r.hop, r.cosineSim⟩

/-- `formatRelatedOutput`. -/
def formatRelatedOutput (scores : Table String (ScoringResult R)) (limit : ℤ) : List (RelatedFile R) :=
  let out := (C.visit .scores scores.keys).map fun fk => resultFor fk (scores.val fk)
  let out := C.sortSlice (fun a b => S.gt a.score b.score) out
  if 0 < limit ∧ limit < out.length then out.take limit.toNat else out

/-- `Related`. -/
def related (seedPath : String) (maxHops limit : ℤ) : List (RelatedFile R) :=
  if filePrefix ++ seedPath ∈ g.fileAdj.keys then
    formatRelatedOutput S C (relatedScores S C g seedPath maxHops limit) limit
  else []

/-- No hop has more candidates than `maxFrontier`. -/
def Untruncated (seedVec : Option (List UInt32)) (maxCard : ℕ) (maxFrontier : ℤ) :
    ℕ → ℕ → Progress R → Prop
  | 0, _, _ => True
  | hops + 1, hop, st =>
    let pending := discoverNextHop S C g st.frontier st.scored maxCard hop
    pending.keys.card = 0 ∨ pending.keys.card ≤ maxFrontier ∧
      Untruncated seedVec maxCard maxFrontier hops (hop + 1) (oneHop S C g seedVec maxCard maxFrontier hop st)

/-- `Related` drops nothing: no hop is truncated, and the limit cuts no result off. -/
def Uncut (seedPath : String) (maxHops limit : ℤ) : Prop :=
  Untruncated S C g (g.fileEmbeddings (filePrefix ++ seedPath)) (maxCard g) (maxFrontier limit)
    maxHops.toNat 1 (start S (filePrefix ++ seedPath)) ∧
  (relatedScores S C g seedPath maxHops limit).keys.card ≤ limit

end Search

/-! ### What a hop finds -/

/-- One step between nodes: over a tag below the threshold. -/
def Next (g : TagGraph) (maxCard : ℕ) (cur nfk : String) : Prop :=
  ∃ tk ∈ g.fileAdj.get cur, g.tagCardinality (trimPrefix tk tagPrefix) < maxCard ∧ nfk ∈ g.tagAdj.get tk

/-- One step between paths: a tag below the threshold that both have. -/
def Linked (g : TagGraph) (maxCard : ℕ) (p q : String) : Prop :=
  ∃ tag, g.HasEdge p tag ∧ g.HasEdge q tag ∧ g.tagCardinality tag < maxCard

section Hops

variable {R : Type} {S : Scoring R} {C : Choices} {g : TagGraph} {frontier scored : Finset String}
  {seedVec : Option (List UInt32)} {card hop n : ℕ} {maxF : ℤ} {cur tk k fk p q : String}
  {pending : Table String R} {st : Progress R}

@[simp] theorem trimPrefix_append : trimPrefix (p ++ q) p = q := by
  simp [trimPrefix, String.toList_append]

theorem mem_creditFiles {m : ℕ} :
    k ∈ (creditFiles S C g scored hop cur tk m pending).keys ↔
      k ∈ pending.keys ∨ k ∈ g.tagAdj.get tk ∧ k ∉ scored := by
  have hround : ∀ (t : Table String R) (nfk : String),
      k ∈ (if nfk ∈ scored then t else bump S.zero S.add t nfk (S.contrib g.totalFiles m hop)).keys ↔
        k ∈ t.keys ∨ (k = nfk ∧ k ∉ scored) := by
    intro t nfk
    split_ifs with h
    · constructor
      · exact Or.inl
      · rintro (hk | ⟨rfl, hk⟩)
        · exact hk
        · exact absurd h hk
    · rw [keys_bump, Finset.mem_insert]
      constructor
      · rintro (rfl | hk)
        · exact .inr ⟨rfl, h⟩
        · exact .inl hk
      · rintro (hk | ⟨rfl, -⟩)
        · exact .inr hk
        · exact .inl rfl
  rw [creditFiles, mem_keys_foldl hround]
  simp [C.mem_visit]

theorem mem_creditTags :
    k ∈ (creditTags S C g scored card hop cur pending).keys ↔
      k ∈ pending.keys ∨ Next g card cur k ∧ k ∉ scored := by
  have hround : ∀ (t : Table String R) (tk : String),
      k ∈ (if card ≤ g.tagCardinality (trimPrefix tk tagPrefix) then t
        else creditFiles S C g scored hop cur tk (g.tagCardinality (trimPrefix tk tagPrefix)) t).keys ↔
        k ∈ t.keys ∨
          (g.tagCardinality (trimPrefix tk tagPrefix) < card ∧ k ∈ g.tagAdj.get tk ∧ k ∉ scored) := by
    intro t tk
    split_ifs with h
    · simp [Nat.not_lt.mpr h]
    · rw [mem_creditFiles]
      simp [Nat.lt_of_not_le h]
  rw [creditTags, mem_keys_foldl hround]
  simp only [C.mem_visit, Next]
  tauto

/-- **`discoverNextHop`** finds what one step from the frontier reaches and nobody has scored. -/
theorem mem_discoverNextHop :
    k ∈ (discoverNextHop S C g frontier scored card hop).keys ↔
      (∃ cur ∈ frontier, Next g card cur k) ∧ k ∉ scored := by
  have hround : ∀ (t : Table String R) (cur : String),
      k ∈ (creditTags S C g scored card hop cur t).keys ↔ k ∈ t.keys ∨ Next g card cur k ∧ k ∉ scored :=
    fun _ _ => mem_creditTags
  rw [discoverNextHop, mem_keys_foldl hround]
  simp only [keys_empty, Finset.notMem_empty, false_or, C.mem_visit]
  tauto

@[simp] theorem keys_applySimilarityBoost :
    (applySimilarityBoost S g pending seedVec).keys = pending.keys := by
  cases seedVec <;> rfl

/-- What is kept was a candidate. -/
theorem candidates_subset : (candidates S C pending maxF hop).keys ⊆ pending.keys := by
  intro k hk
  rw [candidates] at hk
  split_ifs at hk
  · rw [truncate, mem_keys_ofEntries] at hk
    obtain ⟨e, he, rfl⟩ := List.mem_map.mp hk
    have hmem := (C.sortSlice_perm _ _).mem_iff.mp (List.mem_of_mem_take he)
    obtain ⟨k, hvisit, rfl⟩ := List.mem_map.mp hmem
    exact (C.mem_visit _ _ _).mp hvisit
  · exact hk

theorem candidates_eq (h : (pending.keys.card : ℤ) ≤ maxF) : candidates S C pending maxF hop = pending :=
  if_neg (Int.not_lt.mpr h)

theorem keys_scores_oneHop : (oneHop S C g seedVec card maxF hop st).scores.keys =
    st.scores.keys ∪ (oneHop S C g seedVec card maxF hop st).frontier := rfl

theorem scored_oneHop : (oneHop S C g seedVec card maxF hop st).scored =
    st.scored ∪ (oneHop S C g seedVec card maxF hop st).frontier := rfl

theorem hop_oneHop : ((oneHop S C g seedVec card maxF hop st).scores.val k).hop =
    if k ∈ (oneHop S C g seedVec card maxF hop st).frontier then hop else (st.scores.val k).hop := by
  simp only [oneHop, advanceFrontier, merge]
  split_ifs <;> rfl

/-- The next frontier was found from this one. -/
theorem found_of_frontier (h : k ∈ (oneHop S C g seedVec card maxF hop st).frontier) :
    (∃ cur ∈ st.frontier, Next g card cur k) ∧ k ∉ st.scored := by
  have hmem := candidates_subset h
  rw [keys_applySimilarityBoost] at hmem
  exact mem_discoverNextHop.mp hmem

theorem frontier_oneHop
    (h : ((discoverNextHop S C g st.frontier st.scored card hop).keys.card : ℤ) ≤ maxF) :
    (oneHop S C g seedVec card maxF hop st).frontier =
      (discoverNextHop S C g st.frontier st.scored card hop).keys := by
  simp only [oneHop, advanceFrontier]
  rw [candidates_eq (by rwa [keys_applySimilarityBoost]), keys_applySimilarityBoost]

/-! ### What every search keeps -/

/-- After so many hops: the scores are of other files than the seed, with the length of a walk there. -/
structure Reached (g : TagGraph) (card : ℕ) (fk : String) (hops : ℕ) (st : Progress R) : Prop where
  scored : st.scored = insert fk st.scores.keys
  seed : fk ∉ st.scores.keys
  frontier : ∀ k ∈ st.frontier, Walk (Next g card) hops fk k
  scores : ∀ k ∈ st.scores.keys, 1 ≤ (st.scores.val k).hop ∧ (st.scores.val k).hop ≤ hops ∧
    Walk (Next g card) (st.scores.val k).hop fk k

theorem reached_start : Reached g card fk 0 (start S fk) where
  scored := rfl
  seed := Finset.notMem_empty fk
  frontier k hk := by
    rw [Finset.mem_singleton.mp hk]
    exact .nil fk
  scores k hk := absurd hk (Finset.notMem_empty k)

/-- One hop. -/
theorem Reached.oneHop (h : Reached g card fk n st) :
    Reached g card fk (n + 1) (oneHop S C g seedVec card maxF (n + 1) st) where
  scored := by rw [scored_oneHop, keys_scores_oneHop, h.scored, Finset.insert_union]
  seed hmem := by
    rw [keys_scores_oneHop, Finset.mem_union] at hmem
    rcases hmem with hmem | hmem
    · exact h.seed hmem
    · have hnew := (found_of_frontier hmem).2
      rw [h.scored] at hnew
      exact hnew (Finset.mem_insert_self fk _)
  frontier k hk := by
    obtain ⟨⟨cur, hcur, hnext⟩, -⟩ := found_of_frontier hk
    exact .snoc (h.frontier cur hcur) hnext
  scores k hk := by
    rw [hop_oneHop]
    split_ifs with hnew
    · obtain ⟨⟨cur, hcur, hnext⟩, -⟩ := found_of_frontier hnew
      exact ⟨Nat.le_add_left 1 n, le_rfl, .snoc (h.frontier cur hcur) hnext⟩
    · rw [keys_scores_oneHop, Finset.mem_union] at hk
      have hold := h.scores k (hk.resolve_right hnew)
      exact ⟨hold.1, hold.2.1.trans n.le_succ, hold.2.2⟩

/-- The whole search. -/
theorem Reached.relatedLoop (hops : ℕ) : ∀ {n : ℕ} {st : Progress R}, Reached g card fk n st →
    ∃ m, m ≤ n + hops ∧ ∃ st', Reached g card fk m st' ∧
      relatedLoop S C g seedVec card maxF hops (n + 1) st = st'.scores := by
  induction hops with
  | zero => exact fun {n st} h => ⟨n, le_rfl, st, h, rfl⟩
  | succ hops ih =>
    intro n st h
    rw [Related.relatedLoop]
    split_ifs with hempty
    · exact ⟨n, Nat.le_add_right n _, st, h, rfl⟩
    · obtain ⟨m, hm, st', hst', heq⟩ := ih (h.oneHop (S := S) (C := C))
      exact ⟨m, by omega, st', hst', heq⟩

/-! ### What an untruncated search keeps -/

/-- After so many hops: the frontier is the last layer, and the scores are the layers so far. -/
structure Exact (g : TagGraph) (card : ℕ) (fk : String) (hops : ℕ) (st : Progress R) : Prop where
  scored : st.scored = insert fk st.scores.keys
  frontier : ∀ k, k ∈ st.frontier ↔ Dist (Next g card) hops fk k
  scores : ∀ k n, k ∈ st.scores.keys ∧ (st.scores.val k).hop = n ↔
    1 ≤ n ∧ n ≤ hops ∧ Dist (Next g card) n fk k

theorem exact_start : Exact g card fk 0 (start S fk) where
  scored := rfl
  frontier k := by
    rw [dist_zero]
    exact Finset.mem_singleton.trans eq_comm
  scores k n := by
    constructor
    · rintro ⟨hk, -⟩
      exact absurd hk (Finset.notMem_empty k)
    · rintro ⟨h1, h0, -⟩
      omega

/-- What has been scored: the files of the layers so far. -/
theorem Exact.mem_scored (h : Exact g card fk n st) :
    k ∈ st.scored ↔ ∃ m, m ≤ n ∧ Dist (Next g card) m fk k := by
  rw [h.scored, Finset.mem_insert]
  constructor
  · rintro (rfl | hk)
    · exact ⟨0, Nat.zero_le n, dist_zero.mpr rfl⟩
    · obtain ⟨-, hle, hd⟩ := (h.scores k _).mp ⟨hk, rfl⟩
      exact ⟨_, hle, hd⟩
  · rintro ⟨m, hm, hd⟩
    cases m with
    | zero => exact .inl (dist_zero.mp hd).symm
    | succ m => exact .inr ((h.scores k (m + 1)).mpr ⟨Nat.le_add_left 1 m, hm, hd⟩).1

/-- A hop finds the next layer. -/
theorem Exact.found (h : Exact g card fk n st) :
    k ∈ (discoverNextHop S C g st.frontier st.scored card hop).keys ↔ Dist (Next g card) (n + 1) fk k := by
  rw [mem_discoverNextHop, dist_succ, h.mem_scored]
  simp only [h.frontier, not_exists, not_and]

/-- One hop. -/
theorem Exact.oneHop (h : Exact g card fk n st)
    (hle : ((discoverNextHop S C g st.frontier st.scored card (n + 1)).keys.card : ℤ) ≤ maxF) :
    Exact g card fk (n + 1) (oneHop S C g seedVec card maxF (n + 1) st) where
  scored := by rw [scored_oneHop, keys_scores_oneHop, h.scored, Finset.insert_union]
  frontier k := by rw [frontier_oneHop hle, h.found]
  scores k m := by
    have hold := h.scores k m
    have hfound : k ∈ (discoverNextHop S C g st.frontier st.scored card (n + 1)).keys ↔ _ := h.found
    rw [hop_oneHop, keys_scores_oneHop, Finset.mem_union, frontier_oneHop hle]
    by_cases hd : Dist (Next g card) (n + 1) fk k
    · simp only [hfound.mpr hd, or_true, if_true, true_and]
      constructor
      · rintro rfl
        exact ⟨Nat.le_add_left 1 n, le_rfl, hd⟩
      · rintro ⟨-, -, hm⟩
        exact hd.unique hm
    · simp only [mt hfound.mp hd, or_false, if_false, hold]
      constructor
      · rintro ⟨h1, hm, hdm⟩
        exact ⟨h1, hm.trans n.le_succ, hdm⟩
      · rintro ⟨h1, hm, hdm⟩
        refine ⟨h1, Nat.le_of_lt_succ (Nat.lt_of_le_of_ne hm ?_), hdm⟩
        rintro rfl
        exact hd hdm

/-- The whole search. -/
theorem Exact.relatedLoop (hops : ℕ) : ∀ {n : ℕ} {st : Progress R}, Exact g card fk n st →
    Untruncated S C g seedVec card maxF hops (n + 1) st →
    ∀ k m, k ∈ (relatedLoop S C g seedVec card maxF hops (n + 1) st).keys ∧
        ((relatedLoop S C g seedVec card maxF hops (n + 1) st).val k).hop = m ↔
      1 ≤ m ∧ m ≤ n + hops ∧ Dist (Next g card) m fk k := by
  induction hops with
  | zero => exact fun {n st} h _ => h.scores
  | succ hops ih =>
    intro n st h hcut k m
    rw [Related.relatedLoop]
    split_ifs with hempty
    · rw [h.scores]
      -- the next layer is empty, and so are all after it
      have hnone : ∀ k, ¬ Dist (Next g card) (n + 1) fk k := by
        intro k hk
        have hmem : k ∈ (discoverNextHop S C g st.frontier st.scored card (n + 1)).keys := h.found.mpr hk
        rw [Finset.card_eq_zero.mp hempty] at hmem
        exact Finset.notMem_empty k hmem
      constructor
      · rintro ⟨h1, hm, hd⟩
        exact ⟨h1, by omega, hd⟩
      · rintro ⟨h1, hm, hd⟩
        refine ⟨h1, ?_, hd⟩
        by_contra hlt
        exact dist_empty hnone (Nat.lt_of_not_le hlt) k hd
    · obtain ⟨hle, hrest⟩ := hcut.resolve_left hempty
      rw [ih (h.oneHop hle) hrest, Nat.add_assoc, Nat.add_comm 1]

end Hops

end Tilbo.Graph.Related
