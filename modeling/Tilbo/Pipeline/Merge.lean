import Tilbo.Harvester.Meta
import Mathlib.Data.List.Sort

/-! # The harvester pipeline

`Pipeline.Run`: the harvesters that match a file run at the same time and send what they find on a channel; what
has arrived is sorted by priority and merged. The order in which the results arrive is open, and so is what
`sort.Slice` does with results of the same priority. `run_settled_iff` says when none of this matters. -/

namespace Tilbo.Pipeline.Merge

open Tilbo.Harvester.Meta

variable {F : Type}

/-- The interface `Harvester`; `run` is what `Run` finds, be it an error or not. -/
structure Harvester (F : Type) where
  name : String
  priority : ℤ
  async : Bool
  runsOn : String → String → Bool
  run : Input F → MetaMap F

/-- What a harvester sends on the channel. -/
structure Result (F : Type) where
  priority : ℤ
  metadata : MetaMap F

/-- `maps.Copy` for two maps. -/
def copyMap (m updates : MetaMap F) : MetaMap F := fun k => (updates k).or (m k)

/-- The loop that merges the sorted results. -/
def merge (results : List (Result F)) : MetaMap F := results.foldl (fun m r => copyMap m r.metadata) fun _ => none

/-- In ascending priority. -/
def Ascending (results : List (Result F)) : Prop := results.Pairwise fun a b => a.priority ≤ b.priority

/-- What `sort.Slice` promises. -/
structure Sorts (sort : List (Result F) → List (Result F)) : Prop where
  perm : ∀ l, (sort l).Perm l
  ascending : ∀ l, Ascending (sort l)

/-- `runAndMerge` on the results as they arrive. -/
def runAndMerge (sort : List (Result F) → List (Result F)) (arrived : List (Result F)) : MetaMap F :=
  merge (sort arrived)

/-- The harvesters that `Pipeline.Run` runs. -/
def selected (harvesters : List (Harvester F)) (input : Input F) : List (Harvester F) :=
  harvesters.filter fun h => !h.async && h.runsOn input.path input.mime

/-- The results of the harvesters that `Pipeline.Run` runs. -/
def results (harvesters : List (Harvester F)) (input : Input F) : List (Result F) :=
  (selected harvesters input).map fun h => ⟨h.priority, h.run input⟩

/-! ### The merged map -/

variable {l l' : List (Result F)} {r r' : Result F} {k : String} {v v' : MetaValue F}

theorem merge_append (r : Result F) : merge (l ++ [r]) = copyMap (merge l) r.metadata := by
  rw [merge, List.foldl_append]
  rfl

theorem merge_eq_findSome (l : List (Result F)) (k : String) :
    merge l k = l.reverse.findSome? fun r => r.metadata k := by
  induction l using List.reverseRecOn with
  | nil => rfl
  | append_singleton l r ih =>
    rw [merge_append, List.reverse_append, copyMap, ih]
    cases hr : r.metadata k with
    | none => simp [hr]
    | some v => simp [hr]

/-- The value of a key comes from the last result that has the key. -/
theorem merge_eq_some : merge l k = some v ↔
    ∃ before r after, l = before ++ r :: after ∧ r.metadata k = some v ∧ ∀ r' ∈ after, r'.metadata k = none := by
  rw [merge_eq_findSome, List.findSome?_eq_some_iff]
  constructor
  · rintro ⟨after, r, before, hl, hr, hnone⟩
    refine ⟨before.reverse, r, after.reverse, ?_, hr, by simpa using hnone⟩
    rw [← List.reverse_reverse l, hl]
    simp
  · rintro ⟨before, r, after, rfl, hr, hnone⟩
    exact ⟨after.reverse, r, before.reverse, by simp, hr, by simpa using hnone⟩

theorem merge_eq_none : merge l k = none ↔ ∀ r ∈ l, r.metadata k = none := by
  rw [merge_eq_findSome, List.findSome?_eq_none_iff]
  simp

/-- The result has the key, and the results with the key have no higher priority. -/
structure Top (l : List (Result F)) (k : String) (v : MetaValue F) (r : Result F) : Prop where
  mem : r ∈ l
  value : r.metadata k = some v
  highest : ∀ r' ∈ l, r'.metadata k ≠ none → r'.priority ≤ r.priority

theorem Top.perm (h : Top l k v r) (hl : l.Perm l') : Top l' k v r :=
  ⟨hl.mem_iff.mp h.mem, h.value, fun r' hr' => h.highest r' (hl.mem_iff.mpr hr')⟩

/-- In sorted results, a result of the highest priority decides. -/
theorem top_of_merge (hl : Ascending l) (h : merge l k = some v) : ∃ r, Top l k v r := by
  obtain ⟨before, r, after, rfl, hr, hnone⟩ := merge_eq_some.mp h
  refine ⟨r, by simp, hr, fun r' hr' hkey => ?_⟩
  rcases List.mem_append.mp hr' with hbefore | hafter
  · exact (List.pairwise_append.mp hl).2.2 r' hbefore r (by simp)
  · rcases List.mem_cons.mp hafter with rfl | hafter
    · exact le_rfl
    · exact absurd (hnone r' hafter) hkey

/-! ### Ties -/

/-- Results of the highest priority for a key agree on its value. -/
def Agree (l : List (Result F)) : Prop := ∀ k v v' r r', Top l k v r → Top l k v' r' → v = v'

theorem merge_eq_of_agree (h : Agree l) (hl : Ascending l) (hl' : Ascending l') (hperm : l'.Perm l) :
    merge l = merge l' := by
  funext k
  cases hm' : merge l' k with
  | none =>
    rw [merge_eq_none] at hm' ⊢
    exact fun r hr => hm' r (hperm.mem_iff.mpr hr)
  | some v' =>
    obtain ⟨r', hr'⟩ := top_of_merge hl' hm'
    cases hm : merge l k with
    | none =>
      rw [merge_eq_none] at hm
      exact absurd (hm r' (hr'.perm hperm).mem) (by rw [hr'.value]; nofun)
    | some v =>
      obtain ⟨r, hr⟩ := top_of_merge hl hm
      rw [h k v v' r r' hr (hr'.perm hperm)]

/-- The order that leaves sorted results alone. -/
def byPriority (l : List (Result F)) : List (Result F) := l.insertionSort fun a b => a.priority ≤ b.priority

theorem sorts_byPriority : Sorts (F := F) byPriority :=
  ⟨fun l => l.perm_insertionSort _, fun l => List.pairwise_insertionSort _ l⟩

/-- The results can arrive such that the sort puts a result of the highest priority last of those with the key. -/
theorem exists_arrived (h : Top l k v r) : ∃ arrived, arrived.Perm l ∧ runAndMerge byPriority arrived k = some v := by
  obtain ⟨l₁, l₂, rfl⟩ := List.append_of_mem h.mem
  have hperm : (r :: (l₁ ++ l₂)).Perm (l₁ ++ r :: l₂) := List.perm_middle.symm
  let low := byPriority ((l₁ ++ l₂).filter fun a => a.priority ≤ r.priority)
  let high := byPriority ((l₁ ++ l₂).filter fun a => !decide (a.priority ≤ r.priority))
  have hlow : ∀ a ∈ low, a.priority ≤ r.priority := by
    intro a ha
    have ha := (sorts_byPriority.perm _).mem_iff.mp ha
    simpa using (List.mem_filter.mp ha).2
  have hhigh : ∀ a ∈ high, a ∈ l₁ ++ l₂ ∧ r.priority < a.priority := by
    intro a ha
    have ha := List.mem_filter.mp ((sorts_byPriority.perm _).mem_iff.mp ha)
    exact ⟨ha.1, by simpa using ha.2⟩
  have harrived : (low ++ r :: high).Perm (l₁ ++ r :: l₂) := by
    refine List.Perm.trans ?_ hperm
    refine List.perm_middle.trans (List.Perm.cons r ?_)
    refine List.Perm.trans ((sorts_byPriority.perm _).append (sorts_byPriority.perm _)) ?_
    exact List.filter_append_perm _ _
  have hsorted : Ascending (low ++ r :: high) := by
    refine List.pairwise_append.mpr ⟨sorts_byPriority.ascending _, List.pairwise_cons.mpr ⟨fun a ha => ?_,
      sorts_byPriority.ascending _⟩, fun a ha b hb => ?_⟩
    · exact (hhigh a ha).2.le
    · rcases List.mem_cons.mp hb with rfl | hb
      · exact hlow a ha
      · exact (hlow a ha).trans (hhigh b hb).2.le
  refine ⟨low ++ r :: high, harrived, ?_⟩
  have hsame : byPriority (low ++ r :: high) = low ++ r :: high := hsorted.insertionSort_eq
  rw [runAndMerge, hsame, merge_eq_some]
  refine ⟨low, r, high, rfl, h.value, fun a ha => ?_⟩
  by_contra hkey
  obtain ⟨hmem, hlt⟩ := hhigh a ha
  exact absurd (h.highest a (hperm.mem_iff.mp (List.mem_cons_of_mem _ hmem)) hkey) (not_le.mpr hlt)

/-- **The merge does not depend on the order** in which the results arrive, nor on what the sort does with equal
priorities, if and only if results of the highest priority for a key agree on its value. In any order, the value of a
key comes from a harvester of the highest priority among those that found the key. -/
theorem run_settled_iff (harvesters : List (Harvester F)) (input : Input F) :
    ((∀ sort, Sorts sort → ∀ arrived arrived', arrived.Perm (results harvesters input) →
        arrived'.Perm (results harvesters input) → runAndMerge sort arrived = runAndMerge sort arrived') ↔
      Agree (results harvesters input)) ∧
    ∀ sort, Sorts sort → ∀ arrived, arrived.Perm (results harvesters input) → ∀ k,
      (∀ v, runAndMerge sort arrived k = some v → ∃ h ∈ selected harvesters input, h.run input k = some v ∧
        ∀ h' ∈ selected harvesters input, h'.run input k ≠ none → h'.priority ≤ h.priority) ∧
      ((∃ h ∈ selected harvesters input, h.run input k ≠ none) → runAndMerge sort arrived k ≠ none) := by
  refine ⟨⟨fun h k v v' r r' hr hr' => ?_, fun h sort hsort arrived arrived' harrived harrived' => ?_⟩, ?_⟩
  · obtain ⟨arrived, harrived, hv⟩ := exists_arrived hr
    obtain ⟨arrived', harrived', hv'⟩ := exists_arrived hr'
    have hsame := congrFun (h byPriority sorts_byPriority arrived arrived' harrived harrived') k
    rw [hv, hv'] at hsame
    exact Option.some.inj hsame
  · have hp := (hsort.perm arrived).trans harrived
    have hp' := (hsort.perm arrived').trans harrived'
    refine merge_eq_of_agree (fun k v v' r r' hr hr' => ?_) (hsort.ascending _) (hsort.ascending _) (hp'.trans hp.symm)
    exact h k v v' r r' (hr.perm hp) (hr'.perm hp)
  · intro sort hsort arrived harrived k
    have hp := (hsort.perm arrived).trans harrived
    refine ⟨fun v hv => ?_, ?_⟩
    · obtain ⟨r, hr⟩ := top_of_merge (hsort.ascending _) hv
      obtain ⟨hmem, hvalue, hhighest⟩ := hr.perm hp
      obtain ⟨h, hh, rfl⟩ := List.mem_map.mp hmem
      exact ⟨h, hh, hvalue, fun h' hh' hkey => hhighest _ (List.mem_map_of_mem hh') hkey⟩
    · rintro ⟨h, hh, hkey⟩ hnone
      exact hkey (merge_eq_none.mp hnone _ (hp.mem_iff.mpr (List.mem_map_of_mem hh)))

/-! ### Two titles -/

/-- A harvester of priority zero, as one that a user writes without a priority, which finds a title. -/
def titled (title : String) : Harvester Unit where
  name := title
  priority := 0
  async := false
  runsOn _ _ := true
  run _ k := if k = "title" then some (.text title) else none

/-- A file without metadata. -/
def untitled : Input Unit := ⟨"/a", "", fun _ => none⟩

/-- The title is the one that arrives last. -/
theorem title_unsettled :
    (results [titled "b", titled "a"] untitled).Perm (results [titled "a", titled "b"] untitled) ∧
      runAndMerge byPriority (results [titled "a", titled "b"] untitled) "title" = some (.text "b") ∧
      runAndMerge byPriority (results [titled "b", titled "a"] untitled) "title" = some (.text "a") :=
  ⟨List.Perm.swap .., rfl, rfl⟩

end Tilbo.Pipeline.Merge
