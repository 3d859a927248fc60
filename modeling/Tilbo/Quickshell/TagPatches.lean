import Tilbo.Quickshell.BrowserNavigation

/-! # Tag events in the lists of the window

A tag event names a path and the tags that were added to it and removed from it. The window patches the first entry
with this path, of the directory or of the search results; `patchEntryTags_iff` says when every entry with the path
then has the new tags. -/

namespace Tilbo.Quickshell.TagPatches

open Tilbo.Lib.Pairs Tilbo.Quickshell.BrowserNavigation List

/-! ### Tag sets -/

/-- `_applyTagDiff`; the order of `Object.keys` is left open. -/
def applyTagDiff (o : MapOrder) (existing added removed : List String) : List String :=
  let set := existing.foldl (fun set t => setProperty set t true) []
  let set := added.foldl (fun set t => setProperty set t true) set
  let set := removed.foldl (fun set t => set.filter fun p => p.1 ≠ t) set
  o.visit (set.map Prod.fst)

variable {o : MapOrder} {existing added removed : List String} {path t : String} {set : List (String × Bool)}

theorem mem_keys_added : t ∈ (added.foldl (fun set t => setProperty set t true) set).map Prod.fst ↔
    t ∈ set.map Prod.fst ∨ (t ∈ added ∧ t ≠ "__proto__") := by
  induction added generalizing set with
  | nil => simp
  | cons k added ih =>
    rw [List.foldl_cons, ih, setProperty]
    split_ifs with hk
    · subst hk
      rw [List.mem_cons]
      tauto
    · rw [mem_keys_put, List.mem_cons]
      refine ⟨?_, ?_⟩
      · rintro ((h | rfl) | ⟨h, hne⟩)
        · exact Or.inl h
        · exact Or.inr ⟨Or.inl rfl, hk⟩
        · exact Or.inr ⟨Or.inr h, hne⟩
      · rintro (h | ⟨rfl | h, hne⟩)
        · exact Or.inl (Or.inl h)
        · exact Or.inl (Or.inr rfl)
        · exact Or.inr ⟨h, hne⟩

theorem mem_keys_removed : t ∈ (removed.foldl (fun set t => set.filter fun p => p.1 ≠ t) set).map Prod.fst ↔
    t ∈ set.map Prod.fst ∧ t ∉ removed := by
  induction removed generalizing set with
  | nil => simp
  | cons k removed ih =>
    have hfilter : t ∈ (set.filter fun p => p.1 ≠ k).map Prod.fst ↔ t ∈ set.map Prod.fst ∧ t ≠ k := by
      simp only [List.mem_map, List.mem_filter, decide_eq_true_eq]
      exact ⟨fun ⟨p, ⟨hp, hk⟩, ht⟩ => ⟨⟨p, hp, ht⟩, ht ▸ hk⟩, fun ⟨⟨p, hp, ht⟩, hk⟩ => ⟨p, ⟨hp, ht ▸ hk⟩, ht⟩⟩
    rw [List.foldl_cons, ih, hfilter, List.mem_cons, not_or, and_assoc]

/-- The tags after a change: all but one are as they should be. -/
theorem mem_applyTagDiff : t ∈ applyTagDiff o existing added removed ↔
    ((t ∈ existing ∨ t ∈ added) ∧ t ≠ "__proto__") ∧ t ∉ removed := by
  have hempty : t ∉ ([] : List (String × Bool)).map Prod.fst := List.not_mem_nil
  rw [applyTagDiff, o.mem_visit, mem_keys_removed, mem_keys_added, mem_keys_added, or_iff_right hempty, ← or_and_right]

/-! ### The walk over the lists -/

/-- An entry with its tags changed. -/
def patch (o : MapOrder) (added removed : List String) (e : Entry) : Entry :=
  { e with tags := applyTagDiff o e.tags added removed }

/-- The inner loop of `_patchEntryTags`: the patched array, if the path is in it. -/
def patchArr (o : MapOrder) (path : String) (added removed : List String) : List Entry → Option (List Entry)
  | [] => none
  | e :: arr =>
    if e.path = path then some (patch o added removed e :: arr)
    else (patchArr o path added removed arr).map (e :: ·)

/-- `_patchEntryTags`; it returns as soon as it has patched one list. -/
def patchEntryTags (o : MapOrder) (path : String) (added removed : List String) (b : Browser) : Browser :=
  match patchArr o path added removed b.dirEntries with
  | some patched => { b with dirEntries := patched }
  | none =>
    match patchArr o path added removed b.searchResults with
    | some patched => { b with searchResults := patched }
    | none => b

/-- The loop ends at the first entry with the path. -/
theorem patchArr_cases (o : MapOrder) (path : String) (added removed : List String) (arr : List Entry) :
    (patchArr o path added removed arr = none ∧ ∀ e ∈ arr, e.path ≠ path) ∨
      ∃ l e r, arr = l ++ e :: r ∧ (∀ e ∈ l, e.path ≠ path) ∧ e.path = path ∧
        patchArr o path added removed arr = some (l ++ patch o added removed e :: r) := by
  induction arr with
  | nil => exact Or.inl ⟨rfl, by simp⟩
  | cons e arr ih =>
    rw [patchArr]
    split_ifs with he
    · exact Or.inr ⟨[], e, arr, rfl, by simp, he, rfl⟩
    · rcases ih with ⟨hnone, hne⟩ | ⟨l, e', r, rfl, hne, he', hsome⟩
      · exact Or.inl ⟨by rw [hnone]; rfl, List.forall_mem_cons.mpr ⟨he, hne⟩⟩
      · exact Or.inr ⟨e :: l, e', r, rfl, List.forall_mem_cons.mpr ⟨he, hne⟩, he', by rw [hsome]; rfl⟩

/-! ### Views that follow the event -/

/-- What should become of an entry: with the path, its tags are changed; otherwise it stays. -/
def Updated (path : String) (added removed : List String) (e e' : Entry) : Prop :=
  if e.path = path then
    (∀ t, t ∈ e'.tags ↔ (t ∈ e.tags ∨ t ∈ added) ∧ t ∉ removed) ∧ e' = { e with tags := e'.tags }
  else e' = e

/-- **Every view is updated.** -/
def ViewsUpdated (path : String) (added removed : List String) (b b' : Browser) : Prop :=
  Forall₂ (Updated path added removed) b.dirEntries b'.dirEntries ∧
    Forall₂ (Updated path added removed) b.searchResults b'.searchResults

/-- The one name that no object has as a key of its own is removed, or it is not among the tags. -/
def Plain (added removed : List String) (e : Entry) : Prop :=
  "__proto__" ∈ removed ∨ "__proto__" ∉ e.tags ++ added

/-- The entry has the tags already that the event leaves it with. -/
def Current (added removed : List String) (e : Entry) : Prop :=
  (∀ t ∈ added, t ∈ e.tags ∨ t ∈ removed) ∧ ∀ t ∈ removed, t ∉ e.tags

/-- The first entry with the path can be patched, and the others need no patch. -/
def OnlyFirst (added removed : List String) : List Entry → Prop
  | [] => True
  | e :: rest => Plain added removed e ∧ ∀ e' ∈ rest, Current added removed e'

variable {e : Entry} {arr l r : List Entry} {b : Browser}

theorem updated_patch_iff (he : e.path = path) :
    Updated path added removed e (patch o added removed e) ↔ Plain added removed e := by
  rw [Updated, if_pos he, Plain, List.mem_append]
  refine Iff.trans (and_iff_left rfl) ?_
  show (∀ t, t ∈ applyTagDiff o e.tags added removed ↔ _) ↔ _
  constructor
  · intro h
    by_contra hnot
    obtain ⟨hremoved, htags⟩ := not_or.mp hnot
    exact (mem_applyTagDiff.mp ((h "__proto__").mpr ⟨not_not.mp htags, hremoved⟩)).1.2 rfl
  · intro h t
    rw [mem_applyTagDiff]
    refine ⟨fun ⟨⟨ht, _⟩, hr⟩ => ⟨ht, hr⟩, fun ⟨ht, hr⟩ => ⟨⟨ht, fun hproto => ?_⟩, hr⟩⟩
    subst hproto
    exact h.elim hr fun hnot => hnot ht

theorem updated_self_iff (he : e.path = path) : Updated path added removed e e ↔ Current added removed e := by
  rw [Updated, if_pos he, and_iff_left rfl]
  constructor
  · intro h
    refine ⟨fun t ht => ?_, fun t ht htags => ((h t).mp htags).2 ht⟩
    by_cases hr : t ∈ removed
    · exact Or.inr hr
    · exact Or.inl ((h t).mpr ⟨Or.inr ht, hr⟩)
  · rintro ⟨hadded, hremoved⟩ t
    refine ⟨fun ht => ⟨Or.inl ht, fun hr => hremoved t hr ht⟩, fun ⟨ht, hr⟩ => ?_⟩
    exact ht.elim id fun ht => (hadded t ht).resolve_right hr

/-- A list that is left alone is up to date if its entries with the path are. -/
theorem forall₂_self_iff : Forall₂ (Updated path added removed) arr arr ↔
    ∀ e ∈ arr.filter (·.path = path), Current added removed e := by
  rw [forall₂_same]
  refine ⟨fun h e he => ?_, fun h e he => ?_⟩
  · obtain ⟨hmem, hpath⟩ := List.mem_filter.mp he
    exact (updated_self_iff (by simpa using hpath)).mp (h e hmem)
  · by_cases hpath : e.path = path
    · exact (updated_self_iff hpath).mpr (h e (List.mem_filter.mpr ⟨he, by simpa using hpath⟩))
    · rw [Updated, if_neg hpath]

/-- A list in which one entry is patched. -/
theorem forall₂_patch_iff (hl : ∀ e ∈ l, e.path ≠ path) (he : e.path = path) :
    Forall₂ (Updated path added removed) (l ++ e :: r) (l ++ patch o added removed e :: r) ↔
      Plain added removed e ∧ ∀ e ∈ r.filter (·.path = path), Current added removed e := by
  induction l with
  | nil => rw [List.nil_append, List.nil_append, forall₂_cons, updated_patch_iff he, forall₂_self_iff]
  | cons e' l ih =>
    obtain ⟨he', hl⟩ := List.forall_mem_cons.mp hl
    have hself : Updated path added removed e' e' := by rw [Updated, if_neg he']
    rw [List.cons_append, List.cons_append, forall₂_cons, ih hl, and_iff_right hself]

theorem filter_eq_nil (h : ∀ e ∈ arr, e.path ≠ path) : arr.filter (·.path = path) = [] :=
  List.filter_eq_nil_iff.mpr fun e he => by simpa using h e he

theorem filter_split (hl : ∀ e ∈ l, e.path ≠ path) (he : e.path = path) :
    (l ++ e :: r).filter (·.path = path) = e :: r.filter (·.path = path) := by
  rw [List.filter_append, filter_eq_nil hl, List.nil_append, List.filter_cons_of_pos (by simpa using he)]

/-- **When the views follow a tag event.** The first entry with the path, of the directory or else of the search
results, must have no tag `__proto__` that is to stay, and every other entry with the path must have the new tags
before. -/
theorem patchEntryTags_iff (o : MapOrder) (path : String) (added removed : List String) (b : Browser) :
    ViewsUpdated path added removed b (patchEntryTags o path added removed b) ↔
      OnlyFirst added removed ((b.dirEntries ++ b.searchResults).filter (·.path = path)) := by
  rw [patchEntryTags, List.filter_append]
  rcases patchArr_cases o path added removed b.dirEntries with ⟨hdir, hne⟩ | ⟨l, e, r, hsplit, hl, he, hdir⟩
  · rw [hdir, filter_eq_nil hne, List.nil_append]
    have hkept : Forall₂ (Updated path added removed) b.dirEntries b.dirEntries :=
      forall₂_self_iff.mpr (by rw [filter_eq_nil hne]; simp)
    rcases patchArr_cases o path added removed b.searchResults with ⟨hres, hne'⟩ | ⟨l, e, r, hsplit, hl, he, hres⟩
    · have hkept' : Forall₂ (Updated path added removed) b.searchResults b.searchResults :=
        forall₂_self_iff.mpr (by rw [filter_eq_nil hne']; simp)
      rw [hres, filter_eq_nil hne']
      exact ⟨fun _ => trivial, fun _ => ⟨hkept, hkept'⟩⟩
    · rw [hres]
      simp only [ViewsUpdated]
      rw [and_iff_right hkept, hsplit, filter_split hl he, forall₂_patch_iff hl he, OnlyFirst]
  · rw [hdir]
    simp only [ViewsUpdated]
    rw [hsplit, forall₂_patch_iff hl he, forall₂_self_iff, filter_split hl he, List.cons_append, OnlyFirst,
      List.forall_mem_append, and_assoc]

/-- A window with a file in its directory and in its search results. -/
def bothViews : Browser :=
  { dirEntries := [⟨"/a", "a", false, 0, 0, []⟩], searchResults := [⟨"/a", "a", false, 0, 0, []⟩] }

/-- A file in both lists gets its tag in the directory only. -/
theorem result_not_patched :
    ¬ ViewsUpdated "/a" ["x"] [] bothViews (patchEntryTags .inserted "/a" ["x"] [] bothViews) := by
  intro h
  obtain ⟨-, hresults⟩ := h
  have hcurrent := (updated_self_iff rfl).mp (List.forall₂_cons.mp hresults).1
  exact (hcurrent.1 "x" (by simp)).elim (by simp) (by simp)

end Tilbo.Quickshell.TagPatches
