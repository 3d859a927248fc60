import Tilbo.Quickshell.BrowserNavigation

/-! # Search chips together

Chips of five kinds make up a search: those for the index go into one request, those for file names into a walk of the
file system. The walk is only made if the index has found nothing, and a metadata chip is read only if it has one `=`.
`chips_combine_iff` says for which chips and answers the window shows what both have found. -/

namespace Tilbo.Quickshell.SearchChips

open Tilbo.Lib.Pairs Tilbo.Quickshell.BrowserNavigation

variable {toLowerCase : String → String} {chips : List String} {c k v : String} {s : Chips}
  {m l : List (String × String)}

/-! ### Metadata chips -/

/-- The filter that a chip sets. -/
def filterOf (c : String) : Option (String × String) :=
  match after "meta:" c with
  | some text =>
    match text.splitOn '=' with
    | [key, value] => some (String.ofList key, String.ofList value)
    | _ => none
  | none => none

theorem after_eq_some_iff {start c : String} {text : List Char} :
    after start c = some text ↔ c.toList = start.toList ++ text := by
  unfold after
  split_ifs with h
  · obtain ⟨rest, hrest⟩ := h
    rw [← hrest, List.drop_left, Option.some_inj, List.append_cancel_left_eq]
  · refine ⟨by simp, fun heq => absurd ?_ h⟩
    rw [heq]
    exact List.prefix_append _ _

/-- A chip of one kind does not start like one of another. -/
theorem after_eq_none {start other c : String} {text : List Char} (h : after start c = some text)
    (hne : ¬ start.toList <+: other.toList) (hne' : ¬ other.toList <+: start.toList) : after other c = none := by
  cases hother : after other c with
  | none => rfl
  | some text' =>
    rw [after_eq_some_iff] at h hother
    have hstart : start.toList <+: c.toList := h ▸ List.prefix_append _ _
    have hother' : other.toList <+: c.toList := hother ▸ List.prefix_append _ _
    exact ((List.prefix_or_prefix_of_prefix hstart hother').elim hne hne').elim

/-- Two parts: there is one separator. -/
theorem splitOn_eq_pair_iff {sep : Char} {text key value : List Char} :
    text.splitOn sep = [key, value] ↔ text = key ++ sep :: value ∧ sep ∉ key ∧ sep ∉ value := by
  constructor
  · intro h
    have htext : text = key ++ sep :: value := by
      have hjoin : [sep].intercalate (text.splitOn sep) = text := List.intercalate_splitOn sep
      rw [← hjoin, h]
      simp [List.intercalate]
    refine ⟨htext, ?_⟩
    have hcount : ∀ xs : List Char, (xs.splitOn sep).length = xs.count sep + 1 := fun xs => by
      induction xs with
      | nil => rfl
      | cons x xs ih =>
        rw [List.splitOn_cons_eq_if_modifyHead, List.count_cons]
        by_cases hx : x == sep
        · rw [if_pos hx, if_pos hx, List.length_cons, ih]
        · rw [if_neg hx, if_neg hx, List.length_modifyHead, ih, Nat.add_zero]
    have hone := hcount text
    rw [h, htext, List.count_append, List.count_cons_self] at hone
    simp only [List.length_cons, List.length_nil] at hone
    exact ⟨List.count_eq_zero.mp (by omega), List.count_eq_zero.mp (by omega)⟩
  · rintro ⟨rfl, hkey, hvalue⟩
    rw [List.splitOn_append_cons_self_of_not_mem hkey, List.splitOn_eq_singleton hvalue]

/-- A chip sets a filter if it has one `=`. -/
theorem filterOf_eq_some_iff :
    filterOf c = some (k, v) ↔ c = "meta:" ++ k ++ "=" ++ v ∧ '=' ∉ k.toList ∧ '=' ∉ v.toList := by
  have hchip : c = "meta:" ++ k ++ "=" ++ v ↔ after "meta:" c = some (k.toList ++ '=' :: v.toList) := by
    rw [after_eq_some_iff, ← String.toList_inj]
    simp [String.toList_append]
  rw [hchip, filterOf]
  cases hafter : after "meta:" c with
  | none => simp
  | some text =>
    rw [Option.some_inj]
    show (match text.splitOn '=' with
      | [key, value] => some (String.ofList key, String.ofList value)
      | _ => none) = some (k, v) ↔ _
    rw [← splitOn_eq_pair_iff]
    constructor
    · intro h
      split at h
      · rename_i key value hsplit
        obtain ⟨rfl, rfl⟩ := Prod.mk.inj (Option.some_inj.mp h)
        rw [String.toList_ofList, String.toList_ofList, hsplit]
      · cases h
    · intro h
      rw [h]
      simp

theorem metaFilters_read : (s.read c).metaFilters =
    match filterOf c with
    | some (k, v) => setProperty s.metaFilters k v
    | none => s.metaFilters := by
  have hmeta : ∀ text, after "meta:" c = some text →
      after "glob:" c = none ∧ c ≠ "hidden:any" ∧ after "fts:" c = none := by
    intro text h
    refine ⟨after_eq_none h (by decide) (by decide), ?_, after_eq_none h (by decide) (by decide)⟩
    rintro rfl
    have hnone : after "meta:" "hidden:any" = none := by decide
    rw [hnone] at h
    cases h
  unfold filterOf Chips.read
  cases hafter : after "meta:" c with
  | some text =>
    obtain ⟨hglob, hhidden, hfts⟩ := hmeta text hafter
    rw [hglob, hfts]
    simp only [if_neg hhidden]
    split <;> simp_all
  | none =>
    cases after "glob:" c with
    | some pat => rfl
    | none =>
      by_cases hhidden : c = "hidden:any"
      · simp only [if_pos hhidden]
      · simp only [if_neg hhidden]
        cases after "fts:" c <;> rfl

/-- The filters of a search are those of its chips, one after the other. -/
theorem metaFilters_readChips {showHidden : Bool} : (readChips showHidden chips).metaFilters =
    (chips.filterMap filterOf).foldl (fun m p => setProperty m p.1 p.2) [] := by
  have h : ∀ s : Chips, (chips.foldl Chips.read s).metaFilters =
      (chips.filterMap filterOf).foldl (fun m p => setProperty m p.1 p.2) s.metaFilters := by
    induction chips with
    | nil => exact fun s => rfl
    | cons c chips ih =>
      intro s
      rw [List.foldl_cons, ih, metaFilters_read]
      cases hfilter : filterOf c with
      | none => rw [List.filterMap_cons_none hfilter]
      | some p => rw [List.filterMap_cons_some hfilter, List.foldl_cons]
  exact h _

theorem lookup_setProperty : (setProperty m k v).lookup c =
    if c = k ∧ k ≠ "__proto__" then some v else m.lookup c := by
  unfold setProperty
  by_cases hk : k = "__proto__"
  · rw [if_pos hk, if_neg fun h => h.2 hk]
  · rw [if_neg hk, lookup_put]
    simp [hk]

/-- What is looked up was set. -/
theorem mem_of_lookup (h : (l.foldl (fun m p => setProperty m p.1 p.2) m).lookup k = some v) :
    m.lookup k = some v ∨ (k, v) ∈ l ∧ k ≠ "__proto__" := by
  induction l generalizing m with
  | nil => exact Or.inl h
  | cons p l ih =>
    rcases ih h with h | ⟨hmem, hk⟩
    · rw [lookup_setProperty] at h
      split_ifs at h with hp
      · exact Or.inr ⟨by rw [hp.1, ← Option.some_inj.mp h]; exact List.mem_cons_self, hp.1 ▸ hp.2⟩
      · exact Or.inl h
    · exact Or.inr ⟨List.mem_cons_of_mem _ hmem, hk⟩

/-- A key that was set has a value. -/
theorem exists_lookup (hk : k ≠ "__proto__") (h : (k, v) ∈ l ∨ ∃ v', m.lookup k = some v') :
    ∃ v', (l.foldl (fun m p => setProperty m p.1 p.2) m).lookup k = some v' := by
  induction l generalizing m v with
  | nil => exact h.elim (fun h => absurd h List.not_mem_nil) id
  | cons p l ih =>
    by_cases hp : k = p.1
    · exact ih (v := v) (Or.inr ⟨p.2, by rw [lookup_setProperty, if_pos ⟨hp, hp ▸ hk⟩]⟩)
    · refine ih (v := v) (h.imp (fun hmem => (List.mem_cons.mp hmem).resolve_left ?_) fun ⟨v', hv'⟩ => ⟨v', ?_⟩)
      · rintro rfl
        exact hp rfl
      · rw [lookup_setProperty, if_neg fun h => hp h.1]
        exact hv'

/-! ### What the daemon finds -/

/-- A daemon that answers every request, each in its way. -/
structure Daemon where
  search : SearchRequest → List Entry
  globSearch : GlobRequest → List Entry

/-- The answer to a call. -/
def Daemon.answer (daemon : Daemon) : Call → Except String Reply
  | .search request _ _ => .ok { search := daemon.search request }
  | .globSearch request => .ok { globSearch := daemon.globSearch request }
  | _ => .ok {}

/-- The files that the indexed search finds; none if there is nothing to ask for. -/
def Daemon.indexed (daemon : Daemon) (s : Chips) : List Entry := (s.request.map daemon.search).getD []

/-- The files that the glob search finds. -/
def Daemon.globbed (daemon : Daemon) (s : Chips) : List Entry :=
  daemon.globSearch { patterns := s.globPats, allowHidden := s.allowHid }

variable {daemon : Daemon} {b b' : Browser}

theorem settles_glob_iff (hglob : s.globPats ≠ []) :
    Browser.Settles toLowerCase daemon.answer (b.globOrNothing s.globPats s.allowHid).1
      (b.globOrNothing s.globPats s.allowHid).2 b' ↔
        b' = { b with searchResults := b.sortEntries toLowerCase (daemon.globbed s) } := by
  rw [Browser.globOrNothing, if_pos hglob, Browser.runGlobSearch, Browser.settles_cons_iff]
  exact Browser.settles_nil_iff

/-- What the window shows when the requests of a search have been answered. -/
theorem settles_iff (hglob : (readChips b.showHidden chips).globPats ≠ []) :
    Browser.Settles toLowerCase daemon.answer (b.runSearch chips).1 (b.runSearch chips).2 b' ↔
      b' = { b with
        searchResults := b.sortEntries toLowerCase
          (if daemon.indexed (readChips b.showHidden chips) ≠ [] then daemon.indexed (readChips b.showHidden chips)
          else daemon.globbed (readChips b.showHidden chips)) } := by
  cases hrequest : (readChips b.showHidden chips).request with
  | none =>
    have hindexed : daemon.indexed (readChips b.showHidden chips) = [] := by rw [Daemon.indexed, hrequest]; rfl
    rw [Browser.runSearch_none hrequest, hindexed, if_neg (not_not.mpr rfl)]
    exact settles_glob_iff hglob
  | some request =>
    have hindexed : daemon.indexed (readChips b.showHidden chips) = daemon.search request := by
      rw [Daemon.indexed, hrequest]; rfl
    rw [Browser.runSearch_some hrequest, hindexed, Browser.settles_cons_iff, List.append_nil, Browser.answered,
      Daemon.answer, Browser.found]
    split_ifs with hfound
    · exact Browser.settles_nil_iff
    · exact settles_glob_iff hglob

/-! ### Chips that combine -/

/-- There is a metadata chip with this key and this value; the key ends at the first `=`. -/
def MetaChip (chips : List String) (key value : String) : Prop :=
  '=' ∉ key.toList ∧ "meta:" ++ key ++ "=" ++ value ∈ chips

/-- The window shows what both searches find, every file once, and every metadata chip has reached the index. -/
structure Merged (daemon : Daemon) (b : Browser) (chips : List String) (b' : Browser) : Prop where
  paths : ∀ path, path ∈ b'.searchResults.map Entry.path ↔
    path ∈ (daemon.indexed (readChips b.showHidden chips) ++ daemon.globbed (readChips b.showHidden chips)).map
      Entry.path
  files : ∀ e ∈ b'.searchResults,
    e ∈ daemon.indexed (readChips b.showHidden chips) ++ daemon.globbed (readChips b.showHidden chips)
  nodup : (b'.searchResults.map Entry.path).Nodup
  filters : ∀ key value, MetaChip chips key value → ∃ request globPats allowHid,
    .search request globPats allowHid ∈ (b.runSearch chips).2 ∧ request.metaFilters.lookup key = some value

/-- **The chips combine.** When the requests of the search are answered, the window shows the files of both. -/
def Combine (toLowerCase : String → String) (daemon : Daemon) (b : Browser) (chips : List String) : Prop :=
  ∃ b', Browser.Settles toLowerCase daemon.answer (b.runSearch chips).1 (b.runSearch chips).2 b' ∧
    Merged daemon b chips b'

/-- Every metadata chip has one `=` and a key that an object can have, and no two differ in the value alone. -/
def OneFilterEach (chips : List String) : Prop :=
  ∀ key value, MetaChip chips key value →
    '=' ∉ value.toList ∧ key ≠ "__proto__" ∧ ∀ value', MetaChip chips key value' → value' = value

/-- The index finds all that is found, or nothing; and what is shown has no path twice. -/
def OneSuffices (indexed globbed : List Entry) : Prop :=
  if indexed = [] then (globbed.map Entry.path).Nodup
  else (indexed.map Entry.path).Nodup ∧ ∀ e ∈ globbed, e.path ∈ indexed.map Entry.path

theorem mem_filters_iff : (k, v) ∈ chips.filterMap filterOf ↔ MetaChip chips k v ∧ '=' ∉ v.toList := by
  rw [List.mem_filterMap]
  constructor
  · rintro ⟨c, hc, hfilter⟩
    obtain ⟨rfl, hk, hv⟩ := filterOf_eq_some_iff.mp hfilter
    exact ⟨⟨hk, hc⟩, hv⟩
  · rintro ⟨⟨hk, hc⟩, hv⟩
    exact ⟨_, hc, filterOf_eq_some_iff.mpr ⟨rfl, hk, hv⟩⟩

/-- Which metadata chips reach the filters. -/
theorem filters_iff {showHidden : Bool} :
    (∀ key value, MetaChip chips key value → (readChips showHidden chips).metaFilters.lookup key = some value) ↔
      OneFilterEach chips := by
  rw [metaFilters_readChips]
  constructor
  · intro h key value hchip
    rcases mem_of_lookup (h key value hchip) with hnil | ⟨hmem, hkey⟩
    · cases hnil
    · refine ⟨(mem_filters_iff.mp hmem).2, hkey, fun value' hchip' => ?_⟩
      exact Option.some_inj.mp ((h key value' hchip').symm.trans (h key value hchip))
  · intro h key value hchip
    obtain ⟨hvalue, hkey, hsame⟩ := h key value hchip
    obtain ⟨value', hvalue'⟩ := exists_lookup (m := []) hkey (Or.inl (mem_filters_iff.mpr ⟨hchip, hvalue⟩))
    rcases mem_of_lookup hvalue' with hnil | ⟨hmem, -⟩
    · cases hnil
    · rw [hvalue', hsame value' (mem_filters_iff.mp hmem).1]

/-- A filter reaches the index if it is among the filters. -/
theorem reaches_iff {key value : String} : (∃ request globPats allowHid,
    Call.search request globPats allowHid ∈ (b.runSearch chips).2 ∧ request.metaFilters.lookup key = some value) ↔
      (readChips b.showHidden chips).metaFilters.lookup key = some value := by
  cases hrequest : (readChips b.showHidden chips).request with
  | some request =>
    have hmeta : request.metaFilters = (readChips b.showHidden chips).metaFilters := by
      unfold Chips.request at hrequest
      split_ifs at hrequest
      rw [← Option.some_inj.mp hrequest]
    rw [Browser.runSearch_some hrequest, ← hmeta]
    constructor
    · rintro ⟨request', globPats, allowHid, hmem, hlookup⟩
      cases List.mem_singleton.mp hmem
      exact hlookup
    · exact fun h => ⟨request, _, _, List.mem_singleton_self _, h⟩
  | none =>
    have hnil : (readChips b.showHidden chips).metaFilters = [] := by
      by_contra hne
      rw [Chips.request, if_pos (Or.inr (Or.inr hne))] at hrequest
      cases hrequest
    rw [Browser.runSearch_none hrequest, hnil, Browser.globOrNothing, Browser.runGlobSearch]
    split_ifs <;> simp

theorem globPats_ne_nil {showHidden : Bool} (h : ∃ c ∈ chips, "glob:".toList <+: c.toList) :
    (readChips showHidden chips).globPats ≠ [] := by
  have hread : ∀ (s : Chips) (c : String), s.globPats <+: (s.read c).globPats := by
    intro s c
    unfold Chips.read
    split
    · exact List.prefix_append _ _
    · split_ifs
      · exact List.prefix_refl _
      · split
        · exact List.prefix_refl _
        · split
          · split <;> exact List.prefix_refl _
          · exact List.prefix_refl _
  have hall : ∀ (chips : List String) (s : Chips), s.globPats ≠ [] → (chips.foldl Chips.read s).globPats ≠ [] := by
    intro chips
    induction chips with
    | nil => exact fun s hs => hs
    | cons c chips ih => exact fun s hs => ih _ fun hnil => hs (List.prefix_nil.mp (hnil ▸ hread s c))
  obtain ⟨c, hc, hglob⟩ := h
  obtain ⟨before, behind, rfl⟩ := List.append_of_mem hc
  rw [readChips, List.foldl_append, List.foldl_cons]
  refine hall _ _ ?_
  rw [Chips.read, after, if_pos hglob]
  simp

/-- What is shown is one of the two lists; it is all that was found if that one suffices. -/
theorem oneSuffices_iff {indexed globbed shown : List Entry}
    (h : shown.Perm (if indexed ≠ [] then indexed else globbed)) :
    ((∀ path, path ∈ shown.map Entry.path ↔ path ∈ (indexed ++ globbed).map Entry.path) ∧
      (∀ e ∈ shown, e ∈ indexed ++ globbed) ∧ (shown.map Entry.path).Nodup) ↔ OneSuffices indexed globbed := by
  unfold OneSuffices
  by_cases hnil : indexed = []
  · rw [if_neg (not_not.mpr hnil)] at h
    rw [if_pos hnil, hnil, List.nil_append, ← (h.map Entry.path).nodup_iff]
    exact ⟨fun h => h.2.2, fun hnodup => ⟨fun path => (h.map Entry.path).mem_iff, fun e => h.mem_iff.mp, hnodup⟩⟩
  · rw [if_pos hnil] at h
    rw [if_neg hnil, ← (h.map Entry.path).nodup_iff]
    constructor
    · rintro ⟨hpaths, -, hnodup⟩
      refine ⟨hnodup, fun e he => (h.map Entry.path).mem_iff.mp ((hpaths e.path).mpr ?_)⟩
      exact List.mem_map_of_mem (List.mem_append_right _ he)
    · rintro ⟨hnodup, hglobbed⟩
      refine ⟨fun path => ?_, fun e he => List.mem_append_left _ (h.mem_iff.mp he), hnodup⟩
      rw [(h.map Entry.path).mem_iff, List.map_append, List.mem_append]
      refine ⟨Or.inl, fun hpath => hpath.elim id fun hpath => ?_⟩
      obtain ⟨e, he, rfl⟩ := List.mem_map.mp hpath
      exact hglobbed e he

theorem Combine.oneSuffices (hpats : (readChips b.showHidden chips).globPats ≠ [])
    (h : Combine toLowerCase daemon b chips) :
    OneSuffices (daemon.indexed (readChips b.showHidden chips)) (daemon.globbed (readChips b.showHidden chips)) := by
  obtain ⟨b', hsettles, hmerged⟩ := h
  rw [settles_iff hpats] at hsettles
  have hshown : b'.searchResults.Perm (if daemon.indexed (readChips b.showHidden chips) ≠ [] then
      daemon.indexed (readChips b.showHidden chips) else daemon.globbed (readChips b.showHidden chips)) := by
    rw [hsettles]
    exact sortRows_perm
  exact (oneSuffices_iff hshown).mp ⟨hmerged.paths, hmerged.files, hmerged.nodup⟩

/-- **When search chips combine.** For every window, chips with a glob chip among them, and answers. -/
theorem chips_combine_iff (toLowerCase : String → String) (daemon : Daemon) (b : Browser) (chips : List String)
    (hglob : ∃ c ∈ chips, "glob:".toList <+: c.toList) :
    Combine toLowerCase daemon b chips ↔ OneFilterEach chips ∧
      OneSuffices (daemon.indexed (readChips b.showHidden chips)) (daemon.globbed (readChips b.showHidden chips)) := by
  have hpats := @globPats_ne_nil chips b.showHidden hglob
  rw [← @filters_iff _ b.showHidden]
  constructor
  · intro h
    have hsuffices := h.oneSuffices hpats
    obtain ⟨b', -, hmerged⟩ := h
    exact ⟨fun key value hchip => reaches_iff.mp (hmerged.filters key value hchip), hsuffices⟩
  · rintro ⟨hfilters, hsuffices⟩
    obtain ⟨hpaths, hfiles, hnodup⟩ := (oneSuffices_iff sortRows_perm).mpr hsuffices
    exact ⟨_, (settles_iff hpats).mpr rfl, hpaths, hfiles, hnodup,
      fun key value hchip => reaches_iff.mpr (hfilters key value hchip)⟩

/-! ### A tag and a glob -/

/-- The index knows one file and the file system another one. -/
def twoFiles : Daemon where
  search _ := [⟨"/a.jpg", "a.jpg", false, 0, 0, ["photo"]⟩]
  globSearch _ := [⟨"/b.jpg", "b.jpg", false, 0, 0, []⟩]

theorem photos_have_glob : ∃ c ∈ ["photo", "glob:*.jpg"], "glob:".toList <+: c.toList := by decide

theorem photos_not_suffice : ¬ OneSuffices (twoFiles.indexed (readChips false ["photo", "glob:*.jpg"]))
    (twoFiles.globbed (readChips false ["photo", "glob:*.jpg"])) := by
  intro h
  have hindexed : twoFiles.indexed (readChips false ["photo", "glob:*.jpg"]) =
      [⟨"/a.jpg", "a.jpg", false, 0, 0, ["photo"]⟩] := by decide
  rw [hindexed, OneSuffices, if_neg (List.cons_ne_nil _ _)] at h
  exact absurd (h.2 _ (List.mem_singleton_self _)) (by decide)

/-- The file that only the walk would find is not shown. -/
theorem glob_left_out : ¬ Combine id twoFiles {} ["photo", "glob:*.jpg"] := fun h =>
  photos_not_suffice (h.oneSuffices (@globPats_ne_nil _ false photos_have_glob))

/-- A search for photos that has found nothing in the index shows what the walk finds. -/
theorem chips_combine_iff_walked : (∃ c ∈ ["photo", "glob:*.jpg"], "glob:".toList <+: c.toList) ∧
    (Combine id twoFiles {} ["photo", "glob:*.jpg"] ↔ OneFilterEach ["photo", "glob:*.jpg"] ∧
      OneSuffices (twoFiles.indexed (readChips false ["photo", "glob:*.jpg"]))
        (twoFiles.globbed (readChips false ["photo", "glob:*.jpg"]))) :=
  ⟨photos_have_glob, chips_combine_iff id twoFiles {} ["photo", "glob:*.jpg"] photos_have_glob⟩

end Tilbo.Quickshell.SearchChips
