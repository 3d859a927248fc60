import Tilbo.Lib.Steps
import Tilbo.Quickshell.BrowserNavigation

/-! # Answers that come late

The daemon answers the requests of a window in any order, and a callback assigns what it gets to the array of its view
without a look at the request that it answers. `shows_of_meets` says which answers have to come in time for the window
to show what it says it shows. -/

namespace Tilbo.Quickshell.LateAnswers

open Tilbo.Lib Tilbo.Quickshell.BrowserNavigation

/-! ### The window and the daemon -/

/-- What the user does. -/
inductive Action where
  | navigateTo (path : String)
  | goBack
  | goForward
  | navigateToTrash
  | executeSearch (chips : List String)
  | refresh

def Action.run (b : Browser) : Action → Browser × List Call
  | navigateTo path => b.navigateTo path
  | goBack => b.goBack
  | goForward => b.goForward
  | navigateToTrash => b.navigateToTrash
  | executeSearch chips => b.executeSearch chips
  | refresh => b.refresh

/-- The action is a search. -/
def Action.searches (b : Browser) : Action → Bool
  | executeSearch chips => chips.length > 0
  | refresh => !b.isTrashView && b.isSearchMode
  | _ => false

/-- The call is for a directory. -/
def isListing : Call → Bool
  | .listDirectory _ _ => true
  | _ => false

abbrev Answer : Type := Except String Reply

/-- A window with its calls. A call has the number of the action that it goes back to, be it through callbacks. -/
structure State where
  browser : Browser := {}
  waiting : List (ℕ × Call) := []
  /-- The calls that have been answered. -/
  answers : List (ℕ × Call × Answer) := []
  actions : ℕ := 0
  /-- The last action that has loaded a directory. -/
  listing : Option ℕ := none
  /-- The last search. -/
  search : Option ℕ := none

/-- The user acts. -/
def State.act (s : State) (a : Action) : State :=
  { browser := (a.run s.browser).1
    waiting := s.waiting ++ (a.run s.browser).2.map fun c => (s.actions, c)
    answers := s.answers
    actions := s.actions + 1
    listing := if (a.run s.browser).2.any isListing then some s.actions else s.listing
    search := if a.searches s.browser then some s.actions else s.search }

/-- What happens. -/
inductive Event where
  | act (a : Action)
  | answered (n : ℕ) (c : Call) (answer : Answer)

variable (toLowerCase : String → String)

/-- The calls `before` and `after` go on waiting. -/
def State.answer (s : State) (before after : List (ℕ × Call)) (n : ℕ) (c : Call) (answer : Answer) : State :=
  { s with
    browser := (s.browser.answered toLowerCase c answer).1
    waiting := before ++ after ++ (s.browser.answered toLowerCase c answer).2.map fun c => (n, c)
    answers := s.answers ++ [(n, c, answer)] }

/-- A waiting call may be answered at any time. -/
inductive Step : State → Event → State → Prop
  | act (s : State) (a : Action) : Step s (.act a) (s.act a)
  | answered {s : State} {before after : List (ℕ × Call)} {n : ℕ} {c : Call} (answer : Answer)
      (h : s.waiting = before ++ (n, c) :: after) :
      Step s (.answered n c answer) (s.answer toLowerCase before after n c answer)

/-! ### What is shown -/

/-- The view is a directory. -/
def ShowsDirectory (b : Browser) : Prop := b.isSearchMode = false ∧ b.isTrashView = false

/-- The window shows the entries with the tags that the daemon has for them; without tags if it has not told. -/
inductive Hydrated (s : State) (n : ℕ) (entries : List Entry) : Prop
  | empty (h : entries = []) (hshown : s.browser.dirEntries = [])
  | tagged {reply : Reply} (h : (n, .hydrateTags (entries.map Entry.path), .ok reply) ∈ s.answers)
      (hshown : s.browser.dirEntries.Perm (entries.map (Browser.hydrate reply.hydrateTags)))
  | failed {err : String} (h : (n, .hydrateTags (entries.map Entry.path), .error err) ∈ s.answers)
      (hshown : s.browser.dirEntries.Perm entries)

/-- The window shows what was answered when action `n` asked for its path. -/
inductive Listed (s : State) (n : ℕ) : Prop
  | listed {hidden : Bool} {reply : Reply}
      (h : (n, .listDirectory s.browser.currentPath hidden, .ok reply) ∈ s.answers)
      (hshown : Hydrated s n reply.listDirectory)
  | failed {hidden : Bool} {err : String}
      (h : (n, .listDirectory s.browser.currentPath hidden, .error err) ∈ s.answers)
      (hshown : s.browser.dirEntries = [])

/-- The chips of the search that is shown. -/
def chipsOf (b : Browser) : Chips := readChips b.showHidden b.searchChips

/-- The indexed search of action `n` has found nothing, or there was none. -/
def NothingFound (s : State) (n : ℕ) : Prop :=
  ∀ request, (chipsOf s.browser).request = some request → ∃ answer,
    (n, .search request (chipsOf s.browser).globPats (chipsOf s.browser).allowHid, answer) ∈ s.answers ∧
      ∀ reply, answer = .ok reply → reply.search = []

/-- The walk of the files for the chips. -/
def globCall (b : Browser) : Call :=
  .globSearch { patterns := (chipsOf b).globPats, allowHidden := (chipsOf b).allowHid }

/-- The window shows what was answered to the search of action `n`. -/
inductive Found (s : State) (n : ℕ) : Prop
  | indexed {request : SearchRequest} {reply : Reply} (hrequest : (chipsOf s.browser).request = some request)
      (h : (n, .search request (chipsOf s.browser).globPats (chipsOf s.browser).allowHid, .ok reply) ∈ s.answers)
      (hne : reply.search ≠ []) (hshown : s.browser.searchResults.Perm reply.search)
  | globbed {reply : Reply} (hnothing : NothingFound s n) (hglob : (chipsOf s.browser).globPats ≠ [])
      (h : (n, globCall s.browser, .ok reply) ∈ s.answers) (hshown : s.browser.searchResults.Perm reply.globSearch)
  | failed {err : String} (hnothing : NothingFound s n) (hglob : (chipsOf s.browser).globPats ≠ [])
      (h : (n, globCall s.browser, .error err) ∈ s.answers) (hshown : s.browser.searchResults = [])
  | nothing (hnothing : NothingFound s n) (hglob : (chipsOf s.browser).globPats = [])
      (hshown : s.browser.searchResults = [])

/-- A directory that has been loaded is shown as what it is, and so is the last search. -/
structure Shows (s : State) : Prop where
  directory : ShowsDirectory s.browser → ∀ n, s.listing = some n → Listed s n
  search : s.browser.isSearchMode = true → ∃ n, s.search = some n ∧ Found s n

/-! ### Answers in time -/

/-- An answer for a directory: to the last action that has loaded one, while none is shown, or before the last one is
listed. -/
def DirectoryInTime (s : State) (n : ℕ) : Prop :=
  s.listing = some n ∨ ¬ ShowsDirectory s.browser ∨
    ∃ m path hidden, s.listing = some m ∧ (m, .listDirectory path hidden) ∈ s.waiting

/-- An answer for a search: to the last one, while none is shown, or before the last one is through. -/
def SearchInTime (s : State) (n : ℕ) : Prop :=
  s.search = some n ∨ s.browser.isSearchMode = false ∨ ∃ m c, s.search = some m ∧ (m, c) ∈ s.waiting

/-- An answer that is assigned to an array comes in time. -/
def InTime (s : State) : Event → Prop
  | .act _ | .answered _ .listTrash _ | .answered _ (.hydrateTags _) (.error _) => True
  | .answered n (.listDirectory _ _) _ | .answered n (.hydrateTags _) (.ok _) => DirectoryInTime s n
  | .answered n (.search _ globPats _) (.ok reply) => reply.search = [] ∧ globPats ≠ [] ∨ SearchInTime s n
  | .answered n (.search _ globPats _) (.error _) => globPats ≠ [] ∨ SearchInTime s n
  | .answered n (.globSearch _) _ => SearchInTime s n

variable {toLowerCase} {s s' : State} {b b' : Browser} {a : Action} {n m : ℕ} {c : Call} {answer : Answer}
  {before after : List (ℕ × Call)}

/-! ### What an action does -/

/-- No path is empty. -/
structure Named (b : Browser) : Prop where
  current : b.currentPath ≠ ""
  history : ∀ path ∈ b.history.paths, path ≠ ""

/-- What an action leaves, and what it asks for. -/
inductive Ran (b : Browser) (a : Action) : Browser × List Call → Prop
  | idle (hsearch : a.searches b = false) : Ran b a (b, [])
  | directory {b' : Browser} {hidden : Bool} (hsearch : a.searches b = false) (hview : ShowsDirectory b')
      (hnamed : Named b') : Ran b a (b', [.listDirectory b'.currentPath hidden])
  | trash {b' : Browser} (hsearch : a.searches b = false) (hview : b'.isTrashView = true)
      (hsame : b'.isSearchMode = true → b' = b) (hnamed : Named b') : Ran b a (b', [.listTrash])
  | search {b' : Browser} (hsearch : a.searches b = true) (hview : b'.isSearchMode = true) (hnamed : Named b') :
      Ran b a (b'.runSearch b'.searchChips)

theorem named_push {path : String} (hb : Named b) (hpath : path ≠ "") : ∀ p ∈ (b.history.push path).paths, p ≠ "" := by
  intro p hp
  rcases List.mem_append.mp hp with hp | hp
  · exact hb.history p (List.mem_of_mem_take hp)
  · rw [List.mem_singleton.mp hp]
    exact hpath

theorem ran_navigateTo {path : String} (hsearch : a.searches b = false) (hpath : path ≠ "") (hb' : Named b') :
    Ran b a (b'.navigateTo path) := by
  unfold Browser.navigateTo
  rw [if_neg hpath]
  have hleave : Named b'.leave := ⟨hb'.current, hb'.history⟩
  refine .directory hsearch ⟨rfl, rfl⟩ ⟨hpath, ?_⟩
  dsimp only
  split_ifs
  · exact hb'.history
  · exact named_push hleave hpath

theorem ran_run (hb : Named b) (a : Action) : Ran b a (a.run b) := by
  cases a with
  | navigateTo path =>
    by_cases hpath : path = ""
    · have hidle : b.navigateTo path = (b, []) := if_pos hpath
      rw [Action.run, hidle]
      exact .idle rfl
    · exact ran_navigateTo rfl hpath hb
  | goBack =>
    rw [Action.run, Browser.goBack]
    split_ifs with h
    · exact .directory rfl ⟨rfl, rfl⟩ ⟨hb.history _ (List.get_mem ..), hb.history⟩
    · exact .idle rfl
  | goForward =>
    rw [Action.run, Browser.goForward]
    split_ifs with h
    · exact .directory rfl ⟨rfl, rfl⟩ ⟨hb.history _ (List.get_mem ..), hb.history⟩
    · exact .idle rfl
  | navigateToTrash => exact .trash rfl rfl nofun ⟨hb.current, hb.history⟩
  | executeSearch chips =>
    have hnamed : Named { b with isSearchMode := chips.length > 0, searchChips := chips } := ⟨hb.current, hb.history⟩
    by_cases hchips : chips.length > 0
    · have hrun : (Action.executeSearch chips).run b =
          { b with isSearchMode := chips.length > 0, searchChips := chips }.runSearch chips := by
        simp [Action.run, Browser.executeSearch, hchips]
      rw [hrun]
      exact .search (decide_eq_true hchips) (decide_eq_true hchips) hnamed
    · have hrun : (Action.executeSearch chips).run b =
          { b with isSearchMode := chips.length > 0, searchChips := chips }.navigateTo b.currentPath := by
        simp [Action.run, Browser.executeSearch, hchips]
      rw [hrun]
      exact ran_navigateTo (decide_eq_false hchips) hb.current hnamed
  | refresh =>
    rw [Action.run, Browser.refresh]
    cases htrash : b.isTrashView with
    | true => exact .trash (by simp [Action.searches, htrash]) htrash (fun _ => rfl) hb
    | false =>
      cases hmode : b.isSearchMode with
      | true => exact .search (by simp [Action.searches, htrash, hmode]) hmode hb
      | false => exact .directory (by simp [Action.searches, hmode]) ⟨hmode, htrash⟩ hb

/-- A search asks the index, walks the files, or has no results. -/
theorem runSearch_cases (b : Browser) :
    (∃ request, (chipsOf b).request = some request ∧
      b.runSearch b.searchChips = (b, [.search request (chipsOf b).globPats (chipsOf b).allowHid])) ∨
    ((chipsOf b).request = none ∧ (chipsOf b).globPats ≠ [] ∧ b.runSearch b.searchChips = (b, [globCall b])) ∨
    ((chipsOf b).request = none ∧ (chipsOf b).globPats = [] ∧
      b.runSearch b.searchChips = ({ b with searchResults := [] }, [])) := by
  cases hrequest : (chipsOf b).request with
  | some request => exact Or.inl ⟨request, rfl, Browser.runSearch_some hrequest⟩
  | none =>
    have hrun := Browser.runSearch_none hrequest
    by_cases hglob : (chipsOf b).globPats = []
    · exact Or.inr (Or.inr ⟨rfl, hglob, hrun.trans (if_neg (not_not.mpr hglob))⟩)
    · exact Or.inr (Or.inl ⟨rfl, hglob, hrun.trans (if_pos hglob)⟩)

/-! ### What a callback does -/

/-- The same view of the same path, with other entries. -/
structure SameView (b b' : Browser) : Prop where
  currentPath : b'.currentPath = b.currentPath
  isSearchMode : b'.isSearchMode = b.isSearchMode
  isTrashView : b'.isTrashView = b.isTrashView
  history : b'.history = b.history
  chips : chipsOf b' = chipsOf b

theorem SameView.refl (b : Browser) : SameView b b := ⟨rfl, rfl, rfl, rfl, rfl⟩

theorem globOrNothing_spec (b : Browser) (globPats : List String) (allowHid : Bool) :
    SameView b (b.globOrNothing globPats allowHid).1 ∧ (b.globOrNothing globPats allowHid).2.length ≤ 1 ∧
      (b.globOrNothing globPats allowHid).1.dirEntries = b.dirEntries := by
  unfold Browser.globOrNothing
  split_ifs
  · exact ⟨.refl b, Nat.le_refl 1, rfl⟩
  · exact ⟨⟨rfl, rfl, rfl, rfl, rfl⟩, Nat.zero_le 1, rfl⟩

/-- A callback changes nothing but the arrays, and makes at most one call. -/
theorem answered_spec (b : Browser) (c : Call) (answer : Answer) :
    SameView b (b.answered toLowerCase c answer).1 ∧ (b.answered toLowerCase c answer).2.length ≤ 1 := by
  cases c with
  | listDirectory path hidden =>
    cases answer with
    | error err => exact ⟨⟨rfl, rfl, rfl, rfl, rfl⟩, Nat.zero_le 1⟩
    | ok reply =>
      show SameView b (b.listed toLowerCase (.ok reply)).1 ∧ (b.listed toLowerCase (.ok reply)).2.length ≤ 1
      unfold Browser.listed
      dsimp only
      split_ifs
      · exact ⟨⟨rfl, rfl, rfl, rfl, rfl⟩, Nat.zero_le 1⟩
      · exact ⟨⟨rfl, rfl, rfl, rfl, rfl⟩, Nat.le_refl 1⟩
  | hydrateTags paths => cases answer <;> exact ⟨⟨rfl, rfl, rfl, rfl, rfl⟩, Nat.zero_le 1⟩
  | listTrash => cases answer <;> exact ⟨⟨rfl, rfl, rfl, rfl, rfl⟩, Nat.zero_le 1⟩
  | search request globPats allowHid =>
    have hglob := globOrNothing_spec b globPats allowHid
    cases answer with
    | error err => exact ⟨hglob.1, hglob.2.1⟩
    | ok reply =>
      show SameView b (b.found toLowerCase globPats allowHid (.ok reply)).1 ∧
        (b.found toLowerCase globPats allowHid (.ok reply)).2.length ≤ 1
      unfold Browser.found
      dsimp only
      split_ifs
      · exact ⟨⟨rfl, rfl, rfl, rfl, rfl⟩, Nat.zero_le 1⟩
      · exact ⟨hglob.1, hglob.2.1⟩
  | globSearch request => cases answer <;> exact ⟨⟨rfl, rfl, rfl, rfl, rfl⟩, Nat.zero_le 1⟩

/-! ### On the way to an answer -/

/-- Where the loading of a directory is. -/
inductive Loading (s : State) (n : ℕ) : Prop
  | asked {hidden : Bool} (h : (n, .listDirectory s.browser.currentPath hidden) ∈ s.waiting)
  | listed {hidden : Bool} {reply : Reply} (h : (n, .listDirectory s.browser.currentPath hidden, .ok reply) ∈ s.answers)
      (hwaiting : (n, .hydrateTags (reply.listDirectory.map Entry.path)) ∈ s.waiting)
      (hshown : s.browser.dirEntries.Perm reply.listDirectory)
  | shown (h : Listed s n) (hdone : ∀ c, (n, c) ∉ s.waiting)

/-- Where a search is. -/
inductive Searching (s : State) (n : ℕ) : Prop
  | asked {request : SearchRequest} (hrequest : (chipsOf s.browser).request = some request)
      (h : (n, .search request (chipsOf s.browser).globPats (chipsOf s.browser).allowHid) ∈ s.waiting)
  | globbing (hnothing : NothingFound s n) (hglob : (chipsOf s.browser).globPats ≠ [])
      (h : (n, globCall s.browser) ∈ s.waiting)
  | shown (h : Found s n) (hdone : ∀ c, (n, c) ∉ s.waiting)

/-- The calls of an action wait in `s'` if they do in `s`, and no answer is forgotten. -/
structure Later (n : ℕ) (s s' : State) : Prop where
  waiting : ∀ c, (n, c) ∈ s'.waiting ↔ (n, c) ∈ s.waiting
  answers : s.answers ⊆ s'.answers

theorem Hydrated.later {entries : List Entry} (h : Hydrated s n entries) (hlater : s.answers ⊆ s'.answers)
    (hentries : s'.browser.dirEntries = s.browser.dirEntries) : Hydrated s' n entries := by
  cases h with
  | empty h hshown => exact .empty h (hentries.trans hshown)
  | tagged h hshown => exact .tagged (hlater h) (hentries ▸ hshown)
  | failed h hshown => exact .failed (hlater h) (hentries ▸ hshown)

theorem Loading.later (h : Loading s n) (hlater : Later n s s') (hpath : s'.browser.currentPath = s.browser.currentPath)
    (hentries : s'.browser.dirEntries = s.browser.dirEntries) : Loading s' n := by
  cases h with
  | asked h => exact .asked ((hlater.waiting _).mpr (hpath ▸ h))
  | listed h hwaiting hshown =>
    exact .listed (hpath ▸ hlater.answers h) ((hlater.waiting _).mpr hwaiting) (hentries ▸ hshown)
  | shown h hdone =>
    refine .shown ?_ fun c hc => hdone c ((hlater.waiting c).mp hc)
    cases h with
    | listed h hshown => exact .listed (hpath ▸ hlater.answers h) (hshown.later hlater.answers hentries)
    | failed h hshown => exact .failed (hpath ▸ hlater.answers h) (hentries.trans hshown)

theorem NothingFound.later (h : NothingFound s n) (hlater : s.answers ⊆ s'.answers)
    (hchips : chipsOf s'.browser = chipsOf s.browser) : NothingFound s' n := by
  intro request hrequest
  rw [hchips] at hrequest ⊢
  obtain ⟨answer, hmem, hnone⟩ := h request hrequest
  exact ⟨answer, hlater hmem, hnone⟩

theorem globCall_eq (h : chipsOf b' = chipsOf b) : globCall b' = globCall b := by rw [globCall, globCall, h]

theorem Searching.later (h : Searching s n) (hlater : Later n s s') (hchips : chipsOf s'.browser = chipsOf s.browser)
    (hresults : s'.browser.searchResults = s.browser.searchResults) : Searching s' n := by
  have hglobCall := globCall_eq hchips
  cases h with
  | asked hrequest h => exact .asked (hchips ▸ hrequest) ((hlater.waiting _).mpr (hchips ▸ h))
  | globbing hnothing hglob h =>
    exact .globbing (hnothing.later hlater.answers hchips) (hchips ▸ hglob) ((hlater.waiting _).mpr (hglobCall ▸ h))
  | shown h hdone =>
    refine .shown ?_ fun c hc => hdone c ((hlater.waiting c).mp hc)
    cases h with
    | indexed hrequest h hne hshown =>
      exact .indexed (hchips ▸ hrequest) (hlater.answers (hchips ▸ h)) hne (hresults ▸ hshown)
    | globbed hnothing hglob h hshown =>
      exact .globbed (hnothing.later hlater.answers hchips) (hchips ▸ hglob) (hlater.answers (hglobCall ▸ h))
        (hresults ▸ hshown)
    | failed hnothing hglob h hshown =>
      exact .failed (hnothing.later hlater.answers hchips) (hchips ▸ hglob) (hlater.answers (hglobCall ▸ h))
        (hresults.trans hshown)
    | nothing hnothing hglob hshown =>
      exact .nothing (hnothing.later hlater.answers hchips) (hchips ▸ hglob) (hresults.trans hshown)

/-! ### The invariant -/

/-- An action waits for one call at a time, and what is shown, or will be, is what was asked for. -/
structure Sound (s : State) : Prop where
  named : Named s.browser
  nodup : (s.waiting.map Prod.fst).Nodup
  waiting : ∀ p ∈ s.waiting, p.1 < s.actions
  listing : ∀ n, s.listing = some n → n < s.actions
  searched : ∀ n, s.search = some n → n < s.actions
  directory : ShowsDirectory s.browser → ∀ n, s.listing = some n → Loading s n
  search : s.browser.isSearchMode = true → ∃ n, s.search = some n ∧ Searching s n

theorem sound_start : Sound {} where
  named := ⟨by decide, nofun⟩
  nodup := List.nodup_nil
  waiting := nofun
  listing := nofun
  searched := nofun
  directory := nofun
  search := nofun

/-- In a quiet window that is sound there is nothing left to wait for. -/
theorem Sound.shows (hs : Sound s) (hquiet : s.waiting = []) : Shows s := by
  have hno : ∀ p, p ∉ s.waiting := fun p hp => by
    rw [hquiet] at hp
    cases hp
  constructor
  · intro hview n hn
    cases hs.directory hview n hn with
    | asked h => exact absurd h (hno _)
    | listed _ hwaiting _ => exact absurd hwaiting (hno _)
    | shown h _ => exact h
  · intro hview
    obtain ⟨n, hn, h⟩ := hs.search hview
    refine ⟨n, hn, ?_⟩
    cases h with
    | asked _ h => exact absurd h (hno _)
    | globbing _ _ h => exact absurd h (hno _)
    | shown h _ => exact h

/-! ### An action -/

theorem Ran.named {r : Browser × List Call} (h : Ran b a r) (hb : Named b) : Named r.1 ∧ r.2.length ≤ 1 := by
  cases h with
  | idle => exact ⟨hb, Nat.zero_le 1⟩
  | directory _ _ hnamed | trash _ _ _ hnamed => exact ⟨hnamed, Nat.le_refl 1⟩
  | @search b' _ _ hnamed =>
    obtain ⟨_, _, hrun⟩ | ⟨_, _, hrun⟩ | ⟨_, _, hrun⟩ := runSearch_cases b'
    all_goals rw [hrun]
    · exact ⟨hnamed, Nat.le_refl 1⟩
    · exact ⟨hnamed, Nat.le_refl 1⟩
    · exact ⟨⟨hnamed.current, hnamed.history⟩, Nat.zero_le 1⟩

/-- What an earlier action waits for does not change. -/
theorem later_act (a : Action) (hn : n < s.actions) : Later n s (s.act a) := by
  refine ⟨fun c => ⟨fun h => ?_, List.mem_append_left _⟩, List.Subset.refl _⟩
  rcases List.mem_append.mp h with h | h
  · exact h
  · obtain ⟨_, -, heq⟩ := List.mem_map.mp h
    cases heq
    exact absurd hn (Nat.lt_irrefl _)

theorem waiting_act (hs : Sound s) (hlen : (a.run s.browser).2.length ≤ 1) :
    ((s.act a).waiting.map Prod.fst).Nodup ∧ ∀ p ∈ (s.act a).waiting, p.1 < s.actions + 1 := by
  have hnew : ∀ p ∈ (a.run s.browser).2.map fun c => (s.actions, c), p.1 = s.actions := fun p hp => by
    obtain ⟨c, -, rfl⟩ := List.mem_map.mp hp
    rfl
  constructor
  · rw [State.act, List.map_append, List.nodup_append']
    refine ⟨hs.nodup, ?_, fun k hk hk' => ?_⟩
    · rw [List.map_map]
      rcases h : (a.run s.browser).2 with _ | ⟨c, _ | ⟨c', rest⟩⟩
      · exact List.nodup_nil
      · exact List.nodup_singleton _
      · rw [h] at hlen
        simp at hlen
    · obtain ⟨p, hp, rfl⟩ := List.mem_map.mp hk
      obtain ⟨p', hp', heq⟩ := List.mem_map.mp hk'
      exact absurd (hs.waiting p hp) (heq ▸ hnew p' hp' ▸ Nat.lt_irrefl _)
  · intro p hp
    rcases List.mem_append.mp hp with hp | hp
    · exact Nat.lt_succ_of_lt (hs.waiting p hp)
    · rw [hnew p hp]
      exact Nat.lt_succ_self _

theorem listing_act (h : (s.act a).listing = some n) : n = s.actions ∨ s.listing = some n := by
  have h : (if (a.run s.browser).2.any isListing then some s.actions else s.listing) = some n := h
  split_ifs at h
  · exact Or.inl (Option.some.inj h).symm
  · exact Or.inr h

theorem search_act (h : (s.act a).search = some n) : n = s.actions ∨ s.search = some n := by
  have h : (if a.searches s.browser then some s.actions else s.search) = some n := h
  split_ifs at h
  · exact Or.inl (Option.some.inj h).symm
  · exact Or.inr h

/-- The directory that is shown after an action is the one before, or has been asked for. -/
theorem directory_act (hs : Sound s) (hview : ShowsDirectory (s.act a).browser) (hn : (s.act a).listing = some n) :
    Loading (s.act a) n := by
  have hran := ran_run hs.named a
  have hbrowser : (s.act a).browser = (a.run s.browser).1 := rfl
  have hwaiting : (s.act a).waiting = s.waiting ++ (a.run s.browser).2.map fun c => (s.actions, c) := rfl
  have hlisting : (s.act a).listing = if (a.run s.browser).2.any isListing then some s.actions else s.listing := rfl
  generalize a.run s.browser = r at hran hbrowser hwaiting hlisting
  cases hran with
  | idle =>
    have hbrowser : (s.act a).browser = s.browser := hbrowser
    have hn' : s.listing = some n := hlisting.symm.trans hn
    rw [hbrowser] at hview
    refine (hs.directory hview n hn').later (later_act a (hs.listing n hn')) ?_ ?_ <;> rw [hbrowser]
  | @directory b' hidden =>
    obtain rfl : s.actions = n := Option.some.inj (hlisting.symm.trans hn)
    have hasked : (s.actions, .listDirectory (s.act a).browser.currentPath hidden) ∈ (s.act a).waiting := by
      rw [hwaiting, hbrowser]
      exact List.mem_append_right _ (List.mem_singleton_self _)
    exact .asked hasked
  | trash _ htrash =>
    rw [hbrowser] at hview
    exact absurd hview.2 (by simp [htrash])
  | @search b' _ hsearch =>
    rw [hbrowser] at hview
    obtain ⟨_, _, hrun⟩ | ⟨_, _, hrun⟩ | ⟨_, _, hrun⟩ := runSearch_cases b'
    all_goals
      rw [hrun] at hview
      exact absurd hview.1 (by simp [hsearch])

/-- The search that is shown after an action is the one before, or is under way. -/
theorem search_shown_act (hs : Sound s) (hview : (s.act a).browser.isSearchMode = true) :
    ∃ n, (s.act a).search = some n ∧ Searching (s.act a) n := by
  have hran := ran_run hs.named a
  have hbrowser : (s.act a).browser = (a.run s.browser).1 := rfl
  have hwaiting : (s.act a).waiting = s.waiting ++ (a.run s.browser).2.map fun c => (s.actions, c) := rfl
  have hsearched : (s.act a).search = if a.searches s.browser then some s.actions else s.search := rfl
  have hkept : (s.act a).browser = s.browser → a.searches s.browser = false →
      ∃ n, (s.act a).search = some n ∧ Searching (s.act a) n := fun hsame hno => by
    obtain ⟨n, hn, h⟩ := hs.search (hsame ▸ hview)
    refine ⟨n, by rw [hsearched, hno]; exact hn, h.later (later_act a (hs.searched n hn)) ?_ ?_⟩ <;> rw [hsame]
  generalize a.run s.browser = r at hran hbrowser hwaiting
  cases hran with
  | idle hno => exact hkept hbrowser hno
  | directory _ hdirectory =>
    rw [hbrowser, hdirectory.1] at hview
    cases hview
  | trash hno _ hsame =>
    rw [hbrowser] at hview
    exact hkept (hbrowser.trans (hsame hview)) hno
  | @search b' hyes =>
    refine ⟨s.actions, by rw [hsearched, hyes]; rfl, ?_⟩
    obtain ⟨request, hrequest, hrun⟩ | ⟨hrequest, hglob, hrun⟩ | ⟨hrequest, hglob, hrun⟩ := runSearch_cases b'
    all_goals rw [hrun] at hbrowser hwaiting
    · refine .asked (by rw [hbrowser]; exact hrequest) ?_
      rw [hwaiting, hbrowser]
      exact List.mem_append_right _ (List.mem_singleton_self _)
    · refine .globbing (fun request h => ?_) (by rw [hbrowser]; exact hglob) ?_
      · rw [hbrowser, hrequest] at h
        cases h
      · rw [hwaiting, hbrowser]
        exact List.mem_append_right _ (List.mem_singleton_self _)
    · refine .shown (.nothing (fun request h => ?_) ?_ ?_) fun c hc => ?_
      · rw [hbrowser] at h
        exact absurd (hrequest.symm.trans h) nofun
      · rw [hbrowser]
        exact hglob
      · rw [hbrowser]
      · rw [hwaiting, List.map_nil, List.append_nil] at hc
        exact absurd (hs.waiting _ hc) (Nat.lt_irrefl _)

/-- **An action.** -/
theorem Sound.act (hs : Sound s) (a : Action) : Sound (s.act a) := by
  obtain ⟨hnamed, hlen⟩ := (ran_run hs.named a).named hs.named
  obtain ⟨hnodup, hwaiting⟩ := waiting_act hs hlen
  refine ⟨hnamed, hnodup, hwaiting, fun n hn => ?_, fun n hn => ?_, fun hview n hn => directory_act hs hview hn,
    search_shown_act hs⟩
  · exact (listing_act hn).elim (fun heq => heq ▸ Nat.lt_succ_self _) fun h => Nat.lt_succ_of_lt (hs.listing n h)
  · exact (search_act hn).elim (fun heq => heq ▸ Nat.lt_succ_self _) fun h => Nat.lt_succ_of_lt (hs.searched n h)

/-! ### An answer -/

/-- What other actions wait for does not change. -/
theorem later_answer (h : s.waiting = before ++ (m, c) :: after) (hne : n ≠ m) :
    Later n s (s.answer toLowerCase before after m c answer) := by
  refine ⟨fun c' => ?_, List.subset_append_left _ _⟩
  have hnew : (n, c') ∉ (s.browser.answered toLowerCase c answer).2.map fun c => (m, c) := fun hmem => by
    obtain ⟨_, -, heq⟩ := List.mem_map.mp hmem
    cases heq
    exact hne rfl
  have hold : (n, c') ≠ (m, c) := fun heq => hne (congrArg Prod.fst heq)
  rw [State.answer, h]
  simp [hnew, hold]

/-- The action that is answered waited for this call only. -/
theorem eq_of_waiting (hs : Sound s) (h : s.waiting = before ++ (m, c) :: after) {c' : Call}
    (hc' : (m, c') ∈ s.waiting) : c' = c := by
  have hc : (m, c) ∈ s.waiting := by simp [h]
  exact congrArg Prod.snd (List.inj_on_of_nodup_map hs.nodup hc' hc rfl)

/-- It waits for what its callback asks for. -/
theorem waiting_answer (hs : Sound s) (h : s.waiting = before ++ (m, c) :: after) {c' : Call} :
    (m, c') ∈ (s.answer toLowerCase before after m c answer).waiting ↔
      c' ∈ (s.browser.answered toLowerCase c answer).2 := by
  have hnodup := hs.nodup
  rw [h, List.map_append, List.map_cons, List.nodup_middle, List.nodup_cons, ← List.map_append] at hnodup
  have hold : (m, c') ∉ before ++ after := fun hmem => hnodup.1 (List.mem_map.mpr ⟨_, hmem, rfl⟩)
  rw [State.answer, List.mem_append]
  simp [hold]

theorem nodup_answer (hs : Sound s) (h : s.waiting = before ++ (m, c) :: after) :
    ((s.answer toLowerCase before after m c answer).waiting.map Prod.fst).Nodup := by
  have hnodup := hs.nodup
  rw [h, List.map_append, List.map_cons, List.nodup_middle, List.nodup_cons, ← List.map_append] at hnodup
  have hlen := (@answered_spec toLowerCase s.browser c answer).2
  rw [State.answer]
  dsimp only
  generalize (s.browser.answered toLowerCase c answer).2 = calls at hlen
  rcases calls with _ | ⟨c', _ | ⟨c'', rest⟩⟩
  · simpa using hnodup.2
  · rw [List.map_append, List.nodup_append']
    refine ⟨hnodup.2, List.nodup_singleton _, fun k hk hk' => ?_⟩
    obtain rfl : k = m := List.mem_singleton.mp hk'
    exact hnodup.1 hk
  · simp at hlen

/-- What an answer does to the action that it goes back to. -/
structure Answered (toLowerCase : String → String) (s : State) (n : ℕ) (c : Call) (answer : Answer) (s' : State) :
    Prop where
  browser : s'.browser = (s.browser.answered toLowerCase c answer).1
  waited : (n, c) ∈ s.waiting
  only : ∀ c', (n, c') ∈ s.waiting → c' = c
  waiting : ∀ c', (n, c') ∈ s'.waiting ↔ c' ∈ (s.browser.answered toLowerCase c answer).2
  recorded : (n, c, answer) ∈ s'.answers
  kept : s.answers ⊆ s'.answers

theorem answered_answer (hs : Sound s) (h : s.waiting = before ++ (n, c) :: after) :
    Answered toLowerCase s n c answer (s.answer toLowerCase before after n c answer) where
  browser := rfl
  waited := by simp [h]
  only _ hc' := eq_of_waiting hs h hc'
  waiting _ := waiting_answer hs h
  recorded := List.mem_append_right _ (List.mem_singleton_self _)
  kept := List.subset_append_left _ _

theorem Answered.view (h : Answered toLowerCase s n c answer s') : SameView s.browser s'.browser := by
  rw [h.browser]
  exact (answered_spec s.browser c answer).1

theorem Answered.through (h : Answered toLowerCase s n c answer s')
    (hcalls : (s.browser.answered toLowerCase c answer).2 = []) : ∀ c', (n, c') ∉ s'.waiting := fun c' hc' => by
  rw [h.waiting, hcalls] at hc'
  cases hc'

/-- The loading of a directory, answered. -/
theorem loading_answered (h : Answered toLowerCase s n c answer s') (hloading : Loading s n) : Loading s' n := by
  have hpath := h.view.currentPath
  cases hloading with
  | @asked hidden hasked =>
    obtain rfl := h.only _ hasked
    have hrecorded := h.recorded
    rw [← hpath] at hrecorded
    rcases answer with err | reply
    · refine .shown (.failed hrecorded ?_) (h.through rfl)
      rw [h.browser]
      rfl
    · by_cases hempty : reply.listDirectory = []
      · have hlisted : s.browser.answered toLowerCase (.listDirectory s.browser.currentPath hidden) (.ok reply) =
            ({ s.browser with dirEntries := s.browser.sortEntries toLowerCase reply.listDirectory }, []) :=
          if_pos hempty
        refine .shown (.listed hrecorded (.empty hempty ?_)) (h.through (congrArg Prod.snd hlisted))
        rw [h.browser, hlisted, hempty]
        rfl
      · have hlisted : s.browser.answered toLowerCase (.listDirectory s.browser.currentPath hidden) (.ok reply) =
            ({ s.browser with dirEntries := s.browser.sortEntries toLowerCase reply.listDirectory },
              [.hydrateTags (reply.listDirectory.map Entry.path)]) := if_neg hempty
        refine .listed hrecorded ?_ ?_
        · rw [h.waiting, hlisted]
          exact List.mem_singleton_self _
        · rw [h.browser, hlisted]
          exact sortRows_perm
  | @listed hidden reply hlisted hhydrate hshown =>
    obtain rfl := h.only _ hhydrate
    have hlisted' := h.kept hlisted
    rw [← hpath] at hlisted'
    rcases answer with err | reply'
    · refine .shown (.listed hlisted' (.failed h.recorded ?_)) (h.through rfl)
      rw [h.browser]
      exact hshown
    · refine .shown (.listed hlisted' (.tagged h.recorded ?_)) (h.through rfl)
      rw [h.browser]
      exact hshown.map _
  | shown _ hdone => exact absurd h.waited (hdone c)

/-- A search of the index that has found nothing. -/
theorem searching_nothing (h : Answered toLowerCase s n c answer s') (hnothing : NothingFound s' n)
    (hrun : s.browser.answered toLowerCase c answer =
      s.browser.globOrNothing (chipsOf s.browser).globPats (chipsOf s.browser).allowHid) : Searching s' n := by
  have hchips := h.view.chips
  by_cases hglob : (chipsOf s.browser).globPats = []
  · rw [Browser.globOrNothing, if_neg (not_not.mpr hglob)] at hrun
    refine .shown (.nothing hnothing (hchips ▸ hglob) ?_) (h.through (congrArg Prod.snd hrun))
    rw [h.browser, hrun]
  · rw [Browser.globOrNothing, if_pos hglob] at hrun
    refine .globbing hnothing (hchips ▸ hglob) ?_
    rw [h.waiting, hrun, globCall_eq hchips]
    exact List.mem_singleton_self _

/-- A search, answered. -/
theorem searching_answered (h : Answered toLowerCase s n c answer s') (hsearching : Searching s n) :
    Searching s' n := by
  have hchips := h.view.chips
  cases hsearching with
  | @asked request hrequest hasked =>
    obtain rfl := h.only _ hasked
    have hrecorded := h.recorded
    rw [← hchips] at hrecorded
    have hnothing : (∀ reply, answer = .ok reply → reply.search = []) → NothingFound s' n := by
      intro hnone request' hrequest'
      obtain rfl : request = request' := Option.some.inj (hrequest.symm.trans (hchips ▸ hrequest'))
      exact ⟨answer, hrecorded, hnone⟩
    rcases answer with err | reply
    · exact searching_nothing h (hnothing nofun) rfl
    · by_cases hempty : reply.search = []
      · refine searching_nothing h (hnothing fun reply' heq => ?_) (if_neg (not_not.mpr hempty))
        rwa [← Except.ok.inj heq]
      · have hfound : s.browser.answered toLowerCase
            (.search request (chipsOf s.browser).globPats (chipsOf s.browser).allowHid) (.ok reply) =
            ({ s.browser with searchResults := s.browser.sortEntries toLowerCase reply.search }, []) := if_pos hempty
        refine .shown (.indexed (hchips ▸ hrequest) hrecorded hempty ?_) (h.through (congrArg Prod.snd hfound))
        rw [h.browser, hfound]
        exact sortRows_perm
  | globbing hnothing hglob hasked =>
    obtain rfl := h.only _ hasked
    have hrecorded := h.recorded
    rw [← globCall_eq hchips] at hrecorded
    have hnothing' := hnothing.later h.kept hchips
    rcases answer with err | reply
    · refine .shown (.failed hnothing' (hchips ▸ hglob) hrecorded ?_) (h.through rfl)
      rw [h.browser]
      rfl
    · refine .shown (.globbed hnothing' (hchips ▸ hglob) hrecorded ?_) (h.through rfl)
      rw [h.browser]
      exact sortRows_perm
  | shown _ hdone => exact absurd h.waited (hdone c)

/-! ### An answer to another action -/

/-- An answer that changes the entries is one for a directory. -/
theorem directoryInTime_of_changed (h : InTime s (.answered m c answer))
    (hchanged : (s.browser.answered toLowerCase c answer).1.dirEntries ≠ s.browser.dirEntries) :
    DirectoryInTime s m := by
  cases c with
  | listDirectory path hidden => exact h
  | hydrateTags paths =>
    rcases answer with err | reply
    · exact absurd rfl hchanged
    · exact h
  | listTrash => rcases answer with err | reply <;> exact absurd rfl hchanged
  | search request globPats allowHid =>
    have hkept := (globOrNothing_spec s.browser globPats allowHid).2.2
    rcases answer with err | reply
    · exact absurd hkept hchanged
    · refine absurd ?_ hchanged
      show (s.browser.found toLowerCase globPats allowHid (.ok reply)).1.dirEntries = _
      unfold Browser.found
      dsimp only
      split_ifs
      · rfl
      · exact hkept
  | globSearch request => rcases answer with err | reply <;> exact absurd rfl hchanged

/-- An answer that changes the results is one for a search. -/
theorem searchInTime_of_changed (h : InTime s (.answered m c answer))
    (hchanged : (s.browser.answered toLowerCase c answer).1.searchResults ≠ s.browser.searchResults) :
    SearchInTime s m := by
  have hglob : ∀ globPats allowHid, globPats ≠ [] →
      (s.browser.globOrNothing globPats allowHid).1.searchResults = s.browser.searchResults := by
    intro globPats allowHid hne
    rw [Browser.globOrNothing, if_pos hne]
    rfl
  cases c with
  | listDirectory path hidden =>
    refine absurd ?_ hchanged
    rcases answer with err | reply
    · rfl
    · show (s.browser.listed toLowerCase (.ok reply)).1.searchResults = _
      unfold Browser.listed
      dsimp only
      split_ifs <;> rfl
  | hydrateTags paths => rcases answer with err | reply <;> exact absurd rfl hchanged
  | listTrash => rcases answer with err | reply <;> exact absurd rfl hchanged
  | search request globPats allowHid =>
    rcases answer with err | reply
    · exact h.resolve_left fun hne => hchanged (hglob globPats allowHid hne)
    · refine h.resolve_left fun ⟨hempty, hne⟩ => hchanged ?_
      have hfound : s.browser.answered toLowerCase (.search request globPats allowHid) (.ok reply) =
          s.browser.globOrNothing globPats allowHid := if_neg (not_not.mpr hempty)
      rw [hfound]
      exact hglob globPats allowHid hne
  | globSearch request => exact h

theorem loading_other (hs : Sound s) (h : s.waiting = before ++ (m, c) :: after) (hne : n ≠ m)
    (hintime : InTime s (.answered m c answer)) (hview : ShowsDirectory s.browser) (hn : s.listing = some n) :
    Loading (s.answer toLowerCase before after m c answer) n := by
  have hlater := @later_answer toLowerCase s n m c answer before after h hne
  have hpath := (@answered_spec toLowerCase s.browser c answer).1.currentPath
  have hloading := hs.directory hview n hn
  by_cases hkept : (s.browser.answered toLowerCase c answer).1.dirEntries = s.browser.dirEntries
  · exact hloading.later hlater hpath hkept
  -- The entries are of another directory, and those of this one are still to come.
  obtain hm | hno | ⟨k, path, hidden, hk, hwaiting⟩ := directoryInTime_of_changed hintime hkept
  · exact absurd (Option.some.inj (hn.symm.trans hm)) hne
  · exact absurd hview hno
  · obtain rfl := Option.some.inj (hn.symm.trans hk)
    have honly : ∀ c', (n, c') ∈ s.waiting → c' = .listDirectory path hidden := fun c' hc' =>
      congrArg Prod.snd (List.inj_on_of_nodup_map hs.nodup hc' hwaiting rfl)
    cases hloading with
    | asked hasked =>
      have hasked' := (hlater.waiting _).mpr hasked
      rw [← hpath] at hasked'
      exact .asked hasked'
    | listed _ hhydrate _ => cases honly _ hhydrate
    | shown _ hdone => exact absurd hwaiting (hdone _)

theorem searching_other (h : s.waiting = before ++ (m, c) :: after) (hne : n ≠ m)
    (hintime : InTime s (.answered m c answer)) (hview : s.browser.isSearchMode = true) (hn : s.search = some n)
    (hsearching : Searching s n) : Searching (s.answer toLowerCase before after m c answer) n := by
  have hlater := @later_answer toLowerCase s n m c answer before after h hne
  have hchips := (@answered_spec toLowerCase s.browser c answer).1.chips
  by_cases hkept : (s.browser.answered toLowerCase c answer).1.searchResults = s.browser.searchResults
  · exact hsearching.later hlater hchips hkept
  -- The results are of another search, and those of this one are still to come.
  obtain hm | hno | ⟨k, c', hk, hwaiting⟩ := searchInTime_of_changed hintime hkept
  · exact absurd (Option.some.inj (hn.symm.trans hm)) hne
  · rw [hview] at hno
    cases hno
  · obtain rfl := Option.some.inj (hn.symm.trans hk)
    cases hsearching with
    | asked hrequest hasked =>
      have hasked' := (hlater.waiting _).mpr hasked
      rw [← hchips] at hrequest hasked'
      exact .asked hrequest hasked'
    | globbing hnothing hglob hasked =>
      have hasked' := (hlater.waiting _).mpr hasked
      rw [← globCall_eq hchips] at hasked'
      rw [← hchips] at hglob
      exact .globbing (hnothing.later hlater.answers hchips) hglob hasked'
    | shown _ hdone => exact absurd hwaiting (hdone _)

/-- **An answer in time.** -/
theorem Sound.answered (hs : Sound s) (h : s.waiting = before ++ (m, c) :: after)
    (hintime : InTime s (.answered m c answer)) : Sound (s.answer toLowerCase before after m c answer) := by
  have hview := (@answered_spec toLowerCase s.browser c answer).1
  have hown : Answered toLowerCase s m c answer (s.answer toLowerCase before after m c answer) := answered_answer hs h
  refine ⟨⟨?_, ?_⟩, nodup_answer hs h, fun p hp => ?_, hs.listing, hs.searched, fun hdirectory n hn => ?_,
    fun hsearch => ?_⟩
  · exact hview.currentPath.symm ▸ hs.named.current
  · exact hview.history.symm ▸ hs.named.history
  · rcases List.mem_append.mp hp with hp | hp
    · exact hs.waiting p (by simp only [h, List.mem_append, List.mem_cons] at hp ⊢; tauto)
    · obtain ⟨c', -, rfl⟩ := List.mem_map.mp hp
      exact hs.waiting (m, c) hown.waited
  · have hdirectory' : ShowsDirectory s.browser :=
      ⟨hview.isSearchMode.symm.trans hdirectory.1, hview.isTrashView.symm.trans hdirectory.2⟩
    by_cases hnm : n = m
    · subst hnm
      exact loading_answered hown (hs.directory hdirectory' n hn)
    · exact loading_other hs h hnm hintime hdirectory' hn
  · have hsearch' : s.browser.isSearchMode = true := hview.isSearchMode.symm.trans hsearch
    obtain ⟨n, hn, hsearching⟩ := hs.search hsearch'
    refine ⟨n, hn, ?_⟩
    by_cases hnm : n = m
    · subst hnm
      exact searching_answered hown hsearching
    · exact searching_other h hnm hintime hsearch' hn hsearching

/-! ### Every run -/

theorem sound_of_run {tr : List (State × Event)} (hrun : Steps.Runs (Step toLowerCase) {} tr s)
    (hmeets : Steps.Meets InTime tr) : Sound s := by
  refine hrun.invariant Sound hmeets sound_start fun t e u ht hintime hstep => ?_
  cases hstep with
  | act a => exact ht.act a
  | answered answer h => exact ht.answered h hintime

/-- **What the window shows.** If every answer that is assigned to an array comes in time, then whenever no answer is
outstanding the entries are those of the path that is shown, with their tags, and the results those of the last
search. -/
theorem shows_of_meets {tr : List (State × Event)} (hrun : Steps.Runs (Step toLowerCase) {} tr s)
    (hmeets : Steps.Meets InTime tr) (hquiet : s.waiting = []) : Shows s :=
  (sound_of_run hrun hmeets).shows hquiet

/-! ### In time, and late -/

def aFile : Entry := { path := "/a/x", name := "x" }

/-- A directory is loaded, and then its tags. -/
theorem runs_tagged : ∃ tr s, Steps.Runs (Step id) {} tr s ∧ Steps.Meets InTime tr ∧ s.waiting = [] ∧
    s.browser.currentPath = "/a" ∧ s.browser.dirEntries = [{ aFile with tags := ["red"] }] := by
  have hrun := (((Steps.Runs.nil : Steps.Runs (Step id) {} [] {}).snoc (.act _ (.navigateTo "/a"))).snoc
    (.answered (.ok { listDirectory := [aFile] }) rfl)).snoc
    (.answered (.ok { hydrateTags := [("/a/x", ["red"])] }) rfl)
  refine ⟨_, _, hrun, ?_, rfl, rfl, rfl⟩
  simp only [Steps.meets_snoc_iff]
  exact ⟨⟨⟨Steps.Meets.nil, trivial⟩, Or.inl rfl⟩, Or.inl rfl⟩

theorem shows_of_meets_tagged : ∃ s, s.browser.currentPath = "/a" ∧
    s.browser.dirEntries = [{ aFile with tags := ["red"] }] ∧ Shows s := by
  obtain ⟨tr, s, hrun, hmeets, hquiet, hpath, hentries⟩ := runs_tagged
  exact ⟨s, hpath, hentries, shows_of_meets hrun hmeets hquiet⟩

/-- A directory is loaded, and then another. The second is empty; then the first is answered, but for the tags. -/
theorem runs_late : ∃ tr s, Steps.Runs (Step id) {} tr s ∧ s.waiting = [] ∧ s.browser.currentPath = "/b" ∧
    s.browser.dirEntries = [aFile] ∧ ShowsDirectory s.browser ∧ s.listing = some 1 ∧
    s.answers = [(1, .listDirectory "/b" false, .ok {}),
      (0, .listDirectory "/a" false, .ok { listDirectory := [aFile] }),
      (0, .hydrateTags ["/a/x"], .error "the connection is closed")] := by
  have hasked := ((Steps.Runs.nil : Steps.Runs (Step id) {} [] {}).snoc (.act _ (.navigateTo "/a"))).snoc
    (.act _ (.navigateTo "/b"))
  have hsecond := hasked.snoc
    (@Step.answered id _ [(0, .listDirectory "/a" false)] [] 1 (.listDirectory "/b" false) (.ok {}) rfl)
  have hfirst := (hsecond.snoc
    (@Step.answered id _ [] [] 0 (.listDirectory "/a" false) (.ok { listDirectory := [aFile] }) rfl)).snoc
    (@Step.answered id _ [] [] 0 (.hydrateTags ["/a/x"]) (.error "the connection is closed") rfl)
  exact ⟨_, _, hfirst, rfl, rfl, rfl, ⟨rfl, rfl⟩, rfl, rfl⟩

/-- The window shows the path of the one and the file of the other. -/
theorem other_directory_shown : ¬ ∀ tr s, Steps.Runs (Step id) {} tr s → s.waiting = [] → Shows s := by
  intro hclaim
  obtain ⟨tr, s, hrun, hquiet, hpath, hentries, hview, hlisting, hanswers⟩ := runs_late
  have hlisted := (hclaim tr s hrun hquiet).directory hview 1 hlisting
  cases hlisted with
  | @listed hidden reply h hhydrated =>
    obtain ⟨-, rfl⟩ : hidden = false ∧ reply = {} := by simpa [hanswers, hpath] using h
    cases hhydrated with
    | empty _ hnone => cases hentries.symm.trans hnone
    | tagged h => simp [hanswers] at h
    | failed h => simp [hanswers] at h
  | failed h => simp [hanswers] at h

end Tilbo.Quickshell.LateAnswers
