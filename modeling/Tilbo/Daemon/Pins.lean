import Tilbo.Daemon.Drops

/-! # Pinned places and saved searches

The daemon reads the configuration once, when it starts. Each request to pin or unpin changes the copy in memory and
then writes all of it over the file. `pins_iff` says which requests leave the rest of the file as it is, and which that
cannot be saved leave everything as it is; `forall_kept_of_undisturbed` says that nobody but the daemon may write the
file. The text of a file is of a type `τ`, and what the configuration holds besides the two lists is of a type `ρ`. -/

namespace Tilbo.Daemon.Pins

open Tilbo.Daemon.Drops

variable {τ ρ υ ε : Type}

/-! ### The configuration -/

/-- `PinnedPlace`. -/
structure PinnedPlace where
  name : String
  path : String
  iconName : String
deriving DecidableEq

/-- `SavedSearch`. -/
structure SavedSearch where
  id : String
  name : String
  iconName : String
  chips : List String
deriving DecidableEq

/-- `Config`; `rest` is everything but the two lists that are changed here. -/
@[ext] structure Config (ρ : Type) where
  pinnedPlaces : List PinnedPlace
  savedSearches : List SavedSearch
  rest : ρ
deriving DecidableEq

/-- The TOML package: `decode` gives what `DecodeFile` puts into a configuration that was zero, and `unread` what a text
holds besides that (comments, keys that the program does not know, a text that does not parse). -/
structure Toml (τ ρ υ : Type) where
  decode : τ → Config ρ
  unread : τ → υ
  encode : Config ρ → τ
  /-- The zero value of the rest. -/
  zero : ρ
  /-- What is unread of a text without anything unread. -/
  nothing : υ
  decode_encode : ∀ cfg, decode (encode cfg) = cfg
  unread_encode : ∀ cfg, unread (encode cfg) = nothing

variable {toml : Toml τ ρ υ} {cfg : Config ρ} {disk : Option τ}

/-- `Load`, whose errors the daemon ignores; there may be no file. -/
def load (toml : Toml τ ρ υ) : Option τ → Config ρ
  | none => ⟨[], [], toml.zero⟩
  | some text => toml.decode text

/-- What goes wrong in `Save`. -/
inductive Fault (τ ε : Type) where
  /-- "config: create dir for" -/
  | createDir (err : ε)
  /-- "config: open … for write" -/
  | openForWrite (err : ε)
  /-- "config: encode": the file has been truncated, and this is what it holds then. -/
  | encode (err : ε) (left : τ)

/-- What is in the file after the fault. -/
def Fault.after (disk : Option τ) : Fault τ ε → Option τ
  | .createDir _ | .openForWrite _ => disk
  | .encode _ left => some left

/-- `Save`. -/
def save (toml : Toml τ ρ υ) (fault : Option (Fault τ ε)) (cfg : Config ρ) (disk : Option τ) :
    Except (Fault τ ε) Unit × Option τ :=
  match fault with
  | some fault => (.error fault, fault.after disk)
  | none => (.ok (), some (toml.encode cfg))

/-! ### The requests -/

/-- The configuration of the daemon, and the file. -/
structure State (τ ρ : Type) where
  cfg : Option (Config ρ)
  disk : Option τ

/-- Why a request fails. -/
inductive PinError (τ ε : Type) where
  /-- "browser: config not available", "configuration not loaded" -/
  | noConfig
  | path (err : PathError)
  /-- "saved search … not found" -/
  | notFound (id : String)
  | save (fault : Fault τ ε)

/-- The last step of each request. -/
def saveConfig (toml : Toml τ ρ υ) (fault : Option (Fault τ ε)) (cfg : Config ρ) (disk : Option τ) :
    Except (PinError τ ε) Unit × State τ ρ :=
  match save toml fault cfg disk with
  | (.error fault, disk) => (.error (.save fault), ⟨some cfg, disk⟩)
  | (.ok _, disk) => (.ok (), ⟨some cfg, disk⟩)

/-- The loop of `PinPlace`: the first place with the path gets the icon, if there is one. -/
def setIcon (path iconName : String) : List PinnedPlace → Option (List PinnedPlace)
  | [] => none
  | pp :: rest =>
    if pp.path = path then some ({ pp with iconName := iconName } :: rest)
    else (setIcon path iconName rest).map (pp :: ·)

/-- The places with one more, or with its icon. -/
def pinned (name path iconName : String) (places : List PinnedPlace) : List PinnedPlace :=
  (setIcon path iconName places).getD (places ++ [⟨name, path, iconName⟩])

/-- The icon of a request. -/
def iconOr (default iconName : String) : String := if iconName = "" then default else iconName

/-- `PinPlace`. -/
def pinPlace (toml : Toml τ ρ υ) (fault : Option (Fault τ ε)) (name path iconName : String) (s : State τ ρ) :
    Except (PinError τ ε) Unit × State τ ρ :=
  match s.cfg with
  | none => (.error .noConfig, s)
  | some cfg =>
    match validatePath path with
    | .error err => (.error (.path err), s)
    | .ok clean =>
      saveConfig toml fault { cfg with pinnedPlaces := pinned name clean (iconOr "folder" iconName) cfg.pinnedPlaces }
        s.disk

/-- `UnpinPlace`. -/
def unpinPlace (toml : Toml τ ρ υ) (fault : Option (Fault τ ε)) (path : String) (s : State τ ρ) :
    Except (PinError τ ε) Unit × State τ ρ :=
  match s.cfg with
  | none => (.error .noConfig, s)
  | some cfg =>
    match validatePath path with
    | .error err => (.error (.path err), s)
    | .ok clean => saveConfig toml fault { cfg with pinnedPlaces := cfg.pinnedPlaces.filter (·.path ≠ clean) } s.disk

/-- `PinSearch`; `id` is the new identifier. -/
def pinSearch (toml : Toml τ ρ υ) (fault : Option (Fault τ ε)) (id name : String) (chips : List String)
    (iconName : String) (s : State τ ρ) : Except (PinError τ ε) SavedSearch × State τ ρ :=
  match s.cfg with
  | none => (.error .noConfig, s)
  | some cfg =>
    let search : SavedSearch := ⟨id, name, iconOr "folder-saved-search" iconName, chips⟩
    let (saved, s) := saveConfig toml fault { cfg with savedSearches := cfg.savedSearches ++ [search] } s.disk
    (saved.map fun _ => search, s)

/-- `UnpinSearch`. -/
def unpinSearch (toml : Toml τ ρ υ) (fault : Option (Fault τ ε)) (id : String) (s : State τ ρ) :
    Except (PinError τ ε) Unit × State τ ρ :=
  match s.cfg with
  | none => (.error .noConfig, s)
  | some cfg =>
    if cfg.savedSearches.all (·.id ≠ id) then (.error (.notFound id), s)
    else saveConfig toml fault { cfg with savedSearches := cfg.savedSearches.filter (·.id ≠ id) } s.disk

/-- A request. -/
inductive Request where
  | pinPlace (name path iconName : String)
  | unpinPlace (path : String)
  | pinSearch (id name : String) (chips : List String) (iconName : String)
  | unpinSearch (id : String)

/-- Whether a request succeeds, and what it leaves. -/
def Request.handle (toml : Toml τ ρ υ) (fault : Option (Fault τ ε)) (s : State τ ρ) :
    Request → Except (PinError τ ε) Unit × State τ ρ
  | .pinPlace name path iconName => Pins.pinPlace toml fault name path iconName s
  | .unpinPlace path => Pins.unpinPlace toml fault path s
  | .pinSearch id name chips iconName =>
    let (answer, s) := Pins.pinSearch toml fault id name chips iconName s
    (answer.map fun _ => (), s)
  | .unpinSearch id => Pins.unpinSearch toml fault id s

/-- What happens: someone writes the file or removes it, or a request is handled. -/
inductive Event (τ ε : Type) where
  | edit (disk : Option τ)
  | request (r : Request) (fault : Option (Fault τ ε))

/-- The state behind an event. -/
def Event.next (toml : Toml τ ρ υ) (s : State τ ρ) : Event τ ε → State τ ρ
  | .edit disk => { s with disk := disk }
  | .request r fault => (r.handle toml fault s).2

/-- The events of a run, each with the state it meets. -/
def run (toml : Toml τ ρ υ) : State τ ρ → List (Event τ ε) → List (State τ ρ × Event τ ε)
  | _, [] => []
  | s, e :: es => (s, e) :: run toml (e.next toml s) es

/-- The daemon has just started. -/
def started (toml : Toml τ ρ υ) (disk : Option τ) : State τ ρ := ⟨some (load toml disk), disk⟩

/-! ### What is to be shown -/

/-- What a request names. -/
inductive Item where
  | place (path : String)
  | search (id : String)

/-- The configuration without the item. -/
def Config.without (cfg : Config ρ) : Item → Config ρ
  | .place path => { cfg with pinnedPlaces := cfg.pinnedPlaces.filter (·.path ≠ path) }
  | .search id => { cfg with savedSearches := cfg.savedSearches.filter (·.id ≠ id) }

/-- The item that a request names, if it gives one. -/
def Request.item : Request → Option Item
  | .pinPlace _ path _ | .unpinPlace path => (validatePath path).toOption.map .place
  | .pinSearch id _ _ _ | .unpinSearch id => some (.search id)

/-- What is unread in a file. -/
def unread (toml : Toml τ ρ υ) : Option τ → υ
  | none => toml.nothing
  | some text => toml.unread text

/-- Two files differ in the item only. -/
def SameBut (toml : Toml τ ρ υ) (item : Item) (disk disk' : Option τ) : Prop :=
  (load toml disk').without item = (load toml disk).without item ∧ unread toml disk' = unread toml disk

/-- A request that succeeds changes nothing in the file but the item it names; one that cannot be saved leaves the
lists in memory and the file as they were. -/
structure Preserves (toml : Toml τ ρ υ) (s : State τ ρ) (r : Request) (fault : Option (Fault τ ε)) : Prop where
  changes : (r.handle toml fault s).1 = .ok () →
    ∃ item, r.item = some item ∧ SameBut toml item s.disk (r.handle toml fault s).2.disk
  leaves : ∀ f, (r.handle toml fault s).1 = .error (.save f) →
    (r.handle toml fault s).2.cfg = s.cfg ∧ (r.handle toml fault s).2.disk = s.disk

/-- The configuration is already as the request wants it: the first place with the path has the icon; there is no
place with the path; there is no search with the identifier. -/
def Idle (cfg : Config ρ) : Request → Prop
  | .pinPlace _ path iconName => ∃ clean pp, validatePath path = .ok clean ∧
      cfg.pinnedPlaces.find? (·.path = clean) = some pp ∧ pp.iconName = iconOr "folder" iconName
  | .unpinPlace path => ∀ pp ∈ cfg.pinnedPlaces, Except.ok pp.path ≠ validatePath path
  | .pinSearch _ _ _ _ => False
  | .unpinSearch id => ∀ search ∈ cfg.savedSearches, search.id ≠ id

/-- The request comes to the point where the configuration is saved. -/
def Saves (cfg : Config ρ) : Request → Prop
  | .pinPlace _ path _ | .unpinPlace path => ∃ clean, validatePath path = .ok clean
  | .pinSearch _ _ _ _ => True
  | .unpinSearch id => ∃ search ∈ cfg.savedSearches, search.id = id

/-- The condition on one request: if the configuration can be saved, it agrees with the file on everything but the item,
and nothing in the file is unread; if not, the configuration is already as it is wanted, and the file has not been
truncated, or holds what it held. -/
def Kept (toml : Toml τ ρ υ) (s : State τ ρ) (r : Request) (fault : Option (Fault τ ε)) : Prop :=
  ∀ cfg, s.cfg = some cfg → Saves cfg r →
    match fault with
    | none => ∃ item, r.item = some item ∧ cfg.without item = (load toml s.disk).without item ∧
        unread toml s.disk = toml.nothing
    | some fault => Idle cfg r ∧ fault.after s.disk = s.disk

/-! ### One request -/

/-- The configuration that a request saves, if it gets to that. -/
def Request.edited (cfg : Config ρ) : Request → Option (Config ρ)
  | .pinPlace name path iconName => (validatePath path).toOption.map fun clean =>
      { cfg with pinnedPlaces := pinned name clean (iconOr "folder" iconName) cfg.pinnedPlaces }
  | .unpinPlace path => (validatePath path).toOption.map fun clean =>
      { cfg with pinnedPlaces := cfg.pinnedPlaces.filter (·.path ≠ clean) }
  | .pinSearch id name chips iconName => some { cfg with
      savedSearches := cfg.savedSearches ++ [⟨id, name, iconOr "folder-saved-search" iconName, chips⟩] }
  | .unpinSearch id =>
    if cfg.savedSearches.all (·.id ≠ id) then none
    else some { cfg with savedSearches := cfg.savedSearches.filter (·.id ≠ id) }

variable {s : State τ ρ} {r : Request} {fault : Option (Fault τ ε)} {f : Fault τ ε} {item : Item} {cfg' : Config ρ}

/-- A request that gets to the point of saving. -/
theorem handle_of_edited (toml : Toml τ ρ υ) (fault : Option (Fault τ ε)) (hcfg : s.cfg = some cfg)
    (hr : r.edited cfg = some cfg') :
    r.handle toml fault s = saveConfig toml fault cfg' s.disk := by
  cases r with
  | pinPlace name path iconName =>
    obtain ⟨clean, hclean, rfl⟩ := Option.map_eq_some_iff.mp hr
    cases hpath : validatePath path with
    | error err => simp [hpath, Except.toOption] at hclean
    | ok clean' =>
      have hsame : clean' = clean := by simpa [hpath, Except.toOption] using hclean
      simp only [Request.handle, pinPlace, hcfg, hpath, hsame]
  | unpinPlace path =>
    obtain ⟨clean, hclean, rfl⟩ := Option.map_eq_some_iff.mp hr
    cases hpath : validatePath path with
    | error err => simp [hpath, Except.toOption] at hclean
    | ok clean' =>
      have hsame : clean' = clean := by simpa [hpath, Except.toOption] using hclean
      simp only [Request.handle, unpinPlace, hcfg, hpath, hsame]
  | pinSearch id name chips iconName =>
    cases hr
    simp only [Request.handle, pinSearch, hcfg]
    cases fault with
    | none => rfl
    | some f => rfl
  | unpinSearch id =>
    simp only [Request.edited] at hr
    split_ifs at hr with hall
    cases hr
    simp only [Request.handle, unpinSearch, hcfg, if_neg hall]

/-- A request that does not get there changes nothing, and reports it. -/
theorem handle_of_not_edited (toml : Toml τ ρ υ) (fault : Option (Fault τ ε))
    (hr : ∀ cfg, s.cfg = some cfg → r.edited cfg = none) :
    ∃ err, r.handle toml fault s = (.error err, s) ∧ ∀ f, err ≠ .save f := by
  obtain ⟨c, disk⟩ := s
  cases c with
  | none => cases r <;> exact ⟨.noConfig, rfl, fun f h => by cases h⟩
  | some cfg =>
    have hnone := hr cfg rfl
    cases r with
    | pinPlace name path iconName =>
      cases hpath : validatePath path with
      | error err => exact ⟨.path err, by simp only [Request.handle, pinPlace, hpath], fun f h => by cases h⟩
      | ok clean => simp [Request.edited, hpath, Except.toOption] at hnone
    | unpinPlace path =>
      cases hpath : validatePath path with
      | error err => exact ⟨.path err, by simp only [Request.handle, unpinPlace, hpath], fun f h => by cases h⟩
      | ok clean => simp [Request.edited, hpath, Except.toOption] at hnone
    | pinSearch id name chips iconName => cases hnone
    | unpinSearch id =>
      simp only [Request.edited] at hnone
      split_ifs at hnone with hall
      exact ⟨.notFound id, by simp only [Request.handle, unpinSearch, if_pos hall], fun f h => by cases h⟩

theorem saves_iff : Saves cfg r ↔ ∃ cfg', r.edited cfg = some cfg' := by
  cases r with
  | pinPlace name path iconName =>
    cases hpath : validatePath path <;> simp [Saves, Request.edited, hpath, Except.toOption]
  | unpinPlace path => cases hpath : validatePath path <;> simp [Saves, Request.edited, hpath, Except.toOption]
  | pinSearch id name chips iconName => simp [Saves, Request.edited]
  | unpinSearch id =>
    simp only [Saves, Request.edited]
    split_ifs with hall
    · simpa using hall
    · simpa using hall

/-- A request that saves gives an item. -/
theorem exists_item (hr : r.edited cfg = some cfg') : ∃ item, r.item = some item := by
  cases r with
  | pinPlace name path iconName =>
    obtain ⟨clean, hclean, -⟩ := Option.map_eq_some_iff.mp hr
    exact ⟨.place clean, by simp only [Request.item, hclean, Option.map_some]⟩
  | unpinPlace path =>
    obtain ⟨clean, hclean, -⟩ := Option.map_eq_some_iff.mp hr
    exact ⟨.place clean, by simp only [Request.item, hclean, Option.map_some]⟩
  | pinSearch id name chips iconName => exact ⟨.search id, rfl⟩
  | unpinSearch id => exact ⟨.search id, rfl⟩

/-! ### The lists -/

variable {name path iconName : String} {places places' : List PinnedPlace}

theorem filter_setIcon (h : setIcon path iconName places = some places') :
    places'.filter (·.path ≠ path) = places.filter (·.path ≠ path) := by
  induction places generalizing places' with
  | nil => cases h
  | cons pp rest ih =>
    simp only [setIcon] at h
    split_ifs at h with hpath
    · cases h
      simp [hpath]
    · obtain ⟨rest', hrest, rfl⟩ := Option.map_eq_some_iff.mp h
      have hne : pp.path ≠ path := hpath
      rw [List.filter_cons_of_pos (by simpa using hne), List.filter_cons_of_pos (by simpa using hne), ih hrest]

/-- The icon is set already. -/
theorem setIcon_eq_self_iff : setIcon path iconName places = some places ↔
    ∃ pp, places.find? (·.path = path) = some pp ∧ pp.iconName = iconName := by
  induction places with
  | nil => simp [setIcon]
  | cons pp rest ih =>
    simp only [setIcon, List.find?_cons]
    by_cases hpath : pp.path = path
    · obtain ⟨n, p, i⟩ := pp
      obtain rfl : p = path := hpath
      simp only [if_true, decide_true, Option.some.injEq, List.cons.injEq, and_true, PinnedPlace.mk.injEq, true_and,
        exists_eq_left']
      exact eq_comm
    · simp only [hpath, if_false, decide_false, Option.map_eq_some_iff, List.cons.injEq, true_and, exists_eq_right]
      exact ih

theorem filter_pinned : (pinned name path iconName places).filter (·.path ≠ path) = places.filter (·.path ≠ path) := by
  unfold pinned
  cases h : setIcon path iconName places with
  | none => simp
  | some places' => exact filter_setIcon h

theorem pinned_eq_self_iff : pinned name path iconName places = places ↔
    ∃ pp, places.find? (·.path = path) = some pp ∧ pp.iconName = iconName := by
  rw [← setIcon_eq_self_iff]
  unfold pinned
  cases h : setIcon path iconName places with
  | none => simp
  | some places' => simp

/-- A request changes nothing but the item. -/
theorem edited_without (hr : r.edited cfg = some cfg') (hitem : r.item = some item) :
    cfg'.without item = cfg.without item := by
  cases r with
  | pinPlace name path iconName =>
    obtain ⟨clean, hclean, rfl⟩ := Option.map_eq_some_iff.mp hr
    obtain rfl : Item.place clean = item := by simpa [Request.item, hclean] using hitem
    simp only [Config.without, filter_pinned]
  | unpinPlace path =>
    obtain ⟨clean, hclean, rfl⟩ := Option.map_eq_some_iff.mp hr
    obtain rfl : Item.place clean = item := by simpa [Request.item, hclean] using hitem
    simp [Config.without, List.filter_filter]
  | pinSearch id name chips iconName =>
    cases hr
    cases hitem
    simp [Config.without]
  | unpinSearch id =>
    cases hitem
    simp only [Request.edited] at hr
    split_ifs at hr
    cases hr
    simp [Config.without, List.filter_filter]

/-- A request leaves the configuration as it is if it is idle. -/
theorem edited_eq_self_iff (hr : r.edited cfg = some cfg') : cfg' = cfg ↔ Idle cfg r := by
  obtain ⟨places, searches, rest⟩ := cfg
  cases r with
  | pinPlace name path iconName =>
    obtain ⟨clean, hclean, rfl⟩ := Option.map_eq_some_iff.mp hr
    cases hpath : validatePath path with
    | error err => simp [hpath, Except.toOption] at hclean
    | ok clean' =>
      obtain rfl : clean' = clean := by simpa [hpath, Except.toOption] using hclean
      simp [Idle, hpath, pinned_eq_self_iff]
  | unpinPlace path =>
    obtain ⟨clean, hclean, rfl⟩ := Option.map_eq_some_iff.mp hr
    cases hpath : validatePath path with
    | error err => simp [hpath, Except.toOption] at hclean
    | ok clean' =>
      obtain rfl : clean' = clean := by simpa [hpath, Except.toOption] using hclean
      simp [Idle, hpath]
  | pinSearch id name chips iconName =>
    cases hr
    simp [Idle]
  | unpinSearch id =>
    simp only [Request.edited] at hr
    split_ifs at hr
    cases hr
    simp [Idle]

/-! ### Runs -/

/-- A request that does not get to the point of saving meets everything. -/
theorem preserves_iff_of_not_edited (hr : ∀ cfg, s.cfg = some cfg → r.edited cfg = none) :
    Preserves toml s r fault ↔ Kept toml s r fault := by
  obtain ⟨err, hhandle, herr⟩ := handle_of_not_edited toml fault hr
  refine ⟨fun _ cfg hcfg hsaves => ?_, fun _ => ⟨fun hok => ?_, fun f hf => ?_⟩⟩
  · obtain ⟨cfg', hcfg'⟩ := saves_iff.mp hsaves
    rw [hr cfg hcfg] at hcfg'
    cases hcfg'
  · rw [hhandle] at hok
    cases hok
  · rw [hhandle] at hf
    exact absurd (Except.error.inj hf) (herr f)

/-- What is saved differs from what was in the file in the item only if what was in memory does. -/
theorem sameBut_encode_iff (hr : r.edited cfg = some cfg') (hitem : r.item = some item) :
    SameBut toml item disk (some (toml.encode cfg')) ↔
      cfg.without item = (load toml disk).without item ∧ unread toml disk = toml.nothing := by
  unfold SameBut
  rw [← edited_without hr hitem]
  simp only [load, unread, toml.decode_encode, toml.unread_encode]
  exact and_congr_right fun _ => eq_comm

theorem preserves_iff_of_edited (hcfg : s.cfg = some cfg) (hr : r.edited cfg = some cfg') :
    Preserves toml s r fault ↔ Kept toml s r fault := by
  have hhandle := handle_of_edited toml fault hcfg hr
  have hsaves : Saves cfg r := saves_iff.mpr ⟨cfg', hr⟩
  cases fault with
  | none =>
    have hstate : r.handle toml (none : Option (Fault τ ε)) s = (.ok (), ⟨some cfg', some (toml.encode cfg')⟩) :=
      hhandle
    constructor
    · intro h c hc _
      obtain rfl : cfg = c := Option.some.inj (hcfg.symm.trans hc)
      obtain ⟨item, hitem, hsame⟩ := h.changes (by rw [hstate])
      rw [hstate] at hsame
      exact ⟨item, hitem, (sameBut_encode_iff hr hitem).mp hsame⟩
    · intro h
      obtain ⟨item, hitem, hagree⟩ := h cfg hcfg hsaves
      refine ⟨fun _ => ⟨item, hitem, ?_⟩, fun f hf => ?_⟩
      · rw [hstate]
        exact (sameBut_encode_iff hr hitem).mpr hagree
      · rw [hstate] at hf
        cases hf
  | some f =>
    have hstate : r.handle toml (some f) s = (.error (.save f), ⟨some cfg', f.after s.disk⟩) := hhandle
    constructor
    · intro h c hc _
      obtain rfl : cfg = c := Option.some.inj (hcfg.symm.trans hc)
      obtain ⟨hmem, hdisk⟩ := h.leaves f (by rw [hstate])
      rw [hstate] at hmem hdisk
      exact ⟨(edited_eq_self_iff hr).mp (Option.some.inj (hmem.trans hcfg)), hdisk⟩
    · intro h
      obtain ⟨hidle, hdisk⟩ := h cfg hcfg hsaves
      refine ⟨fun hok => ?_, fun f' _ => ?_⟩
      · rw [hstate] at hok
        cases hok
      · rw [hstate, (edited_eq_self_iff hr).mpr hidle]
        exact ⟨hcfg.symm, hdisk⟩

/-- One request. -/
theorem preserves_iff : Preserves toml s r fault ↔ Kept toml s r fault := by
  by_cases h : ∃ cfg cfg', s.cfg = some cfg ∧ r.edited cfg = some cfg'
  · obtain ⟨cfg, cfg', hcfg, hr⟩ := h
    exact preserves_iff_of_edited hcfg hr
  · refine preserves_iff_of_not_edited fun cfg hcfg => ?_
    by_contra hne
    obtain ⟨cfg', hr⟩ := Option.ne_none_iff_exists'.mp hne
    exact h ⟨cfg, cfg', hcfg, hr⟩

/-- **What the pins preserve.** In every run from the start of the daemon on, with every file and all edits of it, the
requests leave everything but their items as it is, those that fail everything, if and only if the configuration in
memory agrees with the file, and those that fail had nothing to do. -/
theorem pins_iff (toml : Toml τ ρ υ) (disk : Option τ) (events : List (Event τ ε)) :
    (∀ s r fault, (s, .request r fault) ∈ run toml (started toml disk) events → Preserves toml s r fault) ↔
      ∀ s r fault, (s, .request r fault) ∈ run toml (started toml disk) events → Kept toml s r fault :=
  forall₄_congr fun _ _ _ _ => preserves_iff

/-- The copy in memory is what is in the file, and that is all there is in the file. -/
structure Agrees (toml : Toml τ ρ υ) (s : State τ ρ) : Prop where
  cfg : s.cfg = some (load toml s.disk)
  unread : unread toml s.disk = toml.nothing

theorem agrees_started (h : unread toml disk = toml.nothing) : Agrees toml (started toml disk) := ⟨rfl, h⟩

/-- A request that can be saved keeps the copy in memory in agreement with the file. -/
theorem Agrees.handle (h : Agrees toml s) : Agrees toml (r.handle toml (none : Option (Fault τ ε)) s).2 := by
  cases hr : r.edited (load toml s.disk) with
  | none =>
    obtain ⟨err, hhandle, -⟩ := handle_of_not_edited toml (none : Option (Fault τ ε))
      (s := s) (r := r) fun cfg hcfg => by rw [← Option.some.inj (h.cfg.symm.trans hcfg), hr]
    rwa [hhandle]
  | some cfg' =>
    rw [handle_of_edited toml none h.cfg hr]
    exact ⟨congrArg some (toml.decode_encode cfg').symm, toml.unread_encode cfg'⟩

theorem Agrees.kept (h : Agrees toml s) : Kept toml s r (none : Option (Fault τ ε)) := by
  intro cfg hcfg hsaves
  obtain rfl : load toml s.disk = cfg := Option.some.inj (h.cfg.symm.trans hcfg)
  obtain ⟨cfg', hr⟩ := saves_iff.mp hsaves
  obtain ⟨item, hitem⟩ := exists_item hr
  exact ⟨item, hitem, rfl, h.unread⟩

theorem Agrees.forall_kept {events : List (Event τ ε)} (h : Agrees toml s)
    (hevents : ∀ e ∈ events, ∃ r, e = .request r none) :
    ∀ s' r fault, (s', .request r fault) ∈ run toml s events → Kept toml s' r fault := by
  induction events generalizing s with
  | nil => exact fun s' r fault hmem => absurd hmem List.not_mem_nil
  | cons e es ih =>
    obtain ⟨r₀, rfl⟩ := hevents e List.mem_cons_self
    intro s' r fault hmem
    rcases List.mem_cons.mp hmem with heq | hmem
    · cases heq
      exact h.kept
    · exact ih h.handle (fun e he => hevents e (List.mem_cons_of_mem _ he)) s' r fault hmem

/-- Every request preserves the rest if the file is in the daemon's own format when it starts, if nobody else writes
it, and if it can always be saved. -/
theorem forall_kept_of_undisturbed {events : List (Event τ ε)} (hdisk : unread toml disk = toml.nothing)
    (hevents : ∀ e ∈ events, ∃ r, e = .request r none) :
    ∀ s r fault, (s, .request r fault) ∈ run toml (started toml disk) events → Kept toml s r fault :=
  (agrees_started hdisk).forall_kept hevents

/-! ### An edit that is lost -/

/-- Texts up to their layout: the values, and the comments. -/
def values : Toml (Config String × List String) String (List String) where
  decode := Prod.fst
  unread := Prod.snd
  encode cfg := (cfg, [])
  zero := ""
  nothing := []
  decode_encode _ := rfl
  unread_encode _ := rfl

/-- The user chooses another theme while the daemon runs, and then pins a place. -/
def themeEdited : List (Event (Config String × List String) Unit) :=
  [.edit (some (⟨[], [], "dark"⟩, [])), .request (.pinPlace "Docs" "/docs" "") none]

theorem theme_is_lost : ¬ ∀ s r fault, (s, .request r fault) ∈ run values (started values none) themeEdited →
    Preserves values s r fault := by
  intro h
  have hpres := h ⟨some ⟨[], [], ""⟩, some (⟨[], [], "dark"⟩, [])⟩ (.pinPlace "Docs" "/docs" "") none
    (List.mem_cons_of_mem _ List.mem_cons_self)
  have hpath : validatePath "/docs" = .ok "/docs" := by decide
  obtain ⟨item, -, hsame, -⟩ := preserves_iff.mp hpres ⟨[], [], ""⟩ rfl ⟨"/docs", hpath⟩
  have hrest : "" = "dark" := by cases item <;> exact congrArg Config.rest hsame
  exact absurd hrest (by decide)

end Tilbo.Daemon.Pins
