import Tilbo.Sync.Scan

/-! # What a scan leaves

A scan that is not cut short, and whose calls to the index and to the attributes go through, leaves a row for every
file below the watched directory that it was told of and may look at, with the file's attributes, and for no other path
but those refreshed since it began. So the files of a directory that could not be read lose their rows. -/

namespace Tilbo.Sync.Converges

open Tilbo.Daemon.State Tilbo.Sync.Rebuild Tilbo.Sync.Outcome Tilbo.Sync.Scan Tilbo.Fsutil.Hidden
open Tilbo.Index.Schema Tilbo.Index.Store Tilbo.Index.StoreSpec Tilbo.Index.Entries Tilbo.Index.Purge
open Tilbo.Harvester.Meta Tilbo.Lib.CleanPaths Tilbo.Lib.DirWalks Tilbo.Daemon.Operations

variable {F : Type} (P : Platform F) (S : Syncer) (c : Course F)

/-- The names from an entry to a file below it, of which the walk is told. -/
inductive Listed : Entry → List Element → Prop
  | file (n : Name) : Listed (.file n) []
  | dir {n : Name} {listed missed : List Entry} {e : Entry} {names : List Element} (he : e ∈ listed)
      (h : Listed e names) : Listed (.dir n listed missed) (e.element :: names)

/-- The scan may look at the file with these names: none is hidden, and no directory on the way is excluded. -/
structure Visible (rooted : Bool) (es names : List Element) : Prop where
  shown : S.watchHidden = true ∨ ∀ e ∈ names, e.head? ≠ some '.'
  included : ∀ above, above <+: names → above ≠ names → ofElements rooted (es ++ above) ∉ S.excludePaths

/-- Nothing goes wrong but that directories may be unreadable. -/
structure Undisturbed (rooted : Bool) (es : List Element) (root : Entry) (w : World) : Prop where
  watchPath : S.watchPath = ofElements rooted es
  settled : Settled rooted es
  /-- The watched directory is not the working directory. -/
  below : rooted = true ∨ es ≠ []
  cancelled : ∀ v, c.cancelled v = false
  faults : ∀ path, c.faults path = []
  purgeFaults : c.purgeFaults = []
  /-- The files can be read. -/
  readable : ∀ names, Listed root names → Visible S rooted es names →
    (c.info (ofElements rooted (es ++ names))).isSome = true ∧
      (attributes P w (ofElements rooted (es ++ names))).isSome = true
  /-- The clock does not go back. -/
  later : ∀ path, c.start ≤ (c.env path).now

section Walk
variable {S} {c} {rooted : Bool} {es names above : List Element} {root e : Entry} {p : String} {n : Name}

theorem Listed.isElement (h : Listed e names) : ∀ x ∈ names, IsElement x := by
  induction h with
  | file => simp
  | dir he _ ih =>
    intro x hx
    rcases List.mem_cons.mp hx with rfl | hx
    · exact Entry.isElement _
    · exact ih x hx

theorem hides_iff (hpath : S.watchPath = ofElements rooted es) (hes : Settled rooted es)
    (hnames : ∀ e ∈ names, IsElement e) : hides S (ofElements rooted (es ++ names)) = true ↔
      S.watchHidden = false ∧ ∃ e ∈ names, e.head? = some '.' := by
  rw [hides, hpath, Bool.and_eq_true, Bool.not_eq_true', hasHiddenComponentBelowRoot_below hes hnames]

/-- The scan goes into the directory with these names. -/
def Open (S : Syncer) (rooted : Bool) (es names : List Element) : Prop :=
  ofElements rooted (es ++ names) ∉ S.excludePaths ∧ (S.watchHidden = true ∨ ∀ e ∈ names, e.head? ≠ some '.')

theorem answer_dir (hpath : S.watchPath = ofElements rooted es) (hes : Settled rooted es)
    (hnames : ∀ e ∈ names, IsElement e) (hcancelled : ∀ v, c.cancelled v = false) :
    answer S c ⟨ofElements rooted (es ++ names), true, false⟩ = none ↔ Open S rooted es names := by
  have hshown : hides S (ofElements rooted (es ++ names)) = false ↔
      S.watchHidden = true ∨ ∀ e ∈ names, e.head? ≠ some '.' := by
    rw [← Bool.not_eq_true, hides_iff hpath hes hnames, not_and_or, Bool.not_eq_false]
    simp only [not_exists, not_and, ne_eq]
  have hexcl : excludes S ⟨ofElements rooted (es ++ names), true, false⟩ = false ↔
      ofElements rooted (es ++ names) ∉ S.excludePaths := by
    rw [← Bool.not_eq_true, excludes, Bool.true_and, clean_ofElements (hes.append hnames), List.contains_iff_mem]
  unfold answer Open
  rw [← hshown, ← hexcl, hcancelled]
  cases excludes S ⟨ofElements rooted (es ++ names), true, false⟩ <;>
    cases hides S (ofElements rooted (es ++ names)) <;> simp

/-- The walk gets to the files it is told of, through directories that it may go into. -/
theorem reaches_of_listed (hpath : S.watchPath = ofElements rooted es) (hes : Settled rooted es)
    (hcancelled : ∀ v, c.cancelled v = false) (h : Listed e names) (habove : ∀ e ∈ above, IsElement e)
    (hopen : ∀ on, on <+: names → on ≠ names → Open S rooted es (above ++ on)) :
    ∃ n, Reaches (answer S c) (ofElements rooted (es ++ above)) e (ofElements rooted (es ++ (above ++ names)))
      (.file n) := by
  induction h generalizing above with
  | file n =>
    rw [List.append_nil]
    exact ⟨n, .here _ _⟩
  | @dir n listed missed e names he hlisted ih =>
    have habove' : ∀ x ∈ above ++ [e.element], IsElement x := by
      intro x hx
      rcases List.mem_append.mp hx with hx | hx
      · exact habove x hx
      · exact List.mem_singleton.mp hx ▸ e.isElement
    have henters : Enters (answer S c) (ofElements rooted (es ++ above)) missed := by
      have hhere := hopen [] List.nil_prefix (by simp)
      rw [List.append_nil] at hhere
      exact ⟨(answer_dir hpath hes habove hcancelled).mpr hhere, fun _ => rfl⟩
    obtain ⟨n', h⟩ := ih habove' fun on hon hne => by
      have hdown := hopen (e.element :: on) (by simpa using hon) (by simpa using hne)
      rwa [List.append_assoc, List.singleton_append]
    refine ⟨n', .down henters he ?_⟩
    rw [Entry.name, join_settled (hes.append habove) e.isElement, List.append_assoc]
    rwa [List.append_assoc, List.singleton_append] at h

theorem listed_of_reaches (hpath : S.watchPath = ofElements rooted es) (hes : Settled rooted es)
    (hcancelled : ∀ v, c.cancelled v = false) (habove : ∀ e ∈ above, IsElement e)
    (h : Reaches (answer S c) (ofElements rooted (es ++ above)) e p (.file n)) :
    ∃ names, Listed e names ∧ p = ofElements rooted (es ++ (above ++ names)) ∧
      ∀ on, on <+: names → on ≠ names → Open S rooted es (above ++ on) := by
  generalize hp : ofElements rooted (es ++ above) = path at h
  generalize he' : Entry.file n = e' at h
  induction h generalizing above with
  | here =>
    subst he'
    exact ⟨[], .file n, by rw [List.append_nil, hp], fun on hon hne => absurd (List.prefix_nil.mp hon) hne⟩
  | @down path path' m listed missed e e' henters he hreaches ih =>
    have habove' : ∀ x ∈ above ++ [e.element], IsElement x := by
      intro x hx
      rcases List.mem_append.mp hx with hx | hx
      · exact habove x hx
      · exact List.mem_singleton.mp hx ▸ e.isElement
    obtain ⟨names, hlisted, rfl, hopen⟩ := ih habove' (by
      rw [← hp, Entry.name, join_settled (hes.append habove) e.isElement, List.append_assoc]) he'
    refine ⟨e.element :: names, .dir he hlisted, by simp, fun on hon hne => ?_⟩
    cases on with
    | nil =>
      rw [List.append_nil]
      exact (answer_dir hpath hes habove hcancelled).mp (hp ▸ henters.1)
    | cons x on =>
      obtain ⟨rfl, hrest⟩ := List.cons_prefix_cons.mp hon
      have hdown := hopen on hrest fun heq => hne (by rw [heq])
      rwa [List.append_assoc, List.singleton_append] at hdown

end Walk

/-! ### Below the watched directory -/

section Below
variable {rooted : Bool} {es names names' : List Element}

theorem names_inj (hes : Settled rooted es) (hnames : ∀ e ∈ names, IsElement e) (hnames' : ∀ e ∈ names', IsElement e)
    (h : ofElements rooted (es ++ names) = ofElements rooted (es ++ names')) : names = names' := by
  have hel := congrArg elements h
  rw [elements_ofElements_settled (hes.append hnames), elements_ofElements_settled (hes.append hnames')] at hel
  exact List.append_cancel_left hel

/-- A path below the watched directory starts with its name. -/
theorem directory_isPrefix (hes : Settled rooted es) (hbelow : rooted = true ∨ es ≠ []) (hne : names ≠ []) :
    directory (ofElements rooted es) <+: (ofElements rooted (es ++ names)).toList := by
  by_cases hnil : es = []
  · subst hnil
    obtain rfl : rooted = true := hbelow.resolve_right fun h => h rfl
    have hroot : directory (ofElements true []) = ['/'] := by decide
    rw [hroot, ofElements, if_pos rfl, String.toList_ofList]
    exact ⟨_, rfl⟩
  · have hlast : (ofElements rooted es).toList.getLast? ≠ some '/' := by
      obtain ⟨front, e, rfl⟩ := List.eq_nil_or_concat' es |>.resolve_left hnil
      obtain ⟨hene, hslash⟩ := hes.mem (List.mem_append_right front (List.mem_singleton_self e))
      obtain ⟨before, hbefore⟩ := toList_ofElements_ends rooted front e
      rw [hbefore, List.getLast?_append_of_ne_nil _ hene]
      exact fun h => hslash (List.mem_of_getLast? h)
    rw [directory, if_neg hlast, toList_ofElements_append rooted hnil hne]
    exact ⟨_, by rw [List.append_assoc]; rfl⟩

/-- So the pattern of the purge matches it. -/
theorem like_below (hes : Settled rooted es) (hbelow : rooted = true ∨ es ≠ []) (hne : names ≠ []) :
    Lib.Like.like (stalePrefix (ofElements rooted es)) (ofElements rooted (es ++ names)).toList = true := by
  obtain ⟨v, hv⟩ := directory_isPrefix hes hbelow hne
  rw [stalePrefix_eq, ← hv]
  exact Lib.Like.like_self_append _ (Lib.Like.like_percent_nil v)

end Below

/-! ### The scan -/

/-- The rows and the entries below the watched directory, after the scan. -/
structure Converged (rooted : Bool) (es : List Element) (root : Entry) (w : World) (s' : DB) : Prop where
  rows : ∀ names ≠ [], (∀ e ∈ names, IsElement e) →
    ((s'.fileId (ofElements rooted (es ++ names))).isSome = true ↔ (Listed root names ∧ Visible S rooted es names) ∨
      ∃ f, row w.db (ofElements rooted (es ++ names)) = some f ∧ c.start ≤ f.indexedAt)
  entries : ∀ names, names ≠ [] → Listed root names → Visible S rooted es names →
    After (ofElements rooted (es ++ names)) w.db s' (attributes P w (ofElements rooted (es ++ names)))

section Scan
variable {P} {S} {c} {rooted : Bool} {es names : List Element} {root : Entry} {w : World}

theorem answer_file (hcancelled : ∀ v, c.cancelled v = false) (v : Visit) (hv : v.isDir = false) :
    answer S c v = none := by
  simp [answer, hcancelled, excludes, hv]

theorem answer_ne_error (hcancelled : ∀ v, c.cancelled v = false) (v : Visit) : answer S c v ≠ some .error := by
  rw [answer, hcancelled, if_neg Bool.false_ne_true]
  split_ifs <;> simp

/-- The walk is not cut short. -/
theorem called_end (hcancelled : ∀ v, c.cancelled v = false) : (called S c (some root)).1 = none :=
  calls_end (answer_file hcancelled) (answer_ne_error hcancelled) _ _

theorem visible_iff (hpath : S.watchPath = ofElements rooted es) (hes : Settled rooted es)
    (hnames : ∀ e ∈ names, IsElement e) :
    Visible S rooted es names ↔ (∀ on, on <+: names → on ≠ names → Open S rooted es on) ∧
      hides S (ofElements rooted (es ++ names)) = false := by
  have hshown : hides S (ofElements rooted (es ++ names)) = false ↔
      S.watchHidden = true ∨ ∀ e ∈ names, e.head? ≠ some '.' := by
    rw [← Bool.not_eq_true, hides_iff hpath hes hnames, not_and_or, Bool.not_eq_false]
    simp only [not_exists, not_and, ne_eq]
  rw [hshown]
  constructor
  · rintro ⟨hshown, hincluded⟩
    exact ⟨fun on hon hne => ⟨hincluded on hon hne, hshown.imp_right fun hall e he => hall e (hon.subset he)⟩, hshown⟩
  · rintro ⟨hopen, hshown⟩
    exact ⟨hshown, fun on hon hne => (hopen on hon hne).1⟩

/-- The walk calls on the files it is told of, through directories that it may go into. -/
theorem mem_called (hpath : S.watchPath = ofElements rooted es) (hes : Settled rooted es)
    (hcancelled : ∀ v, c.cancelled v = false) (hnames : ∀ e ∈ names, IsElement e) :
    (⟨ofElements rooted (es ++ names), false, false⟩ : Visit) ∈ (called S c (some root)).2 ↔
      Listed root names ∧ ∀ on, on <+: names → on ≠ names → Open S rooted es on := by
  have hmem := mem_calls (fun v hv => by simp [answer_file hcancelled v hv]) (ofElements rooted (es ++ names))
    S.watchPath root (called_end hcancelled)
  have hroot : ofElements rooted (es ++ []) = S.watchPath := by rw [List.append_nil, hpath]
  refine hmem.trans ⟨fun ⟨n, hreaches⟩ => ?_, fun ⟨hlisted, hopen⟩ => ?_⟩
  · rw [← hroot] at hreaches
    obtain ⟨names', hlisted, heq, hopen⟩ := listed_of_reaches hpath hes hcancelled (by simp) hreaches
    rw [List.nil_append] at heq
    obtain rfl := names_inj hes hnames hlisted.isElement heq
    exact ⟨hlisted, hopen⟩
  · rw [← hroot]
    exact reaches_of_listed hpath hes hcancelled hlisted (by simp) hopen

/-- What is synchronised, and with what. -/
theorem entered_eq (h : Undisturbed P S c rooted es root w) (hlisted : Listed root names)
    (hvisible : Visible S rooted es names) : ∃ stat, entered P S c (called S c (some root)).2 w
      (ofElements rooted (es ++ names)) = (attributes P w (ofElements rooted (es ++ names))).map (stat, ·) := by
  obtain ⟨hopen, hshown⟩ := (visible_iff h.watchPath h.settled hlisted.isElement).mp hvisible
  obtain ⟨stat, hstat⟩ := Option.isSome_iff_exists.mp (h.readable names hlisted hvisible).1
  refine ⟨stat, ?_⟩
  have hindexed : indexed S c ⟨ofElements rooted (es ++ names), false, false⟩ = some stat := by
    simp [indexed, h.cancelled, hshown, hstat]
  rw [entered, if_pos ((mem_called h.watchPath h.settled h.cancelled hlisted.isElement).mpr ⟨hlisted, hopen⟩), hindexed, Option.bind_some, h.faults,
    syncedAs_nil]

theorem entered_none (h : Undisturbed P S c rooted es root w) (hnames : ∀ e ∈ names, IsElement e)
    (hno : ¬ (Listed root names ∧ Visible S rooted es names)) :
    entered P S c (called S c (some root)).2 w (ofElements rooted (es ++ names)) = none := by
  unfold entered
  split_ifs with hmem
  · obtain ⟨hlisted, hopen⟩ := (mem_called h.watchPath h.settled h.cancelled hnames).mp hmem
    have hhides : hides S (ofElements rooted (es ++ names)) = true := by
      by_contra hshown
      exact hno ⟨hlisted, (visible_iff h.watchPath h.settled hnames).mpr ⟨hopen, Bool.not_eq_true _ ▸ hshown⟩⟩
    simp [indexed, hhides]
  · rfl

theorem Undisturbed.swept (h : Undisturbed P S c rooted es root w) (hne : names ≠ []) :
    Swept S c (some root) (ofElements rooted (es ++ names)) := by
  refine ⟨?_, ?_, ?_⟩
  · simp [called_end h.cancelled]
  · simp [h.purgeFaults]
  · rw [h.watchPath]
    exact like_below h.settled h.below hne

theorem rows_runScan (h : Undisturbed P S c rooted es root w) (hne : names ≠ []) (hnames : ∀ e ∈ names, IsElement e) :
    ((runScan P S c (some root) w).db.fileId (ofElements rooted (es ++ names))).isSome = true ↔
      (Listed root names ∧ Visible S rooted es names) ∨
        ∃ f, row w.db (ofElements rooted (es ++ names)) = some f ∧ c.start ≤ f.indexedAt := by
  rw [(fate (P := P) S c (some root) w _).isSome_iff, refreshedAt]
  simp only [h.swept hne, forall_const]
  by_cases hyes : Listed root names ∧ Visible S rooted es names
  · obtain ⟨stat, hentered⟩ := entered_eq h hyes.1 hyes.2
    obtain ⟨a, ha⟩ := Option.isSome_iff_exists.mp (h.readable names hyes.1 hyes.2).2
    rw [hentered, ha]
    exact iff_of_true ⟨_, rfl, h.later _⟩ (Or.inl hyes)
  · rw [entered_none h hnames hyes]
    simp only [hyes, false_or, Option.map_eq_some_iff]
    constructor
    · rintro ⟨t, ⟨f, hf, rfl⟩, hle⟩
      exact ⟨f, hf, hle⟩
    · rintro ⟨f, hf, hle⟩
      exact ⟨_, ⟨f, hf, rfl⟩, hle⟩

theorem entries_runScan (h : Undisturbed P S c rooted es root w) (hne : names ≠ []) (hlisted : Listed root names)
    (hvisible : Visible S rooted es names) : After (ofElements rooted (es ++ names)) w.db
      (runScan P S c (some root) w).db (attributes P w (ofElements rooted (es ++ names))) := by
  obtain ⟨stat, hentered⟩ := entered_eq h hlisted hvisible
  have hentry := (fate (P := P) S c (some root) w (ofElements rooted (es ++ names))).entry
    ((rows_runScan h hne hlisted.isElement).mpr (.inl ⟨hlisted, hvisible⟩))
  rw [hentered, Option.map_map] at hentry
  rwa [show (Prod.snd ∘ fun a => (stat, a)) = (id : Attributes → Attributes) from rfl, Option.map_id] at hentry

/-- **An undisturbed scan** leaves a row for every file it may look at, and purges the others that are old. -/
theorem scan_converges (h : Undisturbed P S c rooted es root w) :
    Converged P S c rooted es root w (runScan P S c (some root) w).db :=
  ⟨fun _ => rows_runScan h, fun _ => entries_runScan h⟩

end Scan

/-! ### A directory that cannot be read -/

/-- A file, and a directory in which the scan finds the second file if it can read it. -/
def watched (readable : Bool) : Entry :=
  let b : Entry := .file ⟨['b'], by decide, by decide, by decide, by decide⟩
  .dir ⟨['w'], by decide, by decide, by decide, by decide⟩
    [.file ⟨['a'], by decide, by decide, by decide, by decide⟩,
      .dir ⟨['d'], by decide, by decide, by decide, by decide⟩ (if readable then [b] else []) (if readable then [] else [b])]
    []

/-- A scan at this time. -/
def scannedAt (now : ℤ) : Course Unit where
  env _ := { plainEnv [] with now := now }
  info _ := some ⟨1, 1, 1, 1⟩
  faults _ := []
  cancelled _ := false
  start := now
  purgeFaults := []

/-- The files. -/
def tagged : World :=
  worldOf DB.empty [("/w/a", { stat := ⟨1, 1, 1, 1⟩, tags := some "x" }), ("/w/d/b", { stat := ⟨1, 1, 1, 1⟩ })]

theorem listed_watched {names : List Element} (h : Listed (watched false) names) : names = [['a']] := by
  unfold watched at h
  cases h with
  | dir he h =>
    rcases List.mem_cons.mp he with rfl | he
    · cases h
      rfl
    · obtain rfl := List.mem_singleton.mp he
      cases h with
      | dir he => cases he

theorem undisturbed_watched {w : World} (hfiles : w.files = tagged.files) (now : ℤ) :
    Undisturbed plainPlatform (new "/w" false []) (scannedAt now) true [['w']] (watched false) w where
  watchPath := by decide +kernel
  settled := settled_of_isElement (by decide +kernel)
  below := .inl rfl
  cancelled _ := rfl
  faults _ := rfl
  purgeFaults := rfl
  readable names hlisted _ := by
    obtain rfl := listed_watched hlisted
    refine ⟨rfl, ?_⟩
    rw [attributes_congr hfiles]
    decide +kernel
  later _ := le_rfl

theorem scan_converges_watched : Converged plainPlatform (new "/w" false []) (scannedAt 0) true [['w']] (watched false)
    tagged (runScan plainPlatform (new "/w" false []) (scannedAt 0) (some (watched false)) tagged).db :=
  scan_converges (undisturbed_watched rfl 0)

-- The second file loses its row as soon as its directory cannot be read.
example : ([true, false].map fun readable =>
    (runScan plainPlatform (new "/w" false []) (scannedAt 1) (some (watched readable))
      (runScan plainPlatform (new "/w" false []) (scannedAt 0) (some (watched true)) tagged)).db.files.map FileRow.path) =
    [["/w/a", "/w/d/b"], ["/w/a"]] := by decide +kernel

/-! ### Scanning again -/

section Again
variable {P} {S} {c c' : Course F} {rooted : Bool} {es names : List Element} {root : Entry} {w : World}
  {s₀ s₁ s₂ : DB} {path : String} {a : Attributes}

theorem After.settled (h : After path s₀ s₁ (some a)) (h' : After path s₁ s₂ (some a)) : SameEntry s₁ s₂ path where
  tag n := (h'.1 n).trans (h.1 n).symm
  value k v := calc
    MetaAt s₂ path k v ↔ overlay a.metadata (MetaAt s₁ path) k v := h'.2.1 k v
    _ ↔ overlay a.metadata (overlay a.metadata (MetaAt s₀ path)) k v := overlay_congr h.2.1 k v
    _ ↔ MetaAt s₁ path k v := overlay_overlay.trans (h.2.1 k v).symm
  source n r := calc
    SourceAt s₂ path n r ↔ overlay a.source (SourceAt s₁ path) n r := h'.2.2 n r
    _ ↔ overlay a.source (overlay a.source (SourceAt s₀ path)) n r := overlay_congr h.2.2 n r
    _ ↔ SourceAt s₁ path n r := overlay_overlay.trans (h.2.2 n r).symm

theorem runScan_files (S : Syncer) (c : Course F) (root : Option Entry) (w : World) :
    (runScan P S c root w).files = w.files := by
  have hwalk := (foldl_became (P := P) (S := S) (c := c) (called S c root).2 w).1
  have hpurge : ∀ w, (purge S c w).files = w.files := by
    intro w
    obtain ⟨db, hdb, -⟩ := purge_cases S c w
    rw [hdb]
  rw [runScan, walk_eq]
  rcases (called S c root).1 with _ | _ | _
  · exact (hpurge _).trans hwalk
  · exact (hpurge _).trans hwalk
  · exact hwalk

/-- **Scanning again**, later than every row was refreshed: the rows below the watched directory are those of the files
that the scan may look at, and their ids and entries are those that the first scan left. -/
theorem rescan_settles (h : Undisturbed P S c rooted es root w)
    (h' : Undisturbed P S c' rooted es root (runScan P S c (some root) w))
    (hstart : ∀ f ∈ (runScan P S c (some root) w).db.files, f.indexedAt < c'.start)
    (hne : names ≠ []) (hnames : ∀ e ∈ names, IsElement e) :
    let w₁ := runScan P S c (some root) w
    let w₂ := runScan P S c' (some root) w₁
    ((w₂.db.fileId (ofElements rooted (es ++ names))).isSome = true ↔ Listed root names ∧ Visible S rooted es names) ∧
    (Listed root names ∧ Visible S rooted es names →
      w₂.db.fileId (ofElements rooted (es ++ names)) = w₁.db.fileId (ofElements rooted (es ++ names)) ∧
        SameEntry w₁.db w₂.db (ofElements rooted (es ++ names))) := by
  intro w₁ w₂
  refine ⟨(rows_runScan h' hne hnames).trans (or_iff_left ?_), fun ⟨hlisted, hvisible⟩ => ⟨?_, ?_⟩⟩
  · rintro ⟨f, hf, hlate⟩
    exact absurd (hstart f (w₁.db.valid.filesPath.lookup_iff.mp hf).1) (not_lt.mpr hlate)
  · obtain ⟨i, hi⟩ := Option.isSome_iff_exists.mp ((rows_runScan h hne hnames).mpr (.inl ⟨hlisted, hvisible⟩))
    obtain ⟨j, hj⟩ := Option.isSome_iff_exists.mp ((rows_runScan h' hne hnames).mpr (.inl ⟨hlisted, hvisible⟩))
    rw [hi, hj, (fate (P := P) S c' (some root) w₁ _).id i j hi hj]
  · obtain ⟨a, ha⟩ := Option.isSome_iff_exists.mp (h.readable names hlisted hvisible).2
    have hfirst := entries_runScan h hne hlisted hvisible
    have hagain := entries_runScan h' hne hlisted hvisible
    rw [attributes_congr (runScan_files S c (some root) w), ha] at hagain
    rw [ha] at hfirst
    exact After.settled hfirst hagain

end Again

theorem rescan_settles_watched :
    let w₁ := runScan plainPlatform (new "/w" false []) (scannedAt 0) (some (watched false)) tagged
    let w₂ := runScan plainPlatform (new "/w" false []) (scannedAt 1) (some (watched false)) w₁
    ((w₂.db.fileId (ofElements true ([['w']] ++ [['a']]))).isSome = true ↔
      Listed (watched false) [['a']] ∧ Visible (new "/w" false []) true [['w']] [['a']]) ∧
    (Listed (watched false) [['a']] ∧ Visible (new "/w" false []) true [['w']] [['a']] →
      w₂.db.fileId (ofElements true ([['w']] ++ [['a']])) = w₁.db.fileId (ofElements true ([['w']] ++ [['a']])) ∧
        SameEntry w₁.db w₂.db (ofElements true ([['w']] ++ [['a']]))) :=
  rescan_settles (undisturbed_watched rfl 0) (undisturbed_watched (runScan_files _ _ _ _) 1) (by decide +kernel)
    (by decide) (by decide +kernel)

end Tilbo.Sync.Converges
