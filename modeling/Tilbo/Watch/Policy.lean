import Tilbo.Sync.Converges
import Tilbo.Watch.Coverage

/-! # What belongs to the index

Which files are hidden or excluded is decided in three places. The scan cleans the excluded paths and compares directories
with them; the watchers compare the paths of events with the excluded paths as they are spelled, and leave out what is
below them as well. `agree_iff` says for which configurations the three agree on every file that is not itself excluded. The
watched directory is a clean absolute path other than the root; the scan has texts where the watchers have bytes, each
character being the number of a byte. -/

namespace Tilbo.Watch.Policy

open Tilbo.Daemon.Handlers (EventKind)
open Tilbo.Lib
open Tilbo.Lib.CleanPaths (Element IsElement Settled elements ofElements isAbs settled_elements elements_ofElements_settled)
open Tilbo.Lib.DirWalks (Entry Visit)
open Tilbo.Sync.Scan (Syncer Course called hides)
open Tilbo.Sync.Converges (Listed mem_called)
open Tilbo.Watch.Mounts Tilbo.Watch.Fanotify Tilbo.Watch.Inotify Tilbo.Watch.Coverage
open Tilbo.Lib.Lines (Bytes bytes)
open Tilbo.Trash.TrashInfo (byteOf)

variable {F : Type} (W : Config)

/-! ### The three of them -/

/-- The path of what has these names below the watched directory. -/
def pathOf (names : List Name) : Bytes := names.foldl below W.rootPath

/-- A name, as the scan has it. -/
def element (n : Name) : Element := n.1.map fun b => Char.ofNat b.toNat

/-- The scan of the configuration. -/
def syncer : Syncer := Sync.Scan.new (textOf W.rootPath) W.watchHidden (W.excludePaths.map textOf)

/-- The walk of the scan calls on the file, and the file is not passed over. -/
def Scans (c : Course F) (root : Entry) (names : List Name) : Prop :=
  (⟨textOf (pathOf W names), false, false⟩ : Visit) ∈ (called (syncer W) c (some root)).2 ∧
    hides (syncer W) (textOf (pathOf W names)) = false

/-- `addWatchRecursive` puts a watch on the directories on the way, and an event in the last of them is handed on. -/
structure InotifyReports (dir : List Name) (n : Name) : Prop where
  watched : ∀ on, on <+: dir → watches W (pathOf W on) true (decide (on = [])) = true
  reported : ∀ {D : Type} (s : State D) wd mask kind, s.wdToDir wd = some (pathOf W dir) → mask &&& IN_ISDIR = 0 →
    Inotify.kindOf mask = some kind → Inotify.dispatch (impl W) wd mask n.1 s =
      { s with out := s.out ++ [⟨pathOf W (dir ++ [n]), kind⟩] }

/-- The fanotify watcher of the configuration, with the events that it hands on. -/
def fanotify (openByHandle : List Event → ℕ → Bytes → Except String Bytes × List Event) : Watcher (List Event) where
  mountPath := W.rootPath
  watchHidden := W.watchHidden
  excludePaths := W.excludePaths
  openByHandle := openByHandle
  debounce e out := out ++ [e]

/-- An event of the file is handed on. -/
def FanotifyReports (dir : List Name) (n : Name) : Prop :=
  ∀ openByHandle objectPath mask kind out, Fanotify.kindOf mask = some kind →
    emit (fanotify W openByHandle) mask ⟨pathOf W dir, n.1, objectPath⟩ out =
      out ++ [⟨pathOf W (dir ++ [n]), kind⟩]

/-- The scan and both watchers agree on every file that is not itself excluded. -/
def Agree (c : Course F) : Prop :=
  ∀ dir n root, Listed root ((dir ++ [n]).map element) → pathOf W (dir ++ [n]) ∉ W.excludePaths →
    (Scans W c root (dir ++ [n]) ↔ InotifyReports W dir n) ∧ (InotifyReports W dir n ↔ FanotifyReports W dir n)

/-- No name is hidden, or the hidden ones are watched. -/
def Shown (names : List Name) : Prop := W.watchHidden = true ∨ ∀ n ∈ names, n.1.head? ≠ some dot

/-- How the excluded paths are spelled. -/
structure Spelled : Prop where
  /-- A directory that one of them cleans to is excluded as it is spelled. -/
  below : ∀ ex ∈ W.excludePaths, ∀ dir, clean ex = pathOf W dir → Shown W dir → isExcluded W.excludePaths (pathOf W dir) = true
  /-- One that is above the watched directory is there only if one cleans to the watched directory. -/
  above : ∀ ex ∈ W.excludePaths, ex ++ [slash] <+: W.rootPath → ∃ ex' ∈ W.excludePaths, clean ex' = W.rootPath

/-! ### Paths -/

section Paths
variable {W} {dir on names : List Name} {n : Name} {path ex : Bytes} {X : List Bytes}

theorem pathOf_concat : pathOf W (dir ++ [n]) = Coverage.below (pathOf W dir) n := by
  simp [pathOf, List.foldl_append]

theorem isCleanAbs_pathOf (hclean : IsCleanAbs W.rootPath) (hroot : W.rootPath ≠ Mounts.root) (dir : List Name) :
    IsCleanAbs (pathOf W dir) ∧ pathOf W dir ≠ Mounts.root := by
  induction dir using List.reverseRecOn with
  | nil => exact ⟨hclean, hroot⟩
  | append_singleton dir n ih =>
    rw [pathOf_concat]
    exact isCleanAbs_below ih.1 ih.2 n

theorem isElement_map : ∀ e ∈ names.map element, IsElement e := by
  intro e he
  obtain ⟨n, -, rfl⟩ := List.mem_map.mp he
  exact isElement_name n

theorem settled_root (hclean : IsCleanAbs W.rootPath) : Settled true (elements (textOf W.rootPath)) :=
  isAbs_textOf hclean.1 ▸ settled_elements (textOf W.rootPath)

theorem textOf_pathOf (hclean : IsCleanAbs W.rootPath) (hroot : W.rootPath ≠ Mounts.root) (dir : List Name) :
    textOf (pathOf W dir) = ofElements true (elements (textOf W.rootPath) ++ dir.map element) := by
  induction dir using List.reverseRecOn with
  | nil =>
    rw [List.map_nil, List.append_nil]
    exact textOf_clean hclean
  | append_singleton dir n ih =>
    obtain ⟨hdir, hne⟩ := isCleanAbs_pathOf hclean hroot dir
    rw [pathOf_concat, textOf_below hdir hne, ih, elements_ofElements_settled ((settled_root hclean).append isElement_map),
      List.map_append, List.append_assoc]
    rfl

theorem elements_pathOf (hclean : IsCleanAbs W.rootPath) (hroot : W.rootPath ≠ Mounts.root) (dir : List Name) :
    elements (textOf (pathOf W dir)) = elements (textOf W.rootPath) ++ dir.map element := by
  rw [textOf_pathOf hclean hroot, elements_ofElements_settled ((settled_root hclean).append isElement_map)]

/-- No name has a slash: what has another path in front of it and a slash is that path, or is below it. -/
theorem prefix_below : ex ++ [slash] <+: Coverage.below path n ↔ path = ex ∨ ex ++ [slash] <+: path := by
  constructor
  · rintro ⟨rest, hrest⟩
    have hsplit : path ++ slash :: n.1 = ex ++ (slash :: rest) := by
      rw [List.append_cons ex, hrest]
      rfl
    rcases List.append_eq_append_iff.mp hsplit with ⟨k, rfl, hk⟩ | ⟨k, rfl, hk⟩
    · rcases k with _ | ⟨x, k⟩
      · exact .inl (List.append_nil _).symm
      · refine absurd ?_ n.2.2.2.2
        rw [(List.cons.inj hk).2]
        exact List.mem_append_right _ List.mem_cons_self
    · rcases k with _ | ⟨x, k⟩
      · exact .inl (List.append_nil _)
      · obtain ⟨rfl, -⟩ := List.cons.inj hk
        exact .inr ⟨k, by simp⟩
  · rintro (rfl | ⟨rest, hrest⟩)
    · exact ⟨n.1, by simp [Coverage.below]⟩
    · exact ⟨rest ++ slash :: n.1, by rw [← List.append_assoc, hrest]; rfl⟩

theorem isExcluded_iff : isExcluded X path = true ↔ path ∈ X ∨ ∃ ex ∈ X, ex ++ [slash] <+: path := by
  rw [isExcluded, List.any_eq_true]
  simp only [decide_eq_true_eq, and_or_left, exists_or, exists_eq_right']

theorem isExcluded_below : isExcluded X (Coverage.below path n) = true ↔
    Coverage.below path n ∈ X ∨ isExcluded X path = true := by
  rw [isExcluded_iff, isExcluded_iff]
  simp only [prefix_below]
  refine or_congr_right ?_
  constructor
  · rintro ⟨ex, hex, rfl | h⟩
    · exact .inl hex
    · exact .inr ⟨ex, hex, h⟩
  · rintro (hex | ⟨ex, hex, h⟩)
    · exact ⟨_, hex, .inl rfl⟩
    · exact ⟨ex, hex, .inr h⟩

/-- A path is excluded if it is listed, or a directory on the way is, or one above the watched directory. -/
theorem isExcluded_pathOf : isExcluded X (pathOf W dir) = true ↔
    (∃ on, on <+: dir ∧ pathOf W on ∈ X) ∨ ∃ ex ∈ X, ex ++ [slash] <+: W.rootPath := by
  induction dir using List.reverseRecOn with
  | nil =>
    rw [isExcluded_iff]
    simp [pathOf]
  | append_singleton dir n ih =>
    rw [pathOf_concat, isExcluded_below, ih, ← pathOf_concat, ← or_assoc]
    refine or_congr_left ⟨?_, ?_⟩
    · rintro (hex | ⟨on, hon, hex⟩)
      · exact ⟨_, List.prefix_rfl, hex⟩
      · exact ⟨on, hon.trans (List.prefix_append _ _), hex⟩
    · rintro ⟨on, hon, hex⟩
      rcases List.prefix_concat_iff.mp hon with rfl | hon
      · exact .inl hex
      · exact .inr ⟨on, hon, hex⟩

/-- So is what is below an excluded directory. -/
theorem isExcluded_mono (hon : on <+: dir) (h : isExcluded X (pathOf W on) = true) : isExcluded X (pathOf W dir) = true := by
  rw [isExcluded_pathOf] at h ⊢
  refine h.imp_left ?_
  rintro ⟨on', hon', hex⟩
  exact ⟨on', hon'.trans hon, hex⟩

theorem head_element : (element n).head? = some '.' ↔ n.1.head? = some dot := by
  have hchar : ∀ b : UInt8, Char.ofNat b.toNat = '.' ↔ b = dot := by
    refine fun b => ⟨fun h => ?_, ?_⟩
    · rw [← byteOf_ofNat b, h]
      decide
    · rintro rfl
      decide
  rw [element, List.head?_map, Option.map_eq_some_iff]
  simp only [hchar]
  exact ⟨fun ⟨b, hb, heq⟩ => heq ▸ hb, fun h => ⟨dot, h, rfl⟩⟩

/-- What is hidden below the watched directory. -/
theorem hidden_pathOf (hclean : IsCleanAbs W.rootPath) (hroot : W.rootPath ≠ Mounts.root) :
    Fanotify.hasHiddenComponentBelowRoot W.rootPath (pathOf W names) = true ↔ ∃ n ∈ names, n.1.head? = some dot := by
  have habs : isAbs (textOf W.rootPath) = isAbs (textOf (pathOf W names)) := by
    rw [isAbs_textOf hclean.1, isAbs_textOf (isCleanAbs_pathOf hclean hroot names).1.1]
  have hup : (names.map element).head? ≠ some ['.', '.'] := fun h =>
    (isElement_map _ (List.mem_of_mem_head? h)).2.2.1 rfl
  unfold Fanotify.hasHiddenComponentBelowRoot
  dsimp only
  rw [if_neg (not_not_intro habs), elements_pathOf hclean hroot, if_pos (List.prefix_append _ _), List.drop_left,
    if_neg hup, List.any_map, List.any_eq_true]
  refine exists_congr fun n => and_congr_right fun _ => ?_
  obtain ⟨hne, hdot, hdots, -⟩ : IsElement (element n) := isElement_name n
  rw [Function.comp_apply, Fanotify.isHiddenName, if_neg (not_or.mpr ⟨hne, not_or.mpr ⟨hdot, hdots⟩⟩), decide_eq_true_iff]
  exact head_element

theorem shown_iff (hclean : IsCleanAbs W.rootPath) (hroot : W.rootPath ≠ Mounts.root) :
    (!W.watchHidden && Fanotify.hasHiddenComponentBelowRoot W.rootPath (pathOf W names)) = false ↔ Shown W names := by
  rw [← Bool.not_eq_true, Bool.and_eq_true, hidden_pathOf hclean hroot, Bool.not_eq_true']
  unfold Shown
  rw [not_and_or, Bool.not_eq_false]
  simp only [not_exists, not_and, ne_eq]

theorem Shown.of_prefix (h : Shown W names) (hon : on <+: names) : Shown W on :=
  h.imp_right fun hall n hn => hall n (hon.subset hn)

/-- What is below the watched directory has its path in front. -/
theorem root_isPrefixOf (hne : dir ≠ []) : W.rootPath ++ [slash] <+: pathOf W dir := by
  induction dir using List.reverseRecOn with
  | nil => exact absurd rfl hne
  | append_singleton dir n ih =>
    rw [pathOf_concat, prefix_below]
    by_cases hdir : dir = []
    · subst hdir
      exact .inl rfl
    · exact .inr (ih hdir)

/-- Cleaning puts in no characters but slashes and dots. -/
theorem mem_clean {text : String} {c : Char} (h : c ∈ (CleanPaths.clean text).toList) :
    c = '/' ∨ c = '.' ∨ c ∈ text.toList := by
  have helements : c ∈ (ofElements true (elements text)).toList → c = '/' ∨ c = '.' ∨ c ∈ text.toList := by
    intro hc
    refine (mem_ofElements hc).imp_right ?_
    rintro ⟨e, he, hce⟩
    by_contra hno
    exact CleanPaths.not_mem_elements (not_or.mp hno).2 e he hce
  have hdot : ".".toList = ['.'] := rfl
  rcases hrooted : isAbs text
  · rw [CleanPaths.clean, hrooted, ofElements, if_neg Bool.false_ne_true] at h
    split_ifs at h
    · rw [hdot] at h
      exact .inr (.inl (List.mem_singleton.mp h))
    · refine helements ?_
      rw [String.toList_ofList] at h
      show c ∈ (String.ofList ('/' :: ['/'].intercalate (elements text))).toList
      rw [String.toList_ofList]
      exact List.mem_cons_of_mem _ h
  · rw [CleanPaths.clean, hrooted] at h
    exact helements h

theorem bytes_textOf (path : Bytes) : (textOf path).toList.map byteOf = path := by
  rw [textOf, String.toList_ofList, List.map_map]
  exact (List.map_congr_left fun b _ => byteOf_ofNat b).trans (List.map_id _)

/-- Texts are cleaned as their bytes are. -/
theorem clean_textOf : CleanPaths.clean (textOf ex) = textOf path ↔ clean ex = path := by
  have hchar : ∀ c ∈ (CleanPaths.clean (textOf ex)).toList, Char.ofNat (byteOf c).toNat = c := by
    intro c hc
    rcases mem_clean hc with rfl | rfl | hmem
    · decide
    · decide
    · rw [textOf, String.toList_ofList] at hmem
      obtain ⟨b, -, rfl⟩ := List.mem_map.mp hmem
      rw [byteOf_ofNat]
  constructor
  · intro h
    rw [clean, ← textOf, h, bytes_textOf]
  · rintro rfl
    refine String.toList_injective ?_
    show _ = (String.ofList (((CleanPaths.clean (textOf ex)).toList.map byteOf).map fun b => Char.ofNat b.toNat)).toList
    rw [String.toList_ofList, List.map_map]
    exact ((List.map_congr_left hchar).trans (List.map_id _)).symm

end Paths

/-! ### What each of them does -/

section Parts
variable {W} {dir names : List Name} {n : Name} {c : Course F} {root : Entry}

theorem visible_pathOf (hclean : IsCleanAbs W.rootPath) (hroot : W.rootPath ≠ Mounts.root) :
    Coverage.Visible W (pathOf W names) ↔ isExcluded W.excludePaths (pathOf W names) = false ∧ Shown W names :=
  and_congr_right fun _ => shown_iff hclean hroot

theorem dispatch_invisible {D : Type} {s : State D} {wd : Int32} {mask : UInt32} {path : Bytes}
    (hlabel : s.wdToDir wd = some path) (hno : ¬ Coverage.Visible W (Coverage.below path n)) :
    Inotify.dispatch (impl W) wd mask n.1 s = s := by
  have hlabel : (impl W).wdToDir s wd = some path := hlabel
  unfold Inotify.dispatch
  rw [hlabel]
  dsimp only
  rw [if_pos n.2.1]
  by_cases hexcluded : isExcluded W.excludePaths (Coverage.below path n) = true
  · exact if_pos hexcluded
  · have hhidden : (!W.watchHidden && Fanotify.hasHiddenComponentBelowRoot W.rootPath (Coverage.below path n)) = true := by
      by_contra hshown
      exact hno ⟨Bool.not_eq_true _ ▸ hexcluded, Bool.not_eq_true _ ▸ hshown⟩
    exact (if_neg hexcluded).trans (if_pos hhidden)

theorem inotifyReports_iff (hclean : IsCleanAbs W.rootPath) (hroot : W.rootPath ≠ Mounts.root) :
    InotifyReports W dir n ↔ isExcluded W.excludePaths (pathOf W (dir ++ [n])) = false ∧ Shown W (dir ++ [n]) := by
  rw [← visible_pathOf hclean hroot]
  constructor
  · intro h
    by_contra hno
    let t : Lib.DirTrees.Tree Unit Name := ⟨(), fun _ => none, rfl, fun h => by cases h⟩
    let s : State Unit := { start W t with wdToDir := fun _ => some (pathOf W dir) }
    have hreported := h.reported s 0 IN_CREATE .create rfl (by decide) (by decide)
    rw [dispatch_invisible rfl (pathOf_concat ▸ hno)] at hreported
    have hlength := congrArg (fun s : State Unit => s.out.length) hreported
    simp at hlength
  · intro h
    obtain ⟨hexcluded, hshown⟩ := (visible_pathOf hclean hroot).mp h
    refine ⟨fun on hon => ?_, fun s wd mask kind hlabel hdir hkind => ?_⟩
    · have hon : on <+: dir ++ [n] := hon.trans (List.prefix_append _ _)
      have hno : isExcluded W.excludePaths (pathOf W on) = false := by
        by_contra hex
        rw [isExcluded_mono hon (Bool.of_not_eq_false hex)] at hexcluded
        cases hexcluded
      unfold watches
      rw [hno, (shown_iff hclean hroot).mpr (hshown.of_prefix hon)]
      simp
    · rw [pathOf_concat]
      exact dispatch_file hlabel hdir hkind (pathOf_concat ▸ h)

/-- What fanotify does with an event of a file in a directory. -/
theorem emit_pathOf (hclean : IsCleanAbs W.rootPath) (hroot : W.rootPath ≠ Mounts.root)
    {openByHandle : List Event → ℕ → Bytes → Except String Bytes × List Event} {objectPath : Bytes} {mask : UInt64}
    {kind : EventKind} {out : List Event} (hkind : Fanotify.kindOf mask = some kind) :
    emit (fanotify W openByHandle) mask ⟨pathOf W dir, n.1, objectPath⟩ out =
      if isExcluded W.excludePaths (pathOf W (dir ++ [n])) then out
      else if !W.watchHidden && Fanotify.hasHiddenComponentBelowRoot W.rootPath (pathOf W (dir ++ [n])) then out
      else out ++ [⟨pathOf W (dir ++ [n]), kind⟩] := by
  obtain ⟨hdir, hdirne⟩ := isCleanAbs_pathOf hclean hroot dir
  obtain ⟨hpath, -⟩ := isCleanAbs_pathOf hclean hroot (dir ++ [n])
  have hdirne : pathOf W dir ≠ [slash] := hdirne
  have hroot : W.rootPath ≠ [slash] := hroot
  have hdirnil : pathOf W dir ≠ [] := by
    intro hnil
    rw [hnil] at hdir
    cases hdir.1
  have heq : pathOf W dir ++ [slash] ++ n.1 = pathOf W (dir ++ [n]) := by
    rw [pathOf_concat, List.append_assoc]
    rfl
  have hnil : pathOf W (dir ++ [n]) ≠ [] := by
    rw [pathOf_concat]
    exact List.append_ne_nil_of_left_ne_nil hdirnil _
  have hunder : pathUnderWatchRoot (pathOf W (dir ++ [n])) (fanotify W openByHandle).mountPath = true := by
    show pathUnderWatchRoot (pathOf W (dir ++ [n])) W.rootPath = true
    unfold pathUnderWatchRoot
    dsimp only
    rw [hpath.2, hclean.2, if_neg hroot, decide_eq_true (root_isPrefixOf (by simp)), ite_self]
  unfold emit
  dsimp only
  have hnames : pathOf W dir ≠ [] ∧ n.1 ≠ [] := ⟨hdirnil, n.2.1⟩
  rw [if_pos hnames, if_neg hdirne, heq, if_neg hnil, hunder, if_neg (by decide), hkind]
  rfl

theorem fanotifyReports_iff (hclean : IsCleanAbs W.rootPath) (hroot : W.rootPath ≠ Mounts.root) :
    FanotifyReports W dir n ↔ isExcluded W.excludePaths (pathOf W (dir ++ [n])) = false ∧ Shown W (dir ++ [n]) := by
  rw [← shown_iff hclean hroot]
  constructor
  · intro h
    have hkind : Fanotify.kindOf FAN_CREATE = some .create := by decide
    have hemit := h (fun out _ _ => (.error "", out)) [] FAN_CREATE .create [] hkind
    rw [emit_pathOf hclean hroot hkind] at hemit
    split_ifs at hemit with hexcluded hhidden
    · simp at hemit
    · simp at hemit
    · exact ⟨Bool.not_eq_true _ ▸ hexcluded, Bool.not_eq_true _ ▸ hhidden⟩
  · rintro ⟨hexcluded, hshown⟩ openByHandle objectPath mask kind out hkind
    rw [emit_pathOf hclean hroot hkind, hexcluded, hshown]
    rfl

/-- The configuration of the scan. -/
theorem scans_iff (hclean : IsCleanAbs W.rootPath) (hroot : W.rootPath ≠ Mounts.root)
    (hcancelled : ∀ v, c.cancelled v = false) (hlisted : Listed root (names.map element)) :
    Scans W c root names ↔ Shown W names ∧
      ∀ on, on <+: names → on ≠ names → ∀ ex ∈ W.excludePaths, clean ex ≠ pathOf W on := by
  have hpath : (syncer W).watchPath = ofElements true (elements (textOf W.rootPath)) := by
    show CleanPaths.clean (textOf W.rootPath) = _
    rw [CleanPaths.clean, isAbs_textOf hclean.1]
  have hes := settled_root hclean
  have hopen : ∀ on, ofElements true (elements (textOf W.rootPath) ++ on.map element) ∈ (syncer W).excludePaths ↔
      ∃ ex ∈ W.excludePaths, clean ex = pathOf W on := by
    intro on
    rw [← textOf_pathOf hclean hroot]
    show _ ∈ (W.excludePaths.map textOf).map CleanPaths.clean ↔ _
    simp only [List.map_map, List.mem_map, Function.comp_apply, clean_textOf]
  have hvisible : Sync.Converges.Visible (syncer W) true (elements (textOf W.rootPath)) (names.map element) ↔
      Shown W names ∧ ∀ on, on <+: names → on ≠ names → ∀ ex ∈ W.excludePaths, clean ex ≠ pathOf W on := by
    constructor
    · rintro ⟨hshown, hincluded⟩
      refine ⟨hshown.imp_right fun hall n hn hdot => ?_, fun on hon hne ex hex heq => ?_⟩
      · exact hall _ (List.mem_map_of_mem hn) (head_element.mpr hdot)
      · refine hincluded (on.map element) (hon.map element) (fun hmap => hne ?_) ((hopen on).mpr ⟨ex, hex, heq⟩)
        exact hon.eq_of_length (by simpa using congrArg List.length hmap)
    · rintro ⟨hshown, hincluded⟩
      refine ⟨hshown.imp_right fun hall e he hdot => ?_, fun above habove hne hmem => ?_⟩
      · obtain ⟨n, hn, rfl⟩ := List.mem_map.mp he
        exact hall n hn (head_element.mp hdot)
      · obtain ⟨on, hon, rfl⟩ := List.prefix_map_iff.mp habove
        obtain ⟨ex, hex, heq⟩ := (hopen on).mp hmem
        exact hincluded on hon (fun heq => hne (by rw [heq])) ex hex heq
  rw [← hvisible, Sync.Converges.visible_iff hpath hes isElement_map, Scans, textOf_pathOf hclean hroot,
    mem_called hpath hes hcancelled isElement_map, and_iff_right hlisted]

end Parts

/-! ### Agreement -/

section Agreement
variable {W} {dir names : List Name} {n : Name} {c : Course F} {X : List Bytes}

/-- In each directory there is room for a file that is neither hidden nor excluded. -/
theorem exists_fresh (X : List Bytes) (path : Bytes) : ∃ n : Name, n.1.head? ≠ some dot ∧ Coverage.below path n ∉ X := by
  have hname : IsName (List.replicate ((X.map List.length).foldr max 0 + 1) 0x61) := by
    rw [List.replicate_succ]
    refine ⟨by simp, by simp [dot], by simp [dot], fun h => ?_⟩
    rw [← List.replicate_succ] at h
    exact absurd (List.eq_of_mem_replicate h) (by decide)
  refine ⟨⟨_, hname⟩, by simp [List.replicate_succ, dot], fun hmem => ?_⟩
  have hle := Rows.le_foldr_max _ (List.mem_map_of_mem (f := List.length) hmem)
  rw [Coverage.below, List.length_append, List.length_cons, List.length_replicate] at hle
  omega

/-- A tree with a file of these names. -/
theorem exists_listed (names : List Name) (top : DirWalks.Name) :
    ∃ root : Entry, root.element = top.1 ∧ Listed root (names.map element) := by
  induction names generalizing top with
  | nil => exact ⟨.file top, rfl, .file top⟩
  | cons n names ih =>
    obtain ⟨e, helement, hlisted⟩ := ih ⟨element n, isElement_name n⟩
    refine ⟨.dir top [e] [], rfl, ?_⟩
    rw [List.map_cons, ← show e.element = element n from helement]
    exact .dir (List.mem_singleton_self e) hlisted

/-- Agreement is about the excluded paths alone. -/
theorem agree_iff_excluded (hclean : IsCleanAbs W.rootPath) (hroot : W.rootPath ≠ Mounts.root)
    (hcancelled : ∀ v, c.cancelled v = false) : Agree W c ↔
      ∀ dir n, pathOf W (dir ++ [n]) ∉ W.excludePaths → Shown W (dir ++ [n]) →
        ((∀ on, on <+: dir → ∀ ex ∈ W.excludePaths, clean ex ≠ pathOf W on) ↔
          isExcluded W.excludePaths (pathOf W dir) = false) := by
  have hproper : ∀ (dir : List Name) (n : Name) (p : List Name → Prop),
      (∀ on, on <+: dir ++ [n] → on ≠ dir ++ [n] → p on) ↔ ∀ on, on <+: dir → p on := by
    intro dir n p
    refine ⟨fun h on hon => h on (hon.trans (List.prefix_append _ _)) ?_, fun h on hon hne => ?_⟩
    · rintro rfl
      have hle := hon.length_le
      rw [List.length_append, List.length_singleton] at hle
      omega
    · exact h on ((List.prefix_concat_iff.mp hon).resolve_left hne)
  have hbelow : ∀ dir n, pathOf W (dir ++ [n]) ∉ W.excludePaths →
      (isExcluded W.excludePaths (pathOf W (dir ++ [n])) = false ↔ isExcluded W.excludePaths (pathOf W dir) = false) := by
    intro dir n hno
    rw [← Bool.not_eq_true, ← Bool.not_eq_true, pathOf_concat, isExcluded_below, ← pathOf_concat]
    exact not_congr (or_iff_right hno)
  constructor
  · intro h dir n hno hshown
    obtain ⟨root, -, hlisted⟩ := exists_listed (dir ++ [n]) ⟨['a'], by decide⟩
    have hsame := (h dir n root hlisted hno).1
    rw [scans_iff hclean hroot hcancelled hlisted, inotifyReports_iff hclean hroot, and_comm, and_congr_left_iff] at hsame
    rw [← hbelow dir n hno, ← hsame hshown]
    exact (hproper dir n _).symm
  · intro h dir n root hlisted hno
    rw [scans_iff hclean hroot hcancelled hlisted, inotifyReports_iff hclean hroot, fanotifyReports_iff hclean hroot]
    refine ⟨?_, Iff.rfl⟩
    rw [and_comm]
    refine and_congr_left fun hshown => ?_
    rw [hbelow dir n hno, ← h dir n hno hshown]
    exact hproper dir n _

/-- **The scan and the watchers agree** on every file that is not itself excluded exactly if each directory that an excluded
path cleans to is excluded as it is spelled too, or is hidden, and no excluded path lies above the watched directory, unless
one cleans to that. -/
theorem agree_iff (hclean : IsCleanAbs W.rootPath) (hroot : W.rootPath ≠ Mounts.root)
    (hcancelled : ∀ v, c.cancelled v = false) : Agree W c ↔ Spelled W := by
  rw [agree_iff_excluded hclean hroot hcancelled]
  constructor
  · intro h
    refine ⟨fun ex hex dir heq hshown => ?_, fun ex hex habove => ?_⟩
    · obtain ⟨n, hdot, hno⟩ := exists_fresh W.excludePaths (pathOf W dir)
      rw [← pathOf_concat] at hno
      have hshown' : Shown W (dir ++ [n]) := by
        refine hshown.imp_right fun hall m hm => ?_
        rcases List.mem_append.mp hm with hm | hm
        · exact hall m hm
        · rw [List.mem_singleton.mp hm]
          exact hdot
      by_contra hexcluded
      exact (h dir n hno hshown').mpr (Bool.not_eq_true _ ▸ hexcluded) dir List.prefix_rfl ex hex heq
    · obtain ⟨n, hdot, hno⟩ := exists_fresh W.excludePaths (pathOf W [])
      rw [← pathOf_concat] at hno
      have hshown : Shown W ([] ++ [n]) := .inr fun m hm => by
        rw [List.mem_singleton.mp hm]
        exact hdot
      by_contra hnone
      have hexcluded : isExcluded W.excludePaths (pathOf W []) = true := isExcluded_iff.mpr (.inr ⟨ex, hex, habove⟩)
      rw [(h [] n hno hshown).mp fun on hon ex' hex' heq => ?_] at hexcluded
      · cases hexcluded
      · rw [List.prefix_nil.mp hon] at heq
        exact hnone ⟨ex', hex', heq⟩
  · intro h dir n _ hshown
    have hshown : Shown W dir := hshown.of_prefix (List.prefix_append _ _)
    constructor
    · intro hno
      by_contra hexcluded
      rcases isExcluded_pathOf.mp (Bool.of_not_eq_false hexcluded) with ⟨on, hon, hmem⟩ | ⟨ex, hex, habove⟩
      · exact hno on hon _ hmem (isCleanAbs_pathOf hclean hroot on).1.2
      · obtain ⟨ex', hex', heq⟩ := h.above ex hex habove
        exact hno [] List.nil_prefix ex' hex' heq
    · intro hno on hon ex hex heq
      rw [isExcluded_mono hon (h.below ex hex on heq (hshown.of_prefix hon))] at hno
      cases hno

end Agreement

/-! ### A mount point with a slash behind it -/

/-- Below `/w`, one path is excluded. -/
def excluding (ex : Bytes) : Config := ⟨bytes "/w", false, [ex]⟩

def mountName : Name := ⟨bytes "mnt", by decide⟩

/-- With the slash the scan passes the directory over, and the watchers report what is in it. -/
theorem agree_iff_mount : Agree (excluding (bytes "/w/mnt")) (Sync.Converges.scannedAt 0) ∧
    ¬ Agree (excluding (bytes "/w/mnt/")) (Sync.Converges.scannedAt 0) := by
  have hclean : IsCleanAbs (bytes "/w") := by decide +kernel
  have hroot : bytes "/w" ≠ Mounts.root := by decide
  refine ⟨(agree_iff (W := excluding _) hclean hroot fun _ => rfl).mpr ⟨fun ex hex dir heq _ => ?_, fun ex hex habove => ?_⟩,
    fun h => ?_⟩
  · obtain rfl := List.mem_singleton.mp hex
    have hself : clean (bytes "/w/mnt") = bytes "/w/mnt" := by decide +kernel
    rw [← heq, hself]
    decide
  · obtain rfl := List.mem_singleton.mp hex
    exact absurd habove (by decide)
  · have hspelled := (agree_iff (W := excluding _) hclean hroot fun _ => rfl).mp h
    have hexcluded := hspelled.below _ (List.mem_singleton_self _) [mountName] (by decide +kernel) (.inr (by decide))
    exact absurd hexcluded (by decide)

end Tilbo.Watch.Policy
