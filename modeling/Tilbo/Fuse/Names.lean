import Tilbo.Lib.Paths
import Mathlib.Data.List.Nodup

/-! # The names in a tag directory

`tagCache.fill` gives each search result a name: the last element of its path, with a number before the
extension if several results share it. The number tells those apart from each other, but not from a result
whose last element happens to look like that. The names identify the results exactly if there is no such
result (`fill_identifies_iff`). -/

namespace Tilbo.Fuse.Names

open Tilbo.Lib.Paths

/-! ### The cache -/

/-- `tagCacheEntry`. -/
structure TagCacheEntry where
  name : String
  realPath : String
  ino : UInt64
deriving DecidableEq, Repr

/-- `tagCache`, without its expiry. -/
structure TagCache where
  entries : List TagCacheEntry := []
  byName : String → Option ℕ := fun _ => none

/-- The loop of `intStr`, which fills its buffer from the end. -/
def intDigits (n : ℕ) (buf : List Char) : List Char :=
  if n = 0 then buf else intDigits (n / 10) (Nat.digitChar (n % 10) :: buf)
decreasing_by omega

/-- `intStr`. -/
def intStr (n : ℕ) : String := if n = 0 then "0" else String.ofList (intDigits n [])

/-- The name of the result number `k` of those with this last element. -/
def numbered (b : String) (k : ℕ) : String := trimSuffix b (ext b) ++ "_" ++ intStr k ++ ext b

/-- `entryName`: the name, and `seen` with one more. -/
def entryName (realPath : String) (counts seen : String → ℕ) : String × (String → ℕ) :=
  let b := base realPath
  let seen := Function.update seen b (seen b + 1)
  (if counts b ≤ 1 then b else numbered b (seen b - 1), seen)

/-- What the second loop of `fill` carries: the cache so far, and `seenCount`. -/
structure FillState where
  cache : TagCache := {}
  seenCount : String → ℕ := fun _ => 0

/-- One result in the second loop of `fill`. -/
def fillOne (nameCounts : String → ℕ) (allocIno : String → UInt64) (st : FillState) (path : String) :
    FillState :=
  let n := entryName path nameCounts st.seenCount
  { cache := { entries := st.cache.entries ++ [⟨n.1, path, allocIno path⟩]
               byName := Function.update st.cache.byName n.1 (some st.cache.entries.length) }
    seenCount := n.2 }

/-- The first loop of `fill`. -/
def nameCounts (results : List String) : String → ℕ :=
  results.foldl (fun m path => Function.update m (base path) (m (base path) + 1)) fun _ => 0

/-- `tagCache.fill`, on the paths of the results. -/
def fill (results : List String) (allocIno : String → UInt64) : TagCache :=
  (results.foldl (fillOne (nameCounts results) allocIno) {}).cache

/-- The names `TagDir.Readdir` lists. -/
def readdir (c : TagCache) : List String := c.entries.map TagCacheEntry.name

/-- The real path `TagDir.Lookup` takes a name to. -/
def lookup (c : TagCache) (name : String) : Option String :=
  (c.byName name).bind fun idx => c.entries[idx]?.map TagCacheEntry.realPath

/-! ### The names -/

theorem intDigits_eq (n : ℕ) (h : n ≠ 0) (buf : List Char) : intDigits n buf = Nat.toDigits 10 n ++ buf := by
  induction n using Nat.strongRecOn generalizing buf with
  | ind n ih =>
    rw [intDigits, if_neg h, Nat.toDigits_eq_if (by decide)]
    split_ifs with hlt
    · have hdiv : n / 10 = 0 := Nat.div_eq_of_lt hlt
      rw [hdiv, intDigits, if_pos rfl, Nat.mod_eq_of_lt hlt]
      rfl
    · rw [ih (n / 10) (by omega) (by omega), List.append_assoc]
      rfl

@[simp] theorem toList_intStr (n : ℕ) : (intStr n).toList = Nat.toDigits 10 n := by
  unfold intStr
  split_ifs with h
  · rw [h]
    rfl
  · rw [String.toList_ofList, intDigits_eq n h, List.append_nil]

/-- Numbers tell apart results that share their last element, and results that do not. -/
theorem numbered_inj {path path' : String} {k k' : ℕ}
    (h : numbered (base path) k = numbered (base path') k') : base path = base path' ∧ k = k' := by
  have hlist := String.toList_inj.mpr h
  simp only [numbered, String.toList_append, toList_intStr, ext_base, List.append_assoc] at hlist
  have hpair : (base path).toList = (base path').toList ∧ k = k' :=
    insert_numeral_inj (stem_append_ext path) (stem_append_ext path') (by simpa using hlist)
  exact ⟨String.toList_inj.mp hpair.1, hpair.2⟩

/-- The number of results with each last element. -/
theorem nameCounts_eq (results : List String) (b : String) :
    nameCounts results b = (results.map base).count b := by
  have hfold : ∀ (l : List String) (m : String → ℕ),
      l.foldl (fun m path => Function.update m (base path) (m (base path) + 1)) m b =
        m b + (l.map base).count b := by
    intro l
    induction l with
    | nil => simp
    | cons path l ih =>
      intro m
      rw [List.foldl_cons, ih, List.map_cons, List.count_cons]
      by_cases h : b = base path
      · simp [h]
        omega
      · simp [Function.update_of_ne h, beq_eq_false_iff_ne.mpr (Ne.symm h)]
  rw [nameCounts, hfold, Nat.zero_add]

/-- Each last element, with the number of those before it that are the same. -/
def ranks (seen : String → ℕ) : List String → List (String × ℕ)
  | [] => []
  | b :: bs => (b, seen b) :: ranks (Function.update seen b (seen b + 1)) bs

theorem mem_ranks {b : String} {k : ℕ} : ∀ (bs : List String) (seen : String → ℕ),
    (b, k) ∈ ranks seen bs ↔ seen b ≤ k ∧ k < seen b + bs.count b
  | [], seen => by
    simp only [ranks, List.not_mem_nil, List.count_nil, false_iff]
    omega
  | c :: bs, seen => by
    rw [ranks, List.mem_cons, mem_ranks bs, List.count_cons, Prod.mk.injEq]
    by_cases h : b = c
    · subst h
      simp only [true_and, Function.update_self, beq_self_eq_true, if_true]
      omega
    · rw [Function.update_of_ne h, if_neg (by simpa using Ne.symm h)]
      simp [h]

theorem nodup_ranks : ∀ (bs : List String) (seen : String → ℕ), (ranks seen bs).Nodup
  | [], _ => List.nodup_nil
  | b :: bs, seen => by
    refine List.nodup_cons.mpr ⟨fun h => ?_, nodup_ranks bs _⟩
    have := (mem_ranks bs _).mp h
    rw [Function.update_self] at this
    omega

/-- The name of a result: `k` results before it share its last element `b`. -/
def nameOf (counts : String → ℕ) (bk : String × ℕ) : String :=
  if counts bk.1 ≤ 1 then bk.1 else numbered bk.1 bk.2

/-! ### The second loop -/

section Loop
variable {counts : String → ℕ} {allocIno : String → UInt64}

theorem foldl_fillOne (counts : String → ℕ) (allocIno : String → UInt64) : ∀ (paths : List String) (st : FillState),
    (paths.foldl (fillOne counts allocIno) st).cache.entries.map (fun e => (e.name, e.realPath)) =
      st.cache.entries.map (fun e => (e.name, e.realPath)) ++
        ((ranks st.seenCount (paths.map base)).map (nameOf counts)).zip paths
  | [], st => by simp [ranks]
  | path :: paths, st => by
    rw [List.foldl_cons, foldl_fillOne counts allocIno paths]
    simp [fillOne, entryName, ranks, nameOf]

/-- Each name is taken to an entry that has it, and each entry's name to some entry. -/
structure Indexed (c : TagCache) : Prop where
  sound : ∀ n i, c.byName n = some i → ∃ e, c.entries[i]? = some e ∧ e.name = n
  complete : ∀ e ∈ c.entries, c.byName e.name ≠ none

theorem Indexed.fillOne {st : FillState} (h : Indexed st.cache) (path : String) :
    Indexed (fillOne counts allocIno st path).cache := by
  refine ⟨fun n i hi => ?_, fun e he => ?_⟩
  · simp only [Names.fillOne, Function.update_apply] at hi ⊢
    split_ifs at hi with hn
    · cases hi
      exact ⟨_, List.getElem?_concat_length, hn.symm⟩
    · obtain ⟨e, he, hen⟩ := h.sound n i hi
      exact ⟨e, by rw [List.getElem?_append_left (List.getElem?_eq_some_iff.mp he).1, he], hen⟩
  · simp only [Names.fillOne, Function.update_apply] at he ⊢
    split_ifs with hn
    · simp
    · rcases List.mem_append.mp he with he | he
      · exact h.complete e he
      · rw [List.mem_singleton.mp he] at hn
        exact absurd rfl hn

theorem indexed_foldl (paths : List String) {st : FillState} (h : Indexed st.cache) :
    Indexed (paths.foldl (fillOne counts allocIno) st).cache := by
  induction paths generalizing st with
  | nil => exact h
  | cons path paths ih => exact ih (h.fillOne path)

end Loop

/-! ### When the names identify the results -/

/-- The listing identifies the results: no name twice, each listed name is taken to the entry it is listed
for, and each result is reached by exactly one of them. -/
structure Identifies (c : TagCache) (results : List String) : Prop where
  names : (readdir c).Nodup
  byName : ∀ i e, c.entries[i]? = some e → c.byName e.name = some i ∧ lookup c e.name = some e.realPath
  reached : ∀ path ∈ results, ∃! n, n ∈ readdir c ∧ lookup c n = some path

/-- No result with a last element of its own is called like a numbered one. -/
def Apart (results : List String) : Prop :=
  ∀ path ∈ results, ∀ path' ∈ results, ∀ k, (results.map base).count (base path) = 1 →
    1 < (results.map base).count (base path') → k < (results.map base).count (base path') →
    base path ≠ numbered (base path') k

variable {results : List String} {allocIno : String → UInt64}

theorem indexed_fill : Indexed (fill results allocIno) :=
  have hempty : Indexed ({} : FillState).cache :=
    ⟨fun _ _ h => by simp at h, fun _ h => absurd h List.not_mem_nil⟩
  indexed_foldl results hempty

theorem length_ranks : ∀ (bs : List String) (seen : String → ℕ), (ranks seen bs).length = bs.length
  | [], _ => rfl
  | b :: bs, seen => by rw [ranks, List.length_cons, List.length_cons, length_ranks bs]

/-- The listing: the names in the order of the results. -/
theorem entries_fill (results : List String) (allocIno : String → UInt64) :
    (fill results allocIno).entries.map (fun e => (e.name, e.realPath)) =
    ((ranks (fun _ => 0) (results.map base)).map (nameOf (nameCounts results))).zip results := by
  have h := foldl_fillOne (nameCounts results) allocIno results {}
  simpa [fill] using h

theorem readdir_fill : readdir (fill results allocIno) =
    (ranks (fun _ => 0) (results.map base)).map (nameOf (nameCounts results)) := by
  have h := congrArg (List.map Prod.fst) (entries_fill results allocIno)
  rw [List.map_map, List.map_fst_zip (by simp [length_ranks])] at h
  exact h

theorem realPaths_fill (results : List String) (allocIno : String → UInt64) :
    (fill results allocIno).entries.map TagCacheEntry.realPath = results := by
  have h := congrArg (List.map Prod.snd) (entries_fill results allocIno)
  rw [List.map_map, List.map_snd_zip (by simp [length_ranks])] at h
  exact h

/-- The names differ exactly if no last element is a numbered one of others. -/
theorem names_nodup_iff : (readdir (fill results allocIno)).Nodup ↔ Apart results := by
  rw [readdir_fill, List.nodup_map_iff_inj_on (nodup_ranks _ _)]
  have hmem : ∀ {b k}, (b, k) ∈ ranks (fun _ => 0) (results.map base) ↔ k < (results.map base).count b :=
    fun {b k} => by rw [mem_ranks]; omega
  have hbase : ∀ {b k}, k < (results.map base).count b → ∃ path ∈ results, base path = b := fun {b k} h =>
    List.mem_map.mp (List.count_pos_iff.mp (by omega))
  refine ⟨fun h path hpath path' hpath' k hone htwo hk heq => ?_, fun h => ?_⟩
  · have hinj := h (base path, 0) (hmem.mpr (by omega)) (base path', k) (hmem.mpr hk) (by
      rw [nameOf, nameOf, nameCounts_eq, nameCounts_eq, if_pos hone.le, if_neg (not_le.mpr htwo)]
      exact heq)
    have hb := congrArg Prod.fst hinj
    dsimp only at hb
    rw [← hb] at htwo
    omega
  · rintro ⟨b, k⟩ hbk ⟨b', k'⟩ hbk' heq
    rw [hmem] at hbk hbk'
    obtain ⟨path, hpath, rfl⟩ := hbase hbk
    obtain ⟨path', hpath', rfl⟩ := hbase hbk'
    rw [nameOf, nameOf, nameCounts_eq, nameCounts_eq] at heq
    dsimp only at heq
    split_ifs at heq with h₁ h₂ h₂
    · rw [← heq] at hbk'
      rw [heq, show k = k' by omega]
    · exact absurd heq (h path hpath path' hpath' k' (by omega) (by omega) hbk')
    · exact absurd heq.symm (h path' hpath' path hpath k (by omega) (by omega) hbk)
    · obtain ⟨hb, rfl⟩ := numbered_inj heq
      rw [hb]

theorem identifies_of_nodup (hresults : results.Nodup) (hnames : (readdir (fill results allocIno)).Nodup) :
    Identifies (fill results allocIno) results := by
  have hby : ∀ i e, (fill results allocIno).entries[i]? = some e →
      (fill results allocIno).byName e.name = some i ∧
        lookup (fill results allocIno) e.name = some e.realPath := by
    intro i e he
    obtain ⟨j, hj⟩ := Option.ne_none_iff_exists'.mp
      (indexed_fill.complete e (List.mem_of_getElem? he))
    obtain ⟨e', he', hname⟩ := indexed_fill.sound _ _ hj
    have hlisted : ∀ {m : ℕ} {a : TagCacheEntry}, (fill results allocIno).entries[m]? = some a →
        (readdir (fill results allocIno))[m]? = some a.name := fun h => by
      rw [readdir, List.getElem?_map, h, Option.map_some]
    obtain ⟨hlen, -⟩ := List.getElem?_eq_some_iff.mp (hlisted he')
    have hij : j = i := (List.getElem?_inj hlen hnames).mp (by rw [hlisted he', hlisted he, hname])
    subst hij
    refine ⟨hj, ?_⟩
    rw [lookup, hj, Option.bind_some, he]
    rfl
  refine ⟨hnames, hby, fun path hpath => ?_⟩
  have hone : ∀ e ∈ (fill results allocIno).entries,
      lookup (fill results allocIno) e.name = some e.realPath := fun e he => by
    obtain ⟨i, hi⟩ := List.getElem?_of_mem he
    exact (hby i e hi).2
  have hpaths : ((fill results allocIno).entries.map TagCacheEntry.realPath).Nodup := by
    rwa [realPaths_fill]
  obtain ⟨e, he, rfl⟩ := List.mem_map.mp ((realPaths_fill results allocIno).symm ▸ hpath)
  refine ⟨e.name, ⟨List.mem_map_of_mem he, hone e he⟩, ?_⟩
  rintro n ⟨hn, hlookup⟩
  obtain ⟨e', he', rfl⟩ := List.mem_map.mp hn
  rw [hone e' he', Option.some.injEq] at hlookup
  rw [List.inj_on_of_nodup_map hpaths he' he hlookup]

/-- **When the names of a tag directory identify its files.** For any results with different paths: exactly
if no result with a last element of its own is called like a numbered result. -/
theorem fill_identifies_iff (hresults : results.Nodup) :
    Identifies (fill results allocIno) results ↔ Apart results :=
  ⟨fun h => names_nodup_iff.mp h.names, fun h => identifies_of_nodup hresults (names_nodup_iff.mpr h)⟩

/-! ### A file called like a numbered one -/

/-- Three files; the first has the name the second gets. -/
def clashing : List String := ["/x/a_0.txt", "/y/a.txt", "/z/a.txt"]

theorem clashing_not_identified : ¬ Identifies (fill clashing fun _ => 1) clashing := by
  intro h
  have hnames : readdir (fill clashing fun _ => 1) = ["a_0.txt", "a_0.txt", "a_1.txt"] := by decide +kernel
  have hnodup := h.names
  rw [hnames] at hnodup
  simp at hnodup

theorem fill_identifies_iff_clashing : Identifies (fill clashing fun _ => 1) clashing ↔ Apart clashing :=
  fill_identifies_iff (by decide)

end Tilbo.Fuse.Names
