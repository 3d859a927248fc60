import Tilbo.Fuse.Grammar
import Tilbo.Index.SearchTags

/-! # Directories of recent files

The directory `@recent:30d` has the files modified in the last 30 days. The number is any positive `int`, and the span
of time a product of 64-bit integers in nanoseconds, which wraps around; the search takes a bound that is not positive
for none. `shows_iff` says when the directory has the files that its name says. -/

namespace Tilbo.Fuse.Recent

open Tilbo.Index Tilbo.Index.Schema Tilbo.Index.Search Tilbo.Index.SearchTags Tilbo.Fuse.Grammar Tilbo.Harvester.Meta

/-- The hours of a unit. -/
def hoursOf (unit : Char) : Option ℤ :=
  if unit = 'h' then some 1 else if unit = 'd' then some 24 else if unit = 'w' then some (7 * 24) else none

/-- The name is `@recent:` with a positive number and a unit, so many hours in all. -/
def Asks (name : String) (hours : ℤ) : Prop := ∃ num unit n k, name.toList = "@recent:".toList ++ (num.toList ++ [unit]) ∧
  parseInt num = some n ∧ 0 < n ∧ hoursOf unit = some k ∧ hours = n * k

/-- `Expr.ToSearchParams` for `exprRecent`. -/
def recentQuery (since : ℤ) (limit : ℕ) : TagQuery where
  mtimeSince := since / 1000000000
  limit := if limit = 0 then 10000 else limit
  sortBy := ["mtime:desc"]

/-- The second in which a span of nanoseconds has begun that ends now. -/
def cutOff (clock : Clock) (span : ℤ) : ℤ := (clock.now - span) / 1000000000

variable {R : Type} [LinearOrder R] [Zero R] {q : Sqlite R} {db : DB} {isPrint : Char → Bool} {clock : Clock}
  {name : String} {limit : ℕ} {hours since : ℤ}

/-- The directory has the indexed files from the last hours on, before the limit, and does not look ahead. -/
def Shows (q : Sqlite R) (db : DB) (isPrint : Char → Bool) (clock : Clock) (name : String) (limit : ℕ) (hours : ℤ) :
    Prop :=
  ∃ since, parseExpr isPrint clock name = .ok (.recent since) ∧ since ≤ clock.now ∧
    (rows q db.toTables (recentQuery since limit).params).map (·.file) =
      db.files.filter (clock.now / 1000000000 - 3600 * hours ≤ ·.mtime)

/-! ### What is parsed -/

/-- The unit is of ASCII, so the number is what stands before it. -/
theorem parseRelativeDur_concat {num : List Char} {unit : Char} {k n : ℤ} (hunit : hoursOf unit = some k)
    (hnum : parseInt (String.ofList num) = some n) (hpos : 0 < n) :
    parseRelativeDur (num ++ [unit]) = .ok (int64 (n * k * hour)) := by
  have hle : ¬ n ≤ 0 := by omega
  unfold hoursOf at hunit
  split_ifs at hunit with hh hd hw
  all_goals
    obtain rfl := Option.some.inj hunit
    subst unit
    simp [parseRelativeDur, hnum, hle, hour]
    try ring_nf

/-- What is accepted as a span of time. -/
theorem parseRelativeDur_ok {s : List Char} {dur : ℤ} (h : parseRelativeDur s = .ok dur) :
    ∃ num unit n k, s = String.toList num ++ [unit] ∧ parseInt num = some n ∧ 0 < n ∧ hoursOf unit = some k := by
  rcases List.eq_nil_or_concat s with rfl | ⟨front, unit, rfl⟩
  · cases h
  · rw [List.concat_eq_append] at h ⊢
    unfold parseRelativeDur at h
    simp only [List.getLast?_concat, List.dropLast_concat] at h
    split at h
    · cases h
    · rename_i n hn
      have hnum : parseInt (String.ofList front) = some n := by
        split_ifs at hn
        exact hn
      have hunit : 0 < n ∧ (hoursOf unit).isSome := by
        unfold hoursOf
        split_ifs at h ⊢ <;> exact ⟨by omega, rfl⟩
      obtain ⟨k, hk⟩ := Option.isSome_iff_exists.mp hunit.2
      exact ⟨String.ofList front, unit, n, k, by rw [String.toList_ofList], hnum, hunit.1, hk⟩

/-- **What is accepted** after `@recent:` are numbers with a unit. -/
theorem asks_of_parse {e : Expr} (hpre : "@recent:".toList <+: name.toList)
    (h : parseExpr isPrint clock name = .ok e) : ∃ hours, Asks name hours := by
  obtain ⟨rest, hname⟩ := hpre
  have hafter : afterPrefix "@recent:" name.toList = some rest := by
    rw [← hname]
    simp [afterPrefix]
  have hhead : name.toList.head? = some '@' := by
    rw [← hname]
    rfl
  have hlong : name.toList ≠ "@recent".toList := fun heq => by
    have hlen := congrArg List.length (hname.trans heq)
    rw [List.length_append] at hlen
    change 8 + rest.length = 7 at hlen
    omega
  rw [parseExpr, if_pos hhead, parseSpecial, if_neg hlong] at h
  simp only [hafter] at h
  split at h
  · cases h
  · rename_i dur hdur
    obtain ⟨num, unit, n, k, hrest, hnum, hpos, hunit⟩ := parseRelativeDur_ok hdur
    exact ⟨n * k, num, unit, n, k, by rw [← hname, hrest], hnum, hpos, hunit, rfl⟩

/-- What is parsed: the span is wrapped around, and so is its negation. -/
theorem parse_of_asks (h : Asks name hours) :
    parseExpr isPrint clock name = .ok (.recent (clock.now + int64 (-(hours * hour)))) := by
  obtain ⟨num, unit, n, k, hname, hnum, hpos, hunit, rfl⟩ := h
  have hafter : afterPrefix "@recent:" name.toList = some (num.toList ++ [unit]) := by
    rw [hname]
    simp [afterPrefix]
  have hhead : name.toList.head? = some '@' := by
    rw [hname]
    rfl
  have hlong : name.toList ≠ "@recent".toList := fun heq => by
    have hlen := congrArg List.length (hname.symm.trans heq)
    rw [List.length_append] at hlen
    change 8 + (num.toList ++ [unit]).length = 7 at hlen
    omega
  have hnum' : parseInt (String.ofList num.toList) = some n := by rwa [String.ofList_toList]
  have hdur := parseRelativeDur_concat hunit hnum' hpos
  rw [parseExpr, if_pos hhead, parseSpecial, if_neg hlong]
  simp only [hafter, hdur, int64, Int.bmod_neg_bmod]

/-! ### What is selected -/

/-- A span that does not wrap around. -/
theorem int64_neg {span : ℤ} (hpos : 0 < span) (h : span ≤ 2 ^ 63) : int64 (-span) = -span :=
  Int.bmod_eq_of_le (by omega) (by omega)

/-- What the search selects. -/
theorem rows_recent : (rows q db.toTables (recentQuery since limit).params).map (·.file) =
    db.files.filter fun f => since / 1000000000 ≤ 0 ∨ since / 1000000000 ≤ f.mtime := by
  rw [rows_files rfl]
  refine List.filter_congr fun f _ => ?_
  rw [wanted_eq]
  have hinclude : tagInclude db.toTables (recentQuery since limit).params f = true := rfl
  have hexclude : tagExclude db.toTables (recentQuery since limit).params f = true := rfl
  have huntagged : untagged db.toTables (recentQuery since limit).params f = true := rfl
  rw [hinclude, hexclude, huntagged, Bool.true_and, Bool.true_and, Bool.and_true]
  unfold mtimeSince
  show (if since / 1000000000 > 0 then decide (since / 1000000000 ≤ f.mtime) else true) = _
  split_ifs with hpos
  · have hno : ¬ since / 1000000000 ≤ 0 := by omega
    simp [hno]
  · have hyes : since / 1000000000 ≤ 0 := by omega
    simp [hyes]

/-- Filters that keep the same are the same on the list. -/
theorem filter_eq_iff {α : Type} {p p' : α → Bool} {l : List α} :
    l.filter p = l.filter p' ↔ ∀ a ∈ l, p a = true ↔ p' a = true := by
  constructor
  · intro h a ha
    have hmem : a ∈ l.filter p ↔ a ∈ l.filter p' := by rw [h]
    simpa [ha] using hmem
  · exact fun h => List.filter_congr fun a ha => Bool.eq_iff_iff.mpr (h a ha)

/-- Whole hours are whole seconds. -/
theorem cutOff_hours : cutOff clock (hours * hour) = clock.now / 1000000000 - 3600 * hours := by
  unfold cutOff hour
  omega

/-- The directory has what it says, in terms of the two bounds. -/
theorem shows_iff_sides (h : Asks name hours) : Shows q db isPrint clock name limit hours ↔
    int64 (-(hours * hour)) ≤ 0 ∧ ∀ f ∈ db.files, (clock.now + int64 (-(hours * hour))) / 1000000000 ≤ 0 ∨
      (clock.now + int64 (-(hours * hour))) / 1000000000 ≤ f.mtime ↔ cutOff clock (hours * hour) ≤ f.mtime := by
  have hparse : parseExpr isPrint clock name = _ := parse_of_asks h
  have hshift : clock.now + int64 (-(hours * hour)) ≤ clock.now ↔ int64 (-(hours * hour)) ≤ 0 := by omega
  unfold Shows
  rw [cutOff_hours, ← hshift]
  constructor
  · rintro ⟨since, hsince, hpast, hrows⟩
    obtain rfl := Expr.recent.inj (Except.ok.inj (hparse.symm.trans hsince))
    rw [rows_recent, filter_eq_iff] at hrows
    exact ⟨hpast, by simpa using hrows⟩
  · rintro ⟨hpast, hsides⟩
    refine ⟨_, hparse, hpast, ?_⟩
    rw [rows_recent, filter_eq_iff]
    simpa using hsides

/-- The span fits into 64 bits, and either the bound is later than the epoch or no file is older than the bound; or the
span wraps around to one that is not negative, and each file is on the same side of both bounds. -/
def Served (db : DB) (clock : Clock) (span : ℤ) : Prop :=
  if span ≤ 2 ^ 63 then 0 < cutOff clock span ∨ ∀ f ∈ db.files, cutOff clock span ≤ f.mtime
  else int64 (-span) ≤ 0 ∧ ∀ f ∈ db.files, cutOff clock span ≤ f.mtime ↔
    (clock.now + int64 (-span)) / 1000000000 ≤ 0 ∨ (clock.now + int64 (-span)) / 1000000000 ≤ f.mtime

/-- **A directory of recent files** shows what its name says if and only if the span does not wrap around and the bound
is a proper one, unless that makes no difference to the files that there are. -/
theorem shows_iff (q : Sqlite R) (db : DB) (isPrint : Char → Bool) (clock : Clock) (limit : ℕ) (h : Asks name hours) :
    Shows q db isPrint clock name limit hours ↔ Served db clock (hours * hour) := by
  have hpos : 0 < hours * hour := by
    obtain ⟨-, unit, n, k, -, -, hn, hunit, rfl⟩ := h
    have hk : 0 < k := by
      unfold hoursOf at hunit
      split_ifs at hunit
      all_goals
        obtain rfl := Option.some.inj hunit
        decide
    exact mul_pos (mul_pos hn hk) (by decide)
  rw [shows_iff_sides h, Served]
  split_ifs with hfits
  · rw [int64_neg hpos hfits]
    have hsame : (clock.now + -(hours * hour)) / 1000000000 = cutOff clock (hours * hour) := by
      rw [cutOff, Int.sub_eq_add_neg]
    rw [hsame]
    constructor
    · rintro ⟨-, hsides⟩
      by_cases hcut : 0 < cutOff clock (hours * hour)
      · exact Or.inl hcut
      · exact Or.inr fun f hf => (hsides f hf).mp (Or.inl (by omega))
    · rintro hcase
      refine ⟨by omega, fun f hf => ⟨fun hside => ?_, Or.inr⟩⟩
      rcases hcase with hcut | hall
      · exact hside.resolve_left (by omega)
      · exact hall f hf
  · exact and_congr_right fun _ => forall₂_congr fun f _ => Iff.comm

/-! ### Three hundred years -/

/-- One file, modified on 14 November 2023. -/
def oneFile : DB :=
  ⟨Statements.upsertFile DB.empty.toTables "/a" 1 1 1700000000 1 0, Statements.Valid.upsertFile DB.empty.valid _ _ _ _ _⟩

/-- A day later. -/
def dayLater : Clock where
  now := 1700086400000000000
  weekAgo := 1699481600000000000

theorem asks_days : Asks "@recent:106752d" (106752 * 24) ∧ Asks "@recent:30d" (30 * 24) :=
  ⟨⟨"106752", 'd', 106752, 24, by decide, by decide, by decide, by decide, rfl⟩,
    ⟨"30", 'd', 30, 24, by decide, by decide, by decide, by decide, rfl⟩⟩

theorem ahead_of_now : Asks "@recent:106752d" (106752 * 24) ∧
    ¬ Shows Sqlite.plain oneFile (fun _ => true) dayLater "@recent:106752d" 0 (106752 * 24) := by
  refine ⟨asks_days.1, fun h => ?_⟩
  have hshift := ((shows_iff_sides asks_days.1).mp h).1
  exact absurd hshift (by decide)

theorem shows_iff_month : Shows Sqlite.plain oneFile (fun _ => true) dayLater "@recent:30d" 0 (30 * 24) :=
  (shows_iff Sqlite.plain oneFile (fun _ => true) dayLater 0 asks_days.2).mpr (by
    rw [Served, if_pos (by decide)]
    exact Or.inl (by decide))

end Tilbo.Fuse.Recent
