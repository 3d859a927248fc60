import Tilbo.Rules.Stored
import Tilbo.Trash.TrashInfo
import Tilbo.Xattr.Csv

/-! # The metadata of an electronic book

`parseOPF` takes the author and the date of a book from the creators and the dates of its package, in one pass over
each. An author with the role of one ends the pass, and so does a date of publication; but a date without an event
takes the place of one before it, and the first instant of the year 1 is taken for a failure. `selects_iff` says when
the choice is the one that was meant. Texts are what `xml.Unmarshal` has made of the package. -/

namespace Tilbo.Harvester.Epub

open Tilbo.Harvester.Meta Tilbo.Lib.Calendar Tilbo.Trash.TrashInfo
open Tilbo.Lib.Lines (Bytes bytes)
open Tilbo.Xattr.Csv (trimSpace)

/-! ### Texts -/

/-- `strings.TrimSpace`. -/
def trim (s : String) : String := String.ofList (trimSpace s.toList)

/-- `strings.ToLower`, for what is compared with ASCII: two characters outside of it have a small letter in it. -/
def toLower (s : String) : String :=
  String.ofList (s.toList.map fun c => if c = '\u0130' then 'i' else if c = '\u212a' then 'k' else c.toLower)

/-- `strings.ToUpper`, for what is compared with ASCII: two characters outside of it have a capital in it. -/
def toUpper (s : String) : String :=
  String.ofList (s.toList.map fun c => if c = '\u0131' then 'I' else if c = '\u017f' then 'S' else c.toUpper)

/-- `s[n:]`. -/
def dropBytes : ℕ → List Char → List Char
  | 0, s => s
  | _, [] => []
  | n, c :: s => dropBytes (n - c.utf8Size) s

/-! ### Times -/

/-- `time.Time`: the second, counted from 1970, and the nanosecond in it. -/
structure Time where
  unix : ℤ
  nsec : ℕ
deriving DecidableEq, Repr

/-- `time.Time{}`: the first instant of the year 1. -/
def Time.zero : Time := ⟨-62135596800, 0⟩

/-- A fraction of a second, which may be there without being in the layout; digits behind the ninth are not used. -/
def getFraction : Bytes → ℕ × Bytes
  | a :: b :: rest =>
    if (a = 0x2e ∨ a = 0x2c) ∧ isDigit b then
      let ds := b :: rest.takeWhile isDigit
      (value (ds.take 9) * 10 ^ (9 - ds.length), rest.dropWhile isDigit)
    else (0, a :: b :: rest)
  | rest => (0, rest)

/-- `Z07:00`: how many seconds the zone is ahead of Greenwich. -/
def getZone : Bytes → Option (ℤ × Bytes)
  | 0x5a :: rest => some (0, rest)
  | sign :: a :: b :: colon :: c :: d :: rest => do
    let (hr, _) ← getnum true [a, b]
    let (mm, _) ← getnum true [c, d]
    let offset : ℤ := (hr * 60 + mm) * 60
    if colon ≠ 0x3a ∨ 24 < hr ∨ 60 < mm then none
    else if sign = 0x2b then some (offset, rest)
    else if sign = 0x2d then some (-offset, rest)
    else none
  | _ => none

/-- `time.Parse(time.RFC3339, s)`. -/
def parseRFC3339 (s : Bytes) : Option Time := do
  let (year, s) ← getyear s
  let (month, s) ← getnum true (← skip 0x2d s)
  let (day, s) ← getnum true (← skip 0x2d s)
  let (hour, s) ← getnum false (← skip 0x54 s)
  let (minute, s) ← getnum true (← skip 0x3a s)
  let (second, s) ← getnum true (← skip 0x3a s)
  let (nsec, s) := getFraction s
  let (offset, s) ← getZone s
  let t : DateTime := ⟨⟨year, month, day⟩, hour, minute, second⟩
  if s = [] ∧ t.Valid then some ⟨t.seconds - offset, nsec⟩ else none

/-- Midnight of a date, if nothing is left behind it and there is such a date. -/
def midnight (date : Date) (s : Bytes) : Option Time :=
  if s = [] ∧ date.Valid then some ⟨86400 * date.days, 0⟩ else none

/-- `time.Parse("2006-01-02", s)`. -/
def parseDay (s : Bytes) : Option Time := do
  let (year, s) ← getyear s
  let (month, s) ← getnum true (← skip 0x2d s)
  let (day, s) ← getnum true (← skip 0x2d s)
  midnight ⟨year, month, day⟩ s

/-- `time.Parse("2006-01", s)`. -/
def parseMonth (s : Bytes) : Option Time := do
  let (year, s) ← getyear s
  let (month, s) ← getnum true (← skip 0x2d s)
  midnight ⟨year, month, 1⟩ s

/-- `time.Parse("2006", s)`. -/
def parseYear (s : Bytes) : Option Time := do
  let (year, s) ← getyear s
  midnight ⟨year, 1, 1⟩ s

/-- The layouts, in the order in which they are tried. -/
def layouts : List (Bytes → Option Time) := [parseRFC3339, parseDay, parseMonth, parseYear]

/-- What the first layout that fits makes of a text. -/
def parse (s : String) : Option Time := layouts.findSome? fun layout => layout (bytes s)

/-- `parseEPUBDate`. -/
def parseEPUBDate (s : String) : Time := (parse s).getD Time.zero

/-! ### The package -/

/-- `opfCreator`. -/
structure OpfCreator where
  value : String
  role : String

/-- `opfIdentifier`. -/
structure OpfIdentifier where
  value : String
  scheme : String

/-- `opfDate`. -/
structure OpfDate where
  value : String
  event : String

/-- `opfMeta`. -/
structure OpfMeta where
  property : String
  value : String

/-- `opfMetadata`. -/
structure OpfMetadata where
  titles : List String := []
  creators : List OpfCreator := []
  publishers : List String := []
  languages : List String := []
  subjects : List String := []
  descriptions : List String := []
  identifiers : List OpfIdentifier := []
  dates : List OpfDate := []
  metas : List OpfMeta := []

variable {F : Type}

/-- Set a text, unless it is empty. -/
def setText (key text : String) (m : MetaMap F) : MetaMap F := if text = "" then m else m.set key (.text text)

/-- Set the first text of a list. -/
def setFirst (key : String) (texts : List String) (m : MetaMap F) : MetaMap F :=
  match texts with
  | [] => m
  | text :: _ => setText key (trim text) m

/-- The role is that of an author. -/
def OpfCreator.IsAuthor (c : OpfCreator) : Prop := toLower c.role = "aut" ∨ toLower c.role = "author"

instance (c : OpfCreator) : Decidable c.IsAuthor := inferInstanceAs (Decidable (_ ∨ _))

/-- The loop over the creators. -/
def authorLoop (author : String) : List OpfCreator → String
  | [] => author
  | c :: creators =>
    let v := trim c.value
    if v = "" then authorLoop author creators
    else if author = "" ∨ c.IsAuthor then if c.IsAuthor then v else authorLoop v creators
    else authorLoop author creators

/-- The loop over the identifiers. -/
def setISBN (m : MetaMap F) : List OpfIdentifier → MetaMap F
  | [] => m
  | id :: identifiers =>
    let v := trim id.value
    if v = "" then setISBN m identifiers
    else if toUpper id.scheme = "ISBN" then m.set "book_isbn" (.text v)
    else if "urn:isbn:".toList <+: (toLower v).toList then
      m.set "book_isbn" (.text (String.ofList (dropBytes 9 v.toList)))
    else setISBN m identifiers

/-- The loop over the dates. -/
def setDate (P : Platform F) (m : MetaMap F) : List OpfDate → MetaMap F
  | [] => m
  | d :: dates =>
    let v := trim d.value
    if v = "" then setDate P m dates
    else
      let ev := toLower d.event
      let t := parseEPUBDate v
      if (ev = "" ∨ ev = "publication") ∧ t ≠ Time.zero then
        let m := m.set "book_date" (.number (P.ofInt t.unix))
        if ev = "publication" then m else setDate P m dates
      else setDate P m dates

/-- The loop over the `meta` elements. -/
def setSeries (m : MetaMap F) (metas : List OpfMeta) : MetaMap F :=
  metas.foldl (fun m e => if e.property = "belongs-to-collection" then setText "book_series" (trim e.value) m else m) m

/-- `parseOPF`, of what `xml.Unmarshal` returns. -/
def parseOPF (P : Platform F) (pkg : Except String OpfMetadata) : Except String (MetaMap F) :=
  pkg.map fun md =>
    let m : MetaMap F := setFirst "book_title" md.titles fun _ => none
    let m := setText "book_author" (authorLoop "" md.creators) m
    let m := setFirst "book_publisher" md.publishers m
    let m := setFirst "book_language" md.languages m
    let m := setFirst "book_description" md.descriptions m
    let m := setText "book_subject" (String.intercalate "; " ((md.subjects.map trim).filter (· ≠ ""))) m
    let m := setISBN m md.identifiers
    let m := setDate P m md.dates
    setSeries m md.metas

/-! ### What is to be chosen -/

/-- The first author that is named, else the first creator that is. -/
def author (creators : List OpfCreator) : Option String :=
  let named := creators.filter (trim ·.value ≠ "")
  ((named.find? (·.IsAuthor)).or named.head?).map (trim ·.value)

/-- The instants of the dates of an event, as far as they can be parsed. -/
def times (event : String) (dates : List OpfDate) : List Time :=
  (dates.filter (toLower ·.event = event)).filterMap fun d => parse (trim d.value)

/-- The first date of publication, else the first date without an event. -/
def date (dates : List OpfDate) : Option Time := (times "publication" dates).head?.or (times "" dates).head?

/-- Author and date are those. -/
def Selects (P : Platform F) (md : OpfMetadata) : Prop :=
  ∃ m, parseOPF P (.ok md) = .ok m ∧
    m "book_author" = (author md.creators).map .text ∧
    m "book_date" = (date md.dates).map fun t => .number (P.ofInt t.unix)

/-- The first date of publication is not the first instant of the year 1, or what is found in its place has the same
number; and if there is none, then so has the last of the other dates as the first. -/
def Unambiguous (P : Platform F) (pubs others : List Time) : Prop :=
  match pubs, others with
  | pub :: pubs, others =>
    pub ≠ Time.zero ∨ ∃ t ∈ (pubs ++ others.reverse).find? (· ≠ Time.zero), P.ofInt t.unix = P.ofInt pub.unix
  | [], first :: others =>
    ∃ t ∈ (first :: others).reverse.find? (· ≠ Time.zero), P.ofInt t.unix = P.ofInt first.unix
  | [], [] => True

/-! ### Creators -/

variable {P : Platform F} {m : MetaMap F} {creators : List OpfCreator} {dates : List OpfDate} {key text : String}

/-- Once there is a name, only an author takes its place. -/
theorem authorLoop_of_ne (h : text ≠ "") : authorLoop text creators =
    (((creators.filter (trim ·.value ≠ "")).find? (·.IsAuthor)).map (trim ·.value)).getD text := by
  induction creators with
  | nil => rfl
  | cons c creators ih =>
    unfold authorLoop
    by_cases hv : trim c.value = ""
    · simp [hv, ih]
    · by_cases hauthor : c.IsAuthor
      · simp [hv, hauthor]
      · simp [hv, hauthor, h, ih]

/-- The loop finds the author, and nothing if there is no name. -/
theorem authorLoop_eq (creators : List OpfCreator) : authorLoop "" creators = (author creators).getD "" := by
  induction creators with
  | nil => rfl
  | cons c creators ih =>
    unfold authorLoop
    by_cases hv : trim c.value = ""
    · rw [if_pos hv, ih]
      simp [author, hv]
    · rw [if_neg hv, if_pos (Or.inl rfl)]
      by_cases hauthor : c.IsAuthor
      · simp [author, hv, hauthor]
      · rw [if_neg hauthor, authorLoop_of_ne hv]
        have hnamed : (c :: creators).filter (trim ·.value ≠ "") = c :: creators.filter (trim ·.value ≠ "") :=
          List.filter_cons_of_pos (decide_eq_true hv)
        rw [author, hnamed, List.find?_cons_of_neg (by simpa using hauthor), List.head?_cons]
        generalize (creators.filter (trim ·.value ≠ "")).find? (·.IsAuthor) = found
        rcases found with _ | found
        · rfl
        · rfl

/-- An author has a name. -/
theorem author_ne (h : author creators = some text) : text ≠ "" := by
  obtain ⟨c, hc, rfl⟩ := Option.map_eq_some_iff.mp h
  have hmem : c ∈ creators.filter (trim ·.value ≠ "") := by
    rcases Option.or_eq_some_iff.mp hc with hfind | ⟨-, hhead⟩
    · exact List.mem_of_find?_eq_some hfind
    · exact List.mem_of_head? hhead
  exact of_decide_eq_true (List.mem_filter.mp hmem).2

/-! ### Dates -/

variable {d : OpfDate} {t : Time} {event : String}

theorem times_cons_of_ne (h : toLower d.event ≠ event) : times event (d :: dates) = times event dates := by
  simp only [times, List.filter_cons, h, decide_false, Bool.false_eq_true, if_false]

theorem times_cons_of_eq (h : toLower d.event = event) :
    times event (d :: dates) = (parse (trim d.value)).toList ++ times event dates := by
  simp only [times, List.filter_cons, h, decide_true, if_true, List.filterMap_cons]
  rcases parse (trim d.value) with _ | t
  · rfl
  · rfl

/-- What is parsed and not taken for a failure. -/
def usable (d : OpfDate) : Option Time := (parse (trim d.value)).filter (· ≠ Time.zero)

/-- The first date of publication, else the last of the others. -/
def taken (dates : List OpfDate) : Option Time :=
  (times "publication" dates ++ (times "" dates).reverse).find? (· ≠ Time.zero)

theorem find?_toList_parse (d : OpfDate) : (parse (trim d.value)).toList.find? (· ≠ Time.zero) = usable d := by
  unfold usable
  rcases parse (trim d.value) with _ | t
  · rfl
  · by_cases ht : t = Time.zero
    · simp [ht, Option.filter_some]
    · simp [ht, Option.filter_some]

theorem taken_cons_publication (h : toLower d.event = "publication") :
    taken (d :: dates) = (usable d).or (taken dates) := by
  have hne : toLower d.event ≠ "" := by rw [h]; decide
  rw [taken, times_cons_of_eq h, times_cons_of_ne hne, List.append_assoc, List.find?_append, find?_toList_parse, taken]

theorem taken_cons_other (h : toLower d.event = "") : taken (d :: dates) = (taken dates).or (usable d) := by
  have hne : toLower d.event ≠ "publication" := by rw [h]; decide
  have hreverse : (parse (trim d.value)).toList.reverse = (parse (trim d.value)).toList := by
    rcases parse (trim d.value) with _ | t
    · rfl
    · rfl
  rw [taken, times_cons_of_eq h, times_cons_of_ne hne, List.reverse_append, hreverse, ← List.append_assoc,
    List.find?_append, find?_toList_parse, taken]

theorem taken_cons_of_ne (h : toLower d.event ≠ "" ∧ toLower d.event ≠ "publication") :
    taken (d :: dates) = taken dates := by
  rw [taken, times_cons_of_ne h.1, times_cons_of_ne h.2, taken]

/-- One that is not usable is left out. -/
theorem setDate_cons_of_none (h : usable d = none) : setDate P m (d :: dates) = setDate P m dates := by
  have hzero : parseEPUBDate (trim d.value) = Time.zero := by
    unfold parseEPUBDate
    rcases hparse : parse (trim d.value) with _ | t
    · rfl
    · simpa [usable, hparse] using h
  simp [setDate, hzero]

theorem setDate_cons_of_some (h : usable d = some t) : setDate P m (d :: dates) =
    if toLower d.event = "publication" then m.set "book_date" (.number (P.ofInt t.unix))
    else if toLower d.event = "" then setDate P (m.set "book_date" (.number (P.ofInt t.unix))) dates
    else setDate P m dates := by
  obtain ⟨hparse, hzero⟩ := Option.filter_eq_some_iff.mp h
  have hzero' : t ≠ Time.zero := by simpa using hzero
  have hv : trim d.value ≠ "" := by
    intro hv
    have hempty : parse "" = none := by decide
    rw [hv, hempty] at hparse
    cases hparse
  have ht : parseEPUBDate (trim d.value) = t := by rw [parseEPUBDate, hparse, Option.getD_some]
  by_cases hpub : toLower d.event = "publication"
  · simp [setDate, hv, ht, hzero', hpub]
  · by_cases hother : toLower d.event = ""
    · simp [setDate, hv, ht, hzero', hother]
    · simp [setDate, hv, hpub, hother]

/-- **What the loop sets.** -/
theorem setDate_eq (P : Platform F) (m : MetaMap F) (dates : List OpfDate) : setDate P m dates "book_date" =
    ((taken dates).map fun t => .number (P.ofInt t.unix)).or (m "book_date") := by
  have hset : ∀ v, m.set "book_date" v "book_date" = some v := fun v => if_pos rfl
  induction dates generalizing m with
  | nil => rfl
  | cons d dates ih =>
    rcases husable : usable d with _ | t
    · have htaken : taken (d :: dates) = taken dates := by
        by_cases hpub : toLower d.event = "publication"
        · rw [taken_cons_publication hpub, husable, Option.none_or]
        · by_cases hother : toLower d.event = ""
          · rw [taken_cons_other hother, husable, Option.or_none]
          · exact taken_cons_of_ne ⟨hother, hpub⟩
      rw [setDate_cons_of_none husable, ih m hset, htaken]
    · rw [setDate_cons_of_some husable]
      by_cases hpub : toLower d.event = "publication"
      · rw [if_pos hpub, taken_cons_publication hpub, husable, hset]
        rfl
      · rw [if_neg hpub]
        by_cases hother : toLower d.event = ""
        · rw [if_pos hother, ih _ fun v => if_pos rfl, hset, taken_cons_other hother, husable]
          rcases taken dates with _ | u
          · rfl
          · rfl
        · rw [if_neg hother, ih m hset, taken_cons_of_ne ⟨hother, hpub⟩]

/-! ### The other fields -/

theorem set_of_ne {k : String} {v : MetaValue F} (h : key ≠ k) : m.set k v key = m key := if_neg h

theorem setText_of_ne {k : String} (h : key ≠ k) : setText k text m key = m key := by
  unfold setText
  split_ifs
  · rfl
  · exact set_of_ne h

theorem setText_self (hm : m key = none) : setText key text m key = if text = "" then none else some (.text text) := by
  unfold setText
  split_ifs
  · exact hm
  · exact if_pos rfl

theorem setFirst_of_ne {k : String} {texts : List String} (h : key ≠ k) : setFirst k texts m key = m key := by
  rcases texts with _ | ⟨first, texts⟩
  · rfl
  · exact setText_of_ne h

theorem setISBN_of_ne {identifiers : List OpfIdentifier} (h : key ≠ "book_isbn") : setISBN m identifiers key = m key := by
  induction identifiers with
  | nil => rfl
  | cons id identifiers ih =>
    unfold setISBN
    dsimp only
    split_ifs
    · exact ih
    · exact set_of_ne h
    · exact set_of_ne h
    · exact ih

theorem setDate_of_ne (h : key ≠ "book_date") : setDate P m dates key = m key := by
  induction dates generalizing m with
  | nil => rfl
  | cons d dates ih =>
    unfold setDate
    dsimp only
    split_ifs
    · exact ih
    · exact set_of_ne h
    · rw [ih, set_of_ne h]
    · exact ih

theorem setSeries_of_ne {metas : List OpfMeta} (h : key ≠ "book_series") : setSeries m metas key = m key := by
  unfold setSeries
  induction metas generalizing m with
  | nil => rfl
  | cons e metas ih =>
    rw [List.foldl_cons, ih]
    split_ifs
    · exact setText_of_ne h
    · rfl

/-! ### The choice -/

/-- Author and date of what is returned. -/
theorem parseOPF_ok (P : Platform F) (md : OpfMetadata) : ∃ m, parseOPF P (.ok md) = .ok m ∧
    m "book_author" = (author md.creators).map .text ∧
    m "book_date" = (taken md.dates).map fun t => .number (P.ofInt t.unix) := by
  refine ⟨_, rfl, ?_, ?_⟩
  · have hkey : ∀ k ∈ ["book_title", "book_publisher", "book_language", "book_description", "book_subject", "book_isbn",
        "book_date", "book_series"], "book_author" ≠ k := by decide
    dsimp only
    rw [setSeries_of_ne (hkey _ (by simp)), setDate_of_ne (hkey _ (by simp)), setISBN_of_ne (hkey _ (by simp)),
      setText_of_ne (hkey _ (by simp)), setFirst_of_ne (hkey _ (by simp)), setFirst_of_ne (hkey _ (by simp)),
      setFirst_of_ne (hkey _ (by simp)), setText_self (setFirst_of_ne (hkey _ (by simp))), authorLoop_eq]
    rcases hauthor : author md.creators with _ | text
    · exact if_pos rfl
    · exact if_neg (author_ne hauthor)
  · have hkey : ∀ k ∈ ["book_title", "book_author", "book_publisher", "book_language", "book_description",
        "book_subject", "book_isbn", "book_series"], "book_date" ≠ k := by decide
    dsimp only
    rw [setSeries_of_ne (hkey _ (by simp)), setDate_eq, setISBN_of_ne (hkey _ (by simp)),
      setText_of_ne (hkey _ (by simp)), setFirst_of_ne (hkey _ (by simp)), setFirst_of_ne (hkey _ (by simp)),
      setFirst_of_ne (hkey _ (by simp)), setText_of_ne (hkey _ (by simp)), setFirst_of_ne (hkey _ (by simp)),
      Option.or_none]

/-- What is taken is what was meant if and only if the dates are unambiguous. -/
theorem taken_iff (P : Platform F) (dates : List OpfDate) :
    (taken dates).map (MetaValue.number <| P.ofInt ·.unix) = (date dates).map (MetaValue.number <| P.ofInt ·.unix) ↔
      Unambiguous P (times "publication" dates) (times "" dates) := by
  unfold taken date
  rcases times "publication" dates with _ | ⟨pub, pubs⟩
  · rcases times "" dates with _ | ⟨first, others⟩
    · exact iff_of_true rfl trivial
    · simp [Unambiguous, Option.map_eq_some_iff]
  · by_cases hpub : pub = Time.zero
    · simp [Unambiguous, hpub, Option.map_eq_some_iff]
    · simp [Unambiguous, hpub]

/-- **The author is the one that was meant**, and so is the date if and only if the dates are unambiguous. -/
theorem selects_iff (P : Platform F) (md : OpfMetadata) :
    Selects P md ↔ Unambiguous P (times "publication" md.dates) (times "" md.dates) := by
  obtain ⟨m, hparse, hauthor, hdate⟩ := parseOPF_ok P md
  rw [← taken_iff, Selects, hparse]
  constructor
  · rintro ⟨m', hm, -, hdate'⟩
    obtain rfl := Except.ok.inj hm
    exact hdate.symm.trans hdate'
  · exact fun h => ⟨m, rfl, hauthor, hdate.trans h⟩

/-! ### A second date -/

/-- A book with two dates that say nothing of what they are. -/
def reissued : OpfMetadata := { dates := [⟨"1954-07-29", ""⟩, ⟨"2004", ""⟩] }

/-- The date of the reissue is taken, and not the first one. -/
theorem reissue_taken : ¬ Selects Rules.Stored.wholePlatform reissued ∧
    date reissued.dates = some ⟨-486864000, 0⟩ ∧ taken reissued.dates = some ⟨1072915200, 0⟩ := by
  have hdate : date reissued.dates = some ⟨-486864000, 0⟩ := by decide
  have htaken : taken reissued.dates = some ⟨1072915200, 0⟩ := by decide
  refine ⟨?_, hdate, htaken⟩
  rintro ⟨m, hm, -, hmeant⟩
  obtain ⟨m', hparse, -, hset⟩ := parseOPF_ok Rules.Stored.wholePlatform reissued
  obtain rfl := Except.ok.inj (hm.symm.trans hparse)
  rw [hmeant, hdate, htaken] at hset
  simp [Rules.Stored.wholePlatform] at hset

end Tilbo.Harvester.Epub
