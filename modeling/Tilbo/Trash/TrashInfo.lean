import Tilbo.Lib.Calendar
import Tilbo.Lib.Lines
import Tilbo.Trash.MoveToTrash
import Tilbo.Trash.Restore
import Mathlib.Algebra.Ring.Int.Defs

/-! # Trash info files

`MoveToTrash` writes the path of a file and the time of its deletion, and `parseTrashInfo` reads them. The path is
escaped byte by byte, and found again. The time is written as it is in the local zone, and read as if it were that of
Greenwich: `roundTrips_iff`. Contents and paths are bytes, and instants are seconds since 1970. -/

namespace Tilbo.Trash.TrashInfo

open Tilbo.Lib.Calendar Tilbo.Trash.MoveToTrash Tilbo.Trash.Restore
open Tilbo.Lib.Lines (Bytes bytes newline)

/-! ### What is written -/

/-- The byte of a character below 256. -/
def byteOf (c : Char) : UInt8 := c.toNat.toUInt8

/-- `url.PathEscape`. -/
def pathEscape (path : Bytes) : Bytes := path.flatMap fun b => (escapeByte b).map byteOf

/-- The digits of a number. -/
def digits (n : ℕ) : Bytes := (Nat.toDigits 10 n).map byteOf

/-- `appendInt` of the package time: the number, with zeros in front up to the width. -/
def appendInt (x : ℤ) (width : ℕ) : Bytes :=
  (if x < 0 then [0x2d] else []) ++ (List.replicate (width - (digits x.natAbs).length) 0x30 ++ digits x.natAbs)

/-- A time zone: how many seconds it is ahead of Greenwich at each instant, a number of 32 bits. -/
structure Zone where
  offset : ℤ → ℤ
  bounded : ∀ t, -2 ^ 31 ≤ offset t ∧ offset t < 2 ^ 31

/-- What a clock in the zone shows. -/
def Zone.localTime (zone : Zone) (t : ℤ) : DateTime := clock (t + zone.offset t)

/-- `Format("2006-01-02T15:04:05")`. -/
def format (t : DateTime) : Bytes :=
  appendInt t.date.year 4 ++ 0x2d :: (appendInt t.date.month 2 ++ 0x2d :: (appendInt t.date.day 2 ++
    0x54 :: (appendInt t.hour 2 ++ 0x3a :: (appendInt t.minute 2 ++ 0x3a :: appendInt t.second 2))))

/-- The content of the file. -/
def infoContent (absPath : Bytes) (now : DateTime) : Bytes :=
  bytes "[Trash Info]" ++ newline :: (bytes "Path=" ++ pathEscape absPath ++
    newline :: (bytes "DeletionDate=" ++ format now ++ [newline]))

/-! ### What is read -/

def isDigit (b : UInt8) : Bool := 0x30 ≤ b && b ≤ 0x39

/-- The value of a digit. -/
def digit (b : UInt8) : ℕ := b.toNat - 0x30

/-- The value of some digits. -/
def value (ds : Bytes) : ℕ := ds.foldl (fun n b => 10 * n + digit b) 0

/-- The four digits of a year. -/
def getyear : Bytes → Option (ℕ × Bytes)
  | a :: b :: c :: d :: rest => if [a, b, c, d].all isDigit then some (value [a, b, c, d], rest) else none
  | _ => none

/-- `getnum`: two digits, or one if that is allowed. -/
def getnum (fixed : Bool) : Bytes → Option (ℕ × Bytes)
  | [] => none
  | [a] => if isDigit a && !fixed then some (digit a, []) else none
  | a :: b :: rest =>
    if !isDigit a then none
    else if isDigit b then some (10 * digit a + digit b, rest)
    else if fixed then none
    else some (digit a, b :: rest)

/-- `skip`, of one character of the layout. -/
def skip (c : UInt8) : Bytes → Option Bytes
  | [] => none
  | b :: rest => if b = c then some rest else none

/-- A fraction of a second, which may be there without being in the layout. -/
def dropFraction : Bytes → Bytes
  | a :: b :: rest => if (a = 0x2e ∨ a = 0x2c) ∧ isDigit b then rest.dropWhile isDigit else a :: b :: rest
  | rest => rest

/-- `time.Parse("2006-01-02T15:04:05", s)`: there is no zone, so it is that of Greenwich. -/
def parseTime (s : Bytes) : Option DateTime := do
  let (year, s) ← getyear s
  let (month, s) ← getnum true (← skip 0x2d s)
  let (day, s) ← getnum true (← skip 0x2d s)
  let (hour, s) ← getnum false (← skip 0x54 s)
  let (minute, s) ← getnum true (← skip 0x3a s)
  let (second, s) ← getnum true (← skip 0x3a s)
  let t : DateTime := ⟨⟨year, month, day⟩, hour, minute, second⟩
  if dropFraction s = [] ∧ t.Valid then some t else none

/-- `strconv.ParseInt(s, 10, 64)`. -/
def parseInt (s : Bytes) : Option ℤ :=
  let negative := s.head? = some 0x2d
  let ds := if negative ∨ s.head? = some 0x2b then s.tail else s
  if ds = [] ∨ !ds.all isDigit then none
  else if negative then if value ds ≤ 2 ^ 63 then some (-value ds) else none
  else if value ds < 2 ^ 63 then some (value ds) else none

/-- `TrashEntry`, as far as it is read from the file. -/
structure TrashEntry where
  name : Bytes
  originalPath : Bytes
  deletionDate : ℤ
deriving DecidableEq

/-- `strings.CutPrefix`. -/
def cutPrefix (key line : Bytes) : Option Bytes := if key <+: line then some (line.drop key.length) else none

/-- What a line says of the entry. -/
def TrashEntry.read (entry : TrashEntry) (line : Bytes) : TrashEntry :=
  match cutPrefix (bytes "Path=") line, cutPrefix (bytes "DeletionDate=") line with
  | some rawPath, _ => { entry with originalPath := (pathUnescape rawPath).getD rawPath }
  | none, some dateStr =>
    match parseTime dateStr, parseInt dateStr with
    | some t, _ => { entry with deletionDate := t.seconds }
    | none, some ts => { entry with deletionDate := ts }
    | none, none => entry
  | none, none => entry

/-- `parseTrashInfo`; none if a line is too long. -/
def parseTrashInfo (content name : Bytes) : Option TrashEntry :=
  (scanLines content).map (List.foldl TrashEntry.read ⟨name, [], 0⟩)

/-! ### What is to be shown -/

/-- Path and instant are found again. -/
def RoundTrips (zone : Zone) (absPath : Bytes) (t : ℤ) : Prop :=
  ∀ name, parseTrashInfo (infoContent absPath (zone.localTime t)) name = some ⟨name, absPath, t⟩

/-- The local time is that of Greenwich, its year has four digits, and the line with the path fits into the buffer of
the scanner. -/
structure Preserved (zone : Zone) (absPath : Bytes) (t : ℤ) : Prop where
  offset : zone.offset t = 0
  year : 0 ≤ (zone.localTime t).date.year ∧ (zone.localTime t).date.year ≤ 9999
  path : (bytes "Path=" ++ pathEscape absPath).length < maxTokenSize

/-! ### Numbers -/

variable {ds rest s line : Bytes} {n width : ℕ} {x : ℤ} {fixed : Bool} {b : UInt8}

theorem toNat_byteOf {c : Char} (hc : c.isDigit = true) : (byteOf c).toNat = c.toNat ∧ 48 ≤ c.toNat ∧ c.toNat ≤ 57 := by
  simp only [Char.isDigit, Bool.and_eq_true, decide_eq_true_eq] at hc
  have hlow : 48 ≤ c.toNat := UInt32.le_iff_toNat_le.mp hc.1
  have hhigh : c.toNat ≤ 57 := UInt32.le_iff_toNat_le.mp hc.2
  exact ⟨by rw [byteOf, Nat.toUInt8_eq, UInt8.toNat_ofNat', Nat.mod_eq_of_lt (by omega)], hlow, hhigh⟩

theorem isDigit_byteOf {c : Char} (hc : c.isDigit = true) : isDigit (byteOf c) = true := by
  obtain ⟨hbyte, hlow, hhigh⟩ := toNat_byteOf hc
  simp only [isDigit, Bool.and_eq_true, decide_eq_true_eq, UInt8.le_iff_toNat_le, hbyte]
  exact ⟨hlow, hhigh⟩

/-- The digits of a number with zeros in front. -/
theorem appendInt_natCast (n width : ℕ) : appendInt n width =
    (List.replicate (width - (Nat.toDigits 10 n).length) '0' ++ Nat.toDigits 10 n).map byteOf := by
  have hneg : ¬ ((n : ℤ) < 0) := by omega
  simp only [appendInt, if_neg hneg, Int.natAbs_natCast, digits, List.length_map, List.nil_append, List.map_append,
    List.map_replicate]
  rfl

theorem isDigit_padded {c : Char} (hc : c ∈ List.replicate width '0' ++ Nat.toDigits 10 n) : c.isDigit = true := by
  rcases List.mem_append.mp hc with hc | hc
  · rw [List.eq_of_mem_replicate hc]
    decide
  · exact Nat.isDigit_of_mem_toDigits (by decide) (by decide) hc

theorem isDigit_appendInt : ∀ b ∈ appendInt n width, isDigit b = true := by
  intro b hb
  rw [appendInt_natCast] at hb
  obtain ⟨c, hc, rfl⟩ := List.mem_map.mp hb
  exact isDigit_byteOf (isDigit_padded hc)

theorem length_appendInt (hn : n < 10 ^ width) (hwidth : 0 < width) : (appendInt n width).length = width := by
  have hle : (Nat.toDigits 10 n).length ≤ width := (Nat.length_toDigits_le_iff (by decide) hwidth).mpr hn
  rw [appendInt_natCast, List.length_map, List.length_append, List.length_replicate]
  omega

theorem value_map_byteOf {cs : List Char} (hcs : ∀ c ∈ cs, c.isDigit = true) :
    value (cs.map byteOf) = Nat.ofDigitChars 10 cs 0 := by
  suffices h : ∀ init, (cs.map byteOf).foldl (fun n b => 10 * n + digit b) init = Nat.ofDigitChars 10 cs init from h 0
  induction cs with
  | nil => exact fun init => rfl
  | cons c cs ih =>
    intro init
    obtain ⟨hc, hrest⟩ := List.forall_mem_cons.mp hcs
    rw [List.map_cons, List.foldl_cons, ih hrest, Nat.ofDigitChars_cons, digit, (toNat_byteOf hc).1]
    rfl

/-- A number is found again. -/
theorem value_appendInt : value (appendInt n width) = n := by
  rw [appendInt_natCast, value_map_byteOf fun _ => isDigit_padded, Nat.ofDigitChars_append,
    Nat.ofDigitChars_replicate_zero, Nat.mul_zero, Nat.ofDigitChars_ten_toDigits]

/-! ### Times -/

theorem getyear_append (hlen : ds.length = 4) (hds : ∀ b ∈ ds, isDigit b = true) :
    getyear (ds ++ rest) = some (value ds, rest) := by
  match ds, hlen with
  | [a, b, c, d], _ =>
    have hall : [a, b, c, d].all isDigit = true := List.all_eq_true.mpr hds
    exact if_pos hall

theorem getnum_append (hlen : ds.length = 2) (hds : ∀ b ∈ ds, isDigit b = true) :
    getnum fixed (ds ++ rest) = some (value ds, rest) := by
  match ds, hlen with
  | [a, b], _ =>
    have ha : isDigit a = true := hds a List.mem_cons_self
    have hb : isDigit b = true := hds b (List.mem_cons_of_mem _ List.mem_cons_self)
    simp [getnum, ha, hb, value]

theorem getnum_appendInt (hn : n < 100) (fixed : Bool) (rest : Bytes) :
    getnum fixed (appendInt n 2 ++ rest) = some (n, rest) := by
  rw [getnum_append (length_appendInt hn (by decide)) isDigit_appendInt, value_appendInt]

theorem skip_cons (c : UInt8) (rest : Bytes) : skip c (c :: rest) = some rest := if_pos rfl

/-- Two digits are enough for everything but the year. -/
theorem lt_hundred {t : DateTime} (ht : t.Valid) :
    t.date.month < 100 ∧ t.date.day < 100 ∧ t.hour < 100 ∧ t.minute < 100 ∧ t.second < 100 := by
  have hlength : daysIn t.date.month t.date.year ≤ 31 := by
    unfold daysIn
    split_ifs <;> omega
  obtain ⟨⟨-, hmonth, -, hday⟩, hhour, hminute, hsecond⟩ := ht
  omega

/-- A time whose year has four digits is found again. -/
theorem parseTime_format {t : DateTime} (ht : t.Valid) (hyear : 0 ≤ t.date.year ∧ t.date.year ≤ 9999) :
    parseTime (format t) = some t := by
  obtain ⟨⟨year, month, day⟩, hour, minute, second⟩ := t
  obtain ⟨year, rfl⟩ := Int.eq_ofNat_of_zero_le hyear.1
  have hlt : year < 10 ^ 4 := by
    have := hyear.2
    simp only at this
    omega
  obtain ⟨hmonth, hday, hhour, hminute, hsecond⟩ := lt_hundred ht
  have hlast : getnum true (appendInt second 2) = some (second, []) := by
    have h := getnum_appendInt hsecond true []
    rwa [List.append_nil] at h
  simp only [parseTime, format, Option.bind_eq_bind, Option.bind_some,
    getyear_append (length_appendInt hlt (by decide)) isDigit_appendInt, value_appendInt, skip_cons,
    getnum_appendInt hmonth, getnum_appendInt hday, getnum_appendInt hhour, getnum_appendInt hminute, hlast]
  exact if_pos ⟨rfl, ht⟩

/-- A year with a sign is not read. -/
theorem getyear_neg (hx : x < 0) (width : ℕ) (rest : Bytes) : getyear (appendInt x width ++ rest) = none := by
  have hsign : appendInt x width ++ rest =
      0x2d :: (List.replicate (width - (digits x.natAbs).length) 0x30 ++ digits x.natAbs ++ rest) := by
    simp only [appendInt, if_pos hx, List.cons_append, List.nil_append]
  have hdigit : isDigit 0x2d = false := by decide
  rw [hsign]
  match List.replicate (width - (digits x.natAbs).length) 0x30 ++ digits x.natAbs ++ rest with
  | [] | [_] | [_, _] => rfl
  | b :: c :: d :: rest => simp [getyear, hdigit]

/-- Of a year with more than four digits the first four are read, and there is no dash behind them. -/
theorem skip_getyear_long (hn : 10 ^ 4 ≤ n) (rest : Bytes) :
    ∃ year s, getyear (appendInt n 4 ++ rest) = some (year, s) ∧ skip 0x2d s = none := by
  have hlong : 4 < (appendInt n 4).length := by
    have hlt : ¬ (Nat.toDigits 10 n).length ≤ 4 := by
      rw [Nat.length_toDigits_le_iff (by decide) (by decide)]
      omega
    rw [appendInt_natCast, List.length_map, List.length_append]
    omega
  have hdigits : ∀ b ∈ appendInt n 4, isDigit b = true := isDigit_appendInt
  match appendInt n 4, hlong, hdigits with
  | a :: b :: c :: d :: e :: more, _, hdigits =>
    have hall : [a, b, c, d].all isDigit = true :=
      List.all_eq_true.mpr fun x hx => hdigits x (List.mem_append_left (e :: more) hx)
    have he : isDigit e = true := hdigits e (by simp)
    refine ⟨value [a, b, c, d], e :: more ++ rest, if_pos hall, if_neg fun heq => ?_⟩
    rw [heq] at he
    exact absurd he (by decide)

/-- A time whose year has not four digits is not read. -/
theorem parseTime_format_eq_none {t : DateTime} (hyear : ¬ (0 ≤ t.date.year ∧ t.date.year ≤ 9999)) :
    parseTime (format t) = none := by
  unfold format
  generalize (0x2d :: (appendInt t.date.month 2 ++ 0x2d :: (appendInt t.date.day 2 ++
    0x54 :: (appendInt t.hour 2 ++ 0x3a :: (appendInt t.minute 2 ++ 0x3a :: appendInt t.second 2)))) : Bytes) = rest
  by_cases hneg : t.date.year < 0
  · simp only [parseTime, getyear_neg hneg, Option.bind_eq_bind, Option.bind_none]
  · obtain ⟨year, hy⟩ := Int.eq_ofNat_of_zero_le (Int.not_lt.mp hneg)
    rw [hy] at hyear ⊢
    obtain ⟨y, s, hread, hskip⟩ := skip_getyear_long (n := year) (by omega) rest
    simp only [parseTime, hread, hskip, Option.bind_eq_bind, Option.bind_some, Option.bind_none]

/-- What contains something else than digits is no number, whatever sign it has. -/
theorem parseInt_eq_none (hb : b ∈ s) (hdigit : isDigit b = false) (hsign : b ≠ 0x2d ∧ b ≠ 0x2b) :
    parseInt s = none := by
  have hrest : ∀ ds : Bytes, b ∈ ds → ds = [] ∨ (!ds.all isDigit) = true := fun ds hmem => Or.inr (by
    rw [Bool.not_eq_true', List.all_eq_false]
    exact ⟨b, hmem, by simp [hdigit]⟩)
  unfold parseInt
  dsimp only
  rw [if_pos]
  apply hrest
  split_ifs with hhead
  · cases s with
    | nil => cases hb
    | cons c rest =>
      refine (List.mem_cons.mp hb).resolve_left fun heq => ?_
      simp only [List.head?_cons, Option.some.injEq] at hhead
      rw [← heq] at hhead
      exact hhead.elim hsign.1 hsign.2
  · exact hb

theorem parseInt_format (t : DateTime) : parseInt (format t) = none :=
  parseInt_eq_none (b := 0x54) (by simp [format]) (by decide) (by decide)

/-! ### Paths -/

/-- What each byte is escaped to. -/
theorem escapeByte_cases (b : UInt8) :
    (escapeByte b = [Char.ofNat b.toNat] ∧ b < 128 ∧ b ≠ 0x25 ∧ b ≠ 0x0a ∧ b ≠ 0x0d) ∨
      escapeByte b = ['%', hexDigit (b / 16), hexDigit (b % 16)] := by
  unfold escapeByte
  dsimp only
  split_ifs with h
  · refine Or.inl ⟨rfl, h.1, ?_, ?_, ?_⟩
    all_goals
      rintro rfl
      exact absurd h (by decide)
  · exact Or.inr rfl

/-- The digits of a byte. -/
theorem unhex_hexDigit : ∀ n < 16, unhex (byteOf (hexDigit (UInt8.ofNat n))) = some (UInt8.ofNat n) ∧
    byteOf (hexDigit (UInt8.ofNat n)) ≠ 0x0a ∧ byteOf (hexDigit (UInt8.ofNat n)) ≠ 0x0d := by
  decide

theorem halves (b : UInt8) : ∃ hi < 16, ∃ lo < 16, b / 16 = UInt8.ofNat hi ∧ b % 16 = UInt8.ofNat lo ∧
    16 * UInt8.ofNat hi + UInt8.ofNat lo = b := by
  have hlt : b.toNat < 256 := b.toNat_lt
  refine ⟨b.toNat / 16, by omega, b.toNat % 16, by omega, ?_, ?_, ?_⟩
  all_goals
    apply UInt8.toNat_inj.mp
    simp
  all_goals omega

theorem byteOf_ofNat (h : b < 128) : byteOf (Char.ofNat b.toNat) = b := by
  have hascii : ∀ n < 128, byteOf (Char.ofNat n) = UInt8.ofNat n := by decide
  rw [hascii _ (UInt8.lt_iff_toNat_lt.mp h), UInt8.ofNat_toNat]

/-- One byte is found again. -/
theorem pathUnescape_escapeByte (b : UInt8) (rest : Bytes) :
    pathUnescape ((escapeByte b).map byteOf ++ rest) = (pathUnescape rest).map (b :: ·) := by
  rcases escapeByte_cases b with ⟨hplain, hlow, hne, -⟩ | hescaped
  · rw [hplain, List.map_singleton, byteOf_ofNat hlow, List.singleton_append]
    cases hrest : pathUnescape rest <;> simp [pathUnescape, hne, hrest]
  · obtain ⟨hi, hhi, lo, hlo, hdiv, hmod, hback⟩ := halves b
    have hpercent : byteOf '%' = 0x25 := by decide
    rw [hescaped, hdiv, hmod, List.map_cons, hpercent, List.map_cons, List.map_cons, List.map_nil]
    simp only [List.cons_append, List.nil_append, pathUnescape, (unhex_hexDigit hi hhi).1, (unhex_hexDigit lo hlo).1]
    cases hrest : pathUnescape rest with
    | none => rfl
    | some path => exact congrArg (fun c => some (c :: path)) hback

/-- A path is found again. -/
theorem pathUnescape_pathEscape (path : Bytes) : pathUnescape (pathEscape path) = some path := by
  induction path with
  | nil => rfl
  | cons b path ih =>
    have hcons : pathEscape (b :: path) = (escapeByte b).map byteOf ++ pathEscape path := List.flatMap_cons
    rw [hcons, pathUnescape_escapeByte, ih, Option.map_some]

/-- An escaped path has no line ends. -/
theorem mem_pathEscape {path : Bytes} (hb : b ∈ pathEscape path) : b ≠ 0x0a ∧ b ≠ 0x0d := by
  obtain ⟨c, -, hb⟩ := List.mem_flatMap.mp hb
  rcases escapeByte_cases c with ⟨hplain, hlow, -, hnl, hcr⟩ | hescaped
  · rw [hplain, List.map_singleton, byteOf_ofNat hlow, List.mem_singleton] at hb
    exact hb ▸ ⟨hnl, hcr⟩
  · obtain ⟨hi, hhi, lo, hlo, hdiv, hmod, -⟩ := halves c
    rw [hescaped, hdiv, hmod] at hb
    simp only [List.map_cons, List.map_nil, List.mem_cons, List.not_mem_nil, or_false] at hb
    rcases hb with rfl | rfl | rfl
    · decide
    · exact (unhex_hexDigit hi hhi).2
    · exact (unhex_hexDigit lo hlo).2

/-! ### The file -/

theorem mem_appendInt (hb : b ∈ appendInt x width) : b = 0x2d ∨ isDigit b = true := by
  simp only [appendInt, List.mem_append, List.mem_replicate] at hb
  rcases hb with hb | ⟨-, rfl⟩ | hb
  · split_ifs at hb
    · exact Or.inl (List.mem_singleton.mp hb)
    · cases hb
  · exact Or.inr (by decide)
  · obtain ⟨c, hc, rfl⟩ := List.mem_map.mp hb
    exact Or.inr (isDigit_byteOf (Nat.isDigit_of_mem_toDigits (by decide) (by decide) hc))

/-- A time has no line ends. -/
theorem mem_format {t : DateTime} (hb : b ∈ format t) : b ≠ 0x0a ∧ b ≠ 0x0d := by
  have hnumber : ∀ {x : ℤ} {width : ℕ}, b ∈ appendInt x width → b ≠ 0x0a ∧ b ≠ 0x0d := by
    intro x width hb
    rcases mem_appendInt hb with rfl | hdigit
    · decide
    · constructor
      all_goals
        rintro rfl
        exact absurd hdigit (by decide)
  simp only [format, List.mem_append, List.mem_cons] at hb
  rcases hb with hb | rfl | hb | rfl | hb | rfl | hb | rfl | hb | rfl | hb
  all_goals first
    | exact hnumber hb
    | decide

/-- The three lines. -/
def infoLines (absPath : Bytes) (now : DateTime) : List Bytes :=
  [bytes "[Trash Info]", bytes "Path=" ++ pathEscape absPath, bytes "DeletionDate=" ++ format now]

theorem mem_infoLines (absPath : Bytes) (now : DateTime) : ∀ line ∈ infoLines absPath now, ∀ b ∈ line,
    b ≠ 0x0a ∧ b ≠ 0x0d := by
  have hall : (["[Trash Info]", "Path=", "DeletionDate="].all fun s =>
      (bytes s).all fun b => b != 0x0a && b != 0x0d) = true := by decide
  have hkeys : ∀ s ∈ ["[Trash Info]", "Path=", "DeletionDate="], ∀ b ∈ bytes s, b ≠ 0x0a ∧ b ≠ 0x0d :=
    fun s hs b hb => by simpa using List.all_eq_true.mp (List.all_eq_true.mp hall s hs) b hb
  intro line hline b hb
  simp only [infoLines, List.mem_cons, List.not_mem_nil, or_false] at hline
  rcases hline with rfl | rfl | rfl
  · exact hkeys _ (by simp) b hb
  · exact (List.mem_append.mp hb).elim (hkeys _ (by simp) b) mem_pathEscape
  · exact (List.mem_append.mp hb).elim (hkeys _ (by simp) b) mem_format

/-- The scanner reads the three lines, or none. -/
theorem scanLines_infoContent (absPath : Bytes) (now : DateTime) : scanLines (infoContent absPath now) =
    if ∀ line ∈ infoLines absPath now, line.length < maxTokenSize then some (infoLines absPath now) else none := by
  have hclean := mem_infoLines absPath now
  have hfree : ∀ line ∈ infoLines absPath now, newline ∉ line := fun line hline hmem => (hclean line hline _ hmem).1 rfl
  have hsplit : (infoContent absPath now).splitOn 0x0a = infoLines absPath now ++ [[]] := by
    change (infoContent absPath now).splitOn newline = _
    have h₁ := hfree (bytes "[Trash Info]") (by simp [infoLines])
    have h₂ := hfree (bytes "Path=" ++ pathEscape absPath) (by simp [infoLines])
    have h₃ := hfree (bytes "DeletionDate=" ++ format now) (by simp [infoLines])
    rw [infoContent, List.splitOn_append_cons_self_of_not_mem h₁, List.splitOn_append_cons_self_of_not_mem h₂,
      List.splitOn_append_cons_self_of_not_mem h₃]
    rfl
  have hcr : (infoLines absPath now).map (fun line => if line.getLast? = some 0x0d then line.dropLast else line) =
      infoLines absPath now := by
    refine (List.map_congr_left fun line hline => if_neg fun hlast => ?_).trans (List.map_id _)
    exact (hclean line hline _ (List.mem_of_getLast? hlast)).2 rfl
  unfold scanLines
  dsimp only
  rw [hsplit, List.getLast?_concat, if_pos rfl, List.dropLast_concat, hcr]
  simp only [List.all_eq_true, decide_eq_true_eq]

theorem cutPrefix_append (key rest : Bytes) : cutPrefix key (key ++ rest) = some rest := by
  rw [cutPrefix, if_pos (List.prefix_append _ _), List.drop_left]

/-- What is read of a time. -/
def readTime (t : DateTime) : ℤ := if 0 ≤ t.date.year ∧ t.date.year ≤ 9999 then t.seconds else 0

/-- **What is read of the file.** -/
theorem parseTrashInfo_infoContent {now : DateTime} (hnow : now.Valid) (absPath name : Bytes) :
    parseTrashInfo (infoContent absPath now) name =
      if ∀ line ∈ infoLines absPath now, line.length < maxTokenSize then
        some ⟨name, absPath, readTime now⟩ else none := by
  have hhead : TrashEntry.read ⟨name, [], 0⟩ (bytes "[Trash Info]") = ⟨name, [], 0⟩ := by
    have hpath : cutPrefix (bytes "Path=") (bytes "[Trash Info]") = none := by decide
    have hdate : cutPrefix (bytes "DeletionDate=") (bytes "[Trash Info]") = none := by decide
    rw [TrashEntry.read, hpath, hdate]
  have hpath : TrashEntry.read ⟨name, [], 0⟩ (bytes "Path=" ++ pathEscape absPath) = ⟨name, absPath, 0⟩ := by
    rw [TrashEntry.read, cutPrefix_append]
    dsimp only
    rw [pathUnescape_pathEscape, Option.getD_some]
  have hdate : TrashEntry.read ⟨name, absPath, 0⟩ (bytes "DeletionDate=" ++ format now) =
      ⟨name, absPath, readTime now⟩ := by
    have hkey : cutPrefix (bytes "Path=") (bytes "DeletionDate=" ++ format now) = none := by
      refine if_neg fun ⟨rest, hrest⟩ => ?_
      have hbyte := congrArg List.head? hrest
      rw [List.head?_append_of_ne_nil _ (by decide), List.head?_append_of_ne_nil _ (by decide)] at hbyte
      exact absurd hbyte (by decide)
    rw [TrashEntry.read, hkey, cutPrefix_append, readTime]
    dsimp only
    rw [parseInt_format]
    split_ifs with hyear
    · rw [parseTime_format hnow hyear]
    · rw [parseTime_format_eq_none hyear]
  rw [parseTrashInfo, scanLines_infoContent]
  split_ifs with hfits
  · rw [Option.map_some, infoLines, List.foldl_cons, hhead, List.foldl_cons, hpath, List.foldl_cons, hdate,
      List.foldl_nil]
  · rfl

/-! ### The round trip -/

theorem length_format {t : DateTime} (ht : t.Valid) (hyear : 0 ≤ t.date.year ∧ t.date.year ≤ 9999) :
    (format t).length = 19 := by
  obtain ⟨hmonth, hday, hhour, hminute, hsecond⟩ := lt_hundred ht
  obtain ⟨year, hy⟩ := Int.eq_ofNat_of_zero_le hyear.1
  have hlt : year < 10 ^ 4 := by omega
  have htwo : ∀ n : ℕ, n < 100 → (appendInt n 2).length = 2 := fun n hn => length_appendInt hn (by decide)
  simp only [format, hy, List.length_append, List.length_cons, length_appendInt hlt (by decide), htwo _ hmonth,
    htwo _ hday, htwo _ hhour, htwo _ hminute, htwo _ hsecond]

/-- In every zone, the year in which 1970 began in Greenwich has four digits. -/
theorem year_localTime_zero (zone : Zone) :
    0 ≤ (zone.localTime 0).date.year ∧ (zone.localTime 0).date.year ≤ 9999 := by
  have hbounded := zone.bounded 0
  exact year_civil (by omega)

/-- **When a trash info file gives back what was written.** -/
theorem roundTrips_iff (zone : Zone) (absPath : Bytes) (t : ℤ) :
    RoundTrips zone absPath t ↔ Preserved zone absPath t := by
  have hvalid : (zone.localTime t).Valid := valid_clock _
  have hseconds : (zone.localTime t).seconds = t + zone.offset t := seconds_clock _
  have hparse := parseTrashInfo_infoContent hvalid absPath
  constructor
  · intro h
    have hread := (hparse []).symm.trans (h [])
    split_ifs at hread with hfits
    have hdate : readTime (zone.localTime t) = t := congrArg TrashEntry.deletionDate (Option.some.inj hread)
    have hyear : 0 ≤ (zone.localTime t).date.year ∧ (zone.localTime t).date.year ≤ 9999 := by
      by_contra hyear
      rw [readTime, if_neg hyear] at hdate
      subst hdate
      exact hyear (year_localTime_zero zone)
    rw [readTime, if_pos hyear, hseconds] at hdate
    exact ⟨by omega, hyear, hfits _ (by simp [infoLines])⟩
  · intro h name
    have hfits : ∀ line ∈ infoLines absPath (zone.localTime t), line.length < maxTokenSize := by
      intro line hline
      simp only [infoLines, List.mem_cons, List.not_mem_nil, or_false] at hline
      rcases hline with rfl | rfl | rfl
      · decide
      · exact h.path
      · have hkey : (bytes "DeletionDate=").length = 13 := by decide
        rw [List.length_append, hkey, length_format hvalid h.year]
        decide
    rw [hparse, if_pos hfits, readTime, if_pos h.year, hseconds, h.offset, Int.add_zero]

/-- The zone of Berlin in winter. -/
def oneHourAhead : Zone := ⟨fun _ => 3600, fun _ => by decide⟩

theorem an_hour_later : ¬ RoundTrips oneHourAhead (bytes "/a") 0 := by
  intro h
  have hread := (parseTrashInfo_infoContent (valid_clock _) (bytes "/a") []).symm.trans (h [])
  split_ifs at hread
  have hdate : readTime (oneHourAhead.localTime 0) = 0 := congrArg TrashEntry.deletionDate (Option.some.inj hread)
  exact absurd hdate (by decide)

end Tilbo.Trash.TrashInfo
