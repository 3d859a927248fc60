import Mathlib.Data.List.Basic
import Mathlib.Tactic.Common

/-! # Scanning lines

`bufio.Scanner` with `bufio.ScanLines` over a reader that delivers the bytes in pieces of any size. The
scanner keeps the bytes it has read and not yet used in a buffer that may grow up to a limit, and gives up
when the buffer is full and holds no line end. `lines_of_short` says what it reads if every line leaves
room for its line end, `lines_of_long` what it reads up to a line that does not. -/

namespace Tilbo.Lib.Lines

abbrev Bytes : Type := List UInt8

/-- The bytes of a text. -/
def bytes (s : String) : Bytes := s.toList.flatMap String.utf8EncodeChar

/-- `'\n'`. -/
def newline : UInt8 := 10

/-- `'\r'`. -/
def carriageReturn : UInt8 := 13

/-- What one read of the connection finds waiting; a read gives at least one byte or fails. -/
abbrev Piece : Type := { p : Bytes // p ≠ [] }

/-- Why the scanner stopped; the end of the input is not reported as an error. -/
inductive Stop where
  | eof
  | tooLong
deriving DecidableEq, Repr

/-- A scanner: the size of its buffer, where in it the unused bytes start, those bytes, why reading
stopped, and what the connection will deliver. -/
structure Scanner where
  size : ℕ
  start : ℕ := 0
  data : Bytes := []
  err : Option Stop := none
  conn : List Piece

/-- `dropCR`. -/
def dropCR (line : Bytes) : Bytes :=
  if line.getLast? = some carriageReturn then line.dropLast else line

/-- `ScanLines`: how far to advance, and the line, if there is one. -/
def scanLines (data : Bytes) (atEOF : Bool) : ℕ × Option Bytes :=
  if atEOF ∧ data = [] then (0, none)
  else if newline ∈ data then
    ((data.takeWhile (· ≠ newline)).length + 1, some (dropCR (data.takeWhile (· ≠ newline))))
  else if atEOF then (data.length, some (dropCR data))
  else (0, none)

/-- Move the unused bytes to the front, if there is much room before them or none behind. -/
def shift (s : Scanner) : Scanner :=
  if 0 < s.start ∧ (s.start + s.data.length = s.size ∨ s.size / 2 < s.start) then { s with start := 0 } else s

/-- Make room if the buffer is full: nothing if it may not grow. -/
def grow (maxTokenSize : ℕ) (s : Scanner) : Option Scanner :=
  if s.start + s.data.length = s.size then
    if maxTokenSize ≤ s.size then none
    else some { s with size := min (if s.size = 0 then 4096 else s.size * 2) maxTokenSize, start := 0 }
  else some s

/-- Read once into the room behind the data. -/
def read (s : Scanner) : Scanner :=
  match s.conn with
  | [] => { s with err := some .eof }
  | p :: rest =>
    let room := s.size - (s.start + s.data.length)
    let left := p.1.drop room
    { s with
      data := s.data ++ p.1.take room
      conn := if h : left = [] then rest else ⟨left, h⟩ :: rest }

/-- `Scan`, with a bound on the number of reads: the line found, if any. -/
def scan (maxTokenSize : ℕ) : ℕ → Scanner → Option Bytes × Scanner
  | 0, s => (none, s)
  | reads + 1, s =>
    let found := if s.data ≠ [] ∨ s.err.isSome then scanLines s.data s.err.isSome else (0, none)
    match found.2 with
    | some line => (some line, { s with start := s.start + found.1, data := s.data.drop found.1 })
    | none =>
      if s.err.isSome then (none, { s with start := 0, data := [] })
      else match grow maxTokenSize (shift s) with
        | none => (none, { shift s with err := some .tooLong })
        | some s => scan maxTokenSize reads (read s)

/-- The bytes that are still to come. -/
def Scanner.coming (s : Scanner) : Bytes := (s.conn.map Subtype.val).flatten

/-- As many reads as a scan can need. -/
def Scanner.reads (s : Scanner) : ℕ := s.coming.length + 2

/-- The lines found by scanning at most so many times, and why the scanner stopped, if it did. -/
def lines (maxTokenSize : ℕ) : ℕ → Scanner → List Bytes × Option Stop
  | 0, _ => ([], none)
  | n + 1, s => match scan maxTokenSize s.reads s with
    | (none, s') => ([], s'.err)
    | (some line, s') =>
      let rest := lines maxTokenSize n s'
      (line :: rest.1, rest.2)


/-- All lines, until the scanner stops: every line takes a byte at least. -/
def allLines (maxTokenSize : ℕ) (s : Scanner) : List Bytes × Option Stop :=
  lines maxTokenSize (s.data.length + s.coming.length + 1) s

/-! ### One scan -/

section Scan

variable {N reads : ℕ} {s : Scanner} {line rest : Bytes}

/-- The scanner reads on, and its buffer has the size it may have at most. -/
structure Reading (N : ℕ) (s : Scanner) : Prop where
  size : s.size = N
  fits : s.start + s.data.length ≤ N
  err : s.err = none

theorem takeWhile_line (h : newline ∉ line) (rest : Bytes) :
    (line ++ newline :: rest).takeWhile (· ≠ newline) = line := by
  have hall : ∀ b ∈ line, decide (b ≠ newline) = true := fun b hb =>
    decide_eq_true fun heq => h (heq ▸ hb)
  rw [List.takeWhile_append_of_pos hall, List.takeWhile_cons_of_neg (by simp), List.append_nil]

/-- Where the data ends in a text whose first line it may hold. -/
theorem data_cases {data coming : Bytes} (htext : data ++ coming = line ++ newline :: rest)
    (hline : newline ∉ line) :
    (∃ more, data = line ++ newline :: more ∧ rest = more ++ coming) ∨
      (newline ∉ data ∧ coming ≠ [] ∧ data.length ≤ line.length) := by
  rcases List.append_eq_append_iff.mp htext with ⟨mid, hmid, hcoming⟩ | ⟨mid, hmid, hcoming⟩
  · refine .inr ⟨fun hmem => hline ?_, ?_, ?_⟩
    · rw [hmid]
      exact List.mem_append_left _ hmem
    · rw [hcoming]
      simp
    · rw [hmid, List.length_append]
      omega
  · cases mid with
    | nil =>
      rw [List.append_nil] at hmid
      rw [List.nil_append] at hcoming
      subst hmid
      exact .inr ⟨hline, by simp [← hcoming], Nat.le_refl _⟩
    | cons b mid =>
      rw [List.cons_append, List.cons.injEq] at hcoming
      obtain ⟨rfl, rfl⟩ := hcoming
      exact .inl ⟨mid, hmid, rfl⟩

/-- Data without a line end give no line. -/
theorem scanLines_none {data : Bytes} (h : newline ∉ data) : scanLines data false = (0, none) := by
  simp [scanLines, h]

theorem scanLines_line (h : newline ∉ line) (more : Bytes) :
    scanLines (line ++ newline :: more) false = (line.length + 1, some (dropCR line)) := by
  rw [scanLines, takeWhile_line h]
  simp

theorem Reading.shift (h : Reading N s) : Reading N (shift s) ∧ (shift s).data = s.data ∧
    (shift s).conn = s.conn ∧ (s.data.length < N → (shift s).start + s.data.length < N) := by
  have hfits := h.fits
  have hsize := h.size
  unfold Lines.shift
  split_ifs with hshift
  · exact ⟨⟨h.size, by simp only; omega, h.err⟩, rfl, rfl, fun hlt => by simpa using hlt⟩
  · refine ⟨h, rfl, rfl, fun hlt => ?_⟩
    by_cases hstart : 0 < s.start
    · have hend : ¬ (s.start + s.data.length = s.size) := fun he => hshift ⟨hstart, .inl he⟩
      omega
    · omega

/-- A read into a buffer with room: the same bytes, one fewer of them to come. -/
theorem Reading.read (h : Reading N s) (hroom : s.start + s.data.length < N) (hcoming : s.coming ≠ []) :
    Reading N (read s) ∧ (read s).data ++ (read s).coming = s.data ++ s.coming ∧
      (read s).coming.length < s.coming.length := by
  obtain ⟨size, start, data, err, conn⟩ := s
  cases conn with
  | nil => exact absurd rfl hcoming
  | cons p rest =>
    obtain ⟨p, hp⟩ := p
    have hsize : size = N := h.size
    have hpos : 0 < p.length := List.length_pos_iff.mpr hp
    have hconn : (Lines.read ⟨size, start, data, err, ⟨p, hp⟩ :: rest⟩).coming =
        p.drop (size - (start + data.length)) ++ (rest.map Subtype.val).flatten := by
      simp only [Lines.read, Scanner.coming]
      split_ifs with hleft
      · rw [hleft, List.nil_append]
      · rw [List.map_cons, List.flatten_cons]
    have hroom : 0 < size - (start + data.length) := by
      simp only at hroom
      omega
    refine ⟨⟨hsize, ?_, h.err⟩, ?_, ?_⟩
    · simp only [Lines.read, List.length_append, List.length_take]
      omega
    · rw [hconn]
      simp only [Lines.read, Scanner.coming, List.map_cons, List.flatten_cons]
      rw [List.append_assoc, ← List.append_assoc (p.take _), List.take_append_drop]
    · rw [hconn]
      simp only [Scanner.coming, List.map_cons, List.flatten_cons, List.length_append, List.length_drop]
      omega

/-- Data without a line end, and room for more: the scan reads once and goes on. -/
theorem scan_reads (reads : ℕ) (h : Reading N s) (hdata : newline ∉ s.data) (hlen : s.data.length < N)
    (hcoming : s.coming ≠ []) : ∃ s', scan N (reads + 1) s = scan N reads s' ∧ Reading N s' ∧
      s'.data ++ s'.coming = s.data ++ s.coming ∧ s'.coming.length < s.coming.length := by
  obtain ⟨hshift, hdata', hconn, hroom⟩ := h.shift
  have hcoming' : (shift s).coming = s.coming := by rw [Scanner.coming, hconn, Scanner.coming]
  have hgrow : grow N (shift s) = some (shift s) := by
    refine if_neg ?_
    rw [hdata', hshift.size]
    exact Nat.ne_of_lt (hroom hlen)
  obtain ⟨hread, htext, hless⟩ := hshift.read (by rw [hdata']; exact hroom hlen) (by rwa [hcoming'])
  refine ⟨read (shift s), ?_, hread, by rw [htext, hdata', hcoming'], by rwa [hcoming'] at hless⟩
  rw [scan, h.err]
  by_cases hnil : s.data = []
  · simp [hnil, hgrow]
  · simp [hnil, scanLines_none hdata, hgrow]

/-- **A line with room for its end** is found. -/
theorem scan_line (hline : newline ∉ line) (hshort : line.length < N) : ∀ {reads : ℕ} {s : Scanner},
    Reading N s → s.data ++ s.coming = line ++ newline :: rest → s.coming.length < reads →
    ∃ s', scan N reads s = (some (dropCR line), s') ∧ Reading N s' ∧ s'.data ++ s'.coming = rest := by
  intro reads
  induction reads with
  | zero => exact fun _ _ h => absurd h (Nat.not_lt_zero _)
  | succ reads ih =>
    intro s h htext hreads
    rcases data_cases htext hline with ⟨more, hdata, hrest⟩ | ⟨hdata, hcoming, hlen⟩
    · have hscan : scan N (reads + 1) s =
          (some (dropCR line), { s with start := s.start + (line.length + 1), data := more }) := by
        rw [scan, h.err, hdata]
        simp [scanLines_line hline]
      refine ⟨_, hscan, ⟨h.size, ?_, h.err⟩, hrest.symm⟩
      have hfits := h.fits
      rw [hdata, List.length_append, List.length_cons] at hfits
      simp only
      omega
    · obtain ⟨s', hscan, h', htext', hless⟩ := scan_reads reads h hdata (by omega) hcoming
      rw [hscan]
      exact ih h' (htext'.trans htext) (by omega)

/-- **A line without room for its end** stops the scanner. -/
theorem scan_long (hline : newline ∉ line) (hlong : N ≤ line.length) : ∀ {reads : ℕ} {s : Scanner},
    Reading N s → s.data ++ s.coming = line ++ newline :: rest → s.coming.length < reads →
    ∃ s', scan N reads s = (none, s') ∧ s'.err = some .tooLong := by
  intro reads
  induction reads with
  | zero => exact fun _ _ h => absurd h (Nat.not_lt_zero _)
  | succ reads ih =>
    intro s h htext hreads
    have hfits := h.fits
    rcases data_cases htext hline with ⟨more, hdata, -⟩ | ⟨hdata, hcoming, -⟩
    · -- the line and its end do not fit
      rw [hdata, List.length_append, List.length_cons] at hfits
      omega
    · by_cases hfull : s.data.length = N
      · have hstart : s.start = 0 := by omega
        have hshift : shift s = s := if_neg fun hs => absurd hs.1 (by omega)
        have hgrow : grow N s = none := by
          have hend : s.start + s.data.length = s.size := by rw [h.size, hstart, hfull, Nat.zero_add]
          rw [grow, if_pos hend, if_pos (Nat.le_of_eq h.size.symm)]
        refine ⟨{ s with err := some .tooLong }, ?_, rfl⟩
        rw [scan, h.err, hshift, hgrow]
        by_cases hnil : s.data = []
        · simp [hnil]
        · simp [hnil, scanLines_none hdata]
      · obtain ⟨s', hscan, h', htext', hless⟩ := scan_reads reads h hdata (by omega) hcoming
        rw [hscan]
        exact ih h' (htext'.trans htext) (by omega)

/-- At the end of the input the scan finds nothing. -/
theorem scan_end (hN : 0 < N) (h : Reading N s) (htext : s.data ++ s.coming = []) :
    ∃ s', scan N (reads + 2) s = (none, s') ∧ s'.err = some .eof := by
  obtain ⟨hdata, hcoming⟩ := List.append_eq_nil_iff.mp htext
  obtain ⟨hshift, hdata', hconn, hroom⟩ := h.shift
  have hnone : s.conn = [] := by
    cases hc : s.conn with
    | nil => rfl
    | cons p rest =>
      rw [Scanner.coming, hc, List.map_cons, List.flatten_cons] at hcoming
      exact absurd (List.append_eq_nil_iff.mp hcoming).1 p.2
  have hgrow : grow N (shift s) = some (shift s) := by
    refine if_neg ?_
    rw [hdata', hshift.size]
    exact Nat.ne_of_lt (hroom (by rw [hdata]; exact hN))
  have hread : read (shift s) = { shift s with err := some .eof } := by
    rw [read, hconn, hnone]
    simp [← hnone, ← hconn]
  refine ⟨{ shift s with err := some .eof, start := 0, data := [] }, ?_, rfl⟩
  rw [scan, h.err]
  simp only [hdata, ne_eq, not_true_eq_false, Option.isSome_none, Bool.false_eq_true, or_self, if_false,
    hgrow, hread]
  rw [scan]
  simp [hdata', hdata, scanLines]

end Scan

/-! ### All lines -/

section All

variable {N n : ℕ} {s : Scanner} {ms : List Bytes}

/-- Lines, each with its end. -/
def terminated (ms : List Bytes) : Bytes := ms.flatMap (· ++ [newline])

theorem terminated_cons (m : Bytes) (ms : List Bytes) (rest : Bytes) :
    terminated (m :: ms) ++ rest = m ++ newline :: (terminated ms ++ rest) := by
  simp [terminated]

/-- The lines up to the first that the scanner does not find. -/
theorem lines_append (tail : Bytes) {stop : Option Stop} (hms : ∀ m ∈ ms, newline ∉ m ∧ m.length < N)
    (hstop : ∀ s, Reading N s → s.data ++ s.coming = tail → ∃ s', scan N s.reads s = (none, s') ∧ s'.err = stop) :
    ∀ {n : ℕ} {s : Scanner}, Reading N s → s.data ++ s.coming = terminated ms ++ tail → ms.length < n →
      lines N n s = (ms.map dropCR, stop) := by
  induction ms with
  | nil =>
    intro n s h htext hn
    obtain ⟨n, rfl⟩ := Nat.exists_eq_succ_of_ne_zero (Nat.ne_of_gt hn)
    obtain ⟨s', hscan, herr⟩ := hstop s h htext
    rw [lines, hscan, ← herr]
    rfl
  | cons m ms ih =>
    intro n s h htext hn
    obtain ⟨n, rfl⟩ := Nat.exists_eq_succ_of_ne_zero (Nat.ne_of_gt (Nat.zero_lt_of_lt hn))
    rw [terminated_cons] at htext
    obtain ⟨hline, hshort⟩ := hms m List.mem_cons_self
    obtain ⟨s', hscan, h', htext'⟩ := scan_line hline hshort h htext (Nat.lt_add_of_pos_right Nat.two_pos)
    have hrest := ih (fun m hm => hms m (List.mem_cons_of_mem _ hm)) h' htext' (Nat.lt_of_succ_lt_succ hn)
    rw [lines, Scanner.reads, hscan]
    simp only [hrest, List.map_cons]

theorem length_le_terminated : ms.length ≤ (terminated ms).length := by
  induction ms with
  | nil => exact Nat.le_refl 0
  | cons m ms ih =>
    have hlen := congrArg List.length (terminated_cons m ms [])
    simp only [List.append_nil, List.length_append, List.length_cons] at hlen ⊢
    omega

/-- **All short lines are read.** -/
theorem allLines_short (hN : 0 < N) (h : Reading N s) (hms : ∀ m ∈ ms, newline ∉ m ∧ m.length < N)
    (htext : s.data ++ s.coming = terminated ms) : allLines N s = (ms.map dropCR, some .eof) := by
  refine lines_append [] hms (fun s hs ht => scan_end hN hs ht) h (by rw [htext, List.append_nil]) ?_
  have hlen := congrArg List.length htext
  rw [List.length_append] at hlen
  have hms := @length_le_terminated ms
  omega

/-- **A long line ends it.** The lines before it are read. -/
theorem allLines_long {m rest : Bytes} (h : Reading N s) (hms : ∀ m ∈ ms, newline ∉ m ∧ m.length < N)
    (hm : newline ∉ m) (hlong : N ≤ m.length) (htext : s.data ++ s.coming = terminated ms ++ (m ++ newline :: rest)) :
    allLines N s = (ms.map dropCR, some .tooLong) := by
  refine lines_append _ hms (fun s hs ht => scan_long hm hlong hs ht (Nat.lt_add_of_pos_right Nat.two_pos)) h htext ?_
  have hlen := congrArg List.length htext
  rw [List.length_append, List.length_append] at hlen
  have hms := @length_le_terminated ms
  omega

end All

end Tilbo.Lib.Lines
