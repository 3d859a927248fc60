import Tilbo.Fuse.Expr
import Tilbo.Xattr.Csv
import Tilbo.Harvester.Meta

/-! # The directory names of the mount

The grammar of `ParseExpr`: tags joined by `+` or `,`, exclusions with `!`, the special names that start
with `@`, and percent encoding. A decoded name is a Go string, that is a list of bytes: decoding can give
bytes that are no Unicode text. -/

namespace Tilbo.Fuse.Grammar

open Tilbo.Fuse.Expr Tilbo.Xattr.Csv Tilbo.Harvester.Meta

/-- A Go string: its bytes. -/
abbrev GoString : Type := List UInt8

/-- The bytes of a text. -/
def utf8 (s : String) : GoString := s.toList.flatMap String.utf8EncodeChar

/-- What the parsers report. -/
inductive ParseError where
  /-- `errors.New` or `fmt.Errorf` without a cause. -/
  | message (format : String) (args : List String)
  /-- `fmt.Errorf` around another error. -/
  | wrapped (format : String) (cause : ParseError)
deriving DecidableEq, Repr

/-- A parsed directory name; `exprKind` is the constructor. -/
inductive Expr where
  | tag (tags : List GoString) (tagsAny : Bool) (tagExclude : List GoString)
  /-- `Since`, in nanoseconds. -/
  | recent (since : ℤ)
  | search (ftsQuery : String)
  | untagged
  | similar (seedPath : GoString)
  | metadata (e : MetaExpr)
deriving DecidableEq, Repr

/-! ### Percent encoding -/

/-- The characters `percentEncode` replaces. -/
def encodeChar (c : Char) : List Char :=
  if c = '%' then ['%', '2', '5']
  else if c = '+' then ['%', '2', 'B']
  else if c = ',' then ['%', '2', 'C']
  else if c = '!' then ['%', '2', '1']
  else [c]

/-- `percentEncode`. -/
def percentEncode (s : String) : String := String.ofList (s.toList.flatMap encodeChar)

/-- A digit as `encoding/hex` reads it. -/
def hexVal (b : UInt8) : Option UInt8 :=
  if 0x30 ≤ b ∧ b ≤ 0x39 then some (b - 0x30)
  else if 0x61 ≤ b ∧ b ≤ 0x66 then some (b - 0x61 + 10)
  else if 0x41 ≤ b ∧ b ≤ 0x46 then some (b - 0x41 + 10)
  else none

/-- The loop of `percentDecode`, from position `i` on. -/
def percentDecodeFrom : ℕ → GoString → Except ParseError GoString
  | _, [] => .ok []
  | i, b :: rest =>
    if b = 0x25 then match rest with
      | hi :: lo :: rest' => match hexVal hi, hexVal lo with
        | some x, some y => (percentDecodeFrom (i + 3) rest').map ((16 * x + y) :: ·)
        | _, _ => .error (.message "invalid percent-encoding %%%c%c" [toString hi, toString lo])
      | _ => .error (.message "truncated percent-encoding at position %d" [toString i])
    else (percentDecodeFrom (i + 1) rest).map (b :: ·)

/-- `percentDecode`. -/
def percentDecode (s : List Char) : Except ParseError GoString :=
  percentDecodeFrom 0 (s.flatMap String.utf8EncodeChar)

/-! ### Tag expressions -/

/-- A part of an OR expression. -/
def orTag (raw : List Char) : Except ParseError GoString :=
  let raw := trimSpace raw
  if raw = [] then .error (.message "fuse: empty tag in OR expression" [])
  else if raw.head? = some '!' then .error (.message "fuse: negation not supported in OR expression" [])
  else (percentDecode raw).mapError (.wrapped "fuse: %w")

/-- A tag name of an AND expression. -/
def andTag (raw : List Char) : Except ParseError GoString :=
  match percentDecode raw with
  | .error e => .error (.wrapped "fuse: %w" e)
  | .ok decoded =>
    if decoded = [] then .error (.message "fuse: empty tag name after decoding" []) else .ok decoded

/-- A part of an AND expression, after those in `inc` and `exc`. -/
def andPart (parts : List GoString × List GoString) (p : List Char) :
    Except ParseError (List GoString × List GoString) :=
  if p = [] then .error (.message "fuse: empty part in AND expression" [])
  else if p.head? = some '!' then
    if p.tail = [] then .error (.message "fuse: empty negation tag" [])
    else if parts.1 = [] then .error (.message "fuse: negation-only expression not supported" [])
    else (andTag p.tail).map fun decoded => (parts.1, parts.2 ++ [decoded])
  else (andTag p).map fun decoded => (parts.1 ++ [decoded], parts.2)

/-- `parseTagExpr`; `isPrint` is `unicode.IsPrint`. -/
def parseTagExpr (isPrint : Char → Bool) (name : List Char) : Except ParseError Expr :=
  if name = [] then .error (.message "fuse: empty tag expression" [])
  else if name.any fun r => !isPrint r then
    .error (.message "fuse: tag expression contains non-printable characters" [])
  else if ',' ∈ name then
    if '+' ∈ name then
      .error (.message "fuse: mixed , and + not supported; use CLI for complex queries" [])
    else ((name.splitOn ',').mapM orTag).map fun tags => .tag tags true []
  else match (name.splitOn '+').foldlM andPart ([], []) with
    | .error e => .error e
    | .ok (inc, exc) =>
      if inc = [] then .error (.message "fuse: negation-only expression not supported" [])
      else .ok (.tag inc false exc)

/-! ### Special names -/

/-- `time.Now()` in nanoseconds, and `time.Now().AddDate(0, 0, -7)`. -/
structure Clock where
  now : ℤ
  weekAgo : ℤ

/-- The value of an `int64` expression. -/
def int64 (n : ℤ) : ℤ := n.bmod (2 ^ 64)

/-- `time.Hour`. -/
def hour : ℤ := 3600000000000

/-- `parseRelativeDur`. -/
def parseRelativeDur (s : List Char) : Except ParseError ℤ :=
  match s.getLast? with
  | none => .error (.message "empty duration" [])
  | some unit =>
    -- The last byte is the unit; a last character of several bytes leaves no number.
    let numStr := String.ofList s.dropLast
    match if unit.toNat < 128 then parseInt numStr else none with
    | none => .error (.message "invalid number %q" [numStr])
    | some n =>
      if n ≤ 0 then .error (.message "invalid number %q" [numStr])
      else if unit = 'd' then .ok (int64 (n * 24 * hour))
      else if unit = 'h' then .ok (int64 (n * hour))
      else if unit = 'w' then .ok (int64 (n * 7 * 24 * hour))
      else .error (.message "unknown unit %q (use d, h, w)" [unit.toString])

/-- The text after a prefix. -/
def afterPrefix (start : String) (name : List Char) : Option (List Char) :=
  if start.toList <+: name then some (name.drop start.toList.length) else none

/-- `parseSpecial`. -/
def parseSpecial (clock : Clock) (name : List Char) : Except ParseError Expr :=
  if name = "@recent".toList then .ok (.recent clock.weekAgo)
  else if let some dur := afterPrefix "@recent:" name then
    match parseRelativeDur dur with
    | .error e => .error (.wrapped "fuse: invalid @recent duration: %w" e)
    | .ok dur => .ok (.recent (clock.now + int64 (-dur)))
  else if name = "@untagged".toList then .ok .untagged
  else if let some q := afterPrefix "@search:" name then
    if q = [] then .error (.message "fuse: @search requires a query" [])
    else .ok (.search (String.ofList q))
  else if let some p := afterPrefix "@similar:" name then
    if p = [] then .error (.message "fuse: @similar requires a path" [])
    else match percentDecode p with
      | .error e => .error (.wrapped "fuse: invalid @similar path: %w" e)
      | .ok decoded => .ok (.similar decoded)
  else if let some s := afterPrefix "@meta:" name then
    match parseMetaExpr (String.ofList s) with
    | .error e => .error (.message e [])
    | .ok e => .ok (.metadata e)
  else .error (.message "fuse: unknown special expression %q" [String.ofList name])

/-- `ParseExpr`. -/
def parseExpr (isPrint : Char → Bool) (clock : Clock) (name : String) : Except ParseError Expr :=
  if name.toList.head? = some '@' then parseSpecial clock name.toList
  else parseTagExpr isPrint name.toList

/-! ### Decoding what was encoded -/

section Encode
variable {c d : Char} {t s : String} {l : List Char}

/-- The bytes of a character other than `%` do not have the code of `%`. -/
theorem percent_not_mem (hc : c ≠ '%') : (0x25 : UInt8) ∉ String.utf8EncodeChar c := by
  have hval : c.val.toNat ≠ 0x25 := fun h => hc (Char.toNat_inj.mp h)
  intro hmem
  have hbyte : ∀ n : ℕ, (0x25 : UInt8) = UInt8.ofNat n → n % 256 = 0x25 := fun n h => by
    have := congrArg UInt8.toNat h
    simpa using this.symm
  unfold String.utf8EncodeChar at hmem
  dsimp only at hmem
  split_ifs at hmem with h₁ h₂ h₃
  all_goals simp only [List.mem_cons, List.not_mem_nil, or_false] at hmem
  · have := hbyte _ hmem
    omega
  · rcases hmem with h | h <;> (have hval' := hbyte _ h; omega)
  · rcases hmem with h | h | h <;> (have hval' := hbyte _ h; omega)
  · rcases hmem with h | h | h | h <;> (have hval' := hbyte _ h; omega)

theorem percentDecodeFrom_other {b : UInt8} (hb : b ≠ 0x25) (i : ℕ) (rest : GoString) :
    percentDecodeFrom i (b :: rest) = (percentDecodeFrom (i + 1) rest).map (b :: ·) := by
  rcases rest with _ | ⟨x, _ | ⟨y, rest⟩⟩ <;> simp [percentDecodeFrom, hb]

theorem percentDecodeFrom_hex {hi lo x y : UInt8} (hx : hexVal hi = some x) (hy : hexVal lo = some y)
    (i : ℕ) (rest : GoString) : percentDecodeFrom i (0x25 :: hi :: lo :: rest) =
      (percentDecodeFrom (i + 3) rest).map ((16 * x + y) :: ·) := by
  rw [percentDecodeFrom, if_pos rfl]
  simp only [hx, hy]

/-- Bytes without `%` are passed through. -/
theorem percentDecodeFrom_append : ∀ (bytes : List UInt8), (0x25 : UInt8) ∉ bytes → ∀ {i : ℕ} {rest out : GoString},
    percentDecodeFrom (i + bytes.length) rest = .ok out → percentDecodeFrom i (bytes ++ rest) = .ok (bytes ++ out)
  | [], _, i, rest, out, h => h
  | b :: bytes, hb, i, rest, out, h => by
    obtain ⟨hne, hbytes⟩ := List.ne_and_not_mem_of_not_mem_cons hb
    have hrest : percentDecodeFrom (i + 1) (bytes ++ rest) = .ok (bytes ++ out) := by
      refine percentDecodeFrom_append bytes hbytes ?_
      rw [← h, List.length_cons, Nat.add_right_comm, Nat.add_assoc]
    rw [List.cons_append, percentDecodeFrom_other (Ne.symm hne), hrest]
    rfl

theorem encodeChar_other (h : c ∉ ['%', '+', ',', '!']) : encodeChar c = [c] := by
  simp only [List.mem_cons, List.not_mem_nil, or_false, not_or] at h
  simp [encodeChar, h]

/-- The characters that come out of the encoding. -/
theorem mem_encodeChar (h : d ∈ encodeChar c) :
    (d = c ∧ c ∉ ['%', '+', ',', '!']) ∨ d ∈ ['%', '2', '5', 'B', 'C', '1'] := by
  by_cases hc : c ∈ ['%', '+', ',', '!']
  · right
    simp only [List.mem_cons, List.not_mem_nil, or_false] at hc
    rcases hc with rfl | rfl | rfl | rfl
    all_goals
      simp only [encodeChar, List.mem_cons, List.not_mem_nil] at h ⊢
      simp at h
      tauto
  · rw [encodeChar_other hc, List.mem_singleton] at h
    exact Or.inl ⟨h, hc⟩

/-- A character that is replaced becomes `%` and the two digits of its code. -/
theorem encodeChar_hex (h : c ∈ ['%', '+', ',', '!']) : ∃ hi lo x y,
    (encodeChar c).flatMap String.utf8EncodeChar = [0x25, hi, lo] ∧ hexVal hi = some x ∧
      hexVal lo = some y ∧ String.utf8EncodeChar c = [16 * x + y] := by
  simp only [List.mem_cons, List.not_mem_nil, or_false] at h
  rcases h with rfl | rfl | rfl | rfl
  · exact ⟨0x32, 0x35, 2, 5, by decide, by decide, by decide, by decide⟩
  · exact ⟨0x32, 0x42, 2, 11, by decide, by decide, by decide, by decide⟩
  · exact ⟨0x32, 0x43, 2, 12, by decide, by decide, by decide, by decide⟩
  · exact ⟨0x32, 0x31, 2, 1, by decide, by decide, by decide, by decide⟩

/-- Decoding undoes the encoding. -/
theorem percentDecodeFrom_encode : ∀ (l : List Char) (i : ℕ),
    percentDecodeFrom i ((l.flatMap encodeChar).flatMap String.utf8EncodeChar) =
      .ok (l.flatMap String.utf8EncodeChar)
  | [], i => by simp [percentDecodeFrom]
  | c :: l, i => by
    rw [List.flatMap_cons, List.flatMap_append, List.flatMap_cons]
    by_cases hc : c ∈ ['%', '+', ',', '!']
    · obtain ⟨hi, lo, x, y, henc, hx, hy, hbyte⟩ := encodeChar_hex hc
      rw [henc, hbyte, List.cons_append, List.cons_append, List.cons_append, percentDecodeFrom_hex hx hy,
        List.nil_append, percentDecodeFrom_encode l (i + 3)]
      rfl
    · rw [encodeChar_other hc, List.flatMap_singleton]
      exact percentDecodeFrom_append _ (percent_not_mem fun h => hc (by simp [h]))
        (percentDecodeFrom_encode l _)

/-- **Percent encoding loses nothing.** -/
theorem percentDecode_percentEncode (t : String) : percentDecode (percentEncode t).toList = .ok (utf8 t) := by
  rw [percentDecode, percentEncode, String.toList_ofList]
  exact percentDecodeFrom_encode _ _

theorem utf8_inj (h : utf8 s = utf8 t) : s = t := by
  have hbytes : ∀ s : String, (utf8 s).toByteArray = s.toByteArray := fun s => String.utf8Encode_toList
  rw [← String.toByteArray_inj, ← hbytes, ← hbytes, h]

theorem percentEncode_inj (h : percentEncode s = percentEncode t) : s = t := by
  have hs := percentDecode_percentEncode s
  rw [h, percentDecode_percentEncode] at hs
  exact (utf8_inj (Except.ok.inj hs)).symm

/-- The encoding leaves no separator and no negation. -/
theorem separator_not_mem (hd : d ∈ ['+', ',', '!']) (t : String) : d ∉ (percentEncode t).toList := by
  intro h
  rw [percentEncode, String.toList_ofList, List.mem_flatMap] at h
  obtain ⟨c, -, hc⟩ := h
  simp only [List.mem_cons, List.not_mem_nil, or_false] at hd
  rcases mem_encodeChar hc with ⟨rfl, hno⟩ | hmem
  · simp only [List.mem_cons, List.not_mem_nil, or_false, not_or] at hno
    tauto
  · rcases hd with rfl | rfl | rfl <;> simp at hmem

/-- The characters of the encoding: those of the text, or printable ones of ASCII. -/
theorem mem_percentEncode (h : d ∈ (percentEncode t).toList) :
    d ∈ t.toList ∨ d ∈ ['%', '2', '5', 'B', 'C', '1'] := by
  rw [percentEncode, String.toList_ofList, List.mem_flatMap] at h
  obtain ⟨c, hc, hd⟩ := h
  rcases mem_encodeChar hd with ⟨rfl, -⟩ | hd
  · exact Or.inl hc
  · exact Or.inr hd

/-- Characters that are not replaced stay. -/
theorem mem_percentEncode_of_mem (h : c ∈ t.toList) (hc : c ∉ ['%', '+', ',', '!']) :
    c ∈ (percentEncode t).toList := by
  rw [percentEncode, String.toList_ofList, List.mem_flatMap]
  exact ⟨c, h, by simp [encodeChar_other hc]⟩

theorem head_percentEncode (hc : c ∉ ['%', '+', ',', '!']) :
    (percentEncode t).toList.head? = some c ↔ t.toList.head? = some c := by
  rw [percentEncode, String.toList_ofList]
  cases t.toList with
  | nil => simp
  | cons a l =>
    rw [List.flatMap_cons, List.head?_cons, Option.some.injEq]
    by_cases ha : a ∈ ['%', '+', ',', '!']
    · have hne : a ≠ c := fun h => hc (h ▸ ha)
      have hpercent : '%' ≠ c := fun h => hc (by simp [← h])
      simp only [List.mem_cons, List.not_mem_nil, or_false] at ha
      rcases ha with rfl | rfl | rfl | rfl <;> simp [encodeChar, hne, hpercent]
    · simp [encodeChar_other ha]

theorem percentEncode_eq_empty : (percentEncode t).toList = [] ↔ t = "" := by
  refine ⟨fun h => percentEncode_inj (String.toList_inj.mp ?_), fun h => by rw [h]; decide⟩
  rw [h]
  decide

/-- The encoding of a tag is the expression of that tag alone. -/
theorem parseTagExpr_percentEncode {isPrint : Char → Bool} (ht : t ≠ "")
    (hp : ∀ d ∈ (percentEncode t).toList, isPrint d = true) :
    parseTagExpr isPrint (percentEncode t).toList = .ok (.tag [utf8 t] false []) := by
  have hne : (percentEncode t).toList ≠ [] := mt percentEncode_eq_empty.mp ht
  have hprint : ((percentEncode t).toList.any fun r => !isPrint r) = false := by
    simpa using hp
  have hplus : '+' ∉ (percentEncode t).toList := separator_not_mem (by simp) t
  have hcomma : ',' ∉ (percentEncode t).toList := separator_not_mem (by simp) t
  have hbang : (percentEncode t).toList.head? ≠ some '!' := fun h =>
    separator_not_mem (d := '!') (by simp) t (List.mem_of_mem_head? h)
  have hutf8 : utf8 t ≠ [] := fun h => ht (utf8_inj (h.trans rfl))
  have hpart : andPart ([], []) (percentEncode t).toList = .ok ([utf8 t], []) := by
    rw [andPart, if_neg hne, if_neg hbang, andTag, percentDecode_percentEncode]
    simp only [if_neg hutf8]
    rfl
  rw [parseTagExpr, if_neg hne, hprint, if_neg (by simp), if_neg hcomma, List.splitOn_eq_singleton hplus]
  simp only [List.foldlM_cons, hpart, List.foldlM_nil]
  rfl

end Encode

end Tilbo.Fuse.Grammar
