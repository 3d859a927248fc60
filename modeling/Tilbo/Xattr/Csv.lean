import Mathlib.Data.List.DropRight
import Mathlib.Tactic.Common
import Mathlib.Tactic.SplitIfs

/-! # Tag lists as one line of CSV

The tag attribute holds the tags of a file as one record of comma-separated values. This file has the
writer and the reader of `encoding/csv` as `WriteTags` and `ReadTags` use them (comma as separator, no
lazy quotes, no carriage returns added), on lists of characters.

`parseTags_formatTags` says what becomes of a list that is written and read again: `stored` of it, that
is the list without its empty tags, with `\r\n` turned into `\n`, and without the white space at the end
of the last tag unless that tag is quoted. -/

namespace Tilbo.Xattr.Csv

/-! ### The reader and the writer -/

/-- `unicode.IsSpace`. -/
def isSpace (c : Char) : Bool :=
  c ∈ ['\t', '\n', '\x0b', '\x0c', '\r', ' ', '\u0085', '\u00a0', '\u1680', '\u2028', '\u2029', '\u202f',
    '\u205f', '\u3000'] || ('\u2000' ≤ c && c ≤ '\u200a')

/-- `strings.TrimSpace`. -/
def trimSpace (s : List Char) : List Char := (s.dropWhile isSpace).rdropWhile isSpace

/-- The reader turns `\r\n` into `\n`. -/
def dropCR : List Char → List Char
  | [] => []
  | c :: t => if c = '\r' ∧ t.head? = some '\n' then dropCR t else c :: dropCR t

/-- `csv.ErrBareQuote` and `csv.ErrQuote`. -/
inductive ParseError where
  | bareQuote
  | quote
deriving DecidableEq, Repr

/-- Where in a field the reader is: before it, in one without quotes, between quotes, or behind a quote
that may close the field. -/
inductive Mode where
  | start
  | bare
  | quoted
  | closing
deriving DecidableEq

/-- The fields of the first record of a text; `cur` is what has been read of the current field. -/
def fields : List Char → Mode → List Char → Except ParseError (List (List Char))
  | [], .quoted, _ => .error .quote
  | [], _, cur => .ok [cur]
  | c :: t, .start, _ =>
    if c = '"' then fields t .quoted []
    else if c = ',' then (fields t .start []).map ([] :: ·)
    else if c = '\n' then .ok [[]]
    else fields t .bare [c]
  | c :: t, .bare, cur =>
    if c = ',' then (fields t .start []).map (cur :: ·)
    else if c = '\n' then .ok [cur]
    else if c = '"' then .error .bareQuote
    else fields t .bare (cur ++ [c])
  | c :: t, .quoted, cur => if c = '"' then fields t .closing cur else fields t .quoted (cur ++ [c])
  | c :: t, .closing, cur =>
    if c = '"' then fields t .quoted (cur ++ ['"'])
    else if c = ',' then (fields t .start []).map (cur :: ·)
    else if c = '\n' then .ok [cur]
    else .error .quote

/-- `csv.Reader.Read` on a text that does not start with an empty line. -/
def read (s : List Char) : Except ParseError (List (List Char)) := fields (dropCR s) .start []

/-- `fieldNeedsQuotes`. -/
def fieldNeedsQuotes (f : List Char) : Bool :=
  f ≠ [] && (f = ['\\', '.'] || f.any (fun c => c = '\n' || c = '\r' || c = '"' || c = ',') ||
    f.head?.any isSpace)

/-- The characters of a quoted field: quotes are doubled. -/
def escape (f : List Char) : List Char := f.flatMap fun c => if c = '"' then ['"', '"'] else [c]

/-- One field as the writer puts it down. -/
def encodeField (f : List Char) : List Char :=
  if fieldNeedsQuotes f then '"' :: escape f ++ ['"'] else f

/-- The fields of a record, with commas between them. -/
def encode : List (List Char) → List Char
  | [] => []
  | [f] => encodeField f
  | f :: fs => encodeField f ++ ',' :: encode fs

/-- The part of `ReadTags` after the attribute is read. -/
def parseTags (val : String) : Except ParseError (List String) :=
  let str := trimSpace val.toList
  if str = [] then .ok []
  else (read str).map fun record => (record.filter (· ≠ [])).map String.ofList

/-- The part of `WriteTags` before the attribute is written. -/
def formatTags (tags : List String) : String :=
  String.ofList ((encode (tags.map String.toList) ++ ['\n']).rdropWhile fun c => c = '\r' || c = '\n')

/-! ### What survives -/

/-- The fields of a record after writing, trimming and reading it. -/
def storedFields : List (List Char) → List (List Char)
  | [] => []
  | [f] => [dropCR (if fieldNeedsQuotes f then f else f.rdropWhile isSpace)]
  | f :: fs => dropCR f :: storedFields fs

/-- The tags a file has after these are written to it. -/
def stored (tags : List String) : List String :=
  ((storedFields (tags.map String.toList)).filter (· ≠ [])).map String.ofList

/-! ### Trimming -/

variable {f t u v cur : List Char} {fs : List (List Char)} {c : Char} {p : Char → Bool}

theorem rdropWhile_append : (u ++ v).rdropWhile p =
    if v.rdropWhile p = [] then u.rdropWhile p else u ++ v.rdropWhile p := by
  simp only [List.rdropWhile, List.reverse_append, List.dropWhile_append, List.reverse_eq_nil_iff,
    List.isEmpty_iff]
  split_ifs <;> simp

theorem rdropWhile_cons (hc : p c = false) : (c :: v).rdropWhile p = c :: v.rdropWhile p := by
  have h := rdropWhile_append (u := [c]) (v := v) (p := p)
  have hone : [c].rdropWhile p = [c] := by simp [List.rdropWhile, hc]
  rw [hone] at h
  rw [show c :: v = [c] ++ v from rfl, h]
  split_ifs with hv
  · rw [hv]
  · rfl

theorem rdropWhile_quote (hp : p '"' = false) : (u ++ ['"']).rdropWhile p = u ++ ['"'] := by
  rw [rdropWhile_append]
  simp [List.rdropWhile, hp]

theorem rdropWhile_none (h : ∀ c ∈ v, p c = false) : v.rdropWhile p = v :=
  List.rdropWhile_eq_self_iff.mpr fun hv => by rw [h _ (List.getLast_mem hv)]; simp

/-- The record with another rendering of its last field. -/
def render (last : List Char → List Char) : List (List Char) → List Char
  | [] => []
  | [f] => last f
  | f :: fs => encodeField f ++ ',' :: render last fs

theorem encode_eq_render : ∀ fs, encode fs = render encodeField fs
  | [] => rfl
  | [_] => rfl
  | f :: g :: fs => by
    show encodeField f ++ ',' :: encode (g :: fs) = encodeField f ++ ',' :: render encodeField (g :: fs)
    rw [encode_eq_render (g :: fs)]

theorem rdropWhile_render (hp : p ',' = false) (last : List Char → List Char) : ∀ fs,
    (render last fs).rdropWhile p = render (fun f => (last f).rdropWhile p) fs
  | [] => by simp [render, List.rdropWhile]
  | [_] => rfl
  | f :: g :: fs => by
    have ih := rdropWhile_render hp last (g :: fs)
    show (encodeField f ++ ',' :: render last (g :: fs)).rdropWhile p =
      encodeField f ++ ',' :: render (fun f => (last f).rdropWhile p) (g :: fs)
    rw [rdropWhile_append, rdropWhile_cons hp, ih, if_neg (by simp)]

theorem bare_plain (h : fieldNeedsQuotes f = false) (hc : c ∈ f) :
    c ≠ '\n' ∧ c ≠ '\r' ∧ c ≠ '"' ∧ c ≠ ',' := by
  have hf : f ≠ [] := List.ne_nil_of_mem hc
  simp only [fieldNeedsQuotes, hf, ne_eq, not_false_eq_true, decide_true, Bool.true_and,
    Bool.or_eq_false_iff, List.any_eq_false] at h
  simpa [not_or, and_assoc] using h.1.2 c hc

theorem bare_head (h : fieldNeedsQuotes (c :: f) = false) : isSpace c = false := by
  simp only [fieldNeedsQuotes, ne_eq, reduceCtorEq, not_false_eq_true, decide_true, Bool.true_and,
    Bool.or_eq_false_iff] at h
  simpa using h.2

/-- What the writer puts down for the last field ends in no line break. -/
theorem encodeField_no_break :
    (encodeField f).rdropWhile (fun c => c = '\r' || c = '\n') = encodeField f := by
  unfold encodeField
  split_ifs with h
  · exact rdropWhile_quote (u := '"' :: escape f) (by decide)
  · refine rdropWhile_none fun c hc => ?_
    have hplain := bare_plain (by simpa using h) hc
    simp [hplain.1, hplain.2.1]

/-- The last field after trimming. -/
def lastField (f : List Char) : List Char :=
  if fieldNeedsQuotes f then '"' :: escape f ++ ['"'] else f.rdropWhile isSpace

theorem rdropWhile_encodeField : (encodeField f).rdropWhile isSpace = lastField f := by
  unfold encodeField lastField
  split_ifs
  · exact rdropWhile_quote (u := '"' :: escape f) (by decide)
  · rfl

/-- A field as it is written does not start with white space. -/
theorem encodeField_head (rest : List Char) (hrest : rest.head?.any isSpace = false) :
    (encodeField f ++ rest).dropWhile isSpace = encodeField f ++ rest := by
  suffices h : (encodeField f ++ rest).head?.any isSpace = false by
    cases hl : encodeField f ++ rest with
    | nil => rfl
    | cons c t =>
      rw [hl] at h
      have hc : isSpace c = false := by simpa using h
      simp [hc]
  unfold encodeField
  split_ifs with h
  · rfl
  · cases f with
    | nil => exact hrest
    | cons c f =>
      have hc := bare_head (by simpa using h)
      simpa using hc

theorem dropWhile_render : ∀ fs, (render encodeField fs).dropWhile isSpace = render encodeField fs
  | [] => rfl
  | [f] => by
    have h := encodeField_head (f := f) [] rfl
    rwa [List.append_nil] at h
  | _ :: g :: fs => encodeField_head (',' :: render encodeField (g :: fs)) rfl

/-- What is stored in the attribute, trimmed. -/
theorem trimSpace_encode :
    trimSpace ((encode fs ++ ['\n']).rdropWhile fun c => c = '\r' || c = '\n') = render lastField fs := by
  have hbreak : (render encodeField fs).rdropWhile (fun c => c = '\r' || c = '\n') =
      render encodeField fs := by
    rw [rdropWhile_render (by decide)]
    exact congrArg (render · fs) (funext fun f => encodeField_no_break)
  rw [encode_eq_render, rdropWhile_append, if_pos (by simp [List.rdropWhile]), hbreak, trimSpace,
    dropWhile_render, rdropWhile_render (by decide)]
  exact congrArg (render · fs) (funext fun f => rdropWhile_encodeField)

/-! ### Reading back -/

theorem dropCR_append (h : '\r' ∉ u) : dropCR (u ++ v) = u ++ dropCR v := by
  induction u with
  | nil => rfl
  | cons c u ih =>
    simp only [List.mem_cons, not_or] at h
    have hc : ¬ (c = '\r' ∧ (u ++ v).head? = some '\n') := fun hcr => h.1 hcr.1.symm
    rw [List.cons_append, dropCR, if_neg hc, ih h.2]
    rfl

theorem dropCR_self (h : '\r' ∉ u) : dropCR u = u := by
  have := dropCR_append h (v := [])
  rwa [List.append_nil, dropCR, List.append_nil] at this

/-- Doubling the quotes does not separate a `\r` from its `\n`. -/
theorem dropCR_escape : dropCR (escape f ++ '"' :: v) = escape (dropCR f) ++ '"' :: dropCR v := by
  induction f with
  | nil => exact dropCR_append (u := ['"']) (by decide)
  | cons c f ih =>
    have hhead : (escape f ++ '"' :: v).head? = some '\n' ↔ f.head? = some '\n' := by
      cases f with
      | nil => simp [escape]
      | cons d f =>
        by_cases hd : d = '"'
        · simp [escape, hd]
        · simp [escape, hd]
    by_cases hq : c = '"'
    · subst hq
      have hcr : '"' ≠ '\r' := by decide
      have h2 := dropCR_append (u := ['"', '"']) (v := escape f ++ '"' :: v) (by decide)
      show dropCR (['"', '"'] ++ (escape f ++ '"' :: v)) = _
      rw [h2, ih, dropCR, if_neg fun h => hcr h.1]
      rfl
    · have hc : escape (c :: f) = c :: escape f := by simp [escape, hq]
      rw [hc, List.cons_append, dropCR, dropCR]
      simp only [hhead, ih]
      split_ifs
      · rfl
      · simp [escape, hq]

/-- The rest of a record, read from the end of a field. -/
inductive Ends (cur : List Char) : List Char → List (List Char) → Prop
  | last : Ends cur [] [cur]
  | more {t : List Char} {fs : List (List Char)} (h : fields t .start [] = .ok fs) : Ends cur (',' :: t) (cur :: fs)

theorem fields_bare (hf : ∀ c ∈ f, c ≠ '\n' ∧ c ≠ '\r' ∧ c ≠ '"' ∧ c ≠ ',')
    (h : Ends (cur ++ f) v fs) : fields (f ++ v) .bare cur = .ok fs := by
  induction f generalizing cur with
  | nil =>
    rw [List.append_nil] at h
    cases h with
    | last => rfl
    | more h => simp [fields, h, Except.map]
  | cons c f ih =>
    obtain ⟨hn, -, hq, hcomma⟩ := hf c (by simp)
    rw [List.cons_append, fields, if_neg hcomma, if_neg hn, if_neg hq]
    exact ih (fun d hd => hf d (by simp [hd])) (by simpa using h)

theorem fields_escape (h : Ends (cur ++ f) v fs) :
    fields (escape f ++ '"' :: v) .quoted cur = .ok fs := by
  induction f generalizing cur with
  | nil =>
    rw [List.append_nil] at h
    show fields ('"' :: v) .quoted cur = _
    rw [fields, if_pos rfl]
    cases h with
    | last => rfl
    | more h => simp [fields, h, Except.map]
  | cons c f ih =>
    have h' : Ends ((cur ++ [c]) ++ f) v fs := by simpa using h
    by_cases hq : c = '"'
    · subst hq
      show fields ('"' :: '"' :: (escape f ++ '"' :: v)) .quoted cur = _
      rw [fields, if_pos rfl, fields, if_pos rfl]
      exact ih h'
    · have hc : escape (c :: f) = c :: escape f := by simp [escape, hq]
      rw [hc, List.cons_append, fields, if_neg hq]
      exact ih h'

/-- A field of plain characters is read as it is. -/
theorem fields_plain (hf : ∀ c ∈ f, c ≠ '\n' ∧ c ≠ '\r' ∧ c ≠ '"' ∧ c ≠ ',') (h : Ends f v fs) :
    fields (f ++ v) .start [] = .ok fs := by
  cases f with
  | nil =>
    cases h with
    | last => rfl
    | more h => simp [fields, h, Except.map]
  | cons c f =>
    obtain ⟨hn, -, hq, hcomma⟩ := hf c (by simp)
    rw [List.cons_append, fields, if_neg hq, if_neg hcomma, if_neg hn]
    exact fields_bare (fun d hd => hf d (by simp [hd])) h

/-- A written field reads as what it was, up to `\r\n`. -/
theorem fields_encodeField (h : Ends (dropCR f) (dropCR v) fs) :
    fields (dropCR (encodeField f ++ v)) .start [] = .ok fs := by
  unfold encodeField
  split_ifs with hq
  · have hd : dropCR ('"' :: (escape f ++ ('"' :: v))) = '"' :: (escape (dropCR f) ++ '"' :: dropCR v) := by
      rw [← dropCR_escape]
      exact dropCR_append (u := ['"']) (by decide)
    have happ : '"' :: escape f ++ ['"'] ++ v = '"' :: (escape f ++ ('"' :: v)) := by simp
    rw [happ, hd, fields, if_pos rfl]
    exact fields_escape h
  · have hplain := fun c (hc : c ∈ f) => bare_plain (by simpa using hq) hc
    have hcr : '\r' ∉ f := fun hc => (hplain _ hc).2.1 rfl
    rw [dropCR_self hcr] at h
    rw [dropCR_append hcr]
    exact fields_plain hplain h

/-- The whole record. -/
theorem fields_render : ∀ fs, fs ≠ [] →
    fields (dropCR (render lastField fs)) .start [] = .ok (storedFields fs)
  | [], h => absurd rfl h
  | [f], _ => by
    show fields (dropCR (lastField f)) .start [] =
      .ok [dropCR (if fieldNeedsQuotes f then f else f.rdropWhile isSpace)]
    unfold lastField
    split_ifs with hq
    · have h := fields_encodeField (f := f) (v := []) Ends.last
      rwa [List.append_nil, encodeField, if_pos hq] at h
    · have hplain := fun c (hc : c ∈ f) => bare_plain (by simpa using hq) hc
      have hsub : ∀ c ∈ f.rdropWhile isSpace, c ∈ f :=
        fun c hc => (List.rdropWhile_prefix isSpace f).subset hc
      have hcr : '\r' ∉ f.rdropWhile isSpace := fun hc => (hplain _ (hsub _ hc)).2.1 rfl
      rw [dropCR_self hcr]
      have hlast : Ends (f.rdropWhile isSpace) [] [f.rdropWhile isSpace] := Ends.last
      have h := fields_plain (fun c hc => hplain c (hsub c hc)) hlast
      rwa [List.append_nil] at h
  | f :: g :: fs, _ => by
    have ih := fields_render (g :: fs) (by simp)
    refine fields_encodeField (v := ',' :: render lastField (g :: fs)) ?_
    have hcomma : dropCR (',' :: render lastField (g :: fs)) = ',' :: dropCR (render lastField (g :: fs)) :=
      dropCR_append (u := [',']) (by decide)
    rw [hcomma]
    exact Ends.more ih

/-- **What is read back.** The reader understands whatever the writer writes, and finds the `stored`
tags. -/
theorem parseTags_formatTags (tags : List String) : parseTags (formatTags tags) = .ok (stored tags) := by
  unfold parseTags formatTags stored
  simp only [String.toList_ofList, trimSpace_encode]
  generalize tags.map String.toList = fs
  by_cases hfs : fs = []
  · subst hfs
    rfl
  have h := fields_render fs hfs
  by_cases hempty : render lastField fs = []
  · rw [hempty] at h
    have hone : [[]] = storedFields fs := Except.ok.inj h
    rw [if_pos hempty, ← hone]
    rfl
  · rw [if_neg hempty, read, h]
    rfl

example : parseTags (formatTags ["a,b", "say \"hi\"", " x", "tail "]) =
    .ok ["a,b", "say \"hi\"", " x", "tail"] := by decide

end Tilbo.Xattr.Csv
