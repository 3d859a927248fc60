import Mathlib.Data.List.Basic
import Mathlib.Tactic.Common
import Mathlib.Tactic.SplitIfs

/-! # JSON

A reader of JSON texts, and a writer of strings and objects that escapes as Go's `json.Marshal` does. `Reads`
says that a text is read as a value wherever it stands; `reads_quote` and `reads_object` are its rules for what
the writer writes.

The reader gets the length of the text as fuel, which is more than the depth of the value. -/

namespace Tilbo.Lib.Json

inductive Value where
  | null
  | bool (b : Bool)
  /-- A number, as it is written. -/
  | num (text : List Char)
  | str (s : String)
  | arr (items : List Value)
  | obj (members : List (String × Value))

/-! ### Strings -/

def hexDigit (n : ℕ) : Char := "0123456789abcdef".toList.getD n '0'

def hexVal (c : Char) : Option ℕ :=
  if '0' ≤ c ∧ c ≤ '9' then some (c.toNat - '0'.toNat)
  else if 'a' ≤ c ∧ c ≤ 'f' then some (c.toNat - 'a'.toNat + 10)
  else if 'A' ≤ c ∧ c ≤ 'F' then some (c.toNat - 'A'.toNat + 10)
  else none

/-- The four hexadecimal digits of a number. -/
def hex4 (n : ℕ) : List Char :=
  [hexDigit (n / 4096), hexDigit (n / 256 % 16), hexDigit (n / 16 % 16), hexDigit (n % 16)]

def readHex4 (a b c d : Char) : Option ℕ := do
  return 4096 * (← hexVal a) + 256 * (← hexVal b) + 16 * (← hexVal c) + (← hexVal d)

/-- The characters that are escaped as a number: control characters, and those that mean something in HTML or
JavaScript. -/
def numbered (c : Char) : Bool := c.toNat < 0x20 || c ∈ ['<', '>', '&', '\u2028', '\u2029']

def quoteChar (c : Char) : List Char :=
  if c = '"' then ['\\', '"']
  else if c = '\\' then ['\\', '\\']
  else if c = '\n' then ['\\', 'n']
  else if c = '\r' then ['\\', 'r']
  else if c = '\t' then ['\\', 't']
  else if c = '\x08' then ['\\', 'b']
  else if c = '\x0c' then ['\\', 'f']
  else if numbered c then '\\' :: 'u' :: hex4 c.toNat
  else [c]

def quote (s : String) : List Char := '"' :: (s.toList.flatMap quoteChar ++ ['"'])

/-- The character after a backslash, other than `u`. -/
def unescape (c : Char) : Option Char :=
  if c = '"' ∨ c = '\\' ∨ c = '/' then some c
  else if c = 'n' then some '\n'
  else if c = 'r' then some '\r'
  else if c = 't' then some '\t'
  else if c = 'b' then some '\x08'
  else if c = 'f' then some '\x0c'
  else none

/-- The rest of a string literal, as code points and halves of surrogate pairs, and what follows it. -/
def unquote : List Char → Option (List ℕ × List Char)
  | [] => none
  | '"' :: rest => some ([], rest)
  | '\\' :: 'u' :: a :: b :: c :: d :: rest =>
    match readHex4 a b c d with
    | none => none
    | some n => (unquote rest).map fun p => (n :: p.1, p.2)
  | '\\' :: e :: rest =>
    match unescape e with
    | none => none
    | some c => (unquote rest).map fun p => (c.toNat :: p.1, p.2)
  | c :: rest => if c.toNat < 0x20 ∨ c = '\\' then none else (unquote rest).map fun p => (c.toNat :: p.1, p.2)

/-- The characters: two halves of a surrogate pair make one, a lone half is replaced. -/
def ofUnits : List ℕ → List Char
  | [] => []
  | [n] => [if 0xD800 ≤ n ∧ n < 0xE000 then '\uFFFD' else Char.ofNat n]
  | n :: m :: rest =>
    if 0xD800 ≤ n ∧ n < 0xDC00 ∧ 0xDC00 ≤ m ∧ m < 0xE000 then
      Char.ofNat (0x10000 + (n - 0xD800) * 0x400 + (m - 0xDC00)) :: ofUnits rest
    else (if 0xD800 ≤ n ∧ n < 0xE000 then '\uFFFD' else Char.ofNat n) :: ofUnits (m :: rest)

/-- The rest of a string literal. -/
def string (l : List Char) : Option (String × List Char) :=
  (unquote l).map fun p => (String.ofList (ofUnits p.1), p.2)

/-! ### Values -/

def isBlank (c : Char) : Bool := c = ' ' || c = '\t' || c = '\n' || c = '\r'

def skip (l : List Char) : List Char := l.dropWhile isBlank

def digits (l : List Char) : List Char × List Char := l.span Char.isDigit

/-- The part of a number from the point on, if there is one, and from the exponent on, if there is one. -/
def fraction (l : List Char) : Option (List Char × List Char) :=
  match l with
  | '.' :: rest => if (digits rest).1 = [] then none else some ('.' :: (digits rest).1, (digits rest).2)
  | l => some ([], l)

def exponent (l : List Char) : Option (List Char × List Char) :=
  match l with
  | e :: rest =>
    if e = 'e' ∨ e = 'E' then
      let sign := rest.take 1 |>.filter fun c => c = '+' || c = '-'
      let rest := rest.drop sign.length
      if (digits rest).1 = [] then none else some (e :: sign ++ (digits rest).1, (digits rest).2)
    else some ([], l)
  | [] => some ([], l)

def number (l : List Char) : Option (Value × List Char) := do
  let sign := l.take 1 |>.filter (· = '-')
  let (whole, rest) := digits (l.drop sign.length)
  if whole = [] ∨ (whole.head? = some '0' ∧ whole ≠ ['0']) then none
  else
    let (frac, rest) ← fraction rest
    let (exp, rest) ← exponent rest
    return (.num (sign ++ whole ++ frac ++ exp), rest)

mutual

/-- One value, and what follows it. -/
def readValue : ℕ → List Char → Option (Value × List Char)
  | 0, _ => none
  | n + 1, l =>
    match skip l with
    | '"' :: rest => (string rest).map fun p => (.str p.1, p.2)
    | '{' :: rest =>
      match skip rest with
      | '}' :: rest => some (.obj [], rest)
      | rest => (readMembers n rest).map fun p => (.obj p.1, p.2)
    | '[' :: rest =>
      match skip rest with
      | ']' :: rest => some (.arr [], rest)
      | rest => (readItems n rest).map fun p => (.arr p.1, p.2)
    | 't' :: 'r' :: 'u' :: 'e' :: rest => some (.bool true, rest)
    | 'f' :: 'a' :: 'l' :: 's' :: 'e' :: rest => some (.bool false, rest)
    | 'n' :: 'u' :: 'l' :: 'l' :: rest => some (.null, rest)
    | rest => number rest

/-- The members of an object up to its end. -/
def readMembers : ℕ → List Char → Option (List (String × Value) × List Char)
  | 0, _ => none
  | n + 1, l =>
    match skip l with
    | '"' :: rest =>
      match string rest with
      | none => none
      | some (k, rest) =>
        match skip rest with
        | ':' :: rest =>
          match readValue n rest with
          | none => none
          | some (v, rest) =>
            match skip rest with
            | ',' :: rest => (readMembers n rest).map fun p => ((k, v) :: p.1, p.2)
            | '}' :: rest => some ([(k, v)], rest)
            | _ => none
        | _ => none
    | _ => none

/-- The items of an array up to its end. -/
def readItems : ℕ → List Char → Option (List Value × List Char)
  | 0, _ => none
  | n + 1, l =>
    match readValue n l with
    | none => none
    | some (v, rest) =>
      match skip rest with
      | ',' :: rest => (readItems n rest).map fun p => (v :: p.1, p.2)
      | ']' :: rest => some ([v], rest)
      | _ => none

end

/-- The value of a whole text. -/
def parse (text : String) : Option Value :=
  match readValue text.toList.length text.toList with
  | some (v, rest) => if skip rest = [] then some v else none
  | none => none

/-- An object, with the texts of its values. -/
def object (ms : List (String × List Char)) : List Char :=
  '{' :: ([','].intercalate (ms.map fun m => quote m.1 ++ ':' :: m.2) ++ ['}'])

/-! ### What is written is read -/

variable {c : Char} {l rest : List Char} {s : String}

theorem hexVal_hexDigit : ∀ n < 16, hexVal (hexDigit n) = some n := by decide

theorem readHex4_hex4 {n : ℕ} (h : n < 65536) :
    ∃ a b d e, hex4 n = [a, b, d, e] ∧ readHex4 a b d e = some n := by
  refine ⟨_, _, _, _, rfl, ?_⟩
  rw [readHex4, hexVal_hexDigit _ (by omega), hexVal_hexDigit _ (by omega), hexVal_hexDigit _ (by omega),
    hexVal_hexDigit _ (by omega)]
  simp only [Option.bind_eq_bind, Option.bind_some, Option.pure_def, Option.some.injEq]
  omega

theorem toNat_of_numbered (h : numbered c) : c.toNat < 65536 := by
  simp only [numbered, Bool.or_eq_true, decide_eq_true_eq, List.mem_cons, List.not_mem_nil, or_false] at h
  obtain h | rfl | rfl | rfl | rfl | rfl := h
  · omega
  all_goals decide

/-- A character of a string is read back. -/
theorem unquote_quoteChar (c : Char) (l : List Char) :
    unquote (quoteChar c ++ l) = (unquote l).map fun p => (c.toNat :: p.1, p.2) := by
  unfold quoteChar
  split_ifs with h₁ h₂ h₃ h₄ h₅ h₆ h₇ h₈
  · subst h₁; rfl
  · subst h₂; rfl
  · subst h₃; rfl
  · subst h₄; rfl
  · subst h₅; rfl
  · subst h₆; rfl
  · subst h₇; rfl
  · obtain ⟨a, b, d, e, hhex, hread⟩ := readHex4_hex4 (toNat_of_numbered h₈)
    rw [hhex]
    simp only [List.cons_append, List.nil_append, unquote, hread]
  · have hctrl : ¬ c.toNat < 0x20 := fun h => h₈ (by simp [numbered, h])
    simp [unquote, h₂, hctrl]

/-- A character is no half of a surrogate pair. -/
theorem toNat_not_surrogate (c : Char) : ¬ (0xD800 ≤ c.toNat ∧ c.toNat < 0xE000) := by
  have h : c.toNat < 0xD800 ∨ 0xDFFF < c.toNat ∧ c.toNat < 0x110000 := c.valid
  omega

theorem ofUnits_cons (c : Char) (ns : List ℕ) : ofUnits (c.toNat :: ns) = c :: ofUnits ns := by
  have h := toNat_not_surrogate c
  cases ns with
  | nil => simp only [ofUnits, if_neg h, Char.ofNat_toNat]
  | cons m ns =>
    have hpair : ¬ (0xD800 ≤ c.toNat ∧ c.toNat < 0xDC00 ∧ 0xDC00 ≤ m ∧ m < 0xE000) := by omega
    simp only [ofUnits, if_neg h, if_neg hpair, Char.ofNat_toNat]

theorem unquote_quote (s : List Char) (rest : List Char) :
    unquote (s.flatMap quoteChar ++ '"' :: rest) = some (s.map Char.toNat, rest) := by
  induction s with
  | nil => rfl
  | cons c s ih =>
    rw [List.flatMap_cons, List.append_assoc, unquote_quoteChar, ih]
    rfl

theorem string_quote (s : String) (rest : List Char) :
    string (s.toList.flatMap quoteChar ++ '"' :: rest) = some (s, rest) := by
  have hunits : ∀ l : List Char, ofUnits (l.map Char.toNat) = l := by
    intro l
    induction l with
    | nil => rfl
    | cons c l ih => rw [List.map_cons, ofUnits_cons, ih]
  rw [string, unquote_quote]
  simp [hunits]

/-- The text is read as the value, whatever follows it. -/
def Reads (text : List Char) (v : Value) : Prop :=
  ∀ n, text.length ≤ n → ∀ rest, readValue n (text ++ rest) = some (v, rest)

theorem skip_cons (h : isBlank c = false) : skip (c :: l) = c :: l := by simp [skip, h]

theorem quote_append (s : String) (rest : List Char) :
    quote s ++ rest = '"' :: (s.toList.flatMap quoteChar ++ '"' :: rest) := by simp [quote]

theorem length_quote (s : String) : 2 ≤ (quote s).length := by
  rw [quote, List.length_cons, List.length_append]
  simp

theorem reads_quote (s : String) : Reads (quote s) (.str s) := by
  intro n hn rest
  obtain ⟨n, rfl⟩ : ∃ m, n = m + 1 := ⟨n - 1, by have := length_quote s; omega⟩
  rw [quote_append, readValue, skip_cons (by decide)]
  simp only [string_quote]
  rfl

/-- The members of an object, one after the other. -/
def memberTexts (ms : List (String × List Char)) : List Char :=
  [','].intercalate (ms.map fun m => quote m.1 ++ ':' :: m.2)

theorem memberTexts_cons (m : String × List Char) (m' : String × List Char) (ms : List (String × List Char)) :
    memberTexts (m :: m' :: ms) = quote m.1 ++ ':' :: (m.2 ++ ',' :: memberTexts (m' :: ms)) := by
  simp [memberTexts, List.intercalate_cons_cons]

/-- The members are read up to the end of the object. -/
theorem readMembers_texts : ∀ ms : List (String × List Char × Value), ms ≠ [] →
    (∀ m ∈ ms, Reads m.2.1 m.2.2) → ∀ n, (memberTexts (ms.map fun m => (m.1, m.2.1))).length < n → ∀ rest,
    readMembers n (memberTexts (ms.map fun m => (m.1, m.2.1)) ++ '}' :: rest) =
      some (ms.map fun m => (m.1, m.2.2), rest)
  | [], h, _, _, _, _ => absurd rfl h
  | [m], _, hreads, n, hn, rest => by
    obtain ⟨n, rfl⟩ : ∃ k, n = k + 1 := ⟨n - 1, by omega⟩
    have hquote := length_quote m.1
    simp only [List.map_cons, List.map_nil, memberTexts, List.intercalate_singleton, List.length_append,
      List.length_cons] at hn ⊢
    rw [List.append_assoc, quote_append, readMembers, skip_cons (by decide)]
    simp only [string_quote, List.cons_append]
    rw [skip_cons (by decide)]
    simp only [hreads m (List.mem_singleton_self m) n (by omega)]
    rw [skip_cons (by decide)]
    rfl
  | m :: m' :: ms, _, hreads, n, hn, rest => by
    obtain ⟨n, rfl⟩ : ∃ k, n = k + 1 := ⟨n - 1, by omega⟩
    have hquote := length_quote m.1
    rw [List.map_cons, List.map_cons, memberTexts_cons] at hn ⊢
    simp only [List.length_append, List.length_cons] at hn
    have ih := readMembers_texts (m' :: ms) (by simp) (fun x hx => hreads x (List.mem_cons_of_mem _ hx)) n
      (by rw [List.map_cons]; omega) rest
    rw [List.map_cons] at ih
    rw [List.append_assoc, quote_append, readMembers, skip_cons (by decide)]
    simp only [string_quote, List.cons_append, List.append_assoc]
    rw [skip_cons (by decide)]
    simp only [hreads m List.mem_cons_self n (by omega)]
    rw [skip_cons (by decide)]
    simp only [ih]
    rfl

theorem reads_object (ms : List (String × List Char × Value)) (hreads : ∀ m ∈ ms, Reads m.2.1 m.2.2) :
    Reads (object (ms.map fun m => (m.1, m.2.1))) (.obj (ms.map fun m => (m.1, m.2.2))) := by
  intro n hn rest
  obtain ⟨n, rfl⟩ : ∃ k, n = k + 1 := ⟨n - 1, by simp [object] at hn; omega⟩
  have hlen : (memberTexts (ms.map fun m => (m.1, m.2.1))).length < n := by
    simp only [object, List.length_cons, List.length_append, List.length_nil] at hn
    show (List.intercalate _ _).length < n
    omega
  have htext : object (ms.map fun m => (m.1, m.2.1)) ++ rest =
      '{' :: (memberTexts (ms.map fun m => (m.1, m.2.1)) ++ '}' :: rest) := by
    simp [object, memberTexts]
  rw [htext, readValue, skip_cons (by decide)]
  cases ms with
  | nil => rfl
  | cons m ms =>
    have hhead : ∃ l, memberTexts ((m :: ms).map fun m => (m.1, m.2.1)) = '"' :: l := by
      cases ms with
      | nil => exact ⟨m.1.toList.flatMap quoteChar ++ '"' :: ':' :: m.2.1, by simp [memberTexts, quote]⟩
      | cons m' ms => exact ⟨_, by rw [List.map_cons, List.map_cons, memberTexts_cons, quote]; rfl⟩
    obtain ⟨l, hl⟩ := hhead
    have hread := readMembers_texts (m :: ms) (by simp) hreads n hlen rest
    rw [hl, List.cons_append] at hread ⊢
    have hskip : skip ('"' :: (l ++ '}' :: rest)) = '"' :: (l ++ '}' :: rest) := skip_cons (by decide)
    simp only [hskip]
    show Option.map (fun p => (Value.obj p.1, p.2)) (readMembers n ('"' :: (l ++ '}' :: rest))) = _
    rw [hread]
    rfl

/-- A text that is read as a value parses to it. -/
theorem Reads.parse {text : List Char} {v : Value} (h : Reads text v) : Json.parse (String.ofList text) = some v := by
  have hread := h text.length (Nat.le_refl _) []
  rw [List.append_nil] at hread
  rw [Json.parse, String.toList_ofList, hread]
  rfl

end Tilbo.Lib.Json
