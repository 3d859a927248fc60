import Tilbo.Lib.Words

/-! # Paths and file names

The last element of a slash-separated path and its extension, and numbers in decimal: what a name that
is put together from them can be taken apart into. -/

namespace Tilbo.Lib.Paths

open Tilbo.Lib.Words

/-! ### Elements of a path -/

/-- The last element of a path: `.` for the empty path, `/` for one of slashes only. -/
def base (path : String) : String :=
  if path.toList = [] then "."
  else
    let last := (path.toList.rdropWhile (· = '/')).rtakeWhile (· ≠ '/')
    if last = [] then "/" else String.ofList last

/-- The extension: from the last dot of the last element on. -/
def ext (path : String) : String :=
  let last := path.toList.rtakeWhile (· ≠ '/')
  if '.' ∈ last then String.ofList ('.' :: last.rtakeWhile (· ≠ '.')) else ""

/-- The text without the suffix, if it ends in it. -/
def trimSuffix (s suffix : String) : String :=
  if suffix.toList <:+ s.toList then String.ofList (s.toList.take (s.toList.length - suffix.toList.length))
  else s

/-- From the last dot on, if there is a dot. -/
def fromDot (l : List Char) : List Char := if '.' ∈ l then '.' :: l.rtakeWhile (· ≠ '.') else []

/-! ### Taking names apart -/

section Apart
variable {l m stem stem' mid : List Char} {b b' path : String} {k k' : ℕ}

theorem fromDot_append_dot (hm : '.' ∉ m) : fromDot (l ++ '.' :: m) = '.' :: m := by
  rw [fromDot, if_pos (by simp), rtakeWhile_append (by simp)]
  intro d hd
  simpa using fun h : d = '.' => hm (h ▸ hd)

/-- Either there is no dot, or the last one starts the part. -/
theorem fromDot_cases (l : List Char) : (fromDot l = [] ∧ '.' ∉ l) ∨
    ∃ front m, l = front ++ '.' :: m ∧ '.' ∉ m ∧ fromDot l = '.' :: m := by
  by_cases h : '.' ∈ l
  · obtain ⟨back, front, hl, hback⟩ := List.eq_append_cons_of_mem (List.mem_reverse.mpr h)
    have hl' : l = front.reverse ++ '.' :: back.reverse := by
      rw [← List.reverse_reverse l, hl]
      simp
    have hdot : '.' ∉ back.reverse := mt List.mem_reverse.mp hback
    exact Or.inr ⟨front.reverse, back.reverse, hl', hdot, by rw [hl', fromDot_append_dot hdot]⟩
  · exact Or.inl ⟨if_neg h, h⟩

/-- What comes before that part, and text without a dot put between, do not change it. -/
theorem fromDot_insert (hstem : stem ++ fromDot l = l) (hmid : '.' ∉ mid) :
    fromDot (stem ++ mid ++ fromDot l) = fromDot l := by
  rcases fromDot_cases l with ⟨hnil, hdot⟩ | ⟨front, m, -, hm, hext⟩
  · rw [hnil, List.append_nil] at hstem ⊢
    rw [hstem, fromDot, if_neg]
    simp [hdot, hmid]
  · rw [hext, fromDot_append_dot hm]

/-- The numeral at the end of a name. -/
theorem numeral_inj (h : stem ++ '_' :: Nat.toDigits 10 k = stem' ++ '_' :: Nat.toDigits 10 k') :
    stem = stem' ∧ k = k' := by
  have hdigits : ∀ (l : List Char) (n : ℕ), (l ++ '_' :: Nat.toDigits 10 n).rtakeWhile Char.isDigit =
      Nat.toDigits 10 n := fun l n => rtakeWhile_append (by decide) fun _ hd =>
    Nat.isDigit_of_mem_toDigits (by decide) (by decide) hd
  have hd : Nat.toDigits 10 k = Nat.toDigits 10 k' := by rw [← hdigits stem, h, hdigits]
  refine ⟨?_, ?_⟩
  · rw [hd] at h
    exact List.append_cancel_right h
  · rw [← Nat.ofDigitChars_ten_toDigits (n := k), hd, Nat.ofDigitChars_ten_toDigits]

/-- The text with a numeral put before its extension determines text and number. -/
theorem insert_numeral_inj {l' : List Char} (hl : stem ++ fromDot l = l) (hl' : stem' ++ fromDot l' = l')
    (h : stem ++ '_' :: Nat.toDigits 10 k ++ fromDot l = stem' ++ '_' :: Nat.toDigits 10 k' ++ fromDot l') :
    l = l' ∧ k = k' := by
  have hdot : ∀ n, '.' ∉ '_' :: Nat.toDigits 10 n := fun n hn => by
    rcases List.mem_cons.mp hn with h' | h'
    · exact absurd h' (by decide)
    · exact absurd (Nat.isDigit_of_mem_toDigits (by decide) (by decide) h') (by decide)
  have hext : fromDot l = fromDot l' := by
    rw [← fromDot_insert hl (hdot k), h, fromDot_insert hl' (hdot k')]
  rw [hext] at h
  obtain ⟨hstem, hk⟩ := numeral_inj (List.append_cancel_right h)
  exact ⟨by rw [← hl, ← hl', hstem, hext], hk⟩

/-! ### The parts of a last element -/

/-- The last element has no slash, unless it is one. -/
theorem base_slash (path : String) : base path = "/" ∨ '/' ∉ (base path).toList := by
  unfold base
  split_ifs with hnil
  · exact Or.inr (by decide)
  · dsimp only
    split_ifs with hlast
    · exact Or.inl rfl
    · refine Or.inr fun h => ?_
      rw [String.toList_ofList] at h
      simpa using List.mem_rtakeWhile_imp h

/-- The extension of a last element is what follows its last dot. -/
theorem ext_base (path : String) : (ext (base path)).toList = fromDot (base path).toList := by
  rcases base_slash path with h | h
  · rw [h]
    decide
  · have hall : (base path).toList.rtakeWhile (· ≠ '/') = (base path).toList :=
      List.rtakeWhile_eq_self_iff.mpr fun c hc => by simpa using fun hcs : c = '/' => h (hcs ▸ hc)
    unfold ext fromDot
    dsimp only
    rw [hall]
    split_ifs <;> simp

theorem fromDot_suffix (l : List Char) : fromDot l <:+ l := by
  rcases fromDot_cases l with ⟨hnil, -⟩ | ⟨front, m, hl, -, hext⟩
  · rw [hnil]
    exact List.nil_suffix
  · rw [hext, hl]
    exact List.suffix_append _ _

/-- Stem and extension make up the last element. -/
theorem stem_append_ext (path : String) :
    (trimSuffix (base path) (ext (base path))).toList ++ fromDot (base path).toList = (base path).toList := by
  unfold trimSuffix
  rw [ext_base, if_pos (fromDot_suffix _), String.toList_ofList]
  exact List.suffix_iff_eq_append.mp (fromDot_suffix _)

end Apart

end Tilbo.Lib.Paths
