import Mathlib.Data.List.Infix
import Mathlib.Tactic.Common
import Mathlib.Tactic.SplitIfs

/-! # Fields between codes

A text is cut into fields at codes, which are words of several letters such as the encodings of the characters that are
white space; no field is empty. A field that has none of the codes in it is found before a letter that is a code by
itself (`fields_append`). -/

namespace Tilbo.Lib.Fields

variable {α : Type} {codes : List (List α)} {code field l m : List α} {sep : α}

/-- The letter is a code, and in no other. -/
structure Separates (codes : List (List α)) (sep : α) : Prop where
  mem : [sep] ∈ codes
  only : ∀ code ∈ codes, sep ∈ code → code = [sep]

/-- No code is in the text. -/
def Free (codes : List (List α)) (l : List α) : Prop := ∀ code ∈ codes, ¬ code <:+: l

/-- A code that begins before a separator ends before it. -/
theorem prefix_of_separates (hsep : Separates codes sep) (hcode : code ∈ codes) (hm : m ≠ [])
    (h : code <+: m ++ sep :: l) : code <+: m := by
  obtain ⟨a, m, rfl⟩ := List.exists_cons_of_ne_nil hm
  have hfront : a :: m ++ [sep] <+: a :: m ++ sep :: l := ⟨l, by simp⟩
  have hlong : ¬ a :: m ++ [sep] <+: code := fun hpre => by
    have hone := hsep.only code hcode (hpre.subset (by simp))
    have hlength := hpre.length_le
    rw [hone] at hlength
    simp at hlength
  rcases List.prefix_or_prefix_of_prefix h hfront with hpre | hpre
  · exact (List.prefix_concat_iff.mp hpre).resolve_left fun heq => hlong (heq ▸ List.prefix_rfl)
  · exact absurd hpre hlong

/-- A field, unless it is empty. -/
def flush (field : List α) : List (List α) := if field = [] then [] else [field]

theorem ne_nil_of_mem_flush (h : m ∈ flush field) : m ≠ [] := by
  unfold flush at h
  split_ifs at h with hnil
  · cases h
  · rw [List.mem_singleton.mp h]
    exact hnil

variable [DecidableEq α]

/-- The fields, when so many letters of a code are to be passed over, and this much of a field has been read. -/
def scan (codes : List (List α)) : ℕ → List α → List α → List (List α)
  | _, field, [] => flush field
  | n + 1, field, _ :: l => scan codes n field l
  | 0, field, a :: l =>
    match codes.find? (· <+: a :: l) with
    | some code => flush field ++ scan codes (code.length - 1) [] l
    | none => scan codes 0 (field ++ [a]) l

/-- The fields of a text. -/
def fields (codes : List (List α)) (l : List α) : List (List α) := scan codes 0 [] l

theorem ne_nil_of_mem_scan {n : ℕ} (h : m ∈ scan codes n field l) : m ≠ [] := by
  induction l generalizing n field with
  | nil => exact ne_nil_of_mem_flush (by simpa [scan] using h)
  | cons a l ih =>
    rcases n with _ | n
    · rw [scan] at h
      split at h
      · rcases List.mem_append.mp h with h | h
        · exact ne_nil_of_mem_flush h
        · exact ih h
      · exact ih h
    · exact ih h

/-- No field is empty. -/
theorem ne_nil_of_mem_fields (h : m ∈ fields codes l) : m ≠ [] := ne_nil_of_mem_scan h

theorem scan_append (hsep : Separates codes sep) (hl : Free codes m) :
    scan codes 0 field (m ++ sep :: l) = flush (field ++ m) ++ fields codes l := by
  induction m generalizing field with
  | nil =>
    have hnot : ∀ code, codes.find? (· <+: sep :: l) = some code → code = [sep] := fun code hcode => by
      have hpre : code <+: sep :: l := by simpa using List.find?_some hcode
      have hne : code ≠ [] := by
        rintro rfl
        exact hl [] (List.mem_of_find?_eq_some hcode) List.nil_infix
      obtain ⟨a, rest, rfl⟩ := List.exists_cons_of_ne_nil hne
      obtain rfl : a = sep := (List.cons_prefix_cons.mp hpre).1
      exact hsep.only _ (List.mem_of_find?_eq_some hcode) List.mem_cons_self
    rw [List.nil_append, List.append_nil, scan]
    rcases hfind : codes.find? (· <+: sep :: l) with _ | code
    · exact absurd (List.find?_eq_none.mp hfind [sep] hsep.mem) (by simp)
    · rw [hnot code hfind]
      rfl
  | cons a m ih =>
    have hnone : codes.find? (· <+: a :: m ++ sep :: l) = none := List.find?_eq_none.mpr fun code hcode => by
      have hpre : ¬ code <+: a :: m ++ sep :: l := fun h =>
        hl code hcode (prefix_of_separates hsep hcode (List.cons_ne_nil a m) h).isInfix
      simpa using hpre
    have hrest : Free codes m := fun code hcode h => hl code hcode (List.infix_cons h)
    rw [List.cons_append] at hnone ⊢
    rw [scan, hnone]
    dsimp only
    rw [ih hrest, List.append_assoc, List.singleton_append]

/-- **A field is found** before a separator. -/
theorem fields_append (hsep : Separates codes sep) (hm : m ≠ []) (hfree : Free codes m) :
    fields codes (m ++ sep :: l) = m :: fields codes l := by
  rw [fields, scan_append hsep hfree, List.nil_append, flush, if_neg hm, List.singleton_append]

end Tilbo.Lib.Fields
