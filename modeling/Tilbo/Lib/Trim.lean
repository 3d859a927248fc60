import Mathlib.Data.List.Infix
import Mathlib.Tactic.Common

/-! # Trimming

Codes are words of several letters, such as the encodings of characters. A list is trimmed of some codes if they are
taken off its front and its end as long as there are any. What is left is a part of the list (`trim_infix`) with no such
code at its ends (`bare_trim`), and is left as it is when it is trimmed again (`trim_trim`). -/

namespace Tilbo.Lib.Trim

variable {α : Type} [DecidableEq α] {codes : List (List α)} {code l : List α} {n : ℕ}

/-- Take codes off the front, `n` at most. -/
def strip (codes : List (List α)) : ℕ → List α → List α
  | 0, l => l
  | n + 1, l =>
    match codes.find? (· <+: l) with
    | some code => strip codes n (l.drop code.length)
    | none => l

def trimLeft (codes : List (List α)) (l : List α) : List α := strip codes l.length l

def trimRight (codes : List (List α)) (l : List α) : List α :=
  (strip (codes.map List.reverse) l.length l.reverse).reverse

def trim (codes : List (List α)) (l : List α) : List α := trimRight codes (trimLeft codes l)

theorem strip_suffix : strip codes n l <:+ l := by
  induction n generalizing l with
  | zero => exact List.suffix_rfl
  | succ n ih =>
    unfold strip
    split
    · exact ih.trans (List.drop_suffix _ _)
    · exact List.suffix_rfl

/-- As many codes as there are letters are enough to get to the end of the codes. -/
theorem not_prefix_strip (hcodes : ∀ code ∈ codes, code ≠ []) (hn : l.length ≤ n) (hcode : code ∈ codes) :
    ¬ code <+: strip codes n l := by
  induction n generalizing l with
  | zero =>
    obtain rfl : l = [] := List.length_eq_zero_iff.mp (Nat.le_zero.mp hn)
    exact fun h => hcodes code hcode (List.prefix_nil.mp h)
  | succ n ih =>
    unfold strip
    split
    · rename_i c hfind
      have hpos : 0 < c.length := List.length_pos_iff.mpr (hcodes c (List.mem_of_find?_eq_some hfind))
      refine ih ?_
      rw [List.length_drop]
      omega
    · rename_i hfind
      simpa using List.find?_eq_none.mp hfind code hcode

theorem strip_eq_self (h : ∀ code ∈ codes, ¬ code <+: l) : strip codes n l = l := by
  cases n with
  | zero => rfl
  | succ n =>
    have hfind : codes.find? (· <+: l) = none := List.find?_eq_none.mpr fun code hcode => by simpa using h code hcode
    unfold strip
    rw [hfind]

theorem trimRight_prefix : trimRight codes l <+: l := by
  have h := List.reverse_prefix.mpr (@strip_suffix _ _ (codes.map List.reverse) l.reverse l.length)
  rwa [List.reverse_reverse] at h

theorem trim_infix : trim codes l <:+: l :=
  trimRight_prefix.isInfix.trans strip_suffix.isInfix

/-- No code is left at the ends. -/
theorem bare_trim (hcodes : ∀ code ∈ codes, code ≠ []) (hcode : code ∈ codes) :
    ¬ code <+: trim codes l ∧ ¬ code <:+ trim codes l := by
  refine ⟨fun h => not_prefix_strip hcodes le_rfl hcode (h.trans trimRight_prefix), fun h => ?_⟩
  have hrev : ∀ c ∈ codes.map List.reverse, c ≠ [] := by
    intro c hc
    obtain ⟨c, hmem, rfl⟩ := List.mem_map.mp hc
    exact fun hnil => hcodes c hmem (List.reverse_eq_nil_iff.mp hnil)
  refine not_prefix_strip (n := (trimLeft codes l).length) (l := (trimLeft codes l).reverse) hrev
    (by rw [List.length_reverse]) (List.mem_map_of_mem hcode) ?_
  have h' := List.reverse_prefix.mpr h
  rwa [trim, trimRight, List.reverse_reverse] at h'

theorem trim_eq_self (h : ∀ code ∈ codes, ¬ code <+: l ∧ ¬ code <:+ l) : trim codes l = l := by
  have hleft : trimLeft codes l = l := strip_eq_self fun code hcode => (h code hcode).1
  have hright : strip (codes.map List.reverse) l.length l.reverse = l.reverse := strip_eq_self fun c hc hpre => by
    obtain ⟨c, hmem, rfl⟩ := List.mem_map.mp hc
    exact (h c hmem).2 (List.reverse_prefix.mp hpre)
  rw [trim, hleft, trimRight, hright, List.reverse_reverse]

theorem trim_trim (hcodes : ∀ code ∈ codes, code ≠ []) : trim codes (trim codes l) = trim codes l :=
  trim_eq_self fun _ => bare_trim hcodes

end Tilbo.Lib.Trim
