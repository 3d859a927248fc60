import Mathlib.Data.List.Infix
import Mathlib.Tactic.SplitIfs

/-! # The SQL operator `LIKE`

`%` in a pattern stands for any run of characters and `_` for any single one; any other character
stands for itself, up to the case of ASCII letters. -/

namespace Tilbo.Lib.Like

/-- The case of ASCII letters does not matter. -/
def fold (c : Char) : Char := c.toLower

/-- `text LIKE pattern`. -/
def like : List Char → List Char → Bool
  | [], t => t.isEmpty
  | c :: p, t =>
    if c = '%' then t.tails.any (like p)
    else match t with
      | [] => false
      | d :: t => (c = '_' || fold c = fold d) && like p t

/-- Characters that stand for themselves. -/
def Literal (p : List Char) : Prop := ∀ c ∈ p, c ≠ '%' ∧ c ≠ '_'

instance (p : List Char) : Decidable (Literal p) := inferInstanceAs (Decidable (∀ c ∈ p, _))

theorem like_nil {t : List Char} : like [] t = true ↔ t = [] := by simp [like]

theorem like_percent {p t : List Char} : like ('%' :: p) t = true ↔ ∃ u v, t = u ++ v ∧ like p v = true := by
  simp only [like, if_true, List.any_eq_true, List.mem_tails]
  refine ⟨?_, ?_⟩
  · rintro ⟨v, ⟨u, rfl⟩, hv⟩
    exact ⟨u, v, rfl, hv⟩
  · rintro ⟨u, v, rfl, hv⟩
    exact ⟨v, List.suffix_append u v, hv⟩

/-- A lone `%` matches everything. -/
theorem like_percent_nil (t : List Char) : like ['%'] t = true :=
  like_percent.mpr ⟨t, [], by simp, like_nil.mpr rfl⟩

/-- A literal start of the pattern consumes as many characters, equal up to case. -/
theorem like_literal_append {q p : List Char} (hq : Literal q) {t : List Char} :
    like (q ++ p) t = true ↔ ∃ u v, t = u ++ v ∧ u.map fold = q.map fold ∧ like p v = true := by
  induction q generalizing t with
  | nil => simp
  | cons c q ih =>
    have hc := hq c (by simp)
    have hq' : Literal q := fun d hd => hq d (by simp [hd])
    cases t with
    | nil =>
      simp only [List.cons_append, like, if_neg hc.1]
      refine ⟨fun h => by simp at h, ?_⟩
      rintro ⟨u, v, huv, hu, -⟩
      obtain ⟨rfl, rfl⟩ := List.append_eq_nil_iff.mp huv.symm
      simp at hu
    | cons d t =>
      simp only [List.cons_append, like, if_neg hc.1, hc.2, decide_false, Bool.false_or,
        Bool.and_eq_true, decide_eq_true_eq, ih hq']
      refine ⟨?_, ?_⟩
      · rintro ⟨hcd, u, v, rfl, hu, hv⟩
        exact ⟨d :: u, v, rfl, by simp [hcd, hu], hv⟩
      · rintro ⟨u, v, huv, hu, hv⟩
        cases u with
        | nil => simp at hu
        | cons d' u =>
          simp only [List.cons_append, List.cons.injEq] at huv
          obtain ⟨rfl, rfl⟩ := huv
          simp only [List.map_cons, List.cons.injEq] at hu
          exact ⟨hu.1.symm, u, v, rfl, hu.2, hv⟩

/-- **A literal prefix.** `p%` matches what begins with `p`, up to case. -/
theorem like_starts {p : List Char} (hp : Literal p) {t : List Char} :
    like (p ++ ['%']) t = true ↔ ∃ u v, t = u ++ v ∧ u.map fold = p.map fold := by
  simp only [like_literal_append hp, like_percent_nil, and_true]

/-- Every character of a pattern matches itself. -/
theorem like_self_append : ∀ (p : List Char) {q t : List Char}, like q t = true →
    like (p ++ q) (p ++ t) = true
  | [], _, _, h => h
  | c :: p, q, t, h => by
    have ih := like_self_append p h
    by_cases hc : c = '%'
    · subst hc
      exact like_percent.mpr ⟨['%'], p ++ t, rfl, ih⟩
    · simp [like, hc, ih]

end Tilbo.Lib.Like
