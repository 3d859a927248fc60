import Mathlib
import Tilbo.Lib.Like

/-! # When a `LIKE` prefix matches nothing but itself

`like_starts_plain` and `exists_lookalike`: a prefix pattern is a test for that prefix if and only if its
characters are no wildcards and no letters. -/

namespace Tilbo.Lib.Like

/-- No wildcard and no letter that has another case. -/
def Plain (c : Char) : Prop := c ≠ '%' ∧ c ≠ '_' ∧ c.isAlpha = false

instance (c : Char) : Decidable (Plain c) := inferInstanceAs (Decidable (_ ∧ _))

theorem fold_eq_self_iff {c : Char} : fold c = c ↔ c.isUpper = false := by
  refine ⟨fun h => ?_, fun h => Char.toLower_eq_of_not_isUpper (by simp [h])⟩
  rw [← h]
  exact Char.isUpper_toLower_eq_false c

/-- Only letters have another case. -/
theorem Plain.fold_inj {c d : Char} (hc : Plain c) (h : fold c = fold d) : c = d := by
  have halpha : ∀ x : Char, (fold x).isAlpha = x.isAlpha := Char.isAlpha_toLower_eq_isAlpha
  have hd : d.isAlpha = false := by rw [← halpha, ← h, halpha, hc.2.2]
  have hupper : ∀ x : Char, x.isAlpha = false → x.isUpper = false := fun x hx => by
    simpa [Char.isAlpha, Bool.or_eq_false_iff] using (Bool.or_eq_false_iff.mp hx).1
  rw [← fold_eq_self_iff.mpr (hupper c hc.2.2), h, fold_eq_self_iff.mpr (hupper d hd)]

/-- A letter has another case. -/
theorem exists_fold_eq {c : Char} (hc : c.isAlpha = true) : ∃ d, d ≠ c ∧ fold c = fold d := by
  cases hup : c.isUpper with
  | true =>
    refine ⟨fold c, fun h => ?_, (Char.toLower_toLower_eq_toLower c).symm⟩
    rw [fold_eq_self_iff.mp h] at hup
    cases hup
  | false =>
    refine ⟨c.toUpper, fun h => ?_, (Char.toLower_toUpper_eq_toLower c).symm⟩
    have hupper := Char.isUpper_toUpper_eq_isAlpha c
    rw [h, hup, hc] at hupper
    cases hupper

/-- A plain prefix matches only what begins with it. -/
theorem like_starts_plain {p : List Char} (hp : ∀ c ∈ p, Plain c) {t : List Char} :
    like (p ++ ['%']) t = true ↔ p <+: t := by
  refine ⟨fun h => ?_, ?_⟩
  · obtain ⟨u, v, rfl, hu⟩ := (like_starts fun c hc => ⟨(hp c hc).1, (hp c hc).2.1⟩).mp h
    have hup : u = p := by
      clear h
      induction u generalizing p with
      | nil => simpa using hu.symm
      | cons d u ih =>
        cases p with
        | nil => simp at hu
        | cons c p =>
          obtain ⟨hdc, hu⟩ := List.cons_eq_cons.mp hu
          rw [ih (fun x hx => hp x (List.mem_cons_of_mem c hx)) hu,
            (hp c List.mem_cons_self).fold_inj hdc.symm]
    exact ⟨v, by rw [hup]⟩
  · rintro ⟨v, rfl⟩
    exact like_self_append p (like_percent_nil v)

/-- **Any other prefix matches something else too**, whatever follows. -/
theorem exists_lookalike {p : List Char} (hp : ∃ c ∈ p, ¬ Plain c) (v : List Char) :
    ∃ t, like (p ++ ['%']) (t ++ v) = true ∧ ¬ p <+: t ++ v := by
  obtain ⟨c, hc, hplain⟩ := hp
  obtain ⟨a, b, rfl⟩ := List.append_of_mem hc
  -- one character is replaced
  have replaced : ∀ d, d ≠ c → like (c :: b ++ ['%']) (d :: b ++ v) = true →
      ∃ t, like (a ++ c :: b ++ ['%']) (t ++ v) = true ∧ ¬ a ++ c :: b <+: t ++ v := by
    intro d hd hlike
    refine ⟨a ++ d :: b, ?_, ?_⟩
    · rw [List.append_assoc, List.append_assoc]
      exact like_self_append a hlike
    · rw [List.append_assoc, List.prefix_append_right_inj, List.cons_append, List.cons_prefix_cons]
      exact fun h => hd h.1.symm
  have hb : like (b ++ ['%']) (b ++ v) = true := like_self_append b (like_percent_nil v)
  by_cases hper : c = '%'
  · subst hper
    exact replaced '/' (by decide) (like_percent.mpr ⟨['/'], b ++ v, rfl, hb⟩)
  · have single : ∀ d, (c = '_' ∨ fold c = fold d) → like (c :: b ++ ['%']) (d :: b ++ v) = true := by
      intro d hd
      simp [like, hper, hb, hd]
    by_cases hund : c = '_'
    · exact replaced '/' (by subst hund; decide) (single '/' (.inl hund))
    · have halpha : c.isAlpha = true := by
        by_contra h
        exact hplain ⟨hper, hund, by simpa using h⟩
      obtain ⟨d, hd, hfold⟩ := exists_fold_eq halpha
      exact replaced d hd (single d (.inr hfold))

end Tilbo.Lib.Like
