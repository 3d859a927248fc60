import Mathlib.Data.List.Basic
import Mathlib.Data.List.DropRight
import Mathlib.Tactic.SplitIfs

/-! # Words

A list is cut at its separators into words, none of which is empty. Where every element of a list is replaced by
others, and separators by separators only, its words are replaced one by one (`words_flatMap`). -/

namespace Tilbo.Lib.Words

variable {α β : Type} {p : α → Bool} {q : β → Bool} {f : α → List β} {l w : List α} {m k : List β}

/-- The words between the separators. -/
def words (p : α → Bool) (l : List α) : List (List α) := (l.splitOnP p).filter (· ≠ [])

/-- The parts have no separators. -/
theorem not_sep_of_mem_splitOnP (hw : w ∈ l.splitOnP p) : ∀ a ∈ w, p a = false := by
  induction l generalizing w with
  | nil =>
    obtain rfl : w = [] := by simpa using hw
    simp
  | cons a l ih =>
    rw [List.splitOnP_cons_eq_if_modifyHead] at hw
    split_ifs at hw with ha
    · rcases List.mem_cons.mp hw with rfl | hw
      · simp
      · exact ih hw
    · obtain ⟨v, vs, hsplit⟩ := List.exists_cons_of_ne_nil (List.splitOnP_ne_nil p l)
      rw [hsplit] at hw ih
      rcases List.mem_cons.mp hw with rfl | hw
      · exact List.forall_mem_cons.mpr ⟨by simpa using ha, ih List.mem_cons_self⟩
      · exact ih (List.mem_cons_of_mem _ hw)

theorem not_mem_of_mem_splitOn [BEq α] [LawfulBEq α] {a : α} (hw : w ∈ l.splitOn a) : a ∉ w := by
  rw [List.splitOn_eq_splitOnP] at hw
  intro hmem
  have h := not_sep_of_mem_splitOnP hw a hmem
  simp at h

theorem mem_words (hw : w ∈ words p l) : w ≠ [] ∧ ∀ a ∈ w, p a = false := by
  obtain ⟨hsplit, hne⟩ := List.mem_filter.mp hw
  exact ⟨by simpa using hne, not_sep_of_mem_splitOnP hsplit⟩

theorem mem_of_mem_splitOnP {a : α} (hw : w ∈ l.splitOnP p) (ha : a ∈ w) : a ∈ l := by
  induction l generalizing w with
  | nil =>
    obtain rfl : w = [] := by simpa using hw
    cases ha
  | cons b l ih =>
    rw [List.splitOnP_cons_eq_if_modifyHead] at hw
    split_ifs at hw with hb
    · rcases List.mem_cons.mp hw with rfl | hw
      · cases ha
      · exact List.mem_cons_of_mem _ (ih hw ha)
    · obtain ⟨v, vs, hsplit⟩ := List.exists_cons_of_ne_nil (List.splitOnP_ne_nil p l)
      rw [hsplit] at hw ih
      rcases List.mem_cons.mp hw with rfl | hw
      · exact (List.mem_cons.mp ha).elim (fun heq => heq ▸ List.mem_cons_self) fun ha =>
          List.mem_cons_of_mem _ (ih List.mem_cons_self ha)
      · exact List.mem_cons_of_mem _ (ih (List.mem_cons_of_mem _ hw) ha)

theorem mem_of_mem_words {a : α} (hw : w ∈ words p l) (ha : a ∈ w) : a ∈ l :=
  mem_of_mem_splitOnP (List.mem_filter.mp hw).1 ha

/-- What is no separator is in a word. -/
theorem exists_mem_words {a : α} (ha : a ∈ l) (hp : p a = false) : ∃ w ∈ words p l, a ∈ w := by
  have hpart : ∃ w ∈ l.splitOnP p, a ∈ w := by
    induction l with
    | nil => cases ha
    | cons b l ih =>
      rw [List.splitOnP_cons_eq_if_modifyHead]
      obtain ⟨v, vs, hsplit⟩ := List.exists_cons_of_ne_nil (List.splitOnP_ne_nil p l)
      rcases List.mem_cons.mp ha with rfl | ha
      · rw [hp, hsplit]
        exact ⟨a :: v, List.mem_cons_self, List.mem_cons_self⟩
      · obtain ⟨w, hw, hmem⟩ := ih ha
        split_ifs
        · exact ⟨w, List.mem_cons_of_mem _ hw, hmem⟩
        · rw [hsplit] at hw ⊢
          rcases List.mem_cons.mp hw with rfl | hw
          · exact ⟨b :: w, List.mem_cons_self, List.mem_cons_of_mem _ hmem⟩
          · exact ⟨w, List.mem_cons_of_mem _ hw, hmem⟩
  obtain ⟨w, hw, hmem⟩ := hpart
  exact ⟨w, List.mem_filter.mpr ⟨hw, by simpa using List.ne_nil_of_mem hmem⟩, hmem⟩

/-- What is put in front of a list without a separator goes to its first part. -/
theorem splitOnP_append (h : ∀ b ∈ m, q b = false) : (m ++ k).splitOnP q = (k.splitOnP q).modifyHead (m ++ ·) := by
  induction m with
  | nil =>
    rw [List.nil_append]
    cases k.splitOnP q <;> rfl
  | cons b m ih =>
    obtain ⟨hb, hm⟩ := List.forall_mem_cons.mp h
    rw [List.cons_append, List.splitOnP_cons_eq_if_modifyHead, if_neg (by simp [hb]), ih hm]
    cases k.splitOnP q <;> rfl

/-- The parts are replaced one by one. -/
theorem splitOnP_flatMap (hsep : ∀ a ∈ l, p a = true → ∃ b, f a = [b] ∧ q b = true)
    (hword : ∀ a ∈ l, p a = false → ∀ b ∈ f a, q b = false) :
    (l.flatMap f).splitOnP q = (l.splitOnP p).map (List.flatMap f) := by
  induction l with
  | nil => rfl
  | cons a l ih =>
    obtain ⟨hsepa, hsepl⟩ := List.forall_mem_cons.mp hsep
    obtain ⟨hworda, hwordl⟩ := List.forall_mem_cons.mp hword
    rw [List.flatMap_cons, List.splitOnP_cons_eq_if_modifyHead]
    cases ha : p a with
    | true =>
      obtain ⟨b, hb, hqb⟩ := hsepa ha
      rw [hb, List.singleton_append, List.splitOnP_cons_eq_if_modifyHead, if_pos hqb, ih hsepl hwordl]
      rfl
    | false =>
      rw [splitOnP_append (hworda ha), ih hsepl hwordl]
      cases l.splitOnP p <;> rfl

/-- **The words of a list in which elements are replaced.** -/
theorem words_flatMap (hsep : ∀ a ∈ l, p a = true → ∃ b, f a = [b] ∧ q b = true)
    (hword : ∀ a ∈ l, p a = false → ∀ b ∈ f a, q b = false) (hne : ∀ w ∈ words p l, w.flatMap f ≠ []) :
    words q (l.flatMap f) = (words p l).map (List.flatMap f) := by
  rw [words, splitOnP_flatMap hsep hword, List.filter_map, words]
  refine congrArg _ (List.filter_congr fun w hw => ?_)
  by_cases hnil : w = []
  · simp [hnil]
  · have hmem : w ∈ words p l := List.mem_filter.mpr ⟨hw, by simpa using hnil⟩
    have hflat : w.flatMap f ≠ [] := hne w hmem
    simp [hnil, hflat]

/-! ### The last part -/

theorem rtakeWhile_append {a : α} (ha : p a = false) (hm : ∀ b ∈ w, p b = true) : (l ++ a :: w).rtakeWhile p = w := by
  have hrev : ∀ b ∈ w.reverse, p b = true := fun b hb => hm b (List.mem_reverse.mp hb)
  rw [List.rtakeWhile, List.reverse_append, List.reverse_cons, List.append_assoc, List.takeWhile_append_of_pos hrev]
  simp [ha]

/-- What begins with the last of the separators is at the end. -/
theorem cons_rtakeWhile_suffix [DecidableEq α] {a : α} (ha : a ∈ l) : a :: l.rtakeWhile (· ≠ a) <:+ l := by
  obtain ⟨back, front, hl, hback⟩ := List.eq_append_cons_of_mem (List.mem_reverse.mpr ha)
  have hl' : l = front.reverse ++ a :: back.reverse := by
    rw [← List.reverse_reverse l, hl]
    simp
  have hrest : (front.reverse ++ a :: back.reverse).rtakeWhile (· ≠ a) = back.reverse :=
    rtakeWhile_append (by simp) fun b hb => by
      simpa using fun heq : b = a => hback (heq ▸ List.mem_reverse.mp hb)
  rw [hl', hrest]
  exact List.suffix_append _ _

end Tilbo.Lib.Words
