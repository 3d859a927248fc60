import Mathlib.Data.List.Sort

/-! # Ties

Lists are sorted by a key that several elements may have. A sort that says nothing of such ties may leave them in any
order; `InOrder` says that they are as they were, which determines the sorted list (`InOrder.eq_stable`). That is what
any sort leaves if no two elements share a key (`NoTies.inOrder`), and else there is another way to sort
(`exists_not_inOrder`). -/

namespace Tilbo.Lib.Ties

variable {α κ : Type*} [LinearOrder κ] {key : α → κ} {l l' : List α} {a b : α}

/-- The keys ascend. -/
def Ascending (key : α → κ) (l : List α) : Prop := l.Pairwise fun a b => key a ≤ key b

/-- What any sort does, stable or not. -/
def Sorts (key : α → κ) (sort : List α → List α) : Prop := ∀ l, (sort l).Perm l ∧ Ascending key (sort l)

/-- `l'` is `l` in ascending keys, with ties as they are in `l`. -/
structure InOrder (key : α → κ) (l l' : List α) : Prop where
  perm : l'.Perm l
  ascending : Ascending key l'
  ties : ∀ k, l'.filter (key · = k) = l.filter (key · = k)

/-- Equal keys are keys of one element. -/
def NoTies (key : α → κ) (l : List α) : Prop := ∀ a ∈ l, ∀ b ∈ l, key a = key b → a = b

/-- A stable sort. -/
def stable (key : α → κ) (l : List α) : List α := l.insertionSort fun a b => key a ≤ key b

theorem sorts_stable : Sorts key (stable key) := fun l => ⟨l.perm_insertionSort _, l.pairwise_insertionSort _⟩

theorem inOrder_stable (l : List α) : InOrder key l (stable key l) where
  perm := (sorts_stable l).1
  ascending := (sorts_stable l).2
  ties k := by
    have hties : (l.filter (key · = k)).Pairwise fun a b => key a ≤ key b :=
      List.pairwise_of_forall_mem_list fun a ha b hb => by
        have ha := (List.mem_filter.mp ha).2
        have hb := (List.mem_filter.mp hb).2
        simp only [decide_eq_true_eq] at ha hb
        rw [ha, hb]
    have hsub : (l.filter (key · = k)).Sublist (stable key l) := List.sublist_insertionSort hties List.filter_sublist
    have hsub' := hsub.filter (key · = k)
    rw [List.filter_filter] at hsub'
    simp only [Bool.and_self] at hsub'
    exact (hsub'.eq_of_length ((sorts_stable l).1.filter _).length_eq.symm).symm

/-! ### Uniqueness -/

/-- Ascending lists with the same elements under each key are the same. -/
theorem eq_of_ties (hl : Ascending key l) (hl' : Ascending key l')
    (h : ∀ k, l.filter (key · = k) = l'.filter (key · = k)) : l = l' := by
  have hmem : ∀ x, x ∈ l ↔ x ∈ l' := fun x => by
    have hx : x ∈ l.filter (key · = key x) ↔ x ∈ l'.filter (key · = key x) := by rw [h]
    simpa using hx
  induction l generalizing l' with
  | nil => exact (List.eq_nil_iff_forall_not_mem.mpr fun x hx => List.not_mem_nil ((hmem x).mpr hx)).symm
  | cons a l ih =>
    obtain ⟨hhead, htail⟩ := List.pairwise_cons.mp hl
    cases l' with
    | nil => exact absurd ((hmem a).mp List.mem_cons_self) List.not_mem_nil
    | cons b l' =>
      obtain ⟨hhead', htail'⟩ := List.pairwise_cons.mp hl'
      have hab : key a ≤ key b := by
        rcases List.mem_cons.mp ((hmem b).mpr List.mem_cons_self) with rfl | hb
        · exact le_rfl
        · exact hhead b hb
      have hba : key b ≤ key a := by
        rcases List.mem_cons.mp ((hmem a).mp List.mem_cons_self) with rfl | ha
        · exact le_rfl
        · exact hhead' a ha
      have hkey : key b = key a := le_antisymm hba hab
      -- Both begin with the first element of the least key.
      obtain rfl : a = b := by
        have hfirst := h (key a)
        rw [List.filter_cons_of_pos (by simp), List.filter_cons_of_pos (by simp [hkey])] at hfirst
        exact (List.cons.inj hfirst).1
      have hrest : ∀ k, l.filter (key · = k) = l'.filter (key · = k) := fun k => by
        have hk := h k
        rw [List.filter_cons, List.filter_cons] at hk
        split_ifs at hk
        · exact (List.cons.inj hk).2
        · exact hk
      rw [ih htail htail' hrest fun x => by
        have hx : x ∈ l.filter (key · = key x) ↔ x ∈ l'.filter (key · = key x) := by rw [hrest]
        simpa using hx]

/-- **There is one such list.** -/
theorem InOrder.eq_stable (h : InOrder key l l') : l' = stable key l :=
  eq_of_ties h.ascending (sorts_stable l).2 fun k => (h.ties k).trans ((inOrder_stable l).ties k).symm

/-- What is filtered is in order as well. -/
theorem InOrder.filter (h : InOrder key l l') (p : α → Bool) : InOrder key (l.filter p) (l'.filter p) where
  perm := h.perm.filter p
  ascending := List.Pairwise.filter p h.ascending
  ties k := by
    rw [List.filter_comm, h.ties k, List.filter_comm]

/-- The last element is the last one of the greatest key. -/
theorem InOrder.getLast? (h : InOrder key l l') : l'.getLast? = some a ↔
    ∃ before after, l = before ++ a :: after ∧ (∀ b ∈ before, key b ≤ key a) ∧ ∀ b ∈ after, key b < key a := by
  constructor
  · intro hlast
    obtain ⟨front, rfl⟩ := List.getLast?_eq_some_iff.mp hlast
    have hmax : ∀ b ∈ l, key b ≤ key a := fun b hb => by
      rcases List.mem_append.mp (h.perm.mem_iff.mpr hb) with hb | hb
      · exact (List.pairwise_append.mp h.ascending).2.2 b hb a (List.mem_singleton_self a)
      · rw [List.mem_singleton.mp hb]
    have hties : l.filter (key · = key a) = front.filter (key · = key a) ++ [a] := by
      rw [← h.ties]
      simp
    obtain ⟨before, after, hl, -, hafter⟩ := List.filter_eq_append_iff.mp hties
    obtain ⟨skipped, rest, hrest, hskipped, -, hnone⟩ := List.filter_eq_cons_iff.mp hafter
    refine ⟨before ++ skipped, rest, by rw [hl, hrest, List.append_assoc], fun b hb => hmax b ?_, fun b hb => ?_⟩
    · rw [hl, hrest, ← List.append_assoc]
      exact List.mem_append_left _ hb
    · have hle : key b ≤ key a := hmax b (by rw [hl, hrest]; simp [hb])
      have hne : key b ≠ key a := by simpa using List.filter_eq_nil_iff.mp hnone b hb
      exact lt_of_le_of_ne hle hne
  · rintro ⟨before, after, rfl, hbefore, hafter⟩
    have hne : l' ≠ [] := fun hnil => by
      have hlen := h.perm.length_eq
      rw [hnil] at hlen
      simp at hlen
    obtain ⟨front, b, hl'⟩ := (List.eq_nil_or_concat l').resolve_left hne
    rw [List.concat_eq_append] at hl'
    subst hl'
    have hba : key a ≤ key b := by
      have ha : a ∈ front ++ [b] := h.perm.mem_iff.mpr (by simp)
      rcases List.mem_append.mp ha with ha | ha
      · exact (List.pairwise_append.mp h.ascending).2.2 a ha b (List.mem_singleton_self b)
      · rw [List.mem_singleton.mp ha]
    have hkey : key b = key a := by
      have hb : b ∈ before ++ a :: after := h.perm.mem_iff.mp (by simp)
      refine le_antisymm ?_ hba
      rcases List.mem_append.mp hb with hb | hb
      · exact hbefore b hb
      · rcases List.mem_cons.mp hb with rfl | hb
        · exact le_rfl
        · exact (hafter b hb).le
    have hnone : after.filter (key · = key a) = [] := by
      rw [List.filter_eq_nil_iff]
      exact fun c hc => by simpa using (hafter c hc).ne
    have hties := congrArg List.getLast? (h.ties (key a))
    simpa [hkey, hnone] using hties

/-! ### Sorts that are not stable -/

/-- Without ties there is one way to sort. -/
theorem NoTies.inOrder (h : NoTies key l) (hperm : l'.Perm l) (hascending : Ascending key l') : InOrder key l l' := by
  have heq : l' = stable key l :=
    List.Perm.eq_of_pairwise (fun a b ha hb hab hba => h a (hperm.mem_iff.mp ha) b
      ((sorts_stable l).1.mem_iff.mp hb) (le_antisymm hab hba)) hascending (sorts_stable l).2
      (hperm.trans (sorts_stable l).1.symm)
  rw [heq]
  exact inOrder_stable l

/-- With ties there is another way to sort. -/
theorem exists_not_inOrder (ha : a ∈ l) (hb : b ∈ l) (hkey : key a = key b) (hne : a ≠ b) :
    ∃ l', l'.Perm l ∧ Ascending key l' ∧ ¬ InOrder key l l' := by
  classical
  have hmem : a ∈ l.filter (key · = key a) := List.mem_filter.mpr ⟨ha, by simp⟩
  obtain ⟨first, rest, hfirst⟩ := List.exists_cons_of_ne_nil (List.ne_nil_of_mem hmem)
  -- One of the two is not the first of its key, and is put in front of the list before it is sorted.
  obtain ⟨c, hc, hck, hcf⟩ : ∃ c ∈ l, key c = key a ∧ c ≠ first := by
    by_cases haf : a = first
    · exact ⟨b, hb, hkey.symm, fun hbf => hne (haf.trans hbf.symm)⟩
    · exact ⟨a, ha, rfl, haf⟩
  have hperm : (stable key (c :: l.erase c)).Perm l := (sorts_stable _).1.trans (List.perm_cons_erase hc).symm
  refine ⟨_, hperm, (sorts_stable _).2, fun h => ?_⟩
  have hties := h.ties (key a)
  rw [(inOrder_stable (c :: l.erase c)).ties, List.filter_cons_of_pos (by simp [hck]), hfirst] at hties
  exact hcf (List.cons.inj hties).1

/-- What has the elements of a list in ascending order is what some sort makes of it. -/
theorem exists_sorts (hperm : l'.Perm l) (hascending : Ascending key l') :
    ∃ sort, Sorts key sort ∧ ∀ m : List α, m.Perm l → sort m = l' := by
  classical
  refine ⟨fun m => if m.Perm l then l' else stable key m, fun m => ?_, fun m hm => if_pos hm⟩
  dsimp only
  split_ifs with hm
  · exact ⟨hperm.trans hm.symm, hascending⟩
  · exact sorts_stable m

end Tilbo.Lib.Ties
