import Mathlib.Data.List.Nodup
import Mathlib.Data.List.Perm.Basic
import Mathlib.Tactic.SplitIfs

/-! # Rows under a key

A table is the list of its rows, and a constraint `UNIQUE (key)` says that no two rows have the same
key. This file has the three ways a statement adds to such a table: a fresh row at the end
(`insertNew`, which leaves the table alone if the key is taken), and `upsert`, which rewrites the row
that already has the key. `lookup` finds the row of a key, and `fresh` is an id no row has. -/

namespace Tilbo.Lib.Rows

variable {α β κ : Type*}

/-- No two rows of the table have the same key. -/
def UniqueKey (key : α → κ) (t : List α) : Prop := (t.map key).Nodup

/-- Every row of `t` refers, by `ref`, to the key of some row of `u`. -/
def Refs (ref : α → κ) (t : List α) (key : β → κ) (u : List β) : Prop :=
  ∀ a ∈ t, ∃ b ∈ u, key b = ref a

/-- The ids `1, 2, …` are given out above all those in use. -/
def fresh (id : α → ℕ) (t : List α) : ℕ := (t.map id).foldr max 0 + 1

section Keyed
variable [DecidableEq κ]

/-- Is some row stored under `k`? -/
def has (key : α → κ) (t : List α) (k : κ) : Bool := t.any fun a => decide (key a = k)

/-- The row stored under `k`, if any. -/
def lookup (key : α → κ) (t : List α) (k : κ) : Option α := t.find? fun a => decide (key a = k)

/-- Append a row whose key is not taken. -/
def insertNew (key : α → κ) (t : List α) (new : α) : List α :=
  if has key t (key new) then t else t ++ [new]

/-- Rewrite the row that has the key of `new` by `f`, or append `new`. -/
def upsert (key : α → κ) (t : List α) (new : α) (f : α → α) : List α :=
  if has key t (key new) then t.map fun a => if key a = key new then f a else a else t ++ [new]

end Keyed

/-! ### UniqueKey keys -/

theorem UniqueKey.nil (key : α → κ) : UniqueKey key [] := List.nodup_nil

theorem UniqueKey.eq_of_mem {key : α → κ} {t : List α} (h : UniqueKey key t) {a b : α} (ha : a ∈ t)
    (hb : b ∈ t) (hab : key a = key b) : a = b :=
  List.inj_on_of_nodup_map h ha hb hab

theorem UniqueKey.filter {key : α → κ} {t : List α} (h : UniqueKey key t) (p : α → Bool) :
    UniqueKey key (t.filter p) :=
  List.Nodup.sublist (List.filter_sublist.map key) h

theorem UniqueKey.map_same {key : α → κ} {t : List α} (h : UniqueKey key t) {f : α → α}
    (hf : ∀ a ∈ t, key (f a) = key a) : UniqueKey key (t.map f) := by
  have hmap : (t.map f).map key = t.map key := by
    rw [List.map_map]
    exact List.map_congr_left fun a ha => hf a ha
  unfold UniqueKey
  rw [hmap]
  exact h

theorem UniqueKey.append_new {key : α → κ} {t : List α} (h : UniqueKey key t) {n : α}
    (hn : ∀ a ∈ t, key a ≠ key n) : UniqueKey key (t ++ [n]) := by
  unfold UniqueKey
  rw [List.map_append, List.nodup_append]
  refine ⟨h, by simp, fun k hk k' hk' => ?_⟩
  obtain ⟨a, ha, rfl⟩ := List.mem_map.mp hk
  obtain rfl : k' = key n := by simpa using hk'
  exact hn a ha

/-- Distinct rows are distinct under every key that determines the row. -/
theorem UniqueKey.nodup {key : α → κ} {t : List α} (h : UniqueKey key t) : t.Nodup := List.Nodup.of_map key h

/-! ### References -/

theorem Refs.filter {ref : α → κ} {t : List α} {key : β → κ} {u : List β} (h : Refs ref t key u)
    (p : α → Bool) : Refs ref (t.filter p) key u :=
  fun a ha => h a (List.mem_of_mem_filter ha)

/-- Deleting rows keeps references alive if the rows that referred to them go as well. -/
theorem Refs.cascade {ref : α → κ} {t : List α} {key : β → κ} {u : List β} (h : Refs ref t key u)
    {p : β → Bool} {q : α → Bool}
    (hq : ∀ a ∈ t, q a = true → ∀ b ∈ u, key b = ref a → p b = true) :
    Refs ref (t.filter q) key (u.filter p) := by
  intro a ha
  obtain ⟨ha, haq⟩ := List.mem_filter.mp ha
  obtain ⟨b, hb, hba⟩ := h a ha
  exact ⟨b, List.mem_filter.mpr ⟨hb, hq a ha haq b hb hba⟩, hba⟩

theorem Refs.append {ref : α → κ} {t : List α} {key : β → κ} {u : List β} (h : Refs ref t key u)
    {new : α} (hn : ∃ b ∈ u, key b = ref new) : Refs ref (t ++ [new]) key u := by
  intro a ha
  rcases List.mem_append.mp ha with ha | ha
  · exact h a ha
  · obtain rfl : a = new := by simpa using ha
    exact hn

/-- References survive as long as no key of the table referred to is lost. -/
theorem Refs.mono {ref : α → κ} {t : List α} {key : β → κ} {u u' : List β} (h : Refs ref t key u)
    (hu : ∀ b ∈ u, ∃ b' ∈ u', key b' = key b) : Refs ref t key u' := by
  intro a ha
  obtain ⟨b, hb, hba⟩ := h a ha
  obtain ⟨b', hb', hbb'⟩ := hu b hb
  exact ⟨b', hb', hbb'.trans hba⟩

/-! ### Fresh ids -/

theorem le_foldr_max : ∀ (l : List ℕ) {n : ℕ}, n ∈ l → n ≤ l.foldr max 0
  | [], _, h => by simp at h
  | m :: l, n, h => by
    simp only [List.foldr_cons]
    rcases List.mem_cons.mp h with rfl | h
    · omega
    · have := le_foldr_max l h
      omega

theorem lt_fresh {id : α → ℕ} {t : List α} {a : α} (h : a ∈ t) : id a < fresh id t :=
  Nat.lt_succ_of_le (le_foldr_max _ (List.mem_map_of_mem h))

theorem ne_fresh {id : α → ℕ} {t : List α} {a : α} (h : a ∈ t) : id a ≠ fresh id t :=
  Nat.ne_of_lt (lt_fresh h)

/-! ### Reading and writing under a key -/

section Keyed
variable [DecidableEq κ] {key : α → κ} {t : List α} {k : κ} {a b new : α} {f : α → α}

@[simp] theorem has_iff : has key t k = true ↔ ∃ a ∈ t, key a = k := by
  simp [has]

theorem not_has_iff : ¬ has key t k = true ↔ ∀ a ∈ t, key a ≠ k := by
  simp [has]

theorem lookup_none_iff : lookup key t k = none ↔ ∀ a ∈ t, key a ≠ k := by
  simp [lookup]

theorem mem_of_lookup (h : lookup key t k = some a) : a ∈ t ∧ key a = k :=
  ⟨List.mem_of_find?_eq_some h, by simpa using List.find?_some h⟩

theorem UniqueKey.lookup_iff (h : UniqueKey key t) : lookup key t k = some a ↔ a ∈ t ∧ key a = k := by
  refine ⟨mem_of_lookup, fun ⟨ha, hk⟩ => ?_⟩
  cases hl : lookup key t k with
  | none => exact absurd hk (lookup_none_iff.mp hl a ha)
  | some b =>
    obtain ⟨hb, hbk⟩ := mem_of_lookup hl
    rw [h.eq_of_mem hb ha (hbk.trans hk.symm)]

theorem mem_insertNew :
    b ∈ insertNew key t new ↔ b ∈ t ∨ b = new ∧ ∀ a ∈ t, key a ≠ key new := by
  unfold insertNew
  split_ifs with h
  · obtain ⟨a, ha, hk⟩ := has_iff.mp h
    refine ⟨Or.inl, fun h' => h'.elim (fun hb => hb) fun ⟨_, hn⟩ => absurd hk (hn a ha)⟩
  · have h' := not_has_iff.mp h
    simp only [List.mem_append, List.mem_singleton]
    exact or_congr_right ⟨fun hb => ⟨hb, h'⟩, fun hb => hb.1⟩

theorem UniqueKey.insertNew (h : UniqueKey key t) : UniqueKey key (insertNew key t new) := by
  unfold Rows.insertNew
  split_ifs with hk
  · exact h
  · exact h.append_new (not_has_iff.mp hk)

theorem mem_upsert :
    b ∈ upsert key t new f ↔ (b ∈ t ∧ key b ≠ key new) ∨ (∃ a ∈ t, key a = key new ∧ b = f a) ∨
      b = new ∧ ∀ a ∈ t, key a ≠ key new := by
  unfold upsert
  split_ifs with h
  · obtain ⟨a₀, ha₀, hk₀⟩ := has_iff.mp h
    have hno : ¬ (b = new ∧ ∀ a ∈ t, key a ≠ key new) := fun hb => hb.2 a₀ ha₀ hk₀
    rw [List.mem_map]
    refine ⟨?_, ?_⟩
    · rintro ⟨a, ha, rfl⟩
      by_cases hk : key a = key new
      · exact Or.inr (Or.inl ⟨a, ha, hk, if_pos hk⟩)
      · rw [if_neg hk]; exact Or.inl ⟨ha, hk⟩
    · rintro (⟨hb, hk⟩ | ⟨a, ha, hk, rfl⟩ | hb)
      · exact ⟨b, hb, if_neg hk⟩
      · exact ⟨a, ha, if_pos hk⟩
      · exact absurd hb hno
  · have h' := not_has_iff.mp h
    simp only [List.mem_append, List.mem_singleton]
    refine ⟨?_, ?_⟩
    · rintro (hb | rfl)
      · exact Or.inl ⟨hb, h' b hb⟩
      · exact Or.inr (Or.inr ⟨rfl, h'⟩)
    · rintro (⟨hb, -⟩ | ⟨a, ha, hk, -⟩ | ⟨hb, -⟩)
      · exact Or.inl hb
      · exact absurd hk (h' a ha)
      · exact Or.inr hb

/-- An `upsert` keeps a key unique if the rewritten row keeps its value under it, and a row that is
appended brings a new one. -/
theorem UniqueKey.upsert_of {κ' : Type*} {key' : α → κ'} (h : UniqueKey key' t)
    (hf : ∀ a ∈ t, key a = key new → key' (f a) = key' a)
    (hn : (∀ a ∈ t, key a ≠ key new) → ∀ a ∈ t, key' a ≠ key' new) :
    UniqueKey key' (upsert key t new f) := by
  unfold Rows.upsert
  split_ifs with hk
  · refine h.map_same fun a ha => ?_
    by_cases hka : key a = key new
    · rw [if_pos hka]; exact hf a ha hka
    · rw [if_neg hka]
  · exact h.append_new (hn (not_has_iff.mp hk))

theorem UniqueKey.upsert (h : UniqueKey key t) (hf : ∀ a ∈ t, key (f a) = key a) :
    UniqueKey key (upsert key t new f) :=
  h.upsert_of (fun a ha _ => hf a ha) fun hn => hn

/-- An `upsert` loses no key. -/
theorem upsert_keeps {κ' : Type*} {key' : α → κ'} (hf : ∀ a ∈ t, key' (f a) = key' a) (ha : a ∈ t) :
    ∃ b ∈ upsert key t new f, key' b = key' a := by
  by_cases hk : key a = key new
  · exact ⟨f a, mem_upsert.mpr (Or.inr (Or.inl ⟨a, ha, hk, rfl⟩)), hf a ha⟩
  · exact ⟨a, mem_upsert.mpr (Or.inl ⟨ha, hk⟩), rfl⟩

theorem insertNew_keeps (ha : a ∈ t) : a ∈ insertNew key t new := mem_insertNew.mpr (Or.inl ha)

/-- After an `insertNew` the key is taken. -/
theorem has_insertNew_self (key : α → κ) (t : List α) (new : α) :
    ∃ a ∈ insertNew key t new, key a = key new := by
  by_cases h : ∃ a ∈ t, key a = key new
  · obtain ⟨a, ha, hk⟩ := h
    exact ⟨a, insertNew_keeps ha, hk⟩
  · simp only [not_exists, not_and] at h
    exact ⟨new, mem_insertNew.mpr (Or.inr ⟨rfl, h⟩), rfl⟩

end Keyed

end Tilbo.Lib.Rows
