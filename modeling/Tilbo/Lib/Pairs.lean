import Mathlib.Data.List.Induction
import Mathlib.Data.List.Perm.Basic
import Mathlib.Tactic.Common
import Mathlib.Tactic.SplitIfs

/-! # Maps as lists of pairs

A map that a program builds up and then ranges over, as the list of its pairs. A `MapOrder` says in which
order a range over a map visits its keys: Go leaves that open, and what is proved is for any order. -/

namespace Tilbo.Lib.Pairs

variable {κ α : Type} [DecidableEq κ]

/-- `m[k] = a` on the pairs of a map. -/
def put (m : List (κ × α)) (k : κ) (a : α) : List (κ × α) :=
  if m.any (fun p => p.1 = k) then m.map fun p => if p.1 = k then (k, a) else p else m ++ [(k, a)]

/-- `maps.Copy(m, updates)` on the pairs of a map. -/
def putAll (m updates : List (κ × α)) : List (κ × α) := updates.foldl (fun m p => put m p.1 p.2) m

/-- In which order a range over a map visits its keys. -/
structure MapOrder where
  visit : List String → List String
  perm : ∀ l, (visit l).Perm l

/-- The order in which the keys were put in. -/
def MapOrder.inserted : MapOrder := ⟨id, fun _ => .refl _⟩

theorem MapOrder.mem_visit (o : MapOrder) {l : List String} {t : String} : t ∈ o.visit l ↔ t ∈ l :=
  (o.perm l).mem_iff

variable {m : List (κ × α)} {k l : κ} {a : α}

theorem keys_replace : (m.map fun p => if p.1 = k then (k, a) else p).map Prod.fst = m.map Prod.fst := by
  rw [List.map_map]
  refine List.map_congr_left fun p _ => ?_
  by_cases hp : p.1 = k
  · simp [hp]
  · simp [hp]

/-- The keys of the pairs after `m[k] = a`. -/
theorem mem_keys_put : l ∈ (put m k a).map Prod.fst ↔ l ∈ m.map Prod.fst ∨ l = k := by
  unfold put
  split_ifs with h
  · have hk : k ∈ m.map Prod.fst := by
      obtain ⟨p, hp, hpk⟩ := List.any_eq_true.mp h
      exact List.mem_map.mpr ⟨p, hp, by simpa using hpk⟩
    rw [keys_replace]
    exact ⟨Or.inl, fun hl => hl.elim (fun hl => hl) fun hl => hl ▸ hk⟩
  · simp

/-- No key twice, before and after `m[k] = a`. -/
theorem nodup_keys_put (h : (m.map Prod.fst).Nodup) : ((put m k a).map Prod.fst).Nodup := by
  unfold put
  split_ifs with hany
  · rwa [keys_replace]
  · rw [List.map_append, List.nodup_append]
    refine ⟨h, by simp, ?_⟩
    rintro l hl l' hl' rfl
    obtain ⟨p, hp, rfl⟩ := List.mem_map.mp hl
    rw [List.map_singleton, List.mem_singleton] at hl'
    exact hany (List.any_eq_true.mpr ⟨p, hp, by simpa using hl'⟩)

/-- Every pair after `m[k] = a` was there or is the new one. -/
theorem mem_put {p : κ × α} (h : p ∈ put m k a) : p ∈ m ∨ p = (k, a) := by
  unfold put at h
  split_ifs at h
  · obtain ⟨q, hq, rfl⟩ := List.mem_map.mp h
    split_ifs
    · exact Or.inr rfl
    · exact Or.inl hq
  · simpa using h

theorem mem_putAll {updates : List (κ × α)} {p : κ × α} (h : p ∈ putAll m updates) :
    p ∈ m ∨ p ∈ updates := by
  unfold putAll at h
  induction updates generalizing m with
  | nil => exact Or.inl h
  | cons q updates ih =>
    rcases ih h with h | h
    · exact (mem_put h).imp_right fun hp => by rw [hp]; exact List.mem_cons_self
    · exact Or.inr (List.mem_cons_of_mem _ h)

theorem lookup_eq_none (hk : k ∉ m.map Prod.fst) : m.lookup k = none :=
  List.lookup_eq_none_iff.mpr fun _ hp => bne_iff_ne.mpr fun h => hk (h ▸ List.mem_map_of_mem hp)

theorem lookup_concat (hk : m.lookup k = none) :
    (m ++ [(k, a)]).lookup l = if l = k then some a else m.lookup l := by
  rw [List.lookup_append, List.lookup_cons, List.lookup_nil]
  by_cases hl : l = k
  · rw [hl, if_pos rfl, hk, beq_self_eq_true]
    rfl
  · rw [if_neg hl, beq_eq_false_iff_ne.mpr hl]
    cases m.lookup l <;> rfl

/-- Looking up after `m[k] = a`. -/
theorem lookup_put : (put m k a).lookup l = if l = k then some a else m.lookup l := by
  unfold put
  split_ifs with h hl hl
  · subst hl
    induction m with
    | nil => simp at h
    | cons p m ih =>
      by_cases hp : p.1 = l
      · simp [hp]
      · have hne : (l == p.1) = false := by simpa using fun h : l = p.1 => hp h.symm
        have h' : (m.any fun p => decide (p.1 = l)) = true := by simpa [hp] using h
        rw [List.map_cons, if_neg hp, List.lookup_cons, hne]
        exact ih h'
  · clear h
    induction m with
    | nil => rfl
    | cons p m ih =>
      by_cases hp : p.1 = k
      · have hne : (l == k) = false := by simpa using hl
        have hne' : (l == p.1) = false := by rw [hp]; exact hne
        rw [List.map_cons, if_pos hp, List.lookup_cons, hne, List.lookup_cons, hne']
        exact ih
      · rw [List.map_cons, if_neg hp, List.lookup_cons, List.lookup_cons, ih]
  all_goals
    have hk : m.lookup k = none := lookup_eq_none fun hmem => h (by simpa using hmem)
    rw [lookup_concat hk]
  · rw [if_pos hl]
  · rw [if_neg hl]

/-! ### Copying a map -/

theorem nodup_keys_putAll {u : List (κ × α)} (h : (m.map Prod.fst).Nodup) : ((putAll m u).map Prod.fst).Nodup := by
  unfold putAll
  induction u generalizing m with
  | nil => exact h
  | cons p u ih => exact ih (nodup_keys_put h)

/-- The keys of the updates are looked up in the updates. -/
theorem lookup_putAll {u : List (κ × α)} (hu : (u.map Prod.fst).Nodup) :
    (putAll m u).lookup k = (u.lookup k).or (m.lookup k) := by
  induction u using List.reverseRecOn with
  | nil => rfl
  | append_singleton u p ih =>
    obtain ⟨k', v⟩ := p
    rw [List.map_append, List.nodup_append] at hu
    have hk : k' ∉ u.map Prod.fst := fun h => hu.2.2 k' h k' (by simp) rfl
    rw [putAll, List.foldl_append, lookup_concat (lookup_eq_none hk)]
    show (put (putAll m u) k' v).lookup k = _
    rw [lookup_put, ih hu.1]
    split_ifs <;> rfl

end Tilbo.Lib.Pairs
