import Mathlib.Data.Finset.Card
import Mathlib.Logic.Function.Basic

/-! # Maps from keys to sets

A Go map of sets, `map[K]map[V]struct{}`: finitely many keys, and a set for each. A key that is not
there reads as the empty set, which is what reading a nil map gives. -/

namespace Tilbo.Lib.KeyedSets

variable {κ α : Type*} [DecidableEq κ] [DecidableEq α]

/-- A map from keys to sets. -/
structure SetMap (κ α : Type*) where
  keys : Finset κ
  get : κ → Finset α
  nil : ∀ k, k ∉ keys → get k = ∅

/-- The map without keys. -/
def empty : SetMap κ α := ⟨∅, fun _ => ∅, fun _ _ => rfl⟩

/-- `m[k][a] = struct{}{}`, making the set first if need be. -/
def put (m : SetMap κ α) (k : κ) (a : α) : SetMap κ α where
  keys := insert k m.keys
  get := Function.update m.get k (insert a (m.get k))
  nil l hl := by
    rw [Finset.mem_insert, not_or] at hl
    rw [Function.update_of_ne hl.1]
    exact m.nil l hl.2

/-- `delete(m, k)`. -/
def delete (m : SetMap κ α) (k : κ) : SetMap κ α where
  keys := m.keys.erase k
  get := Function.update m.get k ∅
  nil l hl := by
    by_cases hk : l = k
    · rw [hk, Function.update_self]
    · rw [Function.update_of_ne hk]
      exact m.nil l fun hmem => hl (Finset.mem_erase.mpr ⟨hk, hmem⟩)

/-- `delete(m[k], a)` for each `k` of a set of keys. -/
def deleteFrom (m : SetMap κ α) (ks : Finset κ) (a : α) : SetMap κ α where
  keys := m.keys
  get k := if k ∈ ks then (m.get k).erase a else m.get k
  nil k hk := by
    rw [m.nil k hk]
    split_ifs <;> rfl

variable {m : SetMap κ α} {k l : κ} {a b : α} {ks : Finset κ}

omit [DecidableEq κ] [DecidableEq α] in
@[simp] theorem get_empty : (empty : SetMap κ α).get k = ∅ := rfl

theorem mem_get_put : b ∈ (put m k a).get l ↔ b ∈ m.get l ∨ l = k ∧ b = a := by
  unfold put
  by_cases hl : l = k
  · subst hl
    simp [or_comm]
  · simp [hl]

omit [DecidableEq α] in
theorem mem_get_delete : b ∈ (delete m k).get l ↔ b ∈ m.get l ∧ l ≠ k := by
  unfold delete
  by_cases hl : l = k
  · subst hl
    simp
  · simp [hl]

theorem mem_get_deleteFrom : b ∈ (deleteFrom m ks a).get l ↔ b ∈ m.get l ∧ ¬ (l ∈ ks ∧ b = a) := by
  unfold deleteFrom
  by_cases hl : l ∈ ks
  · simp [hl, and_comm]
  · simp [hl]

end Tilbo.Lib.KeyedSets
