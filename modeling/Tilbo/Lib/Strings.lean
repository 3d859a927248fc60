import Mathlib.Data.List.TakeWhile
import Mathlib.Data.List.Nodup
import Mathlib.Tactic.SplitIfs

/-! # Splitting strings

`cut` and `splitN` divide a string at a separator, on the list of its characters: `cut` at the first
one, `splitN n` at the first `n - 1`. A `StringMap` is a map from strings to strings as the list of its
pairs, in the order in which a loop over it happens to visit them. -/

namespace Tilbo.Lib.Strings

/-- The text before the first separator, the text after it, and whether there is one. -/
def cut (sep : Char) (s : String) : String × String × Bool :=
  (String.ofList (s.toList.takeWhile (· != sep)),
    String.ofList (s.toList.dropWhile (· != sep)).tail, s.toList.contains sep)

/-- The parts between the first `n - 1` separators, the last one with the rest of the text. -/
def splitN (sep : Char) : ℕ → String → List String
  | 0, _ => []
  | 1, s => [s]
  | n + 2, s =>
    if (cut sep s).2.2 then (cut sep s).1 :: splitN sep (n + 1) (cut sep s).2.1 else [s]

variable {sep : Char} {s a b : String}

/-- A map from strings to strings. -/
structure StringMap where
  pairs : List (String × String) := []
  nodup : (pairs.map Prod.fst).Nodup := by decide

namespace StringMap

/-- The value under a key. -/
def get? (m : StringMap) (k : String) : Option String := m.pairs.lookup k

/-- The map with a single pair. -/
def single (k v : String) : StringMap := ⟨[(k, v)], by simp⟩

theorem get?_eq_some {m : StringMap} {k v : String} : m.get? k = some v ↔ (k, v) ∈ m.pairs := by
  obtain ⟨l, hl⟩ := m
  show l.lookup k = some v ↔ (k, v) ∈ l
  induction l with
  | nil => simp
  | cons p l ih =>
    obtain ⟨k', v'⟩ := p
    simp only [List.map_cons, List.nodup_cons, List.mem_map, Prod.exists, exists_and_right,
      exists_eq_right, not_exists] at hl
    rw [List.lookup_cons, List.mem_cons, Prod.mk.injEq]
    by_cases hk : k = k'
    · subst hk
      have hno : (k, v) ∉ l := hl.1 v
      simp [hno, eq_comm]
    · have hb : (k == k') = false := by simpa using hk
      simp [hb, hk, ih hl.2]

end StringMap

end Tilbo.Lib.Strings
