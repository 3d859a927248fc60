import Tilbo.Lib.Pairs
import Tilbo.Lib.Strings
import Mathlib.Data.List.Sort

/-! # Maps from strings to strings

What a program does to a `StringMap`: it sets keys, and ranges over the map in the order of its keys. Two maps
are the `Same` if they have the same values; the order of the pairs is of no account. -/

namespace Tilbo.Lib.StringMaps

open Tilbo.Lib.Pairs Tilbo.Lib.Strings

variable {m m' m'' : StringMap} {k k' v v' : String} {l : List (String × String)}

/-- The map without keys. -/
def empty : StringMap := ⟨[], List.nodup_nil⟩

/-- `m[k] = v`. -/
def set (m : StringMap) (k v : String) : StringMap := ⟨put m.pairs k v, nodup_keys_put m.nodup⟩

@[simp] theorem get?_empty : empty.get? k = none := rfl

@[simp] theorem get?_set : (set m k v).get? k' = if k' = k then some v else m.get? k' := lookup_put

/-- The pairs are put into the map, one after the other. -/
def setAll (m : StringMap) (l : List (String × String)) : StringMap := l.foldl (fun m p => set m p.1 p.2) m

/-- The pairs in the order of their keys. -/
def sorted (m : StringMap) : List (String × String) := m.pairs.insertionSort fun p q => p.1 ≤ q.1

theorem sorted_perm (m : StringMap) : (sorted m).Perm m.pairs := List.perm_insertionSort _ _

/-- The same values under the same keys. -/
def Same (m m' : StringMap) : Prop := ∀ k, m.get? k = m'.get? k

theorem Same.refl (m : StringMap) : Same m m := fun _ => rfl

theorem Same.symm (h : Same m m') : Same m' m := fun k => (h k).symm

theorem Same.trans (h : Same m m') (h' : Same m' m'') : Same m m'' := fun k => (h k).trans (h' k)

theorem Same.set (h : Same m m') (k v : String) : Same (set m k v) (StringMaps.set m' k v) := fun k' => by
  rw [get?_set, get?_set, h k']

theorem same_empty_iff : Same m empty ↔ m.pairs = [] := by
  constructor
  · intro h
    refine List.eq_nil_iff_forall_not_mem.mpr fun p hp => ?_
    have hget := StringMap.get?_eq_some.mpr (show (p.1, p.2) ∈ m.pairs from hp)
    rw [h p.1] at hget
    cases hget
  · intro h k
    show m.pairs.lookup k = none
    rw [h]
    rfl

theorem get?_setAll (hl : (l.map Prod.fst).Nodup) :
    (setAll m l).get? k = if k ∈ l.map Prod.fst then l.lookup k else m.get? k := by
  induction l generalizing m with
  | nil => rfl
  | cons p l ih =>
    rw [List.map_cons, List.nodup_cons] at hl
    show (setAll (set m p.1 p.2) l).get? k = _
    rw [ih hl.2, List.map_cons, List.lookup_cons, get?_set]
    by_cases hk : k = p.1
    · subst hk
      simp [hl.1]
    · have hb : (k == p.1) = false := by simpa using hk
      simp only [hb, List.mem_cons, hk, false_or, if_false]

/-- The pairs of a map, in any order, make the map. -/
theorem same_setAll (hl : l.Perm m.pairs) : Same (setAll empty l) m := by
  have hnodup : (l.map Prod.fst).Nodup := (hl.map Prod.fst).nodup_iff.mpr m.nodup
  have hget : ∀ k v, StringMap.get? ⟨l, hnodup⟩ k = some v ↔ m.get? k = some v := fun k v => by
    rw [StringMap.get?_eq_some, StringMap.get?_eq_some]
    exact hl.mem_iff
  intro k
  rw [get?_setAll hnodup]
  have hsame : StringMap.get? ⟨l, hnodup⟩ k = m.get? k := Option.ext fun v => hget k v
  rw [← hsame]
  split_ifs with hk
  · rfl
  · exact (List.lookup_eq_none_iff.mpr fun p hp => by
      simpa using fun h : k = p.1 => hk (h ▸ List.mem_map_of_mem hp)).symm

end Tilbo.Lib.StringMaps
