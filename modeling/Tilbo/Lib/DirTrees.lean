import Mathlib.Logic.Function.Basic
import Mathlib.Tactic.Common

/-! # Trees of directories

A tree as a kernel keeps it: each directory but the root is in another one, under a name, and has no path of its own.
What lies at a path is found from the root down; a directory that does not hang on the root lies nowhere. -/

namespace Tilbo.Lib.DirTrees

variable {D N P : Type*}

/-- Where each directory is; nowhere if it does not exist. No two of them have one place. -/
structure Tree (D N : Type*) where
  root : D
  place : D → Option (D × N)
  place_root : place root = none
  apart : ∀ {d d' x}, place d = some x → place d' = some x → d = d'

/-- A name is joined to a path, which grows by it, and can be told from it. -/
structure Joins (join : P → N → P) : Prop where
  inj : ∀ {p p' n n'}, join p n = join p' n' → p = p' ∧ n = n'
  grows : ∃ size : P → ℕ, ∀ p n, size p < size (join p n)

/-- The directory lies at the path, and what there is on the way to it, itself included, meets a condition. -/
inductive Along (t : Tree D N) (base : P) (join : P → N → P) (C : D → P → Prop) : D → P → Prop
  | root (h : C t.root base) : Along t base join C t.root base
  | down {d parent : D} {path : P} {n : N} (hparent : Along t base join C parent path)
      (hplace : t.place d = some (parent, n)) (h : C d (join path n)) : Along t base join C d (join path n)

/-- The directory lies at the path. -/
abbrev At (t : Tree D N) (base : P) (join : P → N → P) : D → P → Prop := Along t base join fun _ _ => True

variable {t : Tree D N} {base : P} {join : P → N → P} {C C' : D → P → Prop} {d d' parent : D} {path path' : P} {n : N}

theorem Along.here (h : Along t base join C d path) : C d path := by
  rcases h with h | ⟨-, -, h⟩
  · exact h
  · exact h

theorem Along.mono (h : Along t base join C d path) (hC : ∀ d path, C d path → C' d path) :
    Along t base join C' d path := by
  induction h with
  | root h => exact .root (hC _ _ h)
  | down _ hplace h ih => exact .down ih hplace (hC _ _ h)

theorem Along.at (h : Along t base join C d path) : At t base join d path := h.mono fun _ _ _ => trivial

theorem Along.of_root (h : Along t base join C t.root path) : path = base := by
  generalize hd : t.root = d at h
  rcases h with h | ⟨-, hplace, -⟩
  · rfl
  · rw [← hd, t.place_root] at hplace
    cases hplace

/-- A directory lies at one path. -/
theorem Along.path_eq (h : Along t base join C d path) (h' : Along t base join C' d path') : path = path' := by
  induction h generalizing path' with
  | root => exact h'.of_root.symm
  | down _ hplace _ ih =>
    rcases h' with h' | ⟨hparent', hplace', -⟩
    · rw [t.place_root] at hplace
      cases hplace
    · obtain ⟨rfl, rfl⟩ := Prod.mk.inj (Option.some.inj (hplace.symm.trans hplace'))
      rw [ih hparent']

/-- What is below the root does not lie at its path. -/
theorem Along.join_ne_base (hjoins : Joins join) (h : Along t base join C d path) : join path n ≠ base := by
  obtain ⟨size, hgrows⟩ := hjoins.grows
  have hle : size base ≤ size path := by
    induction h with
    | root => exact Nat.le_refl _
    | down _ _ _ ih => exact Nat.le_trans ih (Nat.le_of_lt (hgrows _ _))
  intro heq
  have hlt := hgrows path n
  rw [heq] at hlt
  omega

/-- Two directories do not lie at one path. -/
theorem Along.dir_eq (hjoins : Joins join) (h : Along t base join C d path) (h' : Along t base join C' d' path) :
    d = d' := by
  induction h generalizing d' with
  | root =>
    generalize hpath : base = path at h'
    rcases h' with h' | ⟨hparent', -, -⟩
    · rfl
    · subst hpath
      exact absurd rfl (hparent'.join_ne_base hjoins)
  | @down d parent path n hparent hplace _ ih =>
    generalize hpath : join path n = path' at h'
    rcases h' with h' | ⟨hparent', hplace', -⟩
    · exact absurd hpath (hparent.join_ne_base hjoins)
    · obtain ⟨rfl, rfl⟩ := hjoins.inj hpath
      obtain rfl := ih hparent'
      exact t.apart hplace hplace'

/-! ### Changes -/

section Changes
variable [DecidableEq D]

/-- The directory is put at a place that is free, from wherever it was. -/
def Tree.put (t : Tree D N) (d parent : D) (n : N) (hroot : d ≠ t.root) (hfree : ∀ x, t.place x ≠ some (parent, n)) :
    Tree D N where
  root := t.root
  place := Function.update t.place d (some (parent, n))
  place_root := by rw [Function.update_of_ne hroot.symm, t.place_root]
  apart {x x' y} hx hx' := by
    by_cases hxd : x = d <;> by_cases hxd' : x' = d
    · rw [hxd, hxd']
    · rw [hxd, Function.update_self] at hx
      rw [Function.update_of_ne hxd'] at hx'
      exact absurd (hx'.trans hx.symm) (hfree x')
    · rw [hxd', Function.update_self] at hx'
      rw [Function.update_of_ne hxd] at hx
      exact absurd (hx.trans hx'.symm) (hfree x)
    · rw [Function.update_of_ne hxd] at hx
      rw [Function.update_of_ne hxd'] at hx'
      exact t.apart hx hx'

/-- The directory is removed. -/
def Tree.remove (t : Tree D N) (d : D) : Tree D N where
  root := t.root
  place := Function.update t.place d none
  place_root := by
    rcases eq_or_ne t.root d with rfl | hroot
    · exact Function.update_self _ _ _
    · rw [Function.update_of_ne hroot, t.place_root]
  apart {x x' y} hx hx' := by
    have hne : ∀ {x}, Function.update t.place d none x = some y → x ≠ d := by
      rintro x hx rfl
      rw [Function.update_self] at hx
      cases hx
    rw [Function.update_of_ne (hne hx)] at hx
    rw [Function.update_of_ne (hne hx')] at hx'
    exact t.apart hx hx'

variable {hroot : d ≠ t.root} {hfree : ∀ x, t.place x ≠ some (parent, n)} {x : D}

@[simp] theorem put_root : (t.put d parent n hroot hfree).root = t.root := rfl

@[simp] theorem remove_root (t : Tree D N) (d : D) : (t.remove d).root = t.root := rfl

@[simp] theorem place_put_self : (t.put d parent n hroot hfree).place d = some (parent, n) := Function.update_self _ _ _

theorem place_put_of_ne (h : d' ≠ d) : (t.put d parent n hroot hfree).place d' = t.place d' :=
  Function.update_of_ne h _ _

theorem place_remove {x : D × N} : (t.remove d).place d' = some x ↔ d' ≠ d ∧ t.place d' = some x := by
  show Function.update t.place d none d' = some x ↔ _
  rcases eq_or_ne d' d with rfl | h
  · simp
  · rw [Function.update_of_ne h, and_iff_right h]

/-- What lies somewhere after a removal lay there before. -/
theorem Along.of_remove (h : Along (t.remove d) base join C d' path) : Along t base join C d' path := by
  induction h with
  | root h => exact .root h
  | down _ hplace h ih => exact .down ih (place_remove.mp hplace).2 h

/-- What lies somewhere after a directory was moved lay there before, if the moved one is not on the way. -/
theorem Along.of_put (h : Along (t.put d parent n hroot hfree) base join C d' path) (hno : ∀ path, ¬ C d path) :
    Along t base join C d' path := by
  induction h with
  | root h => exact .root h
  | @down x _ path _ _ hplace h ih =>
    have hne : x ≠ d := by
      rintro rfl
      exact hno _ h
    rw [place_put_of_ne hne] at hplace
    exact .down ih hplace h

/-- What lies somewhere after a directory was made lay there before, but for the new one. -/
theorem Along.of_new (h : Along (t.put d parent n hroot hfree) base join C d' path) (hne : d ≠ parent)
    (hempty : ∀ x m, t.place x ≠ some (d, m)) (hd' : d' ≠ d) : Along t base join C d' path := by
  induction h with
  | root h => exact .root h
  | @down x q path m _ hplace h ih =>
    rw [place_put_of_ne hd'] at hplace
    have hq : q ≠ d := by
      rintro rfl
      exact hempty x m hplace
    exact .down (ih hq) hplace h

end Changes

end Tilbo.Lib.DirTrees
