import Tilbo.Lib.CleanPaths

/-! # Hidden files

A file is hidden if its name, or that of a directory between it and the root, starts with a dot. -/

namespace Tilbo.Fsutil.Hidden

open Tilbo.Lib.CleanPaths

/-- `IsHiddenName`. -/
def isHiddenName (name : Element) : Bool :=
  if name = [] ∨ name = ['.'] ∨ name = up then false else name.head? = some '.'

/-- Does the relative path lead out? -/
def leadsOut (r : List Char) : Bool := r = up || (up ++ ['/']).isPrefixOf r

/-- `relativePathBelowRoot`. -/
def relativePathBelowRoot (root path : String) : Option String :=
  match rel (clean root) (clean path) with
  | none => none
  | some r => if leadsOut r.toList then none else some r

/-- `HasHiddenComponentBelowRoot`. -/
def hasHiddenComponentBelowRoot (root path : String) : Bool :=
  match relativePathBelowRoot root path with
  | none => false
  | some r => if r = "." then false else (r.toList.splitOn '/').any isHiddenName

variable {rooted : Bool} {e : Element} {es names : List Element}

theorem isHiddenName_iff (h : IsElement e) : isHiddenName e = true ↔ e.head? = some '.' := by
  rw [isHiddenName, if_neg (not_or.mpr ⟨h.1, not_or.mpr ⟨h.2.1, h.2.2.1⟩⟩), decide_eq_true_iff]

/-- What is below does not lead out. -/
theorem leadsOut_below (hnames : ∀ e ∈ names, IsElement e) : leadsOut (ofElements false names).toList = false := by
  by_cases hne : names = []
  · subst hne
    decide
  have hsplit := splitOn_ofElements_relative (settled_of_isElement hnames) hne
  have hparts : up.splitOn '/' = [up] := rfl
  by_contra hout
  have hout : (ofElements false names).toList = up ∨ (up ++ ['/']) <+: (ofElements false names).toList := by
    rw [Bool.not_eq_false, leadsOut, Bool.or_eq_true, decide_eq_true_iff, List.isPrefixOf_iff_prefix] at hout
    exact hout
  have hmem : up ∈ names := by
    rw [← hsplit]
    rcases hout with hout | ⟨rest, hrest⟩
    · rw [hout, hparts]
      exact List.mem_singleton_self _
    · rw [← hrest, List.append_assoc, List.singleton_append, List.splitOn_append_cons_self, hparts]
      exact List.mem_cons_self
  exact (hnames up hmem).2.2.1 rfl

theorem relativePathBelowRoot_below (h : Settled rooted es) (hnames : ∀ e ∈ names, IsElement e) :
    relativePathBelowRoot (ofElements rooted es) (ofElements rooted (es ++ names)) =
      some (ofElements false names) := by
  unfold relativePathBelowRoot
  rw [clean_ofElements h, clean_ofElements (h.append hnames), rel_below h hnames]
  exact if_neg (by simp [leadsOut_below hnames])

/-- **What is below the root is hidden** if one of the names on the way to it starts with a dot. -/
theorem hasHiddenComponentBelowRoot_below (h : Settled rooted es) (hnames : ∀ e ∈ names, IsElement e) :
    hasHiddenComponentBelowRoot (ofElements rooted es) (ofElements rooted (es ++ names)) = true ↔
      ∃ e ∈ names, e.head? = some '.' := by
  unfold hasHiddenComponentBelowRoot
  rw [relativePathBelowRoot_below h hnames]
  by_cases hne : names = []
  · subst hne
    exact iff_of_false (by decide) fun ⟨e, he, _⟩ => List.not_mem_nil he
  have hsplit := splitOn_ofElements_relative (settled_of_isElement hnames) hne
  have hdot : ofElements false names ≠ "." := by
    intro hdot
    have hparts : ".".toList.splitOn '/' = [['.']] := rfl
    have hmem : ['.'] ∈ names := by
      rw [← hsplit, hdot, hparts]
      exact List.mem_singleton_self _
    exact (hnames _ hmem).2.1 rfl
  simp only [if_neg hdot, hsplit, List.any_eq_true]
  exact exists_congr fun e => and_congr_right fun he => isHiddenName_iff (hnames e he)

end Tilbo.Fsutil.Hidden
