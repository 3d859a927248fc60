import Mathlib.Data.List.Infix
import Mathlib.Data.List.Count

/-! # Prepared statements

A text with placeholders, and the arguments they stand for. `Bound fits text args` says that the placeholders and the
arguments are as many and in the same order: `fits s a` says of each argument that it belongs after `s`, the text
between its placeholder and the one before. -/

namespace Tilbo.Lib.Prepared

variable {A : Type} {fits : List Char → A → Prop} {s t : List Char} {a : A} {args args' : List A}

/-- A statement, and its arguments. -/
structure Stmt (A : Type) where
  text : String
  args : List A

/-- A statement with another one written after it. -/
def Stmt.followedBy (q r : Stmt A) : Stmt A := ⟨q.text ++ r.text, q.args ++ r.args⟩

/-- Nothing. -/
def Stmt.empty : Stmt A := ⟨"", []⟩

/-! ### Literals -/

/-- A literal without the character; the literal is unfolded to its characters. -/
theorem not_mem_literal {s : String} {c : Char} (l : List Char) (hs : s = String.ofList l) (h : c ∉ l) :
    c ∉ s.toList := by
  rw [hs, String.toList_ofList]
  exact h

theorem suffix_literal {s ctx : String} (l k : List Char) (hs : s = String.ofList l) (hctx : ctx = String.ofList k)
    (h : k <:+ l) : ctx.toList <:+ s.toList := by
  rw [hs, hctx, String.toList_ofList, String.toList_ofList]
  exact h

/-- A literal with a placeholder in it. -/
theorem split_literal {s a b : String} (l k m : List Char) (hs : s = String.ofList l) (ha : a = String.ofList k)
    (hb : b = String.ofList m) (h : l = k ++ '?' :: m) : s.toList = a.toList ++ '?' :: b.toList := by
  rw [hs, ha, hb, String.toList_ofList, String.toList_ofList, String.toList_ofList]
  exact h

/-! ### Placeholders and arguments -/

/-- Each placeholder has the argument that fits. -/
inductive Bound (fits : List Char → A → Prop) : List Char → List A → Prop
  | rest {s : List Char} (hs : '?' ∉ s) : Bound fits s []
  | place {s t : List Char} {a : A} {args : List A} (hs : '?' ∉ s) (ha : fits s a) (h : Bound fits t args) :
      Bound fits (s ++ '?' :: t) (a :: args)

/-- There are as many placeholders as arguments. -/
theorem Bound.count (h : Bound fits t args) : t.count '?' = args.length := by
  induction h with
  | rest hs => exact List.count_eq_zero.mpr hs
  | place hs ha h ih =>
    rw [List.count_append, List.count_eq_zero.mpr hs, List.count_cons_self, ih, List.length_cons, Nat.zero_add]

/-- Text without a placeholder in front. -/
theorem Bound.after (hfits : ∀ {r s a}, fits s a → fits (r ++ s) a) (h : Bound fits t args) {r : List Char}
    (hr : '?' ∉ r) : Bound fits (r ++ t) args := by
  cases h with
  | rest hs => exact .rest (by simp [hr, hs])
  | place hs ha h =>
    rw [← List.append_assoc]
    exact .place (by simp [hr, hs]) (hfits ha) h

/-- Two texts after each other. -/
theorem Bound.append (hfits : ∀ {r s a}, fits s a → fits (r ++ s) a) (h : Bound fits s args) (h' : Bound fits t args') :
    Bound fits (s ++ t) (args ++ args') := by
  induction h with
  | rest hs => exact h'.after hfits hs
  | place hs ha h ih =>
    rw [List.append_assoc, List.cons_append]
    exact .place hs ha ih

theorem Bound.prepend (hfits : ∀ {r s a}, fits s a → fits (r ++ s) a) {r s : String} (hr : '?' ∉ r.toList)
    (h : Bound fits s.toList args) : Bound fits (r ++ s).toList args := by
  rw [String.toList_append]
  exact h.after hfits hr

theorem Bound.concat (hfits : ∀ {r s a}, fits s a → fits (r ++ s) a) {s r : String} (h : Bound fits s.toList args)
    (hr : '?' ∉ r.toList) : Bound fits (s ++ r).toList args := by
  rw [String.toList_append, ← List.append_nil args]
  exact h.append hfits (.rest hr)

/-- The placeholders of a list: `?,?,…,?`. -/
def placeholders (n : ℕ) : String := String.ofList (List.replicate n ['?', ',']).flatten.dropLast

theorem placeholders_succ (n : ℕ) : (placeholders (n + 1)).toList = '?' :: (List.replicate n [',', '?']).flatten := by
  unfold placeholders
  rw [String.toList_ofList]
  induction n with
  | zero => rfl
  | succ n ih =>
    rw [List.replicate_succ, List.flatten_cons, List.dropLast_append_of_ne_nil (by simp), ih, List.replicate_succ]
    rfl

/-- A list in brackets: what fits after the bracket fits after a comma. -/
theorem Bound.list {l : List A} {r : List Char} (hne : l ≠ []) (hs : '?' ∉ s) (hr : '?' ∉ r)
    (hfirst : ∀ a ∈ l, fits s a) (hnext : ∀ a ∈ l, fits [','] a) :
    Bound fits (s ++ (placeholders l.length).toList ++ r) l := by
  have hrest : ∀ l' : List A, (∀ a ∈ l', fits [','] a) →
    Bound fits ((List.replicate l'.length [',', '?']).flatten ++ r) l' := by
    intro l'
    induction l' with
    | nil => exact fun _ => .rest hr
    | cons a l' ih =>
      intro h
      exact .place (s := [',']) (by decide) (h a List.mem_cons_self)
        (ih fun a' ha' => h a' (List.mem_cons_of_mem a ha'))
  obtain ⟨a, l, rfl⟩ := List.exists_cons_of_ne_nil hne
  rw [List.length_cons, placeholders_succ, List.append_assoc, List.cons_append]
  exact .place hs (hfirst a List.mem_cons_self) (hrest l fun a' ha' => hnext a' (List.mem_cons_of_mem a ha'))

end Tilbo.Lib.Prepared
