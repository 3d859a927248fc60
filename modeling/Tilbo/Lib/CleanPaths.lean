import Mathlib.Data.List.Basic
import Mathlib.Tactic.SplitIfs
import Tilbo.Lib.Words

/-! # Clean paths

A slash-separated path is cleaned element by element, with the elements kept so far on a stack: empty
elements and `.` are dropped, and `..` takes the element before it away. -/

namespace Tilbo.Lib.CleanPaths

open Tilbo.Lib.Words

/-- An element of a path. -/
abbrev Element := List Char

def isAbs (path : String) : Bool := path.toList.head? = some '/'

/-- One element; the last element kept is at the head of the stack. -/
def push (rooted : Bool) (kept : List Element) (e : Element) : List Element :=
  if e = [] ∨ e = ['.'] then kept
  else if e = ['.', '.'] then
    match kept with
    | [] => if rooted then [] else [e]
    | last :: front => if last = ['.', '.'] then e :: kept else front
  else e :: kept

/-- The elements of the cleaned path. -/
def elements (path : String) : List Element :=
  ((path.toList.splitOn '/').foldl (push (isAbs path)) []).reverse

/-- The path with these elements. -/
def ofElements (rooted : Bool) (es : List Element) : String :=
  if rooted then String.ofList ('/' :: ['/'].intercalate es)
  else if es = [] then "." else String.ofList (['/'].intercalate es)

/-- The shortest path that names the same by the text alone. -/
def clean (path : String) : String := ofElements (isAbs path) (elements path)

/-- The elements joined by slashes, and cleaned; empty ones are ignored. -/
def join (paths : List String) : String :=
  match paths.filter (· ≠ "") with
  | [] => ""
  | p :: ps => clean ("/".intercalate (p :: ps))

example : [clean "/a/./b//c/../d/", clean "../../x/..", clean "", join ["", "/", "a"]] =
    ["/a/b/d", "../..", ".", "/a"] := by
  decide

/-! ### Elements -/

/-- What a name in a clean path looks like. -/
def IsElement (e : Element) : Prop := e ≠ [] ∧ e ≠ ['.'] ∧ e ≠ ['.', '.'] ∧ '/' ∉ e

instance (e : Element) : Decidable (IsElement e) := by unfold IsElement; infer_instance

variable {path : String} {e : Element} {es kept : List Element} {rooted : Bool}

theorem push_element (h : IsElement e) (rooted : Bool) : push rooted kept e = e :: kept := by
  unfold push
  rw [if_neg fun h' => h'.elim h.1 h.2.1, if_neg h.2.2.1]

theorem foldl_push (h : ∀ e ∈ es, IsElement e) (rooted : Bool) :
    es.foldl (push rooted) kept = es.reverse ++ kept := by
  induction es generalizing kept with
  | nil => rfl
  | cons e es ih =>
    obtain ⟨he, hes⟩ := List.forall_mem_cons.mp h
    rw [List.foldl_cons, push_element he, ih hes, List.reverse_cons, List.append_assoc]
    rfl

/-- The parts between the separators have none, and nothing that the text does not have. -/
theorem not_mem_splitOn {sep c : Char} {text : List Char} (hc : c = sep ∨ c ∉ text) :
    ∀ part ∈ text.splitOn sep, c ∉ part := by
  intro part hpart
  rcases hc with rfl | hc
  · exact not_mem_of_mem_splitOn hpart
  · rw [List.splitOn_eq_splitOnP] at hpart
    exact fun hmem => hc (mem_of_mem_splitOnP hpart hmem)

/-- What one element keeps up, all of them do. -/
theorem forall_foldl_push {P Q : Element → Prop} {rooted : Bool} {parts : List Element}
    (hpush : ∀ kept e, (∀ e ∈ kept, P e) → Q e → ∀ e' ∈ push rooted kept e, P e')
    (hparts : ∀ e ∈ parts, Q e) (hkept : ∀ e ∈ kept, P e) : ∀ e ∈ parts.foldl (push rooted) kept, P e := by
  induction parts generalizing kept with
  | nil => exact hkept
  | cons e parts ih =>
    obtain ⟨he, hparts⟩ := List.forall_mem_cons.mp hparts
    exact ih hparts (hpush kept e hkept he)

/-- An element brings its own characters only. -/
theorem not_mem_push {c : Char} {rooted : Bool} (hkept : ∀ e ∈ kept, c ∉ e) (he : c ∉ e) :
    ∀ e' ∈ push rooted kept e, c ∉ e' := by
  have hcons : ∀ e' ∈ e :: kept, c ∉ e' := fun e' he' => (List.mem_cons.mp he').elim (fun heq => heq ▸ he) (hkept e')
  unfold push
  by_cases hempty : e = [] ∨ e = ['.']
  · rw [if_pos hempty]
    exact hkept
  · rw [if_neg hempty]
    by_cases hdots : e = ['.', '.']
    · rw [if_pos hdots]
      cases kept with
      | nil =>
        dsimp only
        split_ifs
        · exact hkept
        · exact hcons
      | cons last front =>
        dsimp only
        split_ifs
        · exact hcons
        · exact fun e' he' => hkept e' (List.mem_cons_of_mem _ he')
    · rw [if_neg hdots]
      exact hcons

/-- Cleaning puts in no characters. -/
theorem not_mem_elements {c : Char} (hc : c ∉ path.toList) : ∀ e ∈ elements path, c ∉ e := by
  intro e he
  rw [elements, List.mem_reverse] at he
  exact forall_foldl_push (fun _ _ => not_mem_push) (not_mem_splitOn (Or.inr hc)) (by simp) e he

/-! ### Clean paths -/

/-- `..`. -/
abbrev up : Element := ['.', '.']

/-- What the elements of a clean path look like: each `..` comes before the names, and a rooted path has none. -/
def Settled (rooted : Bool) (es : List Element) : Prop :=
  ∃ n names, es = List.replicate n up ++ names ∧ (∀ e ∈ names, IsElement e) ∧ (rooted = true → n = 0)

theorem Settled.nil : Settled rooted [] := ⟨0, [], rfl, by simp, fun _ => rfl⟩

theorem Settled.concat (h : Settled rooted es) (he : IsElement e) : Settled rooted (es ++ [e]) := by
  obtain ⟨n, names, rfl, hnames, hn⟩ := h
  refine ⟨n, names ++ [e], List.append_assoc .., fun e' he' => ?_, hn⟩
  rcases List.mem_append.mp he' with he' | he'
  · exact hnames e' he'
  · exact List.mem_singleton.mp he' ▸ he

theorem Settled.append {names : List Element} (h : Settled rooted es) (hnames : ∀ e ∈ names, IsElement e) :
    Settled rooted (es ++ names) := by
  induction names generalizing es with
  | nil => rwa [List.append_nil]
  | cons e names ih =>
    obtain ⟨he, hnames⟩ := List.forall_mem_cons.mp hnames
    rw [← List.singleton_append, ← List.append_assoc]
    exact ih (h.concat he) hnames

/-- An element that is kept has a letter and no slash. -/
theorem Settled.mem (h : Settled rooted es) (he : e ∈ es) : e ≠ [] ∧ '/' ∉ e := by
  obtain ⟨n, names, rfl, hnames, -⟩ := h
  rcases List.mem_append.mp he with he | he
  · obtain rfl := List.eq_of_mem_replicate he
    decide
  · exact ⟨(hnames e he).1, (hnames e he).2.2.2⟩

theorem settled_of_isElement (h : ∀ e ∈ es, IsElement e) : Settled rooted es := ⟨0, es, rfl, h, fun _ => rfl⟩

/-- A rooted path has names only. -/
theorem Settled.isElement (h : Settled true es) : ∀ e ∈ es, IsElement e := by
  obtain ⟨n, names, rfl, hnames, hn⟩ := h
  rwa [hn rfl]

/-- One more element keeps the stack settled. -/
theorem settled_push (h : Settled rooted kept.reverse) (he : '/' ∉ e) : Settled rooted (push rooted kept e).reverse := by
  unfold push
  by_cases hempty : e = [] ∨ e = ['.']
  · rw [if_pos hempty]
    exact h
  rw [if_neg hempty]
  obtain ⟨hne, hdot⟩ := not_or.mp hempty
  by_cases hdots : e = up
  · rw [if_pos hdots]
    cases kept with
    | nil =>
      dsimp only
      split_ifs with hrooted
      · exact Settled.nil
      · exact ⟨1, [], by rw [hdots]; rfl, by simp, fun hr => absurd hr hrooted⟩
    | cons last front =>
      obtain ⟨n, names, hkept, hnames, hn⟩ := h
      dsimp only
      rw [List.reverse_cons] at hkept
      rcases List.eq_nil_or_concat names with rfl | ⟨names, name, rfl⟩
      · -- Only `..` so far.
        rw [List.append_nil] at hkept
        have hlast : last = up := by
          refine List.eq_of_mem_replicate (n := n) ?_
          rw [← hkept]
          exact List.mem_append_right _ List.mem_cons_self
        rw [if_pos hlast, hdots, List.reverse_cons, List.reverse_cons, hkept]
        refine ⟨n + 1, [], ?_, by simp, fun hr => ?_⟩
        · rw [List.append_nil, List.replicate_succ']
        · have hlength := congrArg List.length hkept
          rw [hn hr] at hlength
          simp at hlength
      · rw [List.concat_eq_append, ← List.append_assoc] at hkept
        obtain ⟨hfront, hlast⟩ := List.append_inj' hkept rfl
        obtain rfl : last = name := by simpa using hlast
        have hname : IsElement last := hnames last (by simp)
        rw [if_neg hname.2.2.1, hfront]
        exact ⟨n, names, rfl, fun e' he' => hnames e' (by simp [he']), hn⟩
  · rw [if_neg hdots, List.reverse_cons]
    exact h.concat ⟨hne, hdot, hdots, he⟩

theorem settled_elements (path : String) : Settled (isAbs path) (elements path) := by
  have hfold : ∀ (parts kept : List Element), (∀ e ∈ parts, '/' ∉ e) → Settled (isAbs path) kept.reverse →
      Settled (isAbs path) (parts.foldl (push (isAbs path)) kept).reverse := by
    intro parts
    induction parts with
    | nil => exact fun kept _ h => h
    | cons e parts ih =>
      intro kept hparts h
      obtain ⟨he, hparts⟩ := List.forall_mem_cons.mp hparts
      exact ih _ hparts (settled_push h he)
  exact hfold _ [] (not_mem_splitOn (Or.inl rfl)) Settled.nil

/-- The elements of a clean path, one after the other. -/
theorem foldl_push_settled (h : Settled rooted es) : es.foldl (push rooted) [] = es.reverse := by
  obtain ⟨n, names, rfl, hnames, hn⟩ := h
  have hups : (List.replicate n up).foldl (push rooted) [] = List.replicate n up := by
    cases rooted with
    | true => rw [hn rfl]; rfl
    | false =>
      clear hn
      induction n with
      | zero => rfl
      | succ n ih =>
        rw [List.replicate_succ', List.foldl_append, ih, ← List.replicate_succ', List.replicate_succ]
        cases n with
        | zero => rfl
        | succ n => rfl
  rw [List.foldl_append, hups, foldl_push hnames, List.reverse_append, List.reverse_replicate]

theorem isAbs_ofElements : isAbs (ofElements true es) = true := by
  rw [isAbs, ofElements, if_pos rfl, String.toList_ofList]
  rfl

/-- Settled elements make a path that is absolute if it is rooted. -/
theorem isAbs_ofElements_settled (h : Settled rooted es) : isAbs (ofElements rooted es) = rooted := by
  cases rooted with
  | true => exact isAbs_ofElements
  | false =>
    cases es with
    | nil => decide
    | cons e es =>
      obtain ⟨hne, hslash⟩ := h.mem List.mem_cons_self
      obtain ⟨c, rest, rfl⟩ := List.exists_cons_of_ne_nil hne
      have hc : c ≠ '/' := fun hc => hslash (hc ▸ List.mem_cons_self)
      rw [isAbs, ofElements, if_neg (by simp), if_neg (List.cons_ne_nil _ _), String.toList_ofList]
      cases es with
      | nil => simpa [List.intercalate] using hc
      | cons e' es => simpa [List.intercalate_cons_cons] using hc

/-- The parts of a path that is not rooted. -/
theorem splitOn_ofElements_relative (h : Settled false es) (hne : es ≠ []) :
    (ofElements false es).toList.splitOn '/' = es := by
  rw [ofElements, if_neg (by simp), if_neg hne, String.toList_ofList,
    List.splitOn_intercalate _ (fun e he => (h.mem he).2) hne]

/-- The parts of a rooted path, with the empty one before the first slash. -/
theorem splitOn_ofElements_rooted (h : Settled true es) (hne : es ≠ []) :
    (ofElements true es).toList.splitOn '/' = [] :: es := by
  rw [ofElements, if_pos rfl, String.toList_ofList, List.splitOn_cons_eq_if_modifyHead, if_pos (beq_self_eq_true '/'),
    List.splitOn_intercalate _ (fun e he => (h.mem he).2) hne]

/-- The elements of a path that is made of settled elements. -/
theorem elements_ofElements_settled (h : Settled rooted es) : elements (ofElements rooted es) = es := by
  rw [elements, isAbs_ofElements_settled h]
  by_cases hne : es = []
  · subst hne
    cases rooted <;> decide
  · have hreverse := foldl_push_settled h
    cases rooted with
    | true =>
      have hnil : push true [] [] = [] := rfl
      rw [splitOn_ofElements_rooted h hne, List.foldl_cons, hnil, hreverse, List.reverse_reverse]
    | false => rw [splitOn_ofElements_relative h hne, hreverse, List.reverse_reverse]

theorem clean_ofElements (h : Settled rooted es) : clean (ofElements rooted es) = ofElements rooted es := by
  rw [clean, isAbs_ofElements_settled h, elements_ofElements_settled h]

/-- Cleaning twice is cleaning once. -/
theorem clean_clean (path : String) : clean (clean path) = clean path := clean_ofElements (settled_elements path)

theorem ofElements_ne_empty (h : Settled rooted es) : ofElements rooted es ≠ "" := by
  intro heq
  have htext := congrArg String.toList heq
  cases rooted with
  | true => simp [ofElements] at htext
  | false =>
    cases es with
    | nil => exact absurd heq (by decide)
    | cons e es =>
      obtain ⟨c, rest, rfl⟩ := List.exists_cons_of_ne_nil (h.mem List.mem_cons_self).1
      cases es with
      | nil => simp [ofElements, List.intercalate] at htext
      | cons e' es => simp [ofElements, List.intercalate_cons_cons] at htext

theorem isAbs_append_of_ne (h : path ≠ "") (s : String) : isAbs (path ++ s) = isAbs path := by
  unfold isAbs
  rw [String.toList_append]
  cases hpath : path.toList with
  | nil => exact absurd (String.toList_eq_nil_iff.mp hpath) h
  | cons c rest => rfl

/-- A name is joined to a clean path. -/
theorem join_settled (h : Settled rooted es) (he : IsElement e) :
    join [ofElements rooted es, String.ofList e] = ofElements rooted (es ++ [e]) := by
  have hpath := ofElements_ne_empty h
  have hname : String.ofList e ≠ "" := fun heq => he.1 (by rw [← @String.toList_ofList e, heq]; rfl)
  have hslash : ofElements rooted es ++ "/" ≠ "" := fun heq => by
    have := congrArg String.length heq
    simp at this
  have habs : isAbs (ofElements rooted es ++ "/" ++ String.ofList e) = rooted := by
    rw [isAbs_append_of_ne hslash, isAbs_append_of_ne hpath, isAbs_ofElements_settled h]
  have hlist : (ofElements rooted es ++ "/" ++ String.ofList e).toList = (ofElements rooted es).toList ++ '/' :: e := by
    simp [String.toList_append]
  have hstack : ((ofElements rooted es).toList.splitOn '/').foldl (push rooted) [] = es.reverse := by
    have helements := elements_ofElements_settled h
    rw [elements, isAbs_ofElements_settled h] at helements
    exact List.reverse_eq_iff.mp helements
  have hjoin : join [ofElements rooted es, String.ofList e] = clean (ofElements rooted es ++ "/" ++ String.ofList e) := by
    simp [join, hpath, hname]
  rw [hjoin, clean, habs, elements, habs, hlist, List.splitOn_append_cons_self, List.foldl_append, hstack,
    List.splitOn_eq_singleton he.2.2.2, List.foldl_cons, List.foldl_nil, push_element he, List.reverse_cons,
    List.reverse_reverse]

/-! ### Clean rooted paths -/

theorem isElement_push (hkept : ∀ e ∈ kept, IsElement e) (he : '/' ∉ e) : ∀ e' ∈ push true kept e, IsElement e' := by
  have hsettled : Settled true kept.reverse := settled_of_isElement fun e he => hkept e (List.mem_reverse.mp he)
  exact fun e' he' => (settled_push hsettled he).isElement e' (List.mem_reverse.mpr he')

/-- Cleaning leaves nothing but names. -/
theorem isElement_elements (h : isAbs path = true) : ∀ e ∈ elements path, IsElement e :=
  (h ▸ settled_elements path : Settled true (elements path)).isElement

/-- Cleaning makes no path absolute. -/
theorem isAbs_of_clean (h : isAbs (clean path) = true) : isAbs path = true := by
  rwa [clean, isAbs_ofElements_settled (settled_elements path)] at h

theorem splitOn_ofElements (h : ∀ e ∈ es, IsElement e) (hne : es ≠ []) :
    (ofElements true es).toList.splitOn '/' = [] :: es := splitOn_ofElements_rooted (settled_of_isElement h) hne

/-- A clean rooted path has the elements that it is made of. -/
theorem elements_ofElements (h : ∀ e ∈ es, IsElement e) : elements (ofElements true es) = es :=
  elements_ofElements_settled (settled_of_isElement h)

theorem isAbs_append (h : isAbs path = true) (s : String) : isAbs (path ++ s) = true := by
  unfold isAbs at h ⊢
  rw [String.toList_append]
  cases hpath : path.toList with
  | nil =>
    rw [hpath] at h
    cases h
  | cons c rest =>
    rw [hpath] at h
    exact h

/-- Something is joined to a rooted path. -/
theorem join_pair {s : String} (h : isAbs path = true) (hs : s ≠ "") : join [path, s] = clean (path ++ "/" ++ s) := by
  have hpath : path ≠ "" := fun heq => by
    rw [heq] at h
    cases h
  simp [join, hpath, hs]

/-- The elements of a rooted path with something put behind a slash. -/
theorem elements_append_slash {s : String} (h : isAbs path = true) :
    elements (path ++ "/" ++ s) = ((s.toList.splitOn '/').foldl (push true) (elements path).reverse).reverse := by
  have hlist : (path ++ "/" ++ s).toList = path.toList ++ '/' :: s.toList := by simp [String.toList_append]
  rw [elements, isAbs_append (isAbs_append h _), hlist, List.splitOn_append_cons_self, List.foldl_append, elements, h,
    List.reverse_reverse]

/-- A name is joined to a clean rooted path. -/
theorem join_name (h : ∀ e ∈ es, IsElement e) (he : IsElement e) :
    join [ofElements true es, String.ofList e] = ofElements true (es ++ [e]) := join_settled (settled_of_isElement h) he

/-- The root is joined to a clean rooted path. -/
theorem join_root (h : ∀ e ∈ es, IsElement e) : join [ofElements true es, "/"] = ofElements true es := by
  have hpush : (("/".toList.splitOn '/').foldl (push true) es.reverse) = es.reverse := rfl
  rw [join_pair isAbs_ofElements (by decide), clean, isAbs_append (isAbs_append isAbs_ofElements _),
    elements_append_slash isAbs_ofElements, elements_ofElements h, hpush, List.reverse_reverse]

/-- A clean rooted path ends in its last element. -/
theorem toList_ofElements_concat (es : List Element) (e : Element) :
    ∃ front, (ofElements true (es ++ [e])).toList = front ++ '/' :: e := by
  rw [ofElements, if_pos rfl, String.toList_ofList]
  induction es with
  | nil => exact ⟨[], by simp [List.intercalate]⟩
  | cons e' es ih =>
    obtain ⟨front, hfront⟩ := ih
    refine ⟨'/' :: e' ++ front, ?_⟩
    have hne : es ++ [e] ≠ [] := by simp
    rw [List.cons_append, List.intercalate_cons_of_ne_nil hne]
    simp only [List.append_assoc, List.cons_append, List.nil_append, hfront]

/-- A path ends in its last element. -/
theorem toList_ofElements_ends (rooted : Bool) (es : List Element) (e : Element) :
    ∃ front, (ofElements rooted (es ++ [e])).toList = front ++ e := by
  have hends : ∃ front, ['/'].intercalate (es ++ [e]) = front ++ e := by
    induction es with
    | nil => exact ⟨[], by simp [List.intercalate]⟩
    | cons e' es ih =>
      obtain ⟨front, hfront⟩ := ih
      refine ⟨e' ++ '/' :: front, ?_⟩
      rw [List.cons_append, List.intercalate_cons_of_ne_nil (by simp), hfront]
      simp
  obtain ⟨front, hfront⟩ := hends
  cases rooted with
  | true => exact ⟨'/' :: front, by rw [ofElements, if_pos rfl, String.toList_ofList, hfront, List.cons_append]⟩
  | false => exact ⟨front, by rw [ofElements, if_neg (by simp), if_neg (by simp), String.toList_ofList, hfront]⟩

/-- What is below a path starts with the path and a slash. -/
theorem toList_ofElements_append (rooted : Bool) {names : List Element} (hes : es ≠ []) (hnames : names ≠ []) :
    (ofElements rooted (es ++ names)).toList =
      (ofElements rooted es).toList ++ '/' :: ['/'].intercalate names := by
  have happend : ∀ es : List Element, es ≠ [] →
      ['/'].intercalate (es ++ names) = ['/'].intercalate es ++ '/' :: ['/'].intercalate names := by
    intro es hes
    induction es with
    | nil => exact absurd rfl hes
    | cons e es ih =>
      by_cases hnil : es = []
      · subst hnil
        rw [List.singleton_append, List.intercalate_cons_of_ne_nil hnames]
        simp [List.intercalate]
      · rw [List.cons_append, List.intercalate_cons_of_ne_nil (by simp [hnil]), ih hnil,
          List.intercalate_cons_of_ne_nil hnil]
        simp
  cases rooted with
  | true => rw [ofElements, ofElements, if_pos rfl, if_pos rfl, String.toList_ofList, String.toList_ofList,
      happend es hes, List.cons_append]
  | false => rw [ofElements, ofElements, if_neg Bool.false_ne_true, if_neg (List.append_ne_nil_of_left_ne_nil hes _),
      if_neg Bool.false_ne_true, if_neg hes, String.toList_ofList, String.toList_ofList, happend es hes]

/-! ### One path as seen from another -/

/-- Both lists without what they have in common at the front. -/
def stripCommon : List Element → List Element → List Element × List Element
  | b :: bs, t :: ts => if b = t then stripCommon bs ts else (b :: bs, t :: ts)
  | bs, ts => (bs, ts)

/-- The path from `base` to `target`, if the texts alone tell. -/
def rel (base target : String) : Option String :=
  if isAbs base ≠ isAbs target then none
  else
    let (bs, ts) := stripCommon (elements base) (elements target)
    -- What `..` is called cannot be told.
    if bs.head? = some up then none else some (ofElements false (bs.map (fun _ => up) ++ ts))

theorem stripCommon_append (es names : List Element) : stripCommon es (es ++ names) = ([], names) := by
  induction es with
  | nil => cases names <;> rfl
  | cons e es ih => rw [List.cons_append, stripCommon, if_pos rfl, ih]

/-- The path to what is below. -/
theorem rel_below {names : List Element} (h : Settled rooted es) (hnames : ∀ e ∈ names, IsElement e) :
    rel (ofElements rooted es) (ofElements rooted (es ++ names)) = some (ofElements false names) := by
  have hbelow := h.append hnames
  rw [rel, isAbs_ofElements_settled h, isAbs_ofElements_settled hbelow, elements_ofElements_settled h,
    elements_ofElements_settled hbelow, stripCommon_append]
  simp

example : [rel "/a" "/a/./b/c", rel "/a/b" "/a/c", rel "a" "/a", rel "../x" "a", rel "/a" "/a"] =
    [some "b/c", some "../c", none, none, some "."] := by
  decide

end Tilbo.Lib.CleanPaths
