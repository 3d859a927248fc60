import Tilbo.Daemon.Clobber

/-! # Names that clients give

The daemon joins names that its clients give to directories: the new name of a file, the name of a file or directory
that is created, and the name of an entry of the trash. `stays_iff` says when the path that comes out of it is a direct
child of the directory. -/

namespace Tilbo.Daemon.NewNames

open Tilbo.Lib.CleanPaths Tilbo.Daemon.Drops Tilbo.Daemon.Unix Tilbo.Daemon.Clobber

/-! ### The requests -/

/-- A clean absolute path. -/
structure AbsPath where
  elements : List Element
  proper : ∀ e ∈ elements, IsElement e

def AbsPath.text (p : AbsPath) : String := ofElements true p.elements

/-- A request with a name. -/
inductive Request where
  | renameFile (path newName : String)
  | createFile (dest name : String)
  | createDirectory (dest name : String)
  | restoreTrash (trashName : String)

/-- The path that a name in a directory makes, if both are accepted. -/
def newPath (cleanDest : Except PathError String) (name : String) : List (String × String) :=
  match cleanDest, validateNewName name with
  | .ok cleanDest, .ok _ => [(cleanDest, join [cleanDest, name])]
  | _, _ => []

/-- The paths that a request makes from a directory and a name, with the directory. -/
def Request.targets (trashBase : AbsPath) : Request → List (String × String)
  | .renameFile path newName => newPath ((validatePath path).map dir) newName
  | .createFile dest name => newPath (validatePath dest) name
  | .createDirectory dest name => newPath (validatePath dest) name
  | .restoreTrash trashName =>
    [(join [trashBase.text, "files"], join [trashBase.text, "files", trashName]),
      (join [trashBase.text, "info"], join [trashBase.text, "info", trashName ++ ".trashinfo"])]

/-! ### What is to be shown -/

/-- The directory is the parent of the path, and not the path itself. -/
def IsChild (directory path : String) : Prop := dir path = directory ∧ path ≠ directory

/-- The name is neither `.` nor `..`. -/
def Named (name : String) : Prop := name ≠ "." ∧ name ≠ ".."

/-- What is before the last slash of the name leads nowhere else, and what is behind it is a name. -/
def Plain (name : String) : Prop :=
  ∃ front last, name.toList.splitOn '/' = front ++ [last] ∧ front.foldl (push false) [] = [] ∧ IsElement last

/-- The name of a request that is accepted is a name. -/
def Request.Proper : Request → Prop
  | .renameFile path newName =>
    (∃ cleaned, validatePath path = .ok cleaned) → validateNewName newName = .ok () → Named newName
  | .createFile dest name | .createDirectory dest name =>
    (∃ cleaned, validatePath dest = .ok cleaned) → validateNewName name = .ok () → Named name
  | .restoreTrash trashName => Plain trashName

/-! ### Parents -/

section Parents

variable {es es' : List Element} {e : Element} {name : String}

theorem ofElements_inj (h : ∀ e ∈ es, IsElement e) (h' : ∀ e ∈ es', IsElement e)
    (heq : ofElements true es = ofElements true es') : es = es' := by
  rw [← elements_ofElements h, heq, elements_ofElements h']

/-- The text of a path before its last element. -/
theorem toList_ofElements_snoc (hne : es ≠ []) :
    (ofElements true (es ++ [e])).toList = (ofElements true es).toList ++ '/' :: e := by
  simp only [ofElements, if_true, String.toList_ofList]
  induction es with
  | nil => exact absurd rfl hne
  | cons e' es ih =>
    cases es with
    | nil => simp [List.intercalate_cons_cons]
    | cons e'' es =>
      have ih := ih (List.cons_ne_nil _ _)
      simp only [List.cons_append, List.cons.injEq, true_and, List.intercalate_cons_cons, List.append_assoc] at ih ⊢
      rw [ih]

theorem rdropWhile_slash {l : List Char} (he : '/' ∉ e) : (l ++ '/' :: e).rdropWhile (· ≠ '/') = l ++ ['/'] := by
  have hall : ∀ c ∈ e.reverse, decide (c ≠ '/') = true := fun c hc => by
    simpa using fun heq : c = '/' => he (heq ▸ List.mem_reverse.mp hc)
  rw [List.rdropWhile, List.reverse_append, List.reverse_cons, List.append_assoc, List.dropWhile_append_of_pos hall]
  simp

/-- The parent of a clean absolute path. -/
theorem dir_ofElements (h : ∀ e ∈ es, IsElement e) (he : IsElement e) :
    dir (ofElements true (es ++ [e])) = ofElements true es := by
  unfold dir
  by_cases hne : es = []
  · subst hne
    have hlist : (ofElements true ([] ++ [e])).toList = [] ++ '/' :: e := by
      simp [ofElements, List.intercalate_singleton]
    rw [hlist, rdropWhile_slash he.2.2.2]
    decide
  · rw [toList_ofElements_snoc hne, rdropWhile_slash he.2.2.2]
    have htext : String.ofList ((ofElements true es).toList ++ ['/']) = ofElements true es ++ "/" ++ "" :=
      String.toList_injective (by simp [String.toList_append])
    have hpush : (("".toList.splitOn '/').foldl (push true) es.reverse) = es.reverse := rfl
    rw [htext, clean, isAbs_append (isAbs_append isAbs_ofElements _), elements_append_slash isAbs_ofElements,
      elements_ofElements h, hpush, List.reverse_reverse]

/-- A path is a child of a directory exactly if it has one element more. -/
theorem isChild_iff (h : ∀ e ∈ es, IsElement e) (h' : ∀ e ∈ es', IsElement e) :
    IsChild (ofElements true es) (ofElements true es') ↔ ∃ e, es' = es ++ [e] := by
  constructor
  · rintro ⟨hdir, hne⟩
    rcases List.eq_nil_or_concat' es' with rfl | ⟨front, last, rfl⟩
    · exact absurd ((by decide : dir (ofElements true []) = ofElements true []).symm.trans hdir) hne
    · obtain ⟨hfront, hlast⟩ := List.forall_mem_append.mp h'
      rw [dir_ofElements hfront (hlast last (List.mem_singleton_self _))] at hdir
      exact ⟨last, by rw [ofElements_inj hfront h hdir]⟩
  · rintro ⟨e, rfl⟩
    obtain ⟨-, he⟩ := List.forall_mem_append.mp h'
    refine ⟨dir_ofElements h (he e (List.mem_singleton_self _)), fun heq => ?_⟩
    have hlength := congrArg List.length (ofElements_inj h' h heq)
    simp at hlength

/-- **A new name.** What a name without slashes makes in a directory is a child of it, unless it is `.` or `..`. -/
theorem isChild_join_iff (h : ∀ e ∈ es, IsElement e) (hname : validateNewName name = .ok ()) :
    IsChild (ofElements true es) (join [ofElements true es, name]) ↔ Named name := by
  obtain ⟨hempty, hslash⟩ : name ≠ "" ∧ '/' ∉ name.toList := by
    unfold validateNewName at hname
    split_ifs at hname with hempty hnull hslash
    exact ⟨hempty, hslash⟩
  have hjoin : join [ofElements true es, name] = ofElements true (push true es.reverse name.toList).reverse := by
    rw [join_pair isAbs_ofElements hempty, clean, isAbs_append (isAbs_append isAbs_ofElements _),
      elements_append_slash isAbs_ofElements, elements_ofElements h, List.splitOn_eq_singleton hslash, List.foldl_cons,
      List.foldl_nil]
  have hpushed : ∀ e ∈ (push true es.reverse name.toList).reverse, IsElement e := fun e he =>
    isElement_push (fun e he => h e (List.mem_reverse.mp he)) hslash e (List.mem_reverse.mp he)
  rw [hjoin, isChild_iff h hpushed]
  constructor
  · rintro ⟨e, he⟩
    constructor
    · rintro rfl
      simp [push] at he
    · rintro rfl
      have hdots : (push true es.reverse "..".toList).reverse = es.dropLast := by
        rcases List.eq_nil_or_concat' es with rfl | ⟨front, last, rfl⟩
        · rfl
        · have hlast : last ≠ ['.', '.'] := (h last (by simp)).2.2.1
          simp [push, hlast]
      rw [hdots] at he
      have hlength := congrArg List.length he
      simp at hlength
  · rintro ⟨hdot, hdots⟩
    have helement : IsElement name.toList :=
      ⟨fun heq => hempty (String.toList_injective heq), fun heq => hdot (String.toList_injective heq),
        fun heq => hdots (String.toList_injective heq), hslash⟩
    rw [push_element helement]
    exact ⟨name.toList, by simp⟩

end Parents

/-! ### Names in the trash -/

section Trash

variable {es front kept stack stack' : List Element} {e last x y : Element} {trashName : String}

/-- One element on three stacks: on top of nothing, and on top of two directories with different names. Once a step
leads out of the two directories, it makes no difference which one it was. -/
theorem push_apart (hx : x ≠ ['.', '.']) (hy : y ≠ ['.', '.'])
    (h : (['.', '.'] ∉ kept ∧ stack = kept ++ x :: es ∧ stack' = kept ++ y :: es) ∨
      (['.', '.'] ∈ kept ∧ stack = stack')) :
    (['.', '.'] ∉ push false kept e ∧ push true stack e = push false kept e ++ x :: es ∧
        push true stack' e = push false kept e ++ y :: es) ∨
      (['.', '.'] ∈ push false kept e ∧ push true stack e = push true stack' e) := by
  unfold push
  by_cases hempty : e = [] ∨ e = ['.']
  · simp only [if_pos hempty]
    exact h
  · simp only [if_neg hempty]
    by_cases hdots : e = ['.', '.']
    · simp only [if_pos hdots]
      rcases h with ⟨hkept, rfl, rfl⟩ | ⟨hkept, rfl⟩
      · cases kept with
        | nil => exact Or.inr (by simp [hx, hy, hdots])
        | cons k kept =>
          have hk : k ≠ ['.', '.'] := fun heq => hkept (heq ▸ List.mem_cons_self)
          simp only [List.cons_append, if_neg hk]
          exact Or.inl ⟨fun hmem => hkept (List.mem_cons_of_mem _ hmem), trivial, trivial⟩
      · refine Or.inr ⟨?_, rfl⟩
        cases kept with
        | nil => cases hkept
        | cons k kept =>
          dsimp only
          split_ifs with hk
          · exact List.mem_cons_of_mem _ hkept
          · exact (List.mem_cons.mp hkept).resolve_left (Ne.symm hk)
    · simp only [if_neg hdots]
      rcases h with ⟨hkept, rfl, rfl⟩ | ⟨hkept, rfl⟩
      · exact Or.inl ⟨fun hmem => (List.mem_cons.mp hmem).elim (fun heq => hdots heq.symm) hkept, rfl, rfl⟩
      · exact Or.inr ⟨List.mem_cons_of_mem _ hkept, rfl⟩

/-- All the elements of a relative path. -/
theorem foldl_push_apart (hx : x ≠ ['.', '.']) (hy : y ≠ ['.', '.']) (front : List Element) :
    (['.', '.'] ∉ front.foldl (push false) [] ∧
        front.foldl (push true) (x :: es) = front.foldl (push false) [] ++ x :: es ∧
        front.foldl (push true) (y :: es) = front.foldl (push false) [] ++ y :: es) ∨
      (['.', '.'] ∈ front.foldl (push false) [] ∧
        front.foldl (push true) (x :: es) = front.foldl (push true) (y :: es)) := by
  induction front using List.reverseRecOn with
  | nil => exact Or.inl (by simp)
  | append_singleton front e ih =>
    simp only [List.foldl_append, List.foldl_cons, List.foldl_nil]
    exact push_apart hx hy ih

/-- What is no name adds nothing. -/
theorem length_push_le (hkept : ∀ e ∈ kept, IsElement e) (hslash : '/' ∉ e) (h : ¬ IsElement e) :
    (push true kept e).length ≤ kept.length := by
  unfold push
  by_cases hempty : e = [] ∨ e = ['.']
  · rw [if_pos hempty]
  · obtain ⟨hnil, hdot⟩ := not_or.mp hempty
    have hdots : e = ['.', '.'] := by
      by_contra hdots
      exact h ⟨hnil, hdot, hdots, hslash⟩
    rw [if_neg hempty, if_pos hdots]
    cases kept with
    | nil => rfl
    | cons last front =>
      dsimp only
      rw [if_neg (hkept last List.mem_cons_self).2.2.1]
      exact Nat.le_succ _

/-- A name with slashes, joined to a directory in a directory. -/
theorem join_three {n s : String} (h : ∀ e ∈ es, IsElement e) (hn : IsElement n.toList) :
    join [ofElements true es, n, s] =
      ofElements true ((s.toList.splitOn '/').foldl (push true) (n.toList :: es.reverse)).reverse := by
  have hne : n ≠ "" := fun heq => hn.1 (by rw [heq]; rfl)
  have hbase : ofElements true es ≠ "" := fun heq => by
    have habs := @isAbs_ofElements es
    rw [heq] at habs
    cases habs
  have hdir : elements (ofElements true es ++ "/" ++ n) = (n.toList :: es.reverse).reverse := by
    rw [elements_append_slash isAbs_ofElements, elements_ofElements h, List.splitOn_eq_singleton hn.2.2.2,
      List.foldl_cons, List.foldl_nil, push_element hn]
  have habs : isAbs (ofElements true es ++ "/" ++ n) = true := isAbs_append (isAbs_append isAbs_ofElements _) _
  by_cases hs : s = ""
  · subst hs
    have hpush : ("".toList.splitOn '/').foldl (push true) (n.toList :: es.reverse) = n.toList :: es.reverse := rfl
    rw [hpush, ← hdir]
    have hjoin : join [ofElements true es, n, ""] = clean (ofElements true es ++ "/" ++ n) := by
      simp [join, hne, hbase]
    rw [hjoin, clean, habs]
  · have hjoin : join [ofElements true es, n, s] = clean (ofElements true es ++ "/" ++ n ++ "/" ++ s) := by
      simp [join, hne, hbase, hs, String.append_assoc]
    rw [hjoin, clean, isAbs_append (isAbs_append habs _), elements_append_slash habs, hdir, List.reverse_reverse]

/-- The parts of a name with something behind it. -/
theorem splitOn_append {s : String} (hs : '/' ∉ s.toList) (hname : trashName.toList.splitOn '/' = front ++ [last]) :
    (trashName ++ s).toList.splitOn '/' = front ++ [last ++ s.toList] := by
  have hparts : ∀ part ∈ front ++ [last], '/' ∉ part := hname ▸ not_mem_splitOn (Or.inl rfl)
  obtain ⟨hfront, hlast⟩ := List.forall_mem_append.mp hparts
  have hlast' : '/' ∉ last ++ s.toList := by
    simpa using ⟨hlast last (List.mem_singleton_self _), hs⟩
  have htext : trashName.toList = ['/'].intercalate (front ++ [last]) := by
    rw [← hname, List.intercalate_splitOn]
  have happend : (trashName ++ s).toList = ['/'].intercalate (front ++ [last ++ s.toList]) := by
    rw [String.toList_append, htext]
    clear hname hparts htext hfront
    induction front with
    | nil => simp [List.intercalate_singleton]
    | cons e front ih =>
      rw [List.cons_append, List.cons_append, List.intercalate_cons_of_ne_nil (by simp),
        List.intercalate_cons_of_ne_nil (by simp), List.append_assoc, ih]
  rw [happend, List.splitOn_intercalate _ (fun part hpart => ?_) (by simp)]
  rcases List.mem_append.mp hpart with hpart | hpart
  · exact hfront part hpart
  · rw [List.mem_singleton.mp hpart]
    exact hlast'

/-- **The name of an entry of the trash.** Its two paths are children of their directories exactly if what is before its
last slash leads nowhere else, and what is behind it is a name. -/
theorem isChild_trash_iff (h : ∀ e ∈ es, IsElement e) (trashName : String) :
    (IsChild (join [ofElements true es, "files"]) (join [ofElements true es, "files", trashName]) ∧
        IsChild (join [ofElements true es, "info"]) (join [ofElements true es, "info", trashName ++ ".trashinfo"])) ↔
      Plain trashName := by
  have hfiles : IsElement "files".toList := by decide
  have hinfo : IsElement "info".toList := by decide
  obtain ⟨front, last, hname⟩ : ∃ front last, trashName.toList.splitOn '/' = front ++ [last] :=
    (List.eq_nil_or_concat' _).resolve_left (List.splitOn_ne_nil _ _)
  have hname' := splitOn_append (by decide : '/' ∉ ".trashinfo".toList) hname
  have hparts : ∀ part ∈ trashName.toList.splitOn '/', '/' ∉ part := not_mem_splitOn (Or.inl rfl)
  rw [hname] at hparts
  obtain ⟨hfront, hlast⟩ := List.forall_mem_append.mp hparts
  have hlast := hlast last (List.mem_singleton_self _)
  have hsuffix : IsElement (last ++ ".trashinfo".toList) := by
    refine ⟨by simp, fun heq => ?_, fun heq => ?_, by simpa using hlast⟩
    all_goals
      have hlength := congrArg List.length heq
      simp at hlength
  -- the two stacks, at first and before the last part of the name
  have hbase : ∀ x, IsElement x → ∀ e ∈ x :: es.reverse, IsElement e := fun x hx =>
    List.forall_mem_cons.mpr ⟨hx, fun e he => h e (List.mem_reverse.mp he)⟩
  have hstack : ∀ x, IsElement x → ∀ e ∈ front.foldl (push true) (x :: es.reverse), IsElement e := fun x hx =>
    forall_foldl_push (fun _ _ => isElement_push) hfront (hbase x hx)
  have hdir : ∀ n : String, IsElement n.toList → join [ofElements true es, n] = ofElements true (es ++ [n.toList]) :=
    fun n hn => by
      have hjoin := join_name h hn
      rwa [String.ofList_toList] at hjoin
  have hes : ∀ x, IsElement x → ∀ e ∈ es ++ [x], IsElement e := fun x hx =>
    List.forall_mem_append.mpr ⟨h, by simpa using hx⟩
  have hapart := @foldl_push_apart es.reverse _ _ hfiles.2.2.1 hinfo.2.2.1 front
  have hpushed : ∀ e ∈ (push true (front.foldl (push true) ("files".toList :: es.reverse)) last).reverse, IsElement e :=
    fun e he => isElement_push (hstack _ hfiles) hlast e (List.mem_reverse.mp he)
  have hinfoPushed :
    ∀ e ∈ ((last ++ ".trashinfo".toList) :: front.foldl (push true) ("info".toList :: es.reverse)).reverse,
      IsElement e := fun e he =>
    (List.mem_cons.mp (List.mem_reverse.mp he)).elim (fun heq => heq ▸ hsuffix) (hstack _ hinfo e)
  rw [hdir _ hfiles, hdir _ hinfo, join_three h hfiles, join_three h hinfo, hname, hname', List.foldl_append,
    List.foldl_append, List.foldl_cons, List.foldl_nil, List.foldl_cons, List.foldl_nil, push_element hsuffix,
    isChild_iff (hes _ hfiles) hpushed, isChild_iff (hes _ hinfo) hinfoPushed]
  have hreverse : ∀ (x : Element) (stack : List Element),
      (∃ e, stack.reverse = es ++ [x] ++ [e]) ↔ ∃ e, stack = e :: x :: es.reverse := fun x stack =>
    exists_congr fun e => by rw [List.reverse_eq_iff]; simp
  rw [hreverse, hreverse]
  have hne : "files".toList ≠ "info".toList := by decide
  constructor
  · rintro ⟨⟨e, he⟩, ⟨e', he'⟩⟩
    have hinfoStack : front.foldl (push true) ("info".toList :: es.reverse) = "info".toList :: es.reverse :=
      (List.cons.inj he').2
    rcases hapart with ⟨-, hfilesApart, hinfoApart⟩ | ⟨-, hsame⟩
    · have hnone : front.foldl (push false) [] = [] := by
        rw [hinfoApart] at hinfoStack
        simpa using hinfoStack
      rw [hnone, List.nil_append] at hfilesApart
      rw [hfilesApart] at he
      refine ⟨front, last, hname, hnone, ?_⟩
      by_contra hnot
      have hshort := length_push_le (hbase _ hfiles) hlast hnot
      rw [he] at hshort
      simp at hshort
    · -- the name has left both directories, and come back to the second one
      rw [hsame, hinfoStack] at he
      by_cases helement : IsElement last
      · rw [push_element helement] at he
        exact absurd (List.cons.inj (List.cons.inj he).2).1.symm hne
      · have hshort := length_push_le (hbase _ hinfo) hlast helement
        rw [he] at hshort
        simp at hshort
  · rintro ⟨front', last', hname'', hnone, helement⟩
    obtain ⟨rfl, hsingle⟩ := List.append_inj' (hname.symm.trans hname'') rfl
    obtain rfl := (List.cons.inj hsingle).1
    rw [hnone] at hapart
    obtain ⟨-, hfilesApart, hinfoApart⟩ := hapart.resolve_right fun hdots => List.not_mem_nil hdots.1
    rw [hfilesApart, hinfoApart, push_element helement]
    exact ⟨⟨last, rfl⟩, ⟨_, rfl⟩⟩

end Trash

/-! ### Requests -/

/-- A directory that is accepted is a clean absolute path, and so is its parent. -/
theorem isChild_newPath {cleanDest : Except PathError String} {name : String}
    (hdest : ∀ cleaned, cleanDest = .ok cleaned → ∃ es, (∀ e ∈ es, IsElement e) ∧ cleaned = ofElements true es) :
    (∀ t ∈ newPath cleanDest name, IsChild t.1 t.2) ↔
      ((∃ cleaned, cleanDest = .ok cleaned) → validateNewName name = .ok () → Named name) := by
  unfold newPath
  cases hclean : cleanDest with
  | error err => simp
  | ok cleaned =>
    obtain ⟨es, hes, rfl⟩ := hdest cleaned hclean
    cases hname : validateNewName name with
    | error err => simp
    | ok =>
      have hchild := isChild_join_iff hes hname
      simpa using hchild

theorem validatePath_elements {path cleaned : String} (h : validatePath path = .ok cleaned) :
    ∃ es, (∀ e ∈ es, IsElement e) ∧ cleaned = ofElements true es := by
  obtain ⟨names, hnames, rfl⟩ := validatePath_eq_ok h
  exact ⟨_, isElement_map hnames, rfl⟩

/-- The parent of what is accepted. -/
theorem dir_elements {path cleaned : String} (h : (validatePath path).map dir = .ok cleaned) :
    ∃ es, (∀ e ∈ es, IsElement e) ∧ cleaned = ofElements true es := by
  cases hpath : validatePath path with
  | error err =>
    rw [hpath] at h
    cases h
  | ok accepted =>
    rw [hpath] at h
    obtain rfl : dir accepted = cleaned := Except.ok.inj h
    obtain ⟨es, hes, rfl⟩ := validatePath_elements hpath
    rcases List.eq_nil_or_concat' es with rfl | ⟨front, last, rfl⟩
    · exact ⟨[], by simp, by decide⟩
    · obtain ⟨hfront, hlast⟩ := List.forall_mem_append.mp hes
      exact ⟨front, hfront, dir_ofElements hfront (hlast last (List.mem_singleton_self _))⟩

/-- **Where names lead.** For every trash directory and every request that gives a name: the paths that it makes are
children of their directories exactly if a new name that is accepted is neither `.` nor `..`, and the name of an entry
of the trash is one name, up to a part before it that leads nowhere else. -/
theorem stays_iff (trashBase : AbsPath) (r : Request) :
    (∀ t ∈ r.targets trashBase, IsChild t.1 t.2) ↔ r.Proper := by
  cases r with
  | renameFile path newName =>
    refine (isChild_newPath fun cleaned => dir_elements).trans ?_
    cases hpath : validatePath path with
    | error err => simp [Request.Proper, hpath, Except.map]
    | ok cleaned => simp [Request.Proper, hpath, Except.map]
  | createFile dest name | createDirectory dest name => exact isChild_newPath fun cleaned => validatePath_elements
  | restoreTrash trashName =>
    refine Iff.trans ?_ (isChild_trash_iff trashBase.proper trashName)
    simp [Request.targets, AbsPath.text]

theorem mem_renames {k : Kernel} {old new : String} {w : World} {r : Renamed} (h : r ∈ (w.rename k old new).2.renames) :
    r ∈ w.renames ∨ r.old = old ∧ r.new = new := by
  unfold World.rename at h
  split at h
  all_goals
    refine (List.mem_append.mp h).imp_right fun hr => ?_
    rw [List.mem_singleton.mp hr]
    exact ⟨rfl, rfl⟩

/-- A rename of `renameFile` goes to the path of its request. -/
theorem renameFile_target {k : Kernel} {path newName : String} {w : World} {r : Renamed} (trashBase : AbsPath)
    (h : r ∈ (renameFile k path newName w).2.renames) :
    r ∈ w.renames ∨ ∃ t ∈ (Request.renameFile path newName).targets trashBase, r.new = t.2 := by
  unfold renameFile at h
  cases hpath : validatePath path with
  | error err =>
    rw [hpath] at h
    exact Or.inl h
  | ok cleaned =>
    cases hname : validateNewName newName with
    | error err =>
      rw [hpath, hname] at h
      exact Or.inl h
    | ok =>
      rw [hpath, hname] at h
      dsimp only at h
      have hrename : r ∈ (w.rename k cleaned (join [dir cleaned, newName])).2.renames := by
        cases hresult : w.rename k cleaned (join [dir cleaned, newName]) with
        | mk result w' =>
          rw [hresult] at h
          cases result <;> exact h
      have htargets : (Request.renameFile path newName).targets trashBase =
          [(dir cleaned, join [dir cleaned, newName])] := by
        simp only [Request.targets, newPath, hpath, hname, Except.map]
      rcases mem_renames hrename with hold | ⟨-, hnew⟩
      · exact Or.inl hold
      · refine Or.inr ⟨(dir cleaned, join [dir cleaned, newName]), ?_, ?_⟩
        · rw [htargets]
          exact List.mem_singleton_self _
        · rw [hnew]

/-- A rename of `restoreFromTrash` starts from the path of its request. -/
theorem restoreTrash_target {k : Kernel} {trashName : String} {w : World} (trashBase : AbsPath) :
    ∀ r ∈ (Trash.Restore.restoreFromTrash k trashBase.text trashName w).2.renames,
      r ∈ w.renames ∨ ∃ t ∈ (Request.restoreTrash trashName).targets trashBase, r.old = t.2 := by
  refine forall_restoreFromTrash (fun r hr => Or.inl hr) fun w' hw' dst r hr => ?_
  rcases mem_renames hr with hold | ⟨hold, -⟩
  · exact hw' r hold
  · refine Or.inr ⟨(join [trashBase.text, "files"], join [trashBase.text, "files", trashName]), ?_, hold⟩
    rw [Request.targets]
    exact List.mem_cons_self

/-- The name `..` is accepted, and the directory that it makes is the parent. -/
theorem parent_is_accepted :
    (Request.createDirectory "/a/b" "..").targets ⟨[], by simp⟩ = [("/a/b", "/a")] ∧
      ¬ ∀ t ∈ (Request.createDirectory "/a/b" "..").targets ⟨[], by simp⟩, IsChild t.1 t.2 := by
  have htargets : (Request.createDirectory "/a/b" "..").targets ⟨[], by simp⟩ = [("/a/b", "/a")] := by decide
  refine ⟨htargets, fun h => ?_⟩
  have hchild := h ("/a/b", "/a") (by rw [htargets]; exact List.mem_singleton_self _)
  exact absurd hchild.1 (by decide)

end Tilbo.Daemon.NewNames
