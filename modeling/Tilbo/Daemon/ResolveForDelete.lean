import Tilbo.Daemon.Drops

/-! # The file that is deleted

A path in the mount of the daemon stands for the file that its link leads to. `resolveForDelete` takes a path to be in
the mount if its text starts with that of the mount point. `acts_on_iff` says when it finds the right file. -/

namespace Tilbo.Daemon.ResolveForDelete

open Tilbo.Lib.CleanPaths Tilbo.Daemon.Drops

/-! ### Relative paths -/

/-- What leads from one list of elements to the other; none if that cannot be said. -/
def relElements : List Element → List Element → Option (List Element)
  | [], targ => some targ
  | b :: base, [] => if b = ['.', '.'] then none else some (List.replicate (base.length + 1) ['.', '.'])
  | b :: base, t :: targ =>
    if b = t then relElements base targ
    else if b = ['.', '.'] then none
    else some (List.replicate (base.length + 1) ['.', '.'] ++ t :: targ)

/-- `filepath.Rel`. -/
def rel (basepath targpath : String) : Option String :=
  if clean basepath = clean targpath then some "."
  else if isAbs basepath ≠ isAbs targpath then none
  else (relElements (elements basepath) (elements targpath)).map fun es => String.ofList (['/'].intercalate es)

/-! ### Resolution -/

/-- Why a path is not resolved. -/
inductive ResolveError where
  | path (err : PathError)
  /-- "Rel: can't make the path relative" -/
  | rel
deriving DecidableEq

/-- The first part of a relative path has the prefix `@`. -/
def isVirtualName (rel : String) : Bool := (rel.toList.takeWhile (· ≠ '/')).head? = some '@'

/-- `resolveForDelete`: the path, and whether it is virtual. -/
def resolveForDelete (fuseMount : String) (evalSymlinks : String → Option String) (path : String) :
    Except ResolveError (String × Bool) :=
  match validatePath path with
  | .error err => .error (.path err)
  | .ok clean =>
    if fuseMount = "" then .ok (clean, false)
    else if ¬ fuseMount.toList <+: clean.toList then .ok (clean, false)
    else
      match rel fuseMount clean with
      | none => .error .rel
      | some r =>
        if isVirtualName r then .ok ("", true)
        else
          match evalSymlinks clean with
          | none => .ok ("", true)
          | some realPath => .ok (realPath, false)

/-! ### What is to be shown -/

/-- Where the mount is: a mount point that is not absolute is one in the working directory. -/
def mountPoint (cwd fuseMount : String) : String := if isAbs fuseMount then fuseMount else join [cwd, fuseMount]

/-- The path is the mount point, or lies below it. -/
def Inside (cwd fuseMount path : String) : Prop :=
  fuseMount ≠ "" ∧ elements (mountPoint cwd fuseMount) <+: elements path

/-- What is not in the mount is left as it is; what is in the mount is virtual, or stands for something outside. -/
structure ActsOn (cwd fuseMount : String) (evalSymlinks : String → Option String) (path cleaned : String) : Prop where
  outside : ¬ Inside cwd fuseMount cleaned → resolveForDelete fuseMount evalSymlinks path = .ok (cleaned, false)
  inside : Inside cwd fuseMount cleaned →
    (∃ p, resolveForDelete fuseMount evalSymlinks path = .ok (p, true)) ∨
      ∃ p, resolveForDelete fuseMount evalSymlinks path = .ok (p, false) ∧ ¬ Inside cwd fuseMount p

/-- The name below the mount point starts with `@`. -/
def Virtual (fuseMount cleaned : String) : Prop :=
  ∃ r, rel fuseMount cleaned = some r ∧ isVirtualName r = true

/-- What is not in the mount does not start with the text of the mount point, or leads to itself; what is in the mount
starts with that text, and its name starts with `@`, or it leads nowhere or out of the mount. -/
structure Told (cwd fuseMount : String) (evalSymlinks : String → Option String) (cleaned : String) : Prop where
  outside : ¬ Inside cwd fuseMount cleaned → fuseMount.toList <+: cleaned.toList → fuseMount ≠ "" →
    evalSymlinks cleaned = some cleaned
  inside : Inside cwd fuseMount cleaned → fuseMount.toList <+: cleaned.toList ∧
    (Virtual fuseMount cleaned ∨ ∀ realPath, evalSymlinks cleaned = some realPath → ¬ Inside cwd fuseMount realPath)

/-! ### One path -/

variable {cwd fuseMount path cleaned r : String} {evalSymlinks : String → Option String} {base targ es : List Element}

/-- A clean base leads everywhere; what leads out of it starts with two dots. -/
theorem relElements_eq (hbase : ∀ b ∈ base, b ≠ ['.', '.']) : ∃ es, relElements base targ = some es ∧
    (¬ base <+: targ → ∃ rest, es = ['.', '.'] :: rest) := by
  induction base generalizing targ with
  | nil => exact ⟨targ, rfl, fun h => absurd List.nil_prefix h⟩
  | cons b base ih =>
    obtain ⟨hb, hrest⟩ := List.forall_mem_cons.mp hbase
    cases targ with
    | nil => exact ⟨_, if_neg hb, fun _ => ⟨_, rfl⟩⟩
    | cons t targ =>
      unfold relElements
      by_cases heq : b = t
      · subst heq
        obtain ⟨es, hes, hdots⟩ := @ih targ hrest
        rw [if_pos rfl]
        exact ⟨es, hes, fun h => hdots fun hprefix => h ((List.prefix_cons_inj b).mpr hprefix)⟩
      · rw [if_neg heq, if_neg hb]
        exact ⟨_, rfl, fun _ => ⟨_, rfl⟩⟩

/-- What is relative to a mount point, for a path that starts with its text; what is not in the mount is not virtual. -/
theorem rel_eq_some (hpath : validatePath path = .ok cleaned) (hne : fuseMount ≠ "")
    (hstarts : fuseMount.toList <+: cleaned.toList) :
    ∃ r, rel fuseMount cleaned = some r ∧
      (¬ Inside cwd fuseMount cleaned → isVirtualName r = false) := by
  have habs : isAbs cleaned = true := by
    unfold validatePath at hpath
    split_ifs at hpath with _ _ hclean
    cases hpath
    exact hclean
  have hmount : isAbs fuseMount = true := by
    obtain ⟨c, rest, hc⟩ := List.exists_cons_of_ne_nil fun h => hne (String.toList_injective h)
    obtain ⟨more, hmore⟩ := hstarts
    unfold isAbs at habs ⊢
    rw [← hmore, hc] at habs
    rw [hc]
    exact habs
  unfold rel
  by_cases hsame : clean fuseMount = clean cleaned
  · exact ⟨".", if_pos hsame, fun _ => by decide⟩
  · obtain ⟨es, hes, hdots⟩ := @relElements_eq (elements fuseMount) (elements cleaned) fun b hb =>
      (isElement_elements hmount b hb).2.2.1
    rw [if_neg hsame, hmount, habs, if_neg (not_not.mpr rfl), hes]
    refine ⟨_, rfl, fun hout => ?_⟩
    obtain ⟨rest, rfl⟩ := hdots fun hprefix => hout ⟨hne, by rwa [mountPoint, if_pos hmount]⟩
    rw [isVirtualName, String.toList_ofList]
    cases rest <;> simp [List.intercalate_cons_cons, List.intercalate_singleton]

/-- **When the right file is deleted.** For every mount point, path and links: exactly if a path outside of the mount
does not start with the text of the mount point, or leads to itself, and a path in the mount starts with it and is in a
directory of the mount that starts with `@`, or does not lead into the mount. -/
theorem acts_on_iff (cwd fuseMount : String) (evalSymlinks : String → Option String) (path : String) :
    (∀ cleaned, validatePath path = .ok cleaned → ActsOn cwd fuseMount evalSymlinks path cleaned) ↔
      ∀ cleaned, validatePath path = .ok cleaned → Told cwd fuseMount evalSymlinks cleaned := by
  refine forall₂_congr fun cleaned hpath => ?_
  by_cases hne : fuseMount = ""
  · have hout : ¬ Inside cwd fuseMount cleaned := fun h => h.1 hne
    have hresult : resolveForDelete fuseMount evalSymlinks path = .ok (cleaned, false) := by
      simp [resolveForDelete, hpath, hne]
    exact ⟨fun _ => ⟨fun _ _ h => absurd hne h, fun h => absurd h hout⟩,
      fun _ => ⟨fun _ => hresult, fun h => absurd h hout⟩⟩
  by_cases hstarts : fuseMount.toList <+: cleaned.toList
  · obtain ⟨r, hr, hvirtual⟩ := @rel_eq_some cwd _ _ _ hpath hne hstarts
    by_cases hat : isVirtualName r = true
    · have hin : Inside cwd fuseMount cleaned := not_not.mp fun hout => by
        rw [hvirtual hout] at hat
        cases hat
      have hresult : resolveForDelete fuseMount evalSymlinks path = .ok ("", true) := by
        simp [resolveForDelete, hpath, hne, hstarts, hr, hat]
      exact ⟨fun _ => ⟨fun hout => absurd hin hout, fun _ => ⟨hstarts, Or.inl ⟨r, hr, hat⟩⟩⟩,
        fun _ => ⟨fun hout => absurd hin hout, fun _ => Or.inl ⟨"", hresult⟩⟩⟩
    · have hplain : ¬ Virtual fuseMount cleaned := by
        rintro ⟨r', hr', hat'⟩
        rw [hr] at hr'
        cases hr'
        exact hat hat'
      cases heval : evalSymlinks cleaned with
      | none =>
        have hresult : resolveForDelete fuseMount evalSymlinks path = .ok ("", true) := by
          simp [resolveForDelete, hpath, hne, hstarts, hr, hat, heval]
        constructor
        · rintro ⟨hout, -⟩
          refine ⟨fun h => ?_, fun _ => ⟨hstarts, Or.inr fun p hp => by simp [heval] at hp⟩⟩
          have hclaim := hout h
          rw [hresult] at hclaim
          cases hclaim
        · rintro ⟨hout, -⟩
          refine ⟨fun h => ?_, fun _ => Or.inl ⟨"", hresult⟩⟩
          have hitself := hout h hstarts hne
          rw [heval] at hitself
          cases hitself
      | some realPath =>
        have hresult : resolveForDelete fuseMount evalSymlinks path = .ok (realPath, false) := by
          simp [resolveForDelete, hpath, hne, hstarts, hr, hat, heval]
        constructor
        · rintro ⟨hout, hin⟩
          refine ⟨fun h _ _ => ?_, fun h => ⟨hstarts, Or.inr fun p hp => ?_⟩⟩
          · have hclaim := hout h
            rw [hresult] at hclaim
            cases hclaim
            exact heval
          · rw [heval] at hp
            cases hp
            rcases hin h with ⟨p, hp⟩ | ⟨p, hp, hpout⟩
            · rw [hresult] at hp
              cases hp
            · rw [hresult] at hp
              cases hp
              exact hpout
        · rintro ⟨hout, hin⟩
          refine ⟨fun h => ?_, fun h => Or.inr ⟨realPath, hresult, ?_⟩⟩
          · have hitself := hout h hstarts hne
            rw [heval] at hitself
            cases hitself
            exact hresult
          · exact (hin h).2.resolve_left hplain realPath heval
  · have hresult : resolveForDelete fuseMount evalSymlinks path = .ok (cleaned, false) := by
      simp [resolveForDelete, hpath, hne, hstarts]
    constructor
    · rintro ⟨-, hin⟩
      refine ⟨fun _ h => absurd h hstarts, fun h => ?_⟩
      rcases hin h with ⟨p, hp⟩ | ⟨p, hp, hpout⟩
      · rw [hresult] at hp
        cases hp
      · rw [hresult] at hp
        cases hp
        exact absurd h hpout
    · rintro ⟨-, hin⟩
      exact ⟨fun _ => hresult, fun h => absurd (hin h).1 hstarts⟩

/-- The mount point is `/mnt/t`, and the link `/mnt/t2/l` beside it leads to the file `/home/f`: its target is
deleted. -/
theorem target_of_sibling :
    resolveForDelete "/mnt/t" (fun p => if p = "/mnt/t2/l" then some "/home/f" else none) "/mnt/t2/l" =
        .ok ("/home/f", false) ∧
      ¬ ∀ cleaned, validatePath "/mnt/t2/l" = .ok cleaned →
        ActsOn "/" "/mnt/t" (fun p => if p = "/mnt/t2/l" then some "/home/f" else none) "/mnt/t2/l" cleaned := by
  have hresult : resolveForDelete "/mnt/t" (fun p => if p = "/mnt/t2/l" then some "/home/f" else none) "/mnt/t2/l" =
      .ok ("/home/f", false) := by decide
  refine ⟨hresult, fun h => ?_⟩
  have hout : ¬ Inside "/" "/mnt/t" "/mnt/t2/l" := fun hin => absurd hin.2 (by decide)
  have hclaim := (h "/mnt/t2/l" (by decide)).outside hout
  rw [hresult] at hclaim
  exact absurd hclaim (by decide)

end Tilbo.Daemon.ResolveForDelete
