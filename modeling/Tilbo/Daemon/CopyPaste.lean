import Tilbo.Daemon.Unix
import Tilbo.Lib.Additions

/-! # Pasting what was copied

A paste makes its targets from the last names of its sources and does not look whether there is something at them:
a target is opened to be overwritten, and a directory that is there is merged into. `paste_preserves` says when
nothing is lost: if the names are distinct, there is nothing at the targets, and no source leads to one of them. -/

namespace Tilbo.Daemon.CopyPaste

open Tilbo.Lib.Paths Tilbo.Lib.CleanPaths Tilbo.Lib.Files Tilbo.Lib.Files.FileSystem Tilbo.Daemon.Drops
  Tilbo.Daemon.Unix

/-! ### What is to be shown -/

/-- The new path that a source is copied to. -/
def target (dest src : String) : String := join [dest, base src]

/-- After a paste the sources are as they were, each new path has what its source had, and no two of them are the same;
a path that led to a file or directory leads to it still, and the files that there were have not been written to. -/
structure Preserved (fs : FileSystem) (srcs : List String) (o : Outcome Fault) (fs' : FileSystem) : Prop where
  sources : ∀ src ∈ srcs, ∀ names, (∀ n ∈ names, IsName n) →
    fs'.view ((parse src).below names) = fs.view ((parse src).below names)
  copies : ∀ t ∈ o.made, t.src ∈ srcs ∧ ∀ names, (∀ n ∈ names, IsName n) →
    fs'.view ((parse t.dst).below names) = fs.view ((parse t.src).below names)
  distinct : o.newPaths.Nodup
  paths : ∀ follow p i, fs.resolve follow p = .ok i → fs'.resolve follow p = .ok i
  files : ∀ i content version, fs.node i = some (.file content version) →
    fs'.node i = some (.file content version)

/-- The path leads to a directory. -/
def IsDirectory (fs : FileSystem) (path : String) : Prop :=
  ∃ i d, fs.resolve true (parse path) = .ok i ∧ fs.node i = some (.dir d)

/-- The last names of the sources are distinct, there is nothing at the targets, and no path below a source fails for
want of a target. -/
structure Clear (fs : FileSystem) (dest : String) (srcs : List String) : Prop where
  distinct : (srcs.map base).Nodup
  free : ∀ src ∈ srcs, ∀ i, fs.resolve false (parse (target dest src)) ≠ .ok i
  apart : ∀ i, fs.resolve true (parse dest) = .ok i → ∀ src ∈ srcs, ∀ src' ∈ srcs,
    ¬ Asks fs (parse src) i (base src')

/-! ### Calls that succeed -/

section Calls

variable {k : Kernel} {fs fs' : FileSystem} {w w' : World} {p : Path} {name : String} {i : ℕ} {d : Directory}

/-- Two calls succeed if the first one does and then the second. -/
theorem bind_eq_ok {φ ε α β : Type} {m : ExceptT ε (StateM φ) α} {f : α → ExceptT ε (StateM φ) β} {s s' : φ} {b : β} :
    (m >>= f) s = (.ok b, s') ↔ ∃ a s₁, m s = (.ok a, s₁) ∧ f a s₁ = (.ok b, s') := by
  show (ExceptT.bindCont f (m s).1 (m s).2) = _ ↔ _
  rcases m s with ⟨result, s₁⟩
  cases result with
  | error err =>
    constructor
    · intro h
      cases h
    · rintro ⟨a, s₁', heq, h⟩
      cases heq
  | ok a =>
    constructor
    · exact fun h => ⟨a, s₁, rfl, h⟩
    · rintro ⟨a', s₁', heq, h⟩
      cases heq
      exact h

/-- A call that succeeds was not refused. -/
theorem ask_eq_ok {α : Type} {call : Call} {answer : Except Fault α} {a : α} (h : k.ask fs call answer = .ok a) :
    answer = .ok a := by
  unfold Kernel.ask at h
  split at h
  · cases h
  · exact h

theorem unix_stat_eq_ok {path : String} {info : FileInfo} (h : (unix k).stat path w = (.ok info, w')) :
    ∃ node, k.stat w.files (parse path) = .ok node ∧ info.isDir = node.isDir ∧ w' = w := by
  obtain ⟨hresult, rfl⟩ := Prod.mk.inj (show (_, w) = _ from h)
  cases hstat : k.stat w.files (parse path) with
  | error err =>
    rw [hstat] at hresult
    cases hresult
  | ok node =>
    rw [hstat] at hresult
    cases hresult
    exact ⟨node, rfl, rfl, rfl⟩

theorem update_eq_ok {result : Except Fault FileSystem} (h : w.update result = (.ok (), w')) :
    result = .ok w'.files := by
  cases result with
  | error err => cases h
  | ok fs =>
    cases h
    rfl

theorem read_eq_ok {path : String} (h : (unix k).openFile path w = (.ok (), w')) :
    (∃ content version, w.files.stat (parse path) = .ok (.file content version)) ∧ w' = w := by
  obtain ⟨hresult, rfl⟩ := Prod.mk.inj (show (_, w) = _ from h)
  refine ⟨?_, rfl⟩
  cases hread : k.read w.files (parse path) with
  | error err =>
    rw [hread] at hresult
    cases hresult
  | ok content =>
    have hanswer := ask_eq_ok hread
    split at hanswer
    · rename_i content' version hstat
      exact ⟨content', version, hstat⟩
    · cases hanswer
    · cases hanswer

theorem unix_mkdirAll_eq_ok {path : String} {mode : ℕ} (h : (unix k).mkdirAll path mode w = (.ok (), w')) :
    k.mkdirAll (parse path).absolute (parse path).elements.reverse w.files = (.ok (), w'.files) := by
  obtain ⟨hresult, rfl⟩ := Prod.mk.inj (show (_, _) = _ from h)
  exact Prod.ext hresult rfl

theorem unix_readDir_eq_ok {path : String} {names : List String} (h : (unix k).readDir path w = (.ok names, w')) :
    w.files.readDir (parse path) = .ok names ∧ w' = w := by
  obtain ⟨hresult, rfl⟩ := Prod.mk.inj (show (_, w) = _ from h)
  exact ⟨ask_eq_ok hresult, rfl⟩

theorem stat_eq_ok {node : Node} (h : fs.stat p = .ok node) :
    ∃ i, fs.resolve true p = .ok i ∧ fs.node i = some node := by
  unfold FileSystem.stat at h
  split at h
  · rename_i i hi
    cases hnode : fs.node i with
    | none =>
      rw [hnode] at h
      cases h
    | some node' =>
      rw [hnode] at h
      cases h
      exact ⟨i, hi, hnode⟩
  · cases h

theorem copy_eq_ok {dst src : Path} {old content : List UInt8} {version version' : ℕ}
    (hdst : fs.resolve true dst = .ok i) (hi : fs.node i = some (.file old version))
    (hsrc : fs.stat src = .ok (.file content version')) (h : k.copy fs dst src = .ok fs') :
    fs' = fs.setFile i content version := by
  have h := ask_eq_ok h
  rw [hdst, hsrc] at h
  dsimp only at h
  rw [hi] at h
  exact (Except.ok.inj h).symm

theorem make_eq_ok {kind : Kind} (h : fs.make kind i name = .ok fs') :
    ∃ d hi hname, fs' = fs.insert i d hi name hname kind := by
  unfold make at h
  split at h
  · split_ifs at h with hname
    cases h
    exact ⟨_, _, hname, rfl⟩
  · cases h

theorem readDir_eq_ok {names : List String} (h : fs.readDir p = .ok names) :
    ∃ i d, fs.resolve true p = .ok i ∧ fs.node i = some (.dir d) ∧ names = d.listing := by
  unfold FileSystem.readDir at h
  split at h
  · rename_i d hd
    cases h
    obtain ⟨i, hi, hnode⟩ := stat_eq_ok hd
    exact ⟨i, d, hi, hnode, rfl⟩
  · cases h
  · cases h

theorem resolve_absolute {follow : Bool} {es : List String} :
    fs.resolve follow ⟨true, es⟩ = fs.walk follow maxLinks fs.root es := by
  simp [FileSystem.resolve, start]

/-- What leads somewhere leads somewhere if its last link is not followed. -/
theorem resolve_unfollowed {es : List String} (h : fs.resolve true ⟨true, es⟩ = .ok i) :
    ∃ j, fs.resolve false ⟨true, es⟩ = .ok j := by
  rw [resolve_absolute] at h ⊢
  rcases List.eq_nil_or_concat' es with rfl | ⟨front, last, rfl⟩
  · exact ⟨_, walk_nil⟩
  · cases hfront : fs.walk true maxLinks fs.root front with
    | error err =>
      obtain ⟨err', herr'⟩ := @walk_append_error _ true _ _ _ _ _ hfront (List.cons_ne_nil last [])
      rw [herr'] at h
      cases h
    | ok j =>
      obtain ⟨m, hm⟩ := @walk_append _ true _ _ _ _ hfront
      obtain ⟨m', hm'⟩ := @walk_append _ false _ _ _ _ hfront
      rw [hm _ (List.cons_ne_nil _ _)] at h
      rw [hm' _ (List.cons_ne_nil _ _)]
      exact walk_unfollowed h

/-- Where there is a directory, making it changes nothing. -/
theorem mkdirAll_same {es : List String} (h : fs.resolve true ⟨true, es.reverse⟩ = .ok i) :
    (k.mkdirAll true es fs).2 = fs := by
  induction es generalizing i with
  | nil => rfl
  | cons e front ih =>
    have hfront : ∃ j, fs.resolve true ⟨true, front.reverse⟩ = .ok j := by
      rw [resolve_absolute, List.reverse_cons] at h
      rw [resolve_absolute]
      cases hfront : fs.walk true maxLinks fs.root front.reverse with
      | ok j => exact ⟨j, rfl⟩
      | error err =>
        obtain ⟨err', herr'⟩ := @walk_append_error _ true _ _ _ _ _ hfront (List.cons_ne_nil e [])
        rw [herr'] at h
        cases h
    obtain ⟨j, hj⟩ := hfront
    have ih := ih hj
    obtain ⟨last, hlast⟩ := resolve_unfollowed h
    have hmkdir : ∃ err, k.mkdir fs ⟨true, (e :: front).reverse⟩ = .error err := by
      unfold Kernel.mkdir Kernel.ask
      cases k.refuses fs (.mkdir ⟨true, (e :: front).reverse⟩) with
      | some err => exact ⟨err, rfl⟩
      | none => exact ⟨.exists, by simp only [FileSystem.mkdir, hlast]⟩
    obtain ⟨err, herr⟩ := hmkdir
    unfold Kernel.mkdirAll
    dsimp only
    split
    · rfl
    · split
      · rename_i hmade
        rw [hmade] at ih
        exact ih
      · rename_i hmade
        rw [hmade] at ih
        obtain rfl : _ = fs := ih
        rw [herr]
        dsimp only
        split <;> rfl

/-- A directory is made in one that is there. -/
theorem mkdirAll_eq_ok {es : List String} (h : fs.resolve true ⟨true, es⟩ = .ok i)
    (hi : fs.node i = some (.dir d)) (hname : IsName name) (hnone : d.lookup name = none)
    (hok : k.mkdirAll true (es ++ [name]).reverse fs = (.ok (), fs')) :
    ∃ d hi hname, fs' = fs.insert i d hi name hname .dir := by
  have hmissing : ∀ follow, fs.resolve follow ⟨true, es ++ [name]⟩ = .error (.missing i name true) := fun follow =>
    resolve_missing (p := ⟨true, es⟩) h hi hname hnone
  rw [List.reverse_append, List.reverse_singleton, List.singleton_append] at hok
  have hpath : (name :: es.reverse).reverse = es ++ [name] := by simp
  unfold Kernel.mkdirAll at hok
  dsimp only at hok
  rw [hpath] at hok
  have hsame : (k.mkdirAll true es.reverse fs).2 = fs := mkdirAll_same (by rwa [List.reverse_reverse])
  split at hok
  · rename_i node hstat
    obtain ⟨j, hj, -⟩ := stat_eq_ok (ask_eq_ok hstat)
    rw [hmissing] at hj
    cases hj
  · split at hok
    · cases hok
    · rename_i hmade
      rw [hmade] at hsame
      obtain rfl : _ = fs := hsame
      split at hok
      · rename_i hmkdir
        have hmake := ask_eq_ok hmkdir
        cases hok
        unfold FileSystem.mkdir at hmake
        rw [hmissing] at hmake
        exact make_eq_ok hmake
      · rw [hmissing] at hok
        cases hok

end Calls

/-! ### One copy -/

section Copy

variable {k : Kernel} {n : ℕ} {w w' : World} {a b : List String} {name : String} {P : ℕ} {d : Directory}

/-- A copy into a directory that does not have the name, from a path that does not ask for it, is a copy. -/
def Copies (k : Kernel) (n : ℕ) : Prop :=
  ∀ a b name w w' P d, (∀ e ∈ a, IsName e) → (∀ e ∈ b, IsName e) → IsName name →
    w.files.resolve true ⟨true, b⟩ = .ok P → w.files.node P = some (.dir d) → d.lookup name = none →
    ¬ Asks w.files ⟨true, a⟩ P name →
    copyRecursive (unix k) n (pathOf a) (pathOf (b ++ [name])) w = (.ok (), w') →
    Copied w.files P [(⟨true, a⟩, name)] w'.files

/-- One copy after others into the same directory. -/
theorem copied_step {fs : FileSystem} {done : List (Path × String)} (hcopies : Copies k n)
    (hdone : Copied fs P done w.files) (ha : ∀ e ∈ a, IsName e) (hb : ∀ e ∈ b, IsName e) (hname : IsName name)
    (hP : fs.resolve true ⟨true, b⟩ = .ok P) (hd : fs.node P = some (.dir d)) (hnone : d.lookup name = none)
    (hnot : name ∉ done.map Prod.snd) (hasks : ∀ m, m ∈ done.map Prod.snd ∨ m = name → ¬ Asks fs ⟨true, a⟩ P m)
    (h : copyRecursive (unix k) n (pathOf a) (pathOf (b ++ [name])) w = (.ok (), w')) :
    Copied fs P (done ++ [(⟨true, a⟩, name)]) w'.files := by
  obtain ⟨d₀, d₁, hd₀, hd₁, -, hsame, -⟩ := hdone.adds.dir
  obtain rfl : d = d₀ := by simpa [hd] using hd₀
  have hdoneAsks : ∀ m, m ∈ done.map Prod.snd → ¬ Asks fs ⟨true, a⟩ P m := fun m hm => hasks m (Or.inl hm)
  refine hdone.append (hcopies a b name w w' P d₁ ha hb hname ?_ hd₁ ?_ ?_ h) hnot fun names hnames => ?_
  · rw [hdone.adds.resolve fun _ _ _ herr => by simp [hP] at herr, hP]
  · rw [hsame name hnot, hnone]
  · exact fun hask => hasks name (Or.inr rfl) (hdone.adds.asks hdoneAsks hask)
  · exact hdone.adds.view fun m last hm herr => hdoneAsks m hm ⟨names, hnames, last, herr⟩

/-- The copies of what is in a directory. -/
theorem copied_forM {fs : FileSystem} {done : List (Path × String)} {entries : List String} (hcopies : Copies k n)
    (hdone : Copied fs P done w.files) (ha : ∀ e ∈ a, IsName e) (hb : ∀ e ∈ b, IsName e)
    (hP : fs.resolve true ⟨true, b⟩ = .ok P) (hd : fs.node P = some (.dir d))
    (hentries : ∀ c ∈ entries, IsName c ∧ d.lookup c = none) (hnodup : (done.map Prod.snd ++ entries).Nodup)
    (hasks : ∀ c ∈ entries, ∀ m, ¬ Asks fs ⟨true, a ++ [c]⟩ P m)
    (h : (entries.forM fun entry => copyRecursive (unix k) n (join [pathOf a, entry]) (join [pathOf b, entry])) w =
      (.ok (), w')) :
    Copied fs P (done ++ entries.map fun c => (⟨true, a ++ [c]⟩, c)) w'.files := by
  induction entries generalizing done w with
  | nil =>
    cases h
    simpa using hdone
  | cons c rest ih =>
    obtain ⟨⟨hc, hnone⟩, hrest⟩ := List.forall_mem_cons.mp hentries
    obtain ⟨hcAsks, hrestAsks⟩ := List.forall_mem_cons.mp hasks
    rw [List.forM_eq_forM, List.forM_cons] at h
    obtain ⟨⟨⟩, w₁, hone, h⟩ := bind_eq_ok.mp h
    rw [join_pathOf ha hc, join_pathOf hb hc] at hone
    have hnot : c ∉ done.map Prod.snd := fun hmem =>
      (List.nodup_append'.mp hnodup).2.2 hmem List.mem_cons_self
    have hstep := copied_step hcopies hdone (List.forall_mem_append.mpr ⟨ha, by simpa using hc⟩) hb hc hP hd hnone hnot
      (fun m _ => hcAsks m) hone
    have hall := ih hstep hrest (by simpa using hnodup) hrestAsks h
    simpa using hall

/-- The copy of a file. -/
theorem copied_of_file {mode : ℕ} (ha : ∀ e ∈ a, IsName e) (hb : ∀ e ∈ b, IsName e) (hname : IsName name)
    (hP : w.files.resolve true ⟨true, b⟩ = .ok P) (hd : w.files.node P = some (.dir d)) (hnone : d.lookup name = none)
    (hasks : ¬ Asks w.files ⟨true, a⟩ P name)
    (h : ((unix k).openFile (pathOf a) >>= fun _ => (unix k).create (pathOf (b ++ [name])) mode >>= fun _ =>
      (unix k).copy (pathOf (b ++ [name])) (pathOf a)) w = (.ok (), w')) :
    Copied w.files P [(⟨true, a⟩, name)] w'.files := by
  have hdst : ∀ e ∈ b ++ [name], IsName e := List.forall_mem_append.mpr ⟨hb, by simpa using hname⟩
  obtain ⟨⟨⟩, w₁, hopen, h₁⟩ := bind_eq_ok.mp h
  obtain ⟨⟨⟩, w₂, hcreate, hcopy⟩ := bind_eq_ok.mp h₁
  obtain ⟨⟨content, version, hfile⟩, rfl⟩ := read_eq_ok hopen
  rw [parse_pathOf ha] at hfile
  obtain ⟨i, hi, hinode⟩ := stat_eq_ok hfile
  have hne : i ≠ P := fun heq => by
    rw [heq, hd] at hinode
    cases hinode
  have hcreate := ask_eq_ok (update_eq_ok hcreate)
  rw [parse_pathOf hdst] at hcreate
  have hmissing : w₁.files.resolve true ⟨true, b ++ [name]⟩ = .error (.missing P name true) :=
    @resolve_missing _ ⟨true, b⟩ _ _ _ _ hP hd hname hnone
  unfold FileSystem.create at hcreate
  rw [hmissing] at hcreate
  obtain ⟨d', hd', hname', hnew⟩ := make_eq_ok hcreate
  obtain rfl : d = d' := by simpa [hd] using hd'
  have hadds := @adds_insert _ _ _ _ hd' hname' .file hnone
  have hstat : w₂.files.stat ⟨true, a⟩ = .ok (.file content version) := by
    unfold FileSystem.stat
    rw [hnew, hadds.resolve fun _ _ _ herr => by simp [hi] at herr, hi]
    dsimp only
    rw [hadds.other i (lt_next_of_isSome (by rw [hinode]; rfl)) hne, hinode]
    rfl
  have hnext : w₂.files.resolve true ⟨true, b ++ [name]⟩ = .ok w₁.files.next :=
    hnew ▸ @resolve_insert _ ⟨true, b⟩ _ _ _ _ .file hP hd' hname' hnone
  have hcopy := update_eq_ok hcopy
  rw [parse_pathOf ha, parse_pathOf hdst] at hcopy
  rw [copy_eq_ok hnext (by rw [hnew]; exact insert_next hd' hname') hstat hcopy, hnew]
  exact copied_file hi hinode hnone

/-- The copy of a directory. It is made before its source is listed, so that what is in the source goes into a directory
without entries. -/
theorem copied_of_dir {mode i : ℕ} {dir : Directory} (hcopies : Copies k n) (ha : ∀ e ∈ a, IsName e)
    (hb : ∀ e ∈ b, IsName e) (hname : IsName name) (hP : w.files.resolve true ⟨true, b⟩ = .ok P)
    (hd : w.files.node P = some (.dir d)) (hnone : d.lookup name = none) (hasks : ¬ Asks w.files ⟨true, a⟩ P name)
    (hi : w.files.resolve true ⟨true, a⟩ = .ok i) (hinode : w.files.node i = some (.dir dir))
    (h : ((unix k).mkdirAll (pathOf (b ++ [name])) mode >>= fun _ => (unix k).readDir (pathOf a) >>= fun entries =>
      entries.forM fun entry =>
        copyRecursive (unix k) n (join [pathOf a, entry]) (join [pathOf (b ++ [name]), entry])) w = (.ok (), w')) :
    Copied w.files P [(⟨true, a⟩, name)] w'.files := by
  have hdst : ∀ e ∈ b ++ [name], IsName e := List.forall_mem_append.mpr ⟨hb, by simpa using hname⟩
  obtain ⟨⟨⟩, w₁, hmk, h₁⟩ := bind_eq_ok.mp h
  obtain ⟨entries, w₂, hread, hall⟩ := bind_eq_ok.mp h₁
  have hmk := unix_mkdirAll_eq_ok hmk
  rw [parse_pathOf hdst] at hmk
  obtain ⟨d', hd', hname', hnew⟩ := mkdirAll_eq_ok hP hd hname hnone hmk
  obtain rfl : d = d' := by simpa [hd] using hd'
  obtain ⟨hread, rfl⟩ := unix_readDir_eq_ok hread
  rw [parse_pathOf ha] at hread
  have hadds := @adds_insert _ _ _ _ hd' hname' .dir hnone
  -- a source in which the name is to be made would ask for it
  have hne : i ≠ P := fun heq => by
    obtain rfl : dir = d := by simpa [heq, hd, eq_comm] using hinode
    refine hasks ⟨[name], by simpa using hname, true, ?_⟩
    rw [← heq]
    exact resolve_missing hi hinode hname hnone
  obtain ⟨i', dir', hi', hinode', rfl⟩ := readDir_eq_ok hread
  rw [hnew, hadds.resolve fun _ _ _ herr => by simp [hi] at herr, hi] at hi'
  cases hi'
  rw [hnew, hadds.other i (lt_next_of_isSome (by rw [hinode]; rfl)) hne, hinode] at hinode'
  cases hinode'
  have hcopied := copied_forM hcopies (copied_nil (by rw [hnew]; exact insert_next hd' hname')) ha hdst
    (by rw [hnew]; exact @resolve_insert _ ⟨true, b⟩ _ _ _ _ .dir hP hd' hname' hnone)
    (by rw [hnew]; exact insert_next hd' hname') (fun c hc => ⟨isName_of_mem_listing hc, rfl⟩)
    (by simpa using nodup_listing dir) (fun c hc m hask => ?_) hall
  · rw [hnew, List.nil_append] at hcopied
    exact copied_dir hi hinode hnone hasks hcopied
  · rw [hnew] at hask
    have hc' : ∀ n ∈ [c], IsName n := by simpa using isName_of_mem_listing hc
    have hask' := hadds.asks (fun m hm hask => hasks (hm ▸ Asks.of_below (p := ⟨true, a⟩) hask hc')) hask
    exact absurd hask'.lt_next (lt_irrefl _)

/-- **A copy is a copy.** By induction on the depth. -/
theorem copies (k : Kernel) (n : ℕ) : Copies k n := by
  induction n with
  | zero =>
    intro a b name w w' P d ha hb hname hP hd hnone hasks h
    cases h
  | succ n ih =>
    intro a b name w w' P d ha hb hname hP hd hnone hasks h
    unfold copyRecursive at h
    obtain ⟨info, w₁, hstat, h₁⟩ := bind_eq_ok.mp h
    obtain ⟨node, hnode, hinfo, rfl⟩ := unix_stat_eq_ok hstat
    rw [parse_pathOf ha] at hnode
    obtain ⟨i, hi, hinode⟩ := stat_eq_ok (ask_eq_ok hnode)
    cases node with
    | dir dir =>
      rw [hinfo] at h₁
      exact copied_of_dir ih ha hb hname hP hd hnone hasks hi hinode h₁
    | file content version | link target =>
      rw [hinfo] at h₁
      exact copied_of_file ha hb hname hP hd hnone hasks h₁

end Copy

/-! ### A paste -/

section Paste

variable {k : Kernel} {fs : FileSystem} {w : World} {paths srcs b : List String} {clipboard : Clipboard}
  {dest cleanDest : String} {P : ℕ} {d : Directory}

/-- What is known of a source where there is nothing at its target. -/
theorem name_of_free (hb : ∀ e ∈ b, IsName e) (hP : fs.resolve true ⟨true, b⟩ = .ok P) (hd : fs.node P = some (.dir d))
    {src : String} (hsrc : ∃ es, (∀ e ∈ es, IsName e) ∧ src = pathOf es)
    (hfree : ∀ i, fs.resolve false (parse (target (pathOf b) src)) ≠ .ok i) :
    IsName (base src) ∧ d.lookup (base src) = none ∧ target (pathOf b) src = pathOf (b ++ [base src]) := by
  obtain ⟨es, hes, rfl⟩ := hsrc
  rcases List.eq_nil_or_concat' es with rfl | ⟨front, name, rfl⟩
  · -- the root would be copied to the destination itself
    obtain ⟨j, hj⟩ := resolve_unfollowed hP
    have htarget : target (pathOf b) (pathOf []) = pathOf b := join_root (isElement_map hb)
    rw [htarget, parse_pathOf hb] at hfree
    exact absurd hj (hfree j)
  · have hname : IsName name := hes name (by simp)
    have hbase : base (pathOf (front ++ [name])) = name := base_pathOf hname
    have htarget : target (pathOf b) (pathOf (front ++ [name])) = pathOf (b ++ [name]) := by
      rw [target, hbase, join_pathOf hb hname]
    rw [htarget, parse_pathOf (List.forall_mem_append.mpr ⟨hb, by simpa using hname⟩)] at hfree
    rw [hbase]
    refine ⟨hname, ?_, htarget⟩
    by_contra hsome
    obtain ⟨j, hj⟩ := Option.ne_none_iff_exists'.mp hsome
    obtain ⟨m, hm⟩ := @resolve_below _ ⟨true, b⟩ _ false hP
    refine hfree j ((hm [name] (List.cons_ne_nil _ _)).trans ?_)
    rw [walk_name hd hname rfl, hj]

/-- The copies of the sources, one after the other. -/
theorem copied_transferAll {done : List (Path × String)} (hdone : Copied fs P done w.files)
    (hb : ∀ e ∈ b, IsName e) (hP : fs.resolve true ⟨true, b⟩ = .ok P) (hd : fs.node P = some (.dir d))
    (hsrcs : ∀ src ∈ srcs,
      (∃ es, (∀ e ∈ es, IsName e) ∧ src = pathOf es) ∧ IsName (base src) ∧ d.lookup (base src) = none)
    (hnodup : (done.map Prod.snd ++ srcs.map base).Nodup)
    (hasks : ∀ src ∈ srcs, ∀ m ∈ done.map Prod.snd ++ srcs.map base, ¬ Asks fs (parse src) P m)
    (h : (transferAll (unix k) false (pathOf b) srcs w).1.error = none) :
    Copied fs P (done ++ srcs.map fun src => (parse src, base src))
      (transferAll (unix k) false (pathOf b) srcs w).2.files := by
  induction srcs generalizing done w with
  | nil => simpa [transferAll] using hdone
  | cons src rest ih =>
    obtain ⟨⟨⟨es, hes, rfl⟩, hname, hnone⟩, hrest⟩ := List.forall_mem_cons.mp hsrcs
    obtain ⟨hsrcAsks, hrestAsks⟩ := List.forall_mem_cons.mp hasks
    unfold transferAll at h ⊢
    split at h
    · cases h
    · rename_i w₁ hrun
      dsimp only at h ⊢
      have hrun : copyRecursive (unix k) pathMax (pathOf es) (pathOf (b ++ [base (pathOf es)])) w = (.ok (), w₁) := by
        rw [← join_pathOf hb hname]
        exact hrun
      have hnot : base (pathOf es) ∉ done.map Prod.snd := fun hmem =>
        (List.nodup_append'.mp hnodup).2.2 hmem List.mem_cons_self
      rw [parse_pathOf hes] at hsrcAsks
      have hstep := copied_step (copies k pathMax) hdone hes hb hname hP hd hnone hnot
        (fun m hm => hsrcAsks m (by simpa [eq_comm] using hm.imp_right Or.inl)) hrun
      have hall := ih hstep hrest (by simpa using hnodup)
        (fun src hsrc m hm => hrestAsks src hsrc m (by simpa using hm)) h
      rw [List.map_cons, parse_pathOf hes]
      simpa using hall

/-- A paste whose transfers are copies into the destination. -/
theorem preserved_of_copied {o : Outcome Fault} {fs' : FileSystem} (hb : ∀ e ∈ b, IsName e)
    (hP : fs.resolve true ⟨true, b⟩ = .ok P) (hd : fs.node P = some (.dir d))
    (hnames : ∀ src ∈ srcs, IsName (base src) ∧ target (pathOf b) src = pathOf (b ++ [base src]))
    (hdistinct : (srcs.map base).Nodup) (hapart : ∀ src ∈ srcs, ∀ src' ∈ srcs, ¬ Asks fs (parse src) P (base src'))
    (hmade : o.made = srcs.map (transfer false (pathOf b)))
    (hcopied : Copied fs P (srcs.map fun src => (parse src, base src)) fs') : Preserved fs srcs o fs' := by
  have hdst : ∀ src ∈ srcs, ∀ e ∈ b ++ [base src], IsName e := fun src hsrc =>
    List.forall_mem_append.mpr ⟨hb, by simpa using (hnames src hsrc).1⟩
  refine ⟨fun src hsrc names hn => ?_, fun t ht => ?_, ?_, fun follow p i hi => ?_, fun i content version hi => ?_⟩
  · refine hcopied.adds.view fun m last hm herr => ?_
    obtain ⟨src', hsrc', rfl⟩ : ∃ src' ∈ srcs, base src' = m := by simpa using hm
    exact hapart src hsrc src' hsrc' ⟨names, hn, last, herr⟩
  · rw [hmade] at ht
    obtain ⟨src, hsrc, rfl⟩ := List.mem_map.mp ht
    obtain ⟨hname, htarget⟩ := hnames src hsrc
    refine ⟨hsrc, fun names hn => ?_⟩
    have hview := hcopied.view hP (List.mem_map_of_mem hsrc) hname hn
    have hpath : (parse (target (pathOf b) src)).below names = (⟨true, b⟩ : Path).below (base src :: names) := by
      rw [htarget, parse_pathOf (hdst src hsrc)]
      simp [Path.below]
    exact (congrArg fs'.view hpath).trans hview
  · have hbases : o.newPaths.map base = srcs.map base := by
      rw [Outcome.newPaths, hmade, List.map_map, List.map_map]
      refine List.map_congr_left fun src hsrc => ?_
      obtain ⟨hname, htarget⟩ := hnames src hsrc
      exact (congrArg base htarget).trans (base_pathOf hname)
    exact List.Nodup.of_map base (hbases ▸ hdistinct)
  · rw [hcopied.adds.resolve fun _ _ _ herr => by simp [hi] at herr, hi]
  · have hne : i ≠ P := fun heq => by
      rw [heq, hd] at hi
      cases hi
    rw [hcopied.adds.other i (lt_next_of_isSome (by rw [hi]; rfl)) hne, hi]

/-- **A paste into what is empty.** Where the last names of the sources are distinct, there is nothing at the targets
and no source asks for one of them, a paste that reports success preserves what was there. -/
theorem paste_preserves (hcopy : copy paths false = .ok clipboard) (hdest : validatePath dest = .ok cleanDest)
    (hdir : IsDirectory w.files cleanDest) (hclear : Clear w.files cleanDest clipboard.paths)
    (hok : (paste (unix k) clipboard dest w).1.error = none) :
    Preserved w.files clipboard.paths (paste (unix k) clipboard dest w).1
      (paste (unix k) clipboard dest w).2.2.files := by
  obtain ⟨hmove, hsrcs⟩ := clipboard_eq_ok hcopy
  obtain ⟨b, hb, rfl⟩ := validatePath_eq_ok hdest
  obtain ⟨P, d, hP, hd⟩ := hdir
  obtain ⟨hdistinct, hfree, hapart⟩ := hclear
  have hapart := hapart P hP
  rw [parse_pathOf hb] at hP
  have hnames := fun src hsrc => name_of_free hb hP hd (hsrcs src hsrc) (hfree src hsrc)
  unfold paste at hok ⊢
  split_ifs at hok ⊢ with hempty
  · exact ⟨fun src hsrc => by simp [hempty] at hsrc, by simp, List.nodup_nil, fun _ _ _ h => h, fun _ _ _ h => h⟩
  · rw [hdest, hmove] at hok ⊢
    dsimp only at hok ⊢
    have hcopied := copied_transferAll (copied_nil hd) hb hP hd
      (fun src hsrc => ⟨hsrcs src hsrc, (hnames src hsrc).1, (hnames src hsrc).2.1⟩) (by simpa using hdistinct)
      (fun src hsrc m hm => by
        obtain ⟨src', hsrc', rfl⟩ : ∃ src' ∈ clipboard.paths, base src' = m := by simpa using hm
        exact hapart src hsrc src' hsrc') hok
    exact preserved_of_copied hb hP hd (fun src hsrc => ⟨(hnames src hsrc).1, (hnames src hsrc).2.2⟩) hdistinct hapart
      (transferAll_made (unix k) false (pathOf b) clipboard.paths w hok) (by simpa using hcopied)

end Paste

/-! ### A file and a directory -/

/-- The file `/f` and the directory `/d`, with the file `/d/g`. -/
def fileAndDirectory : FileSystem where
  node i :=
    match i with
    | 0 => some (.dir ⟨0, [("f", 1), ("d", 2)], by decide, by decide⟩)
    | 1 => some (.file [65] 0)
    | 2 => some (.dir ⟨0, [("g", 3)], by decide, by decide⟩)
    | 3 => some (.file [66] 0)
    | _ => none
  root := 0
  cwd := 0
  next := 4
  fresh i hi := by
    match i with
    | 0 | 1 | 2 | 3 => exact absurd hi (by decide)
    | i + 4 => rfl
  rooted := ⟨rfl, rfl⟩
  closed i d hi := by
    match i, hi with
    | 0, hi | 2, hi =>
      cases hi
      exact ⟨rfl, by decide⟩
    | 1, hi | 3, hi | i + 4, hi => cases hi

/-- `/f` is pasted into `/d`. -/
theorem paste_preserves_file :
    Preserved fileAndDirectory ["/f"] (paste (unix .willing) ⟨["/f"], false⟩ "/d" ⟨fileAndDirectory, []⟩).1
      (paste (unix .willing) ⟨["/f"], false⟩ "/d" ⟨fileAndDirectory, []⟩).2.2.files := by
  have hfile : fileAndDirectory.resolve true (parse "/f") = .ok 1 := by decide
  have hclear : Clear fileAndDirectory "/d" ["/f"] := by
    refine ⟨by decide, fun src hsrc i => ?_, fun i hi src hsrc src' hsrc' hask => ?_⟩
    · obtain rfl := List.mem_singleton.mp hsrc
      have hmissing : fileAndDirectory.resolve false (parse (target "/d" "/f")) =
        .error (.missing 2 "f" true) := by decide
      simp [hmissing]
    · obtain rfl := List.mem_singleton.mp hsrc
      obtain ⟨names, -, last, hlast⟩ := hask
      cases names with
      | nil =>
        rw [Path.below_nil, hfile] at hlast
        cases hlast
      | cons c rest =>
        -- a file has no entries
        obtain ⟨m, hm⟩ := @resolve_below _ _ _ true hfile
        rw [hm _ (List.cons_ne_nil _ _), walk_cons] at hlast
        cases hlast
  have hcopy : copy ["/f"] false = .ok ⟨["/f"], false⟩ := by decide
  have hdest : validatePath "/d" = .ok "/d" := by decide
  have hok : (paste (unix .willing) ⟨["/f"], false⟩ "/d" ⟨fileAndDirectory, []⟩).1.error = none := by decide
  exact paste_preserves hcopy hdest ⟨2, _, by decide, rfl⟩ hclear hok

/-- Pasted into its own directory, the file `/d/g` is opened to be overwritten before it is read: it is empty, and the
paste reports success. -/
theorem pasted_onto_itself :
    copy ["/d/g"] false = .ok ⟨["/d/g"], false⟩ ∧ validatePath "/d" = .ok "/d" ∧ IsDirectory fileAndDirectory "/d" ∧
      (paste (unix .willing) ⟨["/d/g"], false⟩ "/d" ⟨fileAndDirectory, []⟩).1.error = none ∧
      (paste (unix .willing) ⟨["/d/g"], false⟩ "/d" ⟨fileAndDirectory, []⟩).2.2.files.view (parse "/d/g") =
        some (.file []) ∧
      ¬ Preserved fileAndDirectory ["/d/g"] (paste (unix .willing) ⟨["/d/g"], false⟩ "/d" ⟨fileAndDirectory, []⟩).1
        (paste (unix .willing) ⟨["/d/g"], false⟩ "/d" ⟨fileAndDirectory, []⟩).2.2.files := by
  have hempty : (paste (unix .willing) ⟨["/d/g"], false⟩ "/d" ⟨fileAndDirectory, []⟩).2.2.files.view (parse "/d/g") =
      some (.file []) := by decide
  refine ⟨by decide, by decide, ⟨2, _, by decide, rfl⟩, by decide, hempty, fun h => ?_⟩
  have hsame := h.sources "/d/g" (List.mem_singleton_self _) [] (by simp)
  rw [Path.below_nil, hempty] at hsame
  exact absurd hsame (by decide)

end Tilbo.Daemon.CopyPaste
