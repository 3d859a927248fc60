import Tilbo.Lib.Files

/-! # Additions to a file system

New entries in a directory that had none of those names, with new nodes below them. A path that led somewhere leads
there still, and one that did not does so only if it failed for want of one of the entries: `Adds.walk`. `Copied` says
that the new entries look like what some paths lead to. -/

namespace Tilbo.Lib.Files

open Tilbo.Lib.Pairs

/-- The path that goes on with these names. -/
def Path.below (p : Path) (names : List String) : Path := ⟨p.absolute, p.elements ++ names⟩

@[simp] theorem Path.below_below (p : Path) (a b : List String) : (p.below a).below b = p.below (a ++ b) := by
  simp [below]

@[simp] theorem Path.below_nil (p : Path) : p.below [] = p := by simp [below]

/-- What there is to see of a node. -/
inductive View where
  | dir
  | file (content : List UInt8)
deriving DecidableEq

def Node.view? : Node → Option View
  | .file content _ => some (.file content)
  | .dir _ => some .dir
  | .link _ => none

namespace FileSystem

/-! ### Additions -/

/-- From `fs` to `fs'` the directory `P` gets entries with these names, none of which it had; nodes are added, and
those there were are otherwise as they were. -/
structure Adds (fs : FileSystem) (P : ℕ) (names : String → Prop) (fs' : FileSystem) : Prop where
  root : fs'.root = fs.root
  cwd : fs'.cwd = fs.cwd
  next : fs.next ≤ fs'.next
  other : ∀ i, i < fs.next → i ≠ P → fs'.node i = fs.node i
  dir : ∃ d d', fs.node P = some (.dir d) ∧ fs'.node P = some (.dir d') ∧ d'.parent = d.parent ∧
    (∀ name, ¬ names name → d'.lookup name = d.lookup name) ∧ ∀ name, names name → d.lookup name = none

section Adds

variable {fs fs' fs'' : FileSystem} {follow last : Bool} {n i j P X N : ℕ} {a : List String} {c name : String}
  {d : Directory} {names names' : String → Prop}

theorem lt_next_of_isSome (h : (fs.node i).isSome) : i < fs.next := by
  by_contra hge
  rw [fs.fresh i (not_lt.mp hge)] at h
  cases h

theorem isSome_of_lookup (hi : fs.node i = some (.dir d)) (hj : d.lookup name = some j) : (fs.node j).isSome := by
  obtain ⟨front, rest, hentries, -⟩ := List.lookup_eq_some_iff.mp hj
  refine (fs.closed i d hi).2 (name, j) ?_
  rw [hentries]
  simp

/-- A move ends at a node, also one that misses an entry. -/
theorem isSome_of_move (hi : (fs.node i).isSome) :
    (∀ j, fs.move last follow i c = .goes j → (fs.node j).isSome) ∧
      (∀ j target, fs.move last follow i c = .jumps j target → (fs.node j).isSome) ∧
      ∀ j name last', fs.move last follow i c = .fails (.missing j name last') → (fs.node j).isSome := by
  cases hnode : fs.node i with
  | none =>
    rw [hnode] at hi
    cases hi
  | some node =>
    cases node with
    | file content version => simp [move, hnode]
    | link target => simp [move, hnode]
    | dir d =>
      by_cases hdot : c = "."
      · simp [move, hnode, hdot]
      · by_cases hdots : c = ".."
        · simpa [move, hnode, hdots] using (fs.closed i d hnode).1
        · rw [move_dir hnode hdot hdots]
          cases hlookup : d.lookup c with
          | none => simp [hnode]
          | some k =>
            have hk := isSome_of_lookup hnode hlookup
            dsimp only
            split
            · split_ifs
              · simpa using hk
              · simpa using fs.rooted.1
              · simp [hnode]
            · simpa using hk

/-- A walk ends at a node, also one that misses an entry. -/
theorem isSome_of_walk (hi : (fs.node i).isSome)
    (h : fs.walk follow n i a = .ok j ∨ ∃ name last, fs.walk follow n i a = .error (.missing j name last)) :
    (fs.node j).isSome := by
  induction n generalizing i a with
  | zero | succ n ih =>
    induction a generalizing i with
    | nil =>
      rw [walk_nil] at h
      obtain h | ⟨name, last, h⟩ := h
      · cases h
        exact hi
      · cases h
    | cons c rest iha =>
      obtain ⟨hgoes, hjumps, hfails⟩ := @isSome_of_move fs follow rest.isEmpty i c hi
      rw [walk_cons] at h
      cases hto : fs.move rest.isEmpty follow i c with
      | goes k =>
        rw [hto] at h
        exact iha (hgoes k hto) h
      | jumps k target =>
        rw [hto] at h
        first
          | exact ih (hjumps k target hto) h
          | (obtain h | ⟨name, last, h⟩ := h) <;> cases h
      | fails err =>
        rw [hto] at h
        obtain h | ⟨name, last, h⟩ := h
        · cases h
        · cases h
          exact hfails j name last hto

theorem isSome_start (fs : FileSystem) (p : Path) : (fs.node (fs.start p)).isSome := by
  unfold start
  split_ifs
  · exact fs.rooted.1
  · exact fs.rooted.2

/-- A path leads to a node, also one that misses an entry. -/
theorem isSome_of_resolve {p : Path}
    (h : fs.resolve follow p = .ok j ∨ ∃ name last, fs.resolve follow p = .error (.missing j name last)) :
    (fs.node j).isSome := by
  unfold resolve at h
  split_ifs at h
  · obtain h | ⟨name, last, h⟩ := h
    · cases h
    · cases h
      exact fs.rooted.2
  · exact isSome_of_walk (fs.isSome_start p) h

/-- An addition changes no links. -/
theorem Adds.link (h : Adds fs P names fs') (hi : (fs.node i).isSome) :
    (fs'.node i).bind Node.link? = (fs.node i).bind Node.link? := by
  by_cases hP : i = P
  · obtain ⟨d, d', hd, hd', -⟩ := h.dir
    rw [hP, hd, hd']
    rfl
  · rw [h.other i (lt_next_of_isSome hi) hP]

/-- An addition leaves directories what they are, but for the entries that it adds. -/
theorem Adds.lookup (h : Adds fs P names fs') (hi : fs.node i = some (.dir d)) : ∃ d', fs'.node i = some (.dir d') ∧
    d'.parent = d.parent ∧ ∀ name, d'.lookup name = d.lookup name ∨ (i = P ∧ names name ∧ d.lookup name = none) := by
  by_cases hP : i = P
  · obtain ⟨dP, d', hd, hd', hparent, hsame, hnone⟩ := h.dir
    rw [hP, hd] at hi
    obtain rfl := Node.dir.inj (Option.some_inj.mp hi)
    refine ⟨d', hP ▸ hd', hparent, fun name => ?_⟩
    by_cases hname : names name
    · exact Or.inr ⟨hP, hname, hnone name hname⟩
    · exact Or.inl (hsame name hname)
  · have hlt : i < fs.next := lt_next_of_isSome (by rw [hi]; rfl)
    exact ⟨d, by rw [h.other i hlt hP, hi], rfl, fun _ => Or.inl rfl⟩

/-- An addition changes a move only if that fails for want of the entry. -/
theorem Adds.move (h : Adds fs P names fs') (hi : (fs.node i).isSome)
    (hnot : ∀ name last', names name → fs.move last follow i c ≠ .fails (.missing P name last')) :
    fs'.move last follow i c = fs.move last follow i c := by
  cases hnode : fs.node i with
  | none =>
    rw [hnode] at hi
    cases hi
  | some node =>
    cases node with
    | dir d =>
      obtain ⟨d', hd', hparent, hlookup⟩ := h.lookup hnode
      by_cases hdot : c = "."
      · simp [FileSystem.move, hnode, hd', hdot]
      · by_cases hdots : c = ".."
        · simp [FileSystem.move, hnode, hd', hdots, hparent]
        · have hsame : d'.lookup c = d.lookup c := by
            refine (hlookup c).resolve_right fun hadded => ?_
            obtain ⟨hP, hname, hnone⟩ := hadded
            refine hnot c last hname ?_
            rw [move_dir hnode hdot hdots, hnone, hP]
          rw [move_dir hnode hdot hdots, move_dir hd' hdot hdots, hsame, h.root]
          cases hj : d.lookup c with
          | none => rfl
          | some j =>
            dsimp only
            rw [h.link (isSome_of_lookup hnode hj)]
    | file content version | link target =>
      have hP : i ≠ P := fun heq => by
        obtain ⟨d, d', hd, -⟩ := h.dir
        rw [heq, hd] at hnode
        cases hnode
      rw [FileSystem.move, FileSystem.move, h.other i (lt_next_of_isSome hi) hP, hnode]

/-- **A walk after an addition.** It ends where it ended, unless it failed for want of what is added. -/
theorem Adds.walk (h : Adds fs P names fs') (hi : (fs.node i).isSome)
    (hnot : ∀ name last, names name → fs.walk follow n i a ≠ .error (.missing P name last)) :
    fs'.walk follow n i a = fs.walk follow n i a := by
  induction n generalizing i a with
  | zero | succ n ih =>
    induction a generalizing i with
    | nil => rw [walk_nil, walk_nil]
    | cons c rest iha =>
      have hmove : fs'.move rest.isEmpty follow i c = fs.move rest.isEmpty follow i c := by
        refine h.move hi fun name last hname hfails => hnot name last hname ?_
        rw [walk_cons, hfails]
      obtain ⟨hgoes, hjumps, -⟩ := @isSome_of_move fs follow rest.isEmpty i c hi
      rw [walk_cons, walk_cons, hmove]
      cases hto : fs.move rest.isEmpty follow i c with
      | goes k =>
        refine iha (hgoes k hto) fun name last hname herr => hnot name last hname ?_
        rw [walk_cons, hto]
        exact herr
      | jumps k target =>
        first
          | rfl
          | refine ih (hjumps k target hto) fun name last hname herr => hnot name last hname ?_
            rw [walk_cons, hto]
            exact herr
      | fails err => rfl

/-- What a path leads to after an addition. -/
theorem Adds.resolve {p : Path} (h : Adds fs P names fs')
    (hnot : ∀ name last, names name → fs.resolve follow p ≠ .error (.missing P name last)) :
    fs'.resolve follow p = fs.resolve follow p := by
  unfold FileSystem.resolve at hnot ⊢
  split_ifs at hnot ⊢ with hempty
  · rw [h.cwd]
  · have hstart : fs'.start p = fs.start p := by rw [start, start, h.root, h.cwd]
    rw [hstart]
    exact h.walk (fs.isSome_start p) hnot

/-- What is added below something new is no further addition. -/
theorem Adds.trans_new (h : Adds fs P names fs') (h' : Adds fs' X names' fs'') (hX : fs.next ≤ X) :
    Adds fs P names fs'' := by
  have hother : ∀ i, i < fs.next → fs''.node i = fs'.node i := fun i hi =>
    h'.other i (lt_of_lt_of_le hi h.next) (by omega)
  obtain ⟨d, d', hd, hd', hrest⟩ := h.dir
  refine ⟨h'.root.trans h.root, h'.cwd.trans h.cwd, h.next.trans h'.next, fun i hi hP => ?_, d, d', hd, ?_, hrest⟩
  · rw [hother i hi, h.other i hi hP]
  · rw [hother P (lt_next_of_isSome (by rw [hd]; rfl)), hd']

/-- What is changed in a new node is no further addition. -/
theorem Adds.trans_same (h : Adds fs P names fs') (hroot : fs''.root = fs'.root) (hcwd : fs''.cwd = fs'.cwd)
    (hnext : fs'.next ≤ fs''.next) (hother : ∀ i, i < fs.next → fs''.node i = fs'.node i) : Adds fs P names fs'' := by
  obtain ⟨d, d', hd, hd', hrest⟩ := h.dir
  refine ⟨hroot.trans h.root, hcwd.trans h.cwd, h.next.trans hnext, fun i hi hP => ?_, d, d', hd, ?_, hrest⟩
  · rw [hother i hi, h.other i hi hP]
  · rw [hother P (lt_next_of_isSome (by rw [hd]; rfl)), hd']

/-- Two additions to one directory. -/
theorem Adds.trans (h : Adds fs P names fs') (h' : Adds fs' P names' fs'')
    (hnames : ∀ name, names' name → ¬ names name) :
    Adds fs P (fun name => names name ∨ names' name) fs'' := by
  obtain ⟨d, d', hd, hd', hparent, hsame, hnone⟩ := h.dir
  obtain ⟨e, e', he, he', hparent', hsame', hnone'⟩ := h'.dir
  rw [hd'] at he
  obtain rfl := Node.dir.inj (Option.some_inj.mp he)
  refine ⟨h'.root.trans h.root, h'.cwd.trans h.cwd, h.next.trans h'.next, fun i hi hP => ?_, d, e', hd, he',
    hparent'.trans hparent, fun name hname => ?_, fun name hname => ?_⟩
  · rw [h'.other i (lt_of_lt_of_le hi h.next) hP, h.other i hi hP]
  · obtain ⟨hname, hname'⟩ := not_or.mp hname
    rw [hsame' name hname', hsame name hname]
  · rcases hname with hname | hname
    · exact hnone name hname
    · rw [← hsame name (hnames name hname)]
      exact hnone' name hname

/-- A new node is an addition. -/
theorem adds_insert {hi : fs.node i = some (.dir d)} {hname : IsName name} {kind : Kind}
    (hnone : d.lookup name = none) :
    Adds fs i (· = name) (fs.insert i d hi name hname kind) := by
  have hlt : i < fs.next := lt_next_of_isSome (by rw [hi]; rfl)
  refine ⟨rfl, rfl, Nat.le_succ _, fun j hj hne => ?_, d, d.put name fs.next hname, hi, ?_, rfl, fun m hm => ?_, ?_⟩
  · simp only [insert]
    rw [Function.update_of_ne hne, Function.update_of_ne (by omega)]
  · simp only [insert, Function.update_self]
  · rw [Directory.lookup, Directory.put, lookup_put, if_neg hm]
    rfl
  · rintro m rfl
    exact hnone

/-! ### What is new -/

/-- From the number `N` on there are no links, and directories lead to nodes with larger numbers only. -/
structure Grown (fs : FileSystem) (N : ℕ) : Prop where
  link : ∀ i n, N ≤ i → fs.node i = some n → n.link? = none
  up : ∀ i d, N ≤ i → fs.node i = some (.dir d) → ∀ name j, d.lookup name = some j → i < j

/-- What there is to see where a walk ends. -/
def seen (fs : FileSystem) : Except Fault ℕ → Option View
  | .ok i => (fs.node i).bind Node.view?
  | .error _ => none

/-- What a path leads to. -/
def view (fs : FileSystem) (p : Path) : Option View := fs.seen (fs.resolve true p)

/-- What a name leads to from a node. -/
def entry (fs : FileSystem) (i : ℕ) (name : String) : Option ℕ :=
  ((fs.node i).bind Node.dir?).bind fun d => d.lookup name

/-- What names lead to from a node, one by one. -/
def viewBelow (fs : FileSystem) : ℕ → List String → Option View
  | i, [] => (fs.node i).bind Node.view?
  | i, name :: rest => (fs.entry i name).bind fun j => viewBelow fs j rest

theorem entry_dir (hi : fs.node i = some (.dir d)) : fs.entry i name = d.lookup name := by
  rw [entry, hi]
  rfl

theorem entry_eq_some_iff : fs.entry i name = some j ↔ ∃ d, fs.node i = some (.dir d) ∧ d.lookup name = some j := by
  constructor
  · intro h
    obtain ⟨d, hd, hj⟩ := Option.bind_eq_some_iff.mp h
    obtain ⟨node, hi, hnode⟩ := Option.bind_eq_some_iff.mp hd
    cases node with
    | file content version | link target => cases hnode
    | dir d' =>
      cases hnode
      exact ⟨d, hi, hj⟩
  · rintro ⟨d, hi, hj⟩
    rw [entry_dir hi, hj]

theorem viewBelow_dir {rest : List String} (hi : fs.node i = some (.dir d)) :
    fs.viewBelow i (name :: rest) = (d.lookup name).bind fun j => fs.viewBelow j rest := by
  rw [viewBelow, entry_dir hi]

/-- Where there are no links, a walk sees what the names lead to. -/
theorem Grown.walk (h : Grown fs N) (hN : N ≤ i) (hi : (fs.node i).isSome) (ha : ∀ name ∈ a, IsName name) :
    fs.seen (fs.walk true n i a) = fs.viewBelow i a := by
  induction a generalizing i with
  | nil => rw [walk_nil]; rfl
  | cons name rest ih =>
    obtain ⟨hname, hrest⟩ := List.forall_mem_cons.mp ha
    rw [walk_cons]
    cases hnode : fs.node i with
    | none =>
      rw [hnode] at hi
      cases hi
    | some node =>
      cases node with
      | file content version | link target => simp [FileSystem.move, hnode, viewBelow, entry, Node.dir?, seen]
      | dir d =>
        rw [move_dir hnode hname.2.1 hname.2.2.1, viewBelow_dir hnode]
        cases hj : d.lookup name with
        | none => rfl
        | some j =>
          have hsome := isSome_of_lookup hnode hj
          have hup : i < j := h.up i d hN hnode name j hj
          have hlink : (fs.node j).bind Node.link? = none := by
            obtain ⟨node, hnode'⟩ := Option.isSome_iff_exists.mp hsome
            rw [hnode']
            exact h.link j node (by omega) hnode'
          dsimp only
          rw [hlink]
          exact ih (by omega) hsome hrest

/-- What is new is not changed by an addition to a directory with a smaller number. -/
theorem Adds.viewBelow (h : Adds fs P names fs') (hgrown : Grown fs N) (hN : N ≤ i) (hP : P < i)
    (hi : (fs.node i).isSome) : fs'.viewBelow i a = fs.viewBelow i a := by
  have hnode : ∀ j, (fs.node j).isSome → P < j → fs'.node j = fs.node j := fun j hj hlt =>
    h.other j (lt_next_of_isSome hj) (by omega)
  induction a generalizing i with
  | nil => rw [FileSystem.viewBelow, FileSystem.viewBelow, hnode i hi hP]
  | cons name rest ih =>
    cases hdir : fs.node i with
    | none =>
      rw [hdir] at hi
      cases hi
    | some node =>
      have hdir' := hnode i hi hP
      rw [hdir] at hdir'
      cases node with
      | file content version | link target => simp [FileSystem.viewBelow, entry, hdir, hdir', Node.dir?]
      | dir d =>
        rw [viewBelow_dir hdir, viewBelow_dir hdir']
        cases hj : d.lookup name with
        | none => rfl
        | some j =>
          have hup : i < j := hgrown.up i d hN hdir name j hj
          exact ih (by omega) (by omega) (isSome_of_lookup hdir hj)

theorem grown_insert {hi : fs.node i = some (.dir d)} {hname : IsName name} {kind : Kind} (h : Grown fs N) :
    Grown (fs.insert i d hi name hname kind) N := by
  have hlt : i < fs.next := lt_next_of_isSome (by rw [hi]; rfl)
  constructor
  · intro j n hN hj
    simp only [insert, Function.update_apply] at hj
    split_ifs at hj with h1 h2
    · cases hj
      rfl
    · cases hj
      cases kind <;> rfl
    · exact h.link j n hN hj
  · intro j d' hN hj m k hk
    simp only [insert, Function.update_apply] at hj
    split_ifs at hj with h1 h2
    · cases hj
      rw [Directory.lookup, Directory.put, lookup_put] at hk
      split_ifs at hk with hm
      · cases hk
        omega
      · exact h.up j d hN (h1 ▸ hi) m k hk
    · cases kind with
      | file => cases hj
      | dir =>
        cases hj
        cases hk
    · exact h.up j d' hN hj m k hk

theorem grown_setFile {content : List UInt8} {version : ℕ} (h : Grown fs N) :
    Grown (fs.setFile i content version) N := by
  have hnode : ∀ j n, (fs.setFile i content version).node j = some n → n.link? = none ∧ n.dir? = none ∨
      fs.node j = some n := by
    intro j n hj
    obtain ⟨old, hold, rfl⟩ := Option.map_eq_some_iff.mp hj
    cases old with
    | file content' version' =>
      refine Or.inl ?_
      dsimp only
      split_ifs <;> exact ⟨rfl, rfl⟩
    | link target | dir d => exact Or.inr hold
  constructor
  · intro j n hN hj
    exact (hnode j n hj).elim And.left fun hold => h.link j n hN hold
  · intro j d hN hj name k hk
    rcases hnode j _ hj with hnew | hold
    · cases hnew.2
    · exact h.up j d hN hold name k hk

theorem grown_next (fs : FileSystem) : Grown fs fs.next := by
  constructor
  · intro i n hi hnode
    rw [fs.fresh i hi] at hnode
    cases hnode
  · intro i d hi hnode
    rw [fs.fresh i hi] at hnode
    cases hnode

end Adds

/-! ### Copies -/

section Copies

variable {fs fs₁ fs₂ fs' : FileSystem} {p q : Path} {X N i j : ℕ} {name : String} {names : List String}
  {done : List (Path × String)} {follow : Bool}

/-- A path below `p` fails for want of the entry. -/
def Asks (fs : FileSystem) (p : Path) (X : ℕ) (name : String) : Prop :=
  ∃ names, (∀ n ∈ names, IsName n) ∧ ∃ last, fs.resolve true (p.below names) = .error (.missing X name last)

/-- The directory `X` gets an entry for each pair, and below it is what was below the path. -/
structure Copied (fs : FileSystem) (X : ℕ) (done : List (Path × String)) (fs' : FileSystem) : Prop where
  adds : Adds fs X (· ∈ done.map Prod.snd) fs'
  grown : ∀ N ≤ fs.next, Grown fs N → Grown fs' N
  copies : ∀ e ∈ done, ∃ j, fs.next ≤ j ∧ fs'.entry X e.2 = some j ∧
    ∀ names, (∀ n ∈ names, IsName n) → fs'.viewBelow j names = fs.view (e.1.below names)

/-- What a path leads to is seen after an addition as before it. -/
theorem Adds.view {A : String → Prop} (h : Adds fs X A fs')
    (hnot : ∀ name last, A name → fs.resolve true p ≠ .error (.missing X name last)) : fs'.view p = fs.view p := by
  unfold FileSystem.view
  rw [h.resolve hnot]
  cases hto : fs.resolve true p with
  | error err => rfl
  | ok i =>
    have hi : (fs.node i).isSome := isSome_of_resolve (Or.inl hto)
    unfold seen
    dsimp only
    by_cases hX : i = X
    · obtain ⟨d, d', hd, hd', -⟩ := h.dir
      rw [hX, hd, hd']
      rfl
    · rw [h.other i (lt_next_of_isSome hi) hX]

theorem Adds.asks {A : String → Prop} {Y : ℕ} (h : Adds fs X A fs') (hnot : ∀ name, A name → ¬ Asks fs p X name)
    (hasks : Asks fs' p Y name) : Asks fs p Y name := by
  obtain ⟨names, hnames, last, hlast⟩ := hasks
  refine ⟨names, hnames, last, ?_⟩
  rw [← hlast]
  exact (h.resolve fun name last hname herr => hnot name hname ⟨names, hnames, last, herr⟩).symm

theorem copied_nil {d : Directory} (hX : fs.node X = some (.dir d)) : Copied fs X [] fs :=
  ⟨⟨rfl, rfl, le_rfl, fun _ _ _ => rfl, d, d, hX, hX, rfl, fun _ _ => rfl, by simp⟩, fun _ _ h => h, by simp⟩

/-- One more copy. -/
theorem Copied.append (h : Copied fs X done fs₁) (h' : Copied fs₁ X [(p, name)] fs₂)
    (hname : name ∉ done.map Prod.snd)
    (hview : ∀ names, (∀ n ∈ names, IsName n) → fs₁.view (p.below names) = fs.view (p.below names)) :
    Copied fs X (done ++ [(p, name)]) fs₂ := by
  obtain ⟨d, d₁, hd, hd₁, -⟩ := h.adds.dir
  have hX : X < fs.next := lt_next_of_isSome (by rw [hd]; rfl)
  refine ⟨?_, fun N hN hgrown => h'.grown N (hN.trans h.adds.next) (h.grown N hN hgrown), fun e he => ?_⟩
  · have hadds := h.adds.trans h'.adds fun n hn hdone => hname (by simpa [List.mem_singleton.mp hn] using hdone)
    simpa using hadds
  · rcases List.mem_append.mp he with hdone | hnew
    · obtain ⟨j, hj, hentry, hbelow⟩ := h.copies e hdone
      obtain ⟨d₁', d₂, hd₁', hd₂, -, hsame, -⟩ := h'.adds.dir
      obtain rfl : d₁ = d₁' := by simpa [hd₁] using hd₁'
      have hsome : (fs₁.node j).isSome := isSome_of_lookup hd₁ (by rwa [entry_dir hd₁] at hentry)
      have hne : e.2 ∉ [(p, name)].map Prod.snd := fun hmem => by
        obtain rfl : e.2 = name := List.mem_singleton.mp hmem
        exact hname (List.mem_map_of_mem hdone)
      refine ⟨j, hj, ?_, fun names hnames => ?_⟩
      · rw [entry_dir hd₂, hsame _ hne, ← entry_dir hd₁, hentry]
      · rw [← hbelow names hnames]
        exact h'.adds.viewBelow (h.grown _ le_rfl fs.grown_next) hj (by omega) hsome
    · obtain rfl := List.mem_singleton.mp hnew
      obtain ⟨j, hj, hentry, hbelow⟩ := h'.copies (p, name) (List.mem_singleton_self _)
      exact ⟨j, h.adds.next.trans hj, hentry, fun names hnames => (hbelow names hnames).trans (hview names hnames)⟩

/-- A path goes on from where it leads. -/
theorem resolve_below (h : fs.resolve true p = .ok i) :
    ∃ m, ∀ names, names ≠ [] → fs.resolve follow (p.below names) = fs.walk follow m i names := by
  unfold resolve at h
  split_ifs at h with hempty
  obtain ⟨m, hm⟩ := @walk_append fs follow _ _ _ _ h
  refine ⟨m, fun names hnames => ?_⟩
  rw [resolve_eq_walk (by simp [Path.below, hnames])]
  exact hm names hnames

/-- A name that the directory does not have. -/
theorem resolve_missing {d : Directory} (h : fs.resolve true p = .ok i) (hi : fs.node i = some (.dir d))
    (hname : IsName name) (hnone : d.lookup name = none) :
    fs.resolve follow (p.below [name]) = .error (.missing i name true) := by
  obtain ⟨m, hm⟩ := @resolve_below _ _ _ follow h
  rw [hm _ (List.cons_ne_nil _ _), walk_cons, move_dir hi hname.2.1 hname.2.2.1, hnone]
  rfl

/-- A name that leads to no link. -/
theorem resolve_entry (h : fs.resolve true p = .ok i) (hentry : fs.entry i name = some j)
    (hlink : (fs.node j).bind Node.link? = none) (hname : IsName name) :
    fs.resolve follow (p.below [name]) = .ok j := by
  obtain ⟨m, hm⟩ := @resolve_below _ _ _ follow h
  obtain ⟨d, hi, hj⟩ := entry_eq_some_iff.mp hentry
  rw [hm _ (List.cons_ne_nil _ _), walk_cons, move_dir hi hname.2.1 hname.2.2.1, hj]
  dsimp only
  rw [hlink]
  exact walk_nil

/-- There is nothing below a name that is missing. -/
theorem view_below_none (h : fs.resolve true p = .ok i) (hname : IsName name) (hnone : fs.entry i name = none) :
    fs.view (p.below (name :: names)) = none := by
  obtain ⟨m, hm⟩ := @resolve_below _ _ _ true h
  rw [FileSystem.view, hm _ (List.cons_ne_nil _ _), walk_cons]
  cases hnode : fs.node i with
  | none => simp [move, hnode, seen]
  | some node =>
    cases node with
    | file content version | link target => simp [move, hnode, seen]
    | dir d =>
      rw [entry_dir hnode] at hnone
      rw [move_dir hnode hname.2.1 hname.2.2.1, hnone]
      rfl

/-- **A copy is seen.** What is below a path that was copied is seen below the new entry. -/
theorem Copied.view (h : Copied fs X done fs') (hp : fs.resolve true p = .ok X) (he : (q, name) ∈ done)
    (hname : IsName name) (hnames : ∀ n ∈ names, IsName n) :
    fs'.view (p.below (name :: names)) = fs.view (q.below names) := by
  obtain ⟨j, hj, hentry, hbelow⟩ := h.copies _ he
  have hgrown : Grown fs' fs.next := h.grown _ le_rfl fs.grown_next
  have hp' : fs'.resolve true p = .ok X := by
    rw [h.adds.resolve fun _ _ _ herr => by simp [hp] at herr, hp]
  obtain ⟨d, hX, hlookup⟩ := entry_eq_some_iff.mp hentry
  have hsome := isSome_of_lookup hX hlookup
  obtain ⟨m, hm⟩ := @resolve_below _ _ _ true hp'
  have hlink : (fs'.node j).bind Node.link? = none := by
    obtain ⟨node, hnode⟩ := Option.isSome_iff_exists.mp hsome
    rw [hnode]
    exact hgrown.link j node hj hnode
  rw [FileSystem.view, hm _ (List.cons_ne_nil _ _), walk_cons, move_dir hX hname.2.1 hname.2.2.1, hlookup]
  dsimp only
  rw [hlink]
  exact (hgrown.walk hj hsome hnames).trans (hbelow names hnames)

theorem Asks.of_below {a : List String} (h : Asks fs (p.below a) X name) (ha : ∀ n ∈ a, IsName n) :
    Asks fs p X name := by
  obtain ⟨names, hnames, last, hlast⟩ := h
  refine ⟨a ++ names, fun n hn => (List.mem_append.mp hn).elim (ha n) (hnames n), last, ?_⟩
  rw [← hlast, Path.below_below]

theorem Asks.lt_next (h : Asks fs p X name) : X < fs.next := by
  obtain ⟨names, -, last, hlast⟩ := h
  exact lt_next_of_isSome (isSome_of_resolve (Or.inr ⟨name, last, hlast⟩))

theorem mem_listing {d : Directory} : name ∈ d.listing ↔ d.lookup name ≠ none := by
  rw [Directory.listing, (List.perm_insertionSort _ _).mem_iff, Directory.lookup, Ne, List.lookup_eq_none_iff]
  simp only [List.mem_map, not_forall]
  constructor
  · rintro ⟨e, he, rfl⟩
    exact ⟨e, he, by simp⟩
  · rintro ⟨e, he, hne⟩
    have heq : name = e.1 := by simpa using hne
    exact ⟨e, he, heq.symm⟩

theorem nodup_listing (d : Directory) : d.listing.Nodup :=
  (List.perm_insertionSort _ _).nodup_iff.mpr d.nodup

theorem insert_entry {d : Directory} {kind : Kind} (hi : fs.node i = some (.dir d)) (hname : IsName name) :
    (fs.insert i d hi name hname kind).entry i name = some fs.next := by
  simp [entry, insert, Node.dir?, Directory.lookup, Directory.put, lookup_put]

theorem insert_next {d : Directory} {kind : Kind} (hi : fs.node i = some (.dir d)) (hname : IsName name) :
    (fs.insert i d hi name hname kind).node fs.next = some (kind.node i) := by
  have hlt : i < fs.next := lt_next_of_isSome (by rw [hi]; rfl)
  simp [insert, Function.update_of_ne (show fs.next ≠ i by omega)]

/-- The path of a new node. -/
theorem resolve_insert {d : Directory} {kind : Kind} (h : fs.resolve true p = .ok i) (hi : fs.node i = some (.dir d))
    (hname : IsName name) (hnone : d.lookup name = none) :
    (fs.insert i d hi name hname kind).resolve follow (p.below [name]) = .ok fs.next := by
  have hadds := @adds_insert fs i name d hi hname kind hnone
  refine resolve_entry ?_ (insert_entry hi hname) ?_ hname
  · rw [hadds.resolve fun _ _ _ herr => by simp [h] at herr, h]
  · rw [insert_next hi hname]
    cases kind <;> rfl

theorem isName_of_mem_listing {d : Directory} (h : name ∈ d.listing) : IsName name := by
  obtain ⟨e, he, rfl⟩ := List.mem_map.mp ((List.perm_insertionSort _ _).mem_iff.mp h)
  exact d.names e he

theorem setFile_of_ne {content : List UInt8} {version : ℕ} (h : j ≠ i) :
    (fs.setFile i content version).node j = fs.node j := by
  simp only [setFile, mapNodes]
  cases fs.node j with
  | none => rfl
  | some node => cases node <;> simp [h]

theorem setFile_self {content content' : List UInt8} {version version' : ℕ}
    (h : fs.node i = some (.file content version)) :
    (fs.setFile i content' version').node i = some (.file content' version') := by
  simp [setFile, mapNodes, h]

/-- The copy of a file. -/
theorem copied_file {d : Directory} {content : List UInt8} {version version' : ℕ} {hX : fs.node X = some (.dir d)}
    {hname : IsName name} (hp : fs.resolve true p = .ok i) (hi : fs.node i = some (.file content version))
    (hnone : d.lookup name = none) :
    Copied fs X [(p, name)] ((fs.insert X d hX name hname .file).setFile fs.next content version') := by
  have hlt : X < fs.next := lt_next_of_isSome (by rw [hX]; rfl)
  have hadds : Adds fs X (· ∈ [(p, name)].map Prod.snd) (fs.insert X d hX name hname .file) := by
    simpa using @adds_insert fs X name d hX hname .file hnone
  refine ⟨hadds.trans_same rfl rfl le_rfl fun j hj => ?_, fun N hN h => grown_setFile (grown_insert h), fun e he => ?_⟩
  · rw [setFile_of_ne (by omega)]
  · obtain rfl := List.mem_singleton.mp he
    have hnew : (fs.insert X d hX name hname .file).node fs.next = some (.file [] 1) := insert_next hX hname
    have hself := @setFile_self _ _ _ content _ version' hnew
    refine ⟨fs.next, le_rfl, ?_, fun names hnames => ?_⟩
    · rw [entry, setFile_of_ne (by omega)]
      exact fs.insert_entry hX hname
    · cases names with
      | nil => simp [viewBelow, hself, FileSystem.view, hp, seen, hi, Node.view?]
      | cons c rest =>
        have hc := (List.forall_mem_cons.mp hnames).1
        rw [viewBelow, view_below_none hp hc]
        · simp [entry, hself, Node.dir?]
        · simp [entry, hi, Node.dir?]

/-- The copy of a directory: what is in it is copied into a new one. -/
theorem copied_dir {d dir : Directory} {hX : fs.node X = some (.dir d)} {hname : IsName name}
    (hp : fs.resolve true p = .ok i) (hi : fs.node i = some (.dir dir)) (hnone : d.lookup name = none)
    (hasks : ¬ Asks fs p X name)
    (h : Copied (fs.insert X d hX name hname .dir) fs.next (dir.listing.map fun c => (p.below [c], c)) fs') :
    Copied fs X [(p, name)] fs' := by
  have hlt : X < fs.next := lt_next_of_isSome (by rw [hX]; rfl)
  have hadds : Adds fs X (· ∈ [(p, name)].map Prod.snd) (fs.insert X d hX name hname .dir) := by
    simpa using @adds_insert fs X name d hX hname .dir hnone
  obtain ⟨e, e', he, he', -, hsame, -⟩ := h.adds.dir
  obtain rfl : .empty X = e := by simpa [insert_next, Kind.node] using he
  refine ⟨hadds.trans_new h.adds le_rfl, fun N hN hgrown => h.grown N ?_ (grown_insert hgrown), fun q hq => ?_⟩
  · exact hN.trans (Nat.le_succ _)
  · obtain rfl := List.mem_singleton.mp hq
    refine ⟨fs.next, le_rfl, ?_, fun names hnames => ?_⟩
    · have hnode : fs'.node X = (fs.insert X d hX name hname .dir).node X :=
        h.adds.other X (by simp [insert]; omega) (by omega)
      rw [entry, hnode]
      exact fs.insert_entry hX hname
    · cases names with
      | nil => simp [viewBelow, he', FileSystem.view, hp, seen, hi, Node.view?]
      | cons c rest =>
        obtain ⟨hc, hrest⟩ := List.forall_mem_cons.mp hnames
        have hview : (fs.insert X d hX name hname .dir).view (p.below (c :: rest)) = fs.view (p.below (c :: rest)) := by
          refine hadds.view fun m last hm herr => hasks ?_
          obtain rfl : m = name := by simpa using hm
          exact ⟨_, hnames, last, herr⟩
        rw [viewBelow, entry_dir he']
        by_cases hmem : c ∈ dir.listing
        · obtain ⟨j, -, hj, hbelow⟩ := h.copies (p.below [c], c) (List.mem_map_of_mem hmem)
          rw [entry_dir he'] at hj
          rw [hj, ← hview]
          exact (hbelow rest hrest).trans (by rw [Path.below_below]; rfl)
        · have hout : c ∉ (dir.listing.map fun c => (p.below [c], c)).map Prod.snd := by simpa using hmem
          rw [hsame c hout, view_below_none hp hc]
          · rfl
          · rw [entry_dir hi]
            exact not_not.mp (mem_listing.not.mp hmem)

end Copies

end FileSystem

end Tilbo.Lib.Files
