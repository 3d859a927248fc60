import Tilbo.Fuse.Names
import Tilbo.Lib.Steps

/-! # Lookups in a tag directory that is renamed in

The operations on a tag directory share its cache. Each warms the cache and then reads it, under two acquisitions of
the lock, and a rename that ends in between clears `byName`. A step is what happens under one acquisition, or outside
of it: `no_flicker_iff` says in which runs the lookups of a listed name find its file. -/

namespace Tilbo.Fuse.Flicker

open Tilbo.Lib.Steps Tilbo.Fuse.Names

/-! ### The cache -/

/-- `tagCache`; a nil map is `none`, and `fresh` says that the expiry lies ahead. -/
structure Cache where
  entries : List TagCacheEntry := []
  byName : Option (String → Option ℕ) := none
  fresh : Bool := false

namespace Cache

variable (c : Cache)

/-- `valid`. -/
def valid : Bool := c.byName.isSome && c.fresh

/-- `fill`, on the paths of the results. -/
def filled (results : List String) (allocIno : String → UInt64) : Cache :=
  ⟨(fill results allocIno).entries, some (fill results allocIno).byName, true⟩

/-- `invalidate`. -/
def invalidate : Cache := { c with byName := none }

/-- What comes of reading the entry of a name. -/
inductive Read where
  | absent
  | outOfRange
  | entry (e : TagCacheEntry)

/-- `idx, ok := byName[name]`, and `entries[idx]` if there is one. -/
def read (name : String) : Read :=
  match c.byName.bind fun byName => byName name with
  | none => .absent
  | some idx =>
    match c.entries[idx]? with
    | none => .outOfRange
    | some e => .entry e

end Cache

/-! ### Operations -/

/-- What the kernel asks of the directory. -/
inductive Op where
  | lookup (name : String)
  | readdir
  | rename (name : String)

/-- What an operation returns; the last is a panic. -/
inductive Outcome where
  | ok
  | listing (names : List String)
  | enoent
  | eio
  | refused
  | outOfRange

/-- How far an operation is. -/
inductive Phase where
  | idle
  /-- Before the first check of `warmCache`. -/
  | starting (op : Op)
  /-- The cache was not valid. -/
  | missed (op : Op)
  /-- `warmCache` has returned. -/
  | warmed (op : Op)
  /-- Before the `Lstat` of a lookup. -/
  | found (name : String) (e : TagCacheEntry)
  /-- A rename knows its file. -/
  | retagging (name : String)

/-- The directory: its cache, the operations under way, and what was returned so far. -/
structure State (ι : Type) where
  cache : Cache
  phase : ι → Phase
  returned : List (Op × Outcome)

variable {ι : Type} [DecidableEq ι]

/-- Nothing was asked yet. -/
def State.start : State ι := ⟨{}, fun _ => .idle, []⟩

def State.goto (s : State ι) (t : ι) (phase : Phase) : State ι := { s with phase := Function.update s.phase t phase }

/-- An operation returns. -/
def State.finish (s : State ι) (t : ι) (op : Op) (outcome : Outcome) : State ι :=
  { s.goto t .idle with returned := s.returned ++ [(op, outcome)] }

/-- What an operation does with the cache when it is warm. -/
def State.read (s : State ι) (t : ι) (op : Op) : State ι :=
  match op with
  | .readdir => s.finish t op (.listing (s.cache.entries.map TagCacheEntry.name))
  | .lookup name =>
    match s.cache.read name with
    | .absent => s.finish t op .enoent
    | .outOfRange => s.finish t op .outOfRange
    | .entry e => s.goto t (.found name e)
  | .rename name =>
    match s.cache.read name with
    | .absent => s.finish t op .enoent
    | .outOfRange => s.finish t op .outOfRange
    | .entry e => if e.realPath = "" then s.finish t op .enoent else s.goto t (.retagging name)

inductive Action (ι : Type) where
  | call (t : ι) (op : Op)
  | check (t : ι)
  | recheck (t : ι)
  | query (t : ι) (answer : Option (List String)) (allocIno : String → UInt64)
  | read (t : ι)
  | lstat (t : ι) (succeeds : Bool)
  | refuse (t : ι)
  | invalidate (t : ι)
  | invalidated
  | expire

/-- The steps of the directory. -/
inductive Step : State ι → Action ι → State ι → Prop
  | call {s : State ι} {t : ι} {op : Op} (h : s.phase t = .idle) : Step s (.call t op) (s.goto t (.starting op))
  | check {s : State ι} {t : ι} {op : Op} (h : s.phase t = .starting op) :
      Step s (.check t) (s.goto t (if s.cache.valid then .warmed op else .missed op))
  | recheck {s : State ι} {t : ι} {op : Op} (h : s.phase t = .missed op) (hvalid : s.cache.valid = true) :
      Step s (.recheck t) (s.goto t (.warmed op))
  | fill {s : State ι} {t : ι} {op : Op} {results : List String} {allocIno : String → UInt64}
      (h : s.phase t = .missed op) (hvalid : s.cache.valid = false) :
      Step s (.query t (some results) allocIno) ({ s with cache := .filled results allocIno }.goto t (.warmed op))
  | fail {s : State ι} {t : ι} {op : Op} {allocIno : String → UInt64}
      (h : s.phase t = .missed op) (hvalid : s.cache.valid = false) :
      Step s (.query t none allocIno) (s.finish t op .eio)
  | read {s : State ι} {t : ι} {op : Op} (h : s.phase t = .warmed op) : Step s (.read t) (s.read t op)
  | lstat {s : State ι} {t : ι} {name : String} {e : TagCacheEntry} {succeeds : Bool} (h : s.phase t = .found name e) :
      Step s (.lstat t succeeds) (s.finish t (.lookup name) (if succeeds then .ok else .enoent))
  /-- A rename within the directory, or one that special expressions forbid. -/
  | refuse {s : State ι} {t : ι} {name : String} (h : s.phase t = .retagging name) :
      Step s (.refuse t) (s.finish t (.rename name) .refused)
  | invalidate {s : State ι} {t : ι} {name : String} (h : s.phase t = .retagging name) :
      Step s (.invalidate t) ({ s with cache := s.cache.invalidate }.finish t (.rename name) .ok)
  /-- A file was moved into the directory from another one. -/
  | invalidated {s : State ι} : Step s .invalidated { s with cache := s.cache.invalidate }
  | expire {s : State ι} : Step s .expire { s with cache := { s.cache with fresh := false } }

/-! ### Lookups of a listed name -/

/-- Every query lists a file under the name, and the file exists. -/
def Stays (name file : String) (s : State ι) : Action ι → Prop
  | .query _ (some results) allocIno => ∃ e ∈ (fill results allocIno).entries, e.name = name ∧ e.realPath = file
  | .lstat t succeeds => ∀ name' e, s.phase t = .found name' e → e.realPath = file → succeeds = true
  | _ => True

/-- The cache was filled since it was last cleared when a lookup of the name reads it; and where the name leads to
another file, that one exists too. -/
def Undisturbed (name file : String) (s : State ι) : Action ι → Prop
  | .read t => s.phase t = .warmed (.lookup name) → s.cache.byName ≠ none
  | .lstat t succeeds => ∀ e, s.phase t = .found name e → e.realPath ≠ file → succeeds = true
  | _ => True

/-- No lookup of the name has failed to find it. -/
def NoFlicker (name : String) (s : State ι) : Prop := (.lookup name, .enoent) ∉ s.returned

/-- No operation has read behind the end of the entries. -/
def InRange (s : State ι) : Prop := ∀ op, (op, .outOfRange) ∉ s.returned

/-- What the cache knows of the name while every query lists it. -/
structure Knows (name : String) (c : Cache) : Prop where
  indexed : ∀ byName, c.byName = some byName → Indexed ⟨c.entries, byName⟩
  listed : ∀ byName, c.byName = some byName → byName name ≠ none

section Steps

variable {name file : String} {s s' : State ι} {a : Action ι} {t : ι} {op : Op} {c : Cache}

theorem Knows.filled {results : List String} {allocIno : String → UInt64}
    (h : ∃ e ∈ (fill results allocIno).entries, e.name = name ∧ e.realPath = file) :
    Knows name (.filled results allocIno) := by
  obtain ⟨e, he, rfl, -⟩ := h
  refine ⟨fun byName hby => ?_, fun byName hby => ?_⟩
  all_goals
    obtain rfl : (fill results allocIno).byName = byName := Option.some_inj.mp hby
  · exact indexed_fill
  · exact indexed_fill.complete e he

/-- A cache without a map. -/
theorem knows_of_none (h : c.byName = none) : Knows name c := by
  constructor
  all_goals
    intro byName hby
    rw [h] at hby
    cases hby

/-- A name that is in the map has its entry. -/
theorem Knows.read (h : Knows name c) (name' : String) : c.read name' ≠ .outOfRange := by
  unfold Cache.read
  cases hindex : c.byName.bind fun byName => byName name' with
  | none => simp
  | some idx =>
    obtain ⟨byName, hby, hidx⟩ := Option.bind_eq_some_iff.mp hindex
    obtain ⟨e, he, -⟩ := (h.indexed byName hby).sound name' idx hidx
    simp only at he
    simp [he]

/-- The name is found exactly while there is a map. -/
theorem Knows.read_absent_iff (h : Knows name c) : c.read name = .absent ↔ c.byName = none := by
  constructor
  · intro habsent
    cases hby : c.byName with
    | none => rfl
    | some byName =>
      obtain ⟨idx, hidx⟩ := Option.ne_none_iff_exists'.mp (h.listed byName hby)
      obtain ⟨e, he, -⟩ := (h.indexed byName hby).sound name idx hidx
      simp only at he
      simp [Cache.read, hby, hidx, he] at habsent
  · intro hnone
    simp [Cache.read, hnone]

@[simp] theorem cache_goto {phase : Phase} : (s.goto t phase).cache = s.cache := rfl

@[simp] theorem returned_goto {phase : Phase} : (s.goto t phase).returned = s.returned := rfl

@[simp] theorem cache_finish {outcome : Outcome} : (s.finish t op outcome).cache = s.cache := rfl

@[simp] theorem returned_finish {outcome : Outcome} :
    (s.finish t op outcome).returned = s.returned ++ [(op, outcome)] := rfl

theorem cache_read : (s.read t op).cache = s.cache := by
  cases op with
  | readdir => rfl
  | lookup name =>
    rw [State.read]
    split <;> rfl
  | rename name =>
    rw [State.read]
    split
    · rfl
    · rfl
    · split_ifs <;> rfl

/-- A reading operation fails to find the name if there is no map, and then only. -/
theorem noFlicker_read_iff (h : Knows name s.cache) :
    NoFlicker name (s.read t op) ↔ NoFlicker name s ∧ (op = .lookup name → s.cache.byName ≠ none) := by
  unfold NoFlicker
  cases op with
  | readdir => simp [State.read]
  | lookup name' =>
    rw [State.read]
    cases hread : s.cache.read name' with
    | outOfRange => exact absurd hread (h.read name')
    | absent =>
      by_cases hname : name' = name
      · subst hname
        simp [h.read_absent_iff.mp hread]
      · simp [hname, Ne.symm hname]
    | entry e =>
      refine ⟨fun hnot => ⟨hnot, ?_⟩, fun hnot => hnot.1⟩
      rintro ⟨rfl⟩ hnone
      rw [h.read_absent_iff.mpr hnone] at hread
      cases hread
  | rename name' =>
    rw [State.read]
    cases s.cache.read name' with
    | outOfRange => simp
    | absent => simp
    | entry e =>
      dsimp only
      split_ifs <;> simp

theorem inRange_read (h : Knows name s.cache) (hrange : InRange s) : InRange (s.read t op) := by
  have hfinish : ∀ outcome, outcome ≠ .outOfRange → InRange (s.finish t op outcome) := by
    intro outcome hne op' hmem
    rcases List.mem_append.mp hmem with hmem | hmem
    · exact hrange op' hmem
    · exact hne (Prod.mk.inj (List.mem_singleton.mp hmem)).2.symm
  cases op with
  | readdir => exact hfinish _ (by simp)
  | lookup name' =>
    rw [State.read]
    cases hread : s.cache.read name' with
    | outOfRange => exact absurd hread (h.read name')
    | absent => exact hfinish _ (by simp)
    | entry e => exact hrange
  | rename name' =>
    rw [State.read]
    cases hread : s.cache.read name' with
    | outOfRange => exact absurd hread (h.read name')
    | absent => exact hfinish _ (by simp)
    | entry e =>
      dsimp only
      split_ifs
      · exact hfinish _ (by simp)
      · exact hrange

/-! ### One step -/

/-- The cache keeps knowing the name. -/
theorem Knows.step (h : Knows name s.cache) (ha : Stays name file s a) (hstep : Step s a s') : Knows name s'.cache := by
  cases hstep with
  | fill hphase hvalid => exact .filled ha
  | invalidate | invalidated => exact knows_of_none rfl
  | read hphase => rwa [cache_read]
  | expire => exact ⟨h.indexed, h.listed⟩
  | _ => exact h

/-- No step reads behind the entries. -/
theorem inRange_step (h : Knows name s.cache) (hrange : InRange s) (hstep : Step s a s') : InRange s' := by
  cases hstep with
  | read hphase => exact inRange_read h hrange
  | @lstat t name e succeeds hphase =>
    intro op hmem
    rcases List.mem_append.mp hmem with hmem | hmem
    · exact hrange op hmem
    · cases succeeds <;> simp at hmem
  | fail | refuse | invalidate =>
    intro op hmem
    rcases List.mem_append.mp hmem with hmem | hmem
    · exact hrange op hmem
    · simp at hmem
  | _ => exact hrange

/-- A step makes a lookup of the name fail exactly if it is a disturbed one. -/
theorem noFlicker_step_iff (h : Knows name s.cache) (ha : Stays name file s a) (hstep : Step s a s') :
    NoFlicker name s' ↔ NoFlicker name s ∧ Undisturbed name file s a := by
  cases hstep with
  | @read t op hphase =>
    rw [noFlicker_read_iff h, Undisturbed, hphase, Phase.warmed.injEq]
  | @lstat t name' e succeeds hphase =>
    simp only [NoFlicker, Undisturbed]
    rw [hphase, returned_finish, List.mem_append, not_or, List.mem_singleton, Prod.mk.injEq, Op.lookup.injEq]
    refine and_congr_right fun _ => ?_
    constructor
    · intro hnot e' he' _
      obtain ⟨rfl, rfl⟩ := Phase.found.inj he'
      by_contra hfails
      exact hnot ⟨rfl, by rw [if_neg hfails]⟩
    · rintro hother ⟨rfl, hfails⟩
      have hfalse : ¬ succeeds = true := fun hok => by rw [if_pos hok] at hfails; cases hfails
      by_cases hfile : e.realPath = file
      · exact hfalse (ha _ e hphase hfile)
      · exact hfalse (hother e rfl hfile)
  | fail | refuse | invalidate =>
    unfold NoFlicker
    rw [returned_finish]
    simp [Undisturbed]
  | _ => exact ⟨fun h => ⟨h, trivial⟩, fun h => h.1⟩

/-! ### Runs -/

/-- What holds in every state that a run reaches. -/
theorem knows_of_runs {tr : List (State ι × Action ι)} (hrun : Runs Step .start tr s)
    (hstays : Meets (Stays name file) tr) : Knows name s.cache ∧ InRange s :=
  hrun.invariant (fun s => Knows name s.cache ∧ InRange s) hstays
    ⟨knows_of_none rfl, fun _ => List.not_mem_nil⟩
    fun _ _ _ h ha hstep => ⟨h.1.step ha hstep, inRange_step h.1 h.2 hstep⟩

/-- **When lookups of a listed name do not flicker.** In a run in which every query lists the file under the name and
the file exists: exactly if no lookup of the name reads a cache that was cleared and not filled again, and none is led
to another file that is gone. No operation ever reads behind the entries. -/
theorem no_flicker_iff {tr : List (State ι × Action ι)} (hrun : Runs Step .start tr s)
    (hstays : Meets (Stays name file) tr) :
    (NoFlicker name s ∧ InRange s) ↔ Meets (Undisturbed name file) tr := by
  rw [and_iff_left (knows_of_runs hrun hstays).2]
  induction hrun with
  | nil => exact ⟨fun _ => .nil, fun _ => List.not_mem_nil⟩
  | @snoc tr s s' a before last ih =>
    obtain ⟨hbefore, hlast⟩ := meets_snoc_iff.mp hstays
    have hknows := (knows_of_runs before hbefore).1
    rw [noFlicker_step_iff hknows hlast last, ih hbefore, meets_snoc_iff]

end Steps

/-! ### A rename of another file -/

/-- Two files of the directory. -/
def twoFiles : List String := ["/f/a.txt", "/f/b.txt"]

theorem twoFiles_listed : ∃ e ∈ (fill twoFiles fun _ => 1).entries, e.name = "a.txt" ∧ e.realPath = "/f/a.txt" :=
  ⟨⟨"a.txt", "/f/a.txt", 1⟩, by decide, rfl, rfl⟩

/-- A rename has warmed the cache and knows its file, and a lookup of the other file finds the cache valid. -/
theorem lookup_warmed : ∃ (tr : List (State Bool × Action Bool)) (s : State Bool), Runs Step .start tr s ∧
    Meets (Stays "a.txt" "/f/a.txt") tr ∧ Meets (Undisturbed "a.txt" "/f/a.txt") tr ∧
    s.cache = .filled twoFiles (fun _ => 1) ∧ s.phase false = .retagging "b.txt" ∧
    s.phase true = .warmed (.lookup "a.txt") := by
  refine ⟨_, _, (((((Runs.nil.snoc (@Step.call Bool _ _ false (.rename "b.txt") rfl)).snoc
    (@Step.check Bool _ _ false _ rfl)).snoc (@Step.fill Bool _ _ false _ twoFiles (fun _ => 1) rfl rfl)).snoc
    (@Step.read Bool _ _ false _ rfl)).snoc (@Step.call Bool _ _ true (.lookup "a.txt") rfl)).snoc
    (@Step.check Bool _ _ true _ rfl), ?_, ?_, rfl, rfl, rfl⟩
  · simp only [meets_snoc_iff]
    exact ⟨⟨⟨⟨⟨⟨.nil, trivial⟩, trivial⟩, twoFiles_listed⟩, trivial⟩, trivial⟩, trivial⟩
  · simp only [meets_snoc_iff]
    exact ⟨⟨⟨⟨⟨⟨.nil, trivial⟩, trivial⟩, trivial⟩, fun h => by cases h⟩, trivial⟩, trivial⟩

/-- **A lookup flickers.** The rename clears the cache before the lookup reads it. -/
theorem renamed_flickers : ∃ (tr : List (State Bool × Action Bool)) (s : State Bool), Runs Step .start tr s ∧
    Meets (Stays "a.txt" "/f/a.txt") tr ∧ ¬ NoFlicker "a.txt" s := by
  obtain ⟨tr, s, hrun, hstays, -, -, hrename, hlookup⟩ := lookup_warmed
  have hread : (({ s with cache := s.cache.invalidate }.finish false (.rename "b.txt") .ok).read true
      (.lookup "a.txt")).returned = s.returned ++ [(.rename "b.txt", .ok)] ++ [(.lookup "a.txt", .enoent)] := rfl
  refine ⟨_, _, (hrun.snoc (.invalidate hrename)).snoc (.read (t := true) hlookup), ?_, fun hnot => hnot ?_⟩
  · simp only [meets_snoc_iff]
    exact ⟨⟨hstays, trivial⟩, trivial⟩
  · rw [hread]
    simp

/-- Without the rename the lookup finds the file. -/
theorem no_flicker_iff_found : ∃ (tr : List (State Bool × Action Bool)) (s : State Bool), Runs Step .start tr s ∧
    Meets (Stays "a.txt" "/f/a.txt") tr ∧ NoFlicker "a.txt" s ∧ InRange s := by
  obtain ⟨tr, s, hrun, hstays, hundisturbed, hcache, -, hlookup⟩ := lookup_warmed
  have hfound : (s.read true (.lookup "a.txt")).phase true = .found "a.txt" ⟨"a.txt", "/f/a.txt", 1⟩ := by
    have hentry : s.cache.read "a.txt" = .entry ⟨"a.txt", "/f/a.txt", 1⟩ := by rw [hcache]; rfl
    rw [State.read]
    simp [hentry, State.goto]
  have hrun' := (hrun.snoc (.read (t := true) hlookup)).snoc (@Step.lstat Bool _ _ true _ _ true hfound)
  have hstays' : Meets (Stays "a.txt" "/f/a.txt") (tr ++ [(s, .read true)] ++
      [(s.read true (.lookup "a.txt"), .lstat true true)]) := by
    simp only [meets_snoc_iff]
    exact ⟨⟨hstays, trivial⟩, fun _ _ _ _ => rfl⟩
  refine ⟨_, _, hrun', hstays', (no_flicker_iff hrun' hstays').mpr ?_⟩
  simp only [meets_snoc_iff]
  exact ⟨⟨hundisturbed, fun _ hnone => by rw [hcache] at hnone; cases hnone⟩, fun _ _ _ => rfl⟩

end Tilbo.Fuse.Flicker
