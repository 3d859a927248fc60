import Tilbo.Lib.Process
import Tilbo.Rules.Engine
import Mathlib.Data.List.Sort

/-! # Loading the rules

`Engine.Reset` and `Engine.Register`, the registry that registers the rules of the rule files and of the
configuration one by one, and a reload, which resets the engine first. Reloads may overlap: each is a process
whose calls are the steps on the shared engine.

`reloads_settle_iff` says when the engine is left with one set of rules: no rule is registered after the last
reset but by the reload that did it. -/

namespace Tilbo.Rules.Registry

open Tilbo.Rules.Engine Tilbo.Harvester.Meta Tilbo.Lib.Txn Tilbo.Lib.Process Tilbo.Lib.Process.Proc

variable {F ι : Type}

/-! ### The engine -/

/-- `Engine.Register`; `sort` stands for `sort.Slice` by ascending priority. -/
def register (sort : List (Rule F) → List (Rule F)) (rules : List (Rule F)) (rule : Rule F) : List (Rule F) :=
  sort (rules ++ [rule])

/-- A step on the engine, or on the closers of a registry. -/
inductive Step (F : Type) where
  | reset
  | register (rule : Rule F)
  | close

/-- What a step does to the rules of the engine. -/
def Step.apply (sort : List (Rule F) → List (Rule F)) (rules : List (Rule F)) : Step F → List (Rule F)
  | .reset => []
  | .register rule => Registry.register sort rules rule
  | .close => rules

/-! ### The registry -/

/-- `RuleDef`; `cond` is what `parseMatchCond` makes of the fields of `Match`, or the field it refuses. -/
structure RuleDef (F : Type) where
  name : String
  tags : List String
  priority : ℤ
  cond : Except String (MetaMap F → Bool)

/-- A rule file, or the entry of a directory that is none. -/
inductive RuleFile (F : Type) where
  /-- The definitions, if the file can be decoded. -/
  | toml (defs : Option (List (RuleDef F)))
  /-- The rule, if the script can be read. -/
  | lua (rule : Option (Rule F))
  /-- The rule, if the module can be compiled. -/
  | wasm (rule : Option (Rule F))
  | skipped

/-- What `os.ReadDir` gives for a directory. -/
inductive RuleDir (F : Type) where
  | missing
  | unreadable
  | entries (files : List (RuleFile F))

/-- What the rules are loaded from. -/
structure RuleFiles (F : Type) where
  dirs : List (RuleDir F)
  /-- `config.Load`. -/
  config : Option (List (RuleDef F))

inductive LoadError where
  | missingName (number : ℕ)
  | badField (rule field : String)
  | decode
  | script
  | readDir
  | config
deriving DecidableEq, Repr

/-- A part of a reload. -/
abbrev Loading (F α : Type) : Type := Proc (List (Rule F)) (Step F) LoadError α

variable (sort : List (Rule F) → List (Rule F))

/-- One step on the engine, under its lock. -/
def step (s : Step F) : Loading F Unit := atom (fun _ => s) (Prog.modify fun rules => s.apply sort rules)

/-- The loop of `registerDefs`. -/
def registerDefs : ℕ → List (RuleDef F) → Loading F Unit
  | _, [] => return ()
  | i, d :: defs =>
    if d.name = "" then fail (.missingName (i + 1))
    -- A rule without tags can add none.
    else if d.tags = [] then registerDefs (i + 1) defs
    else match d.cond with
      | .error field => fail (.badField d.name field)
      | .ok cond => do
        step sort (.register ⟨d.name, d.priority, fun md => some (if cond md then d.tags else [])⟩)
        registerDefs (i + 1) defs

/-- `loadTOML`, `loadLua` and `loadWASM`. -/
def loadFile : RuleFile F → Loading F Unit
  | .toml none => fail .decode
  | .toml (some defs) => registerDefs sort 0 defs
  | .lua none | .wasm none => fail .script
  | .lua (some rule) | .wasm (some rule) => step sort (.register rule)
  | .skipped => return ()

/-- `Registry.Load`: a file that cannot be loaded is skipped. -/
def load (dirs : List (RuleDir F)) : Loading F Unit :=
  each (fun
    | .missing => return ()
    | .unreadable => fail .readDir
    | .entries files => each (fun file => do
        let _ ← (attempt (loadFile sort file) : Loading F (Except LoadError Unit))) files) dirs

/-- `config.Load` and `Registry.LoadInline`. -/
def loadInline : Option (List (RuleDef F)) → Loading F Unit
  | none => fail .config
  | some defs => registerDefs sort 0 defs

/-- Who asks for a reload. -/
inductive Kind where
  /-- A `ReloadRules` request. -/
  | request
  /-- A `SIGHUP`. -/
  | sighup
deriving DecidableEq

/-- A reload: the handler of `ReloadRules`, or `reloadConfig`, which closes the registry of the start first. -/
def reload (files : RuleFiles F) (kind : Kind) : Loading F Unit := do
  match kind with
  | .request => pure ()
  | .sighup => step sort .close
  step sort .reset
  let _ ← (attempt (load sort files.dirs) : Loading F (Except LoadError Unit))
  let _ ← (attempt (loadInline sort files.config) : Loading F (Except LoadError Unit))

/-! ### What a reload registers -/

/-- The rules of some definitions: those before the first one that is refused. -/
def defRules : List (RuleDef F) → List (Rule F)
  | [] => []
  | d :: defs =>
    if d.name = "" then []
    else if d.tags = [] then defRules defs
    else match d.cond with
      | .error _ => []
      | .ok cond => ⟨d.name, d.priority, fun md => some (if cond md then d.tags else [])⟩ :: defRules defs

def RuleFile.rules : RuleFile F → List (Rule F)
  | .toml defs => defRules (defs.getD [])
  | .lua rule | .wasm rule => rule.toList
  | .skipped => []

/-- The rules of some directories: those before the first one that cannot be read. -/
def dirRules : List (RuleDir F) → List (Rule F)
  | [] => []
  | .missing :: dirs => dirRules dirs
  | .unreadable :: _ => []
  | .entries files :: dirs => files.flatMap RuleFile.rules ++ dirRules dirs

/-- The rules of the files, in the order in which they are registered. -/
def RuleFiles.rules (files : RuleFiles F) : List (Rule F) :=
  dirRules files.dirs ++ defRules (files.config.getD [])

/-- The steps of a reload. -/
def Kind.steps (files : RuleFiles F) : Kind → List (Step F)
  | .request => .reset :: files.rules.map .register
  | .sighup => .close :: .reset :: files.rules.map .register

/-- The protocol of a process that takes these steps, whatever the others do. -/
def taking : Protocol (List (Step F)) (List (Rule F)) (Step F) where
  advance left _ := left.tail
  allowed left rules s rules' := left.head? = some s ∧ rules' = s.apply sort rules

/-- The process registers these rules. -/
def Registers (p : Loading F α) (rules : List (Rule F)) : Prop :=
  ∀ rest, Follows (taking sort) p (fun _ left => left = rest) (rules.map .register ++ rest)

variable {sort} {α β : Type}

theorem follows_step {s : Step F} {rest : List (Step F)} :
    Follows (taking sort) (step sort s) (fun r left => r = .ok () ∧ left = rest) (s :: rest) :=
  follows_atom fun _ => ⟨⟨rfl, rfl⟩, rfl, rfl⟩

theorem registers_none {p : Loading F α} (hp : ∃ r, p = .done r) : Registers sort p [] := by
  obtain ⟨r, rfl⟩ := hp
  exact fun rest => rfl

/-- A step, and the rest. -/
theorem follows_step_then {s : Step F} {p : Loading F α} {todo : List (Step F)}
    {Q : Except LoadError α → List (Step F) → Prop} (hp : Follows (taking sort) p Q todo) :
    Follows (taking sort) (do step sort s; p) Q (s :: todo) := by
  refine follows_andThen (follows_step.mono ?_)
  rintro r left ⟨rfl, rfl⟩
  exact hp

theorem registers_defs (defs : List (RuleDef F)) (i : ℕ) :
    Registers sort (registerDefs sort i defs) (defRules defs) := by
  induction defs generalizing i with
  | nil => exact registers_none ⟨_, rfl⟩
  | cons d defs ih =>
    rw [registerDefs, defRules]
    split_ifs
    · exact registers_none ⟨_, rfl⟩
    · exact ih (i + 1)
    · cases d.cond with
      | error field => exact registers_none ⟨_, rfl⟩
      | ok cond => exact fun rest => follows_step_then (ih (i + 1) rest)

theorem registers_file (file : RuleFile F) : Registers sort (loadFile sort file) file.rules := by
  have hstep : ∀ rule : Rule F, Registers sort (step sort (.register rule)) [rule] :=
    fun rule rest => follows_step.mono fun _ _ h => h.2
  cases file with
  | toml defs =>
    cases defs with
    | none => exact registers_none ⟨_, rfl⟩
    | some defs => exact registers_defs defs 0
  | lua rule | wasm rule =>
    cases rule with
    | none => exact registers_none ⟨_, rfl⟩
    | some rule => exact hstep rule
  | skipped => exact registers_none ⟨_, rfl⟩

/-- An attempt, and the rest. -/
theorem follows_attempt_then {p : Loading F α} {k : Except LoadError α → Loading F β} {rules : List (Rule F)}
    {todo : List (Step F)} {Q : Except LoadError β → List (Step F) → Prop} (hp : Registers sort p rules)
    (hk : ∀ r, Follows (taking sort) (k r) Q todo) :
    Follows (taking sort) (attempt p >>= k) Q (rules.map .register ++ todo) := by
  refine follows_andThen (follows_attempt ((hp todo).mono ?_))
  rintro r left rfl
  exact hk r

theorem follows_files (files : List (RuleFile F)) (rest : List (Step F)) :
    Follows (taking sort) (each (fun file => do
        let _ ← (attempt (loadFile sort file) : Loading F (Except LoadError Unit))) files)
      (fun r left => r = .ok () ∧ left = rest) ((files.flatMap RuleFile.rules).map .register ++ rest) := by
  induction files with
  | nil => exact ⟨rfl, rfl⟩
  | cons file files ih =>
    refine follows_andThen ?_
    rw [List.flatMap_cons, List.map_append, List.append_assoc]
    exact follows_attempt_then (registers_file file) fun _ => ih

theorem registers_load (dirs : List (RuleDir F)) : Registers sort (load sort dirs) (dirRules dirs) := by
  induction dirs with
  | nil => exact registers_none ⟨_, rfl⟩
  | cons dir dirs ih =>
    intro rest
    cases dir with
    | missing => exact ih rest
    | unreadable => exact rfl
    | entries files =>
      rw [dirRules, List.map_append, List.append_assoc]
      refine follows_andThen ((follows_files files _).mono ?_)
      rintro r left ⟨rfl, rfl⟩
      exact ih rest

theorem registers_inline (config : Option (List (RuleDef F))) :
    Registers sort (loadInline sort config) (defRules (config.getD [])) := by
  cases config with
  | none => exact registers_none ⟨_, rfl⟩
  | some defs => exact registers_defs defs 0

/-- **A reload takes its steps**, whatever the others do in between. -/
theorem follows_reload (files : RuleFiles F) (kind : Kind) :
    Follows (taking sort) (reload sort files kind) (fun _ left => left = []) (kind.steps files) := by
  have hrest : Follows (taking sort) (do
      step sort .reset
      let _ ← (attempt (load sort files.dirs) : Loading F (Except LoadError Unit))
      let _ ← (attempt (loadInline sort files.config) : Loading F (Except LoadError Unit)))
      (fun _ left => left = []) (.reset :: files.rules.map .register) := by
    refine follows_step_then ?_
    rw [RuleFiles.rules, List.map_append]
    refine follows_attempt_then (registers_load files.dirs) fun _ => ?_
    rw [← List.append_nil ((defRules _).map _)]
    exact follows_attempt_then (registers_inline files.config) fun _ => rfl
  cases kind with
  | request => exact hrest
  | sighup => exact follows_step_then hrest

/-! ### Reloads at the same time -/

section Reloads
variable {files : RuleFiles F} {kinds : ι → Kind} {start : List (Rule F)} [DecidableEq ι]

/-- Reloads on an engine that has some rules. -/
def reloads (sort : List (Rule F) → List (Rule F)) (files : RuleFiles F) (kinds : ι → Kind) (start : List (Rule F)) :
    Pool ι (List (Rule F)) (Step F) LoadError Unit where
  store := start
  proc i := reload sort files (kinds i)

/-- The engine after a single reload. -/
def afterReload (sort : List (Rule F) → List (Rule F)) (files : RuleFiles F) (start : List (Rule F)) : List (Rule F) :=
  (run (reload sort files .request) ⟨start, []⟩).2.store

/-- The rule a step registers. -/
def Step.rule : Step F → Option (Rule F)
  | .register rule => some rule
  | _ => none

/-- After the last reset no rule is registered but by the reload that did the reset. -/
def Undisturbed (tr : List (ι × Step F)) : Prop :=
  ∀ before i after, tr = before ++ (i, .reset) :: after → (∀ e ∈ after, e.2 ≠ .reset) →
    ∀ e ∈ after, e.2.rule.isSome → e.1 = i

variable {tr : List (ι × Step F)} {T : Pool ι (List (Rule F)) (Step F) LoadError Unit}

/-- Each reload that has ended took its steps, and the engine is what all the steps taken make of it. -/
theorem steps_of_run (hrun : Run (reloads sort files kinds start) tr T) :
    T.store = (tr.map Prod.snd).foldl (Step.apply sort) start ∧
      ∀ i, (T.proc i).result.isSome → history i tr = (kinds i).steps files := by
  have hinv := hrun.invariant (P := fun _ : ι => taking sort)
    (fun tr rules => rules = (tr.map Prod.snd).foldl (Step.apply sort) start ∧
      ∀ i, history i tr ++ (taking sort).phase ((kinds i).steps files) i tr = (kinds i).steps files)
    (fun i => follows_reload files (kinds i)) ⟨rfl, fun _ => rfl⟩ ?_
  · obtain ⟨⟨hstore, hleft⟩, hfollows⟩ := hinv
    refine ⟨hstore, fun i hi => ?_⟩
    obtain ⟨r, hr⟩ := Option.isSome_iff_exists.mp hi
    have hdone : (taking sort).phase ((kinds i).steps files) i tr = [] := (hfollows i).result hr
    rw [← hleft i, hdone, List.append_nil]
  · rintro tr i s rules rules' ⟨hhead, rfl⟩ ⟨hstore, hleft⟩
    refine ⟨by simp [hstore], fun j => ?_⟩
    by_cases hij : i = j
    · subst hij
      rw [Protocol.phase_self, history_append, List.append_assoc]
      refine Eq.trans (congrArg _ ?_) (hleft i)
      cases hphase : (taking sort).phase ((kinds i).steps files) i tr with
      | nil => rw [hphase] at hhead; cases hhead
      | cons s' left =>
        rw [hphase] at hhead
        obtain rfl := Option.some.inj hhead
        simp [history, taking]
    · rw [Protocol.phase_other hij, history_append]
      simpa [history, hij] using hleft j

/-- A step, if there is one, is taken for the last time. -/
theorem exists_last {α : Type} {p : α → Prop} [DecidablePred p] {l : List α} (h : ∃ a ∈ l, p a) :
    ∃ before a after, l = before ++ a :: after ∧ p a ∧ ∀ b ∈ after, ¬ p b := by
  induction l with
  | nil => simp at h
  | cons c l ih =>
    by_cases hl : ∃ a ∈ l, p a
    · obtain ⟨before, a, after, rfl, ha, hafter⟩ := ih hl
      exact ⟨c :: before, a, after, rfl, ha, hafter⟩
    · obtain ⟨a, ha, hpa⟩ := h
      rcases List.mem_cons.mp ha with rfl | ha
      · exact ⟨[], a, l, rfl, hpa, fun b hb hpb => hl ⟨b, hb, hpb⟩⟩
      · exact absurd ⟨a, ha, hpa⟩ hl

/-- Steps without a reset register their rules one after the other. -/
theorem apply_rules {steps : List (Step F)} (hsteps : ∀ s ∈ steps, s ≠ .reset) (rules : List (Rule F)) :
    steps.foldl (Step.apply sort) rules = (steps.filterMap Step.rule).foldl (register sort) rules := by
  induction steps generalizing rules with
  | nil => rfl
  | cons s steps ih =>
    have ih := fun rules => ih (fun s hs => hsteps s (List.mem_cons_of_mem _ hs)) rules
    cases s with
    | reset => exact absurd rfl (hsteps _ (List.mem_cons_self ..))
    | register rule => exact ih _
    | close => exact ih rules

/-- Registering permutes the rules at most. -/
theorem register_perm (hsort : ∀ l, (sort l).Perm l) (rules : List (Rule F)) (l : List (Rule F)) :
    (l.foldl (register sort) rules).Perm (rules ++ l) := by
  induction l generalizing rules with
  | nil => rw [List.append_nil]; rfl
  | cons rule l ih =>
    refine (ih _).trans ?_
    rw [List.append_cons]
    exact (hsort _).append_right l

/-- Elements without an image can be left out. -/
theorem filterMap_left_out {α β : Type} {p : α → Bool} {f : α → Option β} {l : List α} :
    (l.filter p).filterMap f = l.filterMap f ↔ ∀ a ∈ l, (f a).isSome → p a := by
  induction l with
  | nil => simp
  | cons a l ih =>
    have hle : ((l.filter p).filterMap f).length ≤ (l.filterMap f).length :=
      (List.filter_sublist.filterMap f).length_le
    cases hp : p a with
    | true => cases hf : f a <;> simp [hp, hf, ih]
    | false =>
      cases hf : f a with
      | none => simp [hp, hf, ih]
      | some b =>
        refine iff_of_false (fun h => ?_) fun h => ?_
        · have hlen := congrArg List.length h
          simp only [List.filter_cons, hp, hf, List.filterMap_cons, List.length_cons] at hlen
          simp at hlen
          omega
        · have ha := h a (List.mem_cons_self ..) (by rw [hf]; rfl)
          rw [hp] at ha
          cases ha

/-- A process that takes its steps, run alone. -/
theorem run_taking {p : Loading F α} {todo : List (Step F)} {c : Conn (List (Rule F))}
    (hp : Follows (taking sort) p (fun _ left => left = []) todo) :
    (run p c).2.store = todo.foldl (Step.apply sort) c.store := by
  induction p generalizing todo c with
  | done r =>
    have htodo : todo = [] := hp
    rw [htodo]
    rfl
  | call label next k ih =>
    obtain ⟨⟨hhead, hnext⟩, hk⟩ := hp c
    cases todo with
    | nil => cases hhead
    | cons s todo =>
      obtain rfl := Option.some.inj hhead
      rw [List.foldl_cons, ← hnext]
      exact ih c hk

theorem afterReload_eq : afterReload sort files start = files.rules.foldl (register sort) [] := by
  have hnone : ∀ s ∈ files.rules.map Step.register, s ≠ .reset := by simp
  have hrules : (files.rules.map Step.register).filterMap Step.rule = files.rules := by
    simp [List.filterMap_map, Function.comp_def, Step.rule]
  rw [afterReload, run_taking (follows_reload files .request)]
  show (files.rules.map Step.register).foldl (Step.apply sort) [] = _
  rw [apply_rules hnone, hrules]

/-- The rules of the engine are those registered since the last reset, and the reload that did it registered
each rule of the files. -/
theorem rules_of_run (hrun : Run (reloads sort files kinds start) tr T) (hdone : ∀ i, (T.proc i).result.isSome)
    {before after : List (ι × Step F)} {i : ι} (htr : tr = before ++ (i, .reset) :: after)
    (hlast : ∀ e ∈ after, e.2 ≠ .reset) :
    T.store = (after.filterMap fun e => e.2.rule).foldl (register sort) [] ∧
      (after.filter fun e => e.1 = i).filterMap (fun e => e.2.rule) = files.rules := by
  obtain ⟨hstore, hsteps⟩ := steps_of_run hrun
  constructor
  · have hnone : ∀ s ∈ after.map Prod.snd, s ≠ .reset := List.forall_mem_map.mpr hlast
    rw [hstore, htr, List.map_append, List.foldl_append, List.map_cons, List.foldl_cons, Step.apply,
      apply_rules hnone, List.filterMap_map]
    rfl
  · have hi := hsteps i (hdone i)
    have hown : history i tr = history i before ++ .reset :: history i after := by
      rw [htr, history_append]
      simp [history]
    have hnone : Step.reset ∉ files.rules.map Step.register := by simp
    have hafter : history i after = files.rules.map Step.register := by
      rw [hown] at hi
      cases hkind : kinds i with
      | request =>
        rw [hkind] at hi
        have hi : [] ++ Step.reset :: files.rules.map Step.register =
          history i before ++ .reset :: history i after := hi.symm
        exact ((List.append_cons_inj_of_notMem (by simp) hnone).mp hi).2.2.symm
      | sighup =>
        rw [hkind] at hi
        have hi : [Step.close] ++ Step.reset :: files.rules.map Step.register =
          history i before ++ .reset :: history i after := hi.symm
        exact ((List.append_cons_inj_of_notMem (by simp) hnone).mp hi).2.2.symm
    have hrules := congrArg (List.filterMap Step.rule) hafter
    rw [history, List.filterMap_map, List.filterMap_map] at hrules
    exact hrules.trans List.filterMap_some

/-- **Reloads that overlap.** When all reloads have ended, the engine holds each rule of the files once, as after
a single reload, exactly if no rule was registered after the last reset but by the reload that did the reset. -/
theorem reloads_settle_iff [Nonempty ι] (hsort : ∀ l, (sort l).Perm l)
    (hrun : Run (reloads sort files kinds start) tr T) (hdone : ∀ i, (T.proc i).result.isSome) :
    (T.store.Perm files.rules ↔ Undisturbed tr) ∧ (T.store = afterReload sort files start ↔ Undisturbed tr) := by
  have hperm : T.store.Perm files.rules → Undisturbed tr := by
    intro h before i after htr hlast
    obtain ⟨hstore, hown⟩ := rules_of_run hrun hdone htr hlast
    have hall : T.store.Perm (after.filterMap fun e => e.2.rule) := by
      rw [hstore]
      exact register_perm hsort [] _
    have hsub : ((after.filter fun e => e.1 = i).filterMap fun e => e.2.rule).Sublist
        (after.filterMap fun e => e.2.rule) := List.filter_sublist.filterMap _
    have heq := hsub.eq_of_length_le (by rw [hown, ← h.length_eq, hall.length_eq])
    exact fun e he hrule => of_decide_eq_true (filterMap_left_out.mp heq e he hrule)
  have hsettled : Undisturbed tr → T.store = files.rules.foldl (register sort) [] := by
    intro h
    obtain ⟨i₀⟩ := ‹Nonempty ι›
    have hreset : ∃ e ∈ tr, e.2 = Step.reset := by
      refine ⟨(i₀, .reset), mem_history.mp ?_, rfl⟩
      rw [(steps_of_run hrun).2 i₀ (hdone i₀)]
      cases kinds i₀ <;> simp [Kind.steps]
    classical
    obtain ⟨before, ⟨i, s⟩, after, htr, hs, hlast⟩ := exists_last hreset
    obtain rfl : s = .reset := hs
    obtain ⟨hstore, hown⟩ := rules_of_run hrun hdone htr hlast
    have hown' := filterMap_left_out.mpr fun e he hrule => decide_eq_true (h before i after htr hlast e he hrule)
    rw [hstore, ← hown', hown]
  rw [afterReload_eq]
  refine ⟨⟨hperm, fun h => ?_⟩, fun h => hperm ?_, hsettled⟩
  · rw [hsettled h]
    exact register_perm hsort [] _
  · rw [h]
    exact register_perm hsort [] _

end Reloads

/-! ### Files that are skipped -/

/-- The engine holds its rules in ascending priority. -/
def Ordered (rules : List (Rule F)) : Prop := rules.Pairwise fun a b => a.priority ≤ b.priority

/-- `registerDefs` stops at the definition. -/
def RuleDef.refused (d : RuleDef F) : Bool := d.name = "" || (d.tags ≠ [] && !d.cond.isOk)

/-- The rule of a definition with tags. -/
def RuleDef.rule (d : RuleDef F) : Option (Rule F) :=
  if d.tags = [] then none
  else d.cond.toOption.map fun cond => ⟨d.name, d.priority, fun md => some (if cond md then d.tags else [])⟩

/-- The rules of a file that have tags. -/
def RuleFile.taggedRules : RuleFile F → List (Rule F)
  | .toml defs => (defs.getD []).filterMap RuleDef.rule
  | .lua rule | .wasm rule => rule.toList
  | .skipped => []

/-- If the loading fails it leaves the rules as they were, and otherwise it adds these rules and keeps the order. -/
def Traceless (p : Loading F Unit) (added : List (Rule F)) (c : Conn (List (Rule F))) : Prop :=
  ((∃ err, (run p c).1 = .error err) → (run p c).2.store = c.store) ∧
    ((run p c).1 = .ok () → (run p c).2.store.Perm (c.store ++ added) ∧
      (Ordered c.store → Ordered (run p c).2.store))

/-- If a definition is refused, none before the first one that is has tags. -/
def Untagged (defs : List (RuleDef F)) : Prop :=
  (∃ d ∈ defs, d.refused) → ∀ d ∈ defs.takeWhile fun d => !d.refused, d.tags = []

/-- The definitions of the file are. -/
def RuleFile.Untagged : RuleFile F → Prop
  | .toml (some defs) => Registry.Untagged defs
  | _ => True

section Skipped
variable {defs : List (RuleDef F)} {c : Conn (List (Rule F))}

/-- Loading registers the rules one after the other. -/
theorem run_registers {p : Loading F Unit} {rules : List (Rule F)} (hp : Registers sort p rules) :
    (run p c).2.store = rules.foldl (register sort) c.store := by
  have hnone : ∀ s ∈ rules.map Step.register, s ≠ .reset := by simp
  have hrules : (rules.map Step.register).filterMap Step.rule = rules := by
    simp [List.filterMap_map, Function.comp_def, Step.rule]
  have hfollows : Follows (taking sort) p (fun _ left => left = []) (rules.map .register) := by simpa using hp []
  rw [run_taking hfollows, apply_rules hnone, hrules]

theorem ordered_register (hsort : ∀ l, Ordered (sort l)) {rules l : List (Rule F)} (h : Ordered rules) :
    Ordered (l.foldl (register sort) rules) := by
  induction l generalizing rules with
  | nil => exact h
  | cons rule l ih => exact ih (hsort _)

/-- The definitions are all registered if none is refused. -/
theorem registerDefs_ok (i : ℕ) : (run (registerDefs sort i defs) c).1 = .ok () ↔ ∀ d ∈ defs, d.refused = false := by
  induction defs generalizing i c with
  | nil => exact ⟨fun _ => by simp, fun _ => rfl⟩
  | cons d defs ih =>
    rw [registerDefs, List.forall_mem_cons]
    split_ifs with hname htags
    · simp [RuleDef.refused, hname, Prog.fail]
    · rw [ih]
      simp [RuleDef.refused, hname, htags]
    · cases hcond : d.cond with
      | error field => simp [RuleDef.refused, hname, htags, hcond, Prog.fail, Except.isOk, Except.toBool]
      | ok cond =>
        rw [run_andThen]
        refine (ih (i + 1)).trans ?_
        simp [RuleDef.refused, hname, htags, hcond, Except.isOk, Except.toBool]

/-- If no definition is refused, all with tags are registered. -/
theorem defRules_eq (h : ∀ d ∈ defs, d.refused = false) : defRules defs = defs.filterMap RuleDef.rule := by
  induction defs with
  | nil => rfl
  | cons d defs ih =>
    obtain ⟨hd, hdefs⟩ := List.forall_mem_cons.mp h
    have hname : d.name ≠ "" := by
      rintro hname
      simp [RuleDef.refused, hname] at hd
    rw [defRules, if_neg hname, List.filterMap_cons, RuleDef.rule]
    split_ifs with htags
    · exact ih hdefs
    · cases hcond : d.cond with
      | error field => simp [RuleDef.refused, hname, htags, hcond, Except.isOk, Except.toBool] at hd
      | ok cond =>
        show _ :: defRules defs = _ :: _
        rw [ih hdefs]

/-- If a definition is refused, nothing is registered only if none before it has tags. -/
theorem defRules_eq_nil (h : ∃ d ∈ defs, d.refused) :
    defRules defs = [] ↔ ∀ d ∈ defs.takeWhile fun d => !d.refused, d.tags = [] := by
  induction defs with
  | nil => simp at h
  | cons d defs ih =>
    rw [defRules]
    by_cases hd : d.refused = true
    · rw [List.takeWhile_cons_of_neg (by simp [hd])]
      simp only [List.not_mem_nil, false_implies, implies_true, iff_true]
      simp only [RuleDef.refused, Bool.or_eq_true, decide_eq_true_eq, Bool.and_eq_true] at hd
      obtain hname | ⟨htags, hcond⟩ := hd
      · rw [if_pos hname]
      · split_ifs
        · rfl
        · cases hc : d.cond with
          | error field => rfl
          | ok cond => simp [hc, Except.isOk, Except.toBool] at hcond
    · have hname : d.name ≠ "" := fun hname => hd (by simp [RuleDef.refused, hname])
      have hrest : ∃ d ∈ defs, d.refused := by
        obtain ⟨e, he, hr⟩ := h
        rcases List.mem_cons.mp he with rfl | he
        · exact absurd hr hd
        · exact ⟨e, he, hr⟩
      rw [List.takeWhile_cons_of_pos (by simp [hd]), List.forall_mem_cons, if_neg hname]
      split_ifs with htags
      · rw [ih hrest]
        simp [htags]
      · cases hcond : d.cond with
        | error field => exact absurd (by simp [RuleDef.refused, htags, hcond, Except.isOk, Except.toBool]) hd
        | ok cond => simp [htags]

/-- What is registered one after the other leaves no trace only if it is nothing. -/
theorem foldl_register_eq (hperm : ∀ l, (sort l).Perm l) {rules l : List (Rule F)} :
    l.foldl (register sort) rules = rules ↔ l = [] := by
  constructor
  · intro h
    have hlen := (register_perm hperm rules l).length_eq
    rw [h, List.length_append] at hlen
    exact List.eq_nil_of_length_eq_zero (by omega)
  · rintro rfl
    rfl

theorem traceless_defs (hperm : ∀ l, (sort l).Perm l) (hsort : ∀ l, Ordered (sort l)) :
    Traceless (registerDefs sort 0 defs) (defs.filterMap RuleDef.rule) c ↔ Untagged defs := by
  unfold Traceless Untagged
  rw [run_registers (registers_defs defs 0), foldl_register_eq hperm]
  by_cases hbad : ∃ d ∈ defs, d.refused
  · have hnot : (run (registerDefs sort 0 defs) c).1 ≠ .ok () := fun hok => by
      obtain ⟨d, hd, hr⟩ := hbad
      rw [(registerDefs_ok 0).mp hok d hd] at hr
      cases hr
    have herr : ∃ err, (run (registerDefs sort 0 defs) c).1 = .error err := by
      cases hr : (run (registerDefs sort 0 defs) c).1 with
      | ok u => exact absurd hr hnot
      | error err => exact ⟨err, rfl⟩
    rw [← defRules_eq_nil hbad]
    exact ⟨fun h _ => h.1 herr, fun h => ⟨fun _ => h hbad, fun hok => absurd hok hnot⟩⟩
  · have hgood : ∀ d ∈ defs, d.refused = false := by simpa using hbad
    refine iff_of_true ⟨?_, fun _ => ?_⟩ fun h => absurd h hbad
    · rintro ⟨err, herr⟩
      rw [(registerDefs_ok 0).mpr hgood] at herr
      cases herr
    · rw [defRules_eq hgood]
      exact ⟨register_perm hperm _ _, ordered_register hsort⟩

/-- **A file that is skipped leaves no trace** if and only if none of its definitions before the first one that is
refused has tags; the same for the configuration. -/
theorem traceless_iff (hperm : ∀ l, (sort l).Perm l) (hsort : ∀ l, Ordered (sort l)) (c : Conn (List (Rule F))) :
    (∀ file : RuleFile F, Traceless (loadFile sort file) file.taggedRules c ↔ file.Untagged) ∧
      ∀ defs, Traceless (loadInline sort (some defs)) (RuleFile.toml (some defs)).taggedRules c ↔ Untagged defs := by
  refine ⟨fun file => ?_, fun defs => traceless_defs hperm hsort⟩
  have hnone : ∀ err, Traceless (Proc.fail err : Loading F Unit) [] c := fun err => ⟨fun _ => rfl, nofun⟩
  have hone : ∀ rule, Traceless (step sort (.register rule)) [rule] c :=
    fun rule => ⟨nofun, fun _ => ⟨hperm _, fun _ => hsort _⟩⟩
  cases file with
  | toml defs =>
    cases defs with
    | none => exact iff_of_true (hnone _) trivial
    | some defs => exact traceless_defs hperm hsort
  | lua rule | wasm rule =>
    cases rule with
    | none => exact iff_of_true (hnone _) trivial
    | some rule => exact iff_of_true (hone rule) trivial
  | skipped => exact iff_of_true ⟨fun _ => rfl, fun _ => ⟨(List.append_nil c.store).symm ▸ .refl _, id⟩⟩ trivial

end Skipped

/-! ### A rule that is registered twice -/

/-- Rules in ascending priority. -/
def byPriority (rules : List (Rule Unit)) : List (Rule Unit) := rules.insertionSort fun a b => a.priority ≤ b.priority

/-- One rule in the configuration. -/
def oneRule : RuleFiles Unit := ⟨[], some [⟨"r", ["t"], 0, .ok fun _ => true⟩]⟩

/-- Two requests by a schedule, which start with an engine without rules. -/
def twoReloads (schedule : List (Bool × List Bool)) :
    List (Bool × Step Unit) × Pool (Bool) (List (Rule Unit)) (Step Unit) LoadError Unit :=
  (reloads byPriority oneRule (fun _ => .request) []).exec schedule

/-- Both reset the engine, and then both register the rule. -/
def overlapping : List (Bool × List Bool) := [(false, []), (true, []), (false, []), (true, [])]

theorem rule_doubled :
    Run (reloads byPriority oneRule (fun _ => .request) []) (twoReloads overlapping).1 (twoReloads overlapping).2 ∧
      (∀ i, ((twoReloads overlapping).2.proc i).result.isSome) ∧
      ¬ (twoReloads overlapping).2.store.Perm oneRule.rules := by
  refine ⟨Pool.run_exec _ _, by decide, fun h => ?_⟩
  have hlen : (twoReloads overlapping).2.store.length ≠ oneRule.rules.length := by decide
  exact hlen h.length_eq

/-- One reload after the other. -/
def ordered : List (Bool × List Bool) := [(false, []), (false, []), (true, []), (true, [])]

theorem reloads_settle_iff_ordered :
    ((twoReloads ordered).2.store.Perm oneRule.rules ↔ Undisturbed (twoReloads ordered).1) ∧
      ((twoReloads ordered).2.store = afterReload byPriority oneRule [] ↔ Undisturbed (twoReloads ordered).1) :=
  reloads_settle_iff (fun l => l.perm_insertionSort _) (Pool.run_exec _ _) (by decide)

/-! ### A file that is skipped half way -/

/-- The second definition has no name. -/
def halfBroken : RuleFile Unit := .toml (some [⟨"r", ["t"], 0, .ok fun _ => true⟩, ⟨"", ["u"], 0, .ok fun _ => true⟩])

theorem skipped_registered : (run (loadFile byPriority halfBroken) ⟨[], []⟩).1 = .error (.missingName 2) ∧
    (run (loadFile byPriority halfBroken) ⟨[], []⟩).2.store.map Rule.name = ["r"] := ⟨rfl, rfl⟩

theorem traceless_iff_halfBroken : ¬ Traceless (loadFile byPriority halfBroken) halfBroken.taggedRules ⟨[], []⟩ := by
  have hperm : ∀ l, (byPriority l).Perm l := fun l => l.perm_insertionSort _
  have hsort : ∀ l, Ordered (byPriority l) := fun l => List.pairwise_insertionSort _ l
  rw [(traceless_iff hperm hsort ⟨[], []⟩).1 halfBroken]
  intro h
  exact absurd (h (by decide)) (by decide)

end Tilbo.Rules.Registry
