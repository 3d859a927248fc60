import Tilbo.Lib.Steps
import Mathlib.Logic.Function.Basic

/-! # Flights of thumbnails

`GetOrGenerate`: any number of calls share a table of the flights that are under way, a flight for a key. The call that
finds none in the table leads one: it puts it there, generates the thumbnail, wakes up who has joined, and takes the
flight out again. `Step` is one atomic step of a call; what the file system and `generate` do is not determined.
`single_flight` says what holds at the end of every run. A call is named by `ι`, and so is the flight it leads. -/

namespace Tilbo.Thumbnail.SingleFlight

open Tilbo.Lib.Steps

variable {ι K : Type}

/-! ### The state -/

/-- `Result`. -/
structure Result where
  path : String := ""
  width : ℕ := 0
  height : ℕ := 0
deriving DecidableEq, Repr

/-- What is returned: a result, and the text of an error. -/
abbrev Outcome := Result × Option String

/-- `call`: how many are not done, and what the others find. -/
structure Flight where
  wg : ℕ := 0
  res : Result := {}
  err : Option String := none

def Flight.outcome (f : Flight) : Outcome := (f.res, f.err)

/-- Where a call is. -/
inductive Pc (ι : Type) where
  | idle
  | called
  /-- There is no thumbnail in the cache. -/
  | missed
  /-- It holds the mutex, and is about to look into the table. -/
  | locked
  /-- It has found a flight, and holds the mutex. -/
  | joined (c : ι)
  | waiting (c : ι)
  | woken (c : ι)
  /-- It has found none and made one, and holds the mutex. -/
  | created
  /-- The same, with the flight in the table. -/
  | inserted
  | generating
  | generated (o : Outcome)
  /-- The result is in the flight, but not yet the error. -/
  | assigned (err : Option String)
  | finished
  /-- Those who have joined may go on. -/
  | done
  /-- It holds the mutex again, and is about to take the flight out of the table. -/
  | relocked
  | deleted
  | leaving
  /-- It has returned without a flight, or from one that it joined, or from its own. -/
  | alone (o : Outcome)
  | shared (c : ι) (o : Outcome)
  | led (o : Outcome)

/-- The call holds the mutex. -/
def Pc.Locked : Pc ι → Prop
  | locked | joined _ | created | inserted | relocked | deleted => True
  | _ => False

/-- The flight of the call is in the table. -/
def Pc.InTable : Pc ι → Prop
  | inserted | generating | generated _ | assigned _ | finished | done | relocked => True
  | _ => False

/-- The flight of the call is not done. -/
def Pc.Open : Pc ι → Prop
  | created | inserted | generating | generated _ | assigned _ | finished => True
  | _ => False

/-- The flight of the call is done. -/
def Pc.Over : Pc ι → Prop
  | done | relocked | deleted | leaving | led _ => True
  | _ => False

/-- The flight that the call has joined. -/
def Pc.follows : Pc ι → Option ι
  | joined c | waiting c | woken c | shared c _ => some c
  | _ => none

/-- The call has begun, and has not returned. -/
def Pc.Running : Pc ι → Prop
  | idle | alone _ | shared _ _ | led _ => False
  | _ => True

/-- A flight that is in the table is done if it is not open. -/
theorem Pc.over_of_inTable {pc : Pc ι} (h : pc.InTable) (hopen : ¬ pc.Open) : pc.Over := by
  cases pc
  all_goals trivial

structure State (ι K : Type) where
  mu : Option ι
  inflt : K → Option ι
  flight : ι → Flight
  pc : ι → Pc ι

/-- `New`, before any call. -/
def new : State ι K where
  mu := none
  inflt _ := none
  flight _ := {}
  pc _ := .idle

variable [DecidableEq ι] [DecidableEq K]

def State.goto (s : State ι K) (i : ι) (pc : Pc ι) : State ι K := { s with pc := Function.update s.pc i pc }

/-! ### The steps -/

/-- Whose step it is; and what `generate` returned, if it did. -/
inductive Action (ι : Type) where
  | generate (i : ι) (o : Outcome)
  | other (i : ι)

def Action.call : Action ι → ι
  | generate i _ => i
  | other i => i

/-- One atomic step; `key` is what `cacheKey` gives for the call. -/
inductive Step (key : ι → K) (s : State ι K) : Action ι → State ι K → Prop
  | call {i : ι} (h : s.pc i = .idle) : Step key s (.other i) (s.goto i .called)
  | absFailed {i : ι} (err : String) (h : s.pc i = .called) : Step key s (.other i) (s.goto i (.alone ({}, some err)))
  | hit {i : ι} (res : Result) (h : s.pc i = .called) : Step key s (.other i) (s.goto i (.alone (res, none)))
  | miss {i : ι} (h : s.pc i = .called) : Step key s (.other i) (s.goto i .missed)
  | lock {i : ι} (h : s.pc i = .missed) (hmu : s.mu = none) : Step key s (.other i)
      { s.goto i .locked with mu := some i }
  | join {i c : ι} (h : s.pc i = .locked) (hc : s.inflt (key i) = some c) : Step key s (.other i) (s.goto i (.joined c))
  | unlockJoined {i c : ι} (h : s.pc i = .joined c) : Step key s (.other i) { s.goto i (.waiting c) with mu := none }
  | wait {i c : ι} (h : s.pc i = .waiting c) (hwg : (s.flight c).wg = 0) : Step key s (.other i) (s.goto i (.woken c))
  /-- Nobody writes to the flight any more. -/
  | returnShared {i c : ι} (h : s.pc i = .woken c) : Step key s (.other i)
      (s.goto i (.shared c (s.flight c).outcome))
  | create {i : ι} (h : s.pc i = .locked) (hc : s.inflt (key i) = none) : Step key s (.other i)
      { s.goto i .created with flight := Function.update s.flight i { wg := 1 } }
  | insert {i : ι} (h : s.pc i = .created) : Step key s (.other i)
      { s.goto i .inserted with inflt := Function.update s.inflt (key i) (some i) }
  | unlockInserted {i : ι} (h : s.pc i = .inserted) : Step key s (.other i) { s.goto i .generating with mu := none }
  | generate {i : ι} (o : Outcome) (h : s.pc i = .generating) : Step key s (.generate i o) (s.goto i (.generated o))
  | assignRes {i : ι} {o : Outcome} (h : s.pc i = .generated o) : Step key s (.other i)
      { s.goto i (.assigned o.2) with flight := Function.update s.flight i { s.flight i with res := o.1 } }
  | assignErr {i : ι} {err : Option String} (h : s.pc i = .assigned err) : Step key s (.other i)
      { s.goto i .finished with flight := Function.update s.flight i { s.flight i with err := err } }
  | wgDone {i : ι} (h : s.pc i = .finished) : Step key s (.other i)
      { s.goto i .done with flight := Function.update s.flight i { s.flight i with wg := (s.flight i).wg - 1 } }
  | relock {i : ι} (h : s.pc i = .done) (hmu : s.mu = none) : Step key s (.other i)
      { s.goto i .relocked with mu := some i }
  | delete {i : ι} (h : s.pc i = .relocked) : Step key s (.other i)
      { s.goto i .deleted with inflt := Function.update s.inflt (key i) none }
  | unlockDeleted {i : ι} (h : s.pc i = .deleted) : Step key s (.other i) { s.goto i .leaving with mu := none }
  | returnLed {i : ι} (h : s.pc i = .leaving) : Step key s (.other i) (s.goto i (.led (s.flight i).outcome))

/-! ### What is to hold -/

/-- What `generate` returned in a step, if it was that of the call. -/
def Action.outcome (c : ι) : Action ι → Option Outcome
  | generate i o => if i = c then some o else none
  | other _ => none

/-- What `generate` has returned to a call. -/
def outcomes (tr : List (State ι K × Action ι)) (c : ι) : List Outcome := tr.filterMap (·.2.outcome c)

/-- At most one call generates for a key. Who has joined a flight returns what its only generation returned, and so does
who leads it. When no call is running the table is empty; as long as one is, a running call can take a step; and none
takes more than fourteen. -/
structure Sound (key : ι → K) (tr : List (State ι K × Action ι)) (s : State ι K) : Prop where
  one : ∀ i j, key i = key j → s.pc i = .generating → s.pc j = .generating → i = j
  shared : ∀ i c o, s.pc i = .shared c o → key c = key i ∧ outcomes tr c = [o]
  led : ∀ c o, s.pc c = .led o → outcomes tr c = [o]
  empty : (∀ i, ¬ (s.pc i).Running) → ∀ k, s.inflt k = none
  progress : ∀ i, (s.pc i).Running → ∃ a s', (s.pc a.call).Running ∧ Step key s a s'
  bounded : ∀ i, (tr.filter (·.2.call = i)).length ≤ 14

/-! ### The invariant -/

/-- What holds in every state that is reached. -/
structure Inv (key : ι → K) (s : State ι K) : Prop where
  mutex : ∀ i, s.mu = some i ↔ (s.pc i).Locked
  table : ∀ k c, s.inflt k = some c ↔ key c = k ∧ (s.pc c).InTable
  created : ∀ i, s.pc i = .created → s.inflt (key i) = none
  wg : ∀ c, ((s.pc c).Open → (s.flight c).wg = 1) ∧ ((s.pc c).Over → (s.flight c).wg = 0)
  follows : ∀ i c, (s.pc i).follows = some c → key c = key i ∧ ((s.pc c).InTable ∨ (s.pc c).Over)
  woken : ∀ i c, s.pc i = .woken c → (s.pc c).Over
  shared : ∀ i c o, s.pc i = .shared c o → (s.pc c).Over ∧ (s.flight c).outcome = o
  led : ∀ c o, s.pc c = .led o → (s.pc c).Over ∧ (s.flight c).outcome = o

variable {key : ι → K} {s s' : State ι K} {a : Action ι} {j : ι}

/-! ### What a step can do -/

/-- A step moves one call, and touches no other flight. -/
theorem frame (hstep : Step key s a s') (hj : j ≠ a.call) : s'.pc j = s.pc j ∧ s'.flight j = s.flight j := by
  cases hstep
  all_goals exact ⟨Function.update_of_ne hj _ _, by first | rfl | exact Function.update_of_ne hj _ _⟩

/-- The mutex is taken by who did not have it, or given back by who had it, or left alone. -/
theorem mutex_cases (hstep : Step key s a s') :
    (s.mu = none ∧ s'.mu = some a.call ∧ (s'.pc a.call).Locked) ∨
    ((s.pc a.call).Locked ∧ s'.mu = none ∧ ¬ (s'.pc a.call).Locked) ∨
    (s'.mu = s.mu ∧ ((s'.pc a.call).Locked ↔ (s.pc a.call).Locked)) := by
  cases hstep
  all_goals simp [State.goto, Action.call, Pc.Locked, *]

/-- The flight is put into the table under the mutex, or taken out of it, or the table is left alone. -/
theorem table_cases (hstep : Step key s a s') :
    (s.pc a.call = .created ∧ s'.inflt = Function.update s.inflt (key a.call) (some a.call) ∧
      s'.pc a.call = .inserted) ∨
    (s.pc a.call = .relocked ∧ s'.inflt = Function.update s.inflt (key a.call) none ∧ s'.pc a.call = .deleted) ∨
    (s'.inflt = s.inflt ∧ ((s'.pc a.call).InTable ↔ (s.pc a.call).InTable)) := by
  cases hstep
  all_goals simp [State.goto, Action.call, Pc.InTable, *]

/-- A flight that is done stays so, and is not changed. -/
theorem over_step {c : ι} (hstep : Step key s a s') (h : (s.pc c).Over) : (s'.pc c).Over ∧ s'.flight c = s.flight c := by
  by_cases hc : c = a.call
  · subst hc
    cases hstep
    all_goals simp_all [State.goto, Action.call, Pc.Over]
  · obtain ⟨hpc, hflight⟩ := frame hstep hc
    exact ⟨hpc.symm ▸ h, hflight⟩

/-- A flight that is in the table or done remains one of the two. -/
theorem inTable_step {c : ι} (hstep : Step key s a s') (h : (s.pc c).InTable ∨ (s.pc c).Over) :
    (s'.pc c).InTable ∨ (s'.pc c).Over := by
  by_cases hc : c = a.call
  · subst hc
    cases hstep
    all_goals simp_all [State.goto, Action.call, Pc.InTable, Pc.Over]
  · exact (frame hstep hc).1.symm ▸ h

/-- A flight that is made is to be waited for, until it is done. -/
theorem wg_step {c : ι} (hstep : Step key s a s')
    (h : ((s.pc c).Open → (s.flight c).wg = 1) ∧ ((s.pc c).Over → (s.flight c).wg = 0)) :
    ((s'.pc c).Open → (s'.flight c).wg = 1) ∧ ((s'.pc c).Over → (s'.flight c).wg = 0) := by
  by_cases hc : c = a.call
  · subst hc
    cases hstep
    all_goals simp_all [State.goto, Action.call, Pc.Open, Pc.Over]
  · obtain ⟨hpc, hflight⟩ := frame hstep hc
    rw [hpc, hflight]
    exact h

/-- A call joins the flight that it finds in the table. -/
theorem follows_cases {i c : ι} (hstep : Step key s a s') (h : (s'.pc i).follows = some c) :
    (s.pc i).follows = some c ∨ s.inflt (key i) = some c := by
  by_cases hi : i = a.call
  · subst hi
    cases hstep
    all_goals simp_all [State.goto, Action.call, Pc.follows]
  · exact Or.inl ((frame hstep hi).1 ▸ h)

/-- It goes on when nobody is to be waited for. -/
theorem woken_cases {i c : ι} (hstep : Step key s a s') (h : s'.pc i = .woken c) :
    s.pc i = .woken c ∨ s.pc i = .waiting c ∧ (s.flight c).wg = 0 := by
  by_cases hi : i = a.call
  · subst hi
    cases hstep
    all_goals simp_all [State.goto, Action.call]
  · exact Or.inl ((frame hstep hi).1 ▸ h)

/-- It returns what it finds in the flight. -/
theorem shared_cases {i c : ι} {o : Outcome} (hstep : Step key s a s') (h : s'.pc i = .shared c o) :
    s.pc i = .shared c o ∨ s.pc i = .woken c ∧ (s.flight c).outcome = o := by
  by_cases hi : i = a.call
  · subst hi
    cases hstep
    case returnShared =>
      obtain ⟨rfl, rfl⟩ : _ ∧ _ := by simpa [State.goto, Action.call] using h
      exact Or.inr ⟨by assumption, rfl⟩
    all_goals simp_all [State.goto, Action.call]
  · exact Or.inl ((frame hstep hi).1 ▸ h)

theorem led_cases {c : ι} {o : Outcome} (hstep : Step key s a s') (h : s'.pc c = .led o) :
    s.pc c = .led o ∨ s.pc c = .leaving ∧ (s.flight c).outcome = o := by
  by_cases hi : c = a.call
  · subst hi
    cases hstep
    all_goals simp_all [State.goto, Action.call]
  · exact Or.inl ((frame hstep hi).1 ▸ h)

theorem created_cases {i : ι} (hstep : Step key s a s') (h : s'.pc i = .created) :
    s.pc i = .created ∧ i ≠ a.call ∨ i = a.call ∧ (s.pc i).Locked ∧ s'.inflt = s.inflt ∧ s.inflt (key i) = none := by
  by_cases hi : i = a.call
  · subst hi
    cases hstep
    all_goals simp_all [State.goto, Action.call, Pc.Locked]
  · exact Or.inl ⟨(frame hstep hi).1 ▸ h, hi⟩

/-! ### The invariant is kept -/

theorem mutex_step (hstep : Step key s a s') (h : ∀ i, s.mu = some i ↔ (s.pc i).Locked) (i : ι) :
    s'.mu = some i ↔ (s'.pc i).Locked := by
  by_cases hi : i = a.call
  · subst hi
    rcases mutex_cases hstep with ⟨-, htaken, hlocked⟩ | ⟨-, hfree, hnot⟩ | ⟨hsame, hiff⟩
    · exact iff_of_true htaken hlocked
    · exact iff_of_false (by simp [hfree]) hnot
    · rw [hsame, h, hiff]
  · rw [(frame hstep hi).1, ← h]
    rcases mutex_cases hstep with ⟨hnone, htaken, -⟩ | ⟨hlocked, hfree, -⟩ | ⟨hsame, -⟩
    · rw [hnone, htaken]
      exact iff_of_false (fun heq => hi (Option.some.inj heq).symm) (by simp)
    · rw [(h _).mpr hlocked, hfree]
      exact iff_of_false (by simp) fun heq => hi (Option.some.inj heq).symm
    · rw [hsame]

theorem table_step (hstep : Step key s a s') (h : Inv key s) (k : K) (c : ι) :
    s'.inflt k = some c ↔ key c = k ∧ (s'.pc c).InTable := by
  rcases table_cases hstep with ⟨hpc, hinflt, hpc'⟩ | ⟨hpc, hinflt, hpc'⟩ | ⟨hinflt, hiff⟩
  · -- The place in the table was free.
    have hfree := h.created _ hpc
    rw [hinflt]
    by_cases hc : c = a.call
    · subst hc
      rw [hpc']
      by_cases hk : k = key a.call
      · simp [hk, Pc.InTable]
      · have hnot := (h.table k a.call).not.mpr fun hin => hk hin.1.symm
        simp [hk, hnot, Ne.symm hk]
    · rw [(frame hstep hc).1, ← h.table]
      by_cases hk : k = key a.call
      · subst hk
        simp [hfree, Ne.symm hc]
      · simp [hk]
  · rw [hinflt]
    have hown : s.inflt (key a.call) = some a.call := (h.table _ _).mpr ⟨rfl, by rw [hpc]; trivial⟩
    by_cases hc : c = a.call
    · subst hc
      rw [hpc']
      by_cases hk : k = key a.call
      · simp [hk, Pc.InTable]
      · have hnot := (h.table k a.call).not.mpr fun hin => hk hin.1.symm
        simp [hk, hnot, Ne.symm hk]
    · rw [(frame hstep hc).1, ← h.table]
      by_cases hk : k = key a.call
      · subst hk
        simp [hown, Ne.symm hc]
      · simp [hk]
  · rw [hinflt, h.table]
    by_cases hc : c = a.call
    · subst hc
      rw [hiff]
    · rw [(frame hstep hc).1]

theorem created_step (hstep : Step key s a s') (h : Inv key s) (i : ι) (hi : s'.pc i = .created) :
    s'.inflt (key i) = none := by
  rcases created_cases hstep hi with ⟨hpc, hne⟩ | ⟨-, -, hsame, hnone⟩
  · -- Nobody else has the mutex.
    have hmu : s.mu = some i := (h.mutex i).mpr (by rw [hpc]; trivial)
    have hnot : ¬ (s.pc a.call).Locked := fun hlocked => by
      have hcall := (h.mutex a.call).mpr hlocked
      rw [hmu] at hcall
      exact hne (Option.some.inj hcall)
    rcases table_cases hstep with ⟨hcreated, -⟩ | ⟨hrelocked, -⟩ | ⟨hinflt, -⟩
    · rw [hcreated] at hnot
      exact absurd trivial hnot
    · rw [hrelocked] at hnot
      exact absurd trivial hnot
    · rw [hinflt]
      exact h.created i hpc
  · rw [hsame]
    exact hnone

theorem Inv.step (h : Inv key s) (hstep : Step key s a s') : Inv key s' where
  mutex := mutex_step hstep h.mutex
  table := table_step hstep h
  created := created_step hstep h
  wg c := wg_step hstep (h.wg c)
  follows i c hi := by
    rcases follows_cases hstep hi with hpc | hfound
    · obtain ⟨hkey, hin⟩ := h.follows i c hpc
      exact ⟨hkey, inTable_step hstep hin⟩
    · obtain ⟨hkey, hin⟩ := (h.table _ _).mp hfound
      exact ⟨hkey, inTable_step hstep (Or.inl hin)⟩
  woken i c hi := by
    rcases woken_cases hstep hi with hpc | ⟨hpc, hwg⟩
    · exact (over_step hstep (h.woken i c hpc)).1
    · have hopen : ¬ (s.pc c).Open := fun hopen => by
        have hone := (h.wg c).1 hopen
        omega
      have hover : (s.pc c).Over := (h.follows i c (by rw [hpc]; rfl)).2.elim (Pc.over_of_inTable · hopen) id
      exact (over_step hstep hover).1
  shared i c o hi := by
    have hover : (s.pc c).Over ∧ (s.flight c).outcome = o := by
      rcases shared_cases hstep hi with hpc | ⟨hpc, ho⟩
      · exact h.shared i c o hpc
      · exact ⟨h.woken i c hpc, ho⟩
    obtain ⟨hover', hflight⟩ := over_step hstep hover.1
    exact ⟨hover', by rw [hflight]; exact hover.2⟩
  led c o hi := by
    have hover : (s.pc c).Over ∧ (s.flight c).outcome = o := by
      rcases led_cases hstep hi with hpc | ⟨hpc, ho⟩
      · exact h.led c o hpc
      · exact ⟨by rw [hpc]; trivial, ho⟩
    obtain ⟨hover', hflight⟩ := over_step hstep hover.1
    exact ⟨hover', by rw [hflight]; exact hover.2⟩

omit [DecidableEq ι] [DecidableEq K] in
theorem inv_new : Inv key (new : State ι K) := by
  constructor
  all_goals simp [new, Pc.Locked, Pc.InTable, Pc.Open, Pc.follows]

theorem inv_of_runs {tr : List (State ι K × Action ι)} (hrun : Runs (Step key) new tr s) : Inv key s :=
  hrun.invariant (Inv key) meets_any inv_new fun _ _ _ h _ hstep => h.step hstep

/-! ### What is returned -/

/-- What `generate` has returned to a call, as the state has it. -/
def made (s : State ι K) (c : ι) : List Outcome :=
  match s.pc c with
  | .generated o => [o]
  | .assigned err => [((s.flight c).res, err)]
  | .finished | .done | .relocked | .deleted | .leaving | .led _ => [(s.flight c).outcome]
  | _ => []

omit [DecidableEq ι] [DecidableEq K] in
theorem made_of_over {c : ι} (h : (s.pc c).Over) : made s c = [(s.flight c).outcome] := by
  unfold made
  cases hpc : s.pc c
  all_goals simp_all [Pc.Over]

theorem made_step {c : ι} (hstep : Step key s a s') : made s' c = made s c ++ (a.outcome c).toList := by
  by_cases hc : c = a.call
  · subst hc
    cases hstep
    all_goals simp_all [made, State.goto, Action.call, Action.outcome, Flight.outcome]
  · have hnone : a.outcome c = none := by
      cases a
      all_goals simp_all [Action.outcome, Action.call, eq_comm]
    obtain ⟨hpc, hflight⟩ := frame hstep hc
    rw [made, hpc, hflight, hnone, made]
    exact (List.append_nil _).symm

theorem outcomes_eq {tr : List (State ι K × Action ι)} (hrun : Runs (Step key) new tr s) (c : ι) :
    outcomes tr c = made s c := by
  induction hrun with
  | nil => rfl
  | @snoc tr t u a before last ih =>
    have hlast : [(t, a)].filterMap (·.2.outcome c) = (a.outcome c).toList := by
      rcases hout : a.outcome c with _ | o
      all_goals simp [hout]
    rw [outcomes, List.filterMap_append, made_step last, ← ih, hlast, outcomes]

/-! ### Progress -/

/-- Who has the mutex can go on. -/
theorem step_of_locked {i : ι} (h : (s.pc i).Locked) : ∃ a s', a.call = i ∧ Step key s a s' := by
  cases hpc : s.pc i
  case locked =>
    rcases hfound : s.inflt (key i) with _ | c
    · exact ⟨_, _, rfl, .create hpc hfound⟩
    · exact ⟨_, _, rfl, .join hpc hfound⟩
  case joined c => exact ⟨_, _, rfl, .unlockJoined hpc⟩
  case created => exact ⟨_, _, rfl, .insert hpc⟩
  case inserted => exact ⟨_, _, rfl, .unlockInserted hpc⟩
  case relocked => exact ⟨_, _, rfl, .delete hpc⟩
  case deleted => exact ⟨_, _, rfl, .unlockDeleted hpc⟩
  all_goals
    rw [hpc] at h
    exact h.elim

/-- Who others wait for can go on. -/
theorem step_of_open {i : ι} (h : (s.pc i).Open) : ∃ a s', a.call = i ∧ Step key s a s' := by
  cases hpc : s.pc i
  case created => exact ⟨_, _, rfl, .insert hpc⟩
  case inserted => exact ⟨_, _, rfl, .unlockInserted hpc⟩
  case generating => exact ⟨.generate i ({}, none), _, rfl, .generate _ hpc⟩
  case generated o => exact ⟨_, _, rfl, .assignRes hpc⟩
  case assigned err => exact ⟨_, _, rfl, .assignErr hpc⟩
  case finished => exact ⟨_, _, rfl, .wgDone hpc⟩
  all_goals
    rw [hpc] at h
    exact h.elim

/-- As long as a call is running, one of those that are can go on: it itself, or who has the mutex, or who leads the
flight that it waits for. -/
theorem step_of_running (h : Inv key s) {i : ι} (hi : (s.pc i).Running) :
    ∃ a s', (s.pc a.call).Running ∧ Step key s a s' := by
  have hlocked : ∀ j, (s.pc j).Locked → ∃ a s', (s.pc a.call).Running ∧ Step key s a s' := fun j hj => by
    obtain ⟨a, s', rfl, hstep⟩ := step_of_locked hj
    refine ⟨a, s', ?_, hstep⟩
    generalize s.pc a.call = pc at hj
    cases pc
    all_goals trivial
  have hopen : ∀ c, (s.pc c).Open → ∃ a s', (s.pc a.call).Running ∧ Step key s a s' := fun c hc => by
    obtain ⟨a, s', rfl, hstep⟩ := step_of_open hc
    refine ⟨a, s', ?_, hstep⟩
    generalize s.pc a.call = pc at hc
    cases pc
    all_goals trivial
  rcases hmu : s.mu with _ | j
  · by_cases hlead : (s.pc i).Open
    · exact hopen i hlead
    · have hnot : ¬ (s.pc i).Locked := fun hlock => by
        rw [(h.mutex i).mpr hlock] at hmu
        cases hmu
      cases hpc : s.pc i
      case called => exact ⟨.other i, _, hi, .miss hpc⟩
      case missed => exact ⟨.other i, _, hi, .lock hpc hmu⟩
      case waiting c =>
        by_cases hc : (s.pc c).Open
        · exact hopen c hc
        · have hin := (h.follows i c (by rw [hpc]; rfl)).2
          have hover : (s.pc c).Over := hin.elim (Pc.over_of_inTable · hc) id
          exact ⟨.other i, _, hi, .wait hpc ((h.wg c).2 hover)⟩
      case woken c => exact ⟨.other i, _, hi, .returnShared hpc⟩
      case done => exact ⟨.other i, _, hi, .relock hpc hmu⟩
      case leaving => exact ⟨.other i, _, hi, .returnLed hpc⟩
      all_goals
        rw [hpc] at hi hlead hnot
        first
          | exact hi.elim
          | exact absurd trivial hlead
          | exact absurd trivial hnot
  · exact hlocked j ((h.mutex j).mp hmu)

/-- How many steps a call has left, at most. -/
def Pc.left : Pc ι → ℕ
  | idle => 14
  | called => 13
  | missed => 12
  | locked => 11
  | created => 10
  | inserted => 9
  | generating => 8
  | generated _ => 7
  | assigned _ => 6
  | finished => 5
  | done => 4
  | joined _ | relocked => 3
  | waiting _ | deleted => 2
  | woken _ | leaving => 1
  | alone _ | shared _ _ | led _ => 0

theorem left_step (hstep : Step key s a s') : (s'.pc a.call).left < (s.pc a.call).left := by
  cases hstep
  all_goals simp [State.goto, Action.call, Pc.left, *]

/-- No call takes more steps. -/
theorem length_add_left {tr : List (State ι K × Action ι)} (hrun : Runs (Step key) new tr s) (i : ι) :
    (tr.filter (·.2.call = i)).length + (s.pc i).left ≤ 14 := by
  induction hrun with
  | nil => exact Nat.le_refl 14
  | @snoc tr t u a before last ih =>
    rw [List.filter_append, List.length_append]
    by_cases hi : i = a.call
    · have hlt := left_step last
      simp only [hi, decide_true, List.filter_cons_of_pos, List.filter_nil, List.length_singleton] at ih ⊢
      omega
    · simpa [(frame last hi).1, Ne.symm hi] using ih

/-! ### Every run -/

/-- **Single flight**, at the end of every run. -/
theorem single_flight {tr : List (State ι K × Action ι)} (hrun : Runs (Step key) new tr s) : Sound key tr s := by
  have h := inv_of_runs hrun
  refine ⟨fun i j hkey hi hj => ?_, fun i c o hi => ?_, fun c o hc => ?_, fun hnone k => ?_, fun i => step_of_running h,
    fun i => ?_⟩
  · have hini := (h.table (key i) i).mpr ⟨rfl, by rw [hi]; trivial⟩
    have hinj := (h.table (key i) j).mpr ⟨hkey.symm, by rw [hj]; trivial⟩
    exact Option.some.inj (hini.symm.trans hinj)
  · obtain ⟨hover, rfl⟩ := h.shared i c o hi
    exact ⟨(h.follows i c (by rw [hi]; rfl)).1, by rw [outcomes_eq hrun, made_of_over hover]⟩
  · obtain ⟨hover, rfl⟩ := h.led c o hc
    rw [outcomes_eq hrun, made_of_over hover]
  · rcases hk : s.inflt k with _ | c
    · rfl
    · obtain ⟨-, hin⟩ := (h.table k c).mp hk
      refine absurd ?_ (hnone c)
      generalize s.pc c = pc at hin
      cases pc
      all_goals trivial
  · have hle := length_add_left hrun i
    omega

/-! ### Two calls -/

/-- The second call joins the flight of the first, whose generation fails. -/
theorem runs_two : ∃ tr s, Runs (Step fun _ : Bool => ()) new tr s ∧
    s.pc true = .shared false ({}, some "decode") ∧ s.pc false = .led ({}, some "decode") := by
  have start : Runs (Step fun _ : Bool => ()) new [] new := .nil
  have lead := (((((start.snoc (.call (i := false) rfl)).snoc (.miss (i := false) rfl)).snoc
    (.lock (i := false) rfl rfl)).snoc (.create (i := false) rfl rfl)).snoc (.insert (i := false) rfl)).snoc
    (.unlockInserted (i := false) rfl)
  have join := ((((lead.snoc (.call (i := true) rfl)).snoc (.miss (i := true) rfl)).snoc
    (.lock (i := true) rfl rfl)).snoc (.join (i := true) rfl rfl)).snoc (.unlockJoined (i := true) rfl)
  have land := (((join.snoc (.generate (i := false) ({}, some "decode") rfl)).snoc (.assignRes (i := false) rfl)).snoc
    (.assignErr (i := false) rfl)).snoc (.wgDone (i := false) rfl)
  have back := (((((land.snoc (.wait (i := true) rfl rfl)).snoc (.relock (i := false) rfl rfl)).snoc
    (.delete (i := false) rfl)).snoc (.unlockDeleted (i := false) rfl)).snoc (.returnLed (i := false) rfl)).snoc
    (.returnShared (i := true) rfl)
  exact ⟨_, _, back, rfl, rfl⟩

theorem single_flight_two : ∃ tr s, Sound (fun _ : Bool => ()) tr s ∧
    s.pc true = .shared false ({}, some "decode") ∧ s.pc false = .led ({}, some "decode") := by
  obtain ⟨tr, s, hrun, htrue, hfalse⟩ := runs_two
  exact ⟨tr, s, single_flight hrun, htrue, hfalse⟩

end Tilbo.Thumbnail.SingleFlight
