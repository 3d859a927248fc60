import Tilbo.Lib.Steps
import Tilbo.Daemon.Handlers

/-! # Debouncing

An event is held back for a while: `debounce` puts it into a map under its path and starts a timer, and
takes the place of an event that waits there. The callback of a timer may already be waiting for the lock
when the timer is stopped; it finds out by looking for its own entry in the map. It sends the event after it
has released the lock.

`delivered_of_run` says what becomes of the events in every run, if no callback takes an event of a path while
another one still has an event of the path to send. -/

namespace Tilbo.Watch.Debounce

open Tilbo.Daemon.Handlers Tilbo.Lib.Steps

/-! ### The debouncer -/

/-- Where the callback of an entry is. -/
inductive Callback where
  /-- The timer is running. -/
  | timer
  | stopped
  /-- The timer has fired; the callback waits for the lock. -/
  | waiting
  /-- It has found its entry, removed it from the map and released the lock. -/
  | taken
  /-- It has found another entry, or none, and is done. -/
  | superseded
  /-- It has sent the event and is done. -/
  | sent
deriving DecidableEq, Repr

/-- The lock, the map and the channel of a watcher, and the entries made so far: the event and the callback
of each, and their order. -/
@[ext] structure State where
  pending : String → Option ℕ
  entry : ℕ → Option Event
  callback : ℕ → Callback
  submitted : List ℕ
  /-- The entries whose events were sent, in order. -/
  out : List ℕ

/-- Nothing has happened yet. -/
def State.start : State where
  pending _ := none
  entry _ := none
  callback _ := .stopped
  submitted := []
  out := []

/-- `Timer.Stop`: a timer that has fired is not stopped. -/
def stop (callback : ℕ → Callback) (n : ℕ) : ℕ → Callback :=
  if callback n = .timer then Function.update callback n .stopped else callback

/-- The body of `debounce`; `n` is the new entry. -/
def debounce (s : State) (n : ℕ) (ev : Event) : State :=
  let callback := match s.pending ev.path with
    | some old => stop s.callback old
    | none => s.callback
  { s with
    entry := Function.update s.entry n (some ev)
    callback := Function.update callback n .timer
    pending := Function.update s.pending ev.path (some n)
    submitted := s.submitted ++ [n] }

/-- `Watcher.debounce`, under `mu`. -/
def Watcher.debounce : State → ℕ → Event → State := Debounce.debounce

/-- `inotifyImpl.debounce`, under `pendMu`. -/
def InotifyImpl.debounce : State → ℕ → Event → State := Debounce.debounce

/-- The implementations. -/
inductive Impl where
  | fanotify
  | inotify

def Impl.debounce : Impl → State → ℕ → Event → State
  | .fanotify => Watcher.debounce
  | .inotify => InotifyImpl.debounce

/-- The part of the callback of entry `n` under the lock. -/
def State.lock (s : State) (n : ℕ) (ev : Event) : State :=
  if s.pending ev.path = some n then
    { s with
      callback := Function.update s.callback n .taken
      pending := Function.update s.pending ev.path none }
  else { s with callback := Function.update s.callback n .superseded }

/-- What happens next. -/
inductive Action where
  | debounce (n : ℕ) (ev : Event)
  /-- The time of the timer has come. -/
  | fire (n : ℕ)
  | lock (n : ℕ)
  | send (n : ℕ)

/-- One step; the channel has room. -/
inductive Step (impl : Impl) : State → Action → State → Prop
  | debounce {s : State} {n : ℕ} {ev : Event} (hnew : s.entry n = none) :
      Step impl s (.debounce n ev) (impl.debounce s n ev)
  | fire {s : State} {n : ℕ} (h : s.callback n = .timer) :
      Step impl s (.fire n) { s with callback := Function.update s.callback n .waiting }
  | lock {s : State} {n : ℕ} {ev : Event} (h : s.callback n = .waiting) (hev : s.entry n = some ev) :
      Step impl s (.lock n) (s.lock n ev)
  | send {s : State} {n : ℕ} (h : s.callback n = .taken) :
      Step impl s (.send n) { s with callback := Function.update s.callback n .sent, out := s.out ++ [n] }

/-! ### What is to be shown -/

variable {impl : Impl} {s s' : State} {a : Action} {tr : List (State × Action)} {n m : ℕ} {p : String} {ev : Event}

/-- The entry is one of the path. -/
def State.on (s : State) (path : String) (n : ℕ) : Bool := (s.entry n).any fun ev => ev.path = path

/-- The events submitted for a path. -/
def State.eventsIn (s : State) (path : String) : List Event := (s.submitted.filter (s.on path)).filterMap s.entry

/-- The events sent for a path. -/
def State.eventsOut (s : State) (path : String) : List Event := (s.out.filter (s.on path)).filterMap s.entry

/-- The callback has taken the lock and found its entry. -/
def Callback.Through (c : Callback) : Prop := c = .taken ∨ c = .sent

/-- The entry was superseded: another event of its path was submitted before its callback took the lock. -/
def Superseded (tr : List (State × Action)) (n : ℕ) : Prop :=
  ∃ t m ev, (t, .debounce m ev) ∈ tr ∧ t.on ev.path n ∧ ¬ (t.callback n).Through

/-- The path an action is about. -/
def Action.path (t : State) : Action → Option String
  | .debounce _ ev => some ev.path
  | .fire n | .lock n | .send n => (t.entry n).map Event.path

/-- What there is of one path. -/
def State.restrict (s : State) (path : String) : State where
  pending p := if p = path then s.pending p else none
  entry n := if s.on path n then s.entry n else none
  callback n := if s.on path n then s.callback n else .stopped
  submitted := s.submitted.filter (s.on path)
  out := s.out.filter (s.on path)

/-- The steps about one path, as they look without the others. -/
def restrictSteps (path : String) (tr : List (State × Action)) : List (State × Action) :=
  (tr.filter fun e => e.2.path e.1 = some path).map fun e => (e.1.restrict path, e.2)

/-- Every path gets the last word, and no more. -/
structure Delivered (impl : Impl) (tr : List (State × Action)) (s : State) : Prop where
  /-- The events sent for a path are some of those submitted for it, in their order. -/
  subsequence : ∀ path, (s.eventsOut path).Sublist (s.eventsIn path)
  /-- A superseded event is not sent. -/
  superseded : ∀ n, Superseded tr n → n ∉ s.out
  /-- The last event of a burst is on its way until it has been sent once. -/
  last : ∀ n ∈ s.submitted, ¬ Superseded tr n →
    s.callback n = .timer ∨ s.callback n = .waiting ∨ s.callback n = .taken ∨ s.out.count n = 1
  /-- Without the events of the other paths the same would have happened to a path. -/
  independent : ∀ path, Runs (Step impl) .start (restrictSteps path tr) (s.restrict path)

/-- A callback takes an event of a path only if no other callback has an event of the path to send. -/
def InOrder (t : State) : Action → Prop
  | .lock n => ∀ ev, t.entry n = some ev → t.pending ev.path = some n → ∀ m, t.on ev.path m → t.callback m ≠ .taken
  | _ => True

/-! ### Every state of a run -/

/-- What holds in every state of a run. -/
structure Sound (s : State) : Prop where
  known : ∀ n, n ∈ s.submitted ↔ s.entry n ≠ none
  once : s.submitted.Nodup
  pending : ∀ p n, s.pending p = some n → s.on p n ∧ (s.callback n = .timer ∨ s.callback n = .waiting)
  timer : ∀ n, s.callback n = .timer → ∃ ev, s.entry n = some ev ∧ s.pending ev.path = some n
  made : ∀ n, s.entry n = none → s.callback n = .stopped
  sent : ∀ n, n ∈ s.out ↔ s.callback n = .sent
  sentOnce : s.out.Nodup

theorem on_iff : s.on p n ↔ ∃ ev, s.entry n = some ev ∧ ev.path = p := by
  cases h : s.entry n <;> simp [State.on, h]

/-- An entry is one of a single path. -/
theorem on_unique {q : String} (hp : s.on p n) (hq : s.on q n) : p = q := by
  obtain ⟨ev, hev, rfl⟩ := on_iff.mp hp
  obtain ⟨ev', hev', rfl⟩ := on_iff.mp hq
  rw [hev] at hev'
  cases hev'
  rfl

theorem sound_start : Sound .start := by
  constructor <;> simp [State.start]

theorem impl_debounce : impl.debounce s n ev = debounce s n ev := by cases impl <;> rfl

@[simp] theorem debounce_entry : (debounce s n ev).entry = Function.update s.entry n (some ev) := rfl

@[simp] theorem debounce_pending : (debounce s n ev).pending = Function.update s.pending ev.path (some n) := rfl

@[simp] theorem debounce_submitted : (debounce s n ev).submitted = s.submitted ++ [n] := rfl

@[simp] theorem debounce_out : (debounce s n ev).out = s.out := rfl

/-- The callbacks after a `debounce`: the new entry has its timer, and only the one that waited may be stopped. -/
theorem debounce_callback : (debounce s n ev).callback m =
    if m = n then .timer
    else if s.pending ev.path = some m ∧ s.callback m = .timer then .stopped
    else s.callback m := by
  unfold debounce
  cases hold : s.pending ev.path with
  | none => simp [Function.update_apply]
  | some old =>
    simp only [stop]
    grind [Function.update_apply]

theorem Sound.step (hs : Sound s) (h : Step impl s a s') : Sound s' := by
  obtain ⟨hknown, honce, hpending, htimer, hmade, hsent, hsentOnce⟩ := hs
  cases h with
  | @debounce n ev hnew =>
    rw [impl_debounce]
    constructor
    all_goals simp only [debounce_entry, debounce_pending, debounce_submitted, debounce_out,
      debounce_callback, State.on]
    all_goals grind [Function.update_apply, State.on]
  | fire h =>
    constructor <;> grind [Function.update_apply, State.on]
  | lock h hev =>
    unfold State.lock
    split_ifs <;> constructor <;> grind [Function.update_apply, State.on]
  | send h =>
    constructor <;> grind [Function.update_apply, State.on]

theorem sound_of_run (hrun : Runs (Step impl) .start tr s) : Sound s :=
  hrun.invariant Sound meets_any sound_start fun _ _ _ hs _ h => hs.step h

/-! ### Superseded events -/

theorem superseded_snoc : Superseded (tr ++ [(s, a)]) n ↔ Superseded tr n ∨
    ∃ m ev, a = .debounce m ev ∧ s.on ev.path n ∧ ¬ (s.callback n).Through := by
  constructor
  · rintro ⟨t, m, ev, hmem, h⟩
    rcases List.mem_append.mp hmem with hmem | hmem
    · exact .inl ⟨t, m, ev, hmem, h⟩
    · cases List.mem_singleton.mp hmem
      exact .inr ⟨m, ev, rfl, h⟩
  · rintro (⟨t, m, ev, hmem, h⟩ | ⟨m, ev, rfl, h⟩)
    · exact ⟨t, m, ev, List.mem_append_left _ hmem, h⟩
    · exact ⟨s, m, ev, List.mem_append_right _ (List.mem_singleton_self _), h⟩

/-- A superseded entry is in no map and its callback never gets through; any other is in the map until its
callback gets through. -/
structure Traced (tr : List (State × Action)) (s : State) : Prop where
  superseded : ∀ n, Superseded tr n → s.entry n ≠ none ∧ ¬ (s.callback n).Through ∧ ∀ p, s.pending p ≠ some n
  current : ∀ n ev, s.entry n = some ev → ¬ Superseded tr n →
    (s.callback n).Through ∨ s.pending ev.path = some n

theorem Traced.step (ht : Traced tr s) (hs : Sound s) (h : Step impl s a s') : Traced (tr ++ [(s, a)]) s' := by
  obtain ⟨hknown, honce, hpending, htimer, hmade, hsent, hsentOnce⟩ := hs
  obtain ⟨hsuperseded, hcurrent⟩ := ht
  cases h with
  | @debounce m ev hnew =>
    rw [impl_debounce]
    have hunique : ∀ n q, s.on ev.path n → s.pending q = some n → q = ev.path :=
      fun n q hn hq => on_unique (hpending q n hq).1 hn
    constructor
    all_goals simp only [superseded_snoc, debounce_entry, debounce_pending, debounce_callback]
    all_goals grind [Function.update_apply, State.on, Callback.Through]
  | fire h =>
    constructor
    all_goals simp only [superseded_snoc, reduceCtorEq, false_and, exists_false, or_false]
    all_goals grind [Function.update_apply, State.on, Callback.Through]
  | lock h hev =>
    unfold State.lock
    split_ifs
    all_goals constructor
    all_goals simp only [superseded_snoc, reduceCtorEq, false_and, exists_false, or_false]
    all_goals grind [Function.update_apply, State.on, Callback.Through]
  | send h =>
    constructor
    all_goals simp only [superseded_snoc, reduceCtorEq, false_and, exists_false, or_false]
    all_goals grind [Function.update_apply, State.on, Callback.Through]

theorem traced_of_run (hrun : Runs (Step impl) .start tr s) : Traced tr s := by
  induction hrun with
  | nil =>
    refine ⟨?_, fun n ev h => by cases h⟩
    rintro n ⟨t, m, ev, hmem, -⟩
    exact absurd hmem List.not_mem_nil
  | snoc before last ih => exact ih.step (sound_of_run before) last

/-! ### The order of the events -/

/-- The entries of a path that are sent, the one whose event is being sent, and the one in the map are some of
those submitted, in their order. -/
def Ordered (s : State) (p : String) : Prop :=
  ∃ mid : List ℕ, (∀ n, n ∈ mid ↔ s.on p n ∧ s.callback n = .taken) ∧ mid.length ≤ 1 ∧
    (s.out.filter (s.on p) ++ mid ++ (s.pending p).toList).Sublist (s.submitted.filter (s.on p))

/-- The entries made so far are of the paths they were. -/
theorem filter_on_debounce {l : List ℕ} (hl : n ∉ l) : l.filter ((debounce s n ev).on p) = l.filter (s.on p) := by
  refine List.filter_congr fun m hm => ?_
  have hne : m ≠ n := fun h => hl (h ▸ hm)
  simp [State.on, Function.update_of_ne hne]

theorem Ordered.step (ho : Ordered s p) (hs : Sound s) (hC : InOrder s a) (h : Step impl s a s') : Ordered s' p := by
  obtain ⟨mid, hmid, hlen, hsub⟩ := ho
  cases h with
  | @debounce n ev hnew =>
    rw [impl_debounce]
    have hout : n ∉ s.out := fun hn => by
      rw [hs.sent, hs.made n hnew] at hn
      cases hn
    have hsubmitted : n ∉ s.submitted := fun hn => (hs.known n).mp hn hnew
    have hon : (debounce s n ev).on p n = decide (ev.path = p) := by simp [State.on]
    have htaken : ∀ m, (debounce s n ev).on p m ∧ (debounce s n ev).callback m = .taken ↔
        s.on p m ∧ s.callback m = .taken := by
      intro m
      have hstopped := hs.made n hnew
      rw [debounce_callback, State.on, debounce_entry]
      by_cases hm : m = n
      · subst hm
        simp [hstopped]
      · rw [if_neg hm, Function.update_of_ne hm]
        split_ifs with hstop
        · simp [hstop.2]
        · rfl
    refine ⟨mid, fun m => (hmid m).trans (htaken m).symm, hlen, ?_⟩
    rw [debounce_out, debounce_pending, debounce_submitted, List.filter_append, filter_on_debounce hout,
      filter_on_debounce hsubmitted]
    by_cases hp : p = ev.path
    · subst hp
      have hone : [n].filter ((debounce s n ev).on ev.path) = [n] := by simp [hon]
      rw [hone, Function.update_self]
      exact ((List.sublist_append_left _ _).trans hsub).append (List.Sublist.refl _)
    · have hnone : [n].filter ((debounce s n ev).on p) = [] := by simp [hon, Ne.symm hp]
      rw [hnone, List.append_nil, Function.update_of_ne hp]
      exact hsub
  | @fire n h =>
    refine ⟨mid, fun m => (hmid m).trans (and_congr_right fun _ => ?_), hlen, hsub⟩
    grind [Function.update_apply]
  | @lock n ev h hev =>
    have hon : s.on p n ↔ ev.path = p := by simp [State.on, hev]
    unfold State.lock
    split_ifs with hpending
    · by_cases hp : p = ev.path
      · subst hp
        have hnone : mid = [] := List.eq_nil_iff_forall_not_mem.mpr fun m hm =>
          hC ev hev hpending m ((hmid m).mp hm).1 ((hmid m).mp hm).2
        subst hnone
        refine ⟨[n], fun m => ?_, le_rfl, ?_⟩
        · have hothers : ∀ m, s.on ev.path m → s.callback m ≠ .taken := fun m hm => hC ev hev hpending m hm
          show _ ↔ s.on ev.path m ∧ Function.update s.callback n .taken m = .taken
          grind [Function.update_apply]
        · show (s.out.filter (s.on ev.path) ++ [n] ++ (Function.update s.pending ev.path none ev.path).toList).Sublist
            (s.submitted.filter (s.on ev.path))
          rw [hpending] at hsub
          simpa using hsub
      · refine ⟨mid, fun m => (hmid m).trans (and_congr_right fun hm => ?_), hlen, ?_⟩
        · have hmn : m ≠ n := fun hmn => hp (hon.mp (hmn ▸ hm)).symm
          simp [Function.update_of_ne hmn]
        · show (s.out.filter (s.on p) ++ mid ++ (Function.update s.pending ev.path none p).toList).Sublist _
          rw [Function.update_of_ne hp]
          exact hsub
    · refine ⟨mid, fun m => (hmid m).trans (and_congr_right fun _ => ?_), hlen, hsub⟩
      grind [Function.update_apply]
  | @send n h =>
    have hmade : s.entry n ≠ none := fun hnone => by
      rw [hs.made n hnone] at h
      cases h
    obtain ⟨ev, hev⟩ := Option.ne_none_iff_exists'.mp hmade
    have hon : s.on p n ↔ ev.path = p := by simp [State.on, hev]
    by_cases hp : ev.path = p
    · have hmem : n ∈ mid := (hmid n).mpr ⟨hon.mpr hp, h⟩
      have hone : mid = [n] := by
        cases mid with
        | nil => exact absurd hmem List.not_mem_nil
        | cons m rest =>
          have hrest : rest = [] := List.eq_nil_of_length_eq_zero (by simpa using hlen)
          subst hrest
          rw [List.mem_singleton.mp hmem]
      subst hone
      refine ⟨[], fun m => ?_, Nat.zero_le _, ?_⟩
      · show _ ↔ s.on p m ∧ Function.update s.callback n .sent m = .taken
        have hm := hmid m
        grind [Function.update_apply]
      · show ((s.out ++ [n]).filter (s.on p) ++ [] ++ (s.pending p).toList).Sublist (s.submitted.filter (s.on p))
        rw [List.filter_append, List.filter_singleton, hon.mpr hp]
        simpa using hsub
    · refine ⟨mid, fun m => (hmid m).trans (and_congr_right fun hm => ?_), hlen, ?_⟩
      · have hmn : m ≠ n := fun hmn => hp (hon.mp (hmn ▸ hm))
        simp [Function.update_of_ne hmn]
      · show ((s.out ++ [n]).filter (s.on p) ++ mid ++ (s.pending p).toList).Sublist _
        have hnone : [n].filter (s.on p) = [] := by simp [hon, hp]
        rw [List.filter_append, hnone, List.append_nil]
        exact hsub

/-! ### The other paths -/

/-- The entry of a callback that has more to do. -/
theorem Sound.entry (hs : Sound s) (h : s.callback n ≠ .stopped) : ∃ ev, s.entry n = some ev :=
  Option.ne_none_iff_exists'.mp fun hnone => h (hs.made n hnone)

/-- A callback of the path moves on. -/
theorem restrict_callback {c : Callback} (hn : s.on p n) :
    State.restrict { s with callback := Function.update s.callback n c } p =
      { s.restrict p with callback := Function.update (s.restrict p).callback n c } := by
  refine State.ext rfl rfl (funext fun m => ?_) rfl rfl
  show (if s.on p m then Function.update s.callback n c m else .stopped) =
    Function.update (fun m => if s.on p m then s.callback m else .stopped) n c m
  grind [Function.update_apply]

/-- A callback of another path moves on. -/
theorem restrict_callback_other {c : Callback} (hn : ¬ s.on p n) :
    State.restrict { s with callback := Function.update s.callback n c } p = s.restrict p := by
  refine State.ext rfl rfl (funext fun m => ?_) rfl rfl
  show (if s.on p m then Function.update s.callback n c m else .stopped) =
    if s.on p m then s.callback m else .stopped
  grind [Function.update_apply]

/-- An entry is removed from the map. -/
theorem restrict_pending {q : String} : State.restrict { s with pending := Function.update s.pending q none } p =
    { s.restrict p with pending := Function.update (s.restrict p).pending q none } := by
  refine State.ext (funext fun r => ?_) rfl rfl rfl rfl
  show (if r = p then Function.update s.pending q none r else none) =
    Function.update (fun r => if r = p then s.pending r else none) q none r
  grind [Function.update_apply]

/-- The callbacks of a path after a `debounce`: those of other paths are not touched. -/
theorem Sound.debounce_callback (hs : Sound s) (hon : s.on p m) (hmn : m ≠ n) :
    (debounce s n ev).callback m =
      if ev.path = p ∧ s.pending p = some m ∧ s.callback m = .timer then .stopped else s.callback m := by
  rw [Debounce.debounce_callback, if_neg hmn]
  by_cases hp : ev.path = p
  · simp [hp]
  · have hpending : s.pending ev.path ≠ some m := fun h => hp (on_unique (hs.pending _ _ h).1 hon)
    simp [hp, hpending]

/-- A step about another path is not seen. -/
theorem restrict_other (hs : Sound s) (h : Step impl s a s') (ha : a.path s ≠ some p) :
    s'.restrict p = s.restrict p := by
  cases h with
  | @debounce n ev hnew =>
    have hev : ev.path ≠ p := fun hev => ha (congrArg some hev)
    rw [impl_debounce]
    have hsubmitted : n ∉ s.submitted := fun hn => (hs.known n).mp hn hnew
    have hout : n ∉ s.out := fun hn => by
      rw [hs.sent, hs.made n hnew] at hn
      cases hn
    have hn : (debounce s n ev).on p n = false := by simp [State.on, hev]
    have hn' : s.on p n = false := by simp [State.on, hnew]
    have hon : ∀ m, (debounce s n ev).on p m = s.on p m := by
      intro m
      by_cases hm : m = n
      · rw [hm, hn, hn']
      · simp [State.on, Function.update_of_ne hm]
    refine State.ext (funext fun q => ?_) (funext fun m => ?_) (funext fun m => ?_) ?_ ?_
    · show (if q = p then Function.update s.pending ev.path (some n) q else none) = if q = p then s.pending q else none
      grind [Function.update_apply]
    · show (if (debounce s n ev).on p m then Function.update s.entry n (some ev) m else none) =
        if s.on p m then s.entry m else none
      grind [Function.update_apply]
    · show (if (debounce s n ev).on p m then (debounce s n ev).callback m else .stopped) =
        if s.on p m then s.callback m else .stopped
      rw [hon]
      split_ifs with hm
      · have hmn : m ≠ n := fun hmn => by rw [hmn, hn'] at hm; cases hm
        rw [hs.debounce_callback hm hmn, if_neg fun h => hev h.1]
      · rfl
    · show (s.submitted ++ [n]).filter ((debounce s n ev).on p) = s.submitted.filter (s.on p)
      rw [List.filter_append, filter_on_debounce hsubmitted, List.filter_singleton, hn]
      exact List.append_nil _
    · exact filter_on_debounce hout
  | @fire n h =>
    obtain ⟨ev, hev⟩ := hs.entry (n := n) (by rw [h]; decide)
    have hn : ¬ s.on p n := fun hn => ha (by simpa [Action.path, State.on, hev] using hn)
    exact restrict_callback_other hn
  | @lock n ev h hev =>
    have hp : ev.path ≠ p := fun hp => ha (by simp [Action.path, hev, hp])
    have hn : ¬ s.on p n := by simpa [State.on, hev] using hp
    unfold State.lock
    split_ifs
    · have hcallback := restrict_callback_other (s := { s with pending := Function.update s.pending ev.path none })
        (c := .taken) hn
      rw [restrict_pending] at hcallback
      refine hcallback.trans (State.ext (funext fun q => ?_) rfl rfl rfl rfl)
      show Function.update (fun q => if q = p then s.pending q else none) ev.path none q =
        if q = p then s.pending q else none
      grind [Function.update_apply]
    · exact restrict_callback_other hn
  | @send n h =>
    obtain ⟨ev, hev⟩ := hs.entry (n := n) (by rw [h]; decide)
    have hn : ¬ s.on p n := fun hn => ha (by simpa [Action.path, State.on, hev] using hn)
    refine (restrict_callback_other (s := { s with out := s.out ++ [n] }) hn).trans ?_
    refine State.ext rfl rfl rfl rfl ?_
    show (s.out ++ [n]).filter (s.on p) = s.out.filter (s.on p)
    simp [hn]

/-- A step about the path is a step without the others. -/
theorem restrict_step (hs : Sound s) (h : Step impl s a s') (ha : a.path s = some p) :
    Step impl (s.restrict p) a (s'.restrict p) := by
  cases h with
  | @debounce n ev hnew =>
    obtain rfl : ev.path = p := Option.some.inj ha
    have hsubmitted : n ∉ s.submitted := fun hn => (hs.known n).mp hn hnew
    have hout : n ∉ s.out := fun hn => by
      rw [hs.sent, hs.made n hnew] at hn
      cases hn
    have hn : (debounce s n ev).on ev.path n = true := by simp [State.on]
    have hn' : s.on ev.path n = false := by simp [State.on, hnew]
    have hon : ∀ m, m ≠ n → (debounce s n ev).on ev.path m = s.on ev.path m := fun m hm => by
      simp [State.on, Function.update_of_ne hm]
    rw [impl_debounce]
    have hstep : (debounce s n ev).restrict ev.path = debounce (s.restrict ev.path) n ev := by
      refine State.ext (funext fun q => ?_) (funext fun m => ?_) (funext fun m => ?_) ?_ ?_
      · show (if q = ev.path then Function.update s.pending ev.path (some n) q else none) =
          Function.update (fun q => if q = ev.path then s.pending q else none) ev.path (some n) q
        grind [Function.update_apply]
      · show (if (debounce s n ev).on ev.path m then Function.update s.entry n (some ev) m else none) =
          Function.update (fun m => if s.on ev.path m then s.entry m else none) n (some ev) m
        grind [Function.update_apply]
      · rw [Debounce.debounce_callback]
        show (if (debounce s n ev).on ev.path m then (debounce s n ev).callback m else .stopped) = _
        by_cases hm : m = n
        · rw [hm, hn, if_pos rfl, if_pos rfl, Debounce.debounce_callback, if_pos rfl]
        · rw [hon m hm, if_neg hm]
          by_cases hm' : s.on ev.path m
          · rw [if_pos hm', hs.debounce_callback hm' hm]
            simp [State.restrict, hm']
          · simp [State.restrict, hm']
      · show (s.submitted ++ [n]).filter ((debounce s n ev).on ev.path) = s.submitted.filter (s.on ev.path) ++ [n]
        rw [List.filter_append, filter_on_debounce hsubmitted, List.filter_singleton, hn]
        rfl
      · exact filter_on_debounce hout
    have hnew : (s.restrict ev.path).entry n = none := by simp [State.restrict, hn']
    rw [hstep]
    have hdebounce : Step impl (s.restrict ev.path) (.debounce n ev) (impl.debounce (s.restrict ev.path) n ev) :=
      .debounce hnew
    rwa [impl_debounce] at hdebounce
  | @fire n h =>
    obtain ⟨ev, hev⟩ := hs.entry (n := n) (by rw [h]; decide)
    have hn : s.on p n := by simpa [Action.path, State.on, hev] using ha
    rw [restrict_callback hn]
    exact .fire (by simp [State.restrict, hn, h])
  | @lock n ev h hev =>
    obtain rfl : ev.path = p := by simpa [Action.path, hev] using ha
    have hn : s.on ev.path n := by simp [State.on, hev]
    have hstep : (s.lock n ev).restrict ev.path = (s.restrict ev.path).lock n ev := by
      have hpending : (s.restrict ev.path).pending ev.path = s.pending ev.path := if_pos rfl
      rw [State.lock, State.lock, hpending]
      split_ifs
      · have hcallback := restrict_callback (s := { s with pending := Function.update s.pending ev.path none })
          (c := .taken) hn
        rw [restrict_pending] at hcallback
        exact hcallback
      · exact restrict_callback hn
    rw [hstep]
    exact .lock (by simp [State.restrict, hn, h]) (by simp [State.restrict, hn, hev])
  | @send n h =>
    obtain ⟨ev, hev⟩ := hs.entry (n := n) (by rw [h]; decide)
    have hn : s.on p n := by simpa [Action.path, State.on, hev] using ha
    have hstep : State.restrict { s with callback := Function.update s.callback n .sent, out := s.out ++ [n] } p =
        { s.restrict p with
          callback := Function.update (s.restrict p).callback n .sent
          out := (s.restrict p).out ++ [n] } := by
      refine (restrict_callback (s := { s with out := s.out ++ [n] }) hn).trans ?_
      refine State.ext rfl rfl rfl rfl ?_
      show (s.out ++ [n]).filter (s.on p) = s.out.filter (s.on p) ++ [n]
      simp [hn]
    rw [hstep]
    exact .send (by simp [State.restrict, hn, h])

/-- **Without the other paths.** The steps about one path make a run of their own, which ends in what there is
of the path. -/
theorem independent_of_run (hrun : Runs (Step impl) .start tr s) (p : String) :
    Runs (Step impl) .start (restrictSteps p tr) (s.restrict p) := by
  induction hrun with
  | nil =>
    have hstart : State.restrict .start p = .start := by
      have hoff : ∀ n, ¬ State.start.on p n := fun n h => by simp [State.on, State.start] at h
      refine State.ext (funext fun _ => ite_self _) (funext fun n => ?_) (funext fun n => ?_) rfl rfl
      · simp only [State.restrict, if_neg (hoff n)]
        rfl
      · simp only [State.restrict, if_neg (hoff n)]
        rfl
    rw [hstart]
    exact .nil
  | @snoc tr t u a before last ih =>
    have hsound := sound_of_run before
    rw [restrictSteps, List.filter_append, List.map_append]
    by_cases ha : a.path t = some p
    · have hone : [(t, a)].filter (fun e => e.2.path e.1 = some p) = [(t, a)] := by simp [ha]
      rw [hone]
      exact ih.snoc (restrict_step hsound last ha)
    · have hnone : [(t, a)].filter (fun e => e.2.path e.1 = some p) = [] := by simp [ha]
      rw [hnone, restrict_other hsound last ha]
      simpa [restrictSteps] using ih

/-! ### The last word -/

theorem ordered_of_run (hrun : Runs (Step impl) .start tr s) (hC : Meets InOrder tr) (p : String) : Ordered s p := by
  have hinv := hrun.invariant (fun s => Sound s ∧ Ordered s p) hC ⟨sound_start, [], ?_, Nat.zero_le _, ?_⟩
    fun t a u h hC hstep => ⟨h.1.step hstep, h.2.step h.1 hC hstep⟩
  · exact hinv.2
  · simp [State.start, State.on]
  · simp [State.start]

/-- **Every path gets the last word**, and no more, if no callback takes an event of a path while another one has an
event of the path to send. -/
theorem delivered_of_run (hrun : Runs (Step impl) .start tr s) (hC : Meets InOrder tr) : Delivered impl tr s := by
  have hsound := sound_of_run hrun
  have htraced := traced_of_run hrun
  refine ⟨fun p => ?_, fun n hn hout => ?_, fun n hn hcurrent => ?_, independent_of_run hrun⟩
  · obtain ⟨mid, -, -, hsub⟩ := ordered_of_run hrun hC p
    rw [List.append_assoc] at hsub
    exact ((List.sublist_append_left _ _).trans hsub).filterMap _
  · exact (htraced.superseded n hn).2.1 (.inr ((hsound.sent n).mp hout))
  · obtain ⟨ev, hev⟩ := Option.ne_none_iff_exists'.mp ((hsound.known n).mp hn)
    rcases htraced.current n ev hev hcurrent with (htaken | hsent) | hpending
    · exact .inr (.inr (.inl htaken))
    · exact .inr (.inr (.inr (List.count_eq_one_of_mem hsound.sentOnce ((hsound.sent n).mpr hsent))))
    · rcases (hsound.pending _ _ hpending).2 with htimer | hwaiting
      · exact .inl htimer
      · exact .inr (.inl hwaiting)

/-! ### Two bursts out of order -/

def created : Event := { path := "/a", kind := .create }

def deleted : Event := { path := "/a", kind := .delete }

/-- The state after a step, if it can be taken. -/
def next (s : State) : Action → Option State
  | .debounce n ev => if s.entry n = none then some (Watcher.debounce s n ev) else none
  | .fire n =>
    if s.callback n = .timer then some { s with callback := Function.update s.callback n .waiting } else none
  | .lock n => if s.callback n = .waiting then (s.entry n).map (s.lock n) else none
  | .send n =>
    if s.callback n = .taken then
      some { s with callback := Function.update s.callback n .sent, out := s.out ++ [n] }
    else none

theorem step_of_next (h : next s a = some s') : Step .fanotify s a s' := by
  cases a with
  | debounce n ev =>
    obtain ⟨hnew, h⟩ := Option.ite_none_right_eq_some.mp h
    exact Option.some.inj h ▸ Step.debounce hnew
  | fire n =>
    obtain ⟨hn, h⟩ := Option.ite_none_right_eq_some.mp h
    exact Option.some.inj h ▸ .fire hn
  | lock n =>
    obtain ⟨hn, h⟩ := Option.ite_none_right_eq_some.mp h
    obtain ⟨ev, hev, rfl⟩ := Option.map_eq_some_iff.mp h
    exact .lock hn hev
  | send n =>
    obtain ⟨hn, h⟩ := Option.ite_none_right_eq_some.mp h
    exact Option.some.inj h ▸ .send hn

/-- The run with these actions, as far as they can be taken. -/
def play : List (State × Action) → State → List Action → List (State × Action) × State
  | tr, s, [] => (tr, s)
  | tr, s, a :: actions => match next s a with
    | some s' => play (tr ++ [(s, a)]) s' actions
    | none => (tr, s)

theorem runs_play (actions : List Action) (hrun : Runs (Step .fanotify) .start tr s) :
    Runs (Step .fanotify) .start (play tr s actions).1 (play tr s actions).2 := by
  induction actions generalizing tr s with
  | nil => exact hrun
  | cons a actions ih =>
    unfold play
    split
    · rename_i s' hnext
      exact ih (hrun.snoc (step_of_next hnext))
    · exact hrun

/-- The callback of the first event releases the lock, and goes on when the next event has been sent. -/
def lateSend : List Action :=
  [.debounce 0 created, .fire 0, .lock 0, .debounce 1 deleted, .fire 1, .lock 1, .send 1, .send 0]

theorem last_word_lost : Runs (Step .fanotify) .start (play [] .start lateSend).1 (play [] .start lateSend).2 ∧
    (play [] .start lateSend).2.eventsOut "/a" = [deleted, created] ∧
    ¬ Delivered .fanotify (play [] .start lateSend).1 (play [] .start lateSend).2 := by
  refine ⟨runs_play _ .nil, by decide, fun h => ?_⟩
  have hnot : ¬ ((play [] .start lateSend).2.eventsOut "/a").Sublist ((play [] .start lateSend).2.eventsIn "/a") := by
    decide
  exact hnot (h.subsequence "/a")

/-- Two events in one burst: the first timer has fired, and its callback finds the entry of the second event. -/
def burst : List Action :=
  [.debounce 0 created, .fire 0, .debounce 1 deleted, .lock 0, .fire 1, .lock 1, .send 1]

/-- The same as `InOrder`, for the entries there are. -/
def inOrder (t : State) : Action → Bool
  | .lock n => (t.entry n).all fun ev =>
    t.pending ev.path ≠ some n || t.submitted.all fun m => !t.on ev.path m || t.callback m ≠ .taken
  | _ => true

theorem meets_inOrder (hrun : Runs (Step impl) .start tr s) (h : ∀ e ∈ tr, inOrder e.1 e.2) : Meets InOrder tr := by
  rintro ⟨t, a⟩ he
  have hsound := (hrun.step_from (I := Sound) (fun _ _ _ hrun' => sound_of_run hrun') he).1
  have hcheck := h _ he
  cases a with
  | lock n =>
    intro ev hev hpending m hm
    have hknown : m ∈ t.submitted := by
      obtain ⟨ev', hev', -⟩ := on_iff.mp hm
      exact (hsound.known m).mpr (by rw [hev']; exact Option.some_ne_none _)
    have hall : ∀ m ∈ t.submitted, t.on ev.path m = false ∨ t.callback m ≠ .taken := by
      have hpending : t.pending ev.path = some n := hpending
      rw [inOrder, hev] at hcheck
      simpa [hpending] using hcheck
    exact (hall m hknown).resolve_left (by rw [hm]; exact Bool.noConfusion)
  | _ => trivial

theorem delivered_of_burst : Delivered .fanotify (play [] .start burst).1 (play [] .start burst).2 ∧
    (play [] .start burst).2.eventsOut "/a" = [deleted] := by
  have hrun : Runs (Step .fanotify) .start (play [] .start burst).1 (play [] .start burst).2 := runs_play _ .nil
  exact ⟨delivered_of_run hrun (meets_inOrder hrun (by decide)), by decide⟩

end Tilbo.Watch.Debounce
