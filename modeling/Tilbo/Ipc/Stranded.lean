import Tilbo.Ipc.Routing

/-! # Calls left waiting

The read loop drains the table and then closes the connection. A `Call` that registers and writes in
between is in a table nobody reads any more: its write succeeds, and no one answers it or closes its
channel (`stranded_run`). `no_call_stranded`: without such a write, and without an id that is given out again
while a `Call` still has it, no `Call` waits for ever. -/

namespace Tilbo.Ipc.Client

open Tilbo.Lib.Steps

variable {ι R : Type} [DecidableEq ι]

/-- The read loop is done, and the `Call` waits: its channel is open and empty, its context not cancelled. -/
def State.Stranded (s : State ι R) (i : ι) : Prop :=
  s.reader = .done ∧ s.pc i = .waiting ∧ s.buffered i = none ∧ s.chanClosed i = false ∧ s.ctxDone i = false

/-- A condition on a step: a request is not written after the drain, unless the drain has seen it, and a
request id is not given out while a `Call` under way has it. -/
def Timely (s : State ι R) : Action ι → Prop
  | .write i => s.reader = .drained → s.reqs (s.id i) ≠ some i
  | .register _ => ∀ j, (s.pc j).Pending → s.id j ≠ s.nextID
  | _ => True

/-! ### The invariant -/

/-- A response can still come. -/
@[grind] def Pc.Expecting : Pc R → Prop
  | registered | sending | waiting => True
  | _ => False

@[grind →] theorem Pc.Expecting.pending {pc : Pc R} (h : pc.Expecting) : pc.Pending := by
  cases pc with
  | registered | sending | waiting => trivial
  | _ => exact h.elim

/-- The table was drained for the last time. -/
@[grind] def Reader.Past : Reader ι R → Prop
  | drained | disconnected | done => True
  | _ => False

/-- The connection was closed by the read loop. -/
@[grind] def Reader.HungUp : Reader ι R → Prop
  | disconnected | done => True
  | _ => False

/-- Every `Call` that expects a response is in the table, is being served or has been served; and after the
drain no `Call` in the table waits. -/
structure Attended (s : State ι R) : Prop where
  attended : ∀ i, (s.pc i).Expecting → s.reqs (s.id i) = some i ∨ s.reader.target = some i ∨
    s.buffered i ≠ none ∨ s.chanClosed i = true
  unique : ∀ i j, (s.pc i).Pending → (s.pc j).Pending → s.id i = s.id j → i = j
  closing : ∀ k i, s.reader = .closing k → s.reqs k = some i → s.chanClosed i = true
  late : s.reader.Past → ∀ i, s.pc i = .waiting → s.reqs (s.id i) ≠ some i
  hungUp : s.reader.HungUp → s.connected = false

section Attended

variable {s s' : State ι R} {a : Action ι} {i : ι}

omit [DecidableEq ι] in
theorem attended_newClient : Attended (newClient : State ι R) := by
  constructor
  all_goals grind [newClient]

/-- A `Call` moves on; it only starts to wait with the drain ahead of it. -/
theorem Attended.goto (hs : Attended s) {pc : Pc R} (hexpecting : pc.Expecting → (s.pc i).Expecting)
    (hpending : pc.Pending → (s.pc i).Pending)
    (hlate : s.reader.Past → pc = .waiting → s.reqs (s.id i) ≠ some i) : Attended (s.goto i pc) := by
  obtain ⟨hattended, hunique, hclosing, hpast, hhungUp⟩ := hs
  simp only [State.goto]
  constructor
  all_goals grind [Function.update_apply]

theorem Attended.call (hs : Attended s) {pc : Pc R} (h : CallStep s i (s.pc i) pc) :
    Attended (s.goto i pc) := by
  generalize hpc : s.pc i = old at h
  cases h
  all_goals
    apply hs.goto
    all_goals grind

omit [DecidableEq ι] in
theorem Attended.reader (hs : Attended s) {r : Reader ι R} (h : ReaderStep s s.reader r) :
    Attended { s with reader := r } := by
  obtain ⟨hattended, hunique, hclosing, hpast, hhungUp⟩ := hs
  generalize hr : s.reader = old at h
  cases h
  all_goals
    constructor
    all_goals grind

/-- **One step.** -/
theorem Attended.step (hs : Attended s) (hr : Routed s) (hC : Timely s a) (h : Step s a s') : Attended s' := by
  cases h with
  | call h => exact hs.call h
  | @write i h hconn =>
    refine hs.goto (fun _ => by rw [h]; trivial) (fun _ => by rw [h]; trivial) fun hpast _ => ?_
    -- the connection is still open, so the drain is only just over
    have hdrained : s.reader = .drained := by
      have hopen : ¬ s.reader.HungUp := fun hhungUp => by simp [hs.hungUp hhungUp] at hconn
      cases hreader : s.reader
      all_goals grind
    exact hC hdrained
  | @register i h hlock =>
    have htarget : s.reader.target ≠ some i := by
      intro htarget
      have hfresh := (hr.target i htarget).1
      rw [h] at hfresh
      exact hfresh trivial
    obtain ⟨hattended, hunique, hclosing, hpast, hhungUp⟩ := hs
    simp only [State.goto]
    constructor
    case attended =>
      intro j hj
      by_cases hij : j = i
      · subst hij
        left
        simp
      · replace hj : (s.pc j).Expecting := by simpa [Function.update_of_ne hij] using hj
        have hid : s.id j ≠ s.nextID := hC j hj.pending
        simpa [Function.update_of_ne hij, Function.update_of_ne hid] using hattended j hj
    all_goals grind [State.Unlocked, Reader.InDrain, Timely, Function.update_apply]
  | @remove i e h =>
    obtain ⟨hattended, hunique, hclosing, hpast, hhungUp⟩ := hs
    simp only [State.goto]
    constructor
    case attended =>
      intro j hj
      by_cases hij : j = i
      · subst hij
        simp [Pc.Expecting] at hj
      · replace hj : (s.pc j).Expecting := by simpa [Function.update_of_ne hij] using hj
        have hid : s.id j ≠ s.id i := fun hid => hij (hunique j i hj.pending (by rw [h]; trivial) hid)
        simpa [Function.update_of_ne hid] using hattended j hj
    all_goals grind [Function.update_apply]
  | reader h => exact hs.reader h
  | _ =>
    have hentry := hr.entry
    obtain ⟨hattended, hunique, hclosing, hpast, hhungUp⟩ := hs
    try simp only [State.goto]
    constructor
    all_goals grind [State.Unlocked, Reader.InDrain, Timely, Function.update_apply]

end Attended

/-! ### Every run -/

/-- **No `Call` is stranded**, if requests are written in time. -/
theorem no_call_stranded {tr : List (State ι R × Action ι)} {s : State ι R} (hrun : Runs Step newClient tr s)
    (htimely : Meets Timely tr) (i : ι) : ¬ s.Stranded i := by
  have hs : Routed s ∧ Attended s := by
    refine hrun.invariant (fun s => Routed s ∧ Attended s) htimely ⟨routed_newClient, attended_newClient⟩ ?_
    exact fun t a u ht hC hstep => ⟨ht.1.step hstep, ht.2.step ht.1 hC hstep⟩
  rintro ⟨hdone, hwaiting, hempty, hopen, -⟩
  have htable : s.reqs (s.id i) ≠ some i := hs.2.late (by rw [hdone]; trivial) i hwaiting
  rcases hs.2.attended i (by rw [hwaiting]; trivial) with h | h | h | h
  · exact htable h
  · rw [hdone] at h
    cases h
  · exact h hempty
  · rw [hopen] at h
    cases h

/-- A stranded `Call` waits until its context is cancelled. -/
theorem State.Stranded.step {s s' : State ι R} {a : Action ι} {i : ι} (hs : s.Stranded i) (h : Step s a s') :
    s'.Stranded i ∨ s'.ctxDone i = true := by
  obtain ⟨hdone, hwaiting, hempty, hopen, hctx⟩ := hs
  cases h with
  | @call j pc h =>
    have hij : i ≠ j := by
      rintro rfl
      rw [hwaiting] at h
      cases h
      all_goals simp_all
    left
    refine ⟨hdone, ?_, hempty, hopen, hctx⟩
    simpa [State.goto, Function.update_of_ne hij] using hwaiting
  | reader h =>
    rw [hdone] at h
    cases h
  | _ =>
    simp only [State.Stranded, State.goto]
    grind [Function.update_apply]

/-- **A `Call` that is.** A line is too long, and the read loop drains the table; a `Call` registers and writes; the
read loop closes the connection. -/
theorem stranded_run : ∃ (tr : List (State Unit ℕ × Action Unit)) (s : State Unit ℕ),
    Runs Step newClient tr s ∧ s.Stranded () := by
  have h0 : Runs Step (newClient : State Unit ℕ) [] newClient := .nil
  have h1 := h0.snoc (.reader .stop)
  have h2 := h1.snoc (.reader (.drained fun _ => rfl))
  have h3 := h2.snoc (.call (i := ()) (.check rfl))
  have h4 := h3.snoc (.call (i := ()) (.allow rfl))
  have h5 := h4.snoc (.register (i := ()) rfl id)
  have h6 := h5.snoc (.call (i := ()) (.proceed rfl))
  have h7 := h6.snoc (.write (i := ()) rfl rfl)
  have h8 := h7.snoc (.disconnect rfl)
  have hempty : ∀ id : UInt64, Function.update (Function.update (fun _ => none) 1 (some ())) 1 none id = none := by
    grind [Function.update_apply]
  have h9 := h8.snoc (.reader .finish)
  exact ⟨_, _, h9, rfl, rfl, rfl, rfl, rfl⟩

/-- A `Call` that has written before the drain: it waits, and its channel is closed. -/
theorem no_call_stranded_drained : ∃ (tr : List (State Unit ℕ × Action Unit)) (s : State Unit ℕ),
    Runs Step newClient tr s ∧ s.reader = .done ∧ s.pc () = .waiting ∧ s.ctxDone () = false ∧
      ¬ s.Stranded () := by
  have h0 : Runs Step (newClient : State Unit ℕ) [] newClient := .nil
  have h1 := h0.snoc (.call (i := ()) (.check rfl))
  have h2 := h1.snoc (.call (i := ()) (.allow rfl))
  have h3 := h2.snoc (.register (i := ()) rfl id)
  have h4 := h3.snoc (.call (i := ()) (.proceed rfl))
  have h5 := h4.snoc (.write (i := ()) rfl rfl)
  have h6 := h5.snoc (.reader .stop)
  have h7 := h6.snoc (@Step.closeDrained _ _ _ _ 1 () rfl rfl)
  have h8 := h7.snoc (.deleteDrained rfl)
  have hempty : ∀ id : UInt64, Function.update (Function.update (fun _ => none) 1 (some ())) 1 none id = none := by
    grind [Function.update_apply]
  have h9 := h8.snoc (.reader (.drained hempty))
  have h10 := h9.snoc (.disconnect rfl)
  have h11 := h10.snoc (.reader .finish)
  refine ⟨_, _, h11, rfl, rfl, rfl, no_call_stranded h11 ?_ ()⟩
  have hregister : ∀ j : Unit, (Pc.admitted : Pc ℕ).Pending → (0 : UInt64) ≠ 1 := fun _ h => h.elim
  refine .snoc (.snoc (.snoc (.snoc (.snoc (.snoc ?_ trivial) trivial) trivial) trivial) trivial) trivial
  exact .snoc (.snoc (.snoc (.snoc (.snoc .nil trivial) trivial) hregister) trivial) nofun

end Tilbo.Ipc.Client
