import Tilbo.Ipc.Client

/-! # Responses find their calls

`Routed` is what every step of the client keeps: the table holds the `Call`s under way, with open and empty
channels, and no line has gone to two of them. `calls_routed` reads it off for every run. -/

namespace Tilbo.Ipc.Client

open Tilbo.Lib.Steps

variable {ι R : Type} [DecidableEq ι]

/-! ### The invariant -/

/-- Not in the table yet. -/
@[grind] def Pc.Fresh : Pc R → Prop
  | ready | checked | admitted => True
  | _ => False

/-- In the table, unless somebody else has taken the request out. -/
@[grind] def Pc.Pending : Pc R → Prop
  | registered | sending | waiting | removing _ => True
  | _ => False

/-- The line that a `Call` returns, if it returns one. -/
@[grind] def Pc.returns : Pc R → Option (ℕ × UInt64 × R)
  | finished (.response n id resp) => some (n, id, resp)
  | _ => none

/-- The line that has gone to a `Call`, if any: it is in its channel, or was returned. -/
def carries (b : Option (ℕ × UInt64 × R)) (pc : Pc R) : Option (ℕ × UInt64 × R) := b.or pc.returns

@[simp, grind =] theorem carries_none (pc : Pc R) : carries none pc = pc.returns := rfl

@[simp, grind =] theorem carries_some (v : ℕ × UInt64 × R) (pc : Pc R) : carries (some v) pc = some v := rfl

theorem carries_congr (b : Option (ℕ × UInt64 × R)) {pc pc' : Pc R} (h : pc.returns = pc'.returns) :
    carries b pc = carries b pc' := by
  rw [carries, carries, h]

/-- The line in the hands of the read loop. -/
@[grind] def Reader.holds : Reader ι R → Option (ℕ × Line R)
  | scanned n l | parsing n l => some (n, l)
  | delivering n id resp _ => some (n, .response id resp)
  | _ => none

/-- The `Call` a response is being delivered to. -/
@[grind] def Reader.target : Reader ι R → Option ι
  | delivering _ _ _ i | delivered i => some i
  | _ => none

/-- The `n`-th line read. -/
def IsLine (lines : List (Line R)) (n : ℕ) (l : Line R) : Prop := lines[n]? = some l

/-- The channels in the table are open and empty, and belong to `Call`s under way; what was delivered was
delivered to the `Call` it is for; and no line was delivered twice. -/
structure Routed (s : State ι R) : Prop where
  entry : ∀ k i, s.reqs k = some i → s.id i = k ∧ ¬ (s.pc i).Fresh ∧ s.reader.target ≠ some i
  pending : ∀ k i, s.reqs k = some i → s.reader ≠ .closing k →
    (s.pc i).Pending ∧ s.buffered i = none ∧ s.chanClosed i = false
  target : ∀ i, s.reader.target = some i → ¬ (s.pc i).Fresh ∧ s.chanClosed i = false
  delivering : ∀ n id resp i, s.reader = .delivering n id resp i →
    id = s.id i ∧ carries (s.buffered i) (s.pc i) = none
  fresh : ∀ i, (s.pc i).Fresh → s.buffered i = none
  received : ∀ i v, (s.pc i).returns = some v → s.buffered i = none
  carried : ∀ i n id resp, carries (s.buffered i) (s.pc i) = some (n, id, resp) →
    id = s.id i ∧ IsLine s.lines n (.response id resp) ∧ ∀ m l, s.reader.holds = some (m, l) → n < m
  held : ∀ m l, s.reader.holds = some (m, l) → IsLine s.lines m l
  once : ∀ i j n v w, carries (s.buffered i) (s.pc i) = some (n, v) →
    carries (s.buffered j) (s.pc j) = some (n, w) → i = j

section Routed

variable {s s' : State ι R} {a : Action ι} {i : ι}

omit [DecidableEq ι] in
theorem routed_newClient : Routed (newClient : State ι R) := by
  constructor
  all_goals grind [newClient]

theorem carries_update {pc : Pc R} {b : Option (ℕ × UInt64 × R)}
    (h : carries b pc = carries (s.buffered i) (s.pc i)) (j : ι) :
    carries (Function.update s.buffered i b j) (Function.update s.pc i pc j)
      = carries (s.buffered j) (s.pc j) := by
  by_cases hij : j = i
  · subst hij
    rw [Function.update_self, Function.update_self, h]
  · rw [Function.update_of_ne hij, Function.update_of_ne hij]

/-- A `Call` moves on, perhaps with what is in its channel. It may only leave the pending ones if it is not
in the table. -/
theorem Routed.move (hs : Routed s) {pc : Pc R} {b : Option (ℕ × UInt64 × R)}
    (hfresh : pc.Fresh → (s.pc i).Fresh)
    (hpending : ∀ k, s.reqs k = some i → s.reader ≠ .closing k → pc.Pending)
    (hempty : s.buffered i = none → b = none) (hnot : ∀ v, pc.returns = some v → b = none)
    (hcarries : carries b pc = carries (s.buffered i) (s.pc i)) :
    Routed { s.goto i pc with buffered := Function.update s.buffered i b } := by
  have hsame := carries_update hcarries
  obtain ⟨hentry, htable, htarget, hdelivering, hunused, hreceived, hcarried, hheld, honce⟩ := hs
  constructor
  case carried => exact fun j n id resp hj => hcarried j n id resp ((hsame j).symm.trans hj)
  case once =>
    exact fun j k n v w hj hk => honce j k n v w ((hsame j).symm.trans hj) ((hsame k).symm.trans hk)
  case delivering =>
    intro n id resp j hj
    exact ⟨(hdelivering n id resp j hj).1, (hsame j).trans (hdelivering n id resp j hj).2⟩
  all_goals
    simp only [State.goto]
    grind [Function.update_apply]

/-- A `Call` moves on. -/
theorem Routed.goto (hs : Routed s) {pc : Pc R} (hfresh : pc.Fresh → (s.pc i).Fresh)
    (hpending : ∀ k, s.reqs k = some i → s.reader ≠ .closing k → pc.Pending)
    (hreturns : pc.returns = (s.pc i).returns) : Routed (s.goto i pc) := by
  have h := hs.move (b := s.buffered i) hfresh hpending id
    (fun v hv => hs.received i v (hreturns.symm.trans hv)) (carries_congr _ hreturns)
  rwa [Function.update_eq_self] at h

omit [DecidableEq ι] in
/-- A request leaves the table. -/
theorem Routed.forget (hs : Routed s) (id : UInt64) :
    Routed { s with reqs := Function.update s.reqs id none } := by
  have hsub : ∀ k i, Function.update s.reqs id none k = some i → s.reqs k = some i := by
    grind [Function.update_apply]
  obtain ⟨hentry, htable, htarget, hdelivering, hunused, hreceived, hcarried, hheld, honce⟩ := hs
  exact ⟨fun k i h => hentry k i (hsub k i h), fun k i h => htable k i (hsub k i h), htarget, hdelivering,
    hunused, hreceived, hcarried, hheld, honce⟩

/-- A step of a `Call` alone. -/
theorem Routed.call (hs : Routed s) {pc : Pc R} (h : CallStep s i (s.pc i) pc) : Routed (s.goto i pc) := by
  have htable := hs.pending
  have hentry := hs.entry
  generalize hpc : s.pc i = old at h
  cases h
  all_goals
    apply hs.goto
    all_goals grind

theorem Routed.register (hs : Routed s) (h : s.pc i = .admitted) (hlock : s.Unlocked) :
    Routed { s.goto i .registered with
      nextID := s.nextID + 1
      reqs := Function.update s.reqs s.nextID (some i)
      id := Function.update s.id i s.nextID
      buffered := Function.update s.buffered i none
      chanClosed := Function.update s.chanClosed i false } := by
  have hnew : ∀ k, s.reqs k ≠ some i := by
    intro k hk
    have hfresh := (hs.entry k i hk).2.1
    rw [h] at hfresh
    exact hfresh trivial
  have hnone : s.buffered i = none := hs.fresh i (by rw [h]; trivial)
  have hdrain : ¬ s.reader.InDrain := hlock
  obtain ⟨hentry, htable, htarget, hdelivering, hunused, hreceived, hcarried, hheld, honce⟩ := hs
  simp only [State.goto]
  constructor
  all_goals grind [Reader.InDrain, Function.update_apply]

omit [DecidableEq ι] in
/-- The read loop closes no channel before such a step, and after it has nobody to deliver to and no other line. -/
theorem ReaderStep.keeps {old r : Reader ι R} (h : ReaderStep s old r) :
    (∀ k, old ≠ .closing k) ∧ r.target = none ∧ ∀ v, r.holds = some v → old.holds = some v := by
  cases h
  all_goals exact ⟨nofun, rfl, by simp [Reader.holds]⟩

omit [DecidableEq ι] in
theorem Routed.reader (hs : Routed s) {r : Reader ι R} (h : ReaderStep s s.reader r) :
    Routed { s with reader := r } := by
  obtain ⟨hclosing, hnobody, hholds⟩ := h.keeps
  have hno : ∀ i, r.target ≠ some i := fun i hi => by
    rw [hnobody] at hi
    cases hi
  exact {
    entry := fun k i hk => ⟨(hs.entry k i hk).1, (hs.entry k i hk).2.1, hno i⟩
    pending := fun k i hk _ => hs.pending k i hk (hclosing k)
    target := fun i hi => absurd hi (hno i)
    delivering := fun n id resp i hr => absurd (congrArg Reader.target hr) (hno i)
    fresh := hs.fresh
    received := hs.received
    carried := fun i n id resp hi => by
      obtain ⟨hid, hline, hlater⟩ := hs.carried i n id resp hi
      exact ⟨hid, hline, fun m l hm => hlater m l (hholds _ hm)⟩
    held := fun m l hm => hs.held m l (hholds _ hm)
    once := hs.once }

/-- **One step.** -/
theorem Routed.step (hs : Routed s) (h : Step s a s') : Routed s' := by
  cases h with
  | call h => exact hs.call h
  | register h hlock => exact hs.register h hlock
  | @write i h =>
    refine hs.goto ?_ ?_ ?_
    all_goals grind
  | @remove i e h =>
    have hgone : ∀ k, Function.update s.reqs (s.id i) none k ≠ some i := by
      intro k
      have hentry := hs.entry k i
      grind [Function.update_apply]
    refine (hs.forget (s.id i)).goto ?_ (fun k hk => absurd hk (hgone k)) ?_
    all_goals grind
  | @receive i n id resp h hbuf =>
    have hentry := hs.entry
    have htable := hs.pending
    refine hs.move ?_ ?_ ?_ ?_ ?_
    all_goals grind
  | reader h => exact hs.reader h
  | cancel i =>
    exact ⟨hs.entry, hs.pending, hs.target, hs.delivering, hs.fresh, hs.received, hs.carried, hs.held, hs.once⟩
  | close => exact ⟨hs.entry, hs.pending, hs.target, hs.delivering, hs.fresh, hs.received, hs.carried, hs.held, hs.once⟩
  | hangUp =>
    exact ⟨hs.entry, hs.pending, hs.target, hs.delivering, hs.fresh, hs.received, hs.carried, hs.held, hs.once⟩
  | scan l h =>
    obtain ⟨hentry, htable, htarget, hdelivering, hunused, hreceived, hcarried, hheld, honce⟩ := hs
    constructor
    case carried =>
      intro i n id resp hi
      obtain ⟨hid, hline, -⟩ := hcarried i n id resp hi
      have hn : n < s.lines.length := (List.getElem?_eq_some_iff.mp hline).1
      refine ⟨hid, (List.getElem?_append_left hn).trans hline, fun m l' hm => ?_⟩
      cases hm
      exact hn
    case held =>
      intro m l' hm
      cases hm
      exact List.getElem?_concat_length
    case once => exact honce
    all_goals grind
  | @look n id resp i h hreq =>
    have hi := hs.pending id i hreq (by rw [h]; nofun)
    have hreturns : (s.pc i).returns = none := by
      have hpending := hi.1
      cases hpc : s.pc i
      all_goals grind
    have hid := hs.entry id i hreq
    obtain ⟨hentry, htable, htarget, hdelivering, hunused, hreceived, hcarried, hheld, honce⟩ := hs
    constructor
    all_goals grind [Function.update_apply]
  | _ =>
    obtain ⟨hentry, htable, htarget, hdelivering, hunused, hreceived, hcarried, hheld, honce⟩ := hs
    constructor
    all_goals grind [Function.update_apply]

end Routed

/-! ### Every run -/

/-- Where a channel is used, it is open. -/
theorem Routed.open {s s' : State ι R} {a : Action ι} {i : ι} (hs : Routed s) (h : Step s a s')
    (ha : a = .send i ∨ a = .closeChan i) : s.chanClosed i = false := by
  cases h with
  | send h =>
    rcases ha with ha | ha
    · cases ha
      exact (hs.target i (by rw [h]; rfl)).2
    · cases ha
  | closeDelivered h =>
    rcases ha with ha | ha
    · cases ha
    · cases ha
      exact (hs.target i (by rw [h]; rfl)).2
  | closeDrained h hreq =>
    rcases ha with ha | ha
    · cases ha
    · cases ha
      exact (hs.pending _ i hreq (by rw [h]; nofun)).2.2
  | _ => rcases ha with ha | ha <;> cases ha

/-- The `n`-th line has gone to the `Call`. -/
def State.Delivered (s : State ι R) (i : ι) (n : ℕ) : Prop :=
  (∃ id resp, s.buffered i = some (n, id, resp)) ∨ ∃ id resp, s.pc i = .finished (.response n id resp)

omit [DecidableEq ι] in
theorem Routed.carries_of_delivered {s : State ι R} {i : ι} {n : ℕ} (hs : Routed s) (h : s.Delivered i n) :
    ∃ v, carries (s.buffered i) (s.pc i) = some (n, v) := by
  rcases h with ⟨id, resp, h⟩ | ⟨id, resp, h⟩
  · exact ⟨(id, resp), by rw [h]; rfl⟩
  · have hnone : s.buffered i = none := hs.received i _ (by rw [h]; rfl)
    exact ⟨(id, resp), by rw [h, hnone]; rfl⟩

/-- **Every run.** A response that a `Call` returns is one the read loop read, and carries the `Call`'s own
id; no line goes to two `Call`s; a channel is open when it is sent to or closed; and what is in the table
is a `Call` under way, under its own id, but for the request that `drainReqs` is just taking out. -/
theorem calls_routed {tr : List (State ι R × Action ι)} {s : State ι R} (hrun : Runs Step newClient tr s) :
    (∀ i n id resp, s.pc i = .finished (.response n id resp) →
        id = s.id i ∧ s.lines[n]? = some (.response id resp)) ∧
      (∀ i j n, s.Delivered i n → s.Delivered j n → i = j) ∧
      (∀ e ∈ tr, ∀ i, e.2 = .send i ∨ e.2 = .closeChan i → e.1.chanClosed i = false) ∧
      ∀ k i, s.reqs k = some i → s.reader ≠ .closing k → s.id i = k ∧ ∀ o, s.pc i ≠ .finished o := by
  have hrouted : ∀ {tr : List (State ι R × Action ι)} {s : State ι R}, Runs Step newClient tr s → Routed s :=
    fun hrun => hrun.invariant Routed meets_any routed_newClient fun t a u ht _ hstep => ht.step hstep
  have hs := hrouted hrun
  refine ⟨?_, ?_, ?_, ?_⟩
  · intro i n id resp hpc
    have hnone : s.buffered i = none := hs.received i _ (by rw [hpc]; rfl)
    have hcarried := hs.carried i n id resp (by rw [hpc, hnone]; rfl)
    exact ⟨hcarried.1, hcarried.2.1⟩
  · intro i j n hi hj
    obtain ⟨v, hv⟩ := hs.carries_of_delivered hi
    obtain ⟨w, hw⟩ := hs.carries_of_delivered hj
    exact hs.once i j n v w hv hw
  · intro e he i ha
    obtain ⟨hfrom, u, hstep⟩ := hrun.step_from (fun _ _ _ h => hrouted h) he
    exact hfrom.open hstep ha
  · intro k i hk hclosing
    have hpending := (hs.pending k i hk hclosing).1
    refine ⟨(hs.entry k i hk).1, fun o ho => ?_⟩
    rw [ho] at hpending
    exact hpending

/-- A `Call` that is answered. -/
theorem answered_run : ∃ (tr : List (State Unit ℕ × Action Unit)) (s : State Unit ℕ),
    Runs Step newClient tr s ∧ s.pc () = .finished (.response 0 1 7) ∧ s.reader = .scanning := by
  have h0 : Runs Step (newClient : State Unit ℕ) [] newClient := .nil
  have h1 := h0.snoc (.call (i := ()) (.check rfl))
  have h2 := h1.snoc (.call (i := ()) (.allow rfl))
  have h3 := h2.snoc (.register (i := ()) rfl id)
  have h4 := h3.snoc (.call (i := ()) (.proceed rfl))
  have h5 := h4.snoc (.write (i := ()) rfl rfl)
  have h6 := h5.snoc (.scan (.response 1 7) rfl)
  have h7 := h6.snoc (.reader (.parse rfl))
  have h8 := h7.snoc (.look (i := ()) rfl rfl)
  have h9 := h8.snoc (.send rfl rfl)
  have h10 := h9.snoc (.closeDelivered rfl)
  have h11 := h10.snoc (.receive (i := ()) rfl rfl)
  exact ⟨_, _, h11, rfl, rfl⟩

/-- The response is the one that was read. -/
theorem calls_routed_answered : ∃ s : State Unit ℕ, s.pc () = .finished (.response 0 1 7) ∧
    s.lines[0]? = some (.response 1 7) ∧ ∀ k, s.reqs k ≠ some () := by
  obtain ⟨tr, s, hrun, hpc, hreader⟩ := answered_run
  have h := calls_routed hrun
  refine ⟨s, hpc, (h.1 () 0 1 7 hpc).2, fun k hk => ?_⟩
  exact (h.2.2.2 k () hk (by rw [hreader]; nofun)).2 _ hpc

end Tilbo.Ipc.Client
