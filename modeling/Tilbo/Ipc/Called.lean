import Tilbo.Ipc.Stranded

/-! # Who is served

What a client knows of its requests when responses come only for requests that it has sent: each has an id of its own, and
while the read loop goes on, a response that was looked at has reached its `Call`. The ids are numbers of 64 bits, and are
given out in turn. -/

namespace Tilbo.Ipc.Client

open Tilbo.Lib.Steps

variable {ι T : Type} [DecidableEq ι] {c c' : State ι T} {requests : List ι} {n : ℕ} {i j : ι}

/-- The read loop is about to end. -/
@[grind] def Over : Reader ι T → Prop
  | .draining | .closing _ | .drained | .disconnected | .done => True
  | _ => False

/-- The `Call` has got beyond writing its request. -/
@[grind] def Sent : Pc T → Prop
  | .waiting | .removing _ | .finished _ => True
  | _ => False

/-- The line that the read loop has not looked at. -/
@[grind] def unread : Reader ι T → Option ℕ
  | .scanned n _ | .parsing n _ => some n
  | _ => none

/-- The `Call` has an id. -/
@[grind] def Given (c : State ι T) (requests : List ι) (i : ι) : Prop := (c.pc i).Pending ∨ i ∈ requests

/-- The ids are given out one after the other, and who is served is a `Call` whose request was sent. -/
structure Called (n : ℕ) (c : State ι T) (requests : List ι) : Prop where
  routed : Routed c
  next : c.nextID = UInt64.ofNat (n + 1)
  below : ∀ i, Given c requests i → ∃ k < n, c.id i = UInt64.ofNat (k + 1)
  distinct : ∀ i j, Given c requests i → Given c requests j → c.id i = c.id j → i = j
  nodup : requests.Nodup
  asked : ∀ i ∈ requests, Sent (c.pc i)
  target : ∀ i, c.reader.target = some i → i ∈ requests
  carried : ∀ i, carries (c.buffered i) (c.pc i) ≠ none → i ∈ requests

/-- The responses that were read are for requests that were sent. -/
def Asked (c : State ι T) (requests : List ι) : Prop :=
  ∀ (n : ℕ) (id : UInt64) (resp : T), c.lines[n]? = some (.response id resp) → ∃ i ∈ requests, c.id i = id

/-- While the read loop goes on, a `Call` whose response was looked at has left the table, and has it. -/
structure Heard (c : State ι T) (requests : List ι) : Prop where
  attended : Attended c
  closed : ∀ i, c.chanClosed i = true → carries (c.buffered i) (c.pc i) ≠ none
  delivered : ∀ i, c.reader = .delivered i → carries (c.buffered i) (c.pc i) ≠ none
  looked : ∀ (n : ℕ) (id : UInt64) (resp : T), c.lines[n]? = some (.response id resp) → unread c.reader ≠ some n →
    ∀ i, Given c requests i → c.id i = id → c.reqs id ≠ some i

theorem ofNat_succ_ne {k : ℕ} (hk : k < n) (hn : n < UInt64.size) : UInt64.ofNat (k + 1) ≠ UInt64.ofNat (n + 1) := by
  intro heq
  have hmod := congrArg UInt64.toNat heq
  simp only [UInt64.toNat_ofNat'] at hmod
  rw [UInt64.size] at hn
  omega

omit [DecidableEq ι] in
theorem called_newClient : Called 0 (newClient : State ι T) [] := by
  have hno : ∀ i : ι, ¬ Given (newClient : State ι T) [] i := by
    rintro i (h | h)
    · exact h
    · exact List.not_mem_nil h
  exact ⟨routed_newClient, rfl, fun i hi => absurd hi (hno i), fun i _ hi => absurd hi (hno i), List.nodup_nil,
    fun _ h => absurd h List.not_mem_nil, nofun, fun _ h => absurd rfl h⟩

omit [DecidableEq ι] in
/-- A new id is not that of another `Call`. -/
theorem Called.new (h : Called n c requests) (hn : n < UInt64.size) (hi : Given c requests i) : c.id i ≠ c.nextID := by
  obtain ⟨k, hk, hid⟩ := h.below i hi
  rw [hid, h.next]
  exact ofNat_succ_ne hk hn

omit [DecidableEq ι] in
theorem Called.timely (h : Called n c requests) (hn : n < UInt64.size) (hover : ¬ Over c.reader) (a : Action ι) :
    Timely c a := by
  cases a with
  | write i => exact fun hdrained => absurd (by rw [hdrained]; trivial) hover
  | register i => exact fun j hj => h.new hn (.inl hj)
  | _ => trivial

/-- What a step of the client does to the ids, to the `Call`s and to who is served. -/
structure Keeps (c c' : State ι T) : Prop where
  nextID : c'.nextID = c.nextID
  id : c'.id = c.id
  pending : ∀ i, (c'.pc i).Pending → (c.pc i).Pending
  sent : ∀ i, Sent (c.pc i) → Sent (c'.pc i)
  target : ∀ i, c'.reader.target = some i → c.reader.target = some i ∨
    ∃ n id resp, c.reader = .parsing n (.response id resp) ∧ c.reqs id = some i
  carried : ∀ i, carries (c'.buffered i) (c'.pc i) ≠ none →
    carries (c.buffered i) (c.pc i) ≠ none ∨ c.reader.target = some i

/-- A `Call` that goes on. -/
theorem keeps_goto {pc : Pc T} (hpending : pc.Pending → (c.pc i).Pending) (hsent : Sent (c.pc i) → Sent pc)
    (hreturns : pc.returns = (c.pc i).returns) : Keeps c (c.goto i pc) := by
  have hsame : ∀ j, carries (c.buffered j) ((c.goto i pc).pc j) = carries (c.buffered j) (c.pc j) := by
    intro j
    refine carries_congr _ ?_
    simp only [State.goto, Function.update_apply]
    split_ifs with hj
    · rw [hreturns, hj]
    · rfl
  have hpc : ∀ j, (c.goto i pc).pc j = if j = i then pc else c.pc j := fun j => Function.update_apply ..
  refine ⟨rfl, rfl, fun j => ?_, fun j => ?_, fun _ h => .inl h, fun j h => .inl (hsame j ▸ h)⟩
  · rw [hpc]
    split_ifs with hj
    · exact hj ▸ hpending
    · exact id
  · rw [hpc]
    split_ifs with hj
    · exact hj ▸ hsent
    · exact id

theorem keeps_of_step {a : Action ι} (h : Step c a c') (ha : ∀ i, a ≠ .register i) :
    Keeps c c' := by
  cases h with
  | @call i pc h =>
    generalize hpc : c.pc i = old at h
    cases h
    all_goals
      apply keeps_goto
      all_goals grind
  | register h => exact absurd rfl (ha _)
  | @write i h =>
    apply keeps_goto
    all_goals grind
  | @remove i e h =>
    have hkeeps : Keeps c (c.goto i (.finished (.failure e))) := by
      apply keeps_goto
      all_goals grind
    exact ⟨hkeeps.nextID, hkeeps.id, hkeeps.pending, hkeeps.sent, hkeeps.target, hkeeps.carried⟩
  | reader h =>
    refine ⟨rfl, rfl, fun _ h => h, fun _ h => h, fun i hi => ?_, fun _ h => .inl h⟩
    rw [h.keeps.2.1] at hi
    cases hi
  | @receive i n id resp h hbuf =>
    have hpc : ∀ j, (c.goto i (.finished (.response n id resp))).pc j =
        if j = i then .finished (.response n id resp) else c.pc j := fun j => Function.update_apply ..
    refine ⟨rfl, rfl, fun j hj => ?_, fun j hj => ?_, fun _ h => .inl h, fun j hj => .inl ?_⟩
    · rw [hpc] at hj
      split_ifs at hj
      · exact hj.elim
      · exact hj
    · rw [hpc]
      split_ifs
      · trivial
      · exact hj
    · by_cases hji : j = i
      · rw [hji, hbuf]
        exact Option.some_ne_none _
      · simpa [State.goto, Function.update_of_ne hji] using hj
  | cancel | close | hangUp => exact ⟨rfl, rfl, fun _ h => h, fun _ h => h, fun _ h => .inl h, fun _ h => .inl h⟩
  | look h hreq =>
    refine ⟨rfl, rfl, fun _ h => h, fun _ h => h, fun i hi => .inr ?_, fun _ h => .inl h⟩
    cases hi
    exact ⟨_, _, _, h, hreq⟩
  | @send n id resp i h hroom =>
    have htarget : c.reader.target = some i := by rw [h]; rfl
    refine ⟨rfl, rfl, fun _ h => h, fun _ h => h, fun j hj => .inl (htarget.trans hj), fun j hj => ?_⟩
    by_cases hji : j = i
    · exact .inr (hji ▸ htarget)
    · exact .inl (by simpa [Function.update_of_ne hji] using hj)
  | _ => exact ⟨rfl, rfl, fun _ h => h, fun _ h => h, fun _ h => (by cases h), fun _ h => .inl h⟩

omit [DecidableEq ι] in
theorem Called.keeps (h : Called n c requests) (hasked : Asked c requests) (hrouted : Routed c') (hk : Keeps c c') :
    Called n c' requests := by
  have hgiven : ∀ i, Given c' requests i → Given c requests i := fun i hi => hi.imp_left (hk.pending i)
  have htarget : ∀ i, c.reader.target = some i → i ∈ requests := h.target
  refine ⟨hrouted, hk.nextID.trans h.next, fun i hi => ?_, fun i j hi hj hid => ?_, h.nodup, fun i hi => hk.sent i (h.asked i hi),
    fun i hi => ?_, fun i hi => ?_⟩
  · rw [hk.id]
    exact h.below i (hgiven i hi)
  · rw [hk.id] at hid
    exact h.distinct i j (hgiven i hi) (hgiven j hj) hid
  · rcases hk.target i hi with hi | ⟨n, id, resp, hreader, hreq⟩
    · exact htarget i hi
    · -- The response is for a request that was sent, and the table has it for the `Call` with that id.
      have hline : IsLine c.lines n (.response id resp) := h.routed.held n _ (by rw [hreader]; rfl)
      obtain ⟨j, hj, hid⟩ := hasked n id resp hline
      have hpending : (c.pc i).Pending := (h.routed.pending id i hreq (by rw [hreader]; nofun)).1
      rwa [h.distinct i j (.inl hpending) (.inr hj) ((h.routed.entry id i hreq).1.trans hid.symm)]
  · exact (hk.carried i hi).elim (h.carried i) (htarget i)

/-- A `Call` takes the next id. -/
structure Registers (c : State ι T) (i : ι) (c' : State ι T) : Prop where
  admitted : c.pc i = .admitted
  nextID : c'.nextID = c.nextID + 1
  pc : ∀ j, c'.pc j = if j = i then .registered else c.pc j
  id : ∀ j, c'.id j = if j = i then c.nextID else c.id j
  buffered : ∀ j, c'.buffered j = if j = i then none else c.buffered j
  chanClosed : ∀ j, c'.chanClosed j = if j = i then false else c.chanClosed j
  reqs : ∀ id, c'.reqs id = if id = c.nextID then some i else c.reqs id
  reader : c'.reader = c.reader
  lines : c'.lines = c.lines

theorem registers_of_step (h : Step c (.register i) c') : Registers c i c' := by
  cases h with
  | register hpc hlock =>
    exact ⟨hpc, rfl, fun _ => Function.update_apply .., fun _ => Function.update_apply .., fun _ => Function.update_apply ..,
      fun _ => Function.update_apply .., fun _ => Function.update_apply .., rfl, rfl⟩

theorem Called.register (h : Called n c requests) (hn : n < UInt64.size) (hrouted : Routed c') (hr : Registers c i c') :
    Called (n + 1) c' requests ∧ i ∉ requests := by
  have hno : i ∉ requests := by
    intro hi
    have hsent := h.asked i hi
    rw [hr.admitted] at hsent
    exact hsent
  have hother : ∀ {j}, j ≠ i → Given c' requests j → Given c requests j := by
    intro j hji hj
    simpa only [Given, hr.pc, if_neg hji] using hj
  have hid : ∀ {j}, j ≠ i → c'.id j = c.id j := fun hji => by rw [hr.id, if_neg hji]
  have hnew : c'.id i = c.nextID := by rw [hr.id, if_pos rfl]
  refine ⟨⟨hrouted, ?_, fun j hj => ?_, fun j k hj hk hjk => ?_, h.nodup, fun j hj => ?_, fun j hj => ?_,
    fun j hj => ?_⟩, hno⟩
  · rw [hr.nextID, h.next]
    exact (UInt64.ofNat_add (n + 1) 1).symm
  · by_cases hji : j = i
    · exact ⟨n, Nat.lt_succ_self n, by rw [hji, hnew, h.next]⟩
    · obtain ⟨m, hm, hj'⟩ := h.below j (hother hji hj)
      exact ⟨m, Nat.lt_succ_of_lt hm, by rw [hid hji, hj']⟩
  · by_cases hji : j = i
    · by_cases hki : k = i
      · rw [hji, hki]
      · rw [hji, hnew, hid hki] at hjk
        exact absurd hjk.symm (h.new hn (hother hki hk))
    · by_cases hki : k = i
      · rw [hki, hnew, hid hji] at hjk
        exact absurd hjk (h.new hn (hother hji hj))
      · rw [hid hji, hid hki] at hjk
        exact h.distinct j k (hother hji hj) (hother hki hk) hjk
  · rw [hr.pc, if_neg fun hji : j = i => hno (hji ▸ hj)]
    exact h.asked j hj
  · exact h.target j (hr.reader ▸ hj)
  · by_cases hji : j = i
    · rw [hr.buffered, hr.pc, if_pos hji, if_pos hji] at hj
      exact absurd rfl hj
    · rw [hr.buffered, hr.pc, if_neg hji, if_neg hji] at hj
      exact h.carried j hj

/-- **One step of the client**, by which the id of no `Call` changes whose request was sent. -/
theorem Called.step {a : Action ι} (h : Called n c requests) (hn : n < UInt64.size) (hasked : Asked c requests)
    (hstep : Step c a c') :
    (∃ n' ≤ n + 1, Called n' c' requests) ∧ ∀ i ∈ requests, c'.id i = c.id i := by
  have hrouted : Routed c' := h.routed.step hstep
  by_cases ha : ∀ i, a ≠ .register i
  · have hk := keeps_of_step hstep ha
    exact ⟨⟨n, Nat.le_succ n, h.keeps hasked hrouted hk⟩, fun i _ => by rw [hk.id]⟩
  · push Not at ha
    obtain ⟨i, rfl⟩ := ha
    have hr := registers_of_step hstep
    obtain ⟨hcalled, hno⟩ := h.register hn hrouted hr
    refine ⟨⟨n + 1, Nat.le_refl _, hcalled⟩, fun j hj => ?_⟩
    rw [hr.id, if_neg fun hji : j = i => hno (hji ▸ hj)]

omit [DecidableEq ι] in
theorem given_sends (hpending : (c.pc i).Pending) (hj : Given c (requests ++ [i]) j) : Given c requests j := by
  rcases hj with hj | hj
  · exact .inl hj
  · rcases List.mem_append.mp hj with hj | hj
    · exact .inr hj
    · exact .inl (List.mem_singleton.mp hj ▸ hpending)

omit [DecidableEq ι] in
/-- One more request is sent. -/
theorem Called.sends (h : Called n c requests) (hpending : (c.pc i).Pending) (hsent : Sent (c.pc i)) (hno : i ∉ requests) :
    Called n c (requests ++ [i]) := by
  have hgiven : ∀ j, Given c (requests ++ [i]) j → Given c requests j := fun j => given_sends hpending
  refine ⟨h.routed, h.next, fun j hj => h.below j (hgiven j hj), fun j k hj hk => h.distinct j k (hgiven j hj) (hgiven k hk),
    ?_, fun j hj => ?_, fun j hj => List.mem_append_left _ (h.target j hj), fun j hj => List.mem_append_left _ (h.carried j hj)⟩
  · rw [List.nodup_append]
    refine ⟨h.nodup, List.nodup_cons.mpr ⟨List.not_mem_nil, List.nodup_nil⟩, fun j hj k hk hjk => hno ?_⟩
    rwa [← List.mem_singleton.mp hk, ← hjk]
  · rcases List.mem_append.mp hj with hj | hj
    · exact h.asked j hj
    · exact List.mem_singleton.mp hj ▸ hsent

/-- What a step of the client does to the responses, while the read loop goes on. -/
structure Heeds (c c' : State ι T) : Prop where
  carried : ∀ j, carries (c.buffered j) (c.pc j) ≠ none → carries (c'.buffered j) (c'.pc j) ≠ none
  chan : ∀ j, c'.chanClosed j = true → c.chanClosed j = true ∨ c.reader = .delivered j
  delivered : ∀ j, c'.reader = .delivered j → c.reader = .delivered j ∨ carries (c'.buffered j) (c'.pc j) ≠ none
  reqs : ∀ id j, c'.reqs id = some j → c.reqs id = some j
  looked : ∀ (n : ℕ) (id : UInt64) (resp : T), c'.lines[n]? = some (.response id resp) → unread c'.reader ≠ some n →
    c.lines[n]? = some (.response id resp) ∧ (unread c.reader ≠ some n ∨ c'.reqs id = none)

omit [DecidableEq ι] in
/-- Nothing happens to them. -/
theorem heeds_same (hcarried : ∀ j, carries (c.buffered j) (c.pc j) ≠ none → carries (c'.buffered j) (c'.pc j) ≠ none)
    (hchan : c'.chanClosed = c.chanClosed) (hreader : c'.reader = c.reader)
    (hreqs : ∀ id j, c'.reqs id = some j → c.reqs id = some j) (hlines : c'.lines = c.lines) : Heeds c c' := by
  refine ⟨hcarried, fun j hj => .inl (hchan ▸ hj), fun j hj => .inl (hreader ▸ hj), hreqs, fun n id resp hn hunread => ?_⟩
  rw [hlines] at hn
  exact ⟨hn, .inl (hreader ▸ hunread)⟩

theorem carried_goto {pc : Pc T} (hreturns : pc.returns = (c.pc i).returns) (j : ι) :
    carries (c.buffered j) ((c.goto i pc).pc j) = carries (c.buffered j) (c.pc j) := by
  refine carries_congr _ ?_
  simp only [State.goto, Function.update_apply]
  split_ifs with hj
  · rw [hreturns, hj]
  · rfl

theorem heeds_goto {pc : Pc T} (hreturns : pc.returns = (c.pc i).returns) : Heeds c (c.goto i pc) :=
  heeds_same (fun j hj => by rwa [← carried_goto hreturns j] at hj) rfl rfl (fun _ _ h => h) rfl

theorem heeds_of_step {a : Action ι} (hrouted : Routed c) (h : Step c a c') (ha : ∀ i, a ≠ .register i)
    (hover : ¬ Over c'.reader) : Heeds c c' := by
  cases h with
  | @call i pc h =>
    generalize hpc : c.pc i = old at h
    have hreturns : pc.returns = (c.pc i).returns := by
      rw [hpc]
      cases h
      all_goals rfl
    exact heeds_goto hreturns
  | register h => exact absurd rfl (ha _)
  | write h => exact heeds_goto (by rw [h]; rfl)
  | @remove i e h =>
    have hreturns : (Pc.finished (.failure e) : Pc T).returns = (c.pc i).returns := by rw [h]; rfl
    refine heeds_same (fun j hj => ?_) rfl rfl (fun id j hj => ?_) rfl
    · rwa [← carried_goto hreturns j] at hj
    · simp only [Function.update_apply] at hj
      split_ifs at hj
      exact hj
  | @receive i n id resp h hbuf =>
    refine heeds_same (fun j hj => ?_) rfl rfl (fun _ _ h => h) rfl
    by_cases hji : j = i
    · subst hji
      simp [State.goto, Pc.returns]
    · simpa [State.goto, Function.update_of_ne hji] using hj
  | cancel | close | hangUp => exact heeds_same (fun _ h => h) rfl rfl (fun _ _ h => h) rfl
  | reader h =>
    have hheld := hrouted.held
    refine ⟨fun _ h => h, fun _ h => .inl h, fun j hj => ?_, fun _ _ h => h, fun n id resp hn hunread => ⟨hn, ?_⟩⟩
    · have htarget := h.keeps.2.1
      cases hj
      cases htarget
    · simp only [IsLine] at hheld
      generalize hreader : c.reader = old at h hheld
      cases h
      all_goals grind
  | @scan l h =>
    refine ⟨fun _ h => h, fun _ h => .inl h, fun _ h => (by cases h), fun _ _ h => h, fun n id resp hn hunread => ?_⟩
    have hne : n ≠ c.lines.length := fun heq => hunread (by rw [heq]; rfl)
    have hlt : n < c.lines.length := by
      have hlen := (List.getElem?_eq_some_iff.mp hn).1
      rw [List.length_append, List.length_singleton] at hlen
      omega
    refine ⟨by rwa [List.getElem?_append_left hlt] at hn, .inl ?_⟩
    rw [h]
    exact fun h => (by cases h)
  | @look n id resp i h hreq =>
    refine ⟨fun _ h => h, fun _ h => .inl h, fun _ h => (by cases h), fun k j hj => ?_, fun m k r hm hunread => ⟨hm, ?_⟩⟩
    · simp only [Function.update_apply] at hj
      split_ifs at hj
      exact hj
    · by_cases hmn : m = n
      · have hline : IsLine c.lines n (.response id resp) := hrouted.held n _ (by rw [h]; rfl)
        rw [hmn, hline] at hm
        cases hm
        exact .inr (Function.update_self ..)
      · refine .inl fun heq => hmn ?_
        rw [h] at heq
        exact (Option.some.inj heq).symm
  | @send n id resp i h hroom =>
    refine ⟨fun j hj => ?_, fun _ h => .inl h, fun j hj => .inr ?_, fun _ _ h => h, fun m k r hm hunread => ⟨hm, .inl ?_⟩⟩
    · by_cases hji : j = i
      · simp [hji]
      · simpa [Function.update_of_ne hji] using hj
    · cases hj
      simp
    · rw [h]
      exact fun h => (by cases h)
  | @closeDelivered i h =>
    refine ⟨fun _ h => h, fun j hj => ?_, fun _ h => (by cases h), fun _ _ h => h, fun m k r hm hunread => ⟨hm, .inl ?_⟩⟩
    · by_cases hji : j = i
      · exact .inr (hji ▸ h)
      · exact .inl (by simpa [Function.update_of_ne hji] using hj)
    · rw [h]
      exact fun h => (by cases h)
  | closeDrained | deleteDrained | disconnect => exact absurd trivial hover

/-- The read loop does not start again. -/
theorem over_of_step {a : Action ι} (h : Step c a c') (hover : Over c.reader) : Over c'.reader := by
  cases h with
  | reader h =>
    generalize hreader : c.reader = old at h hover
    cases h
    all_goals trivial
  | scan l h | look h | send h | closeDelivered h =>
    rw [h] at hover
    exact hover.elim
  | _ => first | exact hover | trivial

theorem Heard.step {a : Action ι} (h : Heard c requests) (hc : Called n c requests) (hn : n < UInt64.size)
    (hasked : Asked c requests) (hstep : Step c a c') (hover : ¬ Over c'.reader) : Heard c' requests := by
  have hgoes : ¬ Over c.reader := fun hno => hover (over_of_step hstep hno)
  have hattended : Attended c' := h.attended.step hc.routed (hc.timely hn hgoes a) hstep
  by_cases ha : ∀ i, a ≠ .register i
  · have hk := keeps_of_step hstep ha
    have hh := heeds_of_step hc.routed hstep ha hover
    refine ⟨hattended, fun i hi => ?_, fun i hi => ?_, fun m id resp hm hunread i hi hid hreq => ?_⟩
    · exact hh.carried i ((hh.chan i hi).elim (h.closed i) (h.delivered i))
    · exact (hh.delivered i hi).elim (fun hi => hh.carried i (h.delivered i hi)) id
    · obtain ⟨hline, hlooked | hnone⟩ := hh.looked m id resp hm hunread
      · rw [hk.id] at hid
        exact h.looked m id resp hline hlooked i (hi.imp_left (hk.pending i)) hid (hh.reqs id i hreq)
      · rw [hnone] at hreq
        cases hreq
  · push Not at ha
    obtain ⟨i, rfl⟩ := ha
    have hr := registers_of_step hstep
    have hno : i ∉ requests := (hc.register hn (hc.routed.step hstep) hr).2
    refine ⟨hattended, fun j hj => ?_, fun j hj => ?_, fun m id resp hm hunread j hj hid hreq => ?_⟩
    · rw [hr.chanClosed] at hj
      split_ifs at hj with hji
      rw [hr.buffered, hr.pc, if_neg hji, if_neg hji]
      exact h.closed j hj
    · rw [hr.reader] at hj
      have hji : j ≠ i := fun hji => hno (hji ▸ hc.target j (by rw [hj]; rfl))
      rw [hr.buffered, hr.pc, if_neg hji, if_neg hji]
      exact h.delivered j hj
    · -- The id on the line is that of a request that was sent, and not the new one.
      rw [hr.lines] at hm
      obtain ⟨k, hk, hkid⟩ := hasked m id resp hm
      have hne : id ≠ c.nextID := hkid ▸ hc.new hn (.inr hk)
      have hji : j ≠ i := by
        rintro rfl
        rw [hr.id, if_pos rfl] at hid
        exact hne hid.symm
      rw [hr.id, if_neg hji] at hid
      rw [hr.reqs, if_neg hne] at hreq
      refine h.looked m id resp hm (hr.reader ▸ hunread) j ?_ hid hreq
      simpa only [Given, hr.pc, if_neg hji] using hj

omit [DecidableEq ι] in
theorem heard_newClient : Heard (newClient : State ι T) [] :=
  ⟨attended_newClient, nofun, nofun, fun _ _ _ h => by simp [newClient] at h⟩

omit [DecidableEq ι] in
theorem Heard.sends (h : Heard c requests) (hpending : (c.pc i).Pending) : Heard c (requests ++ [i]) :=
  ⟨h.attended, h.closed, h.delivered,
    fun n id resp hn hunread j hj => h.looked n id resp hn hunread j (given_sends hpending hj)⟩

/-! ### Calls that end -/

/-- Whose request is not written does not begin to wait. -/
theorem waiting_of_step {a : Action ι} (h : Step c a c') (hwaiting : c'.pc i = .waiting) :
    c.pc i = .waiting ∨ a = .write i := by
  cases h with
  | @call j pc h =>
    simp only [State.goto, Function.update_apply] at hwaiting
    split_ifs at hwaiting with hij
    · subst hwaiting
      generalize c.pc j = old at h
      cases h
    · exact .inl hwaiting
  | @write j h hconn =>
    simp only [State.goto, Function.update_apply] at hwaiting
    split_ifs at hwaiting with hij
    · exact .inr (hij ▸ rfl)
    · exact .inl hwaiting
  | register | remove | receive =>
    simp only [State.goto, Function.update_apply] at hwaiting
    split_ifs at hwaiting
    exact .inl hwaiting
  | _ => exact .inl hwaiting

/-- The `Call` fails. -/
def Pc.Fails (pc : Pc T) : Prop := ∃ e, pc = .removing e ∨ pc = .finished (.failure e)

/-- A `Call` whose request was sent fails if its context was cancelled, or its channel closed without a response. -/
theorem fails_of_step {a : Action ι} (h : Step c a c') (hsent : Sent (c.pc i)) (hfails : (c'.pc i).Fails) :
    (c.pc i).Fails ∨ c.ctxDone i = true ∨ c.chanClosed i = true ∧ carries (c.buffered i) (c.pc i) = none := by
  cases h with
  | @call j pc h =>
    simp only [State.goto, Function.update_apply] at hfails
    split_ifs at hfails with hij
    · subst hij
      generalize hpc : c.pc i = old at h hsent ⊢
      cases h with
      | cancelled h => exact .inr (.inl h)
      | woken h hclosed => exact .inr (.inr ⟨hclosed, by rw [h]; rfl⟩)
      | _ => exact hsent.elim
    · exact .inl hfails
  | @register j h hlock =>
    simp only [State.goto, Function.update_apply] at hfails
    split_ifs at hfails with hij
    · rw [hij, h] at hsent
      exact hsent.elim
    · exact .inl hfails
  | @write j h hconn =>
    simp only [State.goto, Function.update_apply] at hfails
    split_ifs at hfails with hij
    · rw [hij, h] at hsent
      exact hsent.elim
    · exact .inl hfails
  | @remove j e h hlock =>
    simp only [State.goto, Function.update_apply] at hfails
    split_ifs at hfails with hij
    · exact .inl ⟨e, .inl (hij ▸ h)⟩
    · exact .inl hfails
  | @receive j n id resp h hbuf =>
    simp only [State.goto, Function.update_apply] at hfails
    split_ifs at hfails with hij
    · rcases hfails with ⟨e, hfails | hfails⟩
      · cases hfails
      · cases hfails
    · exact .inl hfails
  | _ => exact .inl hfails

theorem ctxDone_of_step {a : Action ι} (h : Step c a c') (hctx : c.ctxDone i = true) : c'.ctxDone i = true := by
  cases h with
  | cancel j =>
    simp only [Function.update_apply]
    split_ifs
    · rfl
    · exact hctx
  | _ => exact hctx

theorem connected_of_step {a : Action ι} (h : Step c a c') (hconn : c.connected = false) : c'.connected = false := by
  cases h with
  | hangUp | disconnect => rfl
  | _ => exact hconn

end Tilbo.Ipc.Client
