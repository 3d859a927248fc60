import Tilbo.Ipc.Called
import Tilbo.Ipc.Connection
import Mathlib.Logic.Equiv.List

/-! # Requests and their responses

A `Call` that returns a response returns what the handler made of its own request, and no request is handled twice, whatever
becomes of the connection and in whatever order things happen. Once nothing goes on any more and the client still reads, each
`Call` that has sent its request has its response; it waits if `WriteEnvelope` has refused that. -/

namespace Tilbo.Ipc.Exchange

open Tilbo.Lib.Steps Tilbo.Lib.Lines Tilbo.Lib.Streams Tilbo.Ipc.Framing Tilbo.Ipc.Answers Tilbo.Ipc.Connection
open Tilbo.Ipc.Client (Line Called Heard Asked Over Given)

variable {ι Q R : Type} [DecidableEq ι] (J : Json Q R) (request : ι → Q)

/-! ### What is to be shown -/

/-- The `Call` has the response to its own request, or waits as that could not be sent. -/
def Settled (s : State ι Q R) (i : ι) : Prop :=
  ∃ t ∈ s.workers, t.id = s.client.id i ∧ t.req = request i ∧ ∃ r, t.stage.result = some r ∧
    (Sendable J.toProtojson t.id (respond r) → ∃ n, s.client.pc i = .finished (.response n t.id (respond r))) ∧
    (¬ Sendable J.toProtojson t.id (respond r) → s.client.pc i = .waiting)

structure Exchanged (s : State ι Q R) : Prop where
  own : ∀ i n id resp, s.client.pc i = .finished (.response n id resp) →
    ∃ t ∈ s.workers, t.id = s.client.id i ∧ t.req = request i ∧ ∃ r, t.stage.result = some r ∧ resp = respond r
  once : ∀ (m m' : ℕ) (t t' : Worker Q R), s.workers[m]? = some t → s.workers[m']? = some t' → t.id = t'.id → m = m'
  asked : ∀ t ∈ s.workers, ∃ i ∈ s.requests, t.id = s.client.id i ∧ t.req = request i
  waits : ∀ i, s.client.pc i = .waiting → i ∈ s.requests
  settled : AtRest J request s → s.client.reader = .scanning → ∀ i ∈ s.requests, s.client.ctxDone i = false →
    Settled J request s i

/-! ### The invariant -/

/-- The requests that were sent are on the stream, and the server has begun to handle the first of them. -/
structure Served (s : State ι Q R) : Prop where
  up : ∃ bs k, Encoded J bs (s.requests.map (ask request s.client.id)) ∧ Carries bs k s.up ∧
    (s.reading = true → s.up.ended = false → k = s.workers.length)
  workers : s.workers.map Worker.envelope <+: s.requests.map (ask request s.client.id)

/-- What was sent back are events and responses, and the client has read the first of them. -/
structure Replied (s : State ι Q R) : Prop where
  down : ∃ bs, Encoded J bs s.sent ∧ Carries bs s.client.lines.length s.down
  lines : ∀ (n : ℕ) (l : Line (Response R)), s.client.lines[n]? = some l →
    ∃ env, s.sent[n]? = some env ∧ (l = told env ∨ s.down.ended = true ∧ ∀ id resp, l ≠ .response id resp)
  sent : ∀ env ∈ s.sent, env = notice ∨ ∃ t ∈ s.workers, ∃ r, t.stage.result = some r ∧ env = reply t.id r
  answered : ∀ t ∈ s.workers, ∀ r, t.stage = .answered r → reply t.id r ∈ s.sent

/-- What is not as it should be has its reason. -/
structure Faults (s : State ι Q R) : Prop where
  torn : s.up.torn = true ∨ s.down.torn = true → s.Cut
  ended : s.up.ended = true ∨ s.down.ended = true → s.Cut
  dropped : ∀ t ∈ s.workers, ∀ r, t.stage = .dropped r → s.Cut ∨ ¬ Sendable J.toProtojson t.id (respond r)
  failed : ∀ i ∈ s.requests, (s.client.pc i).Fails → s.client.ctxDone i = true ∨ s.Cut ∨ Over s.client.reader

structure Inv (n : ℕ) (s : State ι Q R) : Prop where
  called : Called n s.client s.requests
  heard : ¬ Over s.client.reader → Heard s.client s.requests
  served : Served J request s
  replied : Replied J s
  faults : Faults J s

/-- Who waits has sent its request. -/
def Waits (s : State ι Q R) : Prop := ∀ i, s.client.pc i = .waiting → i ∈ s.requests

variable {J request} {s s' : State ι Q R} {n : ℕ} {i : ι}

omit [DecidableEq ι] in
theorem inv_start : Inv J request 0 (State.start : State ι Q R) where
  called := Client.called_newClient
  heard _ := Client.heard_newClient
  served := ⟨⟨[], 0, .nil, carries_new, fun _ _ => rfl⟩, List.prefix_rfl⟩
  replied := ⟨⟨[], .nil, carries_new⟩, fun _ _ h => by simp [State.start, Client.newClient] at h,
    fun _ h => absurd h List.not_mem_nil, fun _ h => absurd h List.not_mem_nil⟩
  faults := ⟨fun h => by simp [State.start, Stream.new] at h, fun h => by simp [State.start, Stream.new] at h,
    fun _ h => absurd h List.not_mem_nil, fun _ h => absurd h List.not_mem_nil⟩

omit [DecidableEq ι] in
/-- A goroutine handles the request of a `Call`. -/
theorem Served.caller (h : Served J request s) {m : ℕ} {t : Worker Q R} (ht : s.workers[m]? = some t) :
    ∃ i, s.requests[m]? = some i ∧ t.id = s.client.id i ∧ t.req = request i := by
  have henv : (s.requests.map (ask request s.client.id))[m]? = some t.envelope := by
    obtain ⟨rest, hrest⟩ := h.workers
    have hlt : m < (s.workers.map Worker.envelope).length := by
      rw [List.length_map]
      exact (List.getElem?_eq_some_iff.mp ht).1
    rw [← hrest, List.getElem?_append_left hlt, List.getElem?_map, ht]
    rfl
  rw [List.getElem?_map, Option.map_eq_some_iff] at henv
  obtain ⟨i, hi, heq⟩ := henv
  simp only [ask, Worker.envelope, Envelope.mk.injEq, Payload.request.injEq] at heq
  exact ⟨i, hi, heq.1.symm, heq.2.symm⟩

omit [DecidableEq ι] in
/-- A response that was read is that of a goroutine. -/
theorem Replied.worker (h : Replied J s) {m : ℕ} {id : UInt64} {resp : Response R}
    (hline : s.client.lines[m]? = some (.response id resp)) :
    ∃ t ∈ s.workers, ∃ r, t.stage.result = some r ∧ id = t.id ∧ resp = respond r ∧ reply id r ∈ s.sent := by
  obtain ⟨env, henv, htold | ⟨-, hno⟩⟩ := h.lines m _ hline
  · have hmem := List.mem_of_getElem? henv
    rcases h.sent env hmem with rfl | ⟨t, ht, r, hr, rfl⟩
    · cases htold
    · cases htold
      exact ⟨t, ht, r, hr, rfl, rfl, hmem⟩
  · exact absurd rfl (hno id resp)

omit [DecidableEq ι] in
theorem asked_of (hserved : Served J request s) (hreplied : Replied J s) : Asked s.client s.requests := by
  intro m id resp hline
  obtain ⟨t, ht, r, -, rfl, -⟩ := hreplied.worker hline
  obtain ⟨k, hk⟩ := List.getElem?_of_mem ht
  obtain ⟨i, hi, hid, -⟩ := hserved.caller hk
  exact ⟨i, List.mem_of_getElem? hi, hid.symm⟩

/-! ### Steps of the client -/

section Client
variable {a : Client.Action ι} {c : Client.State ι (Response R)} {up down : Stream}

omit [DecidableEq ι] in
theorem Served.client (h : Served J request s) (hid : ∀ i ∈ s.requests, c.id i = s.client.id i) :
    Served J request { s with client := c } := by
  have hsame : s.requests.map (ask (R := R) request c.id) = s.requests.map (ask request s.client.id) :=
    List.map_congr_left fun i hi => by rw [ask, ask, hid i hi]
  obtain ⟨bs, k, hbs, hcarries, hk⟩ := h.up
  exact ⟨⟨bs, k, by rwa [hsame], hcarries, hk⟩, by rw [hsame]; exact h.workers⟩

theorem cut_client (hstep : Client.Step s.client a c) (h : s.Cut) : ({ s with client := c } : State ι Q R).Cut :=
  h.imp_left (Client.connected_of_step hstep)

theorem Faults.client (h : Faults J s) (hheard : ¬ Over s.client.reader → Heard s.client s.requests)
    (hsent : ∀ i ∈ s.requests, Client.Sent (s.client.pc i)) (hstep : Client.Step s.client a c) :
    Faults J { s with client := c } := by
  refine ⟨fun ht => cut_client hstep (h.torn ht), fun he => cut_client hstep (h.ended he),
    fun t ht r hr => (h.dropped t ht r hr).imp_left (cut_client hstep), fun i hi hfails => ?_⟩
  rcases Client.fails_of_step hstep (hsent i hi) hfails with hbefore | hctx | ⟨hclosed, hnone⟩
  · rcases h.failed i hi hbefore with hctx | hcut | hover
    · exact .inl (Client.ctxDone_of_step hstep hctx)
    · exact .inr (.inl (cut_client hstep hcut))
    · exact .inr (.inr (Client.over_of_step hstep hover))
  · exact .inl (Client.ctxDone_of_step hstep hctx)
  · -- A channel is closed without a response by the drain only.
    refine .inr (.inr (Client.over_of_step hstep ?_))
    by_contra hover
    exact (hheard hover).closed i hclosed hnone

theorem Inv.keeps (h : Inv J request n s) (hn : n < UInt64.size) (hstep : Client.Step s.client a c) :
    ∃ n' ≤ n + 1, Called n' c s.requests ∧ (¬ Over c.reader → Heard c s.requests) ∧
      Served J request { s with client := c } ∧ Faults J { s with client := c } := by
  have hasked : Asked s.client s.requests := asked_of h.served h.replied
  obtain ⟨⟨n', hle, hcalled⟩, hid⟩ := h.called.step hn hasked hstep
  refine ⟨n', hle, hcalled, fun hover => ?_, h.served.client hid, h.faults.client h.heard h.called.asked hstep⟩
  have hgoes : ¬ Over s.client.reader := fun hno => hover (Client.over_of_step hstep hno)
  exact (h.heard hgoes).step h.called hn hasked hstep hover

/-- **A step of the client** that uses no stream. -/
theorem Inv.client (h : Inv J request n s) (hn : n < UInt64.size) (hstep : Client.Step s.client a c)
    (hlines : c.lines = s.client.lines) : ∃ n' ≤ n + 1, Inv J request n' { s with client := c } := by
  obtain ⟨n', hle, hcalled, hheard, hserved, hfaults⟩ := h.keeps hn hstep
  refine ⟨n', hle, hcalled, hheard, hserved, ?_, hfaults⟩
  obtain ⟨bs, hbs, hcarries⟩ := h.replied.down
  exact ⟨⟨bs, hbs, by rw [hlines]; exact hcarries⟩, fun m l hm => h.replied.lines m l (hlines ▸ hm), h.replied.sent,
    h.replied.answered⟩

omit [DecidableEq ι] in
theorem lineOf_told {line : Bytes} {env : Envelope Q R} (h : J.unmarshal line = some env) (hne : line ≠ []) :
    lineOf J line = told env := by
  rw [lineOf, if_neg hne, h]
  rfl

omit [DecidableEq ι] in
theorem lineOf_cutOff {line : Bytes} (h : J.unmarshal line = none) (id : UInt64) (resp : Response R) :
    lineOf J line ≠ .response id resp := by
  rw [lineOf, h]
  split_ifs
  · exact fun h => (by cases h)
  · exact fun h => (by cases h)

/-- **A scan of the read loop.** -/
theorem Inv.scan (h : Inv J request n s) (hn : n < UInt64.size) {line : Bytes} (hreader : s.client.reader = .scanning)
    (hscan : Scans maxFrameSize s.down line down ∨ s.Cut ∧ ScansRest maxFrameSize s.down line down) :
    ∃ n' ≤ n + 1, Inv J request n'
      { s with
        client := { s.client with
          reader := .scanned s.client.lines.length (lineOf J line)
          lines := s.client.lines ++ [lineOf J line] }
        down := down } := by
  obtain ⟨n', hle, hcalled, hheard, hserved, hfaults⟩ := h.keeps hn (.scan (lineOf J line) hreader)
  obtain ⟨bs, hbs, hcarries⟩ := h.replied.down
  obtain ⟨hcarries', env, henv, hline⟩ := carries_scanned hcarries hbs hscan
  obtain ⟨hended, htorn, hcut⟩ := scanned_keeps hscan
  refine ⟨n', hle, hcalled, hheard, ⟨hserved.up, hserved.workers⟩, ?_, ?_⟩
  · refine ⟨⟨bs, hbs, ?_⟩, fun m l hm => ?_, h.replied.sent, h.replied.answered⟩
    · rwa [List.length_append, List.length_singleton]
    · simp only [List.getElem?_append, List.getElem?_singleton] at hm
      split_ifs at hm with hlt hlast
      · obtain ⟨env', henv', htold | ⟨hends, -⟩⟩ := h.replied.lines m l hm
        · exact ⟨env', henv', .inl htold⟩
        · rw [hended] at hends
          cases hends
      · obtain rfl : m = s.client.lines.length := by omega
        cases hm
        refine ⟨env, henv, ?_⟩
        rcases hline with ⟨hread, hne⟩ | ⟨hread, hends⟩
        · exact .inl (lineOf_told hread hne)
        · exact .inr ⟨hends, lineOf_cutOff hread⟩
  · refine ⟨fun ht => hfaults.torn (ht.imp_right fun ht => htorn ▸ ht), fun he => ?_, hfaults.dropped, hfaults.failed⟩
    rcases he with he | he
    · exact hfaults.ended (.inl he)
    · exact hcut he

omit [DecidableEq ι] in
/-- The request of a `Call` goes on the connection, or a part of it. -/
theorem Inv.put (h : Inv J request n s) (hpending : (s.client.pc i).Pending) (hsent : Client.Sent (s.client.pc i))
    (hno : i ∉ s.requests) (hfails : (s.client.pc i).Fails → s.Cut)
    (hup : ∀ bs k, Encoded J bs (s.requests.map (ask request s.client.id)) → Carries bs k s.up →
      ∃ b, Encoded J (bs ++ [b]) (s.requests.map (ask request s.client.id) ++ [ask request s.client.id i]) ∧
        Carries (bs ++ [b]) k up)
    (hended : up.ended = s.up.ended) (htorn : up.torn = true → s.up.torn = true ∨ s.Cut) :
    Inv J request n { s with up := up, requests := s.requests ++ [i] } := by
  have hmap : (s.requests ++ [i]).map (ask (R := R) request s.client.id) =
      s.requests.map (ask request s.client.id) ++ [ask request s.client.id i] := List.map_append
  refine ⟨h.called.sends hpending hsent hno, fun hover => (h.heard hover).sends hpending, ?_,
    ⟨h.replied.down, h.replied.lines, h.replied.sent, h.replied.answered⟩, ?_⟩
  · obtain ⟨bs, k, hbs, hcarries, hk⟩ := h.served.up
    obtain ⟨b, hbs', hcarries'⟩ := hup bs k hbs hcarries
    refine ⟨⟨bs ++ [b], k, ?_, hcarries', fun hreading hend => hk hreading (hended ▸ hend)⟩, ?_⟩
    · rw [hmap]
      exact hbs'
    · rw [hmap]
      exact h.served.workers.trans (List.prefix_append _ _)
  · refine ⟨fun ht => ?_, fun he => ?_, h.faults.dropped, fun j hj hf => ?_⟩
    · rcases ht with ht | ht
      · exact (htorn ht).elim (fun ht => h.faults.torn (.inl ht)) id
      · exact h.faults.torn (.inr ht)
    · exact h.faults.ended (he.imp_left fun he => hended ▸ he)
    · rcases List.mem_append.mp hj with hj | hj
      · exact h.faults.failed j hj hf
      · rw [List.mem_singleton.mp hj] at hf
        exact .inr (.inl (hfails hf))

end Client

/-! ### Steps of the server -/

section Server
variable {up down : Stream} {line : Bytes}

omit [DecidableEq ι] in
theorem accept_ask (hread : J.unmarshal line = some (ask request s.client.id i)) (hne : line ≠ []) :
    accept J line = some (s.client.id i, request i) := by
  rw [accept, if_neg hne, hread]
  rfl

theorem accept_cutOff (hread : J.unmarshal line = none) : accept J line = none := by
  rw [accept, hread]
  split_ifs
  · rfl
  · rfl

/-- What begins a list goes on as it does. -/
theorem snoc_isPrefix {α : Type} {l m : List α} {a : α} (h : l <+: m) (ha : m[l.length]? = some a) : l ++ [a] <+: m := by
  obtain ⟨rest, rfl⟩ := h
  rw [List.getElem?_append_right (Nat.le_refl _), Nat.sub_self] at ha
  cases rest with
  | nil => cases ha
  | cons b rest =>
    cases ha
    exact ⟨rest, by simp⟩

omit [DecidableEq ι] in
/-- **A scan of the loop of `handleConn`.** -/
theorem Inv.serve (h : Inv J request n s) (hreading : s.reading = true)
    (hscan : Scans maxFrameSize s.up line up ∨ s.Cut ∧ ScansRest maxFrameSize s.up line up) :
    Inv J request n
      { s with up := up, workers := s.workers ++ ((accept J line).map fun r => ⟨r.1, r.2, .handling⟩).toList } := by
  obtain ⟨bs, k, hbs, hcarries, hk⟩ := h.served.up
  obtain ⟨hcarries', env, henv, hline⟩ := carries_scanned hcarries hbs hscan
  obtain ⟨hended, htorn, hcut⟩ := scanned_keeps hscan
  have hnew : ∀ t ∈ ((accept J line).map fun r => (⟨r.1, r.2, .handling⟩ : Worker Q R)).toList, t.stage = .handling := by
    intro t ht
    simp only [Option.mem_toList, Option.map_eq_some_iff] at ht
    obtain ⟨r, -, rfl⟩ := ht
    rfl
  refine ⟨h.called, h.heard, ?_, ⟨h.replied.down, h.replied.lines, fun env' henv' => ?_, fun t ht r hr => ?_⟩, ?_⟩
  · rw [hk hreading hended] at henv hcarries'
    rcases hline with ⟨hread, hne⟩ | ⟨hread, hends⟩
    · obtain ⟨i, -, rfl⟩ : ∃ i, s.requests[s.workers.length]? = some i ∧ ask request s.client.id i = env := by
        rwa [List.getElem?_map, Option.map_eq_some_iff] at henv
      rw [accept_ask hread hne]
      refine ⟨⟨bs, s.workers.length + 1, hbs, hcarries', fun _ _ => ?_⟩, ?_⟩
      · simp
      · simp only [Option.map_some, Option.toList_some, List.map_append, List.map_cons, List.map_nil]
        refine snoc_isPrefix h.served.workers ?_
        rw [List.length_map]
        exact henv
    · rw [accept_cutOff hread]
      refine ⟨⟨bs, s.workers.length + 1, hbs, hcarries', fun _ hno => ?_⟩, ?_⟩
      · rw [hends] at hno
        cases hno
      · simpa using h.served.workers
  · rcases h.replied.sent env' henv' with henv' | ⟨t, ht, hr⟩
    · exact .inl henv'
    · exact .inr ⟨t, List.mem_append_left _ ht, hr⟩
  · rcases List.mem_append.mp ht with ht | ht
    · exact h.replied.answered t ht r hr
    · rw [hnew t ht] at hr
      cases hr
  · refine ⟨fun ht => h.faults.torn (ht.imp_left fun ht => htorn ▸ ht), fun he => ?_, fun t ht r hr => ?_, h.faults.failed⟩
    · rcases he with he | he
      · exact hcut he
      · exact h.faults.ended (.inr he)
    · rcases List.mem_append.mp ht with ht | ht
      · exact h.faults.dropped t ht r hr
      · rw [hnew t ht] at hr
        cases hr

omit [DecidableEq ι] in
/-- The scan that finds the server closing. -/
theorem Inv.quit (h : Inv J request n s)
    (hscan : Scans maxFrameSize s.up line up ∨ s.Cut ∧ ScansRest maxFrameSize s.up line up) :
    Inv J request n { s with up := up, reading := false } := by
  obtain ⟨bs, k, hbs, hcarries, -⟩ := h.served.up
  obtain ⟨hended, htorn, hcut⟩ := scanned_keeps hscan
  have hno : false = true → up.ended = false → k + 1 = s.workers.length := fun h => (by cases h)
  refine ⟨h.called, h.heard, ⟨⟨bs, k + 1, hbs, (carries_scanned hcarries hbs hscan).1, hno⟩, h.served.workers⟩,
    ⟨h.replied.down, h.replied.lines, h.replied.sent, h.replied.answered⟩, ?_⟩
  refine ⟨fun ht => h.faults.torn (ht.imp_left fun ht => htorn ▸ ht), fun he => ?_, h.faults.dropped, h.faults.failed⟩
  rcases he with he | he
  · exact hcut he
  · exact h.faults.ended (.inr he)

omit [DecidableEq ι] in
/-- The loop ends, or the server closes the connection or sets the flag. -/
theorem Inv.server (h : Inv J request n s) {reading serverOpen closing : Bool} (hreading : reading = true → s.reading = true)
    (hopen : s.serverOpen = false → serverOpen = false) :
    Inv J request n { s with reading := reading, serverOpen := serverOpen, closing := closing } := by
  have hcut : s.Cut → s.client.connected = false ∨ serverOpen = false := fun hcut => hcut.imp_right hopen
  obtain ⟨bs, k, hbs, hcarries, hk⟩ := h.served.up
  exact ⟨h.called, h.heard, ⟨⟨bs, k, hbs, hcarries, fun hr => hk (hreading hr)⟩, h.served.workers⟩,
    ⟨h.replied.down, h.replied.lines, h.replied.sent, h.replied.answered⟩,
    ⟨fun ht => hcut (h.faults.torn ht), fun he => hcut (h.faults.ended he),
      fun t ht r hr => (h.faults.dropped t ht r hr).imp_left hcut,
      fun i hi hfails => (h.faults.failed i hi hfails).imp_right fun hwhy => hwhy.imp_left hcut⟩⟩

omit [DecidableEq ι] in
/-- An event or a response goes on the connection, or a part of it. -/
theorem Inv.tell (h : Inv J request n s) {env : Envelope Q R}
    (henv : env = notice ∨ ∃ t ∈ s.workers, ∃ r, t.stage.result = some r ∧ env = reply t.id r)
    (hdown : ∀ bs k, Encoded J bs s.sent → Carries bs k s.down →
      ∃ b, Encoded J (bs ++ [b]) (s.sent ++ [env]) ∧ Carries (bs ++ [b]) k down)
    (hended : down.ended = s.down.ended) (htorn : down.torn = true → s.down.torn = true ∨ s.Cut) :
    Inv J request n { s with down := down, sent := s.sent ++ [env] } := by
  obtain ⟨bs, hbs, hcarries⟩ := h.replied.down
  obtain ⟨b, hbs', hcarries'⟩ := hdown bs _ hbs hcarries
  refine ⟨h.called, h.heard, ⟨h.served.up, h.served.workers⟩, ⟨⟨bs ++ [b], hbs', hcarries'⟩, fun m l hm => ?_,
    fun env' henv' => ?_, fun t ht r hr => List.mem_append_left _ (h.replied.answered t ht r hr)⟩,
    ⟨fun ht => ?_, fun he => ?_, h.faults.dropped, h.faults.failed⟩⟩
  · obtain ⟨env', henv', hl⟩ := h.replied.lines m l hm
    refine ⟨env', ?_, hl.imp_right fun hl => ⟨hended.trans hl.1, hl.2⟩⟩
    rwa [List.getElem?_append_left (List.getElem?_eq_some_iff.mp henv').1]
  · rcases List.mem_append.mp henv' with henv' | henv'
    · exact h.replied.sent env' henv'
    · rwa [List.mem_singleton.mp henv']
  · rcases ht with ht | ht
    · exact h.faults.torn (.inl ht)
    · exact (htorn ht).elim (fun ht => h.faults.torn (.inr ht)) id
  · exact h.faults.ended (he.imp_right fun he => hended ▸ he)

omit [DecidableEq ι] in
/-- A goroutine goes on. -/
theorem Inv.work (h : Inv J request n s) {m : ℕ} {t t' : Worker Q R} (ht : s.workers[m]? = some t)
    (henvelope : t'.envelope = t.envelope) (hresult : ∀ r, t.stage.result = some r → t'.stage.result = some r)
    (hanswered : ∀ r, t'.stage = .answered r → reply t'.id r ∈ s.sent)
    (hdropped : ∀ r, t'.stage = .dropped r → s.Cut ∨ ¬ Sendable J.toProtojson t'.id (respond r)) :
    Inv J request n { s with workers := s.workers.set m t' } := by
  have hid : t'.id = t.id := congrArg Envelope.requestId henvelope
  have hsame : (s.workers.set m t').map Worker.envelope = s.workers.map Worker.envelope := by
    rw [List.map_set, henvelope]
    refine List.ext_getElem? fun k => ?_
    rw [List.getElem?_set, List.getElem?_map]
    split_ifs with hmk hlt
    · rw [← hmk, ht]
      rfl
    · rw [List.length_map] at hlt
      exact absurd (List.getElem?_eq_some_iff.mp ht).1 hlt
    · rfl
  have hkept : ∀ u ∈ s.workers, ∀ r, u.stage.result = some r →
      ∃ u' ∈ s.workers.set m t', u'.stage.result = some r ∧ u'.id = u.id := by
    intro u hu r hr
    obtain ⟨k, hk⟩ := List.getElem?_of_mem hu
    have hlt := (List.getElem?_eq_some_iff.mp ht).1
    by_cases hmk : m = k
    · rw [← hmk, ht] at hk
      cases hk
      exact ⟨t', List.mem_set hlt t', hresult r hr, hid⟩
    · refine ⟨u, List.mem_of_getElem? (i := k) ?_, hr, rfl⟩
      rwa [List.getElem?_set_ne hmk]
  obtain ⟨bs, k, hbs, hcarries, hk⟩ := h.served.up
  refine ⟨h.called, h.heard, ⟨⟨bs, k, hbs, hcarries, by rwa [List.length_set]⟩, by rw [hsame]; exact h.served.workers⟩,
    ⟨h.replied.down, h.replied.lines, fun env henv => ?_, fun u hu r hr => ?_⟩,
    ⟨h.faults.torn, h.faults.ended, fun u hu r hr => ?_, h.faults.failed⟩⟩
  · rcases h.replied.sent env henv with henv | ⟨u, hu, r, hr, rfl⟩
    · exact .inl henv
    · obtain ⟨u', hu', hr', hid'⟩ := hkept u hu r hr
      exact .inr ⟨u', hu', r, hr', by rw [hid']⟩
  · rcases List.mem_or_eq_of_mem_set hu with hu | rfl
    · exact h.replied.answered u hu r hr
    · exact hanswered r hr
  · rcases List.mem_or_eq_of_mem_set hu with hu | rfl
    · exact h.faults.dropped u hu r hr
    · exact hdropped r hr

end Server

/-! ### Runs -/

section Runs
variable {a : Action}

/-- The `Call` that was writing has sent its request, or a part of it. -/
theorem Inv.sends (h : Inv J request n s) (hn : n < UInt64.size) {pc : Client.Pc (Response R)} {b : Client.Action ι} {up : Stream}
    (hi : s.client.pc i = .sending) (hstep : Client.Step s.client b (s.client.goto i pc)) (hpending : pc.Pending)
    (hsent : Client.Sent pc) (hfails : pc.Fails → s.Cut)
    (hup : ∀ bs k, Encoded J bs (s.requests.map (ask request s.client.id)) → Carries bs k s.up →
      ∃ b, Encoded J (bs ++ [b]) (s.requests.map (ask request s.client.id) ++ [ask request s.client.id i]) ∧
        Carries (bs ++ [b]) k up)
    (hended : up.ended = s.up.ended) (htorn : up.torn = true → s.up.torn = true ∨ s.Cut) :
    ∃ n' ≤ n + 1, Inv J request n' { s with client := s.client.goto i pc, up := up, requests := s.requests ++ [i] } := by
  have hpc : (s.client.goto i pc).pc i = pc := Function.update_self ..
  have hno : i ∉ s.requests := by
    intro hmem
    have hbefore := h.called.asked i hmem
    rw [hi] at hbefore
    exact hbefore
  obtain ⟨n', hle, hinv⟩ := h.client hn hstep rfl
  refine ⟨n', hle, hinv.put ?_ ?_ hno ?_ hup hended htorn⟩
  · rw [hpc]
    exact hpending
  · rw [hpc]
    exact hsent
  · rw [hpc]
    exact hfails

/-- **One step.** -/
theorem Inv.step (h : Inv J request n s) (hn : n < UInt64.size) (hstep : Step J request s a s') :
    ∃ n' ≤ n + 1, Inv J request n' s' := by
  have same : ∀ {t : State ι Q R}, Inv J request n t → ∃ n' ≤ n + 1, Inv J request n' t :=
    fun ht => ⟨n, Nat.le_succ n, ht⟩
  cases hstep with
  | client hstep hlocal => exact h.client hn hstep hlocal.lines
  | @begin i pc hi hstep => exact h.client hn (.call (by rwa [hi])) rfl
  | cancel i => exact h.client hn (.cancel i) rfl
  | close hopen => exact h.client hn (.close hopen) rfl
  | @send i wire hi hconn htorn hwrite =>
    have hno : ¬ (Client.Pc.waiting : Client.Pc (Response R)).Fails := by
      rintro ⟨e, he | he⟩
      · cases he
      · cases he
    exact h.sends hn hi (.write hi hconn) trivial trivial (fun hfails => absurd hfails hno)
      (fun bs k hbs hcarries => carries_written hcarries hbs htorn hwrite) rfl .inl
  | @sendRefused i e hi hwrite => exact h.client hn (.call (by rw [hi]; exact .writeFailed)) rfl
  | @sendFails i hi hcut => exact h.client hn (.call (by rw [hi]; exact .writeFailed)) rfl
  | @sendTorn i part rest hi hcut htorn hrest hwrite =>
    exact h.sends hn hi (.call (by rw [hi]; exact .writeFailed)) trivial trivial (fun _ => hcut)
      (fun bs k hbs hcarries => carries_torn hcarries hbs htorn hwrite) rfl fun _ => .inr hcut
  | scan hreader hscan => exact h.scan hn hreader hscan
  | stop hreader hwhy => exact h.client hn (.reader (by rw [hreader]; exact .stop)) rfl
  | serve hreading hclosing hscan => exact same (h.serve hreading hscan)
  | quit hreading hclosing hscan => exact same (h.quit hscan)
  | leave hreading hwhy => exact same (h.server (fun hr => (by cases hr)) id)
  | hangUp hreading => exact same (h.server id fun _ => rfl)
  | stopServer => exact same (h.server id id)
  | closeActive hclosing => exact same (h.server id fun _ => rfl)
  | handled ht r =>
    refine same (h.work ht rfl (fun r' hr => ?_) (fun r' hr => ?_) fun r' hr => ?_)
    all_goals cases hr
  | @answer m id req r wire ht hopen htorn hwrite =>
    have hmem : reply id r ∈ s.sent ++ [reply id r] := List.mem_append_right _ (List.mem_singleton_self _)
    have htold := h.tell (.inr ⟨_, List.mem_of_getElem? ht, r, rfl, rfl⟩)
      (fun bs k hbs hcarries => carries_written hcarries hbs htorn hwrite) rfl .inl
    refine same (htold.work ht rfl (fun r' hr => hr) (fun r' hr => ?_) fun r' hr => ?_)
    · cases hr
      exact hmem
    · cases hr
  | @answerRefused m id req r e ht hwrite =>
    refine same (h.work ht rfl (fun r' hr => hr) (fun r' hr => ?_) fun r' hr => .inr fun hsendable => ?_)
    · cases hr
    · cases hr
      obtain ⟨wire, hwire⟩ := (writeEnvelope_sendable s.down.written).mpr hsendable
      have hboth := hwrite.symm.trans hwire
      cases hboth
  | answerFails ht hcut =>
    refine same (h.work ht rfl (fun r' hr => hr) (fun r' hr => ?_) fun r' hr => .inl hcut)
    cases hr
  | @answerTorn m id req r part rest ht hcut htorn hrest hwrite =>
    have htold := h.tell (.inr ⟨_, List.mem_of_getElem? ht, r, rfl, rfl⟩)
      (fun bs k hbs hcarries => carries_torn hcarries hbs htorn hwrite) rfl fun _ => .inr hcut
    refine same (htold.work ht rfl (fun r' hr => hr) (fun r' hr => ?_) fun r' hr => .inl hcut)
    cases hr
  | event hopen htorn hwrite =>
    exact same (h.tell (.inl rfl) (fun bs k hbs hcarries => carries_written hcarries hbs htorn hwrite) rfl .inl)
  | eventTorn hcut htorn hrest hwrite =>
    exact same (h.tell (.inl rfl) (fun bs k hbs hcarries => carries_torn hcarries hbs htorn hwrite) rfl fun _ => .inr hcut)

/-- Who begins to wait has sent its request. -/
theorem Waits.step (h : Waits s) (hstep : Step J request s a s') : Waits s' := by
  have hgoto : ∀ {i : ι} {pc : Client.Pc (Response R)} {requests : List ι}, (∀ j ∈ s.requests, j ∈ requests) →
      (pc = .waiting → i ∈ requests) → ∀ j, (s.client.goto i pc).pc j = .waiting → j ∈ requests := by
    intro i pc requests hmore hi j hj
    simp only [Client.State.goto, Function.update_apply] at hj
    split_ifs at hj with hji
    · exact hji ▸ hi hj
    · exact hmore j (h j hj)
  cases hstep with
  | @client b c hstep hlocal =>
    intro i hi
    rcases Client.waiting_of_step hstep hi with hwaiting | rfl
    · exact h i hwaiting
    · cases hstep with
      | write hsending hconn =>
        have hstill := hlocal.writes i hsending
        rw [hi] at hstill
        cases hstill
  | begin hi hstep =>
    refine hgoto (fun _ hj => hj) fun hpc => ?_
    subst hpc
    cases hstep
  | send => exact hgoto (fun _ hj => List.mem_append_left _ hj) fun _ => List.mem_append_right _ (List.mem_singleton_self _)
  | sendRefused | sendFails => exact hgoto (fun _ hj => hj) fun hpc => (by cases hpc)
  | sendTorn => exact hgoto (fun _ hj => List.mem_append_left _ hj) fun hpc => (by cases hpc)
  | _ => exact h

variable {tr : List (State ι Q R × Action)}

/-- **A run** of fewer than 2^64 steps. -/
theorem inv_of_run (hrun : Runs (Step J request) State.start tr s) (hlen : tr.length < UInt64.size) :
    (∃ n ≤ tr.length, Inv J request n s) ∧ Waits s := by
  induction hrun with
  | nil => exact ⟨⟨0, Nat.le_refl 0, inv_start⟩, fun i hi => by cases hi⟩
  | @snoc tr t u a before last ih =>
    rw [List.length_append, List.length_singleton] at hlen ⊢
    obtain ⟨⟨n, hn, hinv⟩, hwaits⟩ := ih (by omega)
    obtain ⟨n', hn', hinv'⟩ := hinv.step (by omega) last
    exact ⟨⟨n', by omega, hinv'⟩, hwaits.step last⟩

end Runs

/-! ### What holds of the requests -/

omit [DecidableEq ι] in
/-- No two goroutines have the same id. -/
theorem Inv.once (h : Inv J request n s) {m m' : ℕ} {t t' : Worker Q R} (ht : s.workers[m]? = some t)
    (ht' : s.workers[m']? = some t') (hid : t.id = t'.id) : m = m' := by
  obtain ⟨i, hi, hti, -⟩ := h.served.caller ht
  obtain ⟨i', hi', hti', -⟩ := h.served.caller ht'
  have hsame : i = i' :=
    h.called.distinct i i' (.inr (List.mem_of_getElem? hi)) (.inr (List.mem_of_getElem? hi')) (hti.symm.trans (hid.trans hti'))
  rw [← hsame, ← hi] at hi'
  exact (List.getElem?_inj (List.getElem?_eq_some_iff.mp hi).1 h.called.nodup).mp hi'.symm

omit [DecidableEq ι] in
/-- The goroutine with the id of a `Call` has its request. -/
theorem Inv.req (h : Inv J request n s) {t : Worker Q R} (ht : t ∈ s.workers) (hi : i ∈ s.requests)
    (hid : t.id = s.client.id i) : t.req = request i := by
  obtain ⟨m, hm⟩ := List.getElem?_of_mem ht
  obtain ⟨j, hj, htj, hreq⟩ := h.served.caller hm
  rw [hreq, h.called.distinct j i (.inr (List.mem_of_getElem? hj)) (.inr hi) (htj.symm.trans hid)]

omit [DecidableEq ι] in
/-- A response that a `Call` returns is that to its own request, and it was sent. -/
theorem Inv.own (h : Inv J request n s) {k : ℕ} {id : UInt64} {resp : Response R}
    (hpc : s.client.pc i = .finished (.response k id resp)) :
    ∃ t ∈ s.workers, t.id = s.client.id i ∧ t.req = request i ∧ id = t.id ∧
      ∃ r, t.stage.result = some r ∧ resp = respond r ∧ reply t.id r ∈ s.sent := by
  have hcarries : Client.carries (s.client.buffered i) (s.client.pc i) = some (k, id, resp) := by
    have hreturns : (s.client.pc i).returns = some (k, id, resp) := by rw [hpc]; rfl
    rw [Client.carries, h.called.routed.received i _ hreturns, hreturns]
    rfl
  obtain ⟨hid, hline, -⟩ := h.called.routed.carried i k id resp hcarries
  have hmem : i ∈ s.requests := h.called.carried i (by rw [hcarries]; exact Option.some_ne_none _)
  obtain ⟨t, ht, r, hr, rfl, hresp, hsent⟩ := h.replied.worker hline
  exact ⟨t, ht, hid, h.req ht hmem hid, rfl, r, hr, hresp, hsent⟩

/-! ### Nothing goes on -/

section AtRest
variable (hrest : AtRest J request s) (hreader : s.client.reader = .scanning)

include hrest hreader

/-- The read loop has nothing to scan. -/
theorem not_scans {line : Bytes} {down : Stream} :
    ¬ (Scans maxFrameSize s.down line down ∨ s.Cut ∧ ScansRest maxFrameSize s.down line down) := by
  intro hscan
  have hsame := congrArg (fun t => t.client.reader) (hrest _ (.scan hreader hscan))
  rw [hreader] at hsame
  cases hsame

theorem not_stops : ¬ (s.client.connected = false ∨ s.down.ended = true ∨
    s.serverOpen = false ∧ s.down.passed = s.down.written ∨ s.down.TooLong maxFrameSize) := by
  intro hwhy
  have hsame := congrArg (fun t => t.client.reader) (hrest _ (.stop hreader hwhy))
  rw [hreader] at hsame
  cases hsame

/-- The connection is there. -/
theorem not_cut (h : Inv J request n s) : ¬ s.Cut := by
  have hstops := not_stops hrest hreader
  rintro (hconn | hserver)
  · exact hstops (.inl hconn)
  · obtain ⟨bs, -, hcarries⟩ := h.replied.down
    by_cases hpassed : s.down.passed = s.down.written
    · exact hstops (.inr (.inr (.inl ⟨hserver, hpassed⟩)))
    · have hended : s.down.ended = false := Bool.eq_false_iff.mpr fun hended => hstops (.inr (.inl hended))
      rcases s.down.scans (N := maxFrameSize) hended hcarries.within hpassed with hlong | ⟨t, str, hscan⟩ | ⟨t, str, hscan⟩
      · exact hstops (.inr (.inr (.inr hlong)))
      · exact not_scans hrest hreader (.inl hscan)
      · exact not_scans hrest hreader (.inr ⟨.inr hserver, hscan⟩)

theorem open_of_rest (h : Inv J request n s) : s.serverOpen = true := by
  by_contra hno
  exact not_cut hrest hreader h (.inr (Bool.eq_false_iff.mpr hno))

/-- No line was cut off. -/
theorem undamaged (h : Inv J request n s) :
    s.up.torn = false ∧ s.up.ended = false ∧ s.down.torn = false ∧ s.down.ended = false := by
  have hcut : ¬ s.Cut := not_cut hrest hreader h
  simp only [← Bool.not_eq_true]
  exact ⟨fun htorn => hcut (h.faults.torn (.inl htorn)), fun hended => hcut (h.faults.ended (.inl hended)),
    fun htorn => hcut (h.faults.torn (.inr htorn)), fun hended => hcut (h.faults.ended (.inr hended))⟩

/-- All requests are being handled. -/
theorem all_served (h : Inv J request n s) : s.workers.length = s.requests.length := by
  have hopen : s.serverOpen = true := open_of_rest hrest hreader h
  obtain ⟨htorn, hended, -, -⟩ := undamaged hrest hreader h
  have hreading : s.reading = true := by
    by_contra hno
    have hsame := congrArg State.serverOpen (hrest _ (.hangUp (Bool.eq_false_iff.mpr hno)))
    rw [hopen] at hsame
    cases hsame
  have hlong : ¬ s.up.TooLong maxFrameSize := by
    intro hlong
    have hsame := congrArg State.reading (hrest _ (.leave hreading (.inr (.inr (.inr hlong)))))
    rw [hreading] at hsame
    cases hsame
  obtain ⟨bs, k, hbs, hcarries, hk⟩ := h.served.up
  have hall : k = bs.length := by
    refine hcarries.all htorn hended hlong fun line up hscan => ?_
    -- Whether the server is closing or not, the scan is a step.
    cases hclosing : s.closing with
    | true =>
      have hsame := congrArg State.reading (hrest _ (.quit hreading hclosing (.inl hscan)))
      rw [hreading] at hsame
      cases hsame
    | false =>
      have hsame := congrArg (fun t => t.up.passed.length) (hrest _ (.serve hreading hclosing (.inl hscan)))
      cases hscan
      simp at hsame
  have hlen := List.Forall₂.length_eq hbs
  rw [List.length_map] at hlen
  rw [← hk hreading hended, hall, hlen]

/-- A goroutine has tried to answer. -/
theorem has_result (h : Inv J request n s) {m : ℕ} {t : Worker Q R} (ht : s.workers[m]? = some t) :
    ∃ r, t.stage = .answered r ∨ t.stage = .dropped r := by
  have hlt : m < s.workers.length := (List.getElem?_eq_some_iff.mp ht).1
  have hstays : ∀ {t' : Worker Q R} {u : State ι Q R}, u.workers = s.workers.set m t' → Step J request s .inner u →
      t = t' := by
    intro t' u hu hstep
    have hsame := congrArg (fun v => v.workers[m]?) (hrest u hstep)
    simp only [hu, ht, List.getElem?_set_self hlt] at hsame
    exact (Option.some.inj hsame).symm
  obtain ⟨id, req, stage⟩ := t
  cases stage with
  | handling => cases hstays rfl (.handled ht (.error []))
  | answering r =>
    have hopen : s.serverOpen = true := open_of_rest hrest hreader h
    obtain ⟨-, -, htorn, -⟩ := undamaged hrest hreader h
    cases hwrite : writeEnvelope J.toCodec s.down.written (reply id r) with
    | ok wire => cases hstays rfl (.answer ht hopen htorn hwrite)
    | error e => cases hstays rfl (.answerRefused ht hwrite)
  | answered r => exact ⟨r, .inl rfl⟩
  | dropped r => exact ⟨r, .inr rfl⟩

/-- A response that was sent has come. -/
theorem line_of_sent (h : Inv J request n s) {id : UInt64} {r : Handled R} (hsent : reply id r ∈ s.sent) :
    ∃ m : ℕ, s.client.lines[m]? = some (Line.response id (respond r)) := by
  obtain ⟨-, -, htorn, hended⟩ := undamaged hrest hreader h
  have hlong : ¬ s.down.TooLong maxFrameSize := fun hlong => not_stops hrest hreader (.inr (.inr (.inr hlong)))
  obtain ⟨bs, hbs, hcarries⟩ := h.replied.down
  have hall : s.client.lines.length = bs.length :=
    hcarries.all htorn hended hlong fun line down hscan => not_scans hrest hreader (.inl hscan)
  obtain ⟨m, hm⟩ := List.getElem?_of_mem hsent
  have hlt : m < s.client.lines.length := by
    rw [hall, List.Forall₂.length_eq hbs]
    exact (List.getElem?_eq_some_iff.mp hm).1
  obtain ⟨env, henv, htold | ⟨hends, -⟩⟩ := h.replied.lines m _ (List.getElem?_eq_getElem hlt)
  · rw [hm] at henv
    cases henv
    exact ⟨m, (List.getElem?_eq_getElem hlt).trans (congrArg some htold)⟩
  · rw [hended] at hends
    cases hends

/-- The `Call` has not failed. -/
theorem not_fails (h : Inv J request n s) (hi : i ∈ s.requests) (hctx : s.client.ctxDone i = false) :
    ¬ (s.client.pc i).Fails := by
  intro hfails
  rcases h.faults.failed i hi hfails with hdone | hcut | hover
  · rw [hctx] at hdone
    cases hdone
  · exact not_cut hrest hreader h hcut
  · rw [hreader] at hover
    exact hover

/-- Nobody waits for a response that has come. -/
theorem not_waiting (h : Inv J request n s) (hi : i ∈ s.requests) {m : ℕ} {resp : Response R}
    (hline : s.client.lines[m]? = some (.response (s.client.id i) resp)) : s.client.pc i ≠ .waiting := by
  intro hwaiting
  have hheard : Heard s.client s.requests := h.heard (by rw [hreader]; exact id)
  have hempty : s.client.buffered i = none := by
    rw [Option.eq_none_iff_forall_ne_some]
    rintro ⟨k, id, resp'⟩ hbuf
    have hlocal : Local s.client
        { s.client.goto i (.finished (.response k id resp')) with buffered := Function.update s.client.buffered i none } := by
      refine ⟨fun j hj => ?_, fun j hj => ?_, rfl, fun hscan => hscan, rfl, rfl⟩
      all_goals
        have hji : j ≠ i := by
          rintro rfl
          rw [hwaiting] at hj
          cases hj
        simpa only [Client.State.goto, Function.update_of_ne hji] using hj
    have hsame := congrArg (fun t => t.client.buffered i) (hrest _ (.client (.receive hwaiting hbuf) hlocal))
    simp only [Function.update_self, hbuf] at hsame
    cases hsame
  have hnone : Client.carries (s.client.buffered i) (s.client.pc i) = none := by rw [hempty, hwaiting]; rfl
  rcases hheard.attended.attended i (by rw [hwaiting]; trivial) with htable | htarget | hbuf | hclosed
  · exact hheard.looked m _ resp hline (by rw [hreader]; exact fun h => (by cases h)) i (.inr hi) rfl htable
  · rw [hreader] at htarget
    cases htarget
  · exact hbuf hempty
  · exact hheard.closed i hclosed hnone

/-- It waits, or has returned a response. -/
theorem waits_or_returned (h : Inv J request n s) (hi : i ∈ s.requests) (hctx : s.client.ctxDone i = false) :
    s.client.pc i = .waiting ∨ ∃ k id resp, s.client.pc i = .finished (.response k id resp) := by
  have hsent : Client.Sent (s.client.pc i) := h.called.asked i hi
  have hfails : ¬ (s.client.pc i).Fails := not_fails hrest hreader h hi hctx
  generalize s.client.pc i = pc at hsent hfails
  cases pc with
  | waiting => exact .inl rfl
  | removing e => exact absurd ⟨e, .inl rfl⟩ hfails
  | finished o =>
    cases o with
    | failure e => exact absurd ⟨e, .inr rfl⟩ hfails
    | response k id resp => exact .inr ⟨k, id, resp, rfl⟩
  | _ => exact hsent.elim

omit [DecidableEq ι] hrest hreader in
/-- What was sent is what a frame can hold. -/
theorem sendable_of_sent (h : Replied J s) {id : UInt64} {r : Handled R} (hsent : reply id r ∈ s.sent) :
    Sendable J.toProtojson id (respond r) := by
  obtain ⟨bs, hbs, -⟩ := h.down
  obtain ⟨b, hb, hlen⟩ := hbs.of_mem hsent
  exact (writeEnvelope_sendable []).mp ⟨_, writeEnvelope_ok.mpr ⟨b, hb, hlen, rfl⟩⟩

/-- **At rest**, a `Call` whose request was sent has its response, or waits for one that could not be sent. -/
theorem settled_of_rest (h : Inv J request n s) (hi : i ∈ s.requests) (hctx : s.client.ctxDone i = false) :
    Settled J request s i := by
  obtain ⟨m, hm⟩ := List.getElem?_of_mem hi
  have hlt : m < s.workers.length := by
    rw [all_served hrest hreader h]
    exact (List.getElem?_eq_some_iff.mp hm).1
  have ht : s.workers[m]? = some s.workers[m] := List.getElem?_eq_getElem hlt
  obtain ⟨i', hi', hid, hreq⟩ := h.served.caller ht
  obtain rfl : i = i' := Option.some.inj (hm.symm.trans hi')
  obtain ⟨r, hstage⟩ := has_result hrest hreader h ht
  have hresult : s.workers[m].stage.result = some r := by
    rcases hstage with hstage | hstage
    all_goals
      rw [hstage]
      rfl
  -- A response that the `Call` has returned is the one of this goroutine.
  have hreturned : ∀ {k id resp}, s.client.pc i = .finished (.response k id resp) →
      id = s.workers[m].id ∧ resp = respond r ∧ reply s.workers[m].id r ∈ s.sent := by
    intro k id resp hpc
    obtain ⟨t, hmem, htid, -, hidt, r', hr', hresp, hsent⟩ := h.own hpc
    obtain ⟨m', hm'⟩ := List.getElem?_of_mem hmem
    obtain rfl : m = m' := h.once ht hm' (hid.trans htid.symm)
    obtain rfl : s.workers[m] = t := Option.some.inj (ht.symm.trans hm')
    rw [hresult] at hr'
    cases hr'
    exact ⟨hidt, hresp, hsent⟩
  refine ⟨s.workers[m], List.getElem_mem hlt, hid, hreq, r, hresult, fun hsendable => ?_, fun hno => ?_⟩
  · have hsent : reply s.workers[m].id r ∈ s.sent := by
      rcases hstage with hstage | hstage
      · exact h.replied.answered _ (List.getElem_mem hlt) r hstage
      · rcases h.faults.dropped _ (List.getElem_mem hlt) r hstage with hcut | hno
        · exact absurd hcut (not_cut hrest hreader h)
        · exact absurd hsendable hno
    obtain ⟨k, hline⟩ := line_of_sent hrest hreader h hsent
    rw [hid] at hline
    rcases waits_or_returned hrest hreader h hi hctx with hwaiting | ⟨k, id, resp, hpc⟩
    · exact absurd hwaiting (not_waiting hrest hreader h hi hline)
    · obtain ⟨rfl, rfl, -⟩ := hreturned hpc
      exact ⟨k, hpc⟩
  · rcases waits_or_returned hrest hreader h hi hctx with hwaiting | ⟨k, id, resp, hpc⟩
    · exact hwaiting
    · exact absurd (sendable_of_sent h.replied (hreturned hpc).2.2) hno

end AtRest

/-- **In every run** of fewer than 2^64 steps, whatever becomes of the connection: a `Call` gets the response to its own
request or none, no request is handled twice, and no `Call` is forgotten while the client reads. -/
theorem exchanged_of_run {tr : List (State ι Q R × Action)} (hrun : Runs (Step J request) State.start tr s)
    (hlen : tr.length < UInt64.size) : Exchanged J request s := by
  obtain ⟨⟨n, -, h⟩, hwaits⟩ := inv_of_run hrun hlen
  refine ⟨fun i k id resp hpc => ?_, fun m m' t t' ht ht' hid => h.once ht ht' hid, fun t ht => ?_, hwaits,
    fun hrest hreader i hi hctx => settled_of_rest hrest hreader h hi hctx⟩
  · obtain ⟨t, ht, hid, hreq, -, r, hr, hresp, -⟩ := h.own hpc
    exact ⟨t, ht, hid, hreq, r, hr, hresp⟩
  · obtain ⟨m, hm⟩ := List.getElem?_of_mem ht
    obtain ⟨i, hi, hid, hreq⟩ := h.served.caller hm
    exact ⟨i, List.mem_of_getElem? hi, hid, hreq⟩

/-! ### A `Call` that is answered -/

section Answered

/-- What an envelope is made of: what it carries, its id, and the code and the text of an error. -/
def parts (env : Envelope Unit Empty) : ℕ × ℕ × ℕ × List ℕ :=
  match env.payload with
  | .none => (0, env.requestId.toNat, 0, [])
  | .request _ => (1, env.requestId.toNat, 0, [])
  | .response (.error e) => (2, env.requestId.toNat, e.code, e.message.map UInt8.toNat)
  | .event => (3, env.requestId.toNat, 0, [])

def assemble (p : ℕ × ℕ × ℕ × List ℕ) : Envelope Unit Empty where
  requestId := UInt64.ofNat p.2.1
  payload :=
    match p.1 with
    | 0 => .none
    | 1 => .request ()
    | 2 => .response (.error ⟨p.2.2.1, p.2.2.2.map UInt8.ofNat⟩)
    | _ => .event

theorem assemble_parts (env : Envelope Unit Empty) : assemble (parts env) = env := by
  obtain ⟨id, payload⟩ := env
  cases payload with
  | none | request | event => simp [assemble, parts]
  | response resp =>
    cases resp with
    | error e => simp [assemble, parts, Function.comp_def]
    | body r => exact r.elim

/-- The object with `n` letters. -/
def objectOf (n : ℕ) : Bytes := 0x7b :: (List.replicate n 0x61 ++ [0x7d])

theorem length_objectOf (n : ℕ) : (objectOf n).length = n + 2 := by
  simp [objectOf]

/-- No object is the beginning of another. -/
theorem objectOf_inj {m n : ℕ} (h : objectOf m <+: objectOf n) : m = n := by
  have hle : m + 2 ≤ n + 2 := by
    rw [← length_objectOf m, ← length_objectOf n]
    exact h.length_le
  by_contra hne
  have hlt : m < n := by omega
  obtain ⟨rest, hrest⟩ := h
  have hlast := congrArg (fun b : Bytes => b[m + 1]?) hrest
  simp [objectOf, List.getElem?_append, hlt] at hlast

/-- The texts of an envelope. -/
def textsOf (env : Envelope Unit Empty) : List Bytes :=
  match env.payload with
  | .response resp => resp.strings Empty.elim
  | _ => []

/-- A codec that writes the number of an envelope in letters. -/
def unary : Json Unit Empty where
  marshal env := if ∀ t ∈ textsOf env, ValidUTF8 t then some (objectOf (Encodable.encode (parts env))) else none
  object env b h := by
    split_ifs at h
    cases h
    exact letters.object _ _ rfl
  bodyStrings := Empty.elim
  accepts id resp := by
    split_ifs with h
    · exact ⟨fun _ => h, fun _ => ⟨_, rfl⟩⟩
    · refine ⟨?_, fun hvalid => absurd hvalid h⟩
      rintro ⟨b, hb⟩
      cases hb
  unmarshal b := if b = objectOf (b.length - 2) then (Encodable.decode (b.length - 2)).map assemble else none
  roundTrip env b h := by
    split_ifs at h
    cases h
    rw [length_objectOf, Nat.add_sub_cancel, if_pos rfl, Encodable.encodek]
    exact congrArg some (assemble_parts env)
  cutOff env b p h hp hne := by
    split_ifs at h
    cases h
    refine if_neg fun hobject => hne ?_
    rw [hobject] at hp ⊢
    rw [objectOf_inj hp]

/-- Neither about to begin nor about to write. -/
def Idle : Client.Pc (Response R) → Prop
  | .ready | .sending => False
  | _ => True

/-- Not at the scanner. -/
def Busy : Client.Reader ι (Response R) → Prop
  | .scanning => False
  | _ => True

theorem local_of {c c' : Client.State Unit (Response R)} (hpc : Idle (c.pc ())) (hlines : c'.lines = c.lines)
    (hreader : Busy c.reader ∨ c'.reader = c.reader) (hctx : c'.ctxDone = c.ctxDone) (hclosed : c'.closed = c.closed) :
    Local c c' := by
  refine ⟨fun i hi => ?_, fun i hi => ?_, hlines, fun hscan => ?_, hctx, hclosed⟩
  · rw [show c.pc () = .ready from hi] at hpc
    exact hpc.elim
  · rw [show c.pc () = .sending from hi] at hpc
    exact hpc.elim
  · rcases hreader with hbusy | hsame
    · rw [hscan] at hbusy
      exact hbusy.elim
    · rw [hsame, hscan]

theorem serve_of {line : Bytes} {up : Stream} {r : UInt64 × Q} (hr : accept J line = some r) (hreading : s.reading = true)
    (hclosing : s.closing = false) (hscan : Scans maxFrameSize s.up line up) :
    Step J request s .inner { s with up := up, workers := s.workers ++ [⟨r.1, r.2, .handling⟩] } := by
  have hstep : Step J request s .inner _ := .serve hreading hclosing (.inl hscan)
  rw [hr] at hstep
  exact hstep

theorem scan_of {line : Bytes} {down : Stream} {l : Line (Response R)} (hl : lineOf J line = l)
    (h : s.client.reader = .scanning) (hscan : Scans maxFrameSize s.down line down) :
    Step J request s .inner
      { s with
        client := { s.client with reader := .scanned s.client.lines.length l, lines := s.client.lines ++ [l] }
        down := down } := by
  rw [← hl]
  exact .scan h (.inl hscan)

/-- One `Call`, and what the handler returns, if neither is too long. -/
theorem run_answered (J : Json Q R) (request : Unit → Q) (r : Handled R) {b b' : Bytes}
    (hb : J.marshal ⟨1, .request (request ())⟩ = some b) (hlen : b.length < maxFrameSize)
    (hb' : J.marshal (reply 1 r) = some b') (hlen' : b'.length < maxFrameSize) :
    ∃ (tr : List (State Unit Q R × Action)) (s : State Unit Q R),
      Runs (Step J request) State.start tr s ∧ tr.length = 14 ∧ s.client.pc () = .finished (.response 0 1 (respond r)) := by
  have hobject : IsObject b := J.object _ _ hb
  have hobject' : IsObject b' := J.object _ _ hb'
  have hwrite : writeEnvelope J.toCodec [] ⟨1, .request (request ())⟩ = .ok (b ++ [newline]) :=
    writeEnvelope_ok.mpr ⟨b, hb, Nat.le_of_lt hlen, rfl⟩
  have hwrite' : writeEnvelope J.toCodec [] (reply 1 r) = .ok (b' ++ [newline]) :=
    writeEnvelope_ok.mpr ⟨b', hb', Nat.le_of_lt hlen', rfl⟩
  have hscan : Scans maxFrameSize ⟨b ++ [newline], false, [], false⟩ (dropCR b) _ :=
    ⟨rfl, hobject.oneLine, hlen, List.prefix_rfl⟩
  have hscan' : Scans maxFrameSize ⟨b' ++ [newline], false, [], false⟩ (dropCR b') _ :=
    ⟨rfl, hobject'.oneLine, hlen', List.prefix_rfl⟩
  have haccept : accept J (dropCR b) = some (1, request ()) := by
    rw [hobject.dropCR, accept, if_neg hobject.ne_nil, J.roundTrip _ _ hb]
    rfl
  have hline : lineOf J (dropCR b') = .response 1 (respond r) := by
    rw [hobject'.dropCR]
    exact lineOf_told (J.roundTrip _ _ hb') hobject'.ne_nil
  have h0 : Runs (Step J request) (State.start : State Unit Q R) [] State.start := .nil
  have h1 := h0.snoc (.begin (i := ()) rfl (.check rfl))
  have h2 := h1.snoc (.client (.call (i := ()) (.allow rfl)) (local_of trivial rfl (.inr rfl) rfl rfl))
  have h3 := h2.snoc (.client (.register (i := ()) rfl id) (local_of trivial rfl (.inr rfl) rfl rfl))
  have h4 := h3.snoc (.client (.call (i := ()) (.proceed rfl)) (local_of trivial rfl (.inr rfl) rfl rfl))
  have h5 := h4.snoc (.send (i := ()) rfl rfl rfl hwrite)
  have h6 := h5.snoc (serve_of haccept rfl rfl hscan)
  have h7 := h6.snoc (@Step.handled _ _ _ _ _ _ _ 0 _ _ rfl r)
  have h8 := h7.snoc (@Step.answer _ _ _ _ _ _ _ 0 _ _ _ _ rfl rfl rfl hwrite')
  have h9 := h8.snoc (scan_of hline rfl hscan')
  have h10 := h9.snoc (.client (.reader (.parse rfl)) (local_of trivial rfl (.inl trivial) rfl rfl))
  have h11 := h10.snoc (.client (.look (i := ()) rfl rfl) (local_of trivial rfl (.inl trivial) rfl rfl))
  have h12 := h11.snoc (.client (.send (i := ()) rfl rfl) (local_of trivial rfl (.inl trivial) rfl rfl))
  have h13 := h12.snoc (.client (.closeDelivered (i := ()) rfl) (local_of trivial rfl (.inl trivial) rfl rfl))
  have h14 := h13.snoc (.client (.receive (i := ()) rfl rfl) (local_of trivial rfl (.inr rfl) rfl rfl))
  exact ⟨_, _, h14, rfl, rfl⟩

/-- An error of the handler without a text. -/
theorem exchanged_of_run_error : ∃ s : State Unit Unit Empty,
    s.client.pc () = .finished (.response 0 1 (.error ⟨genericErrorCode, []⟩)) ∧ Exchanged unary id s := by
  have hask : unary.marshal ⟨1, .request ()⟩ = some (objectOf 5) := by decide
  have hreply : unary.marshal (reply 1 (.error [])) = some (objectOf 21027) := by
    have hvalid : ∀ t ∈ textsOf (reply 1 (.error [])), ValidUTF8 t := by
      intro t ht
      cases List.mem_singleton.mp ht
      exact ByteArray.isValidUTF8_empty
    have hnumber : Encodable.encode (parts (reply 1 (.error []))) = 21027 := by decide
    rw [← hnumber]
    simp only [unary, if_pos hvalid]
  obtain ⟨tr, s, hrun, hlen, hpc⟩ := run_answered unary id (.error []) hask (by rw [length_objectOf]; decide) hreply
    (by rw [length_objectOf]; decide)
  exact ⟨s, hpc, exchanged_of_run hrun (by rw [hlen]; decide)⟩

end Answered

end Tilbo.Ipc.Exchange
