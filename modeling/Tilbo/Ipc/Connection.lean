import Tilbo.Ipc.Answers
import Tilbo.Ipc.Client
import Tilbo.Lib.Streams
import Mathlib.Data.List.Forall2

/-! # Both ends of a connection

The `Call`s of a client, the read loop that finds their responses, the loop of `handleConn`, and a goroutine of
`processEnvelope` for each request, with one stream of lines in each direction. The connection may be closed on either side at
any time, in the middle of a line. -/

namespace Tilbo.Ipc.Connection

open Tilbo.Lib.Lines Tilbo.Lib.Streams Tilbo.Ipc.Framing Tilbo.Ipc.Answers
open Tilbo.Ipc.Client (Line CallStep)

variable {ι Q R : Type}

/-! ### Lines -/

/-- protojson in both directions. What it makes of a message is read back, and no beginning of that is JSON. -/
structure Json (Q R : Type) extends Protojson Q R where
  unmarshal : Bytes → Option (Envelope Q R)
  roundTrip : ∀ env b, marshal env = some b → unmarshal b = some env
  cutOff : ∀ env b p, marshal env = some b → p <+: b → p ≠ b → unmarshal p = none

variable (J : Json Q R)

/-- `env.GetRequest()`, with the id of the request. -/
def getRequest (env : Envelope Q R) : Option (UInt64 × Q) :=
  match env.payload with
  | .request req => some (env.requestId, req)
  | _ => none

/-- What `handleConn` finds to do in a line. -/
def accept (line : Bytes) : Option (UInt64 × Q) :=
  if line = [] then none else (J.unmarshal line).bind getRequest

/-- An envelope, as `readLoop` sees it. -/
def told (env : Envelope Q R) : Line (Response R) :=
  match env.payload with
  | .response resp => .response env.requestId resp
  | _ => .event

/-- A line, as `readLoop` sees it. -/
def lineOf (line : Bytes) : Line (Response R) :=
  if line = [] then .empty else (J.unmarshal line).elim .garbled told

/-! ### The state -/

/-- Where a goroutine of `processEnvelope` is, with what the handler has returned. -/
inductive Stage (R : Type) where
  | handling
  | answering (r : Handled R)
  | answered (r : Handled R)
  /-- The response could not be written. -/
  | dropped (r : Handled R)

/-- What the handler has returned, if it has. -/
def Stage.result : Stage R → Option (Handled R)
  | handling => none
  | answering r | answered r | dropped r => some r

structure Worker (Q R : Type) where
  id : UInt64
  req : Q
  stage : Stage R

/-- The envelope that the goroutine was started for. -/
def Worker.envelope (t : Worker Q R) : Envelope Q R := ⟨t.id, .request t.req⟩

/-- The client and the server. Beyond what they know themselves, it is known which `Call`s have put their requests on the
connection, and what the server has put on it. -/
structure State (ι Q R : Type) where
  client : Client.State ι (Response R)
  up : Stream
  down : Stream
  /-- The loop of `handleConn` goes on. -/
  reading : Bool
  /-- The connection is not closed on the side of the server. -/
  serverOpen : Bool
  closing : Bool
  workers : List (Worker Q R)
  requests : List ι
  sent : List (Envelope Q R)

/-- A client has just connected. -/
def State.start : State ι Q R where
  client := Client.newClient
  up := .new
  down := .new
  reading := true
  serverOpen := true
  closing := false
  workers := []
  requests := []
  sent := []

/-- The connection is closed on one side at least. -/
def State.Cut (s : State ι Q R) : Prop := s.client.connected = false ∨ s.serverOpen = false

/-- The envelope of a `Call`. -/
def ask (request : ι → Q) (id : ι → UInt64) (i : ι) : Envelope Q R := ⟨id i, .request (request i)⟩

/-- The envelope of a response. -/
def reply (id : UInt64) (r : Handled R) : Envelope Q R := ⟨id, .response (respond r)⟩

/-- The envelope of an event. -/
def notice : Envelope Q R := ⟨0, .event⟩

/-! ### The steps -/

inductive Action where
  /-- Something goes on. -/
  | inner
  /-- A `Call` begins or its context is cancelled, the client or the server is closed, or there is an event. -/
  | outer

/-- A step of the client that begins no `Call`, uses no stream, and cancels and closes nothing. -/
structure Local (c c' : Client.State ι (Response R)) : Prop where
  begins : ∀ i, c.pc i = .ready → c'.pc i = .ready
  writes : ∀ i, c.pc i = .sending → c'.pc i = .sending
  lines : c'.lines = c.lines
  stops : c.reader = .scanning → c'.reader = .scanning
  ctxDone : c'.ctxDone = c.ctxDone
  closed : c'.closed = c.closed

/-- One atomic step. -/
inductive Step [DecidableEq ι] (request : ι → Q) (s : State ι Q R) : Action → State ι Q R → Prop
  | client {a : Client.Action ι} {c : Client.State ι (Response R)} (h : Client.Step s.client a c) (hlocal : Local s.client c) :
      Step request s .inner { s with client := c }
  | begin {i : ι} {pc : Client.Pc (Response R)} (h : s.client.pc i = .ready) (hstep : CallStep s.client i .ready pc) :
      Step request s .outer { s with client := s.client.goto i pc }
  | cancel (i : ι) :
      Step request s .outer { s with client := { s.client with ctxDone := Function.update s.client.ctxDone i true } }
  | close (h : s.client.closed = false) : Step request s .outer { s with client := { s.client with closed := true } }
  /-- `WriteEnvelope` of a `Call`, under `writeMu`. -/
  | send {i : ι} {wire : Bytes} (h : s.client.pc i = .sending) (hconn : s.client.connected = true) (htorn : s.up.torn = false)
      (hwrite : writeEnvelope J.toCodec s.up.written (ask request s.client.id i) = .ok wire) :
      Step request s .inner
        { s with client := s.client.goto i .waiting, up := { s.up with written := wire }, requests := s.requests ++ [i] }
  | sendRefused {i : ι} {e : WriteError} (h : s.client.pc i = .sending)
      (hwrite : writeEnvelope J.toCodec s.up.written (ask request s.client.id i) = .error e) :
      Step request s .inner { s with client := s.client.goto i (.removing .writeFailed) }
  | sendFails {i : ι} (h : s.client.pc i = .sending) (hcut : s.Cut) :
      Step request s .inner { s with client := s.client.goto i (.removing .writeFailed) }
  /-- The connection is closed in the middle of it. -/
  | sendTorn {i : ι} {part rest : Bytes} (h : s.client.pc i = .sending) (hcut : s.Cut) (htorn : s.up.torn = false)
      (hrest : rest ≠ [])
      (hwrite : writeEnvelope J.toCodec s.up.written (ask request s.client.id i) = .ok (s.up.written ++ part ++ rest)) :
      Step request s .inner
        { s with client := s.client.goto i (.removing .writeFailed), up := s.up.tear part, requests := s.requests ++ [i] }
  /-- `Scan` in `readLoop`. -/
  | scan {line : Bytes} {down : Stream} (h : s.client.reader = .scanning)
      (hscan : Scans maxFrameSize s.down line down ∨ s.Cut ∧ ScansRest maxFrameSize s.down line down) :
      Step request s .inner
        { s with
          client := { s.client with
            reader := .scanned s.client.lines.length (lineOf J line)
            lines := s.client.lines ++ [lineOf J line] }
          down := down }
  | stop (h : s.client.reader = .scanning)
      (hwhy : s.client.connected = false ∨ s.down.ended = true ∨ s.serverOpen = false ∧ s.down.passed = s.down.written ∨
        s.down.TooLong maxFrameSize) :
      Step request s .inner { s with client := { s.client with reader := .draining } }
  /-- `Scan` in `handleConn`, and `go s.processEnvelope` if the line is a request. -/
  | serve {line : Bytes} {up : Stream} (h : s.reading = true) (hclosing : s.closing = false)
      (hscan : Scans maxFrameSize s.up line up ∨ s.Cut ∧ ScansRest maxFrameSize s.up line up) :
      Step request s .inner
        { s with up := up, workers := s.workers ++ ((accept J line).map fun r => ⟨r.1, r.2, .handling⟩).toList }
  | quit {line : Bytes} {up : Stream} (h : s.reading = true) (hclosing : s.closing = true)
      (hscan : Scans maxFrameSize s.up line up ∨ s.Cut ∧ ScansRest maxFrameSize s.up line up) :
      Step request s .inner { s with up := up, reading := false }
  | leave (h : s.reading = true)
      (hwhy : s.serverOpen = false ∨ s.up.ended = true ∨ s.client.connected = false ∧ s.up.passed = s.up.written ∨
        s.up.TooLong maxFrameSize) :
      Step request s .inner { s with reading := false }
  /-- The deferred `conn.Close`. -/
  | hangUp (h : s.reading = false) : Step request s .inner { s with serverOpen := false }
  /-- `Stop` sets the flag, and then closes the connections that are in the table. -/
  | stopServer : Step request s .outer { s with closing := true }
  | closeActive (h : s.closing = true) : Step request s .outer { s with serverOpen := false }
  | handled {n : ℕ} {id : UInt64} {req : Q} (h : s.workers[n]? = some ⟨id, req, .handling⟩) (r : Handled R) :
      Step request s .inner { s with workers := s.workers.set n ⟨id, req, .answering r⟩ }
  /-- `writeEnv`, under the mutex of the connection. -/
  | answer {n : ℕ} {id : UInt64} {req : Q} {r : Handled R} {wire : Bytes} (h : s.workers[n]? = some ⟨id, req, .answering r⟩)
      (hopen : s.serverOpen = true) (htorn : s.down.torn = false)
      (hwrite : writeEnvelope J.toCodec s.down.written (reply id r) = .ok wire) :
      Step request s .inner
        { s with
          workers := s.workers.set n ⟨id, req, .answered r⟩
          down := { s.down with written := wire }
          sent := s.sent ++ [reply id r] }
  | answerRefused {n : ℕ} {id : UInt64} {req : Q} {r : Handled R} {e : WriteError}
      (h : s.workers[n]? = some ⟨id, req, .answering r⟩)
      (hwrite : writeEnvelope J.toCodec s.down.written (reply id r) = .error e) :
      Step request s .inner { s with workers := s.workers.set n ⟨id, req, .dropped r⟩ }
  | answerFails {n : ℕ} {id : UInt64} {req : Q} {r : Handled R} (h : s.workers[n]? = some ⟨id, req, .answering r⟩)
      (hcut : s.Cut) : Step request s .inner { s with workers := s.workers.set n ⟨id, req, .dropped r⟩ }
  | answerTorn {n : ℕ} {id : UInt64} {req : Q} {r : Handled R} {part rest : Bytes}
      (h : s.workers[n]? = some ⟨id, req, .answering r⟩) (hcut : s.Cut) (htorn : s.down.torn = false) (hrest : rest ≠ [])
      (hwrite : writeEnvelope J.toCodec s.down.written (reply id r) = .ok (s.down.written ++ part ++ rest)) :
      Step request s .inner
        { s with workers := s.workers.set n ⟨id, req, .dropped r⟩, down := s.down.tear part, sent := s.sent ++ [reply id r] }
  /-- `BroadcastEvent`, at this connection. -/
  | event {wire : Bytes} (hopen : s.serverOpen = true) (htorn : s.down.torn = false)
      (hwrite : writeEnvelope J.toCodec s.down.written notice = .ok wire) :
      Step request s .outer { s with down := { s.down with written := wire }, sent := s.sent ++ [notice] }
  | eventTorn {part rest : Bytes} (hcut : s.Cut) (htorn : s.down.torn = false) (hrest : rest ≠ [])
      (hwrite : writeEnvelope J.toCodec s.down.written notice = .ok (s.down.written ++ part ++ rest)) :
      Step request s .outer { s with down := s.down.tear part, sent := s.sent ++ [notice] }

/-- Nothing goes on any more. -/
def AtRest [DecidableEq ι] (request : ι → Q) (s : State ι Q R) : Prop := ∀ t, Step J request s .inner t → t = s

/-! ### The streams -/

/-- The lines are those of the envelopes. -/
def Encoded (bs : List Bytes) (envs : List (Envelope Q R)) : Prop :=
  List.Forall₂ (fun b env => J.marshal env = some b ∧ b.length ≤ maxFrameSize) bs envs

variable {J} {bs : List Bytes} {envs : List (Envelope Q R)} {env : Envelope Q R} {k n : ℕ} {str str' : Stream}
  {line part rest wire : Bytes}

/-- `WriteEnvelope` puts a message on the stream. -/
theorem carries_written (hcarries : Carries bs k str) (hbs : Encoded J bs envs) (htorn : str.torn = false)
    (hwrite : writeEnvelope J.toCodec str.written env = .ok wire) :
    ∃ b, Encoded J (bs ++ [b]) (envs ++ [env]) ∧ Carries (bs ++ [b]) k { str with written := wire } := by
  obtain ⟨b, hb, hlen, rfl⟩ := writeEnvelope_ok.mp hwrite
  exact ⟨b, List.rel_append hbs (.cons ⟨hb, hlen⟩ .nil), hcarries.write htorn (J.object env b hb).oneLine⟩

/-- One that is cut off puts a part of it there. -/
theorem carries_torn (hcarries : Carries bs k str) (hbs : Encoded J bs envs) (htorn : str.torn = false)
    (hwrite : writeEnvelope J.toCodec str.written env = .ok (str.written ++ part ++ rest)) :
    ∃ b, Encoded J (bs ++ [b]) (envs ++ [env]) ∧ Carries (bs ++ [b]) k (str.tear part) := by
  obtain ⟨b, hb, hlen, hwire⟩ := writeEnvelope_ok.mp hwrite
  rw [List.append_assoc, List.append_assoc, List.append_cancel_left_eq] at hwire
  exact ⟨b, List.rel_append hbs (.cons ⟨hb, hlen⟩ .nil),
    hcarries.tear htorn (J.object env b hb).oneLine ⟨rest, hwire⟩⟩

theorem Encoded.get (hbs : Encoded J bs envs) {b : Bytes} (hb : bs[k]? = some b) :
    ∃ env, envs[k]? = some env ∧ J.marshal env = some b := by
  obtain ⟨hlt, rfl⟩ := List.getElem?_eq_some_iff.mp hb
  have hlt' : k < envs.length := by
    rw [← List.Forall₂.length_eq hbs]
    exact hlt
  exact ⟨envs[k], List.getElem?_eq_getElem hlt', (List.Forall₂.get hbs hlt hlt').1⟩

theorem Encoded.of_mem (hbs : Encoded J bs envs) (henv : env ∈ envs) :
    ∃ b, J.marshal env = some b ∧ b.length ≤ maxFrameSize := by
  obtain ⟨k, hk, rfl⟩ := List.getElem_of_mem henv
  have hk' : k < bs.length := by
    rw [List.Forall₂.length_eq hbs]
    exact hk
  exact ⟨bs[k], List.Forall₂.get hbs hk' hk⟩

/-- A scan leaves what is written as it is, and ends the stream only if nothing more will come. -/
theorem scanned_keeps {P : Prop} {N : ℕ} (hscan : Scans N str line str' ∨ P ∧ ScansRest N str line str') :
    str.ended = false ∧ str'.torn = str.torn ∧ (str'.ended = true → P) := by
  rcases hscan with ⟨hended, -, -, -⟩ | ⟨hP, ⟨hended, -, -, -, -⟩⟩
  · refine ⟨hended, rfl, fun hends => ?_⟩
    rw [hended] at hends
    cases hends
  · exact ⟨hended, rfl, fun _ => hP⟩

/-- **A scan** of what carries envelopes finds the next one, or, if it is the last, nothing. -/
theorem carries_scanned (hcarries : Carries bs k str) (hbs : Encoded J bs envs) {P : Prop}
    (hscan : Scans maxFrameSize str line str' ∨ P ∧ ScansRest maxFrameSize str line str') :
    Carries bs (k + 1) str' ∧ ∃ env, envs[k]? = some env ∧
      (J.unmarshal line = some env ∧ line ≠ [] ∨ J.unmarshal line = none ∧ str'.ended = true) := by
  rcases hscan with hscan | ⟨-, hscan⟩
  · obtain ⟨b, hb, rfl, -, -, hcarries'⟩ := hcarries.scan hscan
    obtain ⟨env, henv, hmarshal⟩ := hbs.get hb
    have hobject : IsObject b := J.object env b hmarshal
    rw [hobject.dropCR]
    exact ⟨hcarries', env, henv, .inl ⟨J.roundTrip env b hmarshal, hobject.ne_nil⟩⟩
  · obtain ⟨b, raw, hb, hraw, -, rfl, hended, hcarries'⟩ := hcarries.scanRest hscan
    obtain ⟨env, henv, hmarshal⟩ := hbs.get hb
    refine ⟨hcarries', env, henv, ?_⟩
    have hobject : IsObject b := J.object env b hmarshal
    have hprefix : dropCR raw <+: b := by
      rw [dropCR]
      split_ifs
      · exact (List.dropLast_prefix raw).trans hraw
      · exact hraw
    by_cases heq : dropCR raw = b
    · rw [heq]
      exact .inl ⟨J.roundTrip env b hmarshal, hobject.ne_nil⟩
    · exact .inr ⟨J.cutOff env b _ hmarshal hprefix heq, hended⟩

end Tilbo.Ipc.Connection
