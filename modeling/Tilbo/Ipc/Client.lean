import Tilbo.Lib.Steps
import Mathlib.Logic.Function.Basic

/-! # The client of a connection

`Client`: any number of `Call`s share one connection and a table of pending requests, from which the read
loop takes the channel a response goes to. `Step` is one atomic step of a `Call`, of `Close`, of the read
loop or of the contexts. The table is only used under a mutex; the one critical section that is visible
from outside while it lasts is `drainReqs`, which closes channel after channel.

A `Call` is named by `ι`, and so is its channel. -/

namespace Tilbo.Ipc.Client

open Tilbo.Lib.Steps

variable {ι R : Type} [DecidableEq ι]

/-! ### The state -/

/-- A line, as the read loop sees it: nothing, no envelope, an envelope that is no response, or a response
with its request id. -/
inductive Line (R : Type) where
  | empty
  | garbled
  | event
  | response (id : UInt64) (resp : R)

/-- The errors a `Call` returns. -/
inductive Failure where
  | clientClosed
  | cancelled
  | writeFailed
  | connectionClosed

/-- How a `Call` ends; a response comes with the number of its line and the request id on it. -/
inductive Outcome (R : Type) where
  | failure (e : Failure)
  | response (n : ℕ) (id : UInt64) (resp : R)

/-- Where a `Call` is. -/
inductive Pc (R : Type) where
  | ready
  /-- The client was not closed. -/
  | checked
  /-- Nor was the context cancelled. -/
  | admitted
  | registered
  /-- The context was still not cancelled. -/
  | sending
  | waiting
  /-- About to take the request out of the table, and to return. -/
  | removing (e : Failure)
  | finished (o : Outcome R)

/-- Where the read loop is. -/
inductive Reader (ι R : Type) where
  | scanning
  | scanned (n : ℕ) (l : Line R)
  /-- The client was not closed. -/
  | parsing (n : ℕ) (l : Line R)
  /-- The request is out of the table. -/
  | delivering (n : ℕ) (id : UInt64) (resp : R) (i : ι)
  | delivered (i : ι)
  /-- In `drainReqs`, between two requests. -/
  | draining
  /-- In `drainReqs`, with the channel of the request closed. -/
  | closing (id : UInt64)
  | drained
  | disconnected
  | done

/-- The client, its `Call`s and its read loop. -/
structure State (ι R : Type) where
  nextID : UInt64
  reqs : UInt64 → Option ι
  closed : Bool
  /-- The connection is not closed on this side. -/
  connected : Bool
  pc : ι → Pc R
  id : ι → UInt64
  ctxDone : ι → Bool
  /-- What is in the channel, which has room for one response. -/
  buffered : ι → Option (ℕ × UInt64 × R)
  chanClosed : ι → Bool
  reader : Reader ι R
  /-- The lines read so far. -/
  lines : List (Line R)

/-- `NewClient`. -/
def newClient : State ι R where
  nextID := 1
  reqs _ := none
  closed := false
  connected := true
  pc _ := .ready
  id _ := 0
  ctxDone _ := false
  buffered _ := none
  chanClosed _ := false
  reader := .scanning
  lines := []

/-- The read loop is in `drainReqs`, and holds the mutex. -/
def Reader.InDrain : Reader ι R → Prop
  | draining | closing _ => True
  | _ => False

/-- The mutex is free. -/
def State.Unlocked (s : State ι R) : Prop := ¬ s.reader.InDrain

def State.goto (s : State ι R) (i : ι) (pc : Pc R) : State ι R := { s with pc := Function.update s.pc i pc }

/-! ### The steps -/

/-- What a step does that a claim or a condition is about. -/
inductive Action (ι : Type) where
  | register (i : ι)
  /-- The request is written to the connection. -/
  | write (i : ι)
  | send (i : ι)
  | closeChan (i : ι)
  | other

/-- A step of a `Call` that moves nothing but the `Call`. -/
inductive CallStep (s : State ι R) (i : ι) : Pc R → Pc R → Prop
  | refuse (h : s.closed = true) : CallStep s i .ready (.finished (.failure .clientClosed))
  | check (h : s.closed = false) : CallStep s i .ready .checked
  | expired (h : s.ctxDone i = true) : CallStep s i .checked (.finished (.failure .cancelled))
  | allow (h : s.ctxDone i = false) : CallStep s i .checked .admitted
  | abort (h : s.ctxDone i = true) : CallStep s i .registered (.removing .cancelled)
  | proceed (h : s.ctxDone i = false) : CallStep s i .registered .sending
  | writeFailed : CallStep s i .sending (.removing .writeFailed)
  | cancelled (h : s.ctxDone i = true) : CallStep s i .waiting (.removing .cancelled)
  | woken (h : s.buffered i = none) (hclosed : s.chanClosed i = true) :
      CallStep s i .waiting (.finished (.failure .connectionClosed))

/-- A step of the read loop that moves nothing but the loop. -/
inductive ReaderStep (s : State ι R) : Reader ι R → Reader ι R → Prop
  /-- The scanner stops: the connection ends or fails, or a line is too long. -/
  | stop : ReaderStep s .scanning .draining
  | quit {n : ℕ} {l : Line R} (h : s.closed = true) : ReaderStep s (.scanned n l) .draining
  | parse {n : ℕ} {l : Line R} (h : s.closed = false) : ReaderStep s (.scanned n l) (.parsing n l)
  | skipEmpty {n : ℕ} : ReaderStep s (.parsing n .empty) .scanning
  | skipGarbled {n : ℕ} (h : s.closed = false) : ReaderStep s (.parsing n .garbled) .scanning
  | quitGarbled {n : ℕ} (h : s.closed = true) : ReaderStep s (.parsing n .garbled) .draining
  | skipEvent {n : ℕ} : ReaderStep s (.parsing n .event) .scanning
  | unknown {n : ℕ} {id : UInt64} {resp : R} (h : s.reqs id = none) :
      ReaderStep s (.parsing n (.response id resp)) .scanning
  | drained (h : ∀ id, s.reqs id = none) : ReaderStep s .draining .drained
  | finish : ReaderStep s .disconnected .done

/-- One atomic step. -/
inductive Step (s : State ι R) : Action ι → State ι R → Prop
  | call {i : ι} {pc : Pc R} (h : CallStep s i (s.pc i) pc) : Step s .other (s.goto i pc)
  /-- The id is taken and the channel put into the table. -/
  | register {i : ι} (h : s.pc i = .admitted) (hlock : s.Unlocked) : Step s (.register i)
      { s.goto i .registered with
        nextID := s.nextID + 1
        reqs := Function.update s.reqs s.nextID (some i)
        id := Function.update s.id i s.nextID
        buffered := Function.update s.buffered i none
        chanClosed := Function.update s.chanClosed i false }
  | write {i : ι} (h : s.pc i = .sending) (hconn : s.connected = true) : Step s (.write i) (s.goto i .waiting)
  /-- `delete(c.reqs, id)`, and return. -/
  | remove {i : ι} {e : Failure} (h : s.pc i = .removing e) (hlock : s.Unlocked) : Step s .other
      { s.goto i (.finished (.failure e)) with reqs := Function.update s.reqs (s.id i) none }
  | receive {i : ι} {n : ℕ} {id : UInt64} {resp : R} (h : s.pc i = .waiting)
      (hbuf : s.buffered i = some (n, id, resp)) : Step s .other
      { s.goto i (.finished (.response n id resp)) with buffered := Function.update s.buffered i none }
  | cancel (i : ι) : Step s .other { s with ctxDone := Function.update s.ctxDone i true }
  /-- `Close` sets the flag, and then closes the connection. -/
  | close (h : s.closed = false) : Step s .other { s with closed := true }
  | hangUp (h : s.closed = true) : Step s .other { s with connected := false }
  | reader {r : Reader ι R} (h : ReaderStep s s.reader r) : Step s .other { s with reader := r }
  | scan (l : Line R) (h : s.reader = .scanning) : Step s .other
      { s with reader := .scanned s.lines.length l, lines := s.lines ++ [l] }
  /-- The request is looked up and taken out of the table. -/
  | look {n : ℕ} {id : UInt64} {resp : R} {i : ι} (h : s.reader = .parsing n (.response id resp))
      (hreq : s.reqs id = some i) : Step s .other
      { s with reader := .delivering n id resp i, reqs := Function.update s.reqs id none }
  | send {n : ℕ} {id : UInt64} {resp : R} {i : ι} (h : s.reader = .delivering n id resp i)
      (hroom : s.buffered i = none) : Step s (.send i)
      { s with reader := .delivered i, buffered := Function.update s.buffered i (some (n, id, resp)) }
  | closeDelivered {i : ι} (h : s.reader = .delivered i) : Step s (.closeChan i)
      { s with reader := .scanning, chanClosed := Function.update s.chanClosed i true }
  | closeDrained {id : UInt64} {i : ι} (h : s.reader = .draining) (hreq : s.reqs id = some i) :
      Step s (.closeChan i)
      { s with reader := .closing id, chanClosed := Function.update s.chanClosed i true }
  | deleteDrained {id : UInt64} (h : s.reader = .closing id) : Step s .other
      { s with reader := .draining, reqs := Function.update s.reqs id none }
  | disconnect (h : s.reader = .drained) : Step s .other { s with reader := .disconnected, connected := false }

end Tilbo.Ipc.Client
