import Tilbo.Lib.Steps
import Mathlib.Logic.Function.Basic

/-! # Stopping the server

`Server`: the accept loop hands each connection to a goroutine, after it has put it into the table of active
connections; `Stop` sets a flag, closes the listener and the connections in the table, and waits for the
goroutines. A connection that was accepted just before and goes into the table just after is closed by
nobody (`left_open_run`); `stop_reaches_all`: without one, every connection is.

The table is only used under a mutex, which `closeActiveConnections` holds while it closes connection after
connection. A connection is named by `κ`. -/

namespace Tilbo.Ipc.Shutdown

open Tilbo.Lib.Steps

variable {κ : Type} [DecidableEq κ]

/-! ### The state -/

/-- Where the accept loop is. -/
inductive Serve (κ : Type) where
  | accepting
  | failed
  | accepted (c : κ)
  /-- In the table; its goroutine is not started yet. -/
  | tracked (c : κ)
  | stopped

/-- Where the goroutine of a connection is. -/
inductive Handle where
  | absent
  /-- In `Scan`. -/
  | scanning
  | scanned
  /-- The server was not closing. -/
  | parsing
  /-- About to close the connection. -/
  | returning
  /-- About to take it out of the table. -/
  | closed
  | untracked
  | done

/-- Where `Stop` is. -/
inductive Stop where
  | idle
  | closing
  | unlistened
  /-- In `closeActiveConnections`, with the mutex. -/
  | sweeping
  | waiting
  | finished

/-- The server. -/
structure State (κ : Type) where
  closing : Bool
  listening : Bool
  /-- The table of active connections. -/
  conns : κ → Bool
  /-- The connections that are open on this side. -/
  isOpen : κ → Bool
  serve : Serve κ
  handle : κ → Handle
  stop : Stop

/-- A server that was started. -/
def started : State κ where
  closing := false
  listening := true
  conns _ := false
  isOpen _ := false
  serve := .accepting
  handle _ := .absent
  stop := .idle

/-! ### The steps -/

/-- Who takes a step. -/
inductive Action (κ : Type) where
  /-- The accept loop, in `trackConn`. -/
  | track (c : κ)
  /-- The client: a line arrives, or the connection ends. -/
  | client (c : κ)
  | server

/-- A step of a goroutine that moves nothing but the goroutine. -/
inductive HandleStep (s : State κ) (c : κ) : Handle → Handle → Action κ → Prop
  | line : HandleStep s c .scanning .scanned (.client c)
  | ended : HandleStep s c .scanning .returning (.client c)
  /-- A connection closed on this side ends the scan. -/
  | wake (h : s.isOpen c = false) : HandleStep s c .scanning .returning .server
  | quit (h : s.closing = true) : HandleStep s c .scanned .returning .server
  | parse (h : s.closing = false) : HandleStep s c .scanned .parsing .server
  /-- The line is empty or no envelope, or its request is handled in a goroutine of its own. -/
  | next : HandleStep s c .parsing .scanning .server
  | quitGarbled (h : s.closing = true) : HandleStep s c .parsing .returning .server
  | exit : HandleStep s c .untracked .done .server

/-- One atomic step. -/
inductive Step (s : State κ) : Action κ → State κ → Prop
  /-- The listener returns a new connection. -/
  | accept {c : κ} (h : s.serve = .accepting) (hlisten : s.listening = true) (hnew : s.handle c = .absent) :
      Step s (.client c) { s with serve := .accepted c, isOpen := Function.update s.isOpen c true }
  | fail (h : s.serve = .accepting) : Step s .server { s with serve := .failed }
  | retry (h : s.serve = .failed) (hclosing : s.closing = false) : Step s .server { s with serve := .accepting }
  | leave (h : s.serve = .failed) (hclosing : s.closing = true) : Step s .server { s with serve := .stopped }
  | trackConn {c : κ} (h : s.serve = .accepted c) (hlock : s.stop ≠ .sweeping) : Step s (.track c)
      { s with serve := .tracked c, conns := Function.update s.conns c true }
  | spawn {c : κ} (h : s.serve = .tracked c) : Step s .server
      { s with serve := .accepting, handle := Function.update s.handle c .scanning }
  | handle {c : κ} {pc : Handle} {a : Action κ} (h : HandleStep s c (s.handle c) pc a) : Step s a
      { s with handle := Function.update s.handle c pc }
  | closeConn {c : κ} (h : s.handle c = .returning) : Step s .server
      { s with handle := Function.update s.handle c .closed, isOpen := Function.update s.isOpen c false }
  | untrackConn {c : κ} (h : s.handle c = .closed) (hlock : s.stop ≠ .sweeping) : Step s .server
      { s with handle := Function.update s.handle c .untracked, conns := Function.update s.conns c false }
  | setClosing (h : s.stop = .idle) : Step s .server { s with stop := .closing, closing := true }
  | closeListener (h : s.stop = .closing) : Step s .server { s with stop := .unlistened, listening := false }
  | lockConns (h : s.stop = .unlistened) : Step s .server { s with stop := .sweeping }
  | closeActive {c : κ} (h : s.stop = .sweeping) (hconn : s.conns c = true) : Step s .server
      { s with isOpen := Function.update s.isOpen c false }
  /-- Every connection in the table has been closed. -/
  | unlockConns (h : s.stop = .sweeping) (hclosed : ∀ c, s.conns c = true → s.isOpen c = false) :
      Step s .server { s with stop := .waiting }
  /-- The accept loop and the goroutines are done. -/
  | finish (h : s.stop = .waiting) (hserve : s.serve = .stopped)
      (hdone : ∀ c, s.handle c = .absent ∨ s.handle c = .done) : Step s .server { s with stop := .finished }

/-- `Stop` waits for a goroutine that waits for its client, on a connection that is open. -/
def State.LeftOpen (s : State κ) (c : κ) : Prop :=
  s.stop = .waiting ∧ s.handle c = .scanning ∧ s.isOpen c = true

/-- A condition on a step: a connection goes into the table before the table is swept. -/
def InTime (s : State κ) : Action κ → Prop
  | .track _ => s.stop ≠ .waiting ∧ s.stop ≠ .finished
  | _ => True

/-! ### The invariant -/

/-- The goroutine has not closed its connection yet. -/
@[grind] def Handle.Running : Handle → Prop
  | scanning | scanned | parsing | returning => True
  | _ => False

/-- `closeActiveConnections` has returned. -/
@[grind] def Stop.Swept : Stop → Prop
  | waiting | finished => True
  | _ => False

/-- A running goroutine's connection is in the table; and once the table was swept, the connections in it
are closed. -/
structure Reached (s : State κ) : Prop where
  running : ∀ c, (s.handle c).Running → s.conns c = true
  tracked : ∀ c, s.serve = .tracked c → s.conns c = true
  held : ∀ c, s.serve = .accepted c ∨ s.serve = .tracked c → s.handle c = .absent
  fresh : ∀ c, s.conns c = true → s.handle c = .absent → s.serve = .tracked c
  swept : s.stop.Swept → ∀ c, s.conns c = true → s.isOpen c = false

section Reached

variable {s s' : State κ} {a : Action κ} {c : κ}

omit [DecidableEq κ] in
theorem reached_started : Reached (started : State κ) := by
  constructor
  all_goals grind [started]

theorem Reached.handle (hs : Reached s) {pc : Handle} (h : HandleStep s c (s.handle c) pc a) :
    Reached { s with handle := Function.update s.handle c pc } := by
  obtain ⟨hrunning, htracked, hheld, hfresh, hswept⟩ := hs
  generalize hpc : s.handle c = old at h
  cases h
  all_goals
    constructor
    all_goals grind [Function.update_apply]

/-- **One step.** -/
theorem Reached.step (hs : Reached s) (hC : InTime s a) (h : Step s a s') : Reached s' := by
  cases h with
  | handle h => exact hs.handle h
  | _ =>
    obtain ⟨hrunning, htracked, hheld, hfresh, hswept⟩ := hs
    constructor
    all_goals grind [InTime, Function.update_apply]

end Reached

/-! ### Every run -/

/-- **`Stop` reaches every connection**, if each goes into the table in time. -/
theorem stop_reaches_all {tr : List (State κ × Action κ)} {s : State κ} (hrun : Runs Step started tr s)
    (hintime : Meets InTime tr) (c : κ) : ¬ s.LeftOpen c := by
  have hs : Reached s :=
    hrun.invariant Reached hintime reached_started fun t a u ht hC hstep => ht.step hC hstep
  rintro ⟨hwaiting, hscanning, hopen⟩
  have hconn : s.conns c = true := hs.running c (by rw [hscanning]; trivial)
  have hclosed : s.isOpen c = false := hs.swept (by rw [hwaiting]; trivial) c hconn
  rw [hopen] at hclosed
  cases hclosed

/-- What is left open stays so, whatever the server does: only its client can end it. -/
theorem State.LeftOpen.step {s s' : State κ} {a : Action κ} {c : κ} (hs : s.LeftOpen c)
    (h : Step s a s') (ha : a ≠ .client c) : s'.LeftOpen c := by
  obtain ⟨hwaiting, hscanning, hopen⟩ := hs
  cases h with
  | @handle d pc a h =>
    have hdc : c ≠ d := by
      rintro rfl
      rw [hscanning] at h
      cases h with
      | line | ended => exact ha rfl
      | wake hclosed => simp [hclosed] at hopen
    exact ⟨hwaiting, (Function.update_of_ne hdc pc s.handle).trans hscanning, hopen⟩
  | finish _ _ hdone =>
    have hc := hdone c
    simp [hscanning] at hc
  | _ => constructor <;> grind [Function.update_apply]

/-- **A connection that `Stop` does not reach.** It is accepted, and goes into the table after `Stop` has
closed what was there. -/
theorem left_open_run : ∃ (tr : List (State Unit × Action Unit)) (s : State Unit),
    Runs Step started tr s ∧ s.LeftOpen () := by
  have h0 : Runs Step (started : State Unit) [] started := .nil
  have h1 := h0.snoc (.accept (c := ()) rfl rfl rfl)
  have h2 := h1.snoc (.setClosing rfl)
  have h3 := h2.snoc (.closeListener rfl)
  have h4 := h3.snoc (.lockConns rfl)
  have h5 := h4.snoc (.unlockConns rfl nofun)
  have h6 := h5.snoc (.trackConn (c := ()) rfl nofun)
  have h7 := h6.snoc (.spawn rfl)
  exact ⟨_, _, h7, rfl, rfl, rfl⟩

/-- A connection that `Stop` reaches: its goroutine scans, and the scan ends. -/
theorem stop_reaches_tracked : ∃ (tr : List (State Unit × Action Unit)) (s : State Unit),
    Runs Step started tr s ∧ s.stop = .waiting ∧ s.handle () = .scanning ∧ ¬ s.LeftOpen () := by
  have h0 : Runs Step (started : State Unit) [] started := .nil
  have h1 := h0.snoc (.accept (c := ()) rfl rfl rfl)
  have h2 := h1.snoc (.trackConn (c := ()) rfl nofun)
  have h3 := h2.snoc (.spawn rfl)
  have h4 := h3.snoc (.setClosing rfl)
  have h5 := h4.snoc (.closeListener rfl)
  have h6 := h5.snoc (.lockConns rfl)
  have h7 := h6.snoc (.closeActive (c := ()) rfl rfl)
  have h8 := h7.snoc (.unlockConns rfl fun _ _ => rfl)
  refine ⟨_, _, h8, rfl, rfl, stop_reaches_all h8 ?_ ()⟩
  refine .snoc (.snoc (.snoc (.snoc (.snoc (.snoc ?_ trivial) trivial) trivial) trivial) trivial) trivial
  exact .snoc (.snoc .nil trivial) ⟨nofun, nofun⟩

end Tilbo.Ipc.Shutdown
