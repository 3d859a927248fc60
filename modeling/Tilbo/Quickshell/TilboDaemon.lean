import Tilbo.Lib.Steps
import Mathlib.Algebra.Group.Int.Defs
import Mathlib.Algebra.Group.Nat.Defs
import Mathlib.Logic.Function.Basic
import Mathlib.Data.List.Nodup

/-! # The desktop's connection to the daemon

The service singleton of the desktop keeps a table of the calls that wait for a response. A call, a line, a
connection and a disconnection are handled one at a time; but a callback may itself make calls, also while
the handler of a disconnection goes through the old table.

`pending_throughout_iff` says when the calls in the table are always those whose requests went out on the
connection that is up. -/

namespace Tilbo.Quickshell.TilboDaemon

open Tilbo.Lib.Steps

/-! ### Frames -/

/-- What the daemon tells the desktop; a message carries one of them. -/
structure Event where
  fileTagged : Option (String × List String × List String)
  indexUpdated : Option (ℤ × ℤ)
  daemonStateChanged : Option String
  showWindow : Option String

/-- The signals of the service. -/
inductive Signal where
  | fileTagged (path : String) (added removed : List String)
  | indexUpdated (filesTotal tagsTotal : ℤ)
  | daemonStateChanged (state : String)
  | showWindow (path : String)

def Event.signal (ev : Event) : Option Signal :=
  match ev.fileTagged, ev.indexUpdated, ev.daemonStateChanged, ev.showWindow with
  | some (path, added, removed), _, _, _ => some (.fileTagged path added removed)
  | none, some (filesTotal, tagsTotal), _, _ => some (.indexUpdated filesTotal tagsTotal)
  | none, none, some state, _ => some (.daemonStateChanged state)
  | none, none, none, some path => some (.showWindow path)
  | none, none, none, none => none

/-- A response; the error is its message, which may be empty. -/
structure Response (R : Type) where
  error : Option String
  result : R

/-- What a line parses to. -/
structure Message (R : Type) where
  event : Option Event
  requestId : Option String
  response : Option (Response R)

/-- A frame that was written: on which connection, and by which call. -/
structure Frame (Q : Type) where
  connection : ℕ
  call : ℕ
  requestId : String
  request : Q

/-- A callback that was invoked: by a response with this id, or by the handler of a disconnection. -/
structure Invocation (R : Type) where
  callback : ℕ
  requestId : Option String
  answer : Except String R

/-! ### The service -/

variable {Q R : Type}

/-- The service. A callback is named by the number of its call, and a connection by its number. -/
structure State (Q R : Type) where
  connected : Bool
  pending : String → Option ℕ
  nextID : ℤ
  /-- What the handler of a disconnection has still to go through. -/
  failing : String → Option ℕ
  connection : ℕ
  calls : ℕ
  /-- The id of each call. -/
  id : ℕ → String
  frames : List (Frame Q)
  signals : List Signal
  invoked : List (Invocation R)

/-- The service before the first connection. -/
def State.start : State Q R where
  connected := false
  pending _ := none
  nextID := 1
  failing _ := none
  connection := 0
  calls := 0
  id _ := ""
  frames := []
  signals := []
  invoked := []

/-- `_nextID++`; the property is a 32-bit integer. -/
def increment (n : ℤ) : ℤ := (n + 1).bmod (2 ^ 32)

/-- `_call`; what is written to a disconnected socket is lost. -/
def State.call (s : State Q R) (request : Q) : State Q R :=
  let id := toString s.nextID
  { s with
    nextID := increment s.nextID
    calls := s.calls + 1
    id := Function.update s.id s.calls id
    pending := Function.update s.pending id (some s.calls)
    frames := if s.connected then s.frames ++ [⟨s.connection, s.calls, id, request⟩] else s.frames }

/-- What a callback is told. -/
def Response.answer (resp : Response R) : Except String R :=
  match resp.error with
  | some message => .error (if message = "" then "unknown error" else message)
  | none => .ok resp.result

/-- The end of `_handleLine`; a message without a response has an empty one. -/
def State.respond [Inhabited R] (s : State Q R) (id : String) (resp : Option (Response R)) : State Q R :=
  match s.pending id with
  | none => s
  | some cb =>
    { s with
      pending := Function.update s.pending id none
      invoked := s.invoked ++ [⟨cb, some id, (resp.getD ⟨none, default⟩).answer⟩] }

/-- `_handleLine`. -/
def State.handleLine [Inhabited R] (parse : String → Option (Message R)) (s : State Q R) (line : String) :
    State Q R :=
  if line.toList.all Char.isWhitespace then s
  else
    match parse line with
    | none => s
    | some msg =>
      match msg.event with
      | some ev => { s with signals := s.signals ++ ev.signal.toList }
      | none =>
        match msg.requestId with
        | some id => s.respond id msg.response
        | none => s

/-- The socket is connected. -/
def State.connect (s : State Q R) : State Q R := { s with connected := true, connection := s.connection + 1 }

/-- `onConnectionStateChanged` up to its loop. -/
def State.disconnect (s : State Q R) : State Q R :=
  { s with connected := false, failing := s.pending, pending := fun _ => none }

/-- One turn of its loop. -/
def State.fail (s : State Q R) (id : String) (cb : ℕ) : State Q R :=
  { s with
    failing := Function.update s.failing id none
    invoked := s.invoked ++ [⟨cb, none, .error "daemon disconnected"⟩] }

/-- What happens next. -/
inductive Action (Q : Type) where
  | call (request : Q)
  | line (text : String)
  | connect
  | disconnect
  | fail (id : String)
  /-- A callback of the loop has thrown: the loop ends. -/
  | throw

/-- The loop goes through the table in any order. Only the callbacks it invokes come between its turns. -/
inductive Step [Inhabited R] (parse : String → Option (Message R)) : State Q R → Action Q → State Q R → Prop
  | call {s : State Q R} {request : Q} : Step parse s (.call request) (s.call request)
  | line {s : State Q R} {text : String} (hidle : s.failing = fun _ => none) :
      Step parse s (.line text) (s.handleLine parse text)
  | connect {s : State Q R} (hidle : s.failing = fun _ => none) (hdown : s.connected = false) :
      Step parse s .connect s.connect
  | disconnect {s : State Q R} (hidle : s.failing = fun _ => none) : Step parse s .disconnect s.disconnect
  | fail {s : State Q R} {id : String} {cb : ℕ} (h : s.failing id = some cb) : Step parse s (.fail id) (s.fail id cb)
  | throw {s : State Q R} : Step parse s .throw { s with failing := fun _ => none }

/-! ### What is to be shown -/

/-- The request of a callback went out on the connection that is up. -/
def State.Current (s : State Q R) (cb : ℕ) : Prop :=
  s.connected ∧ ∃ f ∈ s.frames, f.call = cb ∧ f.requestId = s.id cb ∧ f.connection = s.connection

/-- Calls resolve correctly. -/
structure State.Resolves (s : State Q R) : Prop where
  /-- No callback is invoked twice. -/
  once : (s.invoked.map Invocation.callback).Nodup
  /-- A response reaches the callback that was registered under its id. -/
  registered : ∀ inv ∈ s.invoked, ∀ id, inv.requestId = some id → s.id inv.callback = id
  current : ∀ id cb, s.pending id = some cb → s.Current cb

/-- Calls are made while the socket is connected. -/
def OnlyConnected (s : State Q R) : Action Q → Prop
  | .call _ => s.connected
  | _ => True

/-! ### The table -/

/-- The calls in the tables are calls that were made, each under its own id, and none was answered. -/
structure State.Sound (s : State Q R) : Prop where
  pending : ∀ {id cb}, s.pending id = some cb → cb < s.calls ∧ s.id cb = id
  failing : ∀ {id cb}, s.failing id = some cb → cb < s.calls ∧ s.id cb = id
  apart : ∀ {id cb}, s.pending id = some cb → s.failing id ≠ some cb
  known : ∀ inv ∈ s.invoked, inv.callback < s.calls
  pending_new : ∀ {id cb}, s.pending id = some cb → ∀ inv ∈ s.invoked, inv.callback ≠ cb
  failing_new : ∀ {id cb}, s.failing id = some cb → ∀ inv ∈ s.invoked, inv.callback ≠ cb
  once : (s.invoked.map Invocation.callback).Nodup
  registered : ∀ inv ∈ s.invoked, ∀ id, inv.requestId = some id → s.id inv.callback = id

variable {s t u : State Q R} {a : Action Q} {tr : List (State Q R × Action Q)} {id : String} {cb : ℕ}

theorem sound_start : (State.start : State Q R).Sound := by
  constructor <;> simp [State.start]

theorem Sound.call (hs : s.Sound) (request : Q) : (s.call request).Sound := by
  obtain ⟨hpending, hfailing, hapart, hknown, hpendingNew, hfailingNew, honce, hregistered⟩ := hs
  constructor
  all_goals simp only [State.call]
  all_goals grind [Function.update_apply]

/-- An invocation of a callback that was not invoked before. -/
theorem nodup_invoked {l : List (Invocation R)} (inv : Invocation R) (hl : (l.map Invocation.callback).Nodup)
    (hnew : ∀ inv' ∈ l, inv'.callback ≠ inv.callback) : ((l ++ [inv]).map Invocation.callback).Nodup := by
  rw [List.map_append, List.map_singleton, List.nodup_append]
  refine ⟨hl, List.nodup_singleton _, fun m hm n hn => ?_⟩
  obtain ⟨inv', hinv', rfl⟩ := List.mem_map.mp hm
  rw [List.mem_singleton.mp hn]
  exact hnew inv' hinv'

theorem Sound.respond [Inhabited R] (hs : s.Sound) (id : String) (resp : Option (Response R)) :
    (s.respond id resp).Sound := by
  unfold State.respond
  split
  · exact hs
  · next cb hcb =>
    have honce := nodup_invoked ⟨cb, some id, (resp.getD ⟨none, default⟩).answer⟩ hs.once
      (hs.pending_new hcb)
    obtain ⟨hpending, hfailing, hapart, hknown, hpendingNew, hfailingNew, -, hregistered⟩ := hs
    refine ⟨?_, ?_, ?_, ?_, ?_, ?_, honce, ?_⟩ <;> grind [Function.update_apply]

theorem Sound.fail (hs : s.Sound) (h : s.failing id = some cb) : (s.fail id cb).Sound := by
  have honce := nodup_invoked ⟨cb, none, .error "daemon disconnected"⟩ hs.once (hs.failing_new h)
  obtain ⟨hpending, hfailing, hapart, hknown, hpendingNew, hfailingNew, -, hregistered⟩ := hs
  refine ⟨?_, ?_, ?_, ?_, ?_, ?_, honce, ?_⟩ <;> simp only [State.fail] <;> grind [Function.update_apply]

/-- A line adds a signal, answers a call or does nothing. -/
theorem handleLine_cases [Inhabited R] (parse : String → Option (Message R)) (s : State Q R) (line : String) :
    s.handleLine parse line = s ∨ (∃ l, s.handleLine parse line = { s with signals := l }) ∨
      ∃ id resp, s.handleLine parse line = s.respond id resp := by
  unfold State.handleLine
  split
  · exact .inl rfl
  · split
    · exact .inl rfl
    · split
      · exact .inr (.inl ⟨_, rfl⟩)
      · split
        · exact .inr (.inr ⟨_, _, rfl⟩)
        · exact .inl rfl

theorem Sound.signals (hs : s.Sound) (l : List Signal) : ({ s with signals := l } : State Q R).Sound := by
  obtain ⟨hpending, hfailing, hapart, hknown, hpendingNew, hfailingNew, honce, hregistered⟩ := hs
  exact ⟨hpending, hfailing, hapart, hknown, hpendingNew, hfailingNew, honce, hregistered⟩

theorem Sound.step [Inhabited R] {parse : String → Option (Message R)} (hs : s.Sound) (h : Step parse s a t) :
    t.Sound := by
  cases h with
  | call => exact Sound.call hs _
  | @line text hidle =>
    obtain h | ⟨l, h⟩ | ⟨id, resp, h⟩ := handleLine_cases parse s text
    · rw [h]
      exact hs
    · rw [h]
      exact Sound.signals hs l
    · rw [h]
      exact Sound.respond hs id resp
  | connect hidle hdown =>
    obtain ⟨hpending, hfailing, hapart, hknown, hpendingNew, hfailingNew, honce, hregistered⟩ := hs
    exact ⟨hpending, hfailing, hapart, hknown, hpendingNew, hfailingNew, honce, hregistered⟩
  | disconnect hidle =>
    obtain ⟨hpending, -, -, hknown, hpendingNew, -, honce, hregistered⟩ := hs
    exact ⟨nofun, hpending, nofun, hknown, nofun, hpendingNew, honce, hregistered⟩
  | fail h => exact Sound.fail hs h
  | throw =>
    obtain ⟨hpending, -, -, hknown, hpendingNew, -, honce, hregistered⟩ := hs
    exact ⟨hpending, nofun, nofun, hknown, hpendingNew, nofun, honce, hregistered⟩

/-! ### The connection -/

/-- The calls in the table are current. -/
def State.AllCurrent (s : State Q R) : Prop := ∀ id cb, s.pending id = some cb → s.Current cb

theorem allCurrent_call (hs : s.Sound) (hcurrent : s.AllCurrent) (hup : s.connected) (request : Q) :
    (s.call request).AllCurrent := by
  intro id cb hcb
  refine ⟨hup, ?_⟩
  have hframes : (s.call request).frames = s.frames ++ [⟨s.connection, s.calls, toString s.nextID, request⟩] :=
    if_pos hup
  simp only [State.call, Function.update_apply] at hcb
  split at hcb
  · cases hcb
    refine ⟨_, hframes ▸ List.mem_append_right _ (List.mem_singleton_self _), rfl, ?_, rfl⟩
    simp [State.call]
  · obtain ⟨-, f, hf, hcall, hid, hconnection⟩ := hcurrent id cb hcb
    have hlt : cb ≠ s.calls := Nat.ne_of_lt (hs.pending hcb).1
    refine ⟨f, hframes ▸ List.mem_append_left _ hf, hcall, ?_, hconnection⟩
    simpa [State.call, Function.update_apply, hlt] using hid

theorem allCurrent_respond [Inhabited R] (hcurrent : s.AllCurrent) (id : String) (resp : Option (Response R)) :
    (s.respond id resp).AllCurrent := by
  unfold State.respond
  split
  · exact hcurrent
  · intro id' cb' hcb'
    simp only [Function.update_apply] at hcb'
    split at hcb'
    · cases hcb'
    · exact hcurrent id' cb' hcb'

theorem allCurrent_step [Inhabited R] {parse : String → Option (Message R)} (hs : s.Sound)
    (hcurrent : s.AllCurrent) (ha : OnlyConnected s a) (h : Step parse s a t) : t.AllCurrent := by
  cases h with
  | call => exact allCurrent_call hs hcurrent ha _
  | @line text hidle =>
    obtain h | ⟨l, h⟩ | ⟨id, resp, h⟩ := handleLine_cases parse s text
    · rw [h]
      exact hcurrent
    · rw [h]
      exact hcurrent
    · rw [h]
      exact allCurrent_respond hcurrent id resp
  | connect hidle hdown =>
    intro id cb hcb
    have hup : s.connected := (hcurrent id cb hcb).1
    rw [hdown] at hup
    cases hup
  | disconnect hidle => exact fun _ _ hcb => nomatch hcb
  | fail h => exact hcurrent
  | throw => exact hcurrent

/-- A call while the socket is disconnected waits in the table. -/
theorem not_resolves_call (hdown : ¬ s.connected) (request : Q) : ¬ (s.call request).Resolves := fun h =>
  hdown (h.current (toString s.nextID) s.calls (by simp [State.call])).1

/-- **When calls resolve.** In every run of calls, lines, connections and disconnections no callback is
invoked twice and a response reaches only the callback that was registered under its id. The calls in the
table are those whose requests went out on the connection that is up, all the time, if and only if no call is
made while the socket is disconnected. -/
theorem pending_throughout_iff [Inhabited R] {parse : String → Option (Message R)}
    (hrun : Runs (Step parse) State.start tr t) :
    (∀ tr' u, tr' <+: tr → Runs (Step parse) State.start tr' u → u.Resolves) ↔ Meets OnlyConnected tr := by
  constructor
  · intro hall
    induction hrun with
    | nil => exact Meets.nil
    | @snoc tr t u a before last ih =>
      refine Meets.snoc (ih fun tr' u' hpre => hall tr' u' (hpre.trans (List.prefix_append _ _))) ?_
      have hu : u.Resolves := hall _ u List.prefix_rfl (before.snoc last)
      cases last with
      | call => exact not_not.mp fun hdown => not_resolves_call hdown _ hu
      | _ => trivial
  · intro hmeets tr' u hpre hrun'
    have hmeets' : Meets OnlyConnected tr' := fun e he => hmeets e (hpre.subset he)
    have hu : u.Sound ∧ u.AllCurrent := by
      refine hrun'.invariant (fun u => u.Sound ∧ u.AllCurrent) hmeets' ⟨sound_start, nofun⟩ ?_
      exact fun s a t hs ha h => ⟨Sound.step hs.1 h, allCurrent_step hs.1 hs.2 ha h⟩
    exact ⟨hu.1.once, hu.1.registered, hu.2⟩

/-! ### A call before the connection -/

/-- An answer to the first call. -/
def firstLine : String := "\x7b\"requestId\":\"1\",\"response\":\x7b\x7d\x7d"

def parseFirst (line : String) : Option (Message String) :=
  if line = firstLine then some ⟨none, some "1", some ⟨none, "\x7b\x7d"⟩⟩ else none

/-- A call that is made while the socket is connected. -/
def called : State String String := State.start.connect.call "stat"

/-- The call is answered. -/
theorem pending_throughout_iff_answered :
    (called.handleLine parseFirst firstLine).invoked = [⟨0, some "1", .ok "\x7b\x7d"⟩] ∧
      ((∀ tr' u, tr' <+: [(.start, .connect), (.connect .start, .call "stat"), (called, .line firstLine)] →
          Runs (Step parseFirst) State.start tr' u → u.Resolves) ↔
        Meets OnlyConnected
          [(State.start (Q := String), .connect), (.connect .start, .call "stat"), (called, .line firstLine)]) :=
  ⟨by rfl, pending_throughout_iff
    (.snoc (.snoc (.snoc .nil (.connect rfl rfl)) .call) (.line rfl))⟩

/-- A call before the socket is connected still waits when it is, and its request went nowhere. -/
theorem call_outlives_connect :
    Runs (Step parseFirst) State.start [(.start, .call "stat"), (.call .start "stat", .connect)]
        (State.start.call "stat").connect ∧
      (State.start.call (R := String) "stat").connect.pending "1" = some 0 ∧
      ¬ (State.start.call (R := String) "stat").connect.Resolves := by
  refine ⟨.snoc (.snoc .nil .call) (.connect rfl rfl), by decide, fun h => ?_⟩
  obtain ⟨-, f, hf, -⟩ := h.current "1" 0 (by decide)
  cases hf

end Tilbo.Quickshell.TilboDaemon
