import Tilbo.Ipc.Framing
import Tilbo.Lib.Steps
import Mathlib.Logic.Function.Basic

/-! # Who writes to a connection

`BroadcastEvent` takes the connections that are in the table, and writes its event to one after the other;
`processEnvelope` writes a response to the connection of its request. Any number of both run at once. Each connection has a
mutex, held for one envelope, and takes the bytes as the client reads them, or never.

`envelopes_of_run`: every client gets whole frames, each event once, and one event before another if the broadcast of the
one had returned when that of the other began. `responds`: to send a response, no other connection has to take a byte. A
connection is named by `κ`, a goroutine that writes by `ι`. -/

namespace Tilbo.Ipc.Broadcast

open Tilbo.Lib.Steps Tilbo.Lib.Lines Tilbo.Ipc.Framing

variable {κ ι M : Type}

/-! ### The state -/

/-- Where a goroutine is. -/
inductive Pc (κ : Type) where
  | idle
  /-- It is about to lock the first of these connections. -/
  | turn (todo : List κ)
  /-- It holds the mutex of the connection, and has still to write this. -/
  | writing (c : κ) (todo : List κ) (left : Bytes)
  | returned

/-- The connections to which it has not written. -/
def Pc.remaining : Pc κ → List κ
  | idle | returned => []
  | turn todo => todo
  | writing c todo _ => c :: todo

structure State (κ ι : Type) where
  /-- The connections in the table. -/
  conns : κ → Prop
  /-- Who holds the mutex of the connection. -/
  mu : κ → Option ι
  /-- Writes to the connection fail from now on. -/
  broken : κ → Prop
  wire : κ → Bytes
  pc : ι → Pc κ
  /-- Who has written an envelope to the connection, one after the other. -/
  sent : κ → List ι
  /-- To which connections it is to write. -/
  targets : ι → List κ
  /-- The one had returned when the other began. -/
  before : ι → ι → Prop

def started : State κ ι where
  conns _ := False
  mu _ := none
  broken _ := False
  wire _ := []
  pc _ := .idle
  sent _ := []
  targets _ := []
  before _ _ := False

/-- What the goroutines write: their envelopes, and the connection of the request if it is a response. -/
structure Writers (κ ι M : Type) where
  codec : Codec M
  env : ι → M
  own : ι → Option κ

/-- What `WriteEnvelope` writes, unless it refuses. -/
def Writers.frame (w : Writers κ ι M) (i : ι) : Option Bytes := (writeEnvelope w.codec [] (w.env i)).toOption

/-- The frames of these. -/
def Writers.frames (w : Writers κ ι M) (l : List ι) : Bytes := l.flatMap fun i => (w.frame i).getD []

/-- The connections that an envelope is meant for, when these are in the table. -/
def Writers.Meant (w : Writers κ ι M) (conns : κ → Prop) (i : ι) (c : κ) : Prop := (w.own i).elim (conns c) (c = ·)

/-! ### The steps -/

inductive Action (κ ι : Type) where
  | table (c : κ)
  | hangUp (c : κ)
  | begin (i : ι)
  /-- A step of a goroutine that is at the connection. -/
  | at (c : κ) (i : ι)
  | return (i : ι)

def State.goto [DecidableEq ι] (s : State κ ι) (i : ι) (pc : Pc κ) : State κ ι := { s with pc := Function.update s.pc i pc }

/-- The goroutine begins, with these connections. -/
def State.begin [DecidableEq ι] (s : State κ ι) (i : ι) (l : List κ) : State κ ι :=
  { s.goto i (.turn l) with
    targets := Function.update s.targets i l
    before := fun j k => s.before j k ∨ k = i ∧ s.pc j = .returned }

/-- The mutex is unlocked. -/
def State.leave [DecidableEq κ] [DecidableEq ι] (s : State κ ι) (i : ι) (c : κ) (todo : List κ) : State κ ι :=
  { s.goto i (.turn todo) with mu := Function.update s.mu c none }

/-- One atomic step. -/
inductive Step [DecidableEq κ] [DecidableEq ι] (w : Writers κ ι M) (s : State κ ι) : Action κ ι → State κ ι → Prop
  | trackConn (c : κ) : Step w s (.table c) { s with conns := Function.update s.conns c True }
  | untrackConn (c : κ) : Step w s (.table c) { s with conns := Function.update s.conns c False }
  /-- The client has gone, or the connection is closed. -/
  | hangUp (c : κ) : Step w s (.hangUp c) { s with broken := Function.update s.broken c True }
  /-- The table is read under its mutex, in any order. -/
  | broadcast {i : ι} {l : List κ} (hown : w.own i = none) (h : s.pc i = .idle) (hl : l.Nodup) (hconns : ∀ c, c ∈ l ↔ s.conns c) :
      Step w s (.begin i) (s.begin i l)
  | respond {i : ι} {c : κ} (hown : w.own i = some c) (h : s.pc i = .idle) : Step w s (.begin i) (s.begin i [c])
  | lock {i : ι} {c : κ} {todo : List κ} {b : Bytes} (h : s.pc i = .turn (c :: todo)) (hmu : s.mu c = none)
      (hframe : w.frame i = some b) :
      Step w s (.at c i) { s.goto i (.writing c todo b) with mu := Function.update s.mu c (some i) }
  /-- `WriteEnvelope` writes nothing. -/
  | refuse {i : ι} {c : κ} {todo : List κ} (h : s.pc i = .turn (c :: todo)) (hmu : s.mu c = none)
      (hframe : w.frame i = none) : Step w s (.at c i) (s.goto i (.turn todo))
  /-- The connection takes a byte. -/
  | write {i : ι} {c : κ} {todo : List κ} {b : UInt8} {left : Bytes} (h : s.pc i = .writing c todo (b :: left))
      (hbroken : ¬ s.broken c) :
      Step w s (.at c i) { s.goto i (.writing c todo left) with wire := Function.update s.wire c (s.wire c ++ [b]) }
  | fail {i : ι} {c : κ} {todo : List κ} {left : Bytes} (h : s.pc i = .writing c todo left) (hleft : left ≠ [])
      (hbroken : s.broken c) : Step w s (.at c i) (s.leave i c todo)
  | finish {i : ι} {c : κ} {todo : List κ} (h : s.pc i = .writing c todo []) :
      Step w s (.at c i) { s.leave i c todo with sent := Function.update s.sent c (s.sent c ++ [i]) }
  | return {i : ι} (h : s.pc i = .turn []) : Step w s (.return i) (s.goto i .returned)

/-! ### The invariant -/

/-- What the state says of one connection. -/
structure Conn (w : Writers κ ι M) (s : State κ ι) (c : κ) : Prop where
  /-- The mutex is held by who writes. -/
  holder : ∀ i, s.mu c = some i ↔ ∃ todo left, s.pc i = .writing c todo left
  whole : ∃ part, s.wire c = w.frames (s.sent c) ++ part
  free : s.mu c = none → s.wire c = w.frames (s.sent c) ∨ s.broken c
  writing : ∀ i todo left, s.pc i = .writing c todo left →
    ∃ part, w.frame i = some (part ++ left) ∧ (s.wire c = w.frames (s.sent c) ++ part ∨ s.broken c ∧ left ≠ [])
  once : (s.sent c).Nodup
  ordered : ∀ i j, s.before i j → i ∈ s.sent c → j ∈ s.sent c → ∃ l₁ l₂, s.sent c = l₁ ++ j :: l₂ ∧ i ∈ l₁
  framed : ∀ i ∈ s.sent c, (w.frame i).isSome

/-- What it says of one goroutine. -/
structure Writer (w : Writers κ ι M) (s : State κ ι) (i : ι) : Prop where
  idle : s.pc i = .idle → s.targets i = []
  nodup : (s.targets i).Nodup
  progress : ∃ past, s.targets i = past ++ (s.pc i).remaining ∧
    (∀ c ∈ past, i ∈ s.sent c ∨ s.broken c ∨ w.frame i = none) ∧ ∀ c, i ∈ s.sent c → c ∈ past
  before : ∀ j, s.before i j → s.pc i = .returned

structure Inv (w : Writers κ ι M) (s : State κ ι) : Prop where
  conn : ∀ c, Conn w s c
  writer : ∀ i, Writer w s i

section Keep
variable {w : Writers κ ι M} {s s' : State κ ι} {c : κ} {i : ι} {todo : List κ} {left : Bytes}

theorem inv_started : Inv w (started : State κ ι) where
  conn c := ⟨by simp [started], ⟨[], rfl⟩, fun _ => .inl rfl, by simp [started], List.nodup_nil, by simp [started],
    by simp [started]⟩
  writer i := ⟨fun _ => rfl, List.nodup_nil, ⟨[], rfl, by simp, by simp [started]⟩, by simp [started]⟩

/-- A step that is about another connection. -/
theorem Conn.other (h : Conn w s c) (hmu : s'.mu c = s.mu c) (hwire : s'.wire c = s.wire c) (hsent : s'.sent c = s.sent c)
    (hbroken : s.broken c → s'.broken c)
    (hpc : ∀ j todo left, s'.pc j = .writing c todo left ↔ s.pc j = .writing c todo left)
    (hbefore : ∀ j k, s'.before j k → s.before j k ∨ k ∉ s.sent c) : Conn w s' c where
  holder j := by
    rw [hmu, h.holder j]
    simp only [hpc]
  whole := by rw [hwire, hsent]; exact h.whole
  free hmu' := by
    rw [hwire, hsent]
    exact (h.free (hmu ▸ hmu')).imp_right hbroken
  writing j todo left hj := by
    obtain ⟨part, hframe, hpart⟩ := h.writing j todo left ((hpc j todo left).mp hj)
    rw [hwire, hsent]
    exact ⟨part, hframe, hpart.imp_right fun hb => ⟨hbroken hb.1, hb.2⟩⟩
  once := by rw [hsent]; exact h.once
  ordered j k hjk hj hk := by
    rw [hsent] at hj hk ⊢
    rcases hbefore j k hjk with hjk | hno
    · exact h.ordered j k hjk hj hk
    · exact absurd hk hno
  framed := by rw [hsent]; exact h.framed

/-- A step of another goroutine. -/
theorem Writer.other (h : Writer w s i) (hpc : s'.pc i = s.pc i) (htargets : s'.targets i = s.targets i)
    (hsent : ∀ c, i ∈ s'.sent c ↔ i ∈ s.sent c) (hbroken : ∀ c, s.broken c → s'.broken c)
    (hbefore : ∀ k, s'.before i k → s.before i k ∨ s.pc i = .returned) : Writer w s' i where
  idle hidle := by rw [htargets]; exact h.idle (hpc ▸ hidle)
  nodup := by rw [htargets]; exact h.nodup
  progress := by
    obtain ⟨past, htarget, hpast, hback⟩ := h.progress
    refine ⟨past, by rw [htargets, hpc, htarget], fun c hc => ?_, fun c hc => hback c ((hsent c).mp hc)⟩
    exact (hpast c hc).imp (hsent c).mpr (Or.imp_left (hbroken c))
  before k hk := by
    rw [hpc]
    rcases hbefore k hk with hk | hk
    · exact h.before k hk
    · exact hk

/-- A step of the goroutine after which the same connections remain. -/
theorem Writer.move (h : Writer w s i) (hrun : s.pc i ≠ .idle ∧ s.pc i ≠ .returned) (hidle : s'.pc i ≠ .idle)
    (hpc : (s'.pc i).remaining = (s.pc i).remaining) (htargets : s'.targets i = s.targets i)
    (hsent : ∀ c, s'.sent c = s.sent c) (hbroken : ∀ c, s'.broken c = s.broken c)
    (hbefore : ∀ k, s'.before i k → s.before i k) : Writer w s' i where
  idle h := absurd h hidle
  nodup := by rw [htargets]; exact h.nodup
  progress := by
    obtain ⟨past, htarget, hpast⟩ := h.progress
    refine ⟨past, by rw [htargets, hpc, htarget], ?_⟩
    simpa only [hsent, hbroken] using hpast
  before k hk := absurd (h.before k (hbefore k hk)) hrun.2

/-- A step of the goroutine that is its last one at the connection. -/
theorem Writer.advance (h : Writer w s i) (hrun : s.pc i ≠ .returned) (hold : (s.pc i).remaining = c :: todo)
    (hpc : s'.pc i = .turn todo) (htargets : s'.targets i = s.targets i)
    (hsent : ∀ x, i ∈ s'.sent x ↔ i ∈ s.sent x ∨ x = c ∧ i ∈ s'.sent c) (hbroken : ∀ x, s'.broken x = s.broken x)
    (hbefore : ∀ k, s'.before i k → s.before i k)
    (hdone : i ∈ s'.sent c ∨ s'.broken c ∨ w.frame i = none) : Writer w s' i where
  idle h := by rw [hpc] at h; cases h
  nodup := by rw [htargets]; exact h.nodup
  progress := by
    obtain ⟨past, htarget, hpast, hback⟩ := h.progress
    refine ⟨past ++ [c], ?_, fun x hx => ?_, fun x hx => ?_⟩
    · rw [htargets, htarget, hold, hpc, List.append_assoc]
      rfl
    · rcases List.mem_append.mp hx with hx | hx
      · rw [hbroken]
        exact (hpast x hx).imp_left fun hs => (hsent x).mpr (.inl hs)
      · rw [List.mem_singleton.mp hx]
        exact hdone
    · rcases (hsent x).mp hx with hx | ⟨rfl, -⟩
      · exact List.mem_append_left _ (hback x hx)
      · exact List.mem_append_right _ (List.mem_singleton_self _)
  before k hk := absurd (h.before k (hbefore k hk)) hrun

/-- Who has a connection before it has not written to it. -/
theorem Writer.not_sent (h : Writer w s i) (hold : (s.pc i).remaining = c :: todo) : i ∉ s.sent c := by
  obtain ⟨past, htarget, -, hback⟩ := h.progress
  intro hsent
  have hnodup := h.nodup
  rw [htarget, hold] at hnodup
  exact (List.nodup_append.mp hnodup).2.2 c (hback c hsent) c List.mem_cons_self rfl

theorem Writer.idle_sent (h : Writer w s i) (hidle : s.pc i = .idle) (c : κ) : i ∉ s.sent c := by
  obtain ⟨past, htarget, -, hback⟩ := h.progress
  rw [h.idle hidle, hidle] at htarget
  intro hsent
  have hpast := hback c hsent
  rw [(List.append_eq_nil_iff.mp htarget.symm).1] at hpast
  exact List.not_mem_nil hpast

theorem Conn.unique (h : Conn w s c) {j : ι} {todo' : List κ} {left' : Bytes} (hi : s.pc i = .writing c todo left)
    (hj : s.pc j = .writing c todo' left') : j = i :=
  Option.some.inj (((h.holder j).mpr ⟨_, _, hj⟩).symm.trans ((h.holder i).mpr ⟨_, _, hi⟩))

theorem frame_ne_nil {b : Bytes} (h : w.frame i = some b) : b ≠ [] := by
  unfold Writers.frame at h
  rcases hwritten : writeEnvelope w.codec [] (w.env i) with e | wire
  · rw [hwritten] at h
    cases h
  · rw [hwritten] at h
    obtain rfl := Option.some.inj h
    obtain ⟨buf, -, -, rfl⟩ := writeEnvelope_ok.mp hwritten
    simp

theorem frames_concat (l : List ι) {b : Bytes} (h : w.frame i = some b) : w.frames (l ++ [i]) = w.frames l ++ b := by
  simp [Writers.frames, h]

/-! ### The steps keep it -/

variable [DecidableEq ι] {pc : Pc κ}

theorem writing_goto {x : κ} (hold : ∀ todo left, s.pc i ≠ .writing x todo left)
    (hnew : ∀ todo left, pc ≠ .writing x todo left) (j : ι) (todo : List κ) (left : Bytes) :
    (s.goto i pc).pc j = .writing x todo left ↔ s.pc j = .writing x todo left := by
  show Function.update s.pc i pc j = _ ↔ _
  rcases eq_or_ne j i with rfl | hj
  · rw [Function.update_self]
    exact iff_of_false (hnew todo left) (hold todo left)
  · rw [Function.update_of_ne hj]

theorem pc_goto_of_ne {j : ι} (h : j ≠ i) : (s.goto i pc).pc j = s.pc j := Function.update_of_ne h _ _

theorem pc_goto : (s.goto i pc).pc i = pc := Function.update_self _ _ _

theorem Inv.begin (h : Inv w s) (hidle : s.pc i = .idle) {l : List κ} (hl : l.Nodup) : Inv w (s.begin i l) where
  conn x := by
    refine (h.conn x).other rfl rfl rfl id (writing_goto (by simp [hidle]) (by simp)) fun j k hjk => ?_
    rcases hjk with hjk | ⟨rfl, -⟩
    · exact .inl hjk
    · exact .inr ((h.writer k).idle_sent hidle x)
  writer j := by
    rcases eq_or_ne j i with rfl | hj
    · refine ⟨fun hno => ?_, ?_, ⟨[], ?_, by simp, fun c hc => absurd hc ((h.writer j).idle_sent hidle c)⟩, fun k hk => ?_⟩
      · exact absurd (pc_goto.symm.trans hno) (by simp)
      · show (Function.update s.targets j l j).Nodup
        rwa [Function.update_self]
      · show Function.update s.targets j l j = _
        rw [Function.update_self]
        exact congrArg Pc.remaining (Function.update_self j (Pc.turn l) s.pc).symm
      · have hreturned : s.pc j = .returned := by
          rcases hk with hk | ⟨-, hk⟩
          · exact (h.writer j).before k hk
          · exact hk
        rw [hidle] at hreturned
        cases hreturned
    · exact (h.writer j).other (pc_goto_of_ne hj) (Function.update_of_ne hj _ _) (fun _ => Iff.rfl) (fun _ => id)
        fun k hk => hk.imp_right And.right

theorem Inv.return (h : Inv w s) (hpc : s.pc i = .turn []) : Inv w (s.goto i .returned) where
  conn x := (h.conn x).other rfl rfl rfl id (writing_goto (by simp [hpc]) (by simp)) fun _ _ => .inl
  writer j := by
    rcases eq_or_ne j i with rfl | hj
    · refine (h.writer j).move (by simp [hpc]) (by simp [pc_goto]) ?_ rfl (fun _ => rfl) (fun _ => rfl) fun _ => id
      rw [pc_goto, hpc]
      rfl
    · exact (h.writer j).other (pc_goto_of_ne hj) rfl (fun _ => Iff.rfl) (fun _ => id) fun _ => .inl

theorem Inv.refuse (h : Inv w s) (hpc : s.pc i = .turn (c :: todo)) (hframe : w.frame i = none) :
    Inv w (s.goto i (.turn todo)) where
  conn x := (h.conn x).other rfl rfl rfl id (writing_goto (by simp [hpc]) (by simp)) fun _ _ => .inl
  writer j := by
    rcases eq_or_ne j i with rfl | hj
    · exact (h.writer j).advance (c := c) (by simp [hpc]) (by rw [hpc]; rfl) pc_goto rfl
        (fun x => ⟨.inl, fun hx => hx.elim id fun hx => hx.1 ▸ hx.2⟩) (fun _ => rfl) (fun _ => id) (.inr (.inr hframe))
    · exact (h.writer j).other (pc_goto_of_ne hj) rfl (fun _ => Iff.rfl) (fun _ => id) fun _ => .inl

variable [DecidableEq κ]

/-- The mutex of the connection is taken. -/
theorem Inv.lock (h : Inv w s) (hpc : s.pc i = .turn (c :: todo)) (hmu : s.mu c = none) {b : Bytes} (hframe : w.frame i = some b) :
    Inv w { s.goto i (.writing c todo b) with mu := Function.update s.mu c (some i) } where
  conn x := by
    rcases eq_or_ne x c with rfl | hx
    · have hnobody : ∀ j todo left, s.pc j ≠ .writing x todo left := by
        intro j todo left hj
        have hheld := ((h.conn x).holder j).mpr ⟨todo, left, hj⟩
        rw [hmu] at hheld
        cases hheld
      refine ⟨fun j => ?_, (h.conn x).whole, fun hno => ?_, fun j todo' left hj => ?_, (h.conn x).once, (h.conn x).ordered,
        (h.conn x).framed⟩
      · dsimp only
        rw [Function.update_self]
        constructor
        · rintro hj
          obtain rfl := Option.some.inj hj
          exact ⟨todo, b, pc_goto⟩
        · rintro ⟨todo', left, hj⟩
          by_contra hne
          have hji : j ≠ i := fun heq => hne (by rw [heq])
          exact hnobody j todo' left ((pc_goto_of_ne hji).symm.trans hj)
      · dsimp only at hno
        rw [Function.update_self] at hno
        cases hno
      · rcases eq_or_ne j i with rfl | hji
        · obtain ⟨-, -, rfl⟩ := Pc.writing.inj (pc_goto.symm.trans hj)
          refine ⟨[], hframe, ?_⟩
          rcases (h.conn x).free hmu with hwire | hbroken
          · exact .inl (by rw [List.append_nil]; exact hwire)
          · exact .inr ⟨hbroken, frame_ne_nil hframe⟩
        · exact absurd ((pc_goto_of_ne hji).symm.trans hj) (hnobody j todo' left)
    · exact (h.conn x).other (Function.update_of_ne hx _ _) rfl rfl id
        (writing_goto (by simp [hpc]) fun todo left heq => hx (Pc.writing.inj heq).1.symm) fun _ _ => .inl
  writer j := by
    rcases eq_or_ne j i with rfl | hj
    · refine (h.writer j).move (by simp [hpc]) (by simp [pc_goto]) ?_ rfl (fun _ => rfl) (fun _ => rfl) fun _ => id
      dsimp only
      rw [pc_goto, hpc]
      rfl
    · exact (h.writer j).other (pc_goto_of_ne hj) rfl (fun _ => Iff.rfl) (fun _ => id) fun _ => .inl

/-- A byte is written. -/
theorem Inv.write (h : Inv w s) {b : UInt8} (hpc : s.pc i = .writing c todo (b :: left)) (hbroken : ¬ s.broken c) :
    Inv w { s.goto i (.writing c todo left) with wire := Function.update s.wire c (s.wire c ++ [b]) } where
  conn x := by
    rcases eq_or_ne x c with rfl | hx
    · obtain ⟨part, hframe, hpart⟩ := (h.conn x).writing i todo _ hpc
      have hwire : s.wire x ++ [b] = w.frames (s.sent x) ++ (part ++ [b]) := by
        rw [hpart.resolve_right fun hno => hbroken hno.1, List.append_assoc]
      have hmine : ∀ {j todo' left'}, (s.goto i (.writing x todo left)).pc j = .writing x todo' left' → j = i := by
        intro j todo' left' hj
        by_contra hji
        exact hji ((h.conn x).unique hpc ((pc_goto_of_ne hji).symm.trans hj))
      have hheld : s.mu x = some i := ((h.conn x).holder i).mpr ⟨_, _, hpc⟩
      refine ⟨fun j => ?_, ⟨part ++ [b], ?_⟩, fun hno => ?_, fun j todo' left' hj => ?_, (h.conn x).once, (h.conn x).ordered,
        (h.conn x).framed⟩
      · dsimp only
        constructor
        · intro hj
          obtain rfl := Option.some.inj (hheld.symm.trans hj)
          exact ⟨todo, left, pc_goto⟩
        · rintro ⟨todo', left', hj⟩
          rw [hmine hj]
          exact hheld
      · exact (Function.update_self _ _ _).trans hwire
      · exact absurd (hheld.symm.trans hno) (by simp)
      · obtain rfl := hmine hj
        obtain ⟨-, -, rfl⟩ := Pc.writing.inj (pc_goto.symm.trans hj)
        refine ⟨part ++ [b], by rw [hframe, List.append_assoc]; rfl, .inl ?_⟩
        exact (Function.update_self _ _ _).trans hwire
    · exact (h.conn x).other rfl (Function.update_of_ne hx _ _) rfl id
        (writing_goto (fun todo' left' heq => hx (Pc.writing.inj (hpc.symm.trans heq)).1.symm)
          fun todo' left' heq => hx (Pc.writing.inj heq).1.symm) fun _ _ => .inl
  writer j := by
    rcases eq_or_ne j i with rfl | hj
    · refine (h.writer j).move (by simp [hpc]) (by simp [pc_goto]) ?_ rfl (fun _ => rfl) (fun _ => rfl) fun _ => id
      dsimp only
      rw [pc_goto, hpc]
      rfl
    · exact (h.writer j).other (pc_goto_of_ne hj) rfl (fun _ => Iff.rfl) (fun _ => id) fun _ => .inl

/-- The mutex is unlocked: nobody writes to the connection. -/
theorem not_writing_leave (h : Inv w s) (hpc : s.pc i = .writing c todo left) (j : ι) (todo' : List κ) (left' : Bytes) :
    (s.leave i c todo).pc j ≠ .writing c todo' left' := by
  intro hj
  rcases eq_or_ne j i with rfl | hji
  · exact absurd (pc_goto.symm.trans hj) (by simp)
  · exact hji ((h.conn c).unique hpc ((pc_goto_of_ne hji).symm.trans hj))

theorem Inv.fail (h : Inv w s) (hpc : s.pc i = .writing c todo left) (hbroken : s.broken c) : Inv w (s.leave i c todo) where
  conn x := by
    rcases eq_or_ne x c with rfl | hx
    · have hnobody := not_writing_leave h hpc
      refine ⟨fun j => ?_, (h.conn x).whole, fun _ => .inr hbroken, fun j todo' left' hj => absurd hj (hnobody j _ _),
        (h.conn x).once, (h.conn x).ordered,
        (h.conn x).framed⟩
      refine iff_of_false ?_ fun ⟨_, _, hj⟩ => hnobody j _ _ hj
      show Function.update s.mu x none x ≠ _
      rw [Function.update_self]
      exact (Option.some_ne_none _).symm
    · exact (h.conn x).other (Function.update_of_ne hx _ _) rfl rfl id
        (writing_goto (fun todo' left' heq => hx (Pc.writing.inj (hpc.symm.trans heq)).1.symm) (by simp)) fun _ _ => .inl
  writer j := by
    rcases eq_or_ne j i with rfl | hj
    · exact (h.writer j).advance (c := c) (by simp [hpc]) (by rw [hpc]; rfl) pc_goto rfl
        (fun x => ⟨.inl, fun hx => hx.elim id fun hx => hx.1 ▸ hx.2⟩) (fun _ => rfl) (fun _ => id) (.inr (.inl hbroken))
    · exact (h.writer j).other (pc_goto_of_ne hj) rfl (fun _ => Iff.rfl) (fun _ => id) fun _ => .inl

/-- An envelope is written. -/
theorem Inv.finish (h : Inv w s) (hpc : s.pc i = .writing c todo []) :
    Inv w { s.leave i c todo with sent := Function.update s.sent c (s.sent c ++ [i]) } where
  conn x := by
    rcases eq_or_ne x c with rfl | hx
    · have hnobody := not_writing_leave h hpc
      have hnot : i ∉ s.sent x := (h.writer i).not_sent (by rw [hpc]; rfl)
      obtain ⟨part, hframe, hpart⟩ := (h.conn x).writing i todo _ hpc
      rw [List.append_nil] at hframe
      have hwire : s.wire x = w.frames (s.sent x ++ [i]) := by
        rw [frames_concat _ hframe]
        exact hpart.resolve_right fun hno => hno.2 rfl
      have hsent : Function.update s.sent x (s.sent x ++ [i]) x = s.sent x ++ [i] := Function.update_self _ _ _
      have hrunning : s.pc i ≠ .returned := by simp [hpc]
      refine ⟨fun j => ?_, ⟨[], ?_⟩, fun _ => .inl ?_, fun j todo' left' hj => absurd hj (hnobody j _ _), ?_,
        fun j k hjk hj hk => ?_, fun j hj => ?_⟩
      · refine iff_of_false ?_ fun ⟨_, _, hj⟩ => hnobody j _ _ hj
        show Function.update s.mu x none x ≠ _
        rw [Function.update_self]
        exact (Option.some_ne_none _).symm
      · dsimp only
        rw [hsent, List.append_nil]
        exact hwire
      · dsimp only
        rw [hsent]
        exact hwire
      · dsimp only
        rw [hsent]
        exact List.nodup_append.mpr ⟨(h.conn x).once, List.nodup_cons.mpr ⟨List.not_mem_nil, List.nodup_nil⟩,
          fun a ha b hb heq => hnot (List.mem_singleton.mp hb ▸ heq ▸ ha)⟩
      · dsimp only at hj hk ⊢
        rw [hsent] at hj hk ⊢
        have hold : j ∈ s.sent x := by
          rcases List.mem_append.mp hj with hj | hj
          · exact hj
          · exact absurd ((h.writer i).before k (List.mem_singleton.mp hj ▸ hjk)) hrunning
        rcases List.mem_append.mp hk with hk | hk
        · obtain ⟨l₁, l₂, hl, hmem⟩ := (h.conn x).ordered j k hjk hold hk
          exact ⟨l₁, l₂ ++ [i], by rw [hl]; simp, hmem⟩
        · exact ⟨s.sent x, [], by rw [List.mem_singleton.mp hk], hold⟩
      · dsimp only at hj
        rw [hsent] at hj
        rcases List.mem_append.mp hj with hj | hj
        · exact (h.conn x).framed j hj
        · rw [List.mem_singleton.mp hj, hframe]
          rfl
    · exact (h.conn x).other (Function.update_of_ne hx _ _) rfl (Function.update_of_ne hx _ _) id
        (writing_goto (fun todo' left' heq => hx (Pc.writing.inj (hpc.symm.trans heq)).1.symm) (by simp)) fun _ _ => .inl
  writer j := by
    have hsent : ∀ x, j ∈ Function.update s.sent c (s.sent c ++ [i]) x ↔ j ∈ s.sent x ∨ x = c ∧ j = i := by
      intro x
      rcases eq_or_ne x c with rfl | hx
      · simp
      · rw [Function.update_of_ne hx]
        simp [hx]
    rcases eq_or_ne j i with rfl | hj
    · refine (h.writer j).advance (c := c) (by simp [hpc]) (by rw [hpc]; rfl) pc_goto rfl (fun x => ?_) (fun _ => rfl)
        (fun _ => id) (.inl ((hsent c).mpr (.inr ⟨rfl, rfl⟩)))
      exact (hsent x).trans (or_congr_right (and_congr_right fun _ => (iff_true_intro rfl).trans
        (iff_true_intro ((hsent c).mpr (.inr ⟨rfl, rfl⟩))).symm))
    · exact (h.writer j).other (pc_goto_of_ne hj) rfl
        (fun x => (hsent x).trans (or_iff_left fun hno => hj hno.2)) (fun _ => id) fun _ => .inl

theorem Inv.step {a : Action κ ι} (h : Inv w s) (hstep : Step w s a s') : Inv w s' := by
  rcases hstep with c | c | c | ⟨-, hidle, hl, -⟩ | ⟨-, hidle⟩ | ⟨hpc, hmu, hframe⟩ | ⟨hpc, -, hframe⟩ | ⟨hpc, hbroken⟩ |
    ⟨hpc, -, hbroken⟩ | hpc | hpc
  case trackConn =>
    exact ⟨fun x => (h.conn x).other rfl rfl rfl id (fun _ _ _ => Iff.rfl) fun _ _ => .inl,
      fun j => (h.writer j).other rfl rfl (fun _ => Iff.rfl) (fun _ => id) fun _ => .inl⟩
  case untrackConn =>
    exact ⟨fun x => (h.conn x).other rfl rfl rfl id (fun _ _ _ => Iff.rfl) fun _ _ => .inl,
      fun j => (h.writer j).other rfl rfl (fun _ => Iff.rfl) (fun _ => id) fun _ => .inl⟩
  case hangUp =>
    have hbroken : ∀ x, s.broken x → Function.update s.broken c True x := by
      intro x hx
      rcases eq_or_ne x c with rfl | hne
      · rw [Function.update_self]
        trivial
      · rwa [Function.update_of_ne hne]
    exact ⟨fun x => (h.conn x).other rfl rfl rfl (hbroken x) (fun _ _ _ => Iff.rfl) fun _ _ => .inl,
      fun j => (h.writer j).other rfl rfl (fun _ => Iff.rfl) hbroken fun _ => .inl⟩
  case broadcast => exact h.begin hidle hl
  case respond => exact h.begin hidle (List.nodup_cons.mpr ⟨List.not_mem_nil, List.nodup_nil⟩)
  case lock => exact h.lock hpc hmu hframe
  case refuse => exact h.refuse hpc hframe
  case write => exact h.write hpc hbroken
  case fail => exact h.fail hpc hbroken
  case finish => exact h.finish hpc
  case «return» => exact h.return hpc

end Keep

/-! ### Runs -/

section Runs
variable [DecidableEq κ] [DecidableEq ι] {w : Writers κ ι M} {s s' : State κ ι} {a : Action κ ι}
  {tr : List (State κ ι × Action κ ι)} {c : κ} {i : ι} {todo : List κ} {left : Bytes}

theorem inv_of_run (hrun : Runs (Step w) started tr s) : Inv w s :=
  hrun.invariant _ meets_any inv_started fun _ _ _ h _ hstep => h.step hstep

/-- The connections are chosen once. -/
theorem targets_step (hstep : Step w s a s') (hpc : s.pc i ≠ .idle) :
    s'.pc i ≠ .idle ∧ s'.targets i = s.targets i := by
  have hgoto : ∀ {j : ι} {pc : Pc κ}, pc ≠ .idle → (s.goto j pc).pc i ≠ .idle := by
    intro j pc hne
    rcases eq_or_ne i j with rfl | hij
    · rwa [pc_goto]
    · rwa [pc_goto_of_ne hij]
  have hbegin : ∀ {j : ι} {l : List κ}, s.pc j = .idle → (s.begin j l).pc i ≠ .idle ∧ (s.begin j l).targets i = s.targets i := by
    intro j l hidle
    have hij : i ≠ j := by
      rintro rfl
      exact hpc hidle
    exact ⟨hgoto (by simp), Function.update_of_ne hij _ _⟩
  rcases hstep with - | - | - | ⟨-, hidle, -, -⟩ | ⟨-, hidle⟩ | - | - | - | - | - | -
  case trackConn => exact ⟨hpc, rfl⟩
  case untrackConn => exact ⟨hpc, rfl⟩
  case hangUp => exact ⟨hpc, rfl⟩
  case broadcast => exact hbegin hidle
  case respond => exact hbegin hidle
  all_goals exact ⟨hgoto (by simp), rfl⟩

/-- A broadcast is to the connections that were in the table when it began, a response to its own. -/
theorem targets_of_run (hrun : Runs (Step w) started tr s) {e : State κ ι × Action κ ι} (he : e ∈ tr)
    (hbegin : e.2 = .begin i) : s.pc i ≠ .idle ∧ ∀ c, c ∈ s.targets i ↔ w.Meant e.1.conns i c := by
  induction hrun with
  | nil => exact absurd he List.not_mem_nil
  | @snoc tr t u a before last ih =>
    rcases List.mem_append.mp he with he | he
    · obtain ⟨hpc, htargets⟩ := ih he
      obtain ⟨hpc', heq⟩ := targets_step last hpc
      exact ⟨hpc', heq ▸ htargets⟩
    · obtain rfl := List.mem_singleton.mp he
      obtain rfl : a = .begin i := hbegin
      have htargets : ∀ (l : List κ) c, c ∈ (t.begin i l).targets i ↔ c ∈ l := by
        intro l c
        show c ∈ Function.update t.targets i l i ↔ _
        rw [Function.update_self]
      have hpc : ∀ l, (t.begin i l).pc i ≠ .idle := fun l => by simp [State.begin, State.goto]
      rcases last with - | - | - | ⟨hown, -, -, hconns⟩ | ⟨hown, -⟩
      · refine ⟨hpc _, fun c => ?_⟩
        rw [htargets, Writers.Meant, hown]
        exact hconns c
      · refine ⟨hpc _, fun c => ?_⟩
        rw [htargets, Writers.Meant, hown]
        exact List.mem_singleton

/-- The encoding of an envelope, without the line end. -/
def Writers.encoding (w : Writers κ ι M) (i : ι) : Bytes := (w.codec.marshal (w.env i)).getD []

omit [DecidableEq κ] [DecidableEq ι] in
theorem frame_eq (h : (w.frame i).isSome) : IsObject (w.encoding i) ∧ w.frame i = some (w.encoding i ++ [newline]) := by
  obtain ⟨b, hb⟩ := Option.isSome_iff_exists.mp h
  unfold Writers.frame at hb
  rcases hwritten : writeEnvelope w.codec [] (w.env i) with e | wire
  · rw [hwritten] at hb
    cases hb
  · obtain ⟨buf, hbuf, -, hwire⟩ := writeEnvelope_ok.mp hwritten
    have hencoding : w.encoding i = buf := by rw [Writers.encoding, hbuf, Option.getD_some]
    rw [hencoding]
    refine ⟨w.codec.object _ _ hbuf, ?_⟩
    rw [Writers.frame, hwritten, hwire]
    rfl

omit [DecidableEq κ] [DecidableEq ι] in
theorem frames_eq {l : List ι} (h : ∀ i ∈ l, (w.frame i).isSome) : w.frames l = terminated (l.map w.encoding) := by
  induction l with
  | nil => rfl
  | cons i l ih =>
    have hrest := ih fun j hj => h j (List.mem_cons_of_mem _ hj)
    rw [Writers.frames] at hrest ⊢
    rw [List.flatMap_cons, hrest, (frame_eq (h i List.mem_cons_self)).2]
    rfl

/-- What the clients get. -/
structure Delivered (w : Writers κ ι M) (tr : List (State κ ι × Action κ ι)) (s : State κ ι) : Prop where
  /-- The bytes of a connection are whole frames, but for one at the end that is being written, or broke off. -/
  whole : ∀ c, ∃ part, s.wire c = w.frames (s.sent c) ++ part ∧ (s.mu c = none → part = [] ∨ s.broken c)
  /-- Nobody writes twice to a connection. -/
  once : ∀ c, (s.sent c).Nodup
  /-- A broadcast that has returned has written to the connections that were in the table when it began, and a response
  to its own, if they are not broken and the envelope is not refused. -/
  complete : ∀ e ∈ tr, ∀ i, e.2 = .begin i → s.pc i = .returned → (w.frame i).isSome →
    ∀ c, w.Meant e.1.conns i c → ¬ s.broken c → i ∈ s.sent c
  /-- It has written to no others. -/
  only : ∀ e ∈ tr, ∀ i, e.2 = .begin i → ∀ c, i ∈ s.sent c → w.Meant e.1.conns i c
  /-- The clients get it before what began after it had returned. -/
  ordered : ∀ i j, s.before i j → ∀ c, i ∈ s.sent c → j ∈ s.sent c → ∃ l₁ l₂, s.sent c = l₁ ++ j :: l₂ ∧ i ∈ l₁
  /-- The scanner of the client finds the envelopes, if they leave room for the line end. -/
  received : ∀ c, s.mu c = none → ¬ s.broken c → (∀ i ∈ s.sent c, (w.encoding i).length < maxFrameSize) →
    ∀ pieces : List Piece, (pieces.map Subtype.val).flatten = s.wire c →
      receive pieces = ((s.sent c).map w.encoding, some .eof)

/-- **What the clients get**, in every run of the server. -/
theorem envelopes_of_run (hrun : Runs (Step w) started tr s) : Delivered w tr s := by
  have hinv := inv_of_run hrun
  refine ⟨fun c => ?_, fun c => (hinv.conn c).once, fun e he i hbegin hreturned hframe c hconn hbroken => ?_,
    fun e he i hbegin c hsent => ?_, fun i j hij c => (hinv.conn c).ordered i j hij,
    fun c hmu hbroken hshort pieces hpieces => ?_⟩
  · rcases hmu : s.mu c with _ | i
    · rcases (hinv.conn c).free hmu with hwire | hbroken
      · exact ⟨[], by rw [List.append_nil, hwire], fun _ => .inl rfl⟩
      · obtain ⟨part, hpart⟩ := (hinv.conn c).whole
        exact ⟨part, hpart, fun _ => .inr hbroken⟩
    · obtain ⟨part, hpart⟩ := (hinv.conn c).whole
      exact ⟨part, hpart, fun hno => by cases hno⟩
  · obtain ⟨past, htarget, hpast, -⟩ := (hinv.writer i).progress
    have hmem := ((targets_of_run hrun he hbegin).2 c).mpr hconn
    rw [htarget, hreturned] at hmem
    rcases hpast c (by simpa [Pc.remaining] using hmem) with hsent | hno | hno
    · exact hsent
    · exact absurd hno hbroken
    · rw [hno] at hframe
      cases hframe
  · obtain ⟨past, htarget, -, hback⟩ := (hinv.writer i).progress
    refine ((targets_of_run hrun he hbegin).2 c).mp ?_
    rw [htarget]
    exact List.mem_append_left _ (hback c hsent)
  · have hframed := (hinv.conn c).framed
    have hwire := ((hinv.conn c).free hmu).resolve_right hbroken
    refine receive_short (fun b hb => ?_) (hpieces.trans (hwire.trans (frames_eq hframed)))
    obtain ⟨i, hi, rfl⟩ := List.mem_map.mp hb
    exact ⟨(frame_eq (hframed i hi)).1, hshort i hi⟩

/-! ### A client that does not read -/

/-- Who writes to a connection comes to the end of its frame, if the connection takes the bytes. -/
theorem finishes (left : Bytes) : ∀ {s : State κ ι}, s.pc i = .writing c todo left → ¬ s.broken c →
    ∃ tr s', Runs (Step w) s tr s' ∧ (∀ e ∈ tr, e.2 = .at c i) ∧ s'.mu c = none ∧ ¬ s'.broken c ∧ s'.pc i = .turn todo ∧
      i ∈ s'.sent c ∧ ∀ j, j ≠ i → s'.pc j = s.pc j := by
  induction left with
  | nil =>
    intro s hpc hbroken
    refine ⟨_, _, Runs.nil.snoc (Step.finish hpc), ?_, Function.update_self _ _ _, hbroken, pc_goto, ?_,
      fun j hj => pc_goto_of_ne hj⟩
    · simp
    · show i ∈ Function.update s.sent c (s.sent c ++ [i]) c
      rw [Function.update_self]
      exact List.mem_append_right _ (List.mem_singleton_self i)
  | cons b left ih =>
    intro s hpc hbroken
    have hstep := Step.write (w := w) hpc hbroken
    obtain ⟨tr, s', hrun, hat, hmu, hbroken', hturn, hsent, hothers⟩ := ih (s := { s.goto i (.writing c todo left) with
      wire := Function.update s.wire c (s.wire c ++ [b]) }) pc_goto hbroken
    refine ⟨_, s', (Runs.nil.snoc hstep).trans hrun, ?_, hmu, hbroken', hturn, hsent, fun j hj => ?_⟩
    · rw [List.nil_append]
      exact List.forall_mem_cons.mpr ⟨rfl, hat⟩
    · rw [hothers j hj]
      exact pc_goto_of_ne hj

/-- **A response needs no other connection**: from every state that a run reaches, it is written by steps at its own
connection, whatever the other clients do. -/
theorem responds (hrun : Runs (Step w) started tr s) (hpc : s.pc i = .turn [c]) (hbroken : ¬ s.broken c)
    (hframe : (w.frame i).isSome) :
    ∃ tr' s', Runs (Step w) s tr' s' ∧ (∀ e ∈ tr', e.2 = .return i ∨ ∃ k, e.2 = .at c k) ∧ s'.pc i = .returned ∧
      i ∈ s'.sent c := by
  obtain ⟨tr₁, s₁, hrun₁, hat₁, hmu₁, hbroken₁, hpc₁⟩ : ∃ tr₁ s₁, Runs (Step w) s tr₁ s₁ ∧
      (∀ e ∈ tr₁, ∃ k, e.2 = .at c k) ∧ s₁.mu c = none ∧ ¬ s₁.broken c ∧ s₁.pc i = .turn [c] := by
    rcases hmu : s.mu c with _ | k
    · exact ⟨[], s, .nil, by simp, hmu, hbroken, hpc⟩
    · obtain ⟨todo, left, hk⟩ := (((inv_of_run hrun).conn c).holder k).mp hmu
      obtain ⟨tr₁, s₁, hrun₁, hat₁, hmu₁, hbroken₁, -, -, hothers⟩ := finishes (w := w) left hk hbroken
      refine ⟨tr₁, s₁, hrun₁, fun e he => ⟨k, hat₁ e he⟩, hmu₁, hbroken₁, ?_⟩
      rw [hothers i fun heq => ?_, hpc]
      rw [heq, hk] at hpc
      cases hpc
  obtain ⟨b, hb⟩ := Option.isSome_iff_exists.mp hframe
  have hlock := Step.lock hpc₁ hmu₁ hb
  obtain ⟨tr₂, s₂, hrun₂, hat₂, -, -, hturn, hsent, -⟩ := finishes (w := w) b (s := { s₁.goto i (.writing c [] b) with
    mu := Function.update s₁.mu c (some i) }) pc_goto hbroken₁
  refine ⟨_, _, ((hrun₁.snoc hlock).trans hrun₂).snoc (.return hturn), fun e he => ?_, pc_goto, hsent⟩
  rcases List.mem_append.mp he with he | he
  · rcases List.mem_append.mp he with he | he
    · rcases List.mem_append.mp he with he | he
      · exact .inr (hat₁ e he)
      · exact .inr ⟨i, by rw [List.mem_singleton.mp he]⟩
    · exact .inr ⟨i, hat₂ e he⟩
  · exact .inl (by rw [List.mem_singleton.mp he])

end Runs

/-! ### An event and a response for one client -/

/-- One goroutine broadcasts, the other responds; both write an empty object. -/
def two : Writers Unit Bool ℕ where
  codec := letters
  env _ := 0
  own i := if i then some () else none

theorem frame_two (i : Bool) : two.frame i = some [0x7b, 0x7d, 10] := by
  rcases i with _ | _ <;> rfl

/-- The broadcast has locked the connection when the response is ready. -/
theorem begun_two : ∃ (tr : List (State Unit Bool × Action Unit Bool)) (s : State Unit Bool), Runs (Step two) started tr s ∧
    s.pc false = .writing () [] [0x7b, 0x7d, 10] ∧ s.pc true = .turn [()] ∧ ¬ s.broken () := by
  have h₁ := Runs.nil.snoc (Step.trackConn (w := two) (s := started) ())
  have h₂ := h₁.snoc (Step.broadcast (i := false) (l := [()]) rfl rfl (by decide) fun _ => by simp)
  have h₃ := h₂.snoc (Step.lock (i := false) (c := ()) rfl rfl (frame_two false))
  have h₄ := h₃.snoc (Step.respond (i := true) (c := ()) rfl rfl)
  exact ⟨_, _, h₄, rfl, rfl, id⟩

theorem envelopes_of_run_two : ∃ (tr : List (State Unit Bool × Action Unit Bool)) (s : State Unit Bool),
    s.pc false = .returned ∧ false ∈ s.sent () ∧ Delivered two tr s := by
  obtain ⟨tr, s, hrun, hpc, -, hbroken⟩ := begun_two
  obtain ⟨tr₁, s₁, hrun₁, -, -, -, hturn, hsent, -⟩ := finishes (w := two) _ hpc hbroken
  exact ⟨_, _, pc_goto, hsent, envelopes_of_run ((hrun.trans hrun₁).snoc (.return hturn))⟩

theorem responds_two : ∃ (tr : List (State Unit Bool × Action Unit Bool)) (s : State Unit Bool),
    Runs (Step two) started tr s ∧ ∃ tr' s', Runs (Step two) s tr' s' ∧
      (∀ e ∈ tr', e.2 = .return true ∨ ∃ k, e.2 = .at () k) ∧ s'.pc true = .returned ∧ true ∈ s'.sent () := by
  obtain ⟨tr, s, hrun, -, hpc, hbroken⟩ := begun_two
  exact ⟨tr, s, hrun, responds hrun hpc hbroken (by rw [frame_two]; rfl)⟩

end Tilbo.Ipc.Broadcast
