import Tilbo.Lib.Lines

/-! # Frames

`WriteEnvelope` puts one encoded envelope on one line, and both sides of a connection read lines with a
scanner whose buffer has the size `maxFrameSize`. What the writer accepts is a line of at most that size
without its end, what the scanner finds is a line of at most that size with it (`received_iff`). -/

namespace Tilbo.Ipc.Framing

open Tilbo.Lib.Lines

variable {M : Type}

/-- `maxFrameSize`. -/
def maxFrameSize : ℕ := 4 * 1024 * 1024

/-- A JSON object on one line: what protojson gives for a message. -/
structure IsObject (b : Bytes) : Prop where
  opens : b.head? = some 0x7b
  closes : b.getLast? = some 0x7d
  oneLine : newline ∉ b

/-- `protojson.Marshal`, which may fail. -/
structure Codec (M : Type) where
  marshal : M → Option Bytes
  object : ∀ m b, marshal m = some b → IsObject b

/-- Why `WriteEnvelope` fails. -/
inductive WriteError where
  | marshal
  | frameTooLarge
deriving DecidableEq, Repr

variable (c : Codec M)

/-- `WriteEnvelope` on a connection whose writes succeed: what has been written to it then. -/
def writeEnvelope (wire : Bytes) (env : M) : Except WriteError Bytes :=
  match c.marshal env with
  | none => .error .marshal
  | some buf => if maxFrameSize < buf.length then .error .frameTooLarge else .ok (wire ++ buf ++ [newline])

/-- Envelopes written one after the other, all of them accepted. -/
def writeAll (wire : Bytes) : List M → Except WriteError Bytes
  | [] => .ok wire
  | env :: envs => do writeAll (← writeEnvelope c wire env) envs

/-- The lines that the loop of `handleConn` or `readLoop` goes on with, and why it ended. -/
def receive (pieces : List Piece) : List Bytes × Option Stop :=
  let r := allLines maxFrameSize { size := maxFrameSize, conn := pieces }
  (r.1.filter (· ≠ []), r.2)

variable {c} {wire wire' b : Bytes} {env : M} {envs : List M} {pieces : List Piece}

theorem writeEnvelope_ok : writeEnvelope c wire env = .ok wire' ↔
    ∃ buf, c.marshal env = some buf ∧ buf.length ≤ maxFrameSize ∧ wire' = wire ++ buf ++ [newline] := by
  unfold writeEnvelope
  cases hm : c.marshal env with
  | none => simp
  | some buf =>
    simp only [Option.some.injEq, exists_eq_left']
    split_ifs with hlen
    · simp [Nat.not_le.mpr hlen]
    · rw [Except.ok.injEq, and_iff_right (Nat.le_of_not_lt hlen), eq_comm]

/-- What accepted envelopes are on the wire. -/
theorem writeAll_ok : ∀ {envs : List M} {wire : Bytes}, writeAll c wire envs = .ok wire' →
    wire' = wire ++ terminated (envs.filterMap c.marshal) ∧
      ∀ b ∈ envs.filterMap c.marshal, IsObject b ∧ b.length ≤ maxFrameSize := by
  intro envs
  induction envs with
  | nil =>
    intro wire h
    cases h
    simp [terminated]
  | cons env envs ih =>
    intro wire h
    rw [writeAll] at h
    cases hw : writeEnvelope c wire env with
    | error e => rw [hw] at h; cases h
    | ok w =>
      rw [hw] at h
      obtain ⟨buf, hm, hlen, rfl⟩ := writeEnvelope_ok.mp hw
      obtain ⟨hwire, hall⟩ := ih h
      rw [List.filterMap_cons_some hm]
      refine ⟨?_, fun b hb => ?_⟩
      · rw [hwire]
        simp [terminated]
      · rcases List.mem_cons.mp hb with rfl | hb
        · exact ⟨c.object env b hm, hlen⟩
        · exact hall b hb

theorem IsObject.ne_nil (h : IsObject b) : b ≠ [] := by
  rintro rfl
  cases h.opens

/-- An object does not end in a carriage return. -/
theorem IsObject.dropCR (h : IsObject b) : dropCR b = b := by
  rw [Lib.Lines.dropCR, h.closes]
  exact if_neg (by decide)

/-- The objects of a list of lines are passed on as they are. -/
theorem filter_dropCR {bs : List Bytes} (h : ∀ b ∈ bs, IsObject b) :
    (bs.map dropCR).filter (· ≠ []) = bs := by
  have hmap : bs.map dropCR = bs :=
    List.map_congr_left (g := id) (fun b hb => (h b hb).dropCR) |>.trans (List.map_id bs)
  rw [hmap, List.filter_eq_self]
  exact fun b hb => decide_eq_true (h b hb).ne_nil

/-- The scanner as both loops make it. -/
theorem reading_start : Reading maxFrameSize { size := maxFrameSize, conn := pieces } :=
  ⟨rfl, Nat.zero_le _, rfl⟩

/-- Objects that leave room for the line end are received. -/
theorem receive_short {bs : List Bytes} (h : ∀ b ∈ bs, IsObject b ∧ b.length < maxFrameSize)
    (hpieces : (pieces.map Subtype.val).flatten = terminated bs) : receive pieces = (bs, some .eof) := by
  rw [receive, allLines_short (by decide) reading_start (fun b hb => ⟨(h b hb).1.oneLine, (h b hb).2⟩)
    ((List.nil_append _).trans hpieces)]
  simp only [filter_dropCR fun b hb => (h b hb).1]

/-- One that does not ends the connection. -/
theorem receive_long {bs : List Bytes} {rest : Bytes} (h : ∀ b ∈ bs, IsObject b ∧ b.length < maxFrameSize)
    (hb : IsObject b) (hlong : maxFrameSize ≤ b.length)
    (hpieces : (pieces.map Subtype.val).flatten = terminated bs ++ (b ++ newline :: rest)) :
    receive pieces = (bs, some .tooLong) := by
  rw [receive, allLines_long reading_start (fun b hb => ⟨(h b hb).1.oneLine, (h b hb).2⟩) hb.oneLine hlong
    ((List.nil_append _).trans hpieces)]
  simp only [filter_dropCR fun b hb => (h b hb).1]

/-- The first frame that is too long for the reader. -/
theorem first_long {bs : List Bytes} (h : ∃ b ∈ bs, maxFrameSize ≤ b.length) : ∃ before b after,
    bs = before ++ b :: after ∧ (∀ a ∈ before, a.length < maxFrameSize) ∧ maxFrameSize ≤ b.length := by
  induction bs with
  | nil => obtain ⟨b, hb, -⟩ := h; exact absurd hb List.not_mem_nil
  | cons a bs ih =>
    by_cases ha : maxFrameSize ≤ a.length
    · exact ⟨[], a, bs, rfl, fun _ h => absurd h List.not_mem_nil, ha⟩
    · obtain ⟨b, hb, hlong⟩ := h
      have hbs : b ∈ bs := (List.mem_cons.mp hb).resolve_left fun heq => ha (heq ▸ hlong)
      obtain ⟨before, d, after, rfl, hbefore, hd⟩ := ih ⟨b, hbs, hlong⟩
      refine ⟨a :: before, d, after, rfl, fun x hx => ?_, hd⟩
      rcases List.mem_cons.mp hx with rfl | hx
      · exact Nat.lt_of_not_le ha
      · exact hbefore x hx

/-- **Framing round trip.** However the connection cuts the bytes into pieces, the receiver gets exactly
the messages that were written, and then the end of the input, if and only if each of them is shorter than
`maxFrameSize`. -/
theorem received_iff (c : Codec M) (envs : List M) (wire : Bytes) (pieces : List Piece)
    (hwritten : writeAll c [] envs = .ok wire) (hpieces : (pieces.map Subtype.val).flatten = wire) :
    receive pieces = (envs.filterMap c.marshal, some .eof) ↔
      ∀ env ∈ envs, ∀ b, c.marshal env = some b → b.length < maxFrameSize := by
  obtain ⟨hwire, hall⟩ := writeAll_ok hwritten
  rw [List.nil_append] at hwire
  rw [hwire] at hpieces
  have hmem : (∀ env ∈ envs, ∀ b, c.marshal env = some b → b.length < maxFrameSize) ↔
      ∀ b ∈ envs.filterMap c.marshal, b.length < maxFrameSize := by
    simp only [List.mem_filterMap]
    constructor
    · rintro h b ⟨env, henv, hb⟩
      exact h env henv b hb
    · intro h env henv b hb
      exact h b ⟨env, henv, hb⟩
  rw [hmem]
  constructor
  · intro hreceived
    by_contra hshort
    have hlong : ∃ b ∈ envs.filterMap c.marshal, maxFrameSize ≤ b.length := by
      simpa only [not_forall, Nat.not_lt, exists_prop] using hshort
    obtain ⟨before, b, after, hbs, hbefore, hb⟩ := first_long hlong
    have hsplit : terminated (before ++ b :: after) = terminated before ++ (b ++ newline :: terminated after) := by
      simp [terminated]
    rw [hbs] at hall hpieces hreceived
    rw [hsplit] at hpieces
    have htooLong := receive_long (fun a ha => ⟨(hall a (by simp [ha])).1, hbefore a ha⟩)
      (hall b (by simp)).1 hb hpieces
    rw [htooLong] at hreceived
    exact absurd (Prod.mk.inj hreceived).2 (by decide)
  · intro hshort
    exact receive_short (fun b hb => ⟨(hall b hb).1, hshort b hb⟩) hpieces

/-! ### A frame of the greatest size -/

/-- The message `n` is the object `{aa…a}` with `n` letters. -/
def letters : Codec ℕ where
  marshal n := some (0x7b :: (List.replicate n 0x61 ++ [0x7d]))
  object n b h := by
    cases h
    refine ⟨rfl, ?_, ?_⟩
    · rw [← List.cons_append, List.getLast?_concat]
    · simp only [List.mem_cons, List.mem_append, List.mem_replicate, List.not_mem_nil, or_false]
      rintro (h | ⟨-, h⟩ | h) <;> exact absurd h (by decide)

theorem received_iff_small : writeAll letters [] [0, 1] = .ok [0x7b, 0x7d, 10, 0x7b, 0x61, 0x7d, 10] ∧
    receive [⟨[0x7b, 0x7d, 10, 0x7b], by decide⟩, ⟨[0x61, 0x7d, 10], by decide⟩] =
      ([0, 1].filterMap letters.marshal, some .eof) := by
  refine ⟨rfl, (received_iff letters [0, 1] _ [⟨[0x7b, 0x7d, 10, 0x7b], by decide⟩,
    ⟨[0x61, 0x7d, 10], by decide⟩] rfl rfl).mpr fun env henv b hb => ?_⟩
  rcases List.mem_cons.mp henv with rfl | henv
  · cases hb
    decide
  · cases List.mem_singleton.mp henv
    cases hb
    decide

/-- **A frame of the greatest size** is accepted by the writer and rejected by the reader. -/
theorem full_frame_rejected : ∃ wire, ∃ h : wire ≠ [], writeAll letters [] [maxFrameSize - 2] = .ok wire ∧
    receive [⟨wire, h⟩] = ([], some .tooLong) ∧
    receive [⟨wire, h⟩] ≠ ([maxFrameSize - 2].filterMap letters.marshal, some .eof) := by
  obtain ⟨b, hb⟩ : ∃ b, letters.marshal (maxFrameSize - 2) = some b := ⟨_, rfl⟩
  have hlen : b.length = maxFrameSize := by
    have hsize : 2 ≤ maxFrameSize := by decide
    have hb' : 0x7b :: (List.replicate (maxFrameSize - 2) 0x61 ++ [0x7d]) = b := Option.some.inj hb
    rw [← hb', List.length_cons, List.length_append, List.length_replicate, List.length_singleton]
    omega
  have hwrite : writeAll letters [] [maxFrameSize - 2] = .ok (b ++ [newline]) := by
    have hw : writeEnvelope letters [] (maxFrameSize - 2) = .ok (b ++ [newline]) :=
      writeEnvelope_ok.mpr ⟨b, hb, Nat.le_of_eq hlen, rfl⟩
    rw [writeAll, hw]
    rfl
  have hlong : receive [⟨b ++ [newline], by simp⟩] = ([], some .tooLong) :=
    receive_long (fun _ h => absurd h List.not_mem_nil) (letters.object _ b hb) (Nat.le_of_eq hlen.symm)
      (List.append_nil _)
  refine ⟨b ++ [newline], by simp, hwrite, hlong, ?_⟩
  rw [hlong]
  exact fun h => absurd (Prod.mk.inj h).2 (by decide)

end Tilbo.Ipc.Framing
