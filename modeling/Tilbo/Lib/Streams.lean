import Tilbo.Lib.Lines

/-! # Streams of lines

One direction of a connection: a writer puts messages on it, each on a line of its own, until a write fails in the middle of
one; a scanner reads lines, and at the end or after an error what is left of one. `Scanning.scan` says what the scanner gets:
the messages in their order, whole, but for a beginning of the next one at the end. -/

namespace Tilbo.Lib.Streams

open Tilbo.Lib.Lines

structure Stream where
  written : Bytes
  /-- A write has failed, and so will any other. -/
  torn : Bool
  /-- What the scanner has gone over. -/
  passed : Bytes
  /-- The scanner has met the end, or an error. -/
  ended : Bool

def Stream.new : Stream := ⟨[], false, [], false⟩

/-- A message goes out. -/
def Stream.write (s : Stream) (m : Bytes) : Stream := { s with written := s.written ++ m ++ [newline] }

/-- A write fails after these bytes. -/
def Stream.tear (s : Stream) (part : Bytes) : Stream := { s with written := s.written ++ part, torn := true }

/-- The scanner comes to the end of a line that its buffer of `N` bytes has room for. -/
inductive Scans (N : ℕ) (s : Stream) : Bytes → Stream → Prop
  | intro {raw : Bytes} (hended : s.ended = false) (hline : newline ∉ raw) (hshort : raw.length < N)
      (hthere : s.passed ++ raw ++ [newline] <+: s.written) :
      Scans N s (dropCR raw) { s with passed := s.passed ++ raw ++ [newline] }

/-- Nothing more will come: what was read of a line is taken for one. -/
inductive ScansRest (N : ℕ) (s : Stream) : Bytes → Stream → Prop
  | intro {raw : Bytes} (hended : s.ended = false) (hraw : raw ≠ []) (hline : newline ∉ raw) (hshort : raw.length < N)
      (hthere : s.passed ++ raw <+: s.written) :
      ScansRest N s (dropCR raw) { s with passed := s.passed ++ raw, ended := true }

/-- What comes next does not fit into the buffer. -/
def Stream.TooLong (N : ℕ) (s : Stream) : Prop :=
  ∃ raw, newline ∉ raw ∧ N ≤ raw.length ∧ s.passed ++ raw <+: s.written

/-- These messages were put on the stream, and the first `k` were scanned. -/
structure Carries (ms : List Bytes) (k : ℕ) (s : Stream) : Prop where
  oneLine : ∀ m ∈ ms, newline ∉ m
  written : s.written <+: terminated ms
  whole : s.torn = false → s.written = terminated ms
  within : s.passed <+: s.written
  passed : s.ended = false → k ≤ ms.length ∧ s.passed = terminated (ms.take k)

variable {ms : List Bytes} {k N : ℕ} {s s' : Stream} {m t part raw : Bytes}

theorem terminated_snoc : terminated (ms ++ [m]) = terminated ms ++ m ++ [newline] := by
  simp [terminated]

theorem carries_new : Carries [] 0 .new :=
  ⟨fun _ h => absurd h List.not_mem_nil, List.prefix_rfl, fun _ => rfl, List.prefix_rfl, fun _ => ⟨Nat.le_refl 0, rfl⟩⟩

theorem take_snoc (hk : k ≤ ms.length) : (ms ++ [m]).take k = ms.take k := by
  rw [List.take_append_of_le_length hk]

theorem Carries.write (h : Carries ms k s) (htorn : s.torn = false) (hm : newline ∉ m) :
    Carries (ms ++ [m]) k (s.write m) := by
  have hwritten : (s.write m).written = terminated (ms ++ [m]) := by
    rw [terminated_snoc, ← h.whole htorn]
    rfl
  have hmore : s.written <+: (s.write m).written := ⟨m ++ [newline], by rw [← List.append_assoc]; rfl⟩
  refine ⟨?_, hwritten ▸ List.prefix_rfl, fun _ => hwritten, h.within.trans hmore, fun hended => ?_⟩
  · intro m' hm'
    rcases List.mem_append.mp hm' with hm' | hm'
    · exact h.oneLine m' hm'
    · rwa [List.mem_singleton.mp hm']
  · obtain ⟨hk, hpassed⟩ := h.passed hended
    refine ⟨by rw [List.length_append]; omega, ?_⟩
    rw [take_snoc hk]
    exact hpassed

theorem Carries.tear (h : Carries ms k s) (htorn : s.torn = false) (hm : newline ∉ m) (hpart : part <+: m ++ [newline]) :
    Carries (ms ++ [m]) k (s.tear part) := by
  refine ⟨?_, ?_, nofun, h.within.trans (List.prefix_append _ _), fun hended => ?_⟩
  · intro m' hm'
    rcases List.mem_append.mp hm' with hm' | hm'
    · exact h.oneLine m' hm'
    · rwa [List.mem_singleton.mp hm']
  · have hwritten : (s.tear part).written = terminated ms ++ part := by rw [← h.whole htorn]; rfl
    rw [hwritten, terminated_snoc, List.append_assoc, List.prefix_append_right_inj]
    exact hpart
  · obtain ⟨hk, hpassed⟩ := h.passed hended
    refine ⟨by rw [List.length_append]; omega, ?_⟩
    rw [take_snoc hk]
    exact hpassed

/-- What comes next begins with a message and the end of its line. -/
theorem Carries.next (h : Carries ms k s) (hended : s.ended = false) {more : Bytes} (hmore : more ≠ [])
    (hthere : s.passed ++ more <+: s.written) :
    ∃ m, ms[k]? = some m ∧ ∃ rest, more ++ rest = m ++ newline :: terminated (ms.drop (k + 1)) := by
  obtain ⟨hk, hpassed⟩ := h.passed hended
  have hcoming : s.passed ++ terminated (ms.drop k) = terminated ms := by
    rw [hpassed, terminated, terminated, ← List.flatMap_append, List.take_append_drop]
    rfl
  have hprefix : more <+: terminated (ms.drop k) := by
    rw [← List.prefix_append_right_inj s.passed, hcoming]
    exact hthere.trans h.written
  rcases Nat.lt_or_eq_of_le hk with hlt | rfl
  · have hhead : terminated (ms.drop k) = ms[k] ++ newline :: terminated (ms.drop (k + 1)) := by
      have hcons := terminated_cons ms[k] (ms.drop (k + 1)) []
      rwa [List.append_nil, List.append_nil, ← List.drop_eq_getElem_cons hlt] at hcons
    obtain ⟨rest, hrest⟩ := hprefix
    exact ⟨ms[k], List.getElem?_eq_getElem hlt, rest, hrest.trans hhead⟩
  · rw [List.drop_length] at hprefix
    exact absurd (List.prefix_nil.mp hprefix) hmore

/-- **A scan** finds the next message. -/
theorem Carries.scan (h : Carries ms k s) (hs : Scans N s t s') :
    ∃ m, ms[k]? = some m ∧ t = dropCR m ∧ m.length < N ∧ s'.ended = false ∧ Carries ms (k + 1) s' := by
  obtain ⟨hended, hline, hshort, hthere⟩ := hs
  rename_i raw
  rw [List.append_assoc] at hthere
  obtain ⟨m, hm, rest, hrest⟩ := h.next hended (by simp) hthere
  obtain ⟨hlt, rfl⟩ := List.getElem?_eq_some_iff.mp hm
  have hraw : raw = ms[k] := by
    have htake := congrArg (List.takeWhile (· ≠ newline)) hrest
    rw [List.append_assoc] at htake
    have hm : newline ∉ ms[k] := h.oneLine _ (List.getElem_mem hlt)
    rwa [List.singleton_append, takeWhile_line hline, takeWhile_line hm] at htake
  refine ⟨ms[k], hm, by rw [hraw], by rwa [← hraw], hended, h.oneLine, h.written, h.whole, ?_, fun _ => ⟨hlt, ?_⟩⟩
  · rwa [List.append_assoc]
  · rw [List.take_add_one, hm, Option.toList_some, terminated_snoc, ← (h.passed hended).2, hraw]

/-- At the end it finds a message, or the beginning of one. -/
theorem Carries.scanRest (h : Carries ms k s) (hs : ScansRest N s t s') :
    ∃ m raw, ms[k]? = some m ∧ raw <+: m ∧ raw ≠ [] ∧ t = dropCR raw ∧ s'.ended = true ∧ Carries ms (k + 1) s' := by
  obtain ⟨hended, hraw, hline, hshort, hthere⟩ := hs
  rename_i raw
  obtain ⟨m, hm, rest, hrest⟩ := h.next hended hraw hthere
  have hmem : newline ∉ m := h.oneLine m (List.mem_of_getElem? hm)
  refine ⟨m, raw, hm, ?_, hraw, rfl, rfl, h.oneLine, h.written, h.whole, hthere, nofun⟩
  rcases data_cases hrest hmem with ⟨more, hmore, -⟩ | ⟨-, -, hlen⟩
  · exact absurd (hmore ▸ by simp) hline
  · exact List.prefix_of_prefix_length_le ⟨rest, hrest⟩ (List.prefix_append _ _) hlen

/-- While something is left, the scanner finds a line or what there is of one, or has no room for it. -/
theorem Stream.scans (s : Stream) (hended : s.ended = false) (hwithin : s.passed <+: s.written)
    (hleft : s.passed ≠ s.written) :
    s.TooLong N ∨ (∃ t s', Scans N s t s') ∨ ∃ t s', ScansRest N s t s' := by
  obtain ⟨left, hwritten⟩ := hwithin
  have hne : left ≠ [] := by
    rintro rfl
    exact hleft ((List.append_nil _).symm.trans hwritten)
  by_cases hline : newline ∈ left
  · obtain ⟨raw, rest, rfl, hraw⟩ := List.eq_append_cons_of_mem hline
    rcases Nat.lt_or_ge raw.length N with hshort | hlong
    · have hthere : s.passed ++ raw ++ [newline] <+: s.written := ⟨rest, by simp [← hwritten]⟩
      exact .inr (.inl ⟨_, _, hended, hraw, hshort, hthere⟩)
    · exact .inl ⟨raw, hraw, hlong, newline :: rest, by simp [← hwritten]⟩
  · rcases Nat.lt_or_ge left.length N with hshort | hlong
    · exact .inr (.inr ⟨_, _, hended, hne, hline, hshort, hwritten ▸ List.prefix_rfl⟩)
    · exact .inl ⟨left, hline, hlong, hwritten ▸ List.prefix_rfl⟩

/-- A scanner that finds nothing more has found all messages, if none is too long for it. -/
theorem Carries.all (h : Carries ms k s) (htorn : s.torn = false) (hended : s.ended = false) (hlong : ¬ s.TooLong N)
    (hno : ∀ t s', ¬ Scans N s t s') : k = ms.length := by
  obtain ⟨hk, hpassed⟩ := h.passed hended
  by_contra hne
  have hlt : k < ms.length := Nat.lt_of_le_of_ne hk hne
  have hm : newline ∉ ms[k] := h.oneLine _ (List.getElem_mem hlt)
  have hthere : s.passed ++ ms[k] ++ [newline] <+: s.written := by
    rw [h.whole htorn, hpassed, ← terminated_snoc, ← List.take_succ_eq_append_getElem hlt]
    refine ⟨terminated (ms.drop (k + 1)), ?_⟩
    rw [terminated, terminated, ← List.flatMap_append, List.take_append_drop]
    rfl
  have hshort : ms[k].length < N := by
    by_contra hge
    exact hlong ⟨ms[k], hm, Nat.le_of_not_lt hge, (List.prefix_append _ _).trans hthere⟩
  exact hno _ _ ⟨hended, hm, hshort, hthere⟩

end Tilbo.Lib.Streams
