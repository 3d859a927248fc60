import Tilbo.Lib.Steps
import Mathlib.Logic.Function.Basic

/-! # Inode numbers

`Root.allocInode` hashes the real path, and hashes again with one more zero byte at the end as long as the number
belongs to another path. The hash is any function; with a bad one the loop may go on for ever, so the theorems are
about the calls that return. -/

namespace Tilbo.Fuse.Inodes

open Tilbo.Lib.Steps

/-! ### The code -/

/-- The two maps of `Root`. -/
structure Root where
  inoMap : String → Option UInt64
  inoUsed : UInt64 → Option String

/-- `NewRoot`. -/
def newRoot : Root := ⟨fun _ => none, fun _ => none⟩

variable (sum64 : String → UInt64)

/-- `stableInode`: the hash, or 1 if that is 0. -/
def stableInode (s : String) : UInt64 := if sum64 s = 0 then 1 else sum64 s

/-- The loop of `allocInode`; `none` if it goes on for longer than the fuel. -/
def probeLoop (inoUsed : UInt64 → Option String) (realPath : String) : ℕ → String → UInt64 → Option UInt64
  | 0, _, _ => none
  | n + 1, probe, ino =>
    if inoUsed ino = none ∨ inoUsed ino = some realPath then some ino
    else probeLoop inoUsed realPath n (probe ++ "\x00") (stableInode sum64 (probe ++ "\x00"))

/-- The path gets the number. -/
def Root.record (r : Root) (realPath : String) (ino : UInt64) : Root :=
  ⟨Function.update r.inoMap realPath (some ino), Function.update r.inoUsed ino (some realPath)⟩

/-- `Root.allocInode`, with fuel for its loop. -/
def allocInode (fuel : ℕ) (realPath : String) (r : Root) : Option (UInt64 × Root) :=
  match r.inoMap realPath with
  | some ino => some (ino, r)
  | none =>
    (probeLoop sum64 r.inoUsed realPath fuel realPath (stableInode sum64 realPath)).map fun ino =>
      (ino, r.record realPath ino)

/-- A call that returns: the path, and the number it gets. -/
def Call (r : Root) (call : String × UInt64) (r' : Root) : Prop :=
  ∃ fuel, allocInode sum64 fuel call.1 r = some (call.2, r')

/-- The number the loop comes to after `k` more zero bytes. -/
def numberAt : String → UInt64 → ℕ → UInt64
  | _, ino, 0 => ino
  | probe, _, k + 1 => numberAt (probe ++ "\x00") (stableInode sum64 (probe ++ "\x00")) k

variable {sum64} {r r' : Root} {path realPath probe : String} {ino : UInt64} {n m : ℕ} {call : String × UInt64}
  {tr : List (Root × String × UInt64)}

/-! ### The loop -/

theorem stableInode_ne_zero (s : String) : stableInode sum64 s ≠ 0 := by
  unfold stableInode
  split_ifs with h
  · decide
  · exact h

/-- What the loop ends with is a number of its path or of none. -/
theorem probeLoop_free {inoUsed : UInt64 → Option String} {start : UInt64}
    (h : probeLoop sum64 inoUsed realPath n probe start = some ino) :
    inoUsed ino = none ∨ inoUsed ino = some realPath := by
  induction n generalizing probe start with
  | zero => cases h
  | succ n ih =>
    rw [probeLoop] at h
    split_ifs at h with hfree
    · exact Option.some.inj h ▸ hfree
    · exact ih h

theorem probeLoop_ne_zero {inoUsed : UInt64 → Option String} {start : UInt64} (hstart : start ≠ 0)
    (h : probeLoop sum64 inoUsed realPath n probe start = some ino) : ino ≠ 0 := by
  induction n generalizing probe start with
  | zero => cases h
  | succ n ih =>
    rw [probeLoop] at h
    split_ifs at h
    · exact Option.some.inj h ▸ hstart
    · exact ih (stableInode_ne_zero _) h

/-- More fuel does not change what the loop ends with. -/
theorem probeLoop_mono {inoUsed : UInt64 → Option String} {start : UInt64} (hnm : n ≤ m)
    (h : probeLoop sum64 inoUsed realPath n probe start = some ino) :
    probeLoop sum64 inoUsed realPath m probe start = some ino := by
  induction n generalizing m probe start with
  | zero => cases h
  | succ n ih =>
    obtain ⟨m, rfl⟩ : ∃ k, m = k + 1 := ⟨m - 1, by omega⟩
    rw [probeLoop] at h ⊢
    split_ifs at h ⊢
    · exact h
    · exact ih (by omega) h

/-- The loop returns just if one of the numbers it comes to is not that of another path. -/
theorem probeLoop_returns_iff {inoUsed : UInt64 → Option String} {start : UInt64} :
    (∃ n ino, probeLoop sum64 inoUsed realPath n probe start = some ino) ↔
      ∃ k, inoUsed (numberAt sum64 probe start k) = none ∨ inoUsed (numberAt sum64 probe start k) = some realPath := by
  constructor
  · rintro ⟨n, ino, h⟩
    induction n generalizing probe start with
    | zero => cases h
    | succ n ih =>
      rw [probeLoop] at h
      split_ifs at h with hfree
      · exact ⟨0, hfree⟩
      · obtain ⟨k, hk⟩ := ih h
        exact ⟨k + 1, hk⟩
  · rintro ⟨k, hk⟩
    induction k generalizing probe start with
    | zero => exact ⟨1, start, if_pos hk⟩
    | succ k ih =>
      obtain ⟨n, ino, h⟩ := ih hk
      by_cases hfree : inoUsed start = none ∨ inoUsed start = some realPath
      · exact ⟨1, start, if_pos hfree⟩
      · exact ⟨n + 1, ino, (if_neg hfree).trans h⟩

/-! ### One call -/

/-- The two maps are inverse to each other, and no number is 0. -/
structure Root.Sound (r : Root) : Prop where
  inverse : ∀ path ino, r.inoMap path = some ino ↔ r.inoUsed ino = some path
  nonzero : ∀ path ino, r.inoMap path = some ino → ino ≠ 0

theorem sound_newRoot : newRoot.Sound :=
  ⟨fun _ _ => iff_of_false (fun h => by cases h) (fun h => by cases h), fun _ _ h => by cases h⟩

theorem inoMap_record : (r.record path ino).inoMap realPath = if realPath = path then some ino else r.inoMap realPath :=
  Function.update_apply ..

theorem inoUsed_record {other : UInt64} :
    (r.record path ino).inoUsed other = if other = ino then some path else r.inoUsed other :=
  Function.update_apply ..

/-- What a call does: the path has the number already, or it is new and gets a number that is not 0 and not that of
another path. -/
theorem Call.cases (h : Call sum64 r call r') :
    (r.inoMap call.1 = some call.2 ∧ r' = r) ∨
      r.inoMap call.1 = none ∧ (r.inoUsed call.2 = none ∨ r.inoUsed call.2 = some call.1) ∧ call.2 ≠ 0 ∧
        r' = r.record call.1 call.2 := by
  obtain ⟨fuel, h⟩ := h
  unfold allocInode at h
  cases hold : r.inoMap call.1 with
  | some old =>
    rw [hold] at h
    obtain ⟨rfl, rfl⟩ := Prod.mk.inj (Option.some.inj h)
    exact .inl ⟨rfl, rfl⟩
  | none =>
    rw [hold] at h
    obtain ⟨new, hloop, hnew⟩ := Option.map_eq_some_iff.mp h
    obtain ⟨rfl, rfl⟩ := Prod.mk.inj hnew
    exact .inr ⟨rfl, probeLoop_free hloop, probeLoop_ne_zero (stableInode_ne_zero _) hloop, rfl⟩

/-- A new path gets a number that nobody has. -/
theorem Root.Sound.record (hr : r.Sound) (hnew : r.inoMap path = none) (hfree : r.inoUsed ino = none)
    (hzero : ino ≠ 0) :
    (r.record path ino).Sound := by
  constructor
  · intro p i
    rw [inoMap_record, inoUsed_record]
    split_ifs with hp hi hi
    · exact iff_of_true (by rw [hi]) (by rw [hp])
    · rw [← hr.inverse, hp, hnew]
      exact iff_of_false (fun h => hi (Option.some.inj h).symm) fun h => by cases h
    · rw [hr.inverse, hi, hfree]
      exact iff_of_false (fun h => by cases h) fun h => hp (Option.some.inj h).symm
    · exact hr.inverse p i
  · intro p i h
    rw [inoMap_record] at h
    split_ifs at h
    · exact Option.some.inj h ▸ hzero
    · exact hr.nonzero p i h

theorem Call.sound (h : Call sum64 r call r') (hr : r.Sound) : r'.Sound := by
  obtain ⟨-, rfl⟩ | ⟨hnew, hfree, hzero, rfl⟩ := h.cases
  · exact hr
  · refine hr.record hnew (hfree.resolve_right fun hown => ?_) hzero
    -- a number of the path itself would be in `inoMap` as well
    rw [(hr.inverse _ _).mpr hown] at hnew
    cases hnew

/-- The path has the number afterwards. -/
theorem Call.recorded (h : Call sum64 r call r') : r'.inoMap call.1 = some call.2 := by
  obtain ⟨hold, rfl⟩ | ⟨-, -, -, rfl⟩ := h.cases
  · exact hold
  · rw [inoMap_record, if_pos rfl]

/-- A path keeps its number. -/
theorem Call.keeps (h : Call sum64 r call r') (hold : r.inoMap path = some ino) : r'.inoMap path = some ino := by
  obtain ⟨-, rfl⟩ | ⟨hnew, -, -, rfl⟩ := h.cases
  · exact hold
  · rw [inoMap_record, if_neg fun hp => ?_]
    · exact hold
    · rw [hp, hnew] at hold
      cases hold

/-! ### All calls -/

/-- Every call is recorded. -/
theorem recorded_of_run (hrun : Runs (Call sum64) newRoot tr r) : ∀ e ∈ tr, r.inoMap e.2.1 = some e.2.2 := by
  induction hrun with
  | nil => exact fun _ h => absurd h List.not_mem_nil
  | snoc before last ih =>
    intro e he
    rcases List.mem_append.mp he with he | he
    · exact last.keeps (ih e he)
    · rw [List.mem_singleton.mp he]
      exact last.recorded

/-- **Inode numbers are injective and stable.** For every hash function and every sequence of calls that return. -/
theorem allocInode_stable (hrun : Runs (Call sum64) newRoot tr r) :
    (∀ path ino, r.inoMap path = some ino ↔ r.inoUsed ino = some path) ∧
      (∀ e ∈ tr, ∀ e' ∈ tr, e.2.2 = e'.2.2 ↔ e.2.1 = e'.2.1) ∧ ∀ e ∈ tr, e.2.2 ≠ 0 := by
  have hsound : r.Sound := hrun.invariant Root.Sound meets_any sound_newRoot fun _ _ _ hr _ hstep => hstep.sound hr
  have hrecorded := recorded_of_run hrun
  refine ⟨hsound.inverse, fun e he e' he' => ⟨fun hino => ?_, fun hpath => ?_⟩,
    fun e he => hsound.nonzero _ _ (hrecorded e he)⟩
  · have hused := (hsound.inverse _ _).mp (hrecorded e he)
    have hused' := (hsound.inverse _ _).mp (hrecorded e' he')
    rw [hino, hused'] at hused
    exact (Option.some.inj hused).symm
  · have hmap := hrecorded e he
    rw [hpath, hrecorded e' he'] at hmap
    exact (Option.some.inj hmap).symm

/-! ### A collision -/

/-- Under this hash `/a` and `/b` collide. -/
def lengthHash (s : String) : UInt64 := s.length.toUInt64

/-- After calls for `/a`, `/b` and again `/a`. -/
def collided : Root := (newRoot.record "/a" 2).record "/b" 3

/-- The three calls. -/
def collidingCalls : List (Root × String × UInt64) :=
  [(newRoot, "/a", 2), (newRoot.record "/a" 2, "/b", 3), (collided, "/a", 2)]

theorem collided_run : Runs (Call lengthHash) newRoot collidingCalls collided := by
  have hfirst : Call lengthHash newRoot ("/a", 2) (newRoot.record "/a" 2) := ⟨1, rfl⟩
  have hsecond : Call lengthHash (newRoot.record "/a" 2) ("/b", 3) collided := ⟨2, rfl⟩
  have hthird : Call lengthHash collided ("/a", 2) collided := ⟨1, rfl⟩
  exact ((Runs.nil.snoc hfirst).snoc hsecond).snoc hthird

theorem allocInode_stable_collided :
    (∀ path ino, collided.inoMap path = some ino ↔ collided.inoUsed ino = some path) ∧
      (∀ e ∈ collidingCalls, ∀ e' ∈ collidingCalls, e.2.2 = e'.2.2 ↔ e.2.1 = e'.2.1) ∧
        ∀ e ∈ collidingCalls, e.2.2 ≠ 0 :=
  allocInode_stable collided_run

end Tilbo.Fuse.Inodes
