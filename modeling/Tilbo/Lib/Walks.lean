import Mathlib.Order.Nat
import Mathlib.Data.Nat.Find
import Mathlib.Tactic.Common

/-! # Walks and shortest distance

Walks of a given length along a relation, the distance as the length of a shortest one, and the layers
of breadth-first search: the points at distance `n + 1` are the successors of those at distance `n` that
are not at a smaller distance. -/

namespace Tilbo.Lib.Walks

variable {α : Type*} {r : α → α → Prop} {a b c : α} {m n : ℕ}

/-- A walk of so many steps. -/
inductive Walk (r : α → α → Prop) : ℕ → α → α → Prop
  | nil (a : α) : Walk r 0 a a
  | snoc {n : ℕ} {a b c : α} (before : Walk r n a b) (last : r b c) : Walk r (n + 1) a c

/-- The length of a shortest walk. -/
def Dist (r : α → α → Prop) (n : ℕ) (a b : α) : Prop :=
  Walk r n a b ∧ ∀ m, m < n → ¬ Walk r m a b

@[simp] theorem walk_zero : Walk r 0 a b ↔ a = b := by
  constructor
  · intro h
    cases h
    rfl
  · rintro rfl
    exact .nil a

theorem walk_succ : Walk r (n + 1) a c ↔ ∃ b, Walk r n a b ∧ r b c := by
  constructor
  · intro h
    cases h with
    | snoc before last => exact ⟨_, before, last⟩
  · rintro ⟨b, before, last⟩
    exact .snoc before last

/-- A walk that goes anywhere starts with a step. -/
theorem Walk.first (h : Walk r (n + 1) a c) : ∃ b, r a b := by
  induction n generalizing c with
  | zero =>
    obtain ⟨b, hb, hr⟩ := walk_succ.mp h
    rw [walk_zero.mp hb]
    exact ⟨c, hr⟩
  | succ n ih =>
    obtain ⟨b, hb, -⟩ := walk_succ.mp h
    exact ih hb

@[simp] theorem dist_zero : Dist r 0 a b ↔ a = b := by
  constructor
  · intro h
    exact walk_zero.mp h.1
  · rintro rfl
    exact ⟨.nil a, fun m hm => absurd hm m.not_lt_zero⟩

/-- Where there is a walk there is a distance. -/
theorem Walk.dist (h : Walk r n a b) : ∃ m, m ≤ n ∧ Dist r m a b := by
  classical
  have hex : ∃ n, Walk r n a b := ⟨n, h⟩
  exact ⟨Nat.find hex, Nat.find_min' hex h, Nat.find_spec hex, fun m hm => Nat.find_min hex hm⟩

theorem Dist.unique (hm : Dist r m a b) (hn : Dist r n a b) : m = n := by
  rcases Nat.lt_trichotomy m n with h | h | h
  · exact absurd hm.1 (hn.2 m h)
  · exact h
  · exact absurd hn.1 (hm.2 n h)

/-- **Layers.** The next layer: the successors of this one that no layer so far has. -/
theorem dist_succ :
    Dist r (n + 1) a c ↔ (∃ b, Dist r n a b ∧ r b c) ∧ ∀ m, m ≤ n → ¬ Dist r m a c := by
  constructor
  · rintro ⟨hwalk, hmin⟩
    obtain ⟨b, hb, hr⟩ := walk_succ.mp hwalk
    -- a shorter walk to `b` would give a shorter one to `c`
    have hshort : ∀ m, m < n → ¬ Walk r m a b := fun m hm h =>
      hmin (m + 1) (Nat.succ_lt_succ hm) (.snoc h hr)
    exact ⟨⟨b, ⟨hb, hshort⟩, hr⟩, fun m hm h => hmin m (Nat.lt_succ_of_le hm) h.1⟩
  · rintro ⟨⟨b, hb, hr⟩, hnew⟩
    refine ⟨.snoc hb.1 hr, fun m hm h => ?_⟩
    obtain ⟨k, hk, hd⟩ := h.dist
    exact hnew k (Nat.le_trans hk (Nat.le_of_lt_succ hm)) hd

/-- After an empty layer all are. -/
theorem dist_empty (h : ∀ b, ¬ Dist r n a b) (hmn : n ≤ m) : ∀ b, ¬ Dist r m a b := by
  induction m, hmn using Nat.le_induction with
  | base => exact h
  | succ m _ ih =>
    intro c hc
    obtain ⟨⟨b, hb, -⟩, -⟩ := dist_succ.mp hc
    exact ih b hb

/-! ### Another name for the points -/

section Rename

variable {β : Type*} {s : β → β → Prop} {e : α → β}

/-- If `s` is `r` with the points renamed, so are its walks. -/
theorem walk_rename (hs : ∀ a y, s (e a) y ↔ ∃ b, y = e b ∧ r a b) :
    ∀ {n : ℕ} {y : β}, Walk s n (e a) y ↔ ∃ b, y = e b ∧ Walk r n a b := by
  intro n
  induction n with
  | zero => simp [eq_comm]
  | succ n ih =>
    intro y
    simp only [walk_succ, ih]
    constructor
    · rintro ⟨_, ⟨b, rfl, hb⟩, hr⟩
      obtain ⟨c, rfl, hc⟩ := (hs b y).mp hr
      exact ⟨c, rfl, b, hb, hc⟩
    · rintro ⟨c, rfl, b, hb, hr⟩
      exact ⟨e b, ⟨b, rfl, hb⟩, (hs b _).mpr ⟨c, rfl, hr⟩⟩

theorem dist_rename (hs : ∀ a y, s (e a) y ↔ ∃ b, y = e b ∧ r a b) (he : Function.Injective e) {y : β} :
    Dist s n (e a) y ↔ ∃ b, y = e b ∧ Dist r n a b := by
  simp only [Dist, walk_rename hs]
  constructor
  · rintro ⟨⟨b, rfl, hb⟩, hmin⟩
    exact ⟨b, rfl, hb, fun m hm h => hmin m hm ⟨b, rfl, h⟩⟩
  · rintro ⟨b, rfl, hb, hmin⟩
    refine ⟨⟨b, rfl, hb⟩, ?_⟩
    rintro m hm ⟨c, hc, h⟩
    rw [he hc] at hmin
    exact hmin m hm h

end Rename

end Tilbo.Lib.Walks
