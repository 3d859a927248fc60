import Mathlib.Data.Finset.Card
import Mathlib.Logic.Function.Basic
import Mathlib.Tactic.Common

/-! # Tables

A Go map `map[K]V`: finitely many keys with a value each. What `val` says of a key that is not there is
never read. -/

namespace Tilbo.Lib.Tables

variable {κ β : Type*} [DecidableEq κ]

/-- A map with finitely many keys. -/
structure Table (κ β : Type*) where
  keys : Finset κ
  val : κ → β

/-- The map without keys. -/
def empty (zero : β) : Table κ β := ⟨∅, fun _ => zero⟩

/-- `m[k] = b`. -/
def put (m : Table κ β) (k : κ) (b : β) : Table κ β := ⟨insert k m.keys, Function.update m.val k b⟩

/-- `m[k] += b`: a key that is not there counts from zero. -/
def bump (zero : β) (add : β → β → β) (m : Table κ β) (k : κ) (b : β) : Table κ β :=
  put m k (add (if k ∈ m.keys then m.val k else zero) b)

/-- `m[k] = f(k, m[k])` for the keys that are there. -/
def adjust (f : κ → β → β) (m : Table κ β) : Table κ β := ⟨m.keys, fun k => f k (m.val k)⟩

/-- `m[k] = m'[k]` for the keys of `m'`. -/
def merge (m m' : Table κ β) : Table κ β :=
  ⟨m.keys ∪ m'.keys, fun k => if k ∈ m'.keys then m'.val k else m.val k⟩

/-- The map of these entries; of two with one key the later counts. -/
def ofEntries (zero : β) (entries : List (κ × β)) : Table κ β :=
  entries.foldl (fun m e => put m e.1 e.2) (empty zero)

variable {m m' : Table κ β} {k l : κ} {b zero : β} {add : β → β → β} {f : κ → β → β}

omit [DecidableEq κ] in
@[simp] theorem keys_empty : (empty zero : Table κ β).keys = ∅ := rfl

@[simp] theorem keys_merge : (merge m m').keys = m.keys ∪ m'.keys := rfl

@[simp] theorem keys_put : (put m k b).keys = insert k m.keys := rfl

@[simp] theorem keys_bump : (bump zero add m k b).keys = insert k m.keys := rfl

omit [DecidableEq κ] in
@[simp] theorem keys_adjust : (adjust f m).keys = m.keys := rfl

omit [DecidableEq κ] in
/-- A loop that adds keys: what one round adds, for each round. -/
theorem mem_keys_foldl {α : Type*} {f : Table κ β → α → Table κ β} {P : α → Prop}
    (hf : ∀ m x, k ∈ (f m x).keys ↔ k ∈ m.keys ∨ P x) (xs : List α) :
    ∀ m, k ∈ (xs.foldl f m).keys ↔ k ∈ m.keys ∨ ∃ x ∈ xs, P x := by
  induction xs with
  | nil => intro m; simp
  | cons x xs ih =>
    intro m
    rw [List.foldl_cons, ih, hf, or_assoc]
    simp only [List.mem_cons, exists_eq_or_imp]

theorem mem_keys_ofEntries {entries : List (κ × β)} :
    k ∈ (ofEntries zero entries).keys ↔ k ∈ entries.map Prod.fst := by
  have hput : ∀ (m : Table κ β) (e : κ × β), k ∈ (put m e.1 e.2).keys ↔ k ∈ m.keys ∨ k = e.1 := by
    intro m e
    rw [keys_put, Finset.mem_insert, or_comm]
  rw [ofEntries, mem_keys_foldl hput, List.mem_map]
  simp only [keys_empty, Finset.notMem_empty, false_or, eq_comm]

end Tilbo.Lib.Tables
