import Tilbo.Lib.Txn

/-! # Scripts that are run again

A program that is stopped somewhere is run again from its start. `Completes m P Q E` says that from `P` it ends in `Q` or,
if it is stopped, in `E`, and that nothing but a failure from outside stops it; with `P` for `E` it can be run until it
comes to its end.

A script is a list of statements, each of which takes effect for itself. It is `Resumable` if wherever it was stopped, it
can be begun again, and goes through. -/

namespace Tilbo.Lib.Scripts

open Tilbo.Lib.Txn Tilbo.Lib.Txn.Prog

variable {σ ε ε' α β : Type}

/-- From `P`, whatever fails, `m` ends with a value in `Q` or an error in `E`; and if nothing fails, with a value. -/
def Completes (m : Prog σ ε α) (P : σ → Prop) (Q : α → σ → Prop) (E : σ → Prop) : Prop :=
  ∀ s, P s → wp m Q (fun _ => E) s ∧ ∃ a s', Runs m s (.ok a) s'

section Rules
variable {m : Prog σ ε α} {k : α → Prog σ ε β} {P P' E E' : σ → Prop} {Q Q' : α → σ → Prop} {R : β → σ → Prop}

theorem Completes.mono (h : Completes m P Q E) (hP : ∀ s, P' s → P s) (hQ : ∀ a s, Q a s → Q' a s)
    (hE : ∀ s, E s → E' s) : Completes m P' Q' E' := fun s hs =>
  ⟨(h s (hP s hs)).1.mono hQ fun _ => hE, (h s (hP s hs)).2⟩

/-- A run that nothing disturbs ends in what it is to end in. -/
theorem Completes.runs (h : Completes m P Q E) {s : σ} (hs : P s) : ∃ a s', Runs m s (.ok a) s' ∧ Q a s' := by
  obtain ⟨hwp, a, s', hrun⟩ := h s hs
  exact ⟨a, s', hrun, hwp.ok hrun⟩

theorem Completes.ret {a : α} (h : ∀ s, P s → Q a s) : Completes (pure a : Prog σ ε α) P Q E := fun s hs =>
  ⟨wp_ret (h s hs), a, s, Runs.ret⟩

theorem Completes.stmt {fault : ε} {f : σ → Except ε (α × σ)} (hE : ∀ s, P s → E s)
    (h : ∀ s, P s → ∃ a s', f s = .ok (a, s') ∧ Q a s') : Completes (Prog.stmt fault f) P Q E := by
  intro s hs
  obtain ⟨a, s', hf, hQ⟩ := h s hs
  refine ⟨wp_stmt (hE s hs) ?_, a, s', Runs.stmt hf⟩
  rw [hf]
  exact hQ

theorem Completes.andThen (hm : Completes m P Q E) (hk : ∀ a, Completes (k a) (Q a) R E) :
    Completes (m >>= k) P R E := by
  intro s hs
  obtain ⟨a, s', hrun, hQ⟩ := hm.runs hs
  obtain ⟨b, s'', hrest⟩ := (hk a s' hQ).2
  refine ⟨wp_andThen ((hm s hs).1.mono (fun a s' hQ => (hk a s' hQ).1) fun _ _ => id), b, s'', hrun.andThen hrest⟩

theorem Completes.wrap {f : ε → ε'} (h : Completes m P Q E) : Completes (Prog.wrap f m) P Q E := by
  intro s hs
  obtain ⟨hwp, a, s', hrun⟩ := h s hs
  exact ⟨wp_wrap hwp, a, s', hrun.wrap⟩

/-- **The loop rule.** -/
theorem Completes.each {f : β → Prog σ ε Unit} (I : List β → σ → Prop) {l : List β}
    (step : ∀ done b rest, l = done ++ b :: rest → Completes (f b) (I done) (fun _ => I (done ++ [b])) E) :
    Completes (Prog.each f l) (I []) (fun _ => I l) E := by
  intro s hs
  have hcalm : ∀ done b rest s', l = done ++ b :: rest → I done s' → ∃ s'', Runs (f b) s' (.ok ()) s'' ∧ I (done ++ [b]) s'' := by
    intro done b rest s' hl hI
    obtain ⟨a, s'', hrun, hI'⟩ := (step done b rest hl).runs hI
    exact ⟨s'', hrun, hI'⟩
  obtain ⟨s', hrun, -⟩ := Runs.each I hcalm hs
  exact ⟨wp_each I (fun done b rest s' hl hI => (step done b rest hl s' hI).1) hs, (), s', hrun⟩

end Rules

/-! ### Scripts -/

section Scripts
variable (exec : β → σ → Except ε σ) (fault : ε)

/-- The statements, one after the other. -/
def script (l : List β) : Prog σ ε Unit :=
  each (fun b => Prog.stmt fault fun s => (exec b s).map fun s' => ((), s')) l

/-- What holds before each statement: the statement goes through, and what holds after it is what is to hold before the next;
and it is enough to begin with the first again. -/
structure Resumable (l : List β) (before : ℕ → σ → Prop) : Prop where
  step : ∀ i (hi : i < l.length) s, before i s → ∃ s', exec l[i] s = .ok s' ∧ before (i + 1) s'
  again : ∀ i ≤ l.length, ∀ s, before i s → before 0 s

variable {exec fault}

/-- **A script can be run again**, wherever it was stopped. -/
theorem Resumable.completes {l : List β} {before : ℕ → σ → Prop} (h : Resumable exec l before) :
    Completes (script exec fault l) (before 0) (fun _ => before l.length) (before 0) := by
  refine Completes.each (fun done => before done.length) fun done b rest hl => ?_
  have hi : done.length < l.length := by
    rw [hl, List.length_append, List.length_cons]
    omega
  have hb : l[done.length] = b := by
    subst hl
    simp
  refine Completes.stmt (h.again _ (Nat.le_of_lt hi)) fun s hs => ?_
  obtain ⟨s', hexec, hs'⟩ := h.step done.length hi s hs
  rw [hb] at hexec
  rw [List.length_append, List.length_singleton]
  exact ⟨(), s', by rw [hexec]; rfl, hs'⟩

end Scripts

end Tilbo.Lib.Scripts
