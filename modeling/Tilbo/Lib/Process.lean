import Tilbo.Lib.Txn
import Mathlib.Logic.Function.Basic
import Mathlib.Data.List.Induction

/-! # Processes of atomic calls

A process makes one atomic call after the other on a shared store; a call is a fallible program
(`Txn`), and what the process does next may depend on how the call went. Each call shows a label, which
says which call it was, with which arguments and result.

There are two ways to run processes. `record p` runs `p` alone, as one program, so that the rules of `Txn`
apply to it. A `Pool` runs many of them on one store: each step picks a process and makes its next
call, with any faults, and a `Run` is any finite sequence of such steps together with the labels it
showed. `Run.invariant` is the rule for runs: if every process keeps to its `Protocol` (a phase that the
labels move on, and what a call may do to the store in a phase), what the protocol's steps preserve
holds throughout every run. -/

namespace Tilbo.Lib.Process

open Tilbo.Lib.Txn

variable {σ L ε ε' α β ι Ph : Type}

/-- A process is finished, or about to make a call: what the call shows, what it does to the store, and
what the process does afterwards. -/
inductive Proc (σ L ε α : Type) : Type
  | done (r : Except ε α)
  | call (label : Conn σ → L) (next : Conn σ → Conn σ) (k : Conn σ → Proc σ L ε α)

namespace Proc

/-- How the process ended, if it has. -/
def result : Proc σ L ε α → Option (Except ε α)
  | done r => some r
  | call .. => none

/-- Run `p`, and `f` on its value. -/
def andThen : Proc σ L ε α → (α → Proc σ L ε β) → Proc σ L ε β
  | done (.ok a), f => f a
  | done (.error e), _ => done (.error e)
  | call label next k, f => call label next fun c => (k c).andThen f

instance : Monad (Proc σ L ε) where
  pure a := done (.ok a)
  bind := andThen

/-- End with an error. -/
def fail (e : ε) : Proc σ L ε α := done (.error e)

/-- The program `m` as one call. -/
def atom (label : Except ε α → L) (m : Prog σ ε α) : Proc σ L ε α :=
  call (fun c => label (m c).1) (fun c => (m c).2) fun c => done (m c).1

/-- Go on after an error, with the error in hand. -/
def attempt : Proc σ L ε α → Proc σ L ε' (Except ε α)
  | done r => done (.ok r)
  | call label next k => call label next fun c => (k c).attempt

/-- Rename the error. -/
def wrap (f : ε → ε') : Proc σ L ε α → Proc σ L ε' α
  | done (.ok a) => done (.ok a)
  | done (.error e) => done (.error (f e))
  | call label next k => call label next fun c => (k c).wrap f

/-- Run `f` on each element. -/
def each (f : β → Proc σ L ε Unit) : List β → Proc σ L ε Unit
  | [] => done (.ok ())
  | b :: bs => andThen (f b) fun _ => each f bs

@[simp] theorem pure_andThen (a : α) (f : α → Proc σ L ε β) : (pure a >>= f) = f a := rfl

theorem andThen_pure (p : Proc σ L ε α) : (p >>= pure) = p := by
  show andThen p pure = p
  induction p with
  | done r => cases r <;> rfl
  | call label next k ih =>
    simp only [andThen, Proc.call.injEq, true_and]
    funext c
    exact ih c

@[simp] theorem andThen_assoc {γ : Type} (p : Proc σ L ε α) (f : α → Proc σ L ε β) (g : β → Proc σ L ε γ) :
    (p >>= f) >>= g = p >>= fun a => f a >>= g := by
  show andThen (andThen p f) g = andThen p fun a => andThen (f a) g
  induction p with
  | done r => cases r <;> rfl
  | call label next k ih =>
    simp only [andThen, Proc.call.injEq, true_and]
    funext c
    exact ih c

/-- An attempt at a process whose value does not matter. -/
theorem attempt_forget (p : Proc σ L ε α) : (attempt (p >>= fun _ => pure ()) : Proc σ L ε' (Except ε Unit)) =
    attempt p >>= fun r => pure (r.map fun _ => ()) := by
  show attempt (andThen p fun _ => pure ()) = andThen (attempt p) fun r => pure (r.map fun _ => ())
  induction p with
  | done r => cases r <;> rfl
  | call label next k ih =>
    simp only [andThen, attempt, Proc.call.injEq, true_and]
    funext c
    exact ih c

/-- The process run alone, as one program; the store comes with the labels shown so far, of those that
are kept. -/
def record (keep : L → Bool) : Proc σ L ε α → Prog (σ × List L) ε α
  | done r => fun c => (r, c)
  | call label next k => fun c =>
    let c' : Conn σ := ⟨c.store.1, c.faults⟩
    (k c').record keep
      ⟨((next c').store, c.store.2 ++ [label c'].filter keep), (next c').faults⟩

/-- The process run alone, its labels aside. -/
def run : Proc σ L ε α → Prog σ ε α
  | done r => fun c => (r, c)
  | call _ next k => fun c => (k c).run (next c)

/-! ### Running alone -/

section Run

@[simp] theorem run_pure (a : α) : run (pure a : Proc σ L ε α) = pure a := rfl

@[simp] theorem run_fail (e : ε) : run (fail e : Proc σ L ε α) = Prog.fail e := rfl

@[simp] theorem run_atom (label : Except ε α → L) (m : Prog σ ε α) : run (atom label m) = m := rfl

@[simp] theorem run_andThen (p : Proc σ L ε α) (f : α → Proc σ L ε β) :
    run (p >>= f) = run p >>= fun a => run (f a) := by
  show run (andThen p f) = Prog.andThen (run p) fun a => run (f a)
  induction p with
  | done r => cases r <;> rfl
  | call label next k ih =>
    funext c
    exact congrFun (ih _) _

@[simp] theorem run_attempt (p : Proc σ L ε α) :
    run (attempt p : Proc σ L ε' (Except ε α)) = Prog.attempt (run p) := by
  induction p with
  | done r => rfl
  | call label next k ih =>
    funext c
    exact congrFun (ih _) _

@[simp] theorem run_each (f : β → Proc σ L ε Unit) (l : List β) :
    run (each f l) = Prog.each (fun b => run (f b)) l := by
  induction l with
  | nil => rfl
  | cons b bs ih =>
    have h : run (f b >>= fun _ => each f bs) = _ := run_andThen (f b) fun _ => each f bs
    rw [show each f (b :: bs) = f b >>= fun _ => each f bs from rfl, h, ih]
    rfl

end Run

section Record
variable {keep : L → Bool}

@[simp] theorem record_pure (a : α) : record keep (pure a : Proc σ L ε α) = pure a := rfl

@[simp] theorem record_fail (e : ε) : record keep (fail e : Proc σ L ε α) = Prog.fail e := rfl

@[simp] theorem record_andThen (p : Proc σ L ε α) (f : α → Proc σ L ε β) :
    record keep (p >>= f) = record keep p >>= fun a => record keep (f a) := by
  show record keep (andThen p f) = Prog.andThen (record keep p) fun a => record keep (f a)
  induction p with
  | done r => cases r <;> rfl
  | call label next k ih =>
    funext c
    exact congrFun (ih _) _

@[simp] theorem record_attempt (p : Proc σ L ε α) :
    record keep (attempt p : Proc σ L ε' (Except ε α)) = Prog.attempt (record keep p) := by
  induction p with
  | done r => rfl
  | call label next k ih =>
    funext c
    exact congrFun (ih _) _

@[simp] theorem record_wrap (f : ε → ε') (p : Proc σ L ε α) :
    record keep (wrap f p) = Prog.wrap f (record keep p) := by
  induction p with
  | done r => cases r <;> rfl
  | call label next k ih =>
    funext c
    exact congrFun (ih _) _

@[simp] theorem record_each (f : β → Proc σ L ε Unit) (l : List β) :
    record keep (each f l) = Prog.each (fun b => record keep (f b)) l := by
  induction l with
  | nil => rfl
  | cons b bs ih =>
    have h : record keep (f b >>= fun _ => each f bs) = _ := record_andThen (f b) fun _ => each f bs
    rw [show each f (b :: bs) = f b >>= fun _ => each f bs from rfl, h, ih]
    rfl

theorem record_atom (label : Except ε α → L) (m : Prog σ ε α) (s : σ) (tr : List L) (fs : List Bool) :
    record keep (atom label m) ⟨(s, tr), fs⟩ = ((m ⟨s, fs⟩).1,
      ⟨((m ⟨s, fs⟩).2.store, tr ++ [label (m ⟨s, fs⟩).1].filter keep), (m ⟨s, fs⟩).2.faults⟩) := rfl

/-- One call of a process run alone. -/
theorem wp_record_atom {label : Except ε α → L} {m : Prog σ ε α} {Q : α → σ × List L → Prop}
    {E : ε → σ × List L → Prop} {s : σ} {tr : List L}
    (h : wp m (fun a s' => Q a (s', tr ++ [label (.ok a)].filter keep))
      (fun e s' => E e (s', tr ++ [label (.error e)].filter keep)) s) :
    wp (record keep (atom label m)) Q E (s, tr) := by
  intro fs
  have hm := h fs
  rw [record_atom]
  rcases hr : m ⟨s, fs⟩ with ⟨a | e, c⟩ <;> rw [hr] at hm <;> exact hm

end Record

end Proc

open Proc

/-! ### Protocols -/

/-- How a process may behave: its phase moves on with the labels it shows, and `allowed` says what a
call may do to the store. -/
structure Protocol (Ph σ L : Type) where
  advance : Ph → L → Ph
  allowed : Ph → σ → L → σ → Prop

/-- Whatever the others do to the store in between, the process keeps to the protocol from phase `ph` on,
and ends in `Q`. -/
def Follows (P : Protocol Ph σ L) : Proc σ L ε α → (Except ε α → Ph → Prop) → Ph → Prop
  | .done r, Q, ph => Q r ph
  | .call label next k, Q, ph => ∀ c, P.allowed ph c.store (label c) (next c).store ∧
      Follows P (k c) Q (P.advance ph (label c))

section Follows
variable {P : Protocol Ph σ L} {Q Q' : Except ε α → Ph → Prop} {ph : Ph}

/-- A process that has ended, has ended in `Q`. -/
theorem Follows.result {p : Proc σ L ε α} {r : Except ε α} (h : Follows P p Q ph) (hr : p.result = some r) :
    Q r ph := by
  cases p with
  | done r' => cases hr; exact h
  | call => cases hr

theorem Follows.mono {p : Proc σ L ε α} (h : Follows P p Q ph) (hQ : ∀ r ph', Q r ph' → Q' r ph') :
    Follows P p Q' ph := by
  induction p generalizing ph with
  | done r => exact hQ _ _ h
  | call label next k ih => exact fun c => ⟨(h c).1, ih c (h c).2⟩

/-- One call: it is allowed whatever the store, and the next phase follows from its label. -/
theorem follows_atom {label : Except ε α → L} {m : Prog σ ε α}
    (h : ∀ c, P.allowed ph c.store (label (m c).1) (m c).2.store ∧
      Q (m c).1 (P.advance ph (label (m c).1))) : Follows P (atom label m) Q ph := h

theorem follows_andThen {p : Proc σ L ε α} {f : α → Proc σ L ε β} {R : Except ε β → Ph → Prop}
    (h : Follows P p (fun r ph' => match r with
      | .ok a => Follows P (f a) R ph'
      | .error e => R (.error e) ph') ph) : Follows P (p >>= f) R ph := by
  show Follows P (andThen p f) R ph
  induction p generalizing ph with
  | done r => cases r <;> exact h
  | call label next k ih => exact fun c => ⟨(h c).1, ih c (h c).2⟩

/-- What a process does does not depend on what becomes of its value. -/
theorem follows_of_forget {p : Proc σ L ε α} {R : Ph → Prop}
    (h : Follows P (p >>= fun _ => (pure () : Proc σ L ε Unit)) (fun _ => R) ph) : Follows P p (fun _ => R) ph := by
  have hforget : Follows P (andThen p fun _ => (pure () : Proc σ L ε Unit)) (fun _ => R) ph := h
  clear h
  induction p generalizing ph with
  | done r => cases r <;> exact hforget
  | call label next k ih => exact fun c => ⟨(hforget c).1, ih c (hforget c).2⟩

theorem follows_attempt {p : Proc σ L ε α} {R : Except ε' (Except ε α) → Ph → Prop}
    (h : Follows P p (fun r => R (.ok r)) ph) :
    Follows P (attempt p : Proc σ L ε' (Except ε α)) R ph := by
  induction p generalizing ph with
  | done r => exact h
  | call label next k ih => exact fun c => ⟨(h c).1, ih c (h c).2⟩

/-- The loop rule: each iteration keeps the phase in `I`. -/
theorem follows_each {f : β → Proc σ L ε Unit} {R : Except ε Unit → Ph → Prop} (I : Ph → Prop)
    {l : List β} (step : ∀ b ∈ l, ∀ ph, I ph → Follows P (f b) (fun r ph' => match r with
      | .ok _ => I ph'
      | .error e => R (.error e) ph') ph)
    (h : I ph) (hR : ∀ ph', I ph' → R (.ok ()) ph') : Follows P (each f l) R ph := by
  induction l generalizing ph with
  | nil => exact hR _ h
  | cons b bs ih =>
    refine follows_andThen (p := f b) (f := fun _ => each f bs) ?_
    refine (step b (by simp) ph h).mono fun r ph' hr => ?_
    cases r with
    | ok _ => exact ih (fun b' hb' => step b' (by simp [hb'])) hr
    | error e => exact hr

end Follows

/-- A process that keeps to a protocol and runs alone: what its allowed steps preserve holds at its end. -/
theorem Follows.wp_record {p : Proc σ L ε α} {keep : L → Bool} {Q : Except ε α → Ph → Prop} {ph : Ph}
    {P : Protocol Ph σ L} (I : Ph → σ × List L → Prop) (h : Follows P p Q ph) {st : σ × List L}
    (hI : I ph st)
    (step : ∀ ph s tr l s', P.allowed ph s l s' → I ph (s, tr) →
      I (P.advance ph l) (s', tr ++ [l].filter keep)) :
    wp (record keep p) (fun a st' => ∃ ph', Q (.ok a) ph' ∧ I ph' st')
      (fun e st' => ∃ ph', Q (.error e) ph' ∧ I ph' st') st := by
  induction p generalizing ph st with
  | done r =>
    intro fs
    cases r <;> exact ⟨ph, h, hI⟩
  | call label next k ih =>
    intro fs
    obtain ⟨hallowed, hk⟩ := h ⟨st.1, fs⟩
    exact ih ⟨st.1, fs⟩ hk (step ph st.1 st.2 _ _ hallowed hI) _

/-! ### Histories

`observe` shows each call together with the store before and after it, so that a protocol can judge a
call by everything the process did and saw before. -/

/-- A call as it happened: the store and the faults before it, its label, and the store after it. -/
structure Seen (σ L : Type) where
  before : Conn σ
  label : L
  after : σ

/-- The process with its calls shown as they happen. -/
def Proc.observe : Proc σ L ε α → Proc σ (Seen σ L) ε α
  | .done r => .done r
  | .call label next k => .call (fun c => ⟨c, label c, (next c).store⟩) next fun c => (k c).observe

/-- The protocol of a process whose calls are all `ok` after its calls so far. -/
def Protocol.ofHistory (ok : List (Seen σ L) → Seen σ L → Prop) :
    Protocol (List (Seen σ L)) σ (Seen σ L) where
  advance h c := h ++ [c]
  allowed h s c s' := c.before.store = s ∧ c.after = s' ∧ ok h c

section Observe
variable {ok : List (Seen σ L) → Seen σ L → Prop} {h : List (Seen σ L)}

@[simp] theorem observe_andThen (p : Proc σ L ε α) (f : α → Proc σ L ε β) :
    (p >>= f).observe = p.observe >>= fun a => (f a).observe := by
  show (andThen p f).observe = andThen p.observe fun a => (f a).observe
  induction p with
  | done r => cases r <;> rfl
  | call label next k ih =>
    simp only [andThen, Proc.observe, Proc.call.injEq, true_and]
    funext c
    exact ih c

@[simp] theorem observe_attempt (p : Proc σ L ε α) :
    (attempt p : Proc σ L ε' (Except ε α)).observe = attempt p.observe := by
  induction p with
  | done r => rfl
  | call label next k ih =>
    simp only [attempt, Proc.observe, Proc.call.injEq, true_and]
    funext c
    exact ih c

/-- One call of an observed process. -/
theorem follows_observe_atom {label : Except ε α → L} {m : Prog σ ε α}
    {Q : Except ε α → List (Seen σ L) → Prop}
    (hm : ∀ c, ok h ⟨c, label (m c).1, (m c).2.store⟩ ∧
      Q (m c).1 (h ++ [⟨c, label (m c).1, (m c).2.store⟩])) :
    Follows (Protocol.ofHistory ok) (atom label m).observe Q h :=
  fun c => ⟨⟨rfl, rfl, (hm c).1⟩, (hm c).2⟩

/-- Every process has a history. -/
theorem follows_any {p : Proc σ L ε α} :
    Follows (Protocol.ofHistory fun _ _ => True) p.observe (fun _ _ => True) h := by
  induction p generalizing h with
  | done r => exact trivial
  | call label next k ih => exact fun c => ⟨⟨rfl, rfl, trivial⟩, ih c⟩

/-- A history only grows. -/
theorem Follows.grows {p : Proc σ (Seen σ L) ε α} {Q : Except ε α → List (Seen σ L) → Prop}
    (hp : Follows (Protocol.ofHistory ok) p Q h) :
    Follows (Protocol.ofHistory ok) p (fun r h' => Q r h' ∧ h <+: h') h := by
  induction p generalizing h with
  | done r => exact ⟨hp, List.prefix_rfl⟩
  | call label next k ih =>
    refine fun c => ⟨(hp c).1, (ih c (hp c).2).mono fun r h' hQ => ⟨hQ.1, ?_⟩⟩
    exact (List.prefix_append _ _).trans hQ.2

/-- Two things known of the calls of one process. -/
theorem Follows.and {ok' : List (Seen σ L) → Seen σ L → Prop} {p : Proc σ (Seen σ L) ε α}
    {Q Q' : Except ε α → List (Seen σ L) → Prop} (hp : Follows (Protocol.ofHistory ok) p Q h)
    (hp' : Follows (Protocol.ofHistory ok') p Q' h) :
    Follows (Protocol.ofHistory fun h c => ok h c ∧ ok' h c) p (fun r h => Q r h ∧ Q' r h) h := by
  induction p generalizing h with
  | done r => exact ⟨hp, hp'⟩
  | call label next k ih =>
    refine fun c => ⟨?_, ih c (hp c).2 (hp' c).2⟩
    obtain ⟨⟨hs, hs', hok⟩, -⟩ := hp c
    exact ⟨hs, hs', hok, (hp' c).1.2.2⟩

end Observe

/-! ### Endings

`ending` shows with each call how the process ends, if it ends with that call. -/

/-- The process with its end shown. -/
def Proc.ending : Proc σ L ε α → Proc σ (L × Option (Except ε α)) ε α
  | .done r => .done r
  | .call label next k => .call (fun c => (label c, (k c).result)) next fun c => (k c).ending

/-- The protocol of a process that shows its end, which is in `Q`. -/
def Protocol.ending (P : Protocol Ph σ L) (Q : Except ε α → Ph → Prop) :
    Protocol Ph σ (L × Option (Except ε α)) where
  advance ph l := P.advance ph l.1
  allowed ph s l s' := P.allowed ph s l.1 s' ∧ ∀ r, l.2 = some r → Q r (P.advance ph l.1)

theorem Follows.ending {P : Protocol Ph σ L} {p : Proc σ L ε α} {Q : Except ε α → Ph → Prop} {ph : Ph}
    (hp : Follows P p Q ph) : Follows (P.ending Q) p.ending Q ph := by
  induction p generalizing ph with
  | done r => exact hp
  | call label next k ih => exact fun c => ⟨⟨(hp c).1, fun r hr => (hp c).2.result hr⟩, ih c (hp c).2⟩

/-! ### Pools -/

/-- Processes on one store. -/
structure Pool (ι σ L ε α : Type) where
  store : σ
  proc : ι → Proc σ L ε α

section Pool
variable [DecidableEq ι]

/-- A run from `S`: process by process the calls made, with any faults, and what they showed. -/
inductive Run (S : Pool ι σ L ε α) : List (ι × L) → Pool ι σ L ε α → Prop
  | nil : Run S [] S
  | step {tr : List (ι × L)} {T : Pool ι σ L ε α} (i : ι) (faults : List Bool)
      {label : Conn σ → L} {next : Conn σ → Conn σ} {k : Conn σ → Proc σ L ε α} (h : Run S tr T)
      (hi : T.proc i = .call label next k) :
      Run S (tr ++ [(i, label ⟨T.store, faults⟩)])
        ⟨(next ⟨T.store, faults⟩).store, Function.update T.proc i (k ⟨T.store, faults⟩)⟩

/-- The phase a process has reached: the labels it showed, taken in order. -/
def Protocol.phase (P : Protocol Ph σ L) (init : Ph) (i : ι) (tr : List (ι × L)) : Ph :=
  ((tr.filter fun e => e.1 = i).map Prod.snd).foldl P.advance init

variable {P : Protocol Ph σ L} {init : Ph} {i j : ι} {l : L} {tr : List (ι × L)}

theorem Protocol.phase_self : P.phase init i (tr ++ [(i, l)]) = P.advance (P.phase init i tr) l := by
  simp [Protocol.phase]

theorem Protocol.phase_other (h : i ≠ j) : P.phase init j (tr ++ [(i, l)]) = P.phase init j tr := by
  simp [Protocol.phase, h]

/-- The calls of one process, in the order they happened. -/
def history (i : ι) (tr : List (ι × L)) : List L := (tr.filter fun e => e.1 = i).map Prod.snd

theorem phase_ofHistory {ok : List (Seen σ L) → Seen σ L → Prop} {h : List (Seen σ L)}
    {tr : List (ι × Seen σ L)} : (Protocol.ofHistory ok).phase h i tr = h ++ history i tr := by
  have hfold : ∀ (l h : List (Seen σ L)), l.foldl (Protocol.ofHistory ok).advance h = h ++ l := by
    intro l
    induction l with
    | nil => exact fun h => (List.append_nil h).symm
    | cons c l ih =>
      intro h
      rw [List.foldl_cons, ih]
      simp [Protocol.ofHistory]
  exact hfold _ h

theorem history_append {tr tr' : List (ι × L)} : history i (tr ++ tr') = history i tr ++ history i tr' := by
  simp [history]

theorem mem_history {tr : List (ι × L)} {c : L} : c ∈ history i tr ↔ (i, c) ∈ tr := by
  simp only [history, List.mem_map, List.mem_filter, decide_eq_true_eq]
  refine ⟨?_, fun h => ⟨(i, c), ⟨h, rfl⟩, rfl⟩⟩
  rintro ⟨⟨j, c'⟩, ⟨h, rfl⟩, rfl⟩
  exact h

/-- **The rule for runs.** If every process keeps to its protocol, an invariant of the labels shown so
far and the store that every allowed step preserves holds throughout, and every process still keeps to
its protocol from the phase it has reached. -/
theorem Run.invariant {S T : Pool ι σ L ε α} {P : ι → Protocol Ph σ L} {start : ι → Ph}
    {Q : ι → Except ε α → Ph → Prop} (I : List (ι × L) → σ → Prop) (hrun : Run S tr T)
    (hfollows : ∀ i, Follows (P i) (S.proc i) (Q i) (start i)) (h : I [] S.store)
    (step : ∀ tr i l s s', (P i).allowed ((P i).phase (start i) i tr) s l s' → I tr s →
      I (tr ++ [(i, l)]) s') :
    I tr T.store ∧ ∀ i, Follows (P i) (T.proc i) (Q i) ((P i).phase (start i) i tr) := by
  induction hrun with
  | nil => exact ⟨h, hfollows⟩
  | @step tr T i faults label next k _ hi ih =>
    obtain ⟨hI, hf⟩ := ih
    have hfi := hf i
    rw [hi] at hfi
    obtain ⟨hallowed, hk⟩ := hfi ⟨T.store, faults⟩
    refine ⟨step tr i _ _ _ hallowed hI, fun j => ?_⟩
    by_cases hij : i = j
    · subst hij
      simp only [Function.update_self]
      rw [Protocol.phase_self]
      exact hk
    · simp only [Function.update_of_ne (Ne.symm hij)]
      rw [Protocol.phase_other hij]
      exact hf j

/-- The rule for runs of observed processes that go on from histories `start`. -/
theorem Run.history {S T : Pool ι σ (Seen σ L) ε α} {tr : List (ι × Seen σ L)}
    {ok : ι → List (Seen σ L) → Seen σ L → Prop} {start : ι → List (Seen σ L)}
    {Q : ι → Except ε α → List (Seen σ L) → Prop} (I : List (ι × Seen σ L) → σ → Prop)
    (hrun : Run S tr T)
    (hfollows : ∀ i, Follows (Protocol.ofHistory (ok i)) (S.proc i) (Q i) (start i)) (h : I [] S.store)
    (step : ∀ tr i c, ok i (start i ++ Process.history i tr) c → I tr c.before.store →
      I (tr ++ [(i, c)]) c.after) :
    I tr T.store ∧ ∀ i, Follows (Protocol.ofHistory (ok i)) (T.proc i) (Q i)
      (start i ++ Process.history i tr) := by
  have hinv := hrun.invariant (P := fun i => Protocol.ofHistory (ok i)) I hfollows h ?_
  · simpa only [phase_ofHistory] using hinv
  · rintro tr i c s s' ⟨rfl, rfl, hok⟩ hI
    rw [phase_ofHistory] at hok
    exact step tr i c hok hI

/-- The calls of a trace that shows endings. -/
def moments (tr : List (ι × L × Option (Except ε α))) : List (ι × L) := tr.map fun e => (e.1, e.2.1)

/-- The rule for runs of observed processes that show their ends. -/
theorem Run.history_ending {S T : Pool ι σ (Seen σ L × Option (Except ε α)) ε α}
    {tr : List (ι × Seen σ L × Option (Except ε α))} {ok : ι → List (Seen σ L) → Seen σ L → Prop}
    {Q : ι → Except ε α → List (Seen σ L) → Prop}
    (I : List (ι × Seen σ L × Option (Except ε α)) → σ → Prop) (hrun : Run S tr T)
    (hfollows : ∀ i, Follows ((Protocol.ofHistory (ok i)).ending (Q i)) (S.proc i) (Q i) [])
    (h : I [] S.store)
    (step : ∀ tr i c e, ok i (Process.history i (moments tr)) c →
      (∀ r, e = some r → Q i r (Process.history i (moments tr) ++ [c])) → I tr c.before.store →
      I (tr ++ [(i, c, e)]) c.after) : I tr T.store := by
  have hphase : ∀ (tr : List (ι × Seen σ L × Option (Except ε α))) (i : ι),
      ((Protocol.ofHistory (ok i)).ending (Q i)).phase [] i tr = Process.history i (moments tr) := by
    intro tr i
    induction tr using List.reverseRecOn with
    | nil => rfl
    | append_singleton tr e ih =>
      obtain ⟨j, c, r⟩ := e
      rw [moments, List.map_append, history_append, ← moments]
      by_cases hji : j = i
      · subst hji
        rw [Protocol.phase_self, ih]
        simp [Protocol.ending, Protocol.ofHistory, Process.history]
      · rw [Protocol.phase_other hji, ih]
        simp [Process.history, hji]
  refine (hrun.invariant (P := fun i => (Protocol.ofHistory (ok i)).ending (Q i)) I hfollows h ?_).1
  rintro tr i ⟨c, e⟩ s s' ⟨⟨rfl, rfl, hok⟩, hend⟩ hI
  rw [hphase] at hok hend
  exact step tr i c e hok hend hI

/-- Every label of a run was allowed where it was shown. -/
theorem Run.allowed {S T : Pool ι σ L ε α} {P : ι → Protocol Ph σ L} {start : ι → Ph}
    {Q : ι → Except ε α → Ph → Prop} (hrun : Run S tr T)
    (hfollows : ∀ i, Follows (P i) (S.proc i) (Q i) (start i)) :
    ∀ before rest i l, tr = before ++ (i, l) :: rest →
      ∃ s s', (P i).allowed ((P i).phase (start i) i before) s l s' := by
  refine (hrun.invariant (fun tr _ => ∀ before rest i l, tr = before ++ (i, l) :: rest →
    ∃ s s', (P i).allowed ((P i).phase (start i) i before) s l s') hfollows (by simp) ?_).1
  intro tr i l s s' hallowed ih before rest j l' htr
  rcases List.eq_nil_or_concat rest with rfl | ⟨rest, e, rfl⟩
  · obtain ⟨rfl, h⟩ := List.append_inj' htr rfl
    cases h
    exact ⟨s, s', hallowed⟩
  · rw [List.concat_eq_append, ← List.cons_append, ← List.append_assoc] at htr
    exact ih before rest j l' (List.append_inj' htr rfl).1

/-! ### Schedules -/

/-- Run by a schedule: which process makes its next call, and which statements of it fail. -/
def Pool.exec (S : Pool ι σ L ε α) : List (ι × List Bool) → List (ι × L) × Pool ι σ L ε α
  | [] => ([], S)
  | (i, faults) :: rest => match S.proc i with
    | .done _ => S.exec rest
    | .call label next k =>
      let c : Conn σ := ⟨S.store, faults⟩
      let r := Pool.exec ⟨(next c).store, Function.update S.proc i (k c)⟩ rest
      ((i, label c) :: r.1, r.2)

theorem Run.append_exec {S T : Pool ι σ L ε α} (h : Run S tr T) (schedule : List (ι × List Bool)) :
    Run S (tr ++ (T.exec schedule).1) (T.exec schedule).2 := by
  induction schedule generalizing tr T with
  | nil => simpa [Pool.exec] using h
  | cons e rest ih =>
    obtain ⟨i, faults⟩ := e
    unfold Pool.exec
    split
    · exact ih h
    · rename_i label next k hi
      simpa using ih (Run.step i faults h hi)

omit [DecidableEq ι] in
/-- A trace around the call at one place of it, of which something is known. -/
theorem trace_split {β : Type} (f : L → β) {tr : List (ι × L)} {n : ℕ} {i : ι} {b : β}
    (hi : (tr.map fun e => (e.1, f e.2))[n]? = some (i, b)) :
    ∃ l, f l = b ∧ tr = tr.take n ++ (i, l) :: tr.drop (n + 1) := by
  rw [List.getElem?_map, Option.map_eq_some_iff] at hi
  obtain ⟨⟨j, l⟩, hget, hjl⟩ := hi
  cases hjl
  obtain ⟨hn, hl⟩ := List.getElem?_eq_some_iff.mp hget
  exact ⟨l, rfl, by rw [← hl, ← List.drop_eq_getElem_cons hn, List.take_append_drop]⟩

/-- A schedule gives a run. -/
theorem Pool.run_exec (S : Pool ι σ L ε α) (schedule : List (ι × List Bool)) :
    Run S (S.exec schedule).1 (S.exec schedule).2 := 
  Run.append_exec (.nil : Run S [] S) schedule

end Pool

end Tilbo.Lib.Process
