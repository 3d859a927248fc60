import Tilbo.Lib.Process

/-! # Processes that take turns

Some processes of a pool share something that the others leave alone: a `view` of the store. If they take
turns, each of them can be judged as if it ran alone, as far as the view goes. `Through` is what holds of
such a process, call by call; there is one rule for each way to build a process, and `Follows.through` gives
the rule for parts that leave the view alone. `Run.turns` is the rule for runs: what every process
preserves from its start to its end holds whenever none of them is under way. -/

namespace Tilbo.Lib.Process

open Tilbo.Lib.Txn Tilbo.Lib.Process.Proc

variable {σ L ε ε' α β ι Ph Ph' V : Type}

/-! ### Two protocols at once -/

/-- Both protocols, each with its phase. -/
def Protocol.both (P : Protocol Ph σ L) (P' : Protocol Ph' σ L) : Protocol (Ph × Ph') σ L where
  advance ph l := (P.advance ph.1 l, P'.advance ph.2 l)
  allowed ph s l s' := P.allowed ph.1 s l s' ∧ P'.allowed ph.2 s l s'

theorem Follows.both {P : Protocol Ph σ L} {P' : Protocol Ph' σ L} {p : Proc σ L ε α}
    {Q : Except ε α → Ph → Prop} {Q' : Except ε α → Ph' → Prop} {ph : Ph} {ph' : Ph'} (h : Follows P p Q ph)
    (h' : Follows P' p Q' ph') : Follows (P.both P') p (fun r x => Q r x.1 ∧ Q' r x.2) (ph, ph') := by
  induction p generalizing ph ph' with
  | done r => exact ⟨h, h'⟩
  | call label next k ih => exact fun c => ⟨⟨(h c).1, (h' c).1⟩, ih c (h c).2 (h' c).2⟩

/-- The protocol of the observed process. -/
def Protocol.observed (P : Protocol Ph σ L) : Protocol Ph σ (Seen σ L) where
  advance ph c := P.advance ph c.label
  allowed ph s c s' := c.before.store = s ∧ c.after = s' ∧ P.allowed ph s c.label s'

theorem Follows.observed {P : Protocol Ph σ L} {p : Proc σ L ε α} {Q : Except ε α → Ph → Prop} {ph : Ph}
    (h : Follows P p Q ph) : Follows P.observed p.observe Q ph := by
  induction p generalizing ph with
  | done r => exact h
  | call label next k ih => exact fun c => ⟨⟨rfl, rfl, (h c).1⟩, ih c (h c).2⟩

/-! ### A process and its view -/

/-- The process goes on after the calls `h`, with `v` in view, and ends in `Q`; its calls may be expected to
meet `C`, and between them the view stays. -/
def Through (view : σ → V) (C : List (Seen σ L) → Seen σ L → Prop) :
    Proc σ L ε α → (Except ε α → List (Seen σ L) → V → Prop) → List (Seen σ L) → V → Prop
  | .done r, Q, h, v => Q r h v
  | .call label next k, Q, h, v => ∀ c, view c.store = v → C h ⟨c, label c, (next c).store⟩ →
      Through view C (k c) Q (h ++ [⟨c, label c, (next c).store⟩]) (view (next c).store)

section Through
variable {view : σ → V} {C : List (Seen σ L) → Seen σ L → Prop} {h : List (Seen σ L)} {v : V}
  {Q Q' : Except ε α → List (Seen σ L) → V → Prop}

theorem Through.mono {p : Proc σ L ε α} (hp : Through view C p Q h v)
    (hQ : ∀ r h' v', Q r h' v' → Q' r h' v') : Through view C p Q' h v := by
  induction p generalizing h v with
  | done r => exact hQ r h v hp
  | call label next k ih => exact fun c hv hc => ih c (hp c hv hc)

theorem through_andThen {p : Proc σ L ε α} {f : α → Proc σ L ε β}
    {R : Except ε β → List (Seen σ L) → V → Prop}
    (hp : Through view C p (fun r h' v' => match r with
      | .ok a => Through view C (f a) R h' v'
      | .error e => R (.error e) h' v') h v) : Through view C (p >>= f) R h v := by
  show Through view C (andThen p f) R h v
  induction p generalizing h v with
  | done r => cases r <;> exact hp
  | call label next k ih => exact fun c hv hc => ih c (hp c hv hc)

theorem through_attempt {p : Proc σ L ε α} {R : Except ε' (Except ε α) → List (Seen σ L) → V → Prop}
    (hp : Through view C p (fun r => R (.ok r)) h v) :
    Through view C (attempt p : Proc σ L ε' (Except ε α)) R h v := by
  induction p generalizing h v with
  | done r => exact hp
  | call label next k ih => exact fun c hv hc => ih c (hp c hv hc)

/-- One call. -/
theorem through_atom {label : Except ε α → L} {m : Prog σ ε α}
    (hm : ∀ c, view c.store = v → C h ⟨c, label (m c).1, (m c).2.store⟩ →
      Q (m c).1 (h ++ [⟨c, label (m c).1, (m c).2.store⟩]) (view (m c).2.store)) :
    Through view C (atom label m) Q h v := hm

/-- A part whose allowed calls leave the view alone. -/
theorem Follows.through {P : Protocol Ph σ L} {p : Proc σ L ε α} {R : Except ε α → Ph → Prop} {ph : Ph}
    {K : L → Prop} (hp : Follows P p R ph)
    (hstep : ∀ ph s l s', P.allowed ph s l s' → view s' = view s ∧ K l) :
    Through view C p (fun r h' v' => v' = v ∧ (∃ t, h' = h ++ t ∧ ∀ c ∈ t, K c.label) ∧ ∃ ph', R r ph') h v := by
  induction p generalizing ph h v with
  | done r => exact ⟨rfl, ⟨[], (List.append_nil h).symm, fun _ hc => absurd hc List.not_mem_nil⟩, ph, hp⟩
  | call label next k ih =>
    intro c hv _
    obtain ⟨hallowed, hk⟩ := hp c
    obtain ⟨hview, hK⟩ := hstep _ _ _ _ hallowed
    refine (ih c (v := view (next c).store) hk).mono ?_
    rintro r h' v' ⟨rfl, ⟨t, rfl, ht⟩, hR⟩
    refine ⟨hview.trans hv, ⟨_, List.append_assoc _ _ _, fun d hd => ?_⟩, hR⟩
    rcases List.mem_cons.mp hd with rfl | hd
    · exact hK
    · exact ht d hd

/-- The loop rule: `I` holds with what is left of the list. -/
theorem through_each {f : β → Proc σ L ε Unit} {R : Except ε Unit → List (Seen σ L) → V → Prop}
    (I : List β → List (Seen σ L) → V → Prop) {l : List β}
    (step : ∀ b bs h v, I (b :: bs) h v → Through view C (f b) (fun r h' v' => match r with
      | .ok _ => I bs h' v'
      | .error e => R (.error e) h' v') h v)
    (hI : I l h v) (hR : ∀ h' v', I [] h' v' → R (.ok ()) h' v') : Through view C (each f l) R h v := by
  induction l generalizing h v with
  | nil => exact hR h v hI
  | cons b bs ih =>
    refine through_andThen (p := f b) (f := fun _ => each f bs) ?_
    refine (step b bs h v hI).mono fun r h' v' hr => ?_
    cases r with
    | ok _ => exact ih hr
    | error e => exact hr

end Through

/-! ### Runs -/

section Runs
variable [DecidableEq ι]

/-- The process has made no call, or shown its end. -/
def Ended (i : ι) (tr : List (ι × L × Option (Except ε α))) : Prop :=
  ∀ e, (history i tr).getLast? = some e → e.2.isSome

/-- The processes take turns: one of them only makes a call when each of the others has not begun, or has
ended. -/
def TakeTurns (on : ι → Prop) (tr : List (ι × L × Option (Except ε α))) : Prop :=
  ∀ before e rest, tr = before ++ e :: rest → on e.1 → ∀ j, j ≠ e.1 → on j → Ended j before

variable {i j : ι} {e : L × Option (Except ε α)} {tr : List (ι × L × Option (Except ε α))} {on : ι → Prop}

theorem ended_self : Ended i (tr ++ [(i, e)]) ↔ e.2.isSome := by
  have hlast : (history i (tr ++ [(i, e)])).getLast? = some e := by simp [history]
  simp [Ended, hlast]

theorem ended_other (hij : i ≠ j) : Ended j (tr ++ [(i, e)]) ↔ Ended j tr := by
  simp [Ended, history, hij]

theorem TakeTurns.init {d : ι × L × Option (Except ε α)} (h : TakeTurns on (tr ++ [d])) : TakeTurns on tr :=
  fun before e rest htr => h before e (rest ++ [d]) (by rw [htr, List.append_assoc]; rfl)

theorem TakeTurns.last {d : ι × L × Option (Except ε α)} (h : TakeTurns on (tr ++ [d])) :
    on d.1 → ∀ j, j ≠ d.1 → on j → Ended j tr := h tr d [] rfl

theorem history_moments : history i (moments tr) = (history i tr).map Prod.fst := by
  simp only [history, moments, List.filter_map, List.map_map, Function.comp_def]

omit [DecidableEq ι] in
theorem observe_result (p : Proc σ L ε α) : p.observe.result = p.result := by
  cases p <;> rfl

/-- Where a process is that takes turns: it has not begun, it has ended, or it is under way, and goes on with
what is in view. -/
def Status (view : σ → V) (C : List (Seen σ L) → Seen σ L → Prop) (J : V → Prop) (start p : Proc σ L ε α) (i : ι)
    (tr : List (ι × Seen σ L × Option (Except ε α))) (v : V) : Prop :=
  (history i tr = [] ∧ p = start) ∨ (Ended i tr ∧ p.result.isSome) ∨
    (¬ Ended i tr ∧ Through view C p (fun _ _ v => J v) (history i (moments tr)) v)

/-- Where a run is whose processes take turns. -/
structure Turn (view : σ → V) (on : ι → Prop) (C : ι → List (Seen σ L) → Seen σ L → Prop) (J : V → Prop)
    (procs : ι → Proc σ L ε α) (tr : List (ι × Seen σ L × Option (Except ε α)))
    (T : Pool ι σ (Seen σ L × Option (Except ε α)) ε α) : Prop where
  proc : ∀ i, ∃ p : Proc σ L ε α, T.proc i = p.observe.ending ∧
    (on i → Status view (C i) J (procs i) p i tr (view T.store))
  between : (∀ i, on i → Ended i tr) → J (view T.store)

section Turn
variable {view : σ → V} {C : ι → List (Seen σ L) → Seen σ L → Prop} {J : V → Prop} {procs : ι → Proc σ L ε α}
  {tr : List (ι × Seen σ L × Option (Except ε α))} {T : Pool ι σ (Seen σ L × Option (Except ε α)) ε α}

/-- A call of a process whose turn it is. -/
theorem Status.through {p : Proc σ L ε α} (h : Status view (C i) J (procs i) p i tr (view T.store))
    (hthrough : ∀ v, J v → Through view (C i) (procs i) (fun _ _ v => J v) [] v)
    (hothers : ∀ j, j ≠ i → on j → Ended j tr) (hbetween : (∀ i, on i → Ended i tr) → J (view T.store))
    (hp : p.result = none) :
    Through view (C i) p (fun _ _ v => J v) (history i (moments tr)) (view T.store) := by
  rcases h with ⟨hnone, rfl⟩ | ⟨-, hsome⟩ | ⟨-, h⟩
  · have hended : Ended i tr := fun e he => by rw [hnone] at he; cases he
    rw [history_moments, hnone]
    refine hthrough _ (hbetween fun j hj => ?_)
    by_cases hji : j = i
    · exact hji ▸ hended
    · exact hothers j hji hj
  · rw [hp] at hsome
    cases hsome
  · exact h

/-- A call of another process, which leaves the view alone or finds this one ended. -/
theorem Status.other {start p : Proc σ L ε α} {v v' : V} {e : Seen σ L × Option (Except ε α)}
    (h : Status view (C j) J start p j tr v) (hij : i ≠ j) (hv : v' = v ∨ Ended j tr) :
    Status view (C j) J start p j (tr ++ [(i, e)]) v' := by
  have hhistory : history j (tr ++ [(i, e)]) = history j tr := by simp [history, hij]
  rcases h with ⟨hnone, hp⟩ | ⟨hended, hp⟩ | ⟨hnot, hp⟩
  · exact .inl ⟨hhistory.trans hnone, hp⟩
  · exact .inr (.inl ⟨(ended_other hij).mpr hended, hp⟩)
  · rcases hv with rfl | hended
    · refine .inr (.inr ⟨fun h => hnot ((ended_other hij).mp h), ?_⟩)
      rwa [history_moments, hhistory, ← history_moments]
    · exact absurd hended hnot

/-- **One step.** -/
theorem Turn.step {c : Conn σ} {label : Conn σ → L} {next : Conn σ → Conn σ} {k : Conn σ → Proc σ L ε α}
    (h : Turn view on C J procs tr T) (hstore : c.store = T.store)
    (hstatus : on i → Status view (C i) J (procs i) (.call label next k) i tr (view T.store))
    (hthrough : on i → ∀ v, J v → Through view (C i) (procs i) (fun _ _ v => J v) [] v)
    (hkeeps : ¬ on i → view (next c).store = view T.store)
    (hC : on i → C i (history i (moments tr)) ⟨c, label c, (next c).store⟩)
    (hothers : on i → ∀ j, j ≠ i → on j → Ended j tr) :
    Turn view on C J procs (tr ++ [(i, ⟨c, label c, (next c).store⟩, (k c).observe.result)])
      ⟨(next c).store, Function.update T.proc i (k c).observe.ending⟩ := by
  have hgo : on i → Through view (C i) (k c) (fun _ _ v => J v)
      (history i (moments tr) ++ [⟨c, label c, (next c).store⟩]) (view (next c).store) := fun hon =>
    (hstatus hon).through (hthrough hon) (hothers hon) h.between rfl c (by rw [hstore]) (hC hon)
  have hlast : history i (moments (tr ++ [(i, ⟨c, label c, (next c).store⟩, (k c).observe.result)])) =
      history i (moments tr) ++ [⟨c, label c, (next c).store⟩] := by
    rw [moments, List.map_append, history_append]
    simp [moments, history]
  rw [observe_result] at hlast ⊢
  refine ⟨fun j => ?_, fun hended => ?_⟩
  · by_cases hij : i = j
    · subst hij
      refine ⟨k c, Function.update_self .., fun hon => ?_⟩
      cases hk : (k c).result with
      | some r => exact .inr (.inl ⟨ended_self.mpr rfl, by rw [hk]; rfl⟩)
      | none =>
        have hnot : ¬ Ended i (tr ++ [(i, (⟨c, label c, (next c).store⟩ : Seen σ L), (none : Option (Except ε α)))]) :=
          fun hended => Bool.noConfusion (ended_self.mp hended)
        refine .inr (.inr ⟨hnot, ?_⟩)
        rw [hk] at hlast
        rw [hlast]
        exact hgo hon
    · obtain ⟨p, hp, hstatus⟩ := h.proc j
      refine ⟨p, (Function.update_of_ne (Ne.symm hij) ..).trans hp, fun hj => (hstatus hj).other hij ?_⟩
      by_cases hon : on i
      · exact .inr (hothers hon j (Ne.symm hij) hj)
      · exact .inl (hkeeps hon)
  · by_cases hon : on i
    · have hsome := ended_self.mp (hended i hon)
      cases hk : k c with
      | done r =>
        have hJ := hgo hon
        rw [hk] at hJ
        exact hJ
      | call =>
        rw [hk] at hsome
        cases hsome
    · have hview : view (next c).store = view T.store := hkeeps hon
      refine hview ▸ h.between fun j hj => ?_
      have hij : i ≠ j := fun hij => hon (hij ▸ hj)
      exact (ended_other hij).mp (hended j hj)

/-- **The rule for runs** of processes that take turns: when none of them is under way, what they preserve
holds of the view. -/
theorem Run.turns {w : σ} (hrun : Run ⟨w, fun i => (procs i).observe.ending⟩ tr T)
    (hthrough : ∀ i, on i → ∀ v, J v → Through view (C i) (procs i) (fun _ _ v => J v) [] v)
    (hstart : J (view w)) (hkeeps : ∀ e ∈ tr, ¬ on e.1 → view e.2.1.after = view e.2.1.before.store)
    (hC : ∀ before e rest, tr = before ++ e :: rest → on e.1 → C e.1 (Process.history e.1 (moments before)) e.2.1)
    (hturns : TakeTurns on tr) (hended : ∀ i, on i → Ended i tr) : J (view T.store) := by
  suffices hturn : Turn view on C J procs tr T from hturn.between hended
  clear hended
  induction hrun with
  | nil => exact ⟨fun i => ⟨procs i, rfl, fun _ => .inl ⟨rfl, rfl⟩⟩, fun _ => hstart⟩
  | @step tr T i faults label next k hrun hi ih =>
    have hbefore := ih (fun e he => hkeeps e (List.mem_append_left _ he))
      (fun before e rest htr => hC before e (rest ++ [(i, label ⟨T.store, faults⟩)])
        (by rw [htr, List.append_assoc]; rfl)) hturns.init
    obtain ⟨p, hp, hstatus⟩ := hbefore.proc i
    rw [hp] at hi
    cases p with
    | done r => cases hi
    | call label' next' k' =>
      cases hi
      exact hbefore.step (c := ⟨T.store, faults⟩) rfl hstatus (hthrough i)
        (hkeeps _ (List.mem_append_right _ (List.mem_singleton_self _))) (hC tr _ [] rfl) hturns.last

end Turn

end Runs

end Tilbo.Lib.Process
