import Mathlib.Tactic.Common
import Mathlib.Tactic.SplitIfs

/-! # Programs of fallible statements

A program runs statements against a store. Any statement can fail for reasons outside the program, so
a connection carries, next to the store, one flag for each statement still to come: `true` makes that
statement fail without touching the store (a missing flag is `false`). What earlier statements wrote
stays written after a failure, unless the program is run `atomically`.

`wp m Q E s` is the weakest precondition over all flags: whatever fails, the program started in `s`
ends with a value in `Q` or with an error in `E`. The rules below have one entry for each way to build
a program; `wp_each` is the loop rule, with an invariant on the part of the list already done. -/

namespace Tilbo.Lib.Txn

variable {σ ε ε' α β : Type}

/-- A store, and which of the coming statements fail. -/
structure Conn (σ : Type) where
  store : σ
  faults : List Bool := []

/-- A program over the store. -/
def Prog (σ ε α : Type) : Type := Conn σ → Except ε α × Conn σ

namespace Prog

/-- Return a value. -/
def ret (a : α) : Prog σ ε α := fun c => (.ok a, c)

/-- Run `m`, and `k` on its value. -/
def andThen (m : Prog σ ε α) (k : α → Prog σ ε β) : Prog σ ε β := fun c =>
  match m c with
  | (.ok a, c') => k a c'
  | (.error e, c') => (.error e, c')

instance : Monad (Prog σ ε) where
  pure := ret
  bind := andThen

/-- End with an error. -/
def fail (e : ε) : Prog σ ε α := fun c => (.error e, c)

/-- One statement: `fault` is its error if its flag is set. -/
def stmt (fault : ε) (f : σ → Except ε (α × σ)) : Prog σ ε α := fun c =>
  let rest := c.faults.tail
  if c.faults.headD false then (.error fault, { c with faults := rest })
  else match f c.store with
    | .ok (a, s) => (.ok a, ⟨s, rest⟩)
    | .error e => (.error e, { c with faults := rest })

/-- Read the store; this cannot fail. -/
def peek (f : σ → α) : Prog σ ε α := fun c => (.ok (f c.store), c)

/-- Change the store; this cannot fail. -/
def modify (f : σ → σ) : Prog σ ε Unit := fun c => (.ok (), { c with store := f c.store })

/-- Rename the error. -/
def wrap (f : ε → ε') (m : Prog σ ε α) : Prog σ ε' α := fun c =>
  match m c with
  | (.ok a, c') => (.ok a, c')
  | (.error e, c') => (.error (f e), c')

/-- Go on after an error, with the error in hand. -/
def attempt (m : Prog σ ε α) : Prog σ ε' (Except ε α) := fun c => (.ok (m c).1, (m c).2)

/-- Put the store back as it was if `m` fails. -/
def orRollback (m : Prog σ ε α) : Prog σ ε α := fun c =>
  match m c with
  | (.ok a, c') => (.ok a, c')
  | (.error e, c') => (.error e, { c' with store := c.store })

/-- `m` as a transaction: its begin and its commit are statements too. -/
def atomically (begin commit : ε) (m : Prog σ ε α) : Prog σ ε α := orRollback do
  stmt begin fun s => .ok ((), s)
  let a ← m
  stmt commit fun s => .ok ((), s)
  return a

/-- Run `f` on each element. -/
def each (f : β → Prog σ ε Unit) : List β → Prog σ ε Unit
  | [] => ret ()
  | b :: bs => andThen (f b) fun _ => each f bs

/-- `m` on a part of a larger store. -/
def zoom {τ : Type} (get : τ → σ) (set : σ → τ → τ) (m : Prog σ ε α) : Prog τ ε α := fun c =>
  ((m ⟨get c.store, c.faults⟩).1,
    ⟨set (m ⟨get c.store, c.faults⟩).2.store c.store, (m ⟨get c.store, c.faults⟩).2.faults⟩)

end Prog

open Prog

/-! ### Weakest preconditions -/

/-- Whatever fails, `m` from `s` ends with a value in `Q` or an error in `E`. -/
def wp (m : Prog σ ε α) (Q : α → σ → Prop) (E : ε → σ → Prop) (s : σ) : Prop :=
  ∀ fs, match m ⟨s, fs⟩ with
    | (.ok a, c) => Q a c.store
    | (.error e, c) => E e c.store

variable {m : Prog σ ε α} {k : α → Prog σ ε β} {Q Q' : α → σ → Prop} {R : β → σ → Prop}
  {E E' : ε → σ → Prop} {s : σ}

theorem wp.ok (h : wp m Q E s) {fs : List Bool} {a : α} {c : Conn σ} (hm : m ⟨s, fs⟩ = (.ok a, c)) :
    Q a c.store := by
  have := h fs
  rwa [hm] at this

theorem wp.error (h : wp m Q E s) {fs : List Bool} {e : ε} {c : Conn σ}
    (hm : m ⟨s, fs⟩ = (.error e, c)) : E e c.store := by
  have := h fs
  rwa [hm] at this

theorem wp.mono (h : wp m Q E s) (hQ : ∀ a s', Q a s' → Q' a s') (hE : ∀ e s', E e s' → E' e s') :
    wp m Q' E' s := by
  intro fs
  have := h fs
  split at this
  · exact hQ _ _ this
  · exact hE _ _ this

theorem wp.and (h : wp m Q E s) (h' : wp m Q' E' s) :
    wp m (fun a s' => Q a s' ∧ Q' a s') (fun e s' => E e s' ∧ E' e s') s := by
  intro fs
  have h₁ := h fs
  have h₂ := h' fs
  split <;> rename_i hm
  · rw [hm] at h₁ h₂
    exact ⟨h₁, h₂⟩
  · rw [hm] at h₁ h₂
    exact ⟨h₁, h₂⟩

theorem wp_ret {a : α} (h : Q a s) : wp (pure a : Prog σ ε α) Q E s := fun _ => h

theorem wp_fail {e : ε} (h : E e s) : wp (fail e : Prog σ ε α) Q E s := fun _ => h

theorem wp_andThen (h : wp m (fun a s' => wp (k a) R E s') E s) : wp (m >>= k) R E s := by
  intro fs
  have hm := h fs
  show match andThen m k ⟨s, fs⟩ with
    | (.ok a, c) => R a c.store
    | (.error e, c) => E e c.store
  unfold andThen
  split at hm
  · exact hm _
  · exact hm

theorem wp_stmt {fault : ε} {f : σ → Except ε (α × σ)} (hfault : E fault s)
    (hf : match f s with
      | .ok (a, s') => Q a s'
      | .error e => E e s) : wp (stmt fault f) Q E s := by
  intro fs
  simp only [stmt]
  split_ifs
  · exact hfault
  · split at hf <;> exact hf

theorem wp_peek {f : σ → α} (h : Q (f s) s) : wp (peek f : Prog σ ε α) Q E s := fun _ => h

theorem wp_modify {f : σ → σ} {Q : Unit → σ → Prop} (h : Q () (f s)) :
    wp (modify f : Prog σ ε Unit) Q E s := fun _ => h

theorem wp_wrap {f : ε → ε'} {E : ε' → σ → Prop} (h : wp m Q (fun e => E (f e)) s) :
    wp (wrap f m) Q E s := by
  intro fs
  have hm := h fs
  unfold wrap
  split at hm <;> exact hm

theorem wp_attempt {Q : Except ε α → σ → Prop} {E : ε' → σ → Prop}
    (h : wp m (fun a => Q (.ok a)) (fun e => Q (.error e)) s) : wp (attempt m) Q E s := by
  intro fs
  have hm := h fs
  show Q (m ⟨s, fs⟩).1 (m ⟨s, fs⟩).2.store
  rcases hr : m ⟨s, fs⟩ with ⟨a | e, c⟩ <;> rw [hr] at hm <;> exact hm

theorem wp_orRollback (h : wp m Q (fun e _ => E e s) s) : wp (orRollback m) Q E s := by
  intro fs
  have hm := h fs
  unfold orRollback
  split at hm <;> exact hm

theorem wp_zoom {τ : Type} {get : τ → σ} {set : σ → τ → τ} {t : τ} {Q : α → τ → Prop} {E : ε → τ → Prop}
    (h : wp m (fun a s => Q a (set s t)) (fun e s => E e (set s t)) (get t)) :
    wp (zoom get set m) Q E t := by
  intro fs
  have hm := h fs
  unfold zoom
  rcases hr : m ⟨get t, fs⟩ with ⟨a | e, c⟩ <;> rw [hr] at hm <;> exact hm

/-- **A transaction is all or nothing.** Its errors leave the store as it was. -/
theorem wp_atomically {begin commit : ε} (h : wp m Q (fun _ _ => True) s) :
    wp (atomically begin commit m) Q (fun _ s' => s' = s) s := by
  refine wp_orRollback (wp_andThen (wp_stmt rfl ?_))
  refine wp_andThen (h.mono (fun a s' hQ => ?_) fun _ _ _ => rfl)
  exact wp_andThen (wp_stmt rfl (wp_ret hQ))

/-- **The loop rule.** The invariant speaks of the part of the list that is done; an iteration knows
what is left. -/
theorem wp_each {f : β → Prog σ ε Unit} {E : ε → σ → Prop} (I : List β → σ → Prop) {l : List β}
    (step : ∀ done b rest s', l = done ++ b :: rest → I done s' →
      wp (f b) (fun _ => I (done ++ [b])) E s') (h : I [] s) :
    wp (each f l) (fun _ => I l) E s := by
  suffices ∀ (rest done : List β) (s : σ), l = done ++ rest → I done s →
      wp (each f rest) (fun _ => I l) E s from this l [] s rfl h
  intro rest
  induction rest with
  | nil => intro done s hl h; exact wp_ret (by rw [hl, List.append_nil]; exact h)
  | cons b bs ih =>
    intro done s hl h
    refine wp_andThen ((step done b bs s hl h).mono (fun _ s' h' => ?_) fun _ _ h' => h')
    exact ih (done ++ [b]) s' (by simpa using hl) h'

/-! ### What a run does -/

section Run
variable {ε'' : Type} {c c' : Conn σ} {a : α} {e : ε}

theorem bind_ok (h : m c = (.ok a, c')) : (m >>= k) c = k a c' := by
  show Prog.andThen m k c = _
  rw [Prog.andThen, h]

theorem bind_error (h : m c = (.error e, c')) : (m >>= k) c = (.error e, c') := by
  show Prog.andThen m k c = _
  rw [Prog.andThen, h]

theorem bind_assoc {γ : Type} (m : Prog σ ε α) (k : α → Prog σ ε β) (l : β → Prog σ ε γ) :
    (m >>= k) >>= l = m >>= fun a => k a >>= l := by
  funext c
  rcases hm : m c with ⟨a | e, c'⟩
  · exact (bind_error (bind_error hm)).trans (bind_error hm).symm
  · show Prog.andThen (Prog.andThen m k) l c = Prog.andThen m (fun a => Prog.andThen (k a) l) c
    simp only [Prog.andThen, hm]

theorem attempt_run {r : Except ε α} (h : m c = (r, c')) :
    (attempt m : Prog σ ε'' (Except ε α)) c = (.ok r, c') := by
  show (Except.ok (m c).1, (m c).2) = _
  rw [h]

theorem wrap_run {ε'' : Type} {f : ε → ε''} {r : Except ε α} (h : m c = (r, c')) :
    Prog.wrap f m c = (r.mapError f, c') := by
  rw [Prog.wrap, h]
  cases r <;> rfl

theorem zoom_run {τ : Type} {get : τ → σ} {set : σ → τ → τ} {t : τ} {fs : List Bool} {r : Except ε α}
    (h : m ⟨get t, fs⟩ = (r, c')) : Prog.zoom get set m ⟨t, fs⟩ = (r, ⟨set c'.store t, c'.faults⟩) := by
  rw [Prog.zoom, h]

/-- A statement that fails from outside. -/
theorem stmt_fault {s : σ} {fs : List Bool} {f : σ → Except ε (α × σ)} (h : fs.headD false = true) :
    stmt e f ⟨s, fs⟩ = (.error e, ⟨s, fs.tail⟩) := by
  show (if fs.headD false then _ else _) = _
  rw [h, if_pos rfl]

/-- A statement that nothing disturbs goes through. -/
theorem stmt_ok {s s' : σ} {fs : List Bool} {f : σ → Except ε (α × σ)} (h : fs.headD false = false)
    (hf : f s = .ok (a, s')) : stmt e f ⟨s, fs⟩ = (.ok a, ⟨s', fs.tail⟩) := by
  show (if fs.headD false then _ else _) = _
  rw [h, if_neg Bool.false_ne_true, hf]

/-- A statement that nothing disturbs fails by itself. -/
theorem stmt_error {s : σ} {fs : List Bool} {d : ε} {f : σ → Except ε (α × σ)} (h : fs.headD false = false)
    (hf : f s = .error d) : stmt e f ⟨s, fs⟩ = (.error d, ⟨s, fs.tail⟩) := by
  show (if fs.headD false then _ else _) = _
  rw [h, if_neg Bool.false_ne_true, hf]

end Run

theorem andThen_ok {c c' : Conn σ} {b : β} (h : (m >>= k) c = (.ok b, c')) :
    ∃ a c₁, m c = (.ok a, c₁) ∧ k a c₁ = (.ok b, c') := by
  have h : Prog.andThen m k c = (.ok b, c') := h
  unfold Prog.andThen at h
  split at h
  · rename_i a c₁ hm
    exact ⟨a, c₁, hm, h⟩
  · cases h

/-- A transaction that commits began, and ran its body to the end. -/
theorem atomically_ok {begin commit : ε} {fs : List Bool} {c' : Conn σ} {a : α}
    (h : atomically begin commit m ⟨s, fs⟩ = (.ok a, c')) :
    ∃ c₁, m ⟨s, fs.tail⟩ = (.ok a, c₁) ∧ c'.store = c₁.store := by
  unfold atomically orRollback at h
  split at h
  · rename_i a' c₀ hrun
    cases h
    obtain ⟨_, c₁, hbegin, hbody⟩ := andThen_ok hrun
    obtain ⟨a', c₂, hm, hend⟩ := andThen_ok hbody
    obtain ⟨_, c₃, hcommit, hret⟩ := andThen_ok hend
    cases hret
    refine ⟨c₂, ?_, ?_⟩
    · simp only [Prog.stmt] at hbegin
      split_ifs at hbegin <;> cases hbegin
      exact hm
    · simp only [Prog.stmt] at hcommit
      split_ifs at hcommit <;> cases hcommit
      rfl
  · cases h

/-! ### Invariants

`Keeps I m` says that `m` keeps `I` whatever fails, and whatever it returns. -/

/-- Whatever fails, `m` keeps the invariant. -/
def Keeps (I : σ → Prop) (m : Prog σ ε α) : Prop := ∀ s, I s → wp m (fun _ => I) (fun _ => I) s

section Keeps
variable {I : σ → Prop}

theorem Keeps.run (h : Keeps I m) {c : Conn σ} (hc : I c.store) : I (m c).2.store := by
  have := h c.store hc c.faults
  split at this <;> rename_i hm <;> simpa [hm] using this

theorem Keeps.ret {a : α} : Keeps I (pure a : Prog σ ε α) := fun _ h => wp_ret h

theorem Keeps.fail {e : ε} : Keeps I (fail e : Prog σ ε α) := fun _ h => wp_fail h

theorem Keeps.andThen (hm : Keeps I m) (hk : ∀ a, Keeps I (k a)) : Keeps I (m >>= k) := fun s h =>
  wp_andThen ((hm s h).mono (fun a s' h' => hk a s' h') fun _ _ h' => h')

theorem Keeps.stmt {fault : ε} {f : σ → Except ε (α × σ)}
    (hf : ∀ s a s', I s → f s = .ok (a, s') → I s') : Keeps I (Prog.stmt fault f) := by
  refine fun s h => wp_stmt h ?_
  split
  · exact hf _ _ _ h ‹_›
  · exact h

theorem Keeps.peek {f : σ → α} : Keeps I (Prog.peek f : Prog σ ε α) := fun _ h => wp_peek h

theorem Keeps.modify {f : σ → σ} (hf : ∀ s, I s → I (f s)) : Keeps I (Prog.modify f : Prog σ ε Unit) :=
  fun s h => wp_modify (hf s h)

theorem Keeps.wrap {f : ε → ε'} (h : Keeps I m) : Keeps I (Prog.wrap f m) := fun s hs =>
  wp_wrap (h s hs)

theorem Keeps.attempt (h : Keeps I m) : Keeps I (Prog.attempt m : Prog σ ε' (Except ε α)) :=
  fun s hs => wp_attempt (h s hs)

theorem Keeps.atomically {begin commit : ε} (h : Keeps I m) :
    Keeps I (Prog.atomically begin commit m) := by
  refine fun s hs => (wp_atomically ((h s hs).mono (fun _ _ h' => h') fun _ _ _ => trivial)).mono
    (fun _ _ h' => h') ?_
  rintro _ _ rfl
  exact hs

theorem Keeps.each {f : β → Prog σ ε Unit} (h : ∀ b, Keeps I (f b)) (l : List β) :
    Keeps I (Prog.each f l) :=
  fun _ hs => wp_each (fun _ => I) (fun _ b _ s' _ h' => h b s' h') hs

end Keeps

/-! ### Which failures stop a program

`Spends m s n Q` says that `m` from `s` runs `n` statements unless one of them fails: it goes through if
none of the next `n` flags is set, and ends with an error otherwise. -/

/-- If one of the next `n` statements fails, `m` ends with an error, and otherwise in `Q`. -/
def Spends (m : Prog σ ε α) (s : σ) (n : ℕ) (Q : α → σ → Prop) : Prop :=
  ∀ fs, (true ∈ fs.take n → ∃ e c, m ⟨s, fs⟩ = (.error e, c)) ∧
    (true ∉ fs.take n → ∃ a s', m ⟨s, fs⟩ = (.ok a, ⟨s', fs.drop n⟩) ∧ Q a s')

theorem mem_take_one {fs : List Bool} : true ∈ fs.take 1 ↔ fs.headD false = true := by
  cases fs with
  | nil => simp
  | cons f fs => simp [eq_comm]

theorem mem_take_two {fs : List Bool} :
    true ∈ fs.take 2 ↔ fs.headD false = true ∨ fs.tail.headD false = true := by
  rcases fs with _ | ⟨b, _ | ⟨b', fs⟩⟩ <;> simp [eq_comm]

theorem mem_take_add {fs : List Bool} {n n' : ℕ} :
    true ∈ fs.take (n + n') ↔ true ∈ fs.take n ∨ true ∈ (fs.drop n).take n' := by
  rw [List.take_add, List.mem_append]

theorem Spends.mono {n : ℕ} {Q' : α → σ → Prop} (h : Spends m s n Q) (hQ : ∀ a s', Q a s' → Q' a s') :
    Spends m s n Q' := by
  refine fun fs => ⟨(h fs).1, fun hfs => ?_⟩
  obtain ⟨a, s', hm, hQ'⟩ := (h fs).2 hfs
  exact ⟨a, s', hm, hQ a s' hQ'⟩

theorem Spends.ret {a : α} (h : Q a s) : Spends (pure a : Prog σ ε α) s 0 Q :=
  fun _ => ⟨fun hfs => absurd hfs (by simp), fun _ => ⟨a, s, rfl, h⟩⟩

theorem Spends.stmt {fault : ε} {f : σ → Except ε (α × σ)} {a : α} {s' : σ} (hf : f s = .ok (a, s'))
    (h : Q a s') : Spends (Prog.stmt fault f) s 1 Q := by
  refine fun fs => ⟨fun hfs => ⟨fault, ⟨s, fs.tail⟩, ?_⟩, fun hfs => ⟨a, s', ?_, h⟩⟩
  · rw [Prog.stmt, if_pos (mem_take_one.mp hfs)]
  · rw [Prog.stmt, if_neg (mt mem_take_one.mpr hfs), hf, List.drop_one]

theorem Spends.andThen {n n' : ℕ} (h : Spends m s n fun a s' => Spends (k a) s' n' R) :
    Spends (m >>= k) s (n + n') R := by
  intro fs
  have hrun : (m >>= k) ⟨s, fs⟩ = Prog.andThen m k ⟨s, fs⟩ := rfl
  rw [hrun, mem_take_add, ← List.drop_drop]
  unfold Prog.andThen
  by_cases hfs : true ∈ fs.take n
  · obtain ⟨e, c, hm⟩ := (h fs).1 hfs
    rw [hm]
    exact ⟨fun _ => ⟨e, c, rfl⟩, fun hno => absurd (Or.inl hfs) hno⟩
  · obtain ⟨a, s', hm, hk⟩ := (h fs).2 hfs
    rw [hm]
    exact ⟨fun hno => (hk _).1 (hno.resolve_left hfs), fun hno => (hk _).2 fun h' => hno (Or.inr h')⟩

theorem Spends.wrap {n : ℕ} {f : ε → ε'} (h : Spends m s n Q) : Spends (Prog.wrap f m) s n Q := by
  refine fun fs => ⟨fun hfs => ?_, fun hfs => ?_⟩
  · obtain ⟨e, c, hm⟩ := (h fs).1 hfs
    exact ⟨f e, c, by rw [Prog.wrap, hm]⟩
  · obtain ⟨a, s', hm, hQ⟩ := (h fs).2 hfs
    exact ⟨a, s', by rw [Prog.wrap, hm], hQ⟩

theorem Spends.zoom {τ : Type} {n : ℕ} {get : τ → σ} {set : σ → τ → τ} {t : τ} {Q : α → τ → Prop}
    (h : Spends m (get t) n fun a s => Q a (set s t)) : Spends (Prog.zoom get set m) t n Q := by
  refine fun fs => ⟨fun hfs => ?_, fun hfs => ?_⟩
  · obtain ⟨e, c, hm⟩ := (h fs).1 hfs
    exact ⟨e, _, by rw [Prog.zoom, hm]⟩
  · obtain ⟨a, s', hm, hQ⟩ := (h fs).2 hfs
    exact ⟨a, set s' t, by rw [Prog.zoom, hm], hQ⟩

/-- A program that looks something up first and goes on with either answer: the first statement decides
which program runs on. -/
theorem Spends.first {n : ℕ} {p : Prog σ ε α} {e : ε}
    (hrun : ∀ fs, m ⟨s, fs⟩ = if fs.headD false then (.error e, ⟨s, fs.tail⟩) else p ⟨s, fs.tail⟩)
    (h : Spends p s n Q) : Spends m s (1 + n) Q := by
  intro fs
  rw [hrun, mem_take_add, mem_take_one, ← List.drop_drop, List.drop_one]
  by_cases hfs : fs.headD false = true
  · rw [if_pos hfs]
    exact ⟨fun _ => ⟨e, _, rfl⟩, fun hno => absurd (Or.inl hfs) hno⟩
  · rw [if_neg hfs]
    exact ⟨fun hno => (h _).1 (hno.resolve_left hfs), fun hno => (h _).2 fun h' => hno (Or.inr h')⟩

/-- A loop whose iterations take the same number of statements each. -/
theorem Spends.each {f : β → Prog σ ε Unit} {n : ℕ} {I : σ → Prop} (step : ∀ b s, I s → Spends (f b) s n fun _ => I)
    (l : List β) (h : I s) : Spends (Prog.each f l) s (l.length * n) fun _ => I := by
  induction l generalizing s with
  | nil =>
    rw [List.length_nil, Nat.zero_mul]
    exact Spends.ret h
  | cons b l ih =>
    rw [List.length_cons, Nat.succ_mul, Nat.add_comm]
    exact Spends.andThen ((step b s h).mono fun _ s' h' => ih h')

theorem Spends.orRollback {n : ℕ} (h : Spends m s n Q) : Spends (Prog.orRollback m) s n Q := by
  refine fun fs => ⟨fun hfs => ?_, fun hfs => ?_⟩
  · obtain ⟨e, c, hm⟩ := (h fs).1 hfs
    exact ⟨e, _, by rw [Prog.orRollback, hm]⟩
  · obtain ⟨a, s', hm, hQ⟩ := (h fs).2 hfs
    exact ⟨a, s', by rw [Prog.orRollback, hm], hQ⟩

/-- A transaction has two statements more. -/
theorem Spends.atomically {n : ℕ} {begin commit : ε} (h : Spends m s n Q) :
    Spends (Prog.atomically begin commit m) s (1 + (n + (1 + 0))) Q := by
  refine Spends.orRollback (Spends.andThen (Spends.stmt rfl ?_))
  exact Spends.andThen (h.mono fun a s' hQ => Spends.andThen (Spends.stmt rfl (Spends.ret hQ)))

/-! ### When nothing fails

`Runs m s r s'` says how a program goes when no statement fails from outside. -/

/-- With no flag set, `m` from `s` ends with `r` and leaves `s'`. -/
def Runs (m : Prog σ ε α) (s : σ) (r : Except ε α) (s' : σ) : Prop := m ⟨s, []⟩ = (r, ⟨s', []⟩)

section Runs
variable {s' s'' : σ} {a : α} {e : ε} {r : Except ε β}

theorem Runs.ret : Runs (pure a : Prog σ ε α) s (.ok a) s := rfl

theorem Runs.fail : Runs (fail e : Prog σ ε α) s (.error e) s := rfl

theorem Runs.andThen (h : Runs m s (.ok a) s') (hk : Runs (k a) s' r s'') : Runs (m >>= k) s r s'' := by
  show Prog.andThen m k ⟨s, []⟩ = _
  rw [Prog.andThen, h]
  exact hk

theorem Runs.andThen_error (h : Runs m s (.error e) s') : Runs (m >>= k) s (.error e) s' := by
  show Prog.andThen m k ⟨s, []⟩ = _
  rw [Prog.andThen, h]

/-- What is done with the value of a program that may fail. -/
theorem Runs.map {r : Except ε α} {f : α → β} (h : Runs m s r s') :
    Runs (m >>= fun a => pure (f a)) s (r.map f) s' := by
  cases r with
  | ok a => exact h.andThen Runs.ret
  | error e => exact h.andThen_error

theorem Runs.stmt {fault : ε} {f : σ → Except ε (α × σ)} (hf : f s = .ok (a, s')) :
    Runs (Prog.stmt fault f) s (.ok a) s' := by
  simp [Runs, Prog.stmt, hf]

theorem Runs.stmt_error {fault : ε} {f : σ → Except ε (α × σ)} (hf : f s = .error e) :
    Runs (Prog.stmt fault f) s (.error e) s := by
  simp [Runs, Prog.stmt, hf]

theorem Runs.wrap {f : ε → ε'} {r : Except ε α} (h : Runs m s r s') :
    Runs (Prog.wrap f m) s (r.mapError f) s' := by
  rw [Runs, Prog.wrap, h]
  cases r <;> rfl

theorem Runs.attempt {r : Except ε α} (h : Runs m s r s') :
    Runs (Prog.attempt m : Prog σ ε' (Except ε α)) s (.ok r) s' := by
  rw [Runs, Prog.attempt, h]

theorem Runs.zoom {τ : Type} {get : τ → σ} {set : σ → τ → τ} {t : τ} {r : Except ε α}
    (h : Runs m (get t) r s') : Runs (Prog.zoom get set m) t r (set s' t) := by
  rw [Runs, Prog.zoom, h]

theorem Runs.atomically {begin commit : ε} (h : Runs m s (.ok a) s') :
    Runs (Prog.atomically begin commit m) s (.ok a) s' := by
  have hrun : Runs (do
      Prog.stmt begin fun s => .ok ((), s)
      let a ← m
      Prog.stmt commit fun s => .ok ((), s)
      return a) s (.ok a) s' :=
    (Runs.stmt rfl).andThen (h.andThen ((Runs.stmt rfl).andThen Runs.ret))
  rw [Runs, Prog.atomically, Prog.orRollback, hrun]

theorem Runs.atomically_error {begin commit : ε} (h : Runs m s (.error e) s') :
    Runs (Prog.atomically begin commit m) s (.error e) s := by
  have hrun : Runs (do
      Prog.stmt begin fun s => .ok ((), s)
      let a ← m
      Prog.stmt commit fun s => .ok ((), s)
      return a) s (.error e) s' :=
    (Runs.stmt rfl).andThen h.andThen_error
  rw [Runs, Prog.atomically, Prog.orRollback, hrun]

/-- What holds after a run whatever fails holds after this one. -/
theorem Runs.post {r : Except ε α} {Q : σ → Prop} (h : Runs m s r s') (hm : wp m (fun _ => Q) (fun _ => Q) s) :
    Q s' := by
  cases r with
  | ok a => exact hm.ok h
  | error e => exact hm.error h

/-- A loop goes through if each iteration does and keeps what the next one needs. -/
theorem Runs.each {f : β → Prog σ ε Unit} (I : List β → σ → Prop) {l : List β}
    (step : ∀ done b rest s, l = done ++ b :: rest → I done s →
      ∃ s', Runs (f b) s (.ok ()) s' ∧ I (done ++ [b]) s') (h : I [] s) :
    ∃ s', Runs (Prog.each f l) s (.ok ()) s' ∧ I l s' := by
  suffices ∀ (rest done : List β) (s : σ), l = done ++ rest → I done s →
      ∃ s', Runs (Prog.each f rest) s (.ok ()) s' ∧ I l s' from this l [] s rfl h
  intro rest
  induction rest with
  | nil => exact fun done s hl h => ⟨s, rfl, by rw [hl, List.append_nil]; exact h⟩
  | cons b bs ih =>
    intro done s hl h
    obtain ⟨s₁, hb, h₁⟩ := step done b bs s hl h
    obtain ⟨s₂, hbs, h₂⟩ := ih (done ++ [b]) s₁ (by simpa using hl) h₁
    exact ⟨s₂, Runs.andThen (k := fun _ => Prog.each f bs) hb hbs, h₂⟩

/-- What only a failure stops goes through. -/
theorem Spends.runs {n : ℕ} (h : Spends m s n Q) : ∃ a s', Runs m s (.ok a) s' ∧ Q a s' := by
  obtain ⟨a, s', hm, hQ⟩ := (h []).2 (by simp)
  exact ⟨a, s', by rw [Runs, hm, List.drop_nil], hQ⟩

/-- However it ends, it takes no flag that is not there. -/
def Undisturbed (m : Prog σ ε α) : Prop := ∀ s, ∃ r s', Runs m s r s'

theorem undisturbed_stmt (fault : ε) (f : σ → Except ε (α × σ)) : Undisturbed (Prog.stmt fault f) := fun s => by
  cases hf : f s with
  | ok p => exact ⟨_, _, Runs.stmt hf⟩
  | error e => exact ⟨_, _, Runs.stmt_error hf⟩

theorem undisturbed_fail : Undisturbed (fail e : Prog σ ε α) := fun s => ⟨_, s, Runs.fail⟩

theorem Undisturbed.wrap {f : ε → ε'} (h : Undisturbed m) : Undisturbed (Prog.wrap f m) := fun s => by
  obtain ⟨r, s', hm⟩ := h s
  exact ⟨_, s', hm.wrap⟩

theorem Undisturbed.andThen (h : Undisturbed m) (hk : ∀ a, Undisturbed (k a)) : Undisturbed (m >>= k) := fun s => by
  obtain ⟨r, s', hm⟩ := h s
  cases r with
  | error e => exact ⟨_, s', hm.andThen_error⟩
  | ok a =>
    obtain ⟨r', s'', hk⟩ := hk a s'
    exact ⟨r', s'', hm.andThen hk⟩

theorem Undisturbed.atomically {begin commit : ε} (h : Undisturbed m) : Undisturbed (Prog.atomically begin commit m) :=
    fun s => by
  obtain ⟨r, s', hm⟩ := h s
  cases r with
  | ok a => exact ⟨_, s', hm.atomically⟩
  | error e => exact ⟨_, s, hm.atomically_error⟩

end Runs

end Tilbo.Lib.Txn
