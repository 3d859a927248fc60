import Tilbo.Lib.Steps
import Mathlib.Algebra.Order.Ring.Int
import Mathlib.Logic.Function.Basic

/-! # Whether a thumbnail shows the file

`cached` takes a thumbnail that is not older than the file, by their modification times. Those are coarse, can be set, and
say when the thumbnail was written, not when the file was read for it. `fresh_of_run`: a thumbnail that is taken shows what
is in the file, if no change of the file could be taken for an older one. `lasting_iff`: when thumbnails will go on to show
the file, as long as it stays as it is.

This is about one file and its thumbnails, of which each has one flight at a time. A file is changed at once, and read at the
moment when it is opened. -/

namespace Tilbo.Thumbnail.Freshness

open Tilbo.Lib.Steps

variable {ι V : Type}

/-! ### The state -/

/-- `Size`; the one that is not specified counts as normal. -/
inductive Size where
  | normal
  | large
deriving DecidableEq

/-- Where `generate` is. -/
inductive Flight (V : Type) where
  | started
  /-- It has opened the file. -/
  | opened (v : V)
  /-- The temporary file is written, at this time. -/
  | written (v : V) (t : ℤ)

structure State (ι V : Type) where
  now : ℤ
  /-- What is in the file, and its modification time. -/
  content : V
  mtime : ℤ
  /-- What a thumbnail shows, and its modification time. -/
  cache : Size → Option (V × ℤ)
  flight : Size → Option (Flight V)
  /-- The request has asked for the time of the thumbnail. -/
  looked : ι → Option (Size × ℤ)

def start (now : ℤ) (v : V) (mtime : ℤ) : State ι V where
  now := now
  content := v
  mtime := mtime
  cache _ := none
  flight _ := none
  looked _ := none

inductive Action (ι V : Type) where
  /-- The file is changed, and has this time from then on. -/
  | change (v : V) (mtime : ℤ)
  /-- The request takes the thumbnail. -/
  | hit (i : ι)
  | other

/-- One atomic step. -/
inductive Step [DecidableEq ι] (s : State ι V) : Action ι V → State ι V → Prop
  | tick {t : ℤ} (h : s.now ≤ t) : Step s .other { s with now := t }
  | change (v : V) (t : ℤ) : Step s (.change v t) { s with content := v, mtime := t }
  | look {z : Size} {v : V} {t : ℤ} (i : ι) (h : s.cache z = some (v, t)) :
      Step s .other { s with looked := Function.update s.looked i (some (z, t)) }
  | hit {i : ι} {z : Size} {t : ℤ} (h : s.looked i = some (z, t)) (hnewer : ¬ t < s.mtime) :
      Step s (.hit i) { s with looked := Function.update s.looked i none }
  | older {i : ι} {z : Size} {t : ℤ} (h : s.looked i = some (z, t)) (holder : t < s.mtime) :
      Step s .other { s with looked := Function.update s.looked i none }
  | launch {z : Size} (h : s.flight z = none) : Step s .other { s with flight := Function.update s.flight z (some .started) }
  | openSource {z : Size} (h : s.flight z = some .started) :
      Step s .other { s with flight := Function.update s.flight z (some (.opened s.content)) }
  | write {z : Size} {v : V} (h : s.flight z = some (.opened v)) :
      Step s .other { s with flight := Function.update s.flight z (some (.written v s.now)) }
  | rename {z : Size} {v : V} {t : ℤ} (h : s.flight z = some (.written v t)) :
      Step s .other { s with
        cache := Function.update s.cache z (some (v, t))
        flight := Function.update s.flight z none }
  | fail (z : Size) : Step s .other { s with flight := Function.update s.flight z none }
  /-- `Invalidate`, for one size. -/
  | invalidate (z : Size) : Step s .other { s with cache := Function.update s.cache z none }

/-! ### What is to be shown -/

/-- The thumbnail that is taken, if it is still there, shows the file. -/
def Shows (s : State ι V) : Action ι V → Prop
  | .hit i => ∀ z t v t', s.looked i = some (z, t) → s.cache z = some (v, t') → v = s.content
  | _ => True

/-- With this content and time of the file, no thumbnail is taken for one of it that is not, now or when it is done. -/
structure Sound (s : State ι V) (content : V) (mtime : ℤ) : Prop where
  cached : ∀ z v t, s.cache z = some (v, t) → mtime ≤ t → v = content
  written : ∀ z v t, s.flight z = some (.written v t) → mtime ≤ t → v = content
  opened : ∀ z v, s.flight z = some (.opened v) → v = content

/-- A condition on a step: a change of the file is one that the times show. -/
def Safe (s : State ι V) : Action ι V → Prop
  | .change v t => Sound s v t
  | _ => True

/-- The file stays as it is. -/
def Still : State ι V → Action ι V → Prop
  | _, .change _ _ => False
  | _, _ => True

/-- What is there of a thumbnail was written in this order. -/
structure Ordered (s : State ι V) : Prop where
  cached : ∀ z v t, s.cache z = some (v, t) → t ≤ s.now
  written : ∀ z v t, s.flight z = some (.written v t) → t ≤ s.now ∧ ∀ v' t', s.cache z = some (v', t') → t' ≤ t
  looked : ∀ i z t, s.looked i = some (z, t) → t ≤ s.now ∧ (∀ v t', s.cache z = some (v, t') → t ≤ t') ∧
    ∀ v t', s.flight z = some (.written v t') → t ≤ t'

section Steps
variable [DecidableEq ι] {s s' : State ι V} {a : Action ι V} {tr : List (State ι V × Action ι V)} {content : V} {mtime : ℤ}
  {α : Type}

/-- The entries of a table with one that was changed. -/
theorem update_some {f : Size → Option α} {z z' : Size} {x : Option α} {y : α} (h : Function.update f z x z' = some y) :
    z' = z ∧ x = some y ∨ z' ≠ z ∧ f z' = some y := by
  rcases eq_or_ne z' z with rfl | hz
  · rw [Function.update_self] at h
    exact .inl ⟨rfl, h⟩
  · rw [Function.update_of_ne hz] at h
    exact .inr ⟨hz, h⟩

omit [DecidableEq ι] in
/-- The requests that have asked are among those that had. -/
theorem Ordered.of_looked (h : Ordered s) {looked : ι → Option (Size × ℤ)} (hlooked : ∀ j x, looked j = some x → s.looked j = some x) :
    Ordered { s with looked := looked } :=
  ⟨h.cached, h.written, fun j z t hj => h.looked j z t (hlooked j _ hj)⟩

omit [DecidableEq ι] in
/-- No thumbnail was written. -/
theorem Ordered.of_flight (h : Ordered s) {z : Size} {x : Option (Flight V)} (hx : ∀ v t, x ≠ some (.written v t)) :
    Ordered { s with flight := Function.update s.flight z x } := by
  have hold : ∀ {z' v t}, Function.update s.flight z x z' = some (.written v t) → s.flight z' = some (.written v t) := by
    intro z' v t hz'
    rcases update_some hz' with ⟨-, hx'⟩ | ⟨-, hz'⟩
    · exact absurd hx' (hx v t)
    · exact hz'
  exact ⟨h.cached, fun z' v t hz' => h.written z' v t (hold hz'), fun j z' t hj =>
    ⟨(h.looked j z' t hj).1, (h.looked j z' t hj).2.1, fun v t' hz' => (h.looked j z' t hj).2.2 v t' (hold hz')⟩⟩

theorem Ordered.step (h : Ordered s) (hstep : Step s a s') : Ordered s' := by
  rcases hstep with htick | ⟨v, t⟩ | @⟨z, v, t, i, hz⟩ | @⟨i⟩ | @⟨i⟩ | - | - | @⟨z, v, hz⟩ | @⟨z, v, t, hz⟩ | z | z
  case tick =>
    exact ⟨fun z v t hz => (h.cached z v t hz).trans htick,
      fun z v t hz => ⟨(h.written z v t hz).1.trans htick, (h.written z v t hz).2⟩,
      fun i z t hi => ⟨(h.looked i z t hi).1.trans htick, (h.looked i z t hi).2⟩⟩
  case change => exact ⟨h.cached, h.written, h.looked⟩
  case look =>
    refine ⟨h.cached, h.written, fun j z' t' hj => ?_⟩
    have hj : Function.update s.looked i (some (z, t)) j = some (z', t') := hj
    rcases eq_or_ne j i with rfl | hji
    · rw [Function.update_self] at hj
      obtain ⟨rfl, rfl⟩ := Prod.mk.inj (Option.some.inj hj)
      refine ⟨h.cached z v t hz, fun v' t' hz' => ?_, fun v' t' hz' => (h.written z v' t' hz').2 v t hz⟩
      obtain ⟨-, rfl⟩ := Prod.mk.inj (Option.some.inj (hz.symm.trans hz'))
      exact le_rfl
    · rw [Function.update_of_ne hji] at hj
      exact h.looked j z' t' hj
  case hit =>
    refine h.of_looked fun j x hj => ?_
    rcases eq_or_ne j i with rfl | hji
    · rw [Function.update_self] at hj
      cases hj
    · rwa [Function.update_of_ne hji] at hj
  case older =>
    refine h.of_looked fun j x hj => ?_
    rcases eq_or_ne j i with rfl | hji
    · rw [Function.update_self] at hj
      cases hj
    · rwa [Function.update_of_ne hji] at hj
  case launch => exact h.of_flight (by simp)
  case openSource => exact h.of_flight (by simp)
  case fail => exact h.of_flight (by simp)
  case write =>
    refine ⟨h.cached, fun z' v' t hz' => ?_, fun j z' t hj => ⟨(h.looked j z' t hj).1, (h.looked j z' t hj).2.1, ?_⟩⟩
    · rcases update_some hz' with ⟨rfl, heq⟩ | ⟨-, hz'⟩
      · obtain ⟨-, rfl⟩ := Flight.written.inj (Option.some.inj heq)
        exact ⟨le_rfl, fun v' t' hc => h.cached z' v' t' hc⟩
      · exact h.written z' v' t hz'
    · intro v' t' hz'
      rcases update_some hz' with ⟨rfl, heq⟩ | ⟨-, hz'⟩
      · obtain ⟨-, rfl⟩ := Flight.written.inj (Option.some.inj heq)
        exact (h.looked j z' t hj).1
      · exact (h.looked j z' t hj).2.2 v' t' hz'
  case rename =>
    have hflight : ∀ {z' x}, Function.update s.flight z none z' = some x → z' ≠ z ∧ s.flight z' = some x := by
      intro z' x hz'
      rcases update_some hz' with ⟨-, hno⟩ | hz'
      · cases hno
      · exact hz'
    refine ⟨fun z' v' t' hc => ?_, fun z' v' t' hz' => ?_, fun j z' t' hj => ⟨(h.looked j z' t' hj).1, ?_, ?_⟩⟩
    · rcases update_some hc with ⟨rfl, heq⟩ | ⟨-, hc⟩
      · obtain ⟨-, rfl⟩ := Prod.mk.inj (Option.some.inj heq)
        exact (h.written z' v t hz).1
      · exact h.cached z' v' t' hc
    · obtain ⟨hne, hz'⟩ := hflight hz'
      refine ⟨(h.written z' v' t' hz').1, fun v'' t'' hc => ?_⟩
      rcases update_some hc with ⟨rfl, -⟩ | ⟨-, hc⟩
      · exact absurd rfl hne
      · exact (h.written z' v' t' hz').2 v'' t'' hc
    · intro v' t'' hc
      rcases update_some hc with ⟨rfl, heq⟩ | ⟨-, hc⟩
      · obtain ⟨-, rfl⟩ := Prod.mk.inj (Option.some.inj heq)
        exact (h.looked j z' t' hj).2.2 v t hz
      · exact (h.looked j z' t' hj).2.1 v' t'' hc
    · intro v' t'' hz'
      exact (h.looked j z' t' hj).2.2 v' t'' (hflight hz').2
  case invalidate =>
    have hold : ∀ {z' x}, Function.update s.cache z none z' = some x → s.cache z' = some x := by
      intro z' x hz'
      rcases update_some hz' with ⟨-, hno⟩ | ⟨-, hz'⟩
      · cases hno
      · exact hz'
    exact ⟨fun z' v t hz' => h.cached z' v t (hold hz'),
      fun z' v t hz' => ⟨(h.written z' v t hz').1, fun v' t' hc => (h.written z' v t hz').2 v' t' (hold hc)⟩,
      fun j z' t hj => ⟨(h.looked j z' t hj).1, fun v t' hc => (h.looked j z' t hj).2.1 v t' (hold hc),
        (h.looked j z' t hj).2.2⟩⟩

omit [DecidableEq ι] in
theorem Sound.of_flight (h : Sound s content mtime) {z : Size} {x : Option (Flight V)}
    (hopened : ∀ v, x = some (.opened v) → v = content) (hwritten : ∀ v t, x = some (.written v t) → v = content) :
    Sound { s with flight := Function.update s.flight z x } content mtime := by
  refine ⟨h.cached, fun z' v t hz' hlate => ?_, fun z' v hz' => ?_⟩
  · rcases update_some hz' with ⟨-, heq⟩ | ⟨-, hz'⟩
    · exact hwritten v t heq
    · exact h.written z' v t hz' hlate
  · rcases update_some hz' with ⟨-, heq⟩ | ⟨-, hz'⟩
    · exact hopened v heq
    · exact h.opened z' v hz'

/-- As long as the file stays as it is. -/
theorem Sound.step (h : Sound s s.content s.mtime) (hstep : Step s a s') (hstill : Still s a) :
    Sound s' s'.content s'.mtime := by
  rcases hstep with - | ⟨v, t⟩ | - | - | - | - | - | @⟨z, v, hz⟩ | @⟨z, v, t, hz⟩ | z | z
  case change => exact absurd hstill id
  case launch => exact h.of_flight (by simp) (by simp)
  case openSource => exact h.of_flight (fun v heq => (Flight.opened.inj (Option.some.inj heq)).symm) (by simp)
  case write =>
    refine h.of_flight (by simp) fun v' t heq => ?_
    obtain ⟨rfl, -⟩ := Flight.written.inj (Option.some.inj heq)
    exact h.opened z v hz
  case fail => exact h.of_flight (by simp) (by simp)
  case rename =>
    have hflight := h.of_flight (z := z) (x := none) (by simp) (by simp)
    refine ⟨fun z' v' t' hc hlate => ?_, hflight.written, hflight.opened⟩
    rcases update_some hc with ⟨-, heq⟩ | ⟨-, hc⟩
    · obtain ⟨rfl, rfl⟩ := Prod.mk.inj (Option.some.inj heq)
      exact h.written z v t hz hlate
    · exact h.cached z' v' t' hc hlate
  case invalidate =>
    refine ⟨fun z' v t hc => ?_, h.written, h.opened⟩
    rcases update_some hc with ⟨-, hno⟩ | ⟨-, hc⟩
    · cases hno
    · exact h.cached z' v t hc
  all_goals exact ⟨h.cached, h.written, h.opened⟩

theorem shows_of_sound (h : Sound s s.content s.mtime) (hordered : Ordered s) (hstep : Step s a s') : Shows s a := by
  rcases hstep with - | - | - | @⟨i, z, t, hi, hnewer⟩ | - | - | - | - | - | - | -
  case hit =>
    intro z' t' v t'' hi' hc
    obtain ⟨rfl, rfl⟩ := Prod.mk.inj (Option.some.inj (hi.symm.trans hi'))
    exact h.cached z v t'' hc ((not_lt.mp hnewer).trans ((hordered.looked i z t hi).2.1 v t'' hc))
  all_goals trivial

/-! ### Runs -/

variable {now mtime₀ : ℤ} {v₀ : V}

omit [DecidableEq ι] in
theorem ordered_start : Ordered (start now v₀ mtime₀ : State ι V) :=
  ⟨by simp [start], by simp [start], by simp [start]⟩

theorem ordered_of_run (hrun : Runs Step (start now v₀ mtime₀) tr s) : Ordered s :=
  hrun.invariant _ meets_any ordered_start fun _ _ _ h _ hstep => h.step hstep

theorem sound_of_run (hrun : Runs Step (start now v₀ mtime₀) tr s) (hsafe : Meets Safe tr) :
    Sound s s.content s.mtime := by
  refine hrun.invariant (fun s => Sound s s.content s.mtime) hsafe ?_ fun t a u h hC hstep => ?_
  · exact ⟨by simp [start], by simp [start], by simp [start]⟩
  · rcases a with ⟨v, t'⟩ | i | _
    · cases hstep with
      | change => exact ⟨hC.cached, hC.written, hC.opened⟩
    · exact h.step hstep trivial
    · exact h.step hstep trivial

/-- **Thumbnails show the file**, in every run whose changes of the file are all safe. -/
theorem fresh_of_run (hrun : Runs Step (start now v₀ mtime₀) tr s) (hsafe : Meets Safe tr) : Meets Shows tr := by
  intro e he
  obtain ⟨⟨hsound, hordered⟩, u, hstep⟩ := hrun.step_from (I := fun s => Sound s s.content s.mtime ∧ Ordered s)
    (fun tr' t hpre hrun' => ⟨sound_of_run hrun' fun e he => hsafe e (hpre.subset he), ordered_of_run hrun'⟩) he
  exact shows_of_sound hsound hordered hstep

/-- Whatever happens, short of a change of the file, thumbnails show it. -/
def Lasting (s : State ι V) : Prop := ∀ tr s', Runs Step s tr s' → Meets Still tr → Meets Shows tr

theorem Lasting.step (h : Lasting s) (hstep : Step s a s') (hstill : Still s a) : Lasting s' := by
  intro tr t hrun htr e he
  refine h _ t ((Runs.nil.snoc hstep).trans hrun) (fun e' he' => ?_) e (List.mem_append_right _ he)
  rcases List.mem_append.mp he' with he' | he'
  · rw [List.nil_append, List.mem_singleton] at he'
    rw [he']
    exact hstill
  · exact htr e' he'

/-- A request that takes the thumbnail now. -/
theorem Lasting.cached (h : Lasting s) (i : ι) {z : Size} {v : V} {t : ℤ} (hc : s.cache z = some (v, t))
    (hlate : s.mtime ≤ t) : v = s.content := by
  have hlook := Step.look i hc
  have hhit := Step.hit (s := { s with looked := Function.update s.looked i (some (z, t)) }) (i := i) (z := z) (t := t)
    (Function.update_self _ _ _) (not_lt.mpr hlate)
  exact h.step hlook trivial _ _ (Runs.nil.snoc hhit) (fun e he => by rw [List.mem_singleton.mp he]; trivial) _
    (List.mem_singleton_self _) z t v t (Function.update_self _ _ _) hc

/-- **When thumbnails go on to show the file**: no thumbnail that is there, or written but not yet in its place, is as new
as the file and of another content, and no flight has opened the file while it had another. -/
theorem lasting_iff [Nonempty ι] (hrun : Runs Step (start now v₀ mtime₀) tr s) :
    Lasting s ↔ Sound s s.content s.mtime := by
  have hordered := ordered_of_run hrun
  constructor
  · intro h
    obtain ⟨i⟩ := ‹Nonempty ι›
    refine ⟨fun z v t hc hlate => h.cached i hc hlate, fun z v t hz hlate => ?_, fun z v hz => ?_⟩
    · have hrenamed := h.step (.rename hz) trivial
      exact hrenamed.cached i (Function.update_self _ _ _) hlate
    · have hticked := h.step (.tick (le_max_left s.now s.mtime)) trivial
      have hwritten := hticked.step (.write hz) trivial
      have hrenamed := hwritten.step (.rename (Function.update_self _ _ _)) trivial
      exact hrenamed.cached i (Function.update_self _ _ _) (le_max_right s.now s.mtime)
  · intro h tr' s' hrun' hstill e he
    obtain ⟨⟨hsound, hordered⟩, u, hstep⟩ := hrun'.step_from (I := fun s => Sound s s.content s.mtime ∧ Ordered s)
      (fun tr'' t hpre hrun'' => hrun''.invariant (fun s => Sound s s.content s.mtime ∧ Ordered s) (fun e he => hstill e (hpre.subset he))
        ⟨h, hordered⟩ fun t a u ht hC hstep => ⟨ht.1.step hstep hC, ht.2.step hstep⟩) he
    exact shows_of_sound hsound hordered hstep

omit [DecidableEq ι] in
/-- A change is safe if the clock says so, and every thumbnail is older, and no flight is between opening the file and
writing its thumbnail. -/
theorem safe_of_clock {v : V} (hcached : ∀ z v t, s.cache z = some (v, t) → t < s.now)
    (hwritten : ∀ z v t, s.flight z = some (.written v t) → t < s.now) (hopened : ∀ z v, s.flight z ≠ some (.opened v)) :
    Safe s (.change v s.now) :=
  ⟨fun z v t hc hlate => absurd hlate (not_le.mpr (hcached z v t hc)),
    fun z v t hz hlate => absurd hlate (not_le.mpr (hwritten z v t hz)), fun z v hz => absurd hz (hopened z v)⟩

end Steps

/-! ### A file that is changed -/

/-- It is changed when the thumbnail has been taken and the clock has gone on. -/
theorem fresh_of_run_changed : ∃ tr s, Runs Step (start 0 false 0 : State Unit Bool) tr s ∧ s.content = true ∧
    s.cache .normal = some (false, 0) ∧ Meets Shows tr := by
  have h₁ := Runs.nil.snoc (Step.launch (s := (start 0 false 0 : State Unit Bool)) (z := .normal) rfl)
  have h₂ := h₁.snoc (Step.openSource (z := .normal) rfl)
  have h₃ := h₂.snoc (Step.write (z := .normal) rfl)
  have h₄ := h₃.snoc (Step.rename (z := .normal) rfl)
  have h₅ := h₄.snoc (Step.look (z := .normal) (v := false) (t := 0) () rfl)
  have h₆ := h₅.snoc (Step.hit (i := ()) (z := .normal) (t := 0) rfl (by decide))
  have h₇ := h₆.snoc (Step.tick (t := 1) (by decide))
  refine ⟨_, _, h₇.snoc (.change true 1), rfl, rfl, fresh_of_run (h₇.snoc (.change true 1)) ?_⟩
  refine Meets.snoc (((((((Meets.nil.snoc trivial).snoc trivial).snoc trivial).snoc trivial).snoc trivial).snoc trivial).snoc
    trivial) ?_
  refine safe_of_clock (fun z v t hc => ?_) (fun z v t hz => ?_) fun z v hz => ?_
  · rcases z with _ | _
    · obtain ⟨-, rfl⟩ := Prod.mk.inj (Option.some.inj hc)
      decide
    · cases hc
  · rcases z with _ | _ <;> cases hz
  · rcases z with _ | _ <;> cases hz

/-- It is changed before the thumbnail is written. -/
theorem lasting_iff_changed : ∃ tr s, Runs Step (start 0 false 0 : State Unit Bool) tr s ∧ s.content = true ∧
    ¬ Lasting s := by
  have h₁ := Runs.nil.snoc (Step.launch (s := (start 0 false 0 : State Unit Bool)) (z := .normal) rfl)
  have h₂ := h₁.snoc (Step.openSource (z := .normal) rfl)
  have h₃ := h₂.snoc (Step.change true 1)
  refine ⟨_, _, h₃, rfl, fun h => ?_⟩
  have hopened : false = true := ((lasting_iff h₃).mp h).opened .normal false rfl
  cases hopened

end Tilbo.Thumbnail.Freshness
