import Tilbo.Rules.Toml
import Mathlib.Data.List.Forall2
import Mathlib.Data.List.Nodup

/-! # What a condition says

`holds` reads a condition as its author wrote it: of a table every operator must hold. `evalCond` looks at one
group of operators only, the first in its order of which it sees one, and `exact` says when that does not matter:
whatever the group lets pass must satisfy the rest of the table as well. -/

namespace Tilbo.Rules.Conditions

open Tilbo.Rules.Toml Tilbo.Lib.Pairs

variable {F : Type} (L : Library F)

/-! ### The meaning of a table -/

/-- The two ends of a `between`. -/
def rangeOf : Value F → Option (F × F)
  | .array [lo, hi] => match toFloat L lo, toFloat L hi with
    | some mn, some mx => some (mn, mx)
    | _, _ => none
  | _ => none

/-- The date of a `before` or an `after`. -/
def dateOf : Value F → Option ℤ
  | .text s => L.parseDate s
  | _ => none

/-- Whether both are numbers, so related. -/
def compares (r : F → F → Bool) (v val : Value F) : Bool :=
  match toFloat L v, toFloat L val with
  | some b, some n => r b n
  | _, _ => false

/-- Whether `v` is a date and `val` a moment, so related. -/
def dated (r : ℤ → ℤ → Bool) (v val : Value F) : Bool :=
  match dateOf L v, toTime L val with
  | some t, some u => r t u
  | _, _ => false

/-- Whether the operator `k` with the operand `v` holds; `sub` is whether the operand does, as a condition. -/
def operatorHolds (k : String) (v : Value F) (sub : Bool) (val : Value F) : Bool :=
  if k = "glob" then match v with
    | .text s => globMatch L s val
    | _ => false
  else if k = "eq" then equalValues L v val = some true
  else if k = "gte" then compares L (fun b n => L.le b n) v val
  else if k = "lte" then compares L (fun b n => L.le n b) v val
  else if k = "gt" then compares L (fun b n => L.lt b n) v val
  else if k = "lt" then compares L (fun b n => L.lt n b) v val
  else if k = "between" then (rangeOf L v).any (inRange L · val)
  else if k = "in" then match v with
    | .array items => items.any fun item => equalValues L item val = some true
    | _ => false
  else if k = "before" then dated L (fun t u => u < t) v val
  else if k = "after" then dated L (fun t u => t < u) v val
  else k = "not" && !sub

mutual

/-- Whether a condition holds for a value. -/
def holds : Value F → Value F → Bool
  | .text s, val => globMatch L s val
  | .table m, val => allHold m val
  | _, _ => false

/-- Whether every operator of a table holds. -/
def allHold : List (String × Value F) → Value F → Bool
  | [], _ => true
  | (k, v) :: m, val => operatorHolds L k v (holds v val) val && allHold m val

end

/-! ### What the evaluator looks at -/

/-- The groups of operators in the order in which the evaluator tries them. -/
def groups : List (List String) :=
  [["glob"], ["eq"], ["gte", "lte", "gt", "lt"], ["between"], ["in"], ["before"], ["after"]]

/-- Whether the evaluator sees that the operator is there. -/
def seen (k : String) : Value F → Bool
  | .text s => k ≠ "glob" || s ≠ ""
  | .null => k ≠ "eq"
  | .array items => k ≠ "in" || !items.isEmpty
  | _ => true

/-- The operators that decide about a table without a `not`. -/
def lookedAt (m : List (String × Value F)) : List String :=
  (groups.find? fun g => g.any fun k => (m.lookup k).any (seen k)).getD []

/-- Whether the evaluator lets the value pass: a number passes that is not beyond the bound. -/
def passes (k : String) (v val : Value F) : Bool :=
  if k = "gte" then compares L (fun b n => !L.lt n b) v val
  else if k = "lte" then compares L (fun b n => !L.lt b n) v val
  else if k = "gt" then compares L (fun b n => !L.le n b) v val
  else if k = "lt" then compares L (fun b n => !L.le b n) v val
  else operatorHolds L k v false val

/-- Whether two arrays or two tables are compared. -/
def uncomparable (k : String) (v val : Value F) : Bool :=
  if k = "eq" then equalValues L v val = none
  else if k = "in" then match v with
    | .array items => memberOf L items val = none
    | _ => false
  else false

/-- What the evaluator looks at passes. -/
def lookedPass (m : List (String × Value F)) (val : Value F) : Bool :=
  (lookedAt m).all fun k => (m.lookup k).all (passes L k · val)

mutual

/-- Whether evaluating the condition panics. -/
def panics : Value F → Value F → Bool
  | .table m, val => (panicsNot m val).getD
    ((lookedAt m).any fun k => (m.lookup k).any (uncomparable L k · val))
  | _, _ => false

/-- The same of the condition under `not`. -/
def panicsNot : List (String × Value F) → Value F → Option Bool
  | [], _ => none
  | (k, v) :: m, val => if k = "not" then some (panics v val) else panicsNot m val

end

mutual

/-- Whether what the evaluator leaves out makes no difference. -/
def exact : Value F → Value F → Bool
  | .text s, val => s ≠ "" || !globMatch L "" val
  | .table m, val => (exactNot (m.all fun e => e.1 = "not" || operatorHolds L e.1 e.2 false val) m val).getD
    (!panics L (.table m) val && if lookedAt m = [] then !allHold L m val else !lookedPass L m val || allHold L m val)
  | _, _ => true

/-- The same of a table with a `not`; `others` is whether its other operators hold. -/
def exactNot (others : Bool) : List (String × Value F) → Value F → Option Bool
  | [], _ => none
  | (k, v) :: m, val => if k = "not" then
      some (if exact v val then holds L v val || others else !panics L v val && !holds L v val && !others)
    else exactNot others m val

end

mutual

/-- Every table is a map: it has each of its keys once. -/
def isMap : Value F → Bool
  | .table m => (m.map Prod.fst).Nodup && areMaps m
  | _ => true

/-- The same of the operands in a table. -/
def areMaps : List (String × Value F) → Bool
  | [] => true
  | (_, v) :: m => isMap v && areMaps m

end

/-! ### What the parser makes of a table -/

/-- The fields of the condition that a table becomes, by the operators in it. -/
def fieldsOf (m : List (String × Value F)) : Fields F where
  glob := match m.lookup "glob" with
    | some (.text s) => s
    | _ => ""
  eq := (m.lookup "eq").getD .null
  gte := (m.lookup "gte").bind (toFloat L)
  lte := (m.lookup "lte").bind (toFloat L)
  gt := (m.lookup "gt").bind (toFloat L)
  lt := (m.lookup "lt").bind (toFloat L)
  between := (m.lookup "between").bind (rangeOf L)
  inList := match m.lookup "in" with
    | some (.array items) => items
    | _ => []
  before := (m.lookup "before").bind (dateOf L)
  after := (m.lookup "after").bind (dateOf L)

/-- Whether the parser takes the operand. -/
def legal (k : String) (v : Value F) : Bool :=
  if k = "glob" then match v with
    | .text _ => true
    | _ => false
  else if k = "eq" ∨ k = "not" then true
  else if k = "gte" ∨ k = "lte" ∨ k = "gt" ∨ k = "lt" then (toFloat L v).isSome
  else if k = "between" then (rangeOf L v).isSome
  else if k = "in" then match v with
    | .array _ => true
    | _ => false
  else (k = "before" ∨ k = "after") && (dateOf L v).isSome

variable {L} {k : String} {v val : Value F} {m : List (String × Value F)} {c c' : MatchCond F}

theorem mustFloat_ok {field : String} {f : F} (h : mustFloat L v field = .ok f) : toFloat L v = some f := by
  unfold mustFloat at h
  cases hv : toFloat L v with
  | none => rw [hv] at h; cases h
  | some g => rw [hv] at h; cases h; rfl

theorem mustDate_ok {field : String} {t : ℤ} (h : mustDate L v field = .ok t) : dateOf L v = some t := by
  cases v with
  | text s =>
    simp only [mustDate] at h
    cases hs : L.parseDate s with
    | none => rw [hs] at h; cases h
    | some u => rw [hs] at h; cases h; exact hs
  | _ => cases h

theorem mustRange_ok {r : F × F} (h : mustRange L v = .ok r) : rangeOf L v = some r := by
  unfold mustRange at h
  split at h
  · next lo hi =>
    cases hlo : mustFloat L lo "between min" with
    | error e => rw [hlo] at h; cases h
    | ok mn =>
      cases hhi : mustFloat L hi "between max" with
      | error e => rw [hlo, hhi] at h; cases h
      | ok mx =>
        rw [hlo, hhi] at h
        cases h
        simp only [rangeOf, mustFloat_ok hlo, mustFloat_ok hhi]
  · cases h

theorem map_ok {ε α β : Type} {f : α → β} {x : Except ε α} {b : β} (h : x.map f = .ok b) :
    ∃ a, x = .ok a ∧ f a = b := by
  cases x with
  | error e => cases h
  | ok a => exact ⟨a, rfl, Except.ok.inj h⟩

/-- What one operator does to the condition that the operators before it have made. -/
theorem setOperator_ok {sub : Except Error (MatchCond F)} {n : Option (MatchCond F)} (hk : m.lookup k = none)
    (h : setOperator L k v sub ⟨fieldsOf L m, n⟩ = .ok c) :
    legal L k v = true ∧ ∃ n', c = ⟨fieldsOf L (m ++ [(k, v)]), n'⟩ ∧
      if k = "not" then ∃ s, sub = .ok s ∧ n' = some s else n' = n := by
  simp only [setOperator] at h
  by_cases h1 : k = "glob"
  · rw [if_pos h1] at h
    subst h1
    cases v with
    | text s =>
      cases h
      exact ⟨rfl, n, by simp [fieldsOf, lookup_concat hk], rfl⟩
    | _ => cases h
  rw [if_neg h1] at h
  by_cases h2 : k = "eq"
  · rw [if_pos h2] at h
    subst h2
    cases h
    exact ⟨rfl, n, by simp [fieldsOf, lookup_concat hk], rfl⟩
  rw [if_neg h2] at h
  by_cases h3 : k = "gte"
  · rw [if_pos h3] at h
    subst h3
    obtain ⟨f, hf, rfl⟩ := map_ok h
    replace hf := mustFloat_ok hf
    exact ⟨by simp [legal, hf], n, by simp [fieldsOf, lookup_concat hk, hf], rfl⟩
  rw [if_neg h3] at h
  by_cases h4 : k = "lte"
  · rw [if_pos h4] at h
    subst h4
    obtain ⟨f, hf, rfl⟩ := map_ok h
    replace hf := mustFloat_ok hf
    exact ⟨by simp [legal, hf], n, by simp [fieldsOf, lookup_concat hk, hf], rfl⟩
  rw [if_neg h4] at h
  by_cases h5 : k = "gt"
  · rw [if_pos h5] at h
    subst h5
    obtain ⟨f, hf, rfl⟩ := map_ok h
    replace hf := mustFloat_ok hf
    exact ⟨by simp [legal, hf], n, by simp [fieldsOf, lookup_concat hk, hf], rfl⟩
  rw [if_neg h5] at h
  by_cases h6 : k = "lt"
  · rw [if_pos h6] at h
    subst h6
    obtain ⟨f, hf, rfl⟩ := map_ok h
    replace hf := mustFloat_ok hf
    exact ⟨by simp [legal, hf], n, by simp [fieldsOf, lookup_concat hk, hf], rfl⟩
  rw [if_neg h6] at h
  by_cases h7 : k = "between"
  · rw [if_pos h7] at h
    subst h7
    obtain ⟨f, hf, rfl⟩ := map_ok h
    replace hf := mustRange_ok hf
    exact ⟨by simp [legal, hf], n, by simp [fieldsOf, lookup_concat hk, hf], rfl⟩
  rw [if_neg h7] at h
  by_cases h8 : k = "in"
  · rw [if_pos h8] at h
    subst h8
    cases v with
    | array items =>
      cases h
      exact ⟨rfl, n, by simp [fieldsOf, lookup_concat hk], rfl⟩
    | _ => cases h
  rw [if_neg h8] at h
  by_cases h9 : k = "before"
  · rw [if_pos h9] at h
    subst h9
    obtain ⟨f, hf, rfl⟩ := map_ok h
    replace hf := mustDate_ok hf
    exact ⟨by simp [legal, hf], n, by simp [fieldsOf, lookup_concat hk, hf], rfl⟩
  rw [if_neg h9] at h
  by_cases h10 : k = "after"
  · rw [if_pos h10] at h
    subst h10
    obtain ⟨f, hf, rfl⟩ := map_ok h
    replace hf := mustDate_ok hf
    exact ⟨by simp [legal, hf], n, by simp [fieldsOf, lookup_concat hk, hf], rfl⟩
  rw [if_neg h10] at h
  by_cases h11 : k = "not"
  · rw [if_pos h11] at h
    subst h11
    obtain ⟨s, hs, rfl⟩ := map_ok h
    refine ⟨rfl, some s, by simp [fieldsOf, lookup_concat hk], s, ?_, rfl⟩
    cases sub with
    | error e => cases hs
    | ok s' => cases hs; rfl
  · rw [if_neg h11] at h
    cases h

theorem parseCondMap_concat : parseCondMap L (m ++ [(k, v)]) c =
    match parseCondMap L m c with
    | .ok c => setOperator L k v (parseMatchCond L v) c
    | .error e => .error e := by
  induction m generalizing c with
  | nil =>
    simp only [List.nil_append, parseCondMap]
    cases setOperator L k v (parseMatchCond L v) c <;> rfl
  | cons e m ih =>
    obtain ⟨l, w⟩ := e
    simp only [List.cons_append, parseCondMap]
    cases setOperator L l w (parseMatchCond L w) c with
    | ok c => exact ih
    | error e => rfl

/-- The condition that an accepted table becomes, whatever the order in which its keys are visited. -/
theorem parseCondMap_ok (hm : (m.map Prod.fst).Nodup) (h : parseCondMap L m ⟨{}, none⟩ = .ok c) :
    (∀ k v, m.lookup k = some v → legal L k v = true) ∧ ∃ n, c = ⟨fieldsOf L m, n⟩ ∧
      match m.lookup "not" with
      | none => n = none
      | some v => ∃ s, parseMatchCond L v = .ok s ∧ n = some s := by
  induction m using List.reverseRecOn generalizing c with
  | nil => cases h; exact ⟨fun _ _ h => (nomatch h), none, rfl, rfl⟩
  | append_singleton m e ih =>
    obtain ⟨k, v⟩ := e
    rw [List.map_append, List.nodup_append] at hm
    have hk : m.lookup k = none := List.lookup_eq_none_iff.mpr fun p hp =>
      bne_iff_ne.mpr (hm.2.2 p.1 (List.mem_map_of_mem hp) k (by simp)).symm
    rw [parseCondMap_concat] at h
    cases hc : parseCondMap L m ⟨{}, none⟩ with
    | error e => rw [hc] at h; cases h
    | ok c' =>
      obtain ⟨hlegal, n, rfl, hn⟩ := ih hm.1 hc
      rw [hc] at h
      obtain ⟨hv, n', rfl, hn'⟩ := setOperator_ok hk h
      refine ⟨fun l w hl => ?_, n', rfl, ?_⟩
      · rw [lookup_concat hk] at hl
        split_ifs at hl with hlk
        · cases hl; rw [hlk]; exact hv
        · exact hlegal l w hl
      · rw [lookup_concat hk]
        by_cases hnot : "not" = k
        · rw [if_pos hnot.symm] at hn'
          rw [if_pos hnot]
          exact hn'
        · rw [if_neg (Ne.symm hnot)] at hn'
          rw [if_neg hnot, hn']
          exact hn

/-- The tests of one group, as the evaluator makes them. -/
def testGroup (m : List (String × Value F)) (val : Value F) (g : List String) : Option Bool :=
  if g.any fun k => (m.lookup k).any (uncomparable L k · val) then none
  else some (g.all fun k => (m.lookup k).all (passes L k · val))

theorem memberOf_eq {items : List (Value F)} (h : memberOf L items val ≠ none) :
    memberOf L items val = some (items.any fun item => equalValues L item val = some true) := by
  induction items with
  | nil => rfl
  | cons item items ih =>
    simp only [memberOf] at h ⊢
    cases heq : equalValues L item val with
    | none => rw [heq] at h; exact absurd rfl h
    | some b =>
      cases b with
      | true => simp [heq]
      | false =>
        rw [heq] at h
        simp [heq, ih h]

theorem test_glob {s : String} (h : m.lookup "glob" = some (.text s)) :
    testGroup (L := L) m val ["glob"] = some (globMatch L s val) := by
  simp [testGroup, h, uncomparable, passes, operatorHolds]

theorem test_eq (h : m.lookup "eq" = some v) : testGroup (L := L) m val ["eq"] = equalValues L v val := by
  cases hv : equalValues L v val <;> simp [testGroup, h, uncomparable, passes, operatorHolds, hv]

theorem test_in {items : List (Value F)} (h : m.lookup "in" = some (.array items)) :
    testGroup (L := L) m val ["in"] = memberOf L items val := by
  by_cases hin : memberOf L items val = none
  · simp [testGroup, h, uncomparable, hin]
  · rw [memberOf_eq hin]
    simp [testGroup, h, uncomparable, passes, operatorHolds, hin]

theorem test_between {r : F × F} (h : m.lookup "between" = some v) (hv : rangeOf L v = some r) :
    testGroup (L := L) m val ["between"] = some (inRange L r val) := by
  simp [testGroup, h, uncomparable, passes, operatorHolds, hv]

theorem test_before {t : ℤ} (h : m.lookup "before" = some v) (hv : dateOf L v = some t) :
    testGroup (L := L) m val ["before"] = some ((toTime L val).any (· < t)) := by
  cases hu : toTime L val <;> simp [testGroup, h, uncomparable, passes, operatorHolds, dated, hv, hu]

theorem test_after {t : ℤ} (h : m.lookup "after" = some v) (hv : dateOf L v = some t) :
    testGroup (L := L) m val ["after"] = some ((toTime L val).any (t < ·)) := by
  cases hu : toTime L val <;> simp [testGroup, h, uncomparable, passes, operatorHolds, dated, hv, hu]

/-- A bound that the parser took lets a number pass that it does not refute. -/
theorem bound_passes {x : Option (Value F)} {r : F → F → Bool} {n : F}
    (hx : ∀ v, x = some v → (toFloat L v).isSome) (hn : toFloat L val = some n) :
    x.all (compares L (fun b n => !r b n) · val) = !(x.bind (toFloat L)).any (r · n) := by
  cases x with
  | none => rfl
  | some v =>
    obtain ⟨b, hb⟩ := Option.isSome_iff_exists.mp (hx v rfl)
    simp [compares, hb, hn]

/-- No bound lets anything but a number pass. -/
theorem bound_fails {r : F → F → Bool} (hn : toFloat L val = none) : compares L r v val = false := by
  cases hv : toFloat L v <;> simp [compares, hv, hn]

theorem test_numeric (hlegal : ∀ k v, m.lookup k = some v → legal L k v = true)
    (h : hasNumericComparators (fieldsOf L m) = true) :
    testGroup (L := L) m val ["gte", "lte", "gt", "lt"] =
      some (evalNumericComparators L (fieldsOf L m) val) := by
  have hbound : ∀ k, k = "gte" ∨ k = "lte" ∨ k = "gt" ∨ k = "lt" → ∀ v, m.lookup k = some v →
      (toFloat L v).isSome := by
    intro k hk v hv
    have := hlegal k v hv
    rcases hk with rfl | rfl | rfl | rfl <;> simpa [legal] using this
  have hsafe : (["gte", "lte", "gt", "lt"].any fun k => (m.lookup k).any (uncomparable L k · val)) = false := by
    simp [uncomparable]
  rw [testGroup, hsafe, if_neg Bool.false_ne_true]
  cases hn : toFloat L val with
  | none =>
    rw [evalNumericComparators, hn]
    obtain ⟨k, hk, v, hv⟩ : ∃ k, (k = "gte" ∨ k = "lte" ∨ k = "gt" ∨ k = "lt") ∧ ∃ v, m.lookup k = some v := by
      simp only [hasNumericComparators, fieldsOf, Bool.or_eq_true] at h
      rcases h with ((h | h) | h) | h
      all_goals
        obtain ⟨v, hv, -⟩ := Option.bind_eq_some_iff.mp (Option.isSome_iff_exists.mp h).choose_spec
        exact ⟨_, by simp, v, hv⟩
    refine congrArg some (List.all_eq_false.mpr ⟨k, by simpa using hk, ?_⟩)
    rcases hk with rfl | rfl | rfl | rfl <;> simp [hv, passes, bound_fails hn]
  | some n =>
    rw [evalNumericComparators, hn]
    have h1 := bound_passes (r := fun b n => L.lt n b) (hbound "gte" (by simp)) hn
    have h2 := bound_passes (r := fun b n => L.lt b n) (hbound "lte" (by simp)) hn
    have h3 := bound_passes (r := fun b n => L.le n b) (hbound "gt" (by simp)) hn
    have h4 := bound_passes (r := fun b n => L.le b n) (hbound "lt" (by simp)) hn
    simp [passes, h1, h2, h3, h4, fieldsOf, Bool.and_assoc]

theorem seen_eq_true (hk : k ≠ "glob" ∧ k ≠ "eq" ∧ k ≠ "in") : seen k v = true := by
  cases v <;> simp [seen, hk]

theorem any_seen {x : Option (Value F)} (hk : k ≠ "glob" ∧ k ≠ "eq" ∧ k ≠ "in") : x.any (seen k) = x.isSome := by
  cases x with
  | none => rfl
  | some v => exact seen_eq_true hk

/-- A legal operand is not lost on the way into its field. -/
theorem isSome_bind {α : Type} {x : Option (Value F)} {f : Value F → Option α} (hx : ∀ v, x = some v → (f v).isSome) :
    (x.bind f).isSome = x.isSome := by
  cases x with
  | none => rfl
  | some v => exact hx v rfl

theorem hasNumericComparators_eq (hlegal : ∀ k v, m.lookup k = some v → legal L k v = true) :
    hasNumericComparators (fieldsOf L m) =
      (["gte", "lte", "gt", "lt"].any fun k => (m.lookup k).any (seen k)) := by
  simp only [hasNumericComparators, fieldsOf, List.any_cons, List.any_nil, Bool.or_false, Bool.or_assoc]
  rw [any_seen (by decide), any_seen (by decide), any_seen (by decide), any_seen (by decide),
    isSome_bind fun v hv => ?_, isSome_bind fun v hv => ?_, isSome_bind fun v hv => ?_, isSome_bind fun v hv => ?_]
  all_goals simpa [legal] using hlegal _ v hv

theorem glob_seen (hlegal : ∀ k v, m.lookup k = some v → legal L k v = true)
    (h : (m.lookup "glob").any (seen "glob") = true) : ∃ s, m.lookup "glob" = some (.text s) ∧ s ≠ "" := by
  obtain ⟨v, hv, hseen⟩ := (Option.any_eq_true _ _).mp h
  have hv' := hlegal _ v hv
  cases v with
  | text s => exact ⟨s, hv, by simpa [seen] using hseen⟩
  | _ => cases hv'

theorem glob_unseen (h : ¬ (m.lookup "glob").any (seen "glob") = true) : (fieldsOf L m).glob = "" := by
  unfold fieldsOf
  cases hv : m.lookup "glob" with
  | none => rfl
  | some v =>
    cases v with
    | text s => simpa [hv, seen] using h
    | _ => rfl

theorem eq_unseen (h : ¬ (m.lookup "eq").any (seen "eq") = true) : (fieldsOf L m).eq = .null := by
  unfold fieldsOf
  cases hv : m.lookup "eq" with
  | none => rfl
  | some v =>
    cases v with
    | null => rfl
    | _ => simp [hv, seen] at h

theorem in_seen (hlegal : ∀ k v, m.lookup k = some v → legal L k v = true)
    (h : (m.lookup "in").any (seen "in") = true) : ∃ items, m.lookup "in" = some (.array items) ∧ items ≠ [] := by
  obtain ⟨v, hv, hseen⟩ := (Option.any_eq_true _ _).mp h
  have hv' := hlegal _ v hv
  cases v with
  | array items => exact ⟨items, hv, by simpa [seen] using hseen⟩
  | _ => cases hv'

theorem in_unseen (h : ¬ (m.lookup "in").any (seen "in") = true) : (fieldsOf L m).inList = [] := by
  unfold fieldsOf
  cases hv : m.lookup "in" with
  | none => rfl
  | some v =>
    cases v with
    | array items => simpa [hv, seen] using h
    | _ => rfl

/-- An operator that is seen whenever it is there. -/
theorem lookup_unseen {k : String} (hk : k ≠ "glob" ∧ k ≠ "eq" ∧ k ≠ "in") (h : ¬ (m.lookup k).any (seen k) = true) :
    m.lookup k = none := by
  rwa [any_seen hk, Bool.not_eq_true, Option.isSome_eq_false_iff, Option.isNone_iff_eq_none] at h

/-- **What the evaluator makes of a table without a `not`.** -/
theorem evalFields_eq (hlegal : ∀ k v, m.lookup k = some v → legal L k v = true) :
    evalFields L (fieldsOf L m) val =
      if lookedAt m = [] then some false else testGroup (L := L) m val (lookedAt m) := by
  have hnum := hasNumericComparators_eq hlegal
  unfold lookedAt groups evalFields
  by_cases h1 : (m.lookup "glob").any (seen "glob") = true
  · obtain ⟨s, hv, hs⟩ := glob_seen hlegal h1
    rw [List.find?_cons_of_pos (by simpa using h1)]
    simp [fieldsOf, hv, hs, test_glob hv]
  rw [List.find?_cons_of_neg (by simpa using h1), if_neg (not_not.mpr (glob_unseen h1))]
  by_cases h2 : (m.lookup "eq").any (seen "eq") = true
  · obtain ⟨v, hv, hseen⟩ := (Option.any_eq_true _ _).mp h2
    have heq : (fieldsOf L m).eq = v := by simp [fieldsOf, hv]
    rw [List.find?_cons_of_pos (by simpa using h2), heq]
    cases v with
    | null => cases hseen
    | _ => exact (test_eq hv).symm
  rw [List.find?_cons_of_neg (by simpa using h2), eq_unseen h2]
  simp only
  by_cases h3 : hasNumericComparators (fieldsOf L m) = true
  · rw [List.find?_cons_of_pos (hnum ▸ h3), if_pos h3, ← test_numeric hlegal h3]
    rfl
  rw [List.find?_cons_of_neg (hnum ▸ h3), if_neg h3]
  by_cases h4 : (m.lookup "between").any (seen "between") = true
  · obtain ⟨v, hv, -⟩ := (Option.any_eq_true _ _).mp h4
    obtain ⟨r, hr⟩ := Option.isSome_iff_exists.mp (by simpa [legal] using hlegal _ v hv : (rangeOf L v).isSome)
    rw [List.find?_cons_of_pos (by simpa using h4)]
    simp [fieldsOf, hv, hr, test_between hv hr]
  have hbetween : (fieldsOf L m).between = none := by simp [fieldsOf, lookup_unseen (by decide) h4]
  rw [List.find?_cons_of_neg (by simpa using h4), hbetween]
  simp only
  by_cases h5 : (m.lookup "in").any (seen "in") = true
  · obtain ⟨items, hv, hitems⟩ := in_seen hlegal h5
    rw [List.find?_cons_of_pos (by simpa using h5)]
    simp [fieldsOf, hv, hitems, test_in hv]
  rw [List.find?_cons_of_neg (by simpa using h5), if_neg (not_not.mpr (in_unseen h5))]
  by_cases h6 : (m.lookup "before").any (seen "before") = true
  · obtain ⟨v, hv, -⟩ := (Option.any_eq_true _ _).mp h6
    obtain ⟨r, hr⟩ := Option.isSome_iff_exists.mp (by simpa [legal] using hlegal _ v hv : (dateOf L v).isSome)
    rw [List.find?_cons_of_pos (by simpa using h6)]
    simp [fieldsOf, hv, hr, test_before hv hr]
  have hbefore : (fieldsOf L m).before = none := by simp [fieldsOf, lookup_unseen (by decide) h6]
  rw [List.find?_cons_of_neg (by simpa using h6), hbefore]
  simp only
  by_cases h7 : (m.lookup "after").any (seen "after") = true
  · obtain ⟨v, hv, -⟩ := (Option.any_eq_true _ _).mp h7
    obtain ⟨r, hr⟩ := Option.isSome_iff_exists.mp (by simpa [legal] using hlegal _ v hv : (dateOf L v).isSome)
    rw [List.find?_cons_of_pos (by simpa using h7)]
    simp [fieldsOf, hv, hr, test_after hv hr]
  have hafter : (fieldsOf L m).after = none := by simp [fieldsOf, lookup_unseen (by decide) h7]
  rw [List.find?_cons_of_neg (by simpa using h7), hafter]
  rfl

/-! ### The evaluator against the meaning -/

theorem allHold_eq : allHold L m val = m.all fun e => operatorHolds L e.1 e.2 (holds L e.2 val) val := by
  induction m with
  | nil => rfl
  | cons e m ih =>
    obtain ⟨k, v⟩ := e
    rw [allHold, ih, List.all_cons]

theorem panicsNot_eq : panicsNot L m val = (m.lookup "not").map (panics L · val) := by
  induction m with
  | nil => rfl
  | cons e m ih =>
    obtain ⟨k, v⟩ := e
    rw [panicsNot, List.lookup_cons]
    by_cases hk : k = "not"
    · rw [if_pos hk, hk, beq_self_eq_true]; rfl
    · rw [if_neg hk, beq_eq_false_iff_ne.mpr (Ne.symm hk)]
      exact ih

theorem exactNot_eq {others : Bool} : exactNot L others m val = (m.lookup "not").map fun v =>
    if exact L v val then holds L v val || others else !panics L v val && !holds L v val && !others := by
  induction m with
  | nil => rfl
  | cons e m ih =>
    obtain ⟨k, v⟩ := e
    rw [exactNot, List.lookup_cons]
    by_cases hk : k = "not"
    · rw [if_pos hk, hk, beq_self_eq_true]; rfl
    · rw [if_neg hk, beq_eq_false_iff_ne.mpr (Ne.symm hk)]
      exact ih

/-- Only a `not` looks at its operand as a condition. -/
theorem operatorHolds_congr (hk : k ≠ "not") (b b' : Bool) :
    operatorHolds L k v b val = operatorHolds L k v b' val := by
  simp [operatorHolds, hk]

/-- What holds passes: a number beyond a bound is not on this side of it. -/
theorem passes_of_holds (hk : k ≠ "not") {b : Bool} (h : operatorHolds L k v b val = true) :
    passes L k v val = true := by
  have hle : ∀ {a b : F}, L.le a b = true → (!L.lt b a) = true := fun h => by
    rw [Bool.not_eq_true']
    exact Bool.eq_false_iff.mpr fun hlt => by rw [L.not_le_of_lt hlt] at h; cases h
  have hlt : ∀ {a b : F}, L.lt a b = true → (!L.le b a) = true := fun h => by
    rw [L.not_le_of_lt h]; rfl
  have hmono : ∀ {r r' : F → F → Bool}, (∀ {a b}, r a b = true → r' a b = true) → compares L r v val = true →
      compares L r' v val = true := by
    intro r r' hr h
    unfold compares at h ⊢
    split at h
    · exact hr h
    · cases h
  unfold passes
  by_cases h1 : k = "gte"
  · rw [if_pos h1]
    subst h1
    exact hmono hle (by simpa [operatorHolds] using h)
  rw [if_neg h1]
  by_cases h2 : k = "lte"
  · rw [if_pos h2]
    subst h2
    exact hmono hle (by simpa [operatorHolds] using h)
  rw [if_neg h2]
  by_cases h3 : k = "gt"
  · rw [if_pos h3]
    subst h3
    exact hmono hlt (by simpa [operatorHolds] using h)
  rw [if_neg h3]
  by_cases h4 : k = "lt"
  · rw [if_pos h4]
    subst h4
    exact hmono hlt (by simpa [operatorHolds] using h)
  rw [if_neg h4, operatorHolds_congr hk false b]
  exact h

theorem lookedAt_ne_not (h : k ∈ lookedAt m) : k ≠ "not" := by
  unfold lookedAt at h
  cases hf : groups.find? fun g => g.any fun k => (m.lookup k).any (seen k) with
  | none => rw [hf] at h; cases h
  | some g =>
    rw [hf] at h
    rintro rfl
    exact (by decide : ∀ g ∈ groups, "not" ∉ g) g (List.mem_of_find?_eq_some hf) h

theorem mem_of_lookup (h : m.lookup k = some v) : (k, v) ∈ m := by
  obtain ⟨l₁, l₂, rfl, -⟩ := List.lookup_eq_some_iff.mp h
  simp

theorem lookedPass_of_allHold (h : allHold L m val = true) : lookedPass L m val = true := by
  rw [allHold_eq, List.all_eq_true] at h
  refine List.all_eq_true.mpr fun k hk => (Option.all_eq_true _ _).mpr fun v hv => ?_
  exact passes_of_holds (lookedAt_ne_not hk) (h (k, v) (mem_of_lookup hv))

theorem isMap_of_mem (h : areMaps m = true) (hm : (k, v) ∈ m) : isMap v = true := by
  induction m with
  | nil => cases hm
  | cons e m ih =>
    obtain ⟨l, w⟩ := e
    rw [areMaps, Bool.and_eq_true] at h
    rcases List.mem_cons.mp hm with heq | hm
    · cases heq; exact h.1
    · exact ih h.2 hm

/-- The operators of a table with a `not`: the `not` and the others. -/
theorem allHold_not {sub : Value F} (hm : (m.map Prod.fst).Nodup) (h : m.lookup "not" = some sub) :
    allHold L m val =
      (!holds L sub val && m.all fun e => e.1 = "not" || operatorHolds L e.1 e.2 false val) := by
  rw [allHold_eq, Bool.eq_iff_iff, Bool.and_eq_true]
  have hnot : ∀ v, (("not", v) : String × Value F) ∈ m → v = sub := fun v hv =>
    congrArg Prod.snd (List.inj_on_of_nodup_map hm hv (mem_of_lookup h) rfl)
  constructor
  · intro hall
    rw [List.all_eq_true] at hall
    refine ⟨by simpa [operatorHolds] using hall _ (mem_of_lookup h), List.all_eq_true.mpr fun e he => ?_⟩
    by_cases hk : e.1 = "not"
    · simp [hk]
    · rw [operatorHolds_congr hk false (holds L e.2 val), hall e he, Bool.or_true]
  · rintro ⟨hsub, hall⟩
    rw [List.all_eq_true] at hall
    refine List.all_eq_true.mpr fun e he => ?_
    obtain ⟨k, v⟩ := e
    by_cases hk : k = "not"
    · subst hk
      rw [hnot v he]
      simpa [operatorHolds] using hsub
    · have := hall _ he
      rw [operatorHolds_congr hk (holds L v val) false]
      simpa [hk] using this

/-- A table without a `not`. -/
theorem panics_plain (h : m.lookup "not" = none) :
    panics L (.table m) val = (lookedAt m).any fun k => (m.lookup k).any (uncomparable L k · val) := by
  simp [panics, panicsNot_eq, h]

theorem exact_plain (h : m.lookup "not" = none) : exact L (.table m) val = (!panics L (.table m) val &&
    if lookedAt m = [] then !allHold L m val else !lookedPass L m val || allHold L m val) := by
  simp [exact, exactNot_eq, h]

theorem sizeOf_lookup (h : m.lookup k = some v) : sizeOf v < sizeOf (Value.table m) := by
  have h1 := List.sizeOf_lt_of_mem (mem_of_lookup h)
  have h2 : sizeOf (k, v) = 1 + sizeOf k + sizeOf v := rfl
  rw [Value.table.sizeOf_spec]
  omega

/-- It panics, and it holds if and only if its operators do, just when the table says so. -/
def Law (L : Library F) (raw val : Value F) (c : MatchCond F) : Prop :=
  (evalCond L c val = none ↔ panics L raw val = true) ∧
    (evalCond L c val = some (holds L raw val) ↔ exact L raw val = true)

theorem law_text {s : String} : Law L (.text s) val ⟨{ glob := s }, none⟩ := by
  by_cases hs : s = ""
  · simp [Law, evalCond, evalFields, panics, holds, exact, hs, hasNumericComparators]
  · simp [Law, evalCond, evalFields, panics, holds, exact, hs]

theorem law_plain (hlegal : ∀ k v, m.lookup k = some v → legal L k v = true) (h : m.lookup "not" = none) :
    Law L (.table m) val ⟨fieldsOf L m, none⟩ := by
  rw [Law, evalCond, evalFields_eq hlegal, exact_plain h, panics_plain h, holds]
  by_cases hl : lookedAt m = []
  · simp [hl]
  rw [if_neg hl, if_neg hl, testGroup]
  cases (lookedAt m).any fun k => (m.lookup k).any (uncomparable L k · val) with
  | true => simp
  | false =>
    have hle : allHold L m val = true → lookedPass L m val = true := lookedPass_of_allHold
    rw [if_neg Bool.false_ne_true, ← lookedPass]
    cases hh : allHold L m val with
    | true => simp [hle hh]
    | false => simp

theorem law_not {sub : Value F} {s : MatchCond F} {fields : Fields F} (hm : (m.map Prod.fst).Nodup)
    (h : m.lookup "not" = some sub) (hsub : Law L sub val s) : Law L (.table m) val ⟨fields, some s⟩ := by
  obtain ⟨hnone, hsome⟩ := hsub
  rw [Law, evalCond, holds, allHold_not hm h, panics, exact, panicsNot_eq, exactNot_eq, h]
  generalize (m.all fun e => e.1 = "not" || operatorHolds L e.1 e.2 false val) = others
  simp only [Option.map_some, Option.getD_some]
  cases hs : evalCond L s val with
  | none =>
    have hp : panics L sub val = true := hnone.mp hs
    have he : exact L sub val = false := Bool.eq_false_iff.mpr fun he => by
      rw [hs] at hsome
      cases hsome.mpr he
    simp [hp, he]
  | some b =>
    have hp : panics L sub val = false := Bool.eq_false_iff.mpr fun hp => by
      rw [hs] at hnone
      cases hnone.mpr hp
    have he : exact L sub val = decide (b = holds L sub val) := by
      rw [hs, Option.some.injEq] at hsome
      rw [Bool.eq_iff_iff, decide_eq_true_eq]
      exact hsome.symm
    rw [hp, he]
    cases b <;> cases holds L sub val <;> cases others <;> decide

/-- **One condition.** Of what the parser makes of a condition, the law holds for every value. -/
theorem evalCond_law {raw : Value F} (hmap : isMap raw = true) (h : parseMatchCond L raw = .ok c) :
    Law L raw val c := by
  induction hsize : sizeOf raw using Nat.strongRecOn generalizing raw c with
  | _ size ih =>
  cases raw with
  | text s => cases h; exact law_text
  | table m =>
    rw [isMap, Bool.and_eq_true, decide_eq_true_eq] at hmap
    rw [parseMatchCond] at h
    obtain ⟨hlegal, n, rfl, hn⟩ := parseCondMap_ok hmap.1 h
    cases hsub : m.lookup "not" with
    | none =>
      rw [hsub] at hn
      subst hn
      exact law_plain hlegal hsub
    | some sub =>
      rw [hsub] at hn
      obtain ⟨s, hs, rfl⟩ := hn
      exact law_not hmap.1 hsub
        (ih _ (hsize ▸ sizeOf_lookup hsub) (isMap_of_mem hmap.2 (mem_of_lookup hsub)) hs rfl)
  | _ => cases h

/-! ### A rule -/

theorem parseMatch_ok {name : String} {raws : List (String × Value F)} {conds : List (String × MatchCond F)}
    (h : parseMatch L name raws = .ok conds) :
    List.Forall₂ (fun e p => p.1 = e.1 ∧ parseMatchCond L e.2 = .ok p.2) raws conds := by
  induction raws generalizing conds with
  | nil => cases h; exact .nil
  | cons e raws ih =>
    obtain ⟨field, raw⟩ := e
    simp only [parseMatch] at h
    cases hc : parseMatchCond L raw with
    | error e => rw [hc] at h; cases h
    | ok cond =>
      rw [hc] at h
      obtain ⟨rest, hrest, rfl⟩ := map_ok h
      exact .cons ⟨rfl, hc⟩ (ih hrest)

/-- A loop that meets no panic stops early without a difference. -/
theorem matchLoop_eq {any : Bool} {md : String → Value F} {conds : List (String × MatchCond F)}
    {r : String × MatchCond F → Bool} (h : ∀ p ∈ conds, evalCond L p.2 (md p.1) = some (r p)) :
    matchLoop L any md conds = some (if any then conds.any r else conds.all r) := by
  induction conds with
  | nil => cases any <;> rfl
  | cons p conds ih =>
    obtain ⟨field, cond⟩ := p
    have hp := h (field, cond) (by simp)
    have ih := ih fun p hp => h p (List.mem_cons_of_mem _ hp)
    simp only [matchLoop, hp]
    cases hr : r (field, cond) <;> cases any <;> simp [hr, ih]

theorem forall₂_exists {α β : Type} {R : α → β → Prop} {l : List α} {l' : List β} (h : List.Forall₂ R l l') :
    ∀ a ∈ l, ∃ b ∈ l', R a b := by
  induction h with
  | nil => simp
  | cons hab _ ih =>
    intro a ha
    rcases List.mem_cons.mp ha with rfl | ha
    · exact ⟨_, by simp, hab⟩
    · obtain ⟨b, hb, hab⟩ := ih a ha
      exact ⟨b, List.mem_cons_of_mem _ hb, hab⟩

theorem forall₂_any {α β : Type} {R : α → β → Prop} {l : List α} {l' : List β} {p : α → Bool} {q : β → Bool}
    (h : List.Forall₂ R l l') (hR : ∀ a ∈ l, ∀ b, R a b → p a = q b) : l.any p = l'.any q ∧ l.all p = l'.all q := by
  induction h with
  | nil => exact ⟨rfl, rfl⟩
  | cons hab _ ih =>
    obtain ⟨ih1, ih2⟩ := ih fun a ha => hR a (List.mem_cons_of_mem _ ha)
    rw [List.any_cons, List.any_cons, List.all_cons, List.all_cons, ih1, ih2, hR _ (by simp) _ hab]
    exact ⟨rfl, rfl⟩

/-- **What a rule says.** Each condition holds just when all its operators do, and the rule fires, in whatever order
its conditions are visited, just when they all hold or with `any` one of them, if and only if for every condition
what the evaluator leaves out makes no difference. -/
theorem conditions_exact_iff {name : String} {priority : ℤ} {tags : List String} {any : Bool}
    {raws : List (String × Value F)} {conds : List (String × MatchCond F)} (hne : raws ≠ [])
    (hmap : ∀ e ∈ raws, isMap e.2 = true) (h : parseMatch L name raws = .ok conds) (md : String → Value F) :
    ((∀ e ∈ raws, ∀ cond, parseMatchCond L e.2 = .ok cond →
        evalCond L cond (md e.1) = some (holds L e.2 (md e.1))) ∧
      ∀ order : List (String × MatchCond F), order.Perm conds →
        TOMLRule.matches_ L ⟨name, priority, tags, any, order⟩ md = some (if any
          then raws.any fun e => holds L e.2 (md e.1)
          else raws.all fun e => holds L e.2 (md e.1))) ↔
      ∀ e ∈ raws, exact L e.2 (md e.1) = true := by
  have hforall := parseMatch_ok h
  constructor
  · rintro ⟨hcond, -⟩ e he
    obtain ⟨p, -, -, hp⟩ := forall₂_exists hforall e he
    exact (evalCond_law (hmap e he) hp).2.mp (hcond e he p.2 hp)
  · intro hexact
    have hcond : ∀ e ∈ raws, ∀ cond, parseMatchCond L e.2 = .ok cond →
        evalCond L cond (md e.1) = some (holds L e.2 (md e.1)) :=
      fun e he cond hc => (evalCond_law (hmap e he) hc).2.mpr (hexact e he)
    refine ⟨hcond, fun order hperm => ?_⟩
    let r (p : String × MatchCond F) : Bool := (evalCond L p.2 (md p.1)).getD false
    have hr : ∀ e ∈ raws, ∀ p : String × MatchCond F, p.1 = e.1 ∧ parseMatchCond L e.2 = .ok p.2 →
        evalCond L p.2 (md p.1) = some (holds L e.2 (md e.1)) := by
      rintro e he p ⟨hfield, hp⟩
      rw [hfield, hcond e he p.2 hp]
    obtain ⟨hany, hall⟩ := forall₂_any hforall (p := fun e => holds L e.2 (md e.1)) (q := r)
      fun e he p hp => by simp only [r, hr e he p hp, Option.getD_some]
    have hsome : ∀ p ∈ order, evalCond L p.2 (md p.1) = some (r p) := by
      intro p hp
      obtain ⟨e, he, hep⟩ := forall₂_exists hforall.flip p (hperm.mem_iff.mp hp)
      simp only [r, hr e he p hep, Option.getD_some]
    have hcne : order ≠ [] := by
      rintro rfl
      rw [← hperm.nil_eq] at hforall
      exact hne (List.forall₂_nil_right_iff.mp hforall)
    rw [TOMLRule.matches_, if_neg hcne, matchLoop_eq hsome, hperm.any_eq, hperm.all_eq, ← hany, ← hall]

/-! ### A width of at least 1280 that is not 1920 -/

/-- The library on whole numbers. -/
def wholeNumbers : Library ℤ where
  ofInt n := n
  lt a b := a < b
  le a b := a ≤ b
  same a b := a = b
  near a b := a = b
  fnmatch pattern s := pattern = s
  parseDate _ := none
  parseTime _ := none
  unix n := n
  unixInt n := n
  not_le_of_lt h := by simpa using h

/-- `{gte = 1280, not = {eq = 1920}}`. -/
def wideCond : Value ℤ := .table [("gte", .int 1280), ("not", .table [("eq", .int 1920)])]

/-- What it becomes. -/
def wideMatch : MatchCond ℤ := ⟨{ gte := some 1280 }, some ⟨{ eq := .int 1920 }, none⟩⟩

/-- A width of 640 is below the bound, and yet the condition holds. -/
theorem bound_ignored : parseMatchCond wholeNumbers wideCond = .ok wideMatch ∧
    evalCond wholeNumbers wideMatch (.int 640) = some true ∧ holds wholeNumbers wideCond (.int 640) = false :=
  ⟨rfl, by decide, by decide⟩

theorem conditions_exact_iff_wide :
    TOMLRule.matches_ wholeNumbers ⟨"wide", 0, ["wide"], false, [("width", wideMatch)]⟩ (fun _ => .int 1600) =
      some true :=
  ((@conditions_exact_iff ℤ wholeNumbers "wide" 0 ["wide"] false [("width", wideCond)] _ (by simp)
    (by simp only [List.mem_singleton, forall_eq]; decide) rfl fun _ => .int 1600).mpr
    (by simp only [List.mem_singleton, forall_eq]; decide)).2 _ (.refl _)

end Tilbo.Rules.Conditions
