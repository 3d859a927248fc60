import Tilbo.Rules.Conditions
import Tilbo.Rules.Engine

/-! # Rules on stored metadata

A run evaluates the rules on the values as harvested, and the next one on what `ParseMetaValue` makes of their
texts. The texts do not say of which type a value was: of a string that reads as a boolean or as a number the type
is lost, and of the other values it is not. -/

namespace Tilbo.Rules.Stored

open Tilbo.Harvester.Meta Tilbo.Rules.Toml Tilbo.Rules.Engine Tilbo.Lib.Pairs

variable {F : Type} {P : Platform F} {L : Library F} {k : ℤ}

/-! ### TOML rules in the engine -/

/-- `meta[field]`; `others` are the values of the types that only have a text here. -/
def valueOf (others : String → Value F) : Option (MetaValue F) → Value F
  | none => .null
  | some (.text s) => .text s
  | some (.number n) => .number n
  | some (.bool b) => .bool b
  | some (.other text) => others text

/-- A `TOMLRule` as a `Rule`, with `Eval`; where it would panic it is nothing. -/
def toRule (L : Library F) (others : String → Value F) (r : TOMLRule F) : Rule F where
  name := r.name
  priority := r.priority
  eval md := (r.matches_ L fun field => valueOf others (md field)).map fun b => if b then r.tags else []

/-- The rule comes from a rule file. -/
def Authored (L : Library F) (r : TOMLRule F) : Prop :=
  ∃ raws, parseMatch L r.name raws = .ok r.conditions

/-- The metadata as the next run reads it. -/
def stored (P : Platform F) (md : MetaMap F) : MetaMap F :=
  fun k => (md k).map fun v => parseMetaValue P (valueToString P v)

/-! ### Which values come back -/

/-- What Go promises: an `int64` is of 64 bits, and a number that is not whole reads back. -/
structure Codec (P : Platform F) : Prop where
  int64 : ∀ {n k}, P.toInt n = some k → -2 ^ 63 ≤ k ∧ k ≤ 2 ^ 63 - 1
  reads : ∀ {n}, P.toInt n = none → P.parseFloat (P.formatFloat n) = some n
  notInt : ∀ {n}, P.toInt n = none → parseInt (P.formatFloat n) = none
  notBool : ∀ {n}, P.toInt n = none → P.formatFloat n ≠ "true" ∧ P.formatFloat n ≠ "false"

/-- A string, a boolean, or a number that, if it is whole, an `int64` holds. -/
def Plain (P : Platform F) : MetaValue F → Prop
  | .number n => ∀ k, P.toInt n = some k → P.ofInt k = n
  | .other _ => False
  | _ => True

/-- The digits of a number, as `parseInt` reads them. -/
theorem read_digits {sign bound : ℤ} {m : ℕ} (h : (m : ℤ) ≤ bound) :
    ((if Nat.toDigits 10 m = [] ∨ (Nat.toDigits 10 m).any (fun c => !c.isDigit) then none
      else some ((Nat.toDigits 10 m).foldl (fun n c => 10 * n + (c.toNat - '0'.toNat)) 0)).bind
        fun n : ℕ => if (n : ℤ) ≤ bound then some (sign * n) else none) = some (sign * m) := by
  have hdigits : ¬ (Nat.toDigits 10 m = [] ∨ (Nat.toDigits 10 m).any (fun c => !c.isDigit) = true) := by
    rintro (h | h)
    · exact Nat.toDigits_ne_nil h
    · obtain ⟨c, hc, hnot⟩ := List.any_eq_true.mp h
      rw [Nat.isDigit_of_mem_toDigits (by decide) (by decide) hc] at hnot
      cases hnot
  rw [if_neg hdigits, ← Nat.ofDigitChars_eq_foldl, Nat.ofDigitChars_ten_toDigits, Option.bind_some, if_pos h]

theorem parseInt_toString (h : -2 ^ 63 ≤ k ∧ k ≤ 2 ^ 63 - 1) : parseInt (toString k) = some k := by
  cases k with
  | ofNat m =>
    have hsign : ∀ {c l}, Nat.toDigits 10 m = c :: l → c.isDigit = true := fun hl =>
      Nat.isDigit_of_mem_toDigits (by decide) (by decide) (hl ▸ List.mem_cons_self)
    show parseInt (Nat.repr m) = _
    simp only [parseInt, Nat.toList_repr]
    split
    · next hl => exact absurd (hsign hl) (by decide)
    · next hl => exact absurd (hsign hl) (by decide)
    · rw [read_digits h.2, one_mul]
      rfl
  | negSucc m =>
    have hlist : ("-" ++ Nat.repr (m + 1)).toList = '-' :: Nat.toDigits 10 (m + 1) := by
      rw [String.toList_append, Nat.toList_repr]
      rfl
    show parseInt ("-" ++ Nat.repr (m + 1)) = _
    simp only [parseInt, hlist]
    rw [read_digits (by have := h.1; omega), Int.negSucc_eq, neg_one_mul, Nat.cast_succ]

theorem toString_ne_bool : toString k ≠ "true" ∧ toString k ≠ "false" := by
  have hhead : ∀ c ∈ (toString k).toList.head?, c = '-' ∨ c.isDigit = true := by
    intro c hc
    cases k with
    | ofNat m =>
      rw [show toString (Int.ofNat m) = Nat.repr m from rfl, Nat.toList_repr] at hc
      exact .inr (Nat.isDigit_of_mem_toDigits (by decide) (by decide) (List.mem_of_mem_head? hc))
    | negSucc m =>
      rw [show toString (Int.negSucc m) = "-" ++ Nat.repr (m + 1) from rfl, String.toList_append] at hc
      exact .inl (Option.some.inj hc).symm
  constructor
  · intro h
    exact absurd (hhead 't' (by rw [h]; rfl)) (by decide)
  · intro h
    exact absurd (hhead 'f' (by rw [h]; rfl)) (by decide)

/-- **What comes back.** -/
theorem parse_valueToString (hP : Codec P) {v : MetaValue F} (hv : Plain P v) :
    parseMetaValue P (valueToString P v) = match v with
      | .text s => parseMetaValue P s
      | v => v := by
  cases v with
  | text s => rfl
  | other text => exact hv.elim
  | bool b => cases b <;> simp [valueToString, parseMetaValue]
  | number n =>
    simp only [valueToString]
    cases hn : P.toInt n with
    | some k =>
      simp only [parseMetaValue]
      rw [if_neg toString_ne_bool.1, if_neg toString_ne_bool.2, parseInt_toString (hP.int64 hn)]
      exact congrArg _ (hv k hn)
    | none =>
      simp only [parseMetaValue]
      rw [if_neg (hP.notBool hn).1, if_neg (hP.notBool hn).2, hP.notInt hn, hP.reads hn]

theorem stored_eq (hP : Codec P) {md : MetaMap F} (hmd : ∀ k v, md k = some v → Plain P v)
    (htext : ∀ k s, md k = some (.text s) → parseMetaValue P s = .text s) : stored P md = md := by
  funext k
  unfold stored
  cases hv : md k with
  | none => rfl
  | some v =>
    rw [Option.map_some, parse_valueToString hP (hmd k v hv)]
    cases v with
    | text s => exact congrArg some (htext k s hv)
    | _ => rfl

theorem parseMetaValue_cases (P : Platform F) (s : String) : parseMetaValue P s = .text s ∨
    (∃ b, parseMetaValue P s = .bool b) ∨ ∃ n, parseMetaValue P s = .number n := by
  unfold parseMetaValue
  split_ifs
  · exact .inr (.inl ⟨true, rfl⟩)
  · exact .inr (.inl ⟨false, rfl⟩)
  · split
    · exact .inr (.inr ⟨_, rfl⟩)
    · split
      · exact .inr (.inr ⟨_, rfl⟩)
      · exact .inl rfl

/-! ### A rule that tells the type -/

/-- The rule `t`, for files whose `key` equals the text. -/
def telling (key s : String) : TOMLRule F := ⟨"t", 0, ["t"], false, [(key, ⟨{ eq := .text s }, none⟩)]⟩

theorem authored_telling {key s : String} : Authored L (telling key s) :=
  ⟨[(key, .table [("eq", .text s)])], rfl⟩

theorem eval_telling {others : String → Value F} {key s : String} {md : MetaMap F} {b : Bool}
    (h : equalValues L (.text s) (valueOf others (md key)) = some b) :
    (eval [toRule L others (telling key s)] .inserted md [] []).added = if b then ["t"] else [] := by
  have hmatches : (telling key s).matches_ L (fun field => valueOf others (md field)) = some b := by
    cases b <;> simp [telling, TOMLRule.matches_, matchLoop, evalCond, evalFields, h]
  have heval : (toRule L others (telling key s)).eval md = some (if b then ["t"] else []) := by
    show Option.map _ ((telling key s).matches_ L fun field => valueOf others (md field)) = _
    rw [hmatches]
    rfl
  rw [eval, collect, List.foldl_cons, heval]
  cases b <;> rfl

/-- **Rules see stored and fresh metadata alike**, whatever the rules are, if and only if no string reads as a boolean
or a number. -/
theorem stored_alike_iff (hP : Codec P) (L : Library F) (others : String → Value F) (md : MetaMap F)
    (hmd : ∀ k v, md k = some v → Plain P v) :
    (∀ rules : List (TOMLRule F), (∀ r ∈ rules, Authored L r) → ∀ order existing overrides,
        eval (rules.map (toRule L others)) order (stored P md) existing overrides =
          eval (rules.map (toRule L others)) order md existing overrides) ↔
      ∀ k s, md k = some (.text s) → parseMetaValue P s = .text s := by
  constructor
  · intro h k s hk
    have hrule := congrArg TagDiff.added
      (h [telling k s] (fun r hr => List.mem_singleton.mp hr ▸ authored_telling) .inserted [] [])
    have hfresh : equalValues L (.text s) (valueOf others (md k)) = some true := by
      rw [hk]
      simp [valueOf, equalValues, identical]
    have hback : stored P md k = some (parseMetaValue P s) := by
      unfold stored
      rw [hk]
      rfl
    refine (parseMetaValue_cases P s).resolve_right fun hother => ?_
    have hstale : equalValues L (.text s) (valueOf others (stored P md k)) = some false := by
      rw [hback]
      rcases hother with ⟨b, hb⟩ | ⟨n, hn⟩
      · rw [hb]; rfl
      · rw [hn]; rfl
    rw [List.map_singleton, eval_telling hfresh, eval_telling hstale] at hrule
    cases hrule
  · intro htext rules _ order existing overrides
    rw [stored_eq hP hmd htext]

/-! ### A title that is a year -/

/-- Whole numbers, of which an `int64` does not hold all. -/
def wholePlatform : Platform ℤ where
  ofInt n := n
  parseFloat _ := none
  toInt n := if -2 ^ 63 ≤ n ∧ n ≤ 2 ^ 63 - 1 then some n else some (-2 ^ 63)
  formatFloat _ := ""
  marshal _ := ""
  unmarshal _ := none

theorem wholePlatform_codec : Codec wholePlatform where
  int64 {n k} h := by
    simp only [wholePlatform] at h
    split_ifs at h with hn
    · cases h; exact hn
    · cases h; decide
  reads {n} h := by simp only [wholePlatform] at h; split_ifs at h
  notInt {n} h := by simp only [wholePlatform] at h; split_ifs at h
  notBool {n} h := by simp only [wholePlatform] at h; split_ifs at h

/-- The metadata of a book. -/
def titled (title : String) : MetaMap ℤ := fun k =>
  if k = "title" then some (.text title) else if k = "pages" then some (.number 336) else none

/-- The rules that the evaluations below are about: those of one rule, for one title. -/
def titleRules (title : String) : List (Rule ℤ) :=
  [toRule Conditions.wholeNumbers (fun _ => .null) (telling "title" title)]

/-- The title 1984 comes back as a number, and the rule for it no longer fires. -/
theorem title_lost : (eval (titleRules "1984") .inserted (titled "1984") [] []).added = ["t"] ∧
    (eval (titleRules "1984") .inserted (stored wholePlatform (titled "1984")) [] []).added = [] := by
  decide

theorem stored_alike_iff_dune :
    eval (titleRules "Dune") .inserted (stored wholePlatform (titled "Dune")) [] [] =
      eval (titleRules "Dune") .inserted (titled "Dune") [] [] := by
  have hplain : ∀ k v, titled "Dune" k = some v → Plain wholePlatform v := by
    intro k v h
    unfold titled at h
    split_ifs at h
    · cases h; trivial
    · cases h; intro k hk; cases hk; rfl
  have htext : ∀ k s, titled "Dune" k = some (.text s) → parseMetaValue wholePlatform s = .text s := by
    intro k s h
    unfold titled at h
    split_ifs at h
    · cases h; rfl
    · cases h
  exact (stored_alike_iff wholePlatform_codec Conditions.wholeNumbers (fun _ => .null) (titled "Dune") hplain).mpr htext
    [telling "title" "Dune"] (fun r hr => List.mem_singleton.mp hr ▸ authored_telling) .inserted [] []

end Tilbo.Rules.Stored
