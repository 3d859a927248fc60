import Tilbo.Lib.Pairs
import Mathlib.Data.Int.Notation
import Mathlib.Data.List.Induction

/-! # TOML rules

A condition on one metadata field is a glob or a table of operators. `parseMatchCond` turns it into a `MatchCond`,
`evalCond` evaluates that on a value, and `matches_` puts the conditions of a rule together. `F` is the type of 64-bit
floats, and what the program uses of Go's standard library on them is a `Library`. -/

namespace Tilbo.Rules.Toml

variable {F : Type}

/-- A value of Go's type `any`, as TOML, JSON and the harvesters give them. -/
inductive Value (F : Type) where
  /-- `nil`, as of a key that is missing. -/
  | null
  | text (s : String)
  | number (n : F)
  | int (n : ℤ)
  | bool (b : Bool)
  /-- A number of one of the other types that `toFloat` knows, as a float. -/
  | sized (goType : String) (n : F)
  /-- A `time.Time`, by what `==` compares. -/
  | time (t : ℤ)
  | array (items : List (Value F))
  | table (m : List (String × Value F))

/-- `%T`. -/
def Value.goType : Value F → String
  | .null => "<nil>"
  | .text _ => "string"
  | .number _ => "float64"
  | .int _ => "int64"
  | .bool _ => "bool"
  | .sized goType _ => goType
  | .time _ => "time.Time"
  | .array _ => "[]interface \x7b\x7d"
  | .table _ => "map[string]interface \x7b\x7d"

/-- What the standard library does with floats, globs and dates; a moment is a number. -/
structure Library (F : Type) where
  /-- `float64(n)`. -/
  ofInt : ℤ → F
  /-- `a < b`. -/
  lt : F → F → Bool
  /-- `a <= b`. -/
  le : F → F → Bool
  /-- `a == b`. -/
  same : F → F → Bool
  /-- `math.Abs(a-b) < floatEqualEpsilon`. -/
  near : F → F → Bool
  /-- `filepath.Match`, without an error. -/
  fnmatch : String → String → Bool
  /-- `parseDate`. -/
  parseDate : String → Option ℤ
  /-- `time.Parse` with the layouts of `toTime`. -/
  parseTime : String → Option ℤ
  /-- `time.Unix(int64(n), 0)`. -/
  unix : F → ℤ
  /-- The same of an integer. -/
  unixInt : ℤ → ℤ
  /-- Of two floats one can be the lesser. -/
  not_le_of_lt : ∀ {a b : F}, lt a b = true → le b a = false

/-- The fields of `matchCond` apart from `not`; `between` stands for `hasBetween` as well. -/
structure Fields (F : Type) where
  glob : String := ""
  eq : Value F := .null
  gte : Option F := none
  lte : Option F := none
  gt : Option F := none
  lt : Option F := none
  between : Option (F × F) := none
  inList : List (Value F) := []
  before : Option ℤ := none
  after : Option ℤ := none

/-- `matchCond`. -/
inductive MatchCond (F : Type) where
  | mk (fields : Fields F) (not : Option (MatchCond F))

/-! ### Parsing -/

/-- Errors, with the format and its arguments. -/
inductive Error where
  | message (format : String) (args : List String)
  /-- `fmt.Errorf` around another error. -/
  | wrapped (format : String) (args : List String) (cause : Error)
deriving DecidableEq, Repr

variable (L : Library F)

/-- `toFloat`. -/
def toFloat : Value F → Option F
  | .number n => some n
  | .int n => some (L.ofInt n)
  | .sized _ n => some n
  | _ => none

/-- `mustFloat`. -/
def mustFloat (v : Value F) (field : String) : Except Error F :=
  match toFloat L v with
  | some f => .ok f
  | none => .error (.message "%s: expected number, got %T" [field, v.goType])

/-- A `before` or an `after`. -/
def mustDate (v : Value F) (field : String) : Except Error ℤ :=
  match v with
  | .text s => match L.parseDate s with
    | some t => .ok t
    | none => .error (.wrapped (field ++ ": %w") []
      (.message "unsupported date format %q (want 2006-01-02 or RFC3339)" [s]))
  | _ => .error (.message (field ++ ": expected string") [])

/-- A `between`. -/
def mustRange (v : Value F) : Except Error (F × F) :=
  match v with
  | .array [lo, hi] => do
    let mn ← mustFloat L lo "between min"
    let mx ← mustFloat L hi "between max"
    return (mn, mx)
  | _ => .error (.message "between: expected [min, max] array" [])

/-- One iteration of the loop of `parseCondMap`; `sub` is what `parseMatchCond` makes of the value. -/
def setOperator (k : String) (v : Value F) (sub : Except Error (MatchCond F)) : MatchCond F → Except Error (MatchCond F)
  | ⟨c, n⟩ =>
    if k = "glob" then match v with
      | .text s => .ok ⟨{ c with glob := s }, n⟩
      | _ => .error (.message "glob: expected string, got %T" [v.goType])
    else if k = "eq" then .ok ⟨{ c with eq := v }, n⟩
    else if k = "gte" then (mustFloat L v "gte").map fun f => ⟨{ c with gte := some f }, n⟩
    else if k = "lte" then (mustFloat L v "lte").map fun f => ⟨{ c with lte := some f }, n⟩
    else if k = "gt" then (mustFloat L v "gt").map fun f => ⟨{ c with gt := some f }, n⟩
    else if k = "lt" then (mustFloat L v "lt").map fun f => ⟨{ c with lt := some f }, n⟩
    else if k = "between" then (mustRange L v).map fun r => ⟨{ c with between := some r }, n⟩
    else if k = "in" then match v with
      | .array items => .ok ⟨{ c with inList := items }, n⟩
      | _ => .error (.message "in: expected array" [])
    else if k = "before" then (mustDate L v "before").map fun t => ⟨{ c with before := some t }, n⟩
    else if k = "after" then (mustDate L v "after").map fun t => ⟨{ c with after := some t }, n⟩
    else if k = "not" then (sub.mapError (.wrapped "not: %w" [])).map fun s => ⟨c, some s⟩
    else .error (.message "unknown condition operator %q" [k])

mutual

/-- `parseMatchCond`. -/
def parseMatchCond : Value F → Except Error (MatchCond F)
  | .text v => .ok ⟨{ glob := v }, none⟩
  | .table v => parseCondMap v ⟨{}, none⟩
  | raw => .error (.message "unexpected condition type %T" [raw.goType])

/-- `parseCondMap`, in the order in which the range over the map goes. -/
def parseCondMap : List (String × Value F) → MatchCond F → Except Error (MatchCond F)
  | [], cond => .ok cond
  | (k, v) :: m, cond => match setOperator L k v (parseMatchCond v) cond with
    | .ok cond => parseCondMap m cond
    | .error e => .error e

end

/-! ### Evaluation -/

/-- `a == b`; Go panics when it compares two arrays or two maps. -/
def identical : Value F → Value F → Option Bool
  | .array _, .array _ => none
  | .table _, .table _ => none
  | .null, .null => some true
  | .text a, .text b => some (a = b)
  | .number a, .number b => some (L.same a b)
  | .int a, .int b => some (a = b)
  | .bool a, .bool b => some (a = b)
  | .sized s a, .sized t b => some (s = t && L.same a b)
  | .time a, .time b => some (a = b)
  | _, _ => some false

/-- `equalValues`. -/
def equalValues (a b : Value F) : Option Bool :=
  match identical L a b with
  | some false => match toFloat L a, toFloat L b with
    | some fa, some fb => some (L.near fa fb)
    | _, _ => match a, b with
      | .text as, .text bs => some (as = bs)
      | _, _ => some false
  | r => r

/-- `globMatchSimple`. -/
def globMatchSimple (pattern s : String) : Bool :=
  if '*' ∈ pattern.toList then
    let pre := pattern.toList.takeWhile (· ≠ '*')
    let suffix := (pattern.toList.dropWhile (· ≠ '*')).tail
    pre.isPrefixOf s.toList && (suffix = [] || suffix.isSuffixOf (s.toList.drop pre.length))
  else pattern = s

/-- The glob, by `filepath.Match` or by `globMatchSimple`. -/
def globMatch (glob : String) : Value F → Bool
  | .text s => L.fnmatch glob s || globMatchSimple glob s
  | _ => false

/-- `hasNumericComparators`. -/
def hasNumericComparators (c : Fields F) : Bool := c.gte.isSome || c.lte.isSome || c.gt.isSome || c.lt.isSome

/-- `evalNumericComparators`. -/
def evalNumericComparators (c : Fields F) (val : Value F) : Bool :=
  match toFloat L val with
  | none => false
  | some n => !c.gte.any (L.lt n ·) && !c.lte.any (L.lt · n) && !c.gt.any (L.le n ·) && !c.lt.any (L.le · n)

/-- The test for `between`. -/
def inRange (range : F × F) (val : Value F) : Bool := (toFloat L val).any fun n => L.le range.1 n && L.le n range.2

/-- The loop over `in`. -/
def memberOf : List (Value F) → Value F → Option Bool
  | [], _ => some false
  | item :: items, val => match equalValues L item val with
    | none => none
    | some true => some true
    | some false => memberOf items val

/-- `toTime`. -/
def toTime : Value F → Option ℤ
  | .number n => some (L.unix n)
  | .int n => some (L.unixInt n)
  | .text s => L.parseTime s
  | _ => none

/-- `evalCond` without a `not`; nothing stands for a panic. -/
def evalFields (c : Fields F) (val : Value F) : Option Bool :=
  if c.glob ≠ "" then some (globMatch L c.glob val)
  else match c.eq with
  | .null =>
    if hasNumericComparators c then some (evalNumericComparators L c val)
    else match c.between with
    | some range => some (inRange L range val)
    | none =>
      if c.inList ≠ [] then memberOf L c.inList val
      else match c.before with
      | some t => some ((toTime L val).any (· < t))
      | none => match c.after with
        | some t => some ((toTime L val).any (t < ·))
        | none => some false
  | v => equalValues L v val

/-- `evalCond`. -/
def evalCond : MatchCond F → Value F → Option Bool
  | ⟨_, some sub⟩, val => (evalCond sub val).map (!·)
  | ⟨c, none⟩, val => evalFields L c val

/-! ### Rules -/

/-- A rule; its conditions come in the order in which the range over the map goes. -/
structure TOMLRule (F : Type) where
  name : String
  priority : ℤ
  tags : List String
  any : Bool
  conditions : List (String × MatchCond F)

/-- The loop of `registerDefs` over the conditions of the rule `name`. -/
def parseMatch (name : String) : List (String × Value F) → Except Error (List (String × MatchCond F))
  | [] => .ok []
  | (field, rawCond) :: m => match parseMatchCond L rawCond with
    | .ok cond => (parseMatch name m).map ((field, cond) :: ·)
    | .error e => .error (.wrapped "rule %q field %q: %w" [name, field] e)

/-- The loop of `matches`. -/
def matchLoop (any : Bool) (md : String → Value F) : List (String × MatchCond F) → Option Bool
  | [] => some (!any)
  | (field, cond) :: conds => match evalCond L cond (md field) with
    | none => none
    | some result =>
      if any && result then some true
      else if !any && !result then some false
      else matchLoop any md conds

/-- `matches`. -/
def TOMLRule.matches_ (r : TOMLRule F) (md : String → Value F) : Option Bool :=
  if r.conditions = [] then some true else matchLoop L r.any md r.conditions

end Tilbo.Rules.Toml
