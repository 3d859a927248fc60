import Mathlib

/-! # Harvested metadata

The values of a `harvester.MetaMap` and their texts. `F` is the type of 64-bit floats; what the program
uses of `strconv`, `math` and `encoding/json` is a `Platform`.

A map that is only looked up is a function; one that is ranged over is the list of its pairs. -/

namespace Tilbo.Harvester.Meta

variable {F : Type}

/-- What the standard library does with floats and with JSON objects of strings. -/
structure Platform (F : Type) where
  /-- `float64(n)`. -/
  ofInt : ℤ → F
  /-- `strconv.ParseFloat(s, 64)`. -/
  parseFloat : String → Option F
  /-- `int64(n)`, if `n` is finite and equal to `math.Trunc(n)`. -/
  toInt : F → Option ℤ
  /-- `strconv.FormatFloat(n, 'f', -1, 64)`. -/
  formatFloat : F → String
  /-- `json.Marshal` of a map. -/
  marshal : List (String × String) → String
  /-- `json.Unmarshal` into a map. -/
  unmarshal : String → Option (List (String × String))

/-- A value of a `MetaMap`. Values of other types have the text `fmt.Sprintf("%v", v)`. -/
inductive MetaValue (F : Type) where
  | text (s : String)
  | number (n : F)
  | bool (b : Bool)
  | other (text : String)

/-- `v, _ := value.(string)`, for a value that may be missing. -/
def textOf : Option (MetaValue F) → String
  | some (.text s) => s
  | _ => ""

/-- `strconv.ParseInt(s, 10, 64)`. -/
def parseInt (s : String) : Option ℤ :=
  let digits (l : List Char) : Option ℕ :=
    if l = [] ∨ l.any (fun c => !c.isDigit) then none
    else some (l.foldl (fun n c => 10 * n + (c.toNat - '0'.toNat)) 0)
  let signed (n : Option ℕ) (sign bound : ℤ) : Option ℤ :=
    n.bind fun n => if (n : ℤ) ≤ bound then some (sign * n) else none
  match s.toList with
  | '-' :: l => signed (digits l) (-1) (2 ^ 63)
  | '+' :: l => signed (digits l) 1 (2 ^ 63 - 1)
  | l => signed (digits l) 1 (2 ^ 63 - 1)

/-- `ParseMetaValue`. -/
def parseMetaValue (P : Platform F) (s : String) : MetaValue F :=
  if s = "true" then .bool true
  else if s = "false" then .bool false
  else match parseInt s with
    | some n => .number (P.ofInt n)
    | none => match P.parseFloat s with
      | some n => .number n
      | none => .text s

/-- `ValueToString`. -/
def valueToString (P : Platform F) : MetaValue F → String
  | .text s => s
  | .number n => match P.toInt n with
    | some k => toString k
    | none => P.formatFloat n
  | .bool b => if b then "true" else "false"
  | .other text => text

/-- A `MetaMap` that is looked up. -/
abbrev MetaMap (F : Type) := String → Option (MetaValue F)

/-- `meta[k] = v`. -/
def MetaMap.set (m : MetaMap F) (k : String) (v : MetaValue F) : MetaMap F :=
  fun l => if l = k then some v else m l

/-- `maps.Copy(m, updates)`. -/
def MetaMap.copy (m : MetaMap F) (updates : List (String × MetaValue F)) : MetaMap F :=
  updates.foldl (fun m kv => m.set kv.1 kv.2) m

/-- `parseStoredMeta`. -/
def parseStoredMeta (P : Platform F) (stored : List (String × String)) : MetaMap F :=
  fun k => (stored.lookup k).map (parseMetaValue P)

/-- `harvester.Input`. -/
structure Input (F : Type) where
  path : String
  mime : String
  existing : MetaMap F

end Tilbo.Harvester.Meta
