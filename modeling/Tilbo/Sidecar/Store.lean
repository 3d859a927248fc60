import Tilbo.Lib.Json
import Tilbo.Lib.StringMaps
import Tilbo.Lib.Txn
import Mathlib.Algebra.Group.Int.Defs
import Mathlib.Algebra.Group.Nat.Defs
import Mathlib.Logic.Function.Basic

/-! # The sidecar store

Where the file system has no extended attributes, what belongs there is kept in the index, as one JSON text
for each file, under its inode and device number. `Store.Read` and `Store.Write` are written over the three
statements of the index; any of them can fail. -/

namespace Tilbo.Sidecar.Store

open Tilbo.Lib Tilbo.Lib.Json Tilbo.Lib.Strings Tilbo.Lib.StringMaps Tilbo.Lib.Txn Tilbo.Lib.Txn.Prog

/-! ### The JSON text -/

/-- `Data`. A nil map is an empty one. -/
structure Data where
  tags : String := ""
  metadata : StringMap := empty
  source : StringMap := empty

/-- A map with its keys in order, the text and the value of each. -/
def members (m : StringMap) : List (String × List Char × Value) :=
  (sorted m).map fun p => (p.1, quote p.2, .str p.2)

/-- `json.Marshal` of a map. -/
def marshalMap (m : StringMap) : List Char := object ((members m).map fun p => (p.1, p.2.1))

/-- The fields that are not empty, the text and the value of each. -/
def Data.fields (d : Data) : List (String × List Char × Value) :=
  (if d.tags = "" then [] else [("tags", quote d.tags, .str d.tags)]) ++
    (if d.metadata.pairs = [] then []
      else [("meta", marshalMap d.metadata, .obj ((members d.metadata).map fun p => (p.1, p.2.2)))]) ++
    if d.source.pairs = [] then []
    else [("source", marshalMap d.source, .obj ((members d.source).map fun p => (p.1, p.2.2)))]

/-- `json.Marshal` of a `Data`. -/
def Data.marshal (d : Data) : String := String.ofList (object (d.fields.map fun p => (p.1, p.2.1)))

/-- The members of an object as a map of strings; `null` is the empty string. -/
def unmarshalMembers : StringMap → List (String × Value) → Option StringMap
  | m, [] => some m
  | m, (k, .str v) :: rest => unmarshalMembers (set m k v) rest
  | m, (k, .null) :: rest => unmarshalMembers (set m k "") rest
  | _, _ => none

/-- A letter of a field name, as the decoder compares it. -/
def foldChar (c : Char) : Char := if c = 'ſ' then 's' else c.toLower

/-- One member of the object goes to the field of its name, if there is one. -/
def Data.setField (d : Data) (k : String) (v : Value) : Option Data :=
  let name := String.ofList (k.toList.map foldChar)
  if name = "tags" then
    match v with
    | .str s => some { d with tags := s }
    | .null => some d
    | _ => none
  else if name = "meta" then
    match v with
    | .obj ms => (unmarshalMembers d.metadata ms).map fun m => { d with metadata := m }
    | .null => some { d with metadata := empty }
    | _ => none
  else if name = "source" then
    match v with
    | .obj ms => (unmarshalMembers d.source ms).map fun m => { d with source := m }
    | .null => some { d with source := empty }
    | _ => none
  else some d

def Data.setFields : Data → List (String × Value) → Option Data
  | d, [] => some d
  | d, (k, v) :: rest => (d.setField k v).bind fun d => d.setFields rest

/-- `json.Unmarshal` into a `Data`. -/
def unmarshal (text : String) : Option Data :=
  match parse text with
  | some (.obj ms) => Data.setFields {} ms
  | some .null => some {}
  | _ => none

/-! ### The store -/

inductive Error where
  /-- `ErrNoSidecar`. -/
  | noSidecar
  /-- `stat` finds no file. -/
  | notExist
  /-- A system call fails for another reason. -/
  | errno
  | sql
  | json
  /-- `fmt.Errorf` around another error. -/
  | wrapped (format : String) (cause : Error)

/-- The inode and device number of each file, and the table `sidecar_data`. -/
structure Disk where
  inode : String → Option (UInt64 × UInt64)
  sidecar : ℤ × ℤ → Option String

def saturatingInt64FromUint64 (v : UInt64) : ℤ := if v.toNat > 2 ^ 63 - 1 then 2 ^ 63 - 1 else v.toNat

/-- The key of a row. -/
def rowKey (file : UInt64 × UInt64) : ℤ × ℤ :=
  (saturatingInt64FromUint64 file.1, saturatingInt64FromUint64 file.2)

def getInodeDev (path : String) : Prog Disk Error (UInt64 × UInt64) := stmt .errno fun d =>
  match d.inode path with
  | some file => .ok (file, d)
  | none => .error .notExist

/-- `ReadSidecar`; there is no text if there is no row. -/
def readSidecar (file : UInt64 × UInt64) : Prog Disk Error String :=
  stmt .sql fun d => .ok ((d.sidecar (rowKey file)).getD "", d)

def writeSidecar (file : UInt64 × UInt64) (data : String) : Prog Disk Error Unit :=
  stmt .sql fun d => .ok ((), { d with sidecar := Function.update d.sidecar (rowKey file) (some data) })

def deleteSidecar (file : UInt64 × UInt64) : Prog Disk Error Unit :=
  stmt .sql fun d => .ok ((), { d with sidecar := Function.update d.sidecar (rowKey file) none })

/-- What a text of the table holds. -/
def decode (text : String) : Prog Disk Error Data :=
  if text = "" then fail .noSidecar
  else
    match unmarshal text with
    | some data => pure data
    | none => fail (.wrapped "parse sidecar JSON: %w" .json)

/-- `Store.Read`. -/
def read (path : String) : Prog Disk Error Data := do
  match ← attempt (getInodeDev path) with
  | .error .notExist => fail .noSidecar
  | .error err => fail (.wrapped "stat file: %w" err)
  | .ok file =>
    let text ← wrap (.wrapped "read sidecar from db: %w") (readSidecar file)
    decode text

/-- `Store.Write`. -/
def write (path : String) (data : Data) : Prog Disk Error Unit := do
  let file ← wrap (.wrapped "stat file: %w") (getInodeDev path)
  if data.tags = "" ∧ data.metadata.pairs = [] ∧ data.source.pairs = [] then
    wrap (.wrapped "remove sidecar from db: %w") (deleteSidecar file)
  else wrap (.wrapped "write sidecar to db: %w") (writeSidecar file data.marshal)

/-! ### What is written is read -/

/-- Two `Data` with the same content. -/
structure Data.Same (d d' : Data) : Prop where
  tags : d.tags = d'.tags
  metadata : StringMaps.Same d.metadata d'.metadata
  source : StringMaps.Same d.source d'.source

variable {d d' d'' : Data} {m : StringMap}

theorem reads_marshalMap (m : StringMap) :
    Reads (marshalMap m) (.obj ((members m).map fun p => (p.1, p.2.2))) := by
  refine reads_object (members m) fun p hp => ?_
  obtain ⟨q, -, rfl⟩ := List.mem_map.mp hp
  exact reads_quote q.2

theorem unmarshalMembers_str (m : StringMap) (l : List (String × String)) :
    unmarshalMembers m (l.map fun p => (p.1, .str p.2)) = some (setAll m l) := by
  induction l generalizing m with
  | nil => rfl
  | cons p l ih => exact ih (set m p.1 p.2)

/-- A map is read back. -/
theorem unmarshalMembers_members (m : StringMap) :
    ∃ m', unmarshalMembers empty ((members m).map fun p => (p.1, p.2.2)) = some m' ∧ StringMaps.Same m' m := by
  refine ⟨setAll empty (sorted m), ?_, same_setAll (sorted_perm m)⟩
  rw [members, List.map_map]
  exact unmarshalMembers_str empty (sorted m)

theorem reads_fields (d : Data) : ∀ p ∈ d.fields, Reads p.2.1 p.2.2 := by
  intro p hp
  simp only [Data.fields, List.mem_append] at hp
  obtain (hp | hp) | hp := hp
  all_goals
    split_ifs at hp
    · cases hp
    · rw [List.mem_singleton] at hp
      subst hp
      first
        | exact reads_quote _
        | exact reads_marshalMap _

theorem setFields_append (d : Data) (l l' : List (String × Value)) :
    d.setFields (l ++ l') = (d.setFields l).bind fun d => d.setFields l' := by
  induction l generalizing d with
  | nil => rfl
  | cons p l ih =>
    show (d.setField p.1 p.2).bind (fun d => d.setFields (l ++ l')) = _
    rw [Data.setFields, Option.bind_assoc]
    exact congrArg _ (funext fun d => ih d)

theorem setField_tags (d : Data) (s : String) : d.setField "tags" (.str s) = some { d with tags := s } := rfl

theorem setField_meta (d : Data) (ms : List (String × Value)) :
    d.setField "meta" (.obj ms) = (unmarshalMembers d.metadata ms).map fun m => { d with metadata := m } := rfl

theorem setField_source (d : Data) (ms : List (String × Value)) :
    d.setField "source" (.obj ms) = (unmarshalMembers d.source ms).map fun m => { d with source := m } := rfl

/-- A map that is left out because it is empty, or set from what was written. -/
theorem same_or_set (m : StringMap) :
    (m.pairs = [] ∧ StringMaps.Same empty m) ∨ m.pairs ≠ [] ∧ ∃ m', unmarshalMembers empty
      ((members m).map fun p => (p.1, p.2.2)) = some m' ∧ StringMaps.Same m' m := by
  by_cases h : m.pairs = []
  · exact .inl ⟨h, (same_empty_iff.mpr h).symm⟩
  · exact .inr ⟨h, unmarshalMembers_members m⟩

theorem setFields_fields (d : Data) :
    ∃ d', Data.setFields {} (d.fields.map fun p => (p.1, p.2.2)) = some d' ∧ d'.Same d := by
  have htags : Data.setFields {} ((if d.tags = "" then [] else
      [("tags", quote d.tags, Value.str d.tags)]).map fun p => (p.1, p.2.2)) = some { tags := d.tags } := by
    split_ifs with h
    · rw [h]; rfl
    · simp [Data.setFields, setField_tags]
  unfold Data.fields
  rw [List.map_append, List.map_append, setFields_append, setFields_append, htags, Option.bind_some]
  obtain ⟨hmeta, hmetaSame⟩ | ⟨hmeta, m, hm, hmetaSame⟩ := same_or_set d.metadata
  all_goals obtain ⟨hsource, hsourceSame⟩ | ⟨hsource, s, hs, hsourceSame⟩ := same_or_set d.source
  · rw [if_pos hmeta, if_pos hsource]
    exact ⟨_, rfl, rfl, hmetaSame, hsourceSame⟩
  · rw [if_pos hmeta, if_neg hsource]
    refine ⟨{ tags := d.tags, source := s }, ?_, rfl, hmetaSame, hsourceSame⟩
    simp [Data.setFields, setField_source, hs]
  · rw [if_neg hmeta, if_pos hsource]
    refine ⟨{ tags := d.tags, metadata := m }, ?_, rfl, hmetaSame, hsourceSame⟩
    simp [Data.setFields, setField_meta, hm]
  · rw [if_neg hmeta, if_neg hsource]
    refine ⟨{ tags := d.tags, metadata := m, source := s }, ?_, rfl, hmetaSame, hsourceSame⟩
    simp [Data.setFields, setField_meta, setField_source, hm, hs]

/-- What is marshalled is unmarshalled to the same. -/
theorem unmarshal_marshal (d : Data) : ∃ d', unmarshal d.marshal = some d' ∧ d'.Same d := by
  obtain ⟨d', hd', hsame⟩ := setFields_fields d
  have hparse : parse d.marshal = some (.obj (d.fields.map fun p => (p.1, p.2.2))) :=
    (reads_object d.fields (reads_fields d)).parse
  refine ⟨d', ?_, hsame⟩
  unfold unmarshal
  rw [hparse]
  exact hd'

end Tilbo.Sidecar.Store
