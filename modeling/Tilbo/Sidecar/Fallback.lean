import Tilbo.Sidecar.Store
import Tilbo.Xattr.Csv

/-! # The xattr service with a sidecar store

The methods of `xattr.Service`. Where the file system does not support extended attributes, each of them turns
to the sidecar store, if there is one. -/

namespace Tilbo.Sidecar.Fallback

open Tilbo.Lib Tilbo.Lib.Json Tilbo.Lib.Strings Tilbo.Lib.StringMaps Tilbo.Lib.Txn Tilbo.Lib.Txn.Prog
open Tilbo.Sidecar.Store Tilbo.Xattr.Csv

/-- How a system call on an attribute fails. -/
inductive XattrError where
  /-- There is no attribute of that name. -/
  | notExist
  | notSupported
  | errno

inductive Error where
  /-- The context is cancelled. -/
  | cancelled
  | xattr (e : XattrError)
  | sidecar (e : Store.Error)
  | csv (e : ParseError)
  | json
  /-- `fmt.Errorf` around another error. -/
  | wrapped (format : String) (args : List String) (cause : Error)

/-- The files with their attributes, whether the file system of each supports attributes, and what the sidecar
store works on. -/
structure Files where
  attrs : String → Option StringMap
  supported : String → Bool
  disk : Disk

abbrev Act (α : Type) : Type := Prog Files Error α

/-! ### Attributes -/

def xattrTagKey : String := "user.xdg.tags"

def xattrMetaPrefix : String := "user.meta."

def xattrSourceKey : String := "user.tags.source"

/-- The attributes of a file, if it has any. -/
def attributes (path : String) (w : Files) : Except XattrError StringMap :=
  match w.attrs path with
  | none => .error .errno
  | some attrs => if w.supported path then .ok attrs else .error .notSupported

/-- `xattr.Get`. -/
def get (path name : String) : Prog Files XattrError String := stmt .errno fun w =>
  (attributes path w).bind fun attrs =>
    match attrs.get? name with
    | some val => .ok (val, w)
    | none => .error .notExist

/-- `xattr.Set`. -/
def set (path name val : String) : Prog Files XattrError Unit := stmt .errno fun w =>
  (attributes path w).map fun attrs =>
    ((), { w with attrs := Function.update w.attrs path (some (StringMaps.set attrs name val)) })

/-- `xattr.List`. -/
def list (path : String) : Prog Files XattrError (List String) := stmt .errno fun w =>
  (attributes path w).map fun attrs => (attrs.pairs.map Prod.fst, w)

/-- `ctx.Err()`. -/
def ctxErr : Act Unit := stmt .cancelled fun w => .ok ((), w)

/-- A method of the sidecar store. -/
def onDisk {α : Type} (m : Prog Disk Store.Error α) : Prog Files Store.Error α :=
  zoom Files.disk (fun d w => { w with disk := d }) m

/-! ### The service -/

/-- The service, with a sidecar store or without one. -/
structure Service where
  sidecarStore : Bool

variable (svc : Service) (path : String)

/-- The reading of the sidecar in the methods that read; `f` is the part that is asked for. -/
def readFallback {α : Type} (format : String) (args : List String) (f : Data → α) (missing : α) : Act α := do
  match ← attempt (onDisk (Store.read path)) with
  | .ok sc => return f sc
  | .error .noSidecar => return missing
  | .error err => fail (.wrapped format args (.sidecar err))

/-- The sidecar in the methods that write: it is read, changed by `f`, and written. -/
def writeFallback (readFormat writeFormat : String) (args : List String) (f : Data → Data) : Act Unit := do
  match ← attempt (onDisk (Store.read path)) with
  | .ok sc => wrap (fun err => .wrapped writeFormat args (.sidecar err)) (onDisk (Store.write path (f sc)))
  | .error .noSidecar =>
    wrap (fun err => .wrapped writeFormat args (.sidecar err)) (onDisk (Store.write path (f {})))
  | .error err => fail (.wrapped readFormat [path] (.sidecar err))

/-- The file system does not support attributes, and there is a sidecar store. -/
def fallsBack {α : Type} : Except XattrError α → Bool
  | .error .notSupported => svc.sidecarStore
  | _ => false

/-- The end of a method that parses a value. The value is empty after any error, and is taken for no value
before the error is looked at. -/
def parseValue {α : Type} (missing : α) (parse : String → Act α) : Except XattrError String → Act α
  | .error _ => return missing
  | .ok val => if val = "" then return missing else parse val

def parseTagValue (val : String) : Act (List String) :=
  match parseTags val with
  | .ok tags => return tags
  | .error err => fail (.wrapped "xattr parse tags %q: %w" [path] (.csv err))

/-- `ReadTags`. -/
def readTags : Act (List String) := do
  ctxErr
  let r ← attempt (get path xattrTagKey)
  if fallsBack svc r then
    let val ← readFallback path "sidecar read tags %q: %w" [path] Data.tags ""
    parseValue [] (parseTagValue path) (.ok val)
  else parseValue [] (parseTagValue path) r

/-- The end of a method that writes: `fallback` changes the sidecar. -/
def endWrite (format : String) (args : List String) (fallback : Act Unit) (r : Except XattrError Unit) : Act Unit :=
  match r with
  | .ok _ => return ()
  | .error err => if fallsBack svc r then fallback else fail (.wrapped format args (.xattr err))

/-- `WriteTags`. -/
def writeTags (tags : List String) : Act Unit := do
  ctxErr
  let r ← attempt (set path xattrTagKey (formatTags tags))
  let fallback := writeFallback path "sidecar read for tags update %q: %w" "sidecar write tags %q: %w" [path]
    fun sc => { sc with tags := formatTags tags }
  endWrite svc "xattr write tags %q: %w" [path] fallback r

/-- `ReadMeta`. -/
def readMeta (key : String) : Act String := do
  ctxErr
  let r ← attempt (get path (xattrMetaPrefix ++ key))
  if fallsBack svc r then
    readFallback path "sidecar read meta %q key %q: %w" [path, key] (fun sc => (sc.metadata.get? key).getD "") ""
  else
    match r with
    | .ok val => return val
    | .error .notExist => return ""
    | .error err => fail (.wrapped "xattr read meta %q key %q: %w" [path, key] (.xattr err))

/-- `WriteMeta`. -/
def writeMeta (key value : String) : Act Unit := do
  ctxErr
  let r ← attempt (set path (xattrMetaPrefix ++ key) value)
  let fallback := writeFallback path "sidecar read for meta update %q: %w" "sidecar write meta %q key %q: %w"
    [path, key] fun sc => { sc with metadata := StringMaps.set sc.metadata key value }
  endWrite svc "xattr write meta %q key %q: %w" [path, key] fallback r

/-- The loop of `ReadAllMeta` over the names of the attributes. -/
def collectMeta : List String → StringMap → Act StringMap
  | [], result => return result
  | attr :: rest, result =>
    if xattrMetaPrefix.toList <+: attr.toList then do
      let val ← wrap (fun err => .wrapped "xattr read meta %q attr %q: %w" [path, attr] (.xattr err)) (get path attr)
      collectMeta rest (StringMaps.set result (String.ofList (attr.toList.drop xattrMetaPrefix.length)) val)
    else collectMeta rest result

/-- `ReadAllMeta`. -/
def readAllMeta : Act StringMap := do
  ctxErr
  let r ← attempt (list path)
  if fallsBack svc r then readFallback path "sidecar list meta %q: %w" [path] Data.metadata empty
  else
    match r with
    | .error err => fail (.wrapped "xattr list %q: %w" [path] (.xattr err))
    | .ok attrs => collectMeta path attrs empty

/-- `json.Unmarshal` into a map; a nil map is nothing. -/
def unmarshalMap (val : String) : Option (Option StringMap) :=
  match Json.parse val with
  | some (.obj ms) => (unmarshalMembers empty ms).map some
  | some .null => some none
  | _ => none

def parseSourceValue (val : String) : Act (Option StringMap) :=
  match unmarshalMap val with
  | some m => return m
  | none => fail (.wrapped "xattr parse source %q: %w" [path] .json)

/-- `ReadSource`; a nil map is nothing. -/
def readSource : Act (Option StringMap) := do
  ctxErr
  let r ← attempt (get path xattrSourceKey)
  if fallsBack svc r then
    readFallback path "sidecar read source %q: %w" [path] (fun sc => some sc.source) (some empty)
  else parseValue (some empty) (parseSourceValue path) r

/-- `json.Marshal` of the map, which may be nil. -/
def marshalSource (source : Option StringMap) : String :=
  match source with
  | some m => String.ofList (marshalMap m)
  | none => "null"

/-- `WriteSource`. -/
def writeSource (source : Option StringMap) : Act Unit := do
  ctxErr
  let r ← attempt (set path xattrSourceKey (marshalSource source))
  let fallback := writeFallback path "sidecar read for source update %q: %w" "sidecar write source %q: %w" [path]
    fun sc => { sc with source := source.getD empty }
  endWrite svc "xattr write source %q: %w" [path] fallback r

end Tilbo.Sidecar.Fallback
