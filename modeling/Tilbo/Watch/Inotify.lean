import Tilbo.Watch.Fanotify

/-! # Events of inotify

The other backend reads records that have the descriptor of a watched directory, a mask, and a name with zeros behind it.
`decoding_exact` says of both that whatever the kernel writes is read to its end without a slice that is out of range, and
that each record of a well-formed buffer is dispatched once, in order, with its own directory, name and mask. -/

namespace Tilbo.Watch.Inotify

open Tilbo.Daemon.Handlers (EventKind)
open Tilbo.Lib.Records Tilbo.Watch.Mounts Tilbo.Watch.Fanotify
open Tilbo.Lib.Lines (Bytes)

/-! ### The watcher -/

/-- The fields of an `inotifyImpl` that are read, and what it calls: `addWatchRecursive` walks a directory and adds watches
to `wdToDir`, and `debounce` hands an event on. -/
structure InotifyImpl (σ : Type) where
  rootPath : Bytes
  watchHidden : Bool
  excludePaths : List Bytes
  wdToDir : σ → Int32 → Option Bytes
  addWatchRecursive : Bytes → σ → σ
  debounce : Event → σ → σ

/-- The bits of a mask. -/
def IN_MODIFY : UInt32 := 0x2
def IN_CLOSE_WRITE : UInt32 := 0x8
def IN_MOVED_FROM : UInt32 := 0x40
def IN_MOVED_TO : UInt32 := 0x80
def IN_CREATE : UInt32 := 0x100
def IN_DELETE : UInt32 := 0x200
def IN_ISDIR : UInt32 := 0x40000000

/-- The kind of an event. -/
def kindOf (mask : UInt32) : Option EventKind :=
  if mask &&& IN_CREATE ≠ 0 then some .create
  else if mask &&& IN_CLOSE_WRITE ≠ 0 then some .modify
  else if mask &&& IN_MODIFY ≠ 0 then some .modify
  else if mask &&& IN_DELETE ≠ 0 then some .delete
  else if mask &&& IN_MOVED_FROM ≠ 0 then some .delete
  else if mask &&& IN_MOVED_TO ≠ 0 then some .create
  else none

variable {σ : Type}

/-- The body of the loop, once a record is read. -/
def dispatch (i : InotifyImpl σ) (wd : Int32) (mask : UInt32) (name : Bytes) (s : σ) : σ :=
  match i.wdToDir s wd with
  | none => s
  | some dir =>
    let path := if name ≠ [] then dir ++ slash :: name else dir
    if isExcluded i.excludePaths path then s
    else if !i.watchHidden && hasHiddenComponentBelowRoot i.rootPath path then s
    else
      let s := if mask &&& IN_CREATE ≠ 0 ∧ mask &&& IN_ISDIR ≠ 0 then i.addWatchRecursive path s else s
      if mask &&& IN_ISDIR ≠ 0 then s
      else
        match kindOf mask with
        | some kind => i.debounce ⟨path, kind⟩ s
        | none => s

/-- A record of the kernel; zeros fill the name up. -/
structure Record where
  wd : Int32
  mask : UInt32
  cookie : UInt32
  name : Bytes
  padding : ℕ
  free : 0 ∉ name
  short : name.length + padding < 2 ^ 32

def Record.header (r : Record) : Bytes :=
  littleBytes 4 r.wd.toUInt32.toNat ++ (littleBytes 4 r.mask.toNat ++ (littleBytes 4 r.cookie.toNat ++
    littleBytes 4 (r.name.length + r.padding)))

def Record.encode (r : Record) : Bytes := r.header ++ (r.name ++ List.replicate r.padding 0)

/-- What becomes of a record: its own descriptor, mask and name are used. -/
def Record.dispatch (i : InotifyImpl σ) (r : Record) (s : σ) : σ := Inotify.dispatch i r.wd r.mask r.name s

end Tilbo.Watch.Inotify
