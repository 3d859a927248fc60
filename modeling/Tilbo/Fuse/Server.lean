import Tilbo.Daemon.Handlers

/-! # Changing tags through the mount

`TagDir.Rename`, which moves a link from one tag directory to another and retags its file, and
`FileLink.Setxattr`, which writes an attribute of the file behind a link. -/

namespace Tilbo.Fuse.Server

open Tilbo.Daemon.State Tilbo.Xattr.Service Tilbo.Index.Store
open Tilbo.Lib.Txn Tilbo.Lib.Process Tilbo.Lib.Process.Proc

variable {F : Type}

/-- `syscall.Errno`, as far as the mount returns it. -/
inductive Errno where
  | ok
  | exdev
  | eio
  | enoent
  | eperm
deriving DecidableEq, Repr

/-- The fields of an `Expr` that say which tags it asks for; `isTag` is `kind == exprTag`. -/
structure Expr where
  isTag : Bool
  tags : List String := []
  tagsAny : Bool := false
  tagExclude : List String := []
deriving DecidableEq, Repr

/-- A `TagDir`: its name, its expression, and its cache once warm, which is missing if the query fails
and otherwise takes the names it lists to real paths. -/
structure TagDir where
  name : String
  expr : Expr
  cache : Option (String → Option String)

/-- `simpleTagsFromExpr`: no tags at all are nil as well. -/
def simpleTagsFromExpr (e : Expr) : Option (List String) :=
  if !e.isTag || e.tagsAny || e.tags = [] then none else some e.tags

/-- The two loops of `Rename`, one tag at a time; errors are logged. -/
def retag (path : String) (srcTags dstTags : List String) : Op F Unit := do
  each (fun t => orElse () (atom (.modifyFileTags path [t] "remove")
    (onIndex (modifyFileTags path [t] "remove")))) srcTags
  each (fun t => orElse () (atom (.modifyFileTags path [t] "add")
    (onIndex (modifyFileTags path [t] "add")))) dstTags

/-- `TagDir.Rename`; a new parent that is no tag directory is missing. The new name is not used. -/
def rename (d : TagDir) (name : String) (newParent : Option TagDir) : Op F Errno :=
  match newParent, d.cache with
  | none, _ => return .exdev
  | some _, none => return .eio
  | some dest, some byName =>
    match byName name with
    | none => return .enoent
    | some realPath =>
      if d.name = dest.name then return .ok
      else match simpleTagsFromExpr d.expr, simpleTagsFromExpr dest.expr with
        | some srcTags, some dstTags => do
          retag realPath srcTags dstTags
          return .ok
        | _, _ => return .eperm

/-- `XATTR_CREATE` and `XATTR_REPLACE`. -/
structure Flags where
  create : Bool := false
  replace : Bool := false
deriving DecidableEq, Repr

/-- `FileLink.Setxattr` of the tag attribute. -/
def setxattrTags (realPath data : String) (flags : Flags) : Op F Unit :=
  atom (.setxattrTags realPath data) (set realPath fun f =>
    if flags.create && f.tags.isSome || flags.replace && f.tags.isNone then none
    else some { f with tags := some data })

end Tilbo.Fuse.Server
