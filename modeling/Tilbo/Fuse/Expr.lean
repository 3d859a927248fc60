import Tilbo.Index.Search

/-! # Metadata directories of the mount

The part of the directory grammar that filters by metadata: `@meta:key:value` and
`@meta:key:op:value`, the query they stand for, and its parameters. -/

namespace Tilbo.Fuse.Expr

open Tilbo.Lib.Strings Tilbo.Index.Search

/-- An expression of kind `exprMeta`. -/
structure MetaExpr where
  metaKey : String
  metaOp : String
  metaVal : String
deriving DecidableEq, Repr

/-- The operators `parseMetaExpr` accepts. -/
def metaOps : List String := ["eq", "gte", "lte", "gt", "lt", "contains"]

/-- The check of the operator at the end of `parseMetaExpr`. -/
def checkMetaOp (e : MetaExpr) : Except String MetaExpr :=
  if e.metaOp ∈ metaOps then .ok e else .error ("fuse: unknown @meta op " ++ e.metaOp)

/-- `parseMetaExpr`, on the name after `@meta:`. -/
def parseMetaExpr (s : String) : Except String MetaExpr :=
  match splitN ':' 3 s with
  | [key, val] => checkMetaOp ⟨key, "eq", val⟩
  | [key, op, val] => checkMetaOp ⟨key, op, val⟩
  | _ => .error "fuse: @meta requires key:value"

/-- `Expr.ToSearchParams` for `exprMeta`. -/
def MetaExpr.toSearchParams (e : MetaExpr) (limit : ℕ) : SearchParams where
  metaFilters := .single e.metaKey (e.metaOp ++ ":" ++ e.metaVal)
  limit := if limit = 0 then 10000 else limit
  sortBy := ["mtime:desc"]

end Tilbo.Fuse.Expr
