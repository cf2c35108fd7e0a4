import Mathlib

/-!
# Open files

`struct file` of `kernel/file.h`, which both the process code and the file system use.
-/

namespace Xv6

inductive FileType
  | none
  | pipe
  | inode
  | device
  deriving DecidableEq, Repr

/-- `struct file`. -/
structure File where
  type : FileType := .none
  ref : ℕ := 0  -- reference count
  readable : Bool := false
  writable : Bool := false
  pipe : ℕ := 0  -- `FD_PIPE`
  ip : ℕ := 0  -- `FD_INODE` and `FD_DEVICE`
  off : ℕ := 0  -- `FD_INODE`
  major : ℤ := 0  -- `FD_DEVICE`

end Xv6
