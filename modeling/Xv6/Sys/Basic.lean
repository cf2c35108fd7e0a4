import Xv6.Fs.Basic
import Xv6.Kernel.Basic

/-!
# Processes and the file system together

`Kernel` leaves the inode table out, and `Fs` the processes.  Here are the functions that work on
both, over the pair of the two states.
-/

namespace Xv6

structure Sys where
  kernel : Kernel
  fs : Fs

abbrev SysM := StateT Sys (Except String)

namespace Sys

/-- Run a function of `Kernel`. -/
def onKernel {α : Type} (x : KernelM α) : SysM α := fun s =>
  match x s.kernel with
  | .ok (a, k) => .ok (a, { s with kernel := k })
  | .error e => .error e

/-- Run a function of the file system. -/
def onFs {α : Type} (x : FsM α) : SysM α := fun s =>
  match x s.fs with
  | .ok (a, f) => .ok (a, { s with fs := f })
  | .error e => .error e

section Rules

variable {α : Type} {Q : α → Sys → Prop} {E : String → Prop} {s : Sys}

@[simp] lemma wp_onKernel (x : KernelM α) :
    wp (onKernel x) Q E s ↔ wp x (fun a k => Q a { s with kernel := k }) E s.kernel := by
  unfold wp onKernel
  cases x s.kernel <;> rfl

@[simp] lemma wp_onFs (x : FsM α) :
    wp (onFs x) Q E s ↔ wp x (fun a f => Q a { s with fs := f }) E s.fs := by
  unfold wp onFs
  cases x s.fs <;> rfl

end Rules

variable [Layout]

/-- Create a new process, copying the parent. -/
def kfork (p : ℕ) : SysM ℤ := do
  match ← onKernel (Kernel.forkThen p (return none) fun np _ => return some np) with
  | none => return -1
  | some np =>
    match ((← get).kernel.proc p).cwd with
    | none => throw "idup: null pointer"
    | some cwd =>
      let cwd ← onFs (idup cwd)
      onKernel (Kernel.setProc np fun q => { q with cwd := some cwd })
      let pid := ((← get).kernel.proc np).pid
      onKernel (Kernel.setProc np fun q => { q with parent := some p })
      onKernel (Kernel.setProc np fun q => { q with state := .runnable })
      return pid

end Sys
end Xv6
