import Xv6.Kernel.ExecInv
import Xv6.Kernel.Step
import Xv6.Vm.Read

/-!
# Every run keeps the invariant

The invariant holds at boot, when the pages in `boot` are in use and there is no process yet, and
each operation keeps it, whatever its arguments are and whichever calls of `kalloc` fail.
-/

namespace Xv6

open Finset Function

variable [Layout] {z : Prop} {k : Kernel} {G : Multiset ℕ} {p : ℕ}

/-- The panics that some operation may end in. -/
def expectedPanics : List String :=
  ["userinit: null pointer", "exec", "init exiting", "sleep_prepare: zero chan"]

/-- The kernel between operations, with the pages `G` in use since boot. -/
def Reached (z : Prop) (G : Multiset ℕ) (k : Kernel) : Prop := ∃ tab P, KernelInv z k tab P 0 G

namespace KernelInv

variable {tab : ℕ → Option PageTable} {P : Finset ℕ}

/-- The page table in memory of a slot that has one. -/
lemma table_repr (h : KernelInv z k tab P 0 G) (hp : p < NPROC) {T : PageTable}
    (hT : tab p = some T) : (k.proc p).pagetable ≠ 0 ∧ (k.proc p).trapframe ≠ 0 ∧
      (∀ x, k.mem.nodeAt (k.proc p).pagetable x = T.node x) ∧
      ∀ v, k.mem.leafAt (k.proc p).pagetable v = T.leaf v := by
  have hown := h.mem.focus hp hT
  have hphys : ∀ x pg, T.node x = some pg → IsPhys pg := fun x pg hx => Owns.isPhys hown hx
  have hslot := h.mem.slot p hp
  rw [hT] at hslot
  obtain ⟨-, hpt, hroot, -⟩ := hslot
  have htf : IsPhys (k.proc p).trapframe := hown.used.isPhys (by simp)
  rw [← hroot]
  exact ⟨hroot ▸ hpt, htf.pos.ne', hown.repr.nodeAt hphys, hown.repr.leafAt hphys⟩

end KernelInv

namespace Kernel

/-- The state at boot, before `userinit`. -/
def boot (m : Mem) : Kernel := { mem := m }

variable {m : Mem} {E : String → Prop} {tab : ℕ → Option PageTable} {P : Finset ℕ}
  {ops : List KernelOp}

lemma reached_boot (h : m.Used G) : Reached z G (boot m) := by
  refine ⟨fun _ => none, ∅, ⟨fun _ _ => ⟨rfl, rfl, rfl, rfl⟩, fun _ _ T hT => absurd hT (by simp), ?_⟩,
    fun p _ => ⟨fun _ => ⟨⟨rfl, rfl, rfl, rfl, rfl, rfl, rfl, fun _ _ => rfl, rfl⟩, fun _ => rfl⟩,
      fun hz => absurd hz (by simp [boot])⟩, ?_⟩
  · simpa [slotPages, boot] using h
  · have hrefs : fdRefs (boot m).proc = 0 := by
      rw [fdRefs, gather]
      exact sum_eq_zero fun _ _ => rfl
    rw [hrefs, add_zero]
    refine ⟨fun f hf => absurd hf (by simp), fun _ _ => rfl, fun _ _ _ => rfl, fun pg => ?_,
      fun f _ g _ pg w he => absurd he.1 (by simp [boot]), fun pg w => ?_, fun pg x hx => ?_⟩
    · simp [boot]
    · simp [boot, File.IsEnd]
    · exact absurd hx (by simp [boot])

/-- A running process does something after which it still is a process. -/
lemma running_spec {x : KernelM Unit} (h : Reached z G k)
    (hx : ∀ tab P, KernelInv z k tab P 0 G → p < NPROC → (k.proc p).state = .running →
      wp x (fun _ k' => Good z 0 G p k') E k) :
    wp (running p x) (fun _ k' => Reached z G k') E k := by
  simp only [running, wp_bind, wp_get]
  refine wp_ite.mpr ⟨fun hrun => ?_, fun _ => h⟩
  obtain ⟨tab, P, hinv⟩ := h
  exact (hx tab P hinv hrun.1 hrun.2).imp fun _ k' hk' => hk'.1

lemma syscall_spec {x : KernelM ℤ} (h : Reached z G k)
    (hx : ∀ tab P, KernelInv z k tab P 0 G → p < NPROC → (k.proc p).state = .running →
      wp x (fun _ k' => Good z 0 G p k') E k) :
    wp (syscall p x) (fun _ k' => Reached z G k') E k := by
  refine running_spec h fun tab P hinv hp hst => ?_
  simp only [wp_bind]
  refine (hx tab P hinv hp hst).imp ?_
  rintro r k' ⟨⟨tab', P', hinv'⟩, hst'⟩
  exact (setTrapframe_spec hinv' hp hst' _ _).wp

/-- A process changes between states of a process. -/
lemma setState_spec {q : Proc}
    (h : KernelInv z k tab P 0 G) (hst : (k.proc p).state ≠ .unused) (hu : q.state ≠ .unused)
    (hz : q.state ≠ .zombie) (hsame : q = { k.proc p with state := q.state, chan := q.chan }) :
    Good z 0 G p { k with proc := update k.proc p q } := by
  refine ⟨⟨tab, P, h.setSlot hst hu (.of_live hu hz) ?_ ?_ ?_ ?_⟩, by simpa using hu⟩
  all_goals rw [hsame]

lemma kkill_good {pid : ℤ}
    (h : KernelInv z k tab P 0 G)
    (hz : z → pid = 0 → ∀ i < NPROC, (k.proc i).state ≠ .unused) (hst : (k.proc p).state = .running) :
    Returns (kkill pid) (fun _ k' => Good z 0 G p k') k := by
  refine (kkill_spec h hz).imp ?_
  rintro r k' ⟨hinv, hres⟩
  refine ⟨⟨tab, P, hinv⟩, ?_⟩
  rcases hres with ⟨-, rfl⟩ | ⟨-, i, -, -, rfl⟩
  · simp [hst]
  · by_cases hip : p = i
    · subst hip
      simp [Proc.kkill, hst]
    · simp [update_of_ne hip, hst]

lemma userinit_spec (h : Reached z G k) (root : ℕ) :
    wp (userinit root) (fun _ k' => Reached z G k') (fun e => e ∈ expectedPanics) k := by
  obtain ⟨tab, P, hinv⟩ := h
  simp only [userinit, wp_bind]
  refine ((allocproc_spec hinv).wp).imp fun r k₁ hr => ?_
  rcases hr.2 with ⟨rfl, -⟩ | ⟨np, T, m₁, n₁, tf, rfl, hnp, -, hk₁, h₁, -⟩
  · simp [expectedPanics]
  · simp only [wp_bind, wp_modify, wp_setProc]
    have hst : (k₁.proc np).state = .used := by simp [hk₁, Proc.allocated]
    have h₂ : KernelInv z { k₁ with initproc := some np } (update tab np (some T)) P 0 G :=
      ⟨h₁.mem, h₁.slot, h₁.files⟩
    exact ⟨_, P, h₂.setSlot (by simp [hst]) (by simp) (.of_live (by simp) (by simp)) rfl rfl rfl rfl⟩

/-- The operation is not a call `kill(0)` while some slot is `UNUSED`. -/
def NoStrayKill (k : Kernel) (op : KernelOp) : Prop :=
  (∃ p, op = .kill p 0) → ∀ i < NPROC, (k.proc i).state ≠ .unused

/-- **One operation** keeps the invariant, and it may only panic as expected. -/
theorem exec_spec (h : Reached z G k) (op : KernelOp) (hz : z → NoStrayKill k op) :
    wp (exec op) (fun _ k' => Reached z G k') (fun e => e ∈ expectedPanics) k := by
  have hexp : ∀ {s : String}, s ∈ expectedPanics → ∀ e, e = s → e ∈ expectedPanics := by
    rintro s hs e rfl
    exact hs
  have hne : ∀ {p : ℕ}, (k.proc p).state = .running → (k.proc p).state ≠ .unused := fun h => by
    simp [h]
  cases op with
  | userinit root =>
    simp only [exec, wp_bind, wp_get]
    exact wp_ite.mpr ⟨fun _ => userinit_spec h root, fun _ => h⟩
  | schedule p =>
    simp only [exec, wp_bind, wp_get]
    refine wp_ite.mpr ⟨fun hrun => ?_, fun _ => h⟩
    obtain ⟨tab, P, hinv⟩ := h
    exact (setState_spec hinv (p := p) (by simp [hrun.2]) (by simp [Proc.schedule])
      (by simp [Proc.schedule]) rfl).1
  | yield p =>
    exact running_spec h fun tab P hinv _ hst => setState_spec hinv (hne hst) (by simp [Proc.yield])
      (by simp [Proc.yield]) rfl
  | sleep p c =>
    refine running_spec h fun tab P hinv _ hst => ?_
    refine wp_ite.mpr ⟨fun _ => by simp [expectedPanics], fun hc => ?_⟩
    simp only [wp_bind, wp_setProc, update_self, update_idem]
    have hsleep : ((k.proc p).sleepPrepare c).sleep =
        { k.proc p with state := .sleeping, chan := c } := by
      simp [Proc.sleep, Proc.sleepPrepare, hc]
    rw [hsleep]
    exact setState_spec hinv (hne hst) (by simp) (by simp) rfl
  | wakeup c =>
    obtain ⟨tab, P, hinv⟩ := h
    have hq := quiet_wakeup k c k.pipe k.file k.mem
    exact ⟨tab, P, hinv.quiet hq (hinv.mem.woken hq.proc) (by rw [hq.fdRefs]; exact hinv.files)⟩
  | forkret p file =>
    exact running_spec h fun tab P hinv hp hst =>
      (forkret_spec hinv hp (hne hst) file).mono (fun _ _ => id)
        (hexp (by simp [expectedPanics]))
  | fork p =>
    refine syscall_spec h fun tab P hinv hp hst => ?_
    exact ((kfork_spec hinv hp hst).wp).imp fun _ _ hk => hk.1
  | exec p path uargv file =>
    exact syscall_spec h fun tab P hinv hp hst => (sysExec_spec hinv hp (hne hst) path uargv file).wp
  | exit p status =>
    exact running_spec h fun tab P hinv hp hst =>
      (kexit_spec hinv hp hst status).mono (fun _ _ => id) (hexp (by simp [expectedPanics]))
  | wait p addr =>
    refine running_spec h fun tab P hinv hp hst => ?_
    simp only [wp_bind]
    refine ((kwait_spec hinv hp hst addr).wp).imp ?_
    rintro r k' ⟨⟨tab', P', hinv'⟩, hst'⟩
    cases r with
    | none => exact ⟨⟨tab', P', hinv'⟩, hst'⟩
    | some r => exact (setTrapframe_spec hinv' hp hst' _ _).wp
  | kill p pid =>
    refine syscall_spec h fun tab P hinv hp hst => (kkill_good hinv (fun hz' h0 => ?_) hst).wp
    exact hz hz' ⟨p, by rw [h0]⟩
  | sbrk p n t =>
    exact syscall_spec h fun tab P hinv hp hst => (sysSbrk_spec hinv hp (hne hst) n t).wp
  | fault p va =>
    exact running_spec h fun tab P hinv hp hst =>
      (usertrapFault_spec hinv hp hst va).mono (fun _ _ => id) (hexp (by simp [expectedPanics]))
  | pipe p fdarray =>
    exact syscall_spec h fun tab P hinv hp hst => (sysPipe_spec hinv hp hst fdarray).wp
  | «open» p found omode =>
    exact syscall_spec h fun tab P hinv hp hst => (sysOpen_spec hinv hp hst found omode).wp
  | dup p fd => exact syscall_spec h fun tab P hinv hp hst => (sysDup_spec hinv hp hst fd).wp
  | close p fd => exact syscall_spec h fun tab P hinv hp hst => (sysClose_spec hinv hp hst fd).wp
  | copyout p dstva src len =>
    refine running_spec h fun tab P hinv hp hst => ?_
    simp only [wp_bind, wp_get, wp_onMem]
    refine ((copyout_spec hinv hp (hne hst) dstva src len).wp).imp ?_
    rintro _ m' ⟨tab', hinv'⟩
    exact ⟨⟨tab', P, hinv'⟩, hne hst⟩
  | copyin p dst srcva len =>
    refine running_spec h fun tab P hinv hp hst => ?_
    simp only [wp_bind, wp_get, wp_onMem]
    refine ((copyin_spec hinv hp (hne hst) dst srcva len).wp).imp ?_
    rintro _ m' ⟨-, tab', hinv'⟩
    exact ⟨⟨tab', P, hinv'⟩, hne hst⟩
  | copyinstr p dst srcva max =>
    refine running_spec h fun tab P hinv hp hst => ?_
    simp only [wp_bind, wp_get, wp_onMem]
    refine ((copyinstr_spec hinv hp (hne hst) dst srcva max).wp).imp ?_
    rintro _ m' ⟨-, -, tab', hinv'⟩
    exact ⟨⟨tab', P, hinv'⟩, hne hst⟩

/-! ## Runs -/

lemma step_eq_some {k k' : Kernel} {op : KernelOp} (h : step k op = some k') :
    exec op k = .ok ((), k') := by
  unfold step at h
  split at h
  · next heq =>
    obtain rfl := Option.some.inj h
    exact heq
  · exact absurd h (by simp)

/-- Whatever the processes do, with any arguments, the invariant holds. -/
theorem reached_run (hm : m.Used G) (hrun : run step (boot m) ops = some k) : Reached False G k :=
  run_invariant (fun _ op _ hs hstep => (exec_spec hs op False.elim).of_eq_ok (step_eq_some hstep))
    (reached_boot hm) hrun

/-- If nobody calls `kill(0)` while a slot is `UNUSED`, the `killed` flags of those slots are clear. -/
theorem reached_run_of_noStrayKill (hm : m.Used G) (hok : StepsOk step NoStrayKill (boot m) ops)
    (hrun : run step (boot m) ops = some k) : Reached True G k :=
  run_invariant_of_stepsOk
    (fun _ op _ hs hop hstep => (exec_spec hs op fun _ => hop).of_eq_ok (step_eq_some hstep))
    (reached_boot hm) hok hrun

end Kernel

end Xv6
