import Xv6.Kernel.Reach

/-!
# Reference counts along a run

A `struct file` lives as long as some process has a descriptor for it, and a pipe as long as one of
its two files does.  `ftable` and the pipes only store counts and flags; after every run these say
exactly what the descriptors of all processes say, so `filedup`, `fileclose` and `pipeclose` never
find a count or a flag that they do not expect.
-/

namespace Xv6.Kernel

open Finset

/-- The descriptors, of all processes, that stand for the file `f`. -/
def descriptors (k : Kernel) (f : ℕ) : Finset (ℕ × ℕ) :=
  (fdPlaces NPROC NOFILE).filter fun x => (k.proc x.1).ofile x.2 = some f

/-- The panics of the code that counts references. -/
def filePanics : List String := ["filedup", "fileclose", "pipeclose: not a pipe"]

lemma count_fdRefs (k : Kernel) (f : ℕ) : (fdRefs k.proc).count f = (k.descriptors f).card := by
  have hone : ∀ o : Option ℕ, (single o).count f = if o = some f then 1 else 0 := by
    intro o
    cases o with
    | none => simp
    | some g => simp [Multiset.count_singleton, eq_comm]
  rw [fdRefs, gather, Multiset.count_sum', descriptors, card_filter]
  exact sum_congr rfl fun x _ => hone _

section

variable [Layout] {z : Prop} {k : Kernel} {G : Multiset ℕ}

/-- What the file table, the pipes and the descriptors say about each other. -/
structure RefsExact (k : Kernel) : Prop where
  ref : ∀ f < NFILE, (k.file f).ref = (k.descriptors f).card
  free : ∀ f < NFILE, (k.file f).ref = 0 → (k.file f).type = .none
  named : ∀ p < NPROC, ∀ fd < NOFILE, ∀ f, (k.proc p).ofile fd = some f → f < NFILE
  gone : ∀ p < NPROC, (k.proc p).state = .unused ∨ (k.proc p).state = .zombie →
    ∀ fd < NOFILE, (k.proc p).ofile fd = none
  ends : ∀ f < NFILE, (k.file f).type = .pipe → ∃ x, k.pipe (k.file f).pipe = some x
  reading : ∀ pg x, k.pipe pg = some x →
    (x.readopen = true ↔ ∃! f, f < NFILE ∧ (k.descriptors f).Nonempty ∧ (k.file f).IsEnd pg false)
  writing : ∀ pg x, k.pipe pg = some x →
    (x.writeopen = true ↔ ∃! f, f < NFILE ∧ (k.descriptors f).Nonempty ∧ (k.file f).IsEnd pg true)
  used : ∀ pg x, k.pipe pg = some x → x.readopen = true ∨ x.writeopen = true

/-- An end of a pipe is open as long as there is a descriptor for it, and its file is unique. -/
lemma isOpen_iff {tab : ℕ → Option PageTable} {P : Finset ℕ} (h : KernelInv z k tab P 0 G)
    (href : ∀ f < NFILE, (k.file f).ref = (k.descriptors f).card) {pg : ℕ} {x : Pipe}
    (hx : k.pipe pg = some x) (w : Bool) : x.isOpen w = true ↔
      ∃! f, f < NFILE ∧ (k.descriptors f).Nonempty ∧ (k.file f).IsEnd pg w := by
  have hiff := h.files.isOpen pg w
  simp only [hx, Option.some.injEq, exists_eq_left'] at hiff
  rw [hiff]
  constructor
  · rintro ⟨f, hf, hend⟩
    refine ⟨f, ⟨hf, ?_, hend⟩, fun g hg => h.files.inj g hg.1 f hf pg w hg.2.2 hend⟩
    rw [← card_pos, ← href f hf]
    refine Nat.pos_of_ne_zero fun h0 => ?_
    have htype := hend.1
    rw [h.files.free f hf h0] at htype
    cases htype
  · rintro ⟨f, ⟨hf, -, hend⟩, -⟩
    exact ⟨f, hf, hend⟩

lemma refsExact (h : Reached z G k) : RefsExact k := by
  obtain ⟨tab, P, hinv⟩ := h
  have hfiles := hinv.files
  rw [add_zero] at hfiles
  have href : ∀ f < NFILE, (k.file f).ref = (k.descriptors f).card := fun f hf => by
    rw [hfiles.ref f hf, count_fdRefs]
  refine ⟨href, hfiles.free, fun p hp fd hfd f hf => hfiles.lt f (mem_fdRefs hp hfd hf),
    fun p hp hst => ?_, fun f hf htype => ?_, fun pg x hx => isOpen_iff hinv href hx false,
    fun pg x hx => isOpen_iff hinv href hx true, fun pg x hx => ?_⟩
  · rcases hst with hst | hst
    · exact ((hinv.slot p hp).clean hst).1.ofile
    · exact ((hinv.slot p hp).zombie hst).1
  · obtain ⟨x, hx, -⟩ := (hfiles.isOpen _ _).mpr ⟨f, hf, htype, rfl, rfl⟩
    exact ⟨x, hx⟩
  · obtain ⟨w, hw⟩ := hfiles.used pg x hx
    cases w with
    | false => exact Or.inl hw
    | true => exact Or.inr hw

/-- **Reference counts are exact** after every run from boot: each file counts its descriptors, an
end of a pipe is open exactly while some descriptor stands for it, and the code that counts never
panics. -/
theorem reference_counts_exact {m : Mem} {ops : List KernelOp} (hm : m.Used G)
    (hrun : run step (boot m) ops = some k) :
    RefsExact k ∧ ∀ op, ∀ e ∈ filePanics, exec op k ≠ .error e := by
  have h := reached_run hm hrun
  refine ⟨refsExact h, fun op e he hx => ?_⟩
  have hexp := (exec_spec h op False.elim).of_eq_error hx
  simp only [filePanics, expectedPanics, List.mem_cons, List.not_mem_nil, or_false] at he hexp
  rcases he with rfl | rfl | rfl <;> exact absurd hexp (by decide)

end

/-! ## On the small machine -/

local instance layoutRefs : Layout := smallLayout

/-- The first process opens a device, duplicates the descriptor and forks: the file then has four
references. -/
theorem reference_counts_exact_fork : ∃ k, run step (boot smallMem)
      [.userinit 1, .schedule 0, .open 0 (some ⟨0, some 1⟩) 0, .dup 0 0, .fork 0] = some k ∧
      (k.file 0).ref = 4 ∧ (k.descriptors 0).card = 4 := by
  have hrun : (run step (boot smallMem)
      [.userinit 1, .schedule 0, .open 0 (some ⟨0, some 1⟩) 0, .dup 0 0, .fork 0]).map
      (fun k => (k.file 0).ref) = some 4 := by
    decide +kernel
  obtain ⟨k, hk, href⟩ := Option.map_eq_some_iff.mp hrun
  refine ⟨k, hk, href, ?_⟩
  rw [← (reference_counts_exact smallMem_used hk).1.ref 0 (by decide), href]

end Xv6.Kernel
