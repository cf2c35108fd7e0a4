import Xv6.Kernel.Basic
import Xv6.Lib.Account

/-!
# The file table

`FileInv file pipe P S` relates the file table to the references to it, `S`, and to the pipes, whose
pages are `P`: a reference count is the number of references, and each open end of a pipe belongs to
exactly one file.  Each of its lemmas is what one store of `kernel/file.c` or `kernel/pipe.c` does.
-/

namespace Xv6

open Finset Function

/-- Whether the write end or the read end is open. -/
def Pipe.isOpen (x : Pipe) (writable : Bool) : Bool := if writable then x.writeopen else x.readopen

lemma Pipe.isOpen_closeEnd (x : Pipe) (w w' : Bool) :
    (x.closeEnd w).isOpen w' = (x.isOpen w' && !(w == w')) := by
  cases w <;> cases w' <;> simp [isOpen, closeEnd]

/-- The file `f` is an end of the pipe in the page `pg`. -/
def File.IsEnd (x : File) (pg : ℕ) (w : Bool) : Prop := x.type = .pipe ∧ x.pipe = pg ∧ x.writable = w

structure FileInv (file : ℕ → File) (pipe : ℕ → Option Pipe) (P : Finset ℕ) (S : Multiset ℕ) :
    Prop where
  lt : ∀ f ∈ S, f < NFILE
  ref : ∀ f < NFILE, (file f).ref = S.count f
  free : ∀ f < NFILE, (file f).ref = 0 → (file f).type = .none
  pages : ∀ pg, pg ∈ P ↔ pipe pg ≠ none
  inj : ∀ f < NFILE, ∀ g < NFILE, ∀ pg w, (file f).IsEnd pg w → (file g).IsEnd pg w → f = g
  isOpen : ∀ pg w, (∃ x, pipe pg = some x ∧ x.isOpen w = true) ↔ ∃ f < NFILE, (file f).IsEnd pg w
  used : ∀ pg x, pipe pg = some x → ∃ w, x.isOpen w = true

namespace FileInv

variable {file : ℕ → File} {pipe : ℕ → Option Pipe} {P : Finset ℕ} {S : Multiset ℕ} {f : ℕ}

/-- A store that only changes reference counts and files that are no ends of pipes. -/
lemma set {x : File} {S' : Multiset ℕ} (h : FileInv file pipe P S) (hlt : ∀ g ∈ S', g < NFILE)
    (hself : x.ref = S'.count f) (hother : ∀ g ≠ f, S'.count g = S.count g)
    (hfree : x.ref = 0 → x.type = .none)
    (hend : ∀ pg w, x.IsEnd pg w ↔ (file f).IsEnd pg w) :
    FileInv (update file f x) pipe P S' := by
  have hiff : ∀ g pg w, (update file f x g).IsEnd pg w ↔ (file g).IsEnd pg w :=
    (forall_update_iff file fun g y => ∀ pg w, y.IsEnd pg w ↔ (file g).IsEnd pg w).mpr
      ⟨hend, fun _ _ _ _ => Iff.rfl⟩
  refine ⟨hlt, fun g hg => ?_, fun g hg => ?_, h.pages, fun g hg g' hg' pg w => ?_, fun pg w => ?_,
    h.used⟩
  · by_cases hgf : g = f
    · rw [hgf, update_self, hself]
    · rw [update_of_ne hgf, h.ref g hg, hother g hgf]
  · by_cases hgf : g = f
    · rw [hgf, update_self]
      exact hfree
    · rw [update_of_ne hgf]
      exact h.free g hg
  · rw [hiff, hiff]
    exact h.inj g hg g' hg' pg w
  · simp only [hiff]
    exact h.isOpen pg w

/-- `filealloc` and `filedup`: one reference more. -/
lemma addRef (h : FileInv file pipe P S) (hf : f < NFILE) :
    FileInv (update file f { file f with ref := (file f).ref + 1 }) pipe P (f ::ₘ S) := by
  refine h.set (fun g hg => ?_) ?_ (fun g hg => ?_) (fun h0 => ?_) fun pg w => Iff.rfl
  · rcases Multiset.mem_cons.mp hg with rfl | hg
    · exact hf
    · exact h.lt g hg
  · rw [Multiset.count_cons_self, ← h.ref f hf]
  · rw [Multiset.count_cons_of_ne hg]
  · exact absurd h0 (Nat.succ_ne_zero _)

section

variable (h : FileInv file pipe P (f ::ₘ S))
include h

/-- `fileclose` of a file with other references. -/
lemma dropRef (href : (file f).ref - 1 > 0) :
    FileInv (update file f { file f with ref := (file f).ref - 1 }) pipe P S := by
  have hf : f < NFILE := h.lt f (Multiset.mem_cons_self f S)
  refine h.set (fun g hg => h.lt g (Multiset.mem_cons_of_mem hg)) ?_ (fun g hg => ?_) (fun h0 => ?_)
    fun pg w => Iff.rfl
  · have := h.ref f hf
    rw [Multiset.count_cons_self] at this
    dsimp only
    omega
  · rw [Multiset.count_cons_of_ne hg]
  · exact absurd h0 (by dsimp only; omega)

lemma ref_pos : 0 < (file f).ref := by
  rw [h.ref f (h.lt f (Multiset.mem_cons_self f S)), Multiset.count_cons_self]
  exact Nat.succ_pos _

/-- `fileclose` of the last reference to a file that is no pipe. -/
lemma close (href : ¬(file f).ref - 1 > 0) (htype : (file f).type ≠ .pipe) :
    FileInv (update file f { file f with ref := 0, type := .none }) pipe P S := by
  have hf : f < NFILE := h.lt f (Multiset.mem_cons_self f S)
  refine h.set (fun g hg => h.lt g (Multiset.mem_cons_of_mem hg)) ?_ (fun g hg => ?_) (fun _ => rfl)
    fun pg w => ⟨fun he => absurd he.1 (by simp), fun he => absurd he.1 htype⟩
  · have := h.ref f hf
    rw [Multiset.count_cons_self] at this
    dsimp only
    omega
  · rw [Multiset.count_cons_of_ne hg]

end

/-- `sys_open` makes a new file one of an inode or a device. -/
lemma setType {x : File} (h : FileInv file pipe P S) (hf : f < NFILE) (hold : (file f).type ≠ .pipe)
    (hnew : x.type ≠ .pipe) (href : x.ref = (file f).ref) (hpos : 0 < (file f).ref) :
    FileInv (update file f x) pipe P S :=
  h.set h.lt (href.trans (h.ref f hf)) (fun _ _ => rfl) (fun h0 => absurd h0 (by omega))
    fun pg w => ⟨fun he => absurd he.1 hnew, fun he => absurd he.1 hold⟩

/-- The last reference to an end of a pipe is closed: the file is no end any more. -/
lemma closeEnd {x : Pipe} (h : FileInv file pipe P (f ::ₘ S)) (href : ¬(file f).ref - 1 > 0)
    (htype : (file f).type = .pipe) (hx : pipe (file f).pipe = some x) {pipe' : ℕ → Option Pipe}
    {P' : Finset ℕ} (hother : ∀ pg ≠ (file f).pipe, pipe' pg = pipe pg)
    (hself : pipe' (file f).pipe = some (x.closeEnd (file f).writable) ∨
      pipe' (file f).pipe = none ∧ ∀ w, (x.closeEnd (file f).writable).isOpen w = false)
    (hpages : ∀ pg, pg ∈ P' ↔ pipe' pg ≠ none)
    (hused : ∀ x', pipe' (file f).pipe = some x' → ∃ w, x'.isOpen w = true) :
    FileInv (update file f { file f with ref := 0, type := .none }) pipe' P' S := by
  have hf : f < NFILE := h.lt f (Multiset.mem_cons_self f S)
  have hcount := h.ref f hf
  rw [Multiset.count_cons_self] at hcount
  have hnot : ∀ pg w, ¬(update file f { file f with ref := 0, type := .none } f).IsEnd
      pg w := fun pg w he => by
    rw [update_self] at he
    exact absurd he.1 (by simp)
  have hends : ∀ g pg w, (update file f { file f with ref := 0, type := .none } g).IsEnd pg w ↔
      g ≠ f ∧ (file g).IsEnd pg w := by
    intro g pg w
    by_cases hgf : g = f
    · subst hgf
      exact ⟨fun he => absurd he (hnot pg w), fun he => absurd rfl he.1⟩
    · rw [update_of_ne hgf]
      exact ⟨fun he => ⟨hgf, he⟩, fun he => he.2⟩
  refine ⟨fun g hg => h.lt g (Multiset.mem_cons_of_mem hg), fun g hg => ?_, fun g hg => ?_, hpages,
    fun g hg g' hg' pg w he he' => ?_, fun pg w => ?_, fun pg x' hx' => ?_⟩
  · by_cases hgf : g = f
    · subst hgf
      rw [update_self]
      dsimp only
      omega
    · rw [update_of_ne hgf, h.ref g hg, Multiset.count_cons_of_ne hgf]
  · by_cases hgf : g = f
    · subst hgf
      rw [update_self]
      exact fun _ => rfl
    · rw [update_of_ne hgf]
      exact h.free g hg
  · exact h.inj g hg g' hg' pg w ((hends g pg w).mp he).2 ((hends g' pg w).mp he').2
  · simp only [hends]
    by_cases hpg : pg = (file f).pipe
    · subst hpg
      -- The closed end belonged to `f` alone; the other end is as it was.
      have hopen : (∃ x', pipe' (file f).pipe = some x' ∧ x'.isOpen w = true) ↔
          w ≠ (file f).writable ∧ x.isOpen w = true := by
        have hiff : (x.closeEnd (file f).writable).isOpen w = true ↔
            w ≠ (file f).writable ∧ x.isOpen w = true := by
          rw [Pipe.isOpen_closeEnd]
          cases x.isOpen w <;> cases w <;> cases (file f).writable <;> simp
        rcases hself with hs | ⟨hs, hclosed⟩
        · simp [hs, hiff]
        · simp [hs, ← hiff, hclosed]
      rw [hopen]
      have hold := h.isOpen (file f).pipe w
      simp only [hx, Option.some.injEq, exists_eq_left'] at hold
      rw [hold]
      constructor
      · rintro ⟨hw, g, hg, he⟩
        exact ⟨g, hg, fun hgf => hw (by rw [← he.2.2, hgf]), he⟩
      · rintro ⟨g, hg, hgf, he⟩
        refine ⟨fun hw => hgf ?_, g, hg, he⟩
        exact h.inj g hg f hf _ _ he ⟨htype, rfl, hw.symm⟩
    · rw [hother pg hpg, h.isOpen pg w]
      constructor
      · rintro ⟨g, hg, he⟩
        exact ⟨g, hg, fun hgf => hpg (by rw [← he.2.1, hgf]), he⟩
      · rintro ⟨g, hg, -, he⟩
        exact ⟨g, hg, he⟩
  · by_cases hpg : pg = (file f).pipe
    · subst hpg
      exact hused x' hx'
    · rw [hother pg hpg] at hx'
      exact h.used pg x' hx'

/-- `pipealloc` makes two new files the ends of a new pipe. -/
lemma addPipe {f0 f1 pi : ℕ} {data : ℕ → Byte} {x0 x1 : File} (h : FileInv file pipe P S)
    (h0 : f0 < NFILE) (h1 : f1 < NFILE) (hne : f0 ≠ f1) (ht0 : (file f0).type ≠ .pipe)
    (ht1 : (file f1).type ≠ .pipe) (hr0 : 0 < (file f0).ref) (hr1 : 0 < (file f1).ref)
    (hx0 : x0.IsEnd pi false ∧ x0.ref = (file f0).ref)
    (hx1 : x1.IsEnd pi true ∧ x1.ref = (file f1).ref) (hpi : pi ∉ P) :
    FileInv (update (update file f0 x0) f1 x1)
      (update pipe pi (some (Pipe.alloc data))) (insert pi P) S := by
  have hnone : pipe pi = none := by
    by_contra hne
    exact hpi ((h.pages pi).mpr hne)
  have hfile : ∀ g, update (update file f0 x0) f1 x1 g =
      if g = f1 then x1 else if g = f0 then x0 else file g := fun g => by
    simp only [update_apply]
  have hends : ∀ g pg w, (update (update file f0 x0) f1 x1 g).IsEnd pg w ↔
      (g = f0 ∧ pg = pi ∧ w = false) ∨ (g = f1 ∧ pg = pi ∧ w = true) ∨ (file g).IsEnd pg w := by
    intro g pg w
    rw [hfile]
    have hno : ∀ f, (file f).type ≠ .pipe → ¬(file f).IsEnd pg w := fun f hf he => hf he.1
    split_ifs with hg1 hg0
    · subst hg1
      simp only [hno _ ht1, hne.symm, false_and, true_and, false_or, or_false]
      obtain ⟨⟨ht, hp, hw⟩, -⟩ := hx1
      exact ⟨fun he => ⟨by rw [← he.2.1, hp], by rw [← he.2.2, hw]⟩,
        fun he => ⟨ht, by rw [hp, he.1], by rw [hw, he.2]⟩⟩
    · subst hg0
      simp only [hno _ ht0, hg1, false_and, true_and, or_false]
      obtain ⟨⟨ht, hp, hw⟩, -⟩ := hx0
      exact ⟨fun he => ⟨by rw [← he.2.1, hp], by rw [← he.2.2, hw]⟩,
        fun he => ⟨ht, by rw [hp, he.1], by rw [hw, he.2]⟩⟩
    · simp [hg0, hg1]
  -- No file was an end of the page.
  have hfresh : ∀ g < NFILE, ∀ w, ¬(file g).IsEnd pi w := fun g hg w he => by
    obtain ⟨x, hx, -⟩ := (h.isOpen pi w).mpr ⟨g, hg, he⟩
    exact absurd (hnone.symm.trans hx) (by simp)
  have hpipe : ∀ pg ≠ pi, update pipe pi (some (Pipe.alloc data)) pg = pipe pg :=
    fun pg hpg => update_of_ne hpg ..
  refine ⟨h.lt, fun g hg => ?_, fun g hg => ?_, fun pg => ?_, fun g hg g' hg' pg w he he' => ?_,
    fun pg w => ?_, fun pg x hx => ?_⟩
  · rw [hfile]
    split_ifs with hg1 hg0
    · rw [hx1.2, ← hg1, h.ref g hg]
    · rw [hx0.2, ← hg0, h.ref g hg]
    · exact h.ref g hg
  · rw [hfile]
    split_ifs with hg1 hg0
    · intro hz
      have := hx1.2
      omega
    · intro hz
      have := hx0.2
      omega
    · exact h.free g hg
  · by_cases hpg : pg = pi
    · subst hpg
      simp
    · rw [hpipe pg hpg, mem_insert, h.pages pg]
      simp [hpg]
  · rw [hends] at he he'
    rcases he with ⟨rfl, rfl, rfl⟩ | ⟨rfl, rfl, rfl⟩ | he
    · rcases he' with ⟨rfl, -⟩ | ⟨-, -, hw⟩ | he'
      · rfl
      · exact absurd hw (by simp)
      · exact absurd he' (hfresh g' hg' _)
    · rcases he' with ⟨-, -, hw⟩ | ⟨rfl, -⟩ | he'
      · exact absurd hw (by simp)
      · rfl
      · exact absurd he' (hfresh g' hg' _)
    · rcases he' with ⟨rfl, rfl, rfl⟩ | ⟨rfl, rfl, rfl⟩ | he'
      · exact absurd he (hfresh g hg _)
      · exact absurd he (hfresh g hg _)
      · exact h.inj g hg g' hg' pg w he he'
  · simp only [hends]
    by_cases hpg : pg = pi
    · subst hpg
      rw [update_self]
      constructor
      · intro _
        cases w with
        | false => exact ⟨f0, h0, Or.inl ⟨rfl, rfl, rfl⟩⟩
        | true => exact ⟨f1, h1, Or.inr (Or.inl ⟨rfl, rfl, rfl⟩)⟩
      · intro _
        exact ⟨_, rfl, by cases w <;> rfl⟩
    · rw [hpipe pg hpg, h.isOpen pg w]
      simp [hpg]
  · by_cases hpg : pg = pi
    · rw [hpg, update_self] at hx
      obtain rfl := Option.some.inj hx
      exact ⟨true, rfl⟩
    · rw [hpipe pg hpg] at hx
      exact h.used pg x hx

end FileInv
end Xv6
