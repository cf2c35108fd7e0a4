import Xv6.Lib.Bytes

/-!
# Copying between overlapping regions

`memmove` of `kernel/string.c` and `memmove` of `user/ulib.c`.  Both copy one byte at a time, upwards
or downwards, but they decide on the direction by different tests: the kernel copies downwards only
if the end of the source reaches into the destination, the user library whenever the source does not
lie above the destination.

Addresses have 64 bits, so that the end of a region that touches the top of the address space is 0.
`copyUp_eq` and `copyDown_eq` say when a direction is safe.
-/

namespace Xv6

/-- Memory, by 64-bit address. -/
abbrev Memory := BitVec 64 → Byte

namespace Memory

/-- `*d = c`. -/
def store (m : Memory) (d : BitVec 64) (c : Byte) : Memory := fun a => if a = d then c else m a

/-- `while(n-- > 0) *d++ = *s++`. -/
def copyUp (m : Memory) (d s : BitVec 64) : ℕ → Memory
  | 0 => m
  | n + 1 => copyUp (m.store d (m s)) (d + 1) (s + 1) n

/-- `while(n-- > 0) *--d = *--s`. -/
def copyDown (m : Memory) (d s : BitVec 64) : ℕ → Memory
  | 0 => m
  | n + 1 => copyDown (m.store (d - 1) (m (s - 1))) (d - 1) (s - 1) n

end Memory

/-- `memmove` of the kernel, with the pointer it returns. -/
def memmove (m : Memory) (dst src : BitVec 64) (n : BitVec 32) : Memory × BitVec 64 :=
  if n = 0 then (m, dst)
  else if src < dst ∧ src + n.setWidth 64 > dst then
    (m.copyDown (dst + n.setWidth 64) (src + n.setWidth 64) n.toNat, dst)
  else (m.copyUp dst src n.toNat, dst)

/-- `memmove` of the user library, whose `n` is an `int`. -/
def ulibMemmove (m : Memory) (vdst vsrc : BitVec 64) (n : BitVec 32) : Memory × BitVec 64 :=
  if vsrc > vdst then (m.copyUp vdst vsrc n.toInt.toNat, vdst)
  else (m.copyDown (vdst + n.signExtend 64) (vsrc + n.signExtend 64) n.toInt.toNat, vdst)

/-! ## What a copy has to do -/

/-- The address belongs to the `n` bytes at `d`. -/
def InRegion (d : BitVec 64) (n : ℕ) (a : BitVec 64) : Prop := d.toNat ≤ a.toNat ∧ a.toNat < d.toNat + n

instance (d : BitVec 64) (n : ℕ) (a : BitVec 64) : Decidable (InRegion d n a) :=
  inferInstanceAs (Decidable (_ ∧ _))

/-- The `n` bytes at `dst` are those that `src` pointed to in `m`, and no other byte has changed. -/
structure Moved (m m' : Memory) (dst src : BitVec 64) (n : ℕ) : Prop where
  copied : ∀ i < n, m' (dst + BitVec.ofNat 64 i) = m (src + BitVec.ofNat 64 i)
  frame : ∀ a, ¬InRegion dst n a → m' a = m a

namespace Memory

/-- The memory in which the bytes have been moved at once. -/
def moved (m : Memory) (dst src : BitVec 64) (n : ℕ) : Memory :=
  fun a => if InRegion dst n a then m (src + (a - dst)) else m a

variable {m : Memory} {d s : BitVec 64} {n : ℕ}

lemma store_self (m : Memory) (d : BitVec 64) (c : Byte) : m.store d c d = c := if_pos rfl

lemma store_of_ne {a : BitVec 64} (h : a ≠ d) (c : Byte) : m.store d c a = m a := if_neg h

lemma moved_of_mem {a : BitVec 64} (h : InRegion d n a) : m.moved d s n a = m (s + (a - d)) :=
  if_pos h

lemma moved_of_notMem {a : BitVec 64} (h : ¬InRegion d n a) : m.moved d s n a = m a := if_neg h

/-- An address within a region that does not wrap. -/
lemma toNat_add_ofNat {i : ℕ} (hd : d.toNat + n ≤ 2 ^ 64) (hi : i < n) :
    (d + BitVec.ofNat 64 i).toNat = d.toNat + i := by
  rw [BitVec.toNat_add, BitVec.toNat_ofNat, Nat.add_mod_mod, Nat.mod_eq_of_lt (by omega)]

lemma add_sub_self (d x : BitVec 64) : d + x - d = x := by bv_omega

lemma moved_spec (hd : d.toNat + n ≤ 2 ^ 64) : Moved m (m.moved d s n) d s n where
  copied i hi := by
    have ha : InRegion d n (d + BitVec.ofNat 64 i) := by
      rw [InRegion, toNat_add_ofNat hd hi]
      omega
    rw [moved_of_mem ha, add_sub_self]
  frame _ ha := moved_of_notMem ha

/-! ## The two directions -/

/-- Copying upwards is safe if the destination does not begin within the source. -/
lemma copyUp_eq (hs : s.toNat + n ≤ 2 ^ 64) (hd : d.toNat + n ≤ 2 ^ 64)
    (h : d.toNat ≤ s.toNat ∨ s.toNat + n ≤ d.toNat) : m.copyUp d s n = m.moved d s n := by
  induction n generalizing m d s with
  | zero => exact funext fun a => (moved_of_notMem fun ha => by have := ha.1; have := ha.2; omega).symm
  | succ n ih =>
    have hsrc : ∀ a, InRegion d (n + 1) a → a ≠ d → s + (a - d) ≠ d := by
      intro a ha hne
      unfold InRegion at ha
      bv_omega
    rw [copyUp]
    rcases Nat.eq_zero_or_pos n with rfl | hn
    · funext a
      by_cases ha : a = d
      · rw [copyUp, ha, store_self, moved_of_mem (by unfold InRegion; omega), BitVec.sub_self,
          BitVec.add_zero]
      · rw [copyUp, store_of_ne ha, moved_of_notMem (by unfold InRegion; bv_omega)]
    · rw [ih (by bv_omega) (by bv_omega) (by bv_omega)]
      funext a
      by_cases ha : a = d
      · rw [moved_of_notMem (by unfold InRegion; bv_omega), ha, store_self,
          moved_of_mem (by unfold InRegion; omega), BitVec.sub_self, BitVec.add_zero]
      · by_cases hin : InRegion d (n + 1) a
        · have hrest : InRegion (d + 1) n a := by
            unfold InRegion at hin ⊢
            bv_omega
          have hshift : s + 1 + (a - (d + 1)) = s + (a - d) := by bv_omega
          rw [moved_of_mem hrest, hshift, store_of_ne (hsrc a hin ha), moved_of_mem hin]
        · have hrest : ¬InRegion (d + 1) n a := by
            unfold InRegion at hin ⊢
            bv_omega
          rw [moved_of_notMem hrest, store_of_ne ha, moved_of_notMem hin]

/-- Copying downwards is safe if the source does not begin within the destination. -/
lemma copyDown_eq (hs : s.toNat + n ≤ 2 ^ 64) (hd : d.toNat + n ≤ 2 ^ 64)
    (h : s.toNat ≤ d.toNat) :
    m.copyDown (d + BitVec.ofNat 64 n) (s + BitVec.ofNat 64 n) n = m.moved d s n := by
  induction n generalizing m with
  | zero => exact funext fun a => (moved_of_notMem fun ha => by have := ha.1; have := ha.2; omega).symm
  | succ n ih =>
    have hback : ∀ p : BitVec 64, p + BitVec.ofNat 64 (n + 1) - 1 = p + BitVec.ofNat 64 n := by
      intro p
      rw [BitVec.ofNat_add]
      bv_omega
    have hlast := toNat_add_ofNat hd (Nat.lt_succ_self n)
    rw [copyDown, hback, hback, ih (by omega) (by omega)]
    funext a
    by_cases ha : a = d + BitVec.ofNat 64 n
    · have hin : InRegion d (n + 1) a := by
        unfold InRegion
        rw [ha, hlast]
        omega
      have hout : ¬InRegion d n a := by
        unfold InRegion
        rw [ha, hlast]
        omega
      rw [moved_of_notMem hout, moved_of_mem hin, ha, store_self, add_sub_self]
    · by_cases hin : InRegion d n a
      · have hin' : InRegion d (n + 1) a := ⟨hin.1, by have := hin.2; omega⟩
        have hsrc : s + (a - d) ≠ d + BitVec.ofNat 64 n := by
          unfold InRegion at hin
          bv_omega
        rw [moved_of_mem hin, store_of_ne hsrc, moved_of_mem hin']
      · have hin' : ¬InRegion d (n + 1) a := by
          unfold InRegion at hin ⊢
          bv_omega
        rw [moved_of_notMem hin, store_of_ne ha, moved_of_notMem hin']

end Memory

/-! ## Both functions move the bytes -/

section

variable {m : Memory} {dst src : BitVec 64} {n : BitVec 32}

lemma setWidth_eq_ofNat (n : BitVec 32) : n.setWidth 64 = BitVec.ofNat 64 n.toNat := by bv_omega

lemma memmove_eq (hs : src.toNat + n.toNat ≤ 2 ^ 64) (hd : dst.toNat + n.toNat ≤ 2 ^ 64) :
    memmove m dst src n = (m.moved dst src n.toNat, dst) := by
  unfold memmove
  by_cases hn : n = 0
  · rw [if_pos hn, hn, ← Memory.copyUp_eq (by bv_omega) (by bv_omega) (by bv_omega)]
    rfl
  · rw [if_neg hn]
    by_cases hover : src < dst ∧ src + n.setWidth 64 > dst
    · have hle : src.toNat ≤ dst.toNat := by bv_omega
      rw [if_pos hover, setWidth_eq_ofNat, Memory.copyDown_eq hs hd hle]
    · -- if `src < dst`, the end of the source does not wrap: the destination would wrap as well
      rw [if_neg hover, Memory.copyUp_eq hs hd (by bv_omega)]

lemma ulibMemmove_eq (hs : src.toNat + n.toNat ≤ 2 ^ 64) (hd : dst.toNat + n.toNat ≤ 2 ^ 64)
    (hn : n.toNat < 2 ^ 31) : ulibMemmove m dst src n = (m.moved dst src n.toNat, dst) := by
  have hint : n.toInt.toNat = n.toNat := by
    rw [BitVec.toInt_eq_toNat_of_lt (by omega), Int.toNat_natCast]
  have hext : n.signExtend 64 = BitVec.ofNat 64 n.toNat := by
    rw [BitVec.signExtend_eq_setWidth_of_msb_false (BitVec.msb_eq_false_iff_two_mul_lt.mpr (by omega)),
      setWidth_eq_ofNat]
  unfold ulibMemmove
  rw [hint, hext]
  by_cases hgt : src > dst
  · rw [if_pos hgt, Memory.copyUp_eq hs hd (Or.inl (by bv_omega))]
  · rw [if_neg hgt, Memory.copyDown_eq hs hd (by bv_omega)]

/-- **Overlap does not matter to `memmove`**: the destination holds what the source held before the
call and nothing else has changed, so the kernel's function and the user library's agree wherever the
latter's `int` can hold the length. -/
theorem memmove_moves_bytes (m : Memory) (dst src : BitVec 64) (n : BitVec 32)
    (hs : src.toNat + n.toNat ≤ 2 ^ 64) (hd : dst.toNat + n.toNat ≤ 2 ^ 64) :
    Moved m (memmove m dst src n).1 dst src n.toNat ∧
    (n.toNat < 2 ^ 31 →
      Moved m (ulibMemmove m dst src n).1 dst src n.toNat ∧
      ulibMemmove m dst src n = memmove m dst src n) := by
  have hmoved := Memory.moved_spec (m := m) (s := src) hd
  refine ⟨?_, fun hn => ⟨?_, ?_⟩⟩
  · rw [memmove_eq hs hd]
    exact hmoved
  · rw [ulibMemmove_eq hs hd hn]
    exact hmoved
  · rw [ulibMemmove_eq hs hd hn, memmove_eq hs hd]

/-- Three bytes are moved up by one within the last four bytes of the address space. -/
theorem memmove_moves_bytes_top :
    (memmove (fun a => a.setWidth 8) 0xfffffffffffffffd 0xfffffffffffffffc 3).1
      0xffffffffffffffff = 0xfe :=
  (memmove_moves_bytes (fun a => a.setWidth 8) 0xfffffffffffffffd 0xfffffffffffffffc 3
    (by decide) (by decide)).1.copied 2 (by decide)

end

end Xv6
