import Mathlib

/-!
# Ring buffers with wrapping counters

A buffer of `N` slots with two counters of `w` bits that only ever count up, modulo `2 ^ w`: the item
with number `j` is in slot `j % N`.  `RingFifo` relates such a buffer to the items stored and taken
so far.  The counters may wrap as often as they like, provided that `N` divides `2 ^ w` and is
smaller, so that a full buffer can be told from an empty one.
-/

namespace Xv6

open List

variable {α : Type*} {w N : ℕ}

/-- The buffer holds what has been stored and not been taken. -/
structure RingFifo (N : ℕ) (data : ℕ → α) (rd wr : BitVec w) (stored taken : List α) : Prop where
  wr_eq : wr = BitVec.ofNat w stored.length
  rd_eq : rd = BitVec.ofNat w taken.length
  isPrefix : taken <+: stored
  room : stored.length ≤ taken.length + N
  slot : ∀ j, taken.length ≤ j → ∀ h : j < stored.length, data (j % N) = stored[j]

namespace RingFifo

variable {data : ℕ → α} {rd wr : BitVec w} {stored taken : List α}

lemma empty (N : ℕ) (data : ℕ → α) : RingFifo N data (0 : BitVec w) 0 [] [] where
  wr_eq := rfl
  rd_eq := rfl
  isPrefix := prefix_rfl
  room := Nat.zero_le _
  slot _ _ h := absurd h (Nat.not_lt_zero _)

section

variable (h : RingFifo N data rd wr stored taken)
include h

lemma length_le : taken.length ≤ stored.length :=
  h.isPrefix.length_le

/-- The difference of the counters is the number of items in the buffer. -/
lemma toNat_sub (hN : N < 2 ^ w) : (wr - rd).toNat = stored.length - taken.length := by
  have hle := h.length_le
  have hroom := h.room
  rw [h.wr_eq, h.rd_eq, BitVec.toNat_sub, BitVec.toNat_ofNat, BitVec.toNat_ofNat]
  have hpos : 0 < 2 ^ w := Nat.two_pow_pos w
  obtain ⟨d, hd⟩ := Nat.exists_eq_add_of_le hle
  have hd' : d < 2 ^ w := by omega
  rw [hd, Nat.add_sub_cancel_left]
  have hlt := Nat.mod_lt taken.length hpos
  have hsum : 2 ^ w - taken.length % 2 ^ w + (taken.length + d) % 2 ^ w ≡ d [MOD 2 ^ w] := by
    have h₁ : 2 ^ w - taken.length % 2 ^ w + (taken.length + d) % 2 ^ w ≡
        2 ^ w - taken.length % 2 ^ w + (taken.length % 2 ^ w + d) [MOD 2 ^ w] :=
      (((Nat.mod_modEq _ _).trans ((Nat.mod_modEq _ _).symm.add_right d))).add_left _
    have h₂ : 2 ^ w - taken.length % 2 ^ w + (taken.length % 2 ^ w + d) = 2 ^ w + d := by omega
    rw [h₂] at h₁
    exact h₁.trans (by simp [Nat.ModEq])
  exact (show _ % _ = d % _ from hsum).trans (Nat.mod_eq_of_lt hd')

lemma eq_iff (hN : N < 2 ^ w) : rd = wr ↔ stored.length = taken.length := by
  have hsub := h.toNat_sub hN
  have hle := h.length_le
  constructor
  · intro heq
    rw [heq, BitVec.sub_self, BitVec.toNat_zero] at hsub
    omega
  · intro heq
    rw [h.wr_eq, h.rd_eq, heq]

lemma full_iff (hN : N < 2 ^ w) :
    wr = rd + BitVec.ofNat w N ↔ stored.length = taken.length + N := by
  have hsub := h.toNat_sub hN
  have hle := h.length_le
  constructor
  · intro heq
    rw [heq, BitVec.add_comm, BitVec.add_sub_cancel, BitVec.toNat_ofNat, Nat.mod_eq_of_lt hN] at hsub
    omega
  · intro heq
    rw [h.wr_eq, h.rd_eq, heq, BitVec.ofNat_add]

end

lemma toNat_mod {n : ℕ} (hdvd : N ∣ 2 ^ w) : (BitVec.ofNat w n).toNat % N = n % N := by
  rw [BitVec.toNat_ofNat, Nat.mod_mod_of_dvd n hdvd]

/-- Two items in the buffer are in different slots. -/
lemma mod_ne {i j a : ℕ} (hi : a ≤ i) (hij : i < j) (hj : j < a + N) : i % N ≠ j % N := by
  intro heq
  have hdvd : N ∣ j - i := (Nat.modEq_iff_dvd' hij.le).1 heq
  have := Nat.le_of_dvd (by omega) hdvd
  omega

section

variable (h : RingFifo N data rd wr stored taken)
include h

lemma store (hdvd : N ∣ 2 ^ w) (hN : N < 2 ^ w) (hfull : wr ≠ rd + BitVec.ofNat w N) (b : α) :
    RingFifo N (Function.update data (wr.toNat % N) b) rd (wr + 1) (stored ++ [b]) taken := by
  have hroom : stored.length < taken.length + N :=
    lt_of_le_of_ne h.room fun heq => hfull ((h.full_iff hN).2 heq)
  constructor
  case wr_eq =>
    rw [h.wr_eq, length_append, length_singleton, BitVec.ofNat_add]
    rfl
  case rd_eq => exact h.rd_eq
  case isPrefix => exact h.isPrefix.trans (prefix_append _ _)
  case room =>
    rw [length_append, length_singleton]
    omega
  case slot =>
    intro j hj hlt
    rw [h.wr_eq, toNat_mod hdvd]
    rw [length_append, length_singleton] at hlt
    by_cases hjs : j = stored.length
    · subst hjs
      simp
    · have hjlt : j < stored.length := by omega
      rw [Function.update_of_ne (mod_ne hj hjlt hroom), h.slot j hj hjlt,
        getElem_append_left hjlt]

/-- The item in front is the oldest one. -/
lemma front (hdvd : N ∣ 2 ^ w) (hN : N < 2 ^ w) (hne : rd ≠ wr) :
    ∃ hlt : taken.length < stored.length, data (rd.toNat % N) = stored[taken.length] := by
  have hlt : taken.length < stored.length :=
    lt_of_le_of_ne h.length_le fun heq => hne ((h.eq_iff hN).2 heq.symm)
  refine ⟨hlt, ?_⟩
  rw [h.rd_eq, toNat_mod hdvd]
  exact h.slot _ le_rfl hlt

lemma take (hdvd : N ∣ 2 ^ w) (hN : N < 2 ^ w) (hne : rd ≠ wr) :
    RingFifo N data (rd + 1) wr stored (taken ++ [data (rd.toNat % N)]) := by
  obtain ⟨hlt, hfront⟩ := h.front hdvd hN hne
  have hroom := h.room
  have hpre : taken ++ [stored[taken.length]] <+: stored := by
    have htake : taken = stored.take taken.length := prefix_iff_eq_take.1 h.isPrefix
    have hnext := take_concat_get' stored taken.length hlt
    rw [← htake] at hnext
    exact hnext ▸ take_prefix ..
  constructor
  case wr_eq => exact h.wr_eq
  case rd_eq =>
    rw [h.rd_eq, length_append, length_singleton, BitVec.ofNat_add]
    rfl
  case isPrefix => rwa [hfront]
  case room =>
    rw [length_append, length_singleton]
    omega
  case slot =>
    intro j hj hjs
    rw [length_append, length_singleton] at hj
    exact h.slot j (by omega) hjs

end

end RingFifo

end Xv6
