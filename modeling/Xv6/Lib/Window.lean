import Xv6.Lib.Fifo

/-!
# Windows of a ring

A buffer of `N` slots and a counter of `w` bits name a list: the item `i` places after the counter
is in the slot of that number modulo `N`.  `Holds` says so.  Unlike a queue with two counters that
only count up, a window may shrink at either end and get back what it had, since moving a counter
does not change the slots.
-/

namespace Xv6

variable {α : Type*} {w N : ℕ} {data : ℕ → α} {start : BitVec w} {l l' : List α} {b : α}

/-- The slots from `start` on hold the list `l`. -/
def Holds (N : ℕ) (data : ℕ → α) (start : BitVec w) (l : List α) : Prop :=
  ∀ i, ∀ h : i < l.length, data ((start.toNat + i) % N) = l[i]

namespace Holds

lemma nil : Holds N data start [] := fun _ h => absurd h (Nat.not_lt_zero _)

/-- The slot of a place after the counter, when the counter wraps at a multiple of `N`. -/
lemma slot_add (hdvd : N ∣ 2 ^ w) (start : BitVec w) (i : ℕ) :
    (start + BitVec.ofNat w i).toNat % N = (start.toNat + i) % N := by
  rw [BitVec.toNat_add, BitVec.toNat_ofNat, Nat.add_mod_mod, Nat.mod_mod_of_dvd _ hdvd]

/-- A part in front. -/
lemma of_append (h : Holds N data start (l ++ l')) : Holds N data start l := fun i hi => by
  rw [h i (by rw [List.length_append]; omega), List.getElem_append_left hi]

/-- The last item. -/
lemma getLast (h : Holds N data start (l ++ [b])) (hdvd : N ∣ 2 ^ w) :
    data ((start + BitVec.ofNat w l.length).toNat % N) = b := by
  rw [slot_add hdvd, h l.length (by simp)]
  simp

/-- The first item, and the rest. -/
lemma cons (h : Holds N data start (b :: l)) (hdvd : N ∣ 2 ^ w) :
    data (start.toNat % N) = b ∧ Holds N data (start + 1) l := by
  refine ⟨h 0 (by simp), fun i hi => ?_⟩
  have hslot : ((start + 1).toNat + i) % N = (start.toNat + (i + 1)) % N := by
    have h₁ := slot_add hdvd start 1
    change (start + 1).toNat % N = _ at h₁
    rw [Nat.add_mod, h₁, ← Nat.add_mod, Nat.add_assoc, Nat.add_comm 1 i]
  rw [hslot, h (i + 1) (by simpa using hi), List.getElem_cons_succ]

/-- A longer list, if the slot behind the last item holds its last item. -/
lemma snoc (h : Holds N data start l) (hdvd : N ∣ 2 ^ w)
    (hb : data ((start + BitVec.ofNat w l.length).toNat % N) = b) :
    Holds N data start (l ++ [b]) := fun i hi => by
  rw [List.length_append, List.length_singleton] at hi
  by_cases hil : i = l.length
  · subst hil
    rw [← slot_add hdvd, hb]
    simp
  · have hlt : i < l.length := by omega
    rw [h i hlt, List.getElem_append_left hlt]

/-- Storing behind the last item does not disturb the list, while there is room. -/
lemma store (h : Holds N data start l) (hdvd : N ∣ 2 ^ w) (hroom : l.length < N) (b : α) :
    Holds N (Function.update data ((start + BitVec.ofNat w l.length).toNat % N) b) start l :=
  fun i hi => by
    have hne : (start.toNat + i) % N ≠ (start.toNat + l.length) % N :=
      RingFifo.mod_ne (a := start.toNat) (by omega) (by omega) (by omega)
    rw [slot_add hdvd, Function.update_of_ne hne, h i hi]

/-- Storing behind the last item, while there is room. -/
lemma push (h : Holds N data start l) (hdvd : N ∣ 2 ^ w) (hroom : l.length < N) (b : α) :
    Holds N (Function.update data ((start + BitVec.ofNat w l.length).toNat % N) b) start
      (l ++ [b]) :=
  (h.store hdvd hroom b).snoc hdvd (Function.update_self ..)

end Holds

end Xv6
