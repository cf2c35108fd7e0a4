import Mathlib

/-!
# Positional numerals

The digits that a loop of divisions produces, least significant first, of which there is always at
least one: `lowDigits b x` is `Nat.digits b x` except at 0, whose numeral is not empty.  Reading them
back most significant first is `horner`.
-/

namespace Xv6

/-- The digits of `x` in base `b`, least significant first. -/
def lowDigits (b x : ℕ) : List ℕ := if x = 0 then [0] else b.digits x

/-- The value of a list of digits, most significant first. -/
def horner (b : ℕ) (l : List ℕ) : ℕ := l.foldl (fun v d => b * v + d) 0

variable {b x k : ℕ}

lemma lowDigits_zero (b : ℕ) : lowDigits b 0 = [0] := if_pos rfl

lemma lowDigits_of_ne (h : x ≠ 0) : lowDigits b x = b.digits x := if_neg h

/-- One division. -/
lemma lowDigits_eq_cons (hb : 2 ≤ b) (x : ℕ) :
    lowDigits b x = x % b :: if x / b = 0 then [] else lowDigits b (x / b) := by
  rcases Nat.eq_zero_or_pos x with rfl | hx
  · rw [lowDigits_zero, Nat.zero_mod, Nat.zero_div, if_pos rfl]
  · rw [lowDigits_of_ne hx.ne', Nat.digits_def' hb hx]
    split
    case isTrue h => rw [h, Nat.digits_zero]
    case isFalse h => rw [lowDigits_of_ne h]

lemma lowDigits_ne_nil (b x : ℕ) : lowDigits b x ≠ [] := by
  unfold lowDigits
  split
  case isTrue => exact List.cons_ne_nil _ _
  case isFalse h => exact Nat.digits_ne_nil_iff_ne_zero.mpr h

lemma lt_of_mem_lowDigits (hb : 2 ≤ b) {d : ℕ} (h : d ∈ lowDigits b x) : d < b := by
  unfold lowDigits at h
  split at h
  case isTrue =>
    rw [List.mem_singleton.mp h]
    omega
  case isFalse => exact Nat.digits_lt_base hb h

/-- The most significant digit is not 0, unless there is no other. -/
lemma lowDigits_eq_of_getLast_eq_zero (h : (lowDigits b x).getLast (lowDigits_ne_nil b x) = 0) :
    lowDigits b x = [0] := by
  rcases Nat.eq_zero_or_pos x with rfl | hx
  · exact lowDigits_zero b
  · simp only [lowDigits_of_ne hx.ne'] at h
    exact absurd h (Nat.getLast_digit_ne_zero b hx.ne')

lemma length_lowDigits_le (hb : 2 ≤ b) (hk : 0 < k) (h : x < b ^ k) :
    (lowDigits b x).length ≤ k := by
  unfold lowDigits
  split
  case isTrue => exact hk
  case isFalse => exact Nat.digits_length_le_iff hb x |>.mpr h

lemma horner_append (b : ℕ) (l : List ℕ) (d : ℕ) : horner b (l ++ [d]) = b * horner b l + d := by
  rw [horner, horner, List.foldl_append]
  rfl

lemma horner_reverse (b : ℕ) (l : List ℕ) : horner b l.reverse = Nat.ofDigits b l := by
  induction l with
  | nil => rfl
  | cons d l ih => rw [List.reverse_cons, horner_append, ih, Nat.ofDigits_cons, Nat.add_comm]

/-- A numeral has the value it was made from. -/
lemma horner_lowDigits (b x : ℕ) : horner b (lowDigits b x).reverse = x := by
  rw [horner_reverse]
  unfold lowDigits
  split
  case isTrue h => rw [h, Nat.ofDigits_singleton]
  case isFalse => exact Nat.ofDigits_digits b x

end Xv6
