import Mathlib

/-!
# Byte memories and little-endian fields

A region of memory is a map from offsets to bytes.  This file gives the accessors a C program
uses on such a region — 16-, 32- and 64-bit little-endian fields, `memset` and `memmove` — and
the laws that let a proof treat a field as a variable: a field reads back what was stored in it
(`get32_put32`), and a store leaves every field it does not overlap alone
(`get32_put32_of_disjoint` and its companions).

Nothing here depends on what the regions hold: a disk block, a page of physical memory and a
user buffer are all `Bytes`, each used only below its own size.
-/

namespace Xv6

open Function

/-- One byte. -/
abbrev Byte := BitVec 8

/-- A byte-addressed region of memory. -/
abbrev Bytes := ℕ → Byte

namespace Bytes

/-! ## Bulk operations -/

/-- `memset(m + o, c, n)`. -/
def fill (m : Bytes) (o n : ℕ) (c : Byte) : Bytes :=
  fun i => if o ≤ i ∧ i < o + n then c else m i

/-- `memmove(m + o, src + so, n)` between two distinct regions. -/
def blit (m : Bytes) (o : ℕ) (src : Bytes) (so n : ℕ) : Bytes :=
  fun i => if o ≤ i ∧ i < o + n then src (so + (i - o)) else m i

variable {m src m' : Bytes} {o n i so p : ℕ} {c : Byte} {v : BitVec 32}

lemma fill_of_mem (h : o ≤ i ∧ i < o + n) :
    fill m o n c i = c := if_pos h

lemma fill_of_notMem (h : ¬(o ≤ i ∧ i < o + n)) :
    fill m o n c i = m i := if_neg h

lemma blit_of_mem (h : o ≤ i ∧ i < o + n) :
    blit m o src so n i = src (so + (i - o)) := if_pos h

lemma blit_of_notMem (h : ¬(o ≤ i ∧ i < o + n)) :
    blit m o src so n i = m i := if_neg h

@[simp] lemma blit_zero (m src : Bytes) (o so : ℕ) : blit m o src so 0 = m := by
  funext i
  exact blit_of_notMem (by omega)

lemma blit_congr {src' : Bytes} {so' : ℕ}
    (h : ∀ i < n, src (so + i) = src' (so' + i)) : blit m o src so n = blit m o src' so' n := by
  funext i
  by_cases hi : o ≤ i ∧ i < o + n
  · rw [blit_of_mem hi, blit_of_mem hi, h _ (by omega)]
  · rw [blit_of_notMem hi, blit_of_notMem hi]

/-- Two moves one after the other. -/
lemma blit_blit (m src : Bytes) (o so a b : ℕ) :
    blit (blit m o src so a) (o + a) src (so + a) b = blit m o src so (a + b) := by
  funext i
  by_cases hb : o + a ≤ i ∧ i < o + a + b
  · rw [blit_of_mem hb, blit_of_mem (by omega), Nat.add_assoc so, show a + (i - (o + a)) = i - o by
      omega]
  · rw [blit_of_notMem hb]
    by_cases ha : o ≤ i ∧ i < o + a
    · rw [blit_of_mem ha, blit_of_mem (by omega)]
    · rw [blit_of_notMem ha, blit_of_notMem (by omega)]

/-! ## Fields -/

/-- The 16-bit field at offset `o`. -/
def get16 (m : Bytes) (o : ℕ) : BitVec 16 := m (o + 1) ++ m o

/-- The 32-bit field at offset `o`. -/
def get32 (m : Bytes) (o : ℕ) : BitVec 32 := get16 m (o + 2) ++ get16 m o

/-- The 64-bit field at offset `o`. -/
def get64 (m : Bytes) (o : ℕ) : BitVec 64 := get32 m (o + 4) ++ get32 m o

/-- Store a 16-bit field at offset `o`. -/
def put16 (m : Bytes) (o : ℕ) (v : BitVec 16) : Bytes :=
  fun i => if i = o then v.extractLsb' 0 8 else if i = o + 1 then v.extractLsb' 8 8 else m i

/-- Store a 32-bit field at offset `o`. -/
def put32 (m : Bytes) (o : ℕ) (v : BitVec 32) : Bytes :=
  put16 (put16 m o (v.extractLsb' 0 16)) (o + 2) (v.extractLsb' 16 16)

/-- Store a 64-bit field at offset `o`. -/
def put64 (m : Bytes) (o : ℕ) (v : BitVec 64) : Bytes :=
  put32 (put32 m o (v.extractLsb' 0 32)) (o + 4) (v.extractLsb' 32 32)

/-- Store consecutive 32-bit fields from offset `o` on. -/
def putWords (m : Bytes) (o : ℕ) : List (BitVec 32) → Bytes
  | [] => m
  | v :: vs => putWords (put32 m o v) (o + 4) vs

/-- The mask of bit `i` of a bitmap within its byte. -/
def bitMask (i : ℕ) : Byte := 1#8 <<< (i % 8)

/-- Bit `i` of a bitmap. -/
def bit (m : Bytes) (i : ℕ) : Bool := m (i / 8) &&& bitMask i ≠ 0

def setBit (m : Bytes) (i : ℕ) : Bytes := update m (i / 8) (m (i / 8) ||| bitMask i)

def clearBit (m : Bytes) (i : ℕ) : Bytes := update m (i / 8) (m (i / 8) &&& ~~~bitMask i)

/-- A word is the concatenation of its two halves. -/
lemma append_extract_halves {w : ℕ} (v : BitVec (w + w)) :
    v.extractLsb' w w ++ v.extractLsb' 0 w = v := by
  ext i hi
  simp only [BitVec.getElem_append, BitVec.getElem_extractLsb']
  split
  · simp [BitVec.getLsbD_eq_getElem hi]
  · simp [show w + (i - w) = i by omega, BitVec.getLsbD_eq_getElem hi]

lemma get16_put16 (m : Bytes) (o : ℕ) (v : BitVec 16) : get16 (put16 m o v) o = v := by
  simpa [get16, put16] using append_extract_halves (w := 8) v

lemma put16_of_disjoint {v : BitVec 16} (h : i < o ∨ o + 2 ≤ i) :
    put16 m o v i = m i := by
  simp [put16, show i ≠ o by omega, show i ≠ o + 1 by omega]

lemma put32_of_disjoint (h : i < o ∨ o + 4 ≤ i) :
    put32 m o v i = m i := by
  rw [put32, put16_of_disjoint (by omega), put16_of_disjoint (by omega)]

lemma put64_of_disjoint {v : BitVec 64} (h : i < o ∨ o + 8 ≤ i) :
    put64 m o v i = m i := by
  rw [put64, put32_of_disjoint (by omega), put32_of_disjoint (by omega)]

/-! ## A field depends on its own bytes only -/

lemma get16_congr (h : ∀ i, o ≤ i → i < o + 2 → m i = m' i) :
    get16 m o = get16 m' o := by
  rw [get16, get16, h o (by omega) (by omega), h (o + 1) (by omega) (by omega)]

lemma get32_congr (h : ∀ i, o ≤ i → i < o + 4 → m i = m' i) :
    get32 m o = get32 m' o := by
  have hlo : get16 m o = get16 m' o := get16_congr fun i _ _ => h i (by omega) (by omega)
  have hhi : get16 m (o + 2) = get16 m' (o + 2) :=
    get16_congr fun i _ _ => h i (by omega) (by omega)
  rw [get32, get32, hlo, hhi]

lemma get16_eq_zero (h : ∀ i, o ≤ i → i < o + 2 → m i = 0) : get16 m o = 0 := by
  rw [get16, h o (by omega) (by omega), h (o + 1) (by omega) (by omega)]
  rfl

lemma get32_eq_zero (h : ∀ i, o ≤ i → i < o + 4 → m i = 0) : get32 m o = 0 := by
  rw [get32, get16, get16, h o (by omega) (by omega), h (o + 1) (by omega) (by omega),
    h (o + 2) (by omega) (by omega), h (o + 2 + 1) (by omega) (by omega)]
  rfl

lemma get64_congr (h : ∀ i, o ≤ i → i < o + 8 → m i = m' i) :
    get64 m o = get64 m' o := by
  have hlo : get32 m o = get32 m' o := get32_congr fun i _ _ => h i (by omega) (by omega)
  have hhi : get32 m (o + 4) = get32 m' (o + 4) :=
    get32_congr fun i _ _ => h i (by omega) (by omega)
  rw [get64, get64, hlo, hhi]

lemma get32_put32 (m : Bytes) (o : ℕ) (v : BitVec 32) : get32 (put32 m o v) o = v := by
  have hlo : get16 (put32 m o v) o = v.extractLsb' 0 16 := by
    rw [← get16_put16 m o (v.extractLsb' 0 16), put32]
    exact get16_congr fun i _ _ => put16_of_disjoint (by omega)
  rw [get32, hlo, put32, get16_put16]
  exact append_extract_halves (w := 16) v

lemma get64_put64 (m : Bytes) (o : ℕ) (v : BitVec 64) : get64 (put64 m o v) o = v := by
  have hlo : get32 (put64 m o v) o = v.extractLsb' 0 32 := by
    rw [← get32_put32 m o (v.extractLsb' 0 32), put64]
    exact get32_congr fun i _ _ => put32_of_disjoint (by omega)
  rw [get64, hlo, put64, get32_put32]
  exact append_extract_halves (w := 32) v

/-- Two adjacent fields of a word. -/
lemma append_extract (v : BitVec n) (a w : ℕ) :
    v.extractLsb' (a + w) w ++ v.extractLsb' a w = v.extractLsb' a (w + w) := by
  ext i hi
  simp only [BitVec.getElem_append, BitVec.getElem_extractLsb']
  split
  · rfl
  · rw [show a + w + (i - w) = a + i by omega]

/-- A field is known by its bytes. -/
lemma get64_of_bytes {v : BitVec 64}
    (h : ∀ r < 8, m (o + r) = v.extractLsb' (8 * r) 8) : get64 m o = v := by
  have h16 : ∀ r < 7, get16 m (o + r) = v.extractLsb' (8 * r) 16 := by
    intro r hr
    rw [get16, h r (by omega), Nat.add_assoc, h (r + 1) (by omega)]
    exact append_extract v (8 * r) 8
  have h32 : ∀ r < 5, get32 m (o + r) = v.extractLsb' (8 * r) 32 := by
    intro r hr
    rw [get32, h16 r (by omega), Nat.add_assoc, h16 (r + 2) (by omega)]
    exact append_extract v (8 * r) 16
  have hlo : get32 m o = v.extractLsb' 0 32 := h32 0 (by decide)
  rw [get64, hlo, h32 4 (by decide)]
  exact append_extract_halves (w := 32) v

/-! ## Disjoint fields -/

lemma get32_put32_of_disjoint (h : p + 4 ≤ o ∨ o + 4 ≤ p) : get32 (put32 m o v) p = get32 m p :=
  get32_congr fun _ _ _ => put32_of_disjoint (by omega)

lemma get16_put16_of_disjoint {v : BitVec 16}
    (h : p + 2 ≤ o ∨ o + 2 ≤ p) : get16 (put16 m o v) p = get16 m p :=
  get16_congr fun _ _ _ => put16_of_disjoint (by omega)

lemma get16_put32_of_disjoint (h : p + 2 ≤ o ∨ o + 4 ≤ p) : get16 (put32 m o v) p = get16 m p :=
  get16_congr fun _ _ _ => put32_of_disjoint (by omega)

lemma get64_put64_of_disjoint {v : BitVec 64}
    (h : p + 8 ≤ o ∨ o + 8 ≤ p) : get64 (put64 m o v) p = get64 m p :=
  get64_congr fun _ _ _ => put64_of_disjoint (by omega)

/-! ## Arrays of words -/

lemma putWords_of_disjoint {vs : List (BitVec 32)}
    (h : i < o ∨ o + 4 * vs.length ≤ i) : putWords m o vs i = m i := by
  induction vs generalizing m o with
  | nil => rfl
  | cons v vs ih =>
    rw [List.length_cons] at h
    rw [putWords, ih (by omega), put32_of_disjoint (by omega)]

lemma get32_putWords (m : Bytes) (o : ℕ) (vs : List (BitVec 32)) (hn : n < vs.length) :
    get32 (putWords m o vs) (o + 4 * n) = vs[n] := by
  induction vs generalizing m o n with
  | nil => exact absurd hn (Nat.not_lt_zero n)
  | cons v vs ih =>
    cases n with
    | zero =>
      refine (get32_congr fun i h₁ h₂ => ?_).trans (get32_put32 m o v)
      rw [putWords, putWords_of_disjoint (by omega)]
    | succ n =>
      have hnext := ih (put32 m o v) (o + 4) (by simpa using hn)
      rwa [show o + 4 + 4 * n = o + 4 * (n + 1) by omega] at hnext

/-! ## Bitmaps -/

lemma and_bitMask_ne_zero (x : Byte) (i : ℕ) : x &&& bitMask i ≠ 0 ↔ x.getLsbD (i % 8) = true := by
  have hlt : i % 8 < 8 := Nat.mod_lt i (by decide)
  rw [bitMask, ← BitVec.twoPow_eq, BitVec.and_twoPow]
  split
  · next h =>
    refine iff_of_true (fun h0 => ?_) h
    have hbit := congrArg (fun v : Byte => v.getLsbD (i % 8)) h0
    simp [hlt] at hbit
  · next h => simp [h]

lemma bit_eq (m : Bytes) (i : ℕ) : bit m i = (m (i / 8)).getLsbD (i % 8) := by
  rw [bit, Bool.eq_iff_iff, decide_eq_true_eq, and_bitMask_ne_zero]

lemma getLsbD_bitMask (i j : ℕ) : (bitMask i).getLsbD (j % 8) = decide (i % 8 = j % 8) := by
  have hi : i % 8 < 8 := Nat.mod_lt i (by decide)
  have hj : j % 8 < 8 := Nat.mod_lt j (by decide)
  rw [bitMask, ← BitVec.twoPow_eq, BitVec.getLsbD_twoPow]
  simp [hi]

lemma bit_setBit (m : Bytes) (i j : ℕ) : bit (setBit m i) j = (decide (i = j) || bit m j) := by
  rw [bit_eq, bit_eq, setBit]
  by_cases hdiv : j / 8 = i / 8
  · rw [hdiv, update_self, BitVec.getLsbD_or, getLsbD_bitMask, Bool.or_comm]
    congr 1
    rw [decide_eq_decide]
    omega
  · rw [update_of_ne hdiv, decide_eq_false (by rintro rfl; exact hdiv rfl), Bool.false_or]

lemma bit_clearBit (m : Bytes) (i j : ℕ) : bit (clearBit m i) j = (!decide (i = j) && bit m j) := by
  rw [bit_eq, bit_eq, clearBit]
  by_cases hdiv : j / 8 = i / 8
  · have hj : j % 8 < 8 := Nat.mod_lt j (by decide)
    rw [hdiv, update_self, BitVec.getLsbD_and, BitVec.getLsbD_not, getLsbD_bitMask,
      Bool.and_comm]
    have hiff : (i % 8 = j % 8) ↔ i = j := by omega
    simp [hj, hiff]
  · rw [update_of_ne hdiv, decide_eq_false (by rintro rfl; exact hdiv rfl)]
    simp

end Bytes
end Xv6
