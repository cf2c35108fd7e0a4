import Xv6.Lib.CString
import Xv6.Lib.Numeral

/-!
# Printing a number

`printint` of `kernel/printk.c` and `printint` of `user/printf.c`.  Both put the digits into a buffer
of 20 bytes, least significant first, and then print the buffer backwards.  They differ in the letter
case of the digits above 9 and in how they remember the sign.

What is printed is described by symbols, in which a digit is a number (`Sym`): the two functions
print the same symbols, each with its own table of digits.
-/

namespace Xv6

open List

/-! ## The buffer -/

/-- `char buf[20]`.  A cell that has not been written yet has no value. -/
abbrev DigitBuf := Fin 20 → Option Byte

namespace DigitBuf

def empty : DigitBuf := fun _ => none

/-- `buf[i] = c`, which fails outside the buffer. -/
def store (buf : DigitBuf) (i : ℕ) (c : Byte) : Option DigitBuf :=
  if h : i < 20 then some (Function.update buf ⟨i, h⟩ (some c)) else none

/-- `buf[i]`, which fails outside the buffer and at a cell that has not been written. -/
def load (buf : DigitBuf) (i : ℕ) : Option Byte := if h : i < 20 then buf ⟨i, h⟩ else none

/-- `while(--i >= 0) putc(buf[i])`, the bytes that are put. -/
def putBack (buf : DigitBuf) : ℕ → Option (List Byte)
  | 0 => some []
  | i + 1 => do
    let c ← buf.load i
    let l ← buf.putBack i
    return c :: l

end DigitBuf

/-! ## The two functions -/

/-- A base for which `digits` is long enough. -/
structure Radix where
  val : ℕ
  two_le : 2 ≤ val
  le_sixteen : val ≤ 16
  deriving DecidableEq

namespace Radix

def ten : Radix := ⟨10, by decide, by decide⟩

def sixteen : Radix := ⟨16, by decide, by decide⟩

end Radix

/-- `do { buf[i++] = digits[x % base]; } while((x /= base) != 0)`, with the `i` at the end. -/
def putDigits (digits : List Byte) (base : Radix) (x i : ℕ) (buf : DigitBuf) :
    Option (DigitBuf × ℕ) := do
  let c ← digits[x % base.val]?
  let buf ← buf.store i c
  if h : x / base.val ≠ 0 then putDigits digits base (x / base.val) (i + 1) buf
  else return (buf, i + 1)
  termination_by x
  decreasing_by
    have hx : x ≠ 0 := fun h0 => h (by rw [h0, Nat.zero_div])
    exact Nat.div_lt_self (Nat.pos_of_ne_zero hx) base.two_le

/-- What both functions do once the sign is known: the digits of `x`, the sign, and backwards. -/
def printDigits (digits : List Byte) (base : Radix) (x : ℕ) (neg : Bool) : Option (List Byte) := do
  let (buf, i) ← putDigits digits base x 0 .empty
  if neg then
    let buf ← buf.store i (chr '-')
    buf.putBack (i + 1)
  else buf.putBack i

namespace Printk

/-- `digits` of `kernel/printk.c`. -/
def digits : List Byte := "0123456789abcdef".toList.map chr

/-- `printint` of `kernel/printk.c`, the bytes it passes to `consputc`. -/
def printint (xx : BitVec 64) (base : Radix) (sign : Bool) : Option (List Byte) :=
  if sign then
    let sign := xx.slt 0
    if sign then printDigits digits base (-xx).toNat sign else printDigits digits base xx.toNat sign
  else printDigits digits base xx.toNat sign

end Printk

namespace Printf

/-- `digits` of `user/printf.c`. -/
def digits : List Byte := "0123456789ABCDEF".toList.map chr

/-- `printint` of `user/printf.c`, the bytes it passes to `putc`. -/
def printint (xx : BitVec 64) (base : Radix) (sgn : Bool) : Option (List Byte) :=
  if sgn ∧ xx.slt 0 then printDigits digits base (-xx).toNat true
  else printDigits digits base xx.toNat false

end Printf

/-! ## Numerals -/

/-- A printed symbol, in which the letter case of a digit is left open. -/
inductive Sym
  | char (c : Byte)
  | digit (d : ℕ)
  deriving DecidableEq

/-- The symbol as a byte. -/
def Sym.byte (digits : List Byte) : Sym → Byte
  | .char c => c
  | .digit d => digits.getD d 0

/-- The canonical numeral of `v`. -/
def numeral (b : ℕ) (v : ℤ) : List Sym :=
  (if v < 0 then [.char (chr '-')] else []) ++ (lowDigits b v.natAbs).reverse.map .digit

/-- The value of the argument of `printint`. -/
def printedValue (xx : BitVec 64) (sign : Bool) : ℤ := if sign then xx.toInt else xx.toNat

/-- The value of a digit of either letter case. -/
def digitVal (c : Byte) : Option ℕ :=
  if chr '0' ≤ c ∧ c ≤ chr '9' then some (c.toNat - 48)
  else if chr 'a' ≤ c ∧ c ≤ chr 'f' then some (c.toNat - 87)
  else if chr 'A' ≤ c ∧ c ≤ chr 'F' then some (c.toNat - 55)
  else none

/-- `c` is a digit in base `b`. -/
def IsDigit (b : ℕ) (c : Byte) : Prop := ∃ d < b, digitVal c = some d

/-- Reading digits, most significant first. -/
def readDigits (b : ℕ) (l : List Byte) : Option ℕ :=
  (l.mapM fun c => (digitVal c).filter (· < b)).map (horner b)

/-- Reading a numeral. -/
def readNumeral (b : ℕ) : List Byte → Option ℤ
  | [] => none
  | c :: l =>
    if c = chr '-' then if l = [] then none else (readDigits b l).map fun n : ℕ => -(n : ℤ)
    else (readDigits b (c :: l)).map fun n : ℕ => (n : ℤ)

/-- `out` is a numeral without superfluous zeros, with a sign exactly if `v` is negative, that reads
as `v`. -/
structure Canonical (b : ℕ) (v : ℤ) (out : List Byte) : Prop where
  shape : ∃ l, out = (if v < 0 then [chr '-'] else []) ++ l ∧ l ≠ [] ∧ (∀ c ∈ l, IsDigit b c) ∧
    (l.head? = some (chr '0') → l = [chr '0'])
  sign : chr '-' ∈ out ↔ v < 0
  read : readNumeral b out = some v

/-- What the proofs need to know of a table of digits. -/
structure DigitTable (digits : List Byte) : Prop where
  length : digits.length = 16
  val : ∀ d < 16, digitVal (digits.getD d 0) = some d
  zero : ∀ d < 16, digits.getD d 0 = chr '0' → d = 0

lemma Printk.digitTable : DigitTable Printk.digits := ⟨by decide, by decide, by decide⟩

lemma Printf.digitTable : DigitTable Printf.digits := ⟨by decide, by decide, by decide⟩

/-! ## The loops -/

/-- The buffer holds the bytes `l` at its start. -/
def DigitBuf.Holds (buf : DigitBuf) (l : List Byte) : Prop :=
  ∀ j, (h : j < l.length) → buf.load j = some l[j]

namespace DigitBuf

variable {buf buf' : DigitBuf} {l : List Byte}

lemma Holds.nil (buf : DigitBuf) : buf.Holds [] := fun j h => absurd h (Nat.not_lt_zero j)

lemma Holds.init {c : Byte} (h : buf.Holds (l ++ [c])) : buf.Holds l := fun j hj => by
  rw [h j (by rw [length_append]; omega), getElem_append_left hj]

lemma Holds.last {c : Byte} (h : buf.Holds (l ++ [c])) : buf.load l.length = some c := by
  rw [h l.length (by rw [length_append, length_singleton]; omega)]
  simp

/-- A byte is stored behind the others. -/
lemma Holds.store (h : buf.Holds l) (hl : l.length < 20) (c : Byte) :
    ∃ buf', buf.store l.length c = some buf' ∧ buf'.Holds (l ++ [c]) := by
  refine ⟨_, dif_pos hl, fun j hj => ?_⟩
  rw [length_append, length_singleton] at hj
  have hj20 : j < 20 := by omega
  rw [load, dif_pos hj20]
  rcases Nat.lt_succ_iff_lt_or_eq.mp hj with hlt | rfl
  · have hne : (⟨j, hj20⟩ : Fin 20) ≠ ⟨l.length, hl⟩ := fun he => hlt.ne (Fin.mk.inj he)
    have hload := h j hlt
    rw [load, dif_pos hj20] at hload
    rw [Function.update_of_ne hne, hload, getElem_append_left hlt]
  · rw [Function.update_self]
    simp

/-- The buffer is printed backwards. -/
lemma Holds.putBack (h : buf.Holds l) : buf.putBack l.length = some l.reverse := by
  induction l using reverseRecOn with
  | nil => rfl
  | append_singleton l c ih =>
    rw [length_append, length_singleton, DigitBuf.putBack, h.last, ih h.init,
      reverse_append]
    rfl

end DigitBuf

section

variable {digits : List Byte} {buf : DigitBuf} {l : List Byte}

/-- The digits of `x` in the order of the buffer. -/
def lowBytes (digits : List Byte) (b x : ℕ) : List Byte :=
  (lowDigits b x).map fun d => digits.getD d 0

lemma lowBytes_eq_cons (digits : List Byte) (base : Radix) (x : ℕ) : lowBytes digits base.val x =
    digits.getD (x % base.val) 0 ::
      if x / base.val = 0 then [] else lowBytes digits base.val (x / base.val) := by
  rw [lowBytes, lowDigits_eq_cons base.two_le, map_cons]
  split <;> rfl

lemma getElem?_digits (ht : DigitTable digits) (base : Radix) (x : ℕ) :
    digits[x % base.val]? = some (digits.getD (x % base.val) 0) := by
  have hlt : x % base.val < digits.length := by
    have := Nat.mod_lt x (by have := base.two_le; omega : base.val > 0)
    have := base.le_sixteen
    rw [ht.length]
    omega
  rw [List.getD_eq_getElem?_getD, List.getElem?_eq_getElem hlt, Option.getD_some]

/-- The loop appends the digits of `x` to the buffer. -/
lemma putDigits_spec (ht : DigitTable digits) (base : Radix) (x : ℕ) (h : buf.Holds l)
    (hl : l.length + (lowBytes digits base.val x).length ≤ 20) :
    ∃ buf', putDigits digits base x l.length buf =
        some (buf', (l ++ lowBytes digits base.val x).length) ∧
      buf'.Holds (l ++ lowBytes digits base.val x) := by
  induction x using Nat.strong_induction_on generalizing buf l with
  | _ x ih =>
    have hcons := lowBytes_eq_cons digits base x
    rw [hcons, length_cons] at hl
    obtain ⟨buf₁, hstore, h₁⟩ := h.store (by omega) (digits.getD (x % base.val) 0)
    have hlen : (l ++ [digits.getD (x % base.val) 0]).length = l.length + 1 := by simp
    rw [putDigits, getElem?_digits ht, Option.bind_eq_bind, Option.bind_some, hstore,
      Option.bind_eq_bind, Option.bind_some]
    by_cases hx : x / base.val = 0
    · rw [if_pos hx] at hcons
      rw [dif_neg (not_not.mpr hx), hcons, hlen]
      exact ⟨buf₁, rfl, h₁⟩
    · rw [if_neg hx] at hl hcons
      have hlt : x / base.val < x :=
        Nat.div_lt_self (Nat.pos_of_ne_zero fun h0 => hx (by rw [h0, Nat.zero_div])) base.two_le
      rw [dif_pos hx, hcons, ← hlen, append_cons l _ (lowBytes _ _ _)]
      exact ih _ hlt h₁ (by rw [hlen]; omega)

/-- The sign as a byte. -/
def signBytes (neg : Bool) : List Byte := if neg then [chr '-'] else []

variable {base : Radix} {x : ℕ} {xx : BitVec 64}

lemma printDigits_spec (ht : DigitTable digits) {neg : Bool}
    (hl : (lowBytes digits base.val x ++ signBytes neg).length ≤ 20) :
    printDigits digits base x neg = some (signBytes neg ++ (lowBytes digits base.val x).reverse) := by
  rw [length_append] at hl
  obtain ⟨buf, hput, hbuf⟩ := putDigits_spec ht base x (DigitBuf.Holds.nil .empty)
    (by rw [length_nil]; omega)
  rw [nil_append] at hput hbuf
  rw [printDigits, ← length_nil, hput]
  cases neg with
  | false => exact hbuf.putBack
  | true =>
    obtain ⟨buf', hstore, hbuf'⟩ := hbuf.store (by simp [signBytes] at hl; omega) (chr '-')
    have hback := hbuf'.putBack
    rw [length_append, length_singleton, reverse_append] at hback
    simp only [Option.bind_eq_bind, Option.bind_some, if_true, hstore]
    exact hback

/-! ## Canonical numerals -/

lemma mapM_digits (ht : DigitTable digits) {b : ℕ} (hb : b ≤ 16) {ds : List ℕ}
    (h : ∀ d ∈ ds, d < b) :
    (ds.map fun d => digits.getD d 0).mapM (fun c => (digitVal c).filter (· < b)) = some ds := by
  induction ds with
  | nil => rfl
  | cons d ds ih =>
    have hd : d < b := h d mem_cons_self
    rw [map_cons, mapM_cons, ht.val d (by omega), Option.filter_some,
      if_pos (decide_eq_true hd), ih fun e he => h e (mem_cons_of_mem d he)]
    rfl

lemma lowBytes_reverse (digits : List Byte) (b x : ℕ) : (lowBytes digits b x).reverse =
    (lowDigits b x).reverse.map fun d => digits.getD d 0 := map_reverse.symm

lemma readDigits_lowBytes (ht : DigitTable digits) (base : Radix) (x : ℕ) :
    readDigits base.val (lowBytes digits base.val x).reverse = some x := by
  have hlt : ∀ d ∈ (lowDigits base.val x).reverse, d < base.val := fun d hd =>
    lt_of_mem_lowDigits base.two_le (mem_reverse.mp hd)
  rw [readDigits, lowBytes_reverse, mapM_digits ht base.le_sixteen hlt, Option.map_some,
    horner_lowDigits]

lemma isDigit_of_mem_lowBytes (ht : DigitTable digits) (base : Radix) {c : Byte}
    (h : c ∈ lowBytes digits base.val x) : IsDigit base.val c := by
  obtain ⟨d, hd, rfl⟩ := mem_map.mp h
  have hlt := lt_of_mem_lowDigits base.two_le hd
  exact ⟨d, hlt, ht.val d (hlt.trans_le base.le_sixteen)⟩

/-- There is no leading zero. -/
lemma lowBytes_of_head (ht : DigitTable digits) (base : Radix)
    (h : (lowBytes digits base.val x).reverse.head? = some (chr '0')) :
    lowBytes digits base.val x = [digits.getD 0 0] := by
  have hne := lowDigits_ne_nil base.val x
  rw [List.head?_reverse, lowBytes, List.getLast?_map, List.getLast?_eq_some_getLast hne,
    Option.map_some, Option.some.injEq] at h
  have hlast := lt_of_mem_lowDigits base.two_le (getLast_mem hne)
  have hzero := ht.zero _ (hlast.trans_le base.le_sixteen) h
  rw [lowBytes, lowDigits_eq_of_getLast_eq_zero hzero, map_singleton]

lemma not_isDigit_minus (b : ℕ) : ¬IsDigit b (chr '-') := by
  rintro ⟨d, -, hd⟩
  exact absurd hd (by rw [show digitVal (chr '-') = none by decide]; exact nofun)

lemma signBytes_eq (v : ℤ) : signBytes (decide (v < 0)) = if v < 0 then [chr '-'] else [] := by
  unfold signBytes
  by_cases h : v < 0
  · rw [if_pos h, decide_eq_true h, if_pos rfl]
  · rw [if_neg h, decide_eq_false h, if_neg Bool.false_ne_true]

lemma numeral_bytes (digits : List Byte) (b : ℕ) (v : ℤ) :
    (numeral b v).map (Sym.byte digits) =
      signBytes (decide (v < 0)) ++ (lowBytes digits b v.natAbs).reverse := by
  rw [numeral, map_append, map_map, lowBytes_reverse, signBytes_eq]
  congr 1
  split <;> rfl

/-- The symbols of a numeral, written with a table of digits, are canonical. -/
lemma canonical_numeral (ht : DigitTable digits) (h0 : digits.getD 0 0 = chr '0') (base : Radix)
    (v : ℤ) : Canonical base.val v ((numeral base.val v).map (Sym.byte digits)) := by
  have hdigit : ∀ c ∈ (lowBytes digits base.val v.natAbs).reverse, IsDigit base.val c :=
    fun c hc => isDigit_of_mem_lowBytes ht base (mem_reverse.mp hc)
  have hne : (lowBytes digits base.val v.natAbs).reverse ≠ [] := fun h =>
    lowDigits_ne_nil _ _ (map_eq_nil_iff.mp (reverse_eq_nil_iff.mp h))
  have hread := readDigits_lowBytes ht base v.natAbs
  have hminus : chr '-' ∉ (lowBytes digits base.val v.natAbs).reverse := fun h =>
    not_isDigit_minus _ (hdigit _ h)
  rw [numeral_bytes, signBytes_eq]
  refine ⟨⟨_, rfl, hne, hdigit, fun h => ?_⟩, ?_, ?_⟩
  · rw [lowBytes_of_head ht base h, h0]
    rfl
  · by_cases hv : v < 0
    · rw [if_pos hv]
      exact ⟨fun _ => hv, fun _ => mem_cons_self⟩
    · rw [if_neg hv, nil_append]
      exact ⟨fun h => absurd h hminus, fun h => absurd h hv⟩
  · by_cases hv : v < 0
    · rw [if_pos hv, singleton_append, readNumeral, if_pos rfl, if_neg hne, hread,
        Option.map_some]
      congr 1
      omega
    · rw [if_neg hv, nil_append]
      obtain ⟨c, l, hcl⟩ := exists_cons_of_ne_nil hne
      rw [hcl] at hminus hread ⊢
      have hc : c ≠ chr '-' := fun h => hminus (h ▸ mem_cons_self)
      rw [readNumeral, if_neg hc, hread, Option.map_some]
      congr 1
      omega

/-! ## `printint` -/

/-- The numeral fits into the buffer. -/
lemma length_lowBytes_le (base : Radix) (hb : base = .ten ∨ base = .sixteen)
    (hx : x < 2 ^ 64) : (lowBytes digits base.val x).length ≤ 20 := by
  rw [lowBytes, length_map]
  rcases hb with rfl | rfl
  · exact length_lowDigits_le (by decide) (by decide) (hx.trans_le (by decide))
  · exact length_lowDigits_le (by decide) (by decide) (hx.trans_le (by decide))

/-- There is room for the sign of a negative number. -/
lemma length_lowBytes_lt (base : Radix) (hb : base = .ten ∨ base = .sixteen)
    (hx : x ≤ 2 ^ 63) : (lowBytes digits base.val x).length < 20 := by
  rw [lowBytes, length_map, Nat.lt_succ_iff]
  rcases hb with rfl | rfl
  · exact length_lowDigits_le (by decide) (by decide) (hx.trans_lt (by decide))
  · exact length_lowDigits_le (by decide) (by decide) (hx.trans_lt (by decide))

/-- The negation of a negative number is its absolute value, also for the most negative one, whose
negation is itself. -/
lemma toNat_neg_of_slt (h : xx.slt 0) :
    (-xx).toNat = xx.toInt.natAbs ∧ (-xx).toNat ≤ 2 ^ 63 := by
  rw [BitVec.slt_iff_toInt_lt, BitVec.toInt_eq_toNat_cond] at h
  rw [BitVec.toInt_eq_toNat_cond, BitVec.toNat_neg]
  have hz : (0 : BitVec 64).toInt = 0 := rfl
  split at h <;> omega

lemma toInt_of_not_slt (h : ¬xx.slt 0) : xx.toInt = xx.toNat := by
  rw [BitVec.slt_iff_toInt_lt, BitVec.toInt_eq_toNat_cond] at h
  rw [BitVec.toInt_eq_toNat_cond]
  have hz : (0 : BitVec 64).toInt = 0 := rfl
  split at h <;> omega

lemma printDigits_neg (ht : DigitTable digits) (hb : base = .ten ∨ base = .sixteen)
    (h : xx.slt 0) : printDigits digits base (-xx).toNat true =
      some ((numeral base.val (printedValue xx true)).map (Sym.byte digits)) := by
  obtain ⟨habs, hle⟩ := toNat_neg_of_slt h
  have hneg : printedValue xx true < 0 := BitVec.slt_iff_toInt_lt.mp h
  rw [printDigits_spec ht, numeral_bytes, decide_eq_true hneg, habs]
  · rfl
  · rw [length_append]
    exact length_lowBytes_lt base hb hle

lemma printDigits_nonneg (ht : DigitTable digits) (hb : base = .ten ∨ base = .sixteen) {sign : Bool}
    (h : ¬(sign ∧ xx.slt 0)) : printDigits digits base xx.toNat false =
      some ((numeral base.val (printedValue xx sign)).map (Sym.byte digits)) := by
  have hval : printedValue xx sign = xx.toNat := by
    cases sign with
    | false => rfl
    | true => exact toInt_of_not_slt fun hlt => h ⟨rfl, hlt⟩
  have hnn : ¬(xx.toNat : ℤ) < 0 := by omega
  rw [printDigits_spec ht, numeral_bytes, hval, decide_eq_false hnn, Int.natAbs_natCast]
  rw [length_append]
  exact length_lowBytes_le base hb xx.isLt

end

lemma Printk.printint_eq {base : Radix} (hb : base = .ten ∨ base = .sixteen) (xx : BitVec 64)
    (sign : Bool) : Printk.printint xx base sign =
      some ((numeral base.val (printedValue xx sign)).map (Sym.byte Printk.digits)) := by
  unfold Printk.printint
  cases sign with
  | false =>
    rw [if_neg Bool.false_ne_true]
    exact printDigits_nonneg Printk.digitTable hb fun h => Bool.false_ne_true h.1
  | true =>
    rw [if_pos rfl]
    by_cases h : xx.slt 0
    · rw [if_pos h, h]
      exact printDigits_neg Printk.digitTable hb h
    · rw [if_neg h, Bool.eq_false_iff.mpr h]
      exact printDigits_nonneg Printk.digitTable hb fun hs => h hs.2

lemma Printf.printint_eq {base : Radix} (hb : base = .ten ∨ base = .sixteen) (xx : BitVec 64)
    (sgn : Bool) : Printf.printint xx base sgn =
      some ((numeral base.val (printedValue xx sgn)).map (Sym.byte Printf.digits)) := by
  unfold Printf.printint
  by_cases h : sgn ∧ xx.slt 0
  · rw [if_pos h, h.1]
    exact printDigits_neg Printf.digitTable hb h.2
  · rw [if_neg h]
    exact printDigits_nonneg Printf.digitTable hb h

/-- **Numbers are printed exactly.**  Both functions stay within their buffer and print the canonical
numeral of the value, which reads as the value again. -/
theorem printint_exact (xx : BitVec 64) (base : Radix) (sign : Bool)
    (hb : base = .ten ∨ base = .sixteen ∧ sign = false) :
    (∃ out, Printk.printint xx base sign = some out ∧
      Canonical base.val (printedValue xx sign) out) ∧
    (∃ out, Printf.printint xx base sign = some out ∧
      Canonical base.val (printedValue xx sign) out) := by
  have hbase : base = .ten ∨ base = .sixteen := hb.imp_right And.left
  exact ⟨⟨_, Printk.printint_eq hbase xx sign, canonical_numeral Printk.digitTable rfl base _⟩,
    ⟨_, Printf.printint_eq hbase xx sign, canonical_numeral Printf.digitTable rfl base _⟩⟩

/-- The most negative number fills the buffer. -/
theorem printint_exact_min :
    (∃ out, Printk.printint (BitVec.intMin 64) .ten true = some out ∧
      Canonical 10 (-9223372036854775808) out) ∧
    (∃ out, Printf.printint (BitVec.intMin 64) .ten true = some out ∧
      Canonical 10 (-9223372036854775808) out) :=
  printint_exact (BitVec.intMin 64) .ten true (Or.inl rfl)

end Xv6
