import Xv6.Printf.Printint

/-!
# Formatted output

`printk` of `kernel/printk.c` and `vprintf` of `user/printf.c`.  The kernel's loop looks ahead from a
`%` and skips the characters of the conversion; the user library's loop remembers the `%` in `state`
and meets the conversion in its next iteration.

Above them a format is a list of pieces (`pieces`), each of which prints some symbols and may take an
argument (`Piece.print`).  `loop_spec` says that from any position of the format both loops print the
pieces of what is left of it.

A read behind the NUL of the format fails, as does `va_arg` on an argument of another type.  The
index is a natural number: memory holds no string of `2^31` bytes.  `pr.lock` appears as the calls of
`acquire` and `release`.
-/

namespace Xv6

open List

/-! ## Arguments and strings -/

/-- An argument of a variadic function. -/
inductive VaArg
  | int (v : BitVec 32)  -- `int`, `uint` or `uint32`
  | long (v : BitVec 64)  -- `uint64`
  | str (s : Option CString)  -- `char *`, which may be null
  deriving DecidableEq

/-- `va_arg(ap, int)`, also for `uint` and `uint32`. -/
def vaInt : List VaArg → Option (BitVec 32 × List VaArg)
  | .int v :: ap => some (v, ap)
  | _ => none

/-- `va_arg(ap, uint64)`. -/
def vaLong : List VaArg → Option (BitVec 64 × List VaArg)
  | .long v :: ap => some (v, ap)
  | _ => none

/-- `va_arg(ap, char *)`. -/
def vaStr : List VaArg → Option (Option CString × List VaArg)
  | .str s :: ap => some (s, ap)
  | _ => none

/-- `"(null)"`. -/
def nullText : CString := .ofList ("(null)".toList.map chr)

/-- `fmt[i] & 0xff`, which fails behind the NUL. -/
def CString.read (fmt : CString) (i : ℕ) : Option Byte :=
  if i ≤ fmt.length then some (fmt.get i) else none

/-- `c = 0; if(before) c = fmt[i] & 0xff`. -/
def CString.readAfter (fmt : CString) (before : Byte) (i : ℕ) : Option Byte :=
  if before ≠ 0 then fmt.read i else some 0

lemma CString.lt_length_of_read {fmt : CString} {i : ℕ} {c : Byte} (h : fmt.read i = some c)
    (hc : c ≠ 0) : i < fmt.length := by
  rw [CString.read] at h
  split at h
  case isTrue =>
    rw [← Option.some.inj h] at hc
    exact Nat.not_le.mp fun hle => hc (CString.get_eq_zero_iff.mpr hle)
  case isFalse => cases h

/-- `for(i = 0; i < n; i++, x <<= 4) putc(digits[x >> 60])`, the bytes that are put. -/
def ptrLoop (digits : List Byte) : ℕ → BitVec 64 → Option (List Byte)
  | 0, _ => some []
  | n + 1, x => do
    let c ← digits[(x >>> 60).toNat]?
    let l ← ptrLoop digits n (x <<< 4)
    return c :: l

/-- What a conversion has printed, how far it skips, and the arguments that are left. -/
structure Converted (α : Type) where
  out : List α
  skip : ℕ
  ap : List VaArg

/-- What a function does on each kind of conversion, when `k` characters behind the first one belong
to it. -/
structure Actions (β : Type) where
  number (xx : BitVec 64) (base : Radix) (sign : Bool) (k : ℕ) (ap : List VaArg) : Option β
  ptr (x : BitVec 64) (k : ℕ) (ap : List VaArg) : Option β
  char (v : BitVec 32) (k : ℕ) (ap : List VaArg) : Option β
  str (s : CString) (k : ℕ) (ap : List VaArg) : Option β
  lit (c : Byte) (k : ℕ) (ap : List VaArg) : Option β
  other (c0 : Byte) (k : ℕ) (ap : List VaArg) : Option β

/-- The branches on a conversion, which are the same in both functions up to the last one. -/
def Actions.convert {β : Type} (f : Actions β) (c0 c1 c2 : Byte) (ap : List VaArg) : Option β := do
  if c0 = chr 'd' then
    let (v, ap) ← vaInt ap
    f.number (v.signExtend 64) .ten true 0 ap
  else if c0 = chr 'l' ∧ c1 = chr 'd' then
    let (v, ap) ← vaLong ap
    f.number v .ten true 1 ap
  else if c0 = chr 'l' ∧ c1 = chr 'l' ∧ c2 = chr 'd' then
    let (v, ap) ← vaLong ap
    f.number v .ten true 2 ap
  else if c0 = chr 'u' then
    let (v, ap) ← vaInt ap
    f.number (v.setWidth 64) .ten false 0 ap
  else if c0 = chr 'l' ∧ c1 = chr 'u' then
    let (v, ap) ← vaLong ap
    f.number v .ten false 1 ap
  else if c0 = chr 'l' ∧ c1 = chr 'l' ∧ c2 = chr 'u' then
    let (v, ap) ← vaLong ap
    f.number v .ten false 2 ap
  else if c0 = chr 'x' then
    let (v, ap) ← vaInt ap
    f.number (v.setWidth 64) .sixteen false 0 ap
  else if c0 = chr 'l' ∧ c1 = chr 'x' then
    let (v, ap) ← vaLong ap
    f.number v .sixteen false 1 ap
  else if c0 = chr 'l' ∧ c1 = chr 'l' ∧ c2 = chr 'x' then
    let (v, ap) ← vaLong ap
    f.number v .sixteen false 2 ap
  else if c0 = chr 'p' then
    let (v, ap) ← vaLong ap
    f.ptr v 0 ap
  else if c0 = chr 'c' then
    let (v, ap) ← vaInt ap
    f.char v 0 ap
  else if c0 = chr 's' then
    let (s, ap) ← vaStr ap
    f.str (s.getD nullText) 0 ap
  else if c0 = chr '%' then f.lit (chr '%') 0 ap
  else f.other c0 0 ap

/-! ## `printk` -/

namespace Printk

/-- A `char`, which is unsigned, as an argument of `consputc`. -/
def int (c : Byte) : BitVec 32 := c.setWidth 32

/-- `printptr`. -/
def printptr (x : BitVec 64) : Option (List Byte) := do
  let l ← ptrLoop digits 16 x
  return chr '0' :: chr 'x' :: l

/-- What `printk` does on a conversion; `some none` is the `break`. -/
def actions : Actions (Option (Converted (BitVec 32))) where
  number xx base sign k ap := do
    let l ← printint xx base sign
    return some ⟨l.map int, k, ap⟩
  ptr x k ap := do
    let l ← printptr x
    return some ⟨l.map int, k, ap⟩
  char v k ap := return some ⟨[v], k, ap⟩
  str s k ap := return some ⟨s.chars.map int, k, ap⟩
  lit c k ap := return some ⟨[int c], k, ap⟩
  other c0 k ap :=
    if c0 = 0 then return none else return some ⟨[int (chr '%'), int c0], k, ap⟩

/-- The branches of the loop of `printk` on a conversion. -/
def convert := actions.convert

/-- The loop of `printk` from `i` on: what it passes to `consputc`, and the arguments that are
left. -/
def loop (fmt : CString) (i : ℕ) (ap : List VaArg) : Option (List (BitVec 32) × List VaArg) :=
  match h : fmt.read i with
  | none => none
  | some cx =>
    if hc : cx = 0 then some ([], ap)
    else if cx ≠ chr '%' then do
      let (out, ap) ← loop fmt (i + 1) ap
      return (int cx :: out, ap)
    else do
      let c0 ← fmt.read (i + 1)
      let c1 ← fmt.readAfter c0 (i + 2)
      let c2 ← fmt.readAfter c1 (i + 3)
      match ← convert c0 c1 c2 ap with
      | none => return ([], ap)
      | some x => do
        let (out, ap) ← loop fmt (i + 1 + x.skip + 1) x.ap
        return (x.out ++ out, ap)
  termination_by fmt.length - i
  decreasing_by
    all_goals
      have := CString.lt_length_of_read h hc
      omega

/-- A call that `printk` makes. -/
inductive Call
  | acquire  -- `acquire(&pr.lock)`
  | consputc (c : BitVec 32)
  | release
  deriving DecidableEq

def Call.char? : Call → Option (BitVec 32)
  | .consputc c => some c
  | _ => none

end Printk

/-- `printk`: its calls, and the arguments that are left. -/
def printk (panicking : Bool) (fmt : CString) (ap : List VaArg) :
    Option (List Printk.Call × List VaArg) := do
  let (out, ap) ← Printk.loop fmt 0 ap
  return ((if panicking then [] else [.acquire]) ++ out.map .consputc ++
    (if panicking then [] else [.release]), ap)

/-! ## `vprintf` -/

namespace Printf

/-- `printptr`. -/
def printptr (x : BitVec 64) : Option (List Byte) := do
  let l ← ptrLoop digits 16 x
  return chr '0' :: chr 'x' :: l

/-- What `vprintf` does on a conversion. -/
def actions : Actions (Converted Byte) where
  number xx base sgn k ap := do
    let l ← printint xx base sgn
    return ⟨l, k, ap⟩
  ptr x k ap := do
    let l ← printptr x
    return ⟨l, k, ap⟩
  char v k ap := return ⟨[v.setWidth 8], k, ap⟩
  str s k ap := return ⟨s.chars, k, ap⟩
  lit c k ap := return ⟨[c], k, ap⟩
  other c0 k ap := return ⟨[chr '%', c0], k, ap⟩

/-- The branches of the loop of `vprintf` on a conversion. -/
def convert := actions.convert

/-- The loop of `vprintf` from `i` on: what it passes to `putc`, and the arguments that are left. -/
def loop (fmt : CString) (i : ℕ) (state : Byte) (ap : List VaArg) :
    Option (List Byte × List VaArg) :=
  match h : fmt.read i with
  | none => none
  | some c0 =>
    if hc : c0 = 0 then some ([], ap)
    else if state = 0 then
      if c0 = chr '%' then loop fmt (i + 1) (chr '%') ap
      else do
        let (out, ap) ← loop fmt (i + 1) state ap
        return (c0 :: out, ap)
    else if state = chr '%' then do
      let c1 ← fmt.readAfter c0 (i + 1)
      let c2 ← fmt.readAfter c1 (i + 2)
      let x ← convert c0 c1 c2 ap
      let (out, ap) ← loop fmt (i + x.skip + 1) 0 x.ap
      return (x.out ++ out, ap)
    else loop fmt (i + 1) state ap
  termination_by fmt.length - i
  decreasing_by
    all_goals
      have := CString.lt_length_of_read h hc
      omega

end Printf

/-- `vprintf`: its calls of `putc`, and the arguments that are left. -/
def vprintf (fd : BitVec 32) (fmt : CString) (ap : List VaArg) :
    Option (List (BitVec 32 × Byte) × List VaArg) := do
  let (out, ap) ← Printf.loop fmt 0 0 ap
  return (out.map fun c => (fd, c), ap)

/-! ## The pieces of a format -/

/-- A piece of a format. -/
inductive Piece
  | lit (c : Byte)
  | number (long : Bool) (base : Radix) (sign : Bool)
  | ptr
  | char
  | str
  | percent
  | unknown (c : Byte)
  deriving DecidableEq

/-- The base and the signedness of a letter. -/
def numberKind (c : Byte) : Option (Radix × Bool) :=
  if c = chr 'd' then some (.ten, true)
  else if c = chr 'u' then some (.ten, false)
  else if c = chr 'x' then some (.sixteen, false)
  else none

/-- The conversion that begins with `c`, without an `l`. -/
def shortPiece (c : Byte) : Piece :=
  match numberKind c with
  | some (base, sign) => .number false base sign
  | none =>
    if c = chr 'p' then .ptr
    else if c = chr 'c' then .char
    else if c = chr 's' then .str
    else if c = chr '%' then .percent
    else .unknown c

/-- What `l` or `ll` and then the characters `c` and `d` stand for, if they are a conversion, with
the number of characters from `c` on that belong to it. -/
def longPiece (c d : Byte) : Option (Piece × ℕ) :=
  match numberKind c with
  | some (base, sign) => some (.number true base sign, 1)
  | none =>
    if c = chr 'l' then (numberKind d).map fun x => (.number true x.1 x.2, 2) else none

/-- The conversion after a `%`, with the number of characters behind `c0` that belong to it. -/
def conversion (c0 c1 c2 : Byte) : Piece × ℕ :=
  if c0 = chr 'l' then (longPiece c1 c2).getD (.unknown c0, 0) else (shortPiece c0, 0)

/-- The pieces of a format; a `%` at its end is none. -/
def pieces (l : List Byte) : List Piece :=
  match l with
  | [] => []
  | c :: l =>
    if c ≠ chr '%' then .lit c :: pieces l
    else
      match l with
      | [] => []
      | c0 :: l =>
        (conversion c0 (l.getD 0 0) (l.getD 1 0)).1 ::
          pieces (l.drop (conversion c0 (l.getD 0 0) (l.getD 1 0)).2)
  termination_by l.length
  decreasing_by
    all_goals
      simp
      try omega

/-- The hexadecimal digits of a word. -/
def wordDigits (v : BitVec 64) : List ℕ := (List.range 16).map fun k => v.toNat / 16 ^ (15 - k) % 16

/-- The value that a number of 32 bits is widened to. -/
def widen (sign : Bool) (v : BitVec 32) : BitVec 64 :=
  if sign then v.signExtend 64 else v.setWidth 64

/-- What a piece prints, and the arguments it leaves. -/
def Piece.print (p : Piece) (ap : List VaArg) : Option (List Sym × List VaArg) :=
  match p, ap with
  | .lit c, ap => some ([.char c], ap)
  | .number false base sign, .int v :: ap =>
    some (numeral base.val (printedValue (widen sign v) sign), ap)
  | .number true base sign, .long v :: ap => some (numeral base.val (printedValue v sign), ap)
  | .ptr, .long v :: ap =>
    some (.char (chr '0') :: .char (chr 'x') :: (wordDigits v).map .digit, ap)
  | .char, .int v :: ap => some ([.char (v.setWidth 8)], ap)
  | .str, .str s :: ap => some ((s.getD nullText).chars.map .char, ap)
  | .percent, ap => some ([.char (chr '%')], ap)
  | .unknown c, ap => some ([.char (chr '%'), .char c], ap)
  | _, _ => none

/-- What a format prints, and the arguments it leaves. -/
def render : List Piece → List VaArg → Option (List Sym × List VaArg)
  | [], ap => some ([], ap)
  | p :: ps, ap => do
    let (out, ap) ← p.print ap
    let (out', ap) ← render ps ap
    return (out ++ out', ap)

/-- The piece takes the argument.  A character is below 256. -/
def Piece.Takes : Piece → VaArg → Prop
  | .number false _ _, .int _ => True
  | .number true _ _, .long _ => True
  | .ptr, .long _ => True
  | .char, .int v => v.toNat < 256
  | .str, .str _ => True
  | _, _ => False

/-- The piece takes no argument. -/
def Piece.Plain : Piece → Prop
  | .lit _ | .percent | .unknown _ => True
  | _ => False

/-- The arguments match the pieces; there may be more of them. -/
inductive ArgsMatch : List Piece → List VaArg → Prop
  | nil (ap : List VaArg) : ArgsMatch [] ap
  | plain {p : Piece} {ps : List Piece} {ap : List VaArg} (hp : p.Plain) (h : ArgsMatch ps ap) :
      ArgsMatch (p :: ps) ap
  | arg {p : Piece} {ps : List Piece} {a : VaArg} {ap : List VaArg} (ha : p.Takes a)
      (h : ArgsMatch ps ap) : ArgsMatch (p :: ps) (a :: ap)

/-! ## A conversion -/

/-- The rows of the table of conversions. -/
@[elab_as_elim]
lemma conversion_cases {motive : Byte → Byte → Byte → Prop} (c0 c1 c2 : Byte)
    (ld : ∀ c2, motive (chr 'l') (chr 'd') c2) (lu : ∀ c2, motive (chr 'l') (chr 'u') c2)
    (lx : ∀ c2, motive (chr 'l') (chr 'x') c2)
    (lld : motive (chr 'l') (chr 'l') (chr 'd')) (llu : motive (chr 'l') (chr 'l') (chr 'u'))
    (llx : motive (chr 'l') (chr 'l') (chr 'x'))
    (ll : ∀ c2, c2 ≠ chr 'd' → c2 ≠ chr 'u' → c2 ≠ chr 'x' → motive (chr 'l') (chr 'l') c2)
    (l : ∀ c1 c2, c1 ≠ chr 'd' → c1 ≠ chr 'u' → c1 ≠ chr 'x' → c1 ≠ chr 'l' →
      motive (chr 'l') c1 c2)
    (d : ∀ c1 c2, motive (chr 'd') c1 c2) (u : ∀ c1 c2, motive (chr 'u') c1 c2)
    (x : ∀ c1 c2, motive (chr 'x') c1 c2) (p : ∀ c1 c2, motive (chr 'p') c1 c2)
    (c : ∀ c1 c2, motive (chr 'c') c1 c2) (s : ∀ c1 c2, motive (chr 's') c1 c2)
    (percent : ∀ c1 c2, motive (chr '%') c1 c2)
    (other : ∀ c0 c1 c2, c0 ≠ chr 'l' → c0 ≠ chr 'd' → c0 ≠ chr 'u' → c0 ≠ chr 'x' →
      c0 ≠ chr 'p' → c0 ≠ chr 'c' → c0 ≠ chr 's' → c0 ≠ chr '%' → motive c0 c1 c2) :
    motive c0 c1 c2 := by
  by_cases hl : c0 = chr 'l'
  · subst hl
    by_cases hd : c1 = chr 'd'
    · exact hd ▸ ld c2
    by_cases hu : c1 = chr 'u'
    · exact hu ▸ lu c2
    by_cases hx : c1 = chr 'x'
    · exact hx ▸ lx c2
    by_cases hll : c1 = chr 'l'
    · subst hll
      by_cases hd : c2 = chr 'd'
      · exact hd ▸ lld
      by_cases hu : c2 = chr 'u'
      · exact hu ▸ llu
      by_cases hx : c2 = chr 'x'
      · exact hx ▸ llx
      exact ll c2 hd hu hx
    · exact l c1 c2 hd hu hx hll
  · by_cases hd : c0 = chr 'd'
    · exact hd ▸ d c1 c2
    by_cases hu : c0 = chr 'u'
    · exact hu ▸ u c1 c2
    by_cases hx : c0 = chr 'x'
    · exact hx ▸ x c1 c2
    by_cases hp : c0 = chr 'p'
    · exact hp ▸ p c1 c2
    by_cases hc : c0 = chr 'c'
    · exact hc ▸ c c1 c2
    by_cases hs : c0 = chr 's'
    · exact hs ▸ s c1 c2
    by_cases hpct : c0 = chr '%'
    · exact hpct ▸ percent c1 c2
    exact other c0 c1 c2 hl hd hu hx hp hc hs hpct

/-- What is done for a piece. -/
def Actions.piece {β : Type} (f : Actions β) (p : Piece) (k : ℕ) (ap : List VaArg) : Option β :=
  match p with
  | .lit c => f.lit c k ap
  | .number false base sign => do
    let (v, ap) ← vaInt ap
    f.number (widen sign v) base sign k ap
  | .number true base sign => do
    let (v, ap) ← vaLong ap
    f.number v base sign k ap
  | .ptr => do
    let (v, ap) ← vaLong ap
    f.ptr v k ap
  | .char => do
    let (v, ap) ← vaInt ap
    f.char v k ap
  | .str => do
    let (s, ap) ← vaStr ap
    f.str (s.getD nullText) k ap
  | .percent => f.lit (chr '%') k ap
  | .unknown c => f.other c k ap

lemma Actions.convert_eq {β : Type} (f : Actions β) (c0 c1 c2 : Byte) (ap : List VaArg) :
    f.convert c0 c1 c2 ap = f.piece (conversion c0 c1 c2).1 (conversion c0 c1 c2).2 ap := by
  induction c0, c1, c2 using conversion_cases with
  | ld | lu | lx | lld | llu | llx | d | u | x | p | c | s | percent => rfl
  | ll c2 hd hu hx =>
    simp +decide [Actions.convert, conversion, longPiece, numberKind, Actions.piece, hd, hu, hx]
  | l c1 c2 hd hu hx hl =>
    simp +decide [Actions.convert, conversion, longPiece, numberKind, Actions.piece, hd, hu, hx, hl]
  | other c0 c1 c2 hl hd hu hx hp hc hs hpct =>
    simp only [Actions.convert, conversion, shortPiece, numberKind, Actions.piece, hl, hd, hu, hx, hp,
      hc, hs, hpct, if_false, false_and]

/-! ## What a piece prints -/

/-- A symbol as `printk` prints it. -/
def Sym.kernel (y : Sym) : BitVec 32 := Printk.int (y.byte Printk.digits)

/-- A symbol as `vprintf` prints it. -/
def Sym.user (y : Sym) : Byte := y.byte Printf.digits

/-- A symbol that is a digit is a hexadecimal one. -/
def Sym.Ok : Sym → Prop
  | .char _ => True
  | .digit d => d < 16

lemma ok_numeral (base : Radix) (v : ℤ) : ∀ y ∈ numeral base.val v, y.Ok := by
  intro y hy
  rw [numeral, mem_append] at hy
  rcases hy with hy | hy
  · split at hy
    case isTrue =>
      rw [mem_singleton.mp hy]
      trivial
    case isFalse => exact absurd hy not_mem_nil
  · obtain ⟨d, hd, rfl⟩ := mem_map.mp hy
    exact (lt_of_mem_lowDigits base.two_le (mem_reverse.mp hd)).trans_le base.le_sixteen

/-- The top digit after shifts by `k` digits. -/
lemma toNat_shift (v : BitVec 64) {k : ℕ} (hk : k ≤ 15) :
    ((v <<< (4 * k)) >>> 60).toNat = v.toNat / 16 ^ (15 - k) % 16 := by
  have h16 : 2 ^ 64 = 16 ^ (15 - k) * 16 * 16 ^ k := by
    rw [← pow_succ, ← pow_add, show 15 - k + 1 + k = 16 by omega]
    norm_num
  have h15 : 2 ^ 60 = 16 ^ (15 - k) * 16 ^ k := by
    rw [← pow_add, show 15 - k + k = 15 by omega]
    norm_num
  have hshift : 2 ^ (4 * k) = 16 ^ k := by
    rw [pow_mul]
    norm_num
  rw [BitVec.toNat_ushiftRight, BitVec.toNat_shiftLeft, Nat.shiftLeft_eq, Nat.shiftRight_eq_div_pow,
    hshift, h16, h15, Nat.mul_mod_mul_right, Nat.mul_div_mul_right _ _ (by positivity),
    Nat.mod_mul_right_div_self]

lemma ptrLoop_eq {digits : List Byte} (ht : DigitTable digits) (v : BitVec 64) (n k : ℕ)
    (hk : k + n ≤ 16) : ptrLoop digits n (v <<< (4 * k)) =
      some ((range' k n).map fun j => digits.getD (v.toNat / 16 ^ (15 - j) % 16) 0) := by
  induction n generalizing k with
  | zero => rfl
  | succ n ih =>
    have hlt : v.toNat / 16 ^ (15 - k) % 16 < digits.length := by
      rw [ht.length]
      exact Nat.mod_lt _ (by decide)
    have hnext : v <<< (4 * k) <<< 4 = v <<< (4 * (k + 1)) := (BitVec.shiftLeft_add v (4 * k) 4).symm
    rw [ptrLoop, toNat_shift v (by omega), List.getElem?_eq_getElem hlt, hnext,
      ih (k + 1) (by omega), range'_succ, map_cons, List.getD_eq_getElem?_getD,
      List.getElem?_eq_getElem hlt]
    rfl

lemma ptrLoop_word {digits : List Byte} (ht : DigitTable digits) (v : BitVec 64) :
    ptrLoop digits 16 v = some ((wordDigits v).map fun d => digits.getD d 0) := by
  have h := ptrLoop_eq ht v 16 0 le_rfl
  rw [Nat.mul_zero, BitVec.shiftLeft_zero] at h
  rw [h, wordDigits, map_map, range_eq_range']
  rfl

/-- Both functions print the symbols `out` for the piece and go on with the arguments `ap'`. -/
structure Prints (p : Piece) (ap : List VaArg) (out : List Sym) (ap' : List VaArg) : Prop where
  print : p.print ap = some (out, ap')
  kernel : ∀ k, Printk.actions.piece p k ap = some (some ⟨out.map Sym.kernel, k, ap'⟩)
  user : ∀ k, Printf.actions.piece p k ap = some ⟨out.map Sym.user, k, ap'⟩
  ok : ∀ y ∈ out, y.Ok

/-- A number is printed in base 10 or 16, and the NUL is no conversion. -/
def Piece.Ok : Piece → Prop
  | .number _ base _ => base = .ten ∨ base = .sixteen
  | .unknown c => c ≠ 0
  | _ => True

lemma ok_conversion {c0 : Byte} (c1 c2 : Byte) (h0 : c0 ≠ 0) : (conversion c0 c1 c2).1.Ok := by
  induction c0, c1, c2 using conversion_cases with
  | ld | lu | lld | llu | d | u => exact Or.inl rfl
  | lx | llx | x => exact Or.inr rfl
  | p | c | s | percent => trivial
  | ll c2 hd hu hx =>
    simp +decide [conversion, longPiece, numberKind, hd, hu, hx, Piece.Ok]
  | l c1 c2 hd hu hx hl =>
    simp +decide [conversion, longPiece, numberKind, hd, hu, hx, hl, Piece.Ok]
  | other c0 c1 c2 hl hd hu hx hp hc hs hpct =>
    simp only [conversion, shortPiece, numberKind, hl, hd, hu, hx, hp, hc, hs, hpct, if_false]
    exact h0

section

variable {p : Piece} {ps : List Piece} {a : VaArg} {ap : List VaArg}

lemma Piece.Plain.prints (hp : p.Plain) (hok : p.Ok) (ap : List VaArg) :
    ∃ out, Prints p ap out ap := by
  cases p with
  | lit | percent => exact ⟨_, rfl, fun _ => rfl, fun _ => rfl, by simp [Sym.Ok]⟩
  | unknown c => exact ⟨_, rfl, fun _ => if_neg hok, fun _ => rfl, by simp [Sym.Ok]⟩
  | number | ptr | char | str => exact hp.elim

/-- A number is printed as its numeral. -/
lemma number_eq {base : Radix} (hb : base = .ten ∨ base = .sixteen) (xx : BitVec 64) (sign : Bool)
    (k : ℕ) (ap : List VaArg) :
    Printk.actions.number xx base sign k ap =
        some (some ⟨(numeral base.val (printedValue xx sign)).map Sym.kernel, k, ap⟩) ∧
      Printf.actions.number xx base sign k ap =
        some ⟨(numeral base.val (printedValue xx sign)).map Sym.user, k, ap⟩ := by
  constructor
  · simp only [Printk.actions]
    rw [Printk.printint_eq hb, Option.bind_eq_bind, Option.bind_some, map_map]
    rfl
  · simp only [Printf.actions]
    rw [Printf.printint_eq hb]
    rfl

/-- A character below 256 is the same as an `int` and as a `char`. -/
lemma int_setWidth {v : BitVec 32} (h : v.toNat < 256) : Printk.int (v.setWidth 8) = v := by
  unfold Printk.int
  bv_omega

lemma Piece.Takes.prints (ha : p.Takes a) (hp : p.Ok) (ap : List VaArg) :
    ∃ out, Prints p (a :: ap) out ap := by
  match p, a, ha with
  | .number false base sign, .int v, _ =>
    exact ⟨_, rfl, fun k => (number_eq hp _ sign k ap).1, fun k => (number_eq hp _ sign k ap).2,
      ok_numeral base _⟩
  | .number true base sign, .long v, _ =>
    exact ⟨_, rfl, fun k => (number_eq hp _ sign k ap).1, fun k => (number_eq hp _ sign k ap).2,
      ok_numeral base _⟩
  | .ptr, .long v, _ =>
    refine ⟨_, rfl, fun k => ?_, fun k => ?_, fun y hy => ?_⟩
    · simp only [Actions.piece, Printk.actions, vaLong, Printk.printptr, ptrLoop_word Printk.digitTable]
      simp only [Option.bind_eq_bind, Option.bind_some, map_cons, map_map]
      rfl
    · simp only [Actions.piece, Printf.actions, vaLong, Printf.printptr, ptrLoop_word Printf.digitTable]
      simp only [Option.bind_eq_bind, Option.bind_some, map_cons, map_map]
      rfl
    · rcases mem_cons.mp hy with rfl | hy
      · trivial
      rcases mem_cons.mp hy with rfl | hy
      · trivial
      obtain ⟨d, hd, rfl⟩ := mem_map.mp hy
      obtain ⟨k, -, rfl⟩ := mem_map.mp hd
      exact Nat.mod_lt _ (by decide)
  | .char, .int v, ha =>
    refine ⟨_, rfl, fun k => ?_, fun _ => rfl, by simp [Sym.Ok]⟩
    rw [map_singleton, Sym.kernel, Sym.byte, int_setWidth ha]
    rfl
  | .str, .str s, _ =>
    refine ⟨_, rfl, fun k => ?_, fun k => ?_, fun y hy => ?_⟩
    · rw [map_map]
      rfl
    · rw [map_map, show Sym.user ∘ Sym.char = id from rfl, map_id]
      rfl
    · obtain ⟨c, -, rfl⟩ := mem_map.mp hy
      trivial

/-- The arguments match, so the first piece is printed and the others have the arguments left. -/
lemma ArgsMatch.prints (h : ArgsMatch (p :: ps) ap) (hp : p.Ok) :
    ∃ out ap', Prints p ap out ap' ∧ ArgsMatch ps ap' := by
  cases h with
  | plain hpl h =>
    obtain ⟨out, hout⟩ := hpl.prints hp ap
    exact ⟨out, ap, hout, h⟩
  | arg ha h =>
    obtain ⟨out, hout⟩ := ha.prints hp _
    exact ⟨out, _, hout, h⟩

end

/-! ## The loops -/

section

variable {fmt : CString} {i : ℕ} {c : Byte} {l : List Byte} {ap : List VaArg}

lemma pieces_nil : pieces [] = [] := by rw [pieces]

lemma pieces_cons_of_ne (hc : c ≠ chr '%') (l : List Byte) :
    pieces (c :: l) = .lit c :: pieces l := (pieces.eq_def _).trans (if_pos hc)

lemma pieces_percent_nil : pieces [chr '%'] = [] := by rw [pieces, if_neg (not_not.mpr rfl)]

lemma pieces_percent_cons (c0 : Byte) (l : List Byte) : pieces (chr '%' :: c0 :: l) =
    (conversion c0 (l.getD 0 0) (l.getD 1 0)).1 ::
      pieces (l.drop (conversion c0 (l.getD 0 0) (l.getD 1 0)).2) := by
  rw [pieces, if_neg (not_not.mpr rfl)]

/-- A conversion does not reach behind the format. -/
lemma conversion_le (c0 : Byte) (l : List Byte) :
    (conversion c0 (l.getD 0 0) (l.getD 1 0)).2 ≤ l.length := by
  unfold conversion
  split
  case isFalse => exact Nat.zero_le _
  case isTrue =>
    match l with
    | [] => exact le_rfl
    | [c1] =>
      unfold longPiece
      split
      case h_1 => exact le_rfl
      case h_2 => split <;> exact Nat.zero_le _
    | c1 :: c2 :: l =>
      have hle : ((longPiece c1 c2).getD (.unknown c0, 0)).2 ≤ 2 := by
        unfold longPiece
        split
        case h_1 => exact one_le_two
        case h_2 =>
          split
          case isTrue =>
            cases numberKind c2 with
            | none => exact Nat.zero_le 2
            | some x => exact le_rfl
          case isFalse => exact Nat.zero_le 2
      exact hle.trans (Nat.le_add_left 2 l.length)

lemma CString.read_eq (h : fmt.chars.drop i = l) (hi : i ≤ fmt.length) {k : ℕ} (hk : k ≤ l.length) :
    fmt.read (i + k) = some (l.getD k 0) := by
  have hlen : l.length = fmt.length - i := by rw [← h, length_drop, CString.length]
  rw [CString.read, if_pos (by omega), CString.get, ← h, List.getD_eq_getElem?_getD,
    List.getD_eq_getElem?_getD, List.getElem?_drop]

lemma CString.read_nul (h : fmt.chars.drop i = []) (hi : i ≤ fmt.length) : fmt.read i = some 0 :=
  CString.read_eq h hi (Nat.zero_le _)

section

variable (h : fmt.chars.drop i = c :: l)
include h

lemma CString.read_of_drop : fmt.read i = some c := by
  have hlen := congrArg List.length h
  rw [length_drop, length_cons] at hlen
  have hi : i ≤ fmt.length := by
    rw [CString.length]
    omega
  exact CString.read_eq h hi (Nat.zero_le _)

lemma CString.ne_zero_of_drop : c ≠ 0 := by
  rintro rfl
  have hmem : 0 ∈ fmt.chars.drop i := by
    rw [h]
    exact mem_cons_self
  exact fmt.nul (mem_of_mem_drop hmem)

lemma CString.drop_succ : fmt.chars.drop (i + 1) = l := by
  rw [← drop_drop, h, drop_one, tail_cons]

lemma CString.succ_le_length : i + 1 ≤ fmt.length := by
  have hlen := congrArg List.length h
  rw [length_drop, length_cons] at hlen
  rw [CString.length]
  omega

end

/-- The two characters after `c0` that both functions look at. -/
lemma CString.lookahead {c0 : Byte} (h : fmt.chars.drop i = c0 :: l) :
    fmt.readAfter c0 (i + 1) = some (l.getD 0 0) ∧
      fmt.readAfter (l.getD 0 0) (i + 2) = some (l.getD 1 0) := by
  have hi := (Nat.le_succ i).trans (CString.succ_le_length h)
  constructor
  · rw [CString.readAfter, if_pos (CString.ne_zero_of_drop h),
      CString.read_eq h hi (by rw [length_cons]; omega)]
    rfl
  · cases l with
    | nil => rfl
    | cons c1 l =>
      have h1 : c1 ≠ 0 := CString.ne_zero_of_drop (CString.drop_succ h)
      rw [CString.readAfter, getD_cons_zero, if_pos h1,
        CString.read_eq h hi (by rw [length_cons, length_cons]; omega)]
      rfl

/-! ### One iteration -/

lemma Printk.loop_eq (h : fmt.read i = some c) : Printk.loop fmt i ap =
    if c = 0 then some ([], ap)
    else if c ≠ chr '%' then do
      let (out, ap) ← Printk.loop fmt (i + 1) ap
      return (Printk.int c :: out, ap)
    else do
      let c0 ← fmt.read (i + 1)
      let c1 ← fmt.readAfter c0 (i + 2)
      let c2 ← fmt.readAfter c1 (i + 3)
      match ← Printk.convert c0 c1 c2 ap with
      | none => return ([], ap)
      | some x => do
        let (out, ap) ← Printk.loop fmt (i + 1 + x.skip + 1) x.ap
        return (x.out ++ out, ap) := by
  rw [Printk.loop.eq_def]
  split
  case h_1 hn => exact absurd (hn.symm.trans h) nofun
  case h_2 cx hcx =>
    obtain rfl := Option.some.inj (hcx.symm.trans h)
    rfl

lemma Printf.loop_eq (h : fmt.read i = some c) (state : Byte) : Printf.loop fmt i state ap =
    if c = 0 then some ([], ap)
    else if state = 0 then
      if c = chr '%' then Printf.loop fmt (i + 1) (chr '%') ap
      else do
        let (out, ap) ← Printf.loop fmt (i + 1) state ap
        return (c :: out, ap)
    else if state = chr '%' then do
      let c1 ← fmt.readAfter c (i + 1)
      let c2 ← fmt.readAfter c1 (i + 2)
      let x ← Printf.convert c c1 c2 ap
      let (out, ap) ← Printf.loop fmt (i + x.skip + 1) 0 x.ap
      return (x.out ++ out, ap)
    else Printf.loop fmt (i + 1) state ap := by
  rw [Printf.loop.eq_def]
  split
  case h_1 hn => exact absurd (hn.symm.trans h) nofun
  case h_2 cx hcx =>
    obtain rfl := Option.some.inj (hcx.symm.trans h)
    rfl

variable {out rest : List Sym} {ap' ap'' : List VaArg}

/-- The kernel's loop at a conversion. -/
lemma Printk.loop_conversion {c0 : Byte} (hl : fmt.chars.drop i = chr '%' :: c0 :: l)
    (hp : Prints (conversion c0 (l.getD 0 0) (l.getD 1 0)).1 ap out ap')
    (hrest : Printk.loop fmt (i + 2 + (conversion c0 (l.getD 0 0) (l.getD 1 0)).2) ap' =
      some (rest.map Sym.kernel, ap'')) :
    Printk.loop fmt i ap = some ((out ++ rest).map Sym.kernel, ap'') := by
  have hl' := CString.drop_succ hl
  obtain ⟨h1, h2⟩ := CString.lookahead hl'
  have hconv := (Printk.actions.convert_eq c0 _ _ ap).trans (hp.kernel _)
  rw [show i + 2 + (conversion c0 (l.getD 0 0) (l.getD 1 0)).2 =
    i + 1 + (conversion c0 (l.getD 0 0) (l.getD 1 0)).2 + 1 by omega] at hrest
  rw [Printk.loop_eq (CString.read_of_drop hl), if_neg (by decide), if_neg (not_not.mpr rfl),
    CString.read_of_drop hl', map_append]
  simp only [h1, h2, Printk.convert, hconv, hrest, Option.bind_eq_bind, Option.bind_some,
    Option.pure_def]

/-- The user library's loop at a conversion takes two iterations. -/
lemma Printf.loop_conversion {c0 : Byte} (hl : fmt.chars.drop i = chr '%' :: c0 :: l)
    (hp : Prints (conversion c0 (l.getD 0 0) (l.getD 1 0)).1 ap out ap')
    (hrest : Printf.loop fmt (i + 2 + (conversion c0 (l.getD 0 0) (l.getD 1 0)).2) 0 ap' =
      some (rest.map Sym.user, ap'')) :
    Printf.loop fmt i 0 ap = some ((out ++ rest).map Sym.user, ap'') := by
  have hl' := CString.drop_succ hl
  obtain ⟨h1, h2⟩ := CString.lookahead hl'
  have hconv := (Printf.actions.convert_eq c0 _ _ ap).trans (hp.user _)
  rw [show i + 2 + (conversion c0 (l.getD 0 0) (l.getD 1 0)).2 =
    i + 1 + (conversion c0 (l.getD 0 0) (l.getD 1 0)).2 + 1 by omega] at hrest
  rw [Printf.loop_eq (CString.read_of_drop hl), if_neg (by decide), if_pos rfl, if_pos rfl,
    Printf.loop_eq (CString.read_of_drop hl'), if_neg (CString.ne_zero_of_drop hl'),
    if_neg (by decide), if_pos rfl, map_append]
  simp only [h1, h2, Printf.convert, hconv, hrest, Option.bind_eq_bind, Option.bind_some,
    Option.pure_def]

lemma render_cons {p : Piece} {ps : List Piece} (hp : Prints p ap out ap')
    (hrest : render ps ap' = some (rest, ap'')) :
    render (p :: ps) ap = some (out ++ rest, ap'') := by
  simp only [render, hp.print, hrest, Option.bind_eq_bind, Option.bind_some, Option.pure_def]

/-- Both loops, started at the same position outside a conversion, print the pieces of what is left
of the format. -/
lemma loop_spec (hl : fmt.chars.drop i = l) (hi : i ≤ fmt.length) (h : ArgsMatch (pieces l) ap) :
    ∃ out ap', render (pieces l) ap = some (out, ap') ∧
      Printk.loop fmt i ap = some (out.map Sym.kernel, ap') ∧
      Printf.loop fmt i 0 ap = some (out.map Sym.user, ap') ∧ ∀ y ∈ out, y.Ok := by
  induction hn : l.length using Nat.strong_induction_on generalizing l i ap with
  | _ n ih =>
    subst hn
    match l with
    | [] =>
      have hread := CString.read_nul hl hi
      refine ⟨[], ap, by rw [pieces_nil]; rfl, ?_, ?_, nofun⟩
      · rw [Printk.loop_eq hread, if_pos rfl]
        rfl
      · rw [Printf.loop_eq hread, if_pos rfl]
        rfl
    | c :: l =>
      have hread := CString.read_of_drop hl
      have h0 := CString.ne_zero_of_drop hl
      by_cases hc : c = chr '%'
      · subst hc
        match l with
        | [] =>
          have hread' := CString.read_nul (CString.drop_succ hl) (CString.succ_le_length hl)
          refine ⟨[], ap, by rw [pieces_percent_nil]; rfl, ?_, ?_, nofun⟩
          · rw [Printk.loop_eq hread, if_neg h0, if_neg (not_not.mpr rfl), hread']
            rfl
          · rw [Printf.loop_eq hread, if_neg h0, if_pos rfl, if_pos rfl, Printf.loop_eq hread',
              if_pos rfl]
            rfl
        | c0 :: l =>
          have hdrop := CString.drop_succ (CString.drop_succ hl)
          have hlen' : fmt.length = i + 2 + l.length := by
            have hlen := congrArg List.length hl
            rw [length_drop, length_cons, length_cons] at hlen
            rw [CString.length]
            omega
          have hle := conversion_le c0 l
          rw [pieces_percent_cons] at h ⊢
          obtain ⟨out, ap', hp, h'⟩ := h.prints (ok_conversion _ _ (CString.ne_zero_of_drop (CString.drop_succ hl)))
          obtain ⟨rest, ap'', hren, hk, hu, hok⟩ := ih _ (by simp; omega)
            (i := i + 2 + (conversion c0 (l.getD 0 0) (l.getD 1 0)).2)
            (by rw [← drop_drop, hdrop]) (by rw [hlen']; omega) h' rfl
          refine ⟨out ++ rest, ap'', render_cons hp hren, Printk.loop_conversion hl hp hk,
            Printf.loop_conversion hl hp hu, ?_⟩
          intro y hy
          exact (mem_append.mp hy).elim (hp.ok y) (hok y)
      · rw [pieces_cons_of_ne hc] at h ⊢
        obtain ⟨out, ap', hp, h'⟩ := h.prints trivial
        obtain ⟨rfl, rfl⟩ := Prod.mk.inj (Option.some.inj hp.print)
        obtain ⟨rest, ap'', hren, hk, hu, hok⟩ := ih _ (Nat.lt_succ_self _) (CString.drop_succ hl)
          (CString.succ_le_length hl) h' rfl
        refine ⟨_, ap'', render_cons hp hren, ?_, ?_, ?_⟩
        · rw [Printk.loop_eq hread, if_neg h0, if_pos hc, hk]
          rfl
        · rw [Printf.loop_eq hread, if_neg h0, if_pos rfl, if_neg hc, hu]
          rfl
        · intro y hy
          exact (mem_append.mp hy).elim (hp.ok y) (hok y)

end

/-! ## Both functions -/

/-- The same character, or the same hexadecimal digit in lower and in upper case. -/
def HexCaseEq (k : BitVec 32) (u : Byte) : Prop :=
  k = Printk.int u ∨
    ∃ d, 10 ≤ d ∧ d < 16 ∧ k = Printk.int (Printk.digits.getD d 0) ∧ u = Printf.digits.getD d 0

lemma Sym.Ok.hexCaseEq {y : Sym} (h : y.Ok) : HexCaseEq y.kernel y.user := by
  cases y with
  | char c =>
    have hsame : (Sym.char c).kernel = Printk.int c := rfl
    exact Or.inl hsame
  | digit d =>
    have hkernel : (Sym.digit d).kernel = Printk.int (Printk.digits.getD d 0) := rfl
    have huser : (Sym.digit d).user = Printf.digits.getD d 0 := rfl
    rw [hkernel, huser]
    rcases Nat.lt_or_ge d 10 with hd | hd
    · have hsame : ∀ d < 10, Printk.digits.getD d 0 = Printf.digits.getD d 0 := by decide
      rw [hsame d hd]
      exact Or.inl rfl
    · exact Or.inr ⟨d, hd, h, rfl, rfl⟩

lemma filterMap_calls (panicking : Bool) (l : List (BitVec 32)) :
    ((if panicking then [] else [Printk.Call.acquire]) ++ l.map Printk.Call.consputc ++
      (if panicking then [] else [Printk.Call.release])).filterMap Printk.Call.char? = l := by
  have hmap : (l.map Printk.Call.consputc).filterMap Printk.Call.char? = l := by
    rw [filterMap_map]
    exact filterMap_some
  rw [filterMap_append, filterMap_append, hmap]
  cases panicking <;> exact append_nil l

/-- **The kernel and the user library format alike.**  Whenever the arguments match the format, both
functions end, without a read behind the NUL of the format and with the same arguments left over, and
have printed the same symbols, each with its own hexadecimal digits. -/
theorem printk_vprintf_agree (panicking : Bool) (fd : BitVec 32) (fmt : CString) (ap : List VaArg)
    (h : ArgsMatch (pieces fmt.chars) ap) :
    ∃ out ap' calls writes, render (pieces fmt.chars) ap = some (out, ap') ∧
      printk panicking fmt ap = some (calls, ap') ∧
      vprintf fd fmt ap = some (writes, ap') ∧
      calls.filterMap Printk.Call.char? = out.map Sym.kernel ∧
      writes = out.map (fun y => (fd, y.user)) ∧
      List.Forall₂ HexCaseEq (calls.filterMap Printk.Call.char?) (writes.map Prod.snd) := by
  obtain ⟨out, ap', hren, hk, hu, hok⟩ :=
    loop_spec (List.drop_zero : fmt.chars.drop 0 = fmt.chars) (Nat.zero_le _) h
  refine ⟨out, ap', _, _, hren, ?_, ?_, filterMap_calls panicking _, rfl, ?_⟩
  · simp only [printk, hk, Option.bind_eq_bind, Option.bind_some, Option.pure_def]
  · simp only [vprintf, hu, Option.bind_eq_bind, Option.bind_some, Option.pure_def, List.map_map]
    rfl
  · rw [filterMap_calls, List.map_map, List.forall₂_map_left_iff, List.forall₂_map_right_iff,
      List.forall₂_same]
    exact fun y hy => (hok y hy).hexCaseEq

/-- `"%x"` with a number. -/
theorem printk_vprintf_agree_hex : ∃ out ap' calls writes,
    render (pieces [chr '%', chr 'x']) [.int 0xbeef] = some (out, ap') ∧
      printk false ⟨[chr '%', chr 'x'], by decide⟩ [.int 0xbeef] = some (calls, ap') ∧
      vprintf 1 ⟨[chr '%', chr 'x'], by decide⟩ [.int 0xbeef] = some (writes, ap') ∧
      calls.filterMap Printk.Call.char? = out.map Sym.kernel ∧
      writes = out.map (fun y => (1, y.user)) ∧
      List.Forall₂ HexCaseEq (calls.filterMap Printk.Call.char?) (writes.map Prod.snd) := by
  refine printk_vprintf_agree false 1 ⟨[chr '%', chr 'x'], by decide⟩ [.int 0xbeef] ?_
  have hnil : pieces (([] : List Byte).drop (conversion (chr 'x') 0 0).2) = [] := pieces_nil
  rw [pieces_percent_cons]
  exact .arg trivial (hnil ▸ .nil [])

end Xv6
