import Xv6.Lib.Bytes

/-!
# The user heap allocator

`user/umalloc.c`, on the memory of the calling program.  The allocator's data are headers in that
memory and the variable `freep`; `base` is the address of the static header.  A loop takes a bound
on the number of its rounds and has no result when the bound is too small.

`sbrk` belongs to the kernel: here it is a function of the earlier calls of it and of the amount
asked for, and the calls are recorded with their answers.
-/

namespace Xv6
namespace Umalloc

/-- `sizeof(Header)`. -/
def HEADER : ℕ := 16

/-- What `sbrk` answers when there is no memory. -/
def SBRK_ERROR : ℕ := 2 ^ 64 - 1

/-- A call of `sbrk`: the amount, an `int`, and the answer. -/
structure Call where
  amount : ℤ
  answer : ℕ
deriving DecidableEq

/-- The memory of the program and the variables of the allocator. -/
structure Heap where
  mem : Bytes
  freep : ℕ := 0  -- the null pointer at the start
  calls : List Call := []  -- the calls of `sbrk`, the latest first

/-! ## Headers -/

/-- `p->s.ptr`. -/
def ptr (m : Bytes) (p : ℕ) : ℕ := (m.get64 p).toNat

/-- `p->s.size`. -/
def size (m : Bytes) (p : ℕ) : ℕ := (m.get32 (p + 8)).toNat

def setPtr (m : Bytes) (p v : ℕ) : Bytes := m.put64 p (BitVec.ofNat 64 v)

def setSize (m : Bytes) (p n : ℕ) : Bytes := m.put32 (p + 8) (BitVec.ofNat 32 n)

/-- The pointer `p + n` on headers. -/
def plus (p n : ℕ) : ℕ := (p + HEADER * n) % 2 ^ 64

/-! ## `free` -/

/-- The loop of `free`: the header after which `bp` belongs. -/
def freeLoop (m : Bytes) (bp : ℕ) : ℕ → ℕ → Option ℕ
  | 0, _ => none
  | fuel + 1, p =>
    if bp > p ∧ bp < ptr m p then some p
    else if p ≥ ptr m p ∧ (bp > p ∨ bp < ptr m p) then some p
    else freeLoop m bp fuel (ptr m p)

/-- Link `bp` to what follows `p`, joining the two if they are neighbours. -/
def joinUpper (m : Bytes) (bp p : ℕ) : Bytes :=
  if plus bp (size m bp) = ptr m p then
    let m₁ := setSize m bp (size m bp + size m (ptr m p))
    setPtr m₁ bp (ptr m₁ (ptr m₁ p))
  else setPtr m bp (ptr m p)

/-- Link `p` to `bp`, joining the two if they are neighbours. -/
def joinLower (m : Bytes) (bp p : ℕ) : Bytes :=
  if plus p (size m p) = bp then
    let m₁ := setSize m p (size m p + size m bp)
    setPtr m₁ p (ptr m₁ bp)
  else setPtr m p bp

def free (fuel ap : ℕ) (h : Heap) : Option Heap :=
  let bp := ap - HEADER
  (freeLoop h.mem bp fuel h.freep).map fun p =>
    { h with mem := joinLower (joinUpper h.mem bp p) bp p, freep := p }

/-! ## `malloc` -/

section Malloc

variable (sbrk : List Call → ℤ → ℕ)

/-- The number of units `morecore` asks for. -/
def coreUnits (nu : ℕ) : ℕ := if nu < 4096 then 4096 else nu

/-- A 64-bit number passed as an `int`. -/
def toInt (n : ℕ) : ℤ := (BitVec.ofNat 32 n).toInt

/-- Ask the kernel for at least `nu` units and free them. -/
def morecore (fuel nu : ℕ) (h : Heap) : Option (ℕ × Heap) :=
  let nu := coreUnits nu
  let amount := toInt (nu * HEADER)
  let p := sbrk h.calls amount
  let h := { h with calls := ⟨amount, p⟩ :: h.calls }
  if p = SBRK_ERROR then some (0, h)
  else
    (free fuel (plus p 1) { h with mem := setSize h.mem p nu }).map fun h => (h.freep, h)

/-- Take `nunits` units from the block `p`, whose predecessor is `prevp`. -/
def takeUnits (nunits prevp p : ℕ) (h : Heap) : ℕ × Heap :=
  if size h.mem p = nunits then
    (plus p 1, { h with mem := setPtr h.mem prevp (ptr h.mem p), freep := prevp })
  else
    -- the tail end is handed out
    let m := setSize h.mem p (size h.mem p - nunits)
    let p := plus p (size m p)
    (plus p 1, { h with mem := setSize m p nunits, freep := prevp })

/-- The loop of `malloc`. -/
def mallocLoop (nunits : ℕ) : ℕ → ℕ → ℕ → Heap → Option (ℕ × Heap)
  | 0, _, _, _ => none
  | fuel + 1, prevp, p, h =>
    if size h.mem p ≥ nunits then some (takeUnits nunits prevp p h)
    else if p = h.freep then
      match morecore sbrk fuel nunits h with
      | none => none
      | some (p, h) =>
        if p = 0 then some (0, h) else mallocLoop nunits fuel p (ptr h.mem p) h
    else mallocLoop nunits fuel p (ptr h.mem p) h

/-- The number of units of a request, an `uint`. -/
def unitsOf (nbytes : ℕ) : ℕ := ((nbytes + HEADER - 1) / HEADER + 1) % 2 ^ 32

/-- The first call makes the static header a circular list. -/
def initHeap (base : ℕ) (h : Heap) : Heap :=
  if h.freep = 0 then { h with mem := setSize (setPtr h.mem base base) base 0, freep := base } else h

def malloc (base fuel nbytes : ℕ) (h : Heap) : Option (ℕ × Heap) :=
  let h := initHeap base h
  mallocLoop sbrk (unitsOf nbytes) fuel h.freep (ptr h.mem h.freep) h

end Malloc

/-! ## Reading headers after stores -/

variable {m m' : Bytes} {p v i n q : ℕ}

lemma ptr_setPtr_self (hv : v < 2 ^ 64) : ptr (setPtr m p v) p = v := by
  rw [ptr, setPtr, Bytes.get64_put64, BitVec.toNat_ofNat, Nat.mod_eq_of_lt hv]

lemma size_setSize_self (m : Bytes) (p n : ℕ) : size (setSize m p n) p = n % 2 ^ 32 := by
  rw [size, setSize, Bytes.get32_put32, BitVec.toNat_ofNat]

lemma setPtr_of_notMem (h : i < p ∨ p + 8 ≤ i) : setPtr m p v i = m i :=
  Bytes.put64_of_disjoint h

lemma setSize_of_notMem (h : i < p + 8 ∨ p + 12 ≤ i) :
    setSize m p n i = m i := Bytes.put32_of_disjoint (by omega)

lemma ptr_congr (h : ∀ i, p ≤ i → i < p + 8 → m i = m' i) :
    ptr m p = ptr m' p := by rw [ptr, ptr, Bytes.get64_congr h]

lemma size_congr (h : ∀ i, p + 8 ≤ i → i < p + 12 → m i = m' i) :
    size m p = size m' p := by rw [size, size, Bytes.get32_congr fun i h₁ h₂ => h i h₁ (by omega)]

lemma size_setSize_of_disjoint (h : p + HEADER ≤ q ∨ q + HEADER ≤ p) :
    size (setSize m q n) p = size m p := by
  unfold HEADER at h
  exact size_congr fun i _ _ => setSize_of_notMem (by omega)

@[simp] lemma size_setPtr_self (m : Bytes) (p v : ℕ) : size (setPtr m p v) p = size m p :=
  size_congr fun i _ _ => setPtr_of_notMem (by omega)

@[simp] lemma ptr_setSize_self (m : Bytes) (p n : ℕ) : ptr (setSize m p n) p = ptr m p :=
  ptr_congr fun i _ _ => setSize_of_notMem (by omega)

lemma size_setPtr_of_disjoint (h : p + HEADER ≤ q ∨ q + HEADER ≤ p) :
    size (setPtr m q v) p = size m p := by
  unfold HEADER at h
  exact size_congr fun i _ _ => setPtr_of_notMem (by omega)

lemma ptr_setSize_of_disjoint (h : p + HEADER ≤ q ∨ q + HEADER ≤ p) :
    ptr (setSize m q n) p = ptr m p := by
  unfold HEADER at h
  exact ptr_congr fun i _ _ => setSize_of_notMem (by omega)

lemma size_lt (m : Bytes) (p : ℕ) : size m p < 2 ^ 32 := (m.get32 (p + 8)).isLt

end Umalloc
end Xv6
