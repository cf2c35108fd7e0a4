import Xv6.Lib.Bytes

/-!
# C strings

A pointer to a NUL-terminated string is the list of the bytes before the NUL.  `s.get i` is `s[i]`,
which is the NUL at the end of the string, and `s.skip n` is `s + n`.
-/

namespace Xv6

open List

/-- The byte of a character literal. -/
def chr (c : Char) : Byte := BitVec.ofNat 8 c.toNat

/-- The bytes of a string before its NUL. -/
@[ext]
structure CString where
  chars : List Byte
  nul : 0 ∉ chars
  deriving DecidableEq

namespace CString

def length (s : CString) : ℕ := s.chars.length

/-- The bytes of `l` up to a NUL. -/
def ofList (l : List Byte) : CString :=
  ⟨l.takeWhile (· ≠ 0), fun h => by simpa using List.mem_takeWhile_imp h⟩

/-- `s[i]`, for an `i` up to the length of `s`. -/
def get (s : CString) (i : ℕ) : Byte := s.chars.getD i 0

/-- `s + n`. -/
def skip (s : CString) (n : ℕ) : CString :=
  ⟨s.chars.drop n, fun h => s.nul (List.mem_of_mem_drop h)⟩

def nil : CString := ⟨[], List.not_mem_nil⟩

def cons (c : Byte) (s : CString) (hc : c ≠ 0) : CString :=
  ⟨c :: s.chars, fun h => (List.mem_cons.mp h).elim (fun h => hc h.symm) s.nul⟩

@[simp] lemma chars_nil : nil.chars = [] := rfl

@[simp] lemma chars_cons (c : Byte) (s : CString) (hc : c ≠ 0) :
    (cons c s hc).chars = c :: s.chars := rfl

@[simp] lemma get_nil (i : ℕ) : nil.get i = 0 := rfl

@[simp] lemma get_cons_zero (c : Byte) (s : CString) (hc : c ≠ 0) : (cons c s hc).get 0 = c := rfl

@[simp] lemma get_cons_succ (c : Byte) (s : CString) (hc : c ≠ 0) (i : ℕ) :
    (cons c s hc).get (i + 1) = s.get i := rfl

@[simp] lemma skip_zero (s : CString) : s.skip 0 = s := rfl

@[simp] lemma skip_cons_succ (c : Byte) (s : CString) (hc : c ≠ 0) (n : ℕ) :
    (cons c s hc).skip (n + 1) = s.skip n := rfl

@[simp] lemma length_skip (s : CString) (n : ℕ) : (s.skip n).length = s.length - n :=
  length_drop

/-- A string is empty or has a first character. -/
@[elab_as_elim]
theorem cons_induction {motive : CString → Prop} (s : CString) (nil : motive nil)
    (cons : ∀ c t hc, motive t → motive (cons c t hc)) : motive s :=
  match s with
  | ⟨[], _⟩ => nil
  | ⟨c :: t, h⟩ =>
    cons c ⟨t, fun ht => h (mem_cons_of_mem c ht)⟩ (fun hc => h (hc ▸ mem_cons_self))
      (cons_induction _ nil cons)
  termination_by s.chars.length

lemma get_eq_zero_iff {s : CString} {i : ℕ} : s.get i = 0 ↔ s.length ≤ i := by
  rw [get, length, List.getD_eq_getElem?_getD]
  rcases Nat.lt_or_ge i s.chars.length with h | h
  · rw [List.getElem?_eq_getElem h, Option.getD_some]
    have hne : s.chars[i] ≠ 0 := fun h0 => s.nul (h0 ▸ getElem_mem h)
    exact ⟨fun h0 => absurd h0 hne, fun hle => absurd h (Nat.not_lt.mpr hle)⟩
  · rw [List.getElem?_eq_none h]
    exact ⟨fun _ => h, fun _ => rfl⟩

lemma length_skip_lt {s : CString} {i n : ℕ} (h : s.get i ≠ 0) (hn : 0 < n) :
    (s.skip n).length < s.length := by
  have hlt : i < s.length := Nat.not_le.mp fun hle => h (get_eq_zero_iff.mpr hle)
  rw [length_skip]
  exact Nat.sub_lt (Nat.lt_of_le_of_lt (Nat.zero_le i) hlt) hn

end CString

/-! ## Strings in memory -/

namespace Bytes

/-- The bytes of a piece of memory. -/
def slice (m : Bytes) (p n : ℕ) : List Byte := (List.range' p n).map m

variable {m m' : Bytes} {p n : ℕ}

@[simp] lemma length_slice (m : Bytes) (p n : ℕ) : (m.slice p n).length = n := by
  rw [slice, length_map, length_range']

lemma slice_succ (m : Bytes) (p n : ℕ) : m.slice p (n + 1) = m p :: m.slice (p + 1) n := by
  rw [slice, range'_succ, map_cons, slice]

lemma slice_add (m : Bytes) (p a b : ℕ) : m.slice p (a + b) = m.slice p a ++ m.slice (p + a) b := by
  rw [slice, slice, slice, ← map_append, range'_append_1]

lemma slice_congr (h : ∀ i, p ≤ i → i < p + n → m i = m' i) : m.slice p n = m'.slice p n :=
  map_congr_left fun i hi => h i (mem_range'_1.mp hi).1 (mem_range'_1.mp hi).2

lemma getElem_slice {i : ℕ} (hi : i < (m.slice p n).length) : (m.slice p n)[i] = m (p + i) := by
  simp [slice]

/-- The list `l` as memory. -/
def ofList (l : List Byte) : Bytes := fun i => l.getD i 0

lemma slice_ofList (l : List Byte) : (ofList l).slice 0 l.length = l := by
  refine ext_getElem (length_slice _ _ _) fun i hi hl => ?_
  rw [getElem_slice, Nat.zero_add, ofList, List.getD_eq_getElem?_getD, List.getElem?_eq_getElem hl]
  rfl

/-- What has been copied is there. -/
lemma slice_blit (m src : Bytes) (o so n : ℕ) : (m.blit o src so n).slice o n = src.slice so n := by
  refine ext_getElem (by simp) fun i hi _ => ?_
  rw [length_slice] at hi
  rw [getElem_slice, getElem_slice, blit_of_mem ⟨Nat.le_add_right o i, Nat.add_lt_add_left hi o⟩,
    Nat.add_sub_cancel_left]

end Bytes

/-- A string in memory, of which there are at most `n` bytes. -/
def CString.ofMem (m : Bytes) (p n : ℕ) : CString := .ofList (m.slice p n)

/-- The bytes from a NUL on do not belong to the string. -/
lemma CString.ofList_append_nul {w : List Byte} (hw : 0 ∉ w) (t : List Byte) :
    CString.ofList (w ++ 0 :: t) = CString.ofList w := by
  have hne : ∀ b ∈ w, decide (b ≠ 0) = true := fun b hb => decide_eq_true fun h => hw (h ▸ hb)
  refine CString.ext ?_
  change (w ++ 0 :: t).takeWhile (· ≠ 0) = w.takeWhile (· ≠ 0)
  rw [takeWhile_append_of_pos hne, takeWhile_cons_of_neg (by decide), append_nil,
    takeWhile_eq_self_iff.mpr hne]

/-- The string at a place that is ended by a NUL. -/
lemma CString.ofMem_eq {m : Bytes} {p k n : ℕ} (hk : k < n) (h0 : m (p + k) = 0)
    (hne : 0 ∉ m.slice p k) : CString.ofMem m p n = .ofList (m.slice p k) := by
  obtain ⟨d, rfl⟩ : ∃ d, n = k + (d + 1) := ⟨n - k - 1, by omega⟩
  rw [CString.ofMem, Bytes.slice_add, Bytes.slice_succ, h0, CString.ofList_append_nul hne]

end Xv6
