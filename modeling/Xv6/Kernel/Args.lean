import Xv6.Kernel.Exec

/-!
# The argument stack

`kexec` pushes the argument strings on the new stack, each at an address that is a multiple of 16, and
below them the array of their addresses.  Here is the layout as a function of the strings: the space
they take (`stackBytes`), where each one is (`argAddr`), and what memory holds when all are there
(`pushed`).
-/

namespace Xv6

/-- `n` rounded up to a multiple of 16. -/
def align16 (n : ℕ) : ℕ := (n + 15) / 16 * 16

lemma le_align16 (n : ℕ) : n ≤ align16 n := by
  unfold align16
  omega

/-- The bytes that the strings take on the stack. -/
def stringBytes (argv : List Bytes) : ℕ := (argv.map fun s => align16 (strlen s + 1)).sum

/-- The bytes that the strings and the array of their addresses take on the stack. -/
def stackBytes (argv : List Bytes) : ℕ := stringBytes argv + align16 ((argv.length + 1) * 8)

/-- The arguments fit on the stack. -/
abbrev ArgsFit (argv : List Bytes) : Prop := stackBytes argv ≤ USERSTACK * PGSIZE

/-- The arguments that `sys_exec` passes on: there is a slot for the 0 after them, and each is a string
in a page of its own. -/
structure ArgsOk (argv : List Bytes) : Prop where
  count : argv.length < MAXARG
  string : ∀ s ∈ argv, strlen s < PGSIZE

/-- The address of string `i` on a stack with its top at `top`. -/
def argAddr (top : ℕ) (argv : List Bytes) (i : ℕ) : ℕ := top - stringBytes (argv.take (i + 1))

/-- The addresses of all. -/
def argAddrs (top : ℕ) (argv : List Bytes) : List ℕ := (List.range argv.length).map (argAddr top argv)

/-- Memory after the strings have been pushed. -/
def pushed : List Bytes → ℕ → Bytes → Bytes
  | [], _, f => f
  | s :: argv, sp, f =>
    pushed argv (sp - align16 (strlen s + 1)) (f.blit (sp - align16 (strlen s + 1)) s 0 (strlen s + 1))

section

variable {s : Bytes} {argv : List Bytes} {top sp : ℕ} {f : Bytes}

@[simp] lemma stringBytes_nil : stringBytes [] = 0 := rfl

@[simp] lemma stringBytes_cons : stringBytes (s :: argv) = align16 (strlen s + 1) + stringBytes argv :=
  List.sum_cons

lemma stringBytes_take_le (argv : List Bytes) (i : ℕ) : stringBytes (argv.take i) ≤ stringBytes argv := by
  induction argv generalizing i with
  | nil => simp
  | cons s argv ih =>
    cases i with
    | zero => simp
    | succ i =>
      have := ih i
      simp only [List.take_succ_cons, stringBytes_cons]
      omega

variable {i j a : ℕ}

lemma stringBytes_take_succ (hi : i < argv.length) :
    stringBytes (argv.take (i + 1)) = stringBytes (argv.take i) + align16 (strlen argv[i] + 1) := by
  rw [List.take_succ_eq_append_getElem hi, stringBytes, stringBytes, List.map_append, List.sum_append]
  rfl

lemma stringBytes_take_mono (hij : i ≤ j) :
    stringBytes (argv.take i) ≤ stringBytes (argv.take j) := by
  have h := stringBytes_take_le (argv.take j) i
  rwa [List.take_take, Nat.min_eq_left hij] at h

lemma argAddrs_nil : argAddrs top [] = [] := rfl

lemma argAddrs_cons : argAddrs top (s :: argv) = (top - align16 (strlen s + 1)) ::
    argAddrs (top - align16 (strlen s + 1)) argv := by
  rw [argAddrs, List.length_cons, List.range_succ_eq_map, List.map_cons, List.map_map]
  refine congrArg₂ List.cons ?_ (List.map_congr_left fun i _ => ?_)
  · simp [argAddr]
  · simp [argAddr, Nat.sub_sub]

/-! ## Where the strings are -/

lemma argAddr_lower (top : ℕ) (argv : List Bytes) (i : ℕ) : top - stringBytes argv ≤ argAddr top argv i := by
  have := stringBytes_take_le argv (i + 1)
  unfold argAddr
  omega

/-- String `i`, with its NUL, ends below the strings before it. -/
lemma argAddr_upper (hi : i < argv.length) (hfit : stringBytes argv ≤ top) :
    argAddr top argv i + (strlen argv[i] + 1) ≤ top - stringBytes (argv.take i) := by
  have h₁ := stringBytes_take_succ hi
  have h₂ := stringBytes_take_le argv (i + 1)
  have h₃ := le_align16 (strlen argv[i] + 1)
  unfold argAddr
  omega

/-- The strings do not overlap. -/
lemma argAddr_disjoint (hij : i < j) (hj : j < argv.length) (hfit : stringBytes argv ≤ top) :
    argAddr top argv j + (strlen argv[j] + 1) ≤ argAddr top argv i := by
  have h₁ := argAddr_upper hj hfit
  have h₂ : stringBytes (argv.take (i + 1)) ≤ stringBytes (argv.take j) := stringBytes_take_mono hij
  unfold argAddr at *
  omega

/-! ## What memory holds -/

lemma pushed_congr {g : Bytes} (h : f a = g a) : pushed argv sp f a = pushed argv sp g a := by
  induction argv generalizing sp f g with
  | nil => exact h
  | cons s argv ih =>
    refine ih ?_
    unfold Bytes.blit
    rw [h]

/-- Nothing above the top is written. -/
lemma pushed_of_ge (ha : sp ≤ a) (hfit : stringBytes argv ≤ sp) : pushed argv sp f a = f a := by
  induction argv generalizing sp f with
  | nil => rfl
  | cons s argv ih =>
    have hle := le_align16 (strlen s + 1)
    rw [stringBytes_cons] at hfit
    rw [pushed, ih (by omega) (by omega), Bytes.blit_of_notMem (by omega)]

/-- Each string is at its address. -/
lemma pushed_argAddr (hi : i < argv.length) (hj : j ≤ strlen argv[i])
    (hfit : stringBytes argv ≤ sp) : pushed argv sp f (argAddr sp argv i + j) = argv[i] j := by
  induction argv generalizing sp f i with
  | nil => exact absurd hi (Nat.not_lt_zero _)
  | cons s argv ih =>
    rw [stringBytes_cons] at hfit
    rw [pushed]
    cases i with
    | zero =>
      have haddr : argAddr sp (s :: argv) 0 = sp - align16 (strlen s + 1) := by simp [argAddr]
      have hj' : j ≤ strlen s := hj
      rw [haddr, pushed_of_ge (by omega) (by omega), Bytes.blit_of_mem (by omega)]
      exact congrArg s (by omega)
    | succ i =>
      have haddr : argAddr sp (s :: argv) (i + 1) =
          argAddr (sp - align16 (strlen s + 1)) argv i := by
        simp [argAddr, Nat.sub_sub]
      rw [haddr]
      exact ih (Nat.lt_of_succ_lt_succ hi) hj (by omega)

end

/-! ## Strings -/

/-- The bytes before the NUL, and the NUL. -/
lemma strlenFrom_spec (s : Bytes) (n o : ℕ) :
    (∀ j < strlenFrom s n o, s (o + j) ≠ 0) ∧ (strlenFrom s n o < n → s (o + strlenFrom s n o) = 0) := by
  induction n generalizing o with
  | zero => simp [strlenFrom]
  | succ n ih =>
    obtain ⟨hne, hnul⟩ := ih (o + 1)
    rw [strlenFrom]
    split
    · next h0 => exact ⟨by simp, fun _ => h0⟩
    · next h0 =>
      refine ⟨fun j hj => ?_, fun hlt => ?_⟩
      · cases j with
        | zero => exact h0
        | succ j =>
          rw [show o + (j + 1) = o + 1 + j by omega]
          exact hne j (by omega)
      · rw [show o + (strlenFrom s n (o + 1) + 1) = o + 1 + strlenFrom s n (o + 1) by omega]
        exact hnul (by omega)

/-! ## The whole stack -/

/-- The stack that the program starts with: memory holds `byte`, and `sz` is its top. -/
structure ArgStack (byte : Bytes) (sz sp : ℕ) (argv : List Bytes) : Prop where
  aligned : sp % 16 = 0
  base_le : sz - USERSTACK * PGSIZE ≤ sp
  lt : sp < sz
  array_le : sp + 8 * (argv.length + 1) ≤ sz
  pointer : ∀ i < argv.length, byte.get64 (sp + 8 * i) = BitVec.ofNat 64 (argAddr sz argv i)
  null : byte.get64 (sp + 8 * argv.length) = 0
  copy : ∀ i (hi : i < argv.length),
    (∀ j < strlen argv[i], byte (argAddr sz argv i + j) = argv[i] j ∧ argv[i] j ≠ 0) ∧
    byte (argAddr sz argv i + strlen argv[i]) = 0
  within : ∀ i (hi : i < argv.length), sp + 8 * (argv.length + 1) ≤ argAddr sz argv i ∧
    argAddr sz argv i + (strlen argv[i] + 1) ≤ sz
  disjoint : ∀ i j (_ : i < j) (hj : j < argv.length),
    argAddr sz argv j + (strlen argv[j] + 1) ≤ argAddr sz argv i

section

variable {argv : List Bytes} {sz : ℕ} {f byte : Bytes}

lemma align16_mod (n : ℕ) : align16 n % 16 = 0 := Nat.mul_mod_left ..

lemma stringBytes_mod (argv : List Bytes) : stringBytes argv % 16 = 0 := by
  induction argv with
  | nil => rfl
  | cons s argv ih =>
    have := align16_mod (strlen s + 1)
    rw [stringBytes_cons]
    omega

/-- The words of the array. -/
lemma getD_argAddrs {i : ℕ} (hi : i < argv.length) :
    (argAddrs sz argv ++ [0]).getD i 0 = argAddr sz argv i := by
  have hlen : (argAddrs sz argv).length = argv.length := by simp [argAddrs]
  rw [List.getD_eq_getElem?_getD, List.getElem?_append_left (by omega)]
  simp [argAddrs, hi]

lemma getD_argAddrs_length : (argAddrs sz argv ++ [0]).getD argv.length 0 = 0 := by
  have hlen : (argAddrs sz argv).length = argv.length := by simp [argAddrs]
  rw [List.getD_eq_getElem?_getD, List.getElem?_append_right (by omega), hlen, Nat.sub_self]
  rfl

/-- The strings are pushed, and then the array of their addresses is copied below them. -/
lemma ArgStack.of_pushed (hsz : sz % 16 = 0) (hbase : USERSTACK * PGSIZE ≤ sz) (hfit : ArgsFit argv)
    (hstr : ∀ s ∈ argv, strlen s < PGSIZE)
    (hbyte : ∀ x < sz, byte x = (pushed argv sz f).blit (sz - stackBytes argv)
      (wordsBytes (argAddrs sz argv ++ [0])) 0 ((argv.length + 1) * 8) x) :
    ArgStack byte sz (sz - stackBytes argv) argv := by
  have hmod := stringBytes_mod argv
  have hmod' := align16_mod ((argv.length + 1) * 8)
  have hle := le_align16 ((argv.length + 1) * 8)
  unfold ArgsFit at hfit
  have hbytes : stackBytes argv = stringBytes argv + align16 ((argv.length + 1) * 8) := rfl
  have hword : ∀ i ≤ argv.length, byte.get64 (sz - stackBytes argv + 8 * i) =
      BitVec.ofNat 64 ((argAddrs sz argv ++ [0]).getD i 0) := by
    intro i hi
    refine Bytes.get64_of_bytes fun r hr => ?_
    rw [hbyte _ (by omega), Bytes.blit_of_mem (by omega), wordsBytes]
    have hoff : 0 + (sz - stackBytes argv + 8 * i + r - (sz - stackBytes argv)) = 8 * i + r := by omega
    rw [hoff, show (8 * i + r) / 8 = i by omega, show (8 * i + r) % 8 = r by omega]
  have hwithin : ∀ i (hi : i < argv.length),
      sz - stackBytes argv + 8 * (argv.length + 1) ≤ argAddr sz argv i ∧
      argAddr sz argv i + (strlen argv[i] + 1) ≤ sz := by
    intro i hi
    have h₁ := argAddr_lower sz argv i
    have h₂ := argAddr_upper hi (show stringBytes argv ≤ sz by omega)
    omega
  -- A byte of a string is above the array.
  have hcopy : ∀ i (hi : i < argv.length), ∀ j ≤ strlen argv[i],
      byte (argAddr sz argv i + j) = argv[i] j := by
    intro i hi j hj
    obtain ⟨h₁, h₂⟩ := hwithin i hi
    rw [hbyte _ (by omega), Bytes.blit_of_notMem (by omega), pushed_argAddr hi hj (by omega)]
  constructor
  case aligned => omega
  case base_le => omega
  case lt => omega
  case array_le => omega
  case pointer =>
    intro i hi
    rw [hword i hi.le, getD_argAddrs hi]
  case null =>
    rw [hword _ le_rfl, getD_argAddrs_length]
    rfl
  case copy =>
    intro i hi
    obtain ⟨hne, hnul⟩ := strlenFrom_spec argv[i] PGSIZE 0
    refine ⟨fun j hj => ⟨hcopy i hi j hj.le, ?_⟩, ?_⟩
    · rw [← Nat.zero_add j]
      exact hne j hj
    · rw [hcopy i hi _ le_rfl, ← Nat.zero_add (strlen argv[i])]
      exact hnul (hstr _ (List.getElem_mem hi))
  case within => exact hwithin
  case disjoint => exact fun i j hij hj => argAddr_disjoint hij hj (by omega)

lemma ArgStack.congr {g : Bytes} {sp : ℕ} (h : ArgStack f sz sp argv) (hg : ∀ x < sz, g x = f x) :
    ArgStack g sz sp argv := by
  have harray := h.array_le
  have hword : ∀ i ≤ argv.length, g.get64 (sp + 8 * i) = f.get64 (sp + 8 * i) := fun i hi =>
    Bytes.get64_congr fun x _ hx => hg x (by omega)
  refine { h with pointer := fun i hi => ?_, null := ?_, copy := fun i hi => ⟨fun j hj => ?_, ?_⟩ }
  · rw [hword i hi.le, h.pointer i hi]
  · rw [hword _ le_rfl, h.null]
  · have := (h.within i hi).2
    rw [hg _ (by omega)]
    exact (h.copy i hi).1 j hj
  · have := (h.within i hi).2
    rw [hg _ (by omega)]
    exact (h.copy i hi).2

end

end Xv6
