import Xv6.Console.Basic

/-!
# What consoleread takes from the queue

A call of `consoleread` runs in stretches: each ends where the call returns or sleeps, and the next
one finds the console as the others have left it.  What a call takes from the queue of committed
bytes is compared with what its result counts.

The read index is advanced before the byte is copied to the user's buffer, and is moved back only
for a ^D.  So a byte whose copy fails is gone, and `consoleread_exact_iff` says that this and the
bytes of a call that is killed in its sleep are all that is ever lost.
-/

namespace Xv6.Console

open List

/-- The committed bytes that have not been read. -/
def Cons.queue (c : Cons) : List Byte :=
  (List.range (c.w - c.r).toNat).map fun i => c.charAt (c.r + BitVec.ofNat 32 i)

/-- What has been taken from the front of the queue between two states of the console. -/
def Cons.taken (c c' : Cons) : List Byte := c.queue.take (c.queue.length - c'.queue.length)

/-- A call that has returned. -/
structure Done where
  result : ℤ
  got : List Byte  -- delivered to the user's buffer
  taken : List Byte

/-- The rest of a call, which has taken some bytes.  `cs` are the states of the console that it
finds, each with whether the process has been killed by then. -/
def callFrom (rd : Reader) (taken : List Byte) : List (Bool × Cons) → Option Done
  | [] => none
  | (killed, c) :: cs =>
    match readLoop killed rd.copy rd.target rd.n rd.got c with
    | (.ret result got, c') => some ⟨result, got, taken ++ c.taken c'⟩
    | (.wait n got, c') => callFrom { rd with n := n, got := got } (taken ++ c.taken c') cs

/-- A call of `consoleread(n)`, with the outcomes of its copies. -/
def consoleread (n : ℤ) (copy : ℕ → Bool) (cs : List (Bool × Cons)) : Option Done :=
  callFrom ⟨n.toNat, copy, n.toNat, []⟩ [] cs

/-- The call has taken the bytes that its result counts, and a ^D at most if it returned 0. -/
def Done.Exact (d : Done) : Prop :=
  ∃ eof, d.taken = d.got ++ eof ∧ d.got.length = d.result.toNat ∧
    (eof = [] ∨ eof = [ctrlD] ∧ d.result = 0)

/-! ## What a call is given -/

/-- The bytes that a call may find: it does not sleep once the process has been killed. -/
def found : List (Bool × Cons) → List Byte
  | [] => []
  | (killed, c) :: cs => c.queue ++ if killed then [] else found cs

/-- The bytes of `q` that a call copies if it wants `n`: those of one line, without a ^D. -/
def copied : ℕ → List Byte → List Byte
  | 0, _ | _, [] => []
  | n + 1, ch :: q => if ch = ctrlD then [] else if ch = newline then [ch] else ch :: copied n q

/-- A call that wants `n` bytes comes to an end with the bytes `q`. -/
abbrev Enough (n : ℕ) (q : List Byte) : Prop := n ≤ q.length ∨ newline ∈ q ∨ ctrlD ∈ q

/-- Nothing is lost by a call that has filled the buffer up to index `k`, wants `n` bytes and finds
the bytes `q`. -/
def Keeps (copy : ℕ → Bool) : ℕ → ℕ → List Byte → Prop
  | _, 0, _ => True
  | k, _ + 1, [] => k = 0
  | k, n + 1, ch :: q => ch = ctrlD ∨ copy k = true ∧ (ch = newline ∨ Keeps copy (k + 1) n q)

lemma keeps_iff (copy : ℕ → Bool) (k n : ℕ) (q : List Byte) : Keeps copy k n q ↔
    (∀ i < (copied n q).length, copy (k + i) = true) ∧ (k + q.length = 0 ∨ Enough n q) := by
  induction q generalizing k n with
  | nil => cases n <;> simp [Keeps, copied, Enough]
  | cons ch q ih =>
    cases n with
    | zero => simp [Keeps, copied, Enough]
    | succ n =>
      by_cases heof : ch = ctrlD
      · simp [Keeps, copied, Enough, heof]
      by_cases hnl : ch = newline
      · simp [Keeps, copied, Enough, hnl, show newline ≠ ctrlD by decide]
      have henough : k + (ch :: q).length = 0 ∨ Enough (n + 1) (ch :: q) ↔
          k + 1 + q.length = 0 ∨ Enough n q := by
        simp [Enough, Ne.symm heof, Ne.symm hnl]
      rw [Keeps, copied, if_neg heof, if_neg hnl, length_cons, Nat.forall_lt_succ_left, henough, ih]
      simp only [heof, hnl, false_or, Nat.add_zero, and_assoc, Nat.add_assoc, Nat.add_comm 1]

/-! ## A stretch -/

lemma queue_cons {c : Cons} (h : c.r ≠ c.w) :
    c.queue = c.charAt c.r :: Cons.queue { c with r := c.r + 1 } := by
  have hlen : (c.w - c.r).toNat = (c.w - (c.r + 1)).toNat + 1 := by bv_omega
  have hidx : ∀ i, c.r + BitVec.ofNat 32 (i + 1) = c.r + 1 + BitVec.ofNat 32 i := fun i => by
    rw [BitVec.add_assoc, Nat.add_comm, BitVec.ofNat_add]
    rfl
  rw [Cons.queue, Cons.queue, hlen, range_succ_eq_map, map_cons, map_map]
  refine congrArg₂ List.cons (congrArg c.charAt (BitVec.add_zero c.r)) ?_
  exact map_congr_left fun i _ => congrArg c.charAt (hidx i)

lemma taken_eq {c c' : Cons} {t : List Byte} (h : c.queue = t ++ c'.queue) : c.taken c' = t := by
  rw [Cons.taken, h, length_append, Nat.add_sub_cancel, take_left]

/-- How a stretch ends, if `n` bytes are to go after the bytes `got`, and the call finds `q` now and
`r` after its next sleep.  It takes the bytes `t`. -/
inductive Stretch (killed : Bool) (copy : ℕ → Bool) (target n : ℕ) (got q r t : List Byte) :
    Outcome → Prop
  | wait (m : ℕ) (hk : killed = false) (hm : (got ++ t).length + m = target)
      (h : Keeps copy got.length n (q ++ r) ↔ Keeps copy (got ++ t).length m r) :
    Stretch killed copy target n got q r t (.wait m (got ++ t))
  | ret (result : ℤ) (got' : List Byte)
      (h : Done.Exact ⟨result, got', got ++ t⟩ ↔ Keeps copy got.length n (q ++ r)) :
    Stretch killed copy target n got q r t (.ret result got')

/-- A call that returns with the bytes that it has taken. -/
lemma exact_length (l : List Byte) : Done.Exact ⟨l.length, l, l⟩ :=
  ⟨[], (append_nil l).symm, rfl, .inl rfl⟩

/-- A stretch that goes on after a byte has been delivered. -/
lemma Stretch.cons {killed : Bool} {copy : ℕ → Bool} {target n : ℕ} {got q r t : List Byte}
    {ch : Byte} {o : Outcome} (heof : ch ≠ ctrlD) (hnl : ch ≠ newline) (hcopy : copy got.length = true)
    (h : Stretch killed copy target n (got ++ [ch]) q r t o) :
    Stretch killed copy target (n + 1) got (ch :: q) r (ch :: t) o := by
  have happ : got ++ [ch] ++ t = got ++ ch :: t := by simp
  have hkeeps : Keeps copy got.length (n + 1) (ch :: q ++ r) ↔
      Keeps copy (got ++ [ch]).length n (q ++ r) := by
    simp [Keeps, heof, hnl, hcopy]
  cases h with
  | wait m hk hm h =>
    rw [happ] at hm h ⊢
    exact .wait m hk hm (hkeeps.trans h)
  | ret result got' h =>
    rw [happ] at h
    exact .ret result got' (h.trans hkeeps.symm)

lemma readLoop_stretch (killed : Bool) (copy : ℕ → Bool) (c : Cons) {target n : ℕ} {got r : List Byte}
    (h : got.length + n = target) (hr : killed = true → r = []) :
    ∃ t, c.queue = t ++ (readLoop killed copy target n got c).2.queue ∧
      Stretch killed copy target n got c.queue r t (readLoop killed copy target n got c).1 := by
  induction n generalizing got c with
  | zero =>
    obtain rfl : got.length = target := h
    exact ⟨[], rfl, .ret _ _ (by simp [Keeps, exact_length])⟩
  | succ n ih =>
    have hresult : (target : ℤ) - (n + 1) = got.length := by omega
    have hidx : target - (n + 1) = got.length := by omega
    rw [readLoop, hidx]
    by_cases hempty : c.r = c.w
    · have hq : c.queue = [] := by
        rw [Cons.queue, hempty, BitVec.sub_self]
        rfl
      refine ⟨[], by rw [if_pos hempty]; cases killed <;> rfl, ?_⟩
      rw [if_pos hempty, hq]
      cases killed with
      | true =>
        -- nothing is counted
        refine .ret _ _ ?_
        simp [hr rfl, Keeps, Done.Exact]
      | false =>
        have hs : Stretch false copy target (n + 1) got [] r [] (.wait (n + 1) (got ++ [])) :=
          .wait (n + 1) rfl (by rwa [append_nil]) (by rw [append_nil, nil_append])
        rwa [append_nil] at hs
    rw [if_neg hempty]
    dsimp only
    have hqueue := queue_cons hempty
    by_cases heof : c.charAt c.r = ctrlD
    · have hkeeps : Keeps copy got.length (n + 1) (c.queue ++ r) := by
        rw [hqueue]
        exact .inl heof
      rw [if_pos heof]
      by_cases hlt : n + 1 < target
      · rw [if_pos hlt, BitVec.add_sub_cancel, hresult]
        exact ⟨[], rfl, .ret _ _ (by simp [hkeeps, exact_length])⟩
      · obtain rfl : got = [] := eq_nil_of_length_eq_zero (by omega)
        rw [if_neg hlt, hresult]
        exact ⟨[ctrlD], by rw [hqueue, heof, singleton_append],
          .ret _ _ (iff_of_true ⟨[ctrlD], rfl, rfl, .inr ⟨rfl, rfl⟩⟩ hkeeps)⟩
    rw [if_neg heof]
    by_cases hcopy : copy got.length = false
    · rw [if_pos hcopy, hresult]
      refine ⟨[c.charAt c.r], by rw [hqueue, singleton_append], .ret _ _ (iff_of_false ?_ ?_)⟩
      · rintro ⟨eof, heq, -, hnil | ⟨hd, -⟩⟩
        · simp [hnil] at heq
        · exact heof (by simpa [hd] using heq)
      · rw [hqueue]
        simp [Keeps, heof, hcopy]
    rw [if_neg hcopy]
    have hcopy : copy got.length = true := by simpa using hcopy
    by_cases hnl : c.charAt c.r = newline
    · have hdone : (target : ℤ) - n = (got ++ [c.charAt c.r]).length := by
        rw [length_append, length_singleton]
        omega
      rw [if_pos hnl, hdone]
      refine ⟨[c.charAt c.r], by rw [hqueue, singleton_append], .ret _ _ ?_⟩
      rw [hqueue]
      exact iff_of_true (exact_length _) (.inr ⟨hcopy, .inl hnl⟩)
    · rw [if_neg hnl]
      obtain ⟨t, ht, hs⟩ := ih { c with r := c.r + 1 } (show (got ++ [c.charAt c.r]).length + n = target by
        rw [length_append, length_singleton]; omega)
      refine ⟨c.charAt c.r :: t, by rw [hqueue, ht, cons_append], ?_⟩
      rw [hqueue]
      exact hs.cons heof hnl hcopy

/-! ## A call -/

lemma callFrom_exact_iff {rd : Reader} {taken : List Byte} {cs : List (Bool × Cons)} {d : Done}
    (hrd : rd.got.length + rd.n = rd.target) (htaken : taken = rd.got)
    (hd : callFrom rd taken cs = some d) :
    d.Exact ↔ Keeps rd.copy rd.got.length rd.n (found cs) := by
  induction cs generalizing rd taken with
  | nil => cases hd
  | cons x cs ih =>
    obtain ⟨killed, c⟩ := x
    obtain ⟨t, ht, hs⟩ := readLoop_stretch killed rd.copy c hrd
      (show killed = true → (if killed then [] else found cs) = [] from fun h => if_pos h)
    rw [callFrom] at hd
    rw [found]
    generalize readLoop killed rd.copy rd.target rd.n rd.got c = x at hd ht hs
    obtain ⟨o, c'⟩ := x
    cases o with
    | wait n got =>
      dsimp only at hd hs
      rw [taken_eq ht, htaken] at hd
      cases hs with
      | wait m hk hm h =>
        rw [h, hk]
        exact ih hm rfl hd
    | ret result got =>
      dsimp only at hd hs
      rw [taken_eq ht, htaken] at hd
      obtain rfl := Option.some.inj hd
      cases hs with
      | ret _ _ h => exact h

/-- **What consoleread takes and what it counts.**  Let `found cs` be the bytes that the call finds in
the console, when it begins and whenever it goes on after a sleep, and let `copy` say which copies
to the user's buffer succeed.  The bytes taken from the queue are those that the result counts, with
a ^D at most if it is 0, if and only if every byte that is to be copied can be copied and, unless it
found nothing, the call found enough for it to end before it was killed. -/
theorem consoleread_exact_iff {n : ℤ} {copy : ℕ → Bool} {cs : List (Bool × Cons)} {d : Done}
    (hd : consoleread n copy cs = some d) :
    d.Exact ↔ (∀ i < (copied n.toNat (found cs)).length, copy i = true) ∧
      (found cs = [] ∨ Enough n.toNat (found cs)) := by
  rw [callFrom_exact_iff (Nat.zero_add _) rfl hd, keeps_iff]
  simp only [length_nil, Nat.zero_add, length_eq_zero_iff]

/-- A read of one byte into a buffer that is not mapped: it returns 0, and the byte is gone. -/
theorem consoleread_loses_byte : ∃ s, run State.step boot [.intr 0x61, .intr 0x0d] = some s ∧
    s.cons.queue = [0x61, newline] ∧
    (∃ d, consoleread 1 (fun _ => false) [(false, s.cons)] = some d ∧ d.result = 0 ∧
      d.taken = [0x61] ∧ ¬d.Exact) ∧
    ∃ s', s.step (.read 1 1 (fun _ => false) false) = some s' ∧ s'.returned = [⟨1, 0, []⟩] ∧
      s'.cons.queue = [newline] := by
  have hlost : ∀ d : Done, d.got = [] → d.taken = [0x61] → ¬d.Exact := by
    rintro d hgot htaken ⟨eof, h, -, heof⟩
    rw [hgot, htaken, List.nil_append] at h
    rcases heof with heof | ⟨heof, -⟩
    · exact absurd (h.trans heof) (by decide)
    · exact absurd (h.trans heof) (by decide)
  exact ⟨_, rfl, by decide, ⟨_, rfl, by decide, by decide, hlost _ (by decide) (by decide)⟩,
    _, rfl, by decide, by decide⟩

/-- The console when a line has been typed. -/
def typed : Cons := ((boot.cons.consoleintr 0x61).consoleintr 0x62).consoleintr carriageReturn

/-- A reader sleeps until the line has been typed, and takes it. -/
theorem consoleread_exact_iff_line : ∃ d,
    consoleread 10 (fun _ => true) [(false, boot.cons), (false, typed)] = some d ∧
    d.result = 3 ∧ d.taken = [0x61, 0x62, newline] ∧ d.Exact := by
  have hd : consoleread 10 (fun _ => true) [(false, boot.cons), (false, typed)] = some _ := rfl
  exact ⟨_, hd, by decide, by decide, (consoleread_exact_iff hd).mpr ⟨fun _ _ => rfl, by decide⟩⟩

end Xv6.Console
