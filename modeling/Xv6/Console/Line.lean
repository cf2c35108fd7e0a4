import Xv6.Console.Basic
import Xv6.Lib.Window

/-!
# The line discipline

What the console is for: a queue of bytes that readers may have, and a line that is being edited.
`Line` is that pair, with its own input and read operations, and `Repr` relates it to the ring with
its three wrapping indices.  `console_refines_line` says that the ring does what the pair does in
every run, for any number of readers.
-/

namespace Xv6
namespace Console

open Function List

/-- The bytes committed and the line being edited. -/
structure Line where
  queue : List Byte := []
  line : List Byte := []
deriving DecidableEq

namespace Line

/-- The number of bytes held. -/
def held (a : Line) : ℕ := a.queue.length + a.line.length

/-- Hand the line over to the readers. -/
def commit (a : Line) : Line := ⟨a.queue ++ a.line, []⟩

/-- Append a character, and commit if it ends the line or no more fits. -/
def append (ch : Byte) (a : Line) : Line :=
  let a : Line := { a with line := a.line ++ [ch] }
  if ch = newline ∨ ch = ctrlD ∨ a.held = INPUT_BUF_SIZE then a.commit else a

/-- A character typed. -/
def input (ch : Byte) (a : Line) : Line :=
  if ch = ctrlP then a
  else if ch = ctrlU then { a with line := [] }
  else if ch = ctrlH ∨ ch = delete then { a with line := a.line.dropLast }
  else if ch ≠ 0 ∧ a.held < INPUT_BUF_SIZE then
    a.append (if ch = carriageReturn then newline else ch)
  else a

/-- Bytes from the front of the queue, up to `n` of them: through a newline, or up to ^D.  The ^D is
taken only by a reader that has got nothing. -/
def read (killed : Bool) (target : ℕ) : ℕ → List Byte → List Byte → Outcome × List Byte
  | 0, got, q => (.ret target got, q)
  | n + 1, got, [] => if killed then (.ret (-1) got, []) else (.wait (n + 1) got, [])
  | n + 1, got, ch :: q =>
    if ch = ctrlD then (.ret (target - (n + 1)) got, if n + 1 < target then ch :: q else q)
    else if ch = newline then (.ret (target - n) (got ++ [ch]), q)
    else read killed target n (got ++ [ch]) q

end Line

/-- The state of the abstract console. -/
structure LineState where
  line : Line := {}
  readers : ℕ → Option Reader := fun _ => none
  returned : List Returned := []

namespace LineState

/-- The reader waits or its call is over. -/
def settle (pid target : ℕ) (copy : ℕ → Bool) (s : LineState) : Outcome × List Byte → LineState
  | (.wait n got, q) =>
    { s with
      line := ⟨q, s.line.line⟩
      readers := update s.readers pid (some ⟨target, copy, n, got⟩) }
  | (.ret result got, q) =>
    { line := ⟨q, s.line.line⟩
      readers := update s.readers pid none
      returned := s.returned ++ [⟨pid, result, got⟩] }

/-- One step of the abstract console. -/
def step (s : LineState) : Op → Option LineState
  | .intr ch => some { s with line := s.line.input ch }
  | .read pid n copy killed =>
    match s.readers pid with
    | some _ => none
    | none =>
      some (s.settle pid n.toNat copy (Line.read killed n.toNat n.toNat [] s.line.queue))
  | .resume pid killed =>
    match s.readers pid with
    | none => none
    | some rd =>
      some (s.settle pid rd.target rd.copy (Line.read killed rd.target rd.n rd.got s.line.queue))

end LineState

/-- The ring holds the queue and, behind it, the line. -/
structure Repr (c : Cons) (a : Line) : Prop where
  w_eq : c.w = c.r + BitVec.ofNat 32 a.queue.length
  e_eq : c.e = c.r + BitVec.ofNat 32 a.held
  held_le : a.held ≤ INPUT_BUF_SIZE
  holds : Holds INPUT_BUF_SIZE c.buf c.r (a.queue ++ a.line)
  -- a newline or ^D does not stay in the line
  plain : ∀ ch ∈ a.line, ch ≠ newline ∧ ch ≠ ctrlD

variable {c : Cons} {a : Line} {ch : Byte} {killed : Bool} {copy : ℕ → Bool} {target : ℕ}

lemma size_dvd : INPUT_BUF_SIZE ∣ 2 ^ 32 := by decide

lemma toNat_add_sub (r : BitVec 32) {n : ℕ} (hn : n < 2 ^ 32) :
    (r + BitVec.ofNat 32 n - r).toNat = n := by
  rw [BitVec.add_comm, BitVec.add_sub_cancel, BitVec.toNat_ofNat, Nat.mod_eq_of_lt hn]

namespace Repr

lemma held_lt (h : Repr c a) : a.held < 2 ^ 32 := lt_of_le_of_lt h.held_le (by decide)

lemma queue_le (a : Line) : a.queue.length ≤ a.held := Nat.le_add_right _ _

section

variable (h : Repr c a)
include h

/-- The differences of the indices are the numbers of bytes. -/
lemma sub_r : (c.e - c.r).toNat = a.held ∧ (c.w - c.r).toNat = a.queue.length := by
  rw [h.e_eq, h.w_eq]
  exact ⟨toNat_add_sub _ h.held_lt, toNat_add_sub _ (lt_of_le_of_lt (queue_le a) h.held_lt)⟩

/-- The edit index is at the write index when the line is empty. -/
lemma e_eq_w_iff : c.e = c.w ↔ a.line = [] := by
  obtain ⟨h₁, h₂⟩ := h.sub_r
  constructor
  · intro heq
    rw [heq, h₂, Line.held] at h₁
    exact eq_nil_of_length_eq_zero (by omega)
  · intro hl
    rw [h.e_eq, h.w_eq, Line.held, hl, length_nil, Nat.add_zero]

/-- The read index is at the write index when the queue is empty. -/
lemma r_eq_w_iff : c.r = c.w ↔ a.queue = [] := by
  obtain ⟨-, h₂⟩ := h.sub_r
  constructor
  · intro heq
    rw [heq, BitVec.sub_self] at h₂
    exact eq_nil_of_length_eq_zero h₂.symm
  · intro hq
    rw [h.w_eq, hq]
    simp

/-- Erasing takes the last byte of the line. -/
lemma erase (hl : a.line ≠ []) : Repr c.erase { a with line := a.line.dropLast } := by
  obtain ⟨l, b, hlb⟩ := a.line.eq_nil_or_concat.resolve_left hl
  rw [concat_eq_append] at hlb
  have hdrop : a.line.dropLast = l := by rw [hlb, dropLast_concat]
  have hlen : a.line.length = l.length + 1 := by rw [hlb]; simp
  have hle := h.held_le
  rw [hdrop]
  unfold Line.held at hle
  refine ⟨h.w_eq, ?_, ?_, ?_, fun x hx => h.plain x (by rw [hlb]; simp [hx])⟩
  · have he := h.e_eq
    change c.e - 1 = c.r + BitVec.ofNat 32 (a.queue.length + l.length)
    rw [he, Line.held, hlen, ← Nat.add_assoc, BitVec.ofNat_add, ← BitVec.add_assoc]
    exact BitVec.add_sub_cancel _ _
  · change a.queue.length + l.length ≤ _
    omega
  · have hh := h.holds
    rw [hlb, ← append_assoc] at hh
    exact hh.of_append

/-- The last byte of the line is the one before the edit index. -/
lemma charAt_last {l : List Byte} {b : Byte} (hl : a.line = l ++ [b]) : c.charAt (c.e - 1) = b := by
  have hh := h.holds
  rw [hl, ← append_assoc] at hh
  have hidx : c.e - 1 = c.r + BitVec.ofNat 32 (a.queue ++ l).length := by
    rw [h.e_eq, Line.held, hl, length_append, length_append, ← Nat.add_assoc,
      BitVec.ofNat_add, ← BitVec.add_assoc]
    exact BitVec.add_sub_cancel _ _
  rw [Cons.charAt, hidx]
  exact hh.getLast size_dvd

end

/-- Killing the line erases all of it: no newline is left in it to stop at. -/
lemma killLoop (n : ℕ) (h : Repr c a) (hn : a.line.length ≤ n) :
    Repr (Cons.killLoop n c) { a with line := [] } := by
  induction n generalizing c a with
  | zero =>
    obtain ⟨q, l⟩ := a
    obtain rfl : l = [] := eq_nil_of_length_eq_zero (Nat.le_zero.mp hn)
    exact h
  | succ n ih =>
    rw [Cons.killLoop]
    by_cases hl : a.line = []
    · rw [if_neg fun hc => hc.1 (h.e_eq_w_iff.mpr hl), ← hl]
      exact h
    · obtain ⟨l, b, hlb⟩ := a.line.eq_nil_or_concat.resolve_left hl
      rw [concat_eq_append] at hlb
      have hb := h.plain b (by rw [hlb]; simp)
      rw [if_pos ⟨fun he => hl (h.e_eq_w_iff.mp he), by rw [h.charAt_last hlb]; exact hb.1⟩]
      have hdrop : a.line.dropLast.length ≤ n := by
        rw [length_dropLast]
        omega
      exact ih (a := ⟨a.queue, a.line.dropLast⟩) (h.erase hl) hdrop

/-- Storing a character. -/
lemma store (h : Repr c a) (hroom : a.held < INPUT_BUF_SIZE) : Repr (Cons.store ch c) (a.append ch) := by
  have hheld : (a.queue ++ a.line).length = a.held := length_append
  have hpush := h.holds.push size_dvd (by rwa [hheld]) ch
  rw [hheld, ← h.e_eq, append_assoc] at hpush
  have hlen : ({ a with line := a.line ++ [ch] } : Line).held = a.held + 1 := by
    simp only [Line.held, length_append, length_singleton]
    omega
  have he : c.e + 1 = c.r + BitVec.ofNat 32 (a.held + 1) := by
    rw [h.e_eq, BitVec.ofNat_add, ← BitVec.add_assoc]
    rfl
  have hsub : (c.e + 1 - c.r).toNat = a.held + 1 := by
    rw [he]
    exact toNat_add_sub _ (lt_of_le_of_lt (Nat.succ_le_of_lt hroom) (by decide))
  unfold Cons.store Line.append
  dsimp only [Cons.consputc]
  rw [hsub, hlen]
  by_cases hend : ch = newline ∨ ch = ctrlD ∨ a.held + 1 = INPUT_BUF_SIZE
  · rw [if_pos hend, if_pos hend]
    have hq : (a.queue ++ (a.line ++ [ch])).length = a.held + 1 := by
      rw [← hlen, Line.held, length_append]
    refine ⟨?_, ?_, ?_, by simpa [Line.commit] using hpush, by simp [Line.commit]⟩
    · dsimp only [Line.commit]
      rw [hq, he]
    · dsimp only [Line.commit, Line.held]
      rw [hq, he]
      rfl
    · dsimp only [Line.commit, Line.held]
      rw [hq]
      exact hroom
  · rw [if_neg hend, if_neg hend]
    push Not at hend
    refine ⟨h.w_eq, by rw [hlen]; exact he, by rw [hlen]; exact hroom, hpush, fun x hx => ?_⟩
    rcases mem_append.mp hx with hx | hx
    · exact h.plain x hx
    · rw [mem_singleton.mp hx]
      exact ⟨hend.1, hend.2.1⟩

/-- A character typed. -/
lemma consoleintr (h : Repr c a) (ch : Byte) : Repr (c.consoleintr ch) (a.input ch) := by
  unfold Cons.consoleintr Line.input
  by_cases hp : ch = ctrlP
  · rw [if_pos hp, if_pos hp]
    exact h
  rw [if_neg hp, if_neg hp]
  by_cases hu : ch = ctrlU
  · rw [if_pos hu, if_pos hu]
    exact h.killLoop _ (le_trans (Nat.le_add_left _ _) h.held_le)
  rw [if_neg hu, if_neg hu]
  by_cases hd : ch = ctrlH ∨ ch = delete
  · rw [if_pos hd, if_pos hd]
    by_cases hl : a.line = []
    · rw [if_neg (not_not_intro (h.e_eq_w_iff.mpr hl)), hl, dropLast_nil, ← hl]
      exact h
    · rw [if_pos fun he => hl (h.e_eq_w_iff.mp he)]
      exact h.erase hl
  rw [if_neg hd, if_neg hd, h.sub_r.1]
  by_cases hroom : ch ≠ 0 ∧ a.held < INPUT_BUF_SIZE
  · rw [if_pos hroom, if_pos hroom]
    exact h.store hroom.2
  · rw [if_neg hroom, if_neg hroom]
    exact h

/-- Taking the byte in front. -/
lemma take {q : List Byte} (h : Repr c a) (hq : a.queue = ch :: q) :
    c.charAt c.r = ch ∧ Repr { c with r := c.r + 1 } ⟨q, a.line⟩ := by
  have hh := h.holds
  rw [hq, cons_append] at hh
  obtain ⟨hch, hrest⟩ := hh.cons size_dvd
  have hheld : a.held = q.length + a.line.length + 1 := by
    rw [Line.held, hq, length_cons]
    omega
  have hle := h.held_le
  refine ⟨hch, ?_, ?_, ?_, hrest, h.plain⟩
  · have hw := h.w_eq
    change c.w = c.r + 1 + BitVec.ofNat 32 q.length
    rw [hw, hq, length_cons, Nat.add_comm, BitVec.ofNat_add, ← BitVec.add_assoc]
    rfl
  · have he := h.e_eq
    change c.e = c.r + 1 + BitVec.ofNat 32 (q.length + a.line.length)
    rw [he, hheld, Nat.add_comm _ 1, BitVec.ofNat_add, ← BitVec.add_assoc]
    rfl
  · change q.length + a.line.length ≤ _
    omega

/-- A stretch of `consoleread`, when all copies succeed. -/
lemma readLoop (hcopy : ∀ i, copy i = true) (n : ℕ) (got : List Byte) (h : Repr c a) :
    (Console.readLoop killed copy target n got c).1 =
        (Line.read killed target n got a.queue).1 ∧
      Repr (Console.readLoop killed copy target n got c).2
        ⟨(Line.read killed target n got a.queue).2, a.line⟩ := by
  induction n generalizing c a got with
  | zero => exact ⟨rfl, h⟩
  | succ n ih =>
    obtain ⟨q, l⟩ := a
    rw [Console.readLoop]
    cases q with
    | nil =>
      rw [if_pos (h.r_eq_w_iff.mpr rfl), Line.read]
      cases killed <;> exact ⟨rfl, h⟩
    | cons ch q =>
      obtain ⟨hch, hrest⟩ := h.take rfl
      rw [if_neg fun hr => by simpa using h.r_eq_w_iff.mp hr, Line.read]
      dsimp only
      rw [hch]
      by_cases hd : ch = ctrlD
      · rw [if_pos hd, if_pos hd]
        refine ⟨rfl, ?_⟩
        by_cases hn : n + 1 < target
        · -- the index goes back over the ^D
          simp only [if_pos hn]
          have hback : c.r + 1 - 1 = c.r := BitVec.add_sub_cancel _ _
          rw [hback]
          exact h
        · simp only [if_neg hn]
          exact hrest
      rw [if_neg hd, if_neg hd, hcopy, if_neg (by decide)]
      by_cases hnl : ch = newline
      · rw [if_pos hnl, if_pos hnl]
        exact ⟨rfl, hrest⟩
      · rw [if_neg hnl, if_neg hnl]
        exact ih _ hrest

end Repr

/-! ## Runs -/

/-- The copies of a call to user memory all succeed. -/
def Op.Copies : Op → Prop
  | .read _ _ copy _ => ∀ i, copy i = true
  | _ => True

/-- The two systems are in related states. -/
structure Refines (s : State) (a : LineState) : Prop where
  repr : Repr s.cons a.line
  readers : s.readers = a.readers
  returned : s.returned = a.returned
  copies : ∀ pid rd, s.readers pid = some rd → ∀ i, rd.copy i = true

namespace Refines

variable {s t : State} {b : LineState} {op : Op} {ops : List Op}

lemma boot : Refines boot {} where
  repr := ⟨rfl, rfl, Nat.zero_le _, Holds.nil, by simp⟩
  readers := rfl
  returned := rfl
  copies := by simp [Console.boot]

/-- The outcome of a stretch of `consoleread` is recorded alike. -/
lemma settle (h : Refines s b) (pid : ℕ) (hcopy : ∀ i, copy i = true) {x : Outcome × Cons}
    {y : Outcome × List Byte} (ho : x.1 = y.1) (hr : Repr x.2 ⟨y.2, b.line.line⟩) :
    Refines (s.settle pid target copy x) (b.settle pid target copy y) := by
  obtain ⟨o, c'⟩ := x
  obtain ⟨o', q⟩ := y
  obtain rfl : o = o' := ho
  cases o with
  | wait n got =>
    refine ⟨hr, by simp [State.settle, LineState.settle, h.readers], h.returned, ?_⟩
    intro pid' rd hrd
    by_cases hp : pid' = pid
    · subst hp
      simp only [State.settle, update_self, Option.some.injEq] at hrd
      rw [← hrd]
      exact hcopy
    · simp only [State.settle, update_of_ne hp] at hrd
      exact h.copies pid' rd hrd
  | ret result got =>
    refine ⟨hr, by simp [State.settle, LineState.settle, h.readers],
      by simp [State.settle, LineState.settle, h.returned], ?_⟩
    intro pid' rd hrd
    by_cases hp : pid' = pid
    · subst hp
      simp [State.settle] at hrd
    · simp only [State.settle, update_of_ne hp] at hrd
      exact h.copies pid' rd hrd

lemma step (h : Refines s b) (hop : op.Copies) (hstep : s.step op = some t) :
    ∃ b', b.step op = some b' ∧ Refines t b' := by
  cases op with
  | intr ch =>
    obtain rfl := Option.some.inj hstep
    exact ⟨_, rfl, h.repr.consoleintr ch, h.readers, h.returned, h.copies⟩
  | read pid n copy killed =>
    cases hrd : s.readers pid with
    | some rd => simp [State.step, hrd] at hstep
    | none =>
      simp only [State.step, hrd, Option.some.injEq] at hstep
      subst hstep
      refine ⟨_, by rw [LineState.step, ← h.readers, hrd], ?_⟩
      obtain ⟨ho, hr⟩ := h.repr.readLoop hop n.toNat []
      exact h.settle pid hop ho hr
  | resume pid killed =>
    cases hrd : s.readers pid with
    | none => simp [State.step, hrd] at hstep
    | some rd =>
      simp only [State.step, hrd, Option.some.injEq] at hstep
      subst hstep
      have hcopy := h.copies pid rd hrd
      refine ⟨_, by rw [LineState.step, ← h.readers, hrd], ?_⟩
      obtain ⟨ho, hr⟩ := h.repr.readLoop hcopy rd.n rd.got
      exact h.settle pid hcopy ho hr

end Refines

/-- Typing a character never takes a byte away from the readers. -/
lemma queue_prefix_input (a : Line) (ch : Byte) : a.queue <+: (a.input ch).queue := by
  unfold Line.input
  split_ifs <;> try exact prefix_rfl
  all_goals
    unfold Line.append Line.commit
    dsimp only
    split_ifs
    · exact prefix_append _ _
    · exact prefix_rfl

/-- **The console's line discipline.**  In every run of characters typed and of calls of
`consoleread` whose copies succeed, the ring holds the queue and the line of the abstract console
after the same run, and the readers have got the same bytes and results.  The indices stay in order
modulo `2 ^ 32`, and a character typed never changes a byte that is still to be read. -/
theorem console_refines_line {ops : List Op} {s : State} (hops : ∀ op ∈ ops, op.Copies)
    (hrun : run State.step boot ops = some s) :
    ∃ a, run LineState.step {} ops = some a ∧ Refines s a ∧
      (s.cons.w - s.cons.r).toNat = a.line.queue.length ∧
      (s.cons.e - s.cons.r).toNat = a.line.held ∧ a.line.held ≤ INPUT_BUF_SIZE ∧
      ∀ ch, Repr (s.cons.consoleintr ch) (a.line.input ch) ∧
        a.line.queue <+: (a.line.input ch).queue := by
  obtain ⟨a, ha, h⟩ := run_simulation (fun _ _ _ _ h hop hstep => h.step hop hstep) Refines.boot hops
    hrun
  obtain ⟨he, hw⟩ := h.repr.sub_r
  exact ⟨a, ha, h, hw, he, h.repr.held_le, fun ch =>
    ⟨h.repr.consoleintr ch, queue_prefix_input a.line ch⟩⟩

/-- Two readers: one gets a line in two pieces, the other one finds an end of file. -/
def twoReaders : List Op :=
  [.read 1 3 (fun _ => true) false, .intr 0x68, .intr 0x69, .intr 0x0d, .resume 1 false,
    .intr 0x78, .intr 0x08, .intr 0x04, .read 2 9 (fun _ => true) false]

theorem console_refines_line_twoReaders :
    ∃ s a, run State.step boot twoReaders = some s ∧ run LineState.step {} twoReaders = some a ∧
      Refines s a ∧ s.returned = [⟨1, 3, [0x68, 0x69, 0x0a]⟩, ⟨2, 0, []⟩] := by
  have hrun : (run State.step boot twoReaders).isSome := by decide
  obtain ⟨s, hs⟩ := Option.isSome_iff_exists.mp hrun
  obtain ⟨a, ha, h, -⟩ := console_refines_line (by simp [twoReaders, Op.Copies]) hs
  refine ⟨s, a, hs, ha, h, ?_⟩
  have hret : (run State.step boot twoReaders).map State.returned =
      some [⟨1, 3, [0x68, 0x69, 0x0a]⟩, ⟨2, 0, []⟩] := by decide
  rw [hs] at hret
  exact Option.some.inj hret

end Console
end Xv6
