import Xv6.Grep.Match

/-!
# The lines that grep writes

`grep` of `user/grep.c`: it reads the input piece by piece into a buffer, handles the lines that are
complete and moves the rest to the start of the buffer.  However `read` splits the input, what it
writes are the lines that match.
-/

namespace Xv6.Grep

open Function List

def BUFSIZE : ℕ := 1024  -- `sizeof(buf)`

def newline : Byte := chr '\n'

/-- `buf`, and what has been written to standard output, one list for each call of `write`. -/
structure State where
  buf : Bytes
  out : List (List Byte) := []

/-- `strchr` on `buf`, of which `n` bytes are left. -/
def strchr (buf : Bytes) (c : Byte) : ℕ → ℕ → Except String (Option ℕ)
  | 0, _ => .error "buf: out of bounds"
  | n + 1, s =>
    if buf s = 0 then .ok none
    else if buf s = c then .ok (some s)
    else strchr buf c n (s + 1)

/-- The body of the inner loop, with a newline at `q`. -/
def doLine (re : CString) (p q : ℕ) (s : State) : State :=
  let buf := update s.buf q 0
  if matchRe re (.ofMem buf p (BUFSIZE - p)) then
    let buf : Bytes := update buf q newline
    { buf := buf, out := s.out ++ [buf.slice p (q + 1 - p)] }
  else { s with buf := buf }

/-- The inner loop, of at most `n` rounds; the result is `p`. -/
def lineLoop (re : CString) : ℕ → ℕ → State → Except String (ℕ × State)
  | 0, _, _ => .error "grep: too many lines"
  | n + 1, p, s => do
    match ← strchr s.buf newline (BUFSIZE - p) p with
    | none => return (p, s)
    | some q => lineLoop re n (q + 1) (doLine re p q s)

/-- The number of bytes that `read` returns: at least one, at most the `n` that it is asked for, and
none at the end of the input. -/
def readLen (want n : ℕ) (input : List Byte) : ℕ := min (want + 1) (min n input.length)

/-- `read` has put `t` at `buf + m`, and a NUL goes after it. -/
def store (m : ℕ) (t : List Byte) (s : State) : State :=
  { s with buf := update (s.buf.blit m (.ofList t) 0 t.length) (m + t.length) 0 }

/-- The end of a round: the part of a line from `p` on goes to the start of `buf`. -/
def carry (m p : ℕ) (s : State) : ℕ × State :=
  if 0 < m then (m - p, { s with buf := s.buf.blit 0 s.buf p (m - p) }) else (m, s)

/-- The loop of `grep`.  The `i`-th call of `read` returns what `want i` says. -/
def grepLoop (re : CString) (want : ℕ → ℕ) (i : ℕ) (input : List Byte) (m : ℕ) (s : State) :
    Except String State :=
  let n := readLen (want i) (BUFSIZE - m - 1) input
  if 0 < n then do
    if BUFSIZE ≤ m + n then throw "buf: out of bounds"
    let (p, s) ← lineLoop re BUFSIZE 0 (store m (input.take n) s)
    grepLoop re want (i + 1) (input.drop n) (carry (m + n) p s).1 (carry (m + n) p s).2
  else return s
  termination_by input.length
  decreasing_by
    rename_i h
    have hle : readLen (want i) (BUFSIZE - m - 1) input ≤ input.length :=
      (Nat.min_le_right _ _).trans (Nat.min_le_right _ _)
    rw [List.length_drop]
    omega

/-- `grep`. -/
def grep (re : CString) (want : ℕ → ℕ) (input : List Byte) (s : State) : Except String State :=
  grepLoop re want 0 input 0 s

/-! ## Lines -/

/-- The lines of a text that a newline ends, without it. -/
def lines (t : List Byte) : List (List Byte) := (t.splitOn newline).dropLast

/-- What follows the last newline. -/
def lastLine (t : List Byte) : List Byte := (t.splitOn newline).getLastD []

variable {w t c rest : List Byte}

lemma beq_newline (h : newline ∉ w) : ∀ b ∈ w, (b == newline) = false :=
  fun _ hb => beq_eq_false_iff_ne.mpr fun heq => h (heq ▸ hb)

lemma lines_of_notMem (h : newline ∉ t) : lines t = [] ∧ lastLine t = t := by
  have hsplit : t.splitOn newline = [t] := splitOnP_eq_singleton (beq_newline h)
  rw [lines, lastLine, hsplit]
  exact ⟨rfl, rfl⟩

lemma lines_append_cons (h : newline ∉ w) (t : List Byte) :
    lines (w ++ newline :: t) = w :: lines t ∧ lastLine (w ++ newline :: t) = lastLine t := by
  have hsplit : (w ++ newline :: t).splitOn newline = w :: t.splitOn newline :=
    splitOnP_append_cons_of_forall_mem (beq_newline h) newline (beq_self_eq_true _) t
  have hne : t.splitOn newline ≠ [] := splitOn_ne_nil newline t
  rw [lines, lines, lastLine, lastLine, hsplit, dropLast_cons_of_ne_nil hne]
  obtain ⟨a, l, hl⟩ := exists_cons_of_ne_nil hne
  rw [hl]
  exact ⟨rfl, rfl⟩

/-- A text is the part of a line, or a line and a text. -/
@[elab_as_elim]
theorem line_induction {motive : List Byte → Prop} (t : List Byte)
    (last : ∀ t, newline ∉ t → motive t)
    (line : ∀ w t, newline ∉ w → motive t → motive (w ++ newline :: t)) : motive t := by
  induction hn : t.length using Nat.strong_induction_on generalizing t with
  | _ n ih =>
  subst hn
  by_cases h : newline ∈ t
  · obtain ⟨w, t', rfl, hw⟩ := eq_append_cons_of_mem h
    refine line w t' hw (ih t'.length ?_ t' rfl)
    rw [length_append, length_cons]
    omega
  · exact last t h

lemma newline_notMem_lastLine (t : List Byte) : newline ∉ lastLine t := by
  induction t using line_induction with
  | last t h => rwa [(lines_of_notMem h).2]
  | line w t hw ih => rwa [(lines_append_cons hw t).2]

lemma lastLine_subset (t : List Byte) : lastLine t ⊆ t := by
  induction t using line_induction with
  | last t h =>
    rw [(lines_of_notMem h).2]
    exact fun _ h => h
  | line w t hw ih =>
    rw [(lines_append_cons hw t).2]
    exact fun _ h => mem_append_right _ (mem_cons_of_mem _ (ih h))

lemma lines_append (t r : List Byte) : lines (t ++ r) = lines t ++ lines (lastLine t ++ r) := by
  induction t using line_induction with
  | last t h => rw [(lines_of_notMem h).1, (lines_of_notMem h).2, nil_append]
  | line w t hw ih =>
    rw [append_assoc, cons_append, (lines_append_cons hw _).1, (lines_append_cons hw _).1,
      (lines_append_cons hw _).2, ih, cons_append]

/-! ## The buffer -/

section

variable {buf : Bytes} {p n : ℕ} {w : List Byte}

section

variable (hw : buf.slice p w.length = w)
include hw

/-- `strchr` goes past what is neither a newline nor the NUL. -/
lemma strchr_skip (hnl : newline ∉ w) (hnul : 0 ∉ w) (n : ℕ) :
    strchr buf newline (w.length + n) p = strchr buf newline n (p + w.length) := by
  induction w generalizing p with
  | nil => rw [length_nil, Nat.zero_add, Nat.add_zero]
  | cons b w ih =>
    rw [length_cons, Bytes.slice_succ] at hw
    obtain ⟨hb, hw⟩ := List.cons.inj hw
    rw [mem_cons, not_or] at hnl hnul
    rw [length_cons, Nat.add_right_comm, strchr, hb, if_neg (Ne.symm hnul.1),
      if_neg (Ne.symm hnl.1), ih hw hnl.2 hnul.2, Nat.add_assoc, Nat.add_comm 1]

/-- The newline that follows `w`. -/
lemma strchr_some (hnl : newline ∉ w) (hnul : 0 ∉ w)
    (hend : buf (p + w.length) = newline) (hn : w.length < n) :
    strchr buf newline n p = .ok (some (p + w.length)) := by
  obtain ⟨k, rfl⟩ := Nat.exists_eq_add_of_lt hn
  rw [Nat.add_assoc, strchr_skip hw hnl hnul, strchr, hend, if_neg (by decide), if_pos rfl]

/-- No newline. -/
lemma strchr_none (hnl : newline ∉ w) (hnul : 0 ∉ w)
    (hend : buf (p + w.length) = 0) (hn : w.length < n) : strchr buf newline n p = .ok none := by
  obtain ⟨k, rfl⟩ := Nat.exists_eq_add_of_lt hn
  rw [Nat.add_assoc, strchr_skip hw hnl hnul, strchr, hend, if_pos rfl]

end

end

/-- What `grep` writes for some lines. -/
def written (re : CString) (ls : List (List Byte)) : List (List Byte) :=
  (ls.filter fun l => matchRe re (.ofList l)).map (· ++ [newline])

variable {re : CString} {s : State} {p : ℕ}

lemma written_append (ls ls' : List (List Byte)) :
    written re (ls ++ ls') = written re ls ++ written re ls' := by
  rw [written, filter_append, map_append, written, written]

/-- A line is written if it matches, and what follows it stays. -/
lemma doLine_spec (re : CString) (hw : s.buf.slice p w.length = w) (hnul : 0 ∉ w)
    (hend : s.buf (p + w.length) = newline) (hp : p + w.length < BUFSIZE) :
    (doLine re p (p + w.length) s).out = s.out ++ written re [w] ∧
      ∀ i, p + w.length < i → (doLine re p (p + w.length) s).buf i = s.buf i := by
  have hslice : Bytes.slice (update s.buf (p + w.length) 0) p w.length = w := by
    rw [← hw, Bytes.length_slice]
    exact Bytes.slice_congr fun i _ hi => update_of_ne (by omega) _ _
  have hstr :
      CString.ofMem (update s.buf (p + w.length) 0) p (BUFSIZE - p) = .ofList w := by
    rw [CString.ofMem_eq (by omega) (update_self _ _ _) (hslice.symm ▸ hnul), hslice]
  rw [doLine]
  dsimp only
  rw [hstr, update_idem, ← hend, update_eq_self]
  cases hm : matchRe re (.ofList w) with
  | false =>
    refine ⟨?_, fun i hi => update_of_ne (by omega) _ _⟩
    simp [written, hm]
  | true =>
    refine ⟨?_, fun i _ => rfl⟩
    have hline : s.buf.slice p (p + w.length + 1 - p) = w ++ [newline] := by
      rw [show p + w.length + 1 - p = w.length + 1 by omega, Bytes.slice_add, hw,
        Bytes.slice_succ, hend]
      rfl
    simp [written, hm, hline]

/-- The inner loop handles the lines of `t` and stops at the start of the last part. -/
lemma lineLoop_spec (re : CString) (t : List Byte) {n : ℕ} (ht : s.buf.slice p t.length = t)
    (hnul : 0 ∉ t) (hend : s.buf (p + t.length) = 0) (hp : p + t.length < BUFSIZE) (hn : t.length < n) :
    ∃ p' s', lineLoop re n p s = .ok (p', s') ∧ p' + (lastLine t).length = p + t.length ∧
      s'.buf.slice p' (lastLine t).length = lastLine t ∧
      s'.out = s.out ++ written re (lines t) := by
  induction t using line_induction generalizing s p n with
  | last t h =>
    obtain ⟨k, rfl⟩ := Nat.exists_eq_add_of_lt hn
    rw [(lines_of_notMem h).1, (lines_of_notMem h).2, lineLoop,
      strchr_none ht h hnul hend (by omega)]
    exact ⟨p, s, rfl, rfl, ht, (append_nil _).symm⟩
  | line w t hw ih =>
    rw [mem_append, mem_cons, not_or, not_or] at hnul
    have hlen : (w ++ newline :: t).length = w.length + (1 + t.length) := by
      rw [length_append, length_cons, Nat.add_comm 1]
    rw [hlen, Bytes.slice_add, Nat.add_comm 1, Bytes.slice_succ] at ht
    obtain ⟨hwt, ht⟩ := append_inj ht (Bytes.length_slice _ _ _)
    obtain ⟨hnl, ht⟩ := List.cons.inj ht
    rw [hlen] at hend hp hn
    obtain ⟨k, rfl⟩ : ∃ k, n = k + 1 := ⟨n - 1, by omega⟩
    obtain ⟨hout, hframe⟩ := doLine_spec re hwt hnul.1 hnl (by omega)
    obtain ⟨p', s', hloop, hp', hslice, hout'⟩ := ih (s := doLine re p (p + w.length) s)
      (p := p + w.length + 1) (n := k)
      ((Bytes.slice_congr fun i hi _ => hframe i hi).trans ht) hnul.2.2
      (by rw [hframe _ (by omega), ← hend]; congr 1; omega) (by omega) (by omega)
    rw [(lines_append_cons hw t).1, (lines_append_cons hw t).2, lineLoop,
      strchr_some hwt hw hnul.1 hnl (by omega)]
    refine ⟨p', s', hloop, by omega, hslice, ?_⟩
    rw [hout', hout, append_assoc, ← written_append, singleton_append]

/-- No line is complete in a full buffer. -/
lemma lines_eq_nil (hc : newline ∉ c)
    (hlen : ∀ l ∈ lines (c ++ rest), l.length < c.length) : lines (c ++ rest) = [] := by
  by_cases h : newline ∈ rest
  · obtain ⟨w, t, rfl, hw⟩ := eq_append_cons_of_mem h
    have hcw : newline ∉ c ++ w := fun h => (mem_append.mp h).elim hc hw
    rw [← append_assoc, (lines_append_cons hcw t).1] at hlen
    have := hlen (c ++ w) mem_cons_self
    rw [length_append] at this
    omega
  · exact (lines_of_notMem fun hm => (mem_append.mp hm).elim hc h).1

lemma carry_eq {m p : ℕ} (hm : 0 < m) :
    carry m p s = (m - p, { s with buf := s.buf.blit 0 s.buf p (m - p) }) := if_pos hm

/-- The buffer before the inner loop: the part of a line that was there, and what has been read. -/
lemma slice_store (hc : s.buf.slice 0 c.length = c) :
    (store c.length t s).buf.slice 0 (c ++ t).length = c ++ t := by
  rw [length_append, Bytes.slice_add, Nat.zero_add]
  congr 1
  · refine Eq.trans (Bytes.slice_congr fun i _ hi => ?_) hc
    exact (update_of_ne (by omega) _ _).trans (Bytes.blit_of_notMem (by omega))
  · refine Eq.trans (Bytes.slice_congr fun i _ hi => update_of_ne (by omega) _ _) ?_
    rw [Bytes.slice_blit, Bytes.slice_ofList]

/-- From a round of the loop on, with the part `c` of a line in the buffer. -/
lemma grepLoop_spec {want : ℕ → ℕ} {i : ℕ} (hc : s.buf.slice 0 c.length = c)
    (hnl : newline ∉ c) (hfits : c.length < BUFSIZE) (hnul : 0 ∉ c ++ rest)
    (hlen : ∀ l ∈ lines (c ++ rest), l.length + 1 < BUFSIZE) :
    ∃ s', grepLoop re want i rest c.length s = .ok s' ∧
      s'.out = s.out ++ written re (lines (c ++ rest)) := by
  induction hl : rest.length using Nat.strong_induction_on generalizing i rest c s with
  | _ len ih =>
  subst hl
  rw [grepLoop]
  dsimp only
  generalize hn : readLen (want i) (BUFSIZE - c.length - 1) rest = n
  have hreq : n ≤ BUFSIZE - c.length - 1 := hn ▸ (Nat.min_le_right _ _).trans (Nat.min_le_left _ _)
  have hrest : n ≤ rest.length := hn ▸ (Nat.min_le_right _ _).trans (Nat.min_le_right _ _)
  by_cases hpos : 0 < n
  · obtain ⟨t, rest, rfl, rfl⟩ : ∃ t r, t.length = n ∧ rest = t ++ r :=
      ⟨rest.take n, rest.drop n, length_take_of_le hrest, (take_append_drop n rest).symm⟩
    rw [← append_assoc, lines_append] at hlen ⊢
    rw [← append_assoc] at hnul
    have hlt : (c ++ t).length < BUFSIZE := by
      rw [length_append]
      omega
    obtain ⟨p', s', hloop, hp', hslice, hout⟩ := lineLoop_spec re (c ++ t) (slice_store hc)
      (fun h => hnul (mem_append_left _ h))
      (by rw [Nat.zero_add, length_append]; exact update_self _ _ _)
      (by rwa [Nat.zero_add]) hlt
    rw [Nat.zero_add, length_append] at hp'
    have hleft : c.length + t.length - p' = (lastLine (c ++ t)).length := by omega
    have hlast : 0 ∉ lastLine (c ++ t) ++ rest := fun h => hnul ((mem_append.mp h).elim
      (fun h => mem_append_left _ (lastLine_subset _ h)) (mem_append_right _))
    obtain ⟨s'', hrun, hout'⟩ := ih rest.length (by rw [length_append]; omega)
      (s := { s' with buf := s'.buf.blit 0 s'.buf p' (lastLine (c ++ t)).length })
      ((Bytes.slice_blit _ _ _ _ _).trans hslice) (newline_notMem_lastLine _) (by omega) hlast
      (fun l hl => hlen l (mem_append_right _ hl)) rfl
    refine ⟨s'', ?_, ?_⟩
    · rw [if_pos hpos, if_neg (by omega), take_left, drop_left, hloop]
      change grepLoop re want (i + 1) rest (carry (c.length + t.length) p' s').1
        (carry (c.length + t.length) p' s').2 = .ok s''
      rw [carry_eq (by omega), hleft]
      exact hrun
    · rw [hout', written_append, ← append_assoc]
      exact congrArg (· ++ _) hout
  · rw [if_neg hpos]
    refine ⟨s, rfl, ?_⟩
    suffices h : lines (c ++ rest) = [] by rw [h]; exact (append_nil _).symm
    have hn0 : min (want i + 1) (min (BUFSIZE - c.length - 1) rest.length) = 0 := by
      rw [← Nat.eq_zero_of_not_pos hpos, ← hn, readLen]
    by_cases hfull : c.length + 1 = BUFSIZE
    · exact lines_eq_nil hnl fun l hl => by have := hlen l hl; omega
    · have hnil : rest = [] := eq_nil_of_length_eq_zero (by omega)
      rw [hnil, append_nil]
      exact (lines_of_notMem hnl).1

/-- **What grep writes does not depend on how its input arrives.**  However `read` splits an input
whose lines fit into the buffer, grep writes the lines that match, each with its newline. -/
theorem grep_writes_matching_lines (re : CString) (want : ℕ → ℕ) (input : List Byte) (buf : Bytes)
    (hnul : 0 ∉ input) (hlen : ∀ l ∈ lines input, (l ++ [newline]).length ≤ BUFSIZE - 1) :
    ∃ s, grep re want input { buf := buf } = .ok s ∧
      s.out = ((lines input).filter fun l => matchRe re (.ofList l)).map (· ++ [newline]) := by
  obtain ⟨s, hs, hout⟩ := grepLoop_spec (c := []) (s := { buf := buf }) rfl
    List.not_mem_nil (by decide) hnul fun l hl => by
      have := hlen l hl
      rw [List.length_append, List.length_singleton] at this
      unfold BUFSIZE at *
      omega
  exact ⟨s, hs, hout⟩

/-- The text of `printf 'ab\nc\nd' | grep b`, read byte by byte. -/
theorem grep_writes_matching_lines_bytewise :
    let input := ['a', 'b', '\n', 'c', '\n', 'd'].map chr
    let re := CString.ofList [chr 'b']
    (0 ∉ input ∧ ∀ l ∈ lines input, (l ++ [newline]).length ≤ BUFSIZE - 1) ∧
      ∃ s, grep re (fun _ => 0) input { buf := fun _ => 0 } = .ok s ∧
        s.out = ((lines input).filter fun l => matchRe re (.ofList l)).map (· ++ [newline]) :=
  ⟨by decide, grep_writes_matching_lines _ _ _ _ (by decide) (by decide)⟩

end Xv6.Grep
