import Xv6.Sh.Parser

/-!
# Words and their NUL bytes

`nulterminate` ends the words of a command in place, with a NUL byte that overwrites what follows a
word in the line.  `Cmd.places` are the places of all the words that a command points to: the
arguments and the file names of redirections, for every nesting of commands.
-/

namespace Xv6.Sh

variable {s : List Byte}

/-- The places of the words of an `execcmd`, from the `i`-th on. -/
def ExecCmd.places (cmd : ExecCmd) : ℕ → ℕ → List (ℕ × ℕ)
  | 0, _ => []
  | n + 1, i =>
    match cmd.argv i, cmd.eargv i with
    | some q, some eq => (q, eq) :: cmd.places n (i + 1)
    | _, _ => []

/-- The starts and the ends of all the words that a command points to. -/
def Cmd.places : Cmd → List (ℕ × ℕ)
  | .exec cmd => cmd.places MAXARGS 0
  | .redir cmd r => cmd.places ++ [(r.file, r.efile)]
  | .pipe left right => left.places ++ right.places
  | .list left right => left.places ++ right.places
  | .back cmd => cmd.places

variable {cmd : ExecCmd} {l : List (ℕ × ℕ)} {n i : ℕ} {c : Cmd}

lemma Holds.places (h : Holds cmd l)
    (hnone : cmd.argv l.length = none) (hi : i ≤ l.length) (hn : l.length < i + n) :
    cmd.places n i = l.drop i := by
  induction n generalizing i with
  | zero => omega
  | succ n ih =>
    by_cases hlt : i < l.length
    · obtain ⟨harg, heargv⟩ := h i hlt
      rw [ExecCmd.places, harg, heargv, List.drop_eq_getElem_cons hlt]
      dsimp only
      rw [ih hlt (by omega)]
    · obtain rfl : i = l.length := by omega
      rw [ExecCmd.places, hnone, List.drop_length]

/-- Every place of a command is that of a word of the line. -/
lemma Cmd.Ok.wordAt (h : c.Ok s) : ∀ x ∈ c.places, ∃ w, WordAt s x.1 x.2 w := by
  induction c with
  | exec cmd =>
    obtain ⟨l, hl, hnone, hlen, hwords⟩ := h
    rw [Cmd.places, hl.places hnone (Nat.zero_le _) (by omega), List.drop_zero]
    exact hwords
  | redir cmd r ih =>
    intro x hx
    rcases List.mem_append.mp hx with hx | hx
    · exact ih h.1 x hx
    · rw [List.mem_singleton.mp hx]
      exact h.2
  | pipe left right ihl ihr | list left right ihl ihr =>
    intro x hx
    exact (List.mem_append.mp hx).elim (ihl h.1 x) (ihr h.2 x)
  | back cmd ih => exact ih h

/-! ## `nulterminate` -/

/-- The memory `m` with NUL bytes at the offsets `ends`. -/
def zeroed (m : Bytes) (ends : List ℕ) : Bytes := fun i => if i ∈ ends then 0 else m i

lemma zeroed_nil (m : Bytes) : zeroed m [] = m := funext fun _ => if_neg List.not_mem_nil

lemma zeroed_zeroed (m : Bytes) (l l' : List ℕ) : zeroed (zeroed m l) l' = zeroed m (l ++ l') := by
  funext i
  simp only [zeroed, List.mem_append]
  split_ifs <;> simp_all

lemma update_eq_zeroed (m : Bytes) (e : ℕ) : Function.update m e 0 = zeroed m [e] := by
  funext i
  rw [zeroed, Function.update_apply]
  simp only [List.mem_singleton]

lemma nulArgs_eq (h : Holds cmd l)
    (hnone : cmd.argv l.length = none) (hi : i ≤ l.length) (hn : l.length < i + n)
    (m : Bytes) : nulArgs cmd n i m = .ok (zeroed m ((cmd.places n i).map Prod.snd)) := by
  induction n generalizing i m with
  | zero => omega
  | succ n ih =>
    by_cases hlt : i < l.length
    · obtain ⟨harg, heargv⟩ := h i hlt
      rw [nulArgs, ExecCmd.places, harg, heargv]
      dsimp only
      rw [ih hlt (by omega), update_eq_zeroed, zeroed_zeroed]
      rfl
    · obtain rfl : i = l.length := by omega
      rw [nulArgs, ExecCmd.places, hnone]
      exact congrArg Except.ok (zeroed_nil m).symm

/-- `nulterminate` stores a NUL byte at the end of every word, and nothing else. -/
lemma nulterminate_eq (h : c.Ok s) (m : Bytes) :
    nulterminate c m = .ok (zeroed m (c.places.map Prod.snd)) := by
  induction c generalizing m with
  | exec cmd =>
    obtain ⟨l, hl, hnone, hlen, -⟩ := h
    exact nulArgs_eq hl hnone (Nat.zero_le _) (by omega) m
  | redir cmd r ih =>
    rw [nulterminate, ih h.1]
    simp only [Cmd.places, List.map_append, ← zeroed_zeroed, List.map_cons, List.map_nil,
      ← update_eq_zeroed]
    rfl
  | pipe left right ihl ihr | list left right ihl ihr =>
    rw [nulterminate, ihl h.1]
    simp only [Cmd.places, List.map_append, ← zeroed_zeroed]
    exact ihr h.2 _
  | back cmd ih => exact ih h m

lemma cstring_zeroed (hs : 0 ∉ s) {ends : List ℕ} {q eq : ℕ} {w : List Byte} (h : WordAt s q eq w)
    (heq : eq ∈ ends) (hends : ∀ e ∈ ends, e = s.length ∨ isWord (byteAt s e) = false) :
    cstring (zeroed (byteAt s) ends) (s.length + 1) q = slice s q eq := by
  refine cstring_word hs h (fun i => ?_) (if_pos heq) (Nat.le_succ _)
  by_cases hi : i ∈ ends
  · exact Or.inr ⟨if_pos hi, hends i hi⟩
  · exact Or.inl (if_neg hi)

/-- **Words survive termination in place.**  After `parsecmd` the C string at the start of every
word that the command points to, in whatever command it stands, is the text that the line had
between the start and the end of the word.  The bytes stored are the NULs at the ends of the words:
they are inside the line or at its NUL, and belong to no word. -/
theorem words_survive_termination (hs : 0 ∉ s) {cmd : Cmd} {m : Bytes}
    (h : parsecmd s = .ok (cmd, m)) :
    (∀ x ∈ cmd.places, x.1 ≤ x.2 ∧ cstring m (s.length + 1) x.1 = slice s x.1 x.2) ∧
    m = zeroed (byteAt s) (cmd.places.map Prod.snd) ∧
    ∀ e ∈ cmd.places.map Prod.snd, e ≤ s.length ∧ (e = s.length ∨ isWord (byteAt s e) = false) ∧
      ∀ x ∈ cmd.places, ¬(x.1 ≤ e ∧ e < x.2) := by
  obtain ⟨t, cmd', m', -, hok, hparsed, hm⟩ | ⟨-, e, -, herr⟩ := parsecmd_cases hs
  · obtain ⟨rfl, rfl⟩ := Prod.mk.inj (Except.ok.inj (h.symm.trans hok))
    have hmem : m = zeroed (byteAt s) (cmd.places.map Prod.snd) :=
      Except.ok.inj (hm.symm.trans (nulterminate_eq hparsed.2 _))
    have hword := hparsed.2.wordAt
    have hends : ∀ e ∈ cmd.places.map Prod.snd, e = s.length ∨ isWord (byteAt s e) = false := by
      intro e he
      obtain ⟨x, hx, rfl⟩ := List.mem_map.mp he
      obtain ⟨w, hw⟩ := hword x hx
      exact hw.stop
    refine ⟨fun x hx => ?_, hmem, fun e he => ⟨?_, hends e he, fun x hx hin => ?_⟩⟩
    · obtain ⟨w, hw⟩ := hword x hx
      rw [hmem]
      exact ⟨hw.le, cstring_zeroed hs hw (List.mem_map_of_mem hx) hends⟩
    · obtain ⟨x, hx, rfl⟩ := List.mem_map.mp he
      obtain ⟨w, hw⟩ := hword x hx
      exact hw.le_length
    · obtain ⟨w, hw⟩ := hword x hx
      have hle := hw.le_length
      rcases hends e he with h | h
      · omega
      · rw [hw.isWord e hin.1 hin.2] at h
        cases h
  · exact absurd (h.symm.trans herr) nofun

/-- The line `a>f;b`, whose words touch the operators. -/
theorem words_survive_termination_touching : ∃ cmd m,
    parsecmd [97, 62, 102, 59, 98] = .ok (cmd, m) ∧ cmd.places = [(0, 1), (2, 3), (4, 5)] ∧
    ∀ x ∈ cmd.places, cstring m 6 x.1 = slice [97, 62, 102, 59, 98] x.1 x.2 := by
  have hplaces : (match parsecmd [97, 62, 102, 59, 98] with
      | .ok (cmd, _) => some cmd.places
      | .error _ => none) = some [(0, 1), (2, 3), (4, 5)] := by decide +kernel
  cases h : parsecmd [97, 62, 102, 59, 98] with
  | error e =>
    rw [h] at hplaces
    cases hplaces
  | ok r =>
    rw [h] at hplaces
    exact ⟨r.1, r.2, rfl, Option.some.inj hplaces, fun x hx =>
      ((words_survive_termination (by decide) h).1 x hx).2⟩

end Xv6.Sh
