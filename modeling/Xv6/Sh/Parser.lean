import Xv6.Sh.Predict

/-!
# The parser accepts its grammar

The functions of `user/sh.c` do on the bytes of the line what the functions of `Xv6.Sh.Predict` do on
its tokens (`sim`).  Together with `nulterminate`, which ends all the words with NUL bytes and touches
no other one, this gives the theorem about `parsecmd`.
-/

namespace Xv6.Sh

open Function List

variable {s : List Byte} {p : ℕ} {ts : List Token}

@[simp] lemma wp_liftExcept {α : Type} (x : Except String α) {Q : α → ℕ → Prop} {E : String → Prop} :
    wp (liftM x : ParseM α) Q E p ↔ match x with
      | .ok a => Q a p
      | .error e => E e := by
  cases x <;> rfl

/-! ## Commands and trees -/

/-- The bytes between two offsets. -/
def slice (s : List Byte) (q eq : ℕ) : List Byte := (s.drop q).take (eq - q)

/-- The array points to the words at the offsets `l`. -/
def Holds (cmd : ExecCmd) (l : List (ℕ × ℕ)) : Prop :=
  ∀ i (hi : i < l.length), cmd.argv i = some l[i].1 ∧ cmd.eargv i = some l[i].2

/-- All the strings of a command are words of the line. -/
def Cmd.Ok (s : List Byte) : Cmd → Prop
  | .exec cmd => ∃ l, Holds cmd l ∧ cmd.argv l.length = none ∧ l.length < MAXARGS ∧
      ∀ x ∈ l, ∃ w, WordAt s x.1 x.2 w
  | .redir cmd r => cmd.Ok s ∧ ∃ w, WordAt s r.file r.efile w
  | .pipe left right => left.Ok s ∧ right.Ok s
  | .list left right => left.Ok s ∧ right.Ok s
  | .back cmd => cmd.Ok s

/-- The command `c` stands for the tree `t`. -/
def Parsed (s : List Byte) (c : Cmd) (t : Tree) : Prop := c.tree (slice s) = some t ∧ c.Ok s

variable {cmd : ExecCmd} {l : List (ℕ × ℕ)} {n i q : ℕ} {c : Cmd} {t : Tree} {rs : List Redir}
  {m m' : Bytes} {w : List Byte}

lemma Holds.words (h : Holds cmd l)
    (hnone : cmd.argv l.length = none) (read : ℕ → ℕ → List Byte) (hi : i ≤ l.length)
    (hn : l.length < i + n) :
    cmd.words read n i = some ((l.drop i).map fun x => read x.1 x.2) := by
  induction n generalizing i with
  | zero => omega
  | succ n ih =>
    by_cases hlt : i < l.length
    · obtain ⟨harg, heargv⟩ := h i hlt
      rw [ExecCmd.words, harg, heargv, drop_eq_getElem_cons hlt]
      dsimp only
      rw [ih hlt (by omega)]
      rfl
    · obtain rfl : i = l.length := by omega
      simp [ExecCmd.words, hnone]

/-- The redirection that `redircmd` makes. -/
def Redir.abs (s : List Byte) (r : Redir) : List Byte × ℕ × ℕ := (slice s r.file r.efile, r.mode, r.fd)

lemma Parsed.wrap (h : Parsed s c t) (rs : List Redir)
    (hrs : ∀ r ∈ rs, ∃ w, WordAt s r.file r.efile w) :
    Parsed s (wrap c rs) (t.wrap (rs.map (Redir.abs s))) := by
  induction rs generalizing c t with
  | nil => exact h
  | cons r rs ih =>
    refine ih (c := .redir c r) ⟨?_, h.2, hrs r (by simp)⟩ fun r' hr' => hrs r' (by simp [hr'])
    simp [Cmd.tree, h.1, Redir.abs]

lemma Parsed.back (h : Parsed s c t) (k : ℕ) :
    Parsed s (Cmd.back^[k] c) (Tree.back^[k] t) := by
  induction k generalizing c t with
  | zero => exact h
  | succ k ih => exact ih (c := .back c) ⟨by simp [Cmd.tree, h.1], h.2⟩

/-! ## Loops -/

lemma code_eq_a {tok : Token} : tok.code = ch 'a' ↔ ∃ w, tok = .word w := by
  cases tok <;> simp [Token.code] <;> decide

lemma code_ne_zero (tok : Token) : tok.code ≠ 0 := by
  cases tok <;> simp only [Token.code] <;> decide

lemma ahead_redir (tok : Token) (ts : List Token) :
    ahead [ch '<', ch '>'] (tok :: ts) = tok.redirMode.isSome := by cases tok <;> rfl

/-- The redirection for a token. -/
def Token.redir (tok : Token) (q eq : ℕ) : Redir :=
  match tok.redirMode with
  | some (mode, fd) => ⟨q, eq, mode, fd⟩
  | none => ⟨q, eq, 0, 0⟩

lemma parseredirs_spec (hs : 0 ∉ s) (n : ℕ) {p : ℕ} {ts : List Token}
    (h : At s p ts) (hn : ts.length < n) (hrs : ∀ r ∈ rs, ∃ w, WordAt s r.file r.efile w) :
    wp (parseredirs s s.length n rs) (fun rs' p' => ∃ ds rest, takeRedirs ts = some (ds, rest) ∧
        At s p' rest ∧ rs'.map (Redir.abs s) = rs.map (Redir.abs s) ++ ds ∧
        ∀ r ∈ rs', ∃ w, WordAt s r.file r.efile w)
      (fun e => e ∈ panics ∧ takeRedirs ts = none) p := by
  induction n generalizing p ts rs with
  | zero => omega
  | succ n ih =>
    simp only [parseredirs, wp_bind]
    refine (Returns.wp (peek_spec hs h (by decide))).imp ?_
    rintro _ p₁ ⟨rfl, h₁⟩
    cases ts with
    | nil => exact ⟨[], [], rfl, h₁, by simp, hrs⟩
    | cons tok us =>
      rw [ahead_redir]
      cases hmode : tok.redirMode with
      | none => exact ⟨[], tok :: us, by simp [takeRedirs, hmode], h₁, by simp, hrs⟩
      | some m =>
        rw [wp_ite_neg (by simp), wp_bind]
        refine (Returns.wp (gettoken_cons hs h₁)).imp ?_
        rintro r₂ p₂ ⟨hcode, h₂, _⟩
        rw [wp_bind]
        cases us with
        | nil =>
          refine (Returns.wp (gettoken_nil h₂)).imp ?_
          rintro r₃ p₃ ⟨hr₃, h₃⟩
          rw [hr₃, wp_ite_pos (by decide)]
          exact ⟨by decide, by simp [takeRedirs, hmode]⟩
        | cons tok' vs =>
          refine (Returns.wp (gettoken_cons hs h₂)).imp ?_
          rintro r₃ p₃ ⟨hcode₃, h₃, hword⟩
          by_cases hw : ∃ w, tok' = .word w
          · obtain ⟨w, rfl⟩ := hw
            have hat := hword w rfl
            rw [wp_ite_neg (by simp [hcode₃, Token.code]), hcode]
            have hnext : wp (parseredirs s s.length n (rs ++ [⟨r₃.2.1, r₃.2.2, m.1, m.2⟩])) (fun rs' p' =>
                ∃ ds rest, takeRedirs (tok :: .word w :: vs) = some (ds, rest) ∧ At s p' rest ∧
                  rs'.map (Redir.abs s) = rs.map (Redir.abs s) ++ ds ∧
                  ∀ r ∈ rs', ∃ w, WordAt s r.file r.efile w)
                (fun e => e ∈ panics ∧ takeRedirs (tok :: .word w :: vs) = none) p₃ := by
              refine (ih h₃ (by simp at hn; omega) fun r hr => ?_).mono ?_ fun e he =>
                ⟨he.1, by simp [takeRedirs, hmode, he.2]⟩
              · rcases mem_append.mp hr with hr | hr
                · exact hrs r hr
                · obtain rfl := mem_singleton.mp hr
                  exact ⟨w, hat⟩
              · rintro rs' p' ⟨ds, rest, htake, hat', hmap, hok⟩
                refine ⟨(w, m) :: ds, rest, by simp [takeRedirs, hmode, htake], hat', ?_, hok⟩
                simp [hmap, Redir.abs, slice, hat.word]
            cases tok with
            | lt | gt | gtgt =>
              obtain rfl := Option.some.inj hmode
              exact hnext
            | _ => cases hmode
          · rw [wp_ite_pos (by rw [hcode₃]; exact fun heq => hw (code_eq_a.mp heq))]
            refine ⟨by decide, ?_⟩
            rw [takeRedirs, hmode]
            cases tok' <;> first | rfl | exact absurd ⟨_, rfl⟩ hw

lemma Holds.set (h : Holds cmd l) (q eq : ℕ) :
    Holds { argv := update cmd.argv l.length (some q)
            eargv := update cmd.eargv l.length (some eq) } (l ++ [(q, eq)]) := by
  intro i hi
  by_cases hlt : i < l.length
  · obtain ⟨harg, heargv⟩ := h i hlt
    simp [update_of_ne (Nat.ne_of_lt hlt), harg, heargv, hlt]
  · obtain rfl : i = l.length := by
      simp at hi
      omega
    simp

/-- At the end `parseexec` puts null pointers after the words. -/
lemma execDone_spec (h : Holds cmd l)
    (hlen : l.length < MAXARGS) (hl : ∀ x ∈ l, ∃ w, WordAt s x.1 x.2 w)
    (hrs : ∀ r ∈ rs, ∃ w, WordAt s r.file r.efile w) :
    Returns (execDone cmd l.length rs) (fun c p' => p' = p ∧
      Parsed s c (Tree.wrap (.exec (l.map fun x => slice s x.1 x.2)) (rs.map (Redir.abs s)))) p := by
  simp only [Returns, execDone, wp_bind, wp_liftExcept, setArg, if_pos hlen, wp_pure]
  refine ⟨trivial, Parsed.wrap ?_ rs hrs⟩
  have hholds : Holds { argv := update cmd.argv l.length none
                        eargv := update cmd.eargv l.length none } l := by
    intro i hi
    simpa [update_of_ne (Nat.ne_of_lt hi)] using h i hi
  refine ⟨?_, l, hholds, by simp, hlen, hl⟩
  rw [Cmd.tree, hholds.words (by simp) _ (Nat.zero_le _) (by omega)]
  rfl

/-- `parseexec` has read the words `l` and the redirections `rs`, and makes `c` of them and of `ts`. -/
def Executes (s : List Byte) (l : List (ℕ × ℕ)) (rs : List Redir) (ts : List Token) (c : Cmd)
    (p' : ℕ) : Prop :=
  ∃ ws ds rest, takeArgs (MAXARGS - 1 - l.length) ts = some (ws, ds, rest) ∧ At s p' rest ∧
    Parsed s c (Tree.wrap (.exec ((l.map fun x => slice s x.1 x.2) ++ ws))
      (rs.map (Redir.abs s) ++ ds))

lemma execLoop_spec (hs : 0 ∉ s) (n : ℕ) {p : ℕ} {ts : List Token}
    (h : At s p ts) (hn : ts.length < n) (hc : Holds cmd l)
    (hlen : l.length < MAXARGS) (hl : ∀ x ∈ l, ∃ w, WordAt s x.1 x.2 w)
    (hrs : ∀ r ∈ rs, ∃ w, WordAt s r.file r.efile w) :
    wp (execLoop s s.length n cmd l.length rs) (Executes s l rs ts) (fun e =>
      e ∈ panics ∧ takeArgs (MAXARGS - 1 - l.length) ts = none) p := by
  induction n generalizing p ts cmd l rs with
  | zero => omega
  | succ n ih =>
    -- The end of the command.
    have hdone : ∀ {p₁ : ℕ} {E : String → Prop}, At s p₁ ts →
        takeArgs (MAXARGS - 1 - l.length) ts = some ([], [], ts) →
        wp (execDone cmd l.length rs) (Executes s l rs ts) E p₁ := by
      intro p₁ E h₁ htake
      refine (Returns.wp (execDone_spec hc hlen hl hrs)).imp ?_
      rintro c p' ⟨hp', hparsed⟩
      subst hp'
      exact ⟨[], [], ts, htake, h₁, by simpa using hparsed⟩
    simp only [execLoop, wp_bind]
    refine (Returns.wp (peek_spec hs h (by decide))).imp ?_
    rintro _ p₁ ⟨rfl, h₁⟩
    by_cases hahead : ahead [ch '|', ch ')', ch '&', ch ';'] ts = true
    · rw [if_pos hahead]
      refine hdone h₁ ?_
      cases ts with
      | nil => simp [takeArgs]
      | cons tok us => cases tok <;> first | simp [takeArgs, hahead] | exact absurd hahead (by simp [ahead, Token.symbol])
    rw [if_neg hahead, wp_bind]
    cases ts with
    | nil =>
      refine (Returns.wp (gettoken_nil h₁)).imp ?_
      rintro r₂ p₂ ⟨hr₂, h₂⟩
      rw [if_pos hr₂]
      exact hdone h₂ (by simp [takeArgs])
    | cons tok us =>
      refine (Returns.wp (gettoken_cons hs h₁)).imp ?_
      rintro r₂ p₂ ⟨hcode, h₂, hword⟩
      rw [if_neg (by rw [hcode]; exact code_ne_zero tok)]
      by_cases hw : ∃ w, tok = .word w
      · obtain ⟨w, rfl⟩ := hw
        have hat := hword w rfl
        rw [wp_ite_neg (by simp [hcode, Token.code])]
        simp only [wp_bind, wp_liftExcept, setArg, if_pos hlen]
        by_cases hmax : l.length + 1 ≥ MAXARGS
        · rw [wp_ite_pos hmax]
          refine ⟨by decide, ?_⟩
          rw [show MAXARGS - 1 - l.length = 0 by omega, takeArgs]
        · rw [wp_ite_neg hmax, wp_bind]
          obtain ⟨k, hk⟩ : ∃ k, MAXARGS - 1 - l.length = k + 1 := ⟨MAXARGS - 1 - l.length - 1, by omega⟩
          have hus : us.length < s.length + 1 := Nat.lt_succ_of_le h₂.length_le
          refine (parseredirs_spec hs (s.length + 1) h₂ hus hrs).mono ?_ fun e he =>
            ⟨he.1, by rw [hk, takeArgs, he.2, Option.bind_none]⟩
          · rintro rs' p₃ ⟨ds, rest, htake, h₃, hmap, hrs'⟩
            obtain ⟨vs, rfl, -⟩ := Redirs.of_redirs htake
            have hnext := ih (l := l ++ [(r₂.2.1, r₂.2.2)]) h₃ (by simp at hn; omega) (hc.set _ _)
              (by simp; omega) (fun x hx => by
                rcases mem_append.mp hx with hx | hx
                · exact hl x hx
                · obtain rfl := mem_singleton.mp hx
                  exact ⟨w, hat⟩) hrs'
            have hk' : MAXARGS - 1 - (l ++ [(r₂.2.1, r₂.2.2)]).length = k := by
              simp
              omega
            rw [hk', length_append, length_singleton] at hnext
            refine hnext.mono ?_ fun e he => ⟨he.1, by rw [hk, takeArgs]; simp [htake, he.2]⟩
            rintro c p₄ ⟨ws, ds', rest', htake', h₄, hparsed⟩
            rw [hk'] at htake'
            refine ⟨w :: ws, ds ++ ds', rest', ?_, h₄, ?_⟩
            · rw [hk, takeArgs]
              simp [htake, htake']
            · rw [hmap] at hparsed
              simpa [slice, hat.word] using hparsed
      · rw [wp_ite_pos (by rw [hcode]; exact fun heq => hw (code_eq_a.mp heq))]
        refine ⟨by decide, ?_⟩
        cases tok <;> first | simp [takeArgs, hahead] | exact absurd ⟨_, rfl⟩ hw

/-- Every `&` wraps the command once more. -/
lemma backLoop_spec (hs : 0 ∉ s) (n : ℕ) {p : ℕ} {ts : List Token} (h : At s p ts)
    (hn : ts.length < n) (c : Cmd) :
    Returns (backLoop s s.length n c) (fun c' p' => c' = Cmd.back^[(takeAmps ts).1] c ∧
      At s p' (takeAmps ts).2) p := by
  induction n generalizing p ts c with
  | zero => omega
  | succ n ih =>
    simp only [Returns, backLoop, wp_bind]
    refine (peek_spec hs h (by decide)).imp ?_
    rintro _ p₁ ⟨rfl, h₁⟩
    by_cases hamp : ∃ us, ts = .amp :: us
    · obtain ⟨us, rfl⟩ := hamp
      rw [if_pos (by rfl), wp_bind]
      refine (gettoken_cons hs h₁).imp ?_
      rintro _ p₂ ⟨_, h₂, _⟩
      exact ih h₂ (by simp at hn; omega) (.back c)
    · have htake : takeAmps ts = (0, ts) := by
        unfold takeAmps
        split
        · exact absurd ⟨_, rfl⟩ hamp
        · rfl
      have hahead : ahead [ch '&'] ts = false := by
        cases ts with
        | nil => rfl
        | cons tok us => cases tok <;> first | rfl | exact absurd ⟨_, rfl⟩ hamp
      rw [if_neg (by simp [hahead]), htake]
      exact ⟨rfl, h₁⟩

/-! ## The recursion -/

/-- The parser `x` does on the bytes what `f` does on the tokens, if these are `ok`. -/
def Sim (s : List Byte) (x : ParseM Cmd) (f : List Token → Option (Tree × List Token))
    (ok : List Token → Prop) : Prop :=
  ∀ p ts, At s p ts → ok ts → wp x (fun c p' => ∃ t rest, f ts = some (t, rest) ∧ At s p' rest ∧
    Parsed s c t) (fun e => e ∈ panics ∧ f ts = none) p

/-- A parser that peeks for the symbol of one token finds exactly that token. -/
lemma ahead_iff {x : Token} {c : Byte} (hx : ∀ tok : Token, tok.symbol = some c ↔ tok = x)
    (ts : List Token) : ahead [c] ts = true ↔ ∃ us, ts = x :: us := by
  cases ts with
  | nil => simp [ahead]
  | cons tok us =>
    have hahead : ahead [c] (tok :: us) = true ↔ tok.symbol = some c := by
      cases hsym : tok.symbol <;> simp [ahead, hsym]
    simp [hahead, hx]

lemma ahead_semi (ts : List Token) : ahead [ch ';'] ts = true ↔ ∃ us, ts = .semi :: us :=
  ahead_iff (fun tok => by cases tok <;> simp [Token.symbol] <;> decide) ts

lemma ahead_pipe (ts : List Token) : ahead [ch '|'] ts = true ↔ ∃ us, ts = .pipe :: us :=
  ahead_iff (fun tok => by cases tok <;> simp [Token.symbol] <;> decide) ts

lemma ahead_lpar (ts : List Token) : ahead [ch '('] ts = true ↔ ∃ us, ts = .lpar :: us :=
  ahead_iff (fun tok => by cases tok <;> simp [Token.symbol] <;> decide) ts

lemma ahead_rpar (ts : List Token) : ahead [ch ')'] ts = true ↔ ∃ us, ts = .rpar :: us :=
  ahead_iff (fun tok => by cases tok <;> simp [Token.symbol] <;> decide) ts

lemma takeAmps_length (ts : List Token) : (takeAmps ts).2.length ≤ ts.length := by
  conv_rhs => rw [amps_eq ts]
  simp

section

variable (hs : 0 ∉ s)
include hs

lemma line_step
    (hpipe : Sim s (parsepipe s s.length n) (takePipe n) fun ts => 4 * ts.length + 3 ≤ n)
    (hline : Sim s (parseline s s.length n) (takeLine n) fun ts => 4 * ts.length + 4 ≤ n) :
    Sim s (parseline s s.length (n + 1)) (takeLine (n + 1)) fun ts => 4 * ts.length + 4 ≤ n + 1 := by
  intro p ts h hn
  simp only [parseline, wp_bind]
  refine (hpipe p ts h (by omega)).mono ?_ fun e he => ⟨he.1, by simp [takeLine, he.2]⟩
  rintro c₁ p₁ ⟨t₁, ts₁, htake, h₁, hc₁⟩
  obtain ⟨us₁, rfl, -⟩ := (Derives.of_take n).1 .pipe htake
  refine (Returns.wp (backLoop_spec hs _ h₁ (Nat.lt_succ_of_le h₁.length_le) c₁)).imp ?_
  rintro c₂ p₂ ⟨hc₂, h₂⟩
  subst hc₂
  have hback := hc₁.back (takeAmps ts₁).1
  have hlen := takeAmps_length ts₁
  refine (Returns.wp (peek_spec hs h₂ (by decide))).imp ?_
  rintro _ p₃ ⟨rfl, h₃⟩
  rw [takeLine, htake, Option.bind_some]
  dsimp only
  generalize takeAmps ts₁ = a at *
  obtain ⟨k, us⟩ := a
  by_cases hsemi : ∃ vs, us = .semi :: vs
  · obtain ⟨vs, rfl⟩ := hsemi
    rw [if_pos ((ahead_semi _).mpr ⟨vs, rfl⟩), wp_bind]
    refine (Returns.wp (gettoken_cons hs h₃)).imp ?_
    rintro _ p₄ ⟨_, h₄, _⟩
    simp only [wp_bind, wp_pure]
    refine (hline p₄ vs h₄ (by simp at hn hlen; omega)).mono ?_ fun e he =>
      ⟨he.1, by simp [he.2]⟩
    rintro c₅ p₅ ⟨t₅, rest, htake₅, h₅, hc₅⟩
    refine ⟨.list (Tree.back^[k] t₁) t₅, rest, by simp [htake₅], h₅, ?_, hback.2, hc₅.2⟩
    simp [Cmd.tree, hback.1, hc₅.1]
  · rw [if_neg (fun hh => hsemi ((ahead_semi _).mp hh))]
    refine ⟨Tree.back^[k] t₁, us, ?_, h₃, hback⟩
    cases us with
    | nil => rfl
    | cons tok vs => cases tok <;> first | rfl | exact absurd ⟨_, rfl⟩ hsemi

lemma pipe_step
    (hexec : Sim s (parseexec s s.length n) (takeExec n) fun ts => 4 * ts.length + 2 ≤ n)
    (hpipe : Sim s (parsepipe s s.length n) (takePipe n) fun ts => 4 * ts.length + 3 ≤ n) :
    Sim s (parsepipe s s.length (n + 1)) (takePipe (n + 1)) fun ts => 4 * ts.length + 3 ≤ n + 1 := by
  intro p ts h hn
  simp only [parsepipe, wp_bind]
  refine (hexec p ts h (by omega)).mono ?_ fun e he => ⟨he.1, by simp [takePipe, he.2]⟩
  rintro c₁ p₁ ⟨t₁, ts₁, htake, h₁, hc₁⟩
  obtain ⟨us₁, rfl, -⟩ := (Derives.of_take n).1 .exec htake
  refine (Returns.wp (peek_spec hs h₁ (by decide))).imp ?_
  rintro _ p₂ ⟨rfl, h₂⟩
  rw [takePipe, htake, Option.bind_some]
  by_cases hp : ∃ us, ts₁ = .pipe :: us
  · obtain ⟨us, rfl⟩ := hp
    rw [if_pos ((ahead_pipe _).mpr ⟨us, rfl⟩), wp_bind]
    refine (Returns.wp (gettoken_cons hs h₂)).imp ?_
    rintro _ p₃ ⟨_, h₃, _⟩
    simp only [wp_bind, wp_pure]
    refine (hpipe p₃ us h₃ (by simp at hn; omega)).mono ?_ fun e he => ⟨he.1, by simp [he.2]⟩
    rintro c₄ p₄ ⟨t₄, rest, htake₄, h₄, hc₄⟩
    refine ⟨.pipe t₁ t₄, rest, by simp [htake₄], h₄, ?_, hc₁.2, hc₄.2⟩
    simp [Cmd.tree, hc₁.1, hc₄.1]
  · rw [if_neg (fun hh => hp ((ahead_pipe _).mp hh))]
    refine ⟨t₁, ts₁, ?_, h₂, hc₁⟩
    cases ts₁ with
    | nil => rfl
    | cons tok us => cases tok <;> first | rfl | exact absurd ⟨_, rfl⟩ hp

lemma block_step
    (hline : Sim s (parseline s s.length n) (takeLine n) fun ts => 4 * ts.length + 4 ≤ n) :
    Sim s (parseblock s s.length (n + 1)) (takeBlock (n + 1)) fun ts =>
      4 * ts.length + 1 ≤ n + 1 ∧ ∃ us, ts = .lpar :: us := by
  rintro p _ h ⟨hn, us, rfl⟩
  simp only [parseblock, wp_bind]
  refine (Returns.wp (peek_spec hs h (by decide))).imp ?_
  rintro _ p₁ ⟨rfl, h₁⟩
  rw [wp_ite_neg (by simp [(ahead_lpar _).mpr ⟨us, rfl⟩])]
  simp only [wp_bind]
  refine (Returns.wp (gettoken_cons hs h₁)).imp ?_
  rintro _ p₂ ⟨_, h₂, _⟩
  refine (hline p₂ us h₂ (by simp at hn; omega)).mono ?_ fun e he =>
    ⟨he.1, by simp [takeBlock, he.2]⟩
  rintro c₃ p₃ ⟨t₃, ts₃, htake, h₃, hc₃⟩
  refine (Returns.wp (peek_spec hs h₃ (by decide))).imp ?_
  rintro _ p₄ ⟨rfl, h₄⟩
  by_cases hr : ∃ vs, ts₃ = .rpar :: vs
  · obtain ⟨vs, rfl⟩ := hr
    rw [wp_ite_neg (by simp [(ahead_rpar _).mpr ⟨vs, rfl⟩])]
    simp only [wp_bind]
    refine (Returns.wp (gettoken_cons hs h₄)).imp ?_
    rintro _ p₅ ⟨_, h₅, _⟩
    refine (parseredirs_spec hs _ h₅ (Nat.lt_succ_of_le h₅.length_le) (by simp)).mono ?_
      fun e he => ⟨he.1, by simp [takeBlock, htake, he.2]⟩
    rintro rs p₆ ⟨ds, rest, hds, h₆, hmap, hrs⟩
    refine ⟨t₃.wrap ds, rest, by simp [takeBlock, htake, hds], h₆, ?_⟩
    have hwrap := hc₃.wrap rs hrs
    rwa [hmap, map_nil, nil_append] at hwrap
  · rw [wp_ite_pos (by
      simp only [Bool.not_eq_eq_eq_not, Bool.not_true]
      exact Bool.eq_false_iff.mpr fun hh => hr ((ahead_rpar _).mp hh))]
    refine ⟨by decide, ?_⟩
    simp only [takeBlock, htake, Option.bind_some]
    cases ts₃ with
    | nil => rfl
    | cons tok vs => cases tok <;> first | rfl | exact absurd ⟨_, rfl⟩ hr

lemma exec_step (hblock : Sim s (parseblock s s.length n) (takeBlock n) fun ts =>
      4 * ts.length + 1 ≤ n ∧ ∃ us, ts = .lpar :: us) :
    Sim s (parseexec s s.length (n + 1)) (takeExec (n + 1)) fun ts => 4 * ts.length + 2 ≤ n + 1 := by
  intro p ts h hn
  simp only [parseexec, wp_bind]
  refine (Returns.wp (peek_spec hs h (by decide))).imp ?_
  rintro _ p₁ ⟨rfl, h₁⟩
  by_cases hl : ∃ us, ts = .lpar :: us
  · rw [if_pos ((ahead_lpar _).mpr hl)]
    have hhead : ts.head? = some .lpar := by
      obtain ⟨us, rfl⟩ := hl
      rfl
    rw [takeExec, if_pos hhead]
    exact hblock p₁ ts h₁ ⟨by omega, hl⟩
  · rw [if_neg (fun hh => hl ((ahead_lpar _).mp hh)), wp_bind]
    have hhead : ¬ts.head? = some .lpar := by
      intro hhead
      cases ts with
      | nil => cases hhead
      | cons tok us => exact hl ⟨us, by rw [Option.some.inj hhead]⟩
    rw [takeExec, if_neg hhead]
    refine (parseredirs_spec hs _ h₁ (Nat.lt_succ_of_le h₁.length_le) (by simp)).mono ?_
      fun e he => ⟨he.1, by simp [he.2]⟩
    rintro rs p₂ ⟨ds, rest, hds, h₂, hmap, hrs⟩
    have hempty : Holds {} [] := fun i hi => absurd hi (by simp)
    refine (execLoop_spec hs _ (l := []) h₂ (Nat.lt_succ_of_le h₂.length_le) hempty (by decide)
      (by simp) hrs).mono ?_ ?_
    · rintro c p₃ ⟨ws, ds', rest', hargs, h₃, hc⟩
      rw [length_nil, Nat.sub_zero] at hargs
      refine ⟨Tree.wrap (.exec ws) (ds ++ ds'), rest', by simp [hds, hargs], h₃, ?_⟩
      rw [hmap] at hc
      simpa using hc
    · rintro e ⟨he, hargs⟩
      rw [length_nil, Nat.sub_zero] at hargs
      exact ⟨he, by simp [hds, hargs]⟩

/-- **The parser on bytes does what the parser on tokens does.** -/
lemma sim (n : ℕ) : Sim s (parseline s s.length n) (takeLine n) (fun ts => 4 * ts.length + 4 ≤ n) ∧
    Sim s (parsepipe s s.length n) (takePipe n) (fun ts => 4 * ts.length + 3 ≤ n) ∧
    Sim s (parseexec s s.length n) (takeExec n) (fun ts => 4 * ts.length + 2 ≤ n) ∧
    Sim s (parseblock s s.length n) (takeBlock n)
      (fun ts => 4 * ts.length + 1 ≤ n ∧ ∃ us, ts = .lpar :: us) := by
  induction n with
  | zero =>
    refine ⟨fun _ _ _ hn => ?_, fun _ _ _ hn => ?_, fun _ _ _ hn => ?_, fun _ _ _ hn => ?_⟩
    all_goals omega
  | succ n ih =>
    obtain ⟨hline, hpipe, hexec, hblock⟩ := ih
    exact ⟨line_step hs hpipe hline, pipe_step hs hexec hpipe, exec_step hs hblock,
      block_step hs hline⟩

end

/-! ## `nulterminate` -/

/-- NUL bytes have been stored, none of them into a word of the line. -/
def Zeros (s : List Byte) (m m' : Bytes) : Prop :=
  ∀ i, m' i = m i ∨ (m' i = 0 ∧ (i = s.length ∨ isWord (byteAt s i) = false))

lemma Zeros.refl (s : List Byte) (m : Bytes) : Zeros s m m := fun _ => Or.inl rfl

lemma Zeros.trans {m'' : Bytes} (h : Zeros s m m') (h' : Zeros s m' m'') : Zeros s m m'' := by
  intro i
  rcases h' i with heq | hz
  · rw [heq]
    exact h i
  · exact Or.inr hz

lemma Zeros.zero (h : Zeros s m m') (h0 : m i = 0) : m' i = 0 := by
  rcases h i with heq | hz
  · rw [heq, h0]
  · exact hz.1

lemma WordAt.zeros {eq : ℕ} (h : WordAt s q eq w) (m : Bytes) :
    Zeros s m (update m eq 0) := by
  intro i
  by_cases hi : i = eq
  · subst hi
    exact Or.inr ⟨update_self .., h.stop⟩
  · exact Or.inl (update_of_ne hi ..)

/-- All the words of a command end with a NUL byte. -/
def Cmd.Closed (m : Bytes) : Cmd → Prop
  | .exec cmd => ∀ l, Holds cmd l → cmd.argv l.length = none → ∀ x ∈ l, m x.2 = 0
  | .redir cmd r => cmd.Closed m ∧ m r.efile = 0
  | .pipe left right => left.Closed m ∧ right.Closed m
  | .list left right => left.Closed m ∧ right.Closed m
  | .back cmd => cmd.Closed m

lemma Cmd.Closed.zeros (h : Zeros s m m') (hc : c.Closed m) :
    c.Closed m' := by
  induction c with
  | exec cmd => exact fun l hl hnone x hx => h.zero (hc l hl hnone x hx)
  | redir cmd r ih => exact ⟨ih hc.1, h.zero hc.2⟩
  | pipe left right ihl ihr => exact ⟨ihl hc.1, ihr hc.2⟩
  | list left right ihl ihr => exact ⟨ihl hc.1, ihr hc.2⟩
  | back cmd ih => exact ih hc

/-- An array holds only one list of words. -/
lemma Holds.unique {l' : List (ℕ × ℕ)} (h : Holds cmd l) (h' : Holds cmd l')
    (hnone : cmd.argv l.length = none) (hnone' : cmd.argv l'.length = none) : l = l' := by
  have hlen : l.length = l'.length := by
    rcases Nat.lt_trichotomy l.length l'.length with hlt | heq | hlt
    · rw [(h' _ hlt).1] at hnone
      cases hnone
    · exact heq
    · rw [(h _ hlt).1] at hnone'
      cases hnone'
  refine ext_getElem hlen fun i hi hi' => ?_
  obtain ⟨ha, he⟩ := h i hi
  obtain ⟨ha', he'⟩ := h' i hi'
  exact Prod.ext (Option.some.inj (ha.symm.trans ha')) (Option.some.inj (he.symm.trans he'))

lemma nulArgs_spec (h : Holds cmd l)
    (hnone : cmd.argv l.length = none) (hl : ∀ x ∈ l, ∃ w, WordAt s x.1 x.2 w) (n : ℕ)
    (hi : i ≤ l.length) (hn : l.length < i + n) (m : Bytes) :
    ∃ m', nulArgs cmd n i m = .ok m' ∧ Zeros s m m' ∧ ∀ x ∈ l.drop i, m' x.2 = 0 := by
  induction n generalizing i m with
  | zero => omega
  | succ n ih =>
    by_cases hlt : i < l.length
    · obtain ⟨harg, heargv⟩ := h i hlt
      obtain ⟨w, hw⟩ := hl l[i] (getElem_mem hlt)
      obtain ⟨m', hm', hz, hends⟩ := ih (i := i + 1) hlt (by omega) (update m l[i].2 0)
      refine ⟨m', by rw [nulArgs, harg, heargv]; exact hm', (hw.zeros m).trans hz, fun x hx => ?_⟩
      rw [drop_eq_getElem_cons hlt, mem_cons] at hx
      rcases hx with rfl | hx
      · exact hz.zero (update_self ..)
      · exact hends x hx
    · obtain rfl : i = l.length := by omega
      exact ⟨m, by rw [nulArgs, hnone], .refl s m, by simp⟩

/-- **`nulterminate`** closes all the words, and changes no byte of any. -/
lemma nulterminate_spec (h : c.Ok s) (m : Bytes) :
    ∃ m', nulterminate c m = .ok m' ∧ Zeros s m m' ∧ c.Closed m' := by
  induction c generalizing m with
  | exec cmd =>
    obtain ⟨l, hl, hnone, hlen, hwords⟩ := h
    obtain ⟨m', hm', hz, hends⟩ := nulArgs_spec hl hnone hwords MAXARGS (Nat.zero_le _)
      (by omega) m
    refine ⟨m', hm', hz, fun l' hl' hnone' x hx => hends x ?_⟩
    rwa [drop_zero, hl.unique hl' hnone hnone']
  | redir cmd r ih =>
    obtain ⟨hc, w, hw⟩ := h
    obtain ⟨m₁, hm₁, hz₁, hclosed⟩ := ih hc m
    refine ⟨update m₁ r.efile 0, by rw [nulterminate, hm₁]; rfl, hz₁.trans (hw.zeros m₁),
      hclosed.zeros (hw.zeros m₁), update_self ..⟩
  | pipe left right ihl ihr | list left right ihl ihr =>
    obtain ⟨m₁, hm₁, hz₁, hl⟩ := ihl h.1 m
    obtain ⟨m₂, hm₂, hz₂, hr⟩ := ihr h.2 m₁
    exact ⟨m₂, by rw [nulterminate, hm₁]; exact hm₂, hz₁.trans hz₂, hl.zeros hz₂, hr⟩
  | back cmd ih => exact ih h m

/-- The C string at the start of a closed word is the word. -/
lemma cstring_eq_slice {eq : ℕ} (h0 : m eq = 0) (hle : eq ≤ s.length)
    (hq : q ≤ eq) (hn : eq - q ≤ n) (hm : ∀ i, q ≤ i → i < eq → m i = byteAt s i ∧ m i ≠ 0) :
    cstring m n q = slice s q eq := by
  induction n generalizing q with
  | zero =>
    obtain rfl : q = eq := by omega
    simp [cstring, slice]
  | succ n ih =>
    by_cases hlt : q < eq
    · obtain ⟨hbyte, hne⟩ := hm q le_rfl hlt
      rw [cstring, if_neg hne, ih hlt (by omega) fun i hi => hm i (by omega), slice, slice,
        drop_eq_byteAt_cons (by omega : q < s.length), hbyte,
        show eq - q = eq - (q + 1) + 1 by omega, take_succ_cons]
    · obtain rfl : q = eq := by omega
      simp [cstring, slice, h0]

lemma cstring_word (hs : 0 ∉ s) {eq : ℕ} (h : WordAt s q eq w)
    (hz : Zeros s (byteAt s) m) (h0 : m eq = 0) (hn : s.length ≤ n) :
    cstring m n q = slice s q eq := by
  have hle := h.le_length
  refine cstring_eq_slice h0 hle h.le (by omega) fun i hi hlt => ?_
  have hword := h.isWord i hi hlt
  have heq : m i = byteAt s i := by
    rcases hz i with heq | ⟨-, hlen | hno⟩
    · exact heq
    · omega
    · rw [hword] at hno
      exact absurd hno (by decide)
  exact ⟨heq, by rw [heq]; exact byteAt_ne_zero hs (by omega)⟩

/-- Reading the strings of a command in memory. -/
lemma Cmd.Ok.tree (hs : 0 ∉ s) (hz : Zeros s (byteAt s) m) (h : c.Ok s)
    (hc : c.Closed m) : c.tree (fun q _ => cstring m s.length q) = c.tree (slice s) := by
  induction c with
  | exec cmd =>
    obtain ⟨l, hl, hnone, hlen, hwords⟩ := h
    rw [Cmd.tree, Cmd.tree, hl.words hnone _ (Nat.zero_le _) (by omega),
      hl.words hnone _ (Nat.zero_le _) (by omega)]
    congr 2
    refine map_congr_left fun x hx => ?_
    obtain ⟨w, hw⟩ := hwords x (mem_of_mem_drop hx)
    exact cstring_word hs hw hz (hc l hl hnone x (mem_of_mem_drop hx)) le_rfl
  | redir cmd r ih =>
    obtain ⟨hok, w, hw⟩ := h
    rw [Cmd.tree, Cmd.tree, ih hok hc.1, cstring_word hs hw hz hc.2 le_rfl]
  | pipe left right ihl ihr | list left right ihl ihr =>
    rw [Cmd.tree, Cmd.tree, ihl h.1 hc.1, ihr h.2 hc.2]
  | back cmd ih => rw [Cmd.tree, Cmd.tree, ih h hc]

/-! ## The theorem -/

lemma strlen_eq (hs : 0 ∉ s) : strlen s = s.length := by
  rw [strlen, takeWhile_eq_self_iff.mpr]
  intro c hc
  simp only [ne_eq, decide_not, Bool.not_eq_eq_eq_not, Bool.not_true, decide_eq_false_iff_not]
  rintro rfl
  exact hs hc

/-- The last `peek` of `parsecmd` finds out whether there is anything left. -/
lemma peek_end (h : At s p ts) (toks : List Byte) :
    ∃ b q, peek s s.length toks p = .ok (b, q) ∧ (q = s.length ↔ ts = []) := by
  obtain ⟨q, hq, hat, hcase⟩ := h.skip
  refine ⟨_, q, by rw [← hq]; rfl, ?_⟩
  rcases hcase with ⟨hend, hnil⟩ | ⟨hlt, hw⟩
  · exact iff_of_true hend hnil
  · refine iff_of_false (by omega) fun hnil => ?_
    have heq := hat.eq
    rw [drop_eq_byteAt_cons hlt, hnil] at heq
    exact (ahead_tokens [] hw (by simp)).1 heq

/-- What `parsecmd` returns, by what the parser on tokens finds. -/
lemma parsecmd_cases (hs : 0 ∉ s) :
    (∃ t cmd m, takeLine (4 * s.length + 4) (tokens s) = some (t, []) ∧ parsecmd s = .ok (cmd, m) ∧
      Parsed s cmd t ∧ nulterminate cmd (byteAt s) = .ok m) ∨
    ((∀ t, takeLine (4 * s.length + 4) (tokens s) ≠ some (t, [])) ∧
      ∃ e ∈ panics, parsecmd s = .error e) := by
  have hat : At s 0 (tokens s) := ⟨Nat.zero_le _, by rw [drop_zero]⟩
  have hsim := (sim hs (4 * s.length + 4)).1 0 (tokens s) hat (by
    have := length_tokens_le s
    omega)
  unfold parsecmd
  rw [strlen_eq hs]
  cases hx : parseline s s.length (4 * s.length + 4) 0 with
  | error e =>
    obtain ⟨he, hnone⟩ := hsim.of_eq_error hx
    exact Or.inr ⟨fun t => by simp [hnone], e, he, by simp only [hx, bind, Except.bind]⟩
  | ok r =>
    obtain ⟨cmd, p₁⟩ := r
    obtain ⟨t, rest, htake, hat₁, hparsed⟩ := hsim.of_eq_ok hx
    obtain ⟨b, p₂, hpeek, hend⟩ := peek_end hat₁ []
    by_cases hrest : rest = []
    · subst hrest
      obtain ⟨m, hm, -, -⟩ := nulterminate_spec hparsed.2 (byteAt s)
      refine Or.inl ⟨t, cmd, m, htake, ?_, hparsed, hm⟩
      simp only [hx, hpeek, bind, Except.bind, hm]
      rw [if_neg (not_not.mpr (hend.mpr rfl))]
      rfl
    · refine Or.inr ⟨fun t' heq => ?_, "syntax", by decide, ?_⟩
      · rw [htake] at heq
        exact hrest (Prod.mk.inj (Option.some.inj heq)).2
      · simp only [hx, hpeek, bind, Except.bind]
        rw [if_pos (fun heq => hrest (hend.mp heq))]
        rfl

/-- The strings in memory are those of the tree. -/
lemma Parsed.tree_cstring (hs : 0 ∉ s) (h : Parsed s c t) (hm : nulterminate c (byteAt s) = .ok m) :
    c.tree (fun q _ => cstring m s.length q) = some t := by
  obtain ⟨m', hm', hz, hclosed⟩ := nulterminate_spec h.2 (byteAt s)
  obtain rfl := Except.ok.inj (hm.symm.trans hm')
  rw [h.2.tree hs hz hclosed]
  exact h.1

lemma derives_iff_takeLine (s : List Byte) (t : Tree) :
    Derives .line (tokens s) t ↔ takeLine (4 * s.length + 4) (tokens s) = some (t, []) := by
  constructor
  · intro h
    have hfound := h.take (l := []) (fun _ htok => by simp at htok) (n := 4 * s.length + 4) (by
      have := length_tokens_le s
      simp [Nonterminal.depth]
      omega)
    rwa [append_nil] at hfound
  · intro h
    obtain ⟨us, heq, hd⟩ := (Derives.of_take (4 * s.length + 4)).1 .line h
    rwa [heq, append_nil]

/-- **The shell parser accepts exactly its grammar.**  For every line without NUL bytes, `parsecmd`
returns a command if and only if the tokens of the line derive from the grammar, and then the command,
with the strings that are in memory at its pointers, is that of the derivation: every `argv` holds the
words, in order, and a null pointer after them.  For any other line it panics, with one of the texts
of `panics`.  In particular it never stores outside of an array. -/
theorem parsecmd_accepts_grammar (hs : 0 ∉ s) :
    (∀ t, Derives .line (tokens s) t ↔ ∃ cmd m, parsecmd s = .ok (cmd, m) ∧
      cmd.tree (fun q _ => cstring m s.length q) = some t) ∧
    ((∃ cmd m, parsecmd s = .ok (cmd, m)) ↔ ∃ t, Derives .line (tokens s) t) ∧
    ((¬∃ t, Derives .line (tokens s) t) → ∃ e ∈ panics, parsecmd s = .error e) := by
  simp only [derives_iff_takeLine]
  rcases parsecmd_cases hs with ⟨t, cmd, m, htake, hok, hparsed, hm⟩ | ⟨hno, e, he, herr⟩
  · have htree := hparsed.tree_cstring hs hm
    refine ⟨fun t' => ⟨fun htake' => ?_, ?_⟩, iff_of_true ⟨cmd, m, hok⟩ ⟨t, htake⟩,
      fun hnone => absurd ⟨t, htake⟩ hnone⟩
    · obtain ⟨rfl, -⟩ := Prod.mk.inj (Option.some.inj (htake.symm.trans htake'))
      exact ⟨cmd, m, hok, htree⟩
    · rintro ⟨cmd', m', hok', htree'⟩
      obtain ⟨rfl, rfl⟩ := Prod.mk.inj (Except.ok.inj (hok.symm.trans hok'))
      obtain rfl := Option.some.inj (htree.symm.trans htree')
      exact htake
  · have hfail : ∀ cmd m, parsecmd s ≠ .ok (cmd, m) := by simp [herr]
    refine ⟨fun t' => iff_of_false (hno t') ?_, iff_of_false ?_ ?_, fun _ => ⟨e, he, herr⟩⟩
    · rintro ⟨cmd, m, hok, -⟩
      exact hfail cmd m hok
    · rintro ⟨cmd, m, hok⟩
      exact hfail cmd m hok
    · rintro ⟨t, htake⟩
      exact hno t htake

/-- The line `(a;b)>f` and a line that is not in the language. -/
theorem parsecmd_accepts_grammar_block :
    (∀ t, Derives .line (tokens [40, 97, 59, 98, 41, 62, 102]) t ↔
      ∃ cmd m, parsecmd [40, 97, 59, 98, 41, 62, 102] = .ok (cmd, m) ∧
        cmd.tree (fun q _ => cstring m 7 q) = some t) ∧
    ((¬∃ t, Derives .line (tokens [97, 40]) t) → ∃ e ∈ panics, parsecmd [97, 40] = .error e) :=
  ⟨(parsecmd_accepts_grammar (s := [40, 97, 59, 98, 41, 62, 102]) (by decide)).1,
    (parsecmd_accepts_grammar (s := [97, 40]) (by decide)).2.2⟩

example : (match parsecmd [40, 97, 59, 98, 41, 62, 102] with
    | .ok (cmd, m) => cmd.tree fun q _ => cstring m 7 q
    | .error _ => none) = some (.redir (.list (.exec [[97]]) (.exec [[98]])) [102] 0x601 1) := by
  decide +kernel

end Xv6.Sh
