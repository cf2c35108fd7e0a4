import Xv6.Sh.Lexer

/-!
# Parsing tokens

The parser as a function on lists of tokens.  Each function takes as many tokens as it can, and decides
by the first one what to do.  It finds a command exactly where the grammar has a derivation, and the
command of that derivation (`Derives.take`, `Derives.of_take`).
-/

namespace Xv6.Sh

open List

/-! ## The functions -/

/-- redir*, as long as there are redirections. -/
def takeRedirs : List Token → Option (List (List Byte × ℕ × ℕ) × List Token)
  | [] => some ([], [])
  | tok :: ts =>
    match tok.redirMode with
    | none => some ([], tok :: ts)
    | some m =>
      match ts with
      | .word w :: us => (takeRedirs us).map fun x => ((w, m) :: x.1, x.2)
      | _ => none

/-- (word redir*)*, with at most `k` words, up to the end of the command. -/
def takeArgs : ℕ → List Token → Option (List (List Byte) × List (List Byte × ℕ × ℕ) × List Token)
  | k, .word w :: ts =>
    match k with
    | 0 => none
    | k + 1 => (takeRedirs ts).bind fun x => (takeArgs k x.2).map fun y => (w :: y.1, x.1 ++ y.2.1, y.2.2)
  | _, ts =>
    if ts = [] ∨ ahead [ch '|', ch ')', ch '&', ch ';'] ts then some ([], [], ts) else none

/-- The number of `&`, and what is after them. -/
def takeAmps : List Token → ℕ × List Token
  | .amp :: ts => ((takeAmps ts).1 + 1, (takeAmps ts).2)
  | ts => (0, ts)

mutual

def takeLine : ℕ → List Token → Option (Tree × List Token)
  | 0, _ => none
  | n + 1, ts => (takePipe n ts).bind fun x =>
    match takeAmps x.2 with
    | (k, .semi :: us) => (takeLine n us).map fun y => (.list (Tree.back^[k] x.1) y.1, y.2)
    | (k, us) => some (Tree.back^[k] x.1, us)

def takePipe : ℕ → List Token → Option (Tree × List Token)
  | 0, _ => none
  | n + 1, ts => (takeExec n ts).bind fun x =>
    match x.2 with
    | .pipe :: us => (takePipe n us).map fun y => (.pipe x.1 y.1, y.2)
    | us => some (x.1, us)

def takeBlock : ℕ → List Token → Option (Tree × List Token)
  | 0, _ => none
  | n + 1, ts =>
    match ts with
    | .lpar :: us => (takeLine n us).bind fun x =>
      match x.2 with
      | .rpar :: vs => (takeRedirs vs).map fun y => (x.1.wrap y.1, y.2)
      | _ => none
    | _ => none

def takeExec : ℕ → List Token → Option (Tree × List Token)
  | 0, _ => none
  | n + 1, ts =>
    if ts.head? = some .lpar then takeBlock n ts
    else (takeRedirs ts).bind fun x => (takeArgs (MAXARGS - 1) x.2).map fun y =>
      (Tree.wrap (.exec y.1) (x.1 ++ y.2.1), y.2.2)

end

/-! ## What they find is derived -/

variable {ts rest us : List Token} {rs : List (List Byte × ℕ × ℕ)} {k : ℕ} {ws : List (List Byte)}
  {t : Tree}

lemma Redirs.of_redirs
    (h : takeRedirs ts = some (rs, rest)) : ∃ us, ts = us ++ rest ∧ Redirs us rs := by
  fun_induction takeRedirs ts generalizing rs with
  | case1 | case2 =>
    obtain ⟨rfl, rfl⟩ := Prod.mk.inj (Option.some.inj h)
    exact ⟨[], rfl, .nil⟩
  | case3 tok m hmode w us ih =>
    obtain ⟨⟨rs', rest'⟩, hrs, heq⟩ := Option.map_eq_some_iff.mp h
    obtain ⟨rfl, rfl⟩ := Prod.mk.inj heq
    obtain ⟨us', rfl, hd⟩ := ih hrs
    exact ⟨tok :: .word w :: us', rfl, .cons hmode hd⟩
  | case4 => cases h

lemma Args.of_args (h : takeArgs k ts = some (ws, rs, rest)) :
    ∃ us, ts = us ++ rest ∧ Args us ws rs ∧ ws.length ≤ k := by
  fun_induction takeArgs k ts generalizing ws rs with
  | case1 => cases h
  | case2 w ts k ih =>
    obtain ⟨⟨rs₁, ts₁⟩, hrs, h⟩ := Option.bind_eq_some_iff.mp h
    obtain ⟨⟨ws₂, rs₂, rest₂⟩, hargs, heq⟩ := Option.map_eq_some_iff.mp h
    simp only [Prod.mk.injEq] at heq
    obtain ⟨rfl, rfl, rfl⟩ := heq
    obtain ⟨us₁, rfl, hd₁⟩ := Redirs.of_redirs hrs
    obtain ⟨us₂, heq₂, hd₂, hle⟩ := ih _ hargs
    dsimp only at heq₂
    exact ⟨.word w :: (us₁ ++ us₂), by simp [heq₂], .cons hd₁ hd₂, by simpa using hle⟩
  | case3 k ts _ hend =>
    simp only [Option.some.injEq, Prod.mk.injEq] at h
    obtain ⟨rfl, rfl, rfl⟩ := h
    exact ⟨[], rfl, .nil, Nat.zero_le _⟩
  | case4 => cases h

lemma amps_eq (ts : List Token) : ts = replicate (takeAmps ts).1 .amp ++ (takeAmps ts).2 := by
  fun_induction takeAmps ts with
  | case1 ts ih =>
    rw [replicate_succ, cons_append, ← ih]
  | case2 => rfl

/-- The functions by what they parse. -/
def take : Nonterminal → ℕ → List Token → Option (Tree × List Token)
  | .line => takeLine
  | .pipe => takePipe
  | .exec => takeExec

/-- What has been parsed is what has been taken. -/
lemma Derives.of_take (n : ℕ) :
    (∀ nt, take nt n ts = some (t, rest) → ∃ us, ts = us ++ rest ∧ Derives nt us t) ∧
    (takeBlock n ts = some (t, rest) → ∃ us, ts = us ++ rest ∧ Derives .exec us t) := by
  induction n generalizing ts rest t with
  | zero =>
    refine ⟨fun nt h => ?_, fun h => ?_⟩
    · cases nt <;> simp [take, takeLine, takePipe, takeExec] at h
    · simp [takeBlock] at h
  | succ n ih =>
    refine ⟨fun nt h => ?_, fun h => ?_⟩
    · cases nt with
      | line =>
        rw [take, takeLine] at h
        obtain ⟨⟨t₁, ts₁⟩, hp, h'⟩ := Option.bind_eq_some_iff.mp h
        obtain ⟨us₁, rfl, hd₁⟩ := ih.1 .pipe hp
        have hamps := amps_eq ts₁
        dsimp only at h'
        split at h'
        · next k us heq =>
          rw [heq] at hamps
          obtain ⟨⟨t₂, ts₂⟩, hl, heq₂⟩ := Option.map_eq_some_iff.mp h'
          obtain ⟨rfl, rfl⟩ := Prod.mk.inj heq₂
          obtain ⟨us₂, rfl, hd₂⟩ := ih.1 .line hl
          exact ⟨_, by rw [hamps]; simp, .list k hd₁ hd₂⟩
        · next k us _ heq =>
          rw [heq] at hamps
          obtain ⟨rfl, rfl⟩ := Prod.mk.inj (Option.some.inj h')
          exact ⟨_, by rw [hamps]; simp, .line k hd₁⟩
      | pipe =>
        rw [take, takePipe] at h
        obtain ⟨⟨t₁, ts₁⟩, he, h'⟩ := Option.bind_eq_some_iff.mp h
        obtain ⟨us₁, rfl, hd₁⟩ := ih.1 .exec he
        dsimp only at h'
        split at h'
        · next us =>
          obtain ⟨⟨t₂, ts₂⟩, hp, heq₂⟩ := Option.map_eq_some_iff.mp h'
          obtain ⟨rfl, rfl⟩ := Prod.mk.inj heq₂
          obtain ⟨us₂, rfl, hd₂⟩ := ih.1 .pipe hp
          exact ⟨_, by simp, .pipe hd₁ hd₂⟩
        · obtain ⟨rfl, rfl⟩ := Prod.mk.inj (Option.some.inj h')
          exact ⟨us₁, rfl, .exec hd₁⟩
      | exec =>
        rw [take, takeExec] at h
        split at h
        · exact ih.2 h
        · obtain ⟨⟨rs, ts₁⟩, hr, h⟩ := Option.bind_eq_some_iff.mp h
          obtain ⟨⟨ws, rs', ts₂⟩, ha, heq⟩ := Option.map_eq_some_iff.mp h
          obtain ⟨rfl, rfl⟩ := Prod.mk.inj heq
          obtain ⟨us₁, rfl, hd₁⟩ := Redirs.of_redirs hr
          obtain ⟨us₂, heq₂, hd₂, hle⟩ := Args.of_args ha
          dsimp only at heq₂
          refine ⟨us₁ ++ us₂, by simp [heq₂], .simple hd₁ hd₂ (Nat.lt_of_le_of_lt hle (by decide))⟩
    · unfold takeBlock at h
      split at h
      · next us =>
        obtain ⟨⟨t₁, ts₁⟩, hl, h'⟩ := Option.bind_eq_some_iff.mp h
        obtain ⟨us₁, rfl, hd₁⟩ := ih.1 .line hl
        dsimp only at h'
        split at h'
        · next vs =>
          obtain ⟨⟨rs, ts₂⟩, hr, heq⟩ := Option.map_eq_some_iff.mp h'
          obtain ⟨rfl, rfl⟩ := Prod.mk.inj heq
          obtain ⟨us₂, rfl, hd₂⟩ := Redirs.of_redirs hr
          exact ⟨_, by simp, .block hd₁ hd₂⟩
        · cases h'
      · cases h

/-! ## What is derived they find -/

/-- The tokens that may come after a phrase. -/
def Nonterminal.follow : Nonterminal → List Token
  | .line => [.rpar]
  | .pipe => [.rpar, .amp, .semi]
  | .exec => [.rpar, .amp, .semi, .pipe]

/-- The phrase ends before `rest`. -/
def Ends (nt : Nonterminal) (rest : List Token) : Prop := ∀ tok ∈ rest.head?, tok ∈ nt.follow

lemma Ends.mono {nt nt' : Nonterminal} (h : Ends nt rest)
    (hle : nt.follow ⊆ nt'.follow) : Ends nt' rest := fun tok htok => hle (h tok htok)

lemma redirs_of_not (h : ∀ tok ∈ rest.head?, tok.redirMode = none) :
    takeRedirs rest = some ([], rest) := by
  cases rest with
  | nil => rfl
  | cons tok ts => rw [takeRedirs, h tok (by simp)]

lemma Redirs.redirs (h : Redirs us rs)
    (hrest : ∀ tok ∈ rest.head?, tok.redirMode = none) : takeRedirs (us ++ rest) = some (rs, rest) := by
  induction h with
  | nil => exact redirs_of_not hrest
  | cons hmode _ ih => simp [takeRedirs, hmode, ih]

lemma Args.head (h : Args us ws rs) {P : Token → Prop} (hword : ∀ w, P (.word w))
    (hrest : ∀ tok ∈ rest.head?, P tok) : ∀ tok ∈ (us ++ rest).head?, P tok := by
  cases h with
  | nil => exact hrest
  | cons _ _ => simpa using hword _

lemma Ends.redirMode (h : Ends .exec rest) :
    ∀ tok ∈ rest.head?, tok.redirMode = none := by
  intro tok htok
  have hmem := h tok htok
  simp only [Nonterminal.follow, mem_cons, not_mem_nil, or_false] at hmem
  rcases hmem with rfl | rfl | rfl | rfl <;> rfl

lemma args_of_ends (h : Ends .exec rest) (k : ℕ) :
    takeArgs k rest = some ([], [], rest) := by
  cases rest with
  | nil => simp [takeArgs]
  | cons tok ts =>
    have hmem := h tok (by simp)
    simp only [Nonterminal.follow, mem_cons, not_mem_nil, or_false] at hmem
    rcases hmem with rfl | rfl | rfl | rfl <;> simp [takeArgs, ahead, Token.symbol]

lemma Args.args (h : Args us ws rs) (hrest : Ends .exec rest) (hk : ws.length ≤ k) :
    takeArgs k (us ++ rest) = some (ws, rs, rest) := by
  induction h generalizing k with
  | nil => exact args_of_ends hrest k
  | cons hr ha ih =>
    cases k with
    | zero => simp at hk
    | succ k =>
      have hr' := hr.redirs (ha.head (fun _ => rfl) hrest.redirMode)
      simp [takeArgs, hr', ih (Nat.le_of_succ_le_succ hk)]

lemma amps_replicate (k : ℕ) (h : .amp ∉ rest.head?) :
    takeAmps (replicate k .amp ++ rest) = (k, rest) := by
  induction k with
  | zero =>
    rw [replicate_zero, nil_append]
    unfold takeAmps
    split
    · simp at h
    · rfl
  | succ k ih => rw [replicate_succ, cons_append, takeAmps, ih]

/-- How deep the recursion can go. -/
def Nonterminal.depth : Nonterminal → ℕ
  | .line => 4
  | .pipe => 3
  | .exec => 2

/-- **Predictive parsing** finds every derivation. -/
lemma Derives.take {nt : Nonterminal} (h : Derives nt us t)
    {l : List Token} (hrest : Ends nt l) {n : ℕ}
    (hn : 4 * (us ++ l).length + nt.depth ≤ n) : take nt n (us ++ l) = some (t, l) := by
  induction h generalizing l n with
  | line k hp ih =>
    obtain ⟨n, rfl⟩ : ∃ m, n = m + 1 := ⟨n - 1, by simp [Nonterminal.depth] at hn; omega⟩
    have hends : Ends .pipe (replicate k .amp ++ l) := by
      cases k with
      | zero => exact hrest.mono (by simp [Nonterminal.follow])
      | succ k => simp [Ends, replicate_succ, Nonterminal.follow]
    have hp := ih hends (n := n) (by simp [Nonterminal.depth] at hn ⊢; omega)
    have hamps : takeAmps (replicate k .amp ++ l) = (k, l) :=
      amps_replicate k fun hamp => by simpa [Nonterminal.follow] using hrest _ hamp
    rw [Sh.take] at hp
    rw [Sh.take, takeLine, append_assoc, hp, Option.bind_some, hamps]
    cases l with
    | nil => rfl
    | cons tok l =>
      obtain rfl : tok = .rpar := by simpa [Nonterminal.follow] using hrest tok (by simp)
      rfl
  | @list ts t us u k hp hl ihp ihl =>
    obtain ⟨n, rfl⟩ : ∃ m, n = m + 1 := ⟨n - 1, by simp [Nonterminal.depth] at hn; omega⟩
    have hends : Ends .pipe (replicate k .amp ++ .semi :: (us ++ l)) := by
      cases k <;> simp [Ends, replicate_succ, Nonterminal.follow]
    have hp := ihp hends (n := n) (by simp [Nonterminal.depth] at hn ⊢; omega)
    have hl := ihl hrest (n := n) (by simp [Nonterminal.depth] at hn ⊢; omega)
    have hamps : takeAmps (replicate k .amp ++ .semi :: (us ++ l)) =
        (k, .semi :: (us ++ l)) := amps_replicate k (by simp)
    rw [Sh.take] at hp
    rw [Sh.take] at hl
    rw [Sh.take, takeLine, append_assoc, append_assoc, cons_append, hp,
      Option.bind_some, hamps]
    simp [hl]
  | exec he ih =>
    obtain ⟨n, rfl⟩ : ∃ m, n = m + 1 := ⟨n - 1, by simp [Nonterminal.depth] at hn; omega⟩
    have he := ih (hrest.mono (by simp [Nonterminal.follow])) (n := n)
      (by simp [Nonterminal.depth] at hn ⊢; omega)
    rw [Sh.take] at he
    rw [Sh.take, takePipe, he, Option.bind_some]
    cases l with
    | nil => rfl
    | cons tok l =>
      have htok := hrest tok (by simp)
      simp only [Nonterminal.follow, mem_cons, not_mem_nil, or_false] at htok
      rcases htok with rfl | rfl | rfl <;> rfl
  | pipe he hp ihe ihp =>
    obtain ⟨n, rfl⟩ : ∃ m, n = m + 1 := ⟨n - 1, by simp [Nonterminal.depth] at hn; omega⟩
    have he := ihe (l := .pipe :: (_ ++ l)) (by simp [Ends, Nonterminal.follow]) (n := n)
      (by simp [Nonterminal.depth] at hn ⊢; omega)
    have hp := ihp hrest (n := n) (by simp [Nonterminal.depth] at hn ⊢; omega)
    rw [Sh.take] at he
    rw [Sh.take] at hp
    rw [Sh.take, takePipe, append_assoc, cons_append, he, Option.bind_some]
    simp [hp]
  | block hl hr ih =>
    obtain ⟨n, rfl⟩ : ∃ m, n = m + 2 := ⟨n - 2, by simp [Nonterminal.depth] at hn; omega⟩
    have hl := ih (l := .rpar :: (_ ++ l)) (by simp [Ends, Nonterminal.follow]) (n := n)
      (by simp [Nonterminal.depth] at hn ⊢; omega)
    have hr := hr.redirs hrest.redirMode
    rw [Sh.take] at hl
    simp only [Sh.take, takeExec, cons_append, List.head?_cons, if_true, takeBlock,
      append_assoc, hl, Option.bind_some, hr, Option.map_some]
  | @simple ts rs us ws rs' hr ha hlen =>
    obtain ⟨n, rfl⟩ : ∃ m, n = m + 1 := ⟨n - 1, by simp [Nonterminal.depth] at hn; omega⟩
    have hr' := hr.redirs (ha.head (fun _ => rfl) hrest.redirMode)
    have ha' := ha.args hrest (k := MAXARGS - 1) (Nat.le_sub_one_of_lt hlen)
    have hhead : ∀ tok ∈ (us ++ l).head?, tok ≠ .lpar := ha.head (fun _ => nofun) fun tok htok => by
      rintro rfl
      simpa [Nonterminal.follow] using hrest _ htok
    have hne : ¬(ts ++ (us ++ l)).head? = some .lpar := by
      intro heq
      cases hr with
      | nil => exact hhead _ heq rfl
      | cons hmode _ =>
        simp only [cons_append, List.head?_cons, Option.some.injEq] at heq
        rw [heq] at hmode
        exact absurd hmode (by simp [Token.redirMode])
    rw [Sh.take, takeExec, append_assoc, if_neg hne, hr', Option.bind_some, ha',
      Option.map_some]

end Xv6.Sh
