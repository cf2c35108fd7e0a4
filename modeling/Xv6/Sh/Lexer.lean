import Xv6.Sh.Grammar

/-!
# Tokens

`At s p ts` says that `ts` are the tokens from the offset `p` on.  In these terms `peek` looks at the
first token and `gettoken` takes it.
-/

namespace Xv6.Sh

open List

variable {s : List Byte} {p : ℕ} {ts : List Token} {tok : Token}

/-! ## Scanning -/

lemma drop_eq_byteAt_cons (hp : p < s.length) : s.drop p = byteAt s p :: s.drop (p + 1) := by
  rw [drop_eq_getElem_cons hp]
  simp [byteAt, hp]

lemma byteAt_length (s : List Byte) : byteAt s s.length = 0 := by simp [byteAt]

/-- Where the loop of `gettoken` and `peek` stops. -/
lemma scan_spec (c : Byte → Bool) (n : ℕ) {p : ℕ} (hp : p ≤ s.length) (hn : n = s.length - p) :
    p ≤ scan s s.length c n p ∧ scan s s.length c n p ≤ s.length ∧
      s.drop (scan s s.length c n p) = (s.drop p).dropWhile c ∧
      (s.drop p).take (scan s s.length c n p - p) = (s.drop p).takeWhile c := by
  induction n generalizing p with
  | zero =>
    obtain rfl : p = s.length := by omega
    simp [scan]
  | succ n ih =>
    have hlt : p < s.length := by omega
    rw [scan, drop_eq_byteAt_cons hlt]
    by_cases hc : c (byteAt s p) = true
    · rw [if_pos ⟨hlt, hc⟩]
      obtain ⟨hle, hend, hdrop, htake⟩ := ih (p := p + 1) (by omega) (by omega)
      refine ⟨by omega, hend, ?_, ?_⟩
      · rw [hdrop, dropWhile_cons_of_pos hc]
      · rw [takeWhile_cons_of_pos hc, ← htake]
        generalize scan s s.length c n (p + 1) = q at *
        rw [show q - p = (q - (p + 1)) + 1 by omega, take_succ_cons]
    · rw [if_neg (by simp [hc]), dropWhile_cons_of_neg hc, takeWhile_cons_of_neg hc,
        ← drop_eq_byteAt_cons hlt]
      simp [hp]

/-! ## The first token -/

@[simp] lemma tokens_nil : tokens [] = [] := by rw [tokens]

variable {c : Byte} {cs : List Byte}

lemma tokens_white (hc : isWhite c = true) :
    tokens (c :: cs) = tokens cs := by rw [tokens, if_pos hc]

/-- White space before a token does not matter. -/
lemma tokens_dropWhile (cs : List Byte) : tokens (cs.dropWhile isWhite) = tokens cs := by
  induction cs with
  | nil => rfl
  | cons c cs ih =>
    by_cases hc : isWhite c = true
    · rw [dropWhile_cons_of_pos hc, tokens_white hc, ih]
    · rw [dropWhile_cons_of_neg hc]

/-- There are no more tokens than bytes. -/
lemma length_tokens_le (cs : List Byte) : (tokens cs).length ≤ cs.length := by
  fun_induction tokens cs with
  | case1 => simp
  | case2 c cs hc ih => simp only [length_cons]; omega
  | case3 c cs hc htok hgt ih =>
    simp only [length_cons, length_tail] at ih ⊢
    omega
  | case4 c cs hc htok hgt ih => simp only [length_cons]; omega
  | case5 c cs hc tok htok hgt ih => simp only [length_cons]; omega
  | case6 c cs hc htok ih =>
    have hle := (dropWhile_suffix (l := cs) isWord).length_le
    simp only [length_cons]
    omega

/-- What `gettoken` returns for a token. -/
def Token.code : Token → Byte
  | .word _ => ch 'a'
  | .lt => ch '<'
  | .gt => ch '>'
  | .gtgt => ch '+'
  | .pipe => ch '|'
  | .amp => ch '&'
  | .semi => ch ';'
  | .lpar => ch '('
  | .rpar => ch ')'

/-- The first byte of a symbol. -/
def Token.symbol : Token → Option Byte
  | .word _ => none
  | .lt => some (ch '<')
  | .gt => some (ch '>')
  | .gtgt => some (ch '>')
  | .pipe => some (ch '|')
  | .amp => some (ch '&')
  | .semi => some (ch ';')
  | .lpar => some (ch '(')
  | .rpar => some (ch ')')

/-- What `peek` returns when `ts` are the tokens ahead. -/
def ahead (toks : List Byte) (ts : List Token) : Bool :=
  match ts.head?.bind Token.symbol with
  | none => false
  | some c => toks.contains c

/-- The tokens from the offset `p` on. -/
structure At (s : List Byte) (p : ℕ) (ts : List Token) : Prop where
  le : p ≤ s.length
  eq : tokens (s.drop p) = ts

lemma At.length_le (h : At s p ts) : ts.length ≤ s.length := by
  have hle := length_tokens_le (s.drop p)
  rw [h.eq, length_drop] at hle
  omega

/-- The word `w` is between the offsets `q` and `eq`, and does not go on there. -/
structure WordAt (s : List Byte) (q eq : ℕ) (w : List Byte) : Prop where
  le : q ≤ eq
  le_length : eq ≤ s.length
  word : (s.drop q).take (eq - q) = w
  isWord : ∀ i, q ≤ i → i < eq → isWord (byteAt s i) = true
  stop : eq = s.length ∨ Sh.isWord (byteAt s eq) = false

/-- Skipping white space leads to the first byte of the first token. -/
lemma At.skip (h : At s p ts) : ∃ q, scan s s.length isWhite (s.length - p) p = q ∧ At s q ts ∧
    (q = s.length ∧ ts = [] ∨ q < s.length ∧ isWhite (byteAt s q) = false) := by
  obtain ⟨-, hle, hdrop, -⟩ := scan_spec isWhite (s.length - p) h.le rfl
  refine ⟨_, rfl, ?_⟩
  generalize scan s s.length isWhite (s.length - p) p = q at *
  have hat : At s q ts := ⟨hle, by rw [hdrop, tokens_dropWhile, h.eq]⟩
  refine ⟨hat, ?_⟩
  by_cases hq : q = s.length
  · refine Or.inl ⟨hq, ?_⟩
    rw [← hat.eq, hq, drop_length, tokens_nil]
  · have hlt : q < s.length := by omega
    refine Or.inr ⟨hlt, ?_⟩
    have hhead := List.head?_dropWhile_not isWhite (s.drop p)
    rw [← hdrop, drop_eq_byteAt_cons hlt] at hhead
    simpa using hhead

/-! ## `peek` and `gettoken` -/

lemma ofByte_eq_some (h : Token.ofByte c = some tok) :
    tok.symbol = some c ∧ tok.code = c ∧ c ∈ symbols ∧ ∀ w, tok ≠ .word w := by
  unfold Token.ofByte at h
  split_ifs at h with h₁ h₂ h₃ h₄ h₅ h₆ h₇
  all_goals
    obtain rfl := Option.some.inj h
    subst c
    refine ⟨rfl, rfl, by decide, nofun⟩

lemma ofByte_eq_none (h : Token.ofByte c = none) : c ∉ symbols := by
  intro hc
  simp only [symbols, mem_cons, not_mem_nil, or_false] at hc
  rcases hc with rfl | rfl | rfl | rfl | rfl | rfl | rfl <;> exact absurd h (by decide)

lemma isWord_iff : isWord c = true ↔ isWhite c = false ∧ Token.ofByte c = none := by
  constructor
  · intro h
    simp only [isWord, decide_eq_true_eq] at h
    refine ⟨by simpa [isWhite] using h.1, ?_⟩
    cases htok : Token.ofByte c with
    | none => rfl
    | some tok => exact absurd (ofByte_eq_some htok).2.2.1 h.2
  · rintro ⟨hw, htok⟩
    simp only [isWord, decide_eq_true_eq]
    exact ⟨by simpa [isWhite] using hw, ofByte_eq_none htok⟩

lemma byteAt_ne_zero (hs : 0 ∉ s) (hp : p < s.length) : byteAt s p ≠ 0 := by
  intro h0
  have hmem : byteAt s p ∈ s.drop p := by
    rw [drop_eq_byteAt_cons hp]
    exact mem_cons_self
  exact hs (h0 ▸ mem_of_mem_drop hmem)

lemma tokens_word (hword : isWord c = true) :
    tokens (c :: cs) = .word (c :: cs.takeWhile isWord) :: tokens (cs.dropWhile isWord) := by
  obtain ⟨hw, hsym⟩ := isWord_iff.mp hword
  rw [tokens, if_neg (by simp [hw]), hsym]

lemma tokens_symbol (hw : isWhite c = false)
    (hsym : Token.ofByte c = some tok) (hgt : tok ≠ .gt) : tokens (c :: cs) = tok :: tokens cs := by
  rw [tokens, if_neg (by simp [hw]), hsym]
  cases tok <;> first | rfl | exact absurd rfl hgt

lemma tokens_gt (cs : List Byte) : tokens (ch '>' :: cs) =
    if cs.head? = some (ch '>') then .gtgt :: tokens cs.tail else .gt :: tokens cs := by
  rw [tokens, if_neg (by decide), show Token.ofByte (ch '>') = some .gt by decide]

/-- The first byte of a token shows in `ahead`. -/
lemma ahead_tokens (toks : List Byte) (hw : isWhite c = false)
    (htoks : ∀ c ∈ toks, c ∈ symbols) : tokens (c :: cs) ≠ [] ∧
      ahead toks (tokens (c :: cs)) = decide (c ∈ toks) := by
  cases hsym : Token.ofByte c with
  | none =>
    have hnot : c ∉ toks := fun hc => ofByte_eq_none hsym (htoks c hc)
    rw [tokens_word (isWord_iff.mpr ⟨hw, hsym⟩)]
    exact ⟨by simp, by simp [ahead, Token.symbol, hnot]⟩
  | some tok =>
    have hsymbol := (ofByte_eq_some hsym).1
    by_cases hgt : tok = .gt
    · subst hgt
      obtain rfl : ch '>' = c := Option.some.inj hsymbol
      rw [tokens_gt]
      split <;> exact ⟨by simp, by simp [ahead, Token.symbol]⟩
    · rw [tokens_symbol hw hsym hgt]
      exact ⟨by simp, by simp [ahead, hsymbol]⟩

/-- A word ends where `tokenAt` says. -/
lemma wordAt_scan (hp : p < s.length) (hword : isWord (byteAt s p) = true) : ∃ eq,
    scan s s.length isWord (s.length - p) p = eq ∧
    s.drop eq = (s.drop (p + 1)).dropWhile isWord ∧
    WordAt s p eq (byteAt s p :: (s.drop (p + 1)).takeWhile isWord) := by
  obtain ⟨hle, hend, hdrop, htake⟩ := scan_spec isWord (s.length - p) (Nat.le_of_lt hp) rfl
  refine ⟨_, rfl, ?_⟩
  generalize scan s s.length isWord (s.length - p) p = eq at *
  rw [drop_eq_byteAt_cons hp, dropWhile_cons_of_pos hword] at hdrop
  have htake' := htake
  rw [drop_eq_byteAt_cons hp, takeWhile_cons_of_pos hword, ← drop_eq_byteAt_cons hp] at htake'
  refine ⟨hdrop, hle, hend, htake', fun i hi hlt => ?_, ?_⟩
  · have hmem : byteAt s i ∈ (s.drop p).takeWhile isWord := by
      rw [← htake]
      have hget : ((s.drop p).take (eq - p))[i - p]? = some (byteAt s i) := by
        have hlen : i < s.length := by omega
        rw [List.getElem?_take_of_lt (by omega), List.getElem?_drop,
          show p + (i - p) = i by omega]
        simp [byteAt, hlen]
      exact mem_of_getElem? hget
    exact mem_takeWhile_imp hmem
  · by_cases heq : eq = s.length
    · exact Or.inl heq
    · have hlt : eq < s.length := by omega
      have hhead := List.head?_dropWhile_not isWord (s.drop (p + 1))
      rw [← hdrop, drop_eq_byteAt_cons hlt] at hhead
      exact Or.inr (by simpa using hhead)

section First

variable (hs : 0 ∉ s) (hp : p < s.length)

include hs hp

lemma tokenAt_word (hword : isWord (byteAt s p) = true) :
    tokenAt s s.length p = (ch 'a', scan s s.length isWord (s.length - p) p) := by
  obtain ⟨-, hsym⟩ := isWord_iff.mp hword
  have hnot := ofByte_eq_none hsym
  simp only [symbols, mem_cons, not_mem_nil, or_false, not_or] at hnot
  obtain ⟨hlt, hpipe, hgt, hamp, hsemi, hl, hr⟩ := hnot
  unfold tokenAt
  dsimp only
  rw [if_neg (byteAt_ne_zero hs hp), if_neg (by simp [*]), if_neg hgt]

lemma tokenAt_symbol (hsym : Token.ofByte (byteAt s p) = some tok) (hgt : tok ≠ .gt) :
    tokenAt s s.length p = (tok.code, p + 1) := by
  obtain ⟨-, hcode, hmem, -⟩ := ofByte_eq_some hsym
  have hne : byteAt s p ≠ ch '>' := by
    intro heq
    rw [heq] at hsym
    exact hgt (Option.some.inj hsym).symm
  simp only [symbols, mem_cons, not_mem_nil, or_false] at hmem
  unfold tokenAt
  dsimp only
  rw [if_neg (byteAt_ne_zero hs hp), if_pos, hcode]
  simp only [mem_cons, not_mem_nil, or_false]
  tauto

lemma tokenAt_gt (hc : byteAt s p = ch '>') : tokenAt s s.length p =
    if byteAt s (p + 1) = ch '>' then (ch '+', p + 2) else (ch '>', p + 1) := by
  unfold tokenAt
  dsimp only
  rw [if_neg (byteAt_ne_zero hs hp), hc, if_neg (by decide), if_pos rfl]

/-- What `tokenAt` finds at the first byte of a token. -/
lemma tokenAt_spec (h : At s p (tok :: ts)) (hw : isWhite (byteAt s p) = false) :
    (tokenAt s s.length p).1 = tok.code ∧ At s (tokenAt s s.length p).2 ts ∧
      ∀ w, tok = .word w → WordAt s p (tokenAt s s.length p).2 w := by
  have heq := h.eq
  rw [drop_eq_byteAt_cons hp] at heq
  cases hsym : Token.ofByte (byteAt s p) with
  | none =>
    have hword := isWord_iff.mpr ⟨hw, hsym⟩
    rw [tokens_word hword, List.cons.injEq] at heq
    obtain ⟨rfl, rfl⟩ := heq
    obtain ⟨eq, hscan, hdrop, hat⟩ := wordAt_scan hp hword
    rw [tokenAt_word hs hp hword, hscan]
    refine ⟨rfl, ⟨hat.le_length, by rw [hdrop]⟩, fun w hw => ?_⟩
    obtain rfl := Token.word.inj hw
    exact hat
  | some tok' =>
    obtain ⟨hsymbol, -, -, hnw⟩ := ofByte_eq_some hsym
    by_cases hgt : tok' = .gt
    · subst hgt
      have hc : byteAt s p = ch '>' := (Option.some.inj hsymbol).symm
      have hhead : (s.drop (p + 1)).head? = some (ch '>') ↔
          p + 1 < s.length ∧ byteAt s (p + 1) = ch '>' := by
        by_cases hlt : p + 1 < s.length
        · rw [drop_eq_byteAt_cons hlt]
          simp [hlt]
        · rw [drop_eq_nil_of_le (by omega)]
          simp [hlt]
      have hend : byteAt s (p + 1) = ch '>' → p + 1 < s.length := by
        intro hgg
        by_contra hge
        have h0 : byteAt s (p + 1) = 0 := by simp [byteAt, Nat.le_of_not_lt hge]
        exact absurd (h0.symm.trans hgg) (by decide)
      rw [hc, tokens_gt] at heq
      rw [tokenAt_gt hs hp hc]
      by_cases hgg : byteAt s (p + 1) = ch '>'
      · rw [if_pos (hhead.mpr ⟨hend hgg, hgg⟩), tail_drop, List.cons.injEq] at heq
        obtain ⟨rfl, rfl⟩ := heq
        rw [if_pos hgg]
        exact ⟨rfl, ⟨hend hgg, rfl⟩, nofun⟩
      · rw [if_neg (fun hh => hgg (hhead.mp hh).2), List.cons.injEq] at heq
        obtain ⟨rfl, rfl⟩ := heq
        rw [if_neg hgg]
        exact ⟨rfl, ⟨hp, rfl⟩, nofun⟩
    · rw [tokens_symbol hw hsym hgt, List.cons.injEq] at heq
      obtain ⟨rfl, rfl⟩ := heq
      rw [tokenAt_symbol hs hp hsym hgt]
      exact ⟨rfl, ⟨hp, rfl⟩, fun w hw => absurd hw (hnw w)⟩

end First

/-- `gettoken` takes the first token. -/
lemma gettoken_cons (hs : 0 ∉ s) (h : At s p (tok :: ts)) :
    Returns (gettoken s s.length) (fun r p' => r.1 = tok.code ∧ At s p' ts ∧
      ∀ w, tok = .word w → WordAt s r.2.1 r.2.2 w) p := by
  simp only [Returns, gettoken, wp_bind, wp_get]
  obtain ⟨q, hq, hat, hcase⟩ := h.skip
  rw [hq]
  rcases hcase with ⟨-, hnil⟩ | ⟨hlt, hw⟩
  · exact absurd hnil (by simp)
  obtain ⟨hcode, hat', hword⟩ := tokenAt_spec hs hlt hat hw
  obtain ⟨q', hq', hat'', -⟩ := hat'.skip
  simp only [wp_set, wp_pure]
  rw [hq']
  exact ⟨hcode, hat'', hword⟩

/-- At the end of the line `gettoken` returns 0. -/
lemma gettoken_nil (h : At s p []) :
    Returns (gettoken s s.length) (fun r p' => r.1 = 0 ∧ At s p' []) p := by
  simp only [Returns, gettoken, wp_bind, wp_get]
  obtain ⟨q, hq, hat, hcase⟩ := h.skip
  rw [hq]
  rcases hcase with ⟨rfl, -⟩ | ⟨hlt, hw⟩
  · have htok : tokenAt s s.length s.length = (0, s.length) := by
      unfold tokenAt
      dsimp only
      rw [byteAt_length, if_pos rfl]
    obtain ⟨q', hq', hat', -⟩ := hat.skip
    simp only [htok, wp_set, wp_pure]
    rw [hq']
    exact ⟨trivial, hat'⟩
  · have heq := hat.eq
    rw [drop_eq_byteAt_cons hlt] at heq
    exact absurd heq (ahead_tokens [] hw (by simp)).1

/-- `peek` looks at the first token. -/
lemma peek_spec (hs : 0 ∉ s) (h : At s p ts) {toks : List Byte} (htoks : ∀ c ∈ toks, c ∈ symbols) :
    Returns (peek s s.length toks) (fun b p' => b = ahead toks ts ∧ At s p' ts) p := by
  simp only [Returns, peek, wp_bind, wp_get]
  obtain ⟨q, hq, hat, hcase⟩ := h.skip
  rw [hq]
  simp only [wp_set, wp_pure]
  refine ⟨?_, hat⟩
  rcases hcase with ⟨rfl, rfl⟩ | ⟨hlt, hw⟩
  · simp [byteAt_length, ahead]
  · rw [← hat.eq, drop_eq_byteAt_cons hlt, (ahead_tokens _ hw htoks).2]
    exact decide_eq_decide.mpr (and_iff_right (byteAt_ne_zero hs hlt))

end Xv6.Sh
