import Xv6.Sh.Basic

/-!
# The language of the shell

The tokens of a line and the grammar that the parser of `user/sh.c` is written for:

* line ::= pipe `&`* [`;` line]
* pipe ::= exec [`|` pipe]
* exec ::= `(` line `)` redir* | redir* (word redir*)*, with fewer than `MAXARGS` words
* redir ::= (`<` | `>` | `>>`) word
-/

namespace Xv6.Sh

/-! ## Tokens -/

inductive Token
  | word (w : List Byte)
  | lt
  | gt
  | gtgt
  | pipe
  | amp
  | semi
  | lpar
  | rpar
  deriving DecidableEq

/-- The symbol that a byte is, on its own. -/
def Token.ofByte (c : Byte) : Option Token :=
  if c = ch '<' then some .lt
  else if c = ch '>' then some .gt
  else if c = ch '|' then some .pipe
  else if c = ch '&' then some .amp
  else if c = ch ';' then some .semi
  else if c = ch '(' then some .lpar
  else if c = ch ')' then some .rpar
  else none

/-- The tokens of a line: symbols, with `>>` for two `>` in a row, and maximal runs of other bytes
that are not white. -/
def tokens : List Byte → List Token
  | [] => []
  | c :: cs =>
    if isWhite c then tokens cs
    else
      match Token.ofByte c with
      | some .gt => if cs.head? = some (ch '>') then .gtgt :: tokens cs.tail else .gt :: tokens cs
      | some tok => tok :: tokens cs
      | none => .word (c :: cs.takeWhile isWord) :: tokens (cs.dropWhile isWord)
termination_by s => s.length
decreasing_by
  all_goals simp only [List.length_cons, List.length_tail]
  all_goals try omega
  exact Nat.lt_succ_of_le (List.dropWhile_suffix _).length_le

/-! ## Commands -/

/-- A command, with words in place of pointers. -/
inductive Tree
  | exec (args : List (List Byte))
  | redir (cmd : Tree) (file : List Byte) (mode fd : ℕ)
  | pipe (left right : Tree)
  | list (left right : Tree)
  | back (cmd : Tree)
  deriving DecidableEq

/-- A command with its redirections, a later one outside an earlier one. -/
def Tree.wrap (t : Tree) (rs : List (List Byte × ℕ × ℕ)) : Tree :=
  rs.foldl (fun t r => .redir t r.1 r.2.1 r.2.2) t

/-- The mode and the descriptor of a redirection. -/
def Token.redirMode : Token → Option (ℕ × ℕ)
  | .lt => some (O_RDONLY, 0)
  | .gt => some (O_WRONLY ||| O_CREATE ||| O_TRUNC, 1)
  | .gtgt => some (O_WRONLY ||| O_CREATE, 1)
  | _ => none

/-! ## Derivations -/

/-- redir* -/
inductive Redirs : List Token → List (List Byte × ℕ × ℕ) → Prop
  | nil : Redirs [] []
  | cons {tok : Token} {mode fd : ℕ} {w : List Byte} {ts rs} :
    tok.redirMode = some (mode, fd) → Redirs ts rs →
    Redirs (tok :: .word w :: ts) ((w, mode, fd) :: rs)

/-- (word redir*)* -/
inductive Args : List Token → List (List Byte) → List (List Byte × ℕ × ℕ) → Prop
  | nil : Args [] [] []
  | cons {w : List Byte} {ts us ws rs rs'} : Redirs ts rs → Args us ws rs' →
    Args (.word w :: (ts ++ us)) (w :: ws) (rs ++ rs')

inductive Nonterminal
  | line
  | pipe
  | exec

/-- The derivations of the grammar, with the command of each. -/
inductive Derives : Nonterminal → List Token → Tree → Prop
  | line {ts t} (n : ℕ) : Derives .pipe ts t →
    Derives .line (ts ++ List.replicate n .amp) (Tree.back^[n] t)
  | list {ts t us u} (n : ℕ) : Derives .pipe ts t → Derives .line us u →
    Derives .line (ts ++ (List.replicate n .amp ++ .semi :: us)) (.list (Tree.back^[n] t) u)
  | exec {ts t} : Derives .exec ts t → Derives .pipe ts t
  | pipe {ts t us u} : Derives .exec ts t → Derives .pipe us u →
    Derives .pipe (ts ++ .pipe :: us) (.pipe t u)
  | block {ts t us rs} : Derives .line ts t → Redirs us rs →
    Derives .exec (.lpar :: (ts ++ .rpar :: us)) (t.wrap rs)
  | simple {ts rs us ws rs'} : Redirs ts rs → Args us ws rs' → ws.length < MAXARGS →
    Derives .exec (ts ++ us) (Tree.wrap (.exec ws) (rs ++ rs'))

/-! ## The command that the parser has made -/

/-- The words of an `execcmd`, from the `i`-th on, if there is a null pointer after them; `read` is the
string between two pointers. -/
def ExecCmd.words (cmd : ExecCmd) (read : ℕ → ℕ → List Byte) : ℕ → ℕ → Option (List (List Byte))
  | 0, _ => none
  | n + 1, i =>
    match cmd.argv i, cmd.eargv i with
    | none, _ => some []
    | some _, none => none
    | some q, some eq => (cmd.words read n (i + 1)).map (read q eq :: ·)

/-- The command with the strings that it points to. -/
def Cmd.tree (read : ℕ → ℕ → List Byte) : Cmd → Option Tree
  | .exec cmd => (cmd.words read MAXARGS 0).map .exec
  | .redir cmd r => (cmd.tree read).map fun t => .redir t (read r.file r.efile) r.mode r.fd
  | .pipe left right => (left.tree read).bind fun t => (right.tree read).map fun u => .pipe t u
  | .list left right => (left.tree read).bind fun t => (right.tree read).map fun u => .list t u
  | .back cmd => (cmd.tree read).map .back

/-- The C string at `p`, of at most `n` bytes. -/
def cstring (m : Bytes) : ℕ → ℕ → List Byte
  | 0, _ => []
  | n + 1, p => if m p = 0 then [] else m p :: cstring m n (p + 1)

end Xv6.Sh
