import Xv6.Lib.Bytes
import Xv6.Lib.Hoare

/-!
# The parser of the shell

The parsing part of `user/sh.c`.  The line is a list of bytes with a NUL after it, a pointer into it is
an offset, and `*ps` is the state of the parser.  A C loop is a recursion on a bound for the number of
its iterations, which is never reached.

`malloc` is taken to succeed.  `parseexec` stores into an `execcmd` that `parseredirs` has wrapped
already; here `parseredirs` collects the redirections, and `wrap` puts them around the command.
-/

namespace Xv6.Sh

def MAXARGS : ℕ := 10

def O_RDONLY : ℕ := 0x000
def O_WRONLY : ℕ := 0x001
def O_CREATE : ℕ := 0x200
def O_TRUNC : ℕ := 0x400

/-! ## Commands -/

/-- `struct execcmd`: two arrays of `MAXARGS` pointers, with `none` for null. -/
structure ExecCmd where
  argv : ℕ → Option ℕ := fun _ => none
  eargv : ℕ → Option ℕ := fun _ => none

/-- What `redircmd` puts around a command. -/
structure Redir where
  file : ℕ
  efile : ℕ
  mode : ℕ
  fd : ℕ

/-- `struct cmd`. -/
inductive Cmd
  | exec (cmd : ExecCmd)
  | redir (cmd : Cmd) (r : Redir)
  | pipe (left right : Cmd)
  | list (left right : Cmd)
  | back (cmd : Cmd)

/-- A command with its redirections, a later one outside an earlier one. -/
def wrap (cmd : Cmd) (rs : List Redir) : Cmd := rs.foldl .redir cmd

/-- `a[i] = v` for an array of `MAXARGS` pointers. -/
def setArg (a : ℕ → Option ℕ) (i : ℕ) (v : Option ℕ) : Except String (ℕ → Option ℕ) :=
  if i < MAXARGS then .ok (Function.update a i v) else .error "argv: out of bounds"

/-! ## Tokens -/

/-- The byte of a character. -/
def ch (c : Char) : Byte := BitVec.ofNat 8 c.toNat

def whitespace : List Byte := [ch ' ', ch '\t', ch '\r', ch '\n', 11]

def symbols : List Byte := [ch '<', ch '|', ch '>', ch '&', ch ';', ch '(', ch ')']

def isWhite (c : Byte) : Bool := c ∈ whitespace

/-- Whether a byte goes on with a word. -/
def isWord (c : Byte) : Bool := c ∉ whitespace ∧ c ∉ symbols

abbrev ParseM := StateT ℕ (Except String)

section

variable (s : List Byte) (es : ℕ)

/-- `*p`. -/
def byteAt (p : ℕ) : Byte := s.getD p 0

/-- The loop that skips the bytes with `c`, at most `n` of them. -/
def scan (c : Byte → Bool) : ℕ → ℕ → ℕ
  | 0, p => p
  | n + 1, p => if p < es ∧ c (byteAt s p) then scan c n (p + 1) else p

/-- The `switch` of `gettoken`: the token that starts at `q`, and where it ends. -/
def tokenAt (q : ℕ) : Byte × ℕ :=
  let c := byteAt s q
  if c = 0 then (c, q)
  else if c ∈ [ch '|', ch '(', ch ')', ch ';', ch '&', ch '<'] then (c, q + 1)
  else if c = ch '>' then
    if byteAt s (q + 1) = ch '>' then (ch '+', q + 2) else (c, q + 1)
  else (ch 'a', scan s es isWord (es - q) q)

/-- Get the next token: what it is, and where it starts and ends. -/
def gettoken : ParseM (Byte × ℕ × ℕ) := do
  let p ← get
  let q := scan s es isWhite (es - p) p
  let (ret, eq) := tokenAt s es q
  set (scan s es isWhite (es - eq) eq)
  return (ret, q, eq)

/-- Whether the next token starts with one of the bytes `toks`. -/
def peek (toks : List Byte) : ParseM Bool := do
  let p ← get
  let q := scan s es isWhite (es - p) p
  set q
  return byteAt s q ≠ 0 ∧ byteAt s q ∈ toks

/-! ## Commands -/

/-- Parse redirections, and add them to `rs`. -/
def parseredirs : ℕ → List Redir → ParseM (List Redir)
  | 0, _ => throw "parseredirs: loop"
  | n + 1, rs => do
    if !(← peek s es [ch '<', ch '>']) then return rs
    let (tok, _, _) ← gettoken s es
    let (t, q, eq) ← gettoken s es
    if t ≠ ch 'a' then throw "missing file for redirection"
    if tok = ch '<' then
      parseredirs n (rs ++ [⟨q, eq, O_RDONLY, 0⟩])
    else if tok = ch '>' then
      parseredirs n (rs ++ [⟨q, eq, O_WRONLY ||| O_CREATE ||| O_TRUNC, 1⟩])
    else if tok = ch '+' then  -- >>
      parseredirs n (rs ++ [⟨q, eq, O_WRONLY ||| O_CREATE, 1⟩])
    else parseredirs n rs

/-- The end of `parseexec`. -/
def execDone (cmd : ExecCmd) (argc : ℕ) (rs : List Redir) : ParseM Cmd := do
  let argv ← setArg cmd.argv argc none
  let eargv ← setArg cmd.eargv argc none
  return wrap (.exec { argv := argv, eargv := eargv }) rs

/-- The loop of `parseexec` over the words. -/
def execLoop : ℕ → ExecCmd → ℕ → List Redir → ParseM Cmd
  | 0, _, _, _ => throw "parseexec: loop"
  | n + 1, cmd, argc, rs => do
    if ← peek s es [ch '|', ch ')', ch '&', ch ';'] then execDone cmd argc rs
    else
      let (tok, q, eq) ← gettoken s es
      if tok = 0 then execDone cmd argc rs
      else
        if tok ≠ ch 'a' then throw "syntax"
        let argv ← setArg cmd.argv argc (some q)
        let eargv ← setArg cmd.eargv argc (some eq)
        let argc := argc + 1
        if argc ≥ MAXARGS then throw "too many args"
        let rs ← parseredirs s es (es + 1) rs
        execLoop n { argv := argv, eargv := eargv } argc rs

/-- The loop of `parseline` over the `&`. -/
def backLoop : ℕ → Cmd → ParseM Cmd
  | 0, _ => throw "parseline: loop"
  | n + 1, cmd => do
    if ← peek s es [ch '&'] then
      let _ ← gettoken s es
      backLoop n (.back cmd)
    else return cmd

mutual

def parseline : ℕ → ParseM Cmd
  | 0 => throw "parseline: recursion"
  | n + 1 => do
    let cmd ← parsepipe n
    let cmd ← backLoop s es (es + 1) cmd
    if ← peek s es [ch ';'] then
      let _ ← gettoken s es
      return .list cmd (← parseline n)
    return cmd

def parsepipe : ℕ → ParseM Cmd
  | 0 => throw "parsepipe: recursion"
  | n + 1 => do
    let cmd ← parseexec n
    if ← peek s es [ch '|'] then
      let _ ← gettoken s es
      return .pipe cmd (← parsepipe n)
    return cmd

def parseblock : ℕ → ParseM Cmd
  | 0 => throw "parseblock: recursion"
  | n + 1 => do
    if !(← peek s es [ch '(']) then throw "parseblock"
    let _ ← gettoken s es
    let cmd ← parseline n
    if !(← peek s es [ch ')']) then throw "syntax - missing )"
    let _ ← gettoken s es
    return wrap cmd (← parseredirs s es (es + 1) [])

def parseexec : ℕ → ParseM Cmd
  | 0 => throw "parseexec: recursion"
  | n + 1 => do
    if ← peek s es [ch '('] then parseblock n
    else
      let rs ← parseredirs s es (es + 1) []
      execLoop s es (es + 1) {} 0 rs

end

end

/-! ## The whole line -/

/-- The loop of `nulterminate` over the words, from `i` on. -/
def nulArgs (cmd : ExecCmd) : ℕ → ℕ → Bytes → Except String Bytes
  | 0, _, _ => .error "argv: out of bounds"
  | n + 1, i, m =>
    match cmd.argv i with
    | none => .ok m
    | some _ =>
      match cmd.eargv i with
      | none => .error "null pointer"
      | some p => nulArgs cmd n (i + 1) (Function.update m p 0)

/-- NUL-terminate all the counted strings. -/
def nulterminate : Cmd → Bytes → Except String Bytes
  | .exec cmd, m => nulArgs cmd MAXARGS 0 m
  | .redir cmd r, m => do
    let m ← nulterminate cmd m
    return Function.update m r.efile 0
  | .pipe left right, m => do
    let m ← nulterminate left m
    nulterminate right m
  | .list left right, m => do
    let m ← nulterminate left m
    nulterminate right m
  | .back cmd, m => nulterminate cmd m

def strlen (s : List Byte) : ℕ := (s.takeWhile (· ≠ 0)).length

/-- Parse the line `s`: the command and the memory of the line, which the command points into. -/
def parsecmd (s : List Byte) : Except String (Cmd × Bytes) := do
  let es := strlen s
  let (cmd, p) ← parseline s es (4 * es + 4) 0
  let (_, p) ← peek s es [] p
  if p ≠ es then throw "syntax"  -- leftovers
  let m ← nulterminate cmd (byteAt s)
  return (cmd, m)

/-- What `panic` may be called with. -/
def panics : List String :=
  ["syntax", "missing file for redirection", "syntax - missing )", "too many args"]

end Xv6.Sh
