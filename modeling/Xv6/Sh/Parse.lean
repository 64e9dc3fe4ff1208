import Mathlib.Data.List.TakeWhile
import Xv6.Lib.Prog

/-!
# The parser of the shell

The parser of `sh.c`, from `gettoken` to `nulterminate`. The line is a C string, given by its characters
before the NUL; a pointer into it is a position, and the parsing functions share the position `*ps`. `malloc`
is assumed to succeed, so a command is a tree. The functions that call each other take a bound on the depth
of the calls and of their loops; to run out of it is an error of its own.
-/

namespace Xv6

namespace Sh

abbrev O_RDONLY : ℕ := 0x000
abbrev O_WRONLY : ℕ := 0x001
abbrev O_CREATE : ℕ := 0x200
abbrev O_TRUNC : ℕ := 0x400

def MAXARGS : ℕ := 10

/-! ## Tokens -/

/-- What `gettoken` returns: 0 at the end, a symbol, '+' for ">>", and 'a' for a word. -/
inductive Kind
  | eof | bar | lpar | rpar | semi | amp | lt | gt | append | word
  deriving DecidableEq

/-- A part of the line: the positions of its first character and behind its last one. -/
abbrev Span : Type := ℕ × ℕ

abbrev Token : Type := Kind × Span

/-- How the shell gives up on a line. -/
inductive Bad
  | leftovers | syntaxError | missingFile | parseblock | missingParen | tooManyArgs
  /-- The bound of the model was too small. -/
  | fuel
  deriving DecidableEq

/-- Programs that move the position `*ps`. -/
abbrev ShM : Type → Type := Prog ℕ Bad

/-- The characters of a string literal. -/
def chars (l : List Char) : List UInt8 := l.map Char.toUInt8

def whitespace : List UInt8 := chars [' ', '\t', '\r', '\n', '\x0b']

def symbols : List UInt8 := chars ['<', '|', '>', '&', ';', '(', ')']

section

variable (s : List UInt8)

/-- The character at a position; behind the last one there is the NUL. -/
def charAt (p : ℕ) : UInt8 := s.getD p 0

/-- The loop `while(s < es && f(*s)) s++`. -/
def scan (f : UInt8 → Bool) (p : ℕ) : ℕ := p + ((s.drop p).takeWhile f).length

def isSpace (c : UInt8) : Bool := c ∈ whitespace

def isWord (c : UInt8) : Bool := c ∉ whitespace ∧ c ∉ symbols

/-- The token at a position that is not a space, and the position behind it. -/
def lex (p : ℕ) : Kind × ℕ :=
  let c := charAt s p
  if c = 0 then (.eof, p)
  else if c = '|'.toUInt8 then (.bar, p + 1)
  else if c = '('.toUInt8 then (.lpar, p + 1)
  else if c = ')'.toUInt8 then (.rpar, p + 1)
  else if c = ';'.toUInt8 then (.semi, p + 1)
  else if c = '&'.toUInt8 then (.amp, p + 1)
  else if c = '<'.toUInt8 then (.lt, p + 1)
  else if c = '>'.toUInt8 then
    if charAt s (p + 1) = '>'.toUInt8 then (.append, p + 2) else (.gt, p + 1)
  else (.word, scan s isWord p)

/-- The next token. -/
def gettoken : ShM Token := do
  let p ← Prog.get
  let q := scan s isSpace p
  let (ret, eq) := lex s q
  Prog.modify fun _ => scan s isSpace eq
  pure (ret, q, eq)

/-- Is the next character one of `toks`? -/
def peek (toks : List UInt8) : ShM Bool := do
  Prog.modify (scan s isSpace)
  let p ← Prog.get
  pure (charAt s p ≠ 0 ∧ charAt s p ∈ toks)

end

/-! ## Commands -/

/-- Parsed command representation. The arguments of `exec` are the entries of `argv` and `eargv` before
the null pointer. -/
inductive Cmd
  | exec (argv : List Span)
  | redir (cmd : Cmd) (file : Span) (mode fd : ℕ)
  | pipe (left right : Cmd)
  | list (left right : Cmd)
  | back (cmd : Cmd)

/-- Store an argument in the command inside the redirections: `parseexec` keeps a pointer to it. -/
def Cmd.pushArg (a : Span) : Cmd → Cmd
  | exec argv => exec (argv ++ [a])
  | redir cmd file mode fd => redir (pushArg a cmd) file mode fd
  | cmd => cmd

variable (s : List UInt8)

/-- The redirections in front of the position, around `cmd`. -/
def parseredirs : ℕ → Cmd → ShM Cmd
  | 0, _ => Prog.panic .fuel
  | n + 1, cmd => do
    if ← peek s (chars ['<', '>']) then
      let tok ← gettoken s
      let file ← gettoken s
      if file.1 ≠ .word then Prog.panic .missingFile
      else
        match tok.1 with
        | .lt => parseredirs n (.redir cmd file.2 O_RDONLY 0)
        | .gt => parseredirs n (.redir cmd file.2 (O_WRONLY ||| O_CREATE ||| O_TRUNC) 1)
        | .append => parseredirs n (.redir cmd file.2 (O_WRONLY ||| O_CREATE) 1)
        | _ => parseredirs n cmd
    else pure cmd

/-- The loop of `parseexec` over the arguments. -/
def parseargs : ℕ → ℕ → Cmd → ShM Cmd
  | 0, _, _ => Prog.panic .fuel
  | n + 1, argc, ret => do
    if ← peek s (chars ['|', ')', '&', ';']) then pure ret
    else
      let tok ← gettoken s
      if tok.1 = .eof then pure ret
      else if tok.1 ≠ .word then Prog.panic .syntaxError
      else if MAXARGS ≤ argc + 1 then Prog.panic .tooManyArgs
      else
        let ret ← parseredirs s n (ret.pushArg tok.2)
        parseargs n (argc + 1) ret

/-- The loop of `parseline` over the '&'. -/
def parsebacks : ℕ → Cmd → ShM Cmd
  | 0, _ => Prog.panic .fuel
  | n + 1, cmd => do
    if ← peek s (chars ['&']) then
      let _ ← gettoken s
      parsebacks n (.back cmd)
    else pure cmd

mutual

def parseline : ℕ → ShM Cmd
  | 0 => Prog.panic .fuel
  | n + 1 => do
    let cmd ← parsepipe n
    let cmd ← parsebacks s n cmd
    if ← peek s (chars [';']) then
      let _ ← gettoken s
      let right ← parseline n
      pure (.list cmd right)
    else pure cmd

def parsepipe : ℕ → ShM Cmd
  | 0 => Prog.panic .fuel
  | n + 1 => do
    let cmd ← parseexec n
    if ← peek s (chars ['|']) then
      let _ ← gettoken s
      let right ← parsepipe n
      pure (.pipe cmd right)
    else pure cmd

def parseexec : ℕ → ShM Cmd
  | 0 => Prog.panic .fuel
  | n + 1 => do
    if ← peek s (chars ['(']) then parseblock n
    else
      let ret ← parseredirs s n (.exec [])
      parseargs s n 0 ret

def parseblock : ℕ → ShM Cmd
  | 0 => Prog.panic .fuel
  | n + 1 => do
    if ← peek s (chars ['(']) then
      let _ ← gettoken s
      let cmd ← parseline n
      if ← peek s (chars [')']) then
        let _ ← gettoken s
        parseredirs s n cmd
      else Prog.panic .missingParen
    else Prog.panic .parseblock

end

/-- NUL-terminate all the counted strings. -/
def nulterminate : Cmd → (ℕ → UInt8) → ℕ → UInt8
  | .exec argv, buf => argv.foldl (fun buf a => Function.update buf a.2 0) buf
  | .redir cmd file _ _, buf => Function.update (nulterminate cmd buf) file.2 0
  | .pipe left right, buf => nulterminate right (nulterminate left buf)
  | .list left right, buf => nulterminate right (nulterminate left buf)
  | .back cmd, buf => nulterminate cmd buf

/-- Parse the line: the command, and the characters after the words were terminated. -/
def parsecmd (n : ℕ) : ShM (Cmd × (ℕ → UInt8)) := do
  let cmd ← parseline s n
  let _ ← peek s []
  let p ← Prog.get
  if p ≠ s.length then Prog.panic .leftovers
  else pure (cmd, nulterminate cmd (charAt s))

end Sh

end Xv6
