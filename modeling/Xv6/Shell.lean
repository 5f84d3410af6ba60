import Xv6.Block

/-! The parser of the shell, `user/sh.c`. The line is the string that `parsecmd` is given, without
its NUL; a pointer into it is a position. -/
namespace Xv6.Shell

def ch (c : Char) : Byte := BitVec.ofNat 8 c.toNat

def whitespace : List Byte := [ch ' ', ch '\t', ch '\r', ch '\n', 11]

def symbols : List Byte := [ch '<', ch '|', ch '>', ch '&', ch ';', ch '(', ch ')']

def maxargs : ℕ := 10

structure Word where
  q : ℕ
  eq : ℕ
  deriving DecidableEq, Repr

inductive Cmd
  | exec (argv : List Word)
  | redir (cmd : Cmd) (file : Word) (mode fd : ℕ)
  | pipe (left right : Cmd)
  | list (left right : Cmd)
  | back (cmd : Cmd)
  deriving DecidableEq, Repr

/-- How parsing stops: the panics of the source, a store past the end of `argv`, and a recursion
that is not followed any further here. -/
inductive Stop
  | leftovers
  | missingFile
  | parseblock
  | missingParen
  | notAWord
  | tooManyArgs
  | overrun
  | outOfFuel
  deriving DecidableEq, Repr

abbrev Parse := Except Stop (Cmd × ℕ)

def scan (p : Byte → Bool) : List Byte → ℕ → ℕ
  | [], s => s
  | c :: cs, s => if p c then scan p cs (s + 1) else s

def skip (line : List Byte) (p : Byte → Bool) (s : ℕ) : ℕ := scan p (line.drop s) s

def isWhite (c : Byte) : Bool := whitespace.contains c

def isWordChar (c : Byte) : Bool := !whitespace.contains c && !symbols.contains c

def charAt (line : List Byte) (s : ℕ) : Byte := line.getD s 0

/-- `gettoken`: the token's code, its piece of the line, and the new `*ps`. -/
def gettoken (line : List Byte) (s : ℕ) : Byte × Word × ℕ :=
  let s := skip line isWhite s
  let q := s
  let c := charAt line s
  let r : Byte × ℕ :=
    if c = 0 then (c, s)
    else if c = ch '|' ∨ c = ch '(' ∨ c = ch ')' ∨ c = ch ';' ∨ c = ch '&' ∨ c = ch '<' then
      (c, s + 1)
    else if c = ch '>' then
      if charAt line (s + 1) = ch '>' then (ch '+', s + 2) else (c, s + 1)
    else (ch 'a', skip line isWordChar s)
  (r.1, ⟨q, r.2⟩, skip line isWhite r.2)

/-- `peek`: whether the next character is one of `toks`, and the new `*ps`. -/
def peek (line : List Byte) (s : ℕ) (toks : List Byte) : Bool × ℕ :=
  let s := skip line isWhite s
  (charAt line s ≠ 0 && toks.contains (charAt line s), s)

def redircmd (tok : Byte) (cmd : Cmd) (file : Word) : Cmd :=
  if tok = ch '<' then .redir cmd file 0x000 0
  else if tok = ch '>' then .redir cmd file (0x001 ||| 0x200 ||| 0x400) 1
  else if tok = ch '+' then .redir cmd file (0x001 ||| 0x200) 1
  else cmd

/-- `cmd->argv[argc] = q` and `cmd->eargv[argc] = eq` of the `execcmd` under the redirections. -/
def Cmd.addArg (w : Word) : Cmd → Cmd
  | .exec argv => .exec (argv ++ [w])
  | .redir cmd file mode fd => .redir (cmd.addArg w) file mode fd
  | c => c

def parseredirs (line : List Byte) : ℕ → Cmd → ℕ → Parse
  | 0, _, _ => .error .outOfFuel
  | fuel + 1, cmd, s =>
      let p := peek line s [ch '<', ch '>']
      if p.1 then
        let tok := gettoken line p.2
        let file := gettoken line tok.2.2
        if file.1 ≠ ch 'a' then .error .missingFile
        else parseredirs line fuel (redircmd tok.1 cmd file.2.1) file.2.2
      else .ok (cmd, p.2)

def parseargs (line : List Byte) : ℕ → Cmd → ℕ → ℕ → Parse
  | 0, _, _, _ => .error .outOfFuel
  | fuel + 1, ret, argc, s =>
      let p := peek line s [ch '|', ch ')', ch '&', ch ';']
      let tok := gettoken line p.2
      if p.1 then if maxargs ≤ argc then .error .overrun else .ok (ret, p.2)
      else if tok.1 = 0 then if maxargs ≤ argc then .error .overrun else .ok (ret, tok.2.2)
      else if tok.1 ≠ ch 'a' then .error .notAWord
      else if maxargs ≤ argc then .error .overrun
      else if maxargs ≤ argc + 1 then .error .tooManyArgs
      else do
        let r ← parseredirs line fuel (ret.addArg tok.2.1) tok.2.2
        parseargs line fuel r.1 (argc + 1) r.2

def parseback (line : List Byte) : ℕ → Cmd → ℕ → Parse
  | 0, _, _ => .error .outOfFuel
  | fuel + 1, cmd, s =>
      let p := peek line s [ch '&']
      if p.1 then parseback line fuel (.back cmd) (gettoken line p.2).2.2 else .ok (cmd, p.2)

mutual

def parseline (line : List Byte) : ℕ → ℕ → Parse
  | 0, _ => .error .outOfFuel
  | fuel + 1, s => do
      let r ← parsepipe line fuel s
      let r ← parseback line fuel r.1 r.2
      let p := peek line r.2 [ch ';']
      if p.1 then
        let right ← parseline line fuel (gettoken line p.2).2.2
        return (.list r.1 right.1, right.2)
      else return (r.1, p.2)

def parsepipe (line : List Byte) : ℕ → ℕ → Parse
  | 0, _ => .error .outOfFuel
  | fuel + 1, s => do
      let r ← parseexec line fuel s
      let p := peek line r.2 [ch '|']
      if p.1 then
        let right ← parsepipe line fuel (gettoken line p.2).2.2
        return (.pipe r.1 right.1, right.2)
      else return (r.1, p.2)

def parseexec (line : List Byte) : ℕ → ℕ → Parse
  | 0, _ => .error .outOfFuel
  | fuel + 1, s =>
      let p := peek line s [ch '(']
      if p.1 then parseblock line fuel p.2
      else do
        let r ← parseredirs line fuel (.exec []) p.2
        parseargs line fuel r.1 0 r.2

def parseblock (line : List Byte) : ℕ → ℕ → Parse
  | 0, _ => .error .outOfFuel
  | fuel + 1, s =>
      let p := peek line s [ch '(']
      if p.1 then do
        let r ← parseline line fuel (gettoken line p.2).2.2
        let p := peek line r.2 [ch ')']
        if p.1 then parseredirs line fuel r.1 (gettoken line p.2).2.2
        else .error .missingParen
      else .error .parseblock

end

def Cmd.words : Cmd → List Word
  | .exec argv => argv
  | .redir cmd file _ _ => cmd.words ++ [file]
  | .pipe left right => left.words ++ right.words
  | .list left right => left.words ++ right.words
  | .back cmd => cmd.words

def nulterminate : Cmd → List Byte → List Byte
  | .exec argv, buf => argv.foldl (fun buf w => buf.set w.eq 0) buf
  | .redir cmd file _ _, buf => (nulterminate cmd buf).set file.eq 0
  | .pipe left right, buf => nulterminate right (nulterminate left buf)
  | .list left right, buf => nulterminate right (nulterminate left buf)
  | .back cmd, buf => nulterminate cmd buf

/-- `parsecmd`: the command, and the buffer with the words terminated. A call of the parser consumes
a token at least in every fourth nesting. -/
def parsecmd (line : List Byte) : Except Stop (Cmd × List Byte) := do
  let r ← parseline line (4 * line.length + 4) 0
  let p := peek line r.2 []
  if p.2 ≠ line.length then .error .leftovers
  else return (r.1, nulterminate r.1 (line ++ [0]))

end Xv6.Shell
