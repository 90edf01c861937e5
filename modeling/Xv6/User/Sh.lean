import Mathlib.Data.List.Basic

namespace Xv6.Sh

def MAXARGS : ℕ := 10

def O_RDONLY : ℕ := 0x000
def O_WRONLY : ℕ := 0x001
def O_CREATE : ℕ := 0x200

def ch (c : Char) : UInt8 := c.toUInt8

def whitespace : List UInt8 := [ch ' ', ch '\t', ch '\r', ch '\n', 11]

def symbols : List UInt8 := [ch '<', ch '|', ch '>', ch '&', ch ';', ch '(', ch ')']

inductive Err where
  | panic (msg : String)
  | outOfBounds
  | fuel
  deriving DecidableEq

/-- A string that ends before its second offset. -/
abbrev Word := ℕ × ℕ

structure Redir where
  file : Word
  mode : ℕ
  fd : ℕ
  deriving DecidableEq

inductive Cmd where
  | exec (argv : List Word)
  | redir (cmd : Cmd) (r : Redir)
  | pipe (left right : Cmd)
  | list (left right : Cmd)
  | back (cmd : Cmd)
  deriving DecidableEq

/-- `cmd->argv[argc] = q` and `cmd->eargv[argc] = eq`, where redirections may have been put around
the command. -/
def Cmd.addArg (w : Word) : Cmd → Cmd
  | exec argv => exec (argv ++ [w])
  | redir c r => redir (c.addArg w) r
  | c => c

section Tokens

variable (mem : List UInt8) (es : ℕ)

def read (s : ℕ) : Except Err UInt8 :=
  match mem[s]? with
  | some c => .ok c
  | none => .error .outOfBounds

/-- Go on while there are such characters, for at most `n` of them. -/
def skip (p : UInt8 → Bool) : ℕ → ℕ → Except Err ℕ
  | 0, s => .ok s
  | n + 1, s => do
    let c ← read mem s
    if p c then skip p n (s + 1) else .ok s

def isWhite (c : UInt8) : Bool := whitespace.contains c

def inWord (c : UInt8) : Bool := !whitespace.contains c && !symbols.contains c

structure Token where
  ret : UInt8
  q : ℕ
  eq : ℕ
  s : ℕ

def endToken (ret : UInt8) (q eq : ℕ) : Except Err Token := do
  let s ← skip mem isWhite (es - eq) eq
  .ok ⟨ret, q, eq, s⟩

def gettoken (s : ℕ) : Except Err Token := do
  let q ← skip mem isWhite (es - s) s
  let c ← read mem q
  if c = 0 then endToken mem es c q q
  else if [ch '|', ch '(', ch ')', ch ';', ch '&', ch '<'].contains c then
    endToken mem es c q (q + 1)
  else if c = ch '>' then do
    let d ← read mem (q + 1)
    if d = ch '>' then endToken mem es (ch '+') q (q + 2) else endToken mem es c q (q + 1)
  else do
    let eq ← skip mem inWord (es - q) q
    endToken mem es (ch 'a') q eq

def peek (toks : List UInt8) (s : ℕ) : Except Err (Bool × ℕ) := do
  let s ← skip mem isWhite (es - s) s
  let c ← read mem s
  .ok (c ≠ 0 && toks.contains c, s)

end Tokens

section Parse

variable (mem : List UInt8) (es : ℕ)

def redirOf (tok : UInt8) (file : Word) : Option Redir :=
  if tok = ch '<' then some ⟨file, O_RDONLY, 0⟩
  else if tok = ch '>' then some ⟨file, O_WRONLY ||| O_CREATE, 1⟩
  else if tok = ch '+' then some ⟨file, O_WRONLY ||| O_CREATE, 1⟩
  else none

def parseredirs : ℕ → Cmd → ℕ → Except Err (Cmd × ℕ)
  | 0, _, _ => .error .fuel
  | n + 1, cmd, s => do
    let p ← peek mem es [ch '<', ch '>'] s
    if p.1 then
      let tok ← gettoken mem es p.2
      let file ← gettoken mem es tok.s
      if file.ret ≠ ch 'a' then .error (.panic "missing file for redirection")
      else match redirOf tok.ret (file.q, file.eq) with
        | some r => parseredirs n (.redir cmd r) file.s
        | none => parseredirs n cmd file.s
    else .ok (cmd, p.2)

def parseargs : ℕ → Cmd → ℕ → ℕ → Except Err (Cmd × ℕ)
  | 0, _, _, _ => .error .fuel
  | n + 1, cmd, argc, s => do
    let p ← peek mem es [ch '|', ch ')', ch '&', ch ';'] s
    if p.1 then .ok (cmd, p.2)
    else
      let tok ← gettoken mem es p.2
      if tok.ret = 0 then .ok (cmd, tok.s)
      else if tok.ret ≠ ch 'a' then .error (.panic "syntax")
      else if MAXARGS ≤ argc + 1 then .error (.panic "too many args")
      else
        let r ← parseredirs mem es n (cmd.addArg (tok.q, tok.eq)) tok.s
        parseargs n r.1 (argc + 1) r.2

def parsebacks : ℕ → Cmd → ℕ → Except Err (Cmd × ℕ)
  | 0, _, _ => .error .fuel
  | n + 1, cmd, s => do
    let p ← peek mem es [ch '&'] s
    if p.1 then
      let tok ← gettoken mem es p.2
      parsebacks n (.back cmd) tok.s
    else .ok (cmd, p.2)

mutual

def parseline : ℕ → ℕ → Except Err (Cmd × ℕ)
  | 0, _ => .error .fuel
  | n + 1, s => do
    let l ← parsepipe n s
    let l ← parsebacks mem es n l.1 l.2
    let p ← peek mem es [ch ';'] l.2
    if p.1 then
      let tok ← gettoken mem es p.2
      let r ← parseline n tok.s
      .ok (.list l.1 r.1, r.2)
    else .ok (l.1, p.2)

def parsepipe : ℕ → ℕ → Except Err (Cmd × ℕ)
  | 0, _ => .error .fuel
  | n + 1, s => do
    let l ← parseexec n s
    let p ← peek mem es [ch '|'] l.2
    if p.1 then
      let tok ← gettoken mem es p.2
      let r ← parsepipe n tok.s
      .ok (.pipe l.1 r.1, r.2)
    else .ok (l.1, p.2)

def parseblock : ℕ → ℕ → Except Err (Cmd × ℕ)
  | 0, _ => .error .fuel
  | n + 1, s => do
    let p ← peek mem es [ch '('] s
    if !p.1 then .error (.panic "parseblock")
    else
      let tok ← gettoken mem es p.2
      let l ← parseline n tok.s
      let p ← peek mem es [ch ')'] l.2
      if !p.1 then .error (.panic "syntax - missing )")
      else
        let tok ← gettoken mem es p.2
        parseredirs mem es n l.1 tok.s

def parseexec : ℕ → ℕ → Except Err (Cmd × ℕ)
  | 0, _ => .error .fuel
  | n + 1, s => do
    let p ← peek mem es [ch '('] s
    if p.1 then parseblock n p.2
    else
      let r ← parseredirs mem es n (.exec []) p.2
      parseargs mem es n r.1 0 r.2

end

/-- `nulterminate`, which writes into the line. -/
def nulterminate : Cmd → List UInt8 → List UInt8
  | .exec argv, mem => argv.foldl (fun mem w => mem.set w.2 0) mem
  | .redir c r, mem => (nulterminate c mem).set r.file.2 0
  | .pipe l r, mem => nulterminate r (nulterminate l mem)
  | .list l r, mem => nulterminate r (nulterminate l mem)
  | .back c, mem => nulterminate c mem

end Parse

/-- `parsecmd`: the command and the line, with its strings terminated. -/
def parsecmd (fuel : ℕ) (line : List UInt8) : Except Err (Cmd × List UInt8) := do
  let mem := line ++ [0]
  let es := line.length
  let l ← parseline mem es fuel 0
  let p ← peek mem es [] l.2
  if p.2 ≠ es then .error (.panic "syntax") else .ok (l.1, nulterminate l.1 mem)

example : (parsecmd 50 "a|b >c;".toUTF8.toList).map Prod.fst =
    .ok (.list (.pipe (.exec [(0, 1)]) (.redir (.exec [(2, 3)]) ⟨(5, 6), 0x201, 1⟩)) (.exec [])) := by
  decide +kernel

end Xv6.Sh
