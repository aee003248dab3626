import Mathlib.Data.List.Basic
import Mathlib.Logic.Function.Basic
import Mathlib.Order.Basic
import Mathlib.Tactic.Common

namespace ArmXv6.ShellParser

def MAXARGS : Nat := 10

def O_RDONLY : Nat := 0x000
def O_WRONLY : Nat := 0x001
def O_CREATE : Nat := 0x200

/-- Pointers into the line are positions in it; argv and eargv are arrays of MAXARGS of them, a null pointer in argv
is none. -/
inductive Cmd
  | exec (argv : List (Option Nat)) (eargv : List Nat)
  | redir (cmd : Cmd) (file efile mode fd : Nat)
  | pipe (left right : Cmd)
  | list (left right : Cmd)
  | back (cmd : Cmd)
  deriving DecidableEq

/-- The ways in which the parser does not return. -/
inductive Stop
  | panic (msg : String)
  | bounds
  | fuel
  deriving DecidableEq

abbrev Parse (α : Type) : Type := Except Stop α

-- " \t\r\n\v" and "<|>&;()"
def whitespace : List UInt8 := [32, 9, 13, 10, 11]
def symbols : List UInt8 := [60, 124, 62, 38, 59, 40, 41]

/-- Not null: none of the strings it is called with holds a NUL before its end. -/
def strchr (s : List UInt8) (c : UInt8) : Bool := s.contains c

section

variable (b : Nat → UInt8) (es : Nat)

/-- while (s < es && p(*s)) s++; with es - s bytes left. -/
def skip.loop (p : UInt8 → Bool) : Nat → Nat → Nat
  | 0, s => s
  | left + 1, s => if p (b s) then skip.loop p left (s + 1) else s

def skip (p : UInt8 → Bool) (s : Nat) : Nat := skip.loop b p (es - s) s

def blanks (s : Nat) : Nat := skip b es (strchr whitespace) s

def word (s : Nat) : Nat := skip b es (fun c => !strchr whitespace c && !strchr symbols c) s

/-- The switch of gettoken: its result and the end of the token. -/
def gettoken.scan (s : Nat) : UInt8 × Nat :=
  if b s = 0 then (0, s)
  else if strchr [124, 40, 41, 59, 38, 60] (b s) then (b s, s + 1)
  else if b s = 62 then if b (s + 1) = 62 then (43, s + 2) else (62, s + 1)
  else (97, word b es s)

/-- The kind of the token, where it begins and ends, and where the next one begins. -/
def gettoken (s : Nat) : UInt8 × Nat × Nat × Nat :=
  let q := blanks b es s
  let (ret, eq) := gettoken.scan b es q
  (ret, q, eq, blanks b es eq)

def peek (s : Nat) (toks : List UInt8) : Nat × Bool :=
  let s := blanks b es s
  (s, b s ≠ 0 && strchr toks (b s))

def execcmd : Cmd := .exec (List.replicate MAXARGS none) (List.replicate MAXARGS 0)

/-- argv[i] = q and eargv[i] = eq in the cell that parseexec has made, which lies under the
redirections put around it since. -/
def Cmd.store (i : Nat) (q : Option Nat) (eq : Nat) : Cmd → Parse Cmd
  | .exec argv eargv => if i < MAXARGS then .ok (.exec (argv.set i q) (eargv.set i eq)) else .error .bounds
  | .redir cmd file efile mode fd => (cmd.store i q eq).map (.redir · file efile mode fd)
  | _ => .error .bounds

def parseredirs : Nat → Cmd → Nat → Parse (Cmd × Nat)
  | 0, _, _ => .error .fuel
  | n + 1, cmd, s =>
      let (s, yes) := peek b es s [60, 62]
      if yes then
        let (tok, _, _, s) := gettoken b es s
        let (w, q, eq, s) := gettoken b es s
        if w ≠ 97 then .error (.panic "missing file for redirection")
        else
          parseredirs n
            (if tok = 60 then .redir cmd q eq O_RDONLY 0
              else if tok = 62 then .redir cmd q eq (O_WRONLY ||| O_CREATE) 1
              else if tok = 43 then .redir cmd q eq (O_WRONLY ||| O_CREATE) 1
              else cmd) s
      else .ok (cmd, s)

/-- The loop of parseexec and the two stores after it. -/
def parseexec.loop : Nat → Nat → Cmd → Nat → Parse (Cmd × Nat)
  | 0, _, _, _ => .error .fuel
  | n + 1, argc, ret, s =>
      let (s, yes) := peek b es s [124, 41, 38, 59]
      if yes then (ret.store argc none 0).map (·, s)
      else
        let (tok, q, eq, s) := gettoken b es s
        if tok = 0 then (ret.store argc none 0).map (·, s)
        else if tok ≠ 97 then .error (.panic "syntax")
        else do
          let ret ← ret.store argc (some q) eq
          if MAXARGS ≤ argc + 1 then .error (.panic "too many args")
          else do
            let (ret, s) ← parseredirs b es n ret s
            parseexec.loop n (argc + 1) ret s

def parseline.loop : Nat → Cmd → Nat → Parse (Cmd × Nat)
  | 0, _, _ => .error .fuel
  | n + 1, cmd, s =>
      let (s, yes) := peek b es s [38]
      if yes then
        let (_, _, _, s) := gettoken b es s
        parseline.loop n (.back cmd) s
      else .ok (cmd, s)

mutual

def parseline : Nat → Nat → Parse (Cmd × Nat)
  | 0, _ => .error .fuel
  | n + 1, s => do
      let (cmd, s) ← parsepipe n s
      let (cmd, s) ← parseline.loop b es n cmd s
      let (s, yes) := peek b es s [59]
      if yes then do
        let (_, _, _, s) := gettoken b es s
        let (right, s) ← parseline n s
        .ok (.list cmd right, s)
      else .ok (cmd, s)

def parsepipe : Nat → Nat → Parse (Cmd × Nat)
  | 0, _ => .error .fuel
  | n + 1, s => do
      let (cmd, s) ← parseexec n s
      let (s, yes) := peek b es s [124]
      if yes then do
        let (_, _, _, s) := gettoken b es s
        let (right, s) ← parsepipe n s
        .ok (.pipe cmd right, s)
      else .ok (cmd, s)

def parseexec : Nat → Nat → Parse (Cmd × Nat)
  | 0, _ => .error .fuel
  | n + 1, s =>
      let (s, yes) := peek b es s [40]
      if yes then parseblock n s
      else do
        let (ret, s) ← parseredirs b es n execcmd s
        parseexec.loop b es n 0 ret s

def parseblock : Nat → Nat → Parse (Cmd × Nat)
  | 0, _ => .error .fuel
  | n + 1, s =>
      let (s, yes) := peek b es s [40]
      if !yes then .error (.panic "parseblock")
      else do
        let (_, _, _, s) := gettoken b es s
        let (cmd, s) ← parseline n s
        let (s, yes) := peek b es s [41]
        if !yes then .error (.panic "syntax - missing )")
        else
          let (_, _, _, s) := gettoken b es s
          parseredirs b es n cmd s

end

end

/-- *eargv[i] = 0 for the arguments up to the null pointer. -/
def nulterminate.loop : List (Option Nat) → List Nat → (Nat → UInt8) → Nat → UInt8
  | some _ :: argv, e :: eargv, b => nulterminate.loop argv eargv (Function.update b e 0)
  | _, _, b => b

def nulterminate : Cmd → (Nat → UInt8) → Nat → UInt8
  | .exec argv eargv, b => nulterminate.loop argv eargv b
  | .redir cmd _ efile _ _, b => Function.update (nulterminate cmd b) efile 0
  | .pipe left right, b => nulterminate right (nulterminate left b)
  | .list left right, b => nulterminate right (nulterminate left b)
  | .back cmd, b => nulterminate cmd b

def buffer (line : List UInt8) (i : Nat) : UInt8 := line.getD i 0

/-- The tree and the line after nulterminate. -/
def parsecmd (line : List UInt8) : Parse (Cmd × (Nat → UInt8)) := do
  let b := buffer line
  let es := line.length
  let (cmd, s) ← parseline b es (4 * es + 4) 0
  let (s, _) := peek b es s []
  if s ≠ es then .error (.panic "syntax")
  else .ok (cmd, nulterminate cmd b)

end ArmXv6.ShellParser
