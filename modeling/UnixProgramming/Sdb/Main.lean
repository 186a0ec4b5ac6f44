import UnixProgramming.Sdb.Machine

namespace UnixProgramming.Sdb
open Lib

/-- `dbg->exec` on what `main` has for `argc` and `argv`: the words `wordexp` stored with the
NULL behind them, or `none` where it stored nothing. -/
def execWords {σ : Type} (H : Host σ) : Option (List String) → DbgM σ Unit
  | some words => exec H 3 words
  | none => throw .crash

section
variable {σ : Type} (wordexp : String → σ → Option (List String))
  (exec : Option (List String) → DbgM σ Unit)

/-- One line in the loop of `main`. `wordexp` is `none` where it does not return zero; its
result is not looked at. -/
def prompt (cmdline : String) : DbgM σ Unit := do
  if cmdline.isEmpty then
    pure ()
  else
    let p ← ask (wordexp cmdline)
    exec p

/-- The loop over what `readline` returns until its NULL. -/
def mainLoop : List String → DbgM σ Unit
  | [] => pure ()
  | cmdline :: rest => do
    prompt wordexp exec cmdline
    mainLoop rest

end

/-- `main` from the end of `init_debugger` to the end of the input. -/
def session {σ : Type} (H : Host σ) (wordexp : String → σ → Option (List String))
    (argv lines : List String) : DbgM σ Unit := do
  if 2 ≤ argv.length then
    execWords H (some (copyArgv "load" argv))
  mainLoop wordexp (execWords H) lines

def main {σ : Type} (H : Host σ) (wordexp : String → σ → Option (List String))
    (argv lines : List String) : DbgM σ Unit := do
  session H wordexp argv lines
  handle H .eof

/-- The words of a line without quotes, expansions and comments: blanks separate them, and
a character that the shell grammar has other uses for makes `wordexp` reject the line. -/
def Demo.wordexp {σ : Type} (line : String) (_ : σ) : Option (List String) :=
  if line.toList.any (fun c => "|&;<>()\x7b\x7d\n".toList.contains c) then none
  else some (((line.toList.splitOn ' ').filter fun word => !word.isEmpty).map String.ofList)

end UnixProgramming.Sdb
