import Categorial.Console

/-! # The program

Reads a lexicon from a file and sentences from the standard input.
-/

namespace Categorial.Console

/-- The arguments of the program: a file and the options of the session. -/
structure Arguments where
  file : Option String
  options : Options

def Arguments.initial : Arguments :=
  ⟨none, ⟨false, false, false, Grammar.defaultBeam, none⟩⟩

def Arguments.read (arguments : Arguments) : List String → Except String Arguments
  | [] => .ok arguments
  | arg :: value :: rest =>
    if arg = "-b" ∨ arg = "--beam" then
      match value.toNat? with
      | some beam => { arguments with options.beam := beam }.read rest
      | none => .error ("invalid beam " ++ value)
    else if arg = "-j" ∨ arg = "--threads" then
      match value.toNat? with
      | some threads => { arguments with options.threads := some threads }.read rest
      | none => .error ("invalid number of threads " ++ value)
    else match readFlag arguments arg with
      | .ok arguments => arguments.read (value :: rest)
      | .error error => .error error
  | [arg] => readFlag arguments arg
where
  readFlag (arguments : Arguments) (arg : String) : Except String Arguments :=
    if arg = "-c" ∨ arg = "--chart" then .ok { arguments with options.showChart := true }
    else if arg = "-t" ∨ arg = "--trees" then .ok { arguments with options.allTrees := true }
    else if arg = "-s" ∨ arg = "--syntax" then .ok { arguments with options.typesOnly := true }
    else if arg.startsWith "-" then .error ("unexpected argument " ++ arg)
    else if arguments.file.isSome then .error ("unexpected argument " ++ arg)
    else .ok { arguments with file := some arg }

partial def loop (session : Session) : IO Unit := do
  let stdin ← IO.getStdin
  let stdout ← IO.getStdout
  stdout.putStr prompt
  stdout.flush
  let line ← stdin.getLine
  if line.isEmpty then return
  match sentenceOf line with
  | [] => pure ()
  | sentence =>
    let began ← IO.monoMsNow
    let outcome ← IO.lazyPure fun _ => session.parse sentence
    let ended ← IO.monoMsNow
    let printed := session.print (toString (ended - began) ++ "ms") outcome
    stdout.putStr printed.out
    (← IO.getStderr).putStr printed.err
  loop session

end Categorial.Console

open Categorial.Console in
def main (args : List String) : IO UInt32 := do
  let stderr ← IO.getStderr
  match Arguments.initial.read args with
  | .error error =>
    stderr.putStrLn ("error: " ++ error)
    return 2
  | .ok ⟨none, _⟩ =>
    stderr.putStrLn "error: no lexicon file given"
    return 2
  | .ok ⟨some file, options⟩ =>
    let lexicon ← IO.FS.readFile file
    match start options lexicon with
    | .error error =>
      stderr.putStr error.render
      return 1
    | .ok session =>
      loop session
      return 0
