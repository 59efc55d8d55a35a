import Mim.Command

/-! # The program

Reads the files that a command names, and writes what the command answers.
-/

namespace Mim.Program

/-- The contents of the files that can be read. -/
def readFiles (paths : List String) : IO (List (String × ByteArray)) := do
  let mut found := []
  for path in paths do
    try
      found := (path, ← IO.FS.readBinFile path) :: found
    catch _ => pure ()
  return found

/-- Writes what a run leaves, and gives its exit code. Arguments that are not understood
    are answered with the help page on the program. -/
def report (outcome : Command.Outcome) : IO UInt32 := do
  IO.print outcome.output
  for (name, d) in outcome.shown do
    IO.eprintln (name ++ ": " ++ d.message)
  if let some error := outcome.error then
    IO.eprintln ("error: " ++ error)
  if outcome.exit = 2 then IO.eprint (Topic.text .program)
  return outcome.exit.toUInt32

end Mim.Program

open Mim Program

def main (words : List String) : IO UInt32 := do
  let paths := ((Command.ofArguments? words).map Command.paths).getD []
  let contents ← readFiles paths
  report (Command.runArguments (fun path => contents.lookup path) words)
