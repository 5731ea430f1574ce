import ObjectIr.CommandLine

/-!
# Program

Prints the answer to the command line.
-/

def main (args : List String) : IO UInt32 := do
  let answer := ObjectIr.CommandLine.answer (.ofArgs args)
  IO.print answer.stdout
  IO.eprint answer.stderr
  return answer.exit.toUInt32
