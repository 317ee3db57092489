import MonadicIR.CommandLine

open MonadicIR in
def main (args : List String) : IO UInt32 := do
  let answer := CommandLine.answer args
  for l in answer.output do
    IO.println l
  for l in answer.errors do
    IO.eprintln l
  return answer.exit.toUInt32
