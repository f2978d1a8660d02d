import SplitCalc.CommandLine

/-!
# The program

Prints the response to the arguments. There is no window here, so a request for one is
refused.
-/

open SplitCalc in
/-- Runs the program on its arguments. -/
def main (arguments : List String) : IO UInt32 := do
  let request := CommandLine.request (arguments.map String.toList)
  match request.respond? with
  | some response =>
    IO.print (String.ofList response.output)
    if request = .misuse then IO.eprint (String.ofList CommandLine.usageText)
    return response.code.toUInt32
  | none =>
    IO.eprintln "no window is available"
    return 1
