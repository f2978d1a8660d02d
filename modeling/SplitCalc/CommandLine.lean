import SplitCalc.Evaluate

/-!
# The command line

The program evaluates one expression, shows its help or its version, or opens its window.
Arguments are read from left to right and the first one that decides ends the reading: a
request for help or for the version wins over all that follows it, and so does a mistake.

The argument behind `--evaluer` is its value whatever it looks like. Flags of one letter may
be joined, and then the first letter decides.
-/

namespace SplitCalc

namespace CommandLine

/-! ### Requests -/

/-- What the arguments ask for. -/
inductive Request
  /-- Evaluate an expression and print its value. -/
  | evaluate (expression : Text)
  /-- Print the help. -/
  | help
  /-- Print the version. -/
  | version
  /-- Open the window. -/
  | window
  /-- Nothing: the arguments are misused. -/
  | misuse
deriving DecidableEq

/-- The option that takes an expression. -/
def evaluateOption : Text :=
  "--evaluer".toList

/-- The request of arguments without a mistake, given the expression among them. -/
def Request.ofExpression : Option Text → Request
  | some expression => .evaluate expression
  | none => .window

/-- The request of arguments, given the expression found so far. -/
def requestFrom (found : Option Text) : List Text → Request
  | [] => .ofExpression found
  | argument :: rest =>
    if argument = "--".toList then
      if rest = [] then .ofExpression found else .misuse
    else if argument = "--help".toList then .help
    else if argument = "--version".toList then .version
    else if argument = evaluateOption then
      match found, rest with
      | none, expression :: rest => requestFrom (some expression) rest
      | _, _ => .misuse
    else
      match found, Text.afterHead? (evaluateOption ++ ['=']) argument with
      | none, some expression => requestFrom (some expression) rest
      | _, _ =>
        match argument with
        | '-' :: 'h' :: _ => .help
        | '-' :: 'V' :: _ => .version
        | _ => .misuse

/-- The request of arguments. -/
def request (arguments : List Text) : Request :=
  requestFrom none arguments

/-! ### Responses -/

/-- What the program prints and how it ends. -/
structure Response where
  /-- The exit code. -/
  code : Nat
  /-- The standard output. -/
  output : Text
deriving DecidableEq

/-- The version line. -/
def versionText : Text :=
  "calculatrice 0.1.0\n".toList

/-- The usage line. -/
def usageText : Text :=
  "Usage: calculatrice_decoupe [OPTIONS]\n".toList

/-- The help. -/
def helpText : Text :=
  "Calculatrice scientifique à découpage\n\n".toList ++ usageText ++
  "\nOptions:\n".toList ++
  "      --evaluer <EXPR>  Évalue l’expression, affiche le résultat ".toList ++
  "(ou \"Error\") et quitte sans fenêtre\n".toList ++
  "  -h, --help            Print help\n".toList ++
  "  -V, --version         Print version\n".toList

/-- The response to a request; a window has none. -/
def Request.respond? : Request → Option Response
  | evaluate expression => some ⟨0, showResult (evaluate? expression) ++ ['\n']⟩
  | help => some ⟨0, helpText⟩
  | version => some ⟨0, versionText⟩
  | window => none
  | misuse => some ⟨2, []⟩

end CommandLine

end SplitCalc
