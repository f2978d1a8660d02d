import SplitCalc.Text
import SplitCalc.Digits
import SplitCalc.Rounding
import SplitCalc.Scaled
import SplitCalc.Decimal.Basic
import SplitCalc.Decimal.Literal
import SplitCalc.Decimal.Canonical
import SplitCalc.Decimal.Arithmetic
import SplitCalc.Decimal.Quotient
import SplitCalc.Decimal.Truncation
import SplitCalc.Double.Basic
import SplitCalc.Double.Arithmetic
import SplitCalc.Double.Shortest
import SplitCalc.Double.Enclosure
import SplitCalc.Double.Elementary
import SplitCalc.Decimal.Double
import SplitCalc.Factorial
import SplitCalc.Operation
import SplitCalc.Rule
import SplitCalc.Evaluate
import SplitCalc.Keypad
import SplitCalc.CommandLine
import SplitCalc.Main
import SplitCalc.Proofs.Evaluation
import SplitCalc.Proofs.Numeral
import SplitCalc.Proofs.Rendering
import SplitCalc.Proofs.Splitting
import SplitCalc.Proofs.Precedence
import SplitCalc.Proofs.Acceptance
import SplitCalc.Proofs.Persistence
import SplitCalc.Proofs.OperatorPosition
import SplitCalc.Proofs.ChainEvaluation
import SplitCalc.Proofs.Redisplay
import SplitCalc.Proofs.Continuation
import SplitCalc.Proofs.Value
import SplitCalc.Proofs.Rounding
import SplitCalc.Proofs.CorrectRounding
import SplitCalc.Proofs.Grid
import SplitCalc.Proofs.Quotient
import SplitCalc.Proofs.ExactArithmetic
import SplitCalc.Proofs.Magnitude
import SplitCalc.Proofs.DoubleArithmetic
import SplitCalc.Proofs.Power
import SplitCalc.Proofs.Rejection
import SplitCalc.Proofs.PowerLaws
import SplitCalc.Proofs.Enclosure
import SplitCalc.Proofs.SquareRoot
import SplitCalc.Proofs.Logarithm
import SplitCalc.Proofs.Trigonometry
import SplitCalc.Proofs.DigitEstimate
import SplitCalc.Proofs.Factorial
import SplitCalc.Proofs.Shortest
import SplitCalc.Proofs.ShownText
import SplitCalc.Proofs.DoubleConversion
import SplitCalc.Proofs.FunctionPosition
import SplitCalc.Proofs.FunctionChain
import SplitCalc.Proofs.FunctionKeys
import SplitCalc.Proofs.Nesting
import SplitCalc.Proofs.FirstSplit
import SplitCalc.Proofs.KeypadRun
import SplitCalc.Proofs.FunctionDomain
import SplitCalc.Proofs.MachineArithmetic
