import SplitCalc.Evaluate

/-!
# The calculator and its keypad

The calculator holds the text of its display. A key adds its label to the display, clears it,
replaces it by its value, or replaces it by a function of its value; a value that does not
exist is shown as `Error`. Only keys change the display: the field that shows it cannot be
typed into.
-/

namespace SplitCalc

/-! ### Commands -/

/-- What a key does. -/
inductive Command
  /-- Adds a text to the display. -/
  | append (text : Text)
  /-- Empties the display. -/
  | clear
  /-- Replaces the display by its value. -/
  | equals
  /-- Replaces the display by a function of its value. -/
  | apply (f : UnaryFunction)
deriving DecidableEq

/-- The label of the key that empties the display. -/
def clearLabel : Text :=
  ['C', 'l', 'e', 'a', 'r']

/-- The label of the key that evaluates the display. -/
def equalsLabel : Text :=
  ['=']

/-- The command of a label; a label without a meaning of its own is added to the display. -/
def Command.ofLabel (label : Text) : Command :=
  if label = clearLabel then .clear
  else if label = equalsLabel then .equals
  else
    match UnaryFunction.ofSymbol? label with
    | some f => .apply f
    | none => .append label

/-! ### The calculator -/

/-- The state of the calculator. -/
structure Calculator where
  /-- The text of the display. -/
  display : Text
deriving DecidableEq

namespace Calculator

/-- A calculator with an empty display. -/
def start : Calculator :=
  ⟨[]⟩

/-- The calculator after a command. -/
def perform (calculator : Calculator) : Command → Calculator
  | .append text => ⟨calculator.display ++ text⟩
  | .clear => start
  | .equals => ⟨showResult (evaluate? calculator.display)⟩
  | .apply f => ⟨showResult ((evaluate? calculator.display).bind f.value?)⟩

/-- The calculator after a run of commands. -/
def run (calculator : Calculator) (commands : List Command) : Calculator :=
  commands.foldl perform calculator

/-- The calculator after a click on a label. -/
def click (calculator : Calculator) (label : Text) : Calculator :=
  calculator.perform (.ofLabel label)

@[simp]
theorem run_nil (calculator : Calculator) : calculator.run [] = calculator :=
  rfl

@[simp]
theorem run_cons (calculator : Calculator) (command : Command) (rest : List Command) :
    calculator.run (command :: rest) = (calculator.perform command).run rest :=
  rfl

/-- Two runs are made one after the other. -/
theorem run_append (calculator : Calculator) (first second : List Command) :
    calculator.run (first ++ second) = (calculator.run first).run second :=
  List.foldl_append

/-- Texts that are added one by one stand behind the display in their order. -/
theorem run_map_append (calculator : Calculator) (texts : List Text) :
    calculator.run (texts.map .append) = ⟨calculator.display ++ texts.flatten⟩ := by
  induction texts generalizing calculator with
  | nil => simp
  | cons text texts ih =>
    rw [List.map_cons, run_cons, ih, perform, List.flatten_cons, List.append_assoc]

end Calculator

/-! ### The keypad -/

namespace Keypad

/-- The labels of the keys, row by row from top to bottom. -/
def rows : List (List Text) :=
  [ [['7'], ['8'], ['9'], ['/']],
    [['4'], ['5'], ['6'], ['*']],
    [['1'], ['2'], ['3'], ['-']],
    [['0'], clearLabel, equalsLabel, ['+']],
    [['√'], ['^'], ['s', 'i', 'n'], ['c', 'o', 's']],
    [['l', 'o', 'g'], ['!'], ['t', 'a', 'n']] ]

/-- The labels of the keys in reading order. -/
def labels : List Text :=
  rows.flatten

/-- The label of the key in a row and a column, both counted from zero. -/
def labelAt? (row column : Nat) : Option Text :=
  rows[row]?.bind fun keys => keys[column]?

end Keypad

/-! ### Gestures -/

/-- What a user does to the window. -/
inductive Gesture
  /-- Clicks on a cell of the keypad. -/
  | press (row column : Nat)
  /-- Types a text into the display. -/
  | type (text : Text)
deriving DecidableEq

/-- The calculator after a gesture. A cell without a key does nothing, and neither does
typing. -/
def Calculator.react (calculator : Calculator) : Gesture → Calculator
  | .press row column => ((Keypad.labelAt? row column).map calculator.click).getD calculator
  | .type _ => calculator

end SplitCalc
