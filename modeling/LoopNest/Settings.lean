import LoopNest.Text.Blank

/-!
# Settings from the environment

Four variables steer the compiler.  Two are switches that are on for a few words only; two decide
whether diagnostics are coloured.
-/

namespace LoopNest

/-- The variables that are set, with their values. -/
abbrev Environment := List (String × String)

namespace Environment

/-- The value of a variable, empty if it is not set. -/
def value (env : Environment) (name : String) : String :=
  (env.lookup name).getD ""

/-- The words that turn a switch on. -/
def onWords : List String := ["1", "true", "yes", "on"]

/-- The words that turn colour off. -/
def offWords : List String := ["0", "false", "no", "never"]

/-- A switch: on if its value, in lower case and without blanks around it, is one of the words. -/
def flag (env : Environment) (name : String) : Bool :=
  onWords.contains (String.ofList
    ((Text.strip Text.isBlank (env.value name).toList).map Char.toLower))

/-- The switch for compiling in place. -/
def inPlaceName : String := "LOOPKERNEL_IN_PLACE"

/-- The switch for writing out what was compiled. -/
def dumpName : String := "LOOPKERNEL_DUMP_IR"

/-- Diagnostics are coloured unless one of the two variables says no. -/
def colour (env : Environment) : Bool :=
  (env.value "NO_COLOR").isEmpty
    && !offWords.contains (String.ofList ((env.value "LOOPKERNEL_COLOR").toList.map Char.toLower))

end Environment
end LoopNest
