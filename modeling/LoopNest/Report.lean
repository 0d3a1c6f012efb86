/-!
# Error reports

Every failure that a caller sees has a kind with a code of its own and a message.  Its text is the
code in brackets and the message; failures that point into an expression are shown as a diagnostic
instead.
-/

namespace LoopNest

/-- The kinds of failure. -/
inductive Kind where
  /-- A failure without a kind of its own. -/
  | general
  /-- Dependencies that can never be satisfied. -/
  | scheduling
  /-- An instruction whose written location cannot be read. -/
  | malformed
  /-- A kernel that breaks a structural rule. -/
  | definition
  /-- Expression text that is not in the grammar. -/
  | parsing
  /-- A lowered tree without target code. -/
  | codegen
  /-- A registered kernel called with the wrong inputs. -/
  | invocation
  deriving DecidableEq, Repr

/-- The code of a kind. -/
def Kind.code : Kind → String
  | .general => "E0001"
  | .scheduling => "E0100"
  | .malformed => "E0200"
  | .definition => "E0300"
  | .parsing => "E0400"
  | .codegen => "E0500"
  | .invocation => "E0600"

/-- A failure as it is told: its kind, its message, and a code where it differs from the kind's. -/
structure Report where
  kind : Kind
  message : String
  ownCode : Option String := none

namespace Report

/-- The code of the report; an empty code stands for the kind's. -/
def code (r : Report) : String :=
  match r.ownCode with
  | some code => if code.isEmpty then r.kind.code else code
  | none => r.kind.code

/-- The code in brackets and the message. -/
def text (r : Report) : String :=
  "[" ++ r.code ++ "] " ++ r.message

end Report
end LoopNest
