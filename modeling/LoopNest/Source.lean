import LoopNest.Expr.Basic
import LoopNest.Number.Reader
import LoopNest.Report
import LoopNest.Text.Identifier

/-!
# Source text of generated functions

A lowered tree becomes a function with keyword parameters.  Each binary operator is written between
its operands in parentheses, a sign in front of its operand in parentheses, and every other call
with its arguments.  Blocks are spliced into the sequence around them, a loop has its body indented
by four more blanks, and the last statement also returns its value.

* `Source.term`: an expression as a value.
* `Source.statement`: the lines of a statement.
* `Source.function`: the whole function.
* `SourceError`: why a tree has no source text.
-/

namespace LoopNest

/-- Why a tree has no source text. -/
inductive SourceError where
  | notIdentifier (x : String)
  | literalKind (kind : String)
  /-- An integer has too many digits to be written. -/
  | overlong
  | assignmentAsValue (e : Expr)
  | formAsValue (tag : String)
  | whileParts (count : Nat)
  | updateParts (tag : String)
  | unknownStatement (tag : String)
  | notTarget (e : Expr)

namespace SourceError

/-- The message of an error.  An integer that is too long has none. -/
def message? : SourceError → Option String
  | .notIdentifier x => some ("`" ++ x ++ "` is not a valid Python identifier")
  | .literalKind kind => some ("cannot render literal of type " ++ kind)
  | .overlong => none
  | .assignmentAsValue e => some ("assignment `" ++ e.text ++ "` cannot be used as a value")
  | .formAsValue tag => some ("`" ++ tag ++ "` form cannot be used as a value")
  | .whileParts count =>
      some ("`while` expects a condition and a body, got " ++ toString count ++ " parts")
  | .updateParts tag => some ("`" ++ tag ++ "` expects a target and a value")
  | .unknownStatement tag => some ("unknown statement form `" ++ tag ++ "`")
  | .notTarget e => some ("cannot assign to `" ++ e.text ++ "`")

/-- The report of an error. -/
def report? (e : SourceError) : Option Report := e.message?.map fun text => ⟨.codegen, text, none⟩

end SourceError

namespace Source

/-- The spelling of a binary operator. -/
def binary? : String → Option String
  | "+" => some "+"
  | "-" => some "-"
  | "*" => some "*"
  | "/" => some "/"
  | "%" => some "%"
  | "^" => some "**"
  | "<" => some "<"
  | "<=" => some "<="
  | ">" => some ">"
  | ">=" => some ">="
  | "==" => some "=="
  | "!=" => some "!="
  | _ => none

/-- The spelling of a sign. -/
def sign? : String → Option String
  | "-" => some "-"
  | "+" => some "+"
  | _ => none

/-- A name, if it is an identifier of generated code. -/
def identifier (x : String) : Except SourceError String :=
  if Text.isIdentifier x then .ok x else .error (.notIdentifier x)

/-- A constant.  Machine numbers are written as plain ones. -/
def literal : Literal → Except SourceError String
  | .int n => if Number.overlong n then .error .overlong else .ok (toString n)
  | .machine m => .ok m.widen.shown
  | .nothing => .error (.literalKind "NoneType")
  | .list _ => .error (.literalKind "list")
  | v => .ok v.shown

/-- A call with its arguments written out. -/
def application (callee : String) (args : List String) : Except SourceError String :=
  match args, binary? callee, sign? callee with
  | [a, b], some op, _ => .ok ("(" ++ a ++ " " ++ op ++ " " ++ b ++ ")")
  | [a], _, some op => .ok ("(" ++ op ++ a ++ ")")
  | _, _, _ => (identifier callee).map fun f => f ++ "(" ++ ", ".intercalate args ++ ")"

mutual

/-- An expression as a value. -/
def term : Expr → Except SourceError String
  | .name x => identifier x
  | .literal v => literal v
  | .call callee args => do application callee (← terms args)
  | .assign target value => .error (.assignmentAsValue (.assign target value))
  | .form tag [] => .error (.formAsValue tag)
  | .form tag (base :: indices) => do
      if tag = refTag then
        let base ← term base
        let indices ← terms indices
        return base ++ "[" ++ ", ".intercalate indices ++ "]"
      else .error (.formAsValue tag)

/-- Expressions as values. -/
def terms : List Expr → Except SourceError (List String)
  | [] => .ok []
  | e :: es => do
      let first ← term e
      let rest ← terms es
      return first :: rest

end

/-- The blanks in front of a line at a depth. -/
def indent (depth : Nat) : String := String.ofList (List.replicate (4 * depth) ' ')

/-- A location that can be assigned to: a name or an indexed value. -/
def target (e : Expr) : Except SourceError String :=
  match e with
  | .name _ => term e
  | .form tag _ => if tag = refTag then term e else .error (.notTarget e)
  | _ => .error (.notTarget e)

mutual

/-- The lines of a statement at a depth. -/
def statement (depth : Nat) : Expr → Except SourceError (List String)
  | .assign t value => do
      let t ← target t
      let value ← term value
      return [indent depth ++ t ++ " = " ++ value]
  | .form tag args => do
      if tag = blockTag then
        let lines ← statements depth args
        return if lines.isEmpty then [indent depth ++ "pass"] else lines
      else if tag = whileTag then
        match args with
        | [condition, body] =>
            let condition ← term condition
            let body ← statement (depth + 1) body
            return (indent depth ++ "while " ++ condition ++ ":") :: body
        | _ => .error (.whileParts args.length)
      else if updateTags.contains tag then
        match args with
        | [t, value] =>
            let t ← target t
            let value ← term value
            return [indent depth ++ t ++ " " ++ tag ++ " " ++ value]
        | _ => .error (.updateParts tag)
      else if tag = refTag then return [indent depth ++ (← term (.form tag args))]
      else .error (.unknownStatement tag)
  | e => do return [indent depth ++ (← term e)]

/-- The lines of statements in sequence. -/
def statements (depth : Nat) : List Expr → Except SourceError (List String)
  | [] => .ok []
  | e :: es => do
      let first ← statement depth e
      let rest ← statements depth es
      return first ++ rest

end

/-- The lines of the last statement, which returns its value: what it assigned, what it computed, or
nothing. -/
def lastStatement (depth : Nat) (e : Expr) : Except SourceError (List String) := do
  match e with
  | .assign t _ =>
      let lines ← statement depth e
      return lines ++ [indent depth ++ "return " ++ (← target t)]
  | .form tag args =>
      if updateTags.contains tag then
        let lines ← statement depth e
        match args with
        | t :: _ => return lines ++ [indent depth ++ "return " ++ (← target t)]
        | [] => .error (.updateParts tag)
      else if tag = blockTag || tag = whileTag then
        return (← statement depth e) ++ [indent depth ++ "return None"]
      else return [indent depth ++ "return " ++ (← term e)]
  | _ => return [indent depth ++ "return " ++ (← term e)]

/-- The lines of a function body. -/
def bodyLines : List Expr → Except SourceError (List String)
  | [] => .ok [indent 1 ++ "return None"]
  | [e] => lastStatement 1 e
  | e :: es => do
      let first ← statement 1 e
      let rest ← bodyLines es
      return first ++ rest

/-- The statements of a lowered tree. -/
def flatten : Expr → List Expr
  | .form tag args => if tag = blockTag then args else [.form tag args]
  | e => [e]

/-- The first line of a function. -/
def signature (name : String) (parameters : List String) : String :=
  if parameters.isEmpty then "def " ++ name ++ "():"
  else "def " ++ name ++ "(*, " ++ ", ".intercalate parameters ++ "):"

/-- The source text of a function. -/
def function (name : String) (parameters : List String) (body : Expr) :
    Except SourceError String := do
  let name ← identifier name
  let parameters ← parameters.mapM identifier
  let lines ← bodyLines (flatten body)
  return String.join ((signature name parameters :: lines).map (· ++ "\n"))

end Source
end LoopNest
