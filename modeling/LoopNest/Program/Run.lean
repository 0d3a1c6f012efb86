import LoopNest.Program.Intrinsic
import LoopNest.Program.Reader

/-!
# Running programs

One evaluator serves the trees of expressions and statements.  The parameters and every name that is
assigned somewhere are local, from the first statement on: reading one before it has a value is a
fault, also where a function of that name exists.

The order of evaluation can be seen, because a run keeps its changes when it stops at a fault.  An
assignment evaluates its value, then the list or array, then the indices.  An update evaluates the
list or array, the indices, the old element and then the value.  A call looks up its function before
it evaluates the arguments.

* `Expr.evaluate`, `Expr.execute`: the value of an expression and the effect of a statement.
* `Program.run`: runs a program on its inputs.
-/

namespace LoopNest

/-- What the names in a program mean: those that are local, and the functions for the others.  A
loop may run as often as the limit says. -/
structure Scope where
  locals : List String
  functions : Functions
  limit : Nat

namespace Scope

/-- The value of a name. -/
def lookup (scope : Scope) (x : String) : Step Value := do
  if x = Program.fixedName then return .number .plain (.bool true)
  else if scope.locals.contains x then
    match (← get).locals.find? x with
    | some value => return value
    | none => throw (.unset x)
  else
    match scope.functions.resolve? x with
    | some _ => return .function x
    | none => throw (.unknown x)

/-- Calls a value. -/
def call (scope : Scope) (callee : Value) (args : List Value) : Step Value :=
  match callee with
  | .function x =>
      match scope.functions.resolve? x with
      | some f => f args
      | none => throw .kind
  | _ => throw .kind

end Scope

/-- Gives a local name a value. -/
def World.assign (x : String) (value : Value) : Step Unit :=
  modify fun w => { w with locals := w.locals.insert x value }

/-- The value of a constant. -/
def Literal.toValue : Literal → Step Value
  | .int n => return .number .plain (.int n)
  | .float x => return .number .plain (.float x)
  | .bool b => return .number .plain (.bool b)
  | .text s => return .text s
  | .nothing => return .nothing
  | .machine (.int64 n) => return .number .plain (.int n)
  | .machine (.float64 x) => return .number .plain (.float x)
  | .machine (.float32 x) => return .number .plain (.float x.toFloat)
  | .machine (.bool b) => return .number .plain (.bool b)
  | .list _ => throw .kind

/-- The operator that a callee with so many arguments stands for: of two operands, or a sign. -/
def Operator.ofCall? (callee : String) (args : List Value) : Option (Step Value) :=
  match args with
  | [a, b] => (Operator.ofCallee? callee).map fun op => Value.binary op a b
  | [a] =>
      if callee = "-" then some (Value.sign true a)
      else if callee = "+" then some (Value.sign false a)
      else none
  | _ => none

/-- A callee with so many arguments is an operator. -/
def Operator.isCall (callee : String) (count : Nat) : Bool :=
  match count with
  | 2 => (Operator.ofCallee? callee).isSome
  | 1 => callee = "-" || callee = "+"
  | _ => false

/-- Repeats a body while a condition holds, at most so often. -/
def iterate : Nat → Step Bool → Step Unit → Step Unit
  | 0, _, _ => throw .exhausted
  | fuel + 1, condition, body => do
      if ← condition then
        body
        iterate fuel condition body

namespace Expr

mutual

/-- The value of an expression. -/
def evaluate (scope : Scope) : Expr → Step Value
  | .name x => scope.lookup x
  | .literal v => v.toValue
  | .call callee args => do
      if Operator.isCall callee args.length then
        (Operator.ofCall? callee (← evaluateAll scope args)).getD (throw .kind)
      else
        let f ← scope.lookup callee
        scope.call f (← evaluateAll scope args)
  | .assign _ _ => throw .kind
  | .form _ [] => throw .kind
  | .form tag (base :: indices) => do
      if tag = refTag then
        let base ← evaluate scope base
        base.load (← evaluateAll scope indices)
      else throw .kind

/-- The values of expressions, in order. -/
def evaluateAll (scope : Scope) : List Expr → Step (List Value)
  | [] => return []
  | e :: es => do
      let value ← evaluate scope e
      return value :: (← evaluateAll scope es)

end

/-- Puts a value where a target points. -/
def assignTo (scope : Scope) (target : Expr) (value : Value) : Step Unit := do
  match target with
  | .name x => World.assign x value
  | .form tag (base :: indices) =>
      if tag = refTag then
        let base ← evaluate scope base
        base.store (← evaluateAll scope indices) value
      else throw .kind
  | _ => throw .kind

/-- Updates what a target points to. -/
def updateAt (scope : Scope) (op : Arithmetic) (target value : Expr) : Step Unit := do
  match target with
  | .name x =>
      let old ← scope.lookup x
      World.assign x (← Value.update op old (← evaluate scope value))
  | .form tag (base :: indices) =>
      if tag = refTag then
        let base ← evaluate scope base
        let indices ← evaluateAll scope indices
        let old ← base.load indices
        base.store indices (← Value.update op old (← evaluate scope value))
      else throw .kind
  | _ => throw .kind

mutual

/-- The effect of a statement. -/
def execute (scope : Scope) : Expr → Step Unit
  | .assign target value => do assignTo scope target (← evaluate scope value)
  | .form tag args => do
      if tag = blockTag then executeAll scope args
      else if tag = whileTag then
        match args with
        | [condition, body] =>
            iterate scope.limit (do (← evaluate scope condition).truth) (execute scope body)
        | _ => throw .kind
      else
        match Arithmetic.ofUpdate? tag, args with
        | some op, [target, value] => updateAt scope op target value
        | some _, _ => throw .kind
        | none, args => discard (evaluate scope (.form tag args))
  | e => discard (evaluate scope e)

/-- The effect of statements, in order. -/
def executeAll (scope : Scope) : List Expr → Step Unit
  | [] => return
  | e :: es => do
      execute scope e
      executeAll scope es

end

mutual

/-- The names that a statement assigns. -/
def assigned : Expr → List String
  | .assign (.name x) _ => [x]
  | .form tag args =>
      if tag = blockTag || tag = whileTag then assignedAll args
      else
        match Arithmetic.ofUpdate? tag, args with
        | some _, .name x :: _ => [x]
        | _, _ => []
  | _ => []

/-- The names that statements assign. -/
def assignedAll : List Expr → List String
  | [] => []
  | e :: es => assigned e ++ assignedAll es

end

end Expr

namespace Program

/-- The scope of a program. -/
def scope (program : Program) (functions : Functions) (limit : Nat) : Scope :=
  ⟨program.parameters ++ Expr.assignedAll program.body, functions, limit⟩

/-- Runs the statements, with so many rounds for each loop, and answers the result.  The inputs must
be given for just the parameters. -/
def runWithin (limit : Nat) (program : Program) (functions : Functions) (inputs : NameMap Value) :
    Step Value := do
  if program.parameters.all inputs.contains && inputs.names.all program.parameters.contains then
    modify fun w => { w with locals := inputs }
    let scope := program.scope functions limit
    Expr.executeAll scope program.body
    program.result.evaluate scope
  else throw .kind

/-- How often a loop may run. -/
def iterationLimit : Nat := Nat.pow 10 12

/-- Runs a program on its inputs. -/
def run (program : Program) (functions : Functions) (inputs : NameMap Value) : Step Value :=
  program.runWithin iterationLimit functions inputs

end Program
end LoopNest
