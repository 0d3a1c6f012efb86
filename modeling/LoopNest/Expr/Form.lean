import LoopNest.Expr.Basic
import LoopNest.Report
import LoopNest.SExpr.Reader

/-!
# Expressions as S-expressions

A name is a symbol, a number or text stands for itself, a truth value is `(literal true)`, a call is
`(call callee args …)`, an assignment `(= target value)`, and a form a list headed by its tag.  A
tag that one of these heads already uses is written behind the head `generic`.

Reading goes through `Form`: the head of a call or form may be any value there.  A form whose heads
are all names is an expression; the others are refused, but only after everything malformed.

* `Expr.toSExpr`: the written value.
* `Expr.load`: from text back to the expression.
-/

namespace LoopNest

/-- The heads with a meaning of their own. -/
def reservedHeads : List String := ["call", "=", "literal", "generic", "nil"]

/-! ## Writing -/

namespace Literal

mutual

/-- A constant inside a list. -/
def datum : Literal → SExpr
  | .int n => .int n
  | .float x => .float x
  | .bool b => .symbol (if b then "true" else "false")
  | .text s => .text s
  | .machine (.float64 x) => .symbol (Machine.float64 x).text
  | .machine m => .symbol m.bare
  | .list items => .list (datumAll items)
  | .nothing => .symbol "None"

/-- The constants of a list. -/
def datumAll : List Literal → List SExpr
  | [] => []
  | item :: items => datum item :: datumAll items

end

/-- A constant on its own. -/
def toSExpr : Literal → SExpr
  | .bool b => .list [.symbol "literal", .symbol (if b then "true" else "false")]
  | v => v.datum

end Literal

namespace Expr

/-- The head of a form with the given tag. -/
def tagHead (tag : String) : List SExpr :=
  if reservedHeads.contains tag then [.symbol "generic", .symbol tag] else [.symbol tag]

mutual

/-- The written value of an expression. -/
def toSExpr : Expr → SExpr
  | .name x => .symbol x
  | .literal v => v.toSExpr
  | .call callee args => .list (.symbol "call" :: .symbol callee :: toSExprAll args)
  | .assign target value => .list [.symbol "=", toSExpr target, toSExpr value]
  | .form tag args => .list (tagHead tag ++ toSExprAll args)

/-- The written values of expressions. -/
def toSExprAll : List Expr → List SExpr
  | [] => []
  | e :: es => toSExpr e :: toSExprAll es

end

/-- The text of an expression, with lines of limited width. -/
def pretty (e : Expr) : String := e.toSExpr.pretty

/-- The text of an expression with no limit on its lines. -/
def flat (e : Expr) : String := e.toSExpr.flat

end Expr

/-! ## Reading -/

/-- An expression whose calls and forms may have any value as their head. -/
inductive Form where
  | name (x : String)
  | literal (v : Literal)
  | call (callee : SExpr) (args : List Form)
  | assign (target value : Form)
  | tagged (tag : SExpr) (args : List Form)

namespace SExpr

/-- The name that a symbol or a text spells. -/
def spelling? : SExpr → Option String
  | .symbol s => some s
  | .text s => some s
  | _ => none

/-- What the head of a list makes of the list. -/
inductive Head where
  | literal
  | call
  | assign
  | generic
  | tag (s : String)
  | none

/-- The meaning of a head.  A reserved head may also be spelled as a text; any other tag is a
symbol. -/
def headOf (head : SExpr) : Head :=
  match head.spelling? with
  | some "literal" => .literal
  | some "call" => .call
  | some "=" => .assign
  | some "generic" => .generic
  | some "nil" => .none
  | some s =>
      match head with
      | .symbol _ => .tag s
      | _ => .none
  | Option.none => .none

mutual

/-- The form that a value writes; where it writes none, the part of it that is malformed. -/
def toForm : SExpr → Except SExpr Form
  | .symbol s => .ok (.name s)
  | .int n => .ok (.literal (.int n))
  | .float x => .ok (.literal (.float x))
  | .text s => .ok (.literal (.text s))
  | .list [] => .error (.list [])
  | .list (head :: args) =>
      match headOf head, args with
      | .literal, [x] => .ok (.literal (.bool (x.spelling? = some "true")))
      | .call, callee :: args => (toForms args).map (.call callee)
      | .assign, [target, value] => do
          let target ← toForm target
          let value ← toForm value
          return .assign target value
      | .generic, tag :: args => (toForms args).map (.tagged tag)
      | .tag s, args => (toForms args).map (.tagged (.symbol s))
      | _, args => .error (.list (head :: args))
  | .brackets items => .error (.brackets items)
  | .quoted value => .error (.quoted value)

/-- The forms that values write. -/
def toForms : List SExpr → Except SExpr (List Form)
  | [] => .ok []
  | s :: ss => do
      let form ← toForm s
      let forms ← toForms ss
      return form :: forms

end

end SExpr

namespace Form

mutual

/-- The expression, if every head is a name. -/
def toExpr? : Form → Option Expr
  | .name x => some (.name x)
  | .literal v => some (.literal v)
  | .call callee args => do
      let callee ← callee.spelling?
      let args ← toExprs? args
      return .call callee args
  | .assign target value => do
      let target ← toExpr? target
      let value ← toExpr? value
      return .assign target value
  | .tagged tag args => do
      let tag ← tag.spelling?
      let args ← toExprs? args
      return .form tag args

/-- The expressions, if every head is a name. -/
def toExprs? : List Form → Option (List Expr)
  | [] => some []
  | form :: forms => do
      let e ← toExpr? form
      let es ← toExprs? forms
      return e :: es

end

end Form

/-- Why a text does not load as an expression. -/
inductive LoadError where
  /-- The text is not one S-expression. -/
  | unreadable (e : SExpr.ReadError)
  /-- A part of the value writes no expression. -/
  | malformed (part : SExpr)
  /-- A head is not a name. -/
  | unnamed (form : Form)

/-- The report of a malformed value. -/
def SExpr.malformedReport (part : SExpr) : Report :=
  ⟨.general, "malformed expression s-expression: " ++ part.shown, none⟩

/-- The form that a text writes. -/
def Form.load (text : String) : Except LoadError Form := do
  let value ← (SExpr.read text).mapError .unreadable
  value.toForm.mapError .malformed

/-- The expression that a text writes. -/
def Expr.load (text : String) : Except LoadError Expr := do
  let form ← Form.load text
  match form.toExpr? with
  | some e => .ok e
  | none => .error (.unnamed form)

end LoopNest
