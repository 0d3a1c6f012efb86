import LoopNest.Expr.Form
import LoopNest.Kernel.Basic

/-!
# Nests

A nest is a tree of loops with instructions at its leaves: what a caller declares inline, and what a
schedule comes out as.  Here it is written as an S-expression and lowered to a statement.

* `Nest.toSExpr`, `scheduleSExpr`: the written form.
* `Nest.lower`, `lowerAll`: a loop becomes an assignment of its lower bound and a `while` whose body
  ends with the step.
-/

namespace LoopNest

/-- A tree of loops with instructions at its leaves. -/
inductive Nest where
  | instruction (i : Instruction)
  | loop (head : LoopHead) (members : List Nest)

namespace Nest

/-- The name of the root. -/
def name : Nest → String
  | .instruction i => i.name
  | .loop head _ => head.name

/-- The root as it is shown. -/
def shown : Nest → String
  | .instruction i => i.shown
  | .loop head members => head.shown (members.map name)

/-- The written dependencies: nothing if there are none. -/
def depsSExpr (deps : List String) : List SExpr :=
  if deps.isEmpty then [] else [.symbol ":deps", .list (deps.map .text)]

mutual

/-- The written form of a nest. -/
def toSExpr : Nest → SExpr
  | .instruction i =>
      .list (.symbol "instruction" :: .text i.name :: (depsSExpr i.deps ++ [i.body.toSExpr]))
  | .loop head members =>
      .list (.symbol "domain" :: .text head.name :: head.lower.toSExpr :: head.upper.toSExpr
        :: head.step.toSExpr :: (depsSExpr head.deps ++ [.list (toSExprAll members)]))

/-- The written forms of nests. -/
def toSExprAll : List Nest → List SExpr
  | [] => []
  | nest :: nests => toSExpr nest :: toSExprAll nests

end

/-- A loop around a lowered body. -/
def lowerLoop (head : LoopHead) (body : List Expr) : Expr :=
  .form blockTag
    [ .assign (.name head.name) head.lower,
      .form whileTag
        [ .call "<=" [.name head.name, head.upper],
          .form blockTag (body ++ [head.step]) ] ]

mutual

/-- The statement that runs a nest. -/
def lower : Nest → Expr
  | .instruction i => i.body
  | .loop head members => lowerLoop head (lowerEach members)

/-- The statements that run nests one by one. -/
def lowerEach : List Nest → List Expr
  | [] => []
  | nest :: nests => lower nest :: lowerEach nests

end

/-- The statement that runs nests in sequence. -/
def lowerAll (nests : List Nest) : Expr := .form blockTag (lowerEach nests)

/-- The written form of a schedule. -/
def scheduleSExpr (nests : List Nest) : SExpr := .list (.symbol "schedule" :: toSExprAll nests)

end Nest
end LoopNest
