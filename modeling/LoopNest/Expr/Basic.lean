import LoopNest.Literal
import LoopNest.Text.Order

/-!
# Expressions

The tree behind instruction bodies, loop bounds and lowered programs.  Operators are calls of a
callee with the operator's name.  Everything that is neither a call nor a plain assignment is a form
with a tag: indexing (`ref`), the compound assignments, and the `block` and `while` of lowered
programs.

* `Expr.text`: the tree in one line.
* `Expr.occurs`: a name is used, as a variable or as a callee.
* `Expr.identifiers`: the variables, callees left out.
* `Expr.written`: the variable that a statement writes.
* `Expr.same`: equality by value.
-/

namespace LoopNest

/-- An expression or statement. -/
inductive Expr where
  | name (x : String)
  | literal (v : Literal)
  | call (callee : String) (args : List Expr)
  | assign (target value : Expr)
  | form (tag : String) (args : List Expr)

/-- The tag of indexing: the array first, then the indices. -/
def refTag : String := "ref"

/-- The tag of a sequence of statements. -/
def blockTag : String := "block"

/-- The tag of a loop: a condition and a body. -/
def whileTag : String := "while"

/-- The tags of the compound assignments, target first. -/
def updateTags : List String := ["+=", "-=", "*=", "/="]

namespace Expr

instance : Inhabited Expr := ⟨.literal .nothing⟩

/-- The direct parts, in order. -/
def children : Expr → List Expr
  | .name _ => []
  | .literal _ => []
  | .call _ args => args
  | .assign target value => [target, value]
  | .form _ args => args

mutual

/-- The tree in one line. -/
def text : Expr → String
  | .name x => x
  | .literal v => v.shown
  | .call callee args => callee ++ "(" ++ ", ".intercalate (textAll args) ++ ")"
  | .assign target value => text target ++ " = " ++ text value
  | .form tag args => "(" ++ tag ++ " " ++ " ".intercalate (textAll args) ++ ")"

/-- Each tree in one line. -/
def textAll : List Expr → List String
  | [] => []
  | e :: es => text e :: textAll es

end

mutual

/-- The name is used in the tree, as a variable or as a callee. -/
def occurs (x : String) : Expr → Bool
  | .name y => y == x
  | .literal _ => false
  | .call callee args => callee == x || occursAny x args
  | .assign target value => occurs x target || occurs x value
  | .form _ args => occursAny x args

/-- The name is used in one of the trees. -/
def occursAny (x : String) : List Expr → Bool
  | [] => false
  | e :: es => occurs x e || occursAny x es

end

mutual

/-- The variables of the tree from left to right.  A callee is no variable. -/
def identifiers : Expr → List String
  | .name x => [x]
  | .literal _ => []
  | .call _ args => identifiersAll args
  | .assign target value => identifiers target ++ identifiers value
  | .form _ args => identifiersAll args

/-- The variables of all the trees. -/
def identifiersAll : List Expr → List String
  | [] => []
  | e :: es => identifiers e ++ identifiersAll es

end

mutual

/-- Equality by value: the same shape and names, and literals of the same value. -/
def same : Expr → Expr → Except Literal.EqualityError Bool
  | .name x, .name y => .ok (x == y)
  | .literal v, .literal w => v.same w
  | .call f args, .call g brgs => if f = g then sameAll args brgs else .ok false
  | .assign t v, .assign u w => do if ← same t u then same v w else return false
  | .form s args, .form t brgs => if s = t then sameAll args brgs else .ok false
  | _, _ => .ok false

/-- Equality by value of two lists of trees; the first difference decides. -/
def sameAll : List Expr → List Expr → Except Literal.EqualityError Bool
  | [], [] => .ok true
  | a :: as, b :: bs => do if ← same a b then sameAll as bs else return false
  | _, _ => .ok false

end

/-! ## The written variable -/

mutual

/-- The variable at the root of a written location: through the targets of assignments and the first
arguments of forms.  A location that ends elsewhere is given back. -/
def location : Expr → Except Expr String
  | .name x => .ok x
  | .assign target _ => location target
  | .form tag args => (locationOfFirst args).getD (.error (.form tag args))
  | e => .error e

/-- The location of the first tree, if there is one. -/
def locationOfFirst : List Expr → Option (Except Expr String)
  | [] => none
  | e :: _ => some (location e)

end

/-- The variable that a statement writes; where there is none, the part of the statement that is not
a location. -/
def written : Expr → Except Expr String
  | .name x => .error (.name x)
  | e => location e

/-- A call, or a statement whose written variable occurs in the value it computes. -/
def readsOwnTarget (body : Expr) : Except Expr Bool :=
  match body with
  | .call _ _ => .ok true
  | .assign _ value => (written body).map fun x => occurs x value
  | _ => (written body).map fun x => occurs x body

end Expr
end LoopNest
