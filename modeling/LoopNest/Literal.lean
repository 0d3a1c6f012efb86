import LoopNest.Number.Notation
import LoopNest.Text.Quoted

/-!
# Literals

The constants that an expression can hold.  Numbers of an expression are unbounded integers and
doubles; a caller may also hand in machine numbers of a fixed width, which print with their type and
compare by their own rule.

* `Literal.text`: the constant as it is shown in messages and in generated code.
* `Literal.same`: equality by value, across the kinds of numbers.  Where a machine number stands on
  one side the other side may have no answer to give.
-/

namespace LoopNest

/-- A number of a fixed machine format. -/
inductive Machine where
  | int64 (n : Int)
  | float64 (x : Float)
  | float32 (x : Float32)
  | bool (b : Bool)
  deriving DecidableEq

/-- A constant. -/
inductive Literal where
  | int (n : Int)
  | float (x : Float)
  | bool (b : Bool)
  | text (s : String)
  | machine (m : Machine)
  | list (items : List Literal)
  | nothing

instance : Inhabited Literal := ⟨.nothing⟩

/-- A truth value as a word. -/
def boolText (b : Bool) : String := if b then "True" else "False"

namespace Machine

/-- The number alone, without its type. -/
def bare : Machine → String
  | .int64 n => toString n
  | .float64 x => Number.floatText x
  | .float32 x => Number.singleText x
  | .bool b => boolText b

/-- The number with its type. -/
def text : Machine → String
  | .int64 n => "np.int64(" ++ toString n ++ ")"
  | .float64 x => "np.float64(" ++ Number.floatText x ++ ")"
  | .float32 x => "np.float32(" ++ Number.singleText x ++ ")"
  | .bool b => "np." ++ boolText b ++ "_"

/-- The constant of an expression with the same value. -/
def widen : Machine → Literal
  | .int64 n => .int n
  | .float64 x => .float x
  | .float32 x => .float x.toFloat
  | .bool b => .bool b

end Machine

namespace Literal

mutual

/-- The constant as it is shown. -/
def shown : Literal → String
  | .int n => toString n
  | .float x => Number.floatText x
  | .bool b => boolText b
  | .text s => Text.quote s
  | .machine m => m.text
  | .list items => "[" ++ ", ".intercalate (shownAll items) ++ "]"
  | .nothing => "None"

/-- Each of the constants as it is shown. -/
def shownAll : List Literal → List String
  | [] => []
  | item :: items => shown item :: shownAll items

end

/-! ## Equality by value -/

/-- A number as an exact integer, where it is one by kind. -/
def integer? : Literal → Option Int
  | .int n => some n
  | .bool b => some (if b then 1 else 0)
  | .machine (.int64 n) => some n
  | .machine (.bool b) => some (if b then 1 else 0)
  | _ => none

/-- An integer against a double, without rounding. -/
def intEqFloat (n : Int) (x : Float) : Bool :=
  match Number.parts x with
  | .finite negative mantissa exponent =>
      let (num, den) := Number.scale mantissa 1 exponent
      n * den = if negative then -(num : Int) else num
  | _ => false

/-- Why two constants cannot be compared. -/
inductive EqualityError where
  /-- A machine number against a list that is not a single number: the answers of the parts are not
  one answer. -/
  | ambiguous
  /-- A machine float against an integer beyond the range of floats. -/
  | overflow
  deriving DecidableEq

/-- A number rounded to double precision. -/
def double? : Literal → Option Float
  | .float x => some x
  | .machine (.float64 x) => some x
  | .machine (.float32 x) => some x.toFloat
  | v => v.integer?.map fun n => Number.ofQuotient (n < 0) n.natAbs 1

/-- A number rounded to single precision. -/
def single? (v : Literal) : Option Float32 :=
  v.double?.map Float.toFloat32

/-- The constant is a machine number. -/
def isMachine : Literal → Bool
  | .machine _ => true
  | _ => false

/-- The constant is a machine number with a fraction. -/
def isMachineFloat : Literal → Bool
  | .machine (.float64 _) | .machine (.float32 _) => true
  | _ => false

/-- Equality of numbers.  Two integers compare exactly, and so do an integer and a double of an
expression.  A machine number brings the other side to its own width first; single precision gives
way to double only against a machine number. -/
def sameNumber (a b : Literal) : Bool :=
  match a, b with
  | .machine (.float32 x), .machine (.float32 y) => x == y
  | .machine (.float32 x), other | other, .machine (.float32 x) =>
      if other.isMachine then other.double?.any (x.toFloat == ·) else other.single?.any (x == ·)
  | _, _ =>
      match a.integer?, b.integer? with
      | some m, some n => m = n
      | some n, none =>
          if a.isMachine || b.isMachine then
            (do return (← a.double?) == (← b.double?)).getD false
          else b.double?.any (intEqFloat n)
      | none, some n =>
          if a.isMachine || b.isMachine then
            (do return (← a.double?) == (← b.double?)).getD false
          else a.double?.any (intEqFloat n)
      | none, none => (do return (← a.double?) == (← b.double?)).getD false

/-- An integer beyond the range of floats. -/
def isBeyondFloats : Literal → Bool
  | .int n => (Number.ofInt? n).isNone
  | _ => false

/-- Equality of constants that are not both lists. -/
def sameAtoms (a b : Literal) : Except EqualityError Bool :=
  match a, b with
  | .nothing, .nothing => .ok true
  | .text s, .text t => .ok (s = t)
  | a, b =>
      if (a.isMachineFloat && b.isBeyondFloats) || (b.isMachineFloat && a.isBeyondFloats) then
        .error .overflow
      else .ok (sameNumber a b)

/-- The number as an element of an array, where it has a machine format. -/
def asElement : Literal → Literal
  | .int n => .machine (.int64 n)
  | .float x => .machine (.float64 x)
  | .bool b => .machine (.bool b)
  | v => v

/-- The only constant in a list, or in the only list in it, and so on. -/
def onlyItem? : Literal → Option Literal
  | .list [item] => item.onlyItem?
  | .list _ => none
  | v => some v

/-- Equality of a machine number and a list: the list is an array, and only an array of one element
gives one answer. -/
def sameAsArray (m : Machine) (list : Literal) : Except EqualityError Bool :=
  match list.onlyItem? with
  | some item => sameAtoms (.machine m) item.asElement
  | none => .error .ambiguous

mutual

/-- Equality by value. -/
def same : Literal → Literal → Except EqualityError Bool
  | .list xs, .list ys => if xs.length = ys.length then sameAll xs ys else .ok false
  | .machine m, .list ys => sameAsArray m (.list ys)
  | .list xs, .machine m => sameAsArray m (.list xs)
  | a, b => sameAtoms a b

/-- Equality by value of two lists; the first difference decides. -/
def sameAll : List Literal → List Literal → Except EqualityError Bool
  | x :: xs, y :: ys => do if ← same x y then sameAll xs ys else return false
  | [], [] => .ok true
  | _, _ => .ok false

end

end Literal
end LoopNest
