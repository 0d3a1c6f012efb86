import LoopNest.Number.Notation
import LoopNest.Text.Quoted

/-!
# S-expressions

Nested lists of symbols, numbers and texts.  The reader also knows lists in square brackets and
quoted values; the writer never makes them.

* `SExpr.shown`: a value with the kind of each of its parts, as messages show it.
* `SExpr.render`: the text of a value, broken over lines where a list is wider than the limit.
-/

namespace LoopNest

/-- A value of the S-expression notation. -/
inductive SExpr where
  | symbol (s : String)
  | int (n : Int)
  | float (x : Float)
  | text (s : String)
  | list (items : List SExpr)
  | brackets (items : List SExpr)
  | quoted (value : SExpr)

namespace SExpr

instance : Inhabited SExpr := ⟨.list []⟩

mutual

/-- The value with the kind of each part. -/
def shown : SExpr → String
  | .symbol s => "Symbol(" ++ Text.quote s ++ ")"
  | .int n => toString n
  | .float x => Number.floatText x
  | .text s => Text.quote s
  | .list items => "[" ++ ", ".intercalate (shownAll items) ++ "]"
  | .brackets items => "Brackets(I=[" ++ ", ".intercalate (shownAll items) ++ "])"
  | .quoted value => "Quoted(" ++ shown value ++ ")"

/-- Each of the values with its kinds. -/
def shownAll : List SExpr → List String
  | [] => []
  | item :: items => shown item :: shownAll items

end

/-! ## Writing -/

/-- The limit of a line. -/
def lineWidth : Nat := 100

/-- A limit that no line reaches. -/
def noLimit : Nat := Nat.pow 10 9

/-- The blanks in front of a line at a depth. -/
def margin (depth : Nat) : String := String.ofList (List.replicate (2 * depth) ' ')

/-- A text between double quotes, with backslashes and double quotes escaped. -/
def enclose (s : String) : String :=
  let escape (c : Char) : List Char := if c = '\\' || c = '\x22' then ['\\', c] else [c]
  String.ofList ('\x22' :: (s.toList.flatMap escape ++ ['\x22']))

/-- The written parts of a list at a depth: in one line if they fit and none has a line break,
otherwise each on its own line, with the first behind the bracket and the closing bracket alone. -/
def joinParts (width depth : Nat) : List String → String
  | [] => "()"
  | first :: rest =>
      let line := "(" ++ " ".intercalate (first :: rest) ++ ")"
      if line.length ≤ width && !line.toList.contains '\n' then line
      else
        "(" ++ first ++ String.join (rest.map fun part => "\n" ++ margin (depth + 1) ++ part)
          ++ "\n" ++ margin depth ++ ")"

mutual

/-- The text of a value at a depth, with lists broken where they are wider than the limit. -/
def render (width depth : Nat) : SExpr → String
  | .symbol s => s
  | .int n => toString n
  | .float x => Number.floatText x
  | .text s => enclose s
  | .list items => joinParts width depth (renderAll width (depth + 1) items)
  | .brackets items => joinParts width depth (renderAll width (depth + 1) items)
  | .quoted value => render width depth value

/-- The texts of values at a depth. -/
def renderAll (width depth : Nat) : List SExpr → List String
  | [] => []
  | item :: items => render width depth item :: renderAll width depth items

end

/-- The text of a value with lines of limited width. -/
def pretty (s : SExpr) : String := s.render lineWidth 0

/-- The text of a value with no limit on its lines. -/
def flat (s : SExpr) : String := s.render noLimit 0

end SExpr
end LoopNest
