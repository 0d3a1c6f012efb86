import LoopNest.Expr.Basic
import LoopNest.Expr.Token
import LoopNest.Diagnostic
import LoopNest.Number.Reader
import LoopNest.Report

/-!
# Reading expressions

The grammar has one optional assignment outermost, then comparisons that do not chain, sums,
products, the sign, powers, and indexing.  A power binds tighter than a sign on its left and takes a
signed operand on its right.

The reader keeps a stack of what is still open: operators that wait for their right operand,
brackets, argument lists.  A token that ends an operand closes the operators that bind tighter than
it, then opens what it starts.  So a token is refused in exactly two ways: it cannot follow the last
token at all, or the construct that is open once everything tighter is closed does not continue
with it.  Either way the report lists what could have stood there.

* `Frame`: an open construct.
* `Reading.step`, `Reading.finish`: one token; the end of the text.
* `Expr.parse`: from text to expression.
-/

namespace LoopNest

/-- A construct that waits for an operand or a closing bracket. -/
inductive Frame where
  /-- A sign. -/
  | negate
  /-- A power with its base. -/
  | power (base : Expr)
  /-- A product with its left factor. -/
  | product (op : String) (left : Expr)
  /-- A sum with its left term. -/
  | sum (op : String) (left : Expr)
  /-- A comparison with its left side. -/
  | compare (op : String) (left : Expr)
  /-- An opening parenthesis. -/
  | group
  /-- A call with the arguments read so far, last first. -/
  | call (callee : String) (args : List Expr)
  /-- An index with the indices read so far, last first. -/
  | index (base : Expr) (args : List Expr)
  /-- An assignment with its target. -/
  | assign (op : String) (target : Expr)

/-- What the reader stands behind. -/
inductive Front where
  /-- An operand must follow. -/
  | operand
  /-- An argument or the end of an empty argument list must follow. -/
  | argument
  /-- A name that may turn out to be a callee. -/
  | named (x : String)
  /-- A finished operand. -/
  | value (e : Expr)

/-- Why a text is not an expression. -/
inductive ParseFault where
  /-- A token, or the end of the text, where none of the expected kinds stands. -/
  | token (text : String) (expected : List Terminal)
  /-- A character that starts no token. -/
  | stray (c : Char)
  /-- The text ends too early. -/
  | ending
  /-- Not an expression, and nothing more is known. -/
  | other
  deriving DecidableEq

/-- An open state of the reader. -/
structure Reading where
  frames : List Frame
  front : Front

namespace Terminal

/-- The kinds that can start an operand. -/
def operands : List Terminal := [.no, .leftParen, .minus, .word, .number, .yes]

/-- The kinds that can follow a finished operand. -/
def followers : List Terminal :=
  [.finish, .comma, .equal, .rightParen, .rightBracket, .plusEqual, .minusEqual, .starEqual,
    .slashEqual, .less, .greater, .minus, .plus, .lessEqual, .greaterEqual, .equalEqual, .notEqual,
    .percent, .slash, .star, .caret, .leftBracket]

/-- The kinds that can follow the right side of a comparison. -/
def afterComparison : List Terminal :=
  [.finish, .comma, .equal, .rightParen, .rightBracket, .plusEqual, .minusEqual, .starEqual,
    .slashEqual, .minus, .plus]

/-- The kinds that can follow a whole expression outside all brackets. -/
def afterStatement : List Terminal :=
  [.finish, .equal, .plusEqual, .minusEqual, .starEqual, .slashEqual]

/-- The kinds that can follow an argument. -/
def afterArgument : List Terminal := [.comma, .rightParen, .rightBracket]

end Terminal

/-- What can follow an expression inside the innermost open construct. -/
def Frame.continuations : List Frame → List Terminal
  | .group :: _ => [.rightParen]
  | .call _ _ :: _ => Terminal.afterArgument
  | .index _ _ :: _ => Terminal.afterArgument
  | .assign _ _ :: _ => [.finish]
  | _ => Terminal.afterStatement

namespace Reading

/-! ## Closing operators -/

/-- Closes signs and powers. -/
def closeUnary : List Frame → Expr → List Frame × Expr
  | .negate :: frames, e => closeUnary frames (.call "-" [e])
  | .power base :: frames, e => closeUnary frames (.call "^" [base, e])
  | frames, e => (frames, e)

/-- Closes everything that binds at least as tight as a product. -/
def closeProduct (frames : List Frame) (e : Expr) : List Frame × Expr :=
  match closeUnary frames e with
  | (.product op left :: frames, e) => (frames, .call op [left, e])
  | closed => closed

/-- Closes everything that binds at least as tight as a sum. -/
def closeSum (frames : List Frame) (e : Expr) : List Frame × Expr :=
  match closeProduct frames e with
  | (.sum op left :: frames, e) => (frames, .call op [left, e])
  | closed => closed

/-- Closes all operators up to the innermost bracket or assignment. -/
def closeAll (frames : List Frame) (e : Expr) : List Frame × Expr :=
  match closeSum frames e with
  | (.compare op left :: frames, e) => (frames, .call op [left, e])
  | closed => closed

/-- The statement that an assignment makes of its two sides. -/
def assignment (op : String) (target value : Expr) : Expr :=
  if op = "=" then .assign target value else .form op [target, value]

/-! ## One token -/

/-- The constant that a number token writes. -/
def numberValue (text : List Char) : Literal :=
  if text.all Char.isDigit then .int (Number.ofDigits (text.map fun c => c.toNat - '0'.toNat))
  else .float ((Number.readFloat? text).getD 0)

/-- A token where an operand must stand. -/
def stepOperand (frames : List Frame) (expected : List Terminal) (t : Token) :
    Except ParseFault Reading :=
  match t.terminal with
  | .word => .ok ⟨frames, .named (String.ofList t.text)⟩
  | .number => .ok ⟨frames, .value (.literal (numberValue t.text))⟩
  | .yes => .ok ⟨frames, .value (.literal (.bool true))⟩
  | .no => .ok ⟨frames, .value (.literal (.bool false))⟩
  | .leftParen => .ok ⟨.group :: frames, .operand⟩
  | .minus => .ok ⟨.negate :: frames, .operand⟩
  | _ => .error (.token (String.ofList t.text) expected)

/-- A closing bracket or a comma behind an expression, all operators closed. -/
def stepBracket (t : Token) : List Frame × Expr → Except ParseFault Reading
  | (.group :: frames, e) =>
      match t.terminal with
      | .rightParen => .ok ⟨frames, .value e⟩
      | _ => .error (.token (String.ofList t.text) [.rightParen])
  | (.call callee args :: frames, e) =>
      match t.terminal with
      | .rightParen => .ok ⟨frames, .value (.call callee (e :: args).reverse)⟩
      | .comma => .ok ⟨.call callee (e :: args) :: frames, .operand⟩
      | _ => .error (.token (String.ofList t.text) [.rightParen])
  | (.index base args :: frames, e) =>
      match t.terminal with
      | .rightBracket => .ok ⟨frames, .value (.form refTag (base :: (e :: args).reverse))⟩
      | .comma => .ok ⟨.index base (e :: args) :: frames, .operand⟩
      | _ => .error (.token (String.ofList t.text) [.rightBracket])
  | (frames, _) => .error (.token (String.ofList t.text) (Frame.continuations frames))

/-- A token behind a finished operand. -/
def stepValue (frames : List Frame) (e : Expr) (follow : List Terminal) (t : Token) :
    Except ParseFault Reading :=
  let text := String.ofList t.text
  match t.terminal with
  | .caret => .ok ⟨.power e :: frames, .operand⟩
  | .leftBracket => .ok ⟨.index e [] :: frames, .operand⟩
  | .star | .slash | .percent =>
      let (frames, e) := closeProduct frames e
      .ok ⟨.product text e :: frames, .operand⟩
  | .plus | .minus =>
      let (frames, e) := closeSum frames e
      .ok ⟨.sum text e :: frames, .operand⟩
  | .less | .lessEqual | .greater | .greaterEqual | .equalEqual | .notEqual =>
      match closeSum frames e with
      | (.compare _ _ :: _, _) => .error (.token text Terminal.afterComparison)
      | (frames, e) => .ok ⟨.compare text e :: frames, .operand⟩
  | .equal | .plusEqual | .minusEqual | .starEqual | .slashEqual =>
      match closeAll frames e with
      | ([], e) => .ok ⟨[.assign text e], .operand⟩
      | (frames, _) => .error (.token text (Frame.continuations frames))
  | .rightParen | .rightBracket | .comma => stepBracket t (closeAll frames e)
  | .finish | .leftParen | .yes | .no | .word | .number =>
      .error (.token text (follow.filter (· ≠ .finish)))

/-- One token. -/
def step (r : Reading) (t : Token) : Except ParseFault Reading :=
  match r.front with
  | .operand => stepOperand r.frames Terminal.operands t
  | .argument =>
      match t.terminal, r.frames with
      | .rightParen, .call callee args :: frames =>
          .ok ⟨frames, .value (.call callee args.reverse)⟩
      | _, frames => stepOperand frames (.rightParen :: Terminal.operands) t
  | .named x =>
      match t.terminal with
      | .leftParen => .ok ⟨.call x [] :: r.frames, .argument⟩
      | _ => stepValue r.frames (.name x) (.leftParen :: Terminal.followers) t
  | .value e => stepValue r.frames e Terminal.followers t

/-- The expression that the end of the text completes, all operators closed. -/
def complete : List Frame × Expr → Except ParseFault Expr
  | ([], e) => .ok e
  | ([.assign op target], e) => .ok (assignment op target e)
  | (frames, _) => .error (.token "" (Frame.continuations frames))

/-- The end of the text. -/
def finish (r : Reading) : Except ParseFault Expr :=
  match r.front with
  | .operand => .error (.token "" Terminal.operands)
  | .argument => .error (.token "" (.rightParen :: Terminal.operands))
  | .named x => complete (closeAll r.frames (.name x))
  | .value e => complete (closeAll r.frames e)

/-- Reads tokens one after the other.  A fault comes with its place; the end of the text has the
place of the last token. -/
def run (stray : Option (Char × Place)) (r : Reading) (last : Place) :
    List Token → Except (ParseFault × Place) Expr
  | [] =>
      match stray with
      | some (c, place) => .error (.stray c, place)
      | none => r.finish.mapError (·, last)
  | t :: tokens =>
      match r.step t with
      | .error fault => .error (fault, t.place)
      | .ok r => run stray r t.place tokens

/-- The reader at the start of a text. -/
def initial : Reading := ⟨[], .operand⟩

end Reading

/-! ## Faults as reports -/

namespace ParseFault

/-- The message of a fault. -/
def message : ParseFault → String
  | .token text _ => "unexpected token `" ++ text ++ "`"
  | .stray c => "unexpected character `" ++ String.ofList [c] ++ "`"
  | .ending => "unexpected end of expression"
  | .other => "invalid expression"

/-- The kinds that could have stood there, by name: five at most, and dots for the others. -/
def expectation (expected : List Terminal) : Option String :=
  match Text.sortedNames (expected.map Terminal.label) with
  | [] => none
  | names =>
      some ("expected one of " ++ ", ".intercalate (names.take 5)
        ++ if 5 < names.length then ", ..." else "")

/-- What stands behind the carets. -/
def label : ParseFault → Option String
  | .token _ expected => expectation expected
  | .stray _ => none
  | .ending => some "expression is incomplete"
  | .other => none

end ParseFault

/-- A failure that points into expression text. -/
structure ParseReport where
  message : String
  source : String
  location : Option Location
  label : Option String := none
  help : Option String := none

namespace ParseReport

/-- The report as a diagnostic with the code of its kind. -/
def text (r : ParseReport) (colour : Bool) : String :=
  Diagnostic.render ⟨r.message, r.location, some Kind.parsing.code, r.help, r.label⟩
    (r.location.toList.map fun l => (l.file, r.source)) colour

/-- The report of a fault at a place of a named text. -/
def ofFault (file source : String) (fault : ParseFault) (place : Place) : ParseReport :=
  ⟨fault.message, source, some ⟨file, place.line, place.column, 0⟩, fault.label, none⟩

/-- The place just behind the last character of a text. -/
def endOf (source : String) : Place :=
  let lines := textLines source
  ⟨lines.length, (lines.getLastD "").length + 1⟩

end ParseReport

/-- Why expression text gives no expression. -/
inductive ParseError where
  /-- The text is not in the grammar. -/
  | rejected (report : ParseReport)
  /-- The text is in the grammar, but an integer in it has too many digits. -/
  | overlong

/-- The name of a text that comes from nowhere in particular. -/
def anonymousSource : String := "<expr>"

/-- The token is an integer with too many digits. -/
def Token.isOverlong (t : Token) : Bool :=
  t.terminal = .number && t.text.all Char.isDigit && decide (Number.digitLimit < t.text.length)

/-- Reads one expression or statement of a named text. -/
def Expr.parseFrom (file source : String) : Except ParseError Expr :=
  let scanned := scan source
  match Reading.run scanned.stray .initial .start scanned.tokens with
  | .error (fault, place) => .error (.rejected (.ofFault file source fault place))
  | .ok e => if scanned.tokens.any Token.isOverlong then .error .overlong else .ok e

/-- Reads one expression or statement. -/
def Expr.parse (source : String) : Except ParseError Expr :=
  Expr.parseFrom anonymousSource source

end LoopNest
