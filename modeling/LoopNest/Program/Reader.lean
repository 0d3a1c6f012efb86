import LoopNest.Expr.Parser
import LoopNest.Text.Identifier
import LoopNest.Text.Normal
import LoopNest.Text.Quoted

/-!
# Reading source text

Generated source text is read back before it runs: what runs is the text, not the tree it came from.
The two differ where a number carries a sign, since in the text a power binds tighter than the sign
on its left.

A function has a first line with its name and parameters, statements, and a last line that returns a
value.  A line with `4 * k` blanks in front is at level `k`; a `while` line owns the lines one level
deeper that follow it.  The statements are read as the same trees that source text is made from.

* `Program.read?`: the program of a source text, unless the text is refused.
-/

namespace LoopNest

/-- A function that can run: its statements and the value it returns. -/
structure Program where
  name : String
  parameters : List String
  body : List Expr
  result : Expr

namespace Program

/-! ## Lexemes -/

/-- A unit of a line.  A word stands as it is spelled, since a reserved word has one spelling
only. -/
inductive Lexeme where
  | word (s : String)
  | constant (v : Literal)
  | sign (s : String)
  deriving Inhabited

/-- The signs of two characters. -/
def pairSigns : List (List Char) :=
  [['*', '*'], ['*', '='], ['+', '='], ['-', '='], ['/', '='], ['<', '='], ['>', '='], ['=', '='],
    ['!', '=']]

/-- The signs of one character. -/
def singleSigns : List Char :=
  ['+', '-', '*', '/', '%', '<', '>', '=', '(', ')', '[', ']', ',', ':']

/-- The sign at the head of a text. -/
def signAt : List Char → List Char
  | c :: d :: _ =>
      if pairSigns.contains [c, d] then [c, d] else if singleSigns.contains c then [c] else []
  | [c] => if singleSigns.contains c then [c] else []
  | [] => []

/-- The lexeme at the head of a text, and how many characters it has. -/
def lexemeAt? (text : List Char) : Option (Lexeme × Nat) :=
  match text with
  | [] => none
  | c :: rest =>
      if Text.isInitial c then
        let word := c :: rest.takeWhile Text.isInner
        some (.word (String.ofList word), word.length)
      else if c = Text.singleMark || c = Text.doubleMark then
        (Text.unquote? c rest).map fun (inside, left) =>
          (.constant (.text (String.ofList inside)), text.length - left.length)
      else
        match Token.numberAt text, signAt text with
        | [], [] => none
        | [], sign => some (.sign (String.ofList sign), sign.length)
        | number, _ => some (.constant (Reading.numberValue number), number.length)

/-- The lexemes of a line, blanks between them skipped. -/
def lexemes? (text : List Char) : Option (List Lexeme) :=
  match text with
  | [] => some []
  | c :: rest =>
      if c = ' ' then lexemes? rest
      else
        match lexemeAt? (c :: rest) with
        | none => none
        | some (lexeme, length) => (lexemes? (rest.drop (length - 1))).map (lexeme :: ·)
termination_by text.length
decreasing_by
  · simp
  · simp only [List.length_drop, List.length_cons]; omega

/-- The name that a word stands for: its normal spelling. -/
def nameOf (word : String) : String := String.ofList (Text.normalSpelling word.toList)

/-! ## Terms -/

/-- A construct that waits for an operand or a closing bracket. -/
inductive Hole where
  | sign (op : String)
  | power (base : Expr)
  | binary (rank : Nat) (op : String) (left : Expr)
  | group
  | call (callee : String) (args : List Expr)
  | index (base : Expr) (args : List Expr)

/-- The construct is a bracket. -/
def Hole.isBracket : Hole → Bool
  | .group | .call _ _ | .index _ _ => true
  | _ => false

/-- How many brackets may be open at once. -/
def bracketLimit : Nat := 200

/-- The rank of a binary operator, and the callee it stands for.  A higher rank binds tighter. -/
def rank? : String → Option (Nat × String)
  | "<" => some (1, "<")
  | "<=" => some (1, "<=")
  | ">" => some (1, ">")
  | ">=" => some (1, ">=")
  | "==" => some (1, "==")
  | "!=" => some (1, "!=")
  | "+" => some (2, "+")
  | "-" => some (2, "-")
  | "*" => some (3, "*")
  | "/" => some (3, "/")
  | "%" => some (3, "%")
  | _ => none

/-- Closes signs, powers and the operators of at least a rank. -/
def close (rank : Nat) : List Hole → Expr → List Hole × Expr
  | .sign op :: holes, e => close rank holes (.call op [e])
  | .power base :: holes, e => close rank holes (.call "^" [base, e])
  | .binary r op left :: holes, e =>
      if rank ≤ r then close rank holes (.call op [left, e]) else (.binary r op left :: holes, e)
  | holes, e => (holes, e)

/-- Opens a bracket, unless too many are open. -/
def openBracket? (hole : Hole) (holes : List Hole) (front : Front) : Option (List Hole × Front) :=
  if holes.countP Hole.isBracket < bracketLimit then some (hole :: holes, front) else none

/-- A lexeme where an operand must stand. -/
def stepOperand? (holes : List Hole) : Lexeme → Option (List Hole × Front)
  | .word "True" => some (holes, .value (.literal (.bool true)))
  | .word "False" => some (holes, .value (.literal (.bool false)))
  | .word "None" => some (holes, .value (.literal .nothing))
  | .word x => if Text.isIdentifier x then some (holes, .named (nameOf x)) else none
  | .constant v => some (holes, .value (.literal v))
  | .sign "-" => some (.sign "-" :: holes, .operand)
  | .sign "+" => some (.sign "+" :: holes, .operand)
  | .sign "(" => openBracket? .group holes .operand
  | .sign _ => none

/-- A lexeme behind a finished operand. -/
def stepValue? (holes : List Hole) (e : Expr) : Lexeme → Option (List Hole × Front)
  | .sign "**" => some (.power e :: holes, .operand)
  | .sign "[" => openBracket? (.index e []) holes .operand
  | .sign ")" =>
      match close 0 holes e with
      | (.group :: holes, e) => some (holes, .value e)
      | (.call callee args :: holes, e) => some (holes, .value (.call callee (e :: args).reverse))
      | _ => none
  | .sign "]" =>
      match close 0 holes e with
      | (.index base args :: holes, e) =>
          some (holes, .value (.form refTag (base :: (e :: args).reverse)))
      | _ => none
  | .sign "," =>
      match close 0 holes e with
      | (.call callee args :: holes, e) => some (.call callee (e :: args) :: holes, .operand)
      | (.index base args :: holes, e) => some (.index base (e :: args) :: holes, .operand)
      | _ => none
  | .sign op =>
      match rank? op with
      | none => none
      | some (rank, callee) =>
          -- comparisons do not chain
          match close (max rank 2) holes e with
          | (.binary 1 op left :: holes, e) =>
              if rank = 1 then none
              else some (.binary rank callee e :: .binary 1 op left :: holes, .operand)
          | (holes, e) => some (.binary rank callee e :: holes, .operand)
  | _ => none

/-- One lexeme of a term. -/
def stepTerm? (state : List Hole × Front) (lexeme : Lexeme) : Option (List Hole × Front) :=
  match state with
  | (holes, .operand) => stepOperand? holes lexeme
  | (holes, .argument) =>
      match lexeme, holes with
      | .sign ")", .call callee args :: holes => some (holes, .value (.call callee args.reverse))
      | _, _ => stepOperand? holes lexeme
  | (holes, .named x) =>
      match lexeme with
      | .sign "(" => openBracket? (.call x []) holes .argument
      | _ => stepValue? holes (.name x) lexeme
  | (holes, .value e) => stepValue? holes e lexeme

/-- The term that the lexemes write. -/
def term? (line : List Lexeme) : Option Expr := do
  match ← line.foldlM stepTerm? ([], .operand) with
  | (holes, .named x) =>
      match close 0 holes (.name x) with
      | ([], e) => some e
      | _ => none
  | (holes, .value e) =>
      match close 0 holes e with
      | ([], e) => some e
      | _ => none
  | _ => none

/-! ## Lines -/

/-- What a line says. -/
inductive Line where
  | statement (e : Expr)
  | loop (condition : Expr)
  | result (e : Expr)

/-- A name that cannot be given a value. -/
def fixedName : String := "__debug__"

/-- The expression can stand on the left of an assignment. -/
def isTarget : Expr → Bool
  | .name x => x ≠ fixedName
  | .form tag _ => tag = refTag
  | _ => false

/-- The lexeme is an assignment sign. -/
def isAssignment : Lexeme → Bool
  | .sign s => s = "=" || updateTags.contains s
  | _ => false

/-- The statement that the lexemes write. -/
def statement? (line : List Lexeme) : Option Expr :=
  match line.span fun lexeme => !isAssignment lexeme with
  | (left, .sign op :: right) => do
      let target ← term? left
      let value ← term? right
      if isTarget target then some (Reading.assignment op target value) else none
  | (left, _) => term? left

/-- What the lexemes of a line say. -/
def line? : List Lexeme → Option Line
  | [.word "pass"] => some (.statement (.form blockTag []))
  | .word "return" :: rest => (term? rest).map .result
  | .word "while" :: rest =>
      match rest.getLast? with
      | some (.sign ":") => (term? rest.dropLast).map .loop
      | _ => none
  | lexemes => (statement? lexemes).map .statement

/-- A line with its level. -/
def leveledLine? (text : List Char) : Option (Nat × Line) := do
  let blanks := (text.takeWhile (· = ' ')).length
  let line ← line? (← lexemes? text)
  if blanks % 4 = 0 then some (blanks / 4, line) else none

/-! ## Blocks -/

/-- Statements of the innermost levels, deepest level first. -/
abbrev Levels := List (Nat × List Expr)

/-- Puts a statement in front of those of its level. -/
def addStatement? (level : Nat) (e : Expr) : Levels → Option Levels
  | [] => some [(level, [e])]
  | (l, es) :: levels =>
      if l = level then some ((l, e :: es) :: levels)
      else if l < level then some ((level, [e]) :: (l, es) :: levels)
      else none

/-- How deep loops may nest. -/
def loopLimit : Nat := 20

/-- Puts a line in front of the lines read so far.  A loop takes the statements one level deeper. -/
def addLine? (line : Nat × Line) (levels : Levels) : Option Levels :=
  match line with
  | (level, .statement e) => addStatement? level e levels
  | (level, .loop condition) =>
      match levels with
      | (l, body) :: levels =>
          if l = level + 1 && level ≤ loopLimit then
            addStatement? level (.form whileTag [condition, .form blockTag body]) levels
          else none
      | [] => none
  | (_, .result _) => none

/-- The statements of lines at a level. -/
def block? (level : Nat) (lines : List (Nat × Line)) : Option (List Expr) := do
  match ← lines.foldrM addLine? [] with
  | [] => some []
  | [(l, body)] => if l = level then some body else none
  | _ => none

/-! ## Functions -/

/-- The names between commas. -/
def parameters? : List Lexeme → Option (List String)
  | [.word x, .sign ")", .sign ":"] => some [nameOf x]
  | .word x :: .sign "," :: rest => (parameters? rest).map (nameOf x :: ·)
  | _ => none

/-- The name and the parameters in a first line. -/
def signature? : List Lexeme → Option (String × List String)
  | [.word "def", .word name, .sign "(", .sign ")", .sign ":"] => some (nameOf name, [])
  | .word "def" :: .word name :: .sign "(" :: .sign "*" :: .sign "," :: rest =>
      (parameters? rest).map (nameOf name, ·)
  | _ => none

/-- The program of a source text.  Two parameters of one name are refused. -/
def read? (source : String) : Option Program := do
  match (source.toList.splitOn '\n').filter fun line => !line.isEmpty with
  | [] => none
  | first :: lines =>
      let (name, parameters) ← signature? (← lexemes? first)
      let lines ← lines.mapM leveledLine?
      match lines.getLast? with
      | some (1, .result result) =>
          let body ← block? 1 lines.dropLast
          if parameters.eraseDups.length = parameters.length && !parameters.contains fixedName then
            some ⟨name, parameters, body, result⟩
          else none
      | _ => none

end Program
end LoopNest
