/-!
# Diagnostics

A diagnostic shows a message, the place it points at, the line of text at that place and a row of
carets below the offending span.  Lines and columns count from one.  In colour, each part is wrapped
in its own escape sequence.

* `Diagnostic.render`: the whole text, lines joined by line feeds.
* `Settings.colour` decides elsewhere whether colour is used.
-/

namespace LoopNest

/-- A place in a named text.  An end column that is not beyond the column is unknown. -/
structure Location where
  file : String
  line : Int
  column : Int
  endColumn : Int := 0
  deriving DecidableEq, Repr

/-- The place as `file:line:column`. -/
def Location.text (l : Location) : String :=
  l.file ++ ":" ++ toString l.line ++ ":" ++ toString l.column

/-- A message that may point at a place in a text. -/
structure Diagnostic where
  message : String
  location : Option Location
  code : Option String := none
  help : Option String := none
  label : Option String := none

/-- The styles a part of a diagnostic can have. -/
inductive Ink where
  | bold
  | red
  | blue
  | cyan
  deriving DecidableEq

/-- The escape sequence with the given number. -/
def escapeSequence (number : String) : String := "\x1b[" ++ number ++ "m"

/-- The escape sequence that switches a style on. -/
def Ink.sequence : Ink → String
  | .bold => escapeSequence "1"
  | .red => escapeSequence "31"
  | .blue => escapeSequence "34"
  | .cyan => escapeSequence "36"

/-- The text in the given styles, if colour is used. -/
def paint (colour : Bool) (inks : List Ink) (text : String) : String :=
  if colour then String.join (inks.map Ink.sequence) ++ text ++ escapeSequence "0" else text

/-- A run of blanks. -/
def blanks (n : Nat) : String := String.ofList (List.replicate n ' ')

/-- The lines of a text, between its line feeds. -/
def textLines (text : String) : List String := (text.toList.splitOn '\n').map String.ofList

/-- The text if it is there and not empty. -/
def present (text : Option String) : Option String :=
  text.filter fun t => !t.isEmpty

namespace Diagnostic

/-- The first line: the word, the code, the message. -/
def headline (d : Diagnostic) (colour : Bool) : String :=
  let code := match present d.code with
    | some code => "[" ++ code ++ "]"
    | none => ""
  paint colour [.bold, .red] ("error" ++ code) ++ paint colour [.bold] (": " ++ d.message)

/-- The last line, if there is help to give. -/
def helpLines (d : Diagnostic) (gutter : Nat) (colour : Bool) : List String :=
  match present d.help with
  | none => []
  | some help =>
      [paint colour [.bold, .cyan] (blanks (gutter + 1) ++ "= ")
        ++ paint colour [.bold] "help: " ++ help]

/-- The line of a text with the given number, empty outside the text. -/
def lineAt (source : String) (line : Int) : String :=
  if 1 ≤ line then ((textLines source)[(line - 1).toNat]?).getD "" else ""

/-- Carets under the span, moved to its column, and the label. -/
def carets (l : Location) (label : Option String) : String :=
  let span := if l.column < l.endColumn then (l.endColumn - l.column).toNat else 1
  blanks (max l.column 1 - 1).toNat ++ String.ofList (List.replicate span '^')
    ++ match present label with
      | some label => " " ++ label
      | none => ""

/-- The line that a place points at, between a bar and the carets. -/
def excerpt (l : Location) (label : Option String) (gutter : Nat) (colour : Bool)
    (source : String) : List String :=
  [ paint colour [.bold, .blue] (blanks (gutter + 1) ++ "|"),
    paint colour [.bold, .blue] (toString l.line ++ " | ") ++ lineAt source l.line,
    paint colour [.bold, .blue] (blanks (gutter + 1) ++ "| ")
      ++ paint colour [.bold, .red] (carets l label) ]

/-- The whole diagnostic.  The line is shown if the text of the file is known. -/
def render (d : Diagnostic) (sources : List (String × String)) (colour : Bool) : String :=
  "\n".intercalate <| match d.location with
    | none =>
        d.headline colour :: (paint colour [.bold, .blue] " --> " ++ "<unknown location>")
          :: d.helpLines 1 colour
    | some l =>
        -- the line number sets the width of the gutter
        let gutter := (toString l.line).length
        let place := paint colour [.bold, .blue] (blanks gutter ++ "--> ") ++ l.text
        let shown := match sources.lookup l.file with
          | some source => excerpt l d.label gutter colour source
          | none => []
        d.headline colour :: place :: (shown ++ d.helpLines gutter colour)

end Diagnostic
end LoopNest
