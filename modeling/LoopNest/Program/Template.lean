import LoopNest.Number.Places
import LoopNest.Program.Element
import LoopNest.Text.Quoted

/-!
# Texts with slots

A text is a template: each percent sign starts a slot, which says how the one argument is written
there.  A slot has flags, a least width, a precision and a letter for the form.  Two percent signs
write one.  The argument fills one slot only, and it must be used, unless it is something that has
elements.

* `Slot.read`: a slot, and what follows it.
* `Value.shown`: a value as text.
* `Value.fill`: a template with its argument.
-/

namespace LoopNest

/-- How an argument is written. -/
structure Slot where
  flags : List Char
  width : Nat
  precision : Option Nat
  /-- the letter of the form -/
  form : Char

namespace Slot

/-- The largest width. -/
def widthLimit : Nat := Nat.pow 2 63 - 1

/-- The largest precision. -/
def precisionLimit : Nat := Nat.pow 2 31 - 1

/-- A number of decimal digits, at most a limit, or a star.  A star takes the integer that the
argument is, so that nothing is left for the slot itself; therefore it matters only that it is no
larger. -/
def readNumber (limit : Nat) (available : Option Int) (chars : List Char) :
    Except Fault (Nat × Option Int × List Char) :=
  match chars, available with
  | '*' :: _, none => .error .kind
  | '*' :: rest, some n => if n.natAbs ≤ limit then .ok (0, none, rest) else .error .overflow
  | chars, available =>
      let (digits, rest) := chars.span Char.isDigit
      let n := Number.ofDigits (digits.map fun c => c.toNat - '0'.toNat)
      if n ≤ limit then .ok (n, available, rest) else .error .value

/-- The precision of a slot, if it has one. -/
def readPrecision (available : Option Int) (chars : List Char) :
    Except Fault (Option Nat × Option Int × List Char) := do
  match chars with
  | '.' :: rest =>
      let (n, available, rest) ← readNumber precisionLimit available rest
      return (some n, available, rest)
  | rest => return (none, available, rest)

/-- The slot after a percent sign, whether no star took the integer that was available, and what
follows the slot. -/
def read (available : Option Int) (chars : List Char) :
    Except Fault (Slot × Bool × List Char) := do
  let (flags, chars) := chars.span fun c => ['-', '+', ' ', '#', '0'].contains c
  let (width, left, chars) ← readNumber widthLimit available chars
  let (precision, left, chars) ← readPrecision left chars
  let chars := match chars with
    | c :: rest => if c = 'h' || c = 'l' || c = 'L' then rest else c :: rest
    | [] => []
  match chars with
  | [] => throw .value
  | form :: rest => return (⟨flags, width, precision, form⟩, left = available, rest)

/-- The slot has a flag. -/
def has (slot : Slot) (flag : Char) : Bool := slot.flags.contains flag

/-- Text in a slot: a sign and a mark that stay in front of filling zeros, and the rest. -/
def pad (slot : Slot) (isNumber : Bool) (sign mark body : String) : Except Fault String :=
  let sign := if sign ≠ "" || !isNumber then sign
    else if slot.has '+' then "+" else if slot.has ' ' then " " else ""
  let missing := slot.width - (sign ++ mark ++ body).length
  if Value.longestSequence < missing then .error .memory
  else
    let fill (c : Char) : String := String.ofList (List.replicate missing c)
    .ok (if slot.has '-' then sign ++ mark ++ body ++ fill ' '
      else if isNumber && slot.has '0' then sign ++ mark ++ fill '0' ++ body
      else fill ' ' ++ sign ++ mark ++ body)

/-- Plain text in a slot, cut to the precision. -/
def text (slot : Slot) (s : String) : Except Fault String :=
  slot.pad false "" "" (match slot.precision with
    | some n => String.ofList (s.toList.take n)
    | none => s)

/-- An integer in a slot. -/
def integer (slot : Slot) (n : Int) : Except Fault String :=
  let (base, mark) := match slot.form with
    | 'o' => (8, "0o")
    | 'x' => (16, "0x")
    | 'X' => (16, "0X")
    | _ => (10, "")
  let digits := String.ofList (Nat.toDigits base n.natAbs)
  let digits := if slot.form = 'X' then digits.map Char.toUpper else digits
  let zeros := Number.zeroRun (slot.precision.getD 0 - digits.length)
  if base = 10 && Nat.pow 10 Number.digitLimit ≤ n.natAbs then .error .value
  else slot.pad true (if n < 0 then "-" else "") (if slot.has '#' then mark else "")
    (zeros ++ digits)

/-- A float in a slot. -/
def float (slot : Slot) (x : Float) : Except Fault String :=
  let places := slot.precision.getD 6
  let (negative, body) := match Number.parts x with
    | .nan => (false, "nan")
    | .infinite negative => (negative, "inf")
    | .finite negative mantissa exponent =>
        let point := slot.has '#'
        (negative, match slot.form.toLower with
          | 'e' => Number.scientificText point places mantissa exponent
          | 'f' => Number.fixedText point places mantissa exponent
          | _ => Number.generalText point places mantissa exponent)
  let body := if slot.form.isUpper then body.map Char.toUpper else body
  slot.pad true (if negative then "-" else "") "" body

end Slot

/-- A complex number as text. -/
def ComplexFloat.text (z : ComplexFloat) : String :=
  let bare (x : Float) : String := ((Number.floatText x).dropSuffix ".0").toString
  let im := bare z.im
  if z.re == 0 && !Number.isNegative z.re then im ++ "j"
  else "(" ++ bare z.re ++ (if im.startsWith "-" then "" else "+") ++ im ++ "j)"

namespace Layout

/-- The name of a layout. -/
def name : Layout → String
  | .bool => "bool"
  | .int8 => "int8"
  | .int64 => "int64"
  | .uint64 => "uint64"
  | .half => "float16"
  | .double => "float64"
  | .complex => "complex128"

/-- A float of a layout as text. -/
def floatText (l : Layout) (x : Float) : String :=
  if l = .half then Number.half.text Number.doubleNotation (Number.half.partsNear x)
  else Number.floatText x

end Layout

namespace Scalar

/-- A number as text. -/
def shown (l : Layout) : Scalar → Except Fault String
  | .bool b => .ok (if b then "True" else "False")
  | .int n => if n.natAbs < Nat.pow 10 Number.digitLimit then .ok (toString n) else .error .value
  | .float x => .ok (l.floatText x)
  | .complex z => .ok z.text

/-- A machine number among other items, with its layout. -/
def shownWithLayout (l : Layout) (s : Scalar) : Except Fault String := do
  let text ← s.shown l
  match s with
  | .bool _ => return "np." ++ text ++ "_"
  | .complex _ =>
    return "np." ++ l.name ++ (if text.startsWith "(" then text else "(" ++ text ++ ")")
  | _ => return "np." ++ l.name ++ "(" ++ text ++ ")"

end Scalar

namespace Value

/-- A value as text, down to a depth of lists; `quoted` shows texts in quotes and machine numbers
with their layout, as the items of a list are. -/
def shownTo (memory : Memory) : Nat → Bool → Value → Except Fault String
  | _, _, .nothing => .ok "None"
  | _, _, .number .plain s => s.shown .double
  | _, false, .number (.machine l) s => s.shown l
  | _, true, .number (.machine l) s => s.shownWithLayout l
  | _, false, .text s => .ok s
  | _, true, .text s => .ok (Text.quote s)
  | depth + 1, _, .list cell =>
      match memory[cell]? with
      | some (.list items) => do
          let texts ← items.toList.mapM (shownTo memory depth true)
          return "[" ++ ", ".intercalate texts ++ "]"
      | _ => .error .kind
  | 0, _, .list _ => .ok "[...]"
  | _, _, .array _ _ _ | _, _, .function _ => .error .kind

/-- The value has elements, or is a machine number. -/
def hasElements : Value → Bool
  | .list _ => true
  | value => value.isMachine

/-- The plain integer that a value is. -/
def plainInteger? : Value → Option Int
  | .number .plain s => s.integer?
  | _ => none

/-- A value in a slot. -/
def inSlot (memory : Memory) (slot : Slot) (value : Value) : Except Fault String := do
  let shown (quoted : Bool) : Except Fault String := value.shownTo memory (memory.size + 1) quoted
  match slot.form, value with
  | 's', _ => slot.text (← shown false)
  | 'r', _ => slot.text (← shown true)
  | 'a', _ =>
      let escape (c : Char) : List Char := if c.toNat < 128 then [c] else Text.escapePoint c.toNat
      slot.text (String.ofList ((← shown true).toList.flatMap escape))
  | 'c', .number .plain s | 'c', .number (.machine _) s =>
      match s.integer? with
      | some n =>
          if 0 ≤ n && n < 0x110000 then slot.pad false "" "" (String.singleton (Char.ofNat n.toNat))
          else throw .overflow
      | none => throw .kind
  | 'c', .text s => if s.length = 1 then slot.pad false "" "" s else throw .kind
  | form, .number width s =>
      if ['d', 'i', 'u'].contains form then slot.integer (← s.toInt)
      else if ['o', 'x', 'X'].contains form then
        match width, s with
        | .machine _, .bool _ => throw .kind
        | _, s => (s.integer?).elim (throw .kind) slot.integer
      else if ['e', 'E', 'f', 'F', 'g', 'G'].contains form then slot.float (← s.toFloat)
      else throw .value
  | form, _ =>
      if ['c', 'd', 'i', 'u', 'o', 'x', 'X', 'e', 'E', 'f', 'F', 'g', 'G'].contains form then
        throw .kind
      else throw .value

/-- What a key in a slot leads to, for there are no keys: an open key is noticed before its
look-up. -/
def keyFault (value : Value) (chars : List Char) : Fault :=
  let depth := chars.foldl (fun (depth : Nat) c =>
    if depth = 0 then 0 else if c = '(' then depth + 1 else if c = ')' then depth - 1 else depth) 1
  if !value.hasElements then .kind
  else if depth ≠ 0 then .value
  else match value with
    | .list _ => .kind
    | _ => .index

/-- The slots of a template filled, at most so many characters. -/
def fillTo (memory : Memory) (value : Value) : Nat → Bool → List Char → Except Fault (List Char)
  | _, used, [] => if used || value.hasElements then .ok [] else .error .kind
  | 0, _, _ => .error .value
  | fuel + 1, used, '%' :: chars =>
      match chars with
      | '%' :: rest => do return '%' :: (← fillTo memory value fuel used rest)
      | '(' :: rest => .error (value.keyFault rest)
      | chars => do
          let (slot, untouched, rest) ← Slot.read (if used then none else value.plainInteger?) chars
          if used || !untouched then throw .kind
          let text ← value.inSlot memory slot
          return text.toList ++ (← fillTo memory value fuel true rest)
  | fuel + 1, used, c :: chars => do return c :: (← fillTo memory value fuel used chars)

/-- A template with its argument. -/
def fill (template : String) (value : Value) : Step Value := do
  let chars := template.toList
  let filled ← Step.ofExcept (fillTo (← get).memory value (chars.length + 1) false chars)
  return .text (String.ofList filled)

end Value
end LoopNest
