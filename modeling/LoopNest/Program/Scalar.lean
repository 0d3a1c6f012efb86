import LoopNest.Number.Complex

/-!
# Numbers of a running program

Numbers come in two widths.  A plain integer has no bound, and a plain number that leaves its range
is a fault.  A machine number has the layout of an array element: integers wrap, and a float that
leaves its range is infinite or no number.

Where two numbers of different layouts meet, both are brought to a layout that holds either.  A
plain number gives way to a machine number: it takes the other's layout as far as it can without
losing its fraction.  A plain truth value is the exception, for it has a layout of its own.

* `Scalar`: a number without its width.
* `Layout`, `Layout.join`: the layouts, and the one that holds two others.
* `Layout.withPlain`: the layout in which a plain number meets a machine number.
-/

namespace LoopNest

/-- Why a run stops early. -/
inductive Fault where
  /-- an operation on values of the wrong kind -/
  | kind
  /-- a name that stands for nothing -/
  | unknown (name : String)
  /-- a local name that is read before it is given a value -/
  | unset (name : String)
  /-- an index outside a list or an array -/
  | index
  /-- a division by zero -/
  | zeroDivision
  /-- a number that is too large -/
  | overflow
  /-- a value of the right kind that has no meaning there -/
  | value
  /-- a sequence that is too long to be kept -/
  | memory
  /-- a loop that runs longer than any run is given -/
  | exhausted
  deriving DecidableEq

/-- A number or a truth value. -/
inductive Scalar where
  | bool (b : Bool)
  | int (n : Int)
  | float (x : Float)
  | complex (z : ComplexFloat)
  deriving DecidableEq

instance : Inhabited Scalar := ⟨.int 0⟩

namespace Scalar

/-- A truth value or an integer as an integer. -/
def integer? : Scalar → Option Int
  | .bool b => some b.toInt
  | .int n => some n
  | _ => none

/-- The number as a float; an integer beyond the range of floats is a fault. -/
def toFloat : Scalar → Except Fault Float
  | .float x => .ok x
  | .int n => (Number.ofInt? n).elim (.error .overflow) .ok
  | .bool b => .ok (if b then 1 else 0)
  | .complex _ => .error .kind

/-- The number as a complex number. -/
def toComplex : Scalar → Except Fault ComplexFloat
  | .complex z => .ok z
  | s => s.toFloat.map ComplexFloat.ofFloat

/-- The number without its fraction. -/
def toInt : Scalar → Except Fault Int
  | .bool b => .ok b.toInt
  | .int n => .ok n
  | .float x =>
      match Number.truncate? x with
      | some n => .ok n
      | none => .error (if x.isNaN then .value else .overflow)
  | .complex _ => .error .kind

/-- The number is not zero. -/
def truth : Scalar → Bool
  | .bool b => b
  | .int n => n ≠ 0
  | .float x => x != 0
  | .complex z => z.truth

end Scalar

/-- How the elements of an array are kept. -/
inductive Layout where
  | bool
  | int8
  | int64
  | uint64
  | half
  | double
  | complex
  deriving DecidableEq

namespace Layout

/-- The layout keeps integers. -/
def isInteger : Layout → Bool
  | .int8 | .int64 | .uint64 => true
  | _ => false

/-- The least layout that holds both. -/
def join : Layout → Layout → Layout
  | .bool, l | l, .bool => l
  | .complex, _ | _, .complex => .complex
  | .double, _ | _, .double => .double
  | .half, .half | .half, .int8 | .int8, .half => .half
  | .half, _ | _, .half => .double
  | .int8, .int8 => .int8
  | .uint64, .uint64 => .uint64
  | .uint64, _ | _, .uint64 => .double
  | .int64, _ | _, .int64 => .int64

/-- The integer has a place in the layout. -/
def holds (l : Layout) (n : Int) : Bool :=
  match l with
  | .int8 => -(Int.pow 2 7) ≤ n && n < Int.pow 2 7
  | .int64 => -(Int.pow 2 63) ≤ n && n < Int.pow 2 63
  | .uint64 => 0 ≤ n && n < Int.pow 2 64
  | _ => true

/-- The integer of the layout that an integer wraps to. -/
def wrap (l : Layout) (n : Int) : Int :=
  match l with
  | .int8 => Int.bmod n (Nat.pow 2 8)
  | .int64 => Int.bmod n (Nat.pow 2 64)
  | .uint64 => Int.emod n (Int.pow 2 64)
  | _ => n

/-- A float as the layout keeps it. -/
def round (l : Layout) (x : Float) : Float :=
  if l = .half then Number.half.round x else x

/-- The number as the layout keeps it; an integer without a place there is a fault. -/
def keep (l : Layout) (s : Scalar) : Except Fault Scalar :=
  match l with
  | .bool => .ok (.bool s.truth)
  | .int8 | .int64 | .uint64 =>
      match s.integer? with
      | some n => if l.holds n then .ok (.int n) else .error .overflow
      | none => .error .kind
  | .half | .double => s.toFloat.map fun x => .float (l.round x)
  | .complex => s.toComplex.map .complex

/-- The layout that a number takes in an array; an integer without a place in any has none. -/
def ofScalar? : Scalar → Option Layout
  | .bool _ => some .bool
  | .int n => if Layout.int64.holds n then some .int64
      else if Layout.uint64.holds n then some .uint64 else none
  | .float _ => some .double
  | .complex _ => some .complex

/-- The layout in which a plain number meets a machine number. -/
def withPlain (l : Layout) : Scalar → Layout
  | .bool _ => l
  | .int _ => if l = .bool then .int64 else l
  | .float _ => if l = .bool || l.isInteger then .double else l
  | .complex _ => .complex

/-- An array of this layout may be overwritten with results of another one: a result with a fraction
has no place among integers. -/
def accepts (l result : Layout) : Bool :=
  let rank : Layout → Nat
    | .bool => 0
    | .uint64 => 1
    | .int8 | .int64 => 2
    | .half | .double => 3
    | .complex => 4
  rank result ≤ rank l

end Layout

/-- The width of a number. -/
inductive Width where
  | plain
  | machine (layout : Layout)
  deriving DecidableEq

end LoopNest
