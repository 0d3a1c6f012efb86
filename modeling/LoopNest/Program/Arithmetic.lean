import LoopNest.Program.Scalar

/-!
# Arithmetic

The operators on numbers.  Two plain numbers work by the plain rules, where a division by zero and a
float power out of range are faults and a fractional power of a negative number is complex.  Numbers
of a layout work by the machine rules, where nothing of the kind is a fault.  A remainder has the
sign of its divisor in both.

* `Operator`: the operators of two operands.
* `Scalar.plain`: an arithmetic operator on plain numbers.
* `Layout.result`, `Layout.compute`: the layout and the value of an operator on machine numbers.
* `Scalar.plainOrder`, `Layout.order`: the order of two numbers, where they have one.
-/

namespace LoopNest

/-- An arithmetic operator. -/
inductive Arithmetic where
  | add
  | sub
  | mul
  | div
  | mod
  | pow
  deriving DecidableEq

/-- A comparison. -/
inductive Comparison where
  | lt
  | le
  | gt
  | ge
  | eq
  | ne
  deriving DecidableEq

/-- An operator of two operands. -/
inductive Operator where
  | arithmetic (op : Arithmetic)
  | comparison (op : Comparison)
  deriving DecidableEq

/-- The operator that a callee stands for. -/
def Operator.ofCallee? : String → Option Operator
  | "+" => some (.arithmetic .add)
  | "-" => some (.arithmetic .sub)
  | "*" => some (.arithmetic .mul)
  | "/" => some (.arithmetic .div)
  | "%" => some (.arithmetic .mod)
  | "^" => some (.arithmetic .pow)
  | "<" => some (.comparison .lt)
  | "<=" => some (.comparison .le)
  | ">" => some (.comparison .gt)
  | ">=" => some (.comparison .ge)
  | "==" => some (.comparison .eq)
  | "!=" => some (.comparison .ne)
  | _ => none

/-- The operator of an update tag. -/
def Arithmetic.ofUpdate? : String → Option Arithmetic
  | "+=" => some .add
  | "-=" => some .sub
  | "*=" => some .mul
  | "/=" => some .div
  | _ => none

namespace Comparison

/-- The comparison asks for equality only. -/
def isEquality : Comparison → Bool
  | .eq | .ne => true
  | _ => false

/-- What an order says of a comparison.  Numbers that are not ordered are unequal and nothing
else. -/
def holds : Comparison → Option Ordering → Bool
  | .ne, none => true
  | _, none => false
  | .lt, some o => o.isLT
  | .le, some o => o.isLE
  | .gt, some o => o.isGT
  | .ge, some o => o.isGE
  | .eq, some o => o.isEq
  | .ne, some o => !o.isEq

end Comparison

namespace Number

/-- The order of two floats, unless one is no number. -/
def compareFloats (x y : Float) : Option Ordering :=
  if x < y then some .lt else if y < x then some .gt else if x == y then some .eq else none

/-- The order of an integer and a float, without rounding. -/
def compareIntFloat (n : Int) (x : Float) : Option Ordering :=
  match parts x with
  | .nan => none
  | .infinite negative => some (if negative then .gt else .lt)
  | .finite negative mantissa exponent =>
      let (num, den) := scale mantissa 1 exponent
      some (compare (n * den) (if negative then -(num : Int) else num))

/-- The order of two complex numbers by their real parts and then by their imaginary parts. -/
def compareComplex (a b : ComplexFloat) : Option Ordering :=
  match compareFloats a.re b.re with
  | some .eq => compareFloats a.im b.im
  | o => if a.im.isNaN || b.im.isNaN then none else o

/-- The zero with the sign of a number. -/
def zeroLike (x : Float) : Float := if isNegative x then -0.0 else 0.0

/-- The remainder with the sign of the divisor. -/
def floorRemainder (x y : Float) : Float :=
  let r := remainder x y
  if y == 0 then r
  else if r == 0 then zeroLike y
  else if (y < 0) != (r < 0) then r + y
  else r

/-- The float is a whole number. -/
def isWhole (x : Float) : Bool := x.isFinite && x.floor == x

end Number

/-- A power of an integer in a layout. -/
def Layout.power (l : Layout) (base : Int) (exponent : Nat) : Int :=
  if exponent = 0 then 1
  else
    let rest := l.power (l.wrap (base * base)) (exponent / 2)
    if exponent % 2 = 0 then rest else l.wrap (rest * base)
termination_by exponent

namespace Scalar

/-! ## Plain numbers -/

/-- A complex power: zero to a negative or complex power and a result out of range are faults. -/
def complexPower (a b : ComplexFloat) : Except Fault Scalar :=
  match a.power? b with
  | none => .error .zeroDivision
  | some r => if r.re.isInf || r.im.isInf then .error .overflow else .ok (.complex r)

/-- A power of floats: zero to a negative power and a finite power out of range are faults, and a
fractional power of a negative number is complex. -/
def plainPower (x y : Float) : Except Fault Scalar :=
  if x == 0 && y < 0 && y.isFinite then .error .zeroDivision
  else if x < 0 && x.isFinite && y.isFinite && !Number.isWhole y then
    complexPower (.ofFloat x) (.ofFloat y)
  else
    let r := Float.pow x y
    if r.isInf && x.isFinite && y.isFinite then .error .overflow else .ok (.float r)

/-- A plain operator on integers. -/
def plainInts (op : Arithmetic) (a b : Int) : Except Fault Scalar :=
  match op with
  | .add => .ok (.int (a + b))
  | .sub => .ok (.int (a - b))
  | .mul => .ok (.int (a * b))
  | .div =>
      if b = 0 then .error .zeroDivision
      else
        match Number.ofQuotient? (decide (a < 0) != decide (b < 0)) a.natAbs b.natAbs with
        | some x => .ok (.float x)
        | none => .error .overflow
  | .mod => if b = 0 then .error .zeroDivision else .ok (.int (Int.fmod a b))
  | .pow =>
      if 0 ≤ b then .ok (.int (Int.pow a b.toNat))
      else do plainPower (← toFloat (.int a)) (← toFloat (.int b))

/-- A plain operator on floats. -/
def plainFloats (op : Arithmetic) (x y : Float) : Except Fault Scalar :=
  match op with
  | .add => .ok (.float (x + y))
  | .sub => .ok (.float (x - y))
  | .mul => .ok (.float (x * y))
  | .div => if y == 0 then .error .zeroDivision else .ok (.float (x / y))
  | .mod => if y == 0 then .error .zeroDivision else .ok (.float (Number.floorRemainder x y))
  | .pow => plainPower x y

/-- A plain operator on complex numbers, which have no remainder. -/
def plainComplex (op : Arithmetic) (a b : ComplexFloat) : Except Fault Scalar :=
  match op with
  | .add => .ok (.complex (a.add b))
  | .sub => .ok (.complex (a.sub b))
  | .mul => .ok (.complex (a.mul b))
  | .div => (a.divide? b).elim (.error .zeroDivision) fun r => .ok (.complex r)
  | .mod => .error .kind
  | .pow => complexPower a b

/-- A plain operator.  Truth values count as integers. -/
def plain (op : Arithmetic) (a b : Scalar) : Except Fault Scalar :=
  match a, b with
  | .complex _, _ | _, .complex _ =>
      if op = .mod then .error .kind else do plainComplex op (← a.toComplex) (← b.toComplex)
  | _, _ =>
      match a.integer?, b.integer? with
      | some m, some n => plainInts op m n
      | _, _ => do plainFloats op (← a.toFloat) (← b.toFloat)

/-- The order of two plain numbers, without rounding.  Complex numbers are equal or not ordered. -/
def plainOrder (a b : Scalar) : Option Ordering :=
  let ofComplex (z : ComplexFloat) (other : Option Ordering) : Option Ordering :=
    if z.im == 0 && other = some .eq then some .eq else none
  match a, b with
  | .complex z, .complex w => if z.same w then some .eq else none
  | .complex z, .float y => ofComplex z (Number.compareFloats z.re y)
  | .float x, .complex w => ofComplex w (Number.compareFloats x w.re)
  | .float x, .float y => Number.compareFloats x y
  | _, _ =>
      match a, b, a.integer?, b.integer? with
      | _, _, some m, some n => some (compare m n)
      | _, .float y, some m, none => Number.compareIntFloat m y
      | .float x, _, none, some n => (Number.compareIntFloat n x).map Ordering.swap
      | _, .complex w, some m, none => ofComplex w (Number.compareIntFloat m w.re)
      | .complex z, _, none, some n => ofComplex z (Number.compareIntFloat n z.re)
      | _, _, _, _ => none

/-- The number is complex. -/
def isComplex : Scalar → Bool
  | .complex _ => true
  | _ => false

end Scalar

/-! ## Machine numbers -/

namespace Layout

/-- The layout of a result.  Truth values have no difference, and complex numbers no remainder. -/
def result (op : Arithmetic) (l : Layout) : Except Fault Layout :=
  match op, l with
  | .sub, .bool => .error .kind
  | .mod, .complex => .error .kind
  | .mod, .bool | .pow, .bool => .ok .int8
  | .div, .bool | .div, .int8 | .div, .int64 | .div, .uint64 => .ok .double
  | _, l => .ok l

/-- A machine operator on floats. -/
def computeFloats (op : Arithmetic) (x y : Float) : Float :=
  match op with
  | .add => x + y
  | .sub => x - y
  | .mul => x * y
  | .div => x / y
  | .mod => Number.floorRemainder x y
  | .pow => Float.pow x y

/-- A machine operator on integers. -/
def computeInts (l : Layout) (op : Arithmetic) (a b : Int) : Except Fault Scalar :=
  match op with
  | .add => .ok (.int (l.wrap (a + b)))
  | .sub => .ok (.int (l.wrap (a - b)))
  | .mul => .ok (.int (l.wrap (a * b)))
  | .div => do
      return .float (computeFloats .div (← Scalar.toFloat (.int a)) (← Scalar.toFloat (.int b)))
  | .mod => .ok (.int (if b = 0 then 0 else Int.fmod a b))
  | .pow => if b < 0 then .error .value else .ok (.int (l.power a b.toNat))

/-- A machine operator on complex numbers. -/
def computeComplex (op : Arithmetic) (a b : ComplexFloat) : Except Fault Scalar :=
  match op with
  | .add => .ok (.complex (a.add b))
  | .sub => .ok (.complex (a.sub b))
  | .mul => .ok (.complex (a.mul b))
  | .div =>
      .ok (.complex (if b.truth then a.divide b else ⟨a.re / b.re.abs, a.im / b.re.abs⟩))
  | .mod => .error .kind
  | .pow => .ok (.complex ((a.power? b).getD ⟨Number.notANumber, Number.notANumber⟩))

/-- A machine operator on two numbers of a layout.  Two truth values join by `or` and `and`. -/
def compute (l : Layout) (op : Arithmetic) (a b : Scalar) : Except Fault Scalar :=
  match op, a, b with
  | .add, .bool p, .bool q => .ok (.bool (p || q))
  | .mul, .bool p, .bool q => .ok (.bool (p && q))
  | op, .complex z, .complex w => computeComplex op z w
  | op, a, b =>
      match a.integer?, b.integer? with
      | some m, some n => (if l = .bool then Layout.int8 else l).computeInts op m n
      | _, _ => do return .float (l.round (computeFloats op (← a.toFloat) (← b.toFloat)))

/-- The order of two numbers that meet in a layout.  Integers compare as they are. -/
def order (l : Layout) (a b : Scalar) : Except Fault (Option Ordering) :=
  match a.integer?, b.integer? with
  | some m, some n => .ok (some (compare m n))
  | _, _ =>
      if a.isComplex || b.isComplex then do
        return Number.compareComplex (← a.toComplex) (← b.toComplex)
      else do return Number.compareFloats (l.round (← a.toFloat)) (l.round (← b.toFloat))

end Layout

namespace Scalar

/-- The opposite of a number. -/
def negate (width : Width) (a : Scalar) : Except Fault Scalar :=
  match width, a with
  | .machine _, .bool _ => .error .kind
  | .machine l, .int n => .ok (.int (l.wrap (-n)))
  | _, .float x => .ok (.float (-x))
  | _, .complex z => .ok (.complex z.neg)
  | .plain, .int n => .ok (.int (-n))
  | .plain, .bool b => .ok (.int (-b.toInt))

/-- The number itself, a plain truth value as an integer. -/
def affirm (width : Width) (a : Scalar) : Except Fault Scalar :=
  match width, a with
  | .machine _, .bool _ => .error .kind
  | .plain, .bool b => .ok (.int b.toInt)
  | _, a => .ok a

end Scalar
end LoopNest
