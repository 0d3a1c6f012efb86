import LoopNest.Number.Binary

/-!
# Complex numbers

Pairs of doubles.  They arise from fractional powers of negative numbers.

* `ComplexFloat.divide?`: the quotient, unless the divisor is zero.
* `ComplexFloat.power?`: a power, where there is one.
-/

namespace LoopNest

/-- A complex number in double precision. -/
structure ComplexFloat where
  re : Float
  im : Float
  deriving DecidableEq

namespace ComplexFloat

/-- A real number as a complex one. -/
def ofFloat (x : Float) : ComplexFloat := ⟨x, 0⟩

/-- The sum. -/
def add (a b : ComplexFloat) : ComplexFloat := ⟨a.re + b.re, a.im + b.im⟩

/-- The difference. -/
def sub (a b : ComplexFloat) : ComplexFloat := ⟨a.re - b.re, a.im - b.im⟩

/-- The product. -/
def mul (a b : ComplexFloat) : ComplexFloat :=
  ⟨a.re * b.re - a.im * b.im, a.re * b.im + a.im * b.re⟩

/-- The opposite. -/
def neg (a : ComplexFloat) : ComplexFloat := ⟨-a.re, -a.im⟩

/-- Both parts are equal. -/
def same (a b : ComplexFloat) : Bool := a.re == b.re && a.im == b.im

/-- The number is not zero. -/
def truth (a : ComplexFloat) : Bool := a.re != 0 || a.im != 0

/-- The distance from zero. -/
def modulus (a : ComplexFloat) : Float := Number.hypotenuse a.re a.im

/-- The quotient by a divisor that is not zero; the larger part of the divisor is divided out
first. -/
def divide (a b : ComplexFloat) : ComplexFloat :=
  if b.im.abs ≤ b.re.abs then
    let ratio := b.im / b.re
    let scale := b.re + b.im * ratio
    ⟨(a.re + a.im * ratio) / scale, (a.im - a.re * ratio) / scale⟩
  else if b.re.abs ≤ b.im.abs then
    let ratio := b.re / b.im
    let scale := b.re * ratio + b.im
    ⟨(a.re * ratio + a.im) / scale, (a.im * ratio - a.re) / scale⟩
  else ⟨Number.notANumber, Number.notANumber⟩

/-- The quotient, unless the divisor is zero. -/
def divide? (a b : ComplexFloat) : Option ComplexFloat :=
  if b.truth then some (a.divide b) else none

/-- A product times a whole power, by repeated squaring. -/
def timesPower (product square : ComplexFloat) (exponent : Nat) : ComplexFloat :=
  if exponent = 0 then product
  else
    timesPower (if exponent % 2 = 0 then product else product.mul square) (square.mul square)
      (exponent / 2)
termination_by exponent

/-- A power by modulus and angle, for a base that is not zero; nothing if the angle is infinite. -/
def polarPower? (a b : ComplexFloat) : Option ComplexFloat :=
  let angle := Float.atan2 a.im a.re
  let length := Float.pow a.modulus b.re
  let phase := angle * b.re
  let (length, phase) :=
    if b.im != 0 then (length / Float.exp (angle * b.im), phase + b.im * Float.log a.modulus)
    else (length, phase)
  if phase.isInf then none else some ⟨length * phase.cos, length * phase.sin⟩

/-- The largest exponent for which a whole power is computed by squaring. -/
def squaringLimit : Float := 100

/-- A power; nothing for zero to a negative or complex power and for an infinite angle. -/
def power? (a b : ComplexFloat) : Option ComplexFloat :=
  if b.im == 0 && b.re.floor == b.re && b.re.abs ≤ squaringLimit then
    let whole := timesPower ⟨1, 0⟩ a b.re.abs.toUInt64.toNat
    if 0 < b.re then some whole else divide? ⟨1, 0⟩ whole
  else if !a.truth then
    if b.im != 0 || b.re < 0 then none else some ⟨0, 0⟩
  else a.polarPower? b

end ComplexFloat
end LoopNest
