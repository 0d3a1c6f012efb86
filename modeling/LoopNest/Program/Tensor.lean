import LoopNest.Program.Arithmetic

/-!
# Tensors

Elements of one layout in rows and columns, listed row by row.  A machine number is a tensor without
dimensions.  An operator on two tensors works element by element; a dimension of one element is
repeated as often as the other tensor needs it, and so is a dimension that one of them does not
have.

* `Tensor.stretch?`: a tensor repeated to a shape.
* `Operand`: a tensor, or a plain number that gives way to one.
* `Operand.arithmetic`, `Operand.comparison`: the operators.
-/

namespace LoopNest

/-- How many elements a shape has. -/
def Shape.size (shape : List Nat) : Nat := shape.foldl (· * ·) 1

/-- Elements of one layout, listed row by row. -/
structure Tensor where
  layout : Layout
  shape : List Nat
  items : List Scalar

namespace Shape

/-- The shape of two shapes together, both from the last dimension to the first. -/
def joinReversed? : List Nat → List Nat → Option (List Nat)
  | [], shape | shape, [] => some shape
  | m :: first, n :: second => do
      let rest ← joinReversed? first second
      if m = n || n = 1 then some (m :: rest) else if m = 1 then some (n :: rest) else none

/-- The shape of two shapes together. -/
def join? (first second : List Nat) : Option (List Nat) :=
  (joinReversed? first.reverse second.reverse).map List.reverse

/-- The blocks of the first dimension. -/
def blocks {α : Type} (count size : Nat) (items : List α) : List (List α) :=
  match count with
  | 0 => []
  | count + 1 => items.take size :: blocks count size (items.drop size)

/-- Elements repeated from one shape to another with as many dimensions. -/
def stretch {α : Type} : List Nat → List Nat → List α → List α
  | m :: first, n :: second, items =>
      let whole := ((blocks m (size first) items).map (stretch first second)).flatten
      if m = n then whole else (List.replicate n whole).flatten
  | _, _, items => items

end Shape

namespace Tensor

/-- A single number. -/
def single (layout : Layout) (s : Scalar) : Tensor := ⟨layout, [], [s]⟩

/-- The elements repeated to a shape, if the tensor fits into it. -/
def stretch? (t : Tensor) (shape : List Nat) : Option (List Scalar) :=
  if t.shape = shape then some t.items
  else if Shape.join? t.shape shape = some shape then
    let own := List.replicate (shape.length - t.shape.length) 1 ++ t.shape
    some (Shape.stretch own shape t.items)
  else none

/-- The tensor without leading dimensions of one element, down to so many dimensions. -/
def dropLeading (dimensions : Nat) (t : Tensor) : Tensor :=
  let extra := t.shape.length - dimensions
  if (t.shape.take extra).all (· = 1) then { t with shape := t.shape.drop extra } else t

/-- A function of each element. -/
def mapM (layout : Layout) (f : Scalar → Except Fault Scalar) (t : Tensor) :
    Except Fault Tensor := do
  return ⟨layout, t.shape, ← t.items.mapM f⟩

/-- A function of the elements of two tensors; shapes that do not go together are a fault. -/
def zipM (layout : Layout) (f : Scalar → Scalar → Except Fault Scalar) (a b : Tensor) :
    Except Fault Tensor := do
  match Shape.join? a.shape b.shape with
  | none => throw .value
  | some shape =>
      match a.stretch? shape, b.stretch? shape with
      | some xs, some ys => return ⟨layout, shape, ← (xs.zip ys).mapM fun (x, y) => f x y⟩
      | _, _ => throw .value

end Tensor

/-- A tensor, or a plain number that gives way to one. -/
inductive Operand where
  | plain (s : Scalar)
  | tensor (t : Tensor)

namespace Operand

/-- The layout in which two operands meet. -/
def meet : Operand → Operand → Layout
  | .tensor a, .tensor b => a.layout.join b.layout
  | .tensor a, .plain s | .plain s, .tensor a => a.layout.withPlain s
  | .plain s, .plain t => (Layout.bool.withPlain s).join (Layout.bool.withPlain t)

/-- The operand in a layout. -/
def toTensor (l : Layout) : Operand → Except Fault Tensor
  | .plain s => do return .single l (← l.keep s)
  | .tensor t => t.mapM l l.keep

/-- The operand as it is, a plain number without a layout of its own. -/
def bare (l : Layout) : Operand → Tensor
  | .plain s => .single l s
  | .tensor t => t

/-- An arithmetic operator. -/
def arithmetic (op : Arithmetic) (a b : Operand) : Except Fault Tensor := do
  let l := meet a b
  let result ← l.result op
  Tensor.zipM result (l.compute op) (← a.toTensor l) (← b.toTensor l)

/-- A comparison. -/
def comparison (op : Comparison) (a b : Operand) : Except Fault Tensor :=
  let l := meet a b
  Tensor.zipM .bool (fun x y => do return .bool (op.holds (← l.order x y))) (a.bare l) (b.bare l)

/-- The first of two numbers if it comes first in an order, else the second; no number comes before
every number. -/
def choose (l : Layout) (first : Comparison) (x y : Scalar) : Except Fault Scalar := do
  let isNaN : Scalar → Bool
    | .float x => x.isNaN
    | .complex z => z.re.isNaN || z.im.isNaN
    | _ => false
  return if isNaN x || first.holds (← l.order x y) then x else y

/-- The lesser or the greater of the elements of two operands. -/
def choice (first : Comparison) (a b : Operand) : Except Fault Tensor := do
  let l := meet a b
  Tensor.zipM l (choose l first) (← a.toTensor l) (← b.toTensor l)

end Operand
end LoopNest
