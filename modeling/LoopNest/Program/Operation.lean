import LoopNest.Program.Template

/-!
# Operators on values

The operators on everything that a name can stand for.  Two plain numbers work by the plain rules.
Beside a machine number or an array everything is read as a tensor.  Texts join and repeat, and so
do lists; a text takes its remainder as a template.  An update of a list or an array changes it
where it stands.

* `Value.binary`, `Value.sign`, `Value.update`: the operators.
-/

namespace LoopNest
namespace Value

/-! ## Sequences -/

/-- How often a number repeats a sequence.  A negative number does not repeat it at all. -/
def repeats : Value → Except Fault Nat
  | .number _ (.int n) => if Layout.int64.holds n then .ok n.toNat else .error .overflow
  | .number .plain (.bool b) => .ok b.toNat
  | _ => .error .kind

/-- The items several times over. -/
def repeated {α : Type} (count : Nat) (items : List α) : Except Fault (List α) :=
  if items.length * count ≤ longestSequence then .ok (List.replicate count items).flatten
  else .error .memory

/-! ## Arithmetic -/

/-- An operator on a machine number or an array and anything else. -/
def tensorArithmetic (op : Arithmetic) (a b : Value) : Step Value := do
  let x ← a.operand
  let y ← b.operand
  ofTensor (← Step.ofExcept (Operand.arithmetic op x y))

/-- A number repeats a sequence. -/
def repeatSequence (sequence count : Value) : Step Value := do
  match sequence with
  | .text s =>
      return .text (String.ofList (← Step.ofExcept (do repeated (← count.repeats) s.toList)))
  | .list cell =>
      let items ← itemsOf cell
      newList (← Step.ofExcept (do repeated (← count.repeats) items.toList)).toArray
  | _ => throw .kind

/-- The value is a number. -/
def isNumber : Value → Bool
  | .number _ _ => true
  | _ => false

/-- The value is a text or a list. -/
def isSequence : Value → Bool
  | .text _ | .list _ => true
  | _ => false

/-- An arithmetic operator on values.  Sequences of one kind join, and a number repeats them. -/
def arithmetic (op : Arithmetic) (a b : Value) : Step Value := do
  match op, a, b with
  | op, .number .plain x, .number .plain y =>
      return .number .plain (← Step.ofExcept (Scalar.plain op x y))
  | .add, .text s, .text t => return .text (s ++ t)
  | .add, .list p, .list q => newList ((← itemsOf p) ++ (← itemsOf q))
  | .mod, .text s, b => fill s b
  | op, a, b =>
      if op = .mul && a.isSequence && b.isNumber then repeatSequence a b
      else if op = .mul && a.isNumber && b.isSequence then repeatSequence b a
      else if a.isMachine || b.isMachine then tensorArithmetic op a b
      else throw .kind

/-! ## Comparisons -/

/-- A comparison with a machine number or an array.  What is no number differs from all of them. -/
def tensorComparison (op : Comparison) (a b : Value) : Step Value := do
  let isOther : Value → Bool
    | .text _ | .nothing | .function _ => true
    | _ => false
  if isOther a || isOther b then
    if op.isEquality then
      let t ← (if isOther a then b else a).tensor
      ofTensor ⟨.bool, t.shape, t.items.map fun _ => .bool (op = .ne)⟩
    else throw .kind
  else
    let x ← a.operand
    let y ← b.operand
    ofTensor (← Step.ofExcept (Operand.comparison op x y))

/-- A plain truth value. -/
def ofBool (b : Bool) : Value := .number .plain (.bool b)

/-- The first items of two lists that are not equal. -/
def firstDifference (equal : Value → Value → Step Bool) :
    List Value → List Value → Step (Option (Value × Value))
  | x :: xs, y :: ys => do if ← equal x y then firstDifference equal xs ys else return some (x, y)
  | _, _ => return none

/-- A comparison of values, down to a depth of lists.  Lists are compared at the first items that
are not equal, else by their lengths; a list is equal to itself. -/
def comparisonTo : Nat → Comparison → Value → Value → Step Value
  | depth, op, a, b => do
      if a.isMachine || b.isMachine then tensorComparison op a b
      else
        match a, b with
        | .number _ x, .number _ y =>
            if (x.isComplex || y.isComplex) && !op.isEquality then throw .kind
            return ofBool (op.holds (Scalar.plainOrder x y))
        | .text s, .text t => return ofBool (op.holds (some (compare s t)))
        | .list p, .list q =>
            let xs ← itemsOf p
            let ys ← itemsOf q
            if op.isEquality && xs.size ≠ ys.size then return ofBool (op = .ne)
            match depth with
            | 0 => throw .kind
            | depth + 1 =>
                let equal (x y : Value) : Step Bool := do
                  (← comparisonTo depth .eq x y).truth
                let difference ←
                  if p = q then pure none else firstDifference equal xs.toList ys.toList
                match difference with
                | none => return ofBool (op.holds (some (compare xs.size ys.size)))
                | some (x, y) =>
                    if op.isEquality then return ofBool (op = .ne) else comparisonTo depth op x y
        | a, b => if op.isEquality then return ofBool ((a = b) = (op = .eq)) else throw .kind

/-- A comparison of values. -/
def comparison (op : Comparison) (a b : Value) : Step Value := do
  comparisonTo ((← get).memory.size + 1) op a b

/-! ## All operators -/

/-- An operator on two values. -/
def binary : Operator → Value → Value → Step Value
  | .arithmetic op, a, b => arithmetic op a b
  | .comparison op, a, b => comparison op a b

/-- A sign in front of a value. -/
def sign (minus : Bool) (value : Value) : Step Value := do
  let signed (w : Width) (s : Scalar) : Except Fault Scalar :=
    if minus then s.negate w else s.affirm w
  match value with
  | .number w s => return .number w (← Step.ofExcept (signed w s))
  | .array _ _ _ =>
      let t ← value.tensor
      if t.layout = .bool then throw .kind
      ofTensor (← Step.ofExcept (t.mapM t.layout (signed (.machine t.layout))))
  | _ => throw .kind

/-- Puts a tensor where an array stands, repeated to its shape. -/
def overwriteWith (t : Tensor) (cell offset : Nat) (shape : List Nat) : Step Unit := do
  let (layout, items) ← elementsOf cell
  if !layout.accepts t.layout then throw .kind
  match t.stretch? shape with
  | none => throw .value
  | some xs =>
      let kept ← Step.ofExcept (xs.mapM layout.element)
      setCell cell (.array layout (overwrite items offset kept))

/-- Puts the result of an operator where an array stands. -/
def updateArray (op : Arithmetic) (cell offset : Nat) (shape : List Nat) (b : Value) :
    Step Value := do
  let a : Value := .array cell offset shape
  let x ← a.operand
  let y ← b.operand
  overwriteWith (← Step.ofExcept (Operand.arithmetic op x y)) cell offset shape
  return a

/-- The operator of an update.  A list grows or repeats where it stands, and an array keeps the
results where it stands. -/
def update (op : Arithmetic) (a b : Value) : Step Value := do
  match op, a, b with
  | op, .array cell offset shape, b => updateArray op cell offset shape b
  | .add, .list p, .list q =>
      setCell p (.list ((← itemsOf p) ++ (← itemsOf q)))
      return a
  | .add, .list p, .text s =>
      let letters := s.toList.map fun c => Value.text (String.singleton c)
      setCell p (.list ((← itemsOf p) ++ letters.toArray))
      return a
  | .mul, .list p, .number .plain n =>
      let items ← itemsOf p
      let count := Value.repeats (.number .plain n)
      setCell p (.list (← Step.ofExcept (do repeated (← count) items.toList)).toArray)
      return a
  | op, a, b => arithmetic op a b

end Value
end LoopNest
