import LoopNest.Program.Operation

/-!
# Functions

The functions that every program can call.  The intrinsics read their arguments as tensors and
answer machine numbers or arrays; the conversions answer plain numbers.  A caller may add functions
of its own, which stand before these.

* `Intrinsic.names`: the intrinsics, in order.
* `Functions.standard`: the functions of every program.
-/

namespace LoopNest

/-- A function by what it does with its arguments. -/
abbrev Callable := List Value → Step Value

namespace Intrinsic

/-- The functions of one real number. -/
def real : List (String × (Float → Float)) :=
  [ ("sqrt", Float.sqrt), ("exp", Float.exp), ("log", Float.log), ("sin", Float.sin),
    ("cos", Float.cos), ("tan", Float.tan) ]

/-- A function that keeps the layout of its number. -/
structure Kept where
  onInt : Int → Int
  onFloat : Float → Float
  /-- the real number that stands for a complex one, where there is one -/
  onComplex : ComplexFloat → Option Float

/-- The functions of one number that keep its layout. -/
def kept : List (String × Kept) :=
  [ ("abs", ⟨fun n => n.natAbs, Float.abs, fun z => some z.modulus⟩),
    ("floor", ⟨id, Float.floor, fun _ => none⟩),
    ("ceil", ⟨id, Float.ceil, fun _ => none⟩) ]

/-- The choices between two numbers: the order in which the first one is taken. -/
def choices : List (String × Comparison) := [("min", .lt), ("max", .gt)]

/-- The intrinsics, in order. -/
def names : List String :=
  real.map Prod.fst ++ kept.map Prod.fst ++ choices.map Prod.fst

/-- Hands out a result: as a new value, or in an array that was given for it. -/
def deliver (t : Tensor) : Callable
  | [] | [.nothing] => Value.ofTensor t
  | [.array cell offset shape] => do
      Value.overwriteWith t cell offset shape
      return .array cell offset shape
  | _ => throw .kind

/-- The layout of a real function.  Small numbers have small results. -/
def realLayout : Layout → Except Fault Layout
  | .bool | .int8 | .half => .ok .half
  | .int64 | .uint64 | .double => .ok .double
  | .complex => .error .kind

/-- A function of one real number. -/
def applyReal (f : Float → Float) : Callable
  | value :: out => do
      let t ← value.tensor
      let l ← Step.ofExcept (realLayout t.layout)
      let r ← Step.ofExcept (t.mapM l fun s => do return .float (l.round (f (← s.toFloat))))
      deliver r out
  | _ => throw .kind

/-- A function that keeps the layout of its number, on one number. -/
def Kept.apply (f : Kept) (l : Layout) : Scalar → Except Fault Scalar
  | .bool b => .ok (.bool b)
  | .int n => .ok (.int (l.wrap (f.onInt n)))
  | .float x => .ok (.float (f.onFloat x))
  | .complex z => (f.onComplex z).elim (.error .kind) fun x => .ok (.float x)

/-- A function that keeps the layout of its number.  An integer without a layout stays plain. -/
def applyKept (f : Kept) : Callable
  | value :: out => do
      match value, out with
      | .number .plain (.int n), [] =>
          if (Layout.ofScalar? (.int n)).isNone then return .number .plain (.int (f.onInt n))
      | _, _ => pure ()
      let t ← value.tensor
      let l := if t.layout = .complex then Layout.double else t.layout
      deliver (← Step.ofExcept (t.mapM l (f.apply t.layout))) out
  | _ => throw .kind

/-- A choice between two numbers. -/
def applyChoice (first : Comparison) : Callable
  | a :: b :: out => do
      let x ← a.operand
      let y ← b.operand
      deliver (← Step.ofExcept (Operand.choice first x y)) out
  | _ => throw .kind

end Intrinsic

namespace Conversion

/-- The number of items of a list, an array or a text. -/
def length : Callable
  | [.list cell] => do return .number .plain (.int (← Value.itemsOf cell).size)
  | [.array _ _ (size :: _)] => return .number .plain (.int size)
  | [.text s] => return .number .plain (.int s.length)
  | _ => throw .kind

/-- The only element of an array without dimensions, and any other value itself. -/
def bare : Value → Step Value
  | .array cell offset [] => (Value.array cell offset []).tensor >>= Value.ofTensor
  | value => return value

/-- The base that a number stands for: zero, or one from 2 to 36. -/
def base : Value → Except Fault Nat
  | .number _ (.int n) => if n = 0 || (2 ≤ n && n ≤ 36) then .ok n.toNat else .error .value
  | .number .plain (.bool b) => if b then .error .value else .ok 0
  | _ => .error .kind

/-- The integer of a number or of a text, which may be written in a base. -/
def toInt : Callable
  | [] => return .number .plain (.int 0)
  | [value] => do
      match ← bare value with
      | .number _ s => return .number .plain (.int (← Step.ofExcept s.toInt))
      | .text s =>
          match Number.readInt? s.toList with
          | some n => return .number .plain (.int n)
          | none => throw .value
      | _ => throw .kind
  | [value, radix] => do
      let radix ← Step.ofExcept (base radix)
      match value with
      | .text s =>
          match Number.readIntIn? radix s.toList with
          | some n => return .number .plain (.int n)
          | none => throw .value
      | _ => throw .kind
  | _ => throw .kind

/-- The float of a number or of a text. -/
def toFloat : Callable
  | [] => return .number .plain (.float 0)
  | [value] => do
      match ← bare value with
      | .number _ s => return .number .plain (.float (← Step.ofExcept s.toFloat))
      | .text s =>
          match Number.readFloat? s.toList with
          | some x => return .number .plain (.float x)
          | none => throw .value
      | _ => throw .kind
  | _ => throw .kind

end Conversion

/-- Functions by name. -/
abbrev Functions := NameMap Callable

namespace Functions

/-- The conversions. -/
def conversions : List (String × Callable) :=
  [("len", Conversion.length), ("int", Conversion.toInt), ("float", Conversion.toFloat)]

/-- Names that stand for something that cannot be called. -/
def uncallable : List (String × Callable) :=
  [("np", fun _ => throw .kind), ("__builtins__", fun _ => throw .kind)]

/-- The functions of every program. -/
def standard : Functions :=
  ⟨ Intrinsic.real.map (fun (x, f) => (x, Intrinsic.applyReal f))
    ++ Intrinsic.kept.map (fun (x, f) => (x, Intrinsic.applyKept f))
    ++ Intrinsic.choices.map (fun (x, first) => (x, Intrinsic.applyChoice first))
    ++ conversions ++ uncallable ⟩

/-- The function under a name: one of the given ones before the standard ones. -/
def resolve? (given : Functions) (x : String) : Option Callable :=
  (given.find? x).or (standard.find? x)

end Functions

/-- The functions that a caller can add by their kind. -/
inductive Recorder where
  /-- records the list of its arguments and answers nothing -/
  | record
  /-- records its argument and answers it -/
  | echo
  /-- adds a hundred -/
  | addHundred
  /-- answers minus one, whatever it is given -/
  | minusOne
  deriving DecidableEq

namespace Recorder

/-- Adds an entry to the log, which has to be one that can be handed out. -/
def note (entry : Memory → Datum) : Step Unit := do
  let told ← Step.ofExcept (entry (← get).memory).told
  modify fun w => { w with log := w.log ++ [told] }

/-- The function itself. -/
def callable : Recorder → Callable
  | .record, args => do
      note fun memory => .list (args.map memory.snapshot)
      return .nothing
  | .echo, [arg] => do
      note fun memory => memory.snapshot arg
      return arg
  | .addHundred, [arg] => Value.arithmetic .add arg (.number .plain (.int 100))
  | .minusOne, _ => return .number .plain (.int (-1))
  | .echo, _ | .addHundred, _ => throw .kind

end Recorder
end LoopNest
