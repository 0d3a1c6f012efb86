import LoopNest.NameMap
import LoopNest.Number.Reader
import LoopNest.Program.Tensor

/-!
# Values and memory

What a running program works on.  Lists and arrays are shared: two names may stand for one list, and
a change through one is seen through the other.  So a value holds only the address of a cell, and
the memory holds the cells.  A block of an array, reached by its leading indices, is a value on the
same cell with an offset.

A `Datum` is a value with everything that it refers to, as it is handed in and out.  Not everything
can be handed out: complex numbers and functions have no datum that can be told, nor has an integer
with more digits than are ever written.

* `Memory.intake`: puts a datum into the memory.
* `Memory.snapshot`: the datum that a value stands for now.
* `Datum.told`: the datum, if it can be handed out.
-/

namespace LoopNest

/-- What a name can stand for.  A function is known by its name. -/
inductive Value where
  | nothing
  | number (width : Width) (s : Scalar)
  | text (s : String)
  | list (cell : Nat)
  | array (cell offset : Nat) (shape : List Nat)
  | function (name : String)
  deriving DecidableEq

instance : Inhabited Value := ⟨.nothing⟩

/-- A value with everything that it refers to.  The items of an array are listed row by row; rows
that differ in length have no shape. -/
inductive Datum where
  | nothing
  | number (s : Scalar)
  | text (s : String)
  | list (items : List Datum)
  | array (layout : Layout) (shape : Option (List Nat)) (items : List Scalar)
  | function (name : String)

instance : Inhabited Datum := ⟨.nothing⟩

/-- A shared part of the memory. -/
inductive Cell where
  | list (items : Array Value)
  | array (layout : Layout) (items : Array Scalar)

/-- The cells that exist, by address. -/
abbrev Memory := Array Cell

/-- What a run changes. -/
structure World where
  memory : Memory
  locals : NameMap Value
  /-- what functions have recorded, in order -/
  log : List Datum

/-- A computation on a world, which keeps its changes when it stops at a fault. -/
abbrev Step := EStateM Fault World

/-- The outcome of a computation that changes nothing. -/
def Step.ofExcept {α : Type} : Except Fault α → Step α
  | .ok a => pure a
  | .error fault => throw fault

/-! ## Data in and out -/

/-- The number that an array of a layout keeps for a number of any kind.  An array of integers drops
the fraction. -/
def Layout.element (l : Layout) (s : Scalar) : Except Fault Scalar :=
  if l.isInteger then do l.keep (.int (← s.toInt)) else l.keep s

namespace Memory

/-- Adds a cell. -/
def add (memory : Memory) (cell : Cell) : Memory × Nat := (memory.push cell, memory.size)

mutual

/-- Puts a datum into the memory. -/
def intake (memory : Memory) : Datum → Except Fault (Memory × Value)
  | .nothing => .ok (memory, .nothing)
  | .number s => .ok (memory, .number .plain s)
  | .text s => .ok (memory, .text s)
  | .function x => .ok (memory, .function x)
  | .list items => do
      let (memory, values) ← intakeAll memory items
      let (memory, cell) := memory.add (.list values.toArray)
      return (memory, .list cell)
  | .array _ none _ => .error .value
  | .array layout (some shape) items => do
      let (memory, cell) := memory.add (.array layout (← items.mapM layout.element).toArray)
      return (memory, .array cell 0 shape)

/-- Puts data into the memory, in order. -/
def intakeAll (memory : Memory) : List Datum → Except Fault (Memory × List Value)
  | [] => .ok (memory, [])
  | item :: items => do
      let (memory, value) ← intake memory item
      let (memory, values) ← intakeAll memory items
      return (memory, value :: values)

end

/-- The datum that a value stands for, down to a depth. -/
def snapshotTo (memory : Memory) : Nat → Value → Datum
  | _, .nothing => .nothing
  | _, .number _ s => .number s
  | _, .text s => .text s
  | _, .function x => .function x
  | _, .array cell offset shape =>
      match memory[cell]? with
      | some (.array layout items) =>
          .array layout (some shape) (items.extract offset (offset + Shape.size shape)).toList
      | _ => .nothing
  | 0, .list _ => .nothing
  | depth + 1, .list cell =>
      match memory[cell]? with
      | some (.list items) => .list (items.toList.map (snapshotTo memory depth))
      | _ => .nothing

/-- The datum that a value stands for.  Lists that do not hold themselves nest at most as deep as
there are cells. -/
def snapshot (memory : Memory) (value : Value) : Datum := memory.snapshotTo memory.size value

end Memory

namespace Datum

/-- The number, if it can be handed out. -/
def toldScalar (s : Scalar) : Except Fault Scalar :=
  match s with
  | .int n => if n.natAbs < Nat.pow 10 Number.digitLimit then .ok s else .error .value
  | .complex _ => .error .kind
  | _ => .ok s

mutual

/-- The datum, if it can be handed out; the first part that cannot be decides the fault. -/
def told : Datum → Except Fault Datum
  | .number s => do return .number (← toldScalar s)
  | .list items => do return .list (← toldAll items)
  | .array layout shape items => do return .array layout shape (← items.mapM toldScalar)
  | .function _ => .error .kind
  | datum => .ok datum

/-- The data, if all of them can be handed out. -/
def toldAll : List Datum → Except Fault (List Datum)
  | [] => .ok []
  | item :: items => do
      let item ← told item
      return item :: (← toldAll items)

end

end Datum
end LoopNest
