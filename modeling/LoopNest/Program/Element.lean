import LoopNest.Program.Value

/-!
# Elements of lists and arrays

An index of a list or a text is one integer; a negative one counts from the end.  An array takes
several indices.  Integers select a block of it, which stays a part of the array.  A truth value or
a list of integers among the indices selects a copy.

* `Value.load`, `Value.store`: the element or the part that indices select.
* `Value.tensor`: an array, or a list read as one.
-/

namespace LoopNest
namespace Value

/-- The longest sequence that is kept. -/
def longestSequence : Nat := Nat.pow 2 32

/-! ## Cells -/

/-- The items of a list. -/
def itemsOf (cell : Nat) : Step (Array Value) := do
  match (← get).memory[cell]? with
  | some (.list items) => return items
  | _ => throw .kind

/-- The layout and the items of an array. -/
def elementsOf (cell : Nat) : Step (Layout × Array Scalar) := do
  match (← get).memory[cell]? with
  | some (.array layout items) => return (layout, items)
  | _ => throw .kind

/-- Puts a cell where another stood. -/
def setCell (address : Nat) (cell : Cell) : Step Unit :=
  modify fun w => { w with memory := w.memory.setIfInBounds address cell }

/-- A new cell. -/
def newCell (cell : Cell) : Step Nat := do
  let w ← get
  let (memory, address) := w.memory.add cell
  set { w with memory }
  return address

/-- A new list. -/
def newList (items : Array Value) : Step Value := do return .list (← newCell (.list items))

/-- A tensor as a value: a number if it has no dimensions, else a new array. -/
def ofTensor (t : Tensor) : Step Value := do
  match t.shape, t.items with
  | [], [s] => return .number (.machine t.layout) s
  | shape, items => return .array (← newCell (.array t.layout items.toArray)) 0 shape

/-! ## Values as tensors -/

/-- The value is a machine number or an array. -/
def isMachine : Value → Bool
  | .number (.machine _) _ | .array _ _ _ => true
  | _ => false

/-- The shape of a value read as an array, and its elements with their own layouts.  Lists whose
items differ in shape have none. -/
def gather (memory : Memory) : Nat → Value → Except Fault (List Nat × List (Layout × Scalar))
  | _, .number (.machine l) s => .ok ([], [(l, s)])
  | _, .number .plain s => (Layout.ofScalar? s).elim (.error .kind) fun l => .ok ([], [(l, s)])
  | _, .array cell offset shape =>
      match memory[cell]? with
      | some (.array l items) =>
          let part := items.extract offset (offset + Shape.size shape)
          .ok (shape, part.toList.map fun s => (l, s))
      | _ => .error .kind
  | depth + 1, .list cell =>
      match memory[cell]? with
      | some (.list items) => do
          let parts ← items.toList.mapM (gather memory depth)
          match parts with
          | [] => return ([0], [])
          | (shape, _) :: _ =>
              if parts.all fun part => part.1 = shape then
                return (parts.length :: shape, parts.flatMap Prod.snd)
              else throw .value
      | _ => .error .kind
  | _, _ => .error .kind

/-- The shape and the elements of a value read as an array. -/
def gathered (value : Value) : Step (List Nat × List (Layout × Scalar)) := do
  let memory := (← get).memory
  Step.ofExcept (gather memory (memory.size + 1) value)

/-- The layout of a value read as an array: an array has its own, and a list the one that holds all
its elements.  A list without elements is one of floats. -/
def layoutOf (memory : Memory) (value : Value) (items : List (Layout × Scalar)) : Layout :=
  match value, items with
  | .array cell _ _, _ =>
      match memory[cell]? with
      | some (.array l _) => l
      | _ => .double
  | _, [] => .double
  | _, (first, _) :: rest => rest.foldl (fun l item => l.join item.1) first

/-- A value read as a tensor. -/
def tensor (value : Value) : Step Tensor := do
  let (shape, items) ← value.gathered
  let layout := layoutOf (← get).memory value items
  return ⟨layout, shape, ← Step.ofExcept (items.mapM fun item => layout.keep item.2)⟩

/-- A value as an operand beside a machine number or an array. -/
def operand : Value → Step Operand
  | .number .plain s => return .plain s
  | value => do return .tensor (← value.tensor)

/-! ## Conditions -/

/-- The value counts as true.  An array counts only if it has one element. -/
def truth : Value → Step Bool
  | .nothing => return false
  | .number _ s => return s.truth
  | .text s => return !s.isEmpty
  | .function _ => return true
  | .list cell => do return !(← itemsOf cell).isEmpty
  | .array cell offset shape => do
      if Shape.size shape ≠ 1 then throw .value
      return ((← elementsOf cell).2[offset]?.map Scalar.truth).getD false

/-! ## Places -/

/-- The place of an index among so many items; a negative index counts from the end. -/
def place (size : Nat) (i : Int) : Except Fault Nat :=
  let i := if i < 0 then i + size else i
  if 0 ≤ i && i < size then .ok i.toNat else .error .index

/-- The integer of an index into a list or a text. -/
def listIndex : Value → Except Fault Int
  | .number _ (.int n) => .ok n
  | .number .plain (.bool b) => .ok b.toInt
  | _ => .error .kind

/-- An index into an array. -/
inductive Index where
  | at (n : Int)
  /-- one dimension more, of one element -/
  | fresh
  /-- everything, or nothing at all -/
  | mask (b : Bool)

/-- What an index into an array says. -/
def arrayIndex : Value → Except Fault Index
  | .number _ (.int n) => .ok (.at n)
  | .number _ (.bool b) => .ok (.mask b)
  | .nothing => .ok .fresh
  | _ => .error .index

/-- The block that leading indices select: its offset and its shape. -/
def block (offset : Nat) : List Nat → List Int → Except Fault (Nat × List Nat)
  | shape, [] => .ok (offset, shape)
  | [], _ :: _ => .error .index
  | size :: shape, i :: rest => do
      let k ← place size i
      block (offset + k * Shape.size shape) shape rest

/-- A part of an array: a block of it, or a copy of blocks. -/
inductive Part where
  | view (offset : Nat) (shape : List Nat)
  | copies (offsets shape rest : List Nat)

/-- The part that indices select. -/
def part (offset : Nat) (shape : List Nat) (indices : List Index) : Except Fault Part := do
  let integers := indices.filterMap fun
    | .at n => some n
    | _ => none
  let masks := indices.filterMap fun
    | .mask b => some b
    | _ => none
  let fresh := indices.countP fun
    | .fresh => true
    | _ => false
  let (offset, rest) ← block offset shape integers
  let rest := List.replicate fresh 1 ++ rest
  if masks.isEmpty then return .view offset rest
  else if masks.all id then return .copies [offset] [1] rest
  else return .copies [] [0] rest

/-- The copy that a list or an array of integers selects along the first dimension. -/
def picked (offset : Nat) (shape : List Nat) (picks : Tensor) : Except Fault Part := do
  match shape with
  | [] => throw .index
  | size :: rest =>
      let offsets ← picks.items.mapM fun
        | .int n => do return offset + (← place size n) * Shape.size rest
        | _ => throw .index
      return .copies offsets picks.shape rest

/-- The part of an array that the values of indices select. -/
def select (offset : Nat) (shape : List Nat) (indices : List Value) : Step Part := do
  match indices with
  | [.list cell] => do
      let picks ← tensor (.list cell)
      Step.ofExcept (picked offset shape picks)
  | [.array cell start dims] => do
      let picks ← tensor (.array cell start dims)
      Step.ofExcept (picked offset shape picks)
  | _ => Step.ofExcept (do part offset shape (← indices.mapM arrayIndex))

/-! ## Loads -/

/-- The element of a value by its indices. -/
def load (base : Value) (indices : List Value) : Step Value := do
  match base, indices with
  | .list cell, [i] =>
      let items ← itemsOf cell
      let k ← Step.ofExcept (do place items.size (← listIndex i))
      return items[k]?.getD .nothing
  | .text s, [i] =>
      let k ← Step.ofExcept (do place s.length (← listIndex i))
      return .text (String.ofList ((s.toList.drop k).take 1))
  | .number (.machine l) s, indices =>
      match ← select 0 [] indices with
      | .view _ [] => return base
      | .view _ shape => ofTensor ⟨l, shape, [s]⟩
      | .copies offsets shape rest => ofTensor ⟨l, shape ++ rest, offsets.map fun _ => s⟩
  | .array cell offset shape, indices =>
      let (layout, items) ← elementsOf cell
      match ← select offset shape indices with
      | .view offset [] => return .number (.machine layout) (items[offset]?.getD default)
      | .view offset shape => return .array cell offset shape
      | .copies offsets shape rest =>
          let size := Shape.size rest
          let copied := offsets.flatMap fun k => (items.extract k (k + size)).toList
          return .array (← newCell (.array layout copied.toArray)) 0 (shape ++ rest)
  | _, _ => throw .kind

/-! ## Stores -/

/-- The element that an array keeps for a value.  A text is read as a number. -/
def element (l : Layout) : Value → Except Fault Scalar
  | .nothing => if l.isInteger then .error .kind else l.keep (.float Number.notANumber)
  | .number _ s => l.element s
  | .text s =>
      if l.isInteger then
        (Number.readInt? s.toList).elim (.error .value) fun n => l.keep (.int n)
      else (Number.readFloat? s.toList).elim (.error .value) fun x => l.keep (.float x)
  | .list _ | .array _ _ _ => .error .value
  | .function _ => .error .kind

/-- The elements that a part of an array of a shape keeps for a value: a number everywhere, or the
elements of a list or an array that fits. -/
def elements (l : Layout) (shape : List Nat) (value : Value) : Step (List Scalar) := do
  match value with
  | .list _ | .array _ _ _ =>
      let (own, items) ← value.gathered
      let items ← Step.ofExcept (items.mapM fun item => l.element item.2)
      let t : Tensor := Tensor.dropLeading shape.length ⟨l, own, items⟩
      match t.stretch? shape with
      | some items => return items
      | none => throw .value
  | _ => return List.replicate (Shape.size shape) (← Step.ofExcept (element l value))

/-- The items with those from an offset on replaced. -/
def overwrite {α : Type} (items : Array α) (offset : Nat) : List α → Array α
  | [] => items
  | x :: xs => overwrite (items.setIfInBounds offset x) (offset + 1) xs

/-- Puts a value where the indices of another point. -/
def store (base : Value) (indices : List Value) (value : Value) : Step Unit := do
  match base, indices with
  | .list cell, [i] =>
      let items ← itemsOf cell
      let k ← Step.ofExcept (do place items.size (← listIndex i))
      setCell cell (.list (items.setIfInBounds k value))
  | .array cell offset shape, indices =>
      let (layout, items) ← elementsOf cell
      match ← select offset shape indices with
      | .view offset [] =>
          let x ← Step.ofExcept (element layout value)
          setCell cell (.array layout (items.setIfInBounds offset x))
      | .view offset shape =>
          setCell cell (.array layout (overwrite items offset (← elements layout shape value)))
      | .copies offsets shape rest =>
          let size := Shape.size rest
          let xs ← elements layout (shape ++ rest) value
          let blocks := offsets.zip (Shape.blocks offsets.length size xs)
          setCell cell (.array layout
            (blocks.foldl (fun items (offset, block) => overwrite items offset block) items))
  | .text _, [i] =>
      -- an index that no text could have is noticed before the text is
      match listIndex i with
      | .ok n => throw (if Layout.int64.holds n then .kind else .index)
      | .error _ => throw .kind
  | _, _ => throw .kind

end Value
end LoopNest
