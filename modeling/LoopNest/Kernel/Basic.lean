import LoopNest.Expr.Basic
import LoopNest.Report

/-!
# Kernels

A kernel is a list of instructions and a list of loops.  A loop has bounds, a step and members,
which are instructions and loops again.  One instruction or loop may be a member in several places,
members may form a cycle, and compiling in place rewrites them; so which object a member *is*
matters, not only what it looks like.

## Why tables

Every instruction and every loop, at whatever depth it was declared, has a row of its own in one of
two tables, and a member is a row number (`Ref`).  Row numbers are bounded by the size of their
table, so no reference dangles, and the finite number of rows bounds every walk through the members.

* `Kernel.items`: the kernel's own instructions and loops, in declaration order.
* `Kernel.name`, `Kernel.deps`, `Kernel.members`: what a reference stands for.
* `Kernel.find?`: the item with a name.
* `Kernel.Distinct`: the kernel's own items have different names.
-/

namespace LoopNest

/-- A statement with the names of what must run before it. -/
structure Instruction where
  name : String
  body : Expr
  deps : List String

/-- A loop without its members: the variable runs from the lower bound, while it is at most the
upper bound, and the step is done after each round. -/
structure LoopHead where
  name : String
  lower : Expr
  upper : Expr
  step : Expr
  deps : List String

/-- A reference to one of `m` instructions or one of `n` loops. -/
inductive Ref (m n : Nat) where
  | instruction (i : Fin m)
  | loop (l : Fin n)
  deriving DecidableEq

/-- A loop with its members. -/
structure Loop (m n : Nat) where
  head : LoopHead
  members : List (Ref m n)

/-- A kernel over tables of `m` instructions and `n` loops. -/
structure Kernel (m n : Nat) where
  instructionTable : Vector Instruction m
  loopTable : Vector (Loop m n) n
  instructions : List (Fin m)
  loops : List (Fin n)

/-- The step that a loop has if none is given. -/
def defaultStep (name : String) : Expr := .form "+=" [.name name, .literal (.int 1)]

namespace Instruction

/-- The instruction as it is shown. -/
def shown (i : Instruction) : String :=
  "Instruction(" ++ Text.quote i.name ++ ", " ++ i.body.text ++ ")"

end Instruction

namespace LoopHead

/-- A loop as it is shown, with the names of its members. -/
def shown (h : LoopHead) (members : List String) : String :=
  "Domain(" ++ Text.quote h.name ++ ", " ++ h.lower.text ++ ".." ++ h.upper.text ++ ", ["
    ++ ", ".intercalate members ++ "])"

/-- The name occurs in the bounds or in the step. -/
def mentions (h : LoopHead) (x : String) : Bool :=
  h.step.occurs x || h.lower.occurs x || h.upper.occurs x

end LoopHead

namespace Kernel

variable {m n : Nat} (k : Kernel m n)

/-- The instruction in a row. -/
def instruction (i : Fin m) : Instruction := k.instructionTable[i]

/-- The loop in a row. -/
def loop (l : Fin n) : Loop m n := k.loopTable[l]

/-- The kernel's own items: instructions, then loops. -/
def items : List (Ref m n) :=
  k.instructions.map .instruction ++ k.loops.map .loop

/-- The name of an item. -/
def name : Ref m n → String
  | .instruction i => (k.instruction i).name
  | .loop l => (k.loop l).head.name

/-- The dependencies that an item declares. -/
def deps : Ref m n → List String
  | .instruction i => (k.instruction i).deps
  | .loop l => (k.loop l).head.deps

/-- The members of an item; an instruction has none. -/
def members : Ref m n → List (Ref m n)
  | .instruction _ => []
  | .loop l => (k.loop l).members

/-- The kernel's own item with a name. -/
def find? (x : String) : Option (Ref m n) :=
  k.items.find? fun r => k.name r == x

/-- The kernel's own items have different names. -/
def Distinct : Prop := (k.items.map k.name).Nodup

instance : Decidable k.Distinct := inferInstanceAs (Decidable (k.items.map k.name).Nodup)

/-- The item as it is shown. -/
def shown : Ref m n → String
  | .instruction i => (k.instruction i).shown
  | .loop l => (k.loop l).head.shown ((k.loop l).members.map k.name)

/-! ## Changing a kernel -/

/-- Another instruction in a row. -/
def setInstruction (i : Fin m) (value : Instruction) : Kernel m n :=
  { k with instructionTable := k.instructionTable.set i value }

/-- Another loop in a row. -/
def setLoop (l : Fin n) (value : Loop m n) : Kernel m n :=
  { k with loopTable := k.loopTable.set l value }

/-- Other dependencies of an item. -/
def setDeps : Ref m n → List String → Kernel m n
  | .instruction i, deps => k.setInstruction i { k.instruction i with deps }
  | .loop l, deps => k.setLoop l { k.loop l with head := { (k.loop l).head with deps } }

/-- Other members of a loop. -/
def setMembers (l : Fin n) (members : List (Ref m n)) : Kernel m n :=
  k.setLoop l { k.loop l with members }

end Kernel
end LoopNest
