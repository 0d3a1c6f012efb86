import LoopNest.CompileError
import LoopNest.Kernel.Basic
import LoopNest.NameMap

/-!
# The dependency layer

A layer holds, for each item of a kernel, the names it depends on, and for each loop its members:
what the kernel declares and what is inferred from it.

* A later instruction that is a call, or that reads what it writes, depends on all earlier ones.
* An instruction that mentions a loop variable depends on that loop and becomes its member.
* A loop whose variable occurs in the bounds or the step of an earlier loop depends on the earlier
  loop and becomes its member.

The kernel itself changes only when a layer is committed to it.  A step that fails keeps what was
done before, so the steps are programs with a state (`LayerStep`, and the same over a kernel for
`Layer.commit`).
-/

namespace LoopNest

/-- Dependencies of items and members of loops, by name, and how many dependencies were inferred. -/
structure Layer (m n : Nat) where
  deps : NameMap (List String)
  members : NameMap (List (Ref m n))
  inferred : Nat

/-- A step on a layer.  A failing step keeps the changes made before. -/
abbrev LayerStep (m n : Nat) := EStateM CompileError (Layer m n)

namespace Layer

variable {m n : Nat}

/-- The layer that knows nothing. -/
def empty : Layer m n := ⟨.empty, .empty, 0⟩

/-- The layer of what a kernel declares. -/
def declared (k : Kernel m n) : Layer m n where
  deps := .ofList (k.items.map fun r => (k.name r, k.deps r))
  members := .ofList (k.loops.map fun l => ((k.loop l).head.name, (k.loop l).members))
  inferred := 0

/-- The dependencies of the item with a name. -/
def depsOf (layer : Layer m n) (x : String) : Except CompileError (List String) :=
  match layer.deps.find? x with
  | some deps => .ok deps
  | none => .error (.unknown x)

/-- The members of the loop with a name. -/
def membersOf (layer : Layer m n) (x : String) : Except CompileError (List (Ref m n)) :=
  match layer.members.find? x with
  | some members => .ok members
  | none => .error (.unknown x)

/-- Infers a dependency. -/
def addDep (x dep : String) : LayerStep m n Unit := do
  let layer ← get
  match layer.depsOf x with
  | .error e => throw e
  | .ok deps =>
      set { layer with deps := layer.deps.insert x (deps ++ [dep]), inferred := layer.inferred + 1 }

/-- Adds a member to a loop. -/
def addMember (x : String) (member : Ref m n) : LayerStep m n Unit := do
  let layer ← get
  match layer.membersOf x with
  | .error e => throw e
  | .ok members => set { layer with members := layer.members.insert x (members ++ [member]) }

/-! ## Inference -/

/-- Dependencies on the instructions declared before, whose names are given. -/
def addOrder (k : Kernel m n) (earlier : List String) : List (Fin m) → LayerStep m n Unit
  | [] => pure ()
  | i :: rest => do
      let x := (k.instruction i).name
      -- nothing is asked of the first instruction
      unless earlier.isEmpty do
        match (k.instruction i).body.readsOwnTarget with
        | .error part => throw (.unwritten part (some x))
        | .ok reads => if reads then earlier.forM (addDep x)
      addOrder k (earlier ++ [x]) rest

/-- Dependencies between instructions. -/
def inferOrder (k : Kernel m n) : LayerStep m n Unit := addOrder k [] k.instructions

/-- Makes an instruction a member of a loop whose variable it mentions. -/
def addMention (k : Kernel m n) (i : Fin m) (l : Fin n) : LayerStep m n Unit := do
  let x := (k.instruction i).name
  let loop := (k.loop l).head.name
  if (k.instruction i).body.occurs loop then
    addDep x loop
    addMember loop (.instruction i)

/-- Makes a later loop a member of an earlier one whose head mentions it. -/
def addInner (k : Kernel m n) (outer inner : Fin n) : LayerStep m n Unit := do
  let x := (k.loop outer).head.name
  let y := (k.loop inner).head.name
  if (k.loop outer).head.mentions y then
    addDep y x
    addMember x (.loop inner)

/-- Dependencies of later loops on earlier ones. -/
def addInners (k : Kernel m n) : List (Fin n) → LayerStep m n Unit
  | [] => pure ()
  | outer :: rest => do
      rest.forM (addInner k outer)
      addInners k rest

/-- Dependencies on loops. -/
def inferLoops (k : Kernel m n) : LayerStep m n Unit := do
  k.instructions.forM fun i => k.loops.forM fun l => addMention k i l
  addInners k k.loops

/-- All that can be inferred. -/
def infer (k : Kernel m n) : LayerStep m n Unit := do
  inferOrder k
  inferLoops k

/-- What a kernel declares and what follows from it. -/
def analyze (k : Kernel m n) : Except CompileError (Layer m n) :=
  match (infer k).run (declared k) with
  | .ok _ layer => .ok layer
  | .error e _ => .error e

/-! ## Writing back -/

/-- Writes the dependencies and members of a layer into the kernel. -/
def commit (layer : Layer m n) : EStateM CompileError (Kernel m n) Unit := do
  (← get).items.forM fun r => do
    let k ← get
    match layer.depsOf (k.name r) with
    | .error e => throw e
    | .ok deps => set (k.setDeps r deps)
  (← get).loops.forM fun l => do
    let k ← get
    match layer.membersOf (k.loop l).head.name with
    | .error e => throw e
    | .ok members => set (k.setMembers l members)

end Layer
end LoopNest
