import LoopNest.Kernel.Draft
import LoopNest.Kernel.Names
import LoopNest.Registry

/-!
# Sessions

A session compiles kernels and runs what it compiled.  It has any number of registries.  The
kernels, the numbers for names and the world in which programs run are common to all of them.  Every
compilation takes a number, also one that fails, and a number is never given twice.

* `Session.freshName`: the next number whose name is free.
* `Session.run`, `Session.compile`: a compilation alone, and one whose result is registered.
* `Session.perform`: any request.
* `AnyKernel.addDep`, `AnyKernel.addMember`, `AnyKernel.setBody`: changes to a kernel by its caller.
-/

namespace LoopNest

namespace AnyKernel

/-- The kernel in another state, with the same names. -/
def become (k : AnyKernel) (kernel : Kernel k.m k.n) (h : k.kernel.SameNames kernel) : AnyKernel :=
  ⟨kernel, h.distinct k.distinct⟩

/-- The result with the kernel as it was left. -/
def leave {α : Type} (k : AnyKernel) (result : EStateM.Result CompileError (Kernel k.m k.n) α)
    (h : k.kernel.SameNames (Kernel.left result)) : EStateM.Result CompileError AnyKernel α :=
  match result, h with
  | .ok a kernel, h => .ok a (k.become kernel h)
  | .error e kernel, h => .error e (k.become kernel h)

/-- Compiles the kernel. -/
def compile (inPlace : Bool) : EStateM CompileError AnyKernel Compilation := fun k =>
  k.leave ((Kernel.compile inPlace).run k.kernel) (k.kernel.sameNames_compile inPlace)

end AnyKernel

/-- Where compilations end up, and their mode. -/
structure Desk (ι : Type) where
  registry : ι
  inPlace : Bool

/-- The state of a session. -/
structure Session (ι : Type) where
  kernels : List AnyKernel
  /-- the next number for a name -/
  counter : Nat
  registry : ι → Registry
  /-- the handles handed out so far, with the registries that they come from -/
  handles : List (ι × Handle)
  /-- what programs run in -/
  world : World

/-- Why a step of a session fails. -/
inductive SessionError where
  | noKernel (index : Nat)
  | noHandle (index : Nat)
  | compile (e : CompileError)
  | register (e : RegisterError)
  | invoke (e : InvokeError)

/-- A step of a session, which keeps its changes when it fails. -/
abbrev SessionStep (ι : Type) := EStateM SessionError (Session ι)

/-- The name of a compiled kernel by its number. -/
def numberedName (number : Nat) : String := "loopkernel_" ++ toString number

/-- The first number from a start on whose name is not taken.  Among one more numbers than there are
names, one is free. -/
def firstFree (taken : List String) (start : Nat) : Nat :=
  ((List.range' start (taken.length + 1)).find? fun number =>
    !taken.contains (numberedName number)).getD (start + taken.length)

namespace Session

variable {ι : Type}

/-- A session before its first step. -/
def start (kernels : List AnyKernel) (functions : ι → Functions) : Session ι :=
  ⟨kernels, 1, fun i => .empty (functions i), [], ⟨#[], .empty, []⟩⟩

/-- Puts a registry in the place of another. -/
def setRegistry [DecidableEq ι] (s : Session ι) (i : ι) (registry : Registry) : Session ι :=
  { s with registry := fun j => if j = i then registry else s.registry j }

/-- The next number whose name is free in a registry. -/
def nextNumber (s : Session ι) (i : ι) : Nat := firstFree (s.registry i).handles.names s.counter

/-- Takes the next number whose name is free in a registry. -/
def freshName (i : ι) : SessionStep ι String := do
  let s ← get
  let number := s.nextNumber i
  set { s with counter := number + 1 }
  return numberedName number

/-- A kernel of the session. -/
def kernel? (s : Session ι) (index : Nat) : Option AnyKernel := s.kernels[index]?

/-- Puts a kernel where another stood. -/
def setKernel (s : Session ι) (index : Nat) (kernel : AnyKernel) : Session ι :=
  { s with kernels := s.kernels.set index kernel }

/-- Compiles a kernel under a fresh name; nothing is registered. -/
def run (desk : Desk ι) (index : Nat) : SessionStep ι (String × Compilation) := do
  match (← get).kernel? index with
  | none => throw (.noKernel index)
  | some k =>
      let name ← freshName desk.registry
      let s ← get
      match (AnyKernel.compile desk.inPlace).run k with
      | .ok compilation k =>
          set (s.setKernel index k)
          return (name, compilation)
      | .error e k =>
          set (s.setKernel index k)
          throw (.compile e)

/-- Compiles a kernel and keeps only the tree. -/
def lower (desk : Desk ι) (index : Nat) : SessionStep ι Expr := do
  let (_, compilation) ← run desk index
  return compilation.tree

/-- Registers a tree and hands out its handle. -/
def register [DecidableEq ι] (i : ι) (name : String) (parameters : List String) (body : Expr) :
    SessionStep ι Handle := do
  let s ← get
  match (s.registry i).register name parameters body with
  | .error e => throw (.register e)
  | .ok (registry, handle) =>
      let s := s.setRegistry i registry
      set { s with handles := s.handles ++ [(i, handle)] }
      return handle

/-- Compiles a kernel and registers the result. -/
def compile [DecidableEq ι] (desk : Desk ι) (index : Nat) : SessionStep ι Handle := do
  let (name, compilation) ← run desk index
  register desk.registry name compilation.parameters compilation.tree

/-- An invocation in the world of the session. -/
def inWorld (invocation : Invocation Value) : SessionStep ι Value := do
  let s ← get
  match invocation.run s.world with
  | .ok value w =>
      set { s with world := w }
      return value
  | .error e w =>
      set { s with world := w }
      throw (.invoke e)

/-- Runs the program under a name. -/
def invoke (i : ι) (name : String) (inputs : NameMap Value) : SessionStep ι Value := do
  inWorld (((← get).registry i).invoke name inputs)

/-- Calls a handle that was handed out. -/
def call (index : Nat) (inputs : NameMap Value) : SessionStep ι Value := do
  let s ← get
  match s.handles[index]? with
  | none => throw (.noHandle index)
  | some (i, handle) => inWorld (handle.call (s.registry i) inputs)

end Session

/-! ## Requests -/

/-- What a session is asked for. -/
inductive Request (ι : Type) where
  | run (desk : Desk ι) (index : Nat)
  | lower (desk : Desk ι) (index : Nat)
  | compile (desk : Desk ι) (index : Nat)
  | register (i : ι) (name : String) (parameters : List String) (body : Expr)
  | invoke (i : ι) (name : String) (inputs : NameMap Value)
  | call (index : Nat) (inputs : NameMap Value)
  /-- The caller has changed a kernel. -/
  | edit (index : Nat) (kernel : AnyKernel)

/-- What a session answers. -/
inductive Reply where
  | compilation (name : String) (c : Compilation)
  | tree (e : Expr)
  | handle (h : Handle)
  | value (value : Value)
  | edited

namespace Session

variable {ι : Type} [DecidableEq ι]

/-- Does what is asked for. -/
def perform : Request ι → SessionStep ι Reply
  | .run desk index => do
      let (name, compilation) ← run desk index
      return .compilation name compilation
  | .lower desk index => return .tree (← lower desk index)
  | .compile desk index => return .handle (← compile desk index)
  | .register i name parameters body => return .handle (← register i name parameters body)
  | .invoke i name inputs => return .value (← invoke i name inputs)
  | .call index inputs => return .value (← call index inputs)
  | .edit index kernel => do
      modify fun s => s.setKernel index kernel
      return .edited

/-- The session after a step, whether it failed or not. -/
def ended {α : Type} : EStateM.Result SessionError (Session ι) α → Session ι
  | .ok _ s => s
  | .error _ s => s

/-- The session after a request. -/
def next (s : Session ι) (request : Request ι) : Session ι := ended ((perform request).run s)

/-- The session after requests. -/
def after (s : Session ι) (requests : List (Request ι)) : Session ι := requests.foldl next s

end Session

/-! ## Data in and out -/

/-- What an invocation leaves behind. -/
structure Outcome where
  result : Except SessionError Datum
  /-- the inputs that are lists or arrays, as they are afterwards, if all of them can be handed
  out -/
  shared : Except Fault (NameMap Datum)
  /-- what functions recorded, in order -/
  log : List Datum

namespace Outcome

/-- The value refers to a list or an array. -/
def isShared : Datum → Bool
  | .list _ | .array _ _ _ => true
  | _ => false

/-- The data under names, put into a memory. -/
def intakeInputs (memory : Memory) :
    List (String × Datum) → Except Fault (Memory × List (String × Value))
  | [] => .ok (memory, [])
  | (x, datum) :: rest => do
      let (memory, value) ← memory.intake datum
      let (memory, values) ← intakeInputs memory rest
      return (memory, (x, value) :: values)

/-- The data that are lists or arrays, if all of them can be handed out. -/
def sharedData (data : List (String × Datum)) : Except Fault (NameMap Datum) := do
  let told ← (data.filter fun entry => isShared entry.2).mapM fun (x, datum) => do
    return (x, ← datum.told)
  return ⟨told⟩

/-- The outcome of a run that left a world behind. -/
def ofWorld (values : List (String × Value)) (w : World) (result : Except SessionError Datum) :
    Outcome :=
  ⟨result, sharedData (values.map fun (x, value) => (x, w.memory.snapshot value)), w.log⟩

end Outcome

/-- A step on data, in a world that has nothing else.  Inputs that cannot be taken in are noticed
first.  Changes that were made before a fault stay, also where the fault is a result that cannot be
handed out. -/
def Session.exchange {ι : Type} (s : Session ι) (inputs : NameMap Datum)
    (step : NameMap Value → SessionStep ι Value) : Session ι × Outcome :=
  match Outcome.intakeInputs #[] inputs.entries with
  | .error fault => (s, ⟨.error (.invoke (.fault fault)), .error fault, []⟩)
  | .ok (memory, values) =>
      match (step ⟨values⟩).run { s with world := ⟨memory, .empty, []⟩ } with
      | .ok value s =>
          (s, .ofWorld values s.world
            ((s.world.memory.snapshot value).told.mapError fun f => .invoke (.fault f)))
      | .error e s => (s, .ofWorld values s.world (.error e))

/-! ## Changes by the caller -/

/-- Why a kernel is not changed. -/
inductive EditError where
  | unknown (name : String)
  | notLoop (name : String)

/-- The item under a name. -/
def Kernel.item {m n : Nat} (k : Kernel m n) (x : String) : Except EditError (Ref m n) :=
  (k.find? x).elim (.error (.unknown x)) .ok

namespace AnyKernel

variable (k : AnyKernel)

/-- Adds a dependency behind those that an item has. -/
def addDep (x dep : String) : Except EditError AnyKernel := do
  let r ← k.kernel.item x
  return k.become _ (k.kernel.sameNames_setDeps r (k.kernel.deps r ++ [dep]))

/-- Adds a member behind those that a loop has. -/
def addMember (x member : String) : Except EditError AnyKernel := do
  match ← k.kernel.item x with
  | .instruction _ => throw (.notLoop x)
  | .loop l =>
      let members := k.kernel.members (.loop l) ++ [← k.kernel.item member]
      return k.become _ (k.kernel.sameNames_setMembers l members)

/-- Gives an instruction another body.  A loop has none and stays as it is. -/
def setBody (x : String) (body : Expr) : Except EditError AnyKernel := do
  match ← k.kernel.item x with
  | .instruction i =>
      let changed := { k.kernel.instruction i with body }
      return k.become (k.kernel.setInstruction i changed) (k.kernel.sameNames_setInstruction rfl)
  | .loop _ => return k

end AnyKernel
end LoopNest
