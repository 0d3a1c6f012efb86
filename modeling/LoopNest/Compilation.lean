import LoopNest.Schedule.Nester

/-!
# Compiling a kernel

The way from a kernel to its lowered tree: infer the dependencies, order the items, nest the loops,
lower the nests.  Compiled in place, a kernel keeps the inferred dependencies and the nesting; what
was written back before a failure stays.

* `Kernel.arrange`: from the inferred dependencies to the nested loops.
* `Kernel.compile`: the whole way.
* `Compilation.dump`: the text that shows a compilation.
-/

namespace LoopNest

/-- What a compilation produced. -/
structure Compilation where
  parameters : List String
  nests : List Nest
  tree : Expr

namespace Compilation

/-- The names at the top of the schedule, in order. -/
def top (c : Compilation) : List String := c.nests.map Nest.name

/-- The schedule as text. -/
def schedule (c : Compilation) : String := (Nest.scheduleSExpr c.nests).pretty

/-- The text that shows a compilation: parameters, schedule and tree. -/
def dump (c : Compilation) : String :=
  ";; arguments: " ++ " ".intercalate c.parameters ++ "\n" ++ c.schedule ++ "\n\n" ++ c.tree.pretty
    ++ "\n"

end Compilation

/-- A computation on a kernel, which keeps its changes when it fails. -/
abbrev KernelStep (m n : Nat) := EStateM CompileError (Kernel m n)

variable {m n : Nat}

/-- The outcome of a computation that changes nothing. -/
def KernelStep.ofExcept {α : Type} : Except CompileError α → KernelStep m n α
  | .ok a => pure a
  | .error e => throw e

/-- How the items of a kernel are arranged: their flat order, the bodies before and after nesting,
and what runs at the top. -/
structure Arrangement (m n : Nat) where
  order : List (Ref m n)
  start : Nester m n
  top : List (Ref m n)
  final : Nester m n

/-- Nests the loops of a flat order. -/
def Kernel.nestOrder (k : Kernel m n) (layer : Layer m n) (order : List (Ref m n)) :
    Except CompileError (Arrangement m n) := do
  let start ← Nester.ofLayer k layer
  let (top, final) ← start.nest k layer order
  return ⟨order, start, top, final⟩

/-- Orders the items by the dependencies of a layer, and nests the loops. -/
def Kernel.arrange (k : Kernel m n) (layer : Layer m n) :
    Except CompileError (Arrangement m n) := do
  let graph ← Graph.build k layer
  k.nestOrder layer graph.drain.1

/-- The nests of some items, after their bodies were written into the kernel if this is done in
place. -/
def Nester.deliver (s : Nester m n) (items : List (Ref m n)) (inPlace : Bool) :
    KernelStep m n (List Nest) := do
  let (after, made) := s.materialize (← get) items inPlace
  set after
  return (← KernelStep.ofExcept made).map Prod.snd

/-- Compiles the kernel by a layer of dependencies. -/
def Kernel.compileBy (layer : Layer m n) (inPlace : Bool) : KernelStep m n Compilation := do
  let k ← get
  let arranged ← KernelStep.ofExcept (k.arrange layer)
  let nests ← arranged.final.deliver arranged.top inPlace
  return ⟨k.parameters, nests, Nest.lowerAll nests⟩

/-- Infers the dependencies, and writes them into the kernel if this is done in place. -/
def Kernel.infer (inPlace : Bool) : KernelStep m n (Layer m n) := do
  let layer ← KernelStep.ofExcept (Layer.analyze (← get))
  if inPlace then layer.commit
  return layer

/-- Compiles the kernel. -/
def Kernel.compile (inPlace : Bool) : KernelStep m n Compilation := do
  compileBy (← infer inPlace) inPlace

end LoopNest
