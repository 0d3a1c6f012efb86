import LoopNest.Compilation
import LoopNest.StagePlan

/-!
# The passes of a compilation

A compilation is a plan of six passes.  A pass reads the kernel and what the passes that it requires
have left, and leaves a result of its own; in place, the analysis of dependencies and the nesting
change the kernel as well.  The pass for the parameters requires nothing.  It was registered last,
and runs second.

* `Pass.plan`: the passes as they are registered, with what they require.
* `Pass.task`: what a pass does.
* `Kernel.compileByPlan`: the passes run in the order of their plan.
-/

namespace LoopNest

/-- A pass of a compilation. -/
inductive Pass where
  | dependencies
  | graph
  | order
  | nesting
  | lowering
  | symbols
  deriving DecidableEq

namespace Pass

variable {m n : Nat}

/-- The name of a pass in messages. -/
def name : Pass → String
  | .dependencies => "DependencyAnalysisPass"
  | .graph => "DAGConstructionPass"
  | .order => "TopologicalSchedulePass"
  | .nesting => "LoopNestingPass"
  | .lowering => "LoweringPass"
  | .symbols => "SymbolAnalysisPass"

/-- The passes whose results a pass reads. -/
def requires : Pass → List Pass
  | .dependencies | .symbols => []
  | .graph => [.dependencies]
  | .order => [.graph]
  | .nesting => [.dependencies, .order]
  | .lowering => [.nesting]

/-- The passes as they are registered. -/
def plan : List (Stage Pass) :=
  [.dependencies, .graph, .order, .nesting, .lowering, .symbols].map fun p => ⟨p, p.requires⟩

/-- What a pass leaves. -/
abbrev Result (m n : Nat) : Pass → Type
  | .dependencies => Layer m n
  | .graph => Graph (Ref m n)
  | .order => List (Ref m n)
  | .nesting => List Nest
  | .lowering => Expr
  | .symbols => List String

/-- What a pass does with the kernel, once it has read what other passes have left. -/
def task (inPlace : Bool) (found : Findings Pass (Result m n)) :
    (p : Pass) → Except PlanError (KernelStep m n (p.Result m n))
  | .dependencies => return Kernel.infer inPlace
  | .graph => do
      let layer ← found.get name .dependencies
      return do KernelStep.ofExcept (Graph.build (← get) layer)
  | .order => do
      let graph ← found.get name .graph
      return pure graph.drain.1
  | .nesting => do
      let layer ← found.get name .dependencies
      let order ← found.get name .order
      return do
        let arranged ← KernelStep.ofExcept ((← get).nestOrder layer order)
        arranged.final.deliver arranged.top inPlace
  | .lowering => do
      let nests ← found.get name .nesting
      return pure (Nest.lowerAll nests)
  | .symbols => return do return (← get).parameters

end Pass

/-- A kernel that is being compiled, and what was found on the way. -/
structure Workbench (m n : Nat) where
  kernel : Kernel m n
  found : Findings Pass (Pass.Result m n)

namespace Pass

variable {m n : Nat}

/-- Runs a pass and leaves its result. -/
def work (inPlace : Bool) (p : Pass) :
    EStateM (RunError CompileError) (Workbench m n) Unit := fun w =>
  match p.task inPlace w.found with
  | .error e => .error (.plan e) w
  | .ok step =>
      match step.run w.kernel with
      | .ok result k => .ok () ⟨k, w.found.put p result⟩
      | .error e k => .error (.stage e) ⟨k, w.found⟩

/-- The compilation that the results make up. -/
def gather (found : Findings Pass (Result m n)) : Except PlanError Compilation := do
  return ⟨← found.get name .symbols, ← found.get name .nesting, ← found.get name .lowering⟩

end Pass

/-- A failure of the plan inside a stage is a failure of the plan. -/
def RunError.flatten {ε : Type} : RunError (RunError ε) → RunError ε
  | .plan e | .stage (.plan e) => .plan e
  | .stage (.stage e) => .stage e

/-- Compiles the kernel by the plan of its passes. -/
def Kernel.compileByPlan {m n : Nat} (inPlace : Bool) :
    EStateM (RunError CompileError) (Kernel m n) Compilation := fun k =>
  match (StagePlan.run Pass.name Pass.plan (Pass.work inPlace)).run ⟨k, .none⟩ with
  | .error e w => .error e.flatten w.kernel
  | .ok _ w =>
      match Pass.gather w.found with
      | .ok compilation => .ok compilation w.kernel
      | .error e => .error (.plan e) w.kernel

end LoopNest
