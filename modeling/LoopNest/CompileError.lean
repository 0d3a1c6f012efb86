import LoopNest.Expr.Basic
import LoopNest.Report

/-!
# Errors of compilation

What can stop the way from a kernel to its lowered program.
-/

namespace LoopNest

/-- Why a kernel does not compile. -/
inductive CompileError where
  /-- Nothing is known under a name. -/
  | unknown (x : String)
  /-- The part of a statement that was to be a written location and is none, and the instruction it
  belongs to. -/
  | unwritten (part : Expr) (instruction : Option String)
  /-- Items whose dependencies are never all placed. -/
  | unsatisfied (remaining : List String)
  /-- Loops that nest inside each other, from a loop back to itself. -/
  | cyclic (cycle : List String)

namespace CompileError

/-- The report of an error.  A name under which nothing is known has none. -/
def report? : CompileError → Option Report
  | .unknown _ => none
  | .unwritten part _ =>
      some ⟨.malformed, "cannot reduce left-hand side `" ++ part.text ++ "` to a plain identifier",
        none⟩
  | .unsatisfied remaining =>
      some ⟨.scheduling, "items left but dependencies not satisfied: " ++ Text.listing remaining,
        none⟩
  | .cyclic cycle =>
      some ⟨.scheduling, "domains nest inside each other: " ++ " -> ".intercalate cycle, none⟩

end CompileError
end LoopNest
