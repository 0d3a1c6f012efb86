import LoopNest.Program.Run
import LoopNest.Source

/-!
# The registry of programs

A registry keeps programs under names: a handle with the parameters and the source text, and the
program that was read back from the text.  A name is taken once and for all.  A registration that
fails leaves the registry as it was.

* `Registry.register`: makes source text from a tree and keeps its program.
* `Registry.invoke`: runs a program on named values, after a check of the names.
* `Handle.call`: runs the program of a handle.
-/

namespace LoopNest

/-- What is known of a registered program. -/
structure Handle where
  name : String
  parameters : List String
  source : String

namespace Handle

/-- The handle as it is shown. -/
def shown (h : Handle) : String :=
  "KernelHandle(" ++ Text.quote h.name ++ ", parameters=" ++ Text.listing h.parameters ++ ")"

end Handle

/-- Programs by name, with the functions that they can call. -/
structure Registry where
  functions : Functions
  handles : NameMap Handle
  programs : NameMap Program

/-- Why a tree is not registered. -/
inductive RegisterError where
  /-- The name is taken. -/
  | taken (name : String)
  /-- The tree has no source text. -/
  | source (e : SourceError)
  /-- The source text is refused when it is read back. -/
  | refused
  /-- The text is read back as a program of another name. -/
  | renamed (name : String)

namespace RegisterError

/-- The report of an error.  An integer that is too long, and a text that is not read back as it
should be, have none. -/
def report? : RegisterError → Option Report
  | .taken name => some ⟨.codegen, "a kernel named `" ++ name ++ "` is already registered", none⟩
  | .source e => e.report?
  | .refused | .renamed _ => none

end RegisterError

/-- Why an invocation has no result. -/
inductive InvokeError where
  | unregistered (name : String)
  | wrongInputs (name : String) (missing unexpected : List String)
  /-- The run stopped at a fault. -/
  | fault (f : Fault)

namespace InvokeError

/-- What is wrong with the names of the inputs. -/
def details (missing unexpected : List String) : String :=
  let part (word : String) (names : List String) : List String :=
    if names.isEmpty then [] else [word ++ " " ++ Text.listing names]
  ", ".intercalate (part "missing" missing ++ part "unexpected" unexpected)

/-- The report of an error.  A fault in a run has none. -/
def report? : InvokeError → Option Report
  | .unregistered name => some ⟨.invocation, "no kernel registered as `" ++ name ++ "`", none⟩
  | .wrongInputs name missing unexpected =>
      some ⟨.invocation, "kernel `" ++ name ++ "` called with wrong inputs: "
        ++ details missing unexpected, none⟩
  | .fault _ => none

end InvokeError

/-- An invocation, which keeps its changes to the world when it has no result. -/
abbrev Invocation := EStateM InvokeError World

namespace Registry

/-- The registry without programs. -/
def empty (functions : Functions) : Registry := ⟨functions, .empty, .empty⟩

/-- The name is taken. -/
def contains (r : Registry) (name : String) : Bool := r.handles.contains name

/-- The handle under a name. -/
def get (r : Registry) (name : String) : Except InvokeError Handle :=
  match r.handles.find? name with
  | some handle => .ok handle
  | none => .error (.unregistered name)

/-- Makes source text from a tree and keeps the program that it reads back as. -/
def register (r : Registry) (name : String) (parameters : List String) (body : Expr) :
    Except RegisterError (Registry × Handle) := do
  if r.contains name then throw (.taken name)
  let source ← (Source.function name parameters body).mapError .source
  match Program.read? source with
  | none => throw .refused
  | some program =>
      if program.name ≠ name then throw (.renamed name)
      let handle : Handle := ⟨name, parameters, source⟩
      return ({ r with handles := r.handles.insert name handle,
                       programs := r.programs.insert name program }, handle)

/-- The inputs for a program are given for just the parameters of its handle. -/
def checkInputs (name : String) (handle : Handle) (inputs : List String) :
    Except InvokeError Unit :=
  let missing := handle.parameters.filter fun x => !inputs.contains x
  let unexpected := inputs.filter fun x => !handle.parameters.contains x
  if missing.isEmpty && unexpected.isEmpty then .ok ()
  else .error (.wrongInputs name missing (Text.sortedNames unexpected))

/-- The program under a name, if the inputs are given for just its parameters. -/
def select (r : Registry) (name : String) (inputs : List String) : Except InvokeError Program := do
  let handle ← r.get name
  checkInputs name handle inputs
  match r.programs.find? name with
  | some program => return program
  | none => throw (.unregistered name)

/-- Runs the program under a name on named values. -/
def invoke (r : Registry) (name : String) (inputs : NameMap Value) : Invocation Value :=
  match r.select name inputs.names with
  | .ok program => (program.run r.functions inputs).adaptExcept .fault
  | .error e => throw e

end Registry

/-- The name of the handle among the arguments of its own call, which no input can have. -/
def Handle.ownName : String := "self"

/-- Runs the program of a handle.  An input with the name that the call itself uses is a fault. -/
def Handle.call (h : Handle) (r : Registry) (inputs : NameMap Value) : Invocation Value :=
  if inputs.contains Handle.ownName then throw (.fault .kind) else r.invoke h.name inputs

end LoopNest
