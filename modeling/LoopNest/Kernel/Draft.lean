import LoopNest.Schedule.Nest

/-!
# Drafts

A draft is a kernel as a caller writes it down: loops list their members inline, or name an item of
the kernel.  Building a kernel gives every instruction and loop of the draft a row, refuses a name
that two of the kernel's own items share, and looks up the named members last.  An accepted kernel
carries the proof that the names of its items are different.

* `AnyKernel`: an accepted kernel.
* `AnyKernel.ofDrafts`: the kernel with the given instructions and loops of its own.
-/

namespace LoopNest

/-- A member of a loop, as a caller writes it. -/
inductive Draft where
  | instruction (i : Instruction)
  | loop (head : LoopHead) (members : List Draft)
  /-- The kernel's own item with this name. -/
  | named (x : String)

/-- Why a draft is not a kernel. -/
inductive DraftError where
  /-- Two items have one name. -/
  | duplicate (x : String)
  /-- A named member is no item of the kernel. -/
  | unknown (x : String)
  /-- A row that no table has. -/
  | dangling

namespace DraftError

/-- The report of an error, for those that have one. -/
def report? : DraftError → Option Report
  | .duplicate x => some ⟨.definition, "duplicate iname `" ++ x ++ "` in kernel", none⟩
  | .unknown _ | .dangling => none

end DraftError

/-- A member with a row but no table yet. -/
inductive DraftRef where
  | instruction (i : Nat)
  | loop (l : Nat)
  | named (x : String)

/-- The rows given so far. -/
structure DraftTables where
  instructions : List Instruction
  loops : List (LoopHead × List DraftRef)

namespace Draft

mutual

/-- The nest that a draft writes, if it names no item. -/
def toNest? : Draft → Option Nest
  | .instruction i => some (.instruction i)
  | .loop head members => (toNests? members).map (.loop head)
  | .named _ => none

/-- The nests that drafts write. -/
def toNests? : List Draft → Option (List Nest)
  | [] => some []
  | d :: ds => do
      let nest ← toNest? d
      let nests ← toNests? ds
      return nest :: nests

end

mutual

/-- Gives rows to a draft and everything inside it, members before their loop. -/
def place (t : DraftTables) : Draft → DraftRef × DraftTables
  | .instruction i =>
      (.instruction t.instructions.length, { t with instructions := t.instructions ++ [i] })
  | .loop head members =>
      let (refs, t) := placeAll t members
      (.loop t.loops.length, { t with loops := t.loops ++ [(head, refs)] })
  | .named x => (.named x, t)

/-- Gives rows to drafts in order. -/
def placeAll (t : DraftTables) : List Draft → List DraftRef × DraftTables
  | [] => ([], t)
  | d :: ds =>
      let (ref, t) := place t d
      let (refs, t) := placeAll t ds
      (ref :: refs, t)

end

/-- The name of a draft. -/
def name : Draft → String
  | .instruction i => i.name
  | .loop head _ => head.name
  | .named x => x

end Draft

/-- The first name that stands in a list for the second time. -/
def firstDuplicate? (seen : List String) : List String → Option String
  | [] => none
  | x :: xs => if seen.contains x then some x else firstDuplicate? (x :: seen) xs

/-- An accepted kernel, with tables of some size. -/
structure AnyKernel where
  {m : Nat}
  {n : Nat}
  kernel : Kernel m n
  distinct : kernel.Distinct

/-- The reference behind a row. -/
def DraftRef.resolve (m n : Nat) (own : List (String × DraftRef)) :
    DraftRef → Except DraftError (Ref m n)
  | .instruction i =>
      if h : i < m then .ok (.instruction ⟨i, h⟩) else .error .dangling
  | .loop l => if h : l < n then .ok (.loop ⟨l, h⟩) else .error .dangling
  | .named x =>
      match own.lookup x with
      | some (.instruction i) =>
          if h : i < m then .ok (.instruction ⟨i, h⟩) else .error .dangling
      | some (.loop l) => if h : l < n then .ok (.loop ⟨l, h⟩) else .error .dangling
      | _ => .error (.unknown x)

/-- The kernel over the tables whose own items have the given names and rows. -/
def DraftTables.assemble (t : DraftTables) (names : List String) (refs : List DraftRef) :
    Except DraftError (Kernel t.instructions.length t.loops.length) := do
  let resolve := DraftRef.resolve t.instructions.length t.loops.length (names.zip refs)
  let table ← t.loops.toArray.toVector.mapM fun (head, members) => do
    return ⟨head, ← members.mapM resolve⟩
  let items ← refs.mapM resolve
  return {
    instructionTable := t.instructions.toArray.toVector
    loopTable := table
    instructions := items.filterMap fun
      | .instruction i => some i
      | .loop _ => none
    loops := items.filterMap fun
      | .loop l => some l
      | .instruction _ => none }

/-- The kernel with the given instructions and loops of its own. -/
def AnyKernel.ofDrafts (instructions loops : List Draft) : Except DraftError AnyKernel := do
  let names := (instructions ++ loops).map Draft.name
  let (refs, t) := Draft.placeAll ⟨[], []⟩ (instructions ++ loops)
  if let some x := firstDuplicate? [] names then throw (.duplicate x)
  let kernel ← t.assemble names refs
  -- rows keep the names that were compared above, so this is always so
  if distinct : kernel.Distinct then return ⟨kernel, distinct⟩ else throw .dangling

end LoopNest
