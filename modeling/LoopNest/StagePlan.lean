import LoopNest.Text.Order
import LoopNest.Text.Quoted

/-!
# Plans of stages

A compilation is a set of stages, each of which may require others.  Stages run in an order in which
every stage comes after those it requires; of several that could run, the one registered first does.
A plan with a requirement that is not registered, or with requirements that go round in a circle,
runs nothing.

A stage is known by a key.  Its name is only for messages, and two stages may have the same.

* `StagePlan.order`: the order in which the stages of a plan run.
* `StagePlan.run`: runs the stages of a plan on a common state.
* `Findings`: what stages leave behind for other stages and for their caller.
-/

namespace LoopNest

/-- A stage by its key, with the keys of the stages it requires. -/
structure Stage (κ : Type) where
  key : κ
  requires : List κ

/-- Why a plan cannot run. -/
inductive PlanError where
  /-- Stages that are required and not registered. -/
  | missing (names : List String)
  /-- Some stages wait for each other, or one was registered twice. -/
  | circular
  /-- A stage has left no result. -/
  | unavailable (name : String)

/-- The message of an error. -/
def PlanError.message : PlanError → String
  | .missing names => "Required passes not registered: " ++ Text.listing names
  | .circular => "Circular dependency detected in passes"
  | .unavailable name => "Analysis " ++ name ++ " not available"

/-- Why the run of a plan stops. -/
inductive RunError (ε : Type) where
  /-- The plan cannot run. -/
  | plan (e : PlanError)
  /-- A stage failed. -/
  | stage (e : ε)

namespace StagePlan

variable {κ : Type} [DecidableEq κ]

/-- The names of the required stages that are not registered, in ascending order. -/
def missing (shown : κ → String) (stages : List (Stage κ)) : List String :=
  Text.sortedNames
    (((stages.flatMap Stage.requires).filter fun x => !(stages.map Stage.key).contains x).map shown)

/-- How many requirements of each stage are still to run; each stage once. -/
abbrev Open (κ : Type) := List (κ × Nat)

/-- The open requirements at the start. -/
def openAtStart : List (Stage κ) → Open κ
  | [] => []
  | s :: stages =>
      (s.key, s.requires.eraseDups.length)
        :: (openAtStart stages).filter fun entry => entry.1 ≠ s.key

/-- One requirement less for a stage, and whether it was the last. -/
def lower (x : κ) : Open κ → Bool × Open κ
  | [] => (false, [])
  | (y, count) :: rest =>
      if y = x then
        match count with
        | 0 => (false, (y, 0) :: rest)
        | 1 => (true, (y, 0) :: rest)
        | count + 2 => (false, (y, count + 1) :: rest)
      else
        let (last, rest) := lower x rest
        (last, (y, count) :: rest)

/-- One requirement less for every registered stage that requires the given one; the stages that
have none left, in order. -/
def settle (done : κ) : List (Stage κ) → Open κ → List κ × Open κ
  | [], waiting => ([], waiting)
  | s :: stages, waiting =>
      if s.requires.contains done then
        let (last, waiting) := lower s.key waiting
        let (freed, waiting) := settle done stages waiting
        (if last then s.key :: freed else freed, waiting)
      else settle done stages waiting

/-- How many stages have open requirements. -/
def blocked (waiting : Open κ) : Nat := waiting.countP fun entry => 0 < entry.2

theorem blocked_lower (x : κ) (waiting : Open κ) :
    blocked (lower x waiting).2 + (lower x waiting).1.toNat = blocked waiting := by
  induction waiting with
  | nil => rfl
  | cons entry rest ih =>
    obtain ⟨y, count⟩ := entry
    unfold lower
    split
    · split <;> simp [blocked]
    · simp only [blocked, List.countP_cons] at *
      omega

theorem blocked_settle (done : κ) (stages : List (Stage κ)) (waiting : Open κ) :
    blocked (settle done stages waiting).2 + (settle done stages waiting).1.length
      = blocked waiting := by
  induction stages generalizing waiting with
  | nil => rfl
  | cons s stages ih =>
    unfold settle
    split
    · have h₁ := blocked_lower s.key waiting
      have h₂ := ih (lower s.key waiting).2
      dsimp only
      cases h : (lower s.key waiting).1 <;> simp [h] at * <;> omega
    · exact ih waiting

/-- The stages from a queue on. -/
def sortFrom (stages : List (Stage κ)) (queue : List κ) (waiting : Open κ) : List κ :=
  match queue with
  | [] => []
  | x :: queue =>
      let settled := settle x stages waiting
      x :: sortFrom stages (queue ++ settled.1) settled.2
termination_by blocked waiting + queue.length
decreasing_by
  have := blocked_settle x stages waiting
  simp only [List.length_append, List.length_cons]
  omega

/-- The order in which registered stages run. -/
def order (shown : κ → String) (stages : List (Stage κ)) : Except PlanError (List κ) :=
  match missing shown stages with
  | [] =>
      let waiting := openAtStart stages
      let free := (waiting.filter fun entry => entry.2 = 0).map Prod.fst
      let sorted := sortFrom stages free waiting
      if sorted.length = stages.length then .ok sorted else .error .circular
  | names => .error (.missing names)

variable {ε σ : Type}

/-- Runs stages one after the other. -/
def runEach (work : κ → EStateM ε σ Unit) : List κ → EStateM (RunError ε) σ Unit
  | [] => pure ()
  | x :: xs => do
      (work x).adaptExcept .stage
      runEach work xs

/-- Runs all stages of a plan, if it can run. -/
def run (shown : κ → String) (stages : List (Stage κ)) (work : κ → EStateM ε σ Unit) :
    EStateM (RunError ε) σ Unit :=
  match order shown stages with
  | .ok xs => runEach work xs
  | .error e => throw (.plan e)

end StagePlan

/-- What stages have left behind, each under its key. -/
structure Findings (κ : Type) (ρ : κ → Type) where
  find? : (x : κ) → Option (ρ x)

namespace Findings

variable {κ : Type} [DecidableEq κ] {ρ : κ → Type}

/-- Nothing was found yet. -/
def none : Findings κ ρ := ⟨fun _ => .none⟩

/-- The stage has left something. -/
def has (found : Findings κ ρ) (x : κ) : Bool := (found.find? x).isSome

/-- What a stage has left. -/
def get (shown : κ → String) (found : Findings κ ρ) (x : κ) : Except PlanError (ρ x) :=
  (found.find? x).elim (.error (.unavailable (shown x))) .ok

/-- Leaves a result, in place of one that was left before. -/
def put (found : Findings κ ρ) (x : κ) (result : ρ x) : Findings κ ρ :=
  ⟨fun y => if h : x = y then some (h ▸ result) else found.find? y⟩

end Findings
end LoopNest
