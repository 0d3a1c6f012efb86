import LoopNest.Kernel.Basic

/-!
# Reachable items and free variables

What a kernel is made of is everything that can be reached from its own items through members.  The
walk goes depth first, in order, and visits no object twice; it ends because each visit leaves one
row less to visit.

* `Kernel.reachable`: the reachable items in the order of the walk.
* `Kernel.identifiers`, `Kernel.defined`: the variables that occur, and those that are written or
  looped over.
* `Kernel.parameters`: the variables that occur and are never defined.
-/

namespace LoopNest

/-- Where one condition implies another and fails for a member that meets the other, fewer members
meet it. -/
theorem countP_lt_countP {α : Type} {p q : α → Bool} (h : ∀ a, p a = true → q a = true) {a : α}
    (hq : q a = true) (hp : p a = false) : ∀ {l : List α}, a ∈ l → l.countP p < l.countP q
  | b :: l, hmem => by
    have hle : l.countP p ≤ l.countP q := List.countP_mono_left fun x _ => h x
    rcases List.mem_cons.mp hmem with rfl | hmem
    · simp only [List.countP_cons, hp, hq]
      simp
      omega
    · have := countP_lt_countP h hq hp hmem
      simp only [List.countP_cons]
      cases hb : p b with
      | false => simp; omega
      | true => simp [h b hb]; omega

namespace Ref

variable {m n : Nat}

/-- Every reference there is. -/
def all (m n : Nat) : List (Ref m n) :=
  (List.finRange m).map .instruction ++ (List.finRange n).map .loop

theorem mem_all (r : Ref m n) : r ∈ all m n := by
  cases r <;> simp [all]

/-- How many references are not in a list. -/
def unseen (seen : List (Ref m n)) : Nat :=
  (all m n).countP fun r => !seen.contains r

theorem unseen_cons_lt {seen : List (Ref m n)} {r : Ref m n} (h : seen.contains r = false) :
    unseen (r :: seen) < unseen seen := by
  refine countP_lt_countP ?_ (a := r) ?_ ?_ (mem_all r)
  · intro a
    simp only [List.contains_cons, Bool.not_or, Bool.and_eq_true]
    exact fun h => h.2
  · rw [h]; rfl
  · simp

end Ref

namespace Kernel

variable {m n : Nat} (k : Kernel m n)

/-- The items that a walk still has to visit, in order, when some are pending and some were seen. -/
def walk (pending seen : List (Ref m n)) : List (Ref m n) :=
  match pending with
  | [] => []
  | r :: pending =>
      if _fresh : seen.contains r then walk pending seen
      else r :: walk (k.members r ++ pending) (r :: seen)
termination_by (Ref.unseen seen, pending.length)
decreasing_by
  · exact Prod.Lex.right _ (by simp)
  · exact Prod.Lex.left _ _ (Ref.unseen_cons_lt (by simpa using _fresh))

/-- Everything the kernel is made of. -/
def reachable : List (Ref m n) := k.walk k.items []

/-- The reachable instructions. -/
def reachableInstructions : List Instruction :=
  k.reachable.filterMap fun
    | .instruction i => some (k.instruction i)
    | .loop _ => none

/-- The reachable loops. -/
def reachableLoops : List LoopHead :=
  k.reachable.filterMap fun
    | .loop l => some (k.loop l).head
    | .instruction _ => none

/-- The variables of all bodies, bounds and steps, and the loop variables. -/
def identifiers : List String :=
  k.reachableInstructions.flatMap (fun i => i.body.identifiers)
    ++ k.reachableLoops.flatMap fun h =>
      h.step.identifiers ++ h.lower.identifiers ++ h.upper.identifiers ++ [h.name]

/-- The variable that a statement defines: a bare name on the left of an assignment or first in a
form. -/
def definition? : Expr → Option String
  | .assign (.name x) _ => some x
  | .form _ (.name x :: _) => some x
  | _ => none

/-- The variables that are written as a whole, and the loop variables. -/
def defined : List String :=
  k.reachableInstructions.filterMap (fun i => definition? i.body)
    ++ k.reachableLoops.map LoopHead.name

/-- The free variables, in ascending order. -/
def parameters : List String :=
  Text.sortedNames (k.identifiers.filter fun x => !k.defined.contains x)

end Kernel
end LoopNest
