import LoopNest.Proofs.Kernel.Unwritten

/-!
# The order of the walk

The walk through the members of a kernel is a loop over a stack.  Each round takes the last entry
off the stack; if it was not seen before, it goes to the instructions or to the loops that were
found, and its members go onto the stack, the first one last.  The stack may grow, and it may hold
one item many times.

## What a stack stands for

Read from its end, a stack is a list of items that are still to be visited with everything inside
them.  Such a list can be cut anywhere: the walk through its first part is over before the second
part is touched, and what the first part found is seen by then (`Kernel.walk_append`).  With the
members of an item as the first part, this is the recursive traversal, which has no stack at all
(`Kernel.preorder`).

The loop ends because every entry of the stack is taken off once, and the members of an item are put
there once.  So the number of rounds is known: one for each of the kernel's own items, and one for
each member of each item that is reached.

* `Kernel.preorder`: the recursive traversal.
* `Kernel.Worklist`: the loop, round by round.
* `Kernel.preorder_eq`: the recursive traversal is the walk.
* `Kernel.rounds_walk`: the loop does what the walk does, in so many rounds.
* `Kernel.worklist_preorder`: the loop ends with what can be reached, each item once, in the order
  of the traversal.
-/

namespace LoopNest

variable {m n : Nat}

namespace Ref

/-- The row of an instruction. -/
def instruction? : Ref m n → Option (Fin m)
  | .instruction i => some i
  | .loop _ => none

/-- The row of a loop. -/
def loop? : Ref m n → Option (Fin n)
  | .loop l => some l
  | .instruction _ => none

theorem instruction?_eq_some {r : Ref m n} {i : Fin m} :
    r.instruction? = some i ↔ r = .instruction i := by
  cases r <;> simp [instruction?]

theorem loop?_eq_some {r : Ref m n} {l : Fin n} : r.loop? = some l ↔ r = .loop l := by
  cases r <;> simp [loop?]

theorem unseen_mono {seen more : List (Ref m n)} (h : seen ⊆ more) : unseen more ≤ unseen seen := by
  refine List.countP_mono_left fun r _ hr => ?_
  simp only [Bool.not_eq_true', List.contains_eq_mem, decide_eq_false_iff_not] at hr ⊢
  exact fun hseen => hr (h hseen)

end Ref

namespace Kernel

variable (k : Kernel m n)

/-! ## The recursive traversal -/

/-- What is visited after a recursive traversal of some items, depth first: an item that was not
visited, then its members, then the other items. -/
def preorder (visited : List (Ref m n)) : List (Ref m n) →
    { after : List (Ref m n) // visited ⊆ after }
  | [] => ⟨visited, fun _ h => h⟩
  | r :: rest =>
      if _fresh : visited.contains r then preorder visited rest
      else
        let inside := preorder (visited ++ [r]) (k.members r)
        let after := preorder inside.1 rest
        ⟨after.1, fun _ h => after.2 (inside.2 (List.mem_append_left _ h))⟩
termination_by items => (Ref.unseen visited, items.length)
decreasing_by
  · exact Prod.Lex.right _ (by simp)
  · refine Prod.Lex.left _ _ (lt_of_le_of_lt (Ref.unseen_mono ?_)
      (Ref.unseen_cons_lt (r := r) (by simpa using _fresh)))
    simp
  · refine Prod.Lex.left _ _ (lt_of_le_of_lt (Ref.unseen_mono ?_)
      (Ref.unseen_cons_lt (r := r) (by simpa using _fresh)))
    exact fun t ht => inside.2 (by simpa [or_comm] using ht)

/-! ## The loop -/

/-- The loop between two rounds: the stack, of which the last entry is next, and what was seen and
found. -/
structure Worklist (m n : Nat) where
  stack : List (Ref m n)
  seen : List (Ref m n)
  instructions : List (Fin m)
  loops : List (Fin n)

namespace Worklist

/-- The loop before its first round. -/
def start : Worklist m n where
  stack := (k.loops.map .loop).reverse ++ (k.instructions.map .instruction).reverse
  seen := []
  instructions := []
  loops := []

/-- One round, unless the stack is empty. -/
def round? (w : Worklist m n) : Option (Worklist m n) :=
  w.stack.getLast?.map fun r =>
    if w.seen.contains r then { w with stack := w.stack.dropLast }
    else
      { stack := w.stack.dropLast ++ (k.members r).reverse
        seen := r :: w.seen
        instructions := w.instructions ++ r.instruction?.toList
        loops := w.loops ++ r.loop?.toList }

/-- So many rounds. -/
def rounds : Nat → Worklist m n → Option (Worklist m n)
  | 0, w => some w
  | count + 1, w => (round? k w).bind (rounds count)

end Worklist

variable {k}

/-! ## The walk cut in two -/

/-- Of what was seen, the walk asks only whether an item is among it. -/
theorem walk_congr {pending seen seen' : List (Ref m n)} (h : ∀ r, r ∈ seen ↔ r ∈ seen') :
    k.walk pending seen = k.walk pending seen' := by
  fun_induction walk k pending seen generalizing seen' with
  | case1 seen => rw [walk]
  | case2 seen r pending hseen ih =>
    have hseen' : seen'.contains r = true := by simpa [← h r] using hseen
    rw [walk, dif_pos hseen', ih h]
  | case3 seen r pending hfresh ih =>
    have hfresh' : ¬ seen'.contains r = true := by simpa [← h r] using hfresh
    have hmore : ∀ t, t ∈ r :: seen ↔ t ∈ r :: seen' :=
      fun t => by rw [List.mem_cons, List.mem_cons, h t]
    rw [walk, dif_neg hfresh', ih hmore]

theorem walk_of_mem {pending seen : List (Ref m n)} {r : Ref m n} (h : r ∈ seen) :
    k.walk (r :: pending) seen = k.walk pending seen := by
  rw [walk, dif_pos (List.contains_iff_mem.mpr h)]

theorem walk_of_notMem {pending seen : List (Ref m n)} {r : Ref m n} (h : r ∉ seen) :
    k.walk (r :: pending) seen = r :: k.walk (k.members r ++ pending) (r :: seen) := by
  rw [walk, dif_neg (by simpa using h)]

/-- **A walk can be cut**: the items of the first part are visited, with everything inside them,
before the second part is touched. -/
theorem walk_append (first second seen : List (Ref m n)) :
    k.walk (first ++ second) seen = k.walk first seen ++ k.walk second
    (k.walk first seen ++ seen) := by
  fun_induction walk k first seen with
  | case1 seen => rfl
  | case2 seen r pending hseen ih =>
    rw [List.cons_append, walk_of_mem (List.contains_iff_mem.mp hseen), ih]
  | case3 seen r pending hfresh ih =>
    rw [List.cons_append, walk_of_notMem (by simpa using hfresh), ← List.append_assoc, ih,
      List.cons_append, List.cons_append]
    refine congrArg (fun rest => r :: (k.walk (k.members r ++ pending) (r :: seen) ++ rest))
      (walk_congr fun t => ?_)
    simp only [List.mem_append, List.mem_cons]
    tauto

/-- A walk finds nothing twice, and nothing that was seen before. -/
theorem nodup_walk (pending seen : List (Ref m n)) :
    (k.walk pending seen).Nodup ∧ ∀ r ∈ k.walk pending seen, r ∉ seen := by
  fun_induction walk k pending seen with
  | case1 seen => simp
  | case2 seen r pending hseen ih => exact ih
  | case3 seen r pending hfresh ih =>
    refine ⟨List.nodup_cons.mpr ⟨fun hr => ih.2 r hr List.mem_cons_self, ih.1⟩, ?_⟩
    intro t ht hseen
    rcases List.mem_cons.mp ht with rfl | ht
    · exact hfresh (List.contains_iff_mem.mpr hseen)
    · exact ih.2 t ht (List.mem_cons_of_mem _ hseen)

/-- **The recursive traversal is the walk**, behind what was visited before. -/
theorem preorder_eq (visited items : List (Ref m n)) :
    (k.preorder visited items).1 = visited ++ k.walk items visited := by
  fun_induction preorder k visited items with
  | case1 visited => rw [walk, List.append_nil]
  | case2 visited r rest hseen ih => rw [ih, walk_of_mem (List.contains_iff_mem.mp hseen)]
  | case3 visited r rest hfresh inside after ihInside ihAfter =>
    have hinside : k.walk (k.members r) (visited ++ [r]) = k.walk (k.members r) (r :: visited) :=
      walk_congr fun t => by simp [or_comm]
    have hafter : k.walk rest inside.1
        = k.walk rest (k.walk (k.members r) (r :: visited) ++ r :: visited) := by
      refine walk_congr fun t => ?_
      rw [ihInside, hinside]
      simp only [List.mem_append, List.mem_cons, List.not_mem_nil, or_false]
      tauto
    rw [ihAfter, hafter, ihInside, hinside, walk_of_notMem (by simpa using hfresh), walk_append]
    simp

/-! ## The loop as a walk -/

open Worklist

theorem round?_of_mem (r : Ref m n) (pending : List (Ref m n)) {w : Worklist m n}
    (hstack : w.stack = (r :: pending).reverse) (h : r ∈ w.seen) :
    round? k w = some { w with stack := pending.reverse } := by
  simp [round?, hstack, h]

theorem round?_of_notMem (r : Ref m n) (pending : List (Ref m n)) {w : Worklist m n}
    (hstack : w.stack = (r :: pending).reverse) (h : r ∉ w.seen) :
    round? k w = some
      { stack := (k.members r ++ pending).reverse
        seen := r :: w.seen
        instructions := w.instructions ++ r.instruction?.toList
        loops := w.loops ++ r.loop?.toList } := by
  simp [round?, hstack, h]

/-- **The loop does what the walk does.**  Each entry takes one round: those that are pending, and
the members of every item that is found. -/
theorem rounds_walk (pending : List (Ref m n)) (w : Worklist m n)
    (hstack : w.stack = pending.reverse) :
    rounds k (pending.length + ((k.walk pending w.seen).map fun r => (k.members r).length).sum) w
      = some
      { stack := []
        seen := (k.walk pending w.seen).reverse ++ w.seen
        instructions := w.instructions ++ (k.walk pending w.seen).filterMap Ref.instruction?
        loops := w.loops ++ (k.walk pending w.seen).filterMap Ref.loop? } := by
  obtain ⟨stack, seen, is, ls⟩ := w
  dsimp only at hstack ⊢
  subst hstack
  fun_induction walk k pending seen generalizing is ls with
  | case1 seen => simp [rounds]
  | case2 seen r pending hseen ih =>
    rw [List.length_cons, Nat.add_right_comm, rounds,
      round?_of_mem r pending rfl (List.contains_iff_mem.mp hseen)]
    exact ih is ls
  | case3 seen r pending hfresh ih =>
    have hcount : (r :: pending).length
          + ((r :: k.walk (k.members r ++ pending) (r :: seen)).map fun r =>
            (k.members r).length).sum
        = (k.members r ++ pending).length
          + ((k.walk (k.members r ++ pending) (r :: seen)).map fun r => (k.members r).length).sum
          + 1 := by
      simp only [List.length_cons, List.map_cons, List.sum_cons, List.length_append]
      omega
    rw [hcount, rounds, round?_of_notMem r pending rfl (by simpa using hfresh), Option.bind_some,
      ih (is ++ r.instruction?.toList) (ls ++ r.loop?.toList)]
    cases r <;> simp [List.filterMap_cons, Ref.instruction?, Ref.loop?]

/-! ## Everything that can be reached -/

theorem reachableInstructions_eq :
    k.reachableInstructions = (k.reachable.filterMap Ref.instruction?).map k.instruction := by
  rw [reachableInstructions, List.map_filterMap]
  refine List.filterMap_congr fun r _ => ?_
  cases r <;> rfl

theorem reachableLoops_eq :
    k.reachableLoops = (k.reachable.filterMap Ref.loop?).map fun l => (k.loop l).head := by
  rw [reachableLoops, List.map_filterMap]
  refine List.filterMap_congr fun r _ => ?_
  cases r <;> rfl

/-- **The loop over the stack is a depth-first traversal in preorder.**  It ends after one round for
each of the kernel's own items and each member of an item that is reached.  The instructions and
loops that it has found by then are those that can be reached, each of them once, in the order of
the recursive traversal; and the kernel is made of them. -/
theorem worklist_preorder (k : Kernel m n) :
    ∃ w, rounds k (k.items.length + (k.reachable.map fun r => (k.members r).length).sum) (start k)
      = some w ∧ w.stack = [] ∧ w.instructions.Nodup ∧ w.loops.Nodup ∧
      (∀ i, i ∈ w.instructions ↔ k.Reaches (.instruction i)) ∧
        (∀ l, l ∈ w.loops ↔ k.Reaches (.loop l)) ∧
      w.instructions = (k.preorder [] k.items).1.filterMap Ref.instruction? ∧
      w.loops = (k.preorder [] k.items).1.filterMap Ref.loop? ∧
      k.reachableInstructions = w.instructions.map k.instruction ∧
      k.reachableLoops = w.loops.map fun l => (k.loop l).head := by
  have hstart : (start k).stack = k.items.reverse := by
    rw [items, List.reverse_append]
    rfl
  have hpreorder : (k.preorder [] k.items).1 = k.reachable := preorder_eq [] k.items
  have hnodup : k.reachable.Nodup := (nodup_walk k.items []).1
  rw [hpreorder]
  refine ⟨_, rounds_walk k.items (start k) hstart, rfl, ?_, ?_, fun i => ?_, fun l => ?_, rfl, rfl,
    reachableInstructions_eq, reachableLoops_eq⟩
  · exact hnodup.filterMap fun r t i hr ht =>
      (Ref.instruction?_eq_some.mp hr).trans (Ref.instruction?_eq_some.mp ht).symm
  · exact hnodup.filterMap fun r t l hr ht =>
      (Ref.loop?_eq_some.mp hr).trans (Ref.loop?_eq_some.mp ht).symm
  · show i ∈ k.reachable.filterMap Ref.instruction? ↔ _
    simp [← mem_reachable_iff, Ref.instruction?_eq_some]
  · show l ∈ k.reachable.filterMap Ref.loop? ↔ _
    simp [← mem_reachable_iff, Ref.loop?_eq_some]

end Kernel
end LoopNest
