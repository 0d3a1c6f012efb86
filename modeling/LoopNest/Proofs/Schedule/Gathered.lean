import LoopNest.Proofs.Schedule.Turns

/-!
# The bodies at the start

Before nesting, a loop of the kernel has the members it declares, the instructions that mention it,
and the later loops that its head mentions; a loop declared inline has what it declares.  So the
bodies hold only what the kernel is made of, and all turns of a kernel with different names all over
are known.

* `Kernel.gathered`, `Nester.gathering`: the members of a loop and all bodies before nesting.
* `Kernel.Flat`: loops that gather nothing but the instructions that mention them.
* `Nester.ready_gathering`: the nester is ready for all turns.
-/

namespace LoopNest

variable {m n : Nat} {k : Kernel m n}

namespace Kernel

/-- The members of a loop before nesting: those it declares, the instructions that mention it, and
the later loops that its head mentions. -/
def gathered (k : Kernel m n) (l : Fin n) : List (Ref m n) :=
  (k.loop l).members ++ (k.mentioners l ++ ((k.behind l).filter (Layer.headMentions k l)).map .loop)

theorem mem_reachable_of_mem_gathered {l : Fin n} (hl : l ∈ k.loops) :
    ∀ r ∈ k.gathered l, r ∈ k.reachable := by
  intro r hr
  rcases List.mem_append.mp hr with hr | hr
  · exact mem_reachable_of_mem_members (mem_reachable_of_mem_items (loop_mem_items.mpr hl)) hr
  · refine mem_reachable_of_mem_items ?_
    rcases List.mem_append.mp hr with hr | hr
    · exact mem_items_of_mem_mentioners hr
    · obtain ⟨e, he, rfl⟩ := List.mem_map.mp hr
      exact loop_mem_items.mpr (mem_behind_iff.mp (List.mem_of_mem_filter he)).1

/-- What is in a body before nesting as an instruction was declared there, or mentions the loop. -/
theorem instruction_mem_gathered_iff {i : Fin m} {l : Fin n} :
    .instruction i ∈ k.gathered l ↔
      .instruction i ∈ (k.loop l).members ∨ i ∈ k.instructions ∧ k.mentions i l = true := by
  rw [gathered, List.mem_append, List.mem_append, mem_mentioners_iff]
  simp only [Ref.instruction.injEq, List.mem_map, reduceCtorEq, and_false, exists_false, or_false]
  refine or_congr_right ⟨?_, fun h => ⟨i, h.1, rfl, h.2⟩⟩
  rintro ⟨j, hj, rfl, hmentions⟩
  exact ⟨hj, hmentions⟩

/-- No loop gathers a loop that was declared after it. -/
def InnerFirst (k : Kernel m n) : Prop := k.loops.Pairwise fun l e => .loop e ∉ k.gathered l

/-- Loops that declare no members, and whose heads mention no later loop. -/
structure Flat (k : Kernel m n) : Prop where
  distinct : k.Distinct
  bare : ∀ l ∈ k.loops, (k.loop l).members = []
  heads : k.loops.Pairwise fun d e => (k.loop d).head.mentions (k.loop e).head.name = false

namespace Flat

theorem separate (hk : k.Flat) : k.Separate := separate_of_bare hk.distinct hk.bare

/-- The loops of a flat kernel gather the instructions that mention them. -/
theorem gathered_eq (hk : k.Flat) {l : Fin n} (hl : l ∈ k.loops) :
    k.gathered l = k.mentioners l := by
  have hnone : (k.behind l).filter (Layer.headMentions k l) = [] := by
    rw [List.filter_eq_nil_iff]
    intro e he
    obtain ⟨he, hlt⟩ := mem_behind_iff.mp he
    rw [Layer.headMentions, of_rank_lt hk.heads he hlt]
    exact Bool.false_ne_true
  rw [gathered, hk.bare l hl, hnone, List.map_nil, List.append_nil, List.nil_append]

theorem loop_notMem_gathered (hk : k.Flat) {l : Fin n} (hl : l ∈ k.loops) (e : Fin n) :
    .loop e ∉ k.gathered l := by
  intro hmem
  rw [hk.gathered_eq hl] at hmem
  obtain ⟨i, -, hi, -⟩ := mem_mentioners_iff.mp hmem
  cases hi

theorem innerFirst (hk : k.Flat) : k.InnerFirst :=
  List.pairwise_of_forall_mem_list fun _ hl e _ => hk.loop_notMem_gathered hl e

end Flat
end Kernel

namespace Nester

open Kernel

/-- The nester with the bodies that were gathered. -/
def gathering (k : Kernel m n) : Nester m n :=
  ⟨.ofList (k.loops.map fun l => ((k.loop l).head.name, k.gathered l)), 0⟩

theorem ofLayer_eq_gathering (hk : k.Distinct) {layer : Layer m n}
    (hlayer : Layer.analyze k = .ok layer) :
    ofLayer k layer = .ok (gathering k) := by
  refine ofLayer_eq_ok fun e he => ?_
  obtain ⟨before, after, hsplit⟩ := List.append_of_mem he
  rw [Layer.members_infer hk hlayer hsplit, gathered, behind_eq_of_split hk.nodup_loops hsplit]
  rfl

/-- The kernel's own loops have what was gathered for them. -/
theorem body_gathering (hk : k.Distinct) {l : Fin n} (hl : l ∈ k.loops) :
    (gathering k).body k l = k.gathered l :=
  body_ofList hk hl

/-- A loop whose name no loop of the kernel has keeps its members. -/
theorem body_gathering_inline {l : Fin n}
    (hname : ∀ e ∈ k.loops, (k.loop e).head.name ≠ (k.loop l).head.name) :
    (gathering k).body k l = (k.loop l).members :=
  body_ofList_of_ne hname

/-- Nesting starts with bodies that hold what the kernel is made of, and an order of the items. -/
theorem ready_gathering (hk : k.Distinct) (hseparate : k.Separate) {order : List (Ref m n)}
    (hperm : order.Perm k.items) : Ready k (gathering k) order where
  distinct := hk
  apart := by
    refine ⟨hseparate, fun l hl => ?_⟩
    by_cases hmem : l ∈ k.loops
    · rw [body_gathering hk hmem]
      exact mem_reachable_of_mem_gathered hmem
    · rw [body_gathering_inline fun e he heq => hmem ?_]
      · exact fun r hr => mem_reachable_of_mem_members hl hr
      · have hsame : Ref.loop e = Ref.loop l :=
          hseparate _ (mem_reachable_of_mem_items (loop_mem_items.mpr he)) _ hl heq
        cases hsame
        exact he
  perm := hperm

end Nester
end LoopNest
