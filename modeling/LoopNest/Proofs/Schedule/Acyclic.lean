import LoopNest.Proofs.Kernel.Analysis
import LoopNest.Proofs.Schedule.Drain

/-!
# Inferred dependencies close no cycle

Three rules infer dependencies: of an instruction on the instructions before it, of an instruction
on the loops that it mentions, and of a loop on earlier loops whose heads mention it.  What an
instruction or a head mentions is not restricted in any way, but all three rules lead back in one
and the same list: the loops as they were declared, and behind them the instructions as they were
declared (`Kernel.loopsFirst`).

So if the declared dependencies lead back in this list, everything does.  Then the list has each
item behind all its dependencies, and the items can be placed.

* `Kernel.LeadsBack`: the declared dependencies of loops are earlier loops, those of instructions
  are loops and earlier instructions.
* `Layer.inOrder_loopsFirst`: declared and inferred dependencies lead back.
* `Graph.build_analyzed`: the graph of the analyzed kernel is built, and its order lists every item.
-/

namespace LoopNest

variable {m n : Nat} {k : Kernel m n} {layer : Layer m n}

/-- A list in order can be continued by entries whose dependencies are named in it or before
them. -/
theorem InOrder.append {β : Type} {name : β → String} {deps : β → List String} {l₁ l₂ : List β}
    (h₁ : InOrder name deps l₁)
    (h₂ : ∀ pre b post, l₂ = pre ++ b :: post → ∀ d ∈ deps b, d ∈ (l₁ ++ pre).map name) :
    InOrder name deps (l₁ ++ l₂) := by
  induction l₂ using List.reverseRecOn with
  | nil => rwa [List.append_nil]
  | append_singleton l₂ b ih =>
    rw [← List.append_assoc]
    refine (ih fun pre c post h => h₂ pre c (post ++ [b]) ?_).snoc (h₂ l₂ b [] rfl)
    rw [h, List.append_assoc, List.cons_append]

/-- What has a smaller index than an entry stands before it. -/
theorem mem_of_idxOf_lt {α : Type} [DecidableEq α] {l before after : List α} {a b : α}
    (hsplit : l = before ++ a :: after) (hlt : l.idxOf b < l.idxOf a) : b ∈ before := by
  by_contra hb
  have ha : l.idxOf a ≤ before.length := by
    rw [hsplit, List.idxOf_append]
    split
    · exact List.idxOf_le_length
    · simp
  rw [hsplit, List.idxOf_append_of_notMem hb, ← hsplit] at hlt
  omega

namespace Kernel

/-- The loops as they were declared, then the instructions as they were declared. -/
def loopsFirst (k : Kernel m n) : List (Ref m n) :=
  k.loops.map .loop ++ k.instructions.map .instruction

theorem loopsFirst_perm (k : Kernel m n) : k.loopsFirst.Perm k.items := List.perm_append_comm

/-- The declared dependencies of a loop are earlier loops, and those of an instruction are loops and
earlier instructions. -/
structure LeadsBack (k : Kernel m n) : Prop where
  loops : ∀ l ∈ k.loops, ∀ d ∈ (k.loop l).head.deps,
    ∃ e ∈ k.loops, k.loops.idxOf e < k.loops.idxOf l ∧ (k.loop e).head.name = d
  instructions : ∀ i ∈ k.instructions, ∀ d ∈ (k.instruction i).deps,
    (∃ l ∈ k.loops, (k.loop l).head.name = d) ∨
      ∃ j ∈ k.instructions, k.instructions.idxOf j < k.instructions.idxOf i ∧
        (k.instruction j).name = d

end Kernel

namespace Layer

open Kernel

/-- A loop needs earlier loops only. -/
theorem needs_loop (hk : k.Distinct) (hback : k.LeadsBack) (h : analyze k = .ok layer)
    {before after : List (Fin n)} {l : Fin n} (hsplit : k.loops = before ++ l :: after) {d : String}
    (hd : d ∈ k.needs layer (.loop l)) : ∃ e ∈ before, (k.loop e).head.name = d := by
  have hneeds : k.needs layer (.loop l) = _ :=
    congrArg (Option.getD · []) (deps_infer_loop hk h hsplit)
  rw [hneeds, Option.getD_some, List.mem_append] at hd
  rcases hd with hd | hd
  · obtain ⟨e, -, hlt, hname⟩ := hback.loops l (by rw [hsplit]; simp) d hd
    exact ⟨e, mem_of_idxOf_lt hsplit hlt, hname⟩
  · obtain ⟨e, he, rfl⟩ := List.mem_map.mp hd
    exact ⟨e, List.mem_of_mem_filter he, rfl⟩

/-- An instruction needs loops and earlier instructions only. -/
theorem needs_instruction (hk : k.Distinct) (hback : k.LeadsBack) (h : analyze k = .ok layer)
    {before after : List (Fin m)} {i : Fin m} (hsplit : k.instructions = before ++ i :: after)
    {d : String} (hd : d ∈ k.needs layer (.instruction i)) :
    (∃ l ∈ k.loops, (k.loop l).head.name = d) ∨ ∃ j ∈ before, (k.instruction j).name = d := by
  have hi : i ∈ k.instructions := by rw [hsplit]; simp
  have hneeds : k.needs layer (.instruction i) = _ :=
    congrArg (Option.getD · []) (deps_infer_instruction hk h hi)
  have horder := orderDeps_eq (k := k) (hsplit ▸ hk.instructions) []
  rw [← hsplit] at horder
  rw [hneeds, Option.getD_some, horder, List.mem_append, List.mem_append] at hd
  rcases hd with hd | hd | hd
  · refine (hback.instructions i hi d hd).imp_right ?_
    rintro ⟨j, -, hlt, hname⟩
    exact ⟨j, mem_of_idxOf_lt hsplit hlt, hname⟩
  · split at hd
    · obtain ⟨j, hj, rfl⟩ := List.mem_map.mp hd
      exact .inr ⟨j, hj, rfl⟩
    · exact absurd hd List.not_mem_nil
  · obtain ⟨l, hl, rfl⟩ := List.mem_map.mp hd
    exact .inl ⟨l, List.mem_of_mem_filter hl, rfl⟩

/-- **Declared and inferred dependencies lead back** in the list with the loops first. -/
theorem inOrder_loopsFirst (hk : k.Distinct) (hback : k.LeadsBack) (h : analyze k = .ok layer) :
    InOrder k.name (k.needs layer) k.loopsFirst := by
  refine InOrder.append ?_ ?_
  · intro pre r post hsplit d hd
    obtain ⟨before, rest, hloops, rfl, hrest⟩ := List.map_eq_append_iff.mp hsplit
    obtain ⟨l, after, rfl, rfl, -⟩ := List.map_eq_cons_iff.mp hrest
    obtain ⟨e, he, rfl⟩ := needs_loop hk hback h hloops hd
    exact List.mem_map_of_mem (f := k.name) (List.mem_map_of_mem (f := Ref.loop) he)
  · intro pre r post hsplit d hd
    obtain ⟨before, rest, hinstructions, rfl, hrest⟩ := List.map_eq_append_iff.mp hsplit
    obtain ⟨i, after, rfl, rfl, -⟩ := List.map_eq_cons_iff.mp hrest
    rcases needs_instruction hk hback h hinstructions hd with ⟨l, hl, rfl⟩ | ⟨j, hj, rfl⟩
    · exact List.mem_map_of_mem (f := k.name)
        (List.mem_append_left _ (List.mem_map_of_mem (f := Ref.loop) hl))
    · exact List.mem_map_of_mem (f := k.name)
        (List.mem_append_right _ (List.mem_map_of_mem (f := Ref.instruction) hj))

end Layer

namespace Graph

/-- Items that can be listed behind their dependencies are all placed. -/
theorem exists_build_of_inOrder (h : ∀ r ∈ k.items, layer.deps.contains (k.name r) = true)
    {order : List (Ref m n)} (hperm : order.Perm k.items)
    (horder : InOrder k.name (k.needs layer) order) : ∃ g, build k layer = .ok g := by
  obtain ⟨placed, stuck, hplace, -, hbuild⟩ := build_placement h
  cases stuck with
  | nil => exact ⟨_, hbuild⟩
  | cons r stuck =>
    have hr : r ∈ order := hperm.mem_iff.mpr (hplace.sublist.subset List.mem_cons_self)
    have hresolvable := mem_resolvable_of_inOrder (fun q hq => hperm.mem_iff.mp hq) horder r hr
    exact absurd hresolvable (notMem_resolvable_of_mem_stuck hplace List.mem_cons_self)

/-- **Inference closes no cycle.**  Where the declared dependencies lead back, the analyzed kernel
can be placed, and its order lists every item exactly once. -/
theorem build_analyzed (hk : k.Distinct) (hback : k.LeadsBack) (h : Layer.analyze k = .ok layer) :
    ∃ g, build k layer = .ok g ∧ g.drain.1.Perm k.items ∧ ∀ r ∈ k.items, r ∈ g.drain.1 := by
  obtain ⟨g, hg⟩ := exists_build_of_inOrder (Layer.analyze_eq_ok h).2.deps k.loopsFirst_perm
    (Layer.inOrder_loopsFirst hk hback h)
  have hperm := (drain_order hg).1
  exact ⟨g, hg, hperm, fun r hr => hperm.mem_iff.mpr hr⟩

/-- Two loops, of which the first runs up to the second, a call and two updates that mention them,
with declared dependencies on loops and on earlier instructions. -/
def woven : Kernel 3 2 where
  instructionTable := #v[
    ⟨"reset", .assign (.name "s") (.name "j"), ["i"]⟩,
    ⟨"add", .form "+=" [.name "s", .name "i"], ["j", "reset"]⟩,
    ⟨"show", .call "print" [.name "s", .name "j"], ["add"]⟩]
  loopTable := #v[
    ⟨⟨"i", .literal (.int 0), .name "j", defaultStep "i", []⟩, []⟩,
    ⟨⟨"j", .literal (.int 0), .literal (.int 9), defaultStep "j", ["i"]⟩, []⟩]
  instructions := List.finRange 3
  loops := List.finRange 2

/-- All five items are placed, though each of the three rules adds dependencies. -/
theorem build_woven :
    ∃ layer g, Layer.analyze woven = .ok layer ∧ layer.inferred = 7 ∧
      build woven layer = .ok g ∧ g.drain.1.Perm woven.items := by
  obtain ⟨layer, hlayer, hinferred⟩ :
      ∃ layer, Layer.analyze woven = .ok layer ∧ layer.inferred = 7 := ⟨_, by cbv, by cbv⟩
  have hback : woven.LeadsBack := ⟨by decide, by decide⟩
  obtain ⟨g, hg, hperm, -⟩ := build_analyzed (by rw [Kernel.Distinct]; decide) hback hlayer
  exact ⟨layer, g, hlayer, hinferred, hg, hperm⟩

end Graph
end LoopNest
