import LoopNest.Kernel.Reach
import LoopNest.Proofs.Schedule.Hierarchical

/-!
# What a kernel is made of

The walk from the kernel's own items through members finds a list that holds these items and, with
every loop, the members of the loop; and it is contained in every collection of items with these two
properties.  So it is the set of what the kernel is made of, whatever the order in which it is
found.

A kernel keeps its own names apart, but a loop declared inside another one may share its name with
anything.  Most of what can be said about bodies, which are known by name, needs more: that whatever
the kernel is made of has a name of its own (`Kernel.Separate`).  Where loops declare no members
there is nothing but the kernel's own items, and different names are enough.

* `Kernel.mem_reachable_of_mem_items`, `Kernel.mem_reachable_of_mem_members`,
  `Kernel.reachable_subset`: the walk is the closure.
* `Kernel.separate_of_bare`: different names in a kernel without inline members.
-/

namespace LoopNest
namespace Kernel

variable {m n : Nat} {k : Kernel m n}

/-! ## The walk -/

/-- What is pending is found, unless it was seen before. -/
theorem mem_walk_of_mem_pending {pending seen : List (Ref m n)} {r : Ref m n} (hr : r ∈ pending) :
    r ∈ seen ∨ r ∈ k.walk pending seen := by
  fun_induction walk k pending seen with
  | case1 seen => exact absurd hr List.not_mem_nil
  | case2 seen t pending hseen ih =>
    rcases List.mem_cons.mp hr with rfl | hr
    · exact .inl (List.contains_iff_mem.mp hseen)
    · exact ih hr
  | case3 seen t pending hfresh ih =>
    rcases List.mem_cons.mp hr with rfl | hr
    · exact .inr List.mem_cons_self
    · rcases ih (List.mem_append_right _ hr) with hmem | hmem
      · rcases List.mem_cons.mp hmem with rfl | hmem
        · exact .inr List.mem_cons_self
        · exact .inl hmem
      · exact .inr (List.mem_cons_of_mem _ hmem)

/-- With an item its members are found, unless they were seen before. -/
theorem mem_walk_of_mem_members {pending seen : List (Ref m n)} {r t : Ref m n}
    (hr : r ∈ k.walk pending seen) (ht : t ∈ k.members r) : t ∈ seen ∨ t ∈ k.walk pending seen := by
  fun_induction walk k pending seen with
  | case1 seen => exact absurd hr List.not_mem_nil
  | case2 seen u pending hseen ih => exact ih hr
  | case3 seen u pending hfresh ih =>
    have hnext : t ∈ u :: seen ∨ t ∈ k.walk (k.members u ++ pending) (u :: seen) := by
      rcases List.mem_cons.mp hr with rfl | hr
      · exact mem_walk_of_mem_pending (List.mem_append_left _ ht)
      · exact ih hr
    rcases hnext with hmem | hmem
    · rcases List.mem_cons.mp hmem with rfl | hmem
      · exact .inr List.mem_cons_self
      · exact .inl hmem
    · exact .inr (List.mem_cons_of_mem _ hmem)

/-- A walk stays in every collection that holds the pending items and, with each item, its
members. -/
theorem walk_subset {own : Ref m n → Prop} (hclosed : ∀ r, own r → ∀ t ∈ k.members r, own t)
    {pending seen : List (Ref m n)} (hpending : ∀ r ∈ pending, own r) :
    ∀ r ∈ k.walk pending seen, own r := by
  fun_induction walk k pending seen with
  | case1 seen => simp
  | case2 seen u pending hseen ih => exact ih fun r hr => hpending r (List.mem_cons_of_mem _ hr)
  | case3 seen u pending hfresh ih =>
    have hu : own u := hpending u List.mem_cons_self
    intro r hr
    rcases List.mem_cons.mp hr with rfl | hr
    · exact hu
    · refine ih (fun t ht => ?_) r hr
      rcases List.mem_append.mp ht with ht | ht
      · exact hclosed u hu t ht
      · exact hpending t (List.mem_cons_of_mem _ ht)

/-! ## The reachable items -/

theorem mem_reachable_of_mem_items {r : Ref m n} (hr : r ∈ k.items) : r ∈ k.reachable :=
  (mem_walk_of_mem_pending hr).resolve_left List.not_mem_nil

theorem mem_reachable_of_mem_members {r t : Ref m n} (hr : r ∈ k.reachable) (ht : t ∈ k.members r) :
    t ∈ k.reachable :=
  (mem_walk_of_mem_members hr ht).resolve_left List.not_mem_nil

theorem reachable_subset {own : Ref m n → Prop} (hclosed : ∀ r, own r → ∀ t ∈ k.members r, own t)
    (hitems : ∀ r ∈ k.items, own r) : ∀ r ∈ k.reachable, own r :=
  walk_subset hclosed hitems

/-- Where the kernel's loops declare no members, the kernel is made of its own items. -/
theorem mem_items_of_mem_reachable (hbare : ∀ l ∈ k.loops, (k.loop l).members = []) {r : Ref m n}
    (hr : r ∈ k.reachable) : r ∈ k.items := by
  have hclosed : ∀ t, t ∈ k.items → ∀ u ∈ k.members t, u ∈ k.items := by
    intro t ht u hu
    cases t with
    | instruction i => exact absurd hu List.not_mem_nil
    | loop l =>
      have hnone : k.members (.loop l) = [] := hbare l (loop_mem_items.mp ht)
      rw [hnone] at hu
      exact absurd hu List.not_mem_nil
  exact reachable_subset hclosed (fun _ h => h) r hr

/-! ## Different names all over -/

/-- Whatever the kernel is made of has a name of its own. -/
def Separate (k : Kernel m n) : Prop :=
  ∀ r ∈ k.reachable, ∀ t ∈ k.reachable, k.name r = k.name t → r = t

theorem separate_of_bare (hk : k.Distinct) (hbare : ∀ l ∈ k.loops, (k.loop l).members = []) :
    k.Separate := fun _ hr _ ht h =>
  hk.inj (mem_items_of_mem_reachable hbare hr) (mem_items_of_mem_reachable hbare ht) h

end Kernel
end LoopNest
