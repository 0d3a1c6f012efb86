import LoopNest.Proofs.Kernel.Alike
import LoopNest.Proofs.Kernel.Reach
import LoopNest.Proofs.Schedule.Arena

/-!
# Free variables and the lists of a kernel

The free variables are collected along the walk through the members, so at first sight they depend
on the member lists.  But they are sorted at the end: which items the walk finds matters, and not
when.  What inference adds to member lists are the kernel's own items, which the walk starts with.
So a layer that was written into a kernel changes the free variables of the kernel as little as its
names.

* `Text.sortedNames_congr`: sorting forgets order and repetition.
* `Layer.Committed.mem_reachable_iff`: the same items are found.
* `Layer.Committed.parameters`: the same variables are free.
-/

namespace LoopNest

/-- Sorted names depend only on which names there are. -/
theorem Text.sortedNames_congr {names names' : List String} (h : ∀ x, x ∈ names ↔ x ∈ names') :
    sortedNames names = sortedNames names' := by
  have hperm : names.eraseDups.Perm names'.eraseDups := by
    refine (List.perm_ext_iff_of_nodup (Graph.nodup_eraseDups _) (Graph.nodup_eraseDups _)).mpr ?_
    intro x
    rw [List.mem_eraseDups, List.mem_eraseDups]
    exact h x
  have hsorted : ∀ l : List String, (sortedNames l).Pairwise (· ≤ ·) := by
    intro l
    refine (List.pairwise_mergeSort ?_ ?_ _).imp ?_
    · simpa using fun a b c => le_trans
    · simpa using fun a b => le_total a b
    · simp
  refine List.Perm.eq_of_pairwise ?_ (hsorted _) (hsorted _) ?_
  · exact fun a b _ _ => le_antisymm
  · exact (List.mergeSort_perm _ _).trans (hperm.trans (List.mergeSort_perm _ _).symm)

variable {m n : Nat}

namespace Kernel

/-! ## What occurs and what is defined -/

section Occurrence

variable {k : Kernel m n} {x : String}

theorem mem_reachableInstructions {i : Instruction} :
    i ∈ k.reachableInstructions ↔ ∃ row, .instruction row ∈ k.reachable ∧
      k.instruction row = i := by
  rw [reachableInstructions, List.mem_filterMap]
  constructor
  · rintro ⟨r, hr, hrow⟩
    cases r with
    | instruction row => exact ⟨row, hr, Option.some.inj hrow⟩
    | loop l => cases hrow
  · rintro ⟨row, hr, rfl⟩
    exact ⟨_, hr, rfl⟩

theorem mem_reachableLoops {head : LoopHead} :
    head ∈ k.reachableLoops ↔ ∃ row, .loop row ∈ k.reachable ∧ (k.loop row).head = head := by
  rw [reachableLoops, List.mem_filterMap]
  constructor
  · rintro ⟨r, hr, hrow⟩
    cases r with
    | instruction i => cases hrow
    | loop row => exact ⟨row, hr, Option.some.inj hrow⟩
  · rintro ⟨row, hr, rfl⟩
    exact ⟨_, hr, rfl⟩

/-- The names that occur, row by row. -/
theorem mem_identifiers_rows : x ∈ k.identifiers ↔
    (∃ i, .instruction i ∈ k.reachable ∧ x ∈ (k.instruction i).body.identifiers) ∨
      ∃ l, .loop l ∈ k.reachable ∧ x ∈ (k.loop l).head.step.identifiers ++
        (k.loop l).head.lower.identifiers
        ++ (k.loop l).head.upper.identifiers ++ [(k.loop l).head.name] := by
  rw [identifiers, List.mem_append, List.mem_flatMap, List.mem_flatMap]
  simp only [mem_reachableInstructions, mem_reachableLoops, exists_exists_and_eq_and]

theorem mem_defined_rows : x ∈ k.defined ↔
    (∃ i, .instruction i ∈ k.reachable ∧ definition? (k.instruction i).body = some x) ∨
      ∃ l, .loop l ∈ k.reachable ∧ (k.loop l).head.name = x := by
  rw [defined, List.mem_append, List.mem_filterMap, List.mem_map]
  simp only [mem_reachableInstructions, mem_reachableLoops, exists_exists_and_eq_and]

end Occurrence

namespace Alike

variable {k k' : Kernel m n}

theorem mem_identifiers (h : k.Alike k') (hreach : ∀ r ∈ k.reachable, r ∈ k'.reachable) {x : String}
    (hx : x ∈ k.identifiers) : x ∈ k'.identifiers := by
  rw [mem_identifiers_rows] at hx ⊢
  rcases hx with ⟨i, hi, hx⟩ | ⟨l, hl, hx⟩
  · exact .inl ⟨i, hreach _ hi, by rwa [h.body]⟩
  · obtain ⟨deps, heq⟩ := h.head l
    exact .inr ⟨l, hreach _ hl, by rwa [heq]⟩

theorem mem_defined (h : k.Alike k') (hreach : ∀ r ∈ k.reachable, r ∈ k'.reachable) {x : String}
    (hx : x ∈ k.defined) : x ∈ k'.defined := by
  rw [mem_defined_rows] at hx ⊢
  rcases hx with ⟨i, hi, hx⟩ | ⟨l, hl, hx⟩
  · exact .inl ⟨i, hreach _ hi, by rwa [h.body]⟩
  · exact .inr ⟨l, hreach _ hl, by rwa [h.loop_name]⟩

/-- Alike kernels that are made of the same items have the same free variables. -/
theorem parameters (h : k.Alike k') (hreach : ∀ r, r ∈ k'.reachable ↔ r ∈ k.reachable) :
    k'.parameters = k.parameters := by
  have hdefined : ∀ x, x ∈ k'.defined ↔ x ∈ k.defined := fun x =>
    ⟨h.symm.mem_defined fun r => (hreach r).mp, h.mem_defined fun r => (hreach r).mpr⟩
  refine Text.sortedNames_congr fun x => ?_
  rw [List.mem_filter, List.mem_filter]
  have hidentifiers : x ∈ k'.identifiers ↔ x ∈ k.identifiers :=
    ⟨h.symm.mem_identifiers fun r => (hreach r).mp, h.mem_identifiers fun r => (hreach r).mpr⟩
  simp [hidentifiers, hdefined]

end Alike
end Kernel

/-! ## A layer that was written -/

namespace Layer

variable {k k' : Kernel m n} {layer : Layer m n}

/-- A loop of the kernel keeps its members and gains own items of the kernel. -/
theorem listed_analyze (hk : k.Distinct) (h : analyze k = .ok layer) {l : Fin n}
    (hl : l ∈ k.loops) :
    ∃ gained, k.listed layer l = (k.loop l).members ++ gained ∧ ∀ r ∈ gained, r ∈ k.items := by
  obtain ⟨earlier, later, hsplit⟩ := List.append_of_mem hl
  refine ⟨_, by rw [Kernel.listed_eq, if_pos hl, members_infer hk h hsplit]; rfl, fun r hr => ?_⟩
  rcases List.mem_append.mp hr with hr | hr
  · obtain ⟨i, hi, rfl⟩ := List.mem_map.mp hr
    exact Kernel.instruction_mem_items.mpr (List.mem_of_mem_filter hi)
  · obtain ⟨e, he, rfl⟩ := List.mem_map.mp hr
    have hmem : e ∈ k.loops := by
      rw [hsplit]
      exact List.mem_append_right _ (List.mem_cons_of_mem _ (List.mem_of_mem_filter he))
    exact Kernel.loop_mem_items.mpr hmem

/-- A kernel that an analysis was written into is made of what it was made of before. -/
theorem Committed.mem_reachable_iff (hw : layer.Committed k k') (hk : k.Distinct)
    (h : analyze k = .ok layer) {r : Ref m n} : r ∈ k'.reachable ↔ r ∈ k.reachable := by
  have hmembers : ∀ l, ∃ gained, (k'.loop l).members = (k.loop l).members ++ gained ∧
      ∀ r ∈ gained, r ∈ k.items := by
    intro l
    rw [hw.members]
    by_cases hl : l ∈ k.loops
    · exact listed_analyze hk h hl
    · exact ⟨[], by rw [Kernel.listed_eq, if_neg hl, List.append_nil], by simp⟩
  constructor
  · refine Kernel.reachable_subset (fun t ht u hu => ?_) (fun t ht => ?_) r
    · cases t with
      | instruction i => exact absurd hu List.not_mem_nil
      | loop l =>
        obtain ⟨gained, heq, hgained⟩ := hmembers l
        have hu : u ∈ (k.loop l).members ++ gained := heq ▸ hu
        rcases List.mem_append.mp hu with hu | hu
        · exact Kernel.mem_reachable_of_mem_members ht hu
        · exact Kernel.mem_reachable_of_mem_items (hgained u hu)
    · exact Kernel.mem_reachable_of_mem_items (hw.alike.items ▸ ht)
  · refine Kernel.reachable_subset (fun t ht u hu => ?_) (fun t ht => ?_) r
    · refine Kernel.mem_reachable_of_mem_members ht ?_
      cases t with
      | instruction i => exact absurd hu List.not_mem_nil
      | loop l =>
        obtain ⟨gained, heq, -⟩ := hmembers l
        show u ∈ (k'.loop l).members
        rw [heq]
        exact List.mem_append_left _ hu
    · exact Kernel.mem_reachable_of_mem_items (hw.alike.items.symm ▸ ht)

/-- **A kernel that an analysis was written into has the free variables it had before.** -/
theorem Committed.parameters (hw : layer.Committed k k') (hk : k.Distinct)
    (h : analyze k = .ok layer) :
    k'.parameters = k.parameters :=
  hw.alike.parameters fun _ => hw.mem_reachable_iff hk h

end Layer
end LoopNest
