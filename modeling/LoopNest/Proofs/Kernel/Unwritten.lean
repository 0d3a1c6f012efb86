import LoopNest.Proofs.Kernel.Parameters

/-!
# Which names become parameters

A name that a kernel uses must come from somewhere: an instruction writes it, a loop counts it, or
the caller hands it in.  So the parameters ought to be the names that are used, counted by no loop
and written by no instruction, where writing means standing bare on the left of a plain or of a
compound assignment.

## What counts as a definition

The names that are left out are found by a test on the body of an instruction: a bare name first in
a form.  Compound assignments are forms, but so is indexing, and an instruction that only looks at
an element (`a[i]`) has the bare name of the array first.  Such a name is left out as well, though
nothing writes it.  This is the only way in which a name is lost.

* `Expr.HasVariable`, `Kernel.Reaches`: a variable of a tree, an item of a kernel, without
  collecting.
* `Kernel.Unwritten`: used, and neither counted nor written.
* `Kernel.HeadsForm`: first in a form that is no compound assignment.
* `Kernel.mem_parameters_iff_unwritten`: the parameters are the unwritten names that head no form.
-/

namespace LoopNest

/-! ## The variables of a tree -/

namespace Expr

/-- The variable stands in the tree.  A callee is no part of a call. -/
inductive HasVariable (x : String) : Expr → Prop where
  | name : HasVariable x (.name x)
  | part {e c : Expr} (hc : c ∈ e.children) (h : HasVariable x c) : HasVariable x e

theorem identifiersAll_eq (es : List Expr) : identifiersAll es = es.flatMap identifiers := by
  induction es with
  | nil => rfl
  | cons e es ih => rw [identifiersAll, ih, List.flatMap_cons]

theorem mem_identifiers_of_mem_children {x : String} {e c : Expr} (hc : c ∈ e.children)
    (h : x ∈ c.identifiers) : x ∈ e.identifiers := by
  cases e with
  | name y => cases hc
  | literal v => cases hc
  | call f args =>
    rw [identifiers, identifiersAll_eq]
    exact List.mem_flatMap.mpr ⟨c, hc, h⟩
  | assign target value =>
    rw [identifiers, List.mem_append]
    rcases List.mem_cons.mp hc with rfl | hc
    · exact .inl h
    · exact .inr (List.mem_singleton.mp hc ▸ h)
  | form tag args =>
    rw [identifiers, identifiersAll_eq]
    exact List.mem_flatMap.mpr ⟨c, hc, h⟩

mutual

theorem hasVariable_of_mem_identifiers {x : String} :
    ∀ e : Expr, x ∈ e.identifiers → e.HasVariable x
  | .name _, h => List.mem_singleton.mp h ▸ .name
  | .literal _, h => absurd h List.not_mem_nil
  | .call _ args, h => by
    obtain ⟨c, hc, hx⟩ := exists_hasVariable_of_mem_identifiersAll args h
    exact .part hc hx
  | .assign target value, h => by
    rcases List.mem_append.mp h with h | h
    · exact .part List.mem_cons_self (hasVariable_of_mem_identifiers target h)
    · exact .part (List.mem_cons_of_mem _ List.mem_cons_self)
        (hasVariable_of_mem_identifiers value h)
  | .form _ args, h => by
    obtain ⟨c, hc, hx⟩ := exists_hasVariable_of_mem_identifiersAll args h
    exact .part hc hx

theorem exists_hasVariable_of_mem_identifiersAll {x : String} :
    ∀ es : List Expr, x ∈ identifiersAll es → ∃ e ∈ es, e.HasVariable x
  | [], h => absurd h List.not_mem_nil
  | e :: es, h => by
    rcases List.mem_append.mp h with h | h
    · exact ⟨e, List.mem_cons_self, hasVariable_of_mem_identifiers e h⟩
    · obtain ⟨c, hc, hx⟩ := exists_hasVariable_of_mem_identifiersAll es h
      exact ⟨c, List.mem_cons_of_mem _ hc, hx⟩

end

/-- Collecting finds exactly the variables of a tree. -/
theorem mem_identifiers_iff {x : String} {e : Expr} : x ∈ e.identifiers ↔ e.HasVariable x := by
  constructor
  · exact hasVariable_of_mem_identifiers e
  · intro h
    induction h with
    | name => exact List.mem_singleton.mpr rfl
    | part hc _ ih => exact mem_identifiers_of_mem_children hc ih

end Expr

/-- Sorted names stand in strictly ascending order. -/
theorem Text.pairwise_sortedNames (names : List String) :
    (sortedNames names).Pairwise (· < ·) := by
  have hsorted : (sortedNames names).Pairwise (· ≤ ·) := by
    refine (List.pairwise_mergeSort ?_ ?_ _).imp ?_
    · simpa using fun a b c => le_trans
    · simpa using fun a b => le_total a b
    · simp
  have hnodup : (sortedNames names).Nodup :=
    (List.mergeSort_perm _ _).nodup_iff.mpr (Graph.nodup_eraseDups _)
  exact hsorted.imp₂ (fun _ _ hle hne => lt_of_le_of_ne hle hne) hnodup

theorem Text.mem_sortedNames {names : List String} {x : String} :
    x ∈ sortedNames names ↔ x ∈ names := by
  rw [sortedNames, (List.mergeSort_perm _ _).mem_iff, List.mem_eraseDups]

namespace Kernel

variable {m n : Nat} {k : Kernel m n} {x : String}

/-! ## What a kernel is made of -/

/-- The kernel's own items, and the members of what is reached. -/
inductive Reaches (k : Kernel m n) : Ref m n → Prop where
  | item {r : Ref m n} (hr : r ∈ k.items) : Reaches k r
  | member {r t : Ref m n} (hr : Reaches k r) (ht : t ∈ k.members r) : Reaches k t

theorem mem_reachable_iff {r : Ref m n} : r ∈ k.reachable ↔ k.Reaches r := by
  constructor
  · exact reachable_subset (fun _ hr _ ht => .member hr ht) (fun _ hr => .item hr) r
  · intro h
    induction h with
    | item hr => exact mem_reachable_of_mem_items hr
    | member _ ht ih => exact mem_reachable_of_mem_members ih ht

/-- The name is a variable of an instruction, of a bound or of a step. -/
def Uses (k : Kernel m n) (x : String) : Prop :=
  (∃ i, k.Reaches (.instruction i) ∧ (k.instruction i).body.HasVariable x) ∨
    ∃ l, k.Reaches (.loop l) ∧ ((k.loop l).head.step.HasVariable x ∨
      (k.loop l).head.lower.HasVariable x ∨ (k.loop l).head.upper.HasVariable x)

/-- The name is a loop's variable. -/
def Counts (k : Kernel m n) (x : String) : Prop :=
  ∃ l, k.Reaches (.loop l) ∧ (k.loop l).head.name = x

theorem mem_identifiers_iff : x ∈ k.identifiers ↔ k.Uses x ∨ k.Counts x := by
  rw [mem_identifiers_rows, Uses, Counts, or_assoc, ← exists_or]
  simp only [mem_reachable_iff, List.mem_append, List.mem_singleton,
    Expr.mem_identifiers_iff, ← and_or_left, or_assoc, eq_comm (a := x)]

/-! ## What is written -/

/-- The statement is a plain or a compound assignment to the bare name. -/
def Assigns (body : Expr) (x : String) : Prop :=
  (∃ value, body = .assign (.name x) value) ∨
    ∃ tag ∈ updateTags, ∃ rest, body = .form tag (.name x :: rest)

/-- The statement is a form that starts with the bare name and is no compound assignment. -/
def Heads (body : Expr) (x : String) : Prop :=
  ∃ tag ∉ updateTags, ∃ rest, body = .form tag (.name x :: rest)

/-- The test for a definition finds what is assigned, and what heads any other form. -/
theorem definition?_eq_some_iff {body : Expr} :
    definition? body = some x ↔ Assigns body x ∨ Heads body x := by
  constructor
  · intro h
    unfold definition? at h
    split at h
    · cases h
      exact .inl (.inl ⟨_, rfl⟩)
    · next tag y rest =>
      cases h
      by_cases htag : tag ∈ updateTags
      · exact .inl (.inr ⟨tag, htag, rest, rfl⟩)
      · exact .inr ⟨tag, htag, rest, rfl⟩
    · cases h
  · rintro ((⟨value, rfl⟩ | ⟨tag, -, rest, rfl⟩) | ⟨tag, -, rest, rfl⟩) <;> rfl

/-- An instruction of the kernel assigns to the bare name. -/
def AssignsTo (k : Kernel m n) (x : String) : Prop :=
  ∃ i, k.Reaches (.instruction i) ∧ Assigns (k.instruction i).body x

/-- An instruction of the kernel is a form that starts with the bare name and writes nothing as a
whole: it looks at an element of an array, for one. -/
def HeadsForm (k : Kernel m n) (x : String) : Prop :=
  ∃ i, k.Reaches (.instruction i) ∧ Heads (k.instruction i).body x

theorem mem_defined_iff : x ∈ k.defined ↔ k.AssignsTo x ∨ k.HeadsForm x ∨ k.Counts x := by
  rw [mem_defined_rows, AssignsTo, HeadsForm, Counts, ← or_assoc, ← exists_or]
  simp only [mem_reachable_iff, definition?_eq_some_iff, and_or_left]

/-! ## The parameters -/

/-- The name is used, and neither counted by a loop nor written by an instruction. -/
structure Unwritten (k : Kernel m n) (x : String) : Prop where
  used : k.Uses x
  not_counted : ¬ k.Counts x
  not_written : ¬ k.AssignsTo x

/-- **The parameters are the unwritten names that head no form**, each listed once and in ascending
order.  So they are all the unwritten names exactly if no unwritten name heads a form. -/
theorem mem_parameters_iff_unwritten (k : Kernel m n) :
    k.parameters.Pairwise (· < ·) ∧
      (∀ x, x ∈ k.parameters ↔ k.Unwritten x ∧ ¬ k.HeadsForm x) ∧
      ((∀ x, x ∈ k.parameters ↔ k.Unwritten x) ↔ ∀ x, k.HeadsForm x → ¬ k.Unwritten x) := by
  have hmem : ∀ x, x ∈ k.parameters ↔ k.Unwritten x ∧ ¬ k.HeadsForm x := by
    intro x
    rw [parameters, Text.mem_sortedNames, List.mem_filter, mem_identifiers_iff, Bool.not_eq_true',
      List.contains_eq_mem, decide_eq_false_iff_not, mem_defined_iff, not_or, not_or]
    constructor
    · rintro ⟨hused | hcounts, hwritten, hheads, hcounted⟩
      · exact ⟨⟨hused, hcounted, hwritten⟩, hheads⟩
      · exact absurd hcounts hcounted
    · rintro ⟨h, hheads⟩
      exact ⟨.inl h.used, h.not_written, hheads, h.not_counted⟩
  refine ⟨Text.pairwise_sortedNames _, hmem, ?_⟩
  constructor
  · exact fun hall x hheads h => ((hmem x).mp ((hall x).mpr h)).2 hheads
  · exact fun hnone x => ⟨fun h => ((hmem x).mp h).1,
      fun h => (hmem x).mpr ⟨h, fun hheads => hnone x hheads h⟩⟩

/-- A loop whose only instruction looks at an element of an array. -/
def glance : Kernel 1 1 where
  instructionTable := #v[⟨"look", .form refTag [.name "a", .name "i"], []⟩]
  loopTable := #v[⟨⟨"i", .literal (.int 0), .literal (.int 3), defaultStep "i", []⟩, []⟩]
  instructions := List.finRange 1
  loops := List.finRange 1

/-- The array is read and never written, but it is no parameter: there is none. -/
theorem parameters_glance : glance.Unwritten "a" ∧ glance.parameters = [] := by
  have hrow : ∀ i : Fin 1, (glance.instruction i).body = .form refTag [.name "a", .name "i"] :=
    Fin.forall_fin_one.mpr rfl
  have hname : ∀ l : Fin 1, (glance.loop l).head.name = "i" := by decide
  refine ⟨⟨?_, ?_, ?_⟩, by cbv⟩
  · refine .inl ⟨0, .item (by decide), ?_⟩
    rw [hrow]
    exact .part List.mem_cons_self .name
  · rintro ⟨l, -, hl⟩
    rw [hname] at hl
    exact absurd hl (by decide)
  · rintro ⟨i, -, ⟨value, h⟩ | ⟨tag, htag, rest, h⟩⟩
    · rw [hrow] at h
      cases h
    · rw [hrow] at h
      cases h
      exact absurd htag (by decide)

end Kernel
end LoopNest
