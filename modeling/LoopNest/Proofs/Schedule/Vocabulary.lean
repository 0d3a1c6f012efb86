import LoopNest.Proofs.Kernel.Unwritten
import LoopNest.Proofs.Schedule.Kept
import LoopNest.Proofs.Schedule.Lasting

/-!
# The names in a lowered tree

The parameters of a compilation are found by a walk through the members that the kernel has right
after the analysis, and the tree is lowered from nests that were put together later from rewritten
bodies.  A name in the tree that the walk did not come across would be neither a parameter nor
defined.

There is none, because no stage makes up an item.  The lists of a layer have what the kernel
declares and own items of the kernel; a loop that is moved into another one is an own item; and a
nest is assembled from the items of the bodies, also where one loop stands in for another of the
same name.  So everything in a nest was reached by the walk (`Nest.MadeOf`).  For this nothing has
to be known of names, and it makes no difference how loops overlap.

* `Layer.mem_reachable_of_analyze`: the lists of a layer.
* `Nester.Gathers.arrange`: the rewritten bodies and what runs at the top.
* `Nester.Attaches.madeOf`: the nests.
* `compile_names_declared`: every name is a parameter or defined.
-/

namespace LoopNest

/-- Every result of going through a list is the result of an entry. -/
theorem exists_of_mem_mapM {ε α β : Type} {f : α → Except ε β} {l : List α} {bs : List β}
    (h : l.mapM f = .ok bs) {b : β} (hb : b ∈ bs) : ∃ a ∈ l, f a = .ok b := by
  have hall := mapM_eq_ok_iff.mp h
  clear h
  induction hall with
  | nil => cases hb
  | cons hfirst _ ih =>
    rcases List.mem_cons.mp hb with rfl | hb
    · exact ⟨_, List.mem_cons_self, hfirst⟩
    · obtain ⟨a, ha, hab⟩ := ih hb
      exact ⟨a, List.mem_cons_of_mem _ ha, hab⟩

namespace NameMap

variable {α : Type} {x : String} {value : α}

theorem mem_or_of_find?_foldl_insert {entries : List (String × α)} {table : NameMap α}
    (h : (entries.foldl (fun table entry => table.insert entry.1 entry.2) table).find? x
      = some value) :
    (x, value) ∈ entries ∨ table.find? x = some value := by
  induction entries generalizing table with
  | nil => exact .inr h
  | cons entry entries ih =>
    rcases ih h with hmem | hfound
    · exact .inl (List.mem_cons_of_mem _ hmem)
    · rw [find?_insert] at hfound
      split at hfound
      · rename_i hx
        cases hfound
        exact .inl (by rw [hx]; exact List.mem_cons_self)
      · exact .inr hfound

/-- What is found in a table made from a list is an entry of the list. -/
theorem mem_of_find?_ofList {entries : List (String × α)}
    (h : (ofList entries).find? x = some value) :
    (x, value) ∈ entries := by
  rcases mem_or_of_find?_foldl_insert h with hmem | hnone
  · exact hmem
  · cases hnone

end NameMap

variable {m n : Nat}

/-! ## The lists of a layer -/

namespace Layer

variable {k k₁ : Kernel m n} {layer : Layer m n}

theorem mem_loops_of_mem_innerMembers {ls : List (Fin n)} {x : String} {r : Ref m n}
    (h : r ∈ innerMembers k ls x) : ∃ l ∈ ls, r = .loop l := by
  induction ls with
  | nil => cases h
  | cons outer rest ih =>
    rcases List.mem_append.mp h with h | h
    · obtain ⟨inner, hinner, h⟩ := List.mem_flatMap.mp h
      refine ⟨inner, List.mem_cons_of_mem _ hinner, ?_⟩
      rw [under] at h
      split at h
      · split at h
        · exact List.mem_singleton.mp h
        · cases h
      · cases h
    · obtain ⟨l, hl, hr⟩ := ih h
      exact ⟨l, List.mem_cons_of_mem _ hl, hr⟩

/-- Only own items of the kernel are inferred as members. -/
theorem mem_items_of_mem_inferredMembers {x : String} {r : Ref m n} (h : r ∈ inferredMembers k x) :
    r ∈ k.items := by
  rcases List.mem_append.mp h with h | h
  · obtain ⟨i, hi, h⟩ := List.mem_flatMap.mp h
    obtain ⟨l, -, h⟩ := List.mem_flatMap.mp h
    rw [under] at h
    split at h
    · split at h
      · rw [List.mem_singleton.mp h]
        exact Kernel.instruction_mem_items.mpr hi
      · cases h
    · cases h
  · obtain ⟨l, hl, rfl⟩ := mem_loops_of_mem_innerMembers h
    exact Kernel.loop_mem_items.mpr hl

/-- Whatever an analysis lists is a part of the kernel. -/
theorem mem_reachable_of_analyze (h : analyze k = .ok layer) {x : String} {members : List (Ref m n)}
    (hmembers : layer.members.find? x = some members) : ∀ r ∈ members, r ∈ k.reachable := by
  rw [(extends_analyze h).members, Option.map_eq_some_iff] at hmembers
  obtain ⟨declared, hdeclared, rfl⟩ := hmembers
  obtain ⟨l, hl, heq⟩ := List.mem_map.mp (NameMap.mem_of_find?_ofList hdeclared)
  cases heq
  intro r hr
  rcases List.mem_append.mp hr with hr | hr
  · have hloop : .loop l ∈ k.reachable :=
      Kernel.mem_reachable_of_mem_items (Kernel.loop_mem_items.mpr hl)
    exact Kernel.mem_reachable_of_mem_members hloop hr
  · exact Kernel.mem_reachable_of_mem_items (mem_items_of_mem_inferredMembers hr)

/-- A kernel that an analysis was written into has no other parts. -/
theorem Committed.reachable_subset (hw : layer.Committed k k₁) (h : analyze k = .ok layer) :
    ∀ r ∈ k₁.reachable, r ∈ k.reachable := by
  refine Kernel.reachable_subset (fun r hr t ht => ?_) fun r hr =>
    Kernel.mem_reachable_of_mem_items (hw.alike.items ▸ hr)
  cases r with
  | instruction i => exact absurd ht List.not_mem_nil
  | loop l =>
    rw [Kernel.members, hw.members, Kernel.listed_eq] at ht
    split at ht
    · cases hfind : layer.members.find? (k.loop l).head.name with
      | none =>
        rw [hfind] at ht
        exact absurd ht List.not_mem_nil
      | some members =>
        rw [hfind] at ht
        exact mem_reachable_of_analyze h hfind t ht
    · exact Kernel.mem_reachable_of_mem_members hr ht

end Layer

/-! ## Rewritten bodies -/

namespace Nester

variable {s : Nester m n} {k : Kernel m n} {layer : Layer m n} {order : List (Ref m n)}

/-- The bodies hold parts of the kernel only. -/
def Gathers (s : Nester m n) (k : Kernel m n) : Prop :=
  ∀ x members, s.bodies.find? x = some members → ∀ r ∈ members, r ∈ k.reachable

theorem Gathers.body (h : s.Gathers k) {l : Fin n} (hl : .loop l ∈ k.reachable) :
    ∀ r ∈ s.body k l, r ∈ k.reachable := by
  intro r hr
  rw [Nester.body] at hr
  cases hfind : s.bodies.find? (k.loop l).head.name with
  | none =>
    rw [hfind] at hr
    exact Kernel.mem_reachable_of_mem_members hl hr
  | some members =>
    rw [hfind] at hr
    exact h _ members hfind r hr

/-- The bodies at the start are lists of the layer. -/
theorem gathers_ofLayer (hlists : ∀ l ∈ k.loops, ∀ members,
      layer.members.find? (k.loop l).head.name = some members → ∀ r ∈ members, r ∈ k.reachable)
    (h : ofLayer k layer = .ok s) : s.Gathers k := by
  obtain ⟨bodies, hbodies, h⟩ := bind_eq_ok_iff.mp h
  cases h
  intro x members hfind
  obtain ⟨l, hl, hmade⟩ := exists_of_mem_mapM hbodies (NameMap.mem_of_find?_ofList hfind)
  obtain ⟨listed, hlisted, hmade⟩ := bind_eq_ok_iff.mp hmade
  cases hmade
  refine hlists l hl members ?_
  rw [Layer.membersOf] at hlisted
  split at hlisted
  · rename_i hsome
    cases hlisted
    exact hsome
  · cases hlisted

/-- A loop that moves into another one is a part of the kernel. -/
theorem Gathers.absorb (h : s.Gathers k) {outer inner : Fin n} (houter : .loop outer ∈ k.reachable)
    (hinner : .loop inner ∈ k.reachable) (common : List String) :
    (s.absorb k outer inner common).Gathers k := by
  intro x members hfind r hr
  rw [Nester.absorb, NameMap.find?_insert] at hfind
  split at hfind
  · cases hfind
    rw [(substitute_perm _ _ _).mem_iff] at hr
    rcases List.mem_cons.mp hr with rfl | hr
    · exact hinner
    · exact h.body houter r (List.mem_of_mem_filter hr)
  · exact h x members hfind r hr

/-- **The rewritten bodies and the top** hold parts of the kernel only. -/
theorem Gathers.arrange (hlists : ∀ l ∈ k.loops, ∀ members,
      layer.members.find? (k.loop l).head.name = some members → ∀ r ∈ members, r ∈ k.reachable)
    {a : Arrangement m n} (h : k.arrange layer = .ok a) :
    a.final.Gathers k ∧ ∀ r ∈ a.top, r ∈ k.reachable := by
  obtain ⟨order, start, top, final⟩ := a
  obtain ⟨⟨g, hg, rfl⟩, hstart, hnest⟩ := Kernel.arrange_eq_ok_iff.mp h
  obtain ⟨p, hp, h⟩ := bind_eq_ok_iff.mp hnest
  cases h
  have hreach : ∀ r ∈ g.drain.1, r ∈ k.reachable := fun r hr =>
    Kernel.mem_reachable_of_mem_items ((Graph.drain_order hg).1.mem_iff.mp hr)
  refine run_keeps (P := fun s top => s.Gathers k ∧ ∀ r ∈ top, r ∈ k.reachable)
    (fun r hr s top hs => ?_)
    (fun outer houter inner hinner _ s top _ hs => ?_) ⟨gathers_ofLayer hlists hstart, by simp⟩ hp
  · simpa [or_imp, forall_and] using ⟨hs.1, hs.2, hreach r hr⟩
  · have hinner := Kernel.mem_reachable_of_mem_items (Kernel.loop_mem_items.mpr hinner)
    exact ⟨hs.1.absorb (hreach _ houter) hinner _, hs.2⟩

end Nester

/-! ## Nests -/

/-- The nest is made of parts of the kernel. -/
inductive Nest.MadeOf (k : Kernel m n) : Nest → Prop where
  | instruction {i : Fin m} (hi : .instruction i ∈ k.reachable) :
      MadeOf k (.instruction (k.instruction i))
  | loop {l : Fin n} (hl : .loop l ∈ k.reachable) {members : List Nest}
      (hmembers : ∀ nest ∈ members, MadeOf k nest) : MadeOf k (.loop (k.loop l).head members)

/-- **Nests are assembled from parts of the kernel**, also where a loop stands in for another one of
the same name. -/
theorem Nester.Attaches.madeOf {s : Nester m n} {k : Kernel m n} (hs : s.Gathers k)
    {active : List String} {items : List (Ref m n)} {fin fin' : List (Finished m n)}
    {pairs : List (Ref m n × Nest)} (h : Attaches s k active items fin pairs fin')
    (hitems : ∀ r ∈ items, r ∈ k.reachable) (hfin : ∀ f ∈ fin, f.nest.MadeOf k) :
    (∀ p ∈ pairs, p.2.MadeOf k) ∧ ∀ f ∈ fin', f.nest.MadeOf k := by
  induction h with
  | nil => exact ⟨by simp, hfin⟩
  | instruction i _ ih =>
    obtain ⟨hi, hrest⟩ := List.forall_mem_cons.mp hitems
    obtain ⟨hpairs, hfin'⟩ := ih hrest hfin
    exact ⟨List.forall_mem_cons.mpr ⟨.instruction hi, hpairs⟩, hfin'⟩
  | seen _ hseen _ ih =>
    obtain ⟨hpairs, hfin'⟩ := ih (List.forall_mem_cons.mp hitems).2 hfin
    exact ⟨List.forall_mem_cons.mpr ⟨hfin _ (finished?_eq_some hseen).1, hpairs⟩, hfin'⟩
  | @fresh _ _ _ members _ _ _ l _ _ _ _ ihbody ih =>
    obtain ⟨hl, hrest⟩ := List.forall_mem_cons.mp hitems
    obtain ⟨hmembers, hfin₁⟩ := ihbody (hs.body hl) hfin
    have hnest : (finish k l members).nest.MadeOf k := by
      refine .loop hl fun nest hnest => ?_
      obtain ⟨p, hp, rfl⟩ := List.mem_map.mp hnest
      exact hmembers p hp
    obtain ⟨hpairs, hfin'⟩ := ih hrest
      (List.forall_mem_append.mpr ⟨hfin₁, List.forall_mem_singleton.mpr hnest⟩)
    exact ⟨List.forall_mem_cons.mpr ⟨hnest, hpairs⟩, hfin'⟩

/-! ## Names -/

/-- The names of a lowered loop are its variable and the names of its head and of its body. -/
theorem Nest.mem_identifiers_lowerLoop {x : String} {head : LoopHead} {body : List Expr} :
    x ∈ (lowerLoop head body).identifiers ↔
      x = head.name ∨ x ∈ head.lower.identifiers ∨ x ∈ head.upper.identifiers ∨
        x ∈ head.step.identifiers ∨ ∃ e ∈ body, x ∈ e.identifiers := by
  simp only [lowerLoop, Expr.identifiers, Expr.identifiersAll, Expr.identifiersAll_eq,
    List.flatMap_append, List.flatMap_singleton, List.mem_append, List.mem_flatMap,
    List.mem_singleton, List.append_nil]
  grind

/-- The names of a nest that is made of parts of the kernel are among the names of the kernel. -/
theorem Nest.MadeOf.mem_identifiers {k : Kernel m n} {nest : Nest} (h : nest.MadeOf k) {x : String}
    (hx : x ∈ nest.lower.identifiers) : x ∈ k.identifiers := by
  rw [Kernel.mem_identifiers_rows]
  induction h with
  | @instruction i hi => exact .inl ⟨i, hi, hx⟩
  | @loop l hl members _ ih =>
    rw [lower, mem_identifiers_lowerLoop, lowerEach_eq] at hx
    rcases hx with hx | hx | hx | hx | ⟨e, he, hx⟩
    · exact .inr ⟨l, hl, by simp [hx]⟩
    · exact .inr ⟨l, hl, by simp [hx]⟩
    · exact .inr ⟨l, hl, by simp [hx]⟩
    · exact .inr ⟨l, hl, by simp [hx]⟩
    · obtain ⟨nest, hnest, rfl⟩ := List.mem_map.mp he
      exact ih nest hnest hx

namespace Kernel

variable {k k' : Kernel m n} {layer : Layer m n} {c : Compilation}

/-- A name that occurs is free or defined. -/
theorem mem_parameters_or_mem_defined {x : String} (hx : x ∈ k.identifiers) :
    x ∈ k.parameters ∨ x ∈ k.defined := by
  by_cases hdefined : x ∈ k.defined
  · exact .inr hdefined
  · refine .inl (Text.mem_sortedNames.mpr (List.mem_filter.mpr ⟨hx, ?_⟩))
    simp [hdefined]

/-- The stages behind the analysis bring no new names into the tree. -/
theorem mem_identifiers_of_scheduled (hlists : ∀ l ∈ k.loops, ∀ members,
      layer.members.find? (k.loop l).head.name = some members → ∀ r ∈ members, r ∈ k.reachable)
    {inPlace : Bool} (h : k.scheduled layer inPlace = .ok c k') :
    c.parameters = k.parameters ∧ ∀ x ∈ c.tree.identifiers, x ∈ k.identifiers := by
  obtain ⟨a, pairs, fin, harrange, hattaches, rfl, -⟩ := scheduled_eq_ok h
  obtain ⟨hgathers, htop⟩ := Nester.Gathers.arrange hlists harrange
  have hmade := (hattaches.madeOf hgathers htop (by simp)).1
  refine ⟨rfl, fun x hx => ?_⟩
  rw [Nest.lowerAll, Expr.identifiers, Expr.identifiersAll_eq, Nest.lowerEach_eq, List.map_map]
    at hx
  obtain ⟨e, he, hx⟩ := List.mem_flatMap.mp hx
  obtain ⟨p, hp, rfl⟩ := List.mem_map.mp he
  exact (hmade p hp).mem_identifiers hx

theorem eq_of_compile_false (h : (compile false).run k = .ok c k') : k' = k := by
  cases hlayer : Layer.analyze k with
  | error e =>
    rw [run_compile_of_error hlayer] at h
    cases h
  | ok layer =>
    rw [run_compile_false hlayer] at h
    obtain ⟨_, _, _, -, -, -, hleft⟩ := scheduled_eq_ok h
    exact hleft

/-- Every name in a compiled tree occurs in the kernel, and is a parameter unless the kernel defines
it. -/
theorem mem_parameters_or_of_compile {inPlace : Bool} (h : (compile inPlace).run k = .ok c k')
    {x : String} (hx : x ∈ c.tree.identifiers) : x ∈ c.parameters ∨ x ∈ k.defined := by
  cases hlayer : Layer.analyze k with
  | error e =>
    rw [run_compile_of_error hlayer] at h
    cases h
  | ok layer =>
    cases inPlace with
    | false =>
      rw [run_compile_false hlayer] at h
      obtain ⟨hparameters, hnames⟩ := mem_identifiers_of_scheduled
        (fun l _ _ => Layer.mem_reachable_of_analyze hlayer) h
      rw [hparameters]
      exact mem_parameters_or_mem_defined (hnames x hx)
    | true =>
      obtain ⟨k₁, hcommit, hwritten⟩ := Layer.run_commit (Layer.analyze_eq_ok hlayer).2
      rw [run_compile_true hlayer hcommit] at h
      -- what the layer lists for an own loop are now the members of the loop
      have hlists : ∀ l ∈ k₁.loops, ∀ members,
          layer.members.find? (k₁.loop l).head.name = some members →
            ∀ r ∈ members, r ∈ k₁.reachable := by
        intro l hl members hmembers r hr
        have hloop : .loop l ∈ k₁.reachable := mem_reachable_of_mem_items (loop_mem_items.mpr hl)
        refine mem_reachable_of_mem_members hloop ?_
        rw [Kernel.members, ← hwritten.listed_eq, listed_eq, if_pos hl, hmembers]
        exact hr
      obtain ⟨hparameters, hnames⟩ := mem_identifiers_of_scheduled hlists h
      rw [hparameters]
      refine (mem_parameters_or_mem_defined (hnames x hx)).imp_right ?_
      exact hwritten.alike.symm.mem_defined (hwritten.reachable_subset hlayer)

end Kernel

/-- **Every name in a compiled tree is declared**: it is a parameter of the compilation, or the
kernel that was handed in defines it.  Where all parts of the kernel have different names, the
kernel that is left defines it as well; otherwise a loop that gave way to another one of its name
can be gone by then, and with it what it defined. -/
theorem compile_names_declared {k k' : Kernel m n} {inPlace : Bool} {c : Compilation}
    (h : (Kernel.compile inPlace).run k = .ok c k') :
    (∀ x ∈ c.tree.identifiers, x ∈ c.parameters ∨ x ∈ k.defined) ∧
      (k.Distinct → k.Separate → ∀ x ∈ c.tree.identifiers, x ∈ c.parameters ∨ x ∈ k'.defined) := by
  have hgiven : ∀ x ∈ c.tree.identifiers, x ∈ c.parameters ∨ x ∈ k.defined :=
    fun x hx => Kernel.mem_parameters_or_of_compile h hx
  refine ⟨hgiven, fun hk hseparate x hx => (hgiven x hx).imp_right ?_⟩
  cases inPlace with
  | false =>
    rw [Kernel.eq_of_compile_false h]
    exact id
  | true =>
    obtain ⟨halike, hreach⟩ := Kernel.recompiled_reachable hk hseparate
    rw [Kernel.recompiled, h] at halike hreach
    exact halike.mem_defined fun r => (hreach r).mpr

/-- Two loops inside a third one that share their name.  The first reads what the second defines. -/
def twofold : Kernel 2 3 where
  instructionTable := #v[
    ⟨"b", .assign (.name "z") (.call "+" [.name "y", .name "w"]), []⟩,
    ⟨"a", .assign (.name "y") (.literal (.int 1)), []⟩]
  loopTable := #v[
    ⟨⟨"i", .literal (.int 0), .name "n", defaultStep "i", []⟩, [.loop (row 1), .loop (row 2)]⟩,
    ⟨⟨"t", .literal (.int 0), .literal (.int 9), defaultStep "t", []⟩,
      [.instruction (row 0)]⟩,
    ⟨⟨"t", .literal (.int 0), .literal (.int 9), defaultStep "t", []⟩, [.instruction (row 1)]⟩]
  instructions := []
  loops := [row 0]

/-- The first loop stands in for the second one, in place; the name that only the second one defines
is in the tree, and the kernel that was handed in defines it. -/
theorem compile_names_declared_twofold :
    ∃ c k', (Kernel.compile true).run twofold = .ok c k' ∧ c.parameters = ["n", "w"] ∧
      "y" ∈ c.tree.identifiers ∧ ("y" ∈ c.parameters ∨ "y" ∈ twofold.defined) ∧
        "y" ∉ k'.defined := by
  obtain ⟨c, k', hrun, hparameters, hnames, hdefined⟩ : ∃ c k',
      (Kernel.compile true).run twofold = .ok c k' ∧ c.parameters = ["n", "w"] ∧
        c.tree.identifiers
          = ["i", "i", "n", "t", "t", "z", "y", "w", "t", "t", "t", "z", "y", "w", "t", "i"] ∧
        k'.defined = ["z", "i", "t"] := ⟨_, _, by cbv, by cbv, by cbv, by cbv⟩
  have hname : "y" ∈ c.tree.identifiers := by
    rw [hnames]
    decide
  refine ⟨c, k', hrun, hparameters, hname, (compile_names_declared hrun).1 "y" hname, ?_⟩
  rw [hdefined]
  decide

end LoopNest
