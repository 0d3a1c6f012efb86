import LoopNest.Proofs.Schedule.Kept

/-!
# Loops that share a name

Attaching keeps one finished loop for each name, and a nester knows bodies by name.  Loops that are
declared inline may share a name, with each other or with a loop of the kernel.  Where a name comes
up again, the loop that was finished first stands in for the one that was declared there.

## Where it makes no difference

Nests are *consistent* if loops of one name, wherever they stand, are lowered to one statement.
Then what is attached is lowered to the same as what was declared.  Attaching does not meet a loop
inside itself either: a loop is lowered to a larger statement than the loops inside it, so these
have other names.

Conversely, if what was attached is lowered to the same as the declared nests, these are consistent:
it is made of finished loops, of which there is one for each name.  Here the loops are read off the
lowered statements, where a loop is a block, so no instruction may be a block.

* `Nest.Apart`, `Nest.Consistent`: conditions on names.
* `Nester.exists_attaches_of_consistent`: consistent nests are attached as they were declared.
* `Nester.Ledger.consistent`: nests that are lowered like finished loops are consistent.
-/

namespace LoopNest

namespace Nest

/-! ## Lowered loops -/

theorem lower_loop (head : LoopHead) (members : List Nest) :
    lower (.loop head members) = lowerLoop head (members.map lower) := by
  rw [lower, lowerEach_eq]

/-- A lowered loop shows the name and the lowered body. -/
theorem lowerLoop_inj {head head' : LoopHead} {body body' : List Expr}
    (h : lowerLoop head body = lowerLoop head' body') : head.name = head'.name ∧ body = body' := by
  simp only [lowerLoop, Expr.form.injEq, List.cons.injEq, Expr.assign.injEq, Expr.name.injEq,
    true_and, and_true] at h
  exact ⟨h.1.1, (List.append_inj' h.2.2 rfl).1⟩

/-- A loop is lowered to a larger statement than its members. -/
theorem sizeOf_lower_lt {head : LoopHead} {members : List Nest} {nest : Nest} (h : nest ∈ members) :
    sizeOf nest.lower < sizeOf (lower (.loop head members)) := by
  have hmem : nest.lower ∈ members.map lower ++ [head.step] :=
    List.mem_append_left _ (List.mem_map_of_mem h)
  have hlt := List.sizeOf_lt_of_mem hmem
  rw [lower_loop, lowerLoop]
  simp only [Expr.form.sizeOf_spec, List.cons.sizeOf_spec, List.nil.sizeOf_spec]
  omega

/-! ## What stands in nests -/

/-- The nest stands somewhere in the nests. -/
def Occurs (nests : List Nest) (nest : Nest) : Prop := ∃ v ∈ visitsAll [] nests, v.node = nest

theorem occurs_of_mem {nests : List Nest} {nest : Nest} (h : nest ∈ nests) : Occurs nests nest := by
  refine ⟨⟨[], nest⟩, ?_, rfl⟩
  rw [visitsAll_eq, List.mem_flatMap]
  refine ⟨nest, h, ?_⟩
  cases nest with
  | instruction i => exact List.mem_singleton_self _
  | loop head members => exact List.mem_cons_self

theorem Occurs.member {nests : List Nest} {head : LoopHead} {members : List Nest} {child : Nest}
    (h : Occurs nests (.loop head members)) (hchild : child ∈ members) : Occurs nests child := by
  obtain ⟨⟨around, _⟩, hv, rfl⟩ := h
  exact ⟨_, Nester.mem_visitsAll_of_member hchild _ hv, rfl⟩

/-- Loops of one name, wherever they stand, are lowered to one statement. -/
def Consistent (nests : List Nest) : Prop :=
  ∀ head members head' members', Occurs nests (.loop head members) →
    Occurs nests (.loop head' members') → head.name = head'.name →
      lower (.loop head members) = lower (.loop head' members')

theorem consistent_of_forall_visits {nests : List Nest}
    (h : ∀ v ∈ visitsAll [] nests, ∀ w ∈ visitsAll [] nests,
      v.node.name = w.node.name → v.node.lower = w.node.lower) : Consistent nests := by
  rintro head members head' members' ⟨v, hv, hnode⟩ ⟨w, hw, hnode'⟩ hname
  rw [← hnode, ← hnode']
  refine h v hv w hw ?_
  rw [hnode, hnode']
  exact hname

/-- Where every name stands once, loops of one name are the same. -/
theorem consistent_of_nodup_names {nests : List Nest} (h : (names nests).Nodup) :
    Consistent nests := by
  refine consistent_of_forall_visits fun v hv w hw hname => ?_
  rw [List.inj_on_of_nodup_map h hv hw hname]

/-- The names of the direct members. -/
def memberNames : Nest → List String
  | .instruction _ => []
  | .loop _ members => members.map name

/-- No two of the nests have a direct member of one name. -/
def Apart (nests : List Nest) : Prop :=
  nests.Pairwise fun a b => List.Disjoint a.memberNames b.memberNames

theorem memberNames_subset (nest : Nest) (around : List LoopHead) :
    nest.memberNames ⊆ (visits around nest).map fun v => v.node.name := by
  intro x hx
  cases nest with
  | instruction i => exact absurd hx List.not_mem_nil
  | loop head members =>
    obtain ⟨child, hchild, rfl⟩ := List.mem_map.mp hx
    have hv : ⟨around ++ [head], child⟩ ∈ visits around (.loop head members) :=
      Nester.mem_visits_of_member hchild (.loop head members) List.mem_cons_self
    exact List.mem_map_of_mem (f := fun v => v.node.name) hv

theorem apart_of_nodup_names {nests : List Nest} (h : (names nests).Nodup) : Apart nests := by
  rw [names, visitsAll_eq, List.map_flatMap, List.nodup_flatMap] at h
  refine h.2.imp fun {a b} hdisjoint => ?_
  exact List.disjoint_of_subset_left (memberNames_subset a [])
    (List.disjoint_of_subset_right (memberNames_subset b []) hdisjoint)

end Nest

namespace Nester

open Nest

variable {m n : Nat} {k : Kernel m n} {s : Nester m n} {nests : List Nest}

/-- The bodies as they were declared. -/
def declared : Nester m n := ⟨.empty, 0⟩

/-! ## Attaching consistent nests -/

/-- The item is declared, and its nest stands in the nests. -/
structure DeclaredAs (k : Kernel m n) (nests : List Nest) (r : Ref m n) (nest : Nest) : Prop where
  unfolds : declared.Unfolds k r nest
  occurs : Occurs nests nest

/-- The body of each loop is what some loop of the same name declares. -/
def Borrows (s : Nester m n) (k : Kernel m n) (nests : List Nest) : Prop :=
  ∀ l nest, DeclaredAs k nests (.loop l) nest → ∃ e nest', DeclaredAs k nests (.loop e) nest' ∧
    (k.loop e).head.name = (k.loop l).head.name ∧ s.body k l = (k.loop e).members

/-- The finished loop is lowered like every loop of its name. -/
def Finished.Faithful (nests : List Nest) (f : Finished m n) : Prop :=
  ∀ head members, Occurs nests (.loop head members) → head.name = f.name →
    f.nest.lower = lower (.loop head members)

/-- A declared loop, taken apart. -/
theorem DeclaredAs.loop {l : Fin n} {nest : Nest} (h : DeclaredAs k nests (.loop l) nest) :
    ∃ wanted, nest = .loop (k.loop l).head wanted ∧
      List.Forall₂ (DeclaredAs k nests) (k.loop l).members wanted := by
  obtain ⟨hunfolds, hoccurs⟩ := h
  cases hunfolds with
  | loop l pairs hbody hpairs =>
    refine ⟨pairs.map Prod.snd, rfl, ?_⟩
    have hmembers : pairs.map Prod.fst = (k.loop l).members := hbody
    rw [← hmembers, List.forall₂_map_left_iff, List.forall₂_map_right_iff, List.forall₂_same]
    exact fun p hp => ⟨hpairs p hp, hoccurs.member (List.mem_map_of_mem hp)⟩

/-- The nests are lowered to smaller statements than the active loops. -/
def Deeper (nests : List Nest) (active : List String) (wanted : List Nest) : Prop :=
  ∀ x ∈ active, ∀ head members, Occurs nests (.loop head members) → head.name = x →
    ∀ nest ∈ wanted, sizeOf nest.lower < sizeOf (lower (.loop head members))

section Consistent

variable {active : List String} {nest : Nest} {rest members : List Nest} {head : LoopHead}

theorem Deeper.tail (h : Deeper nests active (nest :: rest)) : Deeper nests active rest :=
  fun x hx head members hocc hname child hchild =>
    h x hx head members hocc hname child (List.mem_cons_of_mem _ hchild)

/-- The members of a loop are deeper than the loop. -/
theorem Deeper.inside (hconsistent : Consistent nests) (h : Deeper nests active (nest :: rest))
    (hocc : Occurs nests (.loop head members)) (hnest : nest.lower = lower (.loop head members)) :
    Deeper nests (active ++ [head.name]) members := by
  intro x hx head' members' hocc' hhead child hchild
  have hlt : sizeOf child.lower < sizeOf (lower (.loop head members)) := sizeOf_lower_lt hchild
  rcases List.mem_append.mp hx with hx | hx
  · have := h x hx head' members' hocc' hhead nest List.mem_cons_self
    rw [hnest] at this
    omega
  · rwa [hconsistent head' members' head members hocc' hocc
      (hhead.trans (List.mem_singleton.mp hx))]

theorem Finished.Faithful.of_lower (hconsistent : Consistent nests) {f : Finished m n}
    (hocc : Occurs nests (.loop head members)) (hname : f.name = head.name)
    (hlower : f.nest.lower = lower (.loop head members)) : f.Faithful nests := by
  intro head' members' hocc' hhead
  rw [hlower]
  exact hconsistent _ _ _ _ hocc hocc' (hname.symm.trans hhead.symm)

end Consistent

/-- **Consistent nests are attached as they were declared**, up to lowering. -/
theorem exists_attaches_of_consistent (hconsistent : Consistent nests) (hs : s.Borrows k nests)
    (active : List String) (items : List (Ref m n)) {wanted : List Nest}
    (hitems : List.Forall₂ (DeclaredAs k nests) items wanted) {fin : List (Finished m n)}
    (hfin : ∀ f ∈ fin, f.Faithful nests) (hactive : Deeper nests active wanted) :
    ∃ pairs fin', Attaches s k active items fin pairs fin' ∧
      pairs.map (fun p => p.2.lower) = wanted.map lower ∧ ∀ f ∈ fin', f.Faithful nests := by
  induction active, items using attach.induct s k generalizing fin wanted with
  | case1 active =>
    cases hitems
    exact ⟨[], fin, .nil, rfl, hfin⟩
  | case2 active i items ih =>
    cases hitems with
    | @cons _ nest _ rest hwritten hrest =>
      obtain ⟨pairs, fin', hattaches, hlower, hfin'⟩ := ih hrest hfin hactive.tail
      refine ⟨_, fin', .instruction i hattaches, ?_, hfin'⟩
      cases hwritten.unfolds
      rw [List.map_cons, List.map_cons, hlower]
  | case3 active l items hmem =>
    cases hitems with
    | @cons _ nest _ rest hwritten hrest =>
      obtain ⟨inside, rfl, -⟩ := hwritten.loop
      -- an active loop of this name would be lowered to a larger statement
      exact absurd (hactive _ (List.contains_iff_mem.mp hmem) _ _ hwritten.occurs rfl _
        List.mem_cons_self) (Nat.lt_irrefl _)
  | case4 active l items hmem ih ihbody =>
    have hnotMem : (k.loop l).head.name ∉ active := by simpa using hmem
    cases hitems with
    | @cons _ nest _ rest hwritten hrest =>
      obtain ⟨inside, rfl, -⟩ := hwritten.loop
      cases hseen : finished? fin (k.loop l).head.name with
      | some f =>
        obtain ⟨hf, hname⟩ := finished?_eq_some hseen
        obtain ⟨pairs, fin', hattaches, hlower, hfin'⟩ := ih hrest hfin hactive.tail
        refine ⟨_, fin', .seen hnotMem hseen hattaches, ?_, hfin'⟩
        rw [List.map_cons, List.map_cons, hlower, hfin f hf _ _ hwritten.occurs hname.symm]
      | none =>
        -- the body may be that of another loop, which is lowered to the same statement
        obtain ⟨e, nest', hwritten', hname, hbody⟩ := hs l _ hwritten
        obtain ⟨wanted', rfl, hmembers⟩ := hwritten'.loop
        have hsame := hconsistent _ _ _ _ hwritten.occurs hwritten'.occurs hname.symm
        obtain ⟨members, fin₁, hattaches₁, hlower₁, hfin₁⟩ := ihbody (hbody ▸ hmembers) hfin
          (hname ▸ hactive.inside hconsistent hwritten'.occurs hsame)
        have hfinish : (finish k l members).nest.lower = lower (.loop (k.loop l).head inside) := by
          have hbodies : inside.map lower = wanted'.map lower := by
            rw [lower_loop, lower_loop] at hsame
            exact (lowerLoop_inj hsame).2
          rw [lower_loop, hbodies, ← hlower₁, finish, lower_loop, List.map_map]
          rfl
        have hfin₂ : ∀ f ∈ fin₁ ++ [finish k l members], f.Faithful nests :=
          List.forall_mem_append.mpr ⟨hfin₁, List.forall_mem_singleton.mpr
            (.of_lower hconsistent hwritten.occurs rfl hfinish)⟩
        obtain ⟨pairs, fin', hattaches, hlower, hfin'⟩ := ih hrest hfin₂ hactive.tail
        refine ⟨_, fin', .fresh hnotMem hseen hattaches₁ hattaches, ?_, hfin'⟩
        rw [List.map_cons, List.map_cons, hlower, hfinish]

/-! ## Nests that are lowered like finished loops -/

variable {fin : List (Finished m n)}

mutual

/-- In a nest that is lowered like what was made, each loop is lowered like the finished loop of its
name. -/
theorem Ledger.exists_finished (hfin : Ledger k fin)
    (hplain : ∀ i args, (k.instruction i).body ≠ .form blockTag args) :
    ∀ (nest : Nest) {r : Ref m n} {made : Nest}, Made k fin r made → made.lower = nest.lower →
      ∀ around, ∀ v ∈ visits around nest, ∀ head members, v.node = .loop head members →
        ∃ f ∈ fin, f.name = head.name ∧ f.nest.lower = v.node.lower
  | .instruction i, _, _, _, _ => by
    intro around v hv head members hnode
    rw [visits, List.mem_singleton] at hv
    rw [hv] at hnode
    cases hnode
  | .loop outer inner, _, _, hmade, hlower => by
    intro around v hv head members hnode
    cases hmade with
    | instruction i => exact absurd hlower (hplain i _)
    | @loop f hf =>
      obtain ⟨pairs, -, hnest, hpairs⟩ := (hfin.assembled f hf).nest
      have hloops := hlower
      rw [hnest, lower_loop, lower_loop] at hloops
      obtain ⟨hname, hinner⟩ := lowerLoop_inj hloops
      rw [visits, List.mem_cons] at hv
      rcases hv with rfl | hv
      · cases hnode
        exact ⟨f, hf, (hfin.assembled f hf).name.trans hname, hlower⟩
      · rw [List.map_map] at hinner
        exact hfin.exists_finished_of_mem hplain inner hpairs hinner _ v hv head members hnode

theorem Ledger.exists_finished_of_mem (hfin : Ledger k fin)
    (hplain : ∀ i args, (k.instruction i).body ≠ .form blockTag args) :
    ∀ (wanted : List Nest) {pairs : List (Ref m n × Nest)}, (∀ p ∈ pairs, Made k fin p.1 p.2) →
      pairs.map (fun p => p.2.lower) = wanted.map lower → ∀ around, ∀ v ∈ visitsAll around wanted,
        ∀ head members, v.node = .loop head members →
          ∃ f ∈ fin, f.name = head.name ∧ f.nest.lower = v.node.lower
  | [], _, _, _ => by simp [visitsAll]
  | nest :: wanted, [], _, hlower => by simp at hlower
  | nest :: wanted, p :: pairs, hpairs, hlower => by
    intro around v hv head members hnode
    rw [List.map_cons, List.map_cons, List.cons.injEq] at hlower
    rw [visitsAll, List.mem_append] at hv
    rcases hv with hv | hv
    · exact hfin.exists_finished hplain nest (hpairs p List.mem_cons_self) hlower.1 around v hv head
        members hnode
    · exact hfin.exists_finished_of_mem hplain wanted
        (fun q hq => hpairs q (List.mem_cons_of_mem _ hq)) hlower.2 around v hv head members hnode

end

/-- **Nests that are lowered like finished loops are consistent.** -/
theorem Ledger.consistent (hfin : Ledger k fin)
    (hplain : ∀ i args, (k.instruction i).body ≠ .form blockTag args)
    {pairs : List (Ref m n × Nest)} (hpairs : ∀ p ∈ pairs, Made k fin p.1 p.2)
    (hlower : pairs.map (fun p => p.2.lower) = nests.map lower) : Consistent nests := by
  rintro head members head' members' ⟨v, hv, hnode⟩ ⟨w, hw, hnode'⟩ hname
  obtain ⟨f, hf, hfname, hflower⟩ :=
    hfin.exists_finished_of_mem hplain nests hpairs hlower [] v hv head members hnode
  obtain ⟨g, hg, hgname, hglower⟩ :=
    hfin.exists_finished_of_mem hplain nests hpairs hlower [] w hw head' members' hnode'
  have hfg : f = g := hfin.eq_of_name hf hg (hfname.trans (hname.trans hgname.symm))
  rw [← hnode, ← hnode', ← hflower, ← hglower, hfg]

end Nester
end LoopNest
