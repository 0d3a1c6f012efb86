import LoopNest.Proofs.Schedule.Start

/-!
# What a schedule keeps

Compiling succeeds on kernels whose schedule leaves something out.  This module says exactly what.

An instruction runs at the top only if it depends on nothing, and inside a loop only if it is a
member of one.  So an instruction that mentions no loop and depends on something is in no place at
all, and its statement is missing from the lowered tree (`compile_dropped`).

A loop runs at the top unless it overlaps with another loop, and one that overlaps is expected
inside the other.  A stranded loop overlaps and is in none, and with it goes what only stranded
loops hold (`compile_stranded`).

* `compile_instruction_standsIn_iff`: when an instruction is in the schedule.
* `compile_loop_standsIn_iff`: when a loop is in the schedule.
-/

namespace LoopNest

/-! ## Parts of the lowered tree -/

namespace Expr

/-- The first tree is the second one or a part of it. -/
def PartOf : Expr → Expr → Prop := Relation.ReflTransGen fun a b => a ∈ b.children

theorem PartOf.child {a b c : Expr} (h : a.PartOf b) (hc : b ∈ c.children) : a.PartOf c :=
  Relation.ReflTransGen.tail h hc

end Expr

namespace Nest

theorem lowerEach_eq (nests : List Nest) : lowerEach nests = nests.map lower := by
  induction nests with
  | nil => rfl
  | cons nest nests ih => rw [lowerEach, ih, List.map_cons]

/-- What is part of a loop's body is part of the lowered loop. -/
theorem partOf_lowerLoop {e statement : Expr} (head : LoopHead) {body : List Expr}
    (hstatement : statement ∈ body) (h : e.PartOf statement) : e.PartOf (lowerLoop head body) := by
  have hbody : e.PartOf (.form blockTag (body ++ [head.step])) :=
    h.child (List.mem_append_left _ hstatement)
  have hwhile : e.PartOf (.form whileTag
      [.call "<=" [.name head.name, head.upper], .form blockTag (body ++ [head.step])]) :=
    hbody.child (by simp [Expr.children])
  exact hwhile.child (by simp [lowerLoop, Expr.children])

mutual

/-- What stands in a nest is lowered to a part of the lowered nest. -/
theorem partOf_lower {around : List LoopHead} {v : Visit} :
    ∀ nest : Nest, v ∈ nest.visits around → v.node.lower.PartOf nest.lower
  | .instruction i => by
    intro hv
    rw [visits, List.mem_singleton] at hv
    subst hv
    exact .refl
  | .loop head members => by
    intro hv
    rw [visits, List.mem_cons] at hv
    rcases hv with rfl | hv
    · exact .refl
    · obtain ⟨child, hchild, hpart⟩ := partOf_lowerEach members hv
      rw [lower, lowerEach_eq]
      exact partOf_lowerLoop head (List.mem_map_of_mem hchild) hpart

theorem partOf_lowerEach {around : List LoopHead} {v : Visit} :
    ∀ nests : List Nest, v ∈ visitsAll around nests →
      ∃ nest ∈ nests, v.node.lower.PartOf nest.lower
  | [] => by simp [visitsAll]
  | nest :: nests => by
    intro hv
    rw [visitsAll, List.mem_append] at hv
    rcases hv with hv | hv
    · exact ⟨nest, List.mem_cons_self, partOf_lower nest hv⟩
    · obtain ⟨child, hchild, hpart⟩ := partOf_lowerEach nests hv
      exact ⟨child, List.mem_cons_of_mem _ hchild, hpart⟩

end

theorem partOf_lowerAll {nests : List Nest} {v : Visit} (hv : v ∈ visitsAll [] nests) :
    v.node.lower.PartOf (lowerAll nests) := by
  obtain ⟨nest, hnest, hpart⟩ := partOf_lowerEach nests hv
  refine hpart.child ?_
  show nest.lower ∈ lowerEach nests
  rw [lowerEach_eq]
  exact List.mem_map_of_mem hnest

end Nest

variable {m n : Nat}

/-- Where an instruction stands, its statement is part of the lowered tree. -/
theorem Kernel.StandsIn.partOf {k : Kernel m n} {nests : List Nest} {i : Fin m}
    (h : k.StandsIn nests (.instruction i)) :
    (k.instruction i).body.PartOf (Nest.lowerAll nests) := by
  obtain ⟨⟨around, node⟩, hv, hface⟩ := h
  cases node with
  | instruction j =>
    have hj : j = k.instruction i := Sum.inl.inj hface
    rw [← hj]
    exact Nest.partOf_lowerAll hv
  | loop head members => cases hface

theorem Kernel.StandsIn.name_mem {k : Kernel m n} {nests : List Nest} {r : Ref m n}
    (h : k.StandsIn nests r) : k.name r ∈ Nest.names nests := by
  obtain ⟨v, hv, hface⟩ := h
  have hname : v.node.name = k.name r := by
    rw [← Nest.faceName_face, hface, Kernel.faceName_face]
  rw [← hname]
  exact List.mem_map_of_mem (f := fun v => v.node.name) hv

namespace Nesting

open Kernel Nester

variable {k : Kernel m n} {N : Nesting m n}

/-- A loop stands in the schedule if a loop with the same head was finished. -/
theorem Steps.standsIn_loop_iff_finished (hN : N.Steps k) {l : Fin n} :
    k.StandsIn (N.made.map Prod.snd) (.loop l) ↔
      ∃ f ∈ N.finished, (k.loop f.loop).head = (k.loop l).head := by
  rw [hN.standsIn_iff_places]
  constructor
  · rintro ⟨t, ht, hface⟩
    obtain ⟨nest, hmade⟩ := hN.made_of_mem_places ht
    cases hmade with
    | instruction i => cases hface
    | loop hf => exact ⟨_, hf, Sum.inr.inj hface⟩
  · rintro ⟨f, hf, hhead⟩
    exact ⟨.loop f.loop, hN.contains_iff_mem_places.mp (hN.contains_finished hf),
      congrArg Sum.inr hhead⟩

/-- An instruction stands in the schedule if the same instruction is at the top or in a finished
loop. -/
theorem Steps.standsIn_instruction_iff_places (hN : N.Steps k) {i : Fin m} :
    k.StandsIn (N.made.map Prod.snd) (.instruction i) ↔
      ∃ j, .instruction j ∈ N.places ∧ k.instruction j = k.instruction i := by
  rw [hN.standsIn_iff_places]
  constructor
  · rintro ⟨t, ht, hface⟩
    cases t with
    | instruction j => exact ⟨j, ht, Sum.inl.inj hface⟩
    | loop l => cases hface
  · rintro ⟨j, hj, heq⟩
    exact ⟨.instruction j, hj, congrArg Sum.inl heq⟩

/-- In a flat kernel an instruction is inside the loops that it mentions, and inside no other. -/
theorem Steps.contains_instruction_iff_of_flat (hk : k.Flat) (hN : N.Steps k) {i : Fin m}
    {e : Fin n} (hi : i ∈ k.instructions) (he : e ∈ k.loops) :
    N.start.Contains k (.loop e) (.instruction i) ↔ k.mentions i e = true := by
  constructor
  · intro h
    rcases h.cases_head with heq | ⟨t, ⟨l, hl, ht⟩, hrest⟩
    · cases heq
    · cases hl
      rw [hN.start_body_of_flat hk he] at ht
      obtain ⟨j, -, rfl, hmentions⟩ := mem_mentioners_iff.mp ht
      -- an instruction contains itself only
      rcases hrest.cases_head with heq | ⟨u, ⟨l, hl, -⟩, -⟩
      · cases heq
        exact hmentions
      · cases hl
  · intro hmentions
    refine .of_mem ?_
    rw [hN.start_body_of_flat hk he]
    exact mem_mentioners_iff.mpr ⟨i, hi, rfl, hmentions⟩

end Nesting

open Kernel

/-- **When an instruction is in the schedule**, and its statement in the lowered tree: if it is at
the top or in a loop that was finished.  In a kernel with different names all over, these are the
instructions without dependencies and what is inside a loop that is not stranded.  In a flat kernel
they are the instructions that have no dependencies or mention a loop. -/
theorem compile_instruction_standsIn_iff {k k' : Kernel m n} {c : Compilation}
    (h : (Kernel.compile false).run k = .ok c k') :
    ∃ N, k.nesting = .ok N ∧ ∀ i ∈ k.instructions,
      (k.StandsIn c.nests (.instruction i) → (k.instruction i).body.PartOf c.tree) ∧
      (k.StandsIn c.nests (.instruction i) ↔
        ∃ j, .instruction j ∈ N.places ∧ k.instruction j = k.instruction i) ∧
      (k.Distinct → k.Separate → (k.StandsIn c.nests (.instruction i) ↔
        k.needs N.layer (.instruction i) = [] ∨
          ∃ e ∈ k.loops, ¬ N.start.Stranded k N.order e ∧
            N.start.Contains k (.loop e) (.instruction i))) ∧
      (k.Flat → (k.StandsIn c.nests (.instruction i) ↔
        k.needs N.layer (.instruction i) = [] ∨ ∃ l ∈ k.loops, k.mentions i l = true)) := by
  obtain ⟨N, hnesting, hN, hnests, htree⟩ := nesting_of_compile h
  refine ⟨N, hnesting, fun i hi => ?_⟩
  have hreachable : .instruction i ∈ k.reachable :=
    mem_reachable_of_mem_items (instruction_mem_items.mpr hi)
  have hseparate : k.Distinct → k.Separate → (k.StandsIn c.nests (.instruction i) ↔
      k.needs N.layer (.instruction i) = [] ∨ ∃ e ∈ k.loops, ¬ N.start.Stranded k N.order e ∧
        N.start.Contains k (.loop e) (.instruction i)) := by
    intro hk hsep
    rw [hnests, hN.standsIn_iff hk hsep hreachable]
    refine or_congr_left ⟨?_, fun hneeds => ⟨i, hi, rfl, hneeds⟩⟩
    rintro ⟨j, -, -, hneeds⟩
    exact hneeds
  refine ⟨fun hstands => htree ▸ hstands.partOf, ?_, hseparate, fun hflat => ?_⟩
  · rw [hnests]
    exact hN.standsIn_instruction_iff_places
  · rw [hseparate hflat.distinct hflat.separate]
    refine or_congr_right (exists_congr fun e => and_congr_right fun he => ?_)
    rw [hN.contains_instruction_iff_of_flat hflat hi he, and_iff_right
      (hN.not_stranded hflat.distinct hflat.separate hflat.innerFirst he)]

/-- Two nested loops, an instruction that prepares them, and one that reports on them without
mentioning any of the two. -/
def reported : Kernel 4 2 where
  instructionTable := #v[
    ⟨"prepare", .assign (.name "s") (.literal (.int 0)), []⟩,
    ⟨"fill", .assign (.form "ref" [.name "v", .name "i"]) (.name "i"), ["prepare"]⟩,
    ⟨"add", .form "+=" [.name "s", .form "ref" [.name "a", .name "i", .name "j"]], []⟩,
    ⟨"report", .assign (.name "r") (.name "s"), ["add"]⟩]
  loopTable := #v[Nester.digits "i", Nester.digits "j"]
  instructions := List.finRange 4
  loops := List.finRange 2

/-- The instructions that are free or mention a loop are kept, the report is not. -/
theorem compile_reported :
    ∃ c, (Kernel.compile false).run reported = .ok c reported ∧
      reported.StandsIn c.nests (.instruction 0) ∧ reported.StandsIn c.nests (.instruction 1) ∧
      reported.StandsIn c.nests (.instruction 2) ∧ ¬ reported.StandsIn c.nests (.instruction 3) ∧
      (reported.instruction 2).body.PartOf c.tree := by
  obtain ⟨c, hc⟩ : ∃ c, (Kernel.compile false).run reported = .ok c reported := ⟨_, by cbv⟩
  obtain ⟨N, hN, hkept⟩ := compile_instruction_standsIn_iff hc
  have hprepare : reported.needs N.layer (.instruction 0) = [] :=
    eq_of_nesting (fun N => reported.needs N.layer (.instruction 0)) hN (by cbv)
  have hreport : reported.needs N.layer (.instruction 3) = ["add"] :=
    eq_of_nesting (fun N => reported.needs N.layer (.instruction 3)) hN (by cbv)
  have hflat : reported.Flat := ⟨by rw [Distinct]; decide, by decide, by decide⟩
  have hstands := fun i hi => (hkept i hi).2.2.2 hflat
  have hadd : reported.StandsIn c.nests (.instruction 2) :=
    (hstands 2 (by decide)).mpr (.inr ⟨1, by decide, by decide⟩)
  refine ⟨c, hc, (hstands 0 (by decide)).mpr (.inl hprepare),
    (hstands 1 (by decide)).mpr (.inr ⟨0, by decide, by decide⟩), hadd, ?_,
    (hkept 2 (by decide)).1 hadd⟩
  rw [hstands 3 (by decide), hreport]
  decide

/-- An assignment and a call of what it wrote, without loops. -/
def dropped : Kernel 2 0 where
  instructionTable := #v[
    ⟨"a", .assign (.name "y") (.literal (.int 1)), []⟩, ⟨"b", .call "g" [.name "y"], []⟩]
  loopTable := #v[]
  instructions := List.finRange 2
  loops := []

/-- The call depends on the assignment, and is in no place of the schedule. -/
theorem compile_dropped :
    ∃ c, (Kernel.compile false).run dropped = .ok c dropped ∧ Nest.names c.nests = ["a"] ∧
      ¬ dropped.StandsIn c.nests (.instruction 1) ∧
      c.tree = .form blockTag [.assign (.name "y") (.literal (.int 1))] := by
  obtain ⟨c, hc, hnames, htree⟩ : ∃ c, (Kernel.compile false).run dropped = .ok c dropped ∧
      Nest.names c.nests = ["a"] ∧
      c.tree = .form blockTag [.assign (.name "y") (.literal (.int 1))] :=
    ⟨_, by cbv, by cbv, by cbv⟩
  refine ⟨c, hc, hnames, fun hstands => ?_, htree⟩
  have hmem := hstands.name_mem
  rw [hnames] at hmem
  revert hmem
  decide

/-- **When a loop is in the schedule**: if a loop with its head was finished.  In a kernel with
different names all over, these are the loops that are inside one that is not stranded; and where
loops hold only loops that were declared before them, all loops are. -/
theorem compile_loop_standsIn_iff {k k' : Kernel m n} {c : Compilation}
    (h : (Kernel.compile false).run k = .ok c k') :
    ∃ N, k.nesting = .ok N ∧ ∀ l ∈ k.loops,
      (k.StandsIn c.nests (.loop l) ↔
        ∃ f ∈ N.finished, (k.loop f.loop).head = (k.loop l).head) ∧
      (k.Distinct → k.Separate → (k.StandsIn c.nests (.loop l) ↔
        ∃ e ∈ k.loops, ¬ N.start.Stranded k N.order e ∧ N.start.Contains k (.loop e) (.loop l))) ∧
      (k.Distinct → k.Separate → k.InnerFirst → k.StandsIn c.nests (.loop l)) := by
  obtain ⟨N, hnesting, hN, hnests, -⟩ := nesting_of_compile h
  refine ⟨N, hnesting, fun l hl => ?_⟩
  have hreachable : .loop l ∈ k.reachable := mem_reachable_of_mem_items (loop_mem_items.mpr hl)
  have hseparate : k.Distinct → k.Separate → (k.StandsIn c.nests (.loop l) ↔
      ∃ e ∈ k.loops, ¬ N.start.Stranded k N.order e ∧
        N.start.Contains k (.loop e) (.loop l)) := by
    intro hk hsep
    rw [hnests, hN.standsIn_iff hk hsep hreachable]
    refine or_iff_right ?_
    rintro ⟨i, -, heq, -⟩
    cases heq
  refine ⟨?_, hseparate, fun hk hsep hinner => ?_⟩
  · rw [hnests]
    exact hN.standsIn_loop_iff_finished
  · exact (hseparate hk hsep).mpr ⟨l, hl, hN.not_stranded hk hsep hinner hl, .refl⟩

/-- A loop with another one and an instruction declared inside it, and a loop that has the first one
as a member. -/
def sheltered : Kernel 2 3 where
  instructionTable := #v[
    ⟨"x", .assign (.name "x") (.name "i"), []⟩, ⟨"y", .assign (.name "y") (.name "t"), []⟩]
  loopTable := #v[
    ⟨⟨"i", .literal (.int 0), .literal (.int 9), defaultStep "i", []⟩, [.loop (row 2)]⟩,
    ⟨⟨"j", .literal (.int 0), .literal (.int 9), defaultStep "j", []⟩, [.loop (row 0)]⟩,
    ⟨⟨"t", .literal (.int 0), .name "i", defaultStep "t", []⟩, [.instruction (row 1)]⟩]
  instructions := [row 0]
  loops := [row 0, row 1]

/-- Both loops of the kernel are kept. -/
theorem compile_sheltered :
    ∃ c, (Kernel.compile false).run sheltered = .ok c sheltered ∧
      sheltered.StandsIn c.nests (.loop 0) ∧ sheltered.StandsIn c.nests (.loop 1) := by
  obtain ⟨c, hc⟩ : ∃ c, (Kernel.compile false).run sheltered = .ok c sheltered := ⟨_, by cbv⟩
  obtain ⟨N, -, hkept⟩ := compile_loop_standsIn_iff hc
  have hdistinct : sheltered.Distinct := by rw [Distinct]; decide
  have hreachable : sheltered.reachable
      = [.instruction 0, .loop 0, .loop 2, .instruction 1, .loop 1] := by cbv
  have hseparate : sheltered.Separate := by rw [Separate, hreachable]; decide
  have hinner : sheltered.InnerFirst := by rw [InnerFirst]; decide
  exact ⟨c, hc, (hkept 0 (by decide)).2.2 hdistinct hseparate hinner,
    (hkept 1 (by decide)).2.2 hdistinct hseparate hinner⟩

/-- Three loops, of which the second runs up to the third, and an instruction that mentions the
first and the third. -/
def stranded : Kernel 1 3 where
  instructionTable := #v[⟨"x", .assign (.name "x") (.call "+" [.name "i", .name "k"]), []⟩]
  loopTable := #v[Nester.digits "i",
    ⟨⟨"j", .literal (.int 0), .name "k", defaultStep "j", []⟩, []⟩, Nester.digits "k"]
  instructions := List.finRange 1
  loops := List.finRange 3

/-- The first loop takes the third, then the second shares it with the first and is lost. -/
theorem compile_stranded :
    ∃ c, (Kernel.compile false).run stranded = .ok c stranded ∧
      Nest.names c.nests = ["i", "k", "x"] ∧ ¬ stranded.StandsIn c.nests (.loop 1) := by
  obtain ⟨c, hc, hnames⟩ : ∃ c, (Kernel.compile false).run stranded = .ok c stranded ∧
      Nest.names c.nests = ["i", "k", "x"] := ⟨_, by cbv, by cbv⟩
  refine ⟨c, hc, hnames, fun hstands => ?_⟩
  have hmem := hstands.name_mem
  rw [hnames] at hmem
  revert hmem
  decide

end LoopNest
