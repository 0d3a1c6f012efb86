import LoopNest.Proofs.Program.Grid
import LoopNest.Proofs.Schedule.InPlace
import LoopNest.Proofs.Schedule.Nesting

/-!
# Grids

A kernel whose only instruction mentions all of its loops is nested into one chain: each loop around
the next one, and the last one around the instruction.  If the loops go through axes and the
instruction is a call with their variables, then the lowered tree calls the function for each tuple
of the grid.

* `Kernel.Single`: one instruction that mentions all loops.
* `Kernel.Single.compile`: such a kernel is compiled to nested loops.
* `compile_grid`: the compiled loops go through the grid.
-/

namespace LoopNest

variable {m n : Nat}

namespace Kernel

/-- The kernel has one instruction, which declares no dependencies and mentions all loops. -/
structure Single (k : Kernel m n) (i : Fin m) : Prop where
  hierarchical : k.Hierarchical
  only : k.instructions = [i]
  free : (k.instruction i).deps = []
  mentions : ∀ l ∈ k.loops, k.mentions i l = true

namespace Single

variable {k : Kernel m n} {i : Fin m} {layer : Layer m n}

theorem mem_items_iff (hk : k.Single i) {r : Ref m n} :
    r ∈ k.items ↔ r = .instruction i ∨ ∃ l ∈ k.loops, r = .loop l := by
  cases r with
  | instruction j => simp [instruction_mem_items, hk.only]
  | loop l => simp [loop_mem_items]

/-! ## The chains -/

theorem chain_instruction (hk : k.Single i) : k.chain (.instruction i) = k.loops :=
  List.filter_eq_self.mpr hk.mentions

/-- Around a loop stand the loops before it. -/
theorem chain_loop (hk : k.Single i) {before after : List (Fin n)} {l : Fin n}
    (h : k.loops = before ++ l :: after) : k.chain (.loop l) = before := by
  have hitem : Ref.instruction i ∈ k.items := hk.mem_items_iff.mpr (.inl rfl)
  exact (hk.hierarchical.chain_coherent hitem (hk.chain_instruction.trans h)).2

/-- What stands directly inside some loops, if the given loops are left: the first of them, or else
the instruction. -/
def next (i : Fin m) : List (Fin n) → Ref m n
  | [] => .instruction i
  | l :: _ => .loop l

/-- The next item is the only one with just the loops before it around it. -/
theorem chain_eq_iff (hk : k.Single i) {before after : List (Fin n)} (h : k.loops = before ++ after)
    {r : Ref m n} : r ∈ k.items ∧ k.chain r = before ↔ r = next i after := by
  constructor
  · rintro ⟨hr, hchain⟩
    rcases hk.mem_items_iff.mp hr with rfl | ⟨l, hl, rfl⟩
    · rw [hk.chain_instruction, h, List.append_right_eq_self] at hchain
      rw [hchain, next]
    · obtain ⟨pre, post, hsplit⟩ := List.append_of_mem hl
      rw [hk.chain_loop hsplit] at hchain
      rw [hchain, h, List.append_cancel_left_eq] at hsplit
      rw [hsplit, next]
  · rintro rfl
    cases after with
    | nil =>
      rw [List.append_nil] at h
      exact ⟨hk.mem_items_iff.mpr (.inl rfl), hk.chain_instruction.trans h⟩
    | cons l after =>
      have hl : l ∈ k.loops := by rw [h]; simp
      exact ⟨loop_mem_items.mpr hl, hk.chain_loop h⟩

/-! ## The order -/

/-- The instruction needs nothing but the loops. -/
theorem needs_instruction (hk : k.Single i) (hlayer : Layer.analyze k = .ok layer) :
    k.needs layer (.instruction i) = k.loops.map fun l => (k.loop l).head.name := by
  have hi : i ∈ k.instructions := by rw [hk.only]; exact List.mem_cons_self
  have hfind := Layer.deps_infer_instruction hk.hierarchical.distinct hlayer hi
  have horder : Layer.orderDeps k [] k.instructions (k.instruction i).name = [] := by
    simp [hk.only, Layer.orderDeps, under]
  have hneeds : k.needs layer (.instruction i) = _ := congrArg (Option.getD · []) hfind
  rw [hneeds, Option.getD_some, hk.free, horder, List.filter_eq_self.mpr hk.mentions]
  rfl

/-- The items can be put in order. -/
theorem exists_build (hk : k.Single i) (hlayer : Layer.analyze k = .ok layer) :
    ∃ g, Graph.build k layer = .ok g := by
  obtain ⟨placed, stuck, hplacement, -, hbuild⟩ :=
    Graph.build_placement (Layer.analyze_eq_ok hlayer).2.deps
  have hmem : ∀ r ∈ k.items, r ∈ placed ∨ r ∈ stuck := fun r hr =>
    List.mem_append.mp (hplacement.perm.mem_iff.mpr hr)
  -- a loop waits for nothing, so all loops are placed
  have hloops : ∀ l ∈ k.loops, Ref.loop l ∈ placed := by
    intro l hl
    refine (hmem _ (loop_mem_items.mpr hl)).resolve_right fun hstuck => ?_
    obtain ⟨d, hd, -⟩ := hplacement.blocked _ hstuck
    rw [needs, show k.name (.loop l) = (k.loop l).head.name from rfl,
      Nester.deps_loop hk.hierarchical hlayer hl] at hd
    exact absurd hd List.not_mem_nil
  have hinstruction : Ref.instruction i ∉ stuck := by
    intro hstuck
    obtain ⟨d, hd, hfree⟩ := hplacement.blocked _ hstuck
    rw [hk.needs_instruction hlayer] at hd
    obtain ⟨l, hl, rfl⟩ := List.mem_map.mp hd
    exact hfree (List.mem_map.mpr ⟨.loop l, hloops l hl, rfl⟩)
  have hstuck : stuck = [] := by
    rw [List.eq_nil_iff_forall_not_mem]
    intro r hr
    have hnodup : (placed ++ stuck).Nodup :=
      hplacement.perm.nodup_iff.mpr (List.Nodup.of_map _ hk.hierarchical.distinct)
    rcases hk.mem_items_iff.mp (hplacement.sublist.subset hr) with rfl | ⟨l, hl, rfl⟩
    · exact hinstruction hr
    · exact (List.nodup_append.mp hnodup).2.2 _ (hloops l hl) _ hr rfl
  rw [hstuck] at hbuild
  exact ⟨_, hbuild⟩

/-! ## The nest -/

theorem eq_singleton_of_nodup {α : Type} {l : List α} {a : α} (hl : l.Nodup)
    (hmem : ∀ b, b ∈ l ↔ b = a) : l = [a] := by
  refine List.perm_singleton.mp ((List.perm_ext_iff_of_nodup hl (List.nodup_singleton a)).mpr ?_)
  simpa using hmem

/-- At the top stands the first loop, or the instruction if there is none. -/
theorem roots_eq (hk : k.Single i) (hlayer : Layer.analyze k = .ok layer) :
    Nester.roots k layer = [next i k.loops] := by
  have houtermost : ∀ r, r ∈ k.items ∧ k.chain r = [] ↔ r = next i k.loops :=
    fun r => hk.chain_eq_iff (List.nil_append k.loops).symm
  refine eq_singleton_of_nodup (Nester.nodup_roots hk.hierarchical.distinct) fun r => ?_
  constructor
  · intro hr
    exact (houtermost r).mp (Nester.root_of_mem hk.hierarchical hlayer hr)
  · intro hr
    obtain ⟨hitem, hchain⟩ := (houtermost r).mpr hr
    rcases hk.mem_items_iff.mp hitem with rfl | ⟨l, hl, rfl⟩
    · have hneeds := hk.needs_instruction hlayer
      rw [← hk.chain_instruction, hchain] at hneeds
      refine List.mem_append_left _ (List.mem_map_of_mem (List.mem_filter.mpr ⟨?_, ?_⟩))
      · rw [hk.only]
        exact List.mem_cons_self
      · rw [hneeds]
        rfl
    · exact Nester.loop_mem_roots hl hchain

/-- In a loop stands the next one, or the instruction in the last. -/
theorem body_eq (hk : k.Single i) {s : Nester m n}
    (hs : ∀ l ∈ k.loops, k.Nested l (k.behind l) (s.body k l)) {before after : List (Fin n)}
    {l : Fin n} (h : k.loops = before ++ l :: after) : s.body k l = [next i after] := by
  have hl : l ∈ k.loops := by rw [h]; simp
  have hsplit : k.loops = (before ++ [l]) ++ after := by rw [h, List.append_cons]
  refine eq_singleton_of_nodup (hs l hl).nodup fun r => ?_
  rw [(hs l hl).mem, hk.hierarchical.belongs_behind_iff hl, hk.chain_loop h, hk.chain_eq_iff hsplit]

/-- The next item unfolds to the instruction inside the loops that are left. -/
theorem lower_of_unfolds (hk : k.Single i) {s : Nester m n}
    (hs : ∀ l ∈ k.loops, k.Nested l (k.behind l) (s.body k l)) {before after : List (Fin n)}
    (h : k.loops = before ++ after) {nest : Nest} (hnest : s.Unfolds k (next i after) nest) :
    nest.lower = (after.map fun l => (k.loop l).head).foldr
      (fun head inner => Nest.lowerLoop head [inner]) (k.instruction i).body := by
  induction after generalizing before nest with
  | nil =>
    cases hnest
    rfl
  | cons l after ih =>
    cases hnest with
    | loop l members hbody hmembers =>
      rw [hk.body_eq hs h, List.map_eq_singleton_iff] at hbody
      obtain ⟨⟨r, inner⟩, rfl, rfl⟩ := hbody
      have hinner := ih (h.trans (List.append_cons before l after)) (hmembers _ List.mem_cons_self)
      exact congrArg (fun body => Nest.lowerLoop (k.loop l).head [body]) hinner

/-- **A kernel with a single instruction** that mentions all loops is compiled to the instruction
inside the loops, the first one outermost. -/
theorem compile (hk : k.Single i) (inPlace : Bool) :
    ∃ c k', (Kernel.compile inPlace).run k = .ok c k' ∧
      c.tree = .form blockTag [(k.loops.map fun l => (k.loop l).head).foldr
        (fun head inner => Nest.lowerLoop head [inner]) (k.instruction i).body] := by
  have hok : k.malformed? = none := by
    rw [malformed?, hk.only]
    rfl
  obtain ⟨layer, hlayer⟩ := Layer.exists_analyze_eq_ok hok
  obtain ⟨g, hg⟩ := hk.exists_build hlayer
  obtain ⟨start, s, hstart, hnest, hs⟩ := Nester.nest_hierarchical hk.hierarchical hlayer hg
  have harrange : k.arrange layer = .ok ⟨g.drain.1, start, Nester.roots k layer, s⟩ :=
    arrange_eq_ok_iff.mpr ⟨⟨g, hg, rfl⟩, hstart, hnest⟩
  obtain ⟨pairs, fin, hattach, hfst, hunfolds⟩ := Nester.attach_finished hk.hierarchical hs
    fun l hl => loop_mem_items.mp (Nester.root_of_mem hk.hierarchical hlayer hl).1
  rw [hk.roots_eq hlayer, List.map_eq_singleton_iff] at hfst
  obtain ⟨⟨r, nest⟩, rfl, rfl⟩ := hfst
  have hlower := hk.lower_of_unfolds hs (List.nil_append k.loops).symm
    (hunfolds _ List.mem_cons_self)
  have hpure : k.scheduled layer false
      = .ok ⟨k.parameters, [nest], .form blockTag [nest.lower]⟩ k := by
    rw [scheduled, harrange]
    simp only
    rw [hattach.run]
    rfl
  cases inPlace with
  | false =>
    refine ⟨_, _, (run_compile_false hlayer).trans hpure, ?_⟩
    rw [hlower]
  | true =>
    obtain ⟨k', hcommit, hwritten⟩ := Layer.run_commit (Layer.analyze_eq_ok hlayer).2
    have hboth := hwritten.scheduled hk.hierarchical.distinct hlayer
    rw [hpure] at hboth
    generalize hchanged : k'.scheduled layer true = changed at hboth
    cases hboth with
    | ok hsame _ =>
      refine ⟨_, _, (run_compile_true hlayer hcommit).trans hchanged, ?_⟩
      rw [hsame.tree, hlower]

end Single

/-! ## Grids -/

/-- The kernel calls a function with the variables of its loops, which go through the axes. -/
structure IsGrid (k : Kernel m n) (t f : String) (axes : List Axis) : Prop where
  instruction : k.instructions.map k.instruction
    = [⟨t, .call f ((axes.map Axis.name).map .name), []⟩]
  loops : k.loops.map k.loop = axes.map fun a => ⟨a.head, []⟩

namespace IsGrid

variable {k : Kernel m n} {t f : String} {axes : List Axis}

theorem head_eq (hk : k.IsGrid t f axes) :
    (k.loops.map fun l => (k.loop l).head) = axes.map Axis.head := by
  have hheads := congrArg (List.map Loop.head) hk.loops
  rwa [List.map_map, List.map_map] at hheads

theorem name_eq (hk : k.IsGrid t f axes) :
    (k.loops.map fun l => (k.loop l).head.name) = axes.map Axis.name := by
  have hnames := congrArg (List.map LoopHead.name) hk.head_eq
  rwa [List.map_map, List.map_map] at hnames

theorem nodup_names (hk : k.IsGrid t f axes) (hdistinct : k.Distinct) :
    (axes.map Axis.name).Nodup := by
  rw [← hk.name_eq]
  exact hdistinct.loops

theorem exists_axis (hk : k.IsGrid t f axes) {l : Fin n} (hl : l ∈ k.loops) :
    ∃ a ∈ axes, k.loop l = ⟨a.head, []⟩ := by
  have hmem : k.loop l ∈ k.loops.map k.loop := List.mem_map_of_mem hl
  rw [hk.loops] at hmem
  obtain ⟨a, ha, heq⟩ := List.mem_map.mp hmem
  exact ⟨a, ha, heq.symm⟩

/-- The loop over an axis mentions the variable of that axis only. -/
theorem mentions_head (a : Axis) (x : String) : a.head.mentions x = (a.name == x) := by
  simp [Axis.head, LoopHead.mentions, Expr.occurs, Expr.occursAny]

/-- A call mentions what it is called with. -/
theorem occursAny_names {names : List String} {x : String} (hx : x ∈ names) :
    Expr.occursAny x (names.map .name) = true := by
  induction names with
  | nil => cases hx
  | cons y names ih =>
    rw [List.map_cons, Expr.occursAny, Bool.or_eq_true]
    rcases List.mem_cons.mp hx with rfl | hx
    · exact .inl (by simp [Expr.occurs])
    · exact .inr (ih hx)

/-- The only instruction mentions all loops. -/
theorem single (hk : k.IsGrid t f axes) (hdistinct : k.Distinct) :
    ∃ i, k.Single i ∧ k.instruction i = ⟨t, .call f ((axes.map Axis.name).map .name), []⟩ := by
  obtain ⟨i, honly, hi⟩ := List.map_eq_singleton_iff.mp hk.instruction
  have hmentions : ∀ l ∈ k.loops, k.mentions i l = true := by
    intro l hl
    have hname : (k.loop l).head.name ∈ axes.map Axis.name := by
      rw [← hk.name_eq]
      exact List.mem_map_of_mem hl
    rw [Kernel.mentions, hi, Expr.occurs, occursAny_names hname, Bool.or_true]
  refine ⟨i, ⟨⟨hdistinct, ?_, ?_, ?_⟩, honly, by rw [hi], hmentions⟩, hi⟩
  · intro l hl
    obtain ⟨a, -, hloop⟩ := hk.exists_axis hl
    rw [hloop]
    exact ⟨rfl, rfl⟩
  · refine (List.pairwise_map.mp hdistinct.loops).imp_of_mem fun {d e} hd _ hne => ?_
    obtain ⟨a, -, hloop⟩ := hk.exists_axis hd
    rw [hloop] at hne ⊢
    rw [mentions_head]
    exact beq_false_of_ne hne
  · -- the only instruction mentions the earlier loop in any case
    refine List.Pairwise.imp_of_mem (fun {d e} hd _ _ => .inr fun j hj _ => ?_)
      (List.pairwise_of_forall (R := fun _ _ => True) fun _ _ => trivial)
    rw [honly, List.mem_singleton] at hj
    rw [hj]
    exact hmentions d hd

/-- The kernel is compiled to the call inside the loops over the axes. -/
theorem compile (hk : k.IsGrid t f axes) (hdistinct : k.Distinct) (inPlace : Bool) :
    ∃ c k', (Kernel.compile inPlace).run k = .ok c k' ∧
      c.tree = .form blockTag [Axis.around axes (.call f ((axes.map Axis.name).map .name))] := by
  obtain ⟨i, hsingle, hi⟩ := hk.single hdistinct
  obtain ⟨c, k', hrun, htree⟩ := hsingle.compile inPlace
  rw [hk.head_eq, List.foldr_map, hi] at htree
  exact ⟨c, k', hrun, htree⟩

end IsGrid
end Kernel

/-- **The grid law.**  A kernel that calls a function with the variables of its loops is compiled,
in place or not, to a tree that calls the function with each tuple of the grid once, in
lexicographic order, and with nothing else.  The evaluator makes the same calls where its limit is
not reached. -/
theorem compile_grid {k : Kernel m n} {t f : String} {axes : List Axis} (hk : k.IsGrid t f axes)
    (hdistinct : k.Distinct) (inPlace : Bool) :
    ∃ c k', (Kernel.compile inPlace).run k = .ok c k' ∧
      (∀ σ, ∃ σ', Runs σ c.tree (Axis.rounds axes) ((Axis.tuples axes).map (Call.mk f)) σ') ∧
      (∀ σ rounds log σ', Runs σ c.tree rounds log σ' → log = (Axis.tuples axes).map (Call.mk f)) ∧
      (∀ vs, vs ∈ Axis.tuples axes ↔ List.Forall₂ Axis.Meets axes vs) ∧
      (Axis.tuples axes).Pairwise (· < ·) ∧
      ∀ scope entry, ∀ w : World, (∀ a ∈ axes, scope.Assignable a.name) →
        (∀ vs ∈ Axis.tuples axes, scope.Records entry ⟨f, vs⟩) → Axis.rounds axes < scope.limit →
        ∃ w', (c.tree.execute scope).run w = .ok () w' ∧ w'.memory = w.memory ∧
          w'.log = w.log ++ (Axis.tuples axes).map fun vs => entry ⟨f, vs⟩ := by
  obtain ⟨c, k', hrun, htree⟩ := hk.compile hdistinct inPlace
  have hruns : ∀ σ, ∃ σ', Runs σ c.tree (Axis.rounds axes)
      ((Axis.tuples axes).map (Call.mk f)) σ' := by
    rw [htree]
    exact Axis.runs_grid f (hk.nodup_names hdistinct)
  refine ⟨c, k', hrun, hruns, ?_, fun vs => Axis.mem_tuples_iff, Axis.pairwise_tuples axes, ?_⟩
  · intro σ rounds log σ' h
    obtain ⟨σ₁, h₁⟩ := hruns σ
    exact (h.unique h₁).2.1
  · intro scope entry w hassignable hrecords hlimit
    obtain ⟨σ', h⟩ := hruns fun _ => none
    have hassigned : ∀ x ∈ c.tree.assigned, scope.Assignable x := by
      intro x hx
      rw [htree, Axis.mem_assigned_grid] at hx
      obtain ⟨a, ha, rfl⟩ := List.mem_map.mp hx
      exact hassignable a ha
    have hlog : ∀ call ∈ (Axis.tuples axes).map (Call.mk f), scope.Records entry call := by
      intro call hcall
      obtain ⟨vs, hvs, rfl⟩ := List.mem_map.mp hcall
      exact hrecords vs hvs
    have hempty : w.Holds scope fun _ => none := fun x z hx => by cases hx
    obtain ⟨w', hexecute, hafter⟩ := h.execute hassigned hlog hlimit hempty
    refine ⟨w', hexecute, hafter.memory, ?_⟩
    rw [hafter.log, List.map_map]
    rfl

/-- Two axes: the first jumps over its upper bound, the second starts below zero. -/
def surveyed : List Axis := [⟨"i", 0, 5, 2, by decide⟩, ⟨"j", -1, 2, 3, by decide⟩]

/-- A probe at each point of the two axes. -/
def survey : Kernel 1 2 where
  instructionTable := #v[⟨"probe", .call "f" [.name "i", .name "j"], []⟩]
  loopTable := #v[
    ⟨⟨"i", .literal (.int 0), .literal (.int 5),
      .form "+=" [.name "i", .literal (.int 2)], []⟩, []⟩,
    ⟨⟨"j", .literal (.int (-1)), .literal (.int 2),
      .form "+=" [.name "j", .literal (.int 3)], []⟩, []⟩]
  instructions := List.finRange 1
  loops := List.finRange 2

/-- The probe is made at six points, in a run of the tree and by the evaluator. -/
theorem compile_survey :
    survey.IsGrid "probe" "f" surveyed ∧ survey.Distinct ∧
      ∃ c k', (Kernel.compile true).run survey = .ok c k' ∧
        (∃ σ', Runs (fun _ => none) c.tree 9
          [⟨"f", [0, -1]⟩, ⟨"f", [0, 2]⟩, ⟨"f", [2, -1]⟩,
            ⟨"f", [2, 2]⟩, ⟨"f", [4, -1]⟩, ⟨"f", [4, 2]⟩] σ') ∧
        ∃ w', (c.tree.execute
            ⟨["i", "j"], ⟨[("f", Recorder.record.callable)]⟩, Program.iterationLimit⟩).run
              ⟨#[], .empty, []⟩ = .ok () w' ∧
          w'.log = [[0, -1], [0, 2], [2, -1], [2, 2], [4, -1], [4, 2]].map
            fun vs => .list (vs.map fun v => .number (.int v)) := by
  have hgrid : survey.IsGrid "probe" "f" surveyed := ⟨rfl, rfl⟩
  have hdistinct : survey.Distinct := by
    rw [Kernel.Distinct]
    decide
  have htuples : Axis.tuples surveyed = [[0, -1], [0, 2], [2, -1], [2, 2], [4, -1], [4, 2]] := by
    simp [surveyed, Axis.tuples, Axis.points, Axis.pointsFrom]
  have hrounds : Axis.rounds surveyed = 9 := by
    simp [surveyed, Axis.rounds, Axis.points, Axis.pointsFrom]
  obtain ⟨c, k', hrun, hruns, -, -, -, hevaluator⟩ := compile_grid hgrid hdistinct true
  rw [htuples, hrounds] at hruns hevaluator
  have hassignable : ∀ a ∈ surveyed, Scope.Assignable
      ⟨["i", "j"], ⟨[("f", Recorder.record.callable)]⟩, Program.iterationLimit⟩ a.name := by
    simp only [Scope.Assignable]
    decide
  have hdigits : ∀ vs ∈ [[0, -1], [0, 2], [2, -1], [2, 2], [4, -1], [4, 2]], vs.length = 2 ∧
      ∀ v ∈ vs, Int.natAbs v < Nat.pow 10 Number.digitLimit := by
    decide +kernel
  obtain ⟨w', hexecute, -, hlog⟩ := hevaluator
    ⟨["i", "j"], ⟨[("f", Recorder.record.callable)]⟩, Program.iterationLimit⟩
    (fun call => .list (call.arguments.map fun z => .number (.int z))) ⟨#[], .empty, []⟩ hassignable
    (fun vs hvs => Scope.records_of_recorder (by rw [(hdigits vs hvs).1]; decide) (by decide) rfl
      (hdigits vs hvs).2)
    (by decide)
  exact ⟨hgrid, hdistinct, c, k', hrun, hruns _, w', hexecute, hlog⟩

end LoopNest
