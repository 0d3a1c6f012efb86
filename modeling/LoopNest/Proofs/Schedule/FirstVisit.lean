import LoopNest.Proofs.Compilation
import LoopNest.Proofs.Schedule.TextOrder

/-!
# Dependencies in the schedule

The flat order has every item behind its dependencies, but the schedule does not follow the flat
order: an instruction runs where the loop runs that holds it.  Two loops without dependencies of
their own run as they were declared, even if an instruction in the first depends on one in the
second (`compile_crossed`).  So whether a dependency is respected is a question about the rewritten
bodies.

## First visits

A schedule can be much larger than its kernel, since a loop that is a member in several places is
unfolded in each of them.  For the question which name comes first, only the first unfolding counts:
the others repeat names that have stood before.  `Nester.firstVisits` walks the bodies from the top
and enters each loop name once, so it lists each body at most once.  Attaching goes the same way and
remembers what it has finished, so the names of the schedule and of the walk come up first in the
same order (`SameFirsts`).

* `Nester.Attaches.sameFirsts`: the walk against the schedule.
* `compile_respects_iff`: a schedule respects the dependencies exactly if the walk does, always
  respects those on instructions that have none themselves, and is ordered by the declarations where
  the kernel is hierarchical.
-/

namespace LoopNest

/-! ## The same names first -/

/-- Two lists have the same names, and of any two names the same one first. -/
structure SameFirsts (l l' : List String) : Prop where
  mem : ∀ x, x ∈ l ↔ x ∈ l'
  precedes : ∀ a b, Precedes a b l ↔ Precedes a b l'

namespace SameFirsts

variable {l l' l'' : List String}

theorem refl (l : List String) : SameFirsts l l := ⟨fun _ => .rfl, fun _ _ => .rfl⟩

theorem trans (h : SameFirsts l l') (h' : SameFirsts l' l'') : SameFirsts l l'' :=
  ⟨fun x => (h.mem x).trans (h'.mem x), fun a b => (h.precedes a b).trans (h'.precedes a b)⟩

theorem append (h : SameFirsts l l') (more : List String) :
    SameFirsts (l ++ more) (l' ++ more) where
  mem x := by rw [List.mem_append, List.mem_append, h.mem]
  precedes a b := by rw [precedes_append_iff, precedes_append_iff, h.precedes, h.mem]

/-- Names that have stood before can be left out. -/
theorem append_of_subset {more : List String} (h : ∀ x ∈ more, x ∈ l) :
    SameFirsts (l ++ more) l where
  mem x := by
    rw [List.mem_append]
    exact or_iff_left_of_imp (h x)
  precedes a b := by
    rw [precedes_append_iff]
    refine and_iff_left_of_imp fun hl => ?_
    by_cases hb : b ∈ more
    · obtain ⟨before, after, hsplit⟩ := List.append_of_mem (h b hb)
      exact .inl (by rw [hsplit]; exact List.mem_append_left _ (hl before after hsplit))
    · exact .inr (precedes_of_notMem hb)

end SameFirsts

/-! ## The walk -/

namespace Nester

open Nest

variable {m n : Nat}

/-- The names that come up on a walk through the pending items and what is inside them, where each
loop name is entered once. -/
def firstVisits (s : Nester m n) (k : Kernel m n) (pending : List (Ref m n))
    (visited : List String) : List String :=
  match pending with
  | [] => []
  | .instruction i :: pending => (k.instruction i).name :: firstVisits s k pending visited
  | .loop l :: pending =>
      let x := (k.loop l).head.name
      if _fresh : visited.contains x then firstVisits s k pending visited
      else x :: firstVisits s k (s.body k l ++ pending) (x :: visited)
termination_by (unlisted k visited, pending.length)
decreasing_by
  · exact Prod.Lex.right _ (by simp)
  · exact Prod.Lex.right _ (by simp)
  · refine Prod.Lex.left _ _ (unlisted_lt (l := l) ?_ (by simpa using _fresh) (by simp))
    intro y hy
    simp only [List.contains_cons, hy, Bool.or_true]

variable {s : Nester m n} {k : Kernel m n}

theorem firstVisits_nil (visited : List String) : s.firstVisits k [] visited = [] := by
  rw [firstVisits]

theorem firstVisits_instruction (i : Fin m) (pending : List (Ref m n)) (visited : List String) :
    s.firstVisits k (.instruction i :: pending) visited
      = (k.instruction i).name :: s.firstVisits k pending visited := by
  rw [firstVisits]

theorem firstVisits_seen {l : Fin n} {visited : List String} (h : (k.loop l).head.name ∈ visited)
    (pending : List (Ref m n)) :
    s.firstVisits k (.loop l :: pending) visited = s.firstVisits k pending visited := by
  rw [firstVisits]
  exact dif_pos (List.contains_iff_mem.mpr h)

theorem firstVisits_fresh {l : Fin n} {visited : List String} (h : (k.loop l).head.name ∉ visited)
    (pending : List (Ref m n)) :
    s.firstVisits k (.loop l :: pending) visited
      = (k.loop l).head.name
        :: s.firstVisits k (s.body k l ++ pending) ((k.loop l).head.name :: visited) := by
  rw [firstVisits]
  exact dif_neg fun hmem => h (List.contains_iff_mem.mp hmem)

theorem finished?_eq_none {fin : List (Finished m n)} {x : String} (h : finished? fin x = none) :
    x ∉ fin.map Finished.name := by
  rw [finished?, List.find?_eq_none] at h
  intro hx
  obtain ⟨f, hf, rfl⟩ := List.mem_map.mp hx
  simpa using h f hf

/-- **The walk and the schedule.**  Whatever stood before and includes the names of the loops
finished so far, and however the walk goes on, the walk through the items brings up the same names
first as their nests do. -/
theorem Attaches.sameFirsts {active : List String} {items : List (Ref m n)}
    {fin fin' : List (Finished m n)} {pairs : List (Ref m n × Nest)}
    (h : Attaches s k active items fin pairs fin') :
    ∀ (stood visited : List String) (rest : List (Ref m n)),
      (∀ x, x ∈ visited ↔ x ∈ active ∨ x ∈ fin.map Finished.name) →
      (∀ f ∈ fin, ∀ x ∈ names [f.nest], x ∈ stood) →
      ∃ walked visited', s.firstVisits k (items ++ rest) visited
          = walked ++ s.firstVisits k rest visited' ∧
        (∀ x, x ∈ visited' ↔ x ∈ active ∨ x ∈ fin'.map Finished.name) ∧
        SameFirsts (stood ++ names (pairs.map Prod.snd)) (stood ++ walked) ∧
        ∀ f ∈ fin', ∀ x ∈ names [f.nest], x ∈ stood ++ names (pairs.map Prod.snd) := by
  induction h with
  | nil =>
    intro stood visited rest hvisited hstood
    refine ⟨[], visited, rfl, hvisited, .refl _, ?_⟩
    simpa using hstood
  | @instruction active items fin pairs fin' i _ ih =>
    intro stood visited rest hvisited hstood
    obtain ⟨walked, visited', hwalk, hvisited', hsame, hfin⟩ :=
      ih (stood ++ [(k.instruction i).name]) visited rest hvisited
        fun f hf x hx => List.mem_append_left _ (hstood f hf x hx)
    refine ⟨(k.instruction i).name :: walked, visited', ?_, hvisited', ?_, ?_⟩
    · rw [List.cons_append, firstVisits_instruction, hwalk, List.cons_append]
    · rw [List.map_cons, names_cons, names_instruction, List.singleton_append]
      simpa using hsame
    · rw [List.map_cons, names_cons, names_instruction, List.singleton_append]
      simpa using hfin
  | @seen active items fin pairs fin' l f hactive hseen _ ih =>
    intro stood visited rest hvisited hstood
    obtain ⟨hmem, hname⟩ := finished?_eq_some hseen
    have hin : (k.loop l).head.name ∈ visited :=
      (hvisited _).mpr (.inr (hname ▸ List.mem_map_of_mem hmem))
    obtain ⟨walked, visited', hwalk, hvisited', hsame, hfin⟩ :=
      ih stood visited rest hvisited hstood
    -- the remembered nest only repeats names that stood before
    have hrepeat : SameFirsts (stood ++ names [f.nest]) stood :=
      .append_of_subset (hstood f hmem)
    refine ⟨walked, visited', ?_, hvisited', ?_, ?_⟩
    · rw [List.cons_append, firstVisits_seen hin, hwalk]
    · rw [List.map_cons, names_cons, ← List.append_assoc]
      exact (hrepeat.append _).trans hsame
    · intro f' hf' x hx
      rw [List.map_cons, names_cons, ← List.append_assoc, (hrepeat.append _).mem]
      exact hfin f' hf' x hx
  | @fresh active items fin members fin₁ pairs fin' l hactive hfresh _ _ ihbody ih =>
    intro stood visited rest hvisited hstood
    have hout : (k.loop l).head.name ∉ visited := by
      rw [hvisited, not_or]
      exact ⟨hactive, finished?_eq_none hfresh⟩
    obtain ⟨walked₁, visited₁, hwalk₁, hvisited₁, hsame₁, hfin₁⟩ :=
      ihbody (stood ++ [(k.loop l).head.name]) ((k.loop l).head.name :: visited) (items ++ rest)
        (by
          intro x
          rw [List.mem_cons, hvisited, List.mem_append, List.mem_singleton]
          tauto)
        fun f hf x hx => List.mem_append_left _ (hstood f hf x hx)
    have hnest : names [(finish k l members).nest]
        = (k.loop l).head.name :: names (members.map Prod.snd) := names_loop _ _
    obtain ⟨walked₂, visited₂, hwalk₂, hvisited₂, hsame₂, hfin₂⟩ :=
      ih (stood ++ [(k.loop l).head.name] ++ names (members.map Prod.snd)) visited₁ rest
        (by
          intro x
          rw [hvisited₁, List.mem_append, List.mem_singleton, List.map_append, List.mem_append]
          simp only [List.map_cons, List.map_nil, List.mem_singleton, finish]
          tauto)
        (by
          intro f hf x hx
          rcases List.mem_append.mp hf with hf | hf
          · exact hfin₁ f hf x hx
          · rw [List.mem_singleton.mp hf, hnest] at hx
            rw [List.append_assoc, List.singleton_append]
            exact List.mem_append_right _ hx)
    refine ⟨(k.loop l).head.name :: (walked₁ ++ walked₂), visited₂, ?_, hvisited₂, ?_, ?_⟩
    · rw [List.cons_append, firstVisits_fresh hout, hwalk₁, hwalk₂, List.cons_append,
        List.append_assoc]
    · rw [List.map_cons, names_cons, hnest]
      have hsame := hsame₂.trans (hsame₁.append walked₂)
      simpa using hsame
    · rw [List.map_cons, names_cons, hnest]
      simpa using hfin₂

end Nester

/-! ## The schedule of a kernel -/

open Nester Nest

variable {m n : Nat}

/-- Nesting puts the instructions without dependencies first. -/
theorem freeInstructions_isPrefix_top {k : Kernel m n} {layer : Layer m n} {g : Graph (Ref m n)}
    (hg : Graph.build k layer = .ok g) {start s : Nester m n} {top : List (Ref m n)}
    (hnest : start.nest k layer g.drain.1 = .ok (top, s)) :
    (k.freeInstructions layer).map .instruction <+: top := by
  obtain ⟨rest, horder⟩ := Graph.freeInstructions_isPrefix_drain hg
  obtain ⟨p, hrun, htop⟩ := bind_eq_ok_iff.mp hnest
  cases htop
  rw [← horder, List.foldlM_append,
    foldlM_advance_free fun i hi => Graph.deps_of_mem_freeInstructions hg hi] at hrun
  obtain ⟨p₁, hp₁, hrun⟩ := bind_eq_ok_iff.mp hrun
  cases hp₁
  exact run_top hrun

/-- The instructions at the front of the items are at the front of the names. -/
theorem Nester.Attaches.names_eq_append {s : Nester m n} {k : Kernel m n} {active : List String}
    {fin fin' : List (Finished m n)} {is : List (Fin m)} {rest : List (Ref m n)} :
    ∀ {pairs : List (Ref m n × Nest)},
      Attaches s k active (is.map .instruction ++ rest) fin pairs fin' →
        ∃ more, names (pairs.map Prod.snd) = (is.map fun i => (k.instruction i).name) ++ more := by
  induction is with
  | nil =>
    intro pairs _
    exact ⟨_, rfl⟩
  | cons i is ih =>
    intro pairs h
    cases h with
    | instruction i h =>
      obtain ⟨more, hmore⟩ := ih h
      exact ⟨more, by rw [List.map_cons, names_cons, names_instruction, hmore]; rfl⟩

/-- What depends on an instruction without dependencies stands behind it: those stand first of
all. -/
theorem precedes_of_free {k : Kernel m n} {layer : Layer m n} {g : Graph (Ref m n)}
    (hg : Graph.build k layer = .ok g) {start s : Nester m n} {top : List (Ref m n)}
    (hnest : start.nest k layer g.drain.1 = .ok (top, s)) {pairs : List (Ref m n × Nest)}
    {fin : List (Finished m n)} (hattach : Attaches s k [] top [] pairs fin) {i : Fin m}
    (hi : i ∈ k.instructions) (hfree : layer.deps.find? (k.instruction i).name = some [])
    {b : String} {deps : List String} (hb : layer.deps.find? b = some deps)
    (hdep : (k.instruction i).name ∈ deps) :
    Precedes (k.instruction i).name b (names (pairs.map Prod.snd)) := by
  obtain ⟨rest, htop⟩ := freeInstructions_isPrefix_top hg hnest
  rw [← htop] at hattach
  obtain ⟨more, hnames⟩ := hattach.names_eq_append
  rw [hnames, precedes_append_iff]
  have hmem : (k.instruction i).name
      ∈ (k.freeInstructions layer).map fun i => (k.instruction i).name := by
    refine List.mem_map_of_mem (f := fun i => (k.instruction i).name) (List.mem_filter.mpr ⟨hi, ?_⟩)
    rw [List.isEmpty_iff, Kernel.needs]
    exact congrArg (Option.getD · []) hfree
  refine ⟨precedes_of_notMem fun hbfree => ?_, .inl hmem⟩
  -- what depends on something is not among the instructions that depend on nothing
  obtain ⟨j, hj, rfl⟩ := List.mem_map.mp hbfree
  rw [Graph.deps_of_mem_freeInstructions hg hj] at hb
  cases hb
  exact absurd hdep List.not_mem_nil

/-- Of the names with a list of dependencies, each stands behind every dependency that occurs. -/
def Layer.Respected (layer : Layer m n) (l : List String) : Prop :=
  ∀ b deps, layer.deps.find? b = some deps → ∀ a ∈ deps, a ∈ l → b ∈ l → Precedes a b l

theorem SameFirsts.respected_iff {l l' : List String} (h : SameFirsts l l') (layer : Layer m n) :
    layer.Respected l ↔ layer.Respected l' := by
  simp only [Layer.Respected, h.mem, h.precedes]

/-- The walk through what nesting a kernel leaves. -/
def Kernel.firstVisits (k : Kernel m n) : Except CompileError (List String) := do
  let layer ← Layer.analyze k
  let arranged ← k.arrange layer
  return arranged.final.firstVisits k arranged.top []

/-- **When a schedule respects the dependencies.**  It does exactly if the walk that enters each
loop name once does, which is found without unfolding the schedule.  A dependency on an instruction
that has none itself is always respected.  In a hierarchical kernel the declaration alone decides.
A loop stands before what it holds.  Of two items that part outside of all loops, the one whose
outermost loop was declared first comes first.  Of two that part in the body of a loop, the one
comes first whose entry in that body stands for the earlier instruction. -/
theorem compile_respects_iff {k k' : Kernel m n} {c : Compilation}
    (h : (Kernel.compile false).run k = .ok c k') :
    ∃ layer walk, Layer.analyze k = .ok layer ∧ k.firstVisits = .ok walk ∧
      (layer.Respected (names c.nests) ↔ layer.Respected walk) ∧
      (∀ i ∈ k.instructions, layer.deps.find? (k.instruction i).name = some [] →
        ∀ b deps, layer.deps.find? b = some deps → (k.instruction i).name ∈ deps →
          Precedes (k.instruction i).name b (names c.nests)) ∧
      (k.Hierarchical → ∀ a ∈ k.items, ∀ b ∈ k.items,
        (∀ l ∈ k.chain b, Precedes (k.loop l).head.name (k.name b) (names c.nests)) ∧
        (∀ d e, a.entry (k.chain a) = .loop d → b.entry (k.chain b) = .loop e → d ≠ e →
          (Precedes (k.name a) (k.name b) (names c.nests) ↔ k.rank d < k.rank e)) ∧
        (∀ outer l restA restB, k.chain a = outer ++ l :: restA → k.chain b = outer ++ l :: restB →
          a.entry restA ≠ b.entry restB → (Precedes (k.name a) (k.name b) (names c.nests) ↔
            k.lead (a.entry restA) < k.lead (b.entry restB)))) := by
  obtain ⟨N, -, hN, hnests, -⟩ := Kernel.nesting_of_compile h
  obtain ⟨g, hg, horder⟩ := hN.ordered
  have hnest : N.start.nest k N.layer g.drain.1 = .ok (N.top, N.final) := by
    rw [horder]
    exact hN.nested
  have hwalk : k.firstVisits = .ok (N.final.firstVisits k N.top []) := by
    refine bind_eq_ok_iff.mpr ⟨N.layer, hN.analyzed, ?_⟩
    exact bind_eq_ok_iff.mpr ⟨N.toArrangement, Kernel.arrange_eq_ok_iff.mpr hN.toSteps, rfl⟩
  rw [hnests]
  refine ⟨N.layer, _, hN.analyzed, hwalk, ?_, ?_, ?_⟩
  · obtain ⟨walked, visited, heq, -, hsame, -⟩ :=
      hN.attached.sameFirsts [] [] [] (by simp) (by simp)
    rw [List.append_nil, firstVisits_nil, List.append_nil] at heq
    rw [heq]
    exact SameFirsts.respected_iff (by simpa using hsame) N.layer
  · intro i hi hfree b deps hb hdep
    exact precedes_of_free hg hnest hN.attached hi hfree hb hdep
  · intro hk a ha b hb
    obtain ⟨start', s', hstart', hnest', hs⟩ := nest_hierarchical hk hN.analyzed hg
    obtain rfl : N.start = start' := Except.ok.inj (hN.started.symm.trans hstart')
    obtain ⟨htop, rfl⟩ := Prod.mk.inj (Except.ok.inj (hnest.symm.trans hnest'))
    have hseparated := separated_of_finished hk.distinct hs
    have hattach := hN.attached
    rw [htop] at hattach
    obtain ⟨hfst, hunfolds, -⟩ := hattach.unfolds hseparated
      (fun l hl => Kernel.loop_mem_items.mp (root_of_mem hk hN.analyzed hl).1) (by simp)
    refine ⟨fun l hl => ?_, fun d e hd he hne => ?_, fun outer l restA restB hA hB hne => ?_⟩
    · exact precedes_of_mem_chain hk hN.analyzed hs hfst hunfolds hb hl
    · exact precedes_iff_rank_lt hk hN.analyzed hs hfst hunfolds ha hb hd he hne
    · exact precedes_iff_lead_lt hk hN.analyzed hs hfst hunfolds ha hb hA hB hne

/-- Two loops declared in the order of the dependency between their instructions, two instructions
in the second loop, and one on which all depend. -/
def straight : Kernel 4 2 where
  instructionTable := #v[
    ⟨"B", .assign (.name "y") (.name "i"), ["A", "setup"]⟩,
    ⟨"A", .assign (.name "x") (.name "j"), ["setup"]⟩,
    ⟨"setup", .assign (.name "z") (.literal (.int 1)), []⟩,
    ⟨"C", .assign (.name "w") (.name "i"), ["B"]⟩]
  loopTable := #v[
    ⟨⟨"j", .literal (.int 0), .name "z", defaultStep "j", []⟩, []⟩,
    ⟨⟨"i", .name "j", .literal (.int 3), defaultStep "i", []⟩, []⟩]
  instructions := List.finRange 4
  loops := [0, 1]

/-- Here the dependencies are respected. -/
theorem compile_straight :
    ∃ layer c, Layer.analyze straight = .ok layer ∧
      (Kernel.compile false).run straight = .ok c straight ∧
      Precedes "setup" "A" (names c.nests) ∧ Precedes "i" "B" (names c.nests) ∧
      Precedes "A" "B" (names c.nests) ∧ Precedes "B" "C" (names c.nests) := by
  obtain ⟨c, hc⟩ : ∃ c, (Kernel.compile false).run straight = .ok c straight := ⟨_, by cbv⟩
  obtain ⟨layer, walk, hlayer, -, -, hfree, hordered⟩ := compile_respects_iff hc
  have hdeps : (Layer.analyze straight).toOption.map
      (fun layer => (layer.deps.find? "setup", layer.deps.find? "A"))
        = some (some [], some ["setup", "j"]) := by cbv
  rw [hlayer] at hdeps
  have hdeps := Option.some.inj hdeps
  rw [Prod.mk.injEq] at hdeps
  have hstraight : straight.Hierarchical :=
    ⟨by rw [Kernel.Distinct]; decide, by decide, by decide, by decide⟩
  have hAB := hordered hstraight (.instruction 1) (by decide) (.instruction 0) (by decide)
  have hBC := hordered hstraight (.instruction 0) (by decide) (.instruction 3) (by decide)
  refine ⟨layer, c, hlayer, hc, ?_, ?_, ?_, ?_⟩
  · exact hfree 2 (by decide) hdeps.1 "A" _ hdeps.2 (by decide)
  · exact hAB.1 1 (by decide)
  · exact (hAB.2.1 0 1 (by decide) (by decide) (by decide)).mpr (by decide)
  · exact (hBC.2.2 [] 1 [] [] (by decide) (by decide) (by decide)).mpr (by decide)

/-- Two loops and two instructions, where the one in the first loop depends on the one in the
second. -/
def crossed : Kernel 2 2 where
  instructionTable := #v[
    ⟨"A", .assign (.name "x") (.name "j"), []⟩, ⟨"B", .assign (.name "y") (.name "i"), ["A"]⟩]
  loopTable := #v[
    ⟨⟨"i", .literal (.int 0), .literal (.int 3), defaultStep "i", []⟩, []⟩,
    ⟨⟨"j", .literal (.int 0), .literal (.int 3), defaultStep "j", []⟩, []⟩]
  instructions := [0, 1]
  loops := [0, 1]

/-- The loops run as they were declared, and the dependency is not respected. -/
theorem compile_crossed :
    ∃ layer c, Layer.analyze crossed = .ok layer ∧
      (Kernel.compile false).run crossed = .ok c crossed ∧
      layer.deps.find? "B" = some ["A", "i"] ∧ names c.nests = ["i", "B", "j", "A"] ∧
      ¬ layer.Respected (names c.nests) := by
  obtain ⟨layer, c, hlayer, hc, hdeps, hnames⟩ :
      ∃ layer c, Layer.analyze crossed = .ok layer ∧
        (Kernel.compile false).run crossed = .ok c crossed ∧
        layer.deps.find? "B" = some ["A", "i"] ∧ names c.nests = ["i", "B", "j", "A"] :=
    ⟨_, _, by cbv, by cbv, by cbv, by cbv⟩
  refine ⟨layer, c, hlayer, hc, hdeps, hnames, fun hrespected => ?_⟩
  have hprecedes := hrespected "B" _ hdeps "A" (by simp) (by simp [hnames]) (by simp [hnames])
  rw [hnames] at hprecedes
  have hmem := hprecedes ["i"] ["j", "A"] rfl
  simp at hmem

end LoopNest
