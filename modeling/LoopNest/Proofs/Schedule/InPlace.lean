import LoopNest.Proofs.Compilation
import LoopNest.Proofs.Kernel.Parameters
import LoopNest.Proofs.Schedule.Lockstep

/-!
# Compiling in place

Compiled in place, a kernel is changed twice: the layer is written into it after the analysis, and
the bodies that were attached at the end.  The stages between the two read the changed kernel.  It
differs from the one before in dependencies and in the members of its own loops, so they do the same
as on the kernel that was left alone, and lowering forgets the dependencies that the nests still
show.

* `Kernel.SameInside.arrange`: the same arrangement.
* `Kernel.exists_compile_tree_iff`: a tree is compiled in place iff it is compiled at all.
* `compile_inPlace_agrees`: the outcome is the same in place or not.
-/

namespace LoopNest

variable {m n : Nat}

namespace Kernel

variable {k k' : Kernel m n} {layer : Layer m n}

/-! ## The same arrangement and the same code -/

theorem SameInside.nestOrder (h : k.SameInside k') (layer : Layer m n) (order : List (Ref m n)) :
    k'.nestOrder layer order = k.nestOrder layer order := by
  rw [Kernel.nestOrder, Kernel.nestOrder, h.alike.ofLayer]
  cases hstart : Nester.ofLayer k layer with
  | error e => rfl
  | ok start =>
    rw [bind_ok, bind_ok, Nester.nest_congr h (Nester.owns_ofLayer hstart) layer _]

theorem SameInside.arrange (h : k.SameInside k') (layer : Layer m n) :
    k'.arrange layer = k.arrange layer := by
  rw [Kernel.arrange, Kernel.arrange, h.alike.build]
  exact bind_congr fun graph => h.nestOrder layer graph.drain.1

/-- The nester that an arrangement ends with has a body for each of the kernel's own loops. -/
theorem owns_arrange {a : Arrangement m n} (h : k.arrange layer = .ok a) : a.final.Owns k := by
  obtain ⟨-, hstart, hnest⟩ := arrange_eq_ok_iff.mp h
  exact Nester.owns_nest (Nester.owns_ofLayer hstart) hnest

end Kernel

/-- The compilations show the same names at the top, lower to the same tree and need the same
parameters. -/
structure Compilation.SameCode (c c' : Compilation) : Prop where
  top : c'.top = c.top
  tree : c'.tree = c.tree
  parameters : c'.parameters = c.parameters

/-- The stages behind the analysis go the same way with the kernel that the layer was written
into. -/
theorem Layer.Committed.scheduled {layer : Layer m n} {k k' : Kernel m n} (h : layer.Committed k k')
    (hk : k.Distinct) (hlayer : Layer.analyze k = .ok layer) :
    Lockstep Compilation.SameCode (fun s _ => s = k) (k.scheduled layer false)
      (k'.scheduled layer true) := by
  have hsame := h.sameInside
  rw [Kernel.scheduled, Kernel.scheduled, hsame.arrange]
  cases harrange : k.arrange layer with
  | error e => exact .error e k k'
  | ok a =>
    have hbody := (Kernel.owns_arrange harrange).body_eq hsame
    have hattach := Nester.attach_lockstep hsame.alike hbody [] a.top .nil
    simp only
    cases hrun : (a.final.attach k [] a.top).run [] with
    | error e finished =>
      rw [hrun] at hattach
      cases hrun' : (a.final.attach k' [] a.top).run [] with
      | ok pairs finished => rw [hrun'] at hattach; cases hattach
      | error e' finished' =>
        rw [hrun'] at hattach
        cases hattach
        exact .error e _ _
    | ok pairs finished =>
      rw [hrun] at hattach
      cases hrun' : (a.final.attach k' [] a.top).run [] with
      | error e finished' => rw [hrun'] at hattach; cases hattach
      | ok pairs' finished' =>
        rw [hrun'] at hattach
        cases hattach with
        | ok hpairs _ =>
          have hnests := Nester.sameCode_of_samePair hpairs
          refine .ok ⟨Nest.SameCode.map_name hnests, ?_, h.parameters hk hlayer⟩ rfl
          exact congrArg (Expr.form blockTag) (Nest.SameCode.lowerEach hnests)

/-- A tree is compiled in place iff it is compiled at all. -/
theorem Kernel.exists_compile_tree_iff {k : Kernel m n} (hk : k.Distinct) (inPlace : Bool)
    (tree : Expr) :
    (∃ c k', (Kernel.compile inPlace).run k = .ok c k' ∧ c.tree = tree) ↔
      ∃ c k', (Kernel.compile false).run k = .ok c k' ∧ c.tree = tree := by
  cases inPlace with
  | false => rfl
  | true =>
    cases hlayer : Layer.analyze k with
    | error e => simp [run_compile_of_error hlayer]
    | ok layer =>
      obtain ⟨k', hcommit, hwritten⟩ := Layer.run_commit (Layer.analyze_eq_ok hlayer).2
      rw [run_compile_false hlayer, run_compile_true hlayer hcommit]
      have hboth := hwritten.scheduled hk hlayer
      generalize k.scheduled layer false = pure at hboth ⊢
      generalize k'.scheduled layer true = inPlace at hboth ⊢
      cases hboth with
      | ok hsame _ => simp [hsame.tree]
      | error e s t => simp

/-- A compilation that fails on a kernel it does not change leaves that kernel. -/
theorem Kernel.eq_of_scheduled_error {layer : Layer m n} {k k' : Kernel m n} {e : CompileError}
    (h : k.scheduled layer false = .error e k') : k' = k := by
  rw [Kernel.scheduled] at h
  split at h
  · cases h
    rfl
  · split at h
    · cases h
      rfl
    · cases h

/-- **Compiling in place or not has the same outcome.** -/
theorem compile_inPlace_agrees (k : Kernel m n) (hk : k.Distinct) :
    (∃ e k', (Kernel.compile false).run k = .error e k ∧
        (Kernel.compile true).run k = .error e k') ∨
      ∃ c c' k', (Kernel.compile false).run k = .ok c k ∧
        (Kernel.compile true).run k = .ok c' k' ∧ c.SameCode c' := by
  cases hlayer : Layer.analyze k with
  | error e =>
    exact .inl ⟨e, k, Kernel.run_compile_of_error hlayer false,
      Kernel.run_compile_of_error hlayer true⟩
  | ok layer =>
    obtain ⟨k', hcommit, hwritten⟩ := Layer.run_commit (Layer.analyze_eq_ok hlayer).2
    rw [Kernel.run_compile_false hlayer, Kernel.run_compile_true hlayer hcommit]
    have hboth := hwritten.scheduled hk hlayer
    generalize hpure : k.scheduled layer false = pure at hboth ⊢
    generalize k'.scheduled layer true = inPlace at hboth ⊢
    cases hboth with
    | ok hsame hleft => exact .inr ⟨_, _, _, by rw [hleft], rfl, hsame⟩
    | error e s t => exact .inl ⟨e, t, by rw [Kernel.eq_of_scheduled_error hpure], rfl⟩

/-- Two loops that declare one and the same loop as a member, and an instruction for the first. -/
def sharing : Kernel 2 3 where
  instructionTable := #v[
    ⟨"a", .assign (.name "x") (.name "i"), []⟩,
    ⟨"b", .assign (.name "y") (.name "z"), []⟩]
  loopTable := #v[
    ⟨⟨"i", .literal (.int 0), .literal (.int 9), defaultStep "i", []⟩, [.loop (row 2)]⟩,
    ⟨⟨"j", .literal (.int 0), .literal (.int 9), defaultStep "j", []⟩, [.loop (row 2)]⟩,
    ⟨⟨"t", .literal (.int 0), .name "n", defaultStep "t", []⟩, [.instruction (row 1)]⟩]
  instructions := [row 0]
  loops := [row 0, row 1]

/-- The second loop takes the place of the shared one, in place or not. -/
theorem compile_inPlace_sharing :
    sharing.Distinct ∧ ∃ c c' k', (Kernel.compile false).run sharing = .ok c sharing ∧
      (Kernel.compile true).run sharing = .ok c' k' ∧ c.SameCode c' ∧
      c.top = ["i"] ∧ c.parameters = ["n", "z"] := by
  have hdistinct : sharing.Distinct := by
    rw [Kernel.Distinct]
    decide
  obtain ⟨c, hc, htop, hparameters⟩ : ∃ c, (Kernel.compile false).run sharing = .ok c sharing ∧
      c.top = ["i"] ∧ c.parameters = ["n", "z"] := ⟨_, by cbv, by cbv, by cbv⟩
  refine ⟨hdistinct, ?_⟩
  rcases compile_inPlace_agrees sharing hdistinct with ⟨e, k', herror, -⟩
    | ⟨c₁, c', k', hok, hplace, hsame⟩
  · rw [hc] at herror
    cases herror
  · rw [hc] at hok
    cases hok
    exact ⟨c, c', k', hc, hplace, hsame, htop, hparameters⟩

end LoopNest
