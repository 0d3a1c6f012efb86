import LoopNest.Compilation
import LoopNest.Proofs.Schedule.Attach

/-!
# The stages of a compilation

A compilation analyses the kernel, writes the layer into it if it works in place, arranges the
items, and attaches the rewritten bodies.  The stages behind the analysis depend on the layer alone,
and so they are one function of the kernel that they start from.

* `Kernel.arrange_eq_ok_iff`: the stages of an arrangement.
* `Kernel.scheduled`: the stages behind the analysis.
* `Kernel.run_compile_false`, `Kernel.run_compile_true`: a compilation is the analysis and these
  stages.
* `Kernel.nesting`: all that comes up on the way from a kernel to its nests.
-/

namespace LoopNest

variable {m n : Nat} {k k' : Kernel m n} {layer : Layer m n}

/-- The stages of an arrangement. -/
structure Arrangement.Steps (k : Kernel m n) (layer : Layer m n) (a : Arrangement m n) : Prop where
  ordered : ∃ g, Graph.build k layer = .ok g ∧ g.drain.1 = a.order
  started : Nester.ofLayer k layer = .ok a.start
  nested : a.start.nest k layer a.order = .ok (a.top, a.final)

/-- An outcome that is already known is passed on. -/
theorem KernelStep.run_ofExcept_bind {α β : Type} (a : α) (f : α → KernelStep m n β)
    (k : Kernel m n) : (KernelStep.ofExcept (.ok a) >>= f).run k = (f a).run k := rfl

namespace Kernel

theorem arrange_eq_ok_iff {a : Arrangement m n} : k.arrange layer = .ok a ↔ a.Steps k layer := by
  constructor
  · intro h
    obtain ⟨g, hg, h⟩ := bind_eq_ok_iff.mp h
    obtain ⟨start, hstart, h⟩ := bind_eq_ok_iff.mp h
    obtain ⟨⟨top, final⟩, hnest, h⟩ := bind_eq_ok_iff.mp h
    cases h
    exact ⟨⟨g, hg, rfl⟩, hstart, hnest⟩
  · rintro ⟨⟨g, hg, horder⟩, hstart, hnest⟩
    rw [← horder] at hnest
    refine bind_eq_ok_iff.mpr ⟨g, hg, bind_eq_ok_iff.mpr ⟨a.start, hstart, ?_⟩⟩
    exact bind_eq_ok_iff.mpr ⟨_, hnest, by rw [horder]; rfl⟩

/-! ## The stages behind the analysis -/

/-- What compiling makes of a kernel once its layer is known. -/
def scheduled (k : Kernel m n) (layer : Layer m n) (inPlace : Bool) :
    EStateM.Result CompileError (Kernel m n) Compilation :=
  match k.arrange layer with
  | .error e => .error e k
  | .ok a =>
      match (a.final.attach k [] a.top).run [] with
      | .error e finished => .error e (if inPlace then k.adopt finished else k)
      | .ok pairs finished =>
          .ok ⟨k.parameters, pairs.map Prod.snd, Nest.lowerAll (pairs.map Prod.snd)⟩
            (if inPlace then k.adopt finished else k)

theorem run_deliver (s : Nester m n) (items : List (Ref m n)) (inPlace : Bool) (k : Kernel m n) :
    (s.deliver items inPlace).run k =
      match (s.attach k [] items).run [] with
      | .error e finished => .error e (if inPlace then k.adopt finished else k)
      | .ok pairs finished =>
        .ok (pairs.map Prod.snd) (if inPlace then k.adopt finished else k) := by
  rw [Nester.deliver, run_get_bind]
  simp only [Nester.materialize]
  cases (s.attach k [] items).run [] with
  | error e finished => rfl
  | ok pairs finished => rfl

theorem run_compileBy (k : Kernel m n) (layer : Layer m n) (inPlace : Bool) :
    (compileBy layer inPlace).run k = k.scheduled layer inPlace := by
  rw [scheduled, compileBy, run_get_bind]
  cases k.arrange layer with
  | error e => rfl
  | ok a =>
    rw [KernelStep.run_ofExcept_bind, EStateM.run_bind, run_deliver]
    dsimp only
    cases (a.final.attach k [] a.top).run [] with
    | error e finished => rfl
    | ok pairs finished => rfl

theorem run_compile_of_error {e : CompileError} (h : Layer.analyze k = .error e) (inPlace : Bool) :
    (compile inPlace).run k = .error e k := by
  have hinfer : (infer inPlace).run k = .error e k := by
    rw [infer, run_get_bind, h]
    rfl
  exact run_bind_of_error _ hinfer

/-- A compilation that leaves the kernel alone. -/
theorem run_compile_false (h : Layer.analyze k = .ok layer) :
    (compile false).run k = k.scheduled layer false := by
  have hinfer : (infer false).run k = .ok layer k := by
    rw [infer, run_get_bind, h]
    rfl
  exact (run_bind_of_ok _ hinfer).trans (run_compileBy k layer false)

/-- A compilation in place goes on with the kernel that the layer was written into. -/
theorem run_compile_true (h : Layer.analyze k = .ok layer)
    (hcommit : layer.commit.run k = .ok () k') :
    (compile true).run k = k'.scheduled layer true := by
  have hinfer : (infer true).run k = .ok layer k' := by
    rw [infer, run_get_bind, h]
    exact run_bind_of_ok _ hcommit
  exact (run_bind_of_ok _ hinfer).trans (run_compileBy k' layer true)

/-- How the stages behind the analysis succeed. -/
theorem scheduled_eq_ok {inPlace : Bool} {c : Compilation}
    (h : k.scheduled layer inPlace = .ok c k') :
    ∃ a pairs fin, k.arrange layer = .ok a ∧ Nester.Attaches a.final k [] a.top [] pairs fin ∧
      c = ⟨k.parameters, pairs.map Prod.snd, Nest.lowerAll (pairs.map Prod.snd)⟩ ∧
      k' = if inPlace then k.adopt fin else k := by
  rw [scheduled] at h
  split at h
  · cases h
  · rename_i a harrange
    split at h
    · cases h
    · rename_i pairs fin hrun
      cases h
      exact ⟨a, pairs, fin, harrange, Nester.attaches_of_run hrun, rfl, rfl⟩

end Kernel

/-! ## The whole way -/

/-- What comes up on the way from a kernel to its nests: the layer, the arrangement, the nests of
what runs at the top, and the loops finished for them. -/
structure Nesting (m n : Nat) extends Arrangement m n where
  layer : Layer m n
  made : List (Ref m n × Nest)
  finished : List (Nester.Finished m n)

/-- The way from a kernel to its nests. -/
def Kernel.nesting (k : Kernel m n) : Except CompileError (Nesting m n) := do
  let layer ← Layer.analyze k
  let arranged ← k.arrange layer
  match (arranged.final.attach k [] arranged.top).run [] with
  | .ok made finished => return ⟨arranged, layer, made, finished⟩
  | .error e _ => throw e

/-- What is computed on the way to the end is a part of the result. -/
theorem Kernel.eq_of_nesting {α : Type} (part : Nesting m n → α) {N : Nesting m n}
    (hN : k.nesting = .ok N) {a : α} (h : k.nesting.toOption.map part = some a) : part N = a := by
  rw [hN] at h
  exact Option.some.inj h

/-- The steps of the way. -/
structure Nesting.Steps (k : Kernel m n) (N : Nesting m n) : Prop
    extends Arrangement.Steps k N.layer N.toArrangement where
  analyzed : Layer.analyze k = .ok N.layer
  attached : Nester.Attaches N.final k [] N.top [] N.made N.finished

/-- A compilation that leaves the kernel as it is goes this way. -/
theorem Kernel.nesting_of_compile {c : Compilation} (h : (Kernel.compile false).run k = .ok c k') :
    ∃ N, k.nesting = .ok N ∧ N.Steps k ∧ c.nests = N.made.map Prod.snd ∧
      c.tree = Nest.lowerAll c.nests := by
  cases hlayer : Layer.analyze k with
  | error e =>
    rw [run_compile_of_error hlayer] at h
    cases h
  | ok layer =>
    rw [run_compile_false hlayer] at h
    obtain ⟨a, pairs, fin, harrange, hattach, rfl, -⟩ := scheduled_eq_ok h
    refine ⟨⟨a, layer, pairs, fin⟩, ?_, ⟨arrange_eq_ok_iff.mp harrange, hlayer, hattach⟩, rfl, rfl⟩
    refine bind_eq_ok_iff.mpr ⟨layer, hlayer, bind_eq_ok_iff.mpr ⟨a, harrange, ?_⟩⟩
    simp only [hattach.run]
    rfl

end LoopNest
