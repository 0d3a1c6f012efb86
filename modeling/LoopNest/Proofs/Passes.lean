import LoopNest.Passes
import LoopNest.Proofs.Compilation
import LoopNest.Proofs.StagePlan

/-!
# The plan of the passes, and the compilation

`Kernel.compile` names its stages in the order in which they run.  This is the order that the plan
gives to the passes.  Running the plan comes to the same compilation, or to the same failure, and
leaves the same kernel.

The plan itself cannot fail.  The passes require all that they read, so that in every order in which
they stand after what they require, each finds what it needs.

* `Pass.order_plan`: the order of the passes.
* `Pass.runEach_work_ne_plan`: no pass misses a result, in any order that the plan allows.
* `Kernel.compileByPlan_eq`: running the plan is compiling.
-/

namespace LoopNest

variable {m n : Nat}

theorem Findings.has_put {κ : Type} [DecidableEq κ] {ρ : κ → Type} (found : Findings κ ρ) (x y : κ)
    (result : ρ x) : (found.put x result).has y = (decide (x = y) || found.has y) := by
  by_cases h : x = y
  · subst h
    simp [has, put]
  · simp [has, put, h]

namespace Pass

variable {inPlace : Bool} {p : Pass}

/-- **The order of the passes**: as they are registered, but for the symbols, which wait for
nothing. -/
theorem order_plan : StagePlan.order name plan =
    .ok [.dependencies, .symbols, .graph, .order, .nesting, .lowering] := by
  cbv

theorem requires_plan_iff {q : Pass} : StagePlan.Requires plan p q ↔ q ∈ p.requires := by
  constructor
  · rintro ⟨s, hs, rfl, hq⟩
    obtain ⟨p, -, rfl⟩ := List.mem_map.mp hs
    exact hq
  · intro hq
    refine ⟨⟨p, p.requires⟩, List.mem_map.mpr ⟨p, ?_, rfl⟩, rfl, hq⟩
    cases p <;> decide

/-! ## One pass -/

section Work

variable {k after : Kernel m n} {found : Findings Pass (Result m n)}
  {t : KernelStep m n (p.Result m n)}

theorem work_of_ok {result : p.Result m n} (htask : p.task inPlace found = .ok t)
    (hrun : t.run k = .ok result after) :
    (work inPlace p).run ⟨k, found⟩ = .ok () ⟨after, found.put p result⟩ := by
  rw [EStateM.run, work, htask]
  dsimp only
  rw [hrun]

theorem work_of_error {e : CompileError} (htask : p.task inPlace found = .ok t)
    (hrun : t.run k = .error e after) :
    (work inPlace p).run ⟨k, found⟩ = .error (.stage e) ⟨after, found⟩ := by
  rw [EStateM.run, work, htask]
  dsimp only
  rw [hrun]

theorem work_symbols (inPlace : Bool) (k : Kernel m n) (found : Findings Pass (Result m n)) :
    (work inPlace .symbols).run ⟨k, found⟩ = .ok () ⟨k, found.put .symbols k.parameters⟩ := rfl

/-- A pass reads only what it requires. -/
theorem exists_task (inPlace : Bool) (h : ∀ q ∈ p.requires, found.has q = true) :
    ∃ t, p.task inPlace found = .ok t := by
  have hget : ∀ q ∈ p.requires, ∃ result, found.get name q = .ok result := by
    intro q hq
    obtain ⟨result, hresult⟩ := Option.isSome_iff_exists.mp (h q hq)
    exact ⟨result, by rw [Findings.get, hresult]; rfl⟩
  cases p with
  | dependencies => exact ⟨_, rfl⟩
  | symbols => exact ⟨_, rfl⟩
  | graph =>
    obtain ⟨layer, hlayer⟩ := hget .dependencies (by decide)
    exact ⟨_, by rw [task, hlayer]; rfl⟩
  | order =>
    obtain ⟨graph, hgraph⟩ := hget .graph (by decide)
    exact ⟨_, by rw [task, hgraph]; rfl⟩
  | nesting =>
    obtain ⟨layer, hlayer⟩ := hget .dependencies (by decide)
    obtain ⟨order, horder⟩ := hget .order (by decide)
    exact ⟨_, by rw [task, hlayer, horder]; rfl⟩
  | lowering =>
    obtain ⟨nests, hnests⟩ := hget .nesting (by decide)
    exact ⟨_, by rw [task, hnests]; rfl⟩

end Work

/-! ## All passes -/

/-- **No pass misses a result that it reads**, in any order in which the passes stand after those
that they require. -/
theorem runEach_work_ne_plan {xs : List Pass} (h : StagePlan.Ordered plan xs) (k : Kernel m n)
    (e : PlanError) (w : Workbench m n) :
    (StagePlan.runEach (work inPlace) xs).run ⟨k, .none⟩ ≠ .error (.stage (.plan e)) w := by
  -- the induction is on the passes still to run; those before them have left their results
  suffices hrest : ∀ (rest done : List Pass) (k : Kernel m n) (found : Findings Pass (Result m n)),
      StagePlan.Ordered plan (done ++ rest) → (∀ q ∈ done, found.has q = true) →
      (StagePlan.runEach (work inPlace) rest).run ⟨k, found⟩ ≠ .error (.stage (.plan e)) w from
    hrest xs [] k .none h (by simp)
  intro rest
  induction rest with
  | nil =>
    intro done k found _ _ hrun
    cases hrun
  | cons p rest ih =>
    intro done k found hordered hdone
    obtain ⟨t, htask⟩ := exists_task inPlace fun q hq =>
      hdone q (hordered done p rest rfl q (requires_plan_iff.mpr hq))
    cases hrun : t.run k with
    | error e' after =>
      rw [StagePlan.runEach_cons_of_error (work_of_error htask hrun)]
      rintro ⟨⟩
    | ok result after =>
      rw [StagePlan.runEach_cons_of_ok (work_of_ok htask hrun)]
      refine ih (done ++ [p]) after _ (by rwa [List.append_assoc]) fun q hq => ?_
      rw [Findings.has_put, Bool.or_eq_true, decide_eq_true_eq]
      rcases List.mem_append.mp hq with hq | hq
      · exact .inr (hdone q hq)
      · exact .inl (List.mem_singleton.mp hq).symm

end Pass

namespace Kernel

open StagePlan Pass in
/-- **Running the plan is compiling**, in place or not: the result is the same, or the failure, and
so is the kernel that is left. -/
theorem compileByPlan_eq (inPlace : Bool) :
    (compileByPlan inPlace : EStateM (RunError CompileError) (Kernel m n) Compilation)
      = (compile inPlace).adaptExcept .stage := by
  funext k
  have hplan := (runsAs_of_order order_plan).each (work (m := m) (n := n) inPlace)
  show compileByPlan inPlace k = ((compile inPlace).adaptExcept .stage).run k
  rw [compileByPlan, hplan]
  cases hinfer : (infer inPlace).run k with
  | error e after =>
    have hcompile : (compile inPlace).run k = .error e after := run_bind_of_error _ hinfer
    rw [runEach_cons_of_error (work_of_error rfl hinfer), run_adaptExcept_of_error _ hcompile]
    rfl
  | ok layer after =>
    have hcompile : (compile inPlace).run k = (compileBy layer inPlace).run after :=
      run_bind_of_ok _ hinfer
    rw [compileBy, run_get_bind, arrange] at hcompile
    rw [runEach_cons_of_ok (work_of_ok rfl hinfer), runEach_cons_of_ok (work_symbols ..)]
    cases hgraph : Graph.build after layer with
    | error e =>
      rw [hgraph] at hcompile
      rw [runEach_cons_of_error (work_of_error rfl (by rw [run_get_bind, hgraph]; rfl)),
        run_adaptExcept_of_error _ hcompile]
      rfl
    | ok g =>
      rw [hgraph, bind_ok, ← bind_assoc] at hcompile
      rw [runEach_cons_of_ok (work_of_ok rfl (by rw [run_get_bind, hgraph]; rfl)),
        runEach_cons_of_ok (work_of_ok rfl rfl)]
      cases hnest : (KernelStep.ofExcept (after.nestOrder layer g.drain.1) >>= fun arranged =>
          arranged.final.deliver arranged.top inPlace).run after with
      | error e last =>
        rw [run_bind_of_error _ hnest] at hcompile
        rw [runEach_cons_of_error (work_of_error rfl hnest), run_adaptExcept_of_error _ hcompile]
        rfl
      | ok nests last =>
        rw [run_bind_of_ok _ hnest] at hcompile
        rw [runEach_cons_of_ok (work_of_ok rfl hnest), runEach_cons_of_ok (work_of_ok rfl rfl),
          run_adaptExcept_of_ok _ hcompile]
        rfl

end Kernel
end LoopNest
