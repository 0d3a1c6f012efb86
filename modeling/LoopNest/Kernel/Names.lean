import LoopNest.Compilation

/-!
# Names that stay

Nothing that is done to a kernel gives one of its items another name, or changes which items are its
own.  So a kernel whose items have different names keeps them different: after a change by its
caller, and after a compilation in place, also after one that fails halfway.

* `Kernel.SameNames`: the same items with the same names.
* `KernelStep.KeepsNames`: a computation keeps them, whether it fails or not.
* `Kernel.sameNames_compile`: compiling does.
-/

namespace LoopNest

variable {m n : Nat}

/-- The kernels have the same items of their own, and each item has one name in both. -/
structure Kernel.SameNames (k k' : Kernel m n) : Prop where
  items : k'.items = k.items
  name : ∀ r, k'.name r = k.name r

namespace Kernel

theorem SameNames.refl (k : Kernel m n) : k.SameNames k := ⟨rfl, fun _ => rfl⟩

theorem SameNames.trans {k k' k'' : Kernel m n} (h : k.SameNames k') (h' : k'.SameNames k'') :
    k.SameNames k'' :=
  ⟨h'.items.trans h.items, fun r => (h'.name r).trans (h.name r)⟩

theorem SameNames.distinct {k k' : Kernel m n} (h : k.SameNames k') (hk : k.Distinct) :
    k'.Distinct := by
  rw [Distinct, h.items, funext h.name]
  exact hk

variable (k : Kernel m n)

/-! ## Rows after a change -/

@[simp] theorem instruction_setInstruction (i j : Fin m) (value : Instruction) :
    (k.setInstruction i value).instruction j = if j = i then value else k.instruction j := by
  unfold instruction setInstruction
  simp only [Fin.getElem_fin, Vector.getElem_set, Fin.val_inj, eq_comm]

@[simp] theorem loop_setLoop (l e : Fin n) (value : Loop m n) :
    (k.setLoop l value).loop e = if e = l then value else k.loop e := by
  unfold loop setLoop
  simp only [Fin.getElem_fin, Vector.getElem_set, Fin.val_inj, eq_comm]

theorem sameNames_setInstruction {i : Fin m} {value : Instruction}
    (h : value.name = (k.instruction i).name) : k.SameNames (k.setInstruction i value) := by
  refine ⟨rfl, fun r => ?_⟩
  cases r with
  | instruction j => by_cases hj : j = i <;> simp [name, hj, h]
  | loop l => rfl

theorem sameNames_setLoop {l : Fin n} {value : Loop m n}
    (h : value.head.name = (k.loop l).head.name) : k.SameNames (k.setLoop l value) := by
  refine ⟨rfl, fun r => ?_⟩
  cases r with
  | instruction i => rfl
  | loop e => by_cases he : e = l <;> simp [name, he, h]

theorem sameNames_setDeps (r : Ref m n) (deps : List String) : k.SameNames (k.setDeps r deps) := by
  cases r with
  | instruction i => exact k.sameNames_setInstruction rfl
  | loop l => exact k.sameNames_setLoop rfl

theorem sameNames_setMembers (l : Fin n) (members : List (Ref m n)) :
    k.SameNames (k.setMembers l members) :=
  k.sameNames_setLoop rfl

theorem sameNames_adopt (finished : List (Nester.Finished m n)) :
    k.SameNames (k.adopt finished) := by
  induction finished generalizing k with
  | nil => exact .refl k
  | cons f finished ih => exact (k.sameNames_setMembers f.loop f.members).trans (ih _)

end Kernel

/-! ## Computations -/

/-- The kernel that a computation leaves, whether it fails or not. -/
def Kernel.left {α : Type} : EStateM.Result CompileError (Kernel m n) α → Kernel m n
  | .ok _ k => k
  | .error _ k => k

/-- The computation keeps the names of the items, whether it fails or not. -/
def KernelStep.KeepsNames {α : Type} (step : KernelStep m n α) : Prop :=
  ∀ k : Kernel m n, k.SameNames (Kernel.left (step.run k))

namespace KernelStep

variable {α β : Type}

theorem keepsNames_get : (get : KernelStep m n (Kernel m n)).KeepsNames := fun k => .refl k

theorem keepsNames_ofExcept (outcome : Except CompileError α) :
    (ofExcept outcome : KernelStep m n α).KeepsNames := by
  intro k
  cases outcome with
  | ok a => exact .refl k
  | error e => exact .refl k

theorem KeepsNames.bind {step : KernelStep m n α} {f : α → KernelStep m n β}
    (hstep : step.KeepsNames) (hf : ∀ a, (f a).KeepsNames) : (step >>= f).KeepsNames := by
  intro k
  have hfirst := hstep k
  rw [EStateM.run_bind]
  cases hrun : step.run k with
  | ok a k₁ =>
    rw [hrun] at hfirst
    exact hfirst.trans (hf a k₁)
  | error e k₁ =>
    rw [hrun] at hfirst
    exact hfirst

theorem keepsNames_forM {f : α → KernelStep m n PUnit} (hf : ∀ a, (f a).KeepsNames) (l : List α) :
    (l.forM f).KeepsNames := by
  induction l with
  | nil => exact fun k => .refl k
  | cons a l ih => exact (hf a).bind fun _ => ih

end KernelStep

namespace Kernel

open KernelStep

theorem keepsNames_commit (layer : Layer m n) : KeepsNames layer.commit := by
  refine keepsNames_get.bind fun k => (keepsNames_forM (fun r k => ?_) k.items).bind fun _ =>
    keepsNames_get.bind fun k => keepsNames_forM (fun l k => ?_) k.loops
  · rw [EStateM.run_bind, EStateM.run_get]
    dsimp only
    cases layer.depsOf (k.name r) with
    | error e => exact .refl k
    | ok deps => exact k.sameNames_setDeps r deps
  · rw [EStateM.run_bind, EStateM.run_get]
    dsimp only
    cases layer.membersOf (k.loop l).head.name with
    | error e => exact .refl k
    | ok members => exact k.sameNames_setMembers l members

theorem keepsNames_deliver (s : Nester m n) (items : List (Ref m n)) (inPlace : Bool) :
    KeepsNames (s.deliver items inPlace) := by
  intro k
  have hafter : k.SameNames (s.materialize k items inPlace).1 := by
    cases inPlace with
    | false => exact .refl k
    | true => exact k.sameNames_adopt _
  have hmade : KeepsNames (KernelStep.ofExcept (s.materialize k items inPlace).2 >>= fun made =>
      pure (made.map Prod.snd) : KernelStep m n (List Nest)) :=
    (keepsNames_ofExcept _).bind fun _ k => .refl k
  exact hafter.trans (hmade _)

theorem keepsNames_compileBy (layer : Layer m n) (inPlace : Bool) :
    KeepsNames (compileBy layer inPlace : KernelStep m n Compilation) :=
  keepsNames_get.bind fun _ => (keepsNames_ofExcept _).bind fun arranged =>
    (keepsNames_deliver arranged.final arranged.top inPlace).bind fun _ k => .refl k

theorem keepsNames_infer (inPlace : Bool) :
    KeepsNames (infer inPlace : KernelStep m n (Layer m n)) := by
  refine keepsNames_get.bind fun k => (keepsNames_ofExcept _).bind fun layer => ?_
  cases inPlace with
  | false => exact fun k => .refl k
  | true => exact (keepsNames_commit layer).bind fun _ k => .refl k

/-- **Compiling keeps the names of the items**, in place or not, and whether it fails or not. -/
theorem sameNames_compile (k : Kernel m n) (inPlace : Bool) :
    k.SameNames (left ((compile inPlace).run k)) :=
  (keepsNames_infer inPlace).bind (keepsNames_compileBy · inPlace) k

end Kernel
end LoopNest
