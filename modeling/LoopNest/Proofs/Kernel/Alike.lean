import LoopNest.Kernel.Names
import LoopNest.Proofs.Kernel.Analysis
import LoopNest.Proofs.Schedule.Placement

/-!
# Kernels that differ in lists only

Compiling in place changes a kernel: the dependencies of its items, and the members of loops.  It
gives no item another name, body, bound or step, and adds and removes none.  Two kernels that differ
in such lists only are alike.  What is inferred from a kernel is the same for alike kernels, since
inference reads names, bodies and heads and only ever appends to the lists.

* `Kernel.Alike`: the kernels differ in lists only.
* `Layer.run_commit`: what a kernel is after a layer was written into it.
* `Kernel.Alike.infer`: the same is inferred.
-/

namespace LoopNest

variable {m n : Nat}

namespace Kernel

/-! ## Rows after a change -/

section Rows

variable (k : Kernel m n)

@[simp] theorem instruction_setLoop (l : Fin n) (value : Loop m n) (i : Fin m) :
    (k.setLoop l value).instruction i = k.instruction i := rfl

@[simp] theorem loop_setInstruction (i : Fin m) (value : Instruction) (l : Fin n) :
    (k.setInstruction i value).loop l = k.loop l := rfl

theorem deps_setDeps (r t : Ref m n) (deps : List String) :
    (k.setDeps r deps).deps t = if t = r then deps else k.deps t := by
  cases r with
  | instruction i =>
    cases t with
    | instruction j => by_cases h : j = i <;> simp [setDeps, Kernel.deps, h]
    | loop l => simp [setDeps, Kernel.deps]
  | loop l =>
    cases t with
    | instruction j => simp [setDeps, Kernel.deps]
    | loop e => by_cases h : e = l <;> simp [setDeps, Kernel.deps, h]

theorem members_setDeps (r : Ref m n) (deps : List String) (l : Fin n) :
    ((k.setDeps r deps).loop l).members = (k.loop l).members := by
  cases r with
  | instruction i => rfl
  | loop e => by_cases h : l = e <;> simp [setDeps, h]

theorem deps_setMembers (l : Fin n) (members : List (Ref m n)) (r : Ref m n) :
    (k.setMembers l members).deps r = k.deps r := by
  cases r with
  | instruction i => rfl
  | loop e => by_cases h : e = l <;> simp [setMembers, Kernel.deps, h]

theorem members_setMembers (l e : Fin n) (members : List (Ref m n)) :
    ((k.setMembers l members).loop e).members = if e = l then members else (k.loop e).members := by
  by_cases h : e = l <;> simp [setMembers, h]

end Rows

/-! ## Alike kernels -/

/-- The kernels have the same items, and each row of the second is that of the first with other
dependencies and members. -/
structure Alike (k k' : Kernel m n) : Prop where
  instructions : k'.instructions = k.instructions
  loops : k'.loops = k.loops
  instruction : ∀ i, ∃ deps, k'.instruction i = { k.instruction i with deps }
  head : ∀ l, ∃ deps, (k'.loop l).head = { (k.loop l).head with deps }

namespace Alike

variable {k k' k'' : Kernel m n}

theorem refl (k : Kernel m n) : k.Alike k := ⟨rfl, rfl, fun _ => ⟨_, rfl⟩, fun _ => ⟨_, rfl⟩⟩

theorem trans (h : k.Alike k') (h' : k'.Alike k'') : k.Alike k'' where
  instructions := h'.instructions.trans h.instructions
  loops := h'.loops.trans h.loops
  instruction i := by
    obtain ⟨deps, heq⟩ := h.instruction i
    obtain ⟨deps', heq'⟩ := h'.instruction i
    exact ⟨deps', by rw [heq', heq]⟩
  head l := by
    obtain ⟨deps, heq⟩ := h.head l
    obtain ⟨deps', heq'⟩ := h'.head l
    exact ⟨deps', by rw [heq', heq]⟩

theorem symm (h : k.Alike k') : k'.Alike k where
  instructions := h.instructions.symm
  loops := h.loops.symm
  instruction i := by
    obtain ⟨deps, heq⟩ := h.instruction i
    exact ⟨(k.instruction i).deps, by rw [heq]⟩
  head l := by
    obtain ⟨deps, heq⟩ := h.head l
    exact ⟨(k.loop l).head.deps, by rw [heq]⟩

theorem of_setDeps (k : Kernel m n) (r : Ref m n) (deps : List String) :
    k.Alike (k.setDeps r deps) := by
  cases r with
  | instruction i =>
    refine ⟨rfl, rfl, fun j => ?_, fun l => ⟨_, rfl⟩⟩
    by_cases h : j = i
    · exact ⟨deps, by simp [setDeps, h]⟩
    · exact ⟨_, by rw [setDeps, instruction_setInstruction, if_neg h]⟩
  | loop l =>
    refine ⟨rfl, rfl, fun i => ⟨_, rfl⟩, fun e => ?_⟩
    by_cases h : e = l
    · exact ⟨deps, by simp [setDeps, h]⟩
    · exact ⟨_, by rw [setDeps, loop_setLoop, if_neg h]⟩

theorem of_setMembers (k : Kernel m n) (l : Fin n) (members : List (Ref m n)) :
    k.Alike (k.setMembers l members) := by
  refine ⟨rfl, rfl, fun i => ⟨_, rfl⟩, fun e => ?_⟩
  by_cases h : e = l
  · exact ⟨_, by rw [setMembers, loop_setLoop, if_pos h, h]⟩
  · exact ⟨_, by rw [setMembers, loop_setLoop, if_neg h]⟩

variable (h : k.Alike k')

include h

theorem items : k'.items = k.items := by
  rw [Kernel.items, Kernel.items, h.instructions, h.loops]

theorem instruction_name (i : Fin m) : (k'.instruction i).name = (k.instruction i).name := by
  obtain ⟨deps, heq⟩ := h.instruction i
  rw [heq]

theorem body (i : Fin m) : (k'.instruction i).body = (k.instruction i).body := by
  obtain ⟨deps, heq⟩ := h.instruction i
  rw [heq]

theorem loop_name (l : Fin n) : (k'.loop l).head.name = (k.loop l).head.name := by
  obtain ⟨deps, heq⟩ := h.head l
  rw [heq]

theorem head_mentions (l : Fin n) (x : String) :
    (k'.loop l).head.mentions x = (k.loop l).head.mentions x := by
  obtain ⟨deps, heq⟩ := h.head l
  rw [heq]
  rfl

theorem name (r : Ref m n) : k'.name r = k.name r := by
  cases r with
  | instruction i => exact h.instruction_name i
  | loop l => exact h.loop_name l

theorem name_eq : k'.name = k.name := funext h.name

theorem needs (layer : Layer m n) : k'.needs layer = k.needs layer := by
  funext r
  rw [Kernel.needs, h.name, Kernel.needs]

theorem distinct (hk : k.Distinct) : k'.Distinct :=
  SameNames.distinct ⟨h.items, h.name⟩ hk

end Alike
end Kernel

/-! ## Writing a layer into a kernel -/

/-- The members of a loop by a layer: what the layer lists for it if it is the kernel's own, and
what it declares otherwise. -/
def Kernel.listed (k : Kernel m n) (layer : Layer m n) (l : Fin n) : List (Ref m n) :=
  if k.loops.contains l then (layer.members.find? (k.loop l).head.name).getD []
  else (k.loop l).members

theorem Kernel.listed_eq (k : Kernel m n) (layer : Layer m n) (l : Fin n) :
    k.listed layer l = if l ∈ k.loops then (layer.members.find? (k.loop l).head.name).getD []
      else (k.loop l).members := by
  simp only [listed, List.contains_iff_mem]

namespace Layer

/-- The second kernel is the first with the lists of the layer written into its items. -/
structure Committed (layer : Layer m n) (k k' : Kernel m n) : Prop where
  alike : k.Alike k'
  deps : ∀ r, k'.deps r = if r ∈ k.items then k.needs layer r else k.deps r
  members : ∀ l, (k'.loop l).members = k.listed layer l

variable {layer : Layer m n} {k : Kernel m n}

/-- Writing the dependencies of some items. -/
theorem run_forM_setDeps {rs : List (Ref m n)}
    (h : ∀ r ∈ rs, layer.deps.contains (k.name r) = true) :
    ∃ k', (rs.forM fun r => do
        let k ← get
        match layer.depsOf (k.name r) with
        | .error e => throw e
        | .ok deps => set (k.setDeps r deps) : EStateM CompileError (Kernel m n) Unit).run k
          = .ok () k' ∧
      k.Alike k' ∧ (∀ r, k'.deps r = if r ∈ rs then k.needs layer r else k.deps r) ∧
      ∀ l, (k'.loop l).members = (k.loop l).members := by
  induction rs generalizing k with
  | nil => exact ⟨k, rfl, .refl k, by simp, fun _ => rfl⟩
  | cons r rs ih =>
    obtain ⟨deps, hdeps⟩ := NameMap.contains_eq_true_iff.mp (h r List.mem_cons_self)
    have hstep := Kernel.Alike.of_setDeps k r deps
    obtain ⟨k', hrun, halike, hlists, hmembers⟩ := ih (k := k.setDeps r deps) fun t ht => by
      rw [hstep.name]
      exact h t (List.mem_cons_of_mem _ ht)
    refine ⟨k', ?_, hstep.trans halike, fun t => ?_, fun l => ?_⟩
    · refine run_bind_eq_ok_iff.mpr ⟨(), k.setDeps r deps, ?_, hrun⟩
      refine run_bind_eq_ok_iff.mpr ⟨k, k, rfl, ?_⟩
      rw [Graph.depsOf_eq_ok_iff.mpr hdeps]
      rfl
    · have hneeds : k.needs layer r = deps := congrArg (Option.getD · []) hdeps
      rw [hlists, hstep.needs, Kernel.deps_setDeps]
      by_cases htr : t = r
      · simp [htr, hneeds]
      · simp [htr]
    · rw [hmembers, Kernel.members_setDeps]

/-- Writing the members of some loops. -/
theorem run_forM_setMembers {ls : List (Fin n)}
    (h : ∀ l ∈ ls, layer.members.contains (k.loop l).head.name = true) :
    ∃ k', (ls.forM fun l => do
        let k ← get
        match layer.membersOf (k.loop l).head.name with
        | .error e => throw e
        | .ok members => set (k.setMembers l members) : EStateM CompileError (Kernel m n) Unit).run
          k = .ok () k' ∧
      k.Alike k' ∧ (∀ r, k'.deps r = k.deps r) ∧
      ∀ l, (k'.loop l).members
        = if l ∈ ls then (layer.members.find? (k.loop l).head.name).getD []
          else (k.loop l).members := by
  induction ls generalizing k with
  | nil => exact ⟨k, rfl, .refl k, fun _ => rfl, by simp⟩
  | cons l ls ih =>
    obtain ⟨members, hmembers⟩ := NameMap.contains_eq_true_iff.mp (h l List.mem_cons_self)
    have hstep := Kernel.Alike.of_setMembers k l members
    obtain ⟨k', hrun, halike, hdeps, hlists⟩ := ih (k := k.setMembers l members) fun e he => by
      rw [hstep.loop_name]
      exact h e (List.mem_cons_of_mem _ he)
    refine ⟨k', ?_, hstep.trans halike, fun r => ?_, fun e => ?_⟩
    · refine run_bind_eq_ok_iff.mpr ⟨(), k.setMembers l members, ?_, hrun⟩
      refine run_bind_eq_ok_iff.mpr ⟨k, k, rfl, ?_⟩
      rw [membersOf, hmembers]
      rfl
    · rw [hdeps, Kernel.deps_setMembers]
    · rw [hlists, hstep.loop_name, Kernel.members_setMembers]
      by_cases hel : e = l
      · simp [hel, hmembers]
      · simp [hel]

/-- **Writing a layer into a kernel** succeeds where the layer has a list for everything. -/
theorem run_commit (h : layer.Covers k) :
    ∃ k', layer.commit.run k = .ok () k' ∧ layer.Committed k k' := by
  obtain ⟨k₁, hrun₁, halike₁, hdeps₁, hmembers₁⟩ := run_forM_setDeps h.deps
  have hcovered : ∀ l ∈ k₁.loops, layer.members.contains (k₁.loop l).head.name = true := by
    intro l hl
    rw [halike₁.loop_name]
    exact h.members l (halike₁.loops ▸ hl)
  obtain ⟨k₂, hrun₂, halike₂, hdeps₂, hmembers₂⟩ := run_forM_setMembers hcovered
  refine ⟨k₂, ?_, halike₁.trans halike₂, fun r => ?_, fun l => ?_⟩
  · refine run_bind_eq_ok_iff.mpr ⟨k, k, rfl, ?_⟩
    refine run_bind_eq_ok_iff.mpr ⟨(), k₁, hrun₁, ?_⟩
    exact run_bind_eq_ok_iff.mpr ⟨k₁, k₁, rfl, hrun₂⟩
  · rw [hdeps₂, hdeps₁]
  · rw [hmembers₂, hmembers₁, halike₁.loops, halike₁.loop_name, Kernel.listed_eq]

end Layer

/-! ## The same inference -/

namespace Kernel.Alike

open Layer

variable {k k' : Kernel m n} (h : k.Alike k')

include h

theorem addOrder (earlier : List String) (is : List (Fin m)) :
    addOrder k' earlier is = Layer.addOrder k earlier is := by
  induction is generalizing earlier with
  | nil => rfl
  | cons i is ih => simp only [Layer.addOrder, h.instruction_name, h.body, ih]

theorem addInners (ls : List (Fin n)) : addInners k' ls = Layer.addInners k ls := by
  induction ls with
  | nil => rfl
  | cons l ls ih =>
    have hinner : addInner k' l = addInner k l := by
      funext e
      simp only [addInner, h.loop_name, h.head_mentions]
    rw [Layer.addInners, Layer.addInners, hinner, ih]

/-- From alike kernels the same is inferred. -/
theorem infer : Layer.infer k' = Layer.infer k := by
  have hmention : ∀ i l, addMention k' i l = addMention k i l := by
    intro i l
    simp only [addMention, h.instruction_name, h.body, h.loop_name]
  simp only [Layer.infer, inferOrder, inferLoops, h.addOrder, h.addInners, h.instructions, h.loops,
    hmention]

end Kernel.Alike
end LoopNest
