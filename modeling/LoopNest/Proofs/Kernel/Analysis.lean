import LoopNest.Proofs.Kernel.Inference

/-!
# When an analysis succeeds

Inference asks the layer for lists that are there from the start: one of dependencies for each item
and one of members for each loop of the kernel (`Layer.Covers`).  Appending takes none away, so this
never fails.  What can fail is the question what an instruction writes.  It is asked of every
instruction but the first, in order, and the first one without an answer ends the analysis
(`Kernel.malformed?`).

* `Layer.Total`: a step that succeeds on every layer with all lists.
* `Layer.run_infer`: how inference ends, from any such layer.
* `Layer.analyze_eq_error`, `Layer.exists_analyze_eq_ok`: how an analysis ends.
-/

namespace LoopNest

variable {m n : Nat}

/-- The error at an instruction of which it cannot be said what it writes. -/
def Kernel.unwritten? (k : Kernel m n) (i : Fin m) : Option CompileError :=
  match (k.instruction i).body.readsOwnTarget with
  | .error part => some (.unwritten part (some (k.instruction i).name))
  | .ok _ => none

/-- The first such error behind the first instruction. -/
def Kernel.malformed? (k : Kernel m n) : Option CompileError :=
  k.instructions.tail.findSome? k.unwritten?

namespace Layer

/-- The layer has a list of dependencies for each item and a list of members for each loop. -/
structure Covers (layer : Layer m n) (k : Kernel m n) : Prop where
  deps : ∀ r ∈ k.items, layer.deps.contains (k.name r) = true
  members : ∀ l ∈ k.loops, layer.members.contains (k.loop l).head.name = true

theorem covers_declared (k : Kernel m n) : (declared k).Covers k where
  deps r hr := by
    rw [declared, NameMap.contains_ofList, List.map_map]
    exact List.mem_map_of_mem (f := k.name) hr
  members l hl := by
    rw [declared, NameMap.contains_ofList, List.map_map]
    exact List.mem_map_of_mem (f := fun l => (k.loop l).head.name) hl

theorem Extends.covers {k : Kernel m n} {a b : Layer m n} {deps : String → List String}
    {members : String → List (Ref m n)} {count : Nat} (h : Extends a b deps members count)
    (ha : a.Covers k) : b.Covers k where
  deps r hr := by
    obtain ⟨list, hlist⟩ := NameMap.contains_eq_true_iff.mp (ha.deps r hr)
    exact NameMap.contains_eq_true_iff.mpr ⟨_, by rw [h.deps, hlist]; rfl⟩
  members l hl := by
    obtain ⟨list, hlist⟩ := NameMap.contains_eq_true_iff.mp (ha.members l hl)
    exact NameMap.contains_eq_true_iff.mpr ⟨_, by rw [h.members, hlist]; rfl⟩

/-! ## Steps that succeed -/

/-- From every layer with all lists the step succeeds, and all lists are still there. -/
def Total (k : Kernel m n) (f : LayerStep m n Unit) : Prop :=
  ∀ a, Covers a k → ∃ b, f.run a = .ok () b ∧ Covers b k

namespace Total

variable {k : Kernel m n} {f g : LayerStep m n Unit}

theorem nothing : Total k (pure ()) := fun a ha => ⟨a, rfl, ha⟩

theorem andThen (hf : Total k f) (hg : Total k g) : Total k (do f; g) := by
  intro a ha
  obtain ⟨b, hrun, hb⟩ := hf a ha
  obtain ⟨c, hrun', hc⟩ := hg b hb
  exact ⟨c, run_bind_eq_ok_iff.mpr ⟨(), b, hrun, hrun'⟩, hc⟩

theorem forM {α : Type} {step : α → LayerStep m n Unit} {l : List α}
    (h : ∀ e ∈ l, Total k (step e)) : Total k (l.forM step) := by
  induction l with
  | nil => exact nothing
  | cons e l ih =>
    exact (h e List.mem_cons_self).andThen (ih fun d hd => h d (List.mem_cons_of_mem _ hd))

end Total

variable {k : Kernel m n}

theorem total_addDep {r : Ref m n} (hr : r ∈ k.items) (dep : String) :
    Total k (addDep (k.name r) dep) := by
  intro a ha
  obtain ⟨deps, hdeps⟩ := NameMap.contains_eq_true_iff.mp (ha.deps r hr)
  have hrun : (addDep (k.name r) dep).run a = .ok ()
      { a with deps := a.deps.insert (k.name r) (deps ++ [dep]), inferred := a.inferred + 1 } := by
    refine run_bind_eq_ok_iff.mpr ⟨a, a, rfl, ?_⟩
    rw [depsOf, hdeps]
    rfl
  exact ⟨_, hrun, (extends_addDep hrun).covers ha⟩

theorem total_addMember {l : Fin n} (hl : l ∈ k.loops) (member : Ref m n) :
    Total k (addMember (k.loop l).head.name member) := by
  intro a ha
  obtain ⟨members, hmembers⟩ := NameMap.contains_eq_true_iff.mp (ha.members l hl)
  have hrun : (addMember (k.loop l).head.name member).run a = .ok ()
      { a with members := a.members.insert (k.loop l).head.name (members ++ [member]) } := by
    refine run_bind_eq_ok_iff.mpr ⟨a, a, rfl, ?_⟩
    rw [membersOf, hmembers]
    rfl
  exact ⟨_, hrun, (extends_addMember hrun).covers ha⟩

theorem total_addMention {i : Fin m} {l : Fin n} (hi : i ∈ k.instructions) (hl : l ∈ k.loops) :
    Total k (addMention k i l) := by
  have hitem : Ref.instruction i ∈ k.items := List.mem_append_left _ (List.mem_map_of_mem hi)
  simp only [addMention]
  split
  · exact (total_addDep hitem _).andThen (total_addMember hl _)
  · exact Total.nothing

theorem total_addInner {outer inner : Fin n} (houter : outer ∈ k.loops) (hinner : inner ∈ k.loops) :
    Total k (addInner k outer inner) := by
  have hitem : Ref.loop inner ∈ k.items := List.mem_append_right _ (List.mem_map_of_mem hinner)
  simp only [addInner]
  split
  · exact (total_addDep hitem _).andThen (total_addMember houter _)
  · exact Total.nothing

theorem total_addInners {ls : List (Fin n)} (hls : ∀ l ∈ ls, l ∈ k.loops) :
    Total k (addInners k ls) := by
  induction ls with
  | nil => exact Total.nothing
  | cons l ls ih =>
    have hrest : ∀ e ∈ ls, e ∈ k.loops := fun e he => hls e (List.mem_cons_of_mem _ he)
    exact (Total.forM fun e he => total_addInner (hls l List.mem_cons_self) (hrest e he)).andThen
      (ih hrest)

theorem total_inferLoops : Total k (inferLoops k) :=
  (Total.forM fun _ hi => Total.forM fun _ hl => total_addMention hi hl).andThen
    (total_addInners fun _ hl => hl)

/-! ## The order of the instructions -/

/-- Behind other instructions, each is asked what it writes, and the first that cannot say it ends
the pass. -/
theorem run_addOrder {earlier : List String} (hearlier : earlier ≠ []) {is : List (Fin m)}
    (his : ∀ i ∈ is, i ∈ k.instructions) {a : Layer m n} (ha : a.Covers k) :
    (∀ e, is.findSome? k.unwritten? = some e → ∃ b, (addOrder k earlier is).run a = .error e b) ∧
      (is.findSome? k.unwritten? = none →
        ∃ b, (addOrder k earlier is).run a = .ok () b ∧ b.Covers k) := by
  induction is generalizing earlier a with
  | nil =>
    refine ⟨fun e he => ?_, fun _ => ⟨a, rfl, ha⟩⟩
    cases he
  | cons i rest ih =>
    have hi : i ∈ k.instructions := his i List.mem_cons_self
    have hitem : Ref.instruction i ∈ k.items := List.mem_append_left _ (List.mem_map_of_mem hi)
    have hasked : ¬ earlier.isEmpty = true := by simpa using hearlier
    rw [addOrder, if_neg hasked, List.findSome?_cons]
    cases hreads : (k.instruction i).body.readsOwnTarget with
    | error part =>
      have hunwritten : k.unwritten? i = some (.unwritten part (some (k.instruction i).name)) := by
        rw [Kernel.unwritten?, hreads]
      rw [hunwritten]
      refine ⟨fun e he => ?_, fun hnone => by cases hnone⟩
      cases he
      exact ⟨a, run_bind_of_error _ rfl⟩
    | ok reads =>
      have hwritten : k.unwritten? i = none := by rw [Kernel.unwritten?, hreads]
      rw [hwritten]
      have hmore : earlier ++ [(k.instruction i).name] ≠ [] := by simp
      have hrest : ∀ j ∈ rest, j ∈ k.instructions := fun j hj => his j (List.mem_cons_of_mem _ hj)
      cases reads with
      | false => exact ih hmore hrest ha
      | true =>
        obtain ⟨b, hrun, hb⟩ := Total.forM (fun dep _ => total_addDep hitem dep) a ha
        have hstep : (earlier.forM (addDep (k.instruction i).name) >>= fun _ =>
            addOrder k (earlier ++ [(k.instruction i).name]) rest).run a
              = (addOrder k (earlier ++ [(k.instruction i).name]) rest).run b :=
          run_bind_of_ok _ hrun
        refine ⟨fun e he => ?_, fun hnone => ?_⟩
        · obtain ⟨c, hc⟩ := (ih hmore hrest hb).1 e he
          exact ⟨c, hstep.trans hc⟩
        · obtain ⟨c, hc, hcovers⟩ := (ih hmore hrest hb).2 hnone
          exact ⟨c, hstep.trans hc, hcovers⟩

/-- **How inference ends** on a layer with all lists. -/
theorem run_infer {a : Layer m n} (ha : a.Covers k) :
    (∀ e, k.malformed? = some e → ∃ b, (infer k).run a = .error e b) ∧
      (k.malformed? = none → ∃ b, (infer k).run a = .ok () b ∧ b.Covers k) := by
  have horder : (∀ e, k.malformed? = some e → ∃ b, (inferOrder k).run a = .error e b) ∧
      (k.malformed? = none → ∃ b, (inferOrder k).run a = .ok () b ∧ b.Covers k) := by
    rw [Kernel.malformed?, inferOrder]
    cases hinstructions : k.instructions with
    | nil =>
      refine ⟨fun e he => ?_, fun _ => ⟨a, rfl, ha⟩⟩
      cases he
    | cons i rest =>
      -- nothing is asked of the first instruction
      refine run_addOrder (List.cons_ne_nil (k.instruction i).name []) (fun j hj => ?_) ha
      rw [hinstructions]
      exact List.mem_cons_of_mem _ hj
  refine ⟨fun e he => ?_, fun hnone => ?_⟩
  · obtain ⟨b, hrun⟩ := horder.1 e he
    exact ⟨b, run_bind_of_error _ hrun⟩
  · obtain ⟨b, hrun, hb⟩ := horder.2 hnone
    obtain ⟨c, hrun', hc⟩ := total_inferLoops b hb
    exact ⟨c, run_bind_eq_ok_iff.mpr ⟨(), b, hrun, hrun'⟩, hc⟩

/-! ## The whole analysis -/

theorem analyze_eq_error {e : CompileError} (h : k.malformed? = some e) : analyze k = .error e := by
  obtain ⟨b, hrun⟩ := (run_infer (covers_declared k)).1 e h
  rw [analyze, hrun]

theorem exists_analyze_eq_ok (h : k.malformed? = none) : ∃ layer, analyze k = .ok layer := by
  obtain ⟨b, hrun, -⟩ := (run_infer (covers_declared k)).2 h
  exact ⟨b, by rw [analyze, hrun]⟩

theorem analyze_eq_ok {layer : Layer m n} (h : analyze k = .ok layer) :
    k.malformed? = none ∧ layer.Covers k := by
  refine ⟨?_, (extends_analyze h).covers (covers_declared k)⟩
  cases hmalformed : k.malformed? with
  | none => rfl
  | some e =>
    rw [analyze_eq_error hmalformed] at h
    cases h

end Layer
end LoopNest
