import LoopNest.Proofs.Kernel.Alike
import LoopNest.Proofs.Schedule.Attach
import LoopNest.Proofs.Schedule.Steps

/-!
# Scheduling kernels with other lists

The schedule of a kernel is made from a layer.  Of the kernel itself it needs the names, and the
members of the loops that are not the kernel's own: those of its own loops are in the layer, and the
nester has a body for each of them from the start.  So two kernels that differ only in dependencies
and in the members of their own loops get the same graph and the same nesting from one layer.

The nests that come out are not equal, since instructions and heads carry the dependencies of their
kernel.  They have the same names and are lowered to the same statements (`Nest.SameCode`), and
attaching makes such nests of both kernels step by step (`Lockstep`), up to the same error.

* `Kernel.Alike.build`, `Kernel.Alike.ofLayer`: the same graph, the same bodies at the start.
* `Nester.nest_congr`: the same nesting.
* `Nester.attach_lockstep`: attaching fails with the same error or makes nests with the same code.
-/

namespace LoopNest

/-! ## Runs side by side -/

/-- Both runs fail with the same error, or both succeed with related values. -/
inductive Lockstep {ε σ τ α β : Type} (Q : α → β → Prop) (R : σ → τ → Prop) :
    EStateM.Result ε σ α → EStateM.Result ε τ β → Prop where
  | ok {a b s t} (hvalue : Q a b) (hstate : R s t) : Lockstep Q R (.ok a s) (.ok b t)
  | error (e : ε) (s : σ) (t : τ) : Lockstep Q R (.error e s) (.error e t)

namespace Lockstep

variable {ε σ τ α β α' β' : Type} {Q : α → β → Prop} {Q' : α' → β' → Prop} {R : σ → τ → Prop}

/-- Runs that are related step by step are related. -/
theorem bind {x : EStateM ε σ α} {y : EStateM ε τ β} {f : α → EStateM ε σ α'}
    {g : β → EStateM ε τ β'} {s : σ} {t : τ} (h : Lockstep Q R (x.run s) (y.run t))
    (hnext : ∀ a b s t, Q a b → R s t → Lockstep Q' R ((f a).run s) ((g b).run t)) :
    Lockstep Q' R ((x >>= f).run s) ((y >>= g).run t) := by
  rw [EStateM.run_bind, EStateM.run_bind]
  cases hx : x.run s with
  | ok a s' =>
    rw [hx] at h
    cases hy : y.run t with
    | ok b t' =>
      rw [hy] at h
      cases h with
      | ok hvalue hstate => exact hnext a b s' t' hvalue hstate
    | error e t' => rw [hy] at h; cases h
  | error e s' =>
    rw [hx] at h
    cases hy : y.run t with
    | ok b t' => rw [hy] at h; cases h
    | error e' t' =>
      rw [hy] at h
      cases h
      exact .error e s' t'

end Lockstep

/-- Folds whose steps agree wherever an invariant holds have the same outcome. -/
theorem foldlM_congr {ε σ α : Type} {f g : σ → α → Except ε σ} {P : σ → Prop}
    (hstep : ∀ s a, P s → g s a = f s a) (hkeep : ∀ s a t, P s → f s a = .ok t → P t) {l : List α}
    {s : σ} (hs : P s) : l.foldlM g s = l.foldlM f s := by
  induction l generalizing s with
  | nil => rfl
  | cons a l ih =>
    rw [List.foldlM_cons, List.foldlM_cons, hstep s a hs]
    cases hfirst : f s a with
    | error e => rfl
    | ok t => exact ih (hkeep s a t hs hfirst)

variable {m n : Nat}

/-! ## The graph and the first bodies -/

namespace Kernel

variable {k k' : Kernel m n}

/-- The kernels differ only in dependencies and in the members of their own loops. -/
structure SameInside (k k' : Kernel m n) : Prop where
  alike : k.Alike k'
  members : ∀ l ∉ k.loops, (k'.loop l).members = (k.loop l).members

theorem Alike.build (h : k.Alike k') (layer : Layer m n) :
    Graph.build k' layer = Graph.build k layer := by
  rw [Graph.build, Graph.build, Graph.pendingItems, Graph.pendingItems, h.items, h.name_eq]

theorem Alike.ofLayer (h : k.Alike k') (layer : Layer m n) :
    Nester.ofLayer k' layer = Nester.ofLayer k layer := by
  simp only [Nester.ofLayer, h.loops, h.loop_name]

end Kernel

theorem Layer.Committed.sameInside {layer : Layer m n} {k k' : Kernel m n}
    (h : layer.Committed k k') :
    k.SameInside k' where
  alike := h.alike
  members l hl := by rw [h.members, Kernel.listed_eq, if_neg hl]

/-! ## The nesting -/

namespace Nester

variable {k k' : Kernel m n} {s : Nester m n}

/-- The nester has a body for each of the kernel's own loops. -/
def Owns (s : Nester m n) (k : Kernel m n) : Prop :=
  ∀ l ∈ k.loops, s.bodies.contains (k.loop l).head.name = true

theorem owns_ofLayer {layer : Layer m n} (h : ofLayer k layer = .ok s) : s.Owns k := by
  obtain ⟨bodies, hbodies, h⟩ := bind_eq_ok_iff.mp h
  cases h
  have hnames : (k.loops.map fun l => (k.loop l).head.name) = bodies.map Prod.fst := by
    rw [← List.forall₂_eq_eq_eq, List.forall₂_map_left_iff, List.forall₂_map_right_iff]
    refine (mapM_eq_ok_iff.mp hbodies).imp fun l entry hmade => ?_
    obtain ⟨members, -, hmade⟩ := bind_eq_ok_iff.mp hmade
    cases hmade
    rfl
  intro l hl
  rw [NameMap.contains_ofList, ← hnames]
  exact List.mem_map_of_mem (f := fun l => (k.loop l).head.name) hl

theorem Owns.absorb (h : s.Owns k) (outer inner : Fin n) (common : List String) :
    (s.absorb k outer inner common).Owns k := by
  intro l hl
  rw [Nester.absorb, NameMap.contains_insert, h l hl, Bool.or_true]

/-- Bodies are the same for both kernels. -/
theorem Owns.body_eq (h : s.Owns k) (hsame : k.SameInside k') : s.body k' = s.body k := by
  funext l
  rw [body, body, hsame.alike.loop_name]
  by_cases hl : l ∈ k.loops
  · obtain ⟨members, hmembers⟩ := NameMap.contains_eq_true_iff.mp (h l hl)
    rw [hmembers, Option.getD_some, Option.getD_some]
  · rw [hsame.members l hl]

theorem placedIn_congr (hname : ∀ l, (k'.loop l).head.name = (k.loop l).head.name)
    (hbody : s.body k' = s.body k) (target : Ref m n) (pending : List (Ref m n))
    (visited : List String) :
    s.placedIn k' target pending visited = s.placedIn k target pending visited := by
  fun_induction placedIn s k target pending visited with
  | case1 visited => rw [placedIn]
  | case2 visited pending => simp [placedIn.eq_def]
  | case3 visited pending i hne ih => rw [placedIn, if_neg hne, ih]
  | case4 visited pending l x hseen hne ih =>
    have hseen' : visited.contains (k'.loop l).head.name = true := (hname l).symm ▸ hseen
    rw [placedIn, if_neg hne]
    exact (dif_pos hseen').trans ih
  | case5 visited pending l x hfresh hne ih =>
    have hfresh' : ¬ visited.contains (k'.loop l).head.name = true := (hname l).symm ▸ hfresh
    rw [placedIn, if_neg hne]
    refine (dif_neg hfresh').trans ?_
    rw [hname, hbody]
    exact ih

variable {order : List (Ref m n)} {p p' : Progress m n}

theorem meet_congr (hsame : k.SameInside k') (hp : p.nester.Owns k) (outer other : Fin n) :
    meet k' order outer p other = meet k order outer p other := by
  have hname := hsame.alike.loop_name
  have habsorb : ∀ common, p.nester.absorb k' outer other common
      = p.nester.absorb k outer other common := by
    intro common
    rw [absorb, absorb, hname, hp.body_eq hsame]
    simp only [substitute, hsame.alike.name]
  have hplaced : ∀ common, (p.nester.absorb k outer other common).placed k' (.loop outer) p.top
      = (p.nester.absorb k outer other common).placed k (.loop outer) p.top := fun common =>
    placedIn_congr hname ((hp.absorb outer other common).body_eq hsame) _ _ _
  simp only [meet, hname, hp.body_eq hsame, shared, position?, hsame.alike.name_eq, habsorb,
    hplaced]
  rfl

theorem owns_meet {outer other : Fin n} (hp : p.nester.Owns k)
    (h : meet k order outer p other = .ok p') : p'.nester.Owns k := by
  rcases meet_cases h with ⟨hnester, -⟩ | ⟨-, -, hnester, -⟩
  · rwa [hnester]
  · rw [hnester]
    exact hp.absorb _ _ _

variable {layer : Layer m n}

theorem advance_congr (hsame : k.SameInside k') (hp : p.nester.Owns k) (r : Ref m n) :
    advance k' layer order p r = advance k layer order p r := by
  cases r with
  | instruction i => rw [advance, advance, hsame.alike.instruction_name]
  | loop l =>
    have hmeet : k'.loops.foldlM (meet k' order l) p = k.loops.foldlM (meet k order l) p := by
      rw [hsame.alike.loops]
      exact foldlM_congr (P := fun p => p.nester.Owns k) (fun p e hp => meet_congr hsame hp l e)
        (fun _ _ _ hp h => owns_meet hp h) hp
    rw [advance, advance, hmeet, hsame.alike.loop_name]

theorem owns_advance {r : Ref m n} (hp : p.nester.Owns k) (h : advance k layer order p r = .ok p') :
    p'.nester.Owns k :=
  advance_keeps (P := fun s _ => s.Owns k) (fun _ _ => id)
    (fun _ _ _ _ _ _ _ _ hs => hs.absorb _ _ _) hp h

/-- **Kernels that differ only inside their own loops are nested alike.** -/
theorem nest_congr (hsame : k.SameInside k') (hs : s.Owns k) (layer : Layer m n)
    (order : List (Ref m n)) : s.nest k' layer order = s.nest k layer order := by
  rw [nest, nest, foldlM_congr (P := fun p => p.nester.Owns k)
    (fun p r hp => advance_congr hsame hp r) (fun _ _ _ hp h => owns_advance hp h) hs]

theorem owns_nest {top : List (Ref m n)} {s' : Nester m n} (hs : s.Owns k)
    (h : s.nest k layer order = .ok (top, s')) : s'.Owns k := by
  obtain ⟨p, hp, h⟩ := bind_eq_ok_iff.mp h
  cases h
  exact foldlM_keeps_of_mem (P := fun p => p.nester.Owns k)
    (fun _ _ _ _ hp h => owns_advance hp h) hs hp

end Nester

/-! ## Attaching -/

/-- The nests have the same name and are lowered to the same statement. -/
structure Nest.SameCode (a b : Nest) : Prop where
  name : b.name = a.name
  lower : b.lower = a.lower

theorem Nest.SameCode.map_name {nests nests' : List Nest} (h : List.Forall₂ SameCode nests nests') :
    nests'.map Nest.name = nests.map Nest.name := by
  induction h with
  | nil => rfl
  | cons hfirst _ ih => rw [List.map_cons, List.map_cons, hfirst.name, ih]

theorem Nest.SameCode.lowerEach {nests nests' : List Nest}
    (h : List.Forall₂ SameCode nests nests') : lowerEach nests' = Nest.lowerEach nests := by
  induction h with
  | nil => rfl
  | cons hfirst _ ih => rw [Nest.lowerEach, Nest.lowerEach, hfirst.lower, ih]

namespace Nester

/-- The same item, with nests that have the same code. -/
structure SamePair (a b : Ref m n × Nest) : Prop where
  item : b.1 = a.1
  nest : a.2.SameCode b.2

/-- The same loop with the same members, finished to nests that have the same code. -/
structure Finished.SameCode (a b : Finished m n) : Prop where
  name : b.name = a.name
  loop : b.loop = a.loop
  members : b.members = a.members
  nest : a.nest.SameCode b.nest

theorem map_fst_of_samePair {pairs pairs' : List (Ref m n × Nest)}
    (h : List.Forall₂ SamePair pairs pairs') : pairs'.map Prod.fst = pairs.map Prod.fst := by
  induction h with
  | nil => rfl
  | cons hfirst _ ih => rw [List.map_cons, List.map_cons, hfirst.item, ih]

theorem sameCode_of_samePair {pairs pairs' : List (Ref m n × Nest)}
    (h : List.Forall₂ SamePair pairs pairs') :
    List.Forall₂ Nest.SameCode (pairs.map Prod.snd) (pairs'.map Prod.snd) :=
  List.forall₂_map_left_iff.mpr (List.forall₂_map_right_iff.mpr (h.imp fun _ _ h => h.nest))

theorem finished?_sameCode {fin fin' : List (Finished m n)}
    (h : List.Forall₂ Finished.SameCode fin fin') (x : String) :
    Option.Rel Finished.SameCode (finished? fin x) (finished? fin' x) := by
  induction h with
  | nil => exact .none
  | @cons f f' _ _ hfirst _ ih =>
    rw [finished?, finished?, List.find?_cons, List.find?_cons, hfirst.name]
    by_cases hx : f.name = x
    · simp only [hx, decide_true]
      exact .some hfirst
    · simp only [hx, decide_false]
      exact ih

variable {k k' : Kernel m n} {s : Nester m n}

/-- Loops that are built alike have the same code. -/
theorem finish_sameCode (halike : k.Alike k') (l : Fin n) {pairs pairs' : List (Ref m n × Nest)}
    (h : List.Forall₂ SamePair pairs pairs') :
    (finish k l pairs).SameCode (finish k' l pairs') where
  name := halike.loop_name l
  loop := rfl
  members := map_fst_of_samePair h
  nest := by
    obtain ⟨deps, heq⟩ := halike.head l
    refine ⟨halike.loop_name l, ?_⟩
    show Nest.lowerLoop _ _ = Nest.lowerLoop _ _
    rw [Nest.SameCode.lowerEach (sameCode_of_samePair h), Nest.lowerLoop, Nest.lowerLoop, heq]

/-- **Attaching fails with the same error or makes nests with the same code.** -/
theorem attach_lockstep (halike : k.Alike k') (hbody : s.body k' = s.body k) (active : List String)
    (items : List (Ref m n)) {fin fin' : List (Finished m n)}
    (hfin : List.Forall₂ Finished.SameCode fin fin') :
    Lockstep (List.Forall₂ SamePair) (List.Forall₂ Finished.SameCode)
      ((s.attach k active items).run fin) ((s.attach k' active items).run fin') := by
  induction active, items using attach.induct s k generalizing fin fin' with
  | case1 active =>
    rw [attach, attach]
    exact .ok .nil hfin
  | case2 active i items ih =>
    rw [attach, attach]
    refine (ih hfin).bind fun rest rest' fin fin' hrest hfin => .ok (.cons ⟨rfl, ?_⟩ hrest) hfin
    exact ⟨halike.instruction_name i, halike.body i⟩
  | case3 active l items hactive =>
    have hactive' : active.contains (k'.loop l).head.name = true := by
      rw [halike.loop_name]
      exact hactive
    rw [attach, attach, dif_pos hactive, dif_pos hactive', halike.loop_name]
    exact .error _ _ _
  | case4 active l items hactive ih ihbody =>
    have hactive' : ¬ active.contains (k'.loop l).head.name = true := by
      rw [halike.loop_name]
      exact hactive
    rw [attach, attach, dif_neg hactive, dif_neg hactive']
    have hget : Lockstep (ε := CompileError) (List.Forall₂ Finished.SameCode)
        (List.Forall₂ Finished.SameCode) ((get : Attaching m n _).run fin)
        ((get : Attaching m n _).run fin') := .ok hfin hfin
    refine hget.bind fun state state' fin fin' hstate hfin => ?_
    have hfirst := finished?_sameCode hstate (k.loop l).head.name
    rw [finished?, finished?] at hfirst
    simp only [halike.loop_name]
    have hrest : ∀ {first first' fin fin'}, SamePair first first' →
        List.Forall₂ Finished.SameCode fin fin' →
        Lockstep (List.Forall₂ SamePair) (List.Forall₂ Finished.SameCode)
          ((s.attach k active items >>= fun rest => pure (first :: rest)).run fin)
          ((s.attach k' active items >>= fun rest => pure (first' :: rest)).run fin') :=
      fun hfirst hfin => (ih hfin).bind fun _ _ _ _ hrest hfin => .ok (.cons hfirst hrest) hfin
    cases hseen : state.find? (·.name = (k.loop l).head.name) with
    | some f =>
      cases hseen' : state'.find? (·.name = (k.loop l).head.name) with
      | none =>
        rw [hseen, hseen'] at hfirst
        cases hfirst
      | some f' =>
        rw [hseen, hseen'] at hfirst
        cases hfirst with
        | some hf => exact hrest ⟨congrArg Ref.loop hf.loop, hf.nest⟩ hfin
    | none =>
      cases hseen' : state'.find? (·.name = (k.loop l).head.name) with
      | some f' =>
        rw [hseen, hseen'] at hfirst
        cases hfirst
      | none =>
        rw [hbody]
        refine (ihbody hfin).bind fun members members' fin fin' hmembers hfin => ?_
        have hfinish := finish_sameCode halike l hmembers
        exact hrest ⟨rfl, hfinish.nest⟩
          (List.rel_append hfin (.cons ⟨rfl, rfl, hfinish.members, hfinish.nest⟩ .nil))

end Nester
end LoopNest
