import LoopNest.Proofs.Schedule.InPlace

/-!
# Compiling in place again and again

Each compilation in place leaves the inferred dependencies in the kernel, and the next one infers
them again and puts them behind.  Whatever the later stages do, names, bodies and heads stay, so the
same is inferred every time and the lists grow by one and the same piece.

The graph does not grow with them.  A dependency that is listed twice is one edge, and an item is
ready when each of its dependencies has a node, however often it is listed.  So a graph depends on
its lists only up to repetition, and repeating a piece repeats only what is there.

* `Graph.placeAll_congr`: a graph depends on dependencies up to repetition.
* `Kernel.iterate_recompiled`: what compilations in place keep and what they add.
* `compile_inPlace_accumulates`: the lists after any number of runs, and the graph of each run.
-/

namespace LoopNest

variable {m n : Nat}

/-! ## Repeated dependencies -/

theorem eraseDups_append_of_subset {names more : List String} (h : ∀ x ∈ more, x ∈ names) :
    (names ++ more).eraseDups = names.eraseDups := by
  have hnone : more.removeAll names = [] := by
    rw [List.removeAll, List.filter_eq_nil_iff]
    intro x hx
    simpa using h x hx
  rw [List.eraseDups_append, hnone, List.eraseDups_nil, List.append_nil]

theorem flatten_replicate_succ (copies : Nat) (piece : List String) :
    (List.replicate (copies + 1) piece).flatten
      = (List.replicate copies piece).flatten ++ piece := by
  rw [List.replicate_succ', List.flatten_append, List.flatten_singleton]

/-- Any number of copies of a piece is the piece, up to repetition. -/
theorem eraseDups_append_replicate (names piece : List String) (copies : Nat) :
    (names ++ (List.replicate (copies + 1) piece).flatten).eraseDups
      = (names ++ piece).eraseDups := by
  rw [List.replicate_succ, List.flatten_cons, ← List.append_assoc]
  refine eraseDups_append_of_subset fun x hx => ?_
  obtain ⟨list, hlist, hx⟩ := List.mem_flatten.mp hx
  rw [List.eq_of_mem_replicate hlist] at hx
  exact List.mem_append_right _ hx

namespace Graph

variable {α β : Type}

/-- The same item under the same name, with the same dependencies up to repetition. -/
structure Pending.SameOnce (p q : Pending α) : Prop where
  item : q.item = p.item
  name : q.name = p.name
  deps : q.deps.eraseDups = p.deps.eraseDups

namespace Pending.SameOnce

variable {p q : Pending α}

theorem mem_deps (h : p.SameOnce q) {x : String} : x ∈ q.deps ↔ x ∈ p.deps := by
  rw [← List.mem_eraseDups, h.deps, List.mem_eraseDups]

theorem isReady (h : p.SameOnce q) (g : Graph α) : g.isReady q = g.isReady p := by
  rw [Bool.eq_iff_iff, Graph.isReady, Graph.isReady, List.all_eq_true, List.all_eq_true]
  exact forall_congr' fun x => imp_congr_left h.mem_deps

theorem isEmpty (h : p.SameOnce q) : q.deps.isEmpty = p.deps.isEmpty := by
  rw [Bool.eq_iff_iff, List.isEmpty_iff, List.isEmpty_iff, List.eq_nil_iff_forall_not_mem,
    List.eq_nil_iff_forall_not_mem]
  exact forall_congr' fun x => not_congr h.mem_deps

end Pending.SameOnce

variable {P Q : β → Pending α}

/-- The scan finds the same item, and leaves the same ones. -/
theorem takeReady?_congr {g : Graph α} {l : List β} (h : ∀ b ∈ l, (P b).SameOnce (Q b)) :
    ∃ found : Option (β × List β),
      g.takeReady? (l.map P) = found.map (fun f => (P f.1, f.2.map P)) ∧
      g.takeReady? (l.map Q) = found.map (fun f => (Q f.1, f.2.map Q)) ∧
      ∀ f ∈ found, f.1 ∈ l ∧ ∀ b ∈ f.2, b ∈ l := by
  induction l with
  | nil => exact ⟨none, rfl, rfl, by simp⟩
  | cons b l ih =>
    rw [List.map_cons, List.map_cons, takeReady?, takeReady?, (h b List.mem_cons_self).isReady]
    by_cases hready : g.isReady (P b) = true
    · refine ⟨some (b, l), by rw [if_pos hready]; rfl, by rw [if_pos hready]; rfl, fun f hf => ?_⟩
      cases hf
      exact ⟨List.mem_cons_self, fun d hd => List.mem_cons_of_mem _ hd⟩
    · obtain ⟨found, hP, hQ, hmem⟩ := ih fun d hd => h d (List.mem_cons_of_mem _ hd)
      refine ⟨found.map fun f => (f.1, b :: f.2), ?_, ?_, fun f hf => ?_⟩
      · rw [if_neg hready, hP, Option.map_map, Option.map_map]
        rfl
      · rw [if_neg hready, hQ, Option.map_map, Option.map_map]
        rfl
      · obtain ⟨f, hfound, rfl⟩ := Option.map_eq_some_iff.mp hf
        obtain ⟨hfirst, hrest⟩ := hmem f hfound
        refine ⟨List.mem_cons_of_mem _ hfirst, fun d hd => ?_⟩
        rcases List.mem_cons.mp hd with rfl | hd
        · exact List.mem_cons_self
        · exact List.mem_cons_of_mem _ (hrest d hd)

theorem placeAll_of_none {g : Graph α} {p : Pending α} {ps : List (Pending α)}
    (h : g.takeReady? (p :: ps) = none) :
    placeAll g (p :: ps) = .error (.unsatisfied ((p :: ps).map Pending.name)) := by
  rw [placeAll]
  split
  · rfl
  · rename_i hsome
    rw [h] at hsome
    cases hsome

theorem placeAll_of_some {g : Graph α} {p ready : Pending α} {ps rest : List (Pending α)}
    (h : g.takeReady? (p :: ps) = some (ready, rest)) :
    placeAll g (p :: ps) = placeAll
      (g.add ready.name ready.item (ready.deps.eraseDups.filterMap g.index.find?)) rest := by
  rw [placeAll]
  split
  · rename_i hnone
    rw [h] at hnone
    cases hnone
  · rename_i hsome
    rw [h] at hsome
    cases hsome
    rfl

/-- **The placement loop depends on dependencies up to repetition.** -/
theorem placeAll_congr {g : Graph α} {l : List β} (h : ∀ b ∈ l, (P b).SameOnce (Q b)) :
    placeAll g (l.map Q) = placeAll g (l.map P) := by
  -- the induction is on the number of items that are left
  induction hlen : l.length using Nat.strong_induction_on generalizing g l with
  | h len ih =>
    cases l with
    | nil => rfl
    | cons b l =>
      obtain ⟨found, hP, hQ, hmem⟩ := takeReady?_congr (g := g) h
      rw [List.map_cons] at hP hQ ⊢
      rw [List.map_cons]
      cases found with
      | none =>
        have hnames : ((b :: l).map Q).map Pending.name = ((b :: l).map P).map Pending.name := by
          rw [List.map_map, List.map_map]
          exact List.map_congr_left fun d hd => (h d hd).name
        rw [placeAll_of_none hP, placeAll_of_none hQ]
        exact congrArg (fun names => Except.error (CompileError.unsatisfied names)) hnames
      | some f =>
        obtain ⟨hfirst, hrest⟩ := hmem f rfl
        have hless : f.2.length < len := by
          have hlength := takeReady?_length hP
          rw [List.length_map, ← List.map_cons, List.length_map, hlen] at hlength
          exact hlength
        have hf := h f.1 hfirst
        rw [placeAll_of_some hP, placeAll_of_some hQ, hf.name, hf.item, hf.deps]
        exact ih _ hless (fun d hd => h d (hrest d hd)) rfl

/-- A graph is the same for lists with the same dependencies up to repetition. -/
theorem build_congr {k : Kernel m n} {layer layer' : Layer m n} (h : layer.Covers k)
    (h' : layer'.Covers k)
    (hneeds : ∀ r ∈ k.items, (k.needs layer' r).eraseDups = (k.needs layer r).eraseDups) :
    build k layer' = build k layer := by
  have hsame : ∀ r ∈ k.items, (k.pending layer r).SameOnce (k.pending layer' r) :=
    fun r hr => ⟨rfl, rfl, hneeds r hr⟩
  have hempty : ∀ r ∈ k.items,
      (k.pending layer' r).deps.isEmpty = (k.pending layer r).deps.isEmpty :=
    fun r hr => (hsame r hr).isEmpty
  have hfree : k.items.filter (fun r => (k.pending layer' r).deps.isEmpty)
      = k.items.filter fun r => (k.pending layer r).deps.isEmpty := List.filter_congr hempty
  have hbound : k.items.filter (fun r => !(k.pending layer' r).deps.isEmpty)
      = k.items.filter fun r => !(k.pending layer r).deps.isEmpty :=
    List.filter_congr fun r hr => congrArg (!·) (hempty r hr)
  rw [build, build, pendingItems_eq_ok_iff.mpr ⟨h.deps, rfl⟩,
    pendingItems_eq_ok_iff.mpr ⟨h'.deps, rfl⟩, bind_ok, bind_ok]
  simp only [List.filter_map, List.foldl_map, Function.comp_def, hfree, hbound]
  exact placeAll_congr fun r hr => hsame r (List.mem_of_mem_filter hr)

end Graph

/-! ## One run after the other -/

namespace Kernel

theorem adopt_alike (k : Kernel m n) (finished : List (Nester.Finished m n)) :
    k.Alike (k.adopt finished) ∧ ∀ r, (k.adopt finished).deps r = k.deps r := by
  rw [adopt]
  induction finished generalizing k with
  | nil => exact ⟨.refl k, fun _ => rfl⟩
  | cons f finished ih =>
    obtain ⟨halike, hdeps⟩ := ih (k.setMembers f.loop f.members)
    exact ⟨(Alike.of_setMembers k f.loop f.members).trans halike,
      fun r => (hdeps r).trans (deps_setMembers k _ _ r)⟩

theorem Alike.malformed? {k k' : Kernel m n} (h : k.Alike k') : k'.malformed? = k.malformed? := by
  have hunwritten : k'.unwritten? = k.unwritten? := by
    funext i
    rw [unwritten?, unwritten?, h.body, h.instruction_name]
  rw [Kernel.malformed?, Kernel.malformed?, hunwritten, h.instructions]

/-- The kernel after it was compiled in place. -/
def recompiled (k : Kernel m n) : Kernel m n := left ((compile true).run k)

/-- The stages behind the analysis keep all names, bodies, heads and dependencies. -/
theorem left_scheduled (k : Kernel m n) (layer : Layer m n) :
    k.Alike (left (k.scheduled layer true)) ∧
      ∀ r, (left (k.scheduled layer true)).deps r = k.deps r := by
  rw [scheduled]
  cases k.arrange layer with
  | error e => exact ⟨.refl k, fun _ => rfl⟩
  | ok a =>
    simp only
    cases (a.final.attach k [] a.top).run [] with
    | error e finished => exact adopt_alike k finished
    | ok pairs finished => exact adopt_alike k finished

variable {k k₁ : Kernel m n}

/-- In a kernel that differs in lists only, the same piece is put behind the dependencies. -/
theorem Alike.needs_analyze (h : k.Alike k₁) (hk : k.Distinct) {layer : Layer m n}
    (hlayer : Layer.analyze k₁ = .ok layer) {r : Ref m n} (hr : r ∈ k.items) :
    k₁.needs layer r = k₁.deps r ++ Layer.inferredDeps k (k.name r) := by
  have hrun : (Layer.infer k).run (Layer.declared k₁) = .ok () layer := by
    rw [Layer.analyze, h.infer] at hlayer
    split at hlayer
    · rename_i heq
      cases hlayer
      exact heq
    · cases hlayer
  have hdeclared := Layer.deps_declared (h.distinct hk) (h.items.symm ▸ hr)
  rw [h.name] at hdeclared
  rw [Kernel.needs, h.name, (Layer.extends_infer hrun).deps, hdeclared]
  rfl

/-- A run on a kernel that differs in lists only: it can be analysed, the layer is written into it,
and one piece is put behind the dependencies of each item. -/
theorem Alike.recompiled (h : k.Alike k₁) (hk : k.Distinct) (hok : k.malformed? = none) :
    ∃ layer k', Layer.analyze k₁ = .ok layer ∧ layer.Covers k₁ ∧ layer.commit.run k₁ = .ok () k' ∧
      layer.Committed k₁ k' ∧ k.Alike k₁.recompiled ∧ ∀ r ∈ k.items,
        k₁.recompiled.deps r = k₁.deps r ++ Layer.inferredDeps k (k.name r) := by
  obtain ⟨layer, hlayer⟩ := Layer.exists_analyze_eq_ok (h.malformed?.trans hok)
  have hcovers := (Layer.analyze_eq_ok hlayer).2
  obtain ⟨k', hcommit, hwritten⟩ := Layer.run_commit hcovers
  obtain ⟨halike, hdeps⟩ := left_scheduled k' layer
  have hafter : k₁.recompiled = left (k'.scheduled layer true) :=
    congrArg left (run_compile_true hlayer hcommit)
  refine ⟨layer, k', hlayer, hcovers, hcommit, hwritten, ?_, fun r hr => ?_⟩
  · rw [hafter]
    exact (h.trans hwritten.alike).trans halike
  · rw [hafter, hdeps, hwritten.deps, if_pos (h.items.symm ▸ hr), h.needs_analyze hk hlayer hr]

/-- Any number of runs put as many pieces behind the dependencies. -/
theorem iterate_recompiled (hk : k.Distinct) (hok : k.malformed? = none) (runs : Nat) :
    k.Alike (recompiled^[runs] k) ∧ ∀ r ∈ k.items, (recompiled^[runs] k).deps r
      = k.deps r ++ (List.replicate runs (Layer.inferredDeps k (k.name r))).flatten := by
  induction runs with
  | zero => exact ⟨.refl k, fun r _ => by simp⟩
  | succ runs ih =>
    obtain ⟨halike, hdeps⟩ := ih
    obtain ⟨-, -, -, -, -, -, hnext, hmore⟩ := halike.recompiled hk hok
    rw [Function.iterate_succ_apply']
    refine ⟨hnext, fun r hr => ?_⟩
    rw [hmore r hr, hdeps r hr, flatten_replicate_succ, List.append_assoc]

end Kernel

open Kernel

/-- **Compiling in place again and again** makes the lists of dependencies longer by one and the
same piece each time, and leads to the same graph each time; where analysis fails, nothing is
changed. -/
theorem compile_inPlace_accumulates (k : Kernel m n) (hk : k.Distinct) :
    (∀ layer, Layer.analyze k = .ok layer → ∀ runs : Nat,
      (∀ r ∈ k.items, (recompiled^[runs] k).deps r
        = k.deps r ++ (List.replicate runs (Layer.inferredDeps k (k.name r))).flatten) ∧
      ∃ layer' k', Layer.analyze (recompiled^[runs] k) = .ok layer' ∧
        layer'.commit.run (recompiled^[runs] k) = .ok () k' ∧
        Graph.build k' layer' = Graph.build k layer ∧
        ∀ e, Graph.build k layer = .error e →
          (compile true).run (recompiled^[runs] k) = .error e k') ∧
    ∀ e, Layer.analyze k = .error e →
      (∃ part x, e = .unwritten part (some x)) ∧ (compile true).run k = .error e k := by
  refine ⟨fun layer hlayer runs => ?_, fun e he => ⟨?_, run_compile_of_error he true⟩⟩
  · obtain ⟨hok, hcovers⟩ := Layer.analyze_eq_ok hlayer
    obtain ⟨halike, hdeps⟩ := iterate_recompiled hk hok runs
    obtain ⟨layer', k', hlayer', hcovers', hcommit, hwritten, -⟩ := halike.recompiled hk hok
    have hcovers' : layer'.Covers k := by
      refine ⟨fun r hr => ?_, fun l hl => ?_⟩
      · exact halike.name r ▸ hcovers'.deps r (halike.items.symm ▸ hr)
      · exact halike.loop_name l ▸ hcovers'.members l (halike.loops.symm ▸ hl)
    have hgraph : Graph.build k' layer' = Graph.build k layer := by
      rw [(halike.trans hwritten.alike).build]
      refine Graph.build_congr hcovers hcovers' fun r hr => ?_
      rw [(Alike.refl k).needs_analyze hk hlayer hr, ← halike.needs layer',
        halike.needs_analyze hk hlayer' hr, hdeps r hr, List.append_assoc, ← flatten_replicate_succ]
      exact eraseDups_append_replicate _ _ runs
    refine ⟨hdeps, layer', k', hlayer', hcommit, hgraph, fun e he => ?_⟩
    rw [run_compile_true hlayer' hcommit, scheduled, arrange, hgraph, he]
    rfl
  · cases hmalformed : k.malformed? with
    | none =>
      obtain ⟨layer, hlayer⟩ := Layer.exists_analyze_eq_ok hmalformed
      rw [hlayer] at he
      cases he
    | some e' =>
      rw [Layer.analyze_eq_error hmalformed] at he
      cases he
      obtain ⟨i, -, hi⟩ := List.exists_of_findSome?_eq_some hmalformed
      rw [unwritten?] at hi
      split at hi
      · cases hi
        exact ⟨_, _, rfl⟩
      · cases hi

/-- Two instructions that wait for each other, the first by declaration and the second because it is
a call behind the first, and a loop that neither of them mentions. -/
def crosswise : Kernel 2 1 where
  instructionTable :=
    #v[⟨"a", .assign (.name "x") (.literal (.int 1)), ["b"]⟩, ⟨"b", .call "f" [], []⟩]
  loopTable := #v[⟨⟨"i", .literal (.int 0), .literal (.int 9), defaultStep "i", []⟩, []⟩]
  instructions := List.finRange 2
  loops := List.finRange 1

/-- Every run fails at the same items, and the call waits once more after each. -/
theorem compile_inPlace_crosswise :
    crosswise.Distinct ∧
      (∃ k, (compile true).run (recompiled^[2] crosswise) = .error (.unsatisfied ["a", "b"]) k) ∧
      (recompiled^[2] crosswise).deps (.instruction 1) = ["a", "a"] := by
  have hdistinct : crosswise.Distinct := by
    rw [Kernel.Distinct]
    decide
  obtain ⟨layer, hlayer, hgraph⟩ : ∃ layer, Layer.analyze crosswise = .ok layer ∧
      Graph.build crosswise layer = .error (.unsatisfied ["a", "b"]) := ⟨_, by cbv, by cbv⟩
  obtain ⟨hdeps, layer', k', -, -, -, hfails⟩ :=
    (compile_inPlace_accumulates crosswise hdistinct).1 layer hlayer 2
  refine ⟨hdistinct, ⟨k', hfails _ hgraph⟩, ?_⟩
  rw [hdeps (.instruction 1) (by decide)]
  cbv

end LoopNest
