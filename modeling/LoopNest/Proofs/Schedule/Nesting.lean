import LoopNest.Proofs.Schedule.Gathered

/-!
# Nesting a hierarchical kernel

The loops of a hierarchical kernel have no dependencies, so in the flat order they stand in
declaration order behind the instructions without dependencies.  They take their turns in this
order.

In its turn a loop meets the loops behind it, which still have the instructions that mention them.
So its rewritten body holds what has the loop last in its chain.  The guests are the loops with
loops around them, and nothing is stranded, so the loops without loops around them stand at the top.

* `Nester.nested_rewritten`: the rewritten bodies.
* `Nester.nest_hierarchical`: what nesting returns.
* `Nester.nest_chains`: each loop stands once in the schedule, and each instruction that mentions
  loops stands once, inside exactly these loops in declaration order.
-/

namespace LoopNest

variable {m n : Nat} {k : Kernel m n}

theorem Kernel.Hierarchical.flat (hk : k.Hierarchical) : k.Flat :=
  ⟨hk.distinct, fun l hl => (hk.bare l hl).1, hk.heads⟩

namespace Nester

open Kernel

/-! ## Rewritten bodies -/

/-- The order has the loops as they were declared. -/
def Ordered (k : Kernel m n) (order : List (Ref m n)) : Prop :=
  ∀ l ∈ k.loops, later k order l = k.behind l

section Rewritten

variable {order : List (Ref m n)} (hk : k.Hierarchical) (horder : Ordered k order)

include hk horder

theorem nested_meetAll {d : Fin n} (hd : d ∈ k.loops) {seen rest : List (Fin n)}
    (hsplit : later k order d = seen ++ rest) :
    k.Nested d seen ((gathering k).meetAll k ((gathering k).body k d) seen) := by
  have hbody : ∀ l ∈ k.loops, (gathering k).body k l = k.mentioners l := fun l hl =>
    (body_gathering hk.distinct hl).trans (hk.flat.gathered_eq hl)
  -- one by one: the loop that is met next comes behind those that were met
  induction seen using List.reverseRecOn generalizing rest with
  | nil =>
    rw [hbody d hd]
    exact Nested.start hk.distinct d
  | append_singleton seen e ih =>
    rw [List.append_assoc, List.singleton_append] at hsplit
    obtain ⟨he, hlt⟩ : e ∈ k.loops ∧ k.rank d < k.rank e :=
      mem_behind_iff.mp (horder d hd ▸ hsplit ▸ by simp)
    have hnested := (ih hsplit).absorbed hk he hlt (rank_of_later hk.distinct.nodup_loops hsplit).1
    rw [meetAll_snoc, meeting, hbody e he]
    exact hnested

/-- A rewritten body holds what has the loop last in its chain. -/
theorem nested_rewritten {l : Fin n} (hl : l ∈ k.loops) :
    k.Nested l (k.behind l) ((gathering k).rewritten k order l) := by
  rw [rewritten, horder l hl]
  exact nested_meetAll hk horder hl ((horder l hl).trans (List.append_nil _).symm)

end Rewritten

/-- A loop without loops around it is inside nothing. -/
theorem eq_of_contains {s : Nester m n} (hs : ∀ l ∈ k.loops, k.Nested l (k.behind l) (s.body k l))
    {r : Ref m n} (hr : r ∈ k.items) {l : Fin n} (hchain : k.chain (.loop l) = [])
    (h : s.Contains k r (.loop l)) : r = .loop l := by
  have hwithin : s.Within k (· ∈ k.items) := fun d hd t ht =>
    (((hs d (loop_mem_items.mp hd)).mem t).mp ht).item
  rcases h.cases_tail with heq | ⟨_, hway, d, rfl, hmem⟩
  · exact heq.symm
  · have hd : d ∈ k.loops := loop_mem_items.mp (Contains.within hwithin hway hr)
    have hin : d ∈ k.chain (.loop l) := mem_chain_iff.mpr ⟨hd, (((hs d hd).mem _).mp hmem).touches⟩
    rw [hchain] at hin
    exact absurd hin List.not_mem_nil

/-! ## The flat order -/

/-- Loops that stand in the order as they were declared keep their places. -/
theorem ordered_of_append (hk : k.Distinct) {order before after : List (Ref m n)}
    (hnodup : order.Nodup) (h : order = before ++ (k.loops.map .loop ++ after)) :
    Ordered k order := by
  have hposition : ∀ l ∈ k.loops, order.idxOf (.loop l) = before.length + k.rank l := by
    intro l hl
    obtain ⟨earlier, later, hsplit⟩ := List.append_of_mem hl
    have hplace : order
        = (before ++ earlier.map .loop) ++ Ref.loop l :: (later.map .loop ++ after) := by
      rw [h, hsplit, List.map_append, List.map_cons]
      simp only [List.append_assoc, List.cons_append]
    rw [idxOf_eq_length hnodup hplace, List.length_append, List.length_map,
      rank_eq_length hk.nodup_loops hsplit]
  intro l hl
  refine List.filter_congr fun e he => ?_
  rw [Bool.eq_iff_iff, comesLater_iff, decide_eq_true_iff, hposition l hl, hposition e he,
    Nat.add_lt_add_iff_left]

section Layer

variable {layer : Layer m n}

/-- The loops of a hierarchical kernel have no dependencies. -/
theorem deps_loop (hk : k.Hierarchical) (hlayer : Layer.analyze k = .ok layer) {l : Fin n}
    (hl : l ∈ k.loops) : layer.deps.find? (k.loop l).head.name = some [] := by
  obtain ⟨earlier, later, hsplit⟩ := List.append_of_mem hl
  have hnone : earlier.filter (Layer.headMentions k · l) = [] := by
    rw [List.filter_eq_nil_iff]
    intro c hc
    have hlt := (rank_of_split hk.distinct.nodup_loops hsplit).1 c hc
    rw [Layer.headMentions, of_rank_lt hk.heads hl hlt]
    exact Bool.false_ne_true
  rw [Layer.deps_infer_loop hk.distinct hlayer hsplit, (hk.bare l hl).2, hnone]
  rfl

/-- The needs of an instruction are its list in the layer, and it needs something if it mentions a
loop. -/
theorem deps_instruction (hk : k.Distinct) (hlayer : Layer.analyze k = .ok layer) {i : Fin m}
    (hi : i ∈ k.instructions) :
    layer.deps.find? (k.instruction i).name = some (k.needs layer (.instruction i)) ∧
      (k.needs layer (.instruction i) = [] → k.chain (.instruction i) = []) := by
  have hfind := Layer.deps_infer_instruction hk hlayer hi
  have hneeds : k.needs layer (.instruction i) = _ := congrArg (Option.getD · []) hfind
  constructor
  · rw [hneeds]
    exact hfind
  · intro hnil
    rw [hneeds] at hnil
    change _ ++ (_ ++ _) = [] at hnil
    rw [List.append_eq_nil_iff, List.append_eq_nil_iff, List.map_eq_nil_iff] at hnil
    exact hnil.2.2

/-- The flat order: the instructions without dependencies, the loops, the other instructions. -/
theorem order_hierarchical (hk : k.Hierarchical) (hlayer : Layer.analyze k = .ok layer)
    {g : Graph (Ref m n)} (hg : Graph.build k layer = .ok g) :
    ∃ rest, g.drain.1
      = (k.freeInstructions layer).map .instruction ++ (k.loops.map .loop ++ rest) := by
  obtain ⟨-, -, rest, hrest⟩ := Graph.drain_order hg
  have hfree : k.items.filter (fun r => (k.needs layer r).isEmpty)
      = (k.freeInstructions layer).map .instruction ++ k.loops.map .loop := by
    rw [items, List.filter_append, List.filter_map, List.filter_map, freeInstructions]
    congr 2
    refine List.filter_eq_self.mpr fun l hl => List.isEmpty_iff.mpr ?_
    exact congrArg (Option.getD · []) (deps_loop hk hlayer hl)
  exact ⟨rest, by rw [← hrest, hfree, List.append_assoc]⟩

/-- The instructions without dependencies, and the loops without loops around them. -/
def roots (k : Kernel m n) (layer : Layer m n) : List (Ref m n) :=
  (k.freeInstructions layer).map .instruction
    ++ (k.loops.filter fun l => (k.chain (.loop l)).isEmpty).map .loop

theorem root_of_mem (hk : k.Hierarchical) (hlayer : Layer.analyze k = .ok layer) {r : Ref m n}
    (hr : r ∈ roots k layer) : r ∈ k.items ∧ k.chain r = [] := by
  rw [roots, List.mem_append, List.mem_map, List.mem_map] at hr
  rcases hr with ⟨i, hi, rfl⟩ | ⟨l, hl, rfl⟩
  · rw [freeInstructions, List.mem_filter, List.isEmpty_iff] at hi
    exact ⟨instruction_mem_items.mpr hi.1, (deps_instruction hk.distinct hlayer hi.1).2 hi.2⟩
  · rw [List.mem_filter, List.isEmpty_iff] at hl
    exact ⟨loop_mem_items.mpr hl.1, hl.2⟩

theorem loop_mem_roots {l : Fin n} (hl : l ∈ k.loops) (hchain : k.chain (.loop l) = []) :
    .loop l ∈ roots k layer := by
  refine List.mem_append_right _ (List.mem_map_of_mem (List.mem_filter.mpr ⟨hl, ?_⟩))
  rw [hchain]
  rfl

theorem nodup_roots (hk : k.Distinct) : (roots k layer).Nodup := by
  have hitems : k.items.Nodup := hk.of_map _
  rw [items] at hitems
  exact hitems.sublist ((List.filter_sublist.map _).append (List.filter_sublist.map _))

/-- The loops at the top after all turns are those without loops around them. -/
theorem loop_mem_top_iff (hk : k.Hierarchical) {order : List (Ref m n)} (horder : Ordered k order)
    (hready : Ready k (gathering k) order) {p : Progress m n}
    (hp : Paused k layer (gathering k) order order p) {l : Fin n} (hl : l ∈ k.loops) :
    .loop l ∈ p.top ↔ k.chain (.loop l) = [] := by
  have hbody : ∀ d ∈ k.loops, ∀ e, .loop e ∉ (gathering k).body k d := fun d hd e => by
    rw [body_gathering hk.distinct hd]
    exact hk.flat.loop_notMem_gathered hd e
  constructor
  · intro htop
    by_contra hchain
    obtain ⟨c, hc, -, hbelongs⟩ := hk.exists_parent hl hchain
    rcases hready.apart.mem_rewritten (hready.loop_mem_reachable hc)
      (((nested_rewritten hk horder hc).mem _).mpr hbelongs) with hmem | ⟨e, he, heq⟩
    · exact hbody c hc l hmem
    · cases heq
      exact (hp.loops l htop).2.2 c hc he
  · intro hchain
    have hnot : ¬ (gathering k).Stranded k order l := by
      intro hstranded
      obtain ⟨d, -, g, -, -, hmem⟩ :=
        hready.apart.exists_guest_of_stranded hk.distinct.nodup_loops hl hstranded
      exact hbody l hl g hmem
    obtain ⟨r, hr, hway⟩ := hp.kept l (hready.loop_mem_order.mpr hl) hnot
    have hs : ∀ d ∈ k.loops, k.Nested d (k.behind d) (p.nester.body k d) := fun d hd => by
      rw [hp.finished d (hready.loop_mem_order.mpr hd)]
      exact nested_rewritten hk horder hd
    rwa [← eq_of_contains hs (hready.perm.mem_iff.mp (hp.mem_done_of_mem_top hr)) hchain hway]

/-- After all turns the top has the instructions without dependencies and the loops without loops
around them, in this order. -/
theorem top_eq_roots (hk : k.Hierarchical) {order rest : List (Ref m n)}
    (hready : Ready k (gathering k) order)
    (horder : order = (k.freeInstructions layer).map .instruction ++ (k.loops.map .loop ++ rest))
    {p : Progress m n} (hp : Paused k layer (gathering k) order order p) :
    p.top = roots k layer := by
  have hmem : ∀ r, r ∈ p.top ↔ r ∈ roots k layer := by
    intro r
    cases r with
    | instruction i =>
      rw [hp.instructions, hready.perm.mem_iff, instruction_mem_items]
      simp [roots, freeInstructions]
    | loop l =>
      have hl : .loop l ∈ p.top → l ∈ k.loops := fun h =>
        hready.loop_mem_order.mp (hp.mem_done_of_mem_top h)
      have htop := fun hl =>
        loop_mem_top_iff hk (ordered_of_append hk.distinct hready.nodup horder)
          hready hp (l := l) hl
      simp only [roots, List.mem_append, List.mem_map, List.mem_filter, List.isEmpty_iff]
      grind
  have hroots : (roots k layer).Sublist order := by
    rw [horder, roots]
    exact (List.Sublist.refl _).append
      ((List.filter_sublist.map _).trans (List.sublist_append_left _ _))
  -- both lists keep the order of the items
  have hsorted := pairwise_idxOf hready.nodup
  refine List.Perm.eq_of_pairwise (fun _ _ _ _ hlt hgt => absurd hgt (Nat.lt_asymm hlt))
    (hsorted.sublist hp.sublist) (hsorted.sublist hroots) ?_
  exact (List.perm_ext_iff_of_nodup (hp.sublist.nodup hready.nodup) (hroots.nodup hready.nodup)).mpr
    hmem

/-- **Nesting** finishes all bodies and leaves at the top the instructions without dependencies and
the loops without loops around them. -/
theorem nest_hierarchical (hk : k.Hierarchical) (hlayer : Layer.analyze k = .ok layer)
    {g : Graph (Ref m n)} (hg : Graph.build k layer = .ok g) :
    ∃ start s, ofLayer k layer = .ok start ∧
      start.nest k layer g.drain.1 = .ok (roots k layer, s) ∧
      ∀ l ∈ k.loops, k.Nested l (k.behind l) (s.body k l) := by
  have hready := ready_gathering hk.distinct hk.flat.separate (Graph.drain_order hg).1
  obtain ⟨rest, horder⟩ := order_hierarchical hk hlayer hg
  have hdeps : ∀ r ∈ k.items, layer.deps.contains (k.name r) = true := by
    intro r hr
    rw [NameMap.contains_eq_true_iff]
    cases r with
    | instruction i =>
      exact ⟨_, (deps_instruction hk.distinct hlayer (instruction_mem_items.mp hr)).1⟩
    | loop l => exact ⟨_, deps_loop hk hlayer (loop_mem_items.mp hr)⟩
  obtain ⟨p, hrun⟩ := Paused.exists_run hready hdeps (List.nil_append _).symm paused_start
  have hp := Paused.run hready (List.nil_append _).symm paused_start hrun
  refine ⟨gathering k, p.nester, ofLayer_eq_gathering hk.distinct hlayer, ?_, fun l hl => ?_⟩
  · rw [nest, hrun, ← top_eq_roots hk hready horder hp]
    rfl
  · rw [hp.finished l (hready.loop_mem_order.mpr hl)]
    exact nested_rewritten hk (ordered_of_append hk.distinct hready.nodup horder) hl

end Layer

/-- Finished bodies form a hierarchy with the kernel's chains. -/
theorem hierarchy_of_finished (hk : k.Hierarchical) {s : Nester m n}
    (hs : ∀ l ∈ k.loops, k.Nested l (k.behind l) (s.body k l)) :
    s.Hierarchy k (· ∈ k.items) k.chain where
  inj _ _ hr ht h := hk.distinct.inj hr ht h
  nodup l hl := (hs l (loop_mem_items.mp hl)).nodup
  body l hl r := by
    have hmem : l ∈ k.loops := loop_mem_items.mp hl
    rw [(hs l hmem).mem, hk.belongs_behind_iff hmem]
  coherent r hr outer l inner h := by
    obtain ⟨hl, houter⟩ := hk.chain_coherent hr h
    exact ⟨loop_mem_items.mpr hl, houter⟩

theorem separated_of_finished (hk : k.Distinct) {s : Nester m n}
    (hs : ∀ l ∈ k.loops, k.Nested l (k.behind l) (s.body k l)) : s.Separated k (· ∈ k.loops) where
  closed l hl _ he := loop_mem_items.mp (((hs l hl).mem _).mp he).item
  inj _ _ hl he h := (loop_name_inj hk hl he).mp h

/-- Finished bodies can be attached. -/
theorem attach_finished (hk : k.Hierarchical) {s : Nester m n}
    (hs : ∀ l ∈ k.loops, k.Nested l (k.behind l) (s.body k l)) {top : List (Ref m n)}
    (htop : ∀ l, .loop l ∈ top → l ∈ k.loops) :
    ∃ pairs fin, Attaches s k [] top [] pairs fin ∧ pairs.map Prod.fst = top ∧
      ∀ p ∈ pairs, s.Unfolds k p.1 p.2 := by
  have hseparated := separated_of_finished hk.distinct hs
  have hrank : ∀ l, l ∈ k.loops → ∀ e, .loop e ∈ s.body k l → k.rank l < k.rank e := by
    intro l hl e he
    exact (touches_loop_iff.mp (((hs l hl).mem _).mp he).touches).1
  obtain ⟨pairs, fin, h⟩ := exists_attaches hseparated hrank [] top [] htop (by simp)
  obtain ⟨hfst, hunfolds, -⟩ := h.unfolds hseparated htop (by simp)
  exact ⟨pairs, fin, h, hfst, hunfolds⟩

/-! ## The schedule -/

open Nest

/-- Each item with loops around it, and each root, is visited once, inside its chain. -/
theorem visitsOf_item (hk : k.Hierarchical) {layer : Layer m n}
    (hlayer : Layer.analyze k = .ok layer) {s : Nester m n}
    (hs : ∀ l ∈ k.loops, k.Nested l (k.behind l) (s.body k l)) {pairs : List (Ref m n × Nest)}
    (hfst : pairs.map Prod.fst = roots k layer) (hpairs : ∀ p ∈ pairs, s.Unfolds k p.1 p.2)
    {target : Ref m n} (ht : target ∈ k.items)
    (hroot : k.chain target = [] → target ∈ roots k layer) :
    ∃ node, s.Unfolds k target node ∧
      visitsOf (k.name target) (visitsAll [] (pairs.map Prod.snd))
        = [⟨(k.chain target).map fun l => (k.loop l).head, node⟩] := by
  refine (hierarchy_of_finished hk hs).visitsOf_pairs ht hpairs ?_
    (hfst ▸ nodup_roots hk.distinct) ?_ ?_
  · exact fun p hp => root_of_mem hk hlayer (hfst ▸ List.mem_map_of_mem hp)
  · exact fun l hl hchain => hfst ▸ loop_mem_roots (loop_mem_items.mp hl) hchain
  · exact fun hchain => hfst ▸ hroot hchain

/-- **Loop nesting is correct on hierarchical kernels.**  Nesting succeeds; in the schedule every
loop of the kernel stands once, inside the earlier loops with which it shares an instruction, and
every instruction that mentions a loop stands once, inside exactly the loops it mentions.  The loops
around an item stand from the outermost in as they were declared. -/
theorem nest_chains {k : Kernel m n} (hk : k.Hierarchical) {layer : Layer m n}
    (hlayer : Layer.analyze k = .ok layer) {g : Graph (Ref m n)} (hg : Graph.build k layer = .ok g)
    (inPlace : Bool) :
    ∃ start top s pairs, ofLayer k layer = .ok start ∧
      start.nest k layer g.drain.1 = .ok (top, s) ∧ (s.materialize k top inPlace).2 = .ok pairs ∧
      (∀ l ∈ k.loops, ∃ members,
        visitsOf (k.loop l).head.name (visitsAll [] (pairs.map Prod.snd))
          = [⟨(k.chain (.loop l)).map fun c => (k.loop c).head, .loop (k.loop l).head members⟩]) ∧
      ∀ i ∈ k.instructions, (∃ l ∈ k.loops, k.mentions i l = true) →
        visitsOf (k.instruction i).name (visitsAll [] (pairs.map Prod.snd))
          = [⟨(k.loops.filter (k.mentions i)).map fun l => (k.loop l).head,
              .instruction (k.instruction i)⟩] := by
  obtain ⟨start, s, hstart, hnest, hs⟩ := nest_hierarchical hk hlayer hg
  obtain ⟨pairs, fin, hattach, hfst, hunfolds⟩ :=
    attach_finished hk hs fun l hl => loop_mem_items.mp (root_of_mem hk hlayer hl).1
  refine ⟨start, roots k layer, s, pairs, hstart, hnest, materialize_eq_ok_iff.mpr ⟨fin, hattach⟩,
    ?_, ?_⟩
  · intro l hl
    obtain ⟨node, hnode, hvisit⟩ :=
      visitsOf_item hk hlayer hs hfst hunfolds (loop_mem_items.mpr hl) (loop_mem_roots hl)
    cases hnode with
    | loop l members hbody hmembers => exact ⟨_, hvisit⟩
  · rintro i hi ⟨l, hl, hmentions⟩
    have hchain : k.chain (.instruction i) ≠ [] :=
      List.ne_nil_of_mem (mem_chain_iff.mpr ⟨hl, hmentions⟩)
    obtain ⟨node, hnode, hvisit⟩ := visitsOf_item hk hlayer hs hfst hunfolds
      (instruction_mem_items.mpr hi) fun h => absurd h hchain
    cases hnode
    exact hvisit

/-- A loop without members, from zero to nine. -/
def digits (x : String) : Loop m n :=
  ⟨⟨x, .literal (.int 0), .literal (.int 9), defaultStep x, []⟩, []⟩

/-- A product of matrices and a sum next to it: the product sits in three loops, the clearing of its
target in two of them, and the loop of the sum is declared between them. -/
def product : Kernel 4 4 where
  instructionTable := #v[
    ⟨"start", .assign (.name "total") (.literal (.int 0)), []⟩,
    ⟨"add", .form "+=" [.name "total", .form "ref" [.name "v", .name "t"]], ["start"]⟩,
    ⟨"clear", .assign (.form "ref" [.name "c", .name "i", .name "j"]) (.literal (.int 0)), []⟩,
    ⟨"multiply", .form "+=" [.form "ref" [.name "c", .name "i", .name "j"],
      .call "*" [.form "ref" [.name "a", .name "i", .name "k"],
        .form "ref" [.name "b", .name "k", .name "j"]]], ["clear"]⟩]
  loopTable := #v[digits "i", digits "t", digits "j", digits "k"]
  instructions := List.finRange 4
  loops := List.finRange 4

theorem hierarchical_product : product.Hierarchical where
  distinct := by rw [Distinct]; decide
  bare := by decide
  heads := by decide
  nested := by decide

/-- The product comes out inside its three loops, and its innermost loop inside the other two. -/
theorem nest_product :
    ∃ layer g start top s pairs, Layer.analyze product = .ok layer ∧
      Graph.build product layer = .ok g ∧ ofLayer product layer = .ok start ∧
      start.nest product layer g.drain.1 = .ok (top, s) ∧
      (s.materialize product top true).2 = .ok pairs ∧
      (∃ members, visitsOf "k" (visitsAll [] (pairs.map Prod.snd))
        = [⟨[(product.loop 0).head, (product.loop 2).head], .loop (product.loop 3).head members⟩]) ∧
      visitsOf "multiply" (visitsAll [] (pairs.map Prod.snd))
        = [⟨[(product.loop 0).head, (product.loop 2).head, (product.loop 3).head],
            .instruction (product.instruction 3)⟩] := by
  obtain ⟨layer, g, hlayer, hg⟩ : ∃ layer g, Layer.analyze product = .ok layer ∧
      Graph.build product layer = .ok g := ⟨_, _, by cbv, by cbv⟩
  obtain ⟨start, top, s, pairs, hstart, hnest, hpairs, hloop, hinstruction⟩ :=
    nest_chains hierarchical_product hlayer hg true
  exact ⟨layer, g, start, top, s, pairs, hlayer, hg, hstart, hnest, hpairs, hloop 3 (by decide),
    hinstruction 3 (by decide) ⟨3, by decide, by decide⟩⟩

end Nester
end LoopNest
