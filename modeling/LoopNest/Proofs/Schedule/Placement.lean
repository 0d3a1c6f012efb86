import LoopNest.Proofs.NameMap
import LoopNest.Proofs.Outcome
import LoopNest.Schedule.Graph
import Mathlib

/-!
# What can be placed

The graph of a kernel grows one item at a time, and an item is placed as soon as all its
dependencies have nodes.  The loop that does this scans the items that are left, places the first
that is ready and starts over.  Nothing that is ready is ever blocked by a placement, so the scan
order decides *when* an item is placed but not *whether*.

## What stays behind

Two facts say what the loop leaves over.  Everything placed could be placed in some order
(`InOrder`), and nothing left over is ready (`Placement.blocked`).  A set of items that is closed
under "all dependencies inside" contains everything that was placed, by the first fact; and the
placed items themselves are such a set, by the second.  So the placed items are the least closed set
(`Kernel.resolvable`), whatever the order of the scan was.

* `Graph.placeAll_placement`: the run of the placement loop.
* `Graph.build_placement`: the run of the whole construction.
* `Graph.build_ok_iff_listable`: it succeeds iff the items can be listed with dependencies first,
  and otherwise reports what lies outside the least closed set.
-/

namespace LoopNest

/-- Every dependency of an entry names an entry that stands before it. -/
def InOrder {β : Type} (name : β → String) (deps : β → List String) (l : List β) : Prop :=
  ∀ pre b post, l = pre ++ b :: post → ∀ d ∈ deps b, d ∈ pre.map name

namespace InOrder

variable {β γ : Type} {name : β → String} {deps : β → List String}

/-- A list stays in order when an entry whose dependencies are all listed is put behind it. -/
theorem snoc {l : List β} (hl : InOrder name deps l) {b : β} (hb : ∀ d ∈ deps b, d ∈ l.map name) :
    InOrder name deps (l ++ [b]) := by
  intro pre c post h
  rcases List.eq_nil_or_concat post with rfl | ⟨post', z, rfl⟩
  · obtain ⟨h₁, h₂⟩ := List.append_inj' h rfl
    rw [List.cons.injEq] at h₂
    rw [← h₁, ← h₂.1]
    exact hb
  · have h' : l ++ [b] = (pre ++ c :: post') ++ [z] := by simpa using h
    exact hl pre c post' (List.append_inj' h' rfl).1

theorem of_append {l₁ l₂ : List β} (h : InOrder name deps (l₁ ++ l₂)) : InOrder name deps l₁ := by
  intro pre b post hl
  refine h pre b (post ++ l₂) ?_
  rw [hl, List.append_assoc, List.cons_append]

theorem last {l : List β} {b : β} (h : InOrder name deps (l ++ [b])) :
    ∀ d ∈ deps b, d ∈ l.map name :=
  h l b [] rfl

/-- Order is kept by a map that keeps names and dependencies. -/
theorem map {name' : γ → String} {deps' : γ → List String} (f : β → γ) {l : List β}
    (hname : ∀ b ∈ l, name' (f b) = name b) (hdeps : ∀ b ∈ l, deps' (f b) = deps b)
    (hl : InOrder name deps l) : InOrder name' deps' (l.map f) := by
  intro pre c post h d hd
  obtain ⟨l₁, l₂, rfl, rfl, h₂⟩ := List.map_eq_append_iff.mp h
  obtain ⟨b, l₃, rfl, rfl, rfl⟩ := List.map_eq_cons_iff.mp h₂
  rw [hdeps b (by simp)] at hd
  obtain ⟨q, hq, hqd⟩ := List.mem_map.mp (hl l₁ b l₃ rfl d hd)
  refine List.mem_map.mpr ⟨f q, List.mem_map_of_mem hq, ?_⟩
  rw [hname q (List.mem_append_left _ hq), hqd]

end InOrder

/-- A way to place items: some are placed in order, and of the others, kept as they stood, each has
a dependency that was not placed. -/
structure Placement {β : Type} (name : β → String) (deps : β → List String)
    (items placed stuck : List β) : Prop where
  perm : (placed ++ stuck).Perm items
  sublist : stuck.Sublist items
  inOrder : InOrder name deps placed
  blocked : ∀ b ∈ stuck, ∃ d ∈ deps b, d ∉ placed.map name

namespace Graph

variable {α : Type} {m n : Nat}

/-! ## One placement -/

/-- The nodes under which an item goes: the root if it has no dependencies. -/
def parentsOf (g : Graph α) (p : Pending α) : List Nat :=
  if p.deps.isEmpty then [0] else p.deps.eraseDups.filterMap g.index.find?

/-- Gives an item its node. -/
def place (g : Graph α) (p : Pending α) : Graph α := g.add p.name p.item (g.parentsOf p)

@[simp] theorem index_place (g : Graph α) (p : Pending α) :
    (g.place p).index = g.index.insert p.name g.nodes.length := rfl

theorem contains_foldl_place (l : List (Pending α)) (g : Graph α) (x : String) :
    (l.foldl place g).index.contains x = true ↔ x ∈ l.map Pending.name ∨
      g.index.contains x = true := by
  induction l generalizing g with
  | nil => simp
  | cons p l ih =>
    rw [List.foldl_cons, ih, index_place, NameMap.contains_insert, List.map_cons, List.mem_cons,
      Bool.or_eq_true, beq_iff_eq]
    tauto

theorem contains_foldl_place_empty (l : List (Pending α)) (x : String) :
    (l.foldl place empty).index.contains x = true ↔ x ∈ l.map Pending.name := by
  rw [contains_foldl_place]
  exact or_iff_left (by simp [empty, NameMap.contains])

theorem isReady_iff {l : List (Pending α)} {p : Pending α} :
    (l.foldl place empty).isReady p = true ↔ ∀ d ∈ p.deps, d ∈ l.map Pending.name := by
  rw [isReady, List.all_eq_true]
  exact forall₂_congr fun d _ => contains_foldl_place_empty l d

/-! ## The placement loop -/

/-- The scan finds the first item that is ready. -/
theorem takeReady?_eq_some {g : Graph α} {ready : Pending α} :
    ∀ {ps rest : List (Pending α)}, g.takeReady? ps = some (ready, rest) →
      ∃ before behind, ps = before ++ ready :: behind ∧ rest = before ++ behind ∧
        g.isReady ready = true ∧ ∀ p ∈ before, g.isReady p = false
  | [], _, h => by simp [takeReady?] at h
  | p :: ps, rest, h => by
    rw [takeReady?] at h
    split at h
    · rename_i hp
      cases h
      exact ⟨[], ps, rfl, rfl, hp, by simp⟩
    · rename_i hp
      obtain ⟨⟨r, rest'⟩, hr, heq⟩ := Option.map_eq_some_iff.mp h
      cases heq
      obtain ⟨before, behind, rfl, rfl, hready, hbefore⟩ := takeReady?_eq_some hr
      refine ⟨p :: before, behind, rfl, rfl, hready, ?_⟩
      intro q hq
      rcases List.mem_cons.mp hq with rfl | hq
      · exact Bool.not_eq_true _ ▸ hp
      · exact hbefore q hq

/-- The scan fails only where nothing is ready. -/
theorem isReady_of_takeReady?_eq_none {g : Graph α} :
    ∀ {ps : List (Pending α)}, g.takeReady? ps = none → ∀ p ∈ ps, g.isReady p = false
  | [], _ => by simp
  | q :: ps, h => by
    rw [takeReady?] at h
    split at h
    · cases h
    · rename_i hq
      intro p hp
      rcases List.mem_cons.mp hp with rfl | hp
      · exact Bool.not_eq_true _ ▸ hq
      · exact isReady_of_takeReady?_eq_none (Option.map_eq_none_iff.mp h) p hp

/-- What a placement leads to. -/
def outcome (placed stuck : List (Pending α)) : Except CompileError (Graph α) :=
  if stuck.isEmpty then .ok (placed.foldl place empty)
  else .error (.unsatisfied (stuck.map Pending.name))

/-- **The placement loop** goes on from what is placed to a placement of everything. -/
theorem placeAll_placement (pending placed : List (Pending α))
    (hdeps : ∀ p ∈ pending, p.deps ≠ []) (hplaced : InOrder Pending.name Pending.deps placed) :
    ∃ more stuck, Placement Pending.name Pending.deps (placed ++ pending) (placed ++ more) stuck ∧
      stuck.Sublist pending ∧
      placeAll (placed.foldl place empty) pending = outcome (placed ++ more) stuck := by
  -- the induction is on the number of items that are left; each placement takes one of them
  induction hlen : pending.length generalizing pending placed with
  | zero =>
    rw [List.length_eq_zero_iff] at hlen
    subst hlen
    refine ⟨[], [], ⟨by simp, by simp, by simpa using hplaced, by simp⟩, List.Sublist.refl _, ?_⟩
    rw [placeAll, outcome, List.append_nil]
    rfl
  | succ len ih =>
    obtain ⟨p, ps, rfl⟩ := List.exists_cons_of_length_eq_add_one hlen
    rw [placeAll]
    split
    · rename_i hnone
      refine ⟨[], p :: ps, ⟨by simp, List.sublist_append_right _ _, by simpa using hplaced, ?_⟩,
        List.Sublist.refl _, by simp [outcome]⟩
      intro q hq
      have hnot := isReady_of_takeReady?_eq_none hnone q hq
      by_contra hall
      push Not at hall
      rw [List.append_nil] at hall
      rw [isReady_iff.mpr hall] at hnot
      cases hnot
    · rename_i ready rest hsome
      obtain ⟨before, behind, hsplit, rfl, hready, -⟩ := takeReady?_eq_some hsome
      have hmem : ready ∈ p :: ps := by rw [hsplit]; simp
      have hplace : (placed.foldl place empty).add ready.name ready.item
          (ready.deps.eraseDups.filterMap (placed.foldl place empty).index.find?)
          = (placed ++ [ready]).foldl place empty := by
        rw [List.foldl_append, List.foldl_cons, List.foldl_nil, place, parentsOf,
          if_neg (by simpa using hdeps ready hmem)]
      have hrest : ∀ q ∈ before ++ behind, q.deps ≠ [] := by
        intro q hq
        refine hdeps q ?_
        rw [hsplit]
        rcases List.mem_append.mp hq with hq | hq
        · exact List.mem_append_left _ hq
        · exact List.mem_append_right _ (List.mem_cons_of_mem _ hq)
      have hcount : (before ++ behind).length = len := by
        rw [hsplit] at hlen
        simp only [List.length_append, List.length_cons] at hlen ⊢
        omega
      obtain ⟨more, stuck, hrun, hsub, heq⟩ :=
        ih (before ++ behind) (placed ++ [ready]) hrest (hplaced.snoc (isReady_iff.mp hready))
          hcount
      have hshuffle : (placed ++ [ready] ++ (before ++ behind)).Perm (placed ++ (p :: ps)) := by
        rw [hsplit, List.append_assoc, List.singleton_append]
        exact (List.perm_middle.symm).append_left placed
      have hsub' : stuck.Sublist (p :: ps) := by
        rw [hsplit]
        exact hsub.trans ((List.sublist_cons_self _ _).append_left before)
      have hcons : placed ++ ready :: more = placed ++ [ready] ++ more := by simp
      refine ⟨ready :: more, stuck, ?_, hsub', ?_⟩
      · rw [hcons]
        exact ⟨hrun.perm.trans hshuffle, hsub'.trans (List.sublist_append_right _ _), hrun.inOrder,
          hrun.blocked⟩
      · rw [hplace, heq, hcons]

end Graph

/-! ## The whole construction -/

namespace Kernel

variable {m n : Nat}

/-- The names an item depends on in a layer; none if the layer has no list for it. -/
def needs (k : Kernel m n) (layer : Layer m n) (r : Ref m n) : List String :=
  (layer.deps.find? (k.name r)).getD []

/-- The instructions without dependencies. -/
def freeInstructions (k : Kernel m n) (layer : Layer m n) : List (Fin m) :=
  k.instructions.filter fun i => (k.needs layer (.instruction i)).isEmpty

/-- An item with its name and its dependencies in a layer. -/
def pending (k : Kernel m n) (layer : Layer m n) (r : Ref m n) : Graph.Pending (Ref m n) :=
  ⟨r, k.name r, k.needs layer r⟩

/-- The set has every item all of whose dependencies are names of items in it. -/
def IsClosed (k : Kernel m n) (layer : Layer m n) (s : Set (Ref m n)) : Prop :=
  ∀ r ∈ k.items, (∀ d ∈ k.needs layer r, ∃ q ∈ k.items, q ∈ s ∧ k.name q = d) → r ∈ s

/-- The least closed set of items. -/
def resolvable (k : Kernel m n) (layer : Layer m n) : Set (Ref m n) :=
  ⋂₀ {s | k.IsClosed layer s}

end Kernel

namespace Graph

variable {m n : Nat} {k : Kernel m n} {layer : Layer m n}

theorem depsOf_eq_ok_iff {x : String} {deps : List String} :
    layer.depsOf x = .ok deps ↔ layer.deps.find? x = some deps := by
  rw [Layer.depsOf]
  cases layer.deps.find? x <;> simp

theorem pending_eq_ok_iff {r : Ref m n} {p : Pending (Ref m n)} :
    (do let deps ← layer.depsOf (k.name r); return (⟨r, k.name r, deps⟩ : Pending (Ref m n)))
      = .ok p ↔ layer.deps.contains (k.name r) = true ∧ k.pending layer r = p := by
  rw [bind_eq_ok_iff, NameMap.contains_eq_true_iff, Kernel.pending, Kernel.needs]
  constructor
  · rintro ⟨deps, hdeps, hp⟩
    rw [depsOf_eq_ok_iff] at hdeps
    cases hp
    exact ⟨⟨deps, hdeps⟩, by rw [hdeps]; rfl⟩
  · rintro ⟨⟨deps, hdeps⟩, rfl⟩
    exact ⟨deps, depsOf_eq_ok_iff.mpr hdeps, by rw [hdeps]; rfl⟩

/-- The items are collected where the layer has a list for each of them. -/
theorem pendingItems_eq_ok_iff {items : List (Pending (Ref m n))} :
    pendingItems k layer = .ok items ↔
      (∀ r ∈ k.items, layer.deps.contains (k.name r) = true) ∧
        k.items.map (k.pending layer) = items := by
  rw [pendingItems, mapM_eq_ok_iff]
  simp only [pending_eq_ok_iff]
  rw [List.forall₂_and_left, ← List.forall₂_map_left_iff, List.forall₂_eq_eq_eq]

theorem pending_item_of_perm {l : List (Pending (Ref m n))} {rs : List (Ref m n)}
    (h : l.Perm (rs.map (k.pending layer))) : ∀ p ∈ l, k.pending layer p.item = p := by
  intro p hp
  obtain ⟨r, -, rfl⟩ := List.mem_map.mp (h.mem_iff.mp hp)
  rfl

theorem map_item_map_pending (rs : List (Ref m n)) :
    (rs.map (k.pending layer)).map Pending.item = rs := by
  rw [List.map_map]
  exact List.map_id _

theorem map_pending_map_item {l : List (Pending (Ref m n))}
    (h : ∀ p ∈ l, k.pending layer p.item = p) : (l.map Pending.item).map (k.pending layer) = l := by
  rw [List.map_map]
  exact (List.map_congr_left h).trans (List.map_id _)

/-- Items with their dependencies are in order where the items alone are. -/
theorem inOrder_map_item {l : List (Pending (Ref m n))} (h : ∀ p ∈ l, k.pending layer p.item = p)
    (hl : InOrder Pending.name Pending.deps l) :
    InOrder k.name (k.needs layer) (l.map Pending.item) :=
  hl.map _ (fun p hp => congrArg Pending.name (h p hp)) fun p hp => congrArg Pending.deps (h p hp)

/-- A placement of the items with their dependencies is one of the items. -/
theorem placement_map_item {placed stuck : List (Pending (Ref m n))}
    (h : Placement Pending.name Pending.deps (k.items.map (k.pending layer)) placed stuck) :
    Placement k.name (k.needs layer) k.items (placed.map Pending.item)
    (stuck.map Pending.item) := by
  have hall := pending_item_of_perm h.perm
  have hplaced : ∀ p ∈ placed, k.pending layer p.item = p :=
    fun p hp => hall p (List.mem_append_left _ hp)
  have hback : (k.items.map (k.pending layer)).map Pending.item = k.items :=
    map_item_map_pending k.items
  refine ⟨?_, ?_, inOrder_map_item hplaced h.inOrder, ?_⟩
  · rw [← List.map_append, ← hback]
    exact h.perm.map _
  · rw [← hback]
    exact h.sublist.map _
  · intro r hr
    obtain ⟨p, hp, rfl⟩ := List.mem_map.mp hr
    obtain ⟨d, hd, hmiss⟩ := h.blocked p hp
    have hneeds : k.needs layer p.item = p.deps :=
      congrArg Pending.deps (hall p (List.mem_append_right _ hp))
    have hnames : (placed.map Pending.item).map k.name = placed.map Pending.name := by
      rw [List.map_map]
      exact List.map_congr_left fun p hp => congrArg Pending.name (hplaced p hp)
    exact ⟨d, by rwa [hneeds], by rwa [hnames]⟩

/-- The construction starts from the items without dependencies and goes on with the others. -/
theorem build_eq_placeAll (h : ∀ r ∈ k.items, layer.deps.contains (k.name r) = true) :
    build k layer = placeAll
      (((k.items.filter fun r => (k.needs layer r).isEmpty).map (k.pending layer)).foldl
        place empty)
      ((k.items.filter fun r => !(k.needs layer r).isEmpty).map (k.pending layer)) := by
  have hsplit : ∀ f : Pending (Ref m n) → Bool, (k.items.map (k.pending layer)).filter f
      = (k.items.filter (f ∘ k.pending layer)).map (k.pending layer) := fun f => List.filter_map
  have hroot : ∀ p ∈ (k.items.filter fun r => (k.needs layer r).isEmpty).map (k.pending layer),
      ∀ g : Graph (Ref m n), g.add p.name p.item [0] = g.place p := by
    intro p hp g
    obtain ⟨r, hr, rfl⟩ := List.mem_map.mp hp
    have hdeps : (k.pending layer r).deps = [] := List.isEmpty_iff.mp (List.mem_filter.mp hr).2
    rw [place, parentsOf, hdeps]
    rfl
  rw [build, pendingItems_eq_ok_iff.mpr ⟨h, rfl⟩, bind_ok, hsplit, hsplit]
  exact congrArg (placeAll · _) (List.foldl_ext _ _ _ fun g p hp => hroot p hp g)

/-- **The construction** is a placement of the kernel's items that starts with those that have no
dependencies, in declaration order. -/
theorem build_placement (h : ∀ r ∈ k.items, layer.deps.contains (k.name r) = true) :
    ∃ placed stuck, Placement k.name (k.needs layer) k.items placed stuck ∧
      k.items.filter (fun r => (k.needs layer r).isEmpty) <+: placed ∧
      build k layer = outcome (placed.map (k.pending layer)) (stuck.map (k.pending layer)) := by
  let items := k.items.map (k.pending layer)
  let free := (k.items.filter fun r => (k.needs layer r).isEmpty).map (k.pending layer)
  let bound := (k.items.filter fun r => !(k.needs layer r).isEmpty).map (k.pending layer)
  have hfree : InOrder Pending.name Pending.deps free := by
    intro pre p post hsplit d hd
    have hp : p ∈ free := by rw [hsplit]; simp
    obtain ⟨r, hr, rfl⟩ := List.mem_map.mp hp
    have hdeps : k.needs layer r = [] := List.isEmpty_iff.mp (List.mem_filter.mp hr).2
    rw [show (k.pending layer r).deps = [] from hdeps] at hd
    exact absurd hd List.not_mem_nil
  have hbound : ∀ p ∈ bound, p.deps ≠ [] := by
    intro p hp
    obtain ⟨r, hr, rfl⟩ := List.mem_map.mp hp
    have hdeps : k.needs layer r ≠ [] := by simpa using (List.mem_filter.mp hr).2
    exact hdeps
  obtain ⟨more, stuck, hrun, hsub, heq⟩ := placeAll_placement _ _ hbound hfree
  have hperm : (free ++ bound).Perm items := by
    rw [← List.map_append]
    exact (List.filter_append_perm (fun r => (k.needs layer r).isEmpty) k.items).map _
  have hplace : Placement Pending.name Pending.deps items (free ++ more) stuck :=
    ⟨hrun.perm.trans hperm, hsub.trans (List.filter_sublist.map _), hrun.inOrder, hrun.blocked⟩
  have hall := pending_item_of_perm hplace.perm
  refine ⟨_, _, placement_map_item hplace, ?_, ?_⟩
  · have hitem : free.map Pending.item = k.items.filter fun r => (k.needs layer r).isEmpty :=
      map_item_map_pending _
    rw [← hitem, List.map_append]
    exact List.prefix_append _ _
  · rw [map_pending_map_item fun p hp => hall p (List.mem_append_left _ hp),
      map_pending_map_item fun p hp => hall p (List.mem_append_right _ hp),
      build_eq_placeAll h, ← heq]

/-! ## The least closed set -/

/-- Items listed in order are in every closed set. -/
theorem mem_resolvable_of_inOrder {l : List (Ref m n)} (hitems : ∀ r ∈ l, r ∈ k.items)
    (hl : InOrder k.name (k.needs layer) l) : ∀ r ∈ l, r ∈ k.resolvable layer := by
  induction l using List.reverseRecOn with
  | nil => simp
  | append_singleton l r ih =>
    have hmem := ih (fun q hq => hitems q (List.mem_append_left _ hq)) hl.of_append
    intro q hq
    rcases List.mem_append.mp hq with hq | hq
    · exact hmem q hq
    · rw [List.mem_singleton.mp hq]
      intro s hs
      refine hs r (hitems r (by simp)) fun d hd => ?_
      obtain ⟨q, hq, hname⟩ := List.mem_map.mp (hl.last d hd)
      exact ⟨q, hitems q (List.mem_append_left _ hq), hmem q hq s hs, hname⟩

/-- A list of items to which none can be added contains the least closed set. -/
theorem mem_of_mem_resolvable {l : List (Ref m n)}
    (hl : ∀ r ∈ k.items, r ∉ l → ∃ d ∈ k.needs layer r, d ∉ l.map k.name) {r : Ref m n}
    (hr : r ∈ k.resolvable layer) : r ∈ l := by
  refine hr {q | q ∈ l} fun q hq hdeps => ?_
  by_contra hnot
  obtain ⟨d, hd, hmiss⟩ := hl q hq hnot
  obtain ⟨p, -, hp, hname⟩ := hdeps d hd
  exact hmiss (List.mem_map.mpr ⟨p, hp, hname⟩)

/-- What a placement has placed is the least closed set. -/
theorem mem_placed_iff {placed stuck : List (Ref m n)}
    (h : Placement k.name (k.needs layer) k.items placed stuck) {r : Ref m n} :
    r ∈ placed ↔ r ∈ k.resolvable layer := by
  have hitems : ∀ q ∈ placed, q ∈ k.items :=
    fun q hq => h.perm.mem_iff.mp (List.mem_append_left _ hq)
  refine ⟨mem_resolvable_of_inOrder hitems h.inOrder r, mem_of_mem_resolvable fun q hq hnot => ?_⟩
  have hq' := (List.mem_append.mp (h.perm.mem_iff.mpr hq)).resolve_left hnot
  exact h.blocked q hq'

/-- What a placement leaves over lies outside the least closed set. -/
theorem notMem_resolvable_of_mem_stuck {placed stuck : List (Ref m n)}
    (h : Placement k.name (k.needs layer) k.items placed stuck) {r : Ref m n} (hr : r ∈ stuck) :
    r ∉ k.resolvable layer := by
  intro hres
  obtain ⟨d, hd, hmiss⟩ := h.blocked r hr
  obtain ⟨pre, post, hsplit⟩ := List.append_of_mem ((mem_placed_iff h).mpr hres)
  have hbefore := h.inOrder pre r post hsplit d hd
  rw [hsplit, List.map_append] at hmiss
  exact hmiss (List.mem_append_left _ hbefore)

open Classical in
/-- What a placement leaves over is, in declaration order, all that lies outside. -/
theorem stuck_eq_filter {placed stuck : List (Ref m n)}
    (h : Placement k.name (k.needs layer) k.items placed stuck) :
    stuck = k.items.filter fun r => r ∉ k.resolvable layer := by
  have hin : placed.filter (fun r => decide (r ∉ k.resolvable layer)) = [] := by
    rw [List.filter_eq_nil_iff]
    intro r hr
    simpa using (mem_placed_iff h).mp hr
  have hout : stuck.filter (fun r => decide (r ∉ k.resolvable layer)) = stuck := by
    rw [List.filter_eq_self]
    intro r hr
    simpa using notMem_resolvable_of_mem_stuck h hr
  have hlen := (h.perm.filter fun r => decide (r ∉ k.resolvable layer)).length_eq
  rw [List.filter_append, hin, hout, List.nil_append] at hlen
  have hsub := h.sublist.filter fun r => decide (r ∉ k.resolvable layer)
  rw [hout] at hsub
  exact hsub.eq_of_length hlen

open Classical in
/-- **Placing the items** succeeds iff they can be listed so that every dependency names an earlier
item, and otherwise reports, in declaration order, the items outside the least closed set.  Any
other way of placing items one after the other that cannot go on has placed that same set. -/
theorem build_ok_iff_listable (k : Kernel m n) (layer : Layer m n)
    (h : ∀ r ∈ k.items, layer.deps.contains (k.name r) = true) :
    ((∃ g, build k layer = .ok g) ↔
      ∃ order, order.Perm k.items ∧ InOrder k.name (k.needs layer) order) ∧
    ((¬ ∃ g, build k layer = .ok g) →
      build k layer = .error (.unsatisfied
        ((k.items.filter fun r => r ∉ k.resolvable layer).map k.name))) ∧
    ∀ placed : List (Ref m n), (∀ r ∈ placed, r ∈ k.items) →
      InOrder k.name (k.needs layer) placed →
      (∀ r ∈ k.items, r ∉ placed → ∃ d ∈ k.needs layer r, d ∉ placed.map k.name) →
      ∀ r, r ∈ placed ↔ r ∈ k.resolvable layer := by
  obtain ⟨placed, stuck, hplace, -, hbuild⟩ := build_placement h
  refine ⟨⟨?_, ?_⟩, ?_, ?_⟩
  · rintro ⟨g, hg⟩
    cases stuck with
    | nil =>
      refine ⟨placed, ?_, hplace.inOrder⟩
      simpa using hplace.perm
    | cons r stuck =>
      rw [hbuild, outcome, List.map_cons, if_neg (by simp)] at hg
      cases hg
  · rintro ⟨order, hperm, horder⟩
    cases stuck with
    | nil => exact ⟨_, hbuild⟩
    | cons r stuck =>
      have hr : r ∈ order := hperm.mem_iff.mpr (hplace.sublist.subset List.mem_cons_self)
      have hres := mem_resolvable_of_inOrder (fun q hq => hperm.mem_iff.mp hq) horder r hr
      exact absurd hres (notMem_resolvable_of_mem_stuck hplace List.mem_cons_self)
  · intro hfail
    cases hstuck : stuck with
    | nil =>
      rw [hstuck] at hbuild
      exact absurd ⟨_, hbuild⟩ hfail
    | cons r rest =>
      rw [← stuck_eq_filter hplace, hbuild, hstuck, outcome, List.map_cons, if_neg (by simp)]
      rw [List.map_cons, List.map_map]
      rfl
  · intro run hitems hrun hmax r
    exact ⟨mem_resolvable_of_inOrder hitems hrun r, mem_of_mem_resolvable hmax⟩

/-- A statement under a name and with dependencies. -/
def stub (x : String) (deps : List String) : Instruction := ⟨x, .literal (.int 0), deps⟩

/-- Two statements that wait for each other, one that waits for them, and two that can be placed. -/
def tangle : Kernel 5 0 where
  instructionTable :=
    #v[stub "b" ["a"], stub "x" ["y", "b"], stub "y" ["x"], stub "z" ["b", "x"], stub "a" []]
  loopTable := #v[]
  instructions := [0, 1, 2, 3, 4]
  loops := []

open Classical in
/-- The tangle cannot be listed, and what lies outside its least closed set is what is reported. -/
theorem build_tangle :
    (¬ ∃ order, order.Perm tangle.items ∧
      InOrder tangle.name (tangle.needs (Layer.declared tangle)) order) ∧
    (tangle.items.filter fun r => r ∉ tangle.resolvable (Layer.declared tangle)).map tangle.name
      = ["x", "y", "z"] := by
  have hbuild : build tangle (Layer.declared tangle) = .error (.unsatisfied ["x", "y", "z"]) := by
    cbv
  have hfail : ¬ ∃ g, build tangle (Layer.declared tangle) = .ok g := by
    rintro ⟨g, hg⟩
    rw [hbuild] at hg
    cases hg
  obtain ⟨hiff, hstuck, -⟩ := build_ok_iff_listable tangle (Layer.declared tangle) (by decide)
  refine ⟨fun horder => hfail (hiff.mpr horder), ?_⟩
  have heq := hstuck hfail
  rw [hbuild] at heq
  injection heq with heq
  injection heq with heq
  exact heq.symm

end Graph
end LoopNest
