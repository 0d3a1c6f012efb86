import LoopNest.Proofs.Schedule.Drain

/-!
# Redundant dependencies

A layer may list a dependency twice, or list one that follows from others.  Such entries are edges
of the graph like all others, so they decide when an item counts as ready, both when the graph is
built and when the order is read.  They decide nothing else: layers with the same transitive closure
give the same order.

## Placing

What was placed is closed under dependencies.  So an item is ready iff everything that follows from
its list was placed, and this depends only on the closure.  The scans for two layers find the same
items, one after the other (`Graph.exists_placeAll_eq`).

## Reading

The rows of both graphs hold the same items.  A row joins the queue with its last parent, and if
names are not unique a row has one parent for each name in its list, not one for each row with that
name.  Still, when a row joins the queue *every* row that has the name of a dependency is in it
before (`Behind`): rows with one name wait for the same names, and so none of them is far behind.
From a row that was emitted back along its dependencies everything was emitted, and again only the
closure counts: the same rows are freed by each visit (`Graph.mem_freed`).

* `Layer.Depends`: the names listed for a name.
* `Graph.build_congr_of_closure`: the same order, or the same items that cannot be placed.
-/

namespace LoopNest

open Relation

variable {m n : Nat}

/-- The layer lists the second name for the first. -/
def Layer.Depends (layer : Layer m n) (x y : String) : Prop :=
  ∃ deps, layer.deps.find? x = some deps ∧ y ∈ deps

theorem Layer.depends_iff_of_deps {layer : Layer m n} {entries : List (String × List String)}
    (hlayer : layer.deps = .ofList entries) (hnames : (entries.map Prod.fst).Nodup) {x y : String} :
    layer.Depends x y ↔ ∃ deps, (x, deps) ∈ entries ∧ y ∈ deps := by
  have hfind : ∀ deps, (.ofList entries : NameMap _).find? x = some deps ↔ (x, deps) ∈ entries := by
    intro deps
    refine ⟨fun h => ?_, NameMap.find?_ofList hnames⟩
    have hx : x ∈ entries.map Prod.fst :=
      NameMap.contains_ofList.mp (NameMap.contains_eq_true_iff.mpr ⟨deps, h⟩)
    obtain ⟨⟨x, deps'⟩, hmem, rfl⟩ := List.mem_map.mp hx
    rw [NameMap.find?_ofList hnames hmem] at h
    exact Option.some.inj h ▸ hmem
  rw [Depends, hlayer]
  simp only [hfind]

theorem Kernel.mem_needs_iff {k : Kernel m n} {layer : Layer m n} {r : Ref m n} {d : String} :
    d ∈ k.needs layer r ↔ layer.Depends (k.name r) d := by
  rw [needs, Layer.Depends]
  cases layer.deps.find? (k.name r) with
  | none => simp
  | some deps => simp

/-- A list is empty iff nothing follows from it. -/
theorem Kernel.needs_eq_nil_iff {k : Kernel m n} {layer : Layer m n} {r : Ref m n} :
    k.needs layer r = [] ↔ ∀ y, ¬ TransGen layer.Depends (k.name r) y := by
  rw [List.eq_nil_iff_forall_not_mem]
  constructor
  · intro h y hy
    obtain ⟨d, hd, -⟩ := TransGen.head'_iff.mp hy
    exact h d (mem_needs_iff.mpr hd)
  · intro h d hd
    exact h d (.single (mem_needs_iff.mp hd))

namespace Graph

variable {k : Kernel m n} {layer layer' : Layer m n}

/-! ## Placing -/

/-- Scans that agree on what is ready find the same entry. -/
theorem takeReady?_map_congr {α β : Type} {g g' : Graph α} {f f' : β → Pending α} {rs : List β}
    (h : ∀ r ∈ rs, g.isReady (f r) = g'.isReady (f' r)) :
    g.takeReady? (rs.map f) = none ∧ g'.takeReady? (rs.map f') = none ∨
      ∃ before r behind, rs = before ++ r :: behind ∧ g.isReady (f r) = true ∧
        g.takeReady? (rs.map f) = some (f r, (before ++ behind).map f) ∧
        g'.takeReady? (rs.map f') = some (f' r, (before ++ behind).map f') := by
  induction rs with
  | nil => exact .inl ⟨rfl, rfl⟩
  | cons r rs ih =>
    have hr := h r List.mem_cons_self
    rw [List.map_cons, List.map_cons, takeReady?, takeReady?, ← hr]
    by_cases hready : g.isReady (f r) = true
    · rw [if_pos hready, if_pos hready]
      exact .inr ⟨[], r, rs, rfl, hready, rfl, rfl⟩
    · rw [if_neg hready, if_neg hready]
      rcases ih fun q hq => h q (List.mem_cons_of_mem _ hq) with
        ⟨hnone, hnone'⟩ | ⟨before, q, behind, rfl, hq, hsome, hsome'⟩
      · exact .inl ⟨by rw [hnone]; rfl, by rw [hnone']; rfl⟩
      · exact .inr ⟨r :: before, q, behind, rfl, hq, by rw [hsome]; rfl, by rw [hsome']; rfl⟩

/-- What was placed is closed under dependencies. -/
theorem mem_of_transGen {placed : List (Ref m n)} (hplaced : InOrder k.name (k.needs layer) placed)
    {x y : String} (hx : ∀ d, layer.Depends x d → d ∈ placed.map k.name)
    (h : TransGen layer.Depends x y) : y ∈ placed.map k.name := by
  induction h with
  | single h => exact hx _ h
  | tail _ h ih =>
    obtain ⟨q, hq, rfl⟩ := List.mem_map.mp ih
    obtain ⟨pre, post, hsplit⟩ := List.append_of_mem hq
    have hmem := hplaced pre q post hsplit _ (Kernel.mem_needs_iff.mpr h)
    rw [hsplit, List.map_append]
    exact List.mem_append_left _ hmem

/-- The graph of some items, placed one after the other. -/
def ofPlaced (k : Kernel m n) (layer : Layer m n) (placed : List (Ref m n)) : Graph (Ref m n) :=
  (placed.map (k.pending layer)).foldl place empty

theorem isReady_ofPlaced {placed : List (Ref m n)} {r : Ref m n} :
    (ofPlaced k layer placed).isReady (k.pending layer r) = true ↔
      ∀ d ∈ k.needs layer r, d ∈ placed.map k.name := by
  rw [ofPlaced, isReady_iff, List.map_map]
  rfl

/-- Placing an item whose dependencies are listed goes on to a longer list. -/
theorem add_ofPlaced {placed : List (Ref m n)} {r : Ref m n} (hr : k.needs layer r ≠ []) :
    (ofPlaced k layer placed).add (k.pending layer r).name (k.pending layer r).item
      ((k.pending layer r).deps.eraseDups.filterMap (ofPlaced k layer placed).index.find?)
      = ofPlaced k layer (placed ++ [r]) := by
  have hdeps : ¬ (k.pending layer r).deps.isEmpty = true := fun h => hr (List.isEmpty_iff.mp h)
  conv_rhs => rw [ofPlaced, List.map_append, List.foldl_append, List.map_singleton, List.foldl_cons,
    List.foldl_nil, place, parentsOf, if_neg hdeps]
  rfl

section Closure

variable (hclosure : ∀ x y, TransGen layer.Depends x y ↔ TransGen layer'.Depends x y)

include hclosure

theorem needs_eq_nil_congr (r : Ref m n) : k.needs layer r = [] ↔ k.needs layer' r = [] := by
  rw [Kernel.needs_eq_nil_iff, Kernel.needs_eq_nil_iff]
  exact forall_congr' fun y => not_congr (hclosure _ y)

/-- What is ready in one layer is ready in the other. -/
theorem ready_of_ready {placed : List (Ref m n)} (hplaced : InOrder k.name (k.needs layer) placed)
    {r : Ref m n} (hready : ∀ d ∈ k.needs layer r, d ∈ placed.map k.name) :
    ∀ d ∈ k.needs layer' r, d ∈ placed.map k.name := by
  intro d hd
  refine mem_of_transGen hplaced (x := k.name r)
    (fun e he => hready e (Kernel.mem_needs_iff.mpr he)) ?_
  exact (hclosure _ _).mpr (.single (Kernel.mem_needs_iff.mp hd))

/-- **The placement loop** takes the same items for both layers, and leaves the same ones over. -/
theorem exists_placeAll_eq (rs placed : List (Ref m n)) (hbound : ∀ r ∈ rs, k.needs layer r ≠ [])
    (hplaced : InOrder k.name (k.needs layer) placed)
    (hplaced' : InOrder k.name (k.needs layer') placed) :
    ∃ all stuck : List (Ref m n),
      InOrder k.name (k.needs layer) all ∧ InOrder k.name (k.needs layer') all ∧
      placeAll (ofPlaced k layer placed) (rs.map (k.pending layer))
        = outcome (all.map (k.pending layer)) (stuck.map (k.pending layer)) ∧
      placeAll (ofPlaced k layer' placed) (rs.map (k.pending layer'))
        = outcome (all.map (k.pending layer')) (stuck.map (k.pending layer')) := by
  -- the induction is on the number of items that are left
  induction hlen : rs.length generalizing rs placed with
  | zero =>
    obtain rfl := List.length_eq_zero_iff.mp hlen
    exact ⟨placed, [], hplaced, hplaced', by rw [List.map_nil, placeAll]; rfl,
      by rw [List.map_nil, placeAll]; rfl⟩
  | succ len ih =>
    have hready : ∀ r ∈ rs, (ofPlaced k layer placed).isReady (k.pending layer r)
        = (ofPlaced k layer' placed).isReady (k.pending layer' r) := by
      intro r _
      rw [Bool.eq_iff_iff, isReady_ofPlaced, isReady_ofPlaced]
      exact ⟨ready_of_ready hclosure hplaced,
        ready_of_ready (fun x y => (hclosure x y).symm) hplaced'⟩
    obtain ⟨first, others, hrs⟩ := List.exists_cons_of_length_eq_add_one hlen
    rcases takeReady?_map_congr hready with
      ⟨hnone, hnone'⟩ | ⟨before, r, behind, hsplit, hr, hsome, hsome'⟩
    · refine ⟨placed, rs, hplaced, hplaced', ?_, ?_⟩
      · rw [hrs, List.map_cons] at hnone ⊢
        rw [placeAll, hnone, outcome, if_neg (by simp)]
      · rw [hrs, List.map_cons] at hnone' ⊢
        rw [placeAll, hnone', outcome, if_neg (by simp)]
    · have hmem : r ∈ rs := by simp [hsplit]
      have hsub : ∀ q ∈ before ++ behind, q ∈ rs := by
        intro q hq
        rw [hsplit]
        exact (List.sublist_cons_self r behind).append_left before |>.subset hq
      have hcount : (before ++ behind).length = len := by
        rw [hsplit] at hlen
        simp only [List.length_append, List.length_cons] at hlen ⊢
        omega
      have hlisted := isReady_ofPlaced.mp hr
      have hne' : k.needs layer' r ≠ [] := fun h =>
        hbound r hmem ((needs_eq_nil_congr hclosure r).mpr h)
      obtain ⟨all, stuck, hall, hall', heq, heq'⟩ := ih (before ++ behind) (placed ++ [r])
        (fun q hq => hbound q (hsub q hq)) (hplaced.snoc hlisted)
        (hplaced'.snoc (ready_of_ready hclosure hplaced hlisted)) hcount
      refine ⟨all, stuck, hall, hall', ?_, ?_⟩
      · rw [← heq, ← add_ofPlaced (hbound r hmem)]
        rw [hrs, List.map_cons] at hsome ⊢
        rw [placeAll, hsome]
      · rw [← heq', ← add_ofPlaced hne']
        rw [hrs, List.map_cons] at hsome' ⊢
        rw [placeAll, hsome']

/-- The constructions for both layers place the same items and leave the same ones over. -/
theorem exists_build_eq (h : ∀ r ∈ k.items, layer.deps.contains (k.name r) = true)
    (h' : ∀ r ∈ k.items, layer'.deps.contains (k.name r) = true) :
    ∃ all stuck : List (Ref m n),
      InOrder k.name (k.needs layer) all ∧ InOrder k.name (k.needs layer') all ∧
      build k layer = outcome (all.map (k.pending layer)) (stuck.map (k.pending layer)) ∧
      build k layer' = outcome (all.map (k.pending layer')) (stuck.map (k.pending layer')) := by
  have hempty : ∀ r, (k.needs layer r).isEmpty = (k.needs layer' r).isEmpty := fun r =>
    Bool.eq_iff_iff.mpr (by
      rw [List.isEmpty_iff, List.isEmpty_iff]
      exact needs_eq_nil_congr hclosure r)
  have hfree : ∀ {l : Layer m n}, (∀ r, (k.needs l r).isEmpty = (k.needs layer r).isEmpty) →
      InOrder k.name (k.needs l) (k.items.filter fun r => (k.needs layer r).isEmpty) := by
    intro l hl pre r post hsplit d hd
    have hr : r ∈ k.items.filter fun r => (k.needs layer r).isEmpty := by rw [hsplit]; simp
    have hnil : k.needs l r = [] := List.isEmpty_iff.mp (hl r ▸ (List.mem_filter.mp hr).2)
    rw [hnil] at hd
    exact absurd hd List.not_mem_nil
  obtain ⟨all, stuck, hall, hall', heq, heq'⟩ := exists_placeAll_eq hclosure
    (k.items.filter fun r => !(k.needs layer r).isEmpty)
    (k.items.filter fun r => (k.needs layer r).isEmpty)
    (fun r hr => by simpa using (List.mem_filter.mp hr).2) (hfree fun _ => rfl)
    (hfree fun r => (hempty r).symm)
  refine ⟨all, stuck, hall, hall', ?_, ?_⟩
  · rw [build_eq_placeAll h, ← heq]
    rfl
  · rw [build_eq_placeAll h', ← heq']
    simp only [← hempty]
    rfl

end Closure

/-! ## The rows of a name -/

/-- The row holds an item with the name. -/
def HasName (k : Kernel m n) (placed : List (Ref m n)) (x : String) (id : Nat) : Prop :=
  ∃ i r, id = i + 1 ∧ placed[i]? = some r ∧ k.name r = x

variable {placed : List (Ref m n)}

theorem HasName.pos {x : String} {c : Nat} (h : HasName k placed x c) : 0 < c := by
  obtain ⟨i, -, rfl, -⟩ := h
  omega

theorem ofPlaced_snoc (r : Ref m n) :
    ofPlaced k layer (placed ++ [r]) = (ofPlaced k layer placed).place (k.pending layer r) := by
  rw [ofPlaced, List.map_append, List.foldl_append]
  rfl

/-- A name leads to the same row whatever the lists are. -/
theorem index_ofPlaced_congr :
    (ofPlaced k layer placed).index = (ofPlaced k layer' placed).index := by
  have hlength : ∀ (l : Layer m n) (placed : List (Ref m n)),
      (ofPlaced k l placed).nodes.length = placed.length + 1 := by
    intro l placed
    induction placed using List.reverseRecOn with
    | nil => rfl
    | append_singleton placed r ih =>
      rw [ofPlaced_snoc, place, length_add, ih, List.length_append, List.length_singleton]
  induction placed using List.reverseRecOn with
  | nil => rfl
  | append_singleton placed r ih =>
    rw [ofPlaced_snoc, ofPlaced_snoc, index_place, index_place, ih, hlength, hlength]
    rfl

section Rows

variable (hin : InOrder k.name (k.needs layer) placed)

include hin

theorem arena_ofPlaced : Arena (placed.map (k.pending layer)) (ofPlaced k layer placed) :=
  Arena.of_inOrder (hin.map _ (fun _ _ => rfl) fun _ _ => rfl)

/-- While items are placed, a name leads to a row with this name. -/
theorem hasName_of_find? {i : Nat} {x : String} {id : Nat}
    (h : (ofPlaced k layer (placed.take i)).index.find? x = some id) : HasName k placed x id := by
  have hsplit : InOrder k.name (k.needs layer) (placed.take i ++ placed.drop i) := by
    rwa [List.take_append_drop]
  have hbefore := InOrder.of_append hsplit
  obtain ⟨j, p, hj, rfl, rfl⟩ := (arena_ofPlaced hbefore).index x id h
  rw [List.getElem?_map] at hj
  obtain ⟨r, hr, rfl⟩ := Option.map_eq_some_iff.mp hj
  obtain ⟨hlt, rfl⟩ := List.getElem?_eq_some_iff.mp hr
  rw [List.length_take] at hlt
  exact ⟨j, _, rfl, by rw [List.getElem_take, List.getElem?_eq_getElem], rfl⟩

/-- A row has the parents that were found when it was placed. -/
theorem parents_ofPlaced {i : Nat} {r : Ref m n} (hr : placed[i]? = some r) :
    (nodeAt (ofPlaced k layer placed).nodes (i + 1)).parents
      = (ofPlaced k layer (placed.take i)).parentsOf (k.pending layer r) := by
  induction placed using List.reverseRecOn with
  | nil => simp at hr
  | append_singleton placed q ih =>
    have harena := arena_ofPlaced hin.of_append
    rw [ofPlaced_snoc, place, nodeAt_add harena.nodup_parentsOf fun id =>
      harena.lt_of_mem_parentsOf, harena.length, List.length_map]
    rcases Nat.lt_trichotomy i placed.length with hi | rfl | hi
    · rw [List.getElem?_append_left hi] at hr
      rw [if_neg (by omega), List.take_append_of_le_length hi.le]
      exact ih hin.of_append hr
    · rw [List.getElem?_concat_length] at hr
      cases hr
      rw [if_pos rfl, List.take_left]
    · rw [List.getElem?_eq_none (by simp; omega)] at hr
      cases hr

/-- The parents of a row: the root if its item has no dependencies, and the rows found for them. -/
theorem mem_parents_iff {i : Nat} {r : Ref m n} (hr : placed[i]? = some r) {c : Nat} :
    c ∈ (nodeAt (ofPlaced k layer placed).nodes (i + 1)).parents ↔
      k.needs layer r = [] ∧ c = 0 ∨ ∃ d, layer.Depends (k.name r) d ∧
        (ofPlaced k layer (placed.take i)).index.find? d = some c := by
  rw [parents_ofPlaced hin hr]
  by_cases hneeds : k.needs layer r = []
  · have hempty : (k.pending layer r).deps.isEmpty = true := List.isEmpty_iff.mpr hneeds
    rw [parentsOf, if_pos hempty, List.mem_singleton]
    refine ⟨fun hc => .inl ⟨hneeds, hc⟩, ?_⟩
    rintro (⟨-, hc⟩ | ⟨d, hd, -⟩)
    · exact hc
    · rw [← Kernel.mem_needs_iff, hneeds] at hd
      exact absurd hd List.not_mem_nil
  · rw [Arena.mem_parentsOf_iff hneeds, or_iff_right fun h => hneeds h.1]
    exact exists_congr fun d => and_congr_left' Kernel.mem_needs_iff

/-- A parent is the root or has the name of a dependency. -/
theorem eq_zero_or_hasName_of_mem_parents {x : String} {c p : Nat} (hc : HasName k placed x c)
    (hp : p ∈ (nodeAt (ofPlaced k layer placed).nodes c).parents) :
    p = 0 ∨ ∃ d, layer.Depends x d ∧ HasName k placed d p := by
  obtain ⟨i, r, rfl, hr, rfl⟩ := hc
  rcases (mem_parents_iff hin hr).mp hp with ⟨-, rfl⟩ | ⟨d, hd, hfind⟩
  · exact .inl rfl
  · exact .inr ⟨d, hd, hasName_of_find? hin hfind⟩

/-- For each dependency some parent has its name. -/
theorem exists_mem_parents {x d : String} {c : Nat} (hc : HasName k placed x c)
    (hd : layer.Depends x d) :
    ∃ p ∈ (nodeAt (ofPlaced k layer placed).nodes c).parents, HasName k placed d p := by
  obtain ⟨i, r, rfl, hr, rfl⟩ := hc
  have hp : (placed.map (k.pending layer))[i]? = some (k.pending layer r) := by
    rw [List.getElem?_map, hr]
    rfl
  obtain ⟨j, q, hq, hname, hmem⟩ :=
    (arena_ofPlaced hin).bound i _ hp d (Kernel.mem_needs_iff.mpr hd)
  rw [List.getElem?_map] at hq
  obtain ⟨t, ht, rfl⟩ := Option.map_eq_some_iff.mp hq
  exact ⟨j + 1, hmem, j, t, rfl, ht, hname⟩

/-- Items without dependencies, and they alone, hang under the root. -/
theorem zero_mem_parents_iff {i : Nat} {r : Ref m n} (hr : placed[i]? = some r) :
    0 ∈ (nodeAt (ofPlaced k layer placed).nodes (i + 1)).parents ↔ k.needs layer r = [] := by
  rw [mem_parents_iff hin hr]
  constructor
  · rintro (⟨hneeds, -⟩ | ⟨d, -, hfind⟩)
    · exact hneeds
    · exact absurd (hasName_of_find? hin hfind).pos (Nat.lt_irrefl 0)
  · exact fun hneeds => .inl ⟨hneeds, rfl⟩

theorem exists_hasName {c : Nat} (hpos : 0 < c) (hlt : c < (ofPlaced k layer placed).nodes.length) :
    ∃ x, HasName k placed x c := by
  rw [(arena_ofPlaced hin).length, List.length_map] at hlt
  obtain ⟨i, rfl⟩ : ∃ i, c = i + 1 := ⟨c - 1, by omega⟩
  exact ⟨_, i, placed[i], rfl, List.getElem?_eq_getElem (by omega), rfl⟩

theorem HasName.lt_length {x : String} {c : Nat} (h : HasName k placed x c) :
    c < (ofPlaced k layer placed).nodes.length := by
  obtain ⟨i, r, rfl, hr, -⟩ := h
  rw [(arena_ofPlaced hin).length, List.length_map]
  have := (List.getElem?_eq_some_iff.mp hr).1
  omega

end Rows

/-! ## Reading -/

/-- Every row stands behind all rows that have the name of a dependency. -/
def Behind (k : Kernel m n) (layer : Layer m n) (placed : List (Ref m n)) (l : List Nat) : Prop :=
  ∀ pre c post, l = pre ++ c :: post → ∀ x d b, HasName k placed x c → layer.Depends x d →
    HasName k placed d b → b ∈ pre

/-- Rows can be put behind all rows that they depend on. -/
theorem Behind.append {l more : List Nat} (h : Behind k layer placed l)
    (hmore : ∀ c ∈ more, ∀ x d b, HasName k placed x c → layer.Depends x d →
      HasName k placed d b → b ∈ l) : Behind k layer placed (l ++ more) := by
  intro pre c post hsplit x d b hx hd hb
  rcases List.append_eq_append_iff.mp hsplit with ⟨first, rfl, rfl⟩ | ⟨tail, rfl, htail⟩
  · exact List.mem_append_left _ (hmore c (by simp) x d b hx hd hb)
  · cases tail with
    | nil => simpa using hmore c (by rw [← List.nil_append more, ← htail]; simp) x d b hx hd hb
    | cons c' tail =>
      rw [List.cons_append, List.cons.injEq] at htail
      obtain ⟨rfl, -⟩ := htail
      exact h pre c tail rfl x d b hx hd hb

section Visit

variable {emitted waiting : List Nat} {id : Nat}

/-- What an emitted row depends on was emitted before, all rows with the name. -/
theorem Behind.mem_emitted (h : Behind k layer placed (emitted ++ id :: waiting)) {a b : Nat}
    {x d : String} (ha : a ∈ emitted ++ [id]) (hx : HasName k placed x a) (hd : layer.Depends x d)
    (hb : HasName k placed d b) : b ∈ emitted := by
  obtain ⟨pre, post, hsplit⟩ := List.append_of_mem ha
  have hall : emitted ++ id :: waiting = pre ++ a :: (post ++ waiting) := by
    rw [← List.cons_append, ← List.append_assoc, ← hsplit, List.append_assoc, List.singleton_append]
  have hpre : pre <+: emitted := by
    refine (List.prefix_concat_iff.mp ⟨a :: post, hsplit.symm⟩).resolve_left fun hlong => ?_
    have := congrArg List.length hsplit
    rw [hlong] at this
    simp at this
  exact hpre.subset (h pre a _ hall x d b hx hd hb)

variable (hin : InOrder k.name (k.needs layer) placed)

include hin

/-- What follows from an emitted row was emitted before. -/
theorem Behind.mem_emitted_of_transGen (h : Behind k layer placed (emitted ++ id :: waiting))
    {a b : Nat} {x y : String} (ha : a ∈ emitted ++ [id]) (hx : HasName k placed x a)
    (hxy : TransGen layer.Depends x y) (hb : HasName k placed y b) : b ∈ emitted := by
  induction hxy using TransGen.head_induction_on generalizing a with
  | single hd => exact h.mem_emitted ha hx hd hb
  | head hd _ ih =>
    obtain ⟨c, -, hc⟩ := exists_mem_parents hin hx hd
    exact ih (List.mem_append_left _ (h.mem_emitted ha hx hd hc)) hc

/-- Rows with the name of an emitted row have joined the queue. -/
theorem Behind.mem_of_hasName (h : Behind k layer placed (emitted ++ id :: waiting))
    (hf : Front (ofPlaced k layer placed).nodes emitted (id :: waiting)) {a b : Nat} {x : String}
    (ha : a ∈ emitted ++ [id]) (hx : HasName k placed x a) (hb : HasName k placed x b) :
    b ∈ emitted ++ id :: waiting := by
  refine (hf.mem_iff b).mpr ⟨hb.pos, hb.lt_length hin, fun p hp => ?_⟩
  refine (eq_zero_or_hasName_of_mem_parents hin hb hp).imp_right ?_
  rintro ⟨d, hd, hp⟩
  exact h.mem_emitted ha hx hd hp

/-- **A visit** frees rows only when all rows they depend on are in the queue. -/
theorem Behind.visit (h : Behind k layer placed (emitted ++ id :: waiting))
    (hf : Front (ofPlaced k layer placed).nodes emitted (id :: waiting)) :
    Behind k layer placed
      (emitted ++ [id] ++ (waiting ++ freed (ofPlaced k layer placed).nodes emitted id)) := by
  have hold : emitted ++ [id] ++ (waiting ++ freed (ofPlaced k layer placed).nodes emitted id)
      = (emitted ++ id :: waiting) ++ freed (ofPlaced k layer placed).nodes emitted id := by simp
  rw [hold]
  refine h.append fun c hc x d b hx hd hb => ?_
  obtain ⟨p, hp, hpd⟩ := exists_mem_parents hin hx hd
  have hemitted := ((hf.mem_freed_iff (arena_ofPlaced hin).rooted).mp hc).2.2.2 p hp
  exact h.mem_of_hasName hin hf (hemitted.resolve_left hpd.pos.ne') hpd hb

/-- At the start only rows without dependencies wait. -/
theorem Behind.start :
    Behind k layer placed ([] ++ (nodeAt (ofPlaced k layer placed).nodes 0).children) := by
  refine Behind.append (fun pre c post hsplit => by simp at hsplit) fun c hc x d b hx hd _ => ?_
  have hr := (arena_ofPlaced hin).rooted
  obtain ⟨p, hp, hpd⟩ := exists_mem_parents hin hx hd
  rw [hr.only_root c ((hr.edge 0 c).mp hc), List.mem_singleton] at hp
  exact absurd hp hpd.pos.ne'

end Visit

section Reading

variable (hin : InOrder k.name (k.needs layer) placed)
  (hin' : InOrder k.name (k.needs layer') placed)
  (hclosure : ∀ x y, TransGen layer.Depends x y ↔ TransGen layer'.Depends x y)

include hin hin' hclosure

/-- What hangs under the root in one graph does so in the other. -/
theorem mem_children_root {c : Nat} (hc : c ∈ (nodeAt (ofPlaced k layer placed).nodes 0).children) :
    c ∈ (nodeAt (ofPlaced k layer' placed).nodes 0).children := by
  have hrooted := (arena_ofPlaced hin).rooted
  rw [hrooted.edge] at hc
  obtain ⟨x, i, r, rfl, hr, -⟩ :=
    exists_hasName hin (hrooted.upwards 0 c hc) (lt_length_of_mem_parents hc)
  rw [zero_mem_parents_iff hin hr, needs_eq_nil_congr hclosure] at hc
  rw [(arena_ofPlaced hin').rooted.edge]
  exact (zero_mem_parents_iff hin' hr).mpr hc

variable {emitted waiting : List Nat} {id : Nat}

/-- What a visit frees in one graph it frees in the other. -/
theorem mem_freed {c : Nat} (h : Behind k layer placed (emitted ++ id :: waiting))
    (hf : Front (ofPlaced k layer placed).nodes emitted (id :: waiting))
    (hf' : Front (ofPlaced k layer' placed).nodes emitted (id :: waiting))
    (hc : c ∈ freed (ofPlaced k layer placed).nodes emitted id) :
    c ∈ freed (ofPlaced k layer' placed).nodes emitted id := by
  rw [hf.mem_freed_iff (arena_ofPlaced hin).rooted] at hc
  obtain ⟨hnot, hpos, hlt, hall⟩ := hc
  obtain ⟨x, hx⟩ := exists_hasName hin hpos hlt
  rw [hf'.mem_freed_iff (arena_ofPlaced hin').rooted]
  refine ⟨hnot, hpos, hx.lt_length hin', fun p hp => ?_⟩
  have ⟨i, r, hrow, hr, hname⟩ := hx
  subst hrow hname
  rcases (mem_parents_iff hin' hr).mp hp with ⟨-, rfl⟩ | ⟨d, hd, hfind⟩
  · exact .inl rfl
  · -- the dependency is listed in the first layer, or follows from one that is
    obtain ⟨e, he, hed⟩ := TransGen.head'_iff.mp ((hclosure _ _).mpr (.single hd))
    rcases reflTransGen_iff_eq_or_transGen.mp hed with rfl | hed
    · have hindex : (ofPlaced k layer' (placed.take i)).index
          = (ofPlaced k layer (placed.take i)).index := index_ofPlaced_congr
      rw [hindex] at hfind
      exact hall p ((mem_parents_iff hin hr).mpr (.inr ⟨_, he, hfind⟩))
    · obtain ⟨a, ha, hae⟩ := exists_mem_parents hin hx he
      have hemitted := (hall a ha).resolve_left hae.pos.ne'
      refine .inr (List.mem_append_left _ ?_)
      exact h.mem_emitted_of_transGen hin hemitted hae hed (hasName_of_find? hin' hfind)

/-- **The queues** of both graphs emit the same rows. -/
theorem ids_congr {ids ids' : List Nat}
    (h : Behind k layer placed (emitted ++ waiting))
    (h' : Behind k layer' placed (emitted ++ waiting))
    (hf : Front (ofPlaced k layer placed).nodes emitted waiting)
    (hf' : Front (ofPlaced k layer' placed).nodes emitted waiting)
    (hids : Drains (ofPlaced k layer placed).nodes emitted waiting ids)
    (hids' : Drains (ofPlaced k layer' placed).nodes emitted waiting ids') : ids = ids' := by
  have hr := (arena_ofPlaced hin).rooted
  have hr' := (arena_ofPlaced hin').rooted
  induction hids generalizing ids' with
  | done emitted =>
    cases hids'
    rfl
  | @visit emitted waiting ids id _ ih =>
    cases hids' with | @visit _ _ ids' _ rest' =>
    have hfreed : freed (ofPlaced k layer placed).nodes emitted id
        = freed (ofPlaced k layer' placed).nodes emitted id := by
      refine List.Pairwise.eq_of_mem_iff ((hr.ascending id).filter _) ((hr'.ascending id).filter _)
        fun c => ⟨mem_freed hin hin' hclosure h hf hf', ?_⟩
      exact mem_freed hin' hin (fun x y => (hclosure x y).symm) h' hf' hf
    rw [ih (h.visit hin hf) (hfreed ▸ h'.visit hin' hf') (hf.visit hr) (hfreed ▸ hf'.visit hr')
      (hfreed ▸ rest')]

/-- Graphs of the same items with the same closure are read in the same order. -/
theorem drain_congr :
    (ofPlaced k layer placed).drain.1 = (ofPlaced k layer' placed).drain.1 := by
  have hrow : ∀ {l : Layer m n}, InOrder k.name (k.needs l) placed →
      ∃ ids, Drains (ofPlaced k l placed).nodes []
        (nodeAt (ofPlaced k l placed).nodes 0).children ids ∧
        (ofPlaced k l placed).drain.1 = ids.filterMap fun id => placed[id - 1]? := by
    intro l hin
    have harena := arena_ofPlaced hin
    have hstart := Front.start harena.rooted
    obtain ⟨ids, hids, horder, -⟩ := drainFrom_drains harena.rooted _ _ _ (Consumed.refl _) hstart
    have hfront : Front (ofPlaced k l placed).nodes ids [] := by
      simpa using hids.front harena.rooted hstart
    have hpos : ∀ id ∈ ids, 0 < id := fun id hid =>
      ((hfront.mem_iff id).mp (List.mem_append_left _ hid)).1
    refine ⟨ids, hids, ?_⟩
    rw [drain_eq, horder, harena.filterMap_item hpos, List.map_filterMap]
    refine List.filterMap_congr fun id _ => ?_
    rw [List.getElem?_map, Option.map_map]
    exact congrFun Option.map_id _
  have hkids : (nodeAt (ofPlaced k layer placed).nodes 0).children
      = (nodeAt (ofPlaced k layer' placed).nodes 0).children :=
    List.Pairwise.eq_of_mem_iff ((arena_ofPlaced hin).rooted.ascending 0)
      ((arena_ofPlaced hin').rooted.ascending 0) fun c => ⟨mem_children_root hin hin' hclosure,
        mem_children_root hin' hin fun x y => (hclosure x y).symm⟩
  obtain ⟨ids, hids, horder⟩ := hrow hin
  obtain ⟨ids', hids', horder'⟩ := hrow hin'
  have hstart' := Front.start (arena_ofPlaced hin').rooted
  have hbehind' := Behind.start hin'
  rw [← hkids] at hids' hstart' hbehind'
  rw [horder, horder', ids_congr hin hin' hclosure (Behind.start hin) hbehind'
    (Front.start (arena_ofPlaced hin).rooted) hstart' hids hids']

end Reading

/-- **Redundant dependencies change nothing.**  Layers with the same transitive closure either both
give a graph, and then the same order, or both leave the same items over. -/
theorem build_congr_of_closure (k : Kernel m n) {layer layer' : Layer m n}
    (h : ∀ r ∈ k.items, layer.deps.contains (k.name r) = true)
    (h' : ∀ r ∈ k.items, layer'.deps.contains (k.name r) = true)
    (hclosure : ∀ x y, TransGen layer.Depends x y ↔ TransGen layer'.Depends x y) :
    (∃ g g', build k layer = .ok g ∧ build k layer' = .ok g' ∧ g.drain.1 = g'.drain.1) ∨
      ∃ remaining, build k layer = .error (.unsatisfied remaining) ∧
        build k layer' = .error (.unsatisfied remaining) := by
  obtain ⟨all, stuck, hin, hin', hbuild, hbuild'⟩ := exists_build_eq hclosure h h'
  cases stuck with
  | nil => exact .inl ⟨_, _, hbuild, hbuild', drain_congr hin hin' hclosure⟩
  | cons r stuck =>
    refine .inr ⟨(r :: stuck).map k.name, ?_, ?_⟩
    · rw [hbuild, outcome, if_neg (by simp), List.map_map]
      rfl
    · rw [hbuild', outcome, if_neg (by simp), List.map_map]
      rfl

/-- The dependencies of the diamond in another order, with one listed twice and one that follows
from others. -/
def thickened : Layer 4 1 :=
  { Layer.declared diamond with
    deps := .ofList [("d", ["a", "c", "b"]), ("b", ["a", "a"]), ("c", ["a"]), ("a", []),
      ("i", [])] }

/-- The diamond is read in the same order with and without the additional edges. -/
theorem drain_thickened :
    ∃ g g', build diamond (Layer.declared diamond) = .ok g ∧ build diamond thickened = .ok g' ∧
      g.drain.1 = g'.drain.1 := by
  have hdeclared : ∀ x y, (Layer.declared diamond).Depends x y ↔
      x = "d" ∧ (y = "b" ∨ y = "c") ∨ (x = "b" ∨ x = "c") ∧ y = "a" := by
    intro x y
    have hdeps : (Layer.declared diamond).deps = .ofList
        [("d", ["b", "c", "b"]), ("b", ["a"]), ("c", ["a"]), ("a", []), ("i", [])] := rfl
    rw [Layer.depends_iff_of_deps hdeps (by decide)]
    grind
  have hthickened : ∀ x y, thickened.Depends x y ↔
      (Layer.declared diamond).Depends x y ∨ x = "d" ∧ y = "a" := by
    intro x y
    rw [hdeclared, Layer.depends_iff_of_deps rfl (by decide)]
    grind
  have hle : ∀ x y, (Layer.declared diamond).Depends x y → thickened.Depends x y :=
    fun x y h => (hthickened x y).mpr (.inl h)
  have hge : ∀ x y, thickened.Depends x y → TransGen (Layer.declared diamond).Depends x y := by
    intro x y h
    rcases (hthickened x y).mp h with h | ⟨rfl, rfl⟩
    · exact .single h
    · exact .tail (.single ((hdeclared "d" "b").mpr (by simp))) ((hdeclared "b" "a").mpr (by simp))
  have hclosure : ∀ x y, TransGen (Layer.declared diamond).Depends x y ↔
      TransGen thickened.Depends x y := fun x y => ⟨TransGen.mono hle x y, TransGen.closed hge x y⟩
  rcases build_congr_of_closure diamond (by decide) (by decide) hclosure with hok | ⟨_, hfail, -⟩
  · exact hok
  · obtain ⟨g, hg⟩ : ∃ g, build diamond (Layer.declared diamond) = .ok g := ⟨_, by cbv⟩
    rw [hg] at hfail
    cases hfail

end Graph
end LoopNest
