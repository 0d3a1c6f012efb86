import LoopNest.Proofs.Kernel.Inference
import LoopNest.Proofs.Schedule.Redundant

/-!
# When an item is read

The order of execution is read breadth first, and a row joins the queue with the last of its
parents.  So the order can be said without the queue.  An item's turn is the place of its latest
dependency in the order, or one place before the order if it has none; among items of one turn the
lower row comes first, for the children of a row ascend.

## The queue is sorted

A visit at place `t` appends the rows whose turn is `t`, in ascending order, to rows whose turns are
smaller (`Graph.Drains.sorted`).  Nothing else ever joins the queue, so turns ascend along the whole
order.

The order is therefore sorted by depth as well.  If an item stands before another, the other has a
dependency that stands no earlier than any given dependency of the first; from there the argument
repeats, and a chain of dependencies below the first item gives one of the same length below the
second.

* `Layer.latestIn`: the place of the latest dependency.
* `Graph.turnOf`: the turn of an item and its row.
* `Graph.drain_increasing`: the order is strictly increasing in them, and depth never decreases.
-/

namespace LoopNest

variable {m n : Nat}

namespace Layer

variable {layer : Layer m n} {order : List String} {x : String}

/-- The place in an order of the latest dependency of a name; one place before all if it has
none. -/
def latestIn (layer : Layer m n) (order : List String) (x : String) : Int :=
  ((layer.deps.find? x).getD []).foldl (fun place d => max place (order.idxOf d)) (-1)

theorem depends_iff_mem {d : String} : layer.Depends x d ↔ d ∈ (layer.deps.find? x).getD [] := by
  rw [Depends]
  cases layer.deps.find? x <;> simp

theorem latestIn_le_iff {z : Int} :
    layer.latestIn order x ≤ z ↔ -1 ≤ z ∧ ∀ d, layer.Depends x d → (order.idxOf d : Int) ≤ z := by
  have hfold : ∀ (deps : List String) (start : Int),
      deps.foldl (fun place d => max place (order.idxOf d : Int)) start ≤ z ↔
        start ≤ z ∧ ∀ d ∈ deps, (order.idxOf d : Int) ≤ z := by
    intro deps
    induction deps with
    | nil => simp
    | cons d deps ih =>
      intro start
      rw [List.foldl_cons, ih, max_le_iff, List.forall_mem_cons, and_assoc]
  simp only [latestIn, hfold, depends_iff_mem]

theorem idxOf_le_latestIn {d : String} (hd : layer.Depends x d) :
    (order.idxOf d : Int) ≤ layer.latestIn order x :=
  (latestIn_le_iff.mp le_rfl).2 d hd

/-- Where no dependency stands behind a given one, that one is the latest. -/
theorem latestIn_eq {d : String} (hd : layer.Depends x d)
    (hlast : ∀ e, layer.Depends x e → order.idxOf e ≤ order.idxOf d) :
    layer.latestIn order x = order.idxOf d := by
  refine le_antisymm (latestIn_le_iff.mpr ⟨by omega, fun e he => ?_⟩) (idxOf_le_latestIn hd)
  exact_mod_cast hlast e he

/-- A name with dependencies has a latest one. -/
theorem exists_latestIn_eq (h : 0 ≤ layer.latestIn order x) :
    ∃ d, layer.Depends x d ∧ layer.latestIn order x = order.idxOf d := by
  by_contra hnone
  -- otherwise all dependencies stand before the place, and so does the latest
  have hbefore : layer.latestIn order x ≤ layer.latestIn order x - 1 := by
    refine latestIn_le_iff.mpr ⟨by omega, fun d hd => ?_⟩
    have hle : (order.idxOf d : Int) ≤ layer.latestIn order x := idxOf_le_latestIn hd
    have hne : layer.latestIn order x ≠ order.idxOf d := fun heq => hnone ⟨d, hd, heq⟩
    omega
  omega

theorem latestIn_eq_neg_one_iff : layer.latestIn order x = -1 ↔ ∀ d, ¬ layer.Depends x d := by
  constructor
  · intro h d hd
    have hle : (order.idxOf d : Int) ≤ layer.latestIn order x := idxOf_le_latestIn hd
    omega
  · intro h
    exact le_antisymm (latestIn_le_iff.mpr ⟨le_rfl, fun d hd => absurd hd (h d)⟩)
      (latestIn_le_iff.mp le_rfl).1

end Layer

theorem idxOf_of_nodup {before after : List String} {x : String}
    (h : (before ++ x :: after).Nodup) :
    (before ++ x :: after).idxOf x = before.length := by
  have hx : x ∉ before := fun hx => List.disjoint_of_nodup_append h hx List.mem_cons_self
  rw [List.idxOf_append_of_notMem hx, List.idxOf_cons_self, Nat.add_zero]

/-- In a list in order, a dependency of a name is listed and stands before it. -/
theorem InOrder.mem_and_idxOf_lt {k : Kernel m n} {layer : Layer m n} {l : List (Ref m n)}
    (hin : InOrder k.name (k.needs layer) l) (hnodup : (l.map k.name).Nodup) {x d : String}
    (hx : x ∈ l.map k.name) (hd : layer.Depends x d) :
    d ∈ l.map k.name ∧ (l.map k.name).idxOf d < (l.map k.name).idxOf x := by
  obtain ⟨r, hr, rfl⟩ := List.mem_map.mp hx
  obtain ⟨pre, post, rfl⟩ := List.append_of_mem hr
  have hmem : d ∈ pre.map k.name := hin pre r post rfl d (Kernel.mem_needs_iff.mpr hd)
  rw [List.map_append, List.map_cons] at hnodup ⊢
  have hinit : pre.map k.name <+: pre.map k.name ++ k.name r :: post.map k.name :=
    List.prefix_append _ _
  rw [idxOf_of_nodup hnodup]
  exact ⟨hinit.subset hmem, (hinit.mem_iff_idxOf_lt_length d).mp hmem⟩

namespace Graph

/-! ## The queue is sorted -/

section Queue

variable {α : Type} {start : List (Node α)} {emitted waiting ids all : List Nat}

/-- **The queue is sorted** by a turn of rows if the visit at each place frees the rows that have
this place as their turn. -/
theorem Drains.sorted {turn : Nat → Int} (hr : Rooted start) (h : Drains start emitted waiting ids)
    (hall : emitted ++ ids = all)
    (hturn : ∀ pre id post, all = pre ++ id :: post → ∀ c ∈ freed start pre id, turn c = pre.length)
    (hpast : ∀ c ∈ emitted ++ waiting, turn c < emitted.length)
    (hsorted : (emitted ++ waiting).Pairwise fun a b => toLex (turn a, a) < toLex (turn b, b)) :
    all.Pairwise fun a b => toLex (turn a, a) < toLex (turn b, b) := by
  induction h with
  | done emitted => rwa [hall] at hsorted
  | @visit emitted waiting ids id rest ih =>
    have hnow := hturn emitted id ids hall.symm
    have hqueue : emitted ++ [id] ++ (waiting ++ freed start emitted id)
        = (emitted ++ id :: waiting) ++ freed start emitted id := by simp
    refine ih (by rw [← hall]; simp) ?_ ?_
    · rw [hqueue, List.length_append, List.length_singleton]
      intro c hc
      rcases List.mem_append.mp hc with hc | hc
      · have := hpast c hc
        omega
      · rw [hnow c hc]
        omega
    · rw [hqueue, List.pairwise_append]
      refine ⟨hsorted, ?_, fun a ha b hb => ?_⟩
      · refine ((hr.ascending id).filter _).imp_of_mem fun {a b} ha hb hab => ?_
        rw [Prod.Lex.toLex_lt_toLex, hnow a ha, hnow b hb]
        exact .inr ⟨rfl, hab⟩
      · rw [Prod.Lex.toLex_lt_toLex, hnow b hb]
        exact .inl (hpast a ha)

end Queue

/-! ## The rows of a kernel's items -/

variable {k : Kernel m n} {layer : Layer m n} {g : Graph (Ref m n)} {placed : List (Ref m n)}

/-- The row of a name. -/
def rowOf (g : Graph (Ref m n)) (x : String) : Nat := (g.index.find? x).getD 0

/-- A graph that was built has the items placed one after the other. -/
theorem exists_ofPlaced_of_build (h : build k layer = .ok g) :
    ∃ placed, ofPlaced k layer placed = g ∧ placed.Perm k.items ∧
      InOrder k.name (k.needs layer) placed := by
  obtain ⟨items, hitems, -⟩ := bind_eq_ok_iff.mp h
  obtain ⟨placed, stuck, hplace, -, hbuild⟩ := build_placement (pendingItems_eq_ok_iff.mp hitems).1
  rw [h, outcome] at hbuild
  split at hbuild
  · rename_i hstuck
    have hperm := hplace.perm
    rw [show stuck = [] by simpa using hstuck, List.append_nil] at hperm
    cases hbuild
    exact ⟨placed, rfl, hperm, hplace.inOrder⟩
  · cases hbuild

theorem HasName.name_eq {x y : String} {c : Nat} (hx : HasName k placed x c)
    (hy : HasName k placed y c) : x = y := by
  obtain ⟨i, r, rfl, hr, rfl⟩ := hx
  obtain ⟨j, q, hij, hq, rfl⟩ := hy
  rw [← Nat.succ_injective hij, hr] at hq
  cases hq
  rfl

theorem HasName.mem {x : String} {c : Nat} (h : HasName k placed x c) : x ∈ placed.map k.name := by
  obtain ⟨i, r, -, hr, rfl⟩ := h
  exact List.mem_map_of_mem (List.mem_of_getElem? hr)

section Rows

variable (hnodup : (placed.map k.name).Nodup) (hin : InOrder k.name (k.needs layer) placed)

include hnodup in
theorem HasName.row_eq {x : String} {b c : Nat} (hb : HasName k placed x b)
    (hc : HasName k placed x c) : b = c := by
  obtain ⟨i, r, rfl, hr, rfl⟩ := hb
  obtain ⟨j, q, rfl, hq, hname⟩ := hc
  have hi : i < (placed.map k.name).length := by
    rw [List.length_map]
    exact (List.getElem?_eq_some_iff.mp hr).1
  have hij : (placed.map k.name)[i]? = (placed.map k.name)[j]? := by
    rw [List.getElem?_map, List.getElem?_map, hr, hq, Option.map_some, Option.map_some, hname]
  rw [(List.getElem?_inj hi hnodup).mp hij]

include hin in
theorem HasName.item {x : String} {c : Nat} (h : HasName k placed x c) :
    ∃ r, (nodeAt (ofPlaced k layer placed).nodes c).item = some r ∧ k.name r = x := by
  obtain ⟨i, r, rfl, hr, rfl⟩ := h
  refine ⟨r, ?_, rfl⟩
  rw [(arena_ofPlaced hin).item, List.getElem?_map, hr]
  rfl

include hin in
/-- A name leads to a row that has it. -/
theorem hasName_rowOf {x : String} (hx : x ∈ placed.map k.name) :
    HasName k placed x ((ofPlaced k layer placed).rowOf x) := by
  have hlisted : x ∈ (placed.map (k.pending layer)).map Pending.name := by rwa [List.map_map]
  obtain ⟨id, hid⟩ := NameMap.contains_eq_true_iff.mp ((contains_foldl_place_empty _ x).mpr hlisted)
  have hfind : (ofPlaced k layer placed).index.find? x = some id := hid
  rw [rowOf, hfind, Option.getD_some]
  refine hasName_of_find? (i := placed.length) hin ?_
  rwa [List.take_length]

include hnodup hin in
/-- An item stands in the row of its name. -/
theorem item_rowOf {r : Ref m n} (hr : r ∈ placed) :
    (nodeAt (ofPlaced k layer placed).nodes ((ofPlaced k layer placed).rowOf (k.name r))).item
      = some r := by
  have hrow : HasName k placed (k.name r) ((ofPlaced k layer placed).rowOf (k.name r)) :=
    hasName_rowOf hin (List.mem_map_of_mem hr)
  obtain ⟨i, q, hrow, hq, hname⟩ := hrow
  have hqr : q = r := List.inj_on_of_nodup_map hnodup (List.mem_of_getElem? hq) hr hname
  rw [hrow, (arena_ofPlaced hin).item, List.getElem?_map, hq, hqr]
  rfl

include hnodup hin in
/-- **The queue emits the rows** of the items in the order. -/
theorem drains_map_rowOf :
    Drains (ofPlaced k layer placed).nodes [] (nodeAt (ofPlaced k layer placed).nodes 0).children
      (((ofPlaced k layer placed).drain.1.map k.name).map (ofPlaced k layer placed).rowOf) := by
  have hr := (arena_ofPlaced hin).rooted
  have hstart := Front.start hr
  obtain ⟨ids, hids, horder, -⟩ := drainFrom_drains hr _ _ _ (Consumed.refl _) hstart
  have hfront : Front (ofPlaced k layer placed).nodes ids [] := by simpa using hids.front hr hstart
  suffices hrows : ids = ((ofPlaced k layer placed).drain.1.map k.name).map
      (ofPlaced k layer placed).rowOf by rwa [← hrows]
  rw [drain_eq, horder, List.map_map, List.map_filterMap]
  refine (List.filterMap_some.symm).trans (List.filterMap_congr fun id hid => ?_)
  obtain ⟨hpos, hlt, -⟩ := (hfront.mem_iff id).mp (List.mem_append_left _ hid)
  obtain ⟨x, hx⟩ := exists_hasName hin hpos hlt
  obtain ⟨r, hitem, rfl⟩ := hx.item hin
  have hrow : HasName k placed (k.name r) ((ofPlaced k layer placed).rowOf (k.name r)) :=
    hasName_rowOf hin hx.mem
  rw [hitem, Option.map_some, Function.comp, hrow.row_eq hnodup hx]

include hin in
/-- **A visit frees the rows of its turn**: the latest dependency of what it frees is what it
visits. -/
theorem latestIn_of_mem_freed {before after : List String} {y x : String} {c : Nat}
    (horder : (before ++ y :: after).Nodup)
    (hplaced : ∀ d ∈ before ++ y :: after, d ∈ placed.map k.name)
    (hc : c ∈ freed (ofPlaced k layer placed).nodes (before.map (ofPlaced k layer placed).rowOf)
      ((ofPlaced k layer placed).rowOf y))
    (hx : HasName k placed x c) : layer.latestIn (before ++ y :: after) x = before.length := by
  have hr := (arena_ofPlaced hin).rooted
  rw [freed, List.mem_filter, hr.edge, List.all_eq_true] at hc
  obtain ⟨hparent, hemitted⟩ := hc
  have hread : before ++ [y] <+: before ++ y :: after := ⟨after, by simp⟩
  -- the visited row is a parent, and has the name of a dependency
  have hy : HasName k placed y ((ofPlaced k layer placed).rowOf y) :=
    hasName_rowOf hin (hplaced y (by simp))
  have hlatest : layer.Depends x y := by
    obtain ⟨d, hd, hdy⟩ :=
      (eq_zero_or_hasName_of_mem_parents hin hx hparent).resolve_left hy.pos.ne'
    rwa [← hdy.name_eq hy]
  rw [Layer.latestIn_eq hlatest, idxOf_of_nodup horder]
  -- all parents were emitted, so all dependencies were read
  intro d hd
  obtain ⟨p, hp, hdp⟩ := exists_mem_parents hin hx hd
  have hmem : p ∈ (before ++ [y]).map (ofPlaced k layer placed).rowOf := by
    simpa using hemitted p hp
  obtain ⟨e, he, rfl⟩ := List.mem_map.mp hmem
  rw [hdp.name_eq (hasName_rowOf hin (hplaced e (hread.subset he)))]
  have hlt := (hread.mem_iff_idxOf_lt_length e).mp he
  rw [List.length_append, List.length_singleton] at hlt
  rw [idxOf_of_nodup horder]
  omega

include hin in
/-- What hangs under the root waits for nothing. -/
theorem latestIn_of_mem_children {order : List String} {x : String} {c : Nat}
    (hc : c ∈ (nodeAt (ofPlaced k layer placed).nodes 0).children) (hx : HasName k placed x c) :
    layer.latestIn order x = -1 := by
  have hr := (arena_ofPlaced hin).rooted
  refine Layer.latestIn_eq_neg_one_iff.mpr fun d hd => ?_
  obtain ⟨p, hp, hdp⟩ := exists_mem_parents hin hx hd
  rw [hr.only_root c ((hr.edge 0 c).mp hc), List.mem_singleton] at hp
  exact hdp.pos.ne' hp

include hin in
theorem exists_hasName_of_mem_children {p c : Nat}
    (hc : c ∈ (nodeAt (ofPlaced k layer placed).nodes p).children) : ∃ x, HasName k placed x c := by
  have hr := (arena_ofPlaced hin).rooted
  have hparent := (hr.edge p c).mp hc
  exact exists_hasName hin (Nat.zero_lt_of_lt (hr.upwards p c hparent))
    (lt_length_of_mem_parents hparent)

include hin in
/-- The rows that the queue emits are sorted by their turns. -/
theorem sorted_rows {order : List String} {turn : Nat → Int} (horder : order.Nodup)
    (hplaced : ∀ d ∈ order, d ∈ placed.map k.name)
    (hturn : ∀ x c, HasName k placed x c → turn c = layer.latestIn order x)
    (hids : Drains (ofPlaced k layer placed).nodes []
      (nodeAt (ofPlaced k layer placed).nodes 0).children
        (order.map (ofPlaced k layer placed).rowOf)) :
    (order.map (ofPlaced k layer placed).rowOf).Pairwise fun a b =>
      toLex (turn a, a) < toLex (turn b, b) := by
  have hr := (arena_ofPlaced hin).rooted
  have hfree : ∀ c ∈ (nodeAt (ofPlaced k layer placed).nodes 0).children, turn c = -1 := by
    intro c hc
    obtain ⟨x, hx⟩ := exists_hasName_of_mem_children hin hc
    rw [hturn x c hx, latestIn_of_mem_children hin hc hx]
  refine hids.sorted hr rfl ?_ ?_ ?_
  · intro pre id post hsplit c hc
    obtain ⟨before, rest, rfl, rfl, hrest⟩ := List.map_eq_append_iff.mp hsplit
    obtain ⟨y, after, rfl, rfl, -⟩ := List.map_eq_cons_iff.mp hrest
    obtain ⟨x, hx⟩ := exists_hasName_of_mem_children hin (List.mem_of_mem_filter hc)
    rw [hturn x c hx, latestIn_of_mem_freed hin horder hplaced hc hx, List.length_map]
  · intro c hc
    rw [hfree c hc]
    decide
  · refine (hr.ascending 0).imp_of_mem fun {a b} ha hb hab => ?_
    rw [Prod.Lex.toLex_lt_toLex, hfree a ha, hfree b hb]
    exact .inr ⟨rfl, hab⟩

end Rows

/-! ## Turns -/

/-- The turn of an item, the place of its latest dependency, and among items of one turn its row. -/
def turnOf (k : Kernel m n) (layer : Layer m n) (g : Graph (Ref m n)) (r : Ref m n) : Int ×ₗ Nat :=
  toLex (layer.latestIn (g.drain.1.map k.name) (k.name r), g.rowOf (k.name r))

/-- The turn of the item in a row. -/
def turnAt (k : Kernel m n) (layer : Layer m n) (g : Graph (Ref m n)) (c : Nat) : Int :=
  (nodeAt g.nodes c).item.elim 0 fun r => layer.latestIn (g.drain.1.map k.name) (k.name r)

theorem HasName.turnAt_eq (hin : InOrder k.name (k.needs layer) placed) {x : String} {c : Nat}
    (hx : HasName k placed x c) :
    turnAt k layer (ofPlaced k layer placed) c
      = layer.latestIn ((ofPlaced k layer placed).drain.1.map k.name) x := by
  obtain ⟨r, hitem, rfl⟩ := hx.item hin
  rw [turnAt, hitem, Option.elim_some]

theorem nodup_map_drain (hk : k.Distinct) (h : build k layer = .ok g) :
    (g.drain.1.map k.name).Nodup :=
  ((drain_order h).1.map k.name).nodup_iff.mpr hk

/-- **Turns ascend along the order.** -/
theorem pairwise_turnOf (hk : k.Distinct) (h : build k layer = .ok g) :
    g.drain.1.Pairwise fun a b => turnOf k layer g a < turnOf k layer g b := by
  have horder := nodup_map_drain hk h
  have hdrain := (drain_order h).1
  obtain ⟨placed, rfl, hperm, hin⟩ := exists_ofPlaced_of_build h
  have hnodup : (placed.map k.name).Nodup := (hperm.map k.name).nodup_iff.mpr hk
  have hplaced : ∀ d ∈ (ofPlaced k layer placed).drain.1.map k.name, d ∈ placed.map k.name :=
    fun d => ((hdrain.trans hperm.symm).map k.name).mem_iff.mp
  have hsorted := sorted_rows hin horder hplaced (fun _ _ hx => hx.turnAt_eq hin)
    (drains_map_rowOf hnodup hin)
  rw [List.pairwise_map, List.pairwise_map] at hsorted
  refine hsorted.imp_of_mem fun {a b} ha hb hab => ?_
  have hrow : ∀ r ∈ (ofPlaced k layer placed).drain.1, HasName k placed (k.name r)
      ((ofPlaced k layer placed).rowOf (k.name r)) :=
    fun r hr => hasName_rowOf hin (hplaced _ (List.mem_map_of_mem hr))
  rwa [(hrow a ha).turnAt_eq hin, (hrow b hb).turnAt_eq hin] at hab

/-! ## Depth -/

/-- Dependencies stand before the item in the order. -/
theorem mem_and_idxOf_lt (hk : k.Distinct) (h : build k layer = .ok g) {x d : String}
    (hx : x ∈ g.drain.1.map k.name) (hd : layer.Depends x d) :
    d ∈ g.drain.1.map k.name ∧
      (g.drain.1.map k.name).idxOf d < (g.drain.1.map k.name).idxOf x :=
  (drain_order h).2.1.mem_and_idxOf_lt (nodup_map_drain hk h) hx hd

/-- Of two items the later has a dependency that stands no earlier than a given one of the first. -/
theorem exists_depends_of_idxOf_le (hk : k.Distinct) (h : build k layer = .ok g) {x y d : String}
    (hx : x ∈ g.drain.1.map k.name) (hy : y ∈ g.drain.1.map k.name)
    (hxy : (g.drain.1.map k.name).idxOf x ≤ (g.drain.1.map k.name).idxOf y)
    (hd : layer.Depends x d) :
    ∃ e, layer.Depends y e ∧ (g.drain.1.map k.name).idxOf d ≤ (g.drain.1.map k.name).idxOf e := by
  rcases hxy.eq_or_lt with heq | hlt
  · rw [List.idxOf_inj hx] at heq
    exact ⟨d, heq ▸ hd, le_rfl⟩
  · have hsorted : (g.drain.1.map k.name).Pairwise fun a b =>
        layer.latestIn (g.drain.1.map k.name) a ≤ layer.latestIn (g.drain.1.map k.name) b := by
      rw [List.pairwise_map]
      exact (pairwise_turnOf hk h).imp fun hab => Prod.Lex.monotone_fst _ _ hab.le
    have hle := List.pairwise_iff_getElem.mp hsorted _ _ (List.idxOf_lt_length_of_mem hx)
      (List.idxOf_lt_length_of_mem hy) hlt
    rw [List.getElem_idxOf, List.getElem_idxOf] at hle
    have hdx : ((g.drain.1.map k.name).idxOf d : Int) ≤ layer.latestIn (g.drain.1.map k.name) x :=
      Layer.idxOf_le_latestIn hd
    have hpos : 0 ≤ layer.latestIn (g.drain.1.map k.name) y := by omega
    obtain ⟨e, he, heq⟩ := Layer.exists_latestIn_eq hpos
    exact ⟨e, he, by omega⟩

/-- The lengths of the chains of dependencies below a name. -/
def chainLengths (layer : Layer m n) (x : String) : Set Nat :=
  {len | ∃ chain : List String, (x :: chain).IsChain layer.Depends ∧ chain.length = len}

/-- A chain leads back in the order. -/
theorem le_idxOf_of_mem_chainLengths (hk : k.Distinct) (h : build k layer = .ok g) {x : String}
    (hx : x ∈ g.drain.1.map k.name) {len : Nat} (hlen : len ∈ chainLengths layer x) :
    len ≤ (g.drain.1.map k.name).idxOf x := by
  obtain ⟨chain, hchain, rfl⟩ := hlen
  induction chain generalizing x with
  | nil => exact Nat.zero_le _
  | cons d chain ih =>
    rw [List.isChain_cons_cons] at hchain
    obtain ⟨hmem, hlt⟩ := mem_and_idxOf_lt hk h hx hchain.1
    exact (ih hmem hchain.2).trans_lt hlt

/-- A chain below an item has its like below every later item. -/
theorem chainLengths_mono (hk : k.Distinct) (h : build k layer = .ok g) {x y : String}
    (hx : x ∈ g.drain.1.map k.name) (hy : y ∈ g.drain.1.map k.name)
    (hxy : (g.drain.1.map k.name).idxOf x ≤ (g.drain.1.map k.name).idxOf y) :
    chainLengths layer x ⊆ chainLengths layer y := by
  rintro _ ⟨chain, hchain, rfl⟩
  induction chain generalizing x y with
  | nil => exact ⟨[], List.isChain_singleton y, rfl⟩
  | cons d chain ih =>
    rw [List.isChain_cons_cons] at hchain
    obtain ⟨e, he, hle⟩ := exists_depends_of_idxOf_le hk h hx hy hxy hchain.1
    obtain ⟨chain', hchain', hlen⟩ := ih (mem_and_idxOf_lt hk h hx hchain.1).1
      (mem_and_idxOf_lt hk h hy he).1 hle hchain.2
    exact ⟨e :: chain', List.isChain_cons_cons.mpr ⟨he, hchain'⟩, congrArg (· + 1) hlen⟩

/-- Every item has a longest chain below it. -/
theorem exists_depth (hk : k.Distinct) (h : build k layer = .ok g) :
    ∃ depth : Ref m n → Nat, ∀ r ∈ k.items, IsGreatest (chainLengths layer (k.name r))
    (depth r) := by
  have hmax : ∀ r, ∃ len, r ∈ k.items → IsGreatest (chainLengths layer (k.name r)) len := by
    intro r
    by_cases hr : r ∈ k.items
    · have hmem : k.name r ∈ g.drain.1.map k.name :=
        List.mem_map_of_mem ((drain_order h).1.mem_iff.mpr hr)
      have hbound : BddAbove (chainLengths layer (k.name r)) :=
        ⟨_, fun len hlen => le_idxOf_of_mem_chainLengths hk h hmem hlen⟩
      obtain ⟨len, hlen⟩ := hbound.exists_isGreatest_of_nonempty
        ⟨0, [], List.isChain_singleton _, rfl⟩
      exact ⟨len, fun _ => hlen⟩
    · exact ⟨0, fun hmem => absurd hmem hr⟩
  exact ⟨fun r => (hmax r).choose, fun r => (hmax r).choose_spec⟩

/-- **The order, exactly.**  An item stands in the row of its name, and the order is strictly
increasing in the place of the latest dependency, and where these are equal in the row.  So the
length of the longest chain of dependencies below an item never decreases along the order, and the
items without dependencies come first, as they were declared. -/
theorem drain_increasing (hk : k.Distinct) (h : build k layer = .ok g) :
    (∀ r ∈ k.items, (nodeAt g.nodes (g.rowOf (k.name r))).item = some r) ∧
    (g.drain.1.Pairwise fun a b => turnOf k layer g a < turnOf k layer g b) ∧
    (∃ depth : Ref m n → Nat,
      (∀ r ∈ k.items, IsGreatest (chainLengths layer (k.name r)) (depth r)) ∧
      g.drain.1.Pairwise fun a b => depth a ≤ depth b) ∧
    k.items.filter (fun r => (k.needs layer r).isEmpty) <+: g.drain.1 := by
  obtain ⟨hperm, -, hfree⟩ := drain_order h
  refine ⟨fun r hr => ?_, pairwise_turnOf hk h, ?_, hfree⟩
  · obtain ⟨placed, rfl, hplaced, hin⟩ := exists_ofPlaced_of_build h
    exact item_rowOf ((hplaced.map k.name).nodup_iff.mpr hk) hin (hplaced.mem_iff.mpr hr)
  · obtain ⟨depth, hdepth⟩ := exists_depth hk h
    refine ⟨depth, hdepth, ?_⟩
    have hidx := List.pairwise_map.mp (Kernel.pairwise_idxOf (nodup_map_drain hk h))
    refine hidx.imp_of_mem fun {a b} ha hb hab => ?_
    have hmono := chainLengths_mono hk h (List.mem_map_of_mem ha) (List.mem_map_of_mem hb) hab.le
    exact (hdepth b (hperm.mem_iff.mp hb)).2 (hmono (hdepth a (hperm.mem_iff.mp ha)).1)

/-- In the diamond the loop comes with the top, then the two sides, then the statement under
both. -/
theorem drain_diamond_increasing :
    diamond.Distinct ∧ ∃ g, build diamond (Layer.declared diamond) = .ok g ∧
      (g.drain.1.Pairwise fun a b =>
        turnOf diamond (Layer.declared diamond) g a < turnOf diamond (Layer.declared diamond) g b) ∧
      g.drain.1.map (turnOf diamond (Layer.declared diamond) g)
        = [toLex (-1, 1), toLex (-1, 2), toLex (0, 3), toLex (0, 4), toLex (3, 5)] := by
  have hdistinct : diamond.Distinct := by rw [Kernel.Distinct]; decide
  obtain ⟨g, hg⟩ : ∃ g, build diamond (Layer.declared diamond) = .ok g := ⟨_, by cbv⟩
  refine ⟨hdistinct, g, hg, (drain_increasing hdistinct hg).2.1, ?_⟩
  have hturns : (build diamond (Layer.declared diamond)).map (fun g =>
      g.drain.1.map (turnOf diamond (Layer.declared diamond) g))
        = .ok [toLex (-1, 1), toLex (-1, 2), toLex (0, 3), toLex (0, 4), toLex (3, 5)] := by cbv
  rw [hg] at hturns
  exact Except.ok.inj hturns

end Graph
end LoopNest
