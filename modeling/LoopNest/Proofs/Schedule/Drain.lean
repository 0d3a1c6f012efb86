import LoopNest.Proofs.Schedule.Arena

/-!
# Reading the order off the graph

The order is read breadth first: a queue of waiting rows starts with the children of the root, the
first in the queue is emitted, its edges are consumed, and a row joins the queue when its last edge
is gone.

## The state is the emitted list

The rows change while they are read, but what they look like is fixed by the graph at the start and
by what was emitted (`Consumed`): an emitted row has lost its children, and every row has lost its
emitted parents.  So one invariant over the starting graph is enough (`Front`): a row was emitted or
waits iff all its parents are the root or were emitted.  When the queue is empty this says, row by
row upwards, that everything was emitted, and the queue discipline says that a row came after all
its parents.

* `Drains`: the queue, over the starting graph alone.
* `drainFrom_drains`: the program runs through the queue and leaves the consumed rows.
* `drain_order`: the order of a kernel's items.
* `drain_consumes`: the order and the consumed graph.
-/

namespace LoopNest

attribute [ext] Node

namespace Graph

variable {α : Type}

/-! ## What a visit does to the rows -/

theorem fst_release (id : Nat) (nodes : List (Node α)) :
    (release id nodes).1 = (nodeAt nodes id).children := by
  induction nodes generalizing id with
  | nil => rw [release, nodeAt_of_length_le (Nat.zero_le _)]
  | cons node nodes ih =>
    cases id with
    | zero => rfl
    | succ id => exact ih id

/-- A visited row loses its children, in its place. -/
theorem snd_release (id : Nat) (nodes : List (Node α)) :
    (release id nodes).2 = nodes.modify id fun node => { node with children := [] } := by
  induction nodes generalizing id with
  | nil => simp [release]
  | cons node nodes ih =>
    cases id with
    | zero => rfl
    | succ id => exact congrArg (node :: ·) (ih id)

theorem dropParent_eq_modify (parent id : Nat) (nodes : List (Node α)) :
    dropParent parent id nodes =
    nodes.modify id fun node => { node with parents := node.parents.filter (· ≠ parent) } := by
  induction nodes generalizing id with
  | nil => simp [dropParent]
  | cons node nodes ih =>
    cases id with
    | zero => rfl
    | succ id => exact congrArg (node :: ·) (ih id)

theorem length_release (id : Nat) (nodes : List (Node α)) :
    (release id nodes).2.length = nodes.length := by
  rw [snd_release, List.length_modify]

theorem length_dropParent (parent id : Nat) (nodes : List (Node α)) :
    (dropParent parent id nodes).length = nodes.length := by
  rw [dropParent_eq_modify, List.length_modify]

theorem map_children_getElem?_zero {nodes : List (Node α)} (h : 0 < nodes.length) :
    (nodes[0]?).map Node.children = some (nodeAt nodes 0).children := by
  rw [nodeAt, List.getElem?_eq_getElem h]
  rfl

/-- A row that is not there has nothing to lose. -/
theorem nodeAt_modify {f : Node α → Node α} (hf : f ⟨none, [], []⟩ = ⟨none, [], []⟩)
    (nodes : List (Node α)) (id j : Nat) :
    nodeAt (nodes.modify id f) j = if j = id then f (nodeAt nodes j) else nodeAt nodes j := by
  rw [nodeAt, nodeAt, List.getElem?_modify]
  by_cases hj : id = j
  · subst hj
    cases nodes[id]? <;> simp [hf]
  · cases nodes[j]? <;> simp [hj, Ne.symm hj]

theorem nodeAt_release (id : Nat) (nodes : List (Node α)) (j : Nat) :
    nodeAt (release id nodes).2 j =
      { nodeAt nodes j with children := if j = id then [] else (nodeAt nodes j).children } := by
  rw [snd_release, nodeAt_modify rfl]
  split <;> rfl

theorem nodeAt_dropParent (parent id : Nat) (nodes : List (Node α)) (j : Nat) :
    nodeAt (dropParent parent id nodes) j =
      { nodeAt nodes j with
        parents := if j = id then (nodeAt nodes j).parents.filter (· ≠ parent)
          else (nodeAt nodes j).parents } := by
  rw [dropParent_eq_modify, nodeAt_modify rfl]
  split <;> rfl

theorem length_dropParents_snd (parent : Nat) (children : List Nat) (nodes : List (Node α)) :
    (dropParents parent children nodes).2.length = nodes.length := by
  induction children generalizing nodes with
  | nil => rfl
  | cons child children ih =>
    show (dropParents parent children (dropParent parent child nodes)).2.length = _
    rw [ih, length_dropParent]

/-- The children of a visited row lose it as a parent. -/
theorem nodeAt_dropParents (parent : Nat) (children : List Nat) (nodes : List (Node α)) (j : Nat) :
    nodeAt (dropParents parent children nodes).2 j =
      { nodeAt nodes j with
        parents := if j ∈ children then (nodeAt nodes j).parents.filter (· ≠ parent)
          else (nodeAt nodes j).parents } := by
  induction children generalizing nodes with
  | nil => rfl
  | cons child children ih =>
    show nodeAt (dropParents parent children (dropParent parent child nodes)).2 j = _
    rw [ih, nodeAt_dropParent]
    by_cases hjc : j = child
    · by_cases hjm : j ∈ children
      · simp [hjc, List.filter_filter]
      · simp [hjc]
    · simp [hjc]

theorem isFree_eq {nodes : List (Node α)} {id : Nat} (h : id < nodes.length) :
    isFree nodes id = (nodeAt nodes id).parents.isEmpty := by
  rw [isFree, nodeAt, List.getElem?_eq_getElem h]
  rfl

/-- The children that became free are those with no other parent left. -/
theorem fst_dropParents {parent : Nat} {children : List Nat} {nodes : List (Node α)}
    (hnodup : children.Nodup) (hlt : ∀ c ∈ children, c < nodes.length) :
    (dropParents parent children nodes).1 = children.filter fun c =>
      ((nodeAt nodes c).parents.filter (· ≠ parent)).isEmpty := by
  induction children generalizing nodes with
  | nil => rfl
  | cons child children ih =>
    rw [List.nodup_cons] at hnodup
    have hchild : child < nodes.length := hlt child List.mem_cons_self
    have hrest : ∀ c ∈ children, c < (dropParent parent child nodes).length := by
      intro c hc
      rw [length_dropParent]
      exact hlt c (List.mem_cons_of_mem _ hc)
    have hsame : children.filter (fun c =>
          ((nodeAt (dropParent parent child nodes) c).parents.filter (· ≠ parent)).isEmpty)
        = children.filter fun c => ((nodeAt nodes c).parents.filter (· ≠ parent)).isEmpty := by
      refine List.filter_congr fun c hc => ?_
      have hne : ¬ c = child := fun h => hnodup.1 (h ▸ hc)
      rw [nodeAt_dropParent, if_neg hne]
    show (if isFree (dropParent parent child nodes) child then
        child :: (dropParents parent children (dropParent parent child nodes)).1
      else (dropParents parent children (dropParent parent child nodes)).1) = _
    rw [ih hnodup.2 hrest, hsame, isFree_eq (by rwa [length_dropParent]), nodeAt_dropParent,
      if_pos rfl, List.filter_cons]

/-! ## The state is the emitted list -/

/-- What is left of a graph when some rows were emitted. -/
structure Consumed (start nodes : List (Node α)) (emitted : List Nat) : Prop where
  length : nodes.length = start.length
  row : ∀ id, nodeAt nodes id =
    { nodeAt start id with
      children := if id ∈ emitted then [] else (nodeAt start id).children
      parents := (nodeAt start id).parents.filter (· ∉ emitted) }

theorem Consumed.refl (start : List (Node α)) : Consumed start start [] := by
  refine ⟨rfl, fun id => ?_⟩
  simp

/-- The rows that become free when a row is emitted after some others. -/
def freed (start : List (Node α)) (emitted : List Nat) (id : Nat) : List Nat :=
  (nodeAt start id).children.filter fun c => (nodeAt start c).parents.all (· ∈ emitted ++ [id])

/-- The queue over the starting graph: what was emitted before, what waits, what is emitted. -/
inductive Drains (start : List (Node α)) : List Nat → List Nat → List Nat → Prop where
  | done (emitted : List Nat) : Drains start emitted [] []
  | visit {emitted waiting ids : List Nat} {id : Nat}
      (rest : Drains start (emitted ++ [id]) (waiting ++ freed start emitted id) ids) :
      Drains start emitted (id :: waiting) (id :: ids)

/-- A row was emitted or waits iff all its parents are the root or were emitted. -/
structure Front (start : List (Node α)) (emitted waiting : List Nat) : Prop where
  nodup : (emitted ++ waiting).Nodup
  mem_iff : ∀ c, c ∈ emitted ++ waiting ↔
    0 < c ∧ c < start.length ∧ ∀ p ∈ (nodeAt start c).parents, p = 0 ∨ p ∈ emitted

section Visit

variable {start : List (Node α)} {emitted waiting : List Nat} {id : Nat}

theorem Front.notMem_emitted (h : Front start emitted (id :: waiting)) : id ∉ emitted := by
  intro hid
  exact (List.nodup_append.mp h.nodup).2.2 id hid id List.mem_cons_self rfl

theorem Front.pos (h : Front start emitted (id :: waiting)) : 0 < id :=
  ((h.mem_iff id).mp (List.mem_append_right _ List.mem_cons_self)).1

/-- A row becomes free with its last parent, and was not free before. -/
theorem Front.mem_freed_iff (hr : Rooted start) (h : Front start emitted (id :: waiting))
    {c : Nat} :
    c ∈ freed start emitted id ↔
      c ∉ emitted ++ id :: waiting ∧ 0 < c ∧ c < start.length ∧
        ∀ p ∈ (nodeAt start c).parents, p = 0 ∨ p ∈ emitted ++ [id] := by
  rw [freed, List.mem_filter, hr.edge, List.all_eq_true, h.mem_iff]
  constructor
  · rintro ⟨hpar, hall⟩
    have hall' : ∀ p ∈ (nodeAt start c).parents, p ∈ emitted ++ [id] := by simpa using hall
    refine ⟨?_, ?_, lt_length_of_mem_parents hpar, fun p hp => Or.inr (hall' p hp)⟩
    · rintro ⟨-, -, hold⟩
      rcases hold id hpar with h₀ | hid
      · exact absurd h.pos (by omega)
      · exact h.notMem_emitted hid
    · exact Nat.zero_lt_of_lt (hr.upwards id c hpar)
  · rintro ⟨hnot, h₀, hlt, hall⟩
    -- some parent was not emitted before, so it is the row emitted now
    have hpar : id ∈ (nodeAt start c).parents := by
      by_contra hpar
      refine hnot ⟨h₀, hlt, fun p hp => ?_⟩
      rcases hall p hp with hz | hp'
      · exact Or.inl hz
      · rcases List.mem_append.mp hp' with hp' | hp'
        · exact Or.inr hp'
        · exact absurd (List.mem_singleton.mp hp' ▸ hp) hpar
    refine ⟨hpar, fun p hp => ?_⟩
    rcases hall p hp with hz | hp'
    · rw [hz] at hp
      rw [hr.only_root c hp, List.mem_singleton] at hpar
      exact absurd h.pos (by omega)
    · simpa using hp'

/-- **A visit moves the front.** -/
theorem Front.visit (hr : Rooted start) (h : Front start emitted (id :: waiting)) :
    Front start (emitted ++ [id]) (waiting ++ freed start emitted id) := by
  have hold : emitted ++ [id] ++ waiting = emitted ++ id :: waiting := by simp
  have hfreed : (freed start emitted id).Nodup :=
    ((hr.ascending id).imp Nat.ne_of_lt).filter _
  refine ⟨?_, fun c => ?_⟩
  · rw [← List.append_assoc, hold, List.nodup_append]
    refine ⟨h.nodup, hfreed, fun a ha b hb hab => ?_⟩
    subst hab
    exact ((h.mem_freed_iff hr).mp hb).1 ha
  · rw [← List.append_assoc, hold, List.mem_append, h.mem_freed_iff hr]
    constructor
    · rintro (hc | ⟨-, hc⟩)
      · obtain ⟨h₀, hlt, hall⟩ := (h.mem_iff c).mp hc
        refine ⟨h₀, hlt, fun p hp => ?_⟩
        exact (hall p hp).imp_right (List.mem_append_left _)
      · exact hc
    · intro hc
      by_cases hmem : c ∈ emitted ++ id :: waiting
      · exact Or.inl hmem
      · exact Or.inr ⟨hmem, hc⟩

/-- **A visit consumes the edges** of the visited row, and finds the rows that become free. -/
theorem Consumed.visit {nodes : List (Node α)} (hr : Rooted start)
    (hc : Consumed start nodes emitted) (hf : Front start emitted (id :: waiting)) :
    (dropParents id (release id nodes).1 (release id nodes).2).1 = freed start emitted id ∧
      Consumed start (dropParents id (release id nodes).1 (release id nodes).2).2
        (emitted ++ [id]) := by
  have hkids : (release id nodes).1 = (nodeAt start id).children := by
    rw [fst_release, hc.row, if_neg hf.notMem_emitted]
  have hparents : ∀ j, (nodeAt (release id nodes).2 j).parents
      = (nodeAt start j).parents.filter (· ∉ emitted) := by
    intro j
    rw [nodeAt_release, hc.row]
  have hfilter : ∀ j, ((nodeAt start j).parents.filter (· ∉ emitted)).filter (· ≠ id)
      = (nodeAt start j).parents.filter (· ∉ emitted ++ [id]) := by
    intro j
    rw [List.filter_filter]
    refine List.filter_congr fun p _ => ?_
    simp [and_comm]
  have hlen : (release id nodes).2.length = start.length := by rw [length_release, hc.length]
  rw [hkids]
  refine ⟨?_, ?_, fun j => ?_⟩
  · have hlt : ∀ c ∈ (nodeAt start id).children, c < (release id nodes).2.length := by
      intro c hcm
      rw [hlen]
      exact lt_length_of_mem_parents ((hr.edge id c).mp hcm)
    rw [fst_dropParents ((hr.ascending id).imp Nat.ne_of_lt) hlt, freed]
    refine List.filter_congr fun c _ => ?_
    rw [hparents, hfilter, Bool.eq_iff_iff, List.isEmpty_iff, List.filter_eq_nil_iff,
      List.all_eq_true]
    simp only [List.mem_append, List.mem_singleton, decide_eq_true_eq, not_not]
  · rw [length_dropParents_snd, hlen]
  · rw [nodeAt_dropParents, hparents, hfilter, nodeAt_release, hc.row]
    ext1
    · rfl
    · by_cases hj : j = id
      · simp [hj]
      · simp [hj]
    · show (if j ∈ (nodeAt start id).children then _ else _) = _
      split
      · rfl
      · rename_i hj
        rw [hr.edge] at hj
        refine List.filter_congr fun p hp => ?_
        have hne : p ≠ id := fun h => hj (h ▸ hp)
        simp [hne]

end Visit

/-! ## The whole reading -/

theorem getElem?_bind_item (nodes : List (Node α)) (id : Nat) :
    (nodes[id]?).bind Node.item = (nodeAt nodes id).item := by
  rw [nodeAt]
  cases nodes[id]? <;> rfl

/-- **The program runs through the queue** and leaves the consumed rows. -/
theorem drainFrom_drains {start : List (Node α)} (hr : Rooted start) (waiting : List Nat)
    (nodes : List (Node α)) (emitted : List Nat) (hc : Consumed start nodes emitted)
    (hf : Front start emitted waiting) :
    ∃ ids, Drains start emitted waiting ids ∧
      (drainFrom waiting nodes).1 = ids.filterMap (fun id => (nodeAt start id).item) ∧
      Consumed start (drainFrom waiting nodes).2 (emitted ++ ids) := by
  fun_induction drainFrom waiting nodes generalizing emitted with
  | case1 nodes => exact ⟨[], .done emitted, rfl, by rwa [List.append_nil]⟩
  | case2 nodes id waiting item released dropped order rest heq ih =>
    obtain ⟨hfreed, hcons⟩ := hc.visit hr hf
    have hfront := hf.visit hr
    rw [← hfreed] at hfront
    obtain ⟨ids, hdrains, horder, hrest⟩ := ih (emitted ++ [id]) hcons hfront
    rw [heq] at horder hrest
    have hitem : item = (nodeAt start id).item := by
      show (nodes[id]?).bind Node.item = _
      rw [getElem?_bind_item, hc.row]
    refine ⟨id :: ids, .visit (hfreed ▸ hdrains), ?_, ?_⟩
    · show item.toList ++ order = _
      rw [hitem, List.filterMap_cons, show order = _ from horder]
      cases (nodeAt start id).item <;> rfl
    · rwa [List.append_assoc, List.singleton_append] at hrest

namespace Drains

variable {start : List (Node α)} {emitted waiting ids : List Nat}

/-- When the queue is empty, nothing waits. -/
theorem front (hr : Rooted start) (h : Drains start emitted waiting ids)
    (hf : Front start emitted waiting) : Front start (emitted ++ ids) [] := by
  induction h with
  | done emitted => rwa [List.append_nil]
  | visit rest ih =>
    have hend := ih (hf.visit hr)
    rwa [List.append_assoc, List.singleton_append] at hend

/-- The rows that wait at the start are emitted first, in turn. -/
theorem isPrefix (h : Drains start emitted waiting ids) : waiting <+: ids := by
  induction h with
  | done emitted => exact List.prefix_refl []
  | visit rest ih =>
    exact List.cons_prefix_cons.mpr ⟨rfl, (List.prefix_append _ _).trans ih⟩

/-- A row is emitted after all its parents. -/
theorem parents_before (hr : Rooted start) (h : Drains start emitted waiting ids)
    (hf : Front start emitted waiting) {pre post : List Nat} {id : Nat}
    (hids : ids = pre ++ id :: post) {p : Nat} (hp : p ∈ (nodeAt start id).parents) :
    p = 0 ∨ p ∈ emitted ++ pre := by
  induction h generalizing pre with
  | done emitted => simp at hids
  | @visit emitted waiting ids first rest ih =>
    cases pre with
    | nil =>
      rw [List.nil_append, List.cons.injEq] at hids
      rw [← hids.1] at hp
      rw [List.append_nil]
      exact ((hf.mem_iff first).mp (List.mem_append_right _ List.mem_cons_self)).2.2 p hp
    | cons q pre =>
      rw [List.cons_append, List.cons.injEq] at hids
      have hend := ih (hf.visit hr) hids.2
      rwa [List.append_assoc, List.singleton_append, hids.1] at hend

end Drains

/-- At the start the children of the root wait. -/
theorem Front.start {start : List (Node α)} (hr : Rooted start) :
    Front start [] (nodeAt start 0).children := by
  refine ⟨(hr.ascending 0).imp Nat.ne_of_lt, fun c => ?_⟩
  rw [List.nil_append, hr.edge]
  constructor
  · intro h₀
    refine ⟨hr.upwards 0 c h₀, lt_length_of_mem_parents h₀, fun p hp => Or.inl ?_⟩
    rwa [hr.only_root c h₀, List.mem_singleton] at hp
  · rintro ⟨hpos, hlt, hall⟩
    obtain ⟨p, hp⟩ := List.exists_mem_of_ne_nil _ (hr.attached c hpos hlt)
    rcases hall p hp with rfl | hnil
    · exact hp
    · exact absurd hnil List.not_mem_nil

/-- When nothing waits, everything was emitted. -/
theorem Front.mem_emitted {start : List (Node α)} (hr : Rooted start) {emitted : List Nat}
    (h : Front start emitted []) {c : Nat} (hpos : 0 < c) (hlt : c < start.length) :
    c ∈ emitted := by
  -- parents stand in lower rows
  induction c using Nat.strong_induction_on with
  | _ c ih =>
    have hmem : c ∈ emitted ++ [] := by
      refine (h.mem_iff c).mpr ⟨hpos, hlt, fun p hp => ?_⟩
      rcases Nat.eq_zero_or_pos p with hz | hp₀
      · exact Or.inl hz
      · exact Or.inr (ih p (hr.upwards p c hp) hp₀ (Nat.lt_trans (hr.upwards p c hp) hlt))
    rwa [List.append_nil] at hmem

theorem Front.perm_range {start : List (Node α)} (hr : Rooted start) {emitted : List Nat}
    (h : Front start emitted []) : emitted.Perm (List.range' 1 (start.length - 1)) := by
  have hnodup : emitted.Nodup := by simpa using h.nodup
  refine (List.perm_ext_iff_of_nodup hnodup List.nodup_range').mpr fun c => ?_
  rw [List.mem_range'_1]
  constructor
  · intro hc
    obtain ⟨h₀, hlt, -⟩ := (h.mem_iff c).mp (List.mem_append_left _ hc)
    omega
  · rintro ⟨h₁, h₂⟩
    exact h.mem_emitted hr (by omega) (by omega)

/-! ## The order of an arena -/

theorem filterMap_range (placed : List (Pending α)) :
    (List.range placed.length).filterMap (fun i => placed[i]?) = placed := by
  induction placed using List.reverseRecOn with
  | nil => rfl
  | append_singleton placed p ih =>
    have hold : ∀ i ∈ List.range placed.length, (placed ++ [p])[i]? = placed[i]? :=
      fun i hi => List.getElem?_append_left (List.mem_range.mp hi)
    rw [List.length_append, List.length_singleton, List.range_succ, List.filterMap_append,
      List.filterMap_congr hold, ih]
    simp

/-- The rows behind the root, read one after the other, are the placed items. -/
theorem filterMap_range' (placed : List (Pending α)) :
    (List.range' 1 placed.length).filterMap (fun id => placed[id - 1]?) = placed := by
  have hget : ((fun id => placed[id - 1]?) ∘ fun i => 1 + i) = fun i : Nat => placed[i]? := by
    funext i
    simp
  rw [List.range'_eq_map_range, List.filterMap_map, hget, filterMap_range]

variable {placed : List (Pending α)} {g : Graph α}

/-- Rows emitted after their parents hold items in order. -/
theorem Arena.inOrder_filterMap (h : Arena placed g) {ids : List Nat}
    (hpos : ∀ id ∈ ids, 0 < id)
    (hids : ∀ pre id post, ids = pre ++ id :: post → ∀ p ∈ (nodeAt g.nodes id).parents,
      p = 0 ∨ p ∈ pre) :
    InOrder Pending.name Pending.deps (ids.filterMap fun id => placed[id - 1]?) := by
  intro pre p post hsplit d hd
  obtain ⟨ids₁, ids₂, rfl, rfl, hcons⟩ := List.filterMap_eq_append_iff.mp hsplit
  obtain ⟨skip, id, ids₃, rfl, hskip, hid, rfl⟩ := List.filterMap_eq_cons_iff.mp hcons
  have hpos' : 0 < id := hpos id (by simp)
  obtain ⟨i, rfl⟩ : ∃ i, id = i + 1 := ⟨id - 1, by omega⟩
  obtain ⟨j, q, hj, hname, hpar⟩ := h.bound i p hid d hd
  have hbefore := hids (ids₁ ++ skip) (i + 1) ids₃ (by simp) (j + 1) hpar
  have hmem : j + 1 ∈ ids₁ := by
    rcases hbefore with h₀ | hmem
    · omega
    · rcases List.mem_append.mp hmem with hmem | hmem
      · exact hmem
      · have := hskip (j + 1) hmem
        rw [Nat.add_sub_cancel, hj] at this
        cases this
  refine List.mem_map.mpr ⟨q, List.mem_filterMap.mpr ⟨j + 1, hmem, ?_⟩, hname⟩
  rwa [Nat.add_sub_cancel]

theorem drain_eq (g : Graph α) :
    g.drain = ((drainFrom (nodeAt g.nodes 0).children g.nodes).1,
      ⟨(drainFrom (nodeAt g.nodes 0).children g.nodes).2, g.index⟩) := by
  have hroot : (g.nodes.head?).elim [] Node.children = (nodeAt g.nodes 0).children := by
    rw [nodeAt]
    cases g.nodes <;> rfl
  rw [drain, hroot]

theorem Arena.filterMap_item (h : Arena placed g) {ids : List Nat} (hpos : ∀ id ∈ ids, 0 < id) :
    ids.filterMap (fun id => (nodeAt g.nodes id).item)
      = (ids.filterMap fun id => placed[id - 1]?).map Pending.item := by
  rw [List.map_filterMap]
  refine List.filterMap_congr fun id hid => ?_
  have := hpos id hid
  obtain ⟨i, rfl⟩ : ∃ i, id = i + 1 := ⟨id - 1, by omega⟩
  rw [h.item, Nat.add_sub_cancel]

/-- **The order of an arena** lists the placed items so that dependencies come first, and starts
with the items that have none; the graph is left consumed by all rows. -/
theorem Arena.drain_spec (h : Arena placed g) :
    ∃ (ids : List Nat) (order : List (Pending α)), g.drain.1 = order.map Pending.item ∧
      order.Perm placed ∧ InOrder Pending.name Pending.deps order ∧
      placed.filter (fun p => p.deps.isEmpty) <+: order ∧
      Consumed g.nodes g.drain.2.nodes ids ∧ Front g.nodes ids [] := by
  have hstart := Front.start h.rooted
  obtain ⟨ids, hdrains, horder, hcons⟩ :=
    drainFrom_drains h.rooted _ _ _ (Consumed.refl g.nodes) hstart
  have hfront : Front g.nodes ids [] := by simpa using hdrains.front h.rooted hstart
  have hpos : ∀ id ∈ ids, 0 < id :=
    fun id hid => ((hfront.mem_iff id).mp (List.mem_append_left _ hid)).1
  refine ⟨ids, ids.filterMap fun id => placed[id - 1]?, ?_, ?_, ?_, ?_, ?_, hfront⟩
  · rw [drain_eq, horder, h.filterMap_item hpos]
  · have hperm := hfront.perm_range h.rooted
    rw [h.length, Nat.add_sub_cancel] at hperm
    have hmap := hperm.filterMap fun id => placed[id - 1]?
    rwa [filterMap_range'] at hmap
  · refine h.inOrder_filterMap hpos fun pre id post hids p hp => ?_
    simpa using hdrains.parents_before h.rooted hstart hids hp
  · rw [← h.top]
    exact hdrains.isPrefix.filterMap _
  · rw [drain_eq]
    simpa using hcons

/-! ## The consumed graph -/

/-- Waiting rows without children are emitted one after the other, and change nothing. -/
theorem drainFrom_of_childless {waiting : List Nat} {nodes : List (Node α)}
    (h : ∀ id ∈ waiting, (nodeAt nodes id).children = []) :
    drainFrom waiting nodes = (waiting.filterMap fun id => (nodeAt nodes id).item, nodes) := by
  induction waiting with
  | nil => rw [drainFrom]; rfl
  | cons id waiting ih =>
    have hid : (nodeAt nodes id).children = [] := h id List.mem_cons_self
    have hfst : (release id nodes).1 = [] := by rw [fst_release, hid]
    have hsnd : (release id nodes).2 = nodes := by
      refine ext_nodeAt (length_release id nodes) fun j => ?_
      rw [nodeAt_release]
      by_cases hj : j = id
      · subst hj
        rw [if_pos rfl, ← hid]
      · rw [if_neg hj]
    have hdrop : dropParents id (release id nodes).1 (release id nodes).2 = ([], nodes) := by
      rw [hfst, hsnd]
      rfl
    rw [drainFrom, hdrop, List.append_nil, ih fun j hj => h j (List.mem_cons_of_mem _ hj),
      getElem?_bind_item, List.filterMap_cons]
    cases (nodeAt nodes id).item <;> rfl

section Left

variable {start nodes : List (Node α)} {ids : List Nat} (hr : Rooted start)
  (hc : Consumed start nodes ids) (hf : Front start ids [])

include hf in
theorem Front.zero_notMem : 0 ∉ ids := by
  intro h₀
  exact absurd ((hf.mem_iff 0).mp (List.mem_append_left _ h₀)).1 (Nat.lt_irrefl 0)

include hr hc hf in
/-- Behind the root no row has children left. -/
theorem Consumed.children_eq_nil {id : Nat} (hid : id ≠ 0) : (nodeAt nodes id).children = [] := by
  rw [hc.row]
  by_cases hlt : id < start.length
  · exact if_pos (hf.mem_emitted hr (by omega) hlt)
  · have hnil : (nodeAt start id).children = [] := by rw [nodeAt_of_length_le (by omega)]
    show (if id ∈ ids then [] else (nodeAt start id).children) = []
    rw [hnil, ite_self]

include hc hf in
theorem Consumed.children_root : (nodeAt nodes 0).children = (nodeAt start 0).children := by
  rw [hc.row]
  exact if_neg hf.zero_notMem

include hr hc hf in
/-- No row has parents left but the root. -/
theorem Consumed.eq_zero_of_mem_parents {id p : Nat} (hp : p ∈ (nodeAt nodes id).parents) :
    p = 0 ∧ 0 ∈ (nodeAt start id).parents := by
  rw [hc.row, List.mem_filter] at hp
  have hlt := lt_length_of_mem_parents hp.1
  have hup := hr.upwards p id hp.1
  have hz : p = 0 := by
    by_contra hne
    have hmem : p ∈ ids := hf.mem_emitted hr (by omega) (by omega)
    simp [hmem] at hp
  exact ⟨hz, hz ▸ hp.1⟩

include hc in
/-- The rows keep their items. -/
theorem Consumed.map_item : nodes.map Node.item = start.map Node.item := by
  refine List.ext_getElem (by simp [hc.length]) fun id h₁ h₂ => ?_
  rw [List.length_map] at h₁ h₂
  have hrow := congrArg Node.item (hc.row id)
  rw [nodeAt_of_getElem? (List.getElem?_eq_getElem h₁),
    nodeAt_of_getElem? (List.getElem?_eq_getElem h₂)] at hrow
  rwa [List.getElem_map, List.getElem_map]

end Left

/-- Only an item without dependencies hangs under the root. -/
theorem Arena.zero_notMem_parents (h : Arena placed g) {i : Nat} {p : Pending α}
    (hi : placed[i]? = some p) (hdeps : p.deps ≠ []) : 0 ∉ (nodeAt g.nodes (i + 1)).parents := by
  intro h₀
  obtain ⟨d, hd⟩ := List.exists_mem_of_ne_nil _ hdeps
  obtain ⟨j, q, -, -, hpar⟩ := h.bound i p hi d hd
  rw [h.rooted.only_root _ h₀, List.mem_singleton] at hpar
  omega

/-- What is left of an arena: the items, and the children of the root; another reading finds just
the items without dependencies. -/
theorem Arena.drain_drain (h : Arena placed g) {ids : List Nat}
    (hc : Consumed g.nodes g.drain.2.nodes ids) (hf : Front g.nodes ids []) :
    g.drain.2.drain.1 = (placed.filter fun p => p.deps.isEmpty).map Pending.item := by
  have hkids : ∀ id ∈ (nodeAt g.nodes 0).children, 0 < id :=
    fun id hid => h.rooted.upwards 0 id ((h.rooted.edge 0 id).mp hid)
  have hless : ∀ id ∈ (nodeAt g.nodes 0).children, (nodeAt g.drain.2.nodes id).children = [] := by
    intro id hid
    exact hc.children_eq_nil h.rooted hf (Nat.ne_of_gt (hkids id hid))
  have hitems : ∀ id, (nodeAt g.drain.2.nodes id).item = (nodeAt g.nodes id).item := by
    intro id
    rw [hc.row]
  rw [drain_eq g.drain.2, hc.children_root hf, drainFrom_of_childless hless]
  simp only [hitems]
  rw [h.filterMap_item hkids, h.top]

/-! ## The order of a kernel -/

section Kernel

variable {m n : Nat} {k : Kernel m n} {layer : Layer m n} {g : Graph (Ref m n)}

/-- A graph that was built is an arena of all items, those without dependencies first. -/
theorem arena_of_build (h : build k layer = .ok g) :
    ∃ placed : List (Ref m n), Arena (placed.map (k.pending layer)) g ∧ placed.Perm k.items ∧
      k.items.filter (fun r => (k.needs layer r).isEmpty) <+: placed := by
  obtain ⟨items, hitems, -⟩ := bind_eq_ok_iff.mp h
  obtain ⟨placed, stuck, hplace, hfree, hbuild⟩ :=
    build_placement (pendingItems_eq_ok_iff.mp hitems).1
  rw [h, outcome] at hbuild
  split at hbuild
  · rename_i hstuck
    have hnil : stuck = [] := by simpa using hstuck
    cases hbuild
    refine ⟨placed, Arena.of_inOrder ?_, ?_, hfree⟩
    · exact hplace.inOrder.map _ (fun _ _ => rfl) fun _ _ => rfl
    · have hperm := hplace.perm
      rwa [hnil, List.append_nil] at hperm
  · cases hbuild

/-- The items without dependencies stand first in a placement of all, and nowhere else. -/
theorem filter_free_eq {placed : List (Ref m n)} (hperm : placed.Perm k.items)
    (hfree : k.items.filter (fun r => (k.needs layer r).isEmpty) <+: placed) :
    placed.filter (fun r => (k.needs layer r).isEmpty)
      = k.items.filter fun r => (k.needs layer r).isEmpty := by
  obtain ⟨more, rfl⟩ := hfree
  have hlen := (hperm.filter fun r => (k.needs layer r).isEmpty).length_eq
  rw [List.filter_append, List.filter_filter] at hlen ⊢
  simp only [Bool.and_self, List.length_append] at hlen ⊢
  rw [List.length_eq_zero_iff.mp (Nat.add_left_cancel hlen), List.append_nil]

/-- **The order of a kernel** lists every item once, after all its dependencies, and starts with the
items that have none. -/
theorem drain_order (h : build k layer = .ok g) :
    g.drain.1.Perm k.items ∧ InOrder k.name (k.needs layer) g.drain.1 ∧
      k.items.filter (fun r => (k.needs layer r).isEmpty) <+: g.drain.1 := by
  obtain ⟨placed, harena, hperm, hfree⟩ := arena_of_build h
  obtain ⟨ids, order, horder, hplaced, hin, htop, -, -⟩ := harena.drain_spec
  rw [horder]
  refine ⟨?_, inOrder_map_item (pending_item_of_perm hplaced) hin, ?_⟩
  · have hmap := hplaced.map Pending.item
    rw [map_item_map_pending] at hmap
    exact hmap.trans hperm
  · have hmap := htop.map Pending.item
    rw [List.filter_map, map_item_map_pending] at hmap
    have heq := filter_free_eq hperm hfree
    rw [← heq]
    exact hmap

/-- The instructions without dependencies stand first in the order. -/
theorem freeInstructions_isPrefix_drain (h : build k layer = .ok g) :
    (k.freeInstructions layer).map .instruction <+: g.drain.1 := by
  obtain ⟨-, -, hfree⟩ := drain_order h
  rw [Kernel.items, List.filter_append, List.filter_map] at hfree
  exact (List.prefix_append _ _).trans hfree

theorem deps_of_mem_freeInstructions (h : build k layer = .ok g) {i : Fin m}
    (hi : i ∈ k.freeInstructions layer) :
    layer.deps.find? (k.instruction i).name = some [] := by
  obtain ⟨items, hitems, -⟩ := bind_eq_ok_iff.mp h
  rw [Kernel.freeInstructions, List.mem_filter, List.isEmpty_iff] at hi
  have hitem : Ref.instruction i ∈ k.items := List.mem_append_left _ (List.mem_map_of_mem hi.1)
  obtain ⟨deps, hdeps⟩ :=
    NameMap.contains_eq_true_iff.mp ((pendingItems_eq_ok_iff.mp hitems).1 _ hitem)
  have hneeds : k.needs layer (.instruction i) = deps := by rw [Kernel.needs, hdeps]; rfl
  rw [← hi.2, hneeds]
  exact hdeps

/-- **Reading the order** of a kernel's graph lists every item once and after all its dependencies,
and consumes the graph.  The rows keep their items.  Behind the root none has children left, an item
with dependencies has no parents left, and the root has the children it had; so a second reading
finds just the items without dependencies, in declaration order. -/
theorem drain_consumes (h : build k layer = .ok g) :
    (g.drain.1.Perm k.items ∧ InOrder k.name (k.needs layer) g.drain.1) ∧
    g.drain.2.nodes.map Node.item = g.nodes.map Node.item ∧
    (∀ id node, g.drain.2.nodes[id]? = some node → id ≠ 0 → node.children = []) ∧
    (∀ node ∈ g.drain.2.nodes, ∀ r, node.item = some r → k.needs layer r ≠ [] → node.parents = []) ∧
    (g.drain.2.nodes[0]?).map Node.children = (g.nodes[0]?).map Node.children ∧
    g.drain.2.drain.1 = k.items.filter fun r => (k.needs layer r).isEmpty := by
  obtain ⟨hperm, hin, -⟩ := drain_order h
  obtain ⟨placed, harena, hplaced, hfree⟩ := arena_of_build h
  obtain ⟨ids, order, -, -, -, -, hcons, hfront⟩ := harena.drain_spec
  have hpos := harena.rooted.nonempty
  refine ⟨⟨hperm, hin⟩, hcons.map_item, ?_, ?_, ?_, ?_⟩
  · intro id node hid h₀
    rw [← nodeAt_of_getElem? hid]
    exact hcons.children_eq_nil harena.rooted hfront h₀
  · intro node hnode r hr hneeds
    obtain ⟨id, hid⟩ := List.mem_iff_getElem?.mp hnode
    have hrow := nodeAt_of_getElem? hid
    rw [← hrow, hcons.row] at hr
    cases id with
    | zero =>
      rw [show (nodeAt g.nodes 0).item = none from harena.root] at hr
      cases hr
    | succ i =>
      have hitem : ((placed.map (k.pending layer))[i]?).map Pending.item = some r :=
        (harena.item i).symm.trans hr
      obtain ⟨p, hp, hpr⟩ := Option.map_eq_some_iff.mp hitem
      have hdeps : p.deps ≠ [] := by
        obtain ⟨q, -, rfl⟩ := List.mem_map.mp (List.mem_of_getElem? hp)
        rw [← hpr] at hneeds
        exact hneeds
      refine List.eq_nil_iff_forall_not_mem.mpr fun q hq => ?_
      rw [← hrow] at hq
      exact harena.zero_notMem_parents hp hdeps
        (hcons.eq_zero_of_mem_parents harena.rooted hfront hq).2
  · rw [map_children_getElem?_zero hpos, map_children_getElem?_zero (by rwa [hcons.length]),
      hcons.children_root hfront]
  · rw [harena.drain_drain hcons hfront, List.filter_map, map_item_map_pending]
    exact filter_free_eq hplaced hfree

end Kernel

/-- A statement under two others under one, declared first and with an edge listed twice, and a
loop. -/
def diamond : Kernel 4 1 where
  instructionTable := #v[stub "d" ["b", "c", "b"], stub "b" ["a"], stub "c" ["a"], stub "a" []]
  loopTable := #v[⟨⟨"i", .literal (.int 0), .literal (.int 9), defaultStep "i", []⟩, []⟩]
  instructions := [0, 1, 2, 3]
  loops := [0]

/-- The diamond is read from its top, and once more without its edges. -/
theorem drain_diamond :
    ∃ g, build diamond (Layer.declared diamond) = .ok g ∧ g.drain.1.Perm diamond.items ∧
      InOrder diamond.name (diamond.needs (Layer.declared diamond)) g.drain.1 ∧
      g.drain.2.drain.1 = [.instruction 3, .loop 0] := by
  obtain ⟨g, hg⟩ : ∃ g, build diamond (Layer.declared diamond) = .ok g := ⟨_, by cbv⟩
  obtain ⟨⟨hperm, hin⟩, -, -, -, -, hagain⟩ := drain_consumes hg
  refine ⟨g, hg, hperm, hin, ?_⟩
  rw [hagain]
  decide

end Graph
end LoopNest
