import LoopNest.Proofs.Schedule.Placement

/-!
# The rows of the graph

Placing items one after the other fills the rows of a graph.  A row is read with `nodeAt`, which
gives an empty node behind the last row, so that every statement about a row holds of all numbers.

Two invariants are kept by every placement, and hold of the finished graph by induction.

* `Rooted`: edges are known on both sides, lead from lower to higher rows, and children are listed
  in ascending order; every row but the root has a parent, and a child of the root has no other.
* `Arena`: the rows behind the root are the placed items in order, a name leads to the row of an
  item with this name, and the parents of an item are the root or the rows of all its dependencies.
-/

namespace LoopNest
namespace Graph

variable {α : Type}

/-- A row of the graph; behind the last row stands an empty node. -/
def nodeAt (nodes : List (Node α)) (id : Nat) : Node α := (nodes[id]?).getD ⟨none, [], []⟩

theorem nodeAt_of_getElem? {nodes : List (Node α)} {id : Nat} {node : Node α}
    (h : nodes[id]? = some node) : nodeAt nodes id = node := by
  rw [nodeAt, h]
  rfl

theorem nodeAt_of_length_le {nodes : List (Node α)} {id : Nat} (h : nodes.length ≤ id) :
    nodeAt nodes id = ⟨none, [], []⟩ := by
  rw [nodeAt, List.getElem?_eq_none h]
  rfl

theorem lt_length_of_mem_parents {nodes : List (Node α)} {p c : Nat}
    (hp : p ∈ (nodeAt nodes c).parents) : c < nodes.length := by
  by_contra hc
  rw [nodeAt_of_length_le (by omega)] at hp
  exact absurd hp List.not_mem_nil

/-- Node lists of one length with the same rows are equal. -/
theorem ext_nodeAt {nodes nodes' : List (Node α)} (hlen : nodes.length = nodes'.length)
    (h : ∀ id, nodeAt nodes id = nodeAt nodes' id) : nodes = nodes' := by
  refine List.ext_getElem hlen fun id h₁ h₂ => ?_
  have hid := h id
  rwa [nodeAt_of_getElem? (List.getElem?_eq_getElem h₁),
    nodeAt_of_getElem? (List.getElem?_eq_getElem h₂)] at hid

/-! ## Adding a row -/

@[simp] theorem length_addChild (child parent : Nat) (nodes : List (Node α)) :
    (addChild child nodes parent).length = nodes.length := by
  rw [addChild, List.length_modify]

@[simp] theorem length_foldl_addChild (child : Nat) (parents : List Nat) (nodes : List (Node α)) :
    (parents.foldl (addChild child) nodes).length = nodes.length := by
  induction parents generalizing nodes with
  | nil => rfl
  | cons p parents ih => rw [List.foldl_cons, ih, length_addChild]

theorem nodeAt_addChild {child parent : Nat} {nodes : List (Node α)} (hp : parent < nodes.length)
    (id : Nat) :
    nodeAt (addChild child nodes parent) id =
      { nodeAt nodes id with
        children := (nodeAt nodes id).children ++ if id = parent then [child] else [] } := by
  by_cases hid : id = parent
  · subst hid
    simp [nodeAt, addChild, hp]
  · have hid' : ¬ parent = id := Ne.symm hid
    simp [nodeAt, addChild, hid, hid']

/-- Telling distinct parents of a child adds it to the children of each. -/
theorem nodeAt_foldl_addChild {child : Nat} {parents : List Nat} {nodes : List (Node α)}
    (hnodup : parents.Nodup) (hp : ∀ p ∈ parents, p < nodes.length) (id : Nat) :
    nodeAt (parents.foldl (addChild child) nodes) id =
      { nodeAt nodes id with
        children := (nodeAt nodes id).children ++ if id ∈ parents then [child] else [] } := by
  induction parents generalizing nodes with
  | nil => simp
  | cons p parents ih =>
    rw [List.nodup_cons] at hnodup
    have hlt : p < nodes.length := hp p List.mem_cons_self
    rw [List.foldl_cons, ih hnodup.2 fun q hq => by
      rw [length_addChild]; exact hp q (List.mem_cons_of_mem _ hq), nodeAt_addChild hlt]
    by_cases hid : id = p
    · subst hid
      simp [hnodup.1]
    · simp [hid]

/-- Adding an item adds a row, and adds its number to the children of its parents. -/
theorem nodeAt_add {g : Graph α} {name : String} {item : α} {parents : List Nat}
    (hnodup : parents.Nodup) (hp : ∀ p ∈ parents, p < g.nodes.length) (id : Nat) :
    nodeAt (g.add name item parents).nodes id =
      if id = g.nodes.length then ⟨some item, [], parents⟩
      else { nodeAt g.nodes id with
        children := (nodeAt g.nodes id).children ++ if id ∈ parents then [g.nodes.length]
          else [] } := by
  show nodeAt (parents.foldl (addChild g.nodes.length) (g.nodes ++ [⟨some item, [], parents⟩])) id
      = _
  rw [nodeAt_foldl_addChild hnodup fun p hpm => by
    rw [List.length_append]; exact Nat.lt_of_lt_of_le (hp p hpm) (Nat.le_add_right _ _)]
  by_cases hid : id = g.nodes.length
  · subst hid
    have hself : g.nodes.length ∉ parents := fun h => Nat.lt_irrefl _ (hp _ h)
    simp [nodeAt, hself]
  · have hrow (node : Node α) : nodeAt (g.nodes ++ [node]) id = nodeAt g.nodes id := by
      by_cases hlt : id < g.nodes.length
      · rw [nodeAt, nodeAt, List.getElem?_append_left hlt]
      · have hlen : (g.nodes ++ [node]).length ≤ id := by
          rw [List.length_append, List.length_singleton]; omega
        rw [nodeAt_of_length_le hlen, nodeAt_of_length_le (by omega)]
    rw [hrow, if_neg hid]

theorem length_add (g : Graph α) (name : String) (item : α) (parents : List Nat) :
    (g.add name item parents).nodes.length = g.nodes.length + 1 := by
  show (parents.foldl (addChild g.nodes.length) (g.nodes ++ [⟨some item, [], parents⟩])).length = _
  rw [length_foldl_addChild, List.length_append, List.length_singleton]

/-! ## The two invariants -/

theorem nodup_eraseDups {β : Type} [BEq β] [LawfulBEq β] : ∀ l : List β, l.eraseDups.Nodup
  | [] => by simp
  | x :: l => by
    rw [List.eraseDups_cons, List.nodup_cons, List.mem_eraseDups]
    exact ⟨by simp, nodup_eraseDups (l.filter fun y => !y == x)⟩
termination_by l => l.length
decreasing_by exact Nat.lt_succ_of_le (List.length_filter_le _ _)

/-- Edges are known on both sides, lead upwards, and start from the root. -/
structure Rooted (nodes : List (Node α)) : Prop where
  nonempty : 0 < nodes.length
  edge : ∀ p c, c ∈ (nodeAt nodes p).children ↔ p ∈ (nodeAt nodes c).parents
  ascending : ∀ p, (nodeAt nodes p).children.Pairwise (· < ·)
  upwards : ∀ p c, p ∈ (nodeAt nodes c).parents → p < c
  attached : ∀ c, 0 < c → c < nodes.length → (nodeAt nodes c).parents ≠ []
  only_root : ∀ c, 0 ∈ (nodeAt nodes c).parents → (nodeAt nodes c).parents = [0]

/-- A row under distinct lower rows keeps the edges in order. -/
theorem Rooted.add {g : Graph α} (h : Rooted g.nodes) {name : String} {item : α}
    {parents : List Nat} (hnodup : parents.Nodup) (hp : ∀ p ∈ parents, p < g.nodes.length)
    (hne : parents ≠ []) (hroot : 0 ∈ parents → parents = [0]) :
    Rooted (g.add name item parents).nodes := by
  have hkid : ∀ p c, c ∈ (nodeAt g.nodes p).children → c < g.nodes.length :=
    fun p c hc => lt_length_of_mem_parents ((h.edge p c).mp hc)
  refine ⟨?_, ?_, ?_, ?_, ?_, ?_⟩
  · rw [length_add]; omega
  · intro p c
    rw [nodeAt_add hnodup hp, nodeAt_add hnodup hp]
    by_cases hpl : p = g.nodes.length
    · rw [if_pos hpl]
      by_cases hcl : c = g.nodes.length
      · rw [if_pos hcl]
        constructor
        · intro hc; exact absurd hc List.not_mem_nil
        · intro hc; exact absurd (hp p hc) (by omega)
      · rw [if_neg hcl]
        constructor
        · intro hc; exact absurd hc List.not_mem_nil
        · intro hc
          have h₁ := h.upwards p c hc
          have h₂ := lt_length_of_mem_parents hc
          omega
    · rw [if_neg hpl]
      by_cases hcl : c = g.nodes.length
      · rw [if_pos hcl, List.mem_append]
        constructor
        · rintro (hc | hc)
          · exact absurd (hkid p c hc) (by omega)
          · by_contra hnot
            rw [if_neg hnot] at hc
            exact absurd hc List.not_mem_nil
        · intro hpm
          right
          rw [if_pos hpm, hcl]
          exact List.mem_singleton_self _
      · rw [if_neg hcl, List.mem_append, ← h.edge]
        refine or_iff_left fun hc => hcl ?_
        split at hc
        · exact List.mem_singleton.mp hc
        · exact absurd hc List.not_mem_nil
  · intro p
    rw [nodeAt_add hnodup hp]
    split
    · exact List.Pairwise.nil
    · rw [List.pairwise_append]
      refine ⟨h.ascending p, by split <;> simp, fun a ha b hb => ?_⟩
      split at hb
      · rw [List.mem_singleton.mp hb]
        exact hkid p a ha
      · exact absurd hb List.not_mem_nil
  · intro p c hpc
    rw [nodeAt_add hnodup hp] at hpc
    split at hpc
    · rename_i hcl
      rw [hcl]
      exact hp p hpc
    · exact h.upwards p c hpc
  · intro c h₀ hlt
    rw [length_add] at hlt
    rw [nodeAt_add hnodup hp]
    split
    · exact hne
    · exact h.attached c h₀ (by omega)
  · intro c hc
    rw [nodeAt_add hnodup hp] at hc ⊢
    by_cases hcl : c = g.nodes.length
    · rw [if_pos hcl] at hc ⊢
      exact hroot hc
    · rw [if_neg hcl] at hc ⊢
      exact h.only_root c hc

/-- The rows behind the root are the placed items, found by name and attached under the root or
under all their dependencies. -/
structure Arena (placed : List (Pending α)) (g : Graph α) : Prop where
  rooted : Rooted g.nodes
  length : g.nodes.length = placed.length + 1
  root : (nodeAt g.nodes 0).item = none
  item : ∀ i, (nodeAt g.nodes (i + 1)).item = (placed[i]?).map Pending.item
  index : ∀ x id, g.index.find? x = some id → ∃ i p, placed[i]? = some p ∧ p.name = x ∧ id = i + 1
  free : ∀ i p, placed[i]? = some p → p.deps = [] → (nodeAt g.nodes (i + 1)).parents = [0]
  bound : ∀ i p, placed[i]? = some p → ∀ d ∈ p.deps,
    ∃ j q, placed[j]? = some q ∧ q.name = d ∧ j + 1 ∈ (nodeAt g.nodes (i + 1)).parents
  top : (nodeAt g.nodes 0).children.filterMap (fun id => placed[id - 1]?)
    = placed.filter fun p => p.deps.isEmpty

namespace Arena

variable {placed : List (Pending α)} {g : Graph α} {p : Pending α}

theorem empty : Arena ([] : List (Pending α)) (Graph.empty : Graph α) := by
  have hrow : ∀ id, nodeAt (Graph.empty : Graph α).nodes id = ⟨none, [], []⟩ := by
    intro id
    cases id with
    | zero => rfl
    | succ id => exact nodeAt_of_length_le (by simp [Graph.empty])
  refine ⟨⟨by simp [Graph.empty], ?_, ?_, ?_, ?_, ?_⟩, rfl, rfl, ?_, ?_, ?_, ?_, ?_⟩
  · intro p c; simp [hrow]
  · intro p; simp [hrow]
  · intro p c; simp [hrow]
  · intro c h₀ hlt
    simp only [Graph.empty, List.length_singleton] at hlt
    omega
  · intro c; simp [hrow]
  · intro i; simp [hrow]
  · intro x id h; simp [Graph.empty] at h
  · intro i p h; simp at h
  · intro i p h; simp at h
  · simp

/-- Two names do not lead to one row. -/
theorem index_inj (h : Arena placed g) {x y : String} {id : Nat} (hx : g.index.find? x = some id)
    (hy : g.index.find? y = some id) : x = y := by
  obtain ⟨i, p, hi, rfl, rfl⟩ := h.index x id hx
  obtain ⟨j, q, hj, rfl, heq⟩ := h.index y (i + 1) hy
  have hij : i = j := by omega
  subst hij
  rw [hi] at hj
  cases hj
  rfl

theorem mem_parentsOf_iff (hne : p.deps ≠ []) {id : Nat} :
    id ∈ g.parentsOf p ↔ ∃ d ∈ p.deps, g.index.find? d = some id := by
  rw [parentsOf, if_neg (by simpa using hne), List.mem_filterMap]
  simp only [List.mem_eraseDups]

theorem nodup_parentsOf (h : Arena placed g) : (g.parentsOf p).Nodup := by
  rw [parentsOf]
  split
  · exact List.nodup_singleton 0
  · refine List.Nodup.filterMap ?_ (nodup_eraseDups _)
    intro x y id hx hy
    exact h.index_inj hx hy

theorem lt_of_mem_parentsOf (h : Arena placed g) {id : Nat} (hid : id ∈ g.parentsOf p) :
    id < g.nodes.length := by
  by_cases hdeps : p.deps = []
  · rw [parentsOf, hdeps] at hid
    rw [List.mem_singleton.mp hid]
    exact h.rooted.nonempty
  · obtain ⟨d, -, hd⟩ := (mem_parentsOf_iff hdeps).mp hid
    obtain ⟨i, q, hi, -, rfl⟩ := h.index d id hd
    have := (List.getElem?_eq_some_iff.mp hi).1
    rw [h.length]
    omega

/-- Under the root go the items without dependencies, and they alone. -/
theorem zero_mem_parentsOf_iff (h : Arena placed g) : 0 ∈ g.parentsOf p ↔ p.deps = [] := by
  constructor
  · intro h₀
    by_contra hdeps
    obtain ⟨d, -, hd⟩ := (mem_parentsOf_iff hdeps).mp h₀
    obtain ⟨i, q, -, -, heq⟩ := h.index d 0 hd
    omega
  · intro hdeps
    rw [parentsOf, hdeps]
    simp

theorem parentsOf_ne_nil (hready : ∀ d ∈ p.deps, g.index.contains d = true) :
    g.parentsOf p ≠ [] := by
  by_cases hdeps : p.deps = []
  · rw [parentsOf, hdeps]
    simp
  · obtain ⟨d, hd⟩ := List.exists_mem_of_ne_nil _ hdeps
    obtain ⟨id, hid⟩ := NameMap.contains_eq_true_iff.mp (hready d hd)
    exact List.ne_nil_of_mem ((mem_parentsOf_iff hdeps).mpr ⟨d, hd, hid⟩)

theorem top_place (h : Arena placed g) :
    (nodeAt (g.place p).nodes 0).children.filterMap (fun id => (placed ++ [p])[id - 1]?)
      = (placed ++ [p]).filter fun p => p.deps.isEmpty := by
  have hkids : ∀ id ∈ (nodeAt g.nodes 0).children, (placed ++ [p])[id - 1]? = placed[id - 1]? := by
    intro id hid
    have hpar := (h.rooted.edge 0 id).mp hid
    have h₁ := h.rooted.upwards 0 id hpar
    have h₂ := lt_length_of_mem_parents hpar
    rw [h.length] at h₂
    exact List.getElem?_append_left (by omega)
  rw [Graph.place, nodeAt_add h.nodup_parentsOf fun id => h.lt_of_mem_parentsOf,
    if_neg (by rw [h.length]; omega), List.filterMap_append, List.filterMap_congr hkids, h.top,
    List.filter_append]
  congr 1
  by_cases hdeps : p.deps = []
  · rw [if_pos (h.zero_mem_parentsOf_iff.mpr hdeps), h.length]
    simp [hdeps]
  · rw [if_neg fun h₀ => hdeps (h.zero_mem_parentsOf_iff.mp h₀)]
    simp [hdeps]

/-- **A placement keeps the arena.** -/
theorem place (h : Arena placed g) (hready : ∀ d ∈ p.deps, g.index.contains d = true) :
    Arena (placed ++ [p]) (g.place p) := by
  have hnodup : (g.parentsOf p).Nodup := h.nodup_parentsOf
  have hlt : ∀ id ∈ g.parentsOf p, id < g.nodes.length := fun id => h.lt_of_mem_parentsOf
  have hroot : 0 ∈ g.parentsOf p → g.parentsOf p = [0] := by
    intro h₀
    rw [parentsOf, h.zero_mem_parentsOf_iff.mp h₀]
    rfl
  -- an old row keeps its item and its parents; the new one has the given parents
  have hold : ∀ i, i ≠ placed.length →
      (nodeAt (g.place p).nodes (i + 1)).item = (nodeAt g.nodes (i + 1)).item ∧
      (nodeAt (g.place p).nodes (i + 1)).parents = (nodeAt g.nodes (i + 1)).parents := by
    intro i hi
    rw [Graph.place, nodeAt_add hnodup hlt, if_neg (by rw [h.length]; omega)]
    exact ⟨rfl, rfl⟩
  have hnew : nodeAt (g.place p).nodes (placed.length + 1) = ⟨some p.item, [], g.parentsOf p⟩ := by
    rw [Graph.place, nodeAt_add hnodup hlt, if_pos h.length.symm]
  have hcases : ∀ (i : Nat) q, (placed ++ [p])[i]? = some q →
      placed[i]? = some q ∨ i = placed.length ∧ q = p := by
    intro i q hi
    rw [List.getElem?_append] at hi
    split at hi
    · exact Or.inl hi
    · obtain ⟨hlen, hq⟩ := List.getElem?_eq_some_iff.mp hi
      rw [List.length_singleton] at hlen
      simp only [List.getElem_singleton] at hq
      exact Or.inr ⟨by omega, hq.symm⟩
  have hkeep : ∀ (i : Nat) q, placed[i]? = some q → (placed ++ [p])[i]? = some q := by
    intro i q hi
    rw [List.getElem?_append_left (List.getElem?_eq_some_iff.mp hi).1, hi]
  have hrow : ∀ (i : Nat) q, placed[i]? = some q → i ≠ placed.length := by
    intro i q hi
    exact Nat.ne_of_lt (List.getElem?_eq_some_iff.mp hi).1
  refine ⟨h.rooted.add hnodup hlt (parentsOf_ne_nil hready) hroot, ?_, ?_, ?_, ?_, ?_, ?_,
    h.top_place⟩
  · rw [Graph.place, length_add, h.length, List.length_append, List.length_singleton]
  · rw [Graph.place, nodeAt_add hnodup hlt, if_neg (by rw [h.length]; omega)]
    exact h.root
  · intro i
    by_cases hi : i = placed.length
    · subst hi
      rw [hnew]
      simp
    · rw [(hold i hi).1, h.item i]
      by_cases hlen : i < placed.length
      · rw [List.getElem?_append_left hlen]
      · rw [List.getElem?_eq_none (by omega), List.getElem?_eq_none (by simp; omega)]
  · intro x id hx
    rw [index_place, NameMap.find?_insert] at hx
    split at hx
    · rename_i hxp
      cases hx
      exact ⟨placed.length, p, by simp, hxp.symm, h.length⟩
    · obtain ⟨i, q, hi, hname, hid⟩ := h.index x id hx
      exact ⟨i, q, hkeep i q hi, hname, hid⟩
  · intro i q hi hdeps
    rcases hcases i q hi with hi | ⟨rfl, rfl⟩
    · rw [(hold i (hrow i q hi)).2, h.free i q hi hdeps]
    · rw [hnew, parentsOf, hdeps]; rfl
  · intro i q hi d hd
    rcases hcases i q hi with hi | ⟨rfl, rfl⟩
    · obtain ⟨j, r, hj, hname, hmem⟩ := h.bound i q hi d hd
      exact ⟨j, r, hkeep j r hj, hname, by rwa [(hold i (hrow i q hi)).2]⟩
    · obtain ⟨id, hid⟩ := NameMap.contains_eq_true_iff.mp (hready d hd)
      obtain ⟨j, r, hj, hname, rfl⟩ := h.index d id hid
      refine ⟨j, r, hkeep j r hj, hname, ?_⟩
      rw [hnew]
      exact (mem_parentsOf_iff (List.ne_nil_of_mem hd)).mpr ⟨d, hd, hid⟩

/-- **Placing items in order** fills an arena with them. -/
theorem of_inOrder (h : InOrder Pending.name Pending.deps placed) :
    Arena placed (placed.foldl Graph.place Graph.empty) := by
  induction placed using List.reverseRecOn with
  | nil => exact Arena.empty
  | append_singleton placed p ih =>
    rw [List.foldl_append, List.foldl_cons, List.foldl_nil]
    refine (ih h.of_append).place fun d hd => ?_
    exact (contains_foldl_place_empty placed d).mpr (h.last d hd)

end Arena
end Graph
end LoopNest
