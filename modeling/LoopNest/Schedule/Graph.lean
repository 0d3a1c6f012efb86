import LoopNest.Kernel.Layer

/-!
# The dependency graph

The items of a kernel become the nodes of a rooted graph.  Nodes stand in a row; node zero is the
root and holds no item.  Items without dependencies hang under the root, in declaration order.
Then, again and again, the first of the remaining items whose dependencies all have nodes is placed
under them.

The order of execution is read off breadth first from the root.  Reading consumes the edges: a node
is ready when the last edge to it is gone.  Only the root keeps its children, so a second reading
finds just the items without dependencies.

* `Graph.build`: the graph of a kernel and a layer.
* `Graph.drain`: the order, and what is left of the graph.
-/

namespace LoopNest

/-- A node with the numbers of its children and parents. -/
structure Node (α : Type) where
  item : Option α
  children : List Nat
  parents : List Nat

/-- A rooted graph whose nodes are found by name. -/
structure Graph (α : Type) where
  nodes : List (Node α)
  index : NameMap Nat

namespace Graph

variable {α : Type} {m n : Nat}

/-- The graph that has only a root. -/
def empty : Graph α := ⟨[⟨none, [], []⟩], .empty⟩

/-- How many items have nodes. -/
def size (g : Graph α) : Nat := g.nodes.length - 1

/-- Adds a child to a node. -/
def addChild (child : Nat) (nodes : List (Node α)) (parent : Nat) : List (Node α) :=
  nodes.modify parent fun node => { node with children := node.children ++ [child] }

/-- Places an item under the given nodes. -/
def add (g : Graph α) (name : String) (item : α) (parents : List Nat) : Graph α :=
  let id := g.nodes.length
  ⟨parents.foldl (addChild id) (g.nodes ++ [⟨some item, [], parents⟩]), g.index.insert name id⟩

/-- The node with a name. -/
def node? (g : Graph α) (name : String) : Option (Node α) := do
  let id ← g.index.find? name
  g.nodes[id]?

/-! ## Building -/

/-- An item that is still to be placed, with its name and dependencies. -/
structure Pending (α : Type) where
  item : α
  name : String
  deps : List String

/-- Every dependency has a node. -/
def isReady (g : Graph α) (p : Pending α) : Bool := p.deps.all g.index.contains

/-- The first pending item that is ready, and the others. -/
def takeReady? (g : Graph α) : List (Pending α) → Option (Pending α × List (Pending α))
  | [] => none
  | p :: ps =>
      if g.isReady p then some (p, ps)
      else (takeReady? g ps).map fun (ready, rest) => (ready, p :: rest)

theorem takeReady?_length {g : Graph α} {p : Pending α} :
    ∀ {ps rest : List (Pending α)}, g.takeReady? ps = some (p, rest) → rest.length < ps.length
  | q :: ps, rest, h => by
    rw [takeReady?] at h
    split at h
    · cases h; simp
    · cases hr : takeReady? g ps with
      | none => simp [hr] at h
      | some r =>
        simp [hr] at h
        obtain ⟨_, rfl⟩ := h
        obtain ⟨ready, rest⟩ := r
        simpa using takeReady?_length hr

/-- Places the pending items.  What can never be placed is given back by name. -/
def placeAll (g : Graph α) (pending : List (Pending α)) : Except CompileError (Graph α) :=
  match pending with
  | [] => .ok g
  | p :: ps =>
      match _taken : g.takeReady? (p :: ps) with
      | none => .error (.unsatisfied ((p :: ps).map Pending.name))
      | some (ready, rest) =>
          -- a dependency that is listed twice is one edge
          placeAll (g.add ready.name ready.item (ready.deps.eraseDups.filterMap g.index.find?)) rest
termination_by pending.length
decreasing_by exact takeReady?_length _taken

/-- The items of a kernel with their dependencies in a layer. -/
def pendingItems (k : Kernel m n) (layer : Layer m n) :
    Except CompileError (List (Pending (Ref m n))) :=
  k.items.mapM fun r => do
    let deps ← layer.depsOf (k.name r)
    return ⟨r, k.name r, deps⟩

/-- The graph of a kernel and a layer. -/
def build (k : Kernel m n) (layer : Layer m n) : Except CompileError (Graph (Ref m n)) := do
  let items ← pendingItems k layer
  let free := items.filter fun p => p.deps.isEmpty
  let bound := items.filter fun p => !p.deps.isEmpty
  placeAll (free.foldl (fun g p => g.add p.name p.item [0]) empty) bound

/-! ## The order -/

/-- Takes the children away from a node. -/
def release : Nat → List (Node α) → List Nat × List (Node α)
  | _, [] => ([], [])
  | 0, node :: nodes => (node.children, { node with children := [] } :: nodes)
  | id + 1, node :: nodes =>
      let (children, nodes) := release id nodes
      (children, node :: nodes)

/-- Removes the edges between a parent and a child on the child's side. -/
def dropParent (parent : Nat) : Nat → List (Node α) → List (Node α)
  | _, [] => []
  | 0, node :: nodes => { node with parents := node.parents.filter (· ≠ parent) } :: nodes
  | id + 1, node :: nodes => node :: dropParent parent id nodes

/-- The node has no parents. -/
def isFree (nodes : List (Node α)) (id : Nat) : Bool :=
  (nodes[id]?).any fun node => node.parents.isEmpty

/-- Removes the edges from a parent to its children, one after the other, and lists the children
that became free. -/
def dropParents (parent : Nat) : List Nat → List (Node α) → List Nat × List (Node α)
  | [], nodes => ([], nodes)
  | child :: children, nodes =>
      let nodes := dropParent parent child nodes
      let (freed, rest) := dropParents parent children nodes
      (if isFree nodes child then child :: freed else freed, rest)

/-- The number of edges. -/
def edges : List (Node α) → Nat
  | [] => 0
  | node :: nodes => node.children.length + edges nodes

theorem edges_release (id : Nat) (nodes : List (Node α)) :
    edges (release id nodes).2 + (release id nodes).1.length = edges nodes := by
  induction nodes generalizing id with
  | nil => simp [release, edges]
  | cons node nodes ih =>
    cases id with
    | zero => simp [release, edges]; omega
    | succ id =>
      have := ih id
      simp only [release, edges]
      omega

theorem edges_dropParent (parent child : Nat) (nodes : List (Node α)) :
    edges (dropParent parent child nodes) = edges nodes := by
  induction nodes generalizing child with
  | nil => simp [dropParent]
  | cons node nodes ih =>
    cases child with
    | zero => simp [dropParent, edges]
    | succ child =>
      have := ih child
      simp only [dropParent, edges]
      omega

theorem edges_dropParents (parent : Nat) (children : List Nat) (nodes : List (Node α)) :
    edges (dropParents parent children nodes).2 = edges nodes := by
  induction children generalizing nodes with
  | nil => rfl
  | cons child children ih => simp only [dropParents, ih, edges_dropParent]

theorem length_dropParents (parent : Nat) (children : List Nat) (nodes : List (Node α)) :
    (dropParents parent children nodes).1.length ≤ children.length := by
  induction children generalizing nodes with
  | nil => simp [dropParents]
  | cons child children ih =>
    have := ih (dropParent parent child nodes)
    simp only [dropParents]
    split <;> simp <;> omega

/-- Visits the waiting nodes in turn; nodes that become free wait at the end. -/
def drainFrom (waiting : List Nat) (nodes : List (Node α)) : List α × List (Node α) :=
  match waiting with
  | [] => ([], nodes)
  | id :: waiting =>
      let item := (nodes[id]?).bind Node.item
      let released := release id nodes
      let dropped := dropParents id released.1 released.2
      let (order, nodes) := drainFrom (waiting ++ dropped.1) dropped.2
      (item.toList ++ order, nodes)
termination_by edges nodes + waiting.length
decreasing_by
  have h₁ := edges_release id nodes
  have h₂ := edges_dropParents id (release id nodes).1 (release id nodes).2
  have h₃ := length_dropParents id (release id nodes).1 (release id nodes).2
  simp only [List.length_append, List.length_cons]
  omega

/-- The order of execution, and the graph that is left. -/
def drain (g : Graph α) : List α × Graph α :=
  let (order, nodes) := drainFrom ((g.nodes.head?).elim [] Node.children) g.nodes
  (order, ⟨nodes, g.index⟩)

end Graph
end LoopNest
