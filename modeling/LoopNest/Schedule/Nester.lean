import LoopNest.Kernel.Reach
import LoopNest.Schedule.Graph
import LoopNest.Schedule.Nest

/-!
# Nesting loops

The flat order lists loops one after the other.  Two loops with a common member overlap: the one
that comes later in the order moves into the earlier one, where it takes the place of the common
members, and is no longer run on its own.

The bodies that this rewrites belong to the nester; the kernel keeps its lists.  At the end the
bodies are attached to the loops.  Attaching builds each loop once, by name, and finds out if loops
nest inside each other.

* `Nester.nest`: the items that run at the top, and the rewritten bodies.
* `Nester.attach`: the nests of some items, with the loops that were finished on the way.
-/

namespace LoopNest

/-- The bodies of a kernel's loops, by name, and how often a loop was absorbed by another. -/
structure Nester (m n : Nat) where
  bodies : NameMap (List (Ref m n))
  merges : Nat

namespace Nester

variable {m n : Nat}

/-- The nester at the start: the bodies are the members in a layer. -/
def ofLayer (k : Kernel m n) (layer : Layer m n) : Except CompileError (Nester m n) := do
  let bodies ← k.loops.mapM fun l => do
    let x := (k.loop l).head.name
    return (x, ← layer.membersOf x)
  return ⟨.ofList bodies, 0⟩

/-- The body of a loop.  A loop that is not the kernel's own keeps its members. -/
def body (s : Nester m n) (k : Kernel m n) (l : Fin n) : List (Ref m n) :=
  (s.bodies.find? (k.loop l).head.name).getD (k.loop l).members

/-- The members of one list whose name occurs in the other. -/
def shared (k : Kernel m n) (first second : List (Ref m n)) : List (Ref m n) :=
  first.filter fun r => (second.map k.name).contains (k.name r)

/-- Puts a loop where the first of the common members stands, and takes these out. -/
def substitute (k : Kernel m n) (inner : Ref m n) (common : List String)
    (members : List (Ref m n)) :
    List (Ref m n) :=
  let isCommon (r : Ref m n) : Bool := common.contains (k.name r)
  members.takeWhile (!isCommon ·) ++ inner :: (members.dropWhile (!isCommon ·)).filter (!isCommon ·)

/-- Moves a loop into another one. -/
def absorb (s : Nester m n) (k : Kernel m n) (outer inner : Fin n) (common : List String) :
    Nester m n :=
  let x := (k.loop outer).head.name
  ⟨s.bodies.insert x (substitute k (.loop inner) common (s.body k outer)), s.merges + 1⟩

/-! ## What has been placed -/

/-- How many loops have a name that is not in a list. -/
def unlisted (k : Kernel m n) (names : List String) : Nat :=
  (List.finRange n).countP fun l => !names.contains (k.loop l).head.name

theorem unlisted_lt {k : Kernel m n} {names more : List String} {l : Fin n}
    (hsub : ∀ x, names.contains x = true → more.contains x = true)
    (h : names.contains (k.loop l).head.name = false)
    (hmem : more.contains (k.loop l).head.name = true) : unlisted k more < unlisted k names := by
  refine countP_lt_countP ?_ (a := l) ?_ ?_ (List.mem_finRange l)
  · intro a ha
    cases hn : names.contains (k.loop a).head.name with
    | false => rfl
    | true => rw [hsub _ hn] at ha; cases ha
  · rw [h]; rfl
  · rw [hmem]; rfl

/-- The loop is among the pending items or inside one of them.  The last pending item is looked at
first, and of the loops with one name only the first that is met. -/
def placedIn (s : Nester m n) (k : Kernel m n) (target : Ref m n) (pending : List (Ref m n))
    (visited : List String) : Bool :=
  match pending with
  | [] => false
  | r :: pending =>
      if r = target then true
      else
        match r with
        | .instruction _ => placedIn s k target pending visited
        | .loop l =>
            let x := (k.loop l).head.name
            if _fresh : visited.contains x then placedIn s k target pending visited
            else placedIn s k target ((s.body k l).reverse ++ pending) (x :: visited)
termination_by (unlisted k visited, pending.length)
decreasing_by
  · exact Prod.Lex.right _ (by simp)
  · exact Prod.Lex.right _ (by simp)
  · refine Prod.Lex.left _ _ (unlisted_lt (l := l) ?_ (by simpa using _fresh) (by simp))
    intro y hy
    simp only [List.contains_cons, hy, Bool.or_true]

/-- The loop is in a list of items or inside one of them. -/
def placed (s : Nester m n) (k : Kernel m n) (target : Ref m n) (items : List (Ref m n)) : Bool :=
  s.placedIn k target items.reverse []

/-! ## The new order -/

/-- A nester at work: which loops overlap with another, and the items that run at the top. -/
structure Progress (m n : Nat) where
  nester : Nester m n
  overlapping : List String
  top : List (Ref m n)

/-- The place of a name in an order; of several, the last. -/
def position? (k : Kernel m n) (order : List (Ref m n)) (x : String) : Option Nat :=
  ((order.map k.name).reverse.findIdx? (· == x)).map fun fromEnd => order.length - 1 - fromEnd

/-- A loop of the order against another loop of the kernel. -/
def meet (k : Kernel m n) (order : List (Ref m n)) (outer : Fin n) (p : Progress m n)
    (other : Fin n) : Except CompileError (Progress m n) := do
  let x := (k.loop outer).head.name
  let y := (k.loop other).head.name
  if other = outer then return p
  let common := shared k (p.nester.body k other) (p.nester.body k outer)
  if common.isEmpty then return p
  let p := { p with overlapping := p.overlapping ++ [y, x] }
  match position? k order x, position? k order y with
  | none, _ => throw (.unknown x)
  | _, none => throw (.unknown y)
  | some here, some there =>
      -- only the earlier loop absorbs, so each pair merges once
      if here < there then
        let nester := p.nester.absorb k outer other (common.map k.name)
        return { p with
          nester
          top := if nester.placed k (.loop outer) p.top then p.top else p.top ++ [.loop outer] }
      else return p

/-- One item of the order.  An instruction inside a loop depends on the loop, so only the others run
at the top; a loop runs at the top if it overlaps with none or was not yet placed. -/
def advance (k : Kernel m n) (layer : Layer m n) (order : List (Ref m n)) (p : Progress m n) :
    Ref m n → Except CompileError (Progress m n)
  | .instruction i => do
      let deps ← layer.depsOf (k.instruction i).name
      return if deps.isEmpty then { p with top := p.top ++ [.instruction i] } else p
  | .loop l => do
      let p ← k.loops.foldlM (meet k order l) p
      return if p.overlapping.contains (k.loop l).head.name then p
        else { p with top := p.top ++ [.loop l] }

/-- Nests the loops of an order: the items that run at the top, and the rewritten bodies. -/
def nest (s : Nester m n) (k : Kernel m n) (layer : Layer m n) (order : List (Ref m n)) :
    Except CompileError (List (Ref m n) × Nester m n) := do
  let p ← order.foldlM (advance k layer order) ⟨s, [], []⟩
  return (p.top, p.nester)

/-! ## Attaching the bodies -/

/-- A loop whose body is attached: the row it was built from, its members, and the nest. -/
structure Finished (m n : Nat) where
  name : String
  loop : Fin n
  members : List (Ref m n)
  nest : Nest

/-- Attaching, with the loops finished so far. -/
abbrev Attaching (m n : Nat) := EStateM CompileError (List (Finished m n))

/-- The nests of some items inside the loops with the given names.  A loop is built once for each
name; a loop inside itself is an error that shows the way round. -/
def attach (s : Nester m n) (k : Kernel m n) (active : List String) (items : List (Ref m n)) :
    Attaching m n (List (Ref m n × Nest)) :=
  match items with
  | [] => pure []
  | .instruction i :: items => do
      let rest ← attach s k active items
      return (.instruction i, .instruction (k.instruction i)) :: rest
  | .loop l :: items => do
      let head := (k.loop l).head
      if _fresh : active.contains (k.loop l).head.name then
        throw (.cyclic (active.dropWhile (· ≠ head.name) ++ [head.name]))
      else
        let first ← match (← get).find? (·.name = head.name) with
          | some f => pure (.loop f.loop, f.nest)
          | none => do
              let members ← attach s k (active ++ [(k.loop l).head.name]) (s.body k l)
              let nest := Nest.loop head (members.map Prod.snd)
              modify (· ++ [⟨head.name, l, members.map Prod.fst, nest⟩])
              pure (.loop l, nest)
        let rest ← attach s k active items
        return first :: rest
termination_by (unlisted k active, items.length)
decreasing_by
  · exact Prod.Lex.right _ (by simp)
  · exact Prod.Lex.right _ (by simp)
  · refine Prod.Lex.left _ _ (unlisted_lt (l := l) ?_ (by simpa using _fresh) (by simp))
    intro y hy
    simp only [List.contains_eq_mem, decide_eq_true_eq] at hy
    simp [hy]

end Nester

/-- Writes the members of finished loops into a kernel. -/
def Kernel.adopt {m n : Nat} (k : Kernel m n) (finished : List (Nester.Finished m n)) :
    Kernel m n :=
  finished.foldl (fun k f => k.setMembers f.loop f.members) k

/-- The nests of some items, and the kernel: with the bodies written into it if this is done in
place, even where attaching fails on the way. -/
def Nester.materialize {m n : Nat} (s : Nester m n) (k : Kernel m n) (items : List (Ref m n))
    (inPlace : Bool) : Kernel m n × Except CompileError (List (Ref m n × Nest)) :=
  let (finished, result) := match (s.attach k [] items).run [] with
    | .ok nests finished => (finished, .ok nests)
    | .error e finished => (finished, .error e)
  (if inPlace then k.adopt finished else k, result)

end LoopNest
