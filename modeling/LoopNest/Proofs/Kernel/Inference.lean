import LoopNest.Kernel.Layer
import LoopNest.Proofs.Collect
import LoopNest.Proofs.NameMap
import LoopNest.Proofs.Outcome
import Mathlib

/-!
# What inference adds to a layer

Inference only ever appends.  A step that succeeds puts some names behind the dependencies of each
item and some items behind the members of each loop, and counts the names; it never creates an entry
and never takes one away.  So a step is known by what it appends under each name (`Layer.Extends`),
and steps one after the other append one after the other (`Extends.trans`, `Extends.forM`).

## What the whole pass appends

Where the kernel's items have different names, each name collects the contributions of one item, and
the lists come out in closed form:

* `Layer.members_infer`: a loop gains the instructions that mention it, and the later loops that its
  head mentions.
* `Layer.deps_infer_instruction`: an instruction gains what `Layer.orderDeps` lists, and the loops
  it mentions.
* `Layer.deps_infer_loop`: a loop gains the earlier loops whose heads mention it.
-/

namespace LoopNest

variable {m n : Nat}

/-- The row with a number, in a table that has rows. -/
def row (i : Nat) : Fin (n + 1) := Fin.ofNat (n + 1) i

/-- The instruction mentions the variable of the loop. -/
def Kernel.mentions (k : Kernel m n) (i : Fin m) (l : Fin n) : Bool :=
  (k.instruction i).body.occurs (k.loop l).head.name

namespace Layer

/-! ## Steps that append -/

/-- The second layer is the first with some dependencies and members appended under each name. -/
structure Extends (a b : Layer m n) (deps : String → List String)
    (members : String → List (Ref m n)) (count : Nat) : Prop where
  deps : ∀ x, b.deps.find? x = (a.deps.find? x).map (· ++ deps x)
  members : ∀ x, b.members.find? x = (a.members.find? x).map (· ++ members x)
  inferred : b.inferred = a.inferred + count

namespace Extends

variable {a b c : Layer m n} {deps₁ deps₂ : String → List String}
  {members₁ members₂ : String → List (Ref m n)} {count₁ count₂ : Nat}

theorem refl (a : Layer m n) : Extends a a (fun _ => []) (fun _ => []) 0 where
  deps x := by simp
  members x := by simp
  inferred := rfl

theorem trans (h₁ : Extends a b deps₁ members₁ count₁) (h₂ : Extends b c deps₂ members₂ count₂) :
    Extends a c (fun x => deps₁ x ++ deps₂ x) (fun x => members₁ x ++ members₂ x)
      (count₁ + count₂) where
  deps x := by
    rw [h₂.deps, h₁.deps, Option.map_map]
    simp only [Function.comp_def, List.append_assoc]
  members x := by
    rw [h₂.members, h₁.members, Option.map_map]
    simp only [Function.comp_def, List.append_assoc]
  inferred := by
    rw [h₂.inferred, h₁.inferred, Nat.add_assoc]

theorem congr (h : Extends a b deps₁ members₁ count₁) (hdeps : ∀ x, deps₁ x = deps₂ x)
    (hmembers : ∀ x, members₁ x = members₂ x) (hcount : count₁ = count₂) :
    Extends a b deps₂ members₂ count₂ where
  deps x := hdeps x ▸ h.deps x
  members x := hmembers x ▸ h.members x
  inferred := hcount ▸ h.inferred

/-- A pass through a list appends what it appends for each entry. -/
theorem forM {α : Type} {f : α → LayerStep m n Unit} {deps : α → String → List String}
    {members : α → String → List (Ref m n)} {count : α → Nat}
    (step : ∀ e a b, (f e).run a = .ok () b → Extends a b (deps e) (members e) (count e))
    {l : List α} (h : (l.forM f).run a = .ok () b) :
    Extends a b (fun x => l.flatMap (deps · x)) (fun x => l.flatMap (members · x))
      (l.map count).sum := by
  induction l generalizing a with
  | nil =>
    cases h
    exact refl _
  | cons e l ih =>
    obtain ⟨⟨⟩, u, hu, h⟩ := run_bind_eq_ok_iff.mp h
    exact (step e a u hu).trans (ih h)

end Extends

theorem extends_addDep {a b : Layer m n} {x dep : String} (h : (addDep x dep).run a = .ok () b) :
    Extends a b (under x [dep]) (fun _ => []) 1 := by
  obtain ⟨_, _, hget, h⟩ := run_bind_eq_ok_iff.mp h
  cases hget
  rw [depsOf] at h
  cases hx : a.deps.find? x with
  | none => rw [hx] at h; cases h
  | some deps =>
    rw [hx] at h
    cases h
    refine ⟨fun y => ?_, fun y => by simp, rfl⟩
    by_cases hyx : y = x
    · subst hyx; simp [hx]
    · simp [hyx, under_of_ne]

theorem extends_addMember {a b : Layer m n} {x : String} {member : Ref m n}
    (h : (addMember x member).run a = .ok () b) :
    Extends a b (fun _ => []) (under x [member]) 0 := by
  obtain ⟨_, _, hget, h⟩ := run_bind_eq_ok_iff.mp h
  cases hget
  rw [membersOf] at h
  cases hx : a.members.find? x with
  | none => rw [hx] at h; cases h
  | some members =>
    rw [hx] at h
    cases h
    refine ⟨fun y => by simp, fun y => ?_, rfl⟩
    by_cases hyx : y = x
    · subst hyx; simp [hx]
    · simp [hyx, under_of_ne]

/-! ## The order of the instructions -/

/-- The instruction depends on all instructions before it. -/
def isOrdered (k : Kernel m n) (i : Fin m) : Bool :=
  match (k.instruction i).body.readsOwnTarget with
  | .ok reads => reads
  | .error _ => false

/-- What the order of the instructions adds to dependencies, behind instructions with given
names. -/
def orderDeps (k : Kernel m n) (earlier : List String) : List (Fin m) → String → List String
  | [], _ => []
  | i :: rest, x =>
      let name := (k.instruction i).name
      under name (if isOrdered k i then earlier else []) x ++ orderDeps k (earlier ++ [name]) rest x

/-- How many dependencies the order of the instructions adds. -/
def orderCount (k : Kernel m n) (earlier : Nat) : List (Fin m) → Nat
  | [] => 0
  | i :: rest => (if isOrdered k i then earlier else 0) + orderCount k (earlier + 1) rest

theorem extends_addDeps {a b : Layer m n} {x : String} {deps : List String}
    (h : (deps.forM (addDep x)).run a = .ok () b) :
    Extends a b (under x deps) (fun _ => []) deps.length := by
  refine (Extends.forM (fun _ _ _ h => extends_addDep h) h).congr ?_ ?_ ?_
  · intro y
    by_cases hyx : y = x
    · simp [under, hyx]
    · rw [under_of_ne hyx]
      exact List.flatMap_eq_nil_iff.mpr fun dep _ => under_of_ne hyx _
  · intro y
    exact List.flatMap_eq_nil_iff.mpr fun _ _ => rfl
  · simp

theorem extends_addOrder {k : Kernel m n} {a b : Layer m n} {earlier : List String}
    {is : List (Fin m)} (h : (addOrder k earlier is).run a = .ok () b) :
    Extends a b (orderDeps k earlier is) (fun _ => []) (orderCount k earlier.length is) := by
  induction is generalizing earlier a with
  | nil =>
    cases h
    exact .refl _
  | cons i rest ih =>
    -- the first instruction is not asked, but it would gain nothing either
    obtain ⟨u, hfirst, hrest⟩ : ∃ u : Layer m n,
        Extends a u (under (k.instruction i).name (if isOrdered k i then earlier else []))
          (fun _ => []) (if isOrdered k i then earlier.length else 0) ∧
        (addOrder k (earlier ++ [(k.instruction i).name]) rest).run u = .ok () b := by
      have hnone : Extends a a (under (k.instruction i).name []) (fun _ => []) 0 :=
        (Extends.refl a).congr (fun x => by simp [under]) (fun _ => rfl) rfl
      rw [addOrder] at h
      split at h
      · rename_i hempty
        rw [List.isEmpty_iff.mp hempty] at h ⊢
        rw [List.length_nil, ite_self, ite_self]
        exact ⟨a, hnone, h⟩
      · split at h
        · cases h
        · rename_i reads hreads
          have hordered : isOrdered k i = reads := by rw [isOrdered, hreads]
          rw [hordered]
          cases reads with
          | false => exact ⟨a, hnone, h⟩
          | true =>
            obtain ⟨⟨⟩, u, hu, h⟩ := run_bind_eq_ok_iff.mp h
            exact ⟨u, extends_addDeps hu, h⟩
    have hrest := ih hrest
    rw [List.length_append] at hrest
    exact hfirst.trans hrest

/-! ## Loops and what mentions them -/

theorem extends_when {cond : Bool} {x dep y : String} {member : Ref m n} {a b : Layer m n}
    (h : (do if cond then addDep x dep; addMember y member : LayerStep m n Unit).run a = .ok () b) :
    Extends a b (under x (if cond then [dep] else [])) (under y (if cond then [member] else []))
      (if cond then 1 else 0) := by
  cases cond with
  | true =>
    obtain ⟨⟨⟩, u, hu, h⟩ := run_bind_eq_ok_iff.mp h
    exact ((extends_addDep hu).trans (extends_addMember h)).congr (by simp) (by simp) rfl
  | false =>
    cases h
    exact (Extends.refl _).congr (fun x => by simp [under]) (fun x => by simp [under]) rfl

theorem extends_addMentions {k : Kernel m n} {a b : Layer m n}
    (h : (k.instructions.forM fun i => k.loops.forM fun l => addMention k i l).run a = .ok () b) :
    Extends a b
      (fun x => k.instructions.flatMap fun i => k.loops.flatMap fun l =>
        under (k.instruction i).name (if k.mentions i l then [(k.loop l).head.name] else []) x)
      (fun x => k.instructions.flatMap fun i => k.loops.flatMap fun l =>
        under (k.loop l).head.name (if k.mentions i l then [.instruction i] else []) x)
      (k.instructions.map fun i => (k.loops.map fun l => if k.mentions i l then 1
        else 0).sum).sum :=
  Extends.forM (fun _ _ _ h => Extends.forM (fun _ _ _ h => extends_when h) h) h

/-- The head of the first loop mentions the second. -/
def headMentions (k : Kernel m n) (outer inner : Fin n) : Bool :=
  (k.loop outer).head.mentions (k.loop inner).head.name

/-- What the heads of loops add to the dependencies of the loops behind them. -/
def innerDeps (k : Kernel m n) : List (Fin n) → String → List String
  | [], _ => []
  | outer :: rest, x =>
      (rest.flatMap fun inner => under (k.loop inner).head.name
        (if headMentions k outer inner then [(k.loop outer).head.name] else []) x)
        ++ innerDeps k rest x

/-- What the heads of loops add to their members. -/
def innerMembers (k : Kernel m n) : List (Fin n) → String → List (Ref m n)
  | [], _ => []
  | outer :: rest, x =>
      (rest.flatMap fun inner => under (k.loop outer).head.name
        (if headMentions k outer inner then [.loop inner] else []) x)
        ++ innerMembers k rest x

/-- How many dependencies the heads of loops add. -/
def innerCount (k : Kernel m n) : List (Fin n) → Nat
  | [] => 0
  | outer :: rest =>
      (rest.map fun inner => if headMentions k outer inner then 1 else 0).sum + innerCount k rest

theorem extends_addInners {k : Kernel m n} {a b : Layer m n} {ls : List (Fin n)}
    (h : (addInners k ls).run a = .ok () b) :
    Extends a b (innerDeps k ls) (innerMembers k ls) (innerCount k ls) := by
  induction ls generalizing a with
  | nil =>
    cases h
    exact .refl _
  | cons outer rest ih =>
    obtain ⟨⟨⟩, u, hu, h⟩ := run_bind_eq_ok_iff.mp h
    exact (Extends.forM (fun _ _ _ h => extends_when h) hu).trans (ih h)

/-- What the whole pass appends to the dependencies under a name. -/
def inferredDeps (k : Kernel m n) (x : String) : List String :=
  orderDeps k [] k.instructions x
    ++ ((k.instructions.flatMap fun i => k.loops.flatMap fun l =>
      under (k.instruction i).name (if k.mentions i l then [(k.loop l).head.name] else []) x)
    ++ innerDeps k k.loops x)

/-- What the whole pass appends to the members under a name. -/
def inferredMembers (k : Kernel m n) (x : String) : List (Ref m n) :=
  (k.instructions.flatMap fun i => k.loops.flatMap fun l =>
    under (k.loop l).head.name (if k.mentions i l then [.instruction i] else []) x)
    ++ innerMembers k k.loops x

/-- How many dependencies the whole pass appends. -/
def inferredCount (k : Kernel m n) : Nat :=
  orderCount k 0 k.instructions
    + ((k.instructions.map fun i => (k.loops.map fun l => if k.mentions i l then 1 else 0).sum).sum
    + innerCount k k.loops)

/-- **What the whole pass appends**, whatever was there before. -/
theorem extends_infer {k : Kernel m n} {a b : Layer m n} (h : (infer k).run a = .ok () b) :
    Extends a b (inferredDeps k) (inferredMembers k) (inferredCount k) := by
  obtain ⟨⟨⟩, u, hu, h⟩ := run_bind_eq_ok_iff.mp h
  obtain ⟨⟨⟩, v, hv, h⟩ := run_bind_eq_ok_iff.mp h
  exact (extends_addOrder hu).trans ((extends_addMentions hv).trans (extends_addInners h))

theorem extends_analyze {k : Kernel m n} {layer : Layer m n} (h : analyze k = .ok layer) :
    Extends (declared k) layer (inferredDeps k) (inferredMembers k) (inferredCount k) := by
  rw [analyze] at h
  split at h
  · rename_i run hrun
    cases h
    exact extends_infer hrun
  · cases h

/-! ## Different names -/

theorem orderDeps_of_notMem {k : Kernel m n} {x : String} {is : List (Fin m)}
    (hx : ∀ i ∈ is, x ≠ (k.instruction i).name) (earlier : List String) :
    orderDeps k earlier is x = [] := by
  induction is generalizing earlier with
  | nil => rfl
  | cons i rest ih =>
    rw [orderDeps, under_of_ne (hx i List.mem_cons_self), List.nil_append]
    exact ih (fun j hj => hx j (List.mem_cons_of_mem _ hj)) _

/-- An instruction that depends on those before it depends on all of them. -/
theorem orderDeps_eq {k : Kernel m n} {i : Fin m} {before after : List (Fin m)}
    (hnames : ((before ++ i :: after).map fun i => (k.instruction i).name).Nodup)
    (earlier : List String) :
    orderDeps k earlier (before ++ i :: after) (k.instruction i).name
      = if isOrdered k i then earlier ++ before.map fun j => (k.instruction j).name else [] := by
  induction before generalizing earlier with
  | nil =>
    rw [List.nil_append, List.map_cons, List.nodup_cons] at hnames
    have hne : ∀ j ∈ after, (k.instruction i).name ≠ (k.instruction j).name := fun j hj h =>
      hnames.1 (h ▸ List.mem_map_of_mem (f := fun i => (k.instruction i).name) hj)
    rw [List.nil_append, orderDeps, under_self, orderDeps_of_notMem hne, List.map_nil,
      List.append_nil, List.append_nil]
  | cons j before ih =>
    rw [List.cons_append, List.map_cons, List.nodup_cons] at hnames
    have hne : (k.instruction i).name ≠ (k.instruction j).name := by
      intro h
      exact hnames.1 (h ▸ List.mem_map_of_mem (f := fun i => (k.instruction i).name) (by simp))
    rw [List.cons_append, orderDeps, under_of_ne hne, List.nil_append, ih hnames.2, List.map_cons,
      List.append_assoc, List.singleton_append]

theorem innerDeps_of_notMem {k : Kernel m n} {x : String} {ls : List (Fin n)}
    (hx : ∀ l ∈ ls, x ≠ (k.loop l).head.name) : innerDeps k ls x = [] := by
  induction ls with
  | nil => rfl
  | cons outer rest ih =>
    have hrest : ∀ l ∈ rest, x ≠ (k.loop l).head.name :=
      fun l hl => hx l (List.mem_cons_of_mem _ hl)
    rw [innerDeps, ih hrest, List.append_nil]
    exact List.flatMap_eq_nil_iff.mpr fun inner hinner => under_of_ne (hrest inner hinner) _

theorem innerMembers_of_notMem {k : Kernel m n} {x : String} {ls : List (Fin n)}
    (hx : ∀ l ∈ ls, x ≠ (k.loop l).head.name) : innerMembers k ls x = [] := by
  induction ls with
  | nil => rfl
  | cons outer rest ih =>
    rw [innerMembers, ih fun l hl => hx l (List.mem_cons_of_mem _ hl), List.append_nil]
    exact List.flatMap_eq_nil_iff.mpr fun inner _ => under_of_ne (hx outer List.mem_cons_self) _

theorem loop_name_ne {k : Kernel m n} {l : Fin n} {later : List (Fin n)}
    (hnames : ((l :: later).map fun l => (k.loop l).head.name).Nodup) :
    ∀ e ∈ later, (k.loop l).head.name ≠ (k.loop e).head.name := by
  intro e he h
  rw [List.map_cons, List.nodup_cons] at hnames
  exact hnames.1 (h ▸ List.mem_map_of_mem (f := fun l => (k.loop l).head.name) he)

/-- A loop depends on the earlier loops whose heads mention it. -/
theorem innerDeps_eq {k : Kernel m n} {l : Fin n} {earlier later : List (Fin n)}
    (hnames : ((earlier ++ l :: later).map fun l => (k.loop l).head.name).Nodup) :
    innerDeps k (earlier ++ l :: later) (k.loop l).head.name
      = (earlier.filter (headMentions k · l)).map fun l => (k.loop l).head.name := by
  induction earlier with
  | nil =>
    have hne := loop_name_ne hnames
    rw [List.nil_append, innerDeps, innerDeps_of_notMem hne, List.append_nil]
    exact List.flatMap_eq_nil_iff.mpr fun e he => under_of_ne (hne e he) _
  | cons outer earlier ih =>
    rw [List.cons_append, List.map_cons, List.nodup_cons] at hnames
    rw [List.cons_append, innerDeps, ih hnames.2, List.filter_cons]
    rw [flatMap_under (fun l => (k.loop l).head.name) _ hnames.2 (by simp)]
    split <;> simp

/-- The members that a loop gains from its head are the later loops that it mentions. -/
theorem innerMembers_eq {k : Kernel m n} {l : Fin n} {earlier later : List (Fin n)}
    (hnames : ((earlier ++ l :: later).map fun l => (k.loop l).head.name).Nodup) :
    innerMembers k (earlier ++ l :: later) (k.loop l).head.name
      = (later.filter (headMentions k l)).map .loop := by
  induction earlier with
  | nil =>
    have hne := loop_name_ne hnames
    rw [List.nil_append, innerMembers, innerMembers_of_notMem hne, List.append_nil]
    simp only [under_self]
    exact flatMap_if _ _ _
  | cons outer earlier ih =>
    have hne : (k.loop l).head.name ≠ (k.loop outer).head.name :=
      (loop_name_ne hnames l (by simp)).symm
    rw [List.cons_append, List.map_cons, List.nodup_cons] at hnames
    rw [List.cons_append, innerMembers, ih hnames.2]
    rw [List.flatMap_eq_nil_iff.mpr fun inner _ => under_of_ne hne _, List.nil_append]

end Layer

/-- Positions ascend along a list in which nothing is repeated. -/
theorem Kernel.pairwise_idxOf {α : Type} [DecidableEq α] {l : List α} (h : l.Nodup) :
    l.Pairwise fun a b => l.idxOf a < l.idxOf b := by
  refine List.pairwise_iff_getElem.mpr fun i j hi hj hij => ?_
  rwa [h.idxOf_getElem, h.idxOf_getElem]

namespace Kernel.Distinct

variable {k : Kernel m n}

theorem inj (hk : k.Distinct) {r t : Ref m n} (hr : r ∈ k.items) (ht : t ∈ k.items)
    (h : k.name r = k.name t) : r = t :=
  List.inj_on_of_nodup_map hk hr ht h

theorem instructions (hk : k.Distinct) :
    (k.instructions.map fun i => (k.instruction i).name).Nodup := by
  rw [Distinct, items, List.map_append, List.map_map] at hk
  exact hk.of_append_left

theorem loops (hk : k.Distinct) : (k.loops.map fun l => (k.loop l).head.name).Nodup := by
  rw [Distinct, items, List.map_append, List.map_map, List.map_map] at hk
  exact hk.of_append_right

theorem ne (hk : k.Distinct) {i : Fin m} (hi : i ∈ k.instructions) {l : Fin n} (hl : l ∈ k.loops) :
    (k.instruction i).name ≠ (k.loop l).head.name := by
  intro h
  have h : Ref.instruction i = Ref.loop l :=
    hk.inj (List.mem_append_left _ (List.mem_map_of_mem hi))
      (List.mem_append_right _ (List.mem_map_of_mem hl)) h
  cases h

end Kernel.Distinct

namespace Layer

variable {k : Kernel m n} {layer : Layer m n}

theorem deps_declared (hk : k.Distinct) {r : Ref m n} (hr : r ∈ k.items) :
    (declared k).deps.find? (k.name r) = some (k.deps r) := by
  refine NameMap.find?_ofList ?_ (List.mem_map_of_mem (f := fun r => (k.name r, k.deps r)) hr)
  rw [List.map_map]
  exact hk

theorem members_declared (hk : k.Distinct) {l : Fin n} (hl : l ∈ k.loops) :
    (declared k).members.find? (k.loop l).head.name = some (k.loop l).members := by
  refine NameMap.find?_ofList ?_
    (List.mem_map_of_mem (f := fun l => ((k.loop l).head.name, (k.loop l).members)) hl)
  rw [List.map_map]
  exact hk.loops

/-- An instruction gains the instructions before it, if it reads what it writes, and the loops that
it mentions. -/
theorem deps_infer_instruction (hk : k.Distinct) (h : analyze k = .ok layer) {i : Fin m}
    (hi : i ∈ k.instructions) :
    layer.deps.find? (k.instruction i).name
      = some ((k.instruction i).deps ++ (orderDeps k [] k.instructions (k.instruction i).name
        ++ (k.loops.filter (k.mentions i)).map fun l => (k.loop l).head.name)) := by
  have hloops : innerDeps k k.loops (k.instruction i).name = [] :=
    innerDeps_of_notMem fun l hl => hk.ne hi hl
  have hmentions : (k.instructions.flatMap fun j => k.loops.flatMap fun l =>
      under (k.instruction j).name (if k.mentions j l then [(k.loop l).head.name] else [])
        (k.instruction i).name)
      = (k.loops.filter (k.mentions i)).map fun l => (k.loop l).head.name := by
    have hunder : ∀ j, (k.loops.flatMap fun l => under (k.instruction j).name
        (if k.mentions j l then [(k.loop l).head.name] else []) (k.instruction i).name)
        = under (k.instruction j).name ((k.loops.filter (k.mentions j)).map fun l =>
          (k.loop l).head.name) (k.instruction i).name := by
      intro j
      by_cases hij : (k.instruction i).name = (k.instruction j).name
      · simp only [under, hij, if_pos]
        exact flatMap_if _ _ _
      · rw [under_of_ne hij]
        exact List.flatMap_eq_nil_iff.mpr fun l _ => under_of_ne hij _
    simp only [hunder]
    exact flatMap_under (fun i => (k.instruction i).name)
      (fun i => (k.loops.filter (k.mentions i)).map fun l => (k.loop l).head.name)
      hk.instructions hi
  have hdeclared : (declared k).deps.find? (k.instruction i).name = some (k.instruction i).deps :=
    deps_declared hk (r := .instruction i) (List.mem_append_left _ (List.mem_map_of_mem hi))
  rw [(extends_analyze h).deps, hdeclared, Option.map_some, inferredDeps, hmentions, hloops,
    List.append_nil]

/-- A loop gains the earlier loops whose heads mention it. -/
theorem deps_infer_loop (hk : k.Distinct) (h : analyze k = .ok layer) {l : Fin n}
    {earlier later : List (Fin n)} (hl : k.loops = earlier ++ l :: later) :
    layer.deps.find? (k.loop l).head.name
      = some ((k.loop l).head.deps
        ++ (earlier.filter (headMentions k · l)).map fun l => (k.loop l).head.name) := by
  have hmem : l ∈ k.loops := by rw [hl]; simp
  have hne : ∀ i ∈ k.instructions, (k.loop l).head.name ≠ (k.instruction i).name :=
    fun i hi => (hk.ne hi hmem).symm
  have hmentions : (k.instructions.flatMap fun i => k.loops.flatMap fun e =>
      under (k.instruction i).name (if k.mentions i e then [(k.loop e).head.name] else [])
        (k.loop l).head.name) = [] :=
    List.flatMap_eq_nil_iff.mpr fun i hi =>
      List.flatMap_eq_nil_iff.mpr fun e _ => under_of_ne (hne i hi) _
  have hdeclared : (declared k).deps.find? (k.loop l).head.name = some (k.loop l).head.deps :=
    deps_declared hk (r := .loop l) (List.mem_append_right _ (List.mem_map_of_mem hmem))
  have hinner := innerDeps_eq (k := k) (hl ▸ hk.loops)
  rw [← hl] at hinner
  rw [(extends_analyze h).deps, hdeclared, Option.map_some, inferredDeps, orderDeps_of_notMem hne,
    hmentions, hinner, List.nil_append, List.nil_append]

/-- A loop gains the instructions that mention it and the later loops that its head mentions. -/
theorem members_infer (hk : k.Distinct) (h : analyze k = .ok layer) {l : Fin n}
    {earlier later : List (Fin n)} (hl : k.loops = earlier ++ l :: later) :
    layer.members.find? (k.loop l).head.name
      = some ((k.loop l).members ++ ((k.instructions.filter (k.mentions · l)).map .instruction
        ++ (later.filter (headMentions k l)).map .loop)) := by
  have hmem : l ∈ k.loops := by rw [hl]; simp
  have hmentions : (k.instructions.flatMap fun i => k.loops.flatMap fun e =>
      under (k.loop e).head.name (if k.mentions i e then [(Ref.instruction i : Ref m n)] else [])
        (k.loop l).head.name) = (k.instructions.filter (k.mentions · l)).map Ref.instruction := by
    have hunder : ∀ i, (k.loops.flatMap fun e => under (k.loop e).head.name
        (if k.mentions i e then [(Ref.instruction i : Ref m n)] else []) (k.loop l).head.name)
        = if k.mentions i l then [Ref.instruction i] else [] := fun i =>
      flatMap_under (fun l => (k.loop l).head.name)
        (fun e => if k.mentions i e then [Ref.instruction i] else []) hk.loops hmem
    simp only [hunder]
    exact flatMap_if _ _ _
  have hinner := innerMembers_eq (k := k) (hl ▸ hk.loops)
  rw [← hl] at hinner
  rw [(extends_analyze h).members, members_declared hk hmem, Option.map_some, inferredMembers,
    hmentions, hinner]

end Layer
end LoopNest
