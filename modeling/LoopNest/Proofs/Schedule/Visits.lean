import LoopNest.Proofs.Collect
import LoopNest.Proofs.Schedule.Attach

/-!
# The places of a nest

Reading a nest from top to bottom visits each of its places once: a loop, then what is inside it.  A
visit knows the loops around the place, from the outermost in.

## Hierarchies

Where bodies form a hierarchy, each item has one chain of loops around it (`Hierarchy`): an item is
in the body of the last loop of its chain and of no other, and every part of a chain from the
outside in is the chain of the next loop.  Then the nest of an item visits each item on the way down
at most once, and at the end of the way the loops around it are the chain.  The proof goes by the
nest: the way from a loop to a target goes on through exactly one member of its body.

* `Nest.visits`: the visits of a nest, in order.
* `Nester.Hierarchy.visitsOf_pairs`: each item of a hierarchy is visited once, inside its chain.
-/

namespace LoopNest

/-- A place in a nest: the loops around it, outermost first, and what stands there. -/
structure Nest.Visit where
  around : List LoopHead
  node : Nest

namespace Nest

mutual

/-- The places of a nest inside some loops, in the order of the text. -/
def visits (around : List LoopHead) : Nest → List Visit
  | .instruction i => [⟨around, .instruction i⟩]
  | .loop head members => ⟨around, .loop head members⟩ :: visitsAll (around ++ [head]) members

/-- The places of nests, one after the other. -/
def visitsAll (around : List LoopHead) : List Nest → List Visit
  | [] => []
  | nest :: nests => visits around nest ++ visitsAll around nests

end

theorem visitsAll_eq (around : List LoopHead) (nests : List Nest) :
    visitsAll around nests = nests.flatMap (visits around) := by
  induction nests with
  | nil => rfl
  | cons nest nests ih => rw [visitsAll, ih, List.flatMap_cons]

/-- The places at which something of a name stands. -/
def visitsOf (x : String) (visits : List Visit) : List Visit :=
  visits.filter fun v => v.node.name = x

theorem visitsOf_visitsAll {α : Type} (x : String) (around : List LoopHead)
    (pairs : List (α × Nest)) :
    visitsOf x (visitsAll around (pairs.map Prod.snd))
      = pairs.flatMap fun p => visitsOf x (visits around p.2) := by
  rw [visitsAll_eq, visitsOf, List.filter_flatMap, List.flatMap_map]
  rfl

theorem visitsOf_instruction (x : String) (around : List LoopHead) (i : Instruction) :
    visitsOf x (visits around (.instruction i))
      = if i.name = x then [⟨around, .instruction i⟩] else [] := by
  by_cases h : i.name = x
  · simp [visits, visitsOf, name, h]
  · simp [visits, visitsOf, name, h]

theorem visitsOf_loop (x : String) (around : List LoopHead) (head : LoopHead)
    (members : List Nest) :
    visitsOf x (visits around (.loop head members))
      = (if head.name = x then [⟨around, .loop head members⟩] else [])
        ++ visitsOf x (visitsAll (around ++ [head]) members) := by
  by_cases h : head.name = x
  · simp [visits, visitsOf, name, h]
  · simp [visits, visitsOf, name, h]

end Nest

namespace Nester

open Nest

variable {m n : Nat} {s : Nester m n} {k : Kernel m n}

/-- Bodies in which each item has one chain of loops around it. -/
structure Hierarchy (s : Nester m n) (k : Kernel m n) (own : Ref m n → Prop)
    (chain : Ref m n → List (Fin n)) : Prop where
  inj : ∀ r t, own r → own t → k.name r = k.name t → r = t
  nodup : ∀ l, own (.loop l) → (s.body k l).Nodup
  body : ∀ l, own (.loop l) → ∀ r, r ∈ s.body k l ↔ own r ∧ chain r = chain (.loop l) ++ [l]
  coherent : ∀ r, own r → ∀ outer l inner, chain r = outer ++ l :: inner →
    own (.loop l) ∧ chain (.loop l) = outer

namespace Hierarchy

variable {own : Ref m n → Prop} {chain : Ref m n → List (Fin n)} {target : Ref m n}

/-- Off the way to a target: neither the target nor a loop of its chain. -/
def Off (chain : Ref m n → List (Fin n)) (target r : Ref m n) : Prop :=
  r ≠ target ∧ ∀ l, r = .loop l → l ∉ chain target

/-- A member of a loop that is on the way to a target lies right under the loop on that way. -/
theorem on_way (h : s.Hierarchy k own chain) (ht : own target) {l : Fin n} (hl : own (.loop l))
    {r : Ref m n} (hr : r ∈ s.body k l) (hoff : ¬ Off chain target r) :
    r = target ∧ chain target = chain (.loop l) ++ [l] ∨
      ∃ e inner, r = .loop e ∧ chain target = chain (.loop l) ++ l :: e :: inner := by
  obtain ⟨-, hchain⟩ := (h.body l hl r).mp hr
  rw [Off, not_and_or, not_not] at hoff
  rcases hoff with rfl | hoff
  · exact .inl ⟨rfl, hchain⟩
  · rw [Classical.not_forall] at hoff
    obtain ⟨e, he⟩ := hoff
    rw [Classical.not_imp, not_not] at he
    obtain ⟨rfl, he⟩ := he
    obtain ⟨outer, inner, hsplit⟩ := List.append_of_mem he
    obtain ⟨-, houter⟩ := h.coherent target ht outer e inner hsplit
    refine .inr ⟨e, inner, rfl, ?_⟩
    rw [hsplit, ← houter, hchain, List.append_assoc, List.singleton_append]

theorem name_ne (h : s.Hierarchy k own chain) (ht : own target) {r : Ref m n} (hr : own r)
    (hne : r ≠ target) : k.name r ≠ k.name target :=
  fun hname => hne (h.inj r target hr ht hname)

/-- A loop of a chain is not the item at its end. -/
theorem head_name_ne (h : s.Hierarchy k own chain) (ht : own target) {l : Fin n}
    {outer inner : List (Fin n)} (hchain : chain target = outer ++ l :: inner) :
    (k.loop l).head.name ≠ k.name target := by
  obtain ⟨hl, houter⟩ := h.coherent target ht outer l inner hchain
  refine h.name_ne ht hl ?_
  rintro rfl
  have hlength := congrArg List.length hchain
  rw [houter, List.length_append, List.length_cons] at hlength
  omega

/-- The nest of an item that is off the way does not visit the target. -/
theorem visitsOf_off (h : s.Hierarchy k own chain) (ht : own target) {r : Ref m n} {nest : Nest}
    (hnest : s.Unfolds k r nest) (hr : own r) (hoff : Off chain target r) (around : List LoopHead) :
    visitsOf (k.name target) (nest.visits around) = [] := by
  induction hnest generalizing around with
  | instruction i =>
    have hne : (k.instruction i).name ≠ k.name target := h.name_ne ht hr hoff.1
    rw [visitsOf_instruction, if_neg hne]
  | loop l members hbody hmembers ih =>
    have hne : (k.loop l).head.name ≠ k.name target := h.name_ne ht hr hoff.1
    rw [visitsOf_loop, if_neg hne, List.nil_append, visitsOf_visitsAll]
    refine List.flatMap_eq_nil_iff.mpr fun p hp => ?_
    have hmem : p.1 ∈ s.body k l := hbody ▸ List.mem_map_of_mem hp
    have howned : own p.1 := ((h.body l hr p.1).mp hmem).1
    refine ih p hp howned ?_ _
    -- a member on the way would put the loop on the way
    by_contra hmember
    have hlmem : l ∈ chain target := by
      rcases h.on_way ht hr hmem hmember with ⟨-, hchain⟩ | ⟨e, inner, -, hchain⟩
      · rw [hchain]; simp
      · rw [hchain]; simp
    exact hoff.2 l rfl hlmem

/-- The target's own nest visits it first, and never again. -/
theorem visitsOf_self (h : s.Hierarchy k own chain) (ht : own target) {nest : Nest}
    (hnest : s.Unfolds k target nest) (around : List LoopHead) :
    visitsOf (k.name target) (nest.visits around) = [⟨around, nest⟩] := by
  cases hnest with
  | instruction i => exact (visitsOf_instruction _ _ _).trans (if_pos rfl)
  | loop l members hbody hmembers =>
    have heq : (k.loop l).head.name = k.name (.loop l) := rfl
    rw [visitsOf_loop, if_pos heq, visitsOf_visitsAll, List.append_right_eq_self]
    refine List.flatMap_eq_nil_iff.mpr fun p hp => ?_
    have hmem : p.1 ∈ s.body k l := hbody ▸ List.mem_map_of_mem hp
    have howned : own p.1 := ((h.body l ht p.1).mp hmem).1
    refine h.visitsOf_off ht (hmembers p hp) howned ?_ _
    by_contra hmember
    rcases h.on_way ht ht hmem hmember with ⟨-, hchain⟩ | ⟨e, inner, -, hchain⟩
    · have hlength := congrArg List.length hchain
      simp at hlength
    · have hlength := congrArg List.length hchain
      simp at hlength

/-- The nest of a loop of the target's chain visits the target once, inside the rest of the
chain. -/
theorem visitsOf_through (h : s.Hierarchy k own chain) (ht : own target) {inner : List (Fin n)} :
    ∀ {outer : List (Fin n)} {l : Fin n} {nest : Nest}, chain target = outer ++ l :: inner →
      s.Unfolds k (.loop l) nest → ∀ around, ∃ node, s.Unfolds k target node ∧
        visitsOf (k.name target) (nest.visits around)
          = [⟨around ++ (l :: inner).map fun l => (k.loop l).head, node⟩] := by
  induction inner with
  | nil =>
    intro outer l nest hchain hnest around
    obtain ⟨hl, houter⟩ := h.coherent target ht outer l [] hchain
    have hmem : target ∈ s.body k l := (h.body l hl target).mpr ⟨ht, by rw [hchain, houter]⟩
    cases hnest with
    | loop l members hbody hmembers =>
      rw [← hbody] at hmem
      obtain ⟨p, hp, rfl⟩ := List.mem_map.mp hmem
      have hname : (k.loop l).head.name ≠ k.name p.1 := h.head_name_ne ht hchain
      refine ⟨p.2, hmembers p hp, ?_⟩
      rw [visitsOf_loop, if_neg hname, List.nil_append, visitsOf_visitsAll,
        flatMap_eq_of_unique (hbody ▸ h.nodup l hl) hp]
      · exact h.visitsOf_self ht (hmembers p hp) _
      · intro q hq hne
        have hqmem : q.1 ∈ s.body k l := hbody ▸ List.mem_map_of_mem hq
        refine h.visitsOf_off ht (hmembers q hq) ((h.body l hl q.1).mp hqmem).1 ?_ _
        by_contra hoff
        rcases h.on_way ht hl hqmem hoff with ⟨heq, -⟩ | ⟨e, inner, -, hlonger⟩
        · exact hne heq
        · rw [hchain, houter, List.append_cancel_left_eq] at hlonger
          cases hlonger
  | cons e inner ih =>
    intro outer l nest hchain hnest around
    obtain ⟨hl, houter⟩ := h.coherent target ht outer l (e :: inner) hchain
    have hchain' : chain target = (outer ++ [l]) ++ e :: inner := by
      rw [hchain, List.append_assoc, List.singleton_append]
    obtain ⟨he, heouter⟩ := h.coherent target ht (outer ++ [l]) e inner hchain'
    have hmem : Ref.loop e ∈ s.body k l := (h.body l hl _).mpr ⟨he, by rw [heouter, houter]⟩
    cases hnest with
    | loop l members hbody hmembers =>
      rw [← hbody] at hmem
      obtain ⟨⟨r, child⟩, hp, rfl⟩ := List.mem_map.mp hmem
      obtain ⟨node, hnode, hvisits⟩ := ih hchain' (hmembers _ hp) (around ++ [(k.loop l).head])
      have hname : (k.loop l).head.name ≠ k.name target := h.head_name_ne ht hchain
      refine ⟨node, hnode, ?_⟩
      rw [visitsOf_loop, if_neg hname, List.nil_append, visitsOf_visitsAll,
        flatMap_eq_of_unique (hbody ▸ h.nodup l hl) hp]
      · rw [hvisits, List.append_assoc, List.singleton_append]
        rfl
      · intro q hq hne
        have hqmem : q.1 ∈ s.body k l := hbody ▸ List.mem_map_of_mem hq
        refine h.visitsOf_off ht (hmembers q hq) ((h.body l hl q.1).mp hqmem).1 ?_ _
        by_contra hoff
        rcases h.on_way ht hl hqmem hoff with ⟨-, hshorter⟩ | ⟨e', inner', heq, hother⟩
        · rw [hchain, houter, List.append_cancel_left_eq] at hshorter
          cases hshorter
        · rw [hchain, houter, List.append_cancel_left_eq] at hother
          cases hother
          exact hne heq

/-- An item without loops around it is off the way to a target, unless it is the first loop of the
target's chain. -/
theorem off_of_root (h : s.Hierarchy k own chain) (ht : own target) {l : Fin n}
    {inner : List (Fin n)} (hchain : chain target = l :: inner) {r : Ref m n} (hroot : chain r = [])
    (hne : r ≠ .loop l) : Off chain target r := by
  constructor
  · rintro rfl
    rw [hchain] at hroot
    cases hroot
  · rintro e rfl he
    obtain ⟨outer, inner', hsplit⟩ := List.append_of_mem he
    obtain ⟨-, houter⟩ := h.coherent target ht outer e inner' hsplit
    rw [houter] at hroot
    rw [hroot, hchain, List.nil_append, List.cons.injEq] at hsplit
    exact hne (by rw [hsplit.1])

/-- **Each item of a hierarchy is visited once, inside its chain.**  The pairs are the nests of
items without loops around them, among them all loops of that kind. -/
theorem visitsOf_pairs (h : s.Hierarchy k own chain) (ht : own target)
    {pairs : List (Ref m n × Nest)} (hpairs : ∀ p ∈ pairs, s.Unfolds k p.1 p.2)
    (hroots : ∀ p ∈ pairs, own p.1 ∧ chain p.1 = []) (hnodup : (pairs.map Prod.fst).Nodup)
    (hloops : ∀ l, own (.loop l) → chain (.loop l) = [] → .loop l ∈ pairs.map Prod.fst)
    (htarget : chain target = [] → target ∈ pairs.map Prod.fst) :
    ∃ node, s.Unfolds k target node ∧
      visitsOf (k.name target) (visitsAll [] (pairs.map Prod.snd))
        = [⟨(chain target).map fun l => (k.loop l).head, node⟩] := by
  rw [visitsOf_visitsAll]
  cases hchain : chain target with
  | nil =>
    obtain ⟨p, hp, rfl⟩ := List.mem_map.mp (htarget hchain)
    refine ⟨p.2, hpairs p hp, ?_⟩
    rw [flatMap_eq_of_unique hnodup hp]
    · exact h.visitsOf_self ht (hpairs p hp) []
    · intro q hq hne
      exact h.visitsOf_off ht (hpairs q hq) (hroots q hq).1 ⟨hne, by simp [hchain]⟩ _
  | cons l inner =>
    obtain ⟨hl, hroot⟩ := h.coherent target ht [] l inner hchain
    obtain ⟨⟨r, child⟩, hp, rfl⟩ := List.mem_map.mp (hloops l hl hroot)
    obtain ⟨node, hnode, hvisits⟩ :=
      h.visitsOf_through ht (hchain.trans (List.nil_append _).symm) (hpairs _ hp) []
    refine ⟨node, hnode, ?_⟩
    rw [flatMap_eq_of_unique hnodup hp]
    · exact hvisits
    · intro q hq hne
      exact h.visitsOf_off ht (hpairs q hq) (hroots q hq).1
        (h.off_of_root ht hchain (hroots q hq).2 hne) _

end Hierarchy
end Nester
end LoopNest
