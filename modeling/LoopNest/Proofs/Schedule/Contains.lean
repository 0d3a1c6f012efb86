import LoopNest.Proofs.Kernel.Reach
import LoopNest.Proofs.Schedule.Visits

/-!
# Ways through bodies

A loop holds the items of its body and contains what these contain.  The places of a nest are the
ways down through the bodies it unfolds from: the loops around a place are the loops of the way, and
what stands there is what the way leads to.  So a question about a schedule is a question about
bodies, and an item stands somewhere in the schedule exactly if something at the top contains it.

## Rewriting one body

Nesting rewrites one body at a time.  What contains a loop does not depend on the body of that very
loop (`contains_loop_congr`), since a way to it can stop when it comes there first.  And where every
step of the old bodies is a way in the new ones, everything stays contained in what it was in
(`Contains.of_holds`).

* `Nester.way_of_mem_visits`, `Nester.exists_visit_of_way`: places and ways.
* `Nester.standsIn_iff`: what stands in a schedule.
-/

namespace LoopNest

variable {m n : Nat}

namespace Nester

open Nest

variable {s s' : Nester m n} {k : Kernel m n} {own : Ref m n → Prop}

/-- The first item is a loop that has the second one in its body. -/
def Holds (s : Nester m n) (k : Kernel m n) (r t : Ref m n) : Prop :=
  ∃ l, r = .loop l ∧ t ∈ s.body k l

/-- The second item is the first one or inside it. -/
def Contains (s : Nester m n) (k : Kernel m n) : Ref m n → Ref m n → Prop :=
  Relation.ReflTransGen (s.Holds k)

/-- The bodies of the loops of a collection lie in the collection. -/
def Within (s : Nester m n) (k : Kernel m n) (own : Ref m n → Prop) : Prop :=
  ∀ l, own (.loop l) → ∀ t ∈ s.body k l, own t

theorem Contains.of_mem {l : Fin n} {t : Ref m n} (h : t ∈ s.body k l) : s.Contains k (.loop l) t :=
  .single ⟨l, rfl, h⟩

theorem leads_iff_contains {r t : Ref m n} : s.Leads k t [] r ↔ s.Contains k r t := by
  constructor
  · intro h
    induction h with
    | here => exact .refl
    | member _ hmem _ ih => exact ih.head ⟨_, rfl, hmem⟩
  · intro h
    induction h using Relation.ReflTransGen.head_induction_on with
    | refl => exact .here
    | head hstep _ ih =>
      obtain ⟨l, rfl, hmem⟩ := hstep
      exact .member List.not_mem_nil hmem ih

/-- From loop to loop the way leads through loops only. -/
theorem contains_loop_iff {e l : Fin n} : s.Contains k (.loop e) (.loop l) ↔
    Relation.ReflTransGen (fun d x => .loop x ∈ s.body k d) e l := by
  constructor
  · intro h
    generalize ht : Ref.loop l = t at h
    induction h generalizing l with
    | refl =>
      cases ht
      exact .refl
    | tail _ hstep ih =>
      obtain ⟨d, hd, hmem⟩ := hstep
      exact (ih hd.symm).tail (ht ▸ hmem)
  · intro h
    induction h with
    | refl => exact .refl
    | tail _ hmem ih => exact ih.tail ⟨_, rfl, hmem⟩

/-- What is inside an item of a closed collection is in the collection. -/
theorem Contains.within (hs : s.Within k own) {r t : Ref m n} (h : s.Contains k r t) (hr : own r) :
    own t := by
  induction h with
  | refl => exact hr
  | tail _ hstep ih =>
    obtain ⟨l, rfl, hmem⟩ := hstep
    exact hs l ih _ hmem

/-- Where each member of a loop is still inside it, everything is still where it was. -/
theorem Contains.of_holds (hs : s.Within k own)
    (hstep : ∀ l, own (.loop l) → ∀ t ∈ s.body k l, s'.Contains k (.loop l) t) {r t : Ref m n}
    (h : s.Contains k r t) (hr : own r) : s'.Contains k r t := by
  induction h with
  | refl => exact .refl
  | tail hway hlast ih =>
    obtain ⟨l, rfl, hmem⟩ := hlast
    exact ih.trans (hstep l (Contains.within hs hway hr) _ hmem)

/-- What contains a loop does not depend on the body of this loop. -/
theorem Contains.loop_of_same (hs : s.Within k own) {l : Fin n}
    (hsame : ∀ e, own (.loop e) → e ≠ l → s'.body k e = s.body k e) {r : Ref m n}
    (h : s.Contains k r (.loop l)) (hr : own r) : s'.Contains k r (.loop l) := by
  induction h using Relation.ReflTransGen.head_induction_on with
  | refl => exact .refl
  | head hstep _ ih =>
    obtain ⟨e, rfl, hmem⟩ := hstep
    by_cases hel : e = l
    · subst hel
      exact .refl
    · refine (ih (hs e hr _ hmem)).head ⟨e, rfl, ?_⟩
      rwa [hsame e hr hel]

theorem contains_loop_congr (hs : s.Within k own) (hs' : s'.Within k own) {l : Fin n}
    (hsame : ∀ e, own (.loop e) → e ≠ l → s'.body k e = s.body k e) {r : Ref m n} (hr : own r) :
    s.Contains k r (.loop l) ↔ s'.Contains k r (.loop l) :=
  ⟨fun h => h.loop_of_same hs hsame hr,
    fun h => h.loop_of_same hs' (fun e he hel => (hsame e he hel).symm) hr⟩

/-! ## Ways and places -/

/-- A way down from one of the roots, with the loops that it goes through, outermost first. -/
inductive Way (s : Nester m n) (k : Kernel m n) (roots : List (Ref m n)) :
    List (Fin n) → Ref m n → Prop where
  | root {r : Ref m n} (h : r ∈ roots) : Way s k roots [] r
  | member {path : List (Fin n)} {l : Fin n} {r : Ref m n} (h : Way s k roots path (.loop l))
      (hmem : r ∈ s.body k l) : Way s k roots (path ++ [l]) r

namespace Way

variable {roots : List (Ref m n)} {path : List (Fin n)} {r t : Ref m n}

theorem of_single (hr : r ∈ roots) (h : s.Way k [r] path t) : s.Way k roots path t := by
  induction h with
  | root h => exact .root (List.mem_singleton.mp h ▸ hr)
  | member _ hmem ih => exact ih.member hmem

/-- A way from a member of a loop is a way from the loop. -/
theorem cons {l : Fin n} (hr : r ∈ s.body k l) (h : s.Way k [r] path t) :
    s.Way k [.loop l] (l :: path) t := by
  induction h with
  | root h =>
    rw [List.mem_singleton] at h
    subst h
    have hroot : s.Way k [.loop l] [] (.loop l) := .root List.mem_cons_self
    exact hroot.member hr
  | member _ hmem ih => exact ih.member hmem

end Way

theorem exists_way_iff {roots : List (Ref m n)} {t : Ref m n} :
    (∃ path, s.Way k roots path t) ↔ ∃ r ∈ roots, s.Contains k r t := by
  constructor
  · rintro ⟨path, h⟩
    induction h with
    | @root r hr => exact ⟨r, hr, .refl⟩
    | @member _ l _ _ hmem ih =>
      obtain ⟨r, hr, ih⟩ := ih
      exact ⟨r, hr, ih.tail ⟨l, rfl, hmem⟩⟩
  · rintro ⟨r, hr, h⟩
    induction h with
    | refl => exact ⟨[], .root hr⟩
    | tail _ hstep ih =>
      obtain ⟨path, ih⟩ := ih
      obtain ⟨l, rfl, hmem⟩ := hstep
      exact ⟨path ++ [l], ih.member hmem⟩

/-- A place in the nest of an item is the end of a way down from it. -/
theorem Unfolds.way_of_mem_visits {r : Ref m n} {nest : Nest} (h : s.Unfolds k r nest)
    {around : List LoopHead} {v : Visit} (hv : v ∈ nest.visits around) :
    ∃ path t, s.Way k [r] path t ∧ v.around = around ++ path.map (fun l => (k.loop l).head) ∧
      s.Unfolds k t v.node := by
  induction h generalizing around with
  | instruction i =>
    rw [visits, List.mem_singleton] at hv
    subst hv
    exact ⟨[], _, .root List.mem_cons_self, by simp, .instruction i⟩
  | loop l members hbody hmembers ih =>
    rw [visits, List.mem_cons] at hv
    rcases hv with rfl | hv
    · exact ⟨[], _, .root List.mem_cons_self, by simp, .loop l members hbody hmembers⟩
    · rw [visitsAll_eq, List.mem_flatMap] at hv
      obtain ⟨child, hchild, hv⟩ := hv
      obtain ⟨p, hp, rfl⟩ := List.mem_map.mp hchild
      obtain ⟨path, t, hway, haround, hnode⟩ := ih p hp hv
      have hmem : p.1 ∈ s.body k l := hbody ▸ List.mem_map_of_mem hp
      refine ⟨l :: path, t, hway.cons hmem, ?_, hnode⟩
      rw [haround, List.append_assoc, List.map_cons, List.singleton_append]

mutual

/-- What is inside a visited loop is visited. -/
theorem mem_visits_of_member {around : List LoopHead} {outer : List LoopHead} {head : LoopHead}
    {members : List Nest} {child : Nest} (hchild : child ∈ members) :
    ∀ nest : Nest, ⟨outer, .loop head members⟩ ∈ nest.visits around →
      ⟨outer ++ [head], child⟩ ∈ nest.visits around
  | .instruction i => by simp [visits]
  | .loop head' members' => by
    intro h
    rw [visits, List.mem_cons] at h ⊢
    rcases h with h | h
    · cases h
      refine .inr ?_
      rw [visitsAll_eq, List.mem_flatMap]
      exact ⟨child, hchild, by cases child <;> simp [visits]⟩
    · exact .inr (mem_visitsAll_of_member hchild members' h)

theorem mem_visitsAll_of_member {around : List LoopHead} {outer : List LoopHead} {head : LoopHead}
    {members : List Nest} {child : Nest} (hchild : child ∈ members) :
    ∀ nests : List Nest, ⟨outer, .loop head members⟩ ∈ visitsAll around nests →
      ⟨outer ++ [head], child⟩ ∈ visitsAll around nests
  | [] => by simp [visitsAll]
  | nest :: nests => by
    intro h
    rw [visitsAll, List.mem_append] at h ⊢
    rcases h with h | h
    · exact .inl (mem_visits_of_member hchild nest h)
    · exact .inr (mem_visitsAll_of_member hchild nests h)

end

section Pairs

variable {roots : List (Ref m n)} {pairs : List (Ref m n × Nest)}

/-- A place in the nests of some items is the end of a way down from them. -/
theorem way_of_mem_visits (hfst : pairs.map Prod.fst = roots)
    (hpairs : ∀ p ∈ pairs, s.Unfolds k p.1 p.2) {v : Visit}
    (hv : v ∈ visitsAll [] (pairs.map Prod.snd)) :
    ∃ path t, s.Way k roots path t ∧ v.around = path.map (fun l => (k.loop l).head) ∧
      s.Unfolds k t v.node := by
  rw [visitsAll_eq, List.mem_flatMap] at hv
  obtain ⟨nest, hnest, hv⟩ := hv
  obtain ⟨p, hp, rfl⟩ := List.mem_map.mp hnest
  obtain ⟨path, t, hway, haround, hnode⟩ := (hpairs p hp).way_of_mem_visits hv
  exact ⟨path, t, hway.of_single (hfst ▸ List.mem_map_of_mem hp), haround, hnode⟩

/-- At the end of every way down there is a place. -/
theorem exists_visit_of_way (hfst : pairs.map Prod.fst = roots)
    (hpairs : ∀ p ∈ pairs, s.Unfolds k p.1 p.2) {path : List (Fin n)} {t : Ref m n}
    (hway : s.Way k roots path t) :
    ∃ v ∈ visitsAll [] (pairs.map Prod.snd), v.around = path.map (fun l => (k.loop l).head) ∧
      s.Unfolds k t v.node := by
  induction hway with
  | root hr =>
    rw [← hfst] at hr
    obtain ⟨p, hp, rfl⟩ := List.mem_map.mp hr
    refine ⟨⟨[], p.2⟩, ?_, rfl, hpairs p hp⟩
    rw [visitsAll_eq, List.mem_flatMap]
    exact ⟨p.2, List.mem_map_of_mem hp, by cases p.2 <;> simp [visits]⟩
  | @member path l r _ hmem ih =>
    obtain ⟨⟨outer, node⟩, hv, houter, hnode⟩ := ih
    cases hnode with
    | loop l members hbody hmembers =>
      rw [← hbody] at hmem
      obtain ⟨p, hp, rfl⟩ := List.mem_map.mp hmem
      refine ⟨_, mem_visitsAll_of_member (List.mem_map_of_mem hp) _ hv, ?_, hmembers p hp⟩
      rw [List.map_append]
      exact congrArg (· ++ [(k.loop l).head]) houter

end Pairs
end Nester

/-! ## What stands in a schedule -/

namespace Nest

/-- What is at the root of a nest, without its members. -/
def face : Nest → Instruction ⊕ LoopHead
  | .instruction i => .inl i
  | .loop head _ => .inr head

/-- The name of what looks like this. -/
def faceName : Instruction ⊕ LoopHead → String
  | .inl i => i.name
  | .inr head => head.name

theorem faceName_face (nest : Nest) : faceName nest.face = nest.name := by
  cases nest <;> rfl

end Nest

namespace Kernel

/-- What an item looks like in a schedule. -/
def face (k : Kernel m n) : Ref m n → Instruction ⊕ LoopHead
  | .instruction i => .inl (k.instruction i)
  | .loop l => .inr (k.loop l).head

/-- The item stands somewhere in the nests. -/
def StandsIn (k : Kernel m n) (nests : List Nest) (r : Ref m n) : Prop :=
  ∃ v ∈ Nest.visitsAll [] nests, v.node.face = k.face r

variable {k : Kernel m n}

theorem faceName_face (r : Ref m n) : Nest.faceName (k.face r) = k.name r := by
  cases r <;> rfl

theorem name_eq_of_face_eq {r t : Ref m n} (h : k.face r = k.face t) : k.name r = k.name t := by
  rw [← faceName_face, h, faceName_face]

end Kernel

namespace Nester

variable {s : Nester m n} {k : Kernel m n} {roots : List (Ref m n)} {pairs : List (Ref m n × Nest)}

theorem Unfolds.face_eq {r : Ref m n} {nest : Nest} (h : s.Unfolds k r nest) :
    nest.face = k.face r := by
  cases h with
  | instruction i => rfl
  | loop l members _ _ => rfl

/-- **What stands in a schedule** is what looks like something that is inside the items at the
top. -/
theorem standsIn_iff (hfst : pairs.map Prod.fst = roots) (hpairs : ∀ p ∈ pairs, s.Unfolds k p.1 p.2)
    {r : Ref m n} :
    k.StandsIn (pairs.map Prod.snd) r ↔
      ∃ t, (∃ root ∈ roots, s.Contains k root t) ∧ k.face t = k.face r := by
  constructor
  · rintro ⟨v, hv, hface⟩
    obtain ⟨path, t, hway, -, hnode⟩ := way_of_mem_visits hfst hpairs hv
    exact ⟨t, exists_way_iff.mp ⟨path, hway⟩, hnode.face_eq.symm.trans hface⟩
  · rintro ⟨t, hcontains, hface⟩
    obtain ⟨path, hway⟩ := exists_way_iff.mpr hcontains
    obtain ⟨v, hv, -, hnode⟩ := exists_visit_of_way hfst hpairs hway
    exact ⟨v, hv, hnode.face_eq.trans hface⟩

/-- In a closed collection of items with different names, an item stands in a schedule exactly if it
is inside the items at the top. -/
theorem standsIn_iff_contains {own : Ref m n → Prop}
    (hinj : ∀ r, own r → ∀ t, own t → k.name r = k.name t → r = t) (hs : s.Within k own)
    (hroots : ∀ r ∈ roots, own r) (hfst : pairs.map Prod.fst = roots)
    (hpairs : ∀ p ∈ pairs, s.Unfolds k p.1 p.2) {r : Ref m n} (hr : own r) :
    k.StandsIn (pairs.map Prod.snd) r ↔ ∃ root ∈ roots, s.Contains k root r := by
  rw [standsIn_iff hfst hpairs]
  constructor
  · rintro ⟨t, ⟨root, hroot, hcontains⟩, hface⟩
    have ht : own t := hcontains.within hs (hroots root hroot)
    have htr : t = r := hinj t ht r hr (Kernel.name_eq_of_face_eq hface)
    exact ⟨root, hroot, htr ▸ hcontains⟩
  · intro h
    exact ⟨r, h, rfl⟩

end Nester
end LoopNest
