import LoopNest.Proofs.Outcome
import LoopNest.Proofs.Schedule.Inside

/-!
# Attaching bodies

Attaching turns items into nests, and remembers the loops it has finished, by name.  `Attaches` says
what a successful run does, one case for each way an item is handled: an instruction, a loop that
was finished before, a loop that is built now.

## What a nest stands for

`Unfolds` relates an item to the nest that its body unfolds to, with no memory in between.  Where
loops with different rows have different names, a remembered nest is the nest of the very loop it is
used for, so the memory changes nothing: each item gets the nest it unfolds to.

A loop inside itself is the only thing that can go wrong.  Where bodies lead from each loop only to
loops of higher rank, the run succeeds.

* `Nester.materialize_eq_ok_iff`: the successful runs.
* `Nester.Attaches.unfolds`: each item gets its nest.
* `Nester.exists_attaches`: attaching succeeds along a rank.
-/

namespace LoopNest
namespace Nester

variable {m n : Nat}

/-! ## The successful runs -/

/-- A loop built from the nests of its members. -/
def finish (k : Kernel m n) (l : Fin n) (members : List (Ref m n × Nest)) : Finished m n :=
  ⟨(k.loop l).head.name, l, members.map Prod.fst, .loop (k.loop l).head (members.map Prod.snd)⟩

/-- The loop that was finished under a name. -/
def finished? (fin : List (Finished m n)) (x : String) : Option (Finished m n) :=
  fin.find? (·.name = x)

/-- Attaching items inside active loops, after some loops were finished, gives the pairs and more
finished loops. -/
inductive Attaches (s : Nester m n) (k : Kernel m n) :
    List String → List (Ref m n) → List (Finished m n) → List (Ref m n × Nest) →
      List (Finished m n) → Prop where
  | nil {active fin} : Attaches s k active [] fin [] fin
  | instruction {active items fin pairs fin'} (i : Fin m)
      (hrest : Attaches s k active items fin pairs fin') :
      Attaches s k active (.instruction i :: items) fin
        ((.instruction i, .instruction (k.instruction i)) :: pairs) fin'
  | seen {active items fin pairs fin'} {l : Fin n} {f : Finished m n}
      (hactive : (k.loop l).head.name ∉ active)
      (hseen : finished? fin (k.loop l).head.name = some f)
      (hrest : Attaches s k active items fin pairs fin') :
      Attaches s k active (.loop l :: items) fin ((.loop f.loop, f.nest) :: pairs) fin'
  | fresh {active items fin members fin₁ pairs fin'} {l : Fin n}
      (hactive : (k.loop l).head.name ∉ active)
      (hfresh : finished? fin (k.loop l).head.name = none)
      (hbody : Attaches s k (active ++ [(k.loop l).head.name]) (s.body k l) fin members fin₁)
      (hrest : Attaches s k active items (fin₁ ++ [finish k l members]) pairs fin') :
      Attaches s k active (.loop l :: items) fin ((.loop l, (finish k l members).nest) :: pairs)
        fin'

variable {s : Nester m n} {k : Kernel m n}

theorem Attaches.run {active : List String} {items : List (Ref m n)}
    {fin fin' : List (Finished m n)} {pairs : List (Ref m n × Nest)}
    (h : Attaches s k active items fin pairs fin') :
    (s.attach k active items).run fin = .ok pairs fin' := by
  induction h with
  | nil => rw [attach]; rfl
  | instruction i _ ih =>
    rw [attach]
    exact run_bind_eq_ok_iff.mpr ⟨_, _, ih, rfl⟩
  | seen hactive hseen _ ih =>
    rw [finished?] at hseen
    rw [attach, dif_neg (by simpa using hactive)]
    refine run_bind_eq_ok_iff.mpr ⟨_, _, rfl, ?_⟩
    rw [hseen]
    refine run_bind_eq_ok_iff.mpr ⟨_, _, rfl, ?_⟩
    exact run_bind_eq_ok_iff.mpr ⟨_, _, ih, rfl⟩
  | fresh hactive hfresh _ _ ihbody ih =>
    rw [finished?] at hfresh
    rw [attach, dif_neg (by simpa using hactive)]
    refine run_bind_eq_ok_iff.mpr ⟨_, _, rfl, ?_⟩
    rw [hfresh]
    refine run_bind_eq_ok_iff.mpr ⟨_, _, ihbody, ?_⟩
    refine run_bind_eq_ok_iff.mpr ⟨(), _, rfl, ?_⟩
    refine run_bind_eq_ok_iff.mpr ⟨_, _, rfl, ?_⟩
    exact run_bind_eq_ok_iff.mpr ⟨_, _, ih, rfl⟩

theorem attaches_of_run {active : List String} {items : List (Ref m n)} :
    ∀ {fin fin' : List (Finished m n)} {pairs : List (Ref m n × Nest)},
      (s.attach k active items).run fin = .ok pairs fin' →
        Attaches s k active items fin pairs fin' := by
  induction active, items using attach.induct s k with
  | case1 active =>
    intro fin fin' pairs h
    rw [attach] at h
    cases h
    exact .nil
  | case2 active i items ih =>
    intro fin fin' pairs h
    rw [attach] at h
    obtain ⟨rest, fin₁, hrest, h⟩ := run_bind_eq_ok_iff.mp h
    cases h
    exact .instruction i (ih hrest)
  | case3 active l items hactive =>
    intro fin fin' pairs h
    rw [attach, dif_pos hactive] at h
    cases h
  | case4 active l items hactive ih ihbody =>
    intro fin fin' pairs h
    have hnotMem : (k.loop l).head.name ∉ active := by simpa using hactive
    rw [attach, dif_neg hactive] at h
    obtain ⟨state, _, hget, h⟩ := run_bind_eq_ok_iff.mp h
    cases hget
    cases hseen : finished? fin (k.loop l).head.name with
    | some f =>
      rw [finished?] at hseen
      rw [hseen] at h
      obtain ⟨first, _, hfirst, h⟩ := run_bind_eq_ok_iff.mp h
      cases hfirst
      obtain ⟨rest, fin₁, hrest, h⟩ := run_bind_eq_ok_iff.mp h
      cases h
      exact .seen hnotMem hseen (ih hrest)
    | none =>
      rw [finished?] at hseen
      rw [hseen] at h
      obtain ⟨members, fin₁, hbody, h⟩ := run_bind_eq_ok_iff.mp h
      obtain ⟨⟨⟩, fin₂, hmodify, h⟩ := run_bind_eq_ok_iff.mp h
      cases hmodify
      obtain ⟨first, _, hfirst, h⟩ := run_bind_eq_ok_iff.mp h
      cases hfirst
      obtain ⟨rest, fin₃, hrest, h⟩ := run_bind_eq_ok_iff.mp h
      cases h
      exact .fresh hnotMem hseen (ihbody hbody) (ih hrest)

/-- The nests of some items are those that attaching finds, in place or not. -/
theorem materialize_eq_ok_iff {items : List (Ref m n)} {inPlace : Bool}
    {pairs : List (Ref m n × Nest)} :
    (s.materialize k items inPlace).2 = .ok pairs ↔ ∃ fin, Attaches s k [] items [] pairs fin := by
  rw [materialize]
  cases hrun : (s.attach k [] items).run [] with
  | ok nests fin =>
    constructor
    · intro h
      cases h
      exact ⟨fin, attaches_of_run hrun⟩
    · rintro ⟨fin', h⟩
      have hsame := hrun.symm.trans h.run
      cases hsame
      rfl
  | error e fin =>
    constructor
    · intro h
      cases h
    · rintro ⟨fin', h⟩
      have hsame := hrun.symm.trans h.run
      cases hsame

/-! ## The nests that items unfold to -/

/-- The item unfolds to the nest. -/
inductive Unfolds (s : Nester m n) (k : Kernel m n) : Ref m n → Nest → Prop where
  | instruction (i : Fin m) : Unfolds s k (.instruction i) (.instruction (k.instruction i))
  | loop (l : Fin n) (members : List (Ref m n × Nest)) (hbody : members.map Prod.fst = s.body k l)
      (h : ∀ p ∈ members, Unfolds s k p.1 p.2) :
      Unfolds s k (.loop l) (.loop (k.loop l).head (members.map Prod.snd))

/-- The finished loop is what its row unfolds to. -/
structure Finished.Sound (s : Nester m n) (k : Kernel m n) (own : Fin n → Prop)
    (f : Finished m n) : Prop where
  own : own f.loop
  name : f.name = (k.loop f.loop).head.name
  unfolds : s.Unfolds k (.loop f.loop) f.nest

theorem finished?_eq_some {fin : List (Finished m n)} {x : String} {f : Finished m n}
    (h : finished? fin x = some f) : f ∈ fin ∧ f.name = x :=
  ⟨List.mem_of_find?_eq_some h, by simpa using List.find?_some h⟩

/-- **Each item gets the nest that it unfolds to**, whether its loops are built or remembered. -/
theorem Attaches.unfolds {own : Fin n → Prop} (hs : s.Separated k own) {active : List String}
    {items : List (Ref m n)} {fin fin' : List (Finished m n)} {pairs : List (Ref m n × Nest)}
    (h : Attaches s k active items fin pairs fin') (hitems : ∀ l, .loop l ∈ items → own l)
    (hfin : ∀ f ∈ fin, f.Sound s k own) :
    pairs.map Prod.fst = items ∧ (∀ p ∈ pairs, s.Unfolds k p.1 p.2) ∧
      ∀ f ∈ fin', f.Sound s k own := by
  induction h with
  | nil => exact ⟨rfl, by simp, hfin⟩
  | @instruction _ items _ _ _ i _ ih =>
    obtain ⟨hitems', hpairs, hfin'⟩ := ih (fun l hl => hitems l (List.mem_cons_of_mem _ hl)) hfin
    refine ⟨by rw [List.map_cons, hitems'], ?_, hfin'⟩
    intro p hp
    rcases List.mem_cons.mp hp with rfl | hp
    · exact .instruction i
    · exact hpairs p hp
  | @seen _ items _ _ _ l f _ hseen _ ih =>
    obtain ⟨hmem, hname⟩ := finished?_eq_some hseen
    have hf := hfin f hmem
    have hfl : f.loop = l :=
      hs.inj _ _ hf.own (hitems l List.mem_cons_self) (hf.name.symm.trans hname)
    obtain ⟨hitems', hpairs, hfin'⟩ := ih (fun l hl => hitems l (List.mem_cons_of_mem _ hl)) hfin
    refine ⟨by rw [List.map_cons, hitems', hfl], ?_, hfin'⟩
    intro p hp
    rcases List.mem_cons.mp hp with rfl | hp
    · exact hf.unfolds
    · exact hpairs p hp
  | @fresh _ items _ members _ _ _ l _ _ _ _ ihbody ih =>
    have hl : own l := hitems l List.mem_cons_self
    obtain ⟨hbody, hmembers, hfin₁⟩ := ihbody (hs.closed l hl) hfin
    have hnest : s.Unfolds k (.loop l) (finish k l members).nest := .loop l members hbody hmembers
    obtain ⟨hitems', hpairs, hfin'⟩ := ih (fun l hl => hitems l (List.mem_cons_of_mem _ hl)) (by
      intro f hf
      rcases List.mem_append.mp hf with hf | hf
      · exact hfin₁ f hf
      · rw [List.mem_singleton] at hf
        subst hf
        exact ⟨hl, rfl, hnest⟩)
    refine ⟨by rw [List.map_cons, hitems'], ?_, hfin'⟩
    intro p hp
    rcases List.mem_cons.mp hp with rfl | hp
    · exact hnest
    · exact hpairs p hp

/-- Attaching succeeds where every body leads to loops of higher rank. -/
theorem exists_attaches {own : Fin n → Prop} (hs : s.Separated k own) {rank : Fin n → Nat}
    (hrank : ∀ l, own l → ∀ e, .loop e ∈ s.body k l → rank l < rank e) (active : List String)
    (items : List (Ref m n)) (fin : List (Finished m n)) (hitems : ∀ l, .loop l ∈ items → own l)
    (hactive : ∀ x ∈ active, ∀ l, .loop l ∈ items →
      ∃ a, own a ∧ (k.loop a).head.name = x ∧ rank a < rank l) :
    ∃ pairs fin', Attaches s k active items fin pairs fin' := by
  induction active, items using attach.induct s k generalizing fin with
  | case1 active => exact ⟨_, _, .nil⟩
  | case2 active i items ih =>
    obtain ⟨pairs, fin', h⟩ := ih fin (fun l hl => hitems l (List.mem_cons_of_mem _ hl))
      (fun x hx l hl => hactive x hx l (List.mem_cons_of_mem _ hl))
    exact ⟨_, _, .instruction i h⟩
  | case3 active l items hmem =>
    -- an active loop of this name would be this loop, and of lower rank
    obtain ⟨a, ha, hname, hlt⟩ := hactive _ (List.contains_iff_mem.mp hmem) l List.mem_cons_self
    have hal : a = l := hs.inj a l ha (hitems l List.mem_cons_self) hname
    rw [hal] at hlt
    exact absurd hlt (Nat.lt_irrefl _)
  | case4 active l items hmem ih ihbody =>
    have hnotMem : (k.loop l).head.name ∉ active := by simpa using hmem
    have hl : own l := hitems l List.mem_cons_self
    have hrest : ∀ fin, ∃ pairs fin', Attaches s k active items fin pairs fin' := fun fin =>
      ih fin (fun l hl => hitems l (List.mem_cons_of_mem _ hl))
        (fun x hx l hl => hactive x hx l (List.mem_cons_of_mem _ hl))
    cases hseen : finished? fin (k.loop l).head.name with
    | some f =>
      obtain ⟨pairs, fin', h⟩ := hrest fin
      exact ⟨_, _, .seen hnotMem hseen h⟩
    | none =>
      obtain ⟨members, fin₁, hbody⟩ := ihbody fin (hs.closed l hl) (by
        intro x hx e he
        have hle : rank l < rank e := hrank l hl e he
        rcases List.mem_append.mp hx with hx | hx
        · obtain ⟨a, ha, hname, hlt⟩ := hactive x hx l List.mem_cons_self
          exact ⟨a, ha, hname, Nat.lt_trans hlt hle⟩
        · exact ⟨l, hl, (List.mem_singleton.mp hx).symm, hle⟩)
      obtain ⟨pairs, fin', h⟩ := hrest (fin₁ ++ [finish k l members])
      exact ⟨_, _, .fresh hnotMem hseen hbody h⟩

end Nester
end LoopNest
