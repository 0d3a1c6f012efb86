import LoopNest.Proofs.Schedule.Contains
import LoopNest.Proofs.Schedule.Steps
import Mathlib.Algebra.Order.BigOperators.Group.Finset

/-!
# The search for a loop

Before a loop goes to the top, the nester looks for it among the items there and inside them.  Each
round of the search takes an item off a stack, and a loop whose name was not entered yet puts its
body onto it.  Bodies may be cyclic, and the stack may hold an item many times.  Still every row is
entered at most once, so there are at most as many rounds as items and members together, and one
more to see that nothing is left.

## What is found stays

When a loop moves into another one, the common members give way.  A loop among them is a member of
the newcomer too, and so it is still inside (`Absorbs.contains_member`).  But common members are
known by their names: where the newcomer has an instruction that is named like a loop, the loop
gives way to it and is lost (`placed_displaced`).

* `Nester.answer?`: the search, round by round.
* `Nester.Absorbs`: one loop of the kernel moves into another.
* `Nester.placed_decides`: the search ends, it finds what is there, and what is found stays.
-/

namespace LoopNest
namespace Nester

variable {m n : Nat} {k : Kernel m n} {s s' : Nester m n} {own : Fin n → Prop}

/-! ## Round by round -/

/-- The answer of the search, if it comes within so many rounds.  The stack is given from its
top. -/
def answer? (s : Nester m n) (k : Kernel m n) (target : Ref m n) : Nat → List (Ref m n) →
    List String → Option Bool
  | 0, _, _ => none
  | _ + 1, [], _ => some false
  | rounds + 1, r :: stack, visited =>
      if r = target then some true
      else
        match r with
        | .instruction _ => answer? s k target rounds stack visited
        | .loop l =>
            let x := (k.loop l).head.name
            if visited.contains x then answer? s k target rounds stack visited
            else answer? s k target rounds ((s.body k l).reverse ++ stack) (x :: visited)

/-- How many members the loops have whose names were not entered. -/
def ahead (s : Nester m n) (k : Kernel m n) (visited : List String) : Nat :=
  ∑ l, if visited.contains (k.loop l).head.name then 0 else (s.body k l).length

/-- Entering a loop takes its members from those ahead. -/
theorem length_add_ahead_le {visited : List String} {l : Fin n}
    (hfresh : ¬ visited.contains (k.loop l).head.name = true) :
    (s.body k l).length + ahead s k ((k.loop l).head.name :: visited) ≤ ahead s k visited := by
  have hbody : (s.body k l).length = ∑ e, if e = l then (s.body k e).length else 0 := by simp
  rw [hbody, ahead, ahead, ← Finset.sum_add_distrib]
  refine Finset.sum_le_sum fun e _ => ?_
  by_cases hel : e = l
  · subst hel
    rw [if_pos rfl, if_pos (by simp), if_neg hfresh, Nat.add_zero]
  · rw [if_neg hel, Nat.zero_add, List.contains_cons]
    split
    · exact Nat.zero_le _
    · next h => rw [if_neg fun hseen => h (by rw [hseen, Bool.or_true])]

/-- **The search ends** when every pending item and every member ahead has had its round. -/
theorem answer?_eq {target : Ref m n} {pending : List (Ref m n)} {visited : List String}
    {rounds : Nat} (h : pending.length + ahead s k visited < rounds) :
    answer? s k target rounds pending visited = some (s.placedIn k target pending visited) := by
  obtain ⟨rounds, rfl⟩ := Nat.exists_eq_succ_of_ne_zero (Nat.ne_zero_of_lt h)
  fun_induction placedIn s k target pending visited generalizing rounds with
  | case1 visited => rfl
  | case2 visited pending => simp [answer?]
  | case3 visited pending i hne ih =>
    rw [List.length_cons] at h
    obtain ⟨rounds, rfl⟩ := Nat.exists_eq_succ_of_ne_zero (n := rounds) (by omega)
    rw [answer?, if_neg hne]
    exact ih rounds (by omega)
  | case4 visited pending l x hseen hne ih =>
    rw [List.length_cons] at h
    obtain ⟨rounds, rfl⟩ := Nat.exists_eq_succ_of_ne_zero (n := rounds) (by omega)
    rw [answer?, if_neg hne]
    exact (if_pos hseen).trans (ih rounds (by omega))
  | case5 visited pending l x hfresh hne ih =>
    have hahead : (s.body k l).length + ahead s k (x :: visited) ≤ ahead s k visited :=
      length_add_ahead_le hfresh
    rw [List.length_cons] at h
    obtain ⟨rounds, rfl⟩ := Nat.exists_eq_succ_of_ne_zero (n := rounds) (by omega)
    rw [answer?, if_neg hne]
    exact (if_neg hfresh).trans (ih rounds (by rw [List.length_append, List.length_reverse]; omega))

/-! ## What is found stays -/

/-- The second nester comes from the first when one loop of the kernel moves into another that it
overlaps with. -/
def Absorbs (k : Kernel m n) (s s' : Nester m n) : Prop :=
  ∃ outer ∈ k.loops, ∃ inner ∈ k.loops, inner ≠ outer ∧
    shared k (s.body k inner) (s.body k outer) ≠ [] ∧
    s' = s.absorb k outer inner ((shared k (s.body k inner) (s.body k outer)).map k.name)

/-- Loops of different names, the kernel's own among them, whose bodies hold no other loops and no
instruction that is named like one of them. -/
structure Unmistakable (s : Nester m n) (k : Kernel m n) (own : Fin n → Prop) :
    Prop extends s.Separated k own where
  kernel : ∀ l ∈ k.loops, own l
  kinds : ∀ l, own l → ∀ i, .instruction i ∈ s.body k l → ∀ e, own e →
    (k.instruction i).name ≠ (k.loop e).head.name

namespace Absorbs

variable (h : Absorbs k s s') (hs : s.Unmistakable k own)
include h hs

/-- A loop that moves in is all that a body can get. -/
theorem mem_body {l : Fin n} (hl : own l) {r : Ref m n} (hr : r ∈ s'.body k l) :
    r ∈ s.body k l ∨ ∃ e ∈ k.loops, r = .loop e := by
  obtain ⟨outer, houter, inner, hinner, -, -, rfl⟩ := h
  rw [body_absorb] at hr
  split at hr
  next hname =>
    obtain rfl : l = outer := hs.inj l outer hl (hs.kernel outer houter) hname
    rcases List.mem_cons.mp ((substitute_perm _ _ _).mem_iff.mp hr) with rfl | hr
    · exact .inr ⟨inner, hinner, rfl⟩
    · exact .inl (List.mem_of_mem_filter hr)
  next => exact .inl hr

theorem unmistakable : s'.Unmistakable k own where
  closed l hl e he := by
    rcases h.mem_body hs hl he with he | ⟨d, hd, heq⟩
    · exact hs.closed l hl e he
    · cases heq
      exact hs.kernel e hd
  inj := hs.inj
  kernel := hs.kernel
  kinds l hl i hi := by
    rcases h.mem_body hs hl hi with hi | ⟨d, -, heq⟩
    · exact hs.kinds l hl i hi
    · cases heq

/-- A loop that gives way to another one is inside that. -/
theorem contains_member {d x : Fin n} (hd : own d) (hx : .loop x ∈ s.body k d) :
    s'.Contains k (.loop d) (.loop x) := by
  obtain ⟨outer, houter, inner, hinner, hne, -, rfl⟩ := h
  by_cases hname : (k.loop d).head.name = (k.loop outer).head.name
  · obtain rfl : d = outer := hs.inj d outer hd (hs.kernel outer houter) hname
    have hinner := hs.kernel inner hinner
    have hnames : (k.loop inner).head.name ≠ (k.loop d).head.name :=
      fun h => hne (hs.inj inner d hinner hd h)
    by_cases hcommon : k.name (.loop x) ∈ (shared k (s.body k inner) (s.body k d)).map k.name
    · -- the newcomer's member of this name is no instruction, so it is the loop
      have hmember : .loop x ∈ s.body k inner := by
        obtain ⟨t, ht, htx⟩ := List.mem_map.mp hcommon
        have ht := List.mem_of_mem_filter ht
        cases t with
        | instruction i => exact absurd htx (hs.kinds inner hinner i ht x (hs.closed d hd x hx))
        | loop e => exact hs.inj e x (hs.closed inner hinner e ht) (hs.closed d hd x hx) htx ▸ ht
      refine .trans (Contains.of_mem ?_) (Contains.of_mem (l := inner) ?_)
      · rw [body_absorb, if_pos rfl, (substitute_perm _ _ _).mem_iff]
        exact List.mem_cons_self
      · rwa [body_absorb, if_neg hnames]
    · refine .of_mem ?_
      rw [body_absorb, if_pos rfl, (substitute_perm _ _ _).mem_iff, List.mem_cons, List.mem_filter]
      exact .inr ⟨hx, by simpa using hcommon⟩
  · refine .of_mem ?_
    rwa [body_absorb, if_neg hname]

theorem contains {d l : Fin n} (hd : own d) (hway : s.Contains k (.loop d) (.loop l)) :
    s'.Contains k (.loop d) (.loop l) := by
  rw [contains_loop_iff] at hway
  induction hway using Relation.ReflTransGen.head_induction_on with
  | refl => exact .refl
  | head hmem _ ih => exact (h.contains_member hs hd hmem).trans (ih (hs.closed _ hd _ hmem))

end Absorbs

section Placed

variable {items : List (Ref m n)} {target : Fin n}

theorem placed_iff_contains (hs : s.Separated k own) (hitems : ∀ l, .loop l ∈ items → own l) :
    s.placed k (.loop target) items = true ↔ ∃ l, .loop l ∈ items ∧
      s.Contains k (.loop l) (.loop target) := by
  rw [placed_iff hs hitems]
  simp only [leads_iff_contains]
  constructor
  · rintro ⟨r, hr, hway⟩
    rcases hway.cases_head with rfl | ⟨_, ⟨l, rfl, -⟩, -⟩
    · exact ⟨target, hr, hway⟩
    · exact ⟨l, hr, hway⟩
  · rintro ⟨l, hl, hway⟩
    exact ⟨.loop l, hl, hway⟩

/-- The loop is placed, and all names that matter are different. -/
structure Settled (k : Kernel m n) (own : Fin n → Prop) (target : Fin n) (s : Nester m n)
    (items : List (Ref m n)) :
    Prop where
  bodies : s.Unmistakable k own
  within : ∀ l, .loop l ∈ items → own l
  placed : s.placed k (.loop target) items = true

namespace Settled

variable (h : Settled k own target s items)
include h

/-- One move keeps a loop placed. -/
theorem absorbs (hmove : Absorbs k s s') : Settled k own target s' items := by
  have hs' := hmove.unmistakable h.bodies
  refine ⟨hs', h.within, (placed_iff_contains hs'.toSeparated h.within).mpr ?_⟩
  obtain ⟨l, hl, hway⟩ := (placed_iff_contains h.bodies.toSeparated h.within).mp h.placed
  exact ⟨l, hl, hmove.contains h.bodies (h.within l hl) hway⟩

/-- One more item keeps a loop placed. -/
theorem snoc {r : Ref m n} (hr : r ∈ k.items) : Settled k own target s (items ++ [r]) := by
  have hitems : ∀ l, .loop l ∈ items ++ [r] → own l := by
    intro l hl
    rcases List.mem_append.mp hl with hl | hl
    · exact h.within l hl
    · exact h.bodies.kernel l (Kernel.loop_mem_items.mp (List.mem_singleton.mp hl ▸ hr))
  refine ⟨h.bodies, hitems, (placed_iff_contains h.bodies.toSeparated hitems).mpr ?_⟩
  obtain ⟨l, hl, hway⟩ := (placed_iff_contains h.bodies.toSeparated h.within).mp h.placed
  exact ⟨l, List.mem_append_left _ hl, hway⟩

end Settled

/-- **The search decides what is placed.**  It ends after at most as many rounds as there are items
and members, and one more.  Where different loops have different names, it finds a loop exactly if
the loop is one of the items or inside a loop among them.  If also no instruction in a body is named
like a loop, what was found is found again after any moves of loops, and so after any turns of the
nester that follow. -/
theorem placed_decides (hs : s.Separated k own) (target : Fin n)
    (hitems : ∀ l, .loop l ∈ items → own l) :
    answer? s k (.loop target) (items.length + ∑ l, (s.body k l).length + 1) items.reverse []
      = some (s.placed k (.loop target) items) ∧
    (s.placed k (.loop target) items = true ↔ .loop target ∈ items ∨
      ∃ l, .loop l ∈ items ∧ Relation.TransGen (s.Holds k) (.loop l) (.loop target)) ∧
    (s.Unmistakable k own → s.placed k (.loop target) items = true →
      (∀ s', Relation.ReflTransGen (Absorbs k) s s' → s'.placed k (.loop target) items = true) ∧
      ∀ (layer : Layer m n) (order todo : List (Ref m n)) (marks : List String) (p : Progress m n),
        (∀ r ∈ todo, r ∈ k.items) → todo.foldlM (advance k layer order) ⟨s, marks, items⟩ = .ok p →
          p.nester.placed k (.loop target) p.top = true) := by
  refine ⟨?_, ?_, fun hu h => ?_⟩
  · refine answer?_eq ?_
    rw [List.length_reverse]
    exact Nat.lt_succ_self _
  · rw [placed_iff_contains hs hitems]
    simp only [Contains, Relation.reflTransGen_iff_eq_or_transGen, and_or_left, exists_or]
    simp
  · have hsettled : Settled k own target s items := ⟨hu, hitems, h⟩
    refine ⟨fun s' hmoves => ?_, fun layer order todo marks p htodo hrun => ?_⟩
    · have hend : Settled k own target s' items := by
        induction hmoves with
        | refl => exact hsettled
        | tail _ hmove ih => exact ih.absorbs hmove
      exact hend.placed
    · refine (run_keeps (P := Settled k own target) (fun r hr _ _ hp => hp.snoc (htodo r hr))
        (fun outer houter inner hinner hne _ _ hcommon hp => hp.absorbs ?_) hsettled hrun).placed
      exact ⟨outer, Kernel.loop_mem_items.mp (htodo _ houter), inner, hinner, hne, hcommon, rfl⟩

end Placed

/-- Loops `i`, `j`, `k`, `d` and `e` with one member each, and `i` also holds `d`.  The member of
`j` is named like that of `i`, and the member of `e` like that of `d`; the member of `k` is given,
and the instruction at hand for it is named `d`. -/
def crowded (member : Ref 5 5) : Kernel 5 5 where
  instructionTable := Vector.ofFn fun i =>
    ⟨#v["a", "a", "d", "b", "b"].get i, .assign (.name "x") (.literal (.int 1)), []⟩
  loopTable := Vector.ofFn fun l =>
    let x := #v["i", "j", "k", "d", "e"].get l
    ⟨⟨x, .literal (.int 0), .literal (.int 3), defaultStep x, []⟩,
      (if x = "k" then member else .instruction l) ::
        if x = "i" then [.loop (row 3)] else []⟩
  instructions := []
  loops := List.finRange 5

/-- If `k` holds the loop `d` too, then `d` stays inside `i`, whatever moves. -/
theorem placed_decides_crowded :
    answer? ⟨.empty, 0⟩ (crowded (.loop 3)) (.loop 3) 8 [.loop 0] [] = some true ∧
      ∀ s', Relation.ReflTransGen (Absorbs (crowded (.loop 3))) ⟨.empty, 0⟩ s' →
        s'.placed (crowded (.loop 3)) (.loop 3) [.loop 0] = true := by
  have hs : Separated ⟨.empty, 0⟩ (crowded (.loop 3)) fun _ => True :=
    ⟨fun _ _ _ _ => trivial, by decide⟩
  have hkinds : ∀ l i, .instruction i ∈ body ⟨.empty, 0⟩ (crowded (.loop 3)) l → ∀ e,
      ((crowded (.loop 3)).instruction i).name ≠ ((crowded (.loop 3)).loop e).head.name := by decide
  have hitems : ∀ l : Fin 5, .loop l ∈ [(.loop 0 : Ref 5 5)] → True := fun _ _ => trivial
  obtain ⟨hanswer, hplaced, hstays⟩ := placed_decides hs 3 hitems
  have hinside := hplaced.mpr (.inr ⟨0, List.mem_cons_self, .single ⟨0, rfl, by decide⟩⟩)
  rw [hinside] at hanswer
  exact ⟨hanswer, (hstays ⟨hs, fun _ _ => trivial, fun l _ i hi e _ => hkinds l i hi e⟩ hinside).1⟩

/-- If `k` has an instruction named `d` instead, it pushes the loop `d` out of `i`, although all
loops have different names: `d` is placed when `j` has moved into `i`, and no longer when `k`
has. -/
theorem placed_displaced :
    (∀ l e, ((crowded (.instruction 2)).loop l).head.name
      = ((crowded (.instruction 2)).loop e).head.name → l = e) ∧
    (do
      let k := crowded (.instruction 2)
      let start ← Layer.analyze k >>= ofLayer k
      let p ← [0, 1].foldlM (meet k k.items 0) ⟨start, [], []⟩
      let q ← meet k k.items 0 p 2
      return [p, q].map fun p => p.nester.placed k (.loop 3) p.top) = Except.ok [true, false] :=
  ⟨by decide, by cbv⟩

end Nester
end LoopNest
