import LoopNest.Schedule.Nester

/-!
# What is inside what

A loop runs at the top unless it is already there or inside something that is.  The search that
finds this out enters each loop name once, so it ends even where bodies form a cycle.

## Why entering once is enough

`Leads` is reachability through loops whose names were not entered yet.  When a loop is entered, its
name is struck out, and a way that went through it later can instead start at the last time it
leaves that loop: from one of the loop's members, which the search has just put on its list
(`Leads.avoid`).  For this, different loops must have different names.

* `Nester.placed_iff`: the search finds exactly what is there.
-/

namespace LoopNest
namespace Nester

variable {m n : Nat}

/-- Loops of different names whose bodies hold no other loops. -/
structure Separated (s : Nester m n) (k : Kernel m n) (own : Fin n → Prop) : Prop where
  closed : ∀ l, own l → ∀ e, .loop e ∈ s.body k l → own e
  inj : ∀ l e, own l → own e → (k.loop l).head.name = (k.loop e).head.name → l = e

/-- The target is the item, or inside it on a way through loops whose names are not in the list. -/
inductive Leads (s : Nester m n) (k : Kernel m n) (target : Ref m n) (visited : List String) :
    Ref m n → Prop where
  | here : Leads s k target visited target
  | member {l : Fin n} {r : Ref m n} (hfresh : (k.loop l).head.name ∉ visited)
      (hmem : r ∈ s.body k l) (h : Leads s k target visited r) : Leads s k target visited (.loop l)

namespace Leads

variable {s : Nester m n} {k : Kernel m n} {target r : Ref m n} {visited : List String}

theorem weaken {x : String} (h : Leads s k target (x :: visited) r) :
    Leads s k target visited r := by
  induction h with
  | here => exact .here
  | member hfresh hmem _ ih => exact .member (fun h => hfresh (List.mem_cons_of_mem _ h)) hmem ih

/-- A way that passes a loop can be cut down to one that starts in the loop and does not pass it. -/
theorem avoid {own : Fin n → Prop} (hs : s.Separated k own) {l : Fin n} (hl : own l)
    (h : Leads s k target visited r) (hr : ∀ e, r = .loop e → own e) :
    Leads s k target ((k.loop l).head.name :: visited) r ∨
      ∃ t ∈ s.body k l, Leads s k target ((k.loop l).head.name :: visited) t := by
  induction h with
  | here => exact .inl .here
  | @member e r hfresh hmem _ ih =>
    have he : own e := hr e rfl
    rcases ih fun x hx => hs.closed e he x (hx ▸ hmem) with ih | ih
    · by_cases hname : (k.loop e).head.name = (k.loop l).head.name
      · exact .inr ⟨r, hs.inj e l he hl hname ▸ hmem, ih⟩
      · exact .inl (.member (by simp [hname, hfresh]) hmem ih)
    · exact .inr ih

/-- Entering a loop trades it for its members. -/
theorem enter {own : Fin n → Prop} (hs : s.Separated k own) {l : Fin n}
    (hfresh : (k.loop l).head.name ∉ visited) (hne : Ref.loop l ≠ target) {pending : List (Ref m n)}
    (hpending : ∀ e, .loop e ∈ Ref.loop l :: pending → own e) :
    (∃ r ∈ Ref.loop l :: pending, Leads s k target visited r) ↔
      ∃ r ∈ (s.body k l).reverse ++ pending,
        Leads s k target ((k.loop l).head.name :: visited) r := by
  constructor
  · rintro ⟨r, hr, h⟩
    have hl : own l := hpending l List.mem_cons_self
    rcases avoid hs hl h fun e he => hpending e (he ▸ hr) with h | ⟨t, ht, h⟩
    · rcases List.mem_cons.mp hr with rfl | hr
      · -- the loop itself is struck out, so a way from it would have to stay there
        cases h with
        | here => exact absurd rfl hne
        | member hfresh _ _ => exact absurd List.mem_cons_self hfresh
      · exact ⟨r, List.mem_append_right _ hr, h⟩
    · exact ⟨t, List.mem_append_left _ (List.mem_reverse.mpr ht), h⟩
  · rintro ⟨r, hr, h⟩
    rcases List.mem_append.mp hr with hr | hr
    · exact ⟨.loop l, List.mem_cons_self, .member hfresh (List.mem_reverse.mp hr) h.weaken⟩
    · exact ⟨r, List.mem_cons_of_mem _ hr, h.weaken⟩

/-- An item from which there is no way can be left out. -/
theorem skip {t : Ref m n} (ht : ¬ Leads s k target visited t) (pending : List (Ref m n)) :
    (∃ r ∈ pending, Leads s k target visited r) ↔
      ∃ r ∈ t :: pending, Leads s k target visited r := by
  constructor
  · rintro ⟨r, hr, h⟩
    exact ⟨r, List.mem_cons_of_mem _ hr, h⟩
  · rintro ⟨r, hr, h⟩
    rcases List.mem_cons.mp hr with rfl | hr
    · exact absurd h ht
    · exact ⟨r, hr, h⟩

end Leads

theorem placedIn_iff {s : Nester m n} {k : Kernel m n} {own : Fin n → Prop} (hs : s.Separated k own)
    {target : Ref m n} {pending : List (Ref m n)} {visited : List String}
    (hpending : ∀ l, .loop l ∈ pending → own l) :
    s.placedIn k target pending visited = true ↔ ∃ r ∈ pending, s.Leads k target visited r := by
  fun_induction placedIn s k target pending visited with
  | case1 visited => simp
  | case2 visited pending =>
    simp only [true_iff]
    exact ⟨target, List.mem_cons_self, .here⟩
  | case3 visited pending i hne ih =>
    rw [ih fun l hl => hpending l (List.mem_cons_of_mem _ hl)]
    refine Leads.skip (fun h => ?_) pending
    cases h
    exact hne rfl
  | case4 visited pending l x hseen hne ih =>
    rw [ih fun l hl => hpending l (List.mem_cons_of_mem _ hl)]
    refine Leads.skip (fun h => ?_) pending
    cases h with
    | here => exact hne rfl
    | member hfresh _ _ => exact hfresh (List.contains_iff_mem.mp hseen)
  | case5 visited pending l x hfresh hne ih =>
    have hl : own l := hpending l List.mem_cons_self
    have hnext : ∀ e, Ref.loop e ∈ (s.body k l).reverse ++ pending → own e := by
      intro e he
      rcases List.mem_append.mp he with he | he
      · exact hs.closed l hl e (List.mem_reverse.mp he)
      · exact hpending e (List.mem_cons_of_mem _ he)
    rw [ih hnext, Leads.enter hs (fun h => hfresh (List.contains_iff_mem.mpr h)) hne hpending]

/-- **The search finds exactly what is there.**  A loop counts as placed where it is among the items
or inside one of them. -/
theorem placed_iff {s : Nester m n} {k : Kernel m n} {own : Fin n → Prop} (hs : s.Separated k own)
    {target : Ref m n} {items : List (Ref m n)} (hitems : ∀ l, .loop l ∈ items → own l) :
    s.placed k target items = true ↔ ∃ r ∈ items, s.Leads k target [] r := by
  rw [placed, placedIn_iff hs fun l hl => hitems l (List.mem_reverse.mp hl)]
  simp only [List.mem_reverse]

end Nester
end LoopNest
