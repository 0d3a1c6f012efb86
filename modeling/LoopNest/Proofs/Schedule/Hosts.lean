import LoopNest.Proofs.Schedule.Start

/-!
# Hosts and guests in a flat kernel

The loops of a flat kernel start with instructions only.  So a guest that has moved in stays where
it is, since no other loop has it to give away.  A loop ends up in the bodies of its hosts, once in
each, and at the top if it has none.

Who takes whom in can be read off the declarations and the order.  An instruction leads from a loop
that it mentions to the first declared of the later loops that it mentions: when these two meet, it
is still in the body of the one and has not gone to another.  A loop is the guest of those from
which an instruction leads to it.

* `Nester.mem_guests_iff`: a loop moves in if there are common members when it is met.
* `Nesting.Steps.mem_guestsOf_iff`: the guests of a loop.
* `Nesting.Steps.instruction_mem_final_iff`: where an instruction ends up.
* `Nesting.Steps.count_loop_final`, `Nesting.Steps.count_loop_top`: where a loop ends up.
-/

namespace LoopNest

variable {m n : Nat}

namespace Nester

variable {s : Nester m n} {k : Kernel m n} {members : List (Ref m n)}

/-- A loop moves in if there are common members when it is met. -/
theorem mem_guests_iff {before after : List (Fin n)} {e : Fin n}
    (hnodup : (before ++ e :: after).Nodup) :
    e ∈ s.guests k members (before ++ e :: after) ↔
      shared k (s.body k e) (s.meetAll k members before) ≠ [] := by
  rw [List.nodup_append, List.nodup_cons] at hnodup
  have hbefore : e ∉ s.guests k members before := fun hmem =>
    hnodup.2.2 e (guests_sublist.subset hmem) e List.mem_cons_self rfl
  have hafter : ∀ members', e ∉ s.guests k members' after := fun members' hmem =>
    hnodup.2.1.1 (guests_sublist.subset hmem)
  rw [guests_append, guests]
  simp [hbefore, hafter]

/-- Where the loops that are met hold no loops, each guest is in the body once, besides the loops
that were there. -/
theorem Apart.count_loop_meetAll (hs : s.Apart k) {others : List (Fin n)}
    (hothers : ∀ d ∈ others, .loop d ∈ k.reachable) (hmembers : ∀ r ∈ members, r ∈ k.reachable)
    (hplain : ∀ d ∈ others, ∀ x, .loop x ∉ s.body k d) {e : Fin n} (he : .loop e ∈ k.reachable) :
    (s.meetAll k members others).count (.loop e)
      = members.count (.loop e) + (s.guests k members others).count e := by
  induction others generalizing members with
  | nil => simp [meetAll, guests]
  | cons d others ih =>
    have hd := hothers d List.mem_cons_self
    rw [meetAll_cons, ih (fun x hx => hothers x (List.mem_cons_of_mem _ hx))
      (hs.mem_reachable_of_mem_meeting hmembers hd)
      (fun x hx => hplain x (List.mem_cons_of_mem _ hx)), guests, List.count_append]
    by_cases hcommon : shared k (s.body k d) members = []
    · rw [meeting, if_pos hcommon, if_pos hcommon, List.count_nil, Nat.zero_add]
    · -- a common member is an instruction, so no loop gives way
      have hkeep : (!((shared k (s.body k d) members).map k.name).contains (k.name (.loop e)))
          = true := by
        rw [Bool.not_eq_true', ← Bool.not_eq_true, List.contains_iff_mem, List.mem_map]
        rintro ⟨t, ht, hname⟩
        have htd : t ∈ s.body k d := (List.mem_filter.mp ht).1
        have hte : t = .loop e := hs.inj t _ (hs.within d hd t htd) he hname
        exact hplain d List.mem_cons_self e (hte ▸ htd)
      rw [meeting, if_neg hcommon, if_neg hcommon, (substitute_perm _ _ _).count_eq,
        List.count_cons, List.count_filter (p := fun r => !((shared k (s.body k d) members).map
          k.name).contains (k.name r)) hkeep, List.count_singleton]
      have hsame : (Ref.loop d == (Ref.loop e : Ref m n)) = (d == e) := by
        rw [Bool.eq_iff_iff, beq_iff_eq, beq_iff_eq, Ref.loop.injEq]
      rw [hsame]
      omega

end Nester

/-- The instruction leads from one loop to another: it mentions both, and of the loops behind the
first one in the order that it mentions, the other was declared first. -/
structure Kernel.Follows (k : Kernel m n) (order : List (Ref m n)) (i : Fin m) (d e : Fin n) :
    Prop where
  source : k.mentions i d = true
  target : k.mentions i e = true
  later : Nester.comesLater order d e = true
  first : ∀ x ∈ k.loops, Nester.comesLater order d x = true → k.mentions i x = true →
    k.rank e ≤ k.rank x

instance (k : Kernel m n) (order : List (Ref m n)) (i : Fin m) (d e : Fin n) :
    Decidable (k.Follows order i d e) :=
  decidable_of_iff (k.mentions i d = true ∧ k.mentions i e = true ∧
      Nester.comesLater order d e = true ∧
      ∀ x ∈ k.loops, Nester.comesLater order d x = true → k.mentions i x = true →
        k.rank e ≤ k.rank x)
    ⟨fun h => ⟨h.1, h.2.1, h.2.2.1, h.2.2.2⟩, fun h => ⟨h.source, h.target, h.later, h.first⟩⟩

/-- Some instruction leads from one loop of the kernel to another. -/
def Kernel.Hosts (k : Kernel m n) (order : List (Ref m n)) (d e : Fin n) : Prop :=
  d ∈ k.loops ∧ e ∈ k.loops ∧ ∃ i ∈ k.instructions, k.Follows order i d e

instance (k : Kernel m n) (order : List (Ref m n)) (d e : Fin n) : Decidable (k.Hosts order d e) :=
  inferInstanceAs (Decidable (_ ∧ _ ∧ ∃ i ∈ k.instructions, _))

/-- The loop is the last one of the order that the instruction mentions. -/
def Kernel.Innermost (k : Kernel m n) (order : List (Ref m n)) (i : Fin m) (l : Fin n) : Prop :=
  k.mentions i l = true ∧
    ∀ e ∈ k.loops, Nester.comesLater order l e = true → k.mentions i e = false

/-- There is only one last loop that an instruction mentions. -/
theorem Kernel.Innermost.unique {k : Kernel m n} {start : Nester m n} {order : List (Ref m n)}
    (hready : Nester.Ready k start order) {i : Fin m} {l e : Fin n} (hl : l ∈ k.loops)
    (he : e ∈ k.loops) (h : k.Innermost order i l) (h' : k.Innermost order i e) : l = e := by
  by_contra hne
  rcases hready.comesLater_or hl (Ne.symm hne) with hlater | hlater
  · exact Bool.false_ne_true ((h.2 e he hlater).symm.trans h'.1)
  · exact Bool.false_ne_true ((h'.2 l hl hlater).symm.trans h.1)

namespace Nesting

open Kernel Nester

variable {k : Kernel m n} {N : Nesting m n}

section Bare

variable (hk : k.Distinct) (hbare : ∀ l ∈ k.loops, (k.loop l).members = []) (hN : N.Steps k)
  {i : Fin m} {l : Fin n} (hi : i ∈ k.instructions) (hl : l ∈ k.loops)

include hk hbare hN hi hl

/-- Where loops declare no members, a loop starts with the instructions that mention it. -/
theorem Steps.instruction_mem_start_iff :
    .instruction i ∈ N.start.body k l ↔ k.mentions i l = true := by
  rw [hN.start_body hk hl, instruction_mem_gathered_iff, hbare l hl]
  simp [hi]

/-- Where loops declare no members, an instruction ends up in the last loop of the order that it
mentions. -/
theorem Steps.instruction_mem_final_iff :
    .instruction i ∈ N.final.body k l ↔ k.Innermost N.order i l := by
  have hseparate := separate_of_bare hk hbare
  have hready := hN.ready hk hseparate
  rw [hN.final_body hk hseparate hl, hready.apart.instruction_mem_rewritten
    (hready.loop_mem_reachable hl), hN.instruction_mem_start_iff hk hbare hi hl, Innermost]
  refine and_congr_right fun _ => ⟨fun h e he hlater => ?_, fun h e he => ?_⟩
  · rw [← Bool.not_eq_true, ← hN.instruction_mem_start_iff hk hbare hi he]
    exact h e (mem_later.mpr ⟨he, hlater⟩)
  · obtain ⟨he, hlater⟩ := mem_later.mp he
    rw [hN.instruction_mem_start_iff hk hbare hi he, Bool.not_eq_true]
    exact h e he hlater

end Bare

section Flat

variable (hk : k.Flat) (hN : N.Steps k)

include hk hN

/-- A loop moves in when it is met if there is an instruction in its body that is in the other one,
and in none of those met before. -/
theorem Steps.mem_guestsOf_iff_of_split {d e : Fin n} (hd : d ∈ k.loops) (he : e ∈ k.loops)
    {before after : List (Fin n)} (hsplit : later k N.order d = before ++ e :: after) :
    e ∈ N.start.guestsOf k N.order d ↔ ∃ i ∈ k.instructions, k.mentions i d = true ∧
      k.mentions i e = true ∧ ∀ x ∈ before, k.mentions i x = false := by
  have hready := hN.ready hk.distinct hk.separate
  have hwithin := hready.apart.within d (hready.loop_mem_reachable hd)
  have hnodup : (before ++ e :: after).Nodup := hsplit ▸ hk.distinct.nodup_loops.filter _
  have hloops : ∀ x ∈ before, x ∈ k.loops := fun x hx =>
    (mem_later.mp (hsplit ▸ List.mem_append_left _ hx)).1
  have hbefore : ∀ x ∈ before, .loop x ∈ k.reachable := fun x hx =>
    hready.loop_mem_reachable (hloops x hx)
  -- the members that have not gone to one of those met before
  have hleft : ∀ i ∈ k.instructions, .instruction i ∈ N.start.meetAll k (N.start.body k d) before ↔
      k.mentions i d = true ∧ ∀ x ∈ before, k.mentions i x = false := by
    intro i hi
    rw [hready.apart.instruction_mem_meetAll hbefore hwithin,
      hN.instruction_mem_start_iff hk.distinct hk.bare hi hd]
    refine and_congr_right fun _ => forall₂_congr fun x hx => ?_
    rw [hN.instruction_mem_start_iff hk.distinct hk.bare hi (hloops x hx), Bool.not_eq_true]
  rw [guestsOf, hsplit, mem_guests_iff hnodup, Ne, hready.apart.shared_eq_nil_iff
    (hready.apart.mem_reachable_of_mem_meetAll hbefore hwithin) (hready.loop_mem_reachable he),
    hN.start_body_of_flat hk he]
  constructor
  · intro h
    push Not at h
    obtain ⟨t, hmem, ht⟩ := h
    obtain ⟨i, hi, rfl, hmentions⟩ := mem_mentioners_iff.mp ht
    obtain ⟨hmention, hfirst⟩ := (hleft i hi).mp hmem
    exact ⟨i, hi, hmention, hmentions, hfirst⟩
  · rintro ⟨i, hi, hmention, hmentions, hfirst⟩ hnone
    exact hnone (.instruction i) ((hleft i hi).mpr ⟨hmention, hfirst⟩)
      (mem_mentioners_iff.mpr ⟨i, hi, rfl, hmentions⟩)

/-- **The guests of a loop** are those to which an instruction leads from it. -/
theorem Steps.mem_guestsOf_iff {d e : Fin n} (hd : d ∈ k.loops) :
    e ∈ N.start.guestsOf k N.order d ↔ k.Hosts N.order d e := by
  by_cases hlater : e ∈ later k N.order d
  · obtain ⟨he, hcomes⟩ := mem_later.mp hlater
    obtain ⟨before, after, hsplit⟩ := List.append_of_mem hlater
    obtain ⟨hsmaller, hlarger⟩ := rank_of_later hk.distinct.nodup_loops hsplit
    rw [hN.mem_guestsOf_iff_of_split hk hd he hsplit, Hosts, and_iff_right hd, and_iff_right he]
    refine exists_congr fun i => and_congr_right fun _ => ⟨?_, fun hfollows => ?_⟩
    · rintro ⟨hsource, htarget, hfirst⟩
      refine ⟨hsource, htarget, hcomes, fun x hx hxlater hmentions => ?_⟩
      have hmem := mem_later.mpr ⟨hx, hxlater⟩
      rw [hsplit, List.mem_append, List.mem_cons] at hmem
      rcases hmem with hmem | rfl | hmem
      · rw [hfirst x hmem] at hmentions
        cases hmentions
      · exact Nat.le_refl _
      · exact Nat.le_of_lt (hlarger x hmem)
    · refine ⟨hfollows.source, hfollows.target, fun x hx => ?_⟩
      obtain ⟨hxloop, hxlater⟩ := mem_later.mp (hsplit ▸ List.mem_append_left _ hx)
      have hlt := hsmaller x hx
      rw [← Bool.not_eq_true]
      intro hmentions
      have hle := hfollows.first x hxloop hxlater hmentions
      omega
  · constructor
    · exact fun hmem => absurd (guests_sublist.subset hmem) hlater
    · rintro ⟨-, he, i, -, hfollows⟩
      exact absurd (mem_later.mpr ⟨he, hfollows.later⟩) hlater

/-- A loop is once in the body of each of its hosts. -/
theorem Steps.count_loop_final {d e : Fin n} (hd : d ∈ k.loops) (he : e ∈ k.loops) :
    (N.final.body k d).count (.loop e) = if k.Hosts N.order d e then 1 else 0 := by
  have hready := hN.ready hk.distinct hk.separate
  have hplain : ∀ l ∈ k.loops, ∀ x, .loop x ∉ N.start.body k l := by
    intro l hl x hx
    rw [hN.start_body_of_flat hk hl] at hx
    obtain ⟨i, -, hi, -⟩ := mem_mentioners_iff.mp hx
    cases hi
  have hcount : (N.start.rewritten k N.order d).count (.loop e)
      = (N.start.body k d).count (.loop e) + (N.start.guestsOf k N.order d).count e :=
    hready.apart.count_loop_meetAll (fun _ => Apart.reachable_of_mem_later)
      (hready.apart.within d (hready.loop_mem_reachable hd))
      (fun x hx => hplain x (mem_later.mp hx).1) (hready.loop_mem_reachable he)
  have hnodup : (N.start.guestsOf k N.order d).Nodup :=
    guests_sublist.nodup (hk.distinct.nodup_loops.filter _)
  rw [hN.final_body hk.distinct hk.separate hd, hcount, List.count_eq_zero.mpr (hplain d hd e),
    Nat.zero_add]
  by_cases hhosts : k.Hosts N.order d e
  · rw [if_pos hhosts]
    exact List.count_eq_one_of_mem hnodup ((hN.mem_guestsOf_iff hk hd).mpr hhosts)
  · rw [if_neg hhosts]
    exact List.count_eq_zero.mpr fun hmem => hhosts ((hN.mem_guestsOf_iff hk hd).mp hmem)

theorem Steps.loop_mem_final_iff {d e : Fin n} (hd : d ∈ k.loops) (he : e ∈ k.loops) :
    .loop e ∈ N.final.body k d ↔ k.Hosts N.order d e := by
  rw [← List.count_pos_iff, hN.count_loop_final hk hd he]
  split
  · simpa
  · simpa

/-- Inside the items at the top there are all loops, and nothing but the kernel's items. -/
theorem Steps.contains_loop_top_iff {l : Fin n} :
    (∃ r ∈ N.top, N.final.Contains k r (.loop l)) ↔ l ∈ k.loops := by
  constructor
  · rintro ⟨r, hr, hcontains⟩
    have hreachable := Contains.within (hN.final_apart hk.distinct hk.separate).within hcontains
      (mem_reachable_of_mem_items (hN.mem_items_of_mem_top hk.distinct hk.separate hr))
    exact loop_mem_items.mp (mem_items_of_mem_reachable hk.bare hreachable)
  · intro hl
    exact (hN.contains_top_iff hk.distinct hk.separate).mpr
      (.inr ⟨l, hl, hN.not_stranded hk.distinct hk.separate hk.innerFirst hl, .refl⟩)

/-- A loop stands at the top, once, if it has no hosts. -/
theorem Steps.count_loop_top {l : Fin n} (hl : l ∈ k.loops) :
    N.top.count (.loop l) = if ∃ d, k.Hosts N.order d l then 0 else 1 := by
  obtain ⟨marks, hpaused⟩ := hN.paused hk.distinct hk.separate
  by_cases hhosts : ∃ d, k.Hosts N.order d l
  · rw [if_pos hhosts]
    refine List.count_eq_zero.mpr fun hmem => ?_
    obtain ⟨d, hhost⟩ := hhosts
    exact (hpaused.loops l hmem).2.2 d hhost.1 ((hN.mem_guestsOf_iff hk hhost.1).mpr hhost)
  · rw [if_neg hhosts]
    refine List.count_eq_one_of_mem (hpaused.sublist.nodup (hN.ready hk.distinct hk.separate).nodup)
      ?_
    obtain ⟨r, hr, hcontains⟩ := (hN.contains_loop_top_iff hk).mpr hl
    rcases hcontains.cases_tail with heq | ⟨t, hway, x, rfl, hmem⟩
    · rw [← heq] at hr
      exact hr
    · -- the loop around it would be its host
      have hx : x ∈ k.loops := (hN.contains_loop_top_iff hk).mp ⟨r, hr, hway⟩
      exact absurd ⟨x, (hN.loop_mem_final_iff hk hx hl).mp hmem⟩ hhosts

end Flat
end Nesting
end LoopNest
