import LoopNest.Proofs.Schedule.Once

/-!
# Instructions inside the loops they mention

An instruction that mentions loops ends up in the last of them, wherever that one is.  So it is in
the scope of all the others exactly if these are on every way down to the last one.

In a flat kernel there is always a way from each loop that the instruction mentions down to the last
one, from host to guest.  If no loop has two hosts, it is the only way, and all loops are on it.  If
one has two hosts, there are two ways to it, and an instruction that leads there from the one host
is also found on the way through the other.  The first cannot be above the second on all such ways
and the second above the first, so some copy of an instruction is outside of a loop that it
mentions.

* `Nesting.Steps.scoped_iff`: the ways down decide, in a kernel whose loops declare no members.
* `compile_scoped_iff`: the instructions are in scope exactly if no loop has two hosts.
-/

namespace LoopNest

open Nest

variable {m n : Nat}

/-- Wherever an instruction stands, there is a loop around it for each loop that it mentions. -/
def Kernel.Scoped (k : Kernel m n) (nests : List Nest) : Prop :=
  ∀ v ∈ visitsAll [] nests, ∀ i ∈ k.instructions, v.node = .instruction (k.instruction i) →
    ∀ l ∈ k.loops, k.mentions i l = true → (k.loop l).head ∈ v.around

namespace Nesting

open Kernel Nester

variable {k : Kernel m n} {N : Nesting m n}

/-! ## Ways down -/

section Bare

variable (hk : k.Distinct) (hbare : ∀ l ∈ k.loops, (k.loop l).members = []) (hN : N.Steps k)

include hk hbare hN

/-- The items on a way down are the kernel's own. -/
theorem Steps.mem_items_of_way {path : List (Fin n)} {t : Ref m n}
    (hway : N.final.Way k N.top path t) : t ∈ k.items ∧ ∀ e ∈ path, e ∈ k.loops := by
  have hseparate := separate_of_bare hk hbare
  induction hway with
  | root hr => exact ⟨hN.mem_items_of_mem_top hk hseparate hr, by simp⟩
  | @member path l r _ hmem ih =>
    constructor
    · exact mem_items_of_mem_reachable hbare
        ((hN.final_apart hk hseparate).within l (mem_reachable_of_mem_items ih.1) _ hmem)
    · intro e he
      rcases List.mem_append.mp he with he | he
      · exact ih.2 e he
      · rw [List.mem_singleton.mp he]
        exact loop_mem_items.mp ih.1

/-- An instruction at the top mentions no loop. -/
theorem Steps.mentions_eq_false_of_mem_top {i : Fin m} (hi : .instruction i ∈ N.top) {l : Fin n}
    (hl : l ∈ k.loops) : k.mentions i l = false := by
  have hseparate := separate_of_bare hk hbare
  obtain ⟨marks, hpaused⟩ := hN.paused hk hseparate
  have hitem := instruction_mem_items.mp (hN.mem_items_of_mem_top hk hseparate hi)
  have hchain := (deps_instruction hk hN.analyzed hitem).2 ((hpaused.instructions i).mp hi).2
  rw [chain, List.filter_eq_nil_iff] at hchain
  exact Bool.not_eq_true _ ▸ hchain l hl

/-- **An instruction is in scope** if all loops that it mentions are on each way down to the last
one. -/
theorem Steps.scoped_iff :
    k.Scoped (N.made.map Prod.snd) ↔
      ∀ i ∈ k.instructions, ∀ l, k.Innermost N.order i l →
        ∀ path, N.final.Way k N.top path (.loop l) →
          ∀ e ∈ k.loops, k.mentions i e = true → e ∈ path ++ [l] := by
  obtain ⟨hfst, hunfolds⟩ := hN.made_unfolds hk (separate_of_bare hk hbare)
  constructor
  · intro hscoped i hi l hinner path hway e he hmentions
    have hl : l ∈ k.loops := loop_mem_items.mp (hN.mem_items_of_way hk hbare hway).1
    have hway := hway.member ((hN.instruction_mem_final_iff hk hbare hi hl).mpr hinner)
    obtain ⟨⟨around, node⟩, hv, haround, hnode⟩ := exists_visit_of_way hfst hunfolds hway
    cases hnode
    have hmem := hscoped _ hv i hi rfl e he hmentions
    rw [haround, List.mem_map] at hmem
    obtain ⟨x, hx, hhead⟩ := hmem
    have hxloop := (hN.mem_items_of_way hk hbare hway).2 x hx
    cases hk.inj (loop_mem_items.mpr hxloop) (loop_mem_items.mpr he) (congrArg LoopHead.name hhead)
    exact hx
  · rintro hways ⟨around, node⟩ hv i hi rfl e he hmentions
    obtain ⟨path, t, hway, haround, hnode⟩ := way_of_mem_visits hfst hunfolds hv
    -- the item that stands there is the instruction itself
    have ht : t = .instruction i := by
      refine hk.inj (hN.mem_items_of_way hk hbare hway).1 (instruction_mem_items.mpr hi) ?_
      exact name_eq_of_face_eq (hnode.face_eq.symm.trans rfl)
    subst ht
    rw [haround]
    refine List.mem_map_of_mem ?_
    cases hway with
    | root hr =>
      rw [hN.mentions_eq_false_of_mem_top hk hbare hr he] at hmentions
      cases hmentions
    | @member path l _ hway hmem =>
      have hl : l ∈ k.loops := loop_mem_items.mp (hN.mem_items_of_way hk hbare hway).1
      exact hways i hi l ((hN.instruction_mem_final_iff hk hbare hi hl).mp hmem) path hway e he
        hmentions

end Bare

/-! ## One host each -/

section Flat

variable (hk : k.Flat) (hN : N.Steps k)

include hk hN

/-- From each loop that an instruction mentions, hosts lead to the last one. -/
theorem Steps.exists_innermost {i : Fin m} (hi : i ∈ k.instructions) {e : Fin n} (he : e ∈ k.loops)
    (hmentions : k.mentions i e = true) :
    ∃ l ∈ k.loops, k.Innermost N.order i l ∧ Relation.ReflTransGen (k.Hosts N.order) e l := by
  have hready := hN.ready hk.distinct hk.separate
  -- by the number of items behind the loop
  induction hgap : N.order.length - N.order.idxOf (.loop e) using Nat.strong_induction_on
    generalizing e with
  | _ gap ih =>
    by_cases hinner : k.Innermost N.order i e
    · exact ⟨e, he, hinner, .refl⟩
    · have hlater : (k.loops.toFinset.filter fun x =>
          comesLater N.order e x = true ∧ k.mentions i x = true).Nonempty := by
        rw [Innermost] at hinner
        push Not at hinner
        obtain ⟨x, hx, hcomes, hxmentions⟩ := hinner hmentions
        exact ⟨x, by simp [hx, hcomes, hxmentions]⟩
      obtain ⟨x, hx, hmin⟩ := Finset.exists_min_image _ k.rank hlater
      simp only [Finset.mem_filter, List.mem_toFinset] at hx hmin
      obtain ⟨hx, hcomes, hxmentions⟩ := hx
      have hhosts : k.Hosts N.order e x := ⟨he, hx, i, hi, hmentions, hxmentions, hcomes,
        fun y hy hycomes hymentions => hmin y ⟨hy, hycomes, hymentions⟩⟩
      have hlt := comesLater_iff.mp hcomes
      have hlength := List.idxOf_lt_length_of_mem (hready.loop_mem_order.mpr he)
      obtain ⟨l, hl, hinner, hreach⟩ := ih _ (by omega) hx hxmentions rfl
      exact ⟨l, hl, hinner, hreach.head hhosts⟩

/-- On a way down, loops come as in the order. -/
theorem Steps.comesLater_of_way {path : List (Fin n)} {l : Fin n}
    (hway : N.final.Way k N.top path (.loop l)) : ∀ e ∈ path, comesLater N.order e l = true := by
  generalize ht : Ref.loop l = t at hway
  induction hway generalizing l with
  | root hr => simp
  | @member path d r hway hmem ih =>
    subst ht
    have hd := loop_mem_items.mp (hN.mem_items_of_way hk.distinct hk.bare hway).1
    have hl := loop_mem_items.mp (hN.mem_items_of_way hk.distinct hk.bare (hway.member hmem)).1
    obtain ⟨-, -, i, -, hfollows⟩ := (hN.loop_mem_final_iff hk hd hl).mp hmem
    intro e he
    rcases List.mem_append.mp he with he | he
    · exact comesLater_trans (ih rfl e he) hfollows.later
    · rw [List.mem_singleton.mp he]
      exact hfollows.later

/-- Ways down go on from host to guest. -/
theorem Steps.exists_way_of_hosts {path : List (Fin n)} {d l : Fin n}
    (hway : N.final.Way k N.top path (.loop d))
    (hhosts : Relation.ReflTransGen (k.Hosts N.order) d l) :
    ∃ rest, N.final.Way k N.top (path ++ rest) (.loop l) ∧
      ∀ e ∈ rest ++ [l], e = d ∨ comesLater N.order d e = true := by
  induction hhosts with
  | refl => exact ⟨[], by rwa [List.append_nil], by simp⟩
  | @tail b c _ hstep ih =>
    obtain ⟨rest, hway, hrest⟩ := ih
    refine ⟨rest ++ [b], ?_, ?_⟩
    · rw [← List.append_assoc]
      exact hway.member ((hN.loop_mem_final_iff hk hstep.1 hstep.2.1).mpr hstep)
    · intro e he
      rcases List.mem_append.mp he with he | he
      · exact hrest e he
      · obtain ⟨-, -, i, -, hfollows⟩ := hstep
        rw [List.mem_singleton.mp he]
        rcases hrest b (by simp) with rfl | hlater
        · exact .inr hfollows.later
        · exact .inr (comesLater_trans hlater hfollows.later)

/-- Where no loop has two hosts, there are no ways to a loop but through its hosts. -/
theorem Steps.mem_way_of_hosts
    (hunique : ∀ e d d', k.Hosts N.order d e → k.Hosts N.order d' e → d = d')
    {path : List (Fin n)} {e l : Fin n} (hway : N.final.Way k N.top path (.loop l))
    (hhosts : Relation.ReflTransGen (k.Hosts N.order) e l) : e ∈ path ++ [l] := by
  induction hhosts generalizing path with
  | refl => simp
  | @tail b c _ hstep ih =>
    refine List.mem_append_left _ ?_
    cases hway with
    | root hr =>
      have hcount := hN.count_loop_top hk hstep.2.1
      rw [if_pos ⟨b, hstep⟩] at hcount
      exact absurd hr (List.count_eq_zero.mp hcount)
    | @member path d _ hway hmem =>
      have hd := loop_mem_items.mp (hN.mem_items_of_way hk.distinct hk.bare hway).1
      have hhost := (hN.loop_mem_final_iff hk hd hstep.2.1).mp hmem
      cases hunique c b d hstep hhost
      exact ih hway

/-- Where the instructions are in scope, of two hosts of a loop the one is above the other. -/
theorem Steps.comesLater_of_scoped (hscoped : k.Scoped (N.made.map Prod.snd)) {d d' e : Fin n}
    (hd : k.Hosts N.order d e) (hd' : k.Hosts N.order d' e) (hne : d ≠ d') :
    comesLater N.order d d' = true := by
  obtain ⟨hdloop, he, i, hi, hfollows⟩ := hd
  -- the instruction that leads from the one host, on a way through the other
  obtain ⟨l, hl, hinner, hhosts⟩ := hN.exists_innermost hk hi he hfollows.target
  obtain ⟨path, hway⟩ := exists_way_iff.mpr ((hN.contains_loop_top_iff hk).mpr hd'.1)
  obtain ⟨rest, hrest, hlater⟩ := hN.exists_way_of_hosts hk
    (hway.member ((hN.loop_mem_final_iff hk hd'.1 he).mpr hd')) hhosts
  have hmem := (hN.scoped_iff hk.distinct hk.bare).mp hscoped i hi l hinner _ hrest d hdloop
    hfollows.source
  rw [List.append_assoc, List.mem_append] at hmem
  rcases hmem with hmem | hmem
  · rcases List.mem_append.mp hmem with hmem | hmem
    · exact hN.comesLater_of_way hk hway d hmem
    · exact absurd (List.mem_singleton.mp hmem) hne
  · have hlt := comesLater_iff.mp hfollows.later
    rcases hlater d hmem with rfl | hgt
    · omega
    · have hgt := comesLater_iff.mp hgt
      omega

/-- In a flat kernel the instructions are in scope if no loop has two hosts. -/
theorem Steps.scoped_iff_of_flat :
    k.Scoped (N.made.map Prod.snd) ↔
      ∀ e d d', k.Hosts N.order d e → k.Hosts N.order d' e → d = d' := by
  constructor
  · intro hscoped e d d' hd hd'
    by_contra hne
    have hlt := comesLater_iff.mp (hN.comesLater_of_scoped hk hscoped hd hd' hne)
    have hgt := comesLater_iff.mp (hN.comesLater_of_scoped hk hscoped hd' hd (Ne.symm hne))
    omega
  · intro hunique
    rw [hN.scoped_iff hk.distinct hk.bare]
    intro i hi l hinner path hway e he hmentions
    have hl : l ∈ k.loops := loop_mem_items.mp (hN.mem_items_of_way hk.distinct hk.bare hway).1
    obtain ⟨last, hlastLoop, hlast, hhosts⟩ := hN.exists_innermost hk hi he hmentions
    cases hinner.unique (hN.ready hk.distinct hk.separate) hl hlastLoop hlast
    exact hN.mem_way_of_hosts hk hunique hway hhosts

/-- In a flat kernel the instructions are in scope if every loop stands at most once. -/
theorem Steps.scoped_iff_copies :
    k.Scoped (N.made.map Prod.snd) ↔
      ∀ l ∈ k.loops, copies (k.loop l).head.name (N.made.map Prod.snd) ≤ 1 := by
  rw [hN.scoped_iff_of_flat hk]
  constructor
  · exact fun hunique l hl => (hN.copies_le_one_iff_of_flat hk hl).mpr fun e _ => hunique e
  · intro honce e d d' hd
    exact (hN.copies_le_one_iff_of_flat hk hd.2.1).mp (honce e hd.2.1) e .refl d d' hd

end Flat
end Nesting

open Kernel

/-- **When every instruction is in scope**, in a kernel whose loops declare no members: if the loops
that it mentions are on each way down to the last one.  In a flat kernel, if no loop is the guest of
two, so exactly if every loop stands at most once. -/
theorem compile_scoped_iff {k k' : Kernel m n} {c : Compilation} (hk : k.Distinct)
    (hbare : ∀ l ∈ k.loops, (k.loop l).members = [])
    (h : (Kernel.compile false).run k = .ok c k') :
    ∃ N, k.nesting = .ok N ∧
      (k.Scoped c.nests ↔ ∀ i ∈ k.instructions, ∀ l, k.Innermost N.order i l →
        ∀ path, N.final.Way k N.top path (.loop l) →
          ∀ e ∈ k.loops, k.mentions i e = true → e ∈ path ++ [l]) ∧
      (k.Flat → (k.Scoped c.nests ↔
        ∀ e d d', k.Hosts N.order d e → k.Hosts N.order d' e → d = d')) ∧
      (k.Flat → (k.Scoped c.nests ↔
        ∀ l ∈ k.loops, copies (k.loop l).head.name c.nests ≤ 1)) := by
  obtain ⟨N, hnesting, hN, hnests, -⟩ := nesting_of_compile h
  refine ⟨N, hnesting, ?_⟩
  rw [hnests]
  exact ⟨hN.scoped_iff hk hbare, fun hflat => hN.scoped_iff_of_flat hflat,
    fun hflat => hN.scoped_iff_copies hflat⟩

/-- A sum over the lower half of a matrix, and the rows' totals. -/
def triangle : Kernel 3 2 where
  instructionTable := #v[
    ⟨"clear", .assign (.name "s") (.literal (.int 0)), []⟩,
    ⟨"add", .form "+=" [.name "s", .form "ref" [.name "a", .name "i", .name "j"]], []⟩,
    ⟨"total", .assign (.form "ref" [.name "r", .name "i"]) (.name "s"), []⟩]
  loopTable := #v[Nester.digits "i", ⟨⟨"j", .literal (.int 0), .name "i", defaultStep "j", []⟩, []⟩]
  instructions := List.finRange 3
  loops := List.finRange 2

/-- The inner loop has one host, so the sum is inside both loops. -/
theorem compile_triangle :
    ∃ c, (Kernel.compile false).run triangle = .ok c triangle ∧ triangle.Scoped c.nests := by
  obtain ⟨c, hc⟩ : ∃ c, (Kernel.compile false).run triangle = .ok c triangle := ⟨_, by cbv⟩
  have hflat : triangle.Flat := ⟨by rw [Distinct]; decide, by decide, by decide⟩
  obtain ⟨N, hN, -, hscoped, -⟩ := compile_scoped_iff hflat.distinct hflat.bare hc
  have horder : N.order = [.instruction 0, .loop 0, .loop 1, .instruction 2, .instruction 1] :=
    eq_of_nesting (·.order) hN (by cbv)
  refine ⟨c, hc, (hscoped hflat).mpr ?_⟩
  rw [horder]
  decide

/-- Two instructions with a loop in common, which each needs in another loop. -/
def tornApart : Kernel 2 3 where
  instructionTable := #v[
    ⟨"x", .assign (.name "x") (.call "+" [.name "i", .name "k"]), []⟩,
    ⟨"y", .assign (.name "y") (.call "+" [.name "j", .name "k"]), []⟩]
  loopTable := #v[Nester.digits "i", Nester.digits "j", Nester.digits "k"]
  instructions := List.finRange 2
  loops := List.finRange 3

/-- The common loop is the guest of both others, and takes both instructions into each. -/
theorem compile_tornApart :
    ∃ c, (Kernel.compile false).run tornApart = .ok c tornApart ∧
      names c.nests = ["i", "k", "x", "y", "j", "k", "x", "y"] ∧ ¬ tornApart.Scoped c.nests := by
  obtain ⟨c, hc, hnames⟩ : ∃ c, (Kernel.compile false).run tornApart = .ok c tornApart ∧
      names c.nests = ["i", "k", "x", "y", "j", "k", "x", "y"] := ⟨_, by cbv, by cbv⟩
  have hflat : tornApart.Flat := ⟨by rw [Distinct]; decide, by decide, by decide⟩
  obtain ⟨N, hnesting, hN, hnests, -⟩ := nesting_of_compile hc
  have horder : N.order = [.loop 0, .loop 1, .loop 2, .instruction 0, .instruction 1] :=
    eq_of_nesting (·.order) hnesting (by cbv)
  refine ⟨c, hc, hnames, ?_⟩
  rw [hnests, hN.scoped_iff_of_flat hflat, horder]
  decide

end LoopNest
