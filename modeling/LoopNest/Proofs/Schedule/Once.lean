import LoopNest.Proofs.Schedule.Copies
import LoopNest.Proofs.Schedule.Hosts

/-!
# Loops that stand once

The loops of a schedule and the items they were finished with are a forest, so a loop stands at most
once exactly if neither it nor a loop around it has two places: at the top and in some loop, in two
loops, or twice in one.

In a flat kernel the places of a loop are its hosts, or the top if it has none.  So it stands once
exactly if neither it nor a loop that leads to it has two hosts.

* `Nesting.Steps.forest`, `Nesting.Steps.forest_of_flat`: the loops of a schedule as a forest.
* `compile_copies_le_one_iff`: the loops that stand at most once.
-/

namespace LoopNest

variable {m n : Nat}

namespace Nesting

open Kernel Nester

variable {k : Kernel m n} {N : Nesting m n}

/-- The nests of any schedule unfold from the finished loops. -/
theorem Steps.forest (hN : N.Steps k) :
    Forest N.built k (N.made.map Prod.fst) N.made (N.finished.map Finished.loop) where
  fst := rfl
  unfolds := hN.unfolds
  nodup := by
    have hnames : (N.finished.map Finished.loop).map (fun l => (k.loop l).head.name)
        = N.finished.map Finished.name := by
      rw [List.map_map]
      exact List.map_congr_left fun f hf => ((hN.ledger.assembled f hf).name).symm
    exact (hnames ▸ hN.ledger.names).of_map _
  mem l := by
    rw [hN.contains_iff_mem_places]
    constructor
    · intro hl
      obtain ⟨f, hf, rfl⟩ := List.mem_map.mp hl
      exact hN.contains_iff_mem_places.mp (hN.contains_finished hf)
    · intro hl
      obtain ⟨nest, hmade⟩ := hN.made_of_mem_places hl
      cases hmade with
      | loop hf => exact List.mem_map_of_mem hf
  inj l hl e he hname :=
    hN.ledger.separated.inj l e (List.mem_map.mp hl) (List.mem_map.mp he) hname

/-- The places of the forest are the places of the schedule. -/
theorem Steps.forest_places (hN : N.Steps k) :
    N.made.map Prod.fst ++ (N.finished.map Finished.loop).flatMap (N.built.body k) = N.places := by
  rw [places, List.flatMap_map]
  exact congrArg (N.made.map Prod.fst ++ ·)
    (List.flatMap_congr fun f hf => hN.ledger.body_built hf)

/-- A name stands at most once in a schedule if no loop around a finished loop with the name has two
places. -/
theorem Steps.copies_le_one_iff (hN : N.Steps k) {x : String} :
    Nest.copies x (N.made.map Prod.snd) ≤ 1 ↔
      ∀ f ∈ N.finished, (k.loop f.loop).head.name = x →
        ∀ e, N.built.Contains k (.loop e) (.loop f.loop) → N.places.count (.loop e) ≤ 1 := by
  rw [← hN.forest_places]
  constructor
  · rintro hone f hf rfl
    exact (hN.forest.copies_le_one_iff (List.mem_map_of_mem hf)).mp hone
  · intro hplaces
    by_cases hfinished : ∃ f ∈ N.finished, (k.loop f.loop).head.name = x
    · obtain ⟨f, hf, rfl⟩ := hfinished
      exact (hN.forest.copies_le_one_iff (List.mem_map_of_mem hf)).mpr (hplaces f hf rfl)
    · -- a loop of the schedule was finished, so none has the name
      refine Nat.le_of_lt (Nat.lt_one_iff.mpr (List.countP_eq_zero.mpr fun v hv hx => hfinished ?_))
      obtain ⟨e, he, hname, -⟩ := hN.forest.row_of_mem_visits hv hx
      obtain ⟨f, hf, rfl⟩ := List.mem_map.mp he
      exact ⟨f, hf, hname⟩

section Flat

variable (hk : k.Flat) (hN : N.Steps k)

include hk hN

/-- The nests of a flat kernel unfold from the bodies after nesting. -/
theorem Steps.forest_of_flat : Forest N.final k N.top N.made k.loops where
  fst := (hN.made_unfolds hk.distinct hk.separate).1
  unfolds := (hN.made_unfolds hk.distinct hk.separate).2
  nodup := hk.distinct.nodup_loops
  mem _ := (hN.contains_loop_top_iff hk).symm
  inj l hl e he hname := by
    cases hk.distinct.inj (loop_mem_items.mpr hl) (loop_mem_items.mpr he) hname
    rfl

/-- A loop of a flat kernel has at most one place if it has at most one host. -/
theorem Steps.count_places_le_one_iff {e : Fin n} (he : e ∈ k.loops) :
    (N.top ++ k.loops.flatMap (N.final.body k)).count (.loop e) ≤ 1 ↔
      ∀ d d', k.Hosts N.order d e → k.Hosts N.order d' e → d = d' := by
  have hbodies : (k.loops.flatMap (N.final.body k)).count (.loop e)
      = (k.loops.toFinset.filter fun d => k.Hosts N.order d e).card := by
    rw [List.count_flatMap, Finset.card_filter, List.sum_toFinset _ hk.distinct.nodup_loops]
    exact congrArg List.sum (List.map_congr_left fun d hd => hN.count_loop_final hk hd he)
  have hunique : (k.loops.toFinset.filter fun d => k.Hosts N.order d e).card ≤ 1 ↔
      ∀ d d', k.Hosts N.order d e → k.Hosts N.order d' e → d = d' := by
    rw [Finset.card_le_one]
    simp only [Finset.mem_filter, List.mem_toFinset]
    constructor
    · exact fun h d d' hd hd' => h d ⟨hd.1, hd⟩ d' ⟨hd'.1, hd'⟩
    · exact fun h d hd d' hd' => h d d' hd.2 hd'.2
  rw [List.count_append, hbodies, hN.count_loop_top hk he]
  by_cases hhosts : ∃ d, k.Hosts N.order d e
  · rw [if_pos hhosts, Nat.zero_add, hunique]
  · have hnone : (k.loops.toFinset.filter fun d => k.Hosts N.order d e) = ∅ :=
      Finset.filter_eq_empty_iff.mpr fun d _ hd => hhosts ⟨d, hd⟩
    rw [if_neg hhosts, hnone, Finset.card_empty]
    exact iff_of_true (Nat.le_refl _) fun d _ hd => absurd ⟨d, hd⟩ hhosts

/-- A loop is inside another one if hosts lead from that one to it. -/
theorem Steps.contains_loop_iff_of_flat {e l : Fin n} (he : e ∈ k.loops) :
    N.final.Contains k (.loop e) (.loop l) ↔ Relation.ReflTransGen (k.Hosts N.order) e l := by
  rw [contains_loop_iff]
  constructor
  · intro h
    induction h with
    | refl => exact .refl
    | tail hway hmem ih =>
      have hd := (hN.forest_of_flat hk).inside_mem he (contains_loop_iff.mpr hway)
      exact ih.tail ((hN.loop_mem_final_iff hk hd ((hN.forest_of_flat hk).member_mem hd hmem)).mp
        hmem)
  · refine Relation.ReflTransGen.mono (fun d x hhosts => ?_) e l
    exact (hN.loop_mem_final_iff hk hhosts.1 hhosts.2.1).mpr hhosts

/-- A loop of a flat kernel stands at most once if neither it nor a loop that leads to it has two
hosts. -/
theorem Steps.copies_le_one_iff_of_flat {l : Fin n} (hl : l ∈ k.loops) :
    Nest.copies (k.loop l).head.name (N.made.map Prod.snd) ≤ 1 ↔
      ∀ e, Relation.ReflTransGen (k.Hosts N.order) e l →
        ∀ d d', k.Hosts N.order d e → k.Hosts N.order d' e → d = d' := by
  rw [(hN.forest_of_flat hk).copies_le_one_iff hl]
  refine forall_congr' fun e => ?_
  by_cases he : e ∈ k.loops
  · rw [hN.contains_loop_iff_of_flat hk he, hN.count_places_le_one_iff hk he]
  · have hzero := (hN.forest_of_flat hk).count_eq_zero he
    exact iff_of_true (fun _ => hzero ▸ Nat.zero_le _) fun _ d _ hd => absurd hd.2.1 he

end Flat
end Nesting

open Kernel

/-- **When a loop stands at most once**: if no loop around one with its name has two places, at the
top and in the finished loops.  In a flat kernel, if neither the loop nor one that leads to it is
the guest of two. -/
theorem compile_copies_le_one_iff {k k' : Kernel m n} {c : Compilation}
    (h : (Kernel.compile false).run k = .ok c k') :
    ∃ N, k.nesting = .ok N ∧ ∀ l ∈ k.loops,
      (Nest.copies (k.loop l).head.name c.nests ≤ 1 ↔
        ∀ f ∈ N.finished, (k.loop f.loop).head.name = (k.loop l).head.name →
          ∀ e, N.built.Contains k (.loop e) (.loop f.loop) → N.places.count (.loop e) ≤ 1) ∧
      (k.Flat → (Nest.copies (k.loop l).head.name c.nests ≤ 1 ↔
        ∀ e, Relation.ReflTransGen (k.Hosts N.order) e l →
          ∀ d d', k.Hosts N.order d e → k.Hosts N.order d' e → d = d')) := by
  obtain ⟨N, hnesting, hN, hnests, -⟩ := nesting_of_compile h
  refine ⟨N, hnesting, fun l hl => ?_⟩
  rw [hnests]
  exact ⟨hN.copies_le_one_iff, fun hk => hN.copies_le_one_iff_of_flat hk hl⟩

/-- Two nested loops with an instruction in each, and a loop beside them. -/
def paired : Kernel 3 3 where
  instructionTable := #v[
    ⟨"u", .assign (.name "u") (.call "+" [.name "i", .name "j"]), []⟩,
    ⟨"v", .assign (.name "v") (.name "i"), ["u"]⟩,
    ⟨"w", .assign (.name "w") (.name "t"), []⟩]
  loopTable := #v[Nester.digits "i", Nester.digits "t", Nester.digits "j"]
  instructions := List.finRange 3
  loops := List.finRange 3

/-- The outer loop is the only host of the inner one, and every loop stands once at most. -/
theorem compile_paired :
    ∃ c, (Kernel.compile false).run paired = .ok c paired ∧
      ∀ l ∈ paired.loops, Nest.copies (paired.loop l).head.name c.nests ≤ 1 := by
  obtain ⟨c, hc⟩ : ∃ c, (Kernel.compile false).run paired = .ok c paired := ⟨_, by cbv⟩
  obtain ⟨N, hN, honce⟩ := compile_copies_le_one_iff hc
  have horder : N.order = [.loop 0, .loop 1, .loop 2, .instruction 2, .instruction 0,
      .instruction 1] := eq_of_nesting (·.order) hN (by cbv)
  have hflat : paired.Flat := ⟨by rw [Distinct]; decide, by decide, by decide⟩
  have hhosts : ∀ e d d', paired.Hosts N.order d e → paired.Hosts N.order d' e → d = d' := by
    rw [horder]
    decide
  exact ⟨c, hc, fun l hl => ((honce l hl).2 hflat).mpr fun e _ => hhosts e⟩

/-- A loop that runs up to the counter of the next one, and an instruction for that one. -/
def repeated : Kernel 1 2 where
  instructionTable := #v[⟨"y", .assign (.name "y") (.name "j"), []⟩]
  loopTable := #v[⟨⟨"i", .literal (.int 0), .name "j", defaultStep "i", []⟩, []⟩, Nester.digits "j"]
  instructions := List.finRange 1
  loops := List.finRange 2

/-- The second loop is a member of the first, and runs once more behind it. -/
theorem compile_repeated :
    ∃ c, (Kernel.compile false).run repeated = .ok c repeated ∧
      Nest.names c.nests = ["i", "j", "y", "j", "y"] ∧
      Nest.copies (repeated.loop 1).head.name c.nests = 2 :=
  ⟨_, by cbv, by cbv, by cbv⟩

end LoopNest
