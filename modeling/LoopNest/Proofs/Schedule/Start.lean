import LoopNest.Proofs.Schedule.Finished
import LoopNest.Proofs.Schedule.Gathered

/-!
# From a kernel to its rewritten bodies

What is known of all turns holds of every schedule of a kernel with different names all over: the
top and the bodies after nesting are known from the bodies at the start and the order.

* `Nesting.Steps.start_body`: the bodies at the start.
* `Nesting.Steps.paused`: the state after all turns.
* `Nesting.Steps.standsIn_iff`: what stands in the schedule.
* `Nesting.Steps.not_stranded`: where no loop is stranded.
-/

namespace LoopNest

variable {m n : Nat} {k : Kernel m n}

namespace Nesting

open Kernel Nester

variable {N : Nesting m n}

theorem Steps.start_eq (hk : k.Distinct) (hN : N.Steps k) : N.start = gathering k :=
  Except.ok.inj (hN.started.symm.trans (ofLayer_eq_gathering hk hN.analyzed))

/-- At the start the kernel's own loops have what was gathered for them. -/
theorem Steps.start_body (hk : k.Distinct) (hN : N.Steps k) {l : Fin n} (hl : l ∈ k.loops) :
    N.start.body k l = k.gathered l := by
  rw [hN.start_eq hk, body_gathering hk hl]

theorem Steps.start_body_of_flat (hk : k.Flat) (hN : N.Steps k) {l : Fin n} (hl : l ∈ k.loops) :
    N.start.body k l = k.mentioners l :=
  (hN.start_body hk.distinct hl).trans (hk.gathered_eq hl)

/-- Nesting starts with bodies that hold what the kernel is made of, and an order of the items. -/
theorem Steps.ready (hk : k.Distinct) (hseparate : k.Separate) (hN : N.Steps k) :
    Ready k N.start N.order := by
  obtain ⟨g, hg, horder⟩ := hN.ordered
  rw [hN.start_eq hk, ← horder]
  exact ready_gathering hk hseparate (Graph.drain_order hg).1

/-- **The state after all turns.** -/
theorem Steps.paused (hk : k.Distinct) (hseparate : k.Separate) (hN : N.Steps k) :
    ∃ marks, Paused k N.layer N.start N.order N.order ⟨N.final, marks, N.top⟩ := by
  obtain ⟨p, hrun, htop⟩ := bind_eq_ok_iff.mp hN.nested
  obtain ⟨htop, hfinal⟩ := Prod.mk.inj (Except.ok.inj htop)
  refine ⟨p.overlapping, ?_⟩
  rw [← htop, ← hfinal]
  exact Paused.run (hN.ready hk hseparate) (List.nil_append _).symm paused_start hrun

section Separate

variable (hk : k.Distinct) (hseparate : k.Separate) (hN : N.Steps k)

include hk hseparate hN

/-- After nesting the kernel's own loops have their rewritten bodies. -/
theorem Steps.final_body {l : Fin n} (hl : l ∈ k.loops) :
    N.final.body k l = N.start.rewritten k N.order l := by
  obtain ⟨marks, hpaused⟩ := hN.paused hk hseparate
  exact hpaused.finished l ((hN.ready hk hseparate).loop_mem_order.mpr hl)

/-- After nesting a loop declared inline has the body it started with. -/
theorem Steps.final_body_inline {l : Fin n} (hl : .loop l ∈ k.reachable) (hinline : l ∉ k.loops) :
    N.final.body k l = N.start.body k l := by
  obtain ⟨marks, hpaused⟩ := hN.paused hk hseparate
  exact hpaused.untouched l hl (mt (hN.ready hk hseparate).loop_mem_order.mp hinline)

theorem Steps.final_apart : N.final.Apart k := by
  obtain ⟨marks, hpaused⟩ := hN.paused hk hseparate
  exact hpaused.apart (hN.ready hk hseparate) fun _ => id

theorem Steps.mem_items_of_mem_top {r : Ref m n} (hr : r ∈ N.top) : r ∈ k.items := by
  obtain ⟨marks, hpaused⟩ := hN.paused hk hseparate
  exact (hN.ready hk hseparate).perm.mem_iff.mp (hpaused.mem_done_of_mem_top hr)

/-- The nests are those that the items at the top unfold to. -/
theorem Steps.made_unfolds :
    N.made.map Prod.fst = N.top ∧ ∀ p ∈ N.made, N.final.Unfolds k p.1 p.2 := by
  obtain ⟨hfst, hunfolds, -⟩ := hN.attached.unfolds (hN.final_apart hk hseparate).separated
    (fun l hl => mem_reachable_of_mem_items (hN.mem_items_of_mem_top hk hseparate hl)) (by simp)
  exact ⟨hfst, hunfolds⟩

/-- What is inside the items at the top is at the top as an instruction, or was inside a loop that
is not stranded when nesting started. -/
theorem Steps.contains_top_iff {t : Ref m n} :
    (∃ r ∈ N.top, N.final.Contains k r t) ↔
      (∃ i ∈ k.instructions, t = .instruction i ∧ k.needs N.layer t = []) ∨
        ∃ e ∈ k.loops, ¬ N.start.Stranded k N.order e ∧ N.start.Contains k (.loop e) t := by
  have hready := hN.ready hk hseparate
  obtain ⟨marks, hpaused⟩ := hN.paused hk hseparate
  constructor
  · rintro ⟨r, hr, hcontains⟩
    have hreachable : r ∈ k.reachable := hready.mem_reachable (hpaused.mem_done_of_mem_top hr)
    induction hcontains with
    | refl =>
      cases r with
      | instruction i =>
        obtain ⟨hmem, hneeds⟩ := (hpaused.instructions i).mp hr
        exact .inl ⟨i, instruction_mem_items.mp (hready.perm.mem_iff.mp hmem), rfl, hneeds⟩
      | loop l =>
        obtain ⟨hmem, hnot, -⟩ := hpaused.loops l hr
        exact .inr ⟨l, hready.loop_mem_order.mp hmem, hnot, .refl⟩
    | @tail b t hway hstep ih =>
      obtain ⟨x, rfl, hmem⟩ := hstep
      rcases ih with ⟨i, -, heq, -⟩ | ⟨e, he, hnot, hcontains⟩
      · cases heq
      · have hx : .loop x ∈ k.reachable :=
          Contains.within (hN.final_apart hk hseparate).within hway hreachable
        by_cases hxloop : x ∈ k.loops
        · rw [hN.final_body hk hseparate hxloop] at hmem
          rcases hready.apart.mem_rewritten hx hmem with hmem | ⟨g, hg, rfl⟩
          · exact .inr ⟨e, he, hnot, hcontains.tail ⟨x, rfl, hmem⟩⟩
          · -- a guest is not stranded
            refine .inr ⟨g, (later_of_mem_guestsOf hg).1, ?_, .refl⟩
            rintro ⟨-, hguest, -⟩
            exact hguest x hxloop hg
        · rw [hN.final_body_inline hk hseparate hx hxloop] at hmem
          exact .inr ⟨e, he, hnot, hcontains.tail ⟨x, rfl, hmem⟩⟩
  · rintro (⟨i, hi, rfl, hneeds⟩ | ⟨e, he, hnot, hcontains⟩)
    · have hmem : .instruction i ∈ N.order :=
        hready.perm.mem_iff.mpr (instruction_mem_items.mpr hi)
      exact ⟨.instruction i, (hpaused.instructions i).mpr ⟨hmem, hneeds⟩, .refl⟩
    · obtain ⟨r, hr, hkept⟩ := hpaused.kept e (hready.loop_mem_order.mpr he) hnot
      exact ⟨r, hr, hkept.trans
        (hpaused.conserved _ (hready.loop_mem_reachable he) _ hcontains)⟩

/-- **What stands in the schedule** of a kernel with different names all over: the instructions
without dependencies, and what was inside a loop that is not stranded. -/
theorem Steps.standsIn_iff {t : Ref m n} (ht : t ∈ k.reachable) :
    k.StandsIn (N.made.map Prod.snd) t ↔
      (∃ i ∈ k.instructions, t = .instruction i ∧ k.needs N.layer t = []) ∨
        ∃ e ∈ k.loops, ¬ N.start.Stranded k N.order e ∧ N.start.Contains k (.loop e) t := by
  obtain ⟨hfst, hunfolds⟩ := hN.made_unfolds hk hseparate
  have hroots : ∀ r ∈ N.top, r ∈ k.reachable := fun r hr =>
    mem_reachable_of_mem_items (hN.mem_items_of_mem_top hk hseparate hr)
  rw [standsIn_iff_contains hseparate (hN.final_apart hk hseparate).within hroots hfst hunfolds ht,
    hN.contains_top_iff hk hseparate]

end Separate

/-! ## Nothing stranded -/

/-- Where loops hold only loops that were declared before them, no loop is stranded. -/
theorem Steps.not_stranded (hk : k.Distinct) (hseparate : k.Separate) (hN : N.Steps k)
    (hinner : k.InnerFirst) {l : Fin n} (hl : l ∈ k.loops) : ¬ N.start.Stranded k N.order l := by
  intro hstranded
  obtain ⟨d, -, g, hg, hlt, hmem⟩ :=
    (hN.ready hk hseparate).apart.exists_guest_of_stranded hk.nodup_loops hl hstranded
  rw [hN.start_body hk hl] at hmem
  exact of_rank_lt hinner (later_of_mem_guestsOf hg).1 hlt hmem

end Nesting
end LoopNest
