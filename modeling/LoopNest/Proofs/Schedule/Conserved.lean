import LoopNest.Proofs.Kernel.Parameters
import LoopNest.Proofs.Schedule.Lockstep
import LoopNest.Proofs.Schedule.Start

/-!
# Nothing gets lost in bodies

A nester can be given any layer.  The loops of the kernel start with the lists of the layer, and the
others have the members they declare.  Written into the kernel, these lists are what the kernel is
made of (`Kernel.filled`), and what is known of all turns holds of it where names differ all over.
The nester itself sees no difference, since it never asks its kernel for the members of a loop that
it has a body for.

So every member that the lists give to a loop is still inside the loop after all turns.  In a
rewritten body an instruction is there only because a list had put it there; so the instructions of
a schedule are those that run at the top and those that the lists give to the loops of the schedule.

* `Kernel.Lists`: the lists of a layer, as a relation between items.
* `Nester.exists_outcome`: nesting succeeds, and where it ends.
* `Nester.nest_conserves`: what is inside loops, and which instructions are scheduled.
-/

namespace LoopNest

variable {m n : Nat}

namespace Kernel

variable {k : Kernel m n} {layer : Layer m n}

/-- The kernel with the members that a layer lists for its loops. -/
def filled (k : Kernel m n) (layer : Layer m n) : Kernel m n :=
  { k with loopTable := Vector.ofFn fun l => { k.loop l with members := k.listed layer l } }

/-- The first item is a loop that has the second one in its list. -/
def Lists (k : Kernel m n) (layer : Layer m n) (r t : Ref m n) : Prop :=
  ∃ l, r = .loop l ∧ t ∈ k.listed layer l

@[simp] theorem loop_filled (l : Fin n) :
    (k.filled layer).loop l = { k.loop l with members := k.listed layer l } := by
  simp [Kernel.loop, filled]

/-- What is listed for an item is reached with it. -/
theorem Lists.mem_reachable {r t : Ref m n} (h : k.Lists layer r t)
    (hr : r ∈ (k.filled layer).reachable) : t ∈ (k.filled layer).reachable := by
  obtain ⟨l, rfl, ht⟩ := h
  refine mem_reachable_of_mem_members hr ?_
  rw [members, loop_filled]
  exact ht

theorem sameInside_filled (k : Kernel m n) (layer : Layer m n) : k.SameInside (k.filled layer) where
  alike := ⟨rfl, rfl, fun _ => ⟨_, rfl⟩, fun l => ⟨_, by rw [loop_filled]⟩⟩
  members l hl := by rw [loop_filled, listed_eq, if_neg hl]

/-- Where a layer lists only what the kernel is made of, different names all over are enough. -/
theorem Separate.filled (hk : k.Separate)
    (hlists : ∀ l ∈ k.loops, ∀ r ∈ k.listed layer l, r ∈ k.reachable) :
    (k.filled layer).Separate := by
  have hsub : ∀ r ∈ (k.filled layer).reachable, r ∈ k.reachable := by
    refine reachable_subset (fun r hr t ht => ?_) fun r hr => mem_reachable_of_mem_items hr
    cases r with
    | instruction i => exact absurd ht List.not_mem_nil
    | loop l =>
      rw [members, loop_filled] at ht
      by_cases hl : l ∈ k.loops
      · exact hlists l hl t ht
      · have hmembers : k.listed layer l = k.members (.loop l) :=
          (k.listed_eq layer l).trans (if_neg hl)
        exact mem_reachable_of_mem_members hr (hmembers ▸ ht)
  have hname := (sameInside_filled k layer).alike.name
  intro r hr t ht heq
  rw [hname, hname] at heq
  exact hk r (hsub r hr) t (hsub t ht) heq

end Kernel

namespace Nester

open Kernel

variable {k : Kernel m n} {layer : Layer m n} {start : Nester m n} {order done : List (Ref m n)}

/-! ## Every list is kept -/

/-- After all turns each member of a loop is inside it, in one step or more. -/
theorem Paused.transGen_of_mem (h : Ready k start order) {p : Progress m n}
    (hp : Paused k layer start order order p) {l : Fin n} (hl : .loop l ∈ k.reachable) {t : Ref m n}
    (ht : t ∈ start.body k l) : Relation.TransGen (p.nester.Holds k) (.loop l) t := by
  by_cases hmem : .loop l ∈ order
  · have hkept : ∀ e ∈ later k order l, ∀ t ∈ start.body k e, p.nester.Contains k (.loop e) t :=
      fun e he t ht => hp.conserved _ (Apart.reachable_of_mem_later he) _ (.of_mem ht)
    obtain ⟨u, hu, hcontains⟩ := h.apart.covered (fun _ => Apart.reachable_of_mem_later)
      (h.apart.within l hl) hkept t ht
    refine Relation.TransGen.head' ⟨l, rfl, ?_⟩ hcontains
    rw [hp.finished l hmem]
    exact hu
  · refine .single ⟨l, rfl, ?_⟩
    rw [hp.untouched l hl hmem]
    exact ht

/-- An instruction is in a body after all turns only if it was there at the start. -/
theorem Paused.instruction_mem_start (h : Ready k start order) {p : Progress m n}
    (hp : Paused k layer start order order p) {l : Fin n} (hl : .loop l ∈ k.reachable) {i : Fin m}
    (hi : .instruction i ∈ p.nester.body k l) : .instruction i ∈ start.body k l := by
  by_cases hmem : .loop l ∈ order
  · rw [hp.finished l hmem] at hi
    exact ((h.apart.instruction_mem_rewritten hl).mp hi).1
  · rwa [hp.untouched l hl hmem] at hi

/-! ## Any layer -/

/-- At the start every loop has the members that are listed for it. -/
theorem exists_start (hk : k.Distinct) (hnames : (k.filled layer).Separate)
    (hcovers : layer.Covers k) : ∃ start, ofLayer k layer = .ok start ∧
      ∀ l, .loop l ∈ (k.filled layer).reachable → start.body k l = k.listed layer l := by
  have hlists : ∀ l ∈ k.loops,
      layer.members.find? (k.loop l).head.name = some (k.listed layer l) := by
    intro l hl
    obtain ⟨members, hmembers⟩ := NameMap.contains_eq_true_iff.mp (hcovers.members l hl)
    rw [listed_eq, if_pos hl, hmembers, Option.getD_some]
  refine ⟨_, ofLayer_eq_ok hlists, fun l hl => ?_⟩
  by_cases hmem : l ∈ k.loops
  · exact body_ofList hk hmem
  · rw [body_ofList_of_ne fun e he heq => hmem ?_, listed_eq, if_neg hmem]
    have halike := (sameInside_filled k layer).alike
    have hsame : (Ref.loop e : Ref m n) = Ref.loop l := by
      refine hnames _ (mem_reachable_of_mem_items (loop_mem_items.mpr he)) _ hl ?_
      rw [halike.name, halike.name]
      exact heq
    cases hsame
    exact he

/-- What nesting a layer leads to, seen in the kernel with the lists of the layer. -/
structure Outcome (k : Kernel m n) (layer : Layer m n) (order : List (Ref m n))
    (start final : Nester m n) (top : List (Ref m n)) : Prop where
  body : final.body (k.filled layer) = final.body k
  listed : ∀ l, .loop l ∈ (k.filled layer).reachable →
    start.body (k.filled layer) l = k.listed layer l
  ready : Ready (k.filled layer) start order
  paused : ∃ marks, Paused (k.filled layer) layer start order order ⟨final, marks, top⟩

/-- **Nesting any layer succeeds.** -/
theorem exists_outcome (hk : k.Distinct) (hnames : (k.filled layer).Separate)
    (hcovers : layer.Covers k) {g : Graph (Ref m n)} (hg : Graph.build k layer = .ok g) :
    ∃ start top final, ofLayer k layer = .ok start ∧
      start.nest k layer g.drain.1 = .ok (top, final) ∧
      Outcome k layer g.drain.1 start final top := by
  have hsame := sameInside_filled k layer
  obtain ⟨start, hstart, hlisted⟩ := exists_start hk hnames hcovers
  have howns := owns_ofLayer hstart
  rw [← howns.body_eq hsame] at hlisted
  have hready : Ready (k.filled layer) start g.drain.1 := by
    refine ⟨hsame.alike.distinct hk, ⟨hnames, fun l hl r hr => ?_⟩, (Graph.drain_order hg).1⟩
    have hlists : k.Lists layer (.loop l) r := ⟨l, rfl, hlisted l hl ▸ hr⟩
    exact hlists.mem_reachable hl
  have hdeps : ∀ r ∈ (k.filled layer).items,
      layer.deps.contains ((k.filled layer).name r) = true := by
    intro r hr
    rw [hsame.alike.name]
    exact hcovers.deps r hr
  obtain ⟨p, hrun⟩ := Paused.exists_run hready hdeps (List.nil_append _).symm paused_start
  have hnest : start.nest k layer g.drain.1 = .ok (p.top, p.nester) := by
    rw [← nest_congr hsame howns, nest, hrun]
    rfl
  have hpaused := Paused.run hready (List.nil_append _).symm paused_start hrun
  exact ⟨start, p.top, p.nester, hstart, hnest, (owns_nest howns hnest).body_eq hsame, hlisted,
    hready, p.overlapping, hpaused⟩

namespace Outcome

variable {final : Nester m n} {top : List (Ref m n)} (h : Outcome k layer order start final top)

include h

theorem holds_eq : final.Holds (k.filled layer) = final.Holds k := by
  funext r t
  rw [Holds, Holds, h.body]

/-- What is listed for a loop is inside it. -/
theorem transGen_of_lists {r t : Ref m n} (hr : r ∈ (k.filled layer).reachable)
    (hlists : k.Lists layer r t) : Relation.TransGen (final.Holds k) r t := by
  obtain ⟨l, rfl, ht⟩ := hlists
  obtain ⟨marks, hpaused⟩ := h.paused
  rw [← h.holds_eq]
  refine hpaused.transGen_of_mem h.ready hr ?_
  rw [h.listed l hr]
  exact ht

/-- What the lists lead to from a loop is inside it. -/
theorem transGen_of_transGen_lists {r t : Ref m n} (hr : r ∈ (k.filled layer).reachable)
    (hway : Relation.TransGen (k.Lists layer) r t) :
    t ∈ (k.filled layer).reachable ∧ Relation.TransGen (final.Holds k) r t := by
  induction hway with
  | single hstep => exact ⟨hstep.mem_reachable hr, h.transGen_of_lists hr hstep⟩
  | tail _ hstep ih =>
    obtain ⟨hreach, hway⟩ := ih
    exact ⟨hstep.mem_reachable hreach, hway.trans (h.transGen_of_lists hreach hstep)⟩

theorem within : final.Within k (· ∈ (k.filled layer).reachable) := by
  obtain ⟨marks, hpaused⟩ := h.paused
  intro l hl r hr
  rw [← h.body] at hr
  exact (hpaused.apart h.ready fun _ => id).within l hl r hr

theorem mem_reachable_of_mem_top : ∀ r ∈ top, r ∈ (k.filled layer).reachable := by
  obtain ⟨marks, hpaused⟩ := h.paused
  exact fun r hr => h.ready.mem_reachable (hpaused.mem_done_of_mem_top hr)

theorem name_inj : ∀ r, r ∈ (k.filled layer).reachable → ∀ t, t ∈ (k.filled layer).reachable →
    k.name r = k.name t → r = t := by
  intro r hr t ht heq
  have hname := (sameInside_filled k layer).alike.name
  refine h.ready.apart.separate r hr t ht ?_
  rw [hname, hname]
  exact heq

/-- An instruction is inside the top if it stands there itself, for want of dependencies, or if it
is listed for a loop inside the top. -/
theorem contains_instruction_iff {i : Fin m} :
    (∃ root ∈ top, final.Contains k root (.instruction i)) ↔
      (i ∈ k.instructions ∧ k.needs layer (.instruction i) = []) ∨
        ∃ l, .loop l ∈ (k.filled layer).reachable ∧
          (∃ root ∈ top, final.Contains k root (.loop l)) ∧ .instruction i ∈ k.listed layer l := by
  obtain ⟨marks, hpaused⟩ := h.paused
  have htop : .instruction i ∈ top ↔
      i ∈ k.instructions ∧ k.needs layer (.instruction i) = [] := by
    have hneeds := (sameInside_filled k layer).alike.needs layer
    rw [← hneeds, hpaused.instructions, h.ready.perm.mem_iff]
    exact and_congr_left' instruction_mem_items
  constructor
  · rintro ⟨root, hroot, hcontains⟩
    rcases Relation.ReflTransGen.cases_tail hcontains with heq | ⟨_, hway, l, rfl, hi⟩
    · exact .inl (htop.mp (heq ▸ hroot))
    · have hl : .loop l ∈ (k.filled layer).reachable :=
        Contains.within h.within hway (h.mem_reachable_of_mem_top root hroot)
      refine .inr ⟨l, hl, ⟨root, hroot, hway⟩, ?_⟩
      rw [← h.listed l hl]
      refine hpaused.instruction_mem_start h.ready hl ?_
      rw [h.body]
      exact hi
  · rintro (hfree | ⟨l, hl, ⟨root, hroot, hway⟩, hi⟩)
    · exact ⟨_, htop.mpr hfree, .refl⟩
    · exact ⟨root, hroot, hway.trans (h.transGen_of_lists hl ⟨l, rfl, hi⟩).to_reflTransGen⟩

/-- What stands in the schedule is what is inside the top. -/
theorem standsIn_iff {inPlace : Bool} {pairs : List (Ref m n × Nest)}
    (hmade : (final.materialize k top inPlace).2 = .ok pairs) {r : Ref m n}
    (hr : r ∈ (k.filled layer).reachable) :
    k.StandsIn (pairs.map Prod.snd) r ↔ ∃ root ∈ top, final.Contains k root r := by
  obtain ⟨fin, hattach⟩ := materialize_eq_ok_iff.mp hmade
  have hseparated : final.Separated k fun l => .loop l ∈ (k.filled layer).reachable := by
    refine ⟨fun l hl e he => h.within l hl _ he, fun l e hl he heq => ?_⟩
    cases h.name_inj (.loop l) hl (.loop e) he heq
    rfl
  obtain ⟨hfst, hunfolds, -⟩ :=
    hattach.unfolds hseparated (fun l hl => h.mem_reachable_of_mem_top _ hl) (by simp)
  exact standsIn_iff_contains h.name_inj h.within h.mem_reachable_of_mem_top hfst hunfolds hr

end Outcome

/-- **Nothing gets lost in bodies.**  What the lists of a layer put inside a loop is inside it after
nesting, and the instructions of a schedule are those that run at the top and those that the lists
give to the loops of the schedule. -/
theorem nest_conserves (hk : k.Distinct) (hnames : (k.filled layer).Separate)
    (hcovers : layer.Covers k) {g : Graph (Ref m n)} (hg : Graph.build k layer = .ok g) :
    ∃ start top final, ofLayer k layer = .ok start ∧
      start.nest k layer g.drain.1 = .ok (top, final) ∧
      (∀ l r, .loop l ∈ (k.filled layer).reachable →
        Relation.TransGen (k.Lists layer) (.loop l) r →
          Relation.TransGen (final.Holds k) (.loop l) r) ∧
      ∀ inPlace pairs, (final.materialize k top inPlace).2 = .ok pairs →
        ∀ i, .instruction i ∈ (k.filled layer).reachable →
          (k.StandsIn (pairs.map Prod.snd) (.instruction i) ↔
            (i ∈ k.instructions ∧ k.needs layer (.instruction i) = []) ∨
              ∃ l, .loop l ∈ (k.filled layer).reachable ∧
                k.StandsIn (pairs.map Prod.snd) (.loop l) ∧ .instruction i ∈ k.listed layer l) := by
  obtain ⟨start, top, final, hstart, hnest, h⟩ := exists_outcome hk hnames hcovers hg
  refine ⟨start, top, final, hstart, hnest, fun l r hl hway => ?_,
    fun inPlace pairs hmade i hi => ?_⟩
  · exact (h.transGen_of_transGen_lists hl hway).2
  · rw [h.standsIn_iff hmade hi, h.contains_instruction_iff]
    refine or_congr_right (exists_congr fun l => and_congr_right fun hl => and_congr_left' ?_)
    rw [h.standsIn_iff hmade hl]

/-- Two loops that an instruction mentions, and a loop that the outer one declares as a member, with
an instruction of its own. -/
def lodging : Kernel 2 3 where
  instructionTable := #v[
    ⟨"a", .assign (.name "x") (.call "+" [.name "i", .name "j"]), []⟩,
    ⟨"b", .assign (.name "y") (.name "z"), []⟩]
  loopTable := #v[
    ⟨⟨"i", .literal (.int 0), .literal (.int 9), defaultStep "i", []⟩, [.loop (row 2)]⟩,
    ⟨⟨"j", .literal (.int 0), .literal (.int 9), defaultStep "j", []⟩, []⟩,
    ⟨⟨"t", .literal (.int 0), .literal (.int 9), defaultStep "t", []⟩, [.instruction (row 1)]⟩]
  instructions := [row 0]
  loops := [row 0, row 1]

/-- In the body of the first loop its instruction gives way to the second loop.  It is still inside
the first loop, with the one that a member of the loop has, and stands in the schedule. -/
theorem nest_conserves_lodging :
    ∃ layer g start top final pairs, Layer.analyze lodging = .ok layer ∧
      Graph.build lodging layer = .ok g ∧ ofLayer lodging layer = .ok start ∧
      start.nest lodging layer g.drain.1 = .ok (top, final) ∧
      (final.materialize lodging top false).2 = .ok pairs ∧
      Relation.TransGen (final.Holds lodging) (.loop 0) (.instruction 0) ∧
      Relation.TransGen (final.Holds lodging) (.loop 0) (.instruction 1) ∧
      lodging.StandsIn (pairs.map Prod.snd) (.instruction 0) := by
  have hdistinct : lodging.Distinct := by
    rw [Kernel.Distinct]
    decide
  have hreach : lodging.reachable = [.instruction 0, .loop 0,
      .loop 2, .instruction 1, .loop 1] := by cbv
  have hseparate : lodging.Separate := by
    rw [Kernel.Separate, hreach]
    decide
  obtain ⟨layer, g, start, top, final, pairs, hlayer, hg, hstart, hnest, hmade, houter, hinner,
      hstands⟩ :
      ∃ layer g start top final pairs, Layer.analyze lodging = .ok layer ∧
        Graph.build lodging layer = .ok g ∧ ofLayer lodging layer = .ok start ∧
        start.nest lodging layer g.drain.1 = .ok (top, final) ∧
        (final.materialize lodging top false).2 = .ok pairs ∧
        lodging.listed layer 0 = [.loop 2, .instruction 0] ∧
        lodging.listed layer 2 = [.instruction 1] ∧
        lodging.StandsIn (pairs.map Prod.snd) (.loop 0) :=
    ⟨_, _, _, _, _, _, by cbv, by cbv, by cbv, by cbv, by cbv, by cbv, by cbv,
      ⟨_, List.mem_cons_self, rfl⟩⟩
  have hlists : ∀ l ∈ lodging.loops, ∀ r ∈ lodging.listed layer l, r ∈ lodging.reachable := by
    intro l hl r hr
    obtain ⟨gained, heq, hgained⟩ := Layer.listed_analyze hdistinct hlayer hl
    rw [heq] at hr
    rcases List.mem_append.mp hr with hr | hr
    · exact mem_reachable_of_mem_members (mem_reachable_of_mem_items (loop_mem_items.mpr hl)) hr
    · exact mem_reachable_of_mem_items (hgained r hr)
  obtain ⟨start', top', final', hstart', hnest', hways, hschedule⟩ := nest_conserves hdistinct
    (hseparate.filled hlists) (Layer.analyze_eq_ok hlayer).2 hg
  cases hstart.symm.trans hstart'
  cases hnest.symm.trans hnest'
  have hloop : (0 : Fin 3) ∈ lodging.loops := by decide
  have hroot : .loop 0 ∈ (lodging.filled layer).reachable :=
    mem_reachable_of_mem_items (loop_mem_items.mpr hloop)
  have hfirst : lodging.Lists layer (.loop 0) (.instruction 0) :=
    ⟨_, rfl, by rw [houter]; simp⟩
  have hmember : lodging.Lists layer (.loop 0) (.loop 2) :=
    ⟨_, rfl, by rw [houter]; simp⟩
  have hsecond : lodging.Lists layer (.loop 2) (.instruction 1) :=
    ⟨_, rfl, by rw [hinner]; simp⟩
  refine ⟨layer, g, start, top, final, pairs, hlayer, hg, hstart, hnest, hmade,
    hways _ _ hroot (.single hfirst), hways _ _ hroot (.tail (.single hmember) hsecond), ?_⟩
  refine (hschedule false pairs hmade _ (hfirst.mem_reachable hroot)).mpr
    (.inr ⟨_, hroot, hstands, ?_⟩)
  rw [houter]
  simp

end Nester
end LoopNest
