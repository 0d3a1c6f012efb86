import LoopNest.Proofs.Kernel.Alike
import LoopNest.Proofs.Kernel.Analysis
import LoopNest.Proofs.Schedule.Meeting

/-!
# Forward nests

Nesting fails where it looks for a list or a position that is not there, and attaching where loops
nest inside each other.  Neither happens if the bodies are forward from the start: every loop in the
body of a kernel loop is a kernel loop that comes later in the order.

A meeting ends in one of three ways (`Meets`), and only one of them changes a body: the loop whose
turn it is takes in another one that comes later.  The others of its members stay or go.  So bodies
that are forward stay forward, meeting by meeting, although the common members that give way may be
loops themselves.  In the end every way through bodies goes up in the order, and attaching follows
it.

* `Nester.exists_meets`: no meeting fails.
* `Nester.Forward.meets`: one meeting keeps bodies forward.
* `Nester.exists_materialize_of_forward`: nesting and attaching succeed.
-/

namespace LoopNest

/-- A fold whose steps succeed and keep an invariant of what was done so far succeeds and keeps
it. -/
theorem exists_foldlM_of_prefix {ε σ α : Type} {f : σ → α → Except ε σ} {P : List α → σ → Prop}
    {l : List α} (hstep : ∀ before a after, l = before ++ a :: after → ∀ s, P before s →
      ∃ t, f s a = .ok t ∧ P (before ++ [a]) t) {s : σ} (hs : P [] s) :
    ∃ t, l.foldlM f s = .ok t ∧ P l t := by
  suffices h : ∀ rest before s, l = before ++ rest → P before s →
      ∃ t, rest.foldlM f s = .ok t ∧ P l t from h l [] s rfl hs
  intro rest
  induction rest with
  | nil =>
    intro before s hsplit hs
    rw [hsplit, List.append_nil]
    exact ⟨s, rfl, hs⟩
  | cons a rest ih =>
    intro before s hsplit hs
    obtain ⟨u, hu, hPu⟩ := hstep before a rest hsplit s hs
    obtain ⟨t, ht, hPt⟩ := ih (before ++ [a]) u (by rw [hsplit]; simp) hPu
    exact ⟨t, by rw [List.foldlM_cons, hu, bind_ok, ht], hPt⟩

theorem exists_foldlM {ε σ α : Type} {f : σ → α → Except ε σ} {P : σ → Prop} {l : List α}
    (hstep : ∀ a ∈ l, ∀ s, P s → ∃ t, f s a = .ok t ∧ P t) {s : σ} (hs : P s) :
    ∃ t, l.foldlM f s = .ok t ∧ P t :=
  exists_foldlM_of_prefix (P := fun _ => P)
    (fun _ a _ hsplit s hs => hstep a (by simp [hsplit]) s hs) hs

namespace Nester

open Kernel

variable {m n : Nat} {k : Kernel m n} {layer : Layer m n} {order : List (Ref m n)}

/-! ## What a meeting does -/

/-- How a meeting ends: nothing happens, both loops are marked, or the later loop moves into the one
whose turn it is. -/
inductive Meets (k : Kernel m n) (order : List (Ref m n)) (outer other : Fin n) (p : Progress m n) :
    Progress m n → Prop where
  | apart (h : other = outer ∨ shared k (p.nester.body k other) (p.nester.body k outer) = []) :
      Meets k order outer other p p
  | marked (hcommon : shared k (p.nester.body k other) (p.nester.body k outer) ≠ [])
      (hearlier : comesLater order other outer = true) :
      Meets k order outer other p
        { p with overlapping := p.overlapping ++
          [(k.loop other).head.name, (k.loop outer).head.name] }
  | absorbed {common : List String}
      (hnames : common = (shared k (p.nester.body k other) (p.nester.body k outer)).map k.name)
      (hcommon : common ≠ []) (hlater : comesLater order outer other = true) :
      Meets k order outer other p
        { nester := p.nester.absorb k outer other common
          overlapping := p.overlapping ++ [(k.loop other).head.name, (k.loop outer).head.name]
          top := if (p.nester.absorb k outer other common).placed k (.loop outer) p.top
            then p.top else p.top ++ [.loop outer] }

/-- In an order of the items both loops of a meeting have a place, so no meeting fails. -/
theorem exists_meets (hk : k.Distinct) (hperm : order.Perm k.items) {outer other : Fin n}
    (houter : outer ∈ k.loops) (hother : other ∈ k.loops) (p : Progress m n) :
    ∃ p', meet k order outer p other = .ok p' ∧ Meets k order outer other p p' := by
  by_cases hne : other = outer
  · subst hne
    exact ⟨p, meet_self, .apart (.inl rfl)⟩
  by_cases hcommon : shared k (p.nester.body k other) (p.nester.body k outer) = []
  · exact ⟨p, meet_of_disjoint hcommon, .apart (.inr hcommon)⟩
  have hhere := position?_eq hk hperm houter
  have hthere := position?_eq hk hperm hother
  rcases comesLater_or hperm houter hne with hlater | hearlier
  · exact ⟨_, meet_of_lt hne rfl hcommon hhere hthere (comesLater_iff.mp hlater),
      .absorbed rfl (fun h => hcommon (List.map_eq_nil_iff.mp h)) hlater⟩
  · exact ⟨_, meet_of_not_lt hne hcommon hhere hthere (comesLater_iff.mp hearlier).le.not_gt,
      .marked hcommon hearlier⟩

/-- What every meeting keeps, a turn keeps. -/
theorem exists_turn (hk : k.Distinct) (hperm : order.Perm k.items) {outer : Fin n}
    (houter : outer ∈ k.loops) {P : Progress m n → Prop} {others : List (Fin n)}
    (hothers : ∀ e ∈ others, e ∈ k.loops)
    (hstep : ∀ other ∈ others, ∀ q q', P q → Meets k order outer other q q' → P q')
    {p : Progress m n} (hp : P p) : ∃ q, others.foldlM (meet k order outer) p = .ok q ∧ P q := by
  refine exists_foldlM (fun other hother q hq => ?_) hp
  obtain ⟨q', hmeet, hmeets⟩ := exists_meets hk hperm houter (hothers other hother) q
  exact ⟨q', hmeet, hstep other hother q q' hq hmeets⟩

/-! ## Bodies that lead forward -/

/-- Every loop in the body of a kernel loop is a kernel loop that comes later in the order. -/
def Forward (s : Nester m n) (k : Kernel m n) (order : List (Ref m n)) : Prop :=
  ∀ l ∈ k.loops, ∀ e, .loop e ∈ s.body k l → e ∈ k.loops ∧ comesLater order l e = true

variable {outer other : Fin n} {p p' : Progress m n}

/-- One meeting keeps bodies forward: what it puts into a body comes later. -/
theorem Forward.meets (hk : k.Distinct) (houter : outer ∈ k.loops) (hother : other ∈ k.loops)
    (h : p.nester.Forward k order) (hmeets : Meets k order outer other p p') :
    p'.nester.Forward k order := by
  cases hmeets with
  | apart => exact h
  | marked => exact h
  | @absorbed common _ _ hlater =>
    intro l hl e he
    rw [body_absorb] at he
    split at he
    next hname =>
      obtain rfl : l = outer := (loop_name_inj hk hl houter).mp hname
      rcases List.mem_cons.mp ((substitute_perm _ _ _).mem_iff.mp he) with heq | hkept
      · cases heq
        exact ⟨hother, hlater⟩
      · exact h l hl e (List.mem_of_mem_filter hkept)
    next => exact h l hl e he

/-- What a meeting adds to the top is the loop whose turn it is. -/
theorem Meets.mem_top (hmeets : Meets k order outer other p p') {r : Ref m n} (hr : r ∈ p'.top) :
    r ∈ p.top ∨ r = .loop outer := by
  cases hmeets with
  | apart => exact .inl hr
  | marked => exact .inl hr
  | absorbed =>
    simp only at hr
    split at hr
    · exact .inl hr
    · simpa using hr

/-- A state with forward bodies and items at the top. -/
structure Onward (k : Kernel m n) (order : List (Ref m n)) (p : Progress m n) : Prop where
  bodies : p.nester.Forward k order
  top : ∀ r ∈ p.top, r ∈ k.items

section Runs

variable (hk : k.Distinct) (hperm : order.Perm k.items)

include hk hperm

/-- Meeting some of the loops. -/
theorem Onward.exists_turn (hp : Onward k order p) (houter : outer ∈ k.loops)
    {others : List (Fin n)} (hothers : ∀ e ∈ others, e ∈ k.loops) :
    ∃ q, others.foldlM (meet k order outer) p = .ok q ∧ Onward k order q := by
  refine Nester.exists_turn hk hperm houter hothers (fun other hother q q' hq hmeets => ?_) hp
  refine ⟨hq.bodies.meets hk houter (hothers other hother) hmeets, fun r hr => ?_⟩
  rcases hmeets.mem_top hr with hr | rfl
  · exact hq.top r hr
  · exact loop_mem_items.mpr houter

/-- One item of the order. -/
theorem Onward.exists_advance (hcovers : layer.Covers k) (hp : Onward k order p) {r : Ref m n}
    (hr : r ∈ k.items) : ∃ q, advance k layer order p r = .ok q ∧ Onward k order q := by
  have hmore : ∀ q, Onward k order q → Onward k order { q with top := q.top ++ [r] } := fun q hq =>
    ⟨hq.bodies, fun t ht => (List.mem_append.mp ht).elim (hq.top t) fun ht =>
      List.mem_singleton.mp ht ▸ hr⟩
  cases r with
  | instruction i =>
    obtain ⟨deps, hdeps⟩ := NameMap.contains_eq_true_iff.mp (hcovers.deps _ hr)
    refine ⟨_, advance_instruction hdeps, ?_⟩
    split
    · exact hmore p hp
    · exact hp
  | loop l =>
    obtain ⟨q, hq, honward⟩ := hp.exists_turn hk hperm (loop_mem_items.mp hr) fun e he => he
    refine ⟨_, bind_eq_ok_iff.mpr ⟨q, hq, rfl⟩, ?_⟩
    split
    · exact honward
    · exact hmore q honward

/-- Some items of the order, one after the other. -/
theorem Onward.exists_run (hcovers : layer.Covers k) (hp : Onward k order p)
    {items : List (Ref m n)} (hitems : ∀ r ∈ items, r ∈ order) :
    ∃ q, items.foldlM (advance k layer order) p = .ok q ∧ Onward k order q :=
  exists_foldlM (fun r hr _ hp =>
    hp.exists_advance hk hperm hcovers (hperm.mem_iff.mp (hitems r hr))) hp

end Runs

/-- Attaching follows forward bodies up the order, so it never comes back to a loop. -/
theorem Onward.exists_materialize (hk : k.Distinct) (hp : Onward k order p) (inPlace : Bool) :
    ∃ pairs, (p.nester.materialize k p.top inPlace).2 = .ok pairs := by
  have hseparated : p.nester.Separated k (· ∈ k.loops) :=
    ⟨fun l hl e he => (hp.bodies l hl e he).1, fun l e hl he => (loop_name_inj hk hl he).mp⟩
  have hrank : ∀ l ∈ k.loops, ∀ e, .loop e ∈ p.nester.body k l →
      order.idxOf (.loop l) < order.idxOf (.loop e) :=
    fun l hl e he => comesLater_iff.mp (hp.bodies l hl e he).2
  obtain ⟨pairs, fin, hattaches⟩ := exists_attaches hseparated hrank [] p.top []
    (fun l hl => loop_mem_items.mp (hp.top _ hl)) (by simp)
  exact ⟨pairs, materialize_eq_ok_iff.mpr ⟨fin, hattaches⟩⟩

/-! ## Nesting forward nests -/

/-- The states that nesting passes through: some items of the order had their turns, and in the turn
of the next one it has met some of the loops. -/
def Passes (k : Kernel m n) (layer : Layer m n) (order : List (Ref m n)) (start : Nester m n)
    (q : Progress m n) : Prop :=
  ∃ before l after met rest p, order = before ++ .loop l :: after ∧ k.loops = met ++ rest ∧
    before.foldlM (advance k layer order) ⟨start, [], []⟩ = .ok p ∧
      met.foldlM (meet k order l) p = .ok q

/-- If the layer lists for each kernel loop only kernel loops that come later in the order, nesting
succeeds, its result is attached in both modes, and the bodies are forward after every meeting. -/
theorem exists_materialize_of_forward (hk : k.Distinct) (hcovers : layer.Covers k)
    (hperm : order.Perm k.items)
    (hforward : ∀ l ∈ k.loops, ∀ e, .loop e ∈ k.listed layer l →
      e ∈ k.loops ∧ comesLater order l e = true) :
    ∃ start top s, ofLayer k layer = .ok start ∧ start.nest k layer order = .ok (top, s) ∧
      (∀ inPlace, ∃ pairs, (s.materialize k top inPlace).2 = .ok pairs) ∧
      (∀ q, Passes k layer order start q → q.nester.Forward k order) ∧ s.Forward k order := by
  have hstart : ofLayer k layer
      = .ok ⟨.ofList (k.loops.map fun l => ((k.loop l).head.name, k.listed layer l)), 0⟩ := by
    refine ofLayer_eq_ok fun l hl => ?_
    obtain ⟨members, hmembers⟩ := NameMap.contains_eq_true_iff.mp (hcovers.members l hl)
    rw [listed_eq, if_pos hl, hmembers, Option.getD_some]
  generalize hs : (⟨_, 0⟩ : Nester m n) = start at hstart
  have honward : Onward k order ⟨start, [], []⟩ := by
    refine ⟨fun l hl e he => hforward l hl e ?_, by simp⟩
    rwa [← hs, body_ofList hk hl] at he
  obtain ⟨q, hq, hend⟩ := honward.exists_run hk hperm hcovers fun r hr => hr
  refine ⟨start, q.top, q.nester, hstart, bind_eq_ok_iff.mpr ⟨q, hq, rfl⟩,
    hend.exists_materialize hk, ?_, hend.bodies⟩
  rintro q' ⟨before, l, after, met, rest, p, horder, hloops, hbefore, hmet⟩
  have hl : l ∈ k.loops := (loop_mem_order hperm).mp (by simp [horder])
  -- the states on the way are those of the runs through a part of the lists
  obtain ⟨p₁, hp₁, hp⟩ := honward.exists_run hk hperm hcovers
    fun r (hr : r ∈ before) => horder ▸ List.mem_append_left _ hr
  obtain rfl : p = p₁ := Except.ok.inj (hbefore.symm.trans hp₁)
  obtain ⟨q₁, hq₁, hq'⟩ := hp.exists_turn hk hperm hl
    fun e (he : e ∈ met) => hloops ▸ List.mem_append_left _ he
  obtain rfl : q' = q₁ := Except.ok.inj (hmet.symm.trans hq₁)
  exact hq'.bodies

/-- Three loops with a common instruction, where each one declares the later ones as members. -/
def staircase : Kernel 1 3 where
  instructionTable := #v[⟨"x", .assign (.name "x") (.name "t"), []⟩]
  loopTable := #v[
    ⟨⟨"i", .literal (.int 0), .literal (.int 9), defaultStep "i", []⟩,
      [.loop (row 1), .loop (row 2), .instruction (row 0)]⟩,
    ⟨⟨"j", .literal (.int 0), .literal (.int 9), defaultStep "j", []⟩,
      [.loop (row 2), .instruction (row 0)]⟩,
    ⟨⟨"t", .literal (.int 0), .literal (.int 9), defaultStep "t", []⟩,
      [.instruction (row 0)]⟩]
  instructions := List.finRange 1
  loops := List.finRange 3

/-- Loops are taken in for common members that are loops, and for the instruction. -/
theorem materialize_staircase :
    ∃ start top s, ofLayer staircase (.declared staircase) = .ok start ∧
      start.nest staircase (.declared staircase) staircase.items = .ok (top, s) ∧ s.merges = 2 ∧
      (∀ inPlace, ∃ pairs, (s.materialize staircase top inPlace).2 = .ok pairs) ∧
      s.Forward staircase staircase.items := by
  obtain ⟨start, top, s, hstart, hnest, hpairs, -, hforward⟩ :=
    exists_materialize_of_forward (by rw [Distinct]; decide) (Layer.covers_declared staircase)
      (List.Perm.refl staircase.items) (by decide)
  have hmerges : ((ofLayer staircase (.declared staircase)).toOption.bind fun start =>
      (start.nest staircase (.declared staircase) staircase.items).toOption.map (·.2.merges))
        = some 2 := by cbv
  rw [hstart, Except.toOption, Option.bind_some, hnest] at hmerges
  exact ⟨start, top, s, hstart, hnest, Option.some.inj hmerges, hpairs, hforward⟩

end Nester
end LoopNest
