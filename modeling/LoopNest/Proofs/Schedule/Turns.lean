import LoopNest.Proofs.Schedule.Drain
import LoopNest.Proofs.Schedule.Meeting

/-!
# All turns of any kernel

What a nester does to a kernel with different names all over, turn by turn.  Between two turns the
loops done have their rewritten bodies and the others the bodies they started with (`Paused`).  A
loop that is not done is marked exactly if it is a guest, so at the end of its turn it is known what
happens to it:

* a guest is inside its host, which is inside the top, and stays there;
* a loop with guests goes to the top unless it is already inside;
* a loop without guests that is nobody's guest goes to the top unless it shares a member with an
  earlier loop, and then it is stranded.

So the top holds no guests and nothing that is stranded, and contains all loops done that are not
stranded.  What was inside a loop at the start stays inside it.

* `Nester.InTurn.meet`: meeting one more loop.
* `Nester.Paused.turn`, `Nester.Paused.run`: one turn, and all of them.
* `Nester.Paused.exists_run`: all turns succeed.
-/

namespace LoopNest
namespace Nester

open Kernel

variable {m n : Nat} {k : Kernel m n} {start : Nester m n} {order : List (Ref m n)}

/-- Bodies at the start and an order of the items, in a kernel with different names all over. -/
structure Ready (k : Kernel m n) (start : Nester m n) (order : List (Ref m n)) : Prop where
  distinct : k.Distinct
  apart : start.Apart k
  perm : order.Perm k.items

namespace Ready

theorem nodup (h : Ready k start order) : order.Nodup :=
  h.perm.nodup_iff.mpr (h.distinct.of_map _)

theorem loop_mem_order (h : Ready k start order) {l : Fin n} : .loop l ∈ order ↔ l ∈ k.loops :=
  Nester.loop_mem_order h.perm

theorem mem_reachable (h : Ready k start order) {r : Ref m n} (hr : r ∈ order) : r ∈ k.reachable :=
  mem_reachable_of_mem_items (h.perm.mem_iff.mp hr)

theorem loop_mem_reachable (h : Ready k start order) {l : Fin n} (hl : l ∈ k.loops) :
    .loop l ∈ k.reachable :=
  h.mem_reachable (h.loop_mem_order.mpr hl)

theorem position?_eq (h : Ready k start order) {l : Fin n} (hl : l ∈ k.loops) :
    position? k order (k.loop l).head.name = some (order.idxOf (.loop l)) :=
  Nester.position?_eq h.distinct h.perm hl

/-- Of two loops, one comes later. -/
theorem comesLater_or (h : Ready k start order) {l e : Fin n} (hl : l ∈ k.loops) (hne : e ≠ l) :
    comesLater order l e = true ∨ comesLater order e l = true :=
  Nester.comesLater_or h.perm hl hne

theorem mem_before_iff (h : Ready k start order) {before after : List (Ref m n)} {l d : Fin n}
    (hsplit : order = before ++ .loop l :: after) :
    .loop d ∈ before ↔ comesLater order d l = true :=
  Nester.mem_before_iff h.nodup hsplit

end Ready

/-! ## Between turns -/

/-- The state between two turns, when some items are done. -/
structure Paused (k : Kernel m n) (layer : Layer m n) (start : Nester m n) (order : List (Ref m n))
    (done : List (Ref m n)) (p : Progress m n) : Prop where
  finished : ∀ l, .loop l ∈ done → p.nester.body k l = start.rewritten k order l
  untouched : ∀ l, .loop l ∈ k.reachable → .loop l ∉ done → p.nester.body k l = start.body k l
  marks : ∀ e ∈ k.loops, .loop e ∉ done → ((k.loop e).head.name ∈ p.overlapping ↔
    ∃ d, .loop d ∈ done ∧ e ∈ start.guestsOf k order d)
  instructions : ∀ i, .instruction i ∈ p.top ↔
    .instruction i ∈ done ∧ k.needs layer (.instruction i) = []
  loops : ∀ l, .loop l ∈ p.top →
    .loop l ∈ done ∧ ¬ start.Stranded k order l ∧ ∀ d ∈ k.loops, l ∉ start.guestsOf k order d
  sublist : p.top.Sublist done
  kept : ∀ l, .loop l ∈ done → ¬ start.Stranded k order l →
    ∃ r ∈ p.top, p.nester.Contains k r (.loop l)
  hosts : ∀ d, .loop d ∈ done → ∀ e ∈ start.guestsOf k order d,
    p.nester.Contains k (.loop d) (.loop e)
  conserved : ∀ r ∈ k.reachable, ∀ t, start.Contains k r t → p.nester.Contains k r t

variable {layer : Layer m n} {done : List (Ref m n)} {p : Progress m n}

theorem paused_start : Paused k layer start order [] ⟨start, [], []⟩ where
  finished _ hl := absurd hl List.not_mem_nil
  untouched _ _ _ := rfl
  marks := by simp
  instructions := by simp
  loops _ hl := absurd hl List.not_mem_nil
  sublist := .slnil
  kept _ hl := absurd hl List.not_mem_nil
  hosts _ hl := absurd hl List.not_mem_nil
  conserved _ _ _ h := h

namespace Paused

theorem apart (h : Ready k start order) (hdone : ∀ r ∈ done, r ∈ order)
    (hp : Paused k layer start order done p) : p.nester.Apart k where
  separate := h.apart.separate
  within l hl := by
    by_cases hmem : .loop l ∈ done
    · rw [hp.finished l hmem]
      exact h.apart.mem_reachable_of_mem_rewritten (h.mem_reachable (hdone _ hmem))
    · rw [hp.untouched l hl hmem]
      exact h.apart.within l hl

theorem mem_done_of_mem_top (hp : Paused k layer start order done p) {r : Ref m n}
    (hr : r ∈ p.top) :
    r ∈ done :=
  hp.sublist.subset hr

/-- A guest of a loop that is done is inside the top. -/
theorem inside_of_guest (hp : Paused k layer start order done p) {l d : Fin n}
    (hd : .loop d ∈ done) (hguest : l ∈ start.guestsOf k order d) :
    ∃ r ∈ p.top, p.nester.Contains k r (.loop l) := by
  have hnot : ¬ start.Stranded k order d := by
    rintro ⟨hnil, -⟩
    rw [hnil] at hguest
    exact absurd hguest List.not_mem_nil
  obtain ⟨r, hr, hcontains⟩ := hp.kept d hd hnot
  exact ⟨r, hr, hcontains.trans (hp.hosts d hd l hguest)⟩

end Paused

/-! ## One turn -/

/-- The bodies in a loop's turn after it has met some later loops, seen from the start of the
turn. -/
structure Halfway (k : Kernel m n) (start : Nester m n) (p : Progress m n) (l : Fin n)
    (seen : List (Fin n)) (s : Nester m n) : Prop where
  body : s.body k l = start.meetAll k (start.body k l) seen
  others : ∀ e, .loop e ∈ k.reachable → e ≠ l → s.body k e = p.nester.body k e

/-- The state in a loop's turn after it has met some later and some earlier loops: the guests are
marked, and the loop itself if it has any or shares a member with an earlier loop; with the first
guest it goes to the top, unless it is already inside. -/
structure InTurn (k : Kernel m n) (start : Nester m n) (order : List (Ref m n)) (p : Progress m n)
    (l : Fin n) (seen passed : List (Fin n)) (q : Progress m n) : Prop where
  bodies : Halfway k start p l seen q.nester
  marks : ∀ e ∈ k.loops, comesLater order l e = true → ((k.loop e).head.name ∈ q.overlapping ↔
    (k.loop e).head.name ∈ p.overlapping ∨ e ∈ start.guests k (start.body k l) seen)
  mark : (k.loop l).head.name ∈ q.overlapping ↔ (k.loop l).head.name ∈ p.overlapping ∨
    start.guests k (start.body k l) seen ≠ [] ∨
      ∃ d ∈ passed, shared k (start.rewritten k order d) (start.body k l) ≠ []
  top : (start.guests k (start.body k l) seen ≠ [] ∧
      (¬ ∃ r ∈ p.top, p.nester.Contains k r (.loop l)) ∧ q.top = p.top ++ [.loop l]) ∨
    ((start.guests k (start.body k l) seen = [] ∨
      ∃ r ∈ p.top, p.nester.Contains k r (.loop l)) ∧ q.top = p.top)

/-- It is a loop's turn. -/
structure AtTurn (k : Kernel m n) (layer : Layer m n) (start : Nester m n) (order : List (Ref m n))
    (done : List (Ref m n)) (l : Fin n) (p : Progress m n) : Prop where
  ready : Ready k start order
  split : ∃ after, order = done ++ .loop l :: after
  paused : Paused k layer start order done p

section Turn

variable {l : Fin n} {seen passed : List (Fin n)} {q : Progress m n}

theorem ne_of_comesLater {e : Fin n} (h : comesLater order l e = true) : e ≠ l := by
  rintro rfl
  exact absurd (comesLater_iff.mp h) (Nat.lt_irrefl _)

namespace AtTurn

variable (h : AtTurn k layer start order done l p)

include h

theorem mem_loops : l ∈ k.loops := by
  obtain ⟨after, hsplit⟩ := h.split
  exact h.ready.loop_mem_order.mp (by rw [hsplit]; simp)

theorem mem_order : ∀ r ∈ done, r ∈ order := by
  obtain ⟨after, hsplit⟩ := h.split
  intro r hr
  rw [hsplit]
  exact List.mem_append_left _ hr

theorem mem_done_iff {d : Fin n} : .loop d ∈ done ↔ comesLater order d l = true := by
  obtain ⟨after, hsplit⟩ := h.split
  exact h.ready.mem_before_iff hsplit

theorem notMem_done : .loop l ∉ done := fun hl => ne_of_comesLater (h.mem_done_iff.mp hl) rfl

theorem notMem_done_of_comesLater {e : Fin n} (he : comesLater order l e = true) :
    .loop e ∉ done := by
  rw [h.mem_done_iff, comesLater_iff]
  exact Nat.lt_asymm (comesLater_iff.mp he)

theorem apart : p.nester.Apart k := h.paused.apart h.ready h.mem_order

theorem body_self : p.nester.body k l = start.body k l :=
  h.paused.untouched l (h.ready.loop_mem_reachable h.mem_loops) h.notMem_done

theorem mem_reachable_of_mem_top : ∀ r ∈ p.top, r ∈ k.reachable := fun _ hr =>
  h.ready.mem_reachable (h.mem_order _ (h.paused.mem_done_of_mem_top hr))

end AtTurn

namespace Halfway

variable {s : Nester m n} (h : AtTurn k layer start order done l p)
  (hs : Halfway k start p l seen s)

include h hs

/-- The loops that come later have the bodies they started with. -/
theorem body_later {e : Fin n} (he : e ∈ k.loops) (hlater : comesLater order l e = true) :
    s.body k e = start.body k e := by
  have hreachable := h.ready.loop_mem_reachable he
  rw [hs.others e hreachable (ne_of_comesLater hlater)]
  exact h.paused.untouched e hreachable (h.notMem_done_of_comesLater hlater)

/-- The loops that came earlier have their rewritten bodies. -/
theorem body_earlier {e : Fin n} (he : e ∈ k.loops) (hearlier : comesLater order e l = true) :
    s.body k e = start.rewritten k order e := by
  rw [hs.others e (h.ready.loop_mem_reachable he) (ne_of_comesLater hearlier).symm]
  exact h.paused.finished e (h.mem_done_iff.mpr hearlier)

theorem apart (hseen : ∀ e ∈ seen, e ∈ k.loops) : s.Apart k where
  separate := h.ready.apart.separate
  within e he := by
    by_cases hel : e = l
    · subst hel
      rw [hs.body]
      exact h.ready.apart.mem_reachable_of_mem_meetAll
        (fun d hd => h.ready.loop_mem_reachable (hseen d hd)) (h.ready.apart.within e he)
    · rw [hs.others e he hel]
      exact h.apart.within e he

/-- In its turn, a loop is found inside the top of before the turn exactly if it was there. -/
theorem placed_iff (hseen : ∀ e ∈ seen, e ∈ k.loops) :
    s.placed k (.loop l) p.top = true ↔ ∃ r ∈ p.top, p.nester.Contains k r (.loop l) := by
  have hapart := hs.apart h hseen
  rw [Nester.placed_iff hapart.separated fun e he => h.mem_reachable_of_mem_top _ he]
  refine exists_congr fun r => and_congr_right fun hr => ?_
  rw [leads_iff_contains]
  exact (contains_loop_congr h.apart.within hapart.within hs.others
    (h.mem_reachable_of_mem_top r hr)).symm

/-- A loop that stands at the top is placed. -/
theorem placed_self (hseen : ∀ e ∈ seen, e ∈ k.loops) :
    s.placed k (.loop l) (p.top ++ [.loop l]) = true := by
  refine (Nester.placed_iff (hs.apart h hseen).separated ?_).mpr ⟨.loop l, by simp, .here⟩
  intro e he
  rcases List.mem_append.mp he with he | he
  · exact h.mem_reachable_of_mem_top _ he
  · rw [List.mem_singleton.mp he]
    exact h.ready.loop_mem_reachable h.mem_loops

/-- Moving a later loop in. -/
theorem absorb {x : Fin n}
    (hcommon : shared k (start.body k x) (start.meetAll k (start.body k l) seen) ≠ []) :
    Halfway k start p l (seen ++ [x]) (s.absorb k l x
      ((shared k (start.body k x) (start.meetAll k (start.body k l) seen)).map k.name)) where
  body := by rw [body_absorb, if_pos rfl, meetAll_snoc, meeting, if_neg hcommon, hs.body]
  others e he hel := by
    have hne : ¬ (k.loop e).head.name = (k.loop l).head.name := fun heq =>
      hel (h.ready.apart.separated.inj e l he (h.ready.loop_mem_reachable h.mem_loops) heq)
    rw [body_absorb, if_neg hne, hs.others e he hel]

end Halfway

namespace InTurn

theorem init (h : AtTurn k layer start order done l p) : InTurn k start order p l [] [] p where
  bodies := ⟨h.body_self, fun _ _ _ => rfl⟩
  marks := by simp [guests]
  mark := by simp [guests]
  top := .inr ⟨.inl rfl, rfl⟩

variable (h : AtTurn k layer start order done l p) (hq : InTurn k start order p l seen passed q)

include h hq

/-- An earlier loop with common members is only marked, with the loop whose turn it is. -/
theorem meet_earlier {x : Fin n} (hx : x ∈ k.loops) (hearlier : comesLater order x l = true) :
    ∃ q', Nester.meet k order l q x = .ok q' ∧
      InTurn k start order p l seen (passed ++ [x]) q' := by
  have hbody := hq.bodies.body_earlier h hx hearlier
  -- without guests the body is still that of the start
  have hshared : start.guests k (start.body k l) seen = [] →
      shared k (q.nester.body k x) (q.nester.body k l)
        = shared k (start.rewritten k order x) (start.body k l) := by
    intro hnil
    rw [hbody, hq.bodies.body, meetAll_of_guests_eq_nil hnil]
  by_cases hcommon : shared k (q.nester.body k x) (q.nester.body k l) = []
  · refine ⟨q, meet_of_disjoint hcommon, hq.bodies, hq.marks, ?_, hq.top⟩
    rw [hq.mark]
    by_cases hnil : start.guests k (start.body k l) seen = []
    · rw [hshared hnil] at hcommon
      simp [hnil, hcommon, or_and_right, exists_or]
    · simp [hnil]
  · refine ⟨_, meet_of_not_lt (ne_of_comesLater hearlier).symm hcommon
      (h.ready.position?_eq h.mem_loops) (h.ready.position?_eq hx)
      (Nat.lt_asymm (comesLater_iff.mp hearlier)), hq.bodies, ?_, ?_, hq.top⟩
    · intro e he hlater
      have hex : (k.loop e).head.name ≠ (k.loop x).head.name := by
        rw [Ne, loop_name_inj h.ready.distinct he hx]
        rintro rfl
        exact Nat.lt_asymm (comesLater_iff.mp hlater) (comesLater_iff.mp hearlier)
      have hel : (k.loop e).head.name ≠ (k.loop l).head.name := by
        rw [Ne, loop_name_inj h.ready.distinct he h.mem_loops]
        exact ne_of_comesLater hlater
      simp only [List.mem_append, List.mem_cons, List.not_mem_nil, or_false, hex, hel,
        hq.marks e he hlater]
    · by_cases hnil : start.guests k (start.body k l) seen = []
      · rw [hshared hnil] at hcommon
        simp [hcommon, or_and_right, exists_or]
      · simp [hnil]

/-- A later loop without common members is left alone. -/
theorem meet_disjoint {x : Fin n} (hx : x ∈ k.loops) (hlater : comesLater order l x = true)
    (hcommon : shared k (start.body k x) (start.meetAll k (start.body k l) seen) = []) :
    Nester.meet k order l q x = .ok q ∧ InTurn k start order p l (seen ++ [x]) passed q := by
  have hguests : start.guests k (start.body k l) (seen ++ [x])
      = start.guests k (start.body k l) seen := by
    rw [guests_snoc, if_pos hcommon, List.append_nil]
  have hbody : start.meetAll k (start.body k l) (seen ++ [x])
      = start.meetAll k (start.body k l) seen := by
    rw [meetAll_snoc, meeting, if_pos hcommon]
  refine ⟨meet_of_disjoint ?_, ⟨hbody ▸ hq.bodies.body, hq.bodies.others⟩, ?_, ?_, ?_⟩
  · rw [hq.bodies.body_later h hx hlater, hq.bodies.body]
    exact hcommon
  · rw [hguests]; exact hq.marks
  · rw [hguests]; exact hq.mark
  · rw [hguests]; exact hq.top

/-- A later loop with common members moves in. -/
theorem meet_absorb (hseen : ∀ e ∈ seen, e ∈ k.loops) {x : Fin n} (hx : x ∈ k.loops)
    (hlater : comesLater order l x = true)
    (hcommon : shared k (start.body k x) (start.meetAll k (start.body k l) seen) ≠ []) :
    ∃ q', Nester.meet k order l q x = .ok q' ∧
      InTurn k start order p l (seen ++ [x]) passed q' := by
  have hl : l ∈ k.loops := h.mem_loops
  have hbodies := hq.bodies.absorb h hcommon
  have hseen' : ∀ e ∈ seen ++ [x], e ∈ k.loops :=
    List.forall_mem_append.mpr ⟨hseen, by simpa using hx⟩
  have hguests : start.guests k (start.body k l) (seen ++ [x])
      = start.guests k (start.body k l) seen ++ [x] := by
    rw [guests_snoc, if_neg hcommon]
  have hsome : start.guests k (start.body k l) (seen ++ [x]) ≠ [] := by simp [hguests]
  have hshared : shared k (q.nester.body k x) (q.nester.body k l)
      = shared k (start.body k x) (start.meetAll k (start.body k l) seen) := by
    rw [hq.bodies.body_later h hx hlater, hq.bodies.body]
  refine ⟨_, meet_of_lt (ne_of_comesLater hlater) hshared hcommon (h.ready.position?_eq hl)
    (h.ready.position?_eq hx) (comesLater_iff.mp hlater), hbodies, ?_, ?_, ?_⟩
  · intro e he hle
    have hel : (k.loop e).head.name ≠ (k.loop l).head.name := by
      rw [Ne, loop_name_inj h.ready.distinct he hl]
      exact ne_of_comesLater hle
    simp only [List.mem_append, List.mem_cons, List.not_mem_nil, or_false, hq.marks e he hle,
      loop_name_inj h.ready.distinct he hx, hel, hguests, or_assoc]
  · simp [hsome]
  · rcases hq.top with ⟨-, hout, htop⟩ | ⟨-, htop⟩
    · refine .inl ⟨hsome, hout, ?_⟩
      simp only [htop, hbodies.placed_self h hseen', if_true]
    · by_cases hin : ∃ r ∈ p.top, p.nester.Contains k r (.loop l)
      · refine .inr ⟨.inr hin, ?_⟩
        simp only [htop, (hbodies.placed_iff h hseen').mpr hin, if_true]
      · refine .inl ⟨hsome, hin, ?_⟩
        simp only [htop, if_neg (mt (hbodies.placed_iff h hseen').mp hin)]

/-- **Meeting one more loop** in a loop's turn. -/
theorem meet (hseen : ∀ e ∈ seen, e ∈ k.loops) {x : Fin n} (hx : x ∈ k.loops) :
    ∃ q', Nester.meet k order l q x = .ok q' ∧
      InTurn k start order p l (seen ++ [x].filter (comesLater order l))
        (passed ++ [x].filter (comesLater order · l)) q' := by
  by_cases hxl : x = l
  · subst hxl
    have hself : comesLater order x x = false := by simp [comesLater]
    refine ⟨q, meet_self, ?_⟩
    simpa [hself] using hq
  rcases h.ready.comesLater_or h.mem_loops hxl with hlater | hearlier
  · have hnot : comesLater order x l = false := by
      rw [Bool.eq_false_iff, Ne, comesLater_iff]
      exact Nat.lt_asymm (comesLater_iff.mp hlater)
    simp only [List.filter_cons, List.filter_nil, hlater, hnot, if_true, Bool.false_eq_true,
      if_false, List.append_nil]
    by_cases hcommon : shared k (start.body k x) (start.meetAll k (start.body k l) seen) = []
    · exact ⟨q, hq.meet_disjoint h hx hlater hcommon⟩
    · exact hq.meet_absorb h hseen hx hlater hcommon
  · have hnot : comesLater order l x = false := by
      rw [Bool.eq_false_iff, Ne, comesLater_iff]
      exact Nat.lt_asymm (comesLater_iff.mp hearlier)
    simp only [List.filter_cons, List.filter_nil, hearlier, hnot, if_true, Bool.false_eq_true,
      if_false, List.append_nil]
    exact hq.meet_earlier h hx hearlier

end InTurn

/-- Meeting all loops of the kernel. -/
theorem AtTurn.meetings (h : AtTurn k layer start order done l p) :
    ∃ q, k.loops.foldlM (Nester.meet k order l) p = .ok q ∧
      InTurn k start order p l (later k order l) (k.loops.filter (comesLater order · l)) q := by
  have hrun : ∀ {todo met : List (Fin n)} {q : Progress m n}, k.loops = met ++ todo →
      InTurn k start order p l (met.filter (comesLater order l))
        (met.filter (comesLater order · l)) q →
        ∃ q', todo.foldlM (Nester.meet k order l) q = .ok q' ∧
          InTurn k start order p l (later k order l)
            (k.loops.filter (comesLater order · l)) q' := by
    intro todo
    induction todo with
    | nil =>
      intro met q hloops hq
      rw [List.append_nil] at hloops
      rw [← hloops] at hq
      exact ⟨q, rfl, hq⟩
    | cons x todo ih =>
      intro met q hloops hq
      have hmet : ∀ e ∈ met.filter (comesLater order l), e ∈ k.loops := by
        intro e he
        rw [hloops]
        exact List.mem_append_left _ (List.mem_of_mem_filter he)
      obtain ⟨q₁, hstep, hq₁⟩ := hq.meet h hmet (x := x) (by rw [hloops]; simp)
      rw [← List.filter_append, ← List.filter_append] at hq₁
      obtain ⟨q₂, hrest, hq₂⟩ := ih (by rw [hloops, List.append_assoc, List.singleton_append]) hq₁
      refine ⟨q₂, ?_, hq₂⟩
      rw [List.foldlM_cons]
      exact bind_eq_ok_iff.mpr ⟨q₁, hstep, hrest⟩
  exact hrun (List.nil_append _).symm (InTurn.init h)

/-! ### The end of a turn -/

/-- The state at the end of a turn: a loop that is not marked goes to the top. -/
def settle (k : Kernel m n) (l : Fin n) (q : Progress m n) : Progress m n :=
  if q.overlapping.contains (k.loop l).head.name then q else { q with top := q.top ++ [.loop l] }

@[simp] theorem nester_settle (q : Progress m n) : (settle k l q).nester = q.nester := by
  rw [settle]
  split <;> rfl

@[simp] theorem overlapping_settle (q : Progress m n) :
    (settle k l q).overlapping = q.overlapping := by
  rw [settle]
  split <;> rfl

namespace AtTurn

variable (h : AtTurn k layer start order done l p)
  (hq : InTurn k start order p l (later k order l) (k.loops.filter (comesLater order · l)) q)

include h

/-- Before its turn a loop is marked exactly if it is a guest. -/
theorem mark_iff_guest :
    (k.loop l).head.name ∈ p.overlapping ↔ ∃ d ∈ k.loops, l ∈ start.guestsOf k order d := by
  rw [h.paused.marks l h.mem_loops h.notMem_done]
  constructor
  · rintro ⟨d, hd, hguest⟩
    exact ⟨d, h.ready.loop_mem_order.mp (h.mem_order _ hd), hguest⟩
  · rintro ⟨d, -, hguest⟩
    exact ⟨d, h.mem_done_iff.mpr (later_of_mem_guestsOf hguest).2, hguest⟩

theorem inside_of_guest {d : Fin n} (hguest : l ∈ start.guestsOf k order d) :
    ∃ r ∈ p.top, p.nester.Contains k r (.loop l) :=
  h.paused.inside_of_guest (h.mem_done_iff.mpr (later_of_mem_guestsOf hguest).2) hguest

include hq

/-- At the end of its turn a loop stands at the top, or is inside it, or is stranded. -/
theorem top_settle :
    ((settle k l q).top = p.top ++ [.loop l] ∧ ¬ start.Stranded k order l ∧
        ∀ d ∈ k.loops, l ∉ start.guestsOf k order d) ∨
      ((settle k l q).top = p.top ∧
        (start.Stranded k order l ∨ ∃ r ∈ p.top, p.nester.Contains k r (.loop l))) := by
  have hguest : (∀ d ∈ k.loops, l ∉ start.guestsOf k order d) ∨
      ∃ r ∈ p.top, p.nester.Contains k r (.loop l) := by
    by_cases hnone : ∀ d ∈ k.loops, l ∉ start.guestsOf k order d
    · exact .inl hnone
    · simp only [not_forall, not_not] at hnone
      obtain ⟨d, -, hd⟩ := hnone
      exact .inr (h.inside_of_guest hd)
  by_cases hnil : start.guestsOf k order l = []
  · have htop : q.top = p.top := by
      rcases hq.top with ⟨hne, -⟩ | ⟨-, htop⟩
      · exact absurd hnil hne
      · exact htop
    by_cases hmark : (k.loop l).head.name ∈ q.overlapping
    · have hsettle : settle k l q = q := if_pos (List.contains_iff_mem.mpr hmark)
      rw [hsettle, htop]
      refine .inr ⟨rfl, ?_⟩
      rcases hguest with hnone | hin
      · rw [hq.mark, h.mark_iff_guest] at hmark
        rcases hmark with ⟨d, hd, hmem⟩ | hne | ⟨d, hd, hcommon⟩
        · exact absurd hmem (hnone d hd)
        · exact absurd hnil hne
        · rw [List.mem_filter] at hd
          exact .inl ⟨hnil, hnone, d, hd.1, hd.2, hcommon⟩
      · exact .inr hin
    · have hsettle : (settle k l q).top = q.top ++ [.loop l] := by
        rw [settle, if_neg (mt List.contains_iff_mem.mp hmark)]
      rw [hsettle, htop]
      rw [hq.mark, h.mark_iff_guest, not_or, not_or] at hmark
      obtain ⟨hnone, -, hdisjoint⟩ := hmark
      refine .inl ⟨rfl, ?_, fun d hd hmem => hnone ⟨d, hd, hmem⟩⟩
      rintro ⟨-, -, d, hd, hearlier, hcommon⟩
      exact hdisjoint ⟨d, List.mem_filter.mpr ⟨hd, hearlier⟩, hcommon⟩
  · have hmark : (k.loop l).head.name ∈ q.overlapping := hq.mark.mpr (.inr (.inl hnil))
    have hsettle : settle k l q = q := if_pos (List.contains_iff_mem.mpr hmark)
    have hnot : ¬ start.Stranded k order l := fun hstranded => hnil hstranded.1
    rw [hsettle]
    rcases hq.top with ⟨-, hout, htop⟩ | ⟨hin, htop⟩
    · exact .inl ⟨htop, hnot, hguest.resolve_right hout⟩
    · exact .inr ⟨htop, .inr (hin.resolve_left hnil)⟩

/-- In a loop's turn the later loops have what they started with. -/
theorem contains_later : ∀ d ∈ later k order l, ∀ t ∈ start.body k d,
    q.nester.Contains k (.loop d) t := by
  intro d hd t ht
  obtain ⟨hmem, hlater⟩ := mem_later.mp hd
  refine .of_mem ?_
  rwa [hq.bodies.body_later h hmem hlater]

/-- What is inside a loop before a turn is inside it after the turn. -/
theorem conserved {r t : Ref m n} (hr : r ∈ k.reachable) (hcontains : p.nester.Contains k r t) :
    q.nester.Contains k r t := by
  refine hcontains.of_holds h.apart.within (fun e he t ht => ?_) hr
  by_cases hel : e = l
  · subst hel
    rw [h.body_self] at ht
    obtain ⟨u, hu, hcovered⟩ := h.ready.apart.covered (fun _ => Apart.reachable_of_mem_later)
      (h.ready.apart.within e he) (h.contains_later hq) t ht
    rw [← hq.bodies.body] at hu
    exact hcovered.head ⟨e, rfl, hu⟩
  · exact .of_mem (by rwa [hq.bodies.others e he hel])

/-- After its turn a loop contains its guests. -/
theorem hosts {e : Fin n} (he : e ∈ start.guestsOf k order l) :
    q.nester.Contains k (.loop l) (.loop e) := by
  have hl := h.ready.loop_mem_reachable h.mem_loops
  obtain ⟨u, hu, hcovered⟩ := h.ready.apart.guest_covered (fun _ => Apart.reachable_of_mem_later)
    (h.ready.apart.within l hl) (h.contains_later hq) e he
  rw [← hq.bodies.body] at hu
  exact hcovered.head ⟨l, rfl, hu⟩

/-- What is at the top after a turn, besides what was there, is the loop itself. -/
theorem loops_settle {e : Fin n} (he : .loop e ∈ (settle k l q).top) :
    .loop e ∈ done ++ [.loop l] ∧ ¬ start.Stranded k order e ∧
      ∀ d ∈ k.loops, e ∉ start.guestsOf k order d := by
  have hold : .loop e ∈ p.top → .loop e ∈ done ++ [.loop l] ∧ ¬ start.Stranded k order e ∧
      ∀ d ∈ k.loops, e ∉ start.guestsOf k order d := by
    intro he
    obtain ⟨hdone, hrest⟩ := h.paused.loops e he
    exact ⟨List.mem_append_left _ hdone, hrest⟩
  rcases h.top_settle hq with ⟨htop, hnot, hguest⟩ | ⟨htop, -⟩
  · rw [htop, List.mem_append] at he
    rcases he with he | he
    · exact hold he
    · cases List.mem_singleton.mp he
      exact ⟨by simp, hnot, hguest⟩
  · rw [htop] at he
    exact hold he

/-- A loop that was inside the top still is. -/
theorem inside_settle {e : Fin n} (he : ∃ r ∈ p.top, p.nester.Contains k r (.loop e)) :
    ∃ r ∈ (settle k l q).top, (settle k l q).nester.Contains k r (.loop e) := by
  obtain ⟨r, hr, hcontains⟩ := he
  rw [nester_settle]
  refine ⟨r, ?_, h.conserved hq (h.mem_reachable_of_mem_top r hr) hcontains⟩
  rcases h.top_settle hq with ⟨htop, -⟩ | ⟨htop, -⟩
  · rw [htop]
    exact List.mem_append_left _ hr
  · rw [htop]
    exact hr

/-- After a turn the guests of the loop are marked too. -/
theorem marks_settle {e : Fin n} (he : e ∈ k.loops) (hnotMem : .loop e ∉ done ++ [.loop l]) :
    (k.loop e).head.name ∈ (settle k l q).overlapping ↔
      ∃ d, .loop d ∈ done ++ [.loop l] ∧ e ∈ start.guestsOf k order d := by
  rw [List.mem_append, List.mem_singleton, not_or] at hnotMem
  have hlater : comesLater order l e = true := by
    have hel : e ≠ l := fun hel => hnotMem.2 (by rw [hel])
    refine (h.ready.comesLater_or h.mem_loops hel).resolve_right fun hearlier => ?_
    exact hnotMem.1 (h.mem_done_iff.mpr hearlier)
  rw [overlapping_settle, hq.marks e he hlater, h.paused.marks e he hnotMem.1]
  simp only [List.mem_append, List.mem_singleton, Ref.loop.injEq, or_and_right, exists_or,
    exists_eq_left]
  rfl

/-- **The state after a turn.** -/
theorem paused_settle : Paused k layer start order (done ++ [.loop l]) (settle k l q) := by
  have htop := h.top_settle hq
  constructor
  case finished =>
    intro e he
    rw [nester_settle]
    rcases List.mem_append.mp he with he | he
    · have hne : e ≠ l := fun hel => h.notMem_done (hel ▸ he)
      rw [hq.bodies.others e (h.ready.mem_reachable (h.mem_order _ he)) hne]
      exact h.paused.finished e he
    · cases List.mem_singleton.mp he
      exact hq.bodies.body
  case untouched =>
    intro e he hnotMem
    rw [List.mem_append, List.mem_singleton, not_or] at hnotMem
    rw [nester_settle, hq.bodies.others e he fun hel => hnotMem.2 (by rw [hel])]
    exact h.paused.untouched e he hnotMem.1
  case marks => exact fun e => h.marks_settle hq
  case instructions =>
    intro i
    rw [List.mem_append, or_iff_left (by simp), ← h.paused.instructions i]
    rcases htop with ⟨htop, -⟩ | ⟨htop, -⟩ <;> simp [htop]
  case loops => exact fun e => h.loops_settle hq
  case sublist =>
    rcases htop with ⟨htop, -⟩ | ⟨htop, -⟩
    · rw [htop]
      exact h.paused.sublist.append (.refl _)
    · rw [htop]
      exact h.paused.sublist.trans (List.sublist_append_left _ _)
  case kept =>
    intro e he hnot
    rcases List.mem_append.mp he with he | he
    · exact h.inside_settle hq (h.paused.kept e he hnot)
    · cases List.mem_singleton.mp he
      rcases htop with ⟨htop, -⟩ | ⟨-, hstranded | hin⟩
      · exact ⟨.loop l, by simp [htop], .refl⟩
      · exact absurd hstranded hnot
      · exact h.inside_settle hq hin
  case hosts =>
    intro d hd e he
    rw [nester_settle]
    rcases List.mem_append.mp hd with hd | hd
    · exact h.conserved hq (h.ready.mem_reachable (h.mem_order _ hd)) (h.paused.hosts d hd e he)
    · cases List.mem_singleton.mp hd
      exact h.hosts hq he
  case conserved =>
    intro r hr t hcontains
    rw [nester_settle]
    exact h.conserved hq hr (h.paused.conserved r hr t hcontains)

end AtTurn
end Turn

/-! ## All turns -/

/-- An instruction runs at the top if it has no dependencies, and nothing else happens. -/
theorem Paused.instruction {i : Fin m} {p' : Progress m n}
    (hp : Paused k layer start order done p)
    (hstep : advance k layer order p (.instruction i) = .ok p') :
    Paused k layer start order (done ++ [.instruction i]) p' := by
  obtain ⟨deps, hdeps, hstep⟩ := bind_eq_ok_iff.mp hstep
  have hneeds : k.needs layer (.instruction i) = deps := by
    rw [Layer.depsOf] at hdeps
    split at hdeps
    · rename_i found hfind
      cases hdeps
      exact congrArg (Option.getD · []) hfind
    · cases hdeps
  have hloop : ∀ l : Fin n, Ref.loop l ∈ done ++ [.instruction i] ↔ .loop l ∈ done := by simp
  have hp' : p'.nester = p.nester ∧ p'.overlapping = p.overlapping ∧
      p'.top = if deps = [] then p.top ++ [.instruction i] else p.top := by
    cases hstep
    cases deps <;> simp
  obtain ⟨hnester, hmarks, htop⟩ := hp'
  have hsub : ∀ r ∈ p.top, r ∈ p'.top := by
    intro r hr
    rw [htop]
    split
    · exact List.mem_append_left _ hr
    · exact hr
  constructor
  case finished => simpa only [hloop, hnester] using hp.finished
  case untouched => simpa only [hloop, hnester] using hp.untouched
  case marks => simpa only [hloop, hmarks] using hp.marks
  case instructions =>
    intro j
    rw [htop]
    by_cases hnil : deps = []
    · rw [if_pos hnil, List.mem_append, hp.instructions, List.mem_append]
      grind
    · rw [if_neg hnil, hp.instructions, List.mem_append]
      grind
  case loops =>
    intro l hl
    rw [hloop]
    refine hp.loops l ?_
    rw [htop] at hl
    split at hl
    · simpa using hl
    · exact hl
  case sublist =>
    rw [htop]
    split
    · exact hp.sublist.append (.refl _)
    · exact hp.sublist.trans (List.sublist_append_left _ _)
  case kept =>
    intro l hl hnot
    obtain ⟨r, hr, hcontains⟩ := hp.kept l ((hloop l).mp hl) hnot
    exact ⟨r, hsub r hr, hnester ▸ hcontains⟩
  case hosts => simpa only [hloop, hnester] using hp.hosts
  case conserved => simpa only [hnester] using hp.conserved

/-- **One turn.** -/
theorem Paused.turn (h : Ready k start order) {r : Ref m n} {after : List (Ref m n)}
    (hsplit : order = done ++ r :: after) (hp : Paused k layer start order done p)
    {p' : Progress m n} (hstep : advance k layer order p r = .ok p') :
    Paused k layer start order (done ++ [r]) p' := by
  cases r with
  | instruction i => exact hp.instruction hstep
  | loop l =>
    have hturn : AtTurn k layer start order done l p := ⟨h, ⟨after, hsplit⟩, hp⟩
    obtain ⟨q, hrun, hq⟩ := hturn.meetings
    obtain ⟨q', hrun', hstep⟩ := bind_eq_ok_iff.mp hstep
    cases hrun.symm.trans hrun'
    cases hstep
    exact hturn.paused_settle hq

/-- **All turns**, one after the other. -/
theorem Paused.run (h : Ready k start order) {todo : List (Ref m n)} :
    ∀ {done : List (Ref m n)} {p p' : Progress m n}, order = done ++ todo →
      Paused k layer start order done p → todo.foldlM (advance k layer order) p = .ok p' →
        Paused k layer start order order p' := by
  induction todo with
  | nil =>
    intro done p p' horder hp hrun
    cases hrun
    rw [List.append_nil] at horder
    rwa [← horder] at hp
  | cons r todo ih =>
    intro done p p' horder hp hrun
    rw [List.foldlM_cons] at hrun
    obtain ⟨q, hstep, hrun⟩ := bind_eq_ok_iff.mp hrun
    refine ih ?_ (hp.turn h horder hstep) hrun
    rw [horder, List.append_assoc, List.singleton_append]

/-- A turn succeeds if the layer knows the dependencies of an instruction whose turn it is. -/
theorem Paused.exists_turn (h : Ready k start order) {r : Ref m n} {after : List (Ref m n)}
    (hsplit : order = done ++ r :: after) (hp : Paused k layer start order done p)
    (hdeps : layer.deps.contains (k.name r) = true) :
    ∃ p', advance k layer order p r = .ok p' := by
  cases r with
  | instruction i =>
    obtain ⟨deps, hdeps⟩ := NameMap.contains_eq_true_iff.mp hdeps
    exact ⟨_, advance_instruction hdeps⟩
  | loop l =>
    have hturn : AtTurn k layer start order done l p := ⟨h, ⟨after, hsplit⟩, hp⟩
    obtain ⟨q, hrun, -⟩ := hturn.meetings
    exact ⟨_, bind_eq_ok_iff.mpr ⟨q, hrun, rfl⟩⟩

theorem Paused.exists_run (h : Ready k start order)
    (hdeps : ∀ r ∈ k.items, layer.deps.contains (k.name r) = true) {todo : List (Ref m n)} :
    ∀ {done : List (Ref m n)} {p : Progress m n}, order = done ++ todo →
      Paused k layer start order done p → ∃ p', todo.foldlM (advance k layer order) p = .ok p' := by
  induction todo with
  | nil => exact fun _ _ => ⟨_, rfl⟩
  | cons r todo ih =>
    intro done p horder hp
    have hr : r ∈ k.items := h.perm.mem_iff.mp (by rw [horder]; simp)
    obtain ⟨q, hstep⟩ := hp.exists_turn h horder (hdeps r hr)
    obtain ⟨p', hrun⟩ := ih (by rw [horder, List.append_assoc, List.singleton_append])
      (hp.turn h horder hstep)
    refine ⟨p', ?_⟩
    rw [List.foldlM_cons]
    exact bind_eq_ok_iff.mpr ⟨q, hstep, hrun⟩

end Nester
end LoopNest
