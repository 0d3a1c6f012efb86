import LoopNest.Proofs.Schedule.Acyclic
import LoopNest.Proofs.Schedule.Forward
import LoopNest.Proofs.Schedule.InPlace
import LoopNest.Proofs.Schedule.OneName

/-!
# Declared nests

A kernel may declare its loops with everything inside them, as trees of inline loops and
instructions.  Then there is nothing to infer and nothing to wait for, and compiling should give
back what was declared.  Whether it does so is a question of names.

## Names of members

Loops of the kernel that have no member name in common leave each other alone.  Where two have one,
the later loop moves into the earlier one, and the schedule gets shorter: a loop that was taken in
by a loop at the top is marked, and in its own turn it is found inside, so it never gets to the top
(`Taken`).  It may be pushed out again by the next loop that is taken in, but then that one is
inside.

## Names further in

If no two loops have a member name in common, the bodies are the declared ones, and what becomes of
them is up to attaching (`Nest.Consistent`).

* `Nester.Turning.meets`, `Nester.Stage.step`: one meeting and one turn.
* `Nester.exists_nest_opening`: what nesting returns.
* `Kernel.Declares`: a kernel and the nests that it declares.
* `Kernel.Declares.exists_compile`, `Kernel.Declares.apart_of_compile`: when compiling gives them
  back.
-/

namespace LoopNest

variable {m n : Nat}

namespace Nester

open Kernel

variable {k : Kernel m n} {s : Nester m n} {order : List (Ref m n)}

/-! ## What is found -/

section Placed

variable {target : Ref m n} {pending : List (Ref m n)} {visited : List String}

theorem placedIn_of_mem (h : target ∈ pending) : s.placedIn k target pending visited = true := by
  fun_induction placedIn s k target pending visited with
  | case1 visited => exact absurd h List.not_mem_nil
  | case2 visited pending => rfl
  | case3 visited pending i hne ih => exact ih ((List.mem_cons.mp h).resolve_left (Ne.symm hne))
  | case4 visited pending l x hseen hne ih =>
    exact ih ((List.mem_cons.mp h).resolve_left (Ne.symm hne))
  | case5 visited pending l x hfresh hne ih =>
    exact ih (List.mem_append_right _ ((List.mem_cons.mp h).resolve_left (Ne.symm hne)))

/-- A loop that is in no body is found only where it stands. -/
theorem placedIn_of_notMem (hbodies : ∀ l, target ∉ s.body k l) (h : target ∉ pending) :
    s.placedIn k target pending visited = false := by
  fun_induction placedIn s k target pending visited with
  | case1 visited => rfl
  | case2 visited pending => exact absurd List.mem_cons_self h
  | case3 visited pending i hne ih => exact ih fun hmem => h (List.mem_cons_of_mem _ hmem)
  | case4 visited pending l x hseen hne ih => exact ih fun hmem => h (List.mem_cons_of_mem _ hmem)
  | case5 visited pending l x hfresh hne ih =>
    refine ih fun hmem => ?_
    rcases List.mem_append.mp hmem with hmem | hmem
    · exact hbodies l (List.mem_reverse.mp hmem)
    · exact h (List.mem_cons_of_mem _ hmem)

/-- What is in the body of all loops of a name is found where one of them is.  Which of them is
looked into does not matter. -/
theorem placedIn_of_holds {i : Fin n}
    (hholds : ∀ l, (k.loop l).head.name = (k.loop i).head.name → target ∈ s.body k l)
    (hi : .loop i ∈ pending) (hvisited : (k.loop i).head.name ∉ visited) :
    s.placedIn k target pending visited = true := by
  fun_induction placedIn s k target pending visited with
  | case1 visited => exact absurd hi List.not_mem_nil
  | case2 visited pending => rfl
  | case3 visited pending j hne ih =>
    exact ih ((List.mem_cons.mp hi).resolve_left (by simp)) hvisited
  | case4 visited pending l x hseen hne ih =>
    rcases List.mem_cons.mp hi with heq | hi
    · cases heq
      exact absurd (List.contains_iff_mem.mp hseen) hvisited
    · exact ih hi hvisited
  | case5 visited pending l x hfresh hne ih =>
    by_cases hname : (k.loop i).head.name = x
    · exact placedIn_of_mem (List.mem_append_left _ (List.mem_reverse.mpr (hholds l hname.symm)))
    · rcases List.mem_cons.mp hi with heq | hi
      · cases heq
        exact absurd rfl hname
      · exact ih (List.mem_append_right _ hi) (by simp [hname, hvisited])

end Placed

/-! ## A loop that was taken in -/

/-- The loop is marked, and in the body of all loops with the name of one at the top. -/
structure Taken (k : Kernel m n) (p : Progress m n) (host guest : Fin n) : Prop where
  top : .loop host ∈ p.top
  holds : ∀ l, (k.loop l).head.name = (k.loop host).head.name → .loop guest ∈ p.nester.body k l
  marked : (k.loop guest).head.name ∈ p.overlapping

/-- In a turn the top has stayed as it was, or it has got the loop whose turn it is, which is
marked. -/
def Grown (k : Kernel m n) (outer : Fin n) (p q : Progress m n) : Prop :=
  q.top = p.top ∨ q.top = p.top ++ [.loop outer] ∧ (k.loop outer).head.name ∈ q.overlapping

section Meets

variable {p q q' : Progress m n} {outer other host guest : Fin n}

theorem Meets.overlapping (h : Meets k order outer other p q) : p.overlapping ⊆ q.overlapping := by
  cases h with
  | apart => exact List.Subset.refl _
  | marked => exact List.subset_append_left _ _
  | absorbed => exact List.subset_append_left _ _

theorem Meets.top (h : Meets k order outer other p q) : p.top ⊆ q.top := by
  cases h with
  | apart => exact List.Subset.refl _
  | marked => exact List.Subset.refl _
  | absorbed =>
    simp only
    split
    · exact List.Subset.refl _
    · exact List.subset_append_left _ _

/-- A meeting keeps the bodies of loops with other names. -/
theorem Meets.body (h : Meets k order outer other p q) {l : Fin n}
    (hne : (k.loop l).head.name ≠ (k.loop outer).head.name) :
    q.nester.body k l = p.nester.body k l := by
  cases h with
  | apart => rfl
  | marked => rfl
  | absorbed => rw [body_absorb, if_neg hne]

theorem Grown.meets (h : Grown k outer p q) (hmeets : Meets k order outer other q q') :
    Grown k outer p q' := by
  cases hmeets with
  | apart => exact h
  | marked => exact h.imp_right fun h => ⟨h.1, List.mem_append_left _ h.2⟩
  | absorbed =>
    have hmarked : (k.loop outer).head.name
        ∈ q.overlapping ++ [(k.loop other).head.name, (k.loop outer).head.name] := by simp
    rcases h with htop | ⟨htop, -⟩
    · simp only [Grown, htop]
      split
      · exact .inl rfl
      · exact .inr ⟨rfl, hmarked⟩
    · -- the loop is at the top, so it is found there
      have hfound : ∀ s : Nester m n, s.placed k (.loop outer) q.top = true := fun s =>
        placedIn_of_mem (by simp [htop])
      exact .inr ⟨(if_pos (hfound _)).trans htop, hmarked⟩

/-- The turn of another loop leaves the guest where it is. -/
theorem Taken.meets (h : Taken k p host guest) (hmeets : Meets k order outer other p q)
    (hne : (k.loop host).head.name ≠ (k.loop outer).head.name) : Taken k q host guest where
  top := hmeets.top h.top
  holds l hl := by
    rw [hmeets.body (hl.trans_ne hne)]
    exact h.holds l hl
  marked := hmeets.overlapping h.marked

/-- In its own turn the guest is found inside its host. -/
theorem Taken.top_eq (h : Taken k p host outer) (hmeets : Meets k order outer other p q)
    (hne : (k.loop host).head.name ≠ (k.loop outer).head.name) : q.top = p.top := by
  have htaken := h.meets hmeets hne
  cases hmeets with
  | apart => rfl
  | marked => rfl
  | absorbed => exact if_pos (placedIn_of_holds htaken.holds (List.mem_reverse.mpr h.top) (by simp))

/-- In the turn of the host another guest may come in. -/
theorem Taken.meets_host (h : Taken k p outer guest) (hmeets : Meets k order outer other p q) :
    Taken k q outer guest ∨ comesLater order outer other = true ∧ Taken k q outer other := by
  have htop := hmeets.top h.top
  cases hmeets with
  | apart => exact .inl h
  | marked => exact .inl ⟨htop, h.holds, List.mem_append_left _ h.marked⟩
  | absorbed hnames hcommon hlater =>
    refine .inr ⟨hlater, htop, fun l hl => ?_, by simp⟩
    rw [body_absorb, if_pos hl]
    exact (substitute_perm _ _ _).mem_iff.mpr List.mem_cons_self

/-- The first guest of a loop that is nowhere yet brings it to the top. -/
theorem Meets.first (hmeets : Meets k order outer other p q) (htop : Ref.loop outer ∉ p.top)
    (hbodies : ∀ l, Ref.loop outer ∉ p.nester.body k l) :
    q = p ∧ (other = outer ∨ shared k (p.nester.body k other) (p.nester.body k outer) = []) ∨
      shared k (p.nester.body k other) (p.nester.body k outer) ≠ [] ∧
        (comesLater order other outer = true ∨
          comesLater order outer other = true ∧ Taken k q outer other) := by
  cases hmeets with
  | apart h => exact .inl ⟨rfl, h⟩
  | marked hcommon hearlier => exact .inr ⟨hcommon, .inl hearlier⟩
  | @absorbed common hnames hcommon hlater =>
    refine .inr ⟨fun hnil => hcommon (by rw [hnames, hnil]; rfl), .inr ⟨hlater, ?_⟩⟩
    have hnowhere : ∀ l, Ref.loop outer ∉ (p.nester.absorb k outer other common).body k l := by
      intro l hl
      rw [body_absorb] at hl
      split at hl
      · rcases List.mem_cons.mp ((substitute_perm _ _ _).mem_iff.mp hl) with heq | hl
        · cases heq
          exact absurd (comesLater_iff.mp hlater) (Nat.lt_irrefl _)
        · exact hbodies outer (List.mem_of_mem_filter hl)
      · exact hbodies l hl
    have hplaced : (p.nester.absorb k outer other common).placed k (.loop outer) p.top = false :=
      placedIn_of_notMem hnowhere (by simpa using htop)
    refine ⟨?_, fun l hl => ?_, by simp⟩
    · simp [hplaced]
    · rw [body_absorb, if_pos hl]
      exact (substitute_perm _ _ _).mem_iff.mpr List.mem_cons_self

end Meets

/-! ## One turn -/

section Turn

variable {layer : Layer m n} {p q : Progress m n} {l : Fin n}

theorem advance_of_marked (hturn : k.loops.foldlM (meet k order l) p = .ok q)
    (h : (k.loop l).head.name ∈ q.overlapping) : advance k layer order p (.loop l) = .ok q := by
  refine bind_eq_ok_iff.mpr ⟨q, hturn, ?_⟩
  rw [if_pos (List.contains_iff_mem.mpr h)]
  rfl

theorem advance_of_unmarked (hturn : k.loops.foldlM (meet k order l) p = .ok q)
    (h : (k.loop l).head.name ∉ q.overlapping) :
    advance k layer order p (.loop l) = .ok { q with top := q.top ++ [.loop l] } := by
  refine bind_eq_ok_iff.mpr ⟨q, hturn, ?_⟩
  rw [if_neg (mt List.contains_iff_mem.mp h)]
  rfl

/-- After its turn at most the loop itself was added to the top. -/
theorem Grown.exists_advance (h : Grown k l p q)
    (hturn : k.loops.foldlM (meet k order l) p = .ok q) :
    ∃ q', advance k layer order p (.loop l) = .ok q' ∧ q'.top.length ≤ p.top.length + 1 ∧
      ∀ host guest, Taken k q host guest → Taken k q' host guest := by
  by_cases hmarked : (k.loop l).head.name ∈ q.overlapping
  · refine ⟨q, advance_of_marked hturn hmarked, ?_, fun _ _ htaken => htaken⟩
    rcases h with htop | ⟨htop, -⟩
    · rw [htop]
      omega
    · rw [htop, List.length_append, List.length_singleton]
  · have htop : q.top = p.top := h.resolve_right fun h => hmarked h.2
    refine ⟨_, advance_of_unmarked hturn hmarked, ?_, fun host guest htaken => ?_⟩
    · rw [htop, List.length_append, List.length_singleton]
    · exact ⟨List.mem_append_left _ htaken.top, htaken.holds, htaken.marked⟩

end Turn

/-! ## All turns -/

/-- The bodies of the kernel's own loops as they were declared. -/
def opening (k : Kernel m n) : Nester m n :=
  ⟨.ofList (k.loops.map fun l => ((k.loop l).head.name, (k.loop l).members)), 0⟩

/-- A loop has the members that it declares, or those of the kernel's own loop of its name. -/
theorem body_opening (hk : k.Distinct) (l : Fin n) :
    (∃ e ∈ k.loops, (k.loop e).head.name = (k.loop l).head.name ∧
        (opening k).body k l = (k.loop e).members) ∨
      (opening k).body k l = (k.loop l).members := by
  by_cases h : ∃ e ∈ k.loops, (k.loop e).head.name = (k.loop l).head.name
  · obtain ⟨e, he, hname⟩ := h
    have hfind : (opening k).bodies.find? (k.loop e).head.name = some (k.loop e).members :=
      NameMap.find?_ofList (by rw [List.map_map]; exact hk.loops)
        (List.mem_map_of_mem (f := fun l => ((k.loop l).head.name, (k.loop l).members)) he)
    refine .inl ⟨e, he, hname, ?_⟩
    rw [body, ← hname, hfind, Option.getD_some]
  · exact .inr (body_ofList_of_ne fun e he hname => h ⟨e, he, hname⟩)

end Nester

/-- The loop has no member name in common with another loop of the kernel. -/
def Kernel.StandsAlone (k : Kernel m n) (l : Fin n) : Prop :=
  ∀ e ∈ k.loops, e ≠ l → List.Disjoint ((k.loop e).members.map k.name)
    ((k.loop l).members.map k.name)

namespace Nester

open Kernel

variable {k : Kernel m n}

theorem shared_eq_nil_iff {first second : List (Ref m n)} :
    shared k first second = [] ↔ List.Disjoint (first.map k.name) (second.map k.name) := by
  rw [shared, List.filter_eq_nil_iff, List.disjoint_left, List.forall_mem_map]
  simp only [List.contains_iff_mem]

/-- The loops had their turns, and nothing was taken in. -/
def untouched (k : Kernel m n) (before : List (Fin n)) : Progress m n :=
  ⟨opening k, [], before.map .loop⟩

/-- How far nesting has come: nothing was taken in, or there is a guest whose turn is still to come,
or some loop has missed its turn. -/
inductive Stage (k : Kernel m n) (before after : List (Fin n)) : Progress m n → Prop where
  | clear (halone : ∀ d ∈ before, k.StandsAlone d) :
      Stage k before after (untouched k before)
  | taken {p : Progress m n} {host guest : Fin n} (hshare : ∃ l ∈ k.loops, ¬ k.StandsAlone l)
      (hhost : host ∈ before) (hguest : guest ∈ after) (htaken : Taken k p host guest)
      (hlength : p.top.length ≤ before.length) : Stage k before after p
  | short {p : Progress m n} (hshare : ∃ l ∈ k.loops, ¬ k.StandsAlone l)
      (hlength : p.top.length < before.length) : Stage k before after p

section Stages

variable (hk : k.Distinct) (hempty : k.instructions = [])
  (hinline : ∀ e, ∀ l ∈ k.loops, .loop l ∉ (k.loop e).members) {before after : List (Fin n)}
  {l : Fin n} (hsplit : k.loops = before ++ l :: after)

include hk hempty hsplit in
/-- Without instructions the order of the items is that of the loops. -/
theorem mem_of_comesLater {e : Fin n} (he : e ∈ k.loops) :
    (comesLater k.items e l = true → e ∈ before) ∧ (comesLater k.items l e = true → e ∈ after) := by
  have horder : k.items = before.map .loop ++ .loop l :: after.map .loop := by
    rw [items, hempty, hsplit, List.map_nil, List.nil_append, List.map_append, List.map_cons]
  have hbefore : ∀ {d}, comesLater k.items d l = true ↔ d ∈ before := by
    intro d
    rw [← mem_before_iff (hk.of_map _) horder, List.mem_map]
    constructor
    · rintro ⟨d', hd', heq⟩
      cases heq
      exact hd'
    · exact fun hd => ⟨d, hd, rfl⟩
  refine ⟨hbefore.mp, fun hlater => ?_⟩
  rw [comesLater_iff] at hlater
  rw [hsplit, List.mem_append, List.mem_cons] at he
  rcases he with he | rfl | he
  · have := comesLater_iff.mp (hbefore.mpr he)
    omega
  · omega
  · exact he

include hk hsplit in
theorem ne_of_mem_before {d : Fin n} (hd : d ∈ before) : d ≠ l := by
  have hnodup := hk.nodup_loops
  rw [hsplit, List.nodup_append] at hnodup
  exact hnodup.2.2 d hd l List.mem_cons_self

include hk in
theorem shared_opening {d e : Fin n} (hd : d ∈ k.loops) (he : e ∈ k.loops) :
    shared k ((opening k).body k d) ((opening k).body k e) = [] ↔
      List.Disjoint ((k.loop d).members.map k.name) ((k.loop e).members.map k.name) := by
  have hbody : ∀ e ∈ k.loops, (opening k).body k e = (k.loop e).members :=
    fun _ he => body_ofList hk he
  rw [shared_eq_nil_iff, hbody d hd, hbody e he]

/-- How far a turn has come in which nothing was taken in before: the loop has met some others and
has nothing in common with them, or it has taken in a guest. -/
structure Turning (k : Kernel m n) (before : List (Fin n)) (l : Fin n) (after met : List (Fin n))
    (q : Progress m n) : Prop where
  grown : Grown k l (untouched k before) q
  cases : (q = untouched k before ∧ ∀ e ∈ met, e ≠ l →
      List.Disjoint ((k.loop e).members.map k.name) ((k.loop l).members.map k.name)) ∨
    ¬ k.StandsAlone l ∧ ∃ guest ∈ after, Taken k q l guest

section Turning

variable {met : List (Fin n)} {other : Fin n} {q q' : Progress m n}

include hk hempty hinline hsplit in
/-- **One meeting.** -/
theorem Turning.meets (halone : ∀ d ∈ before, k.StandsAlone d) (hother : other ∈ k.loops)
    (h : Turning k before l after met q) (hmeets : Meets k k.items l other q q') :
    Turning k before l after (met ++ [other]) q' := by
  have hl : l ∈ k.loops := by simp [hsplit]
  obtain ⟨hearlier, hlater⟩ := mem_of_comesLater hk hempty hsplit hother
  have hne : ∀ {e}, comesLater k.items e l = true ∨ comesLater k.items l e = true → e ≠ l := by
    rintro e hcomes rfl
    exact absurd (comesLater_iff.mp (hcomes.elim id id)) (Nat.lt_irrefl _)
  refine ⟨h.grown.meets hmeets, ?_⟩
  rcases h.cases with ⟨rfl, hdisjoint⟩ | ⟨hshare, guest, hguest, htaken⟩
  · have htop : Ref.loop l ∉ (untouched k before).top := by
      intro hmem
      obtain ⟨d, hd, heq⟩ := List.mem_map.mp hmem
      cases heq
      exact ne_of_mem_before hk hsplit hd rfl
    have hbodies : ∀ e, Ref.loop l ∉ (opening k).body k e := by
      intro e
      rcases body_opening hk e with ⟨e', -, -, hbody⟩ | hbody
      · exact hbody ▸ hinline e' l hl
      · exact hbody ▸ hinline e l hl
    rcases hmeets.first htop hbodies with ⟨rfl, hapart⟩ | ⟨hcommon, hcomes⟩
    · refine .inl ⟨rfl, fun e he hne => ?_⟩
      rcases List.mem_append.mp he with he | he
      · exact hdisjoint e he hne
      · obtain rfl := List.mem_singleton.mp he
        exact (shared_opening hk hother hl).mp (hapart.resolve_left hne)
    · have hcommon := mt (shared_opening hk hother hl).mpr hcommon
      rcases hcomes with hcomes | ⟨hcomes, htaken⟩
      · -- an earlier loop stands alone
        exact absurd (halone other (hearlier hcomes) l hl (hne (.inl hcomes)).symm).symm hcommon
      · exact .inr ⟨fun halone => hcommon (halone other hother (hne (.inr hcomes))), other,
          hlater hcomes, htaken⟩
  · refine .inr ⟨hshare, ?_⟩
    rcases htaken.meets_host hmeets with htaken | ⟨hcomes, htaken⟩
    · exact ⟨guest, hguest, htaken⟩
    · exact ⟨other, hlater hcomes, htaken⟩

include hk hempty hinline hsplit in
/-- A turn in which nothing was taken in before: the loop stands alone, or it takes in a guest. -/
theorem exists_turn_of_clear (halone : ∀ d ∈ before, k.StandsAlone d) :
    ∃ q, k.loops.foldlM (meet k k.items l) (untouched k before) = .ok q ∧
      Turning k before l after k.loops q := by
  have hl : l ∈ k.loops := by simp [hsplit]
  refine exists_foldlM_of_prefix (fun met other rest hmet q hq => ?_)
    ⟨.inl rfl, .inl ⟨rfl, by simp⟩⟩
  have hother : other ∈ k.loops := by simp [hmet]
  obtain ⟨q', hmeet, hmeets⟩ := exists_meets hk (List.Perm.refl _) hl hother q
  exact ⟨q', hmeet, hq.meets hk hempty hinline hsplit halone hother hmeets⟩

end Turning

include hk hempty hinline hsplit in
/-- **One turn.** -/
theorem Stage.step (layer : Layer m n) {p : Progress m n} (h : Stage k before (l :: after) p) :
    ∃ q, advance k layer k.items p (.loop l) = .ok q ∧ Stage k (before ++ [l]) after q := by
  have hl : l ∈ k.loops := by simp [hsplit]
  cases h with
  | clear halone =>
    obtain ⟨q, hturn, hgrown, hq⟩ := exists_turn_of_clear hk hempty hinline hsplit halone
    rcases hq with ⟨rfl, halone'⟩ | ⟨hshare, guest, hguest, htaken⟩
    · refine ⟨_, advance_of_unmarked hturn List.not_mem_nil, ?_⟩
      rw [untouched, ← List.map_singleton, ← List.map_append]
      refine .clear fun d hd => ?_
      rcases List.mem_append.mp hd with hd | hd
      · exact halone d hd
      · exact List.mem_singleton.mp hd ▸ halone'
    · obtain ⟨q', hadvance, hlength, hkeep⟩ := hgrown.exists_advance hturn
      exact ⟨q', hadvance, .taken ⟨l, hl, hshare⟩ (by simp) hguest (hkeep l guest htaken)
        (by simpa [untouched] using hlength)⟩
  | @taken _ host guest hshare hhost hguest htaken hlength =>
    have hne : (k.loop host).head.name ≠ (k.loop l).head.name := by
      rw [Ne, loop_name_inj hk (by simp [hsplit, hhost]) hl]
      exact ne_of_mem_before hk hsplit hhost
    rcases List.mem_cons.mp hguest with rfl | hguest
    · -- the guest's own turn
      obtain ⟨q, hturn, htaken', htop⟩ := exists_turn hk (List.Perm.refl _) hl (fun e he => he)
        (P := fun q => Taken k q host guest ∧ q.top = p.top)
        (fun other _ q q' hq hmeets =>
          ⟨hq.1.meets hmeets hne, (hq.1.top_eq hmeets hne).trans hq.2⟩) ⟨htaken, rfl⟩
      refine ⟨q, advance_of_marked hturn htaken'.marked, .short hshare ?_⟩
      rw [htop, List.length_append, List.length_singleton]
      omega
    · obtain ⟨q, hturn, hgrown, htaken'⟩ := exists_turn hk (List.Perm.refl _) hl (fun e he => he)
        (P := fun q => Grown k l p q ∧ Taken k q host guest)
        (fun other _ q q' hq hmeets => ⟨hq.1.meets hmeets, hq.2.meets hmeets hne⟩)
        ⟨.inl rfl, htaken⟩
      obtain ⟨q', hadvance, hlength', hkeep⟩ := hgrown.exists_advance hturn
      refine ⟨q', hadvance, .taken hshare (List.mem_append_left _ hhost) hguest
        (hkeep host guest htaken') ?_⟩
      rw [List.length_append, List.length_singleton]
      omega
  | short hshare hlength =>
    obtain ⟨q, hturn, hgrown⟩ := exists_turn hk (List.Perm.refl _) hl (fun e he => he)
      (P := fun q => Grown k l p q) (fun other _ q q' hq hmeets => hq.meets hmeets) (.inl rfl)
    obtain ⟨q', hadvance, hlength', -⟩ := hgrown.exists_advance hturn
    refine ⟨q', hadvance, .short hshare ?_⟩
    rw [List.length_append, List.length_singleton]
    omega

include hk hempty hinline in
/-- **All turns.**  The declared bodies stay as they are, or some loop is missing at the top. -/
theorem exists_nest_opening (layer : Layer m n) :
    ∃ top s, (opening k).nest k layer k.items = .ok (top, s) ∧
      ((∀ l ∈ k.loops, k.StandsAlone l) ∧ top = k.items ∧ s = opening k ∨
        (∃ l ∈ k.loops, ¬ k.StandsAlone l) ∧ top.length < k.loops.length) := by
  have hitems : k.items = k.loops.map .loop := by
    rw [items, hempty, List.map_nil, List.nil_append]
  obtain ⟨q, hq, hstage⟩ := exists_foldlM_of_prefix (l := k.loops)
    (f := fun p l => advance k layer k.items p (.loop l)) (s := ⟨opening k, [], []⟩)
    (P := fun before p => ∀ after, k.loops = before ++ after → Stage k before after p)
    (fun before l after hsplit p hp => by
      obtain ⟨q, hadvance, hstage⟩ :=
        (hp (l :: after) hsplit).step hk hempty hinline hsplit layer
      refine ⟨q, hadvance, fun after' hsplit' => ?_⟩
      have hsame : after' = after := by simpa [hsplit] using hsplit'.symm
      exact hsame ▸ hstage)
    (fun after _ => .clear (by simp))
  have hrun : k.items.foldlM (advance k layer k.items) ⟨opening k, [], []⟩ = .ok q :=
    (congrArg (List.foldlM (advance k layer k.items) _) hitems).trans (List.foldlM_map.trans hq)
  refine ⟨q.top, q.nester, bind_eq_ok_iff.mpr ⟨q, hrun, rfl⟩, ?_⟩
  cases hstage [] (List.append_nil _).symm with
  | clear halone => exact .inl ⟨halone, hitems.symm, rfl⟩
  | taken _ _ hguest => exact absurd hguest List.not_mem_nil
  | short hshare hlength => exact .inr ⟨hshare, hlength⟩

end Stages

end Nester

/-! ## A kernel that declares nests -/

theorem exists_right_of_mem {α β : Type} {R : α → β → Prop} {xs : List α} {ys : List β} {x : α}
    (h : List.Forall₂ R xs ys) (hx : x ∈ xs) : ∃ y ∈ ys, R x y := by
  induction h with
  | nil => exact absurd hx List.not_mem_nil
  | @cons x' y xs ys hxy _ ih =>
    rcases List.mem_cons.mp hx with rfl | hx
    · exact ⟨y, List.mem_cons_self, hxy⟩
    · obtain ⟨y', hy', hxy'⟩ := ih hx
      exact ⟨y', List.mem_cons_of_mem _ hy', hxy'⟩

theorem Nester.Attaches.length_eq {s : Nester m n} {k : Kernel m n} {active : List String}
    {items : List (Ref m n)} {fin fin' : List (Finished m n)} {pairs : List (Ref m n × Nest)}
    (h : Attaches s k active items fin pairs fin') : pairs.length = items.length := by
  induction h with
  | nil => rfl
  | instruction _ _ ih => rw [List.length_cons, List.length_cons, ih]
  | seen _ _ _ ih => rw [List.length_cons, List.length_cons, ih]
  | fresh _ _ _ _ _ ih => rw [List.length_cons, List.length_cons, ih]

namespace Kernel

open Nester Nest

variable {k : Kernel m n} {nests : List Nest}

/-- The kernel has loops only, of different names, which wait for nothing; they are declared inline,
and unfold to the nests. -/
structure Declares (k : Kernel m n) (nests : List Nest) : Prop where
  distinct : k.Distinct
  instructions : k.instructions = []
  deps : ∀ l ∈ k.loops, (k.loop l).head.deps = []
  heads : k.loops.Pairwise fun d e => (k.loop d).head.mentions (k.loop e).head.name = false
  inline : ∀ e, ∀ l ∈ k.loops, .loop l ∉ (k.loop e).members
  unfolds : List.Forall₂ (fun l nest => declared.Unfolds k (.loop l) nest) k.loops nests

namespace Declares

theorem items_eq (h : k.Declares nests) : k.items = k.loops.map .loop := by
  rw [items, h.instructions, List.map_nil, List.nil_append]

section Plan

variable {layer : Layer m n} {l : Fin n} {before after : List (Fin n)}

theorem headMentions_eq_false (h : k.Declares nests) (hsplit : k.loops = before ++ l :: after) :
    (∀ d ∈ before, Layer.headMentions k d l = false) ∧
      ∀ e ∈ after, Layer.headMentions k l e = false := by
  have hheads := h.heads
  rw [hsplit, List.pairwise_append, List.pairwise_cons] at hheads
  exact ⟨fun d hd => hheads.2.2 d hd l List.mem_cons_self, hheads.2.1.1⟩

/-- Nothing waits for anything. -/
theorem needs_eq_nil (h : k.Declares nests) (hlayer : Layer.analyze k = .ok layer) {r : Ref m n}
    (hr : r ∈ k.items) : k.needs layer r = [] := by
  rw [h.items_eq] at hr
  obtain ⟨l, hl, rfl⟩ := List.mem_map.mp hr
  obtain ⟨before, after, hsplit⟩ := List.append_of_mem hl
  have hnone : before.filter (Layer.headMentions k · l) = [] :=
    List.filter_eq_nil_iff.mpr fun d hd => by simp [(h.headMentions_eq_false hsplit).1 d hd]
  rw [needs, name, Layer.deps_infer_loop h.distinct hlayer hsplit, h.deps l hl, hnone]
  rfl

/-- The members are the declared ones. -/
theorem find?_members (h : k.Declares nests) (hlayer : Layer.analyze k = .ok layer)
    (hl : l ∈ k.loops) : layer.members.find? (k.loop l).head.name = some (k.loop l).members := by
  obtain ⟨before, after, hsplit⟩ := List.append_of_mem hl
  have hnone : after.filter (Layer.headMentions k l) = [] :=
    List.filter_eq_nil_iff.mpr fun e he => by simp [(h.headMentions_eq_false hsplit).2 e he]
  rw [Layer.members_infer h.distinct hlayer hsplit, h.instructions, hnone]
  simp

/-- Nothing is inferred, so the loops are nested as they were declared. -/
theorem exists_arrange (h : k.Declares nests) : ∃ layer, Layer.analyze k = .ok layer ∧
    ∀ top s, (opening k).nest k layer k.items = .ok (top, s) →
      k.arrange layer = .ok ⟨k.items, opening k, top, s⟩ := by
  obtain ⟨layer, hlayer⟩ :=
    Layer.exists_analyze_eq_ok (k := k) (by rw [malformed?, h.instructions]; rfl)
  obtain ⟨g, hg⟩ := Graph.exists_build_of_inOrder (Layer.analyze_eq_ok hlayer).2.deps
    (List.Perm.refl k.items) fun pre r post hsplit d hd => by
      rw [h.needs_eq_nil hlayer (by rw [hsplit]; simp)] at hd
      exact absurd hd List.not_mem_nil
  have horder : g.drain.1 = k.items := by
    obtain ⟨hperm, -, hfree⟩ := Graph.drain_order hg
    rw [List.filter_eq_self.mpr fun r hr => by rw [h.needs_eq_nil hlayer hr]; rfl] at hfree
    exact (hfree.eq_of_length hperm.length_eq.symm).symm
  exact ⟨layer, hlayer, fun top s hnest => arrange_eq_ok_iff.mpr
    ⟨⟨g, hg, horder⟩, ofLayer_eq_ok fun l hl => h.find?_members hlayer hl, hnest⟩⟩

end Plan

/-- The names of a loop's members are those of the nests inside its nest. -/
theorem map_memberNames (h : k.Declares nests) :
    k.loops.map (fun l => (k.loop l).members.map k.name) = nests.map memberNames := by
  refine List.forall₂_eq_eq_eq ▸ List.forall₂_map_left_iff.mpr (List.forall₂_map_right_iff.mpr
    (h.unfolds.imp fun l nest hnest => ?_))
  cases hnest with
  | loop l pairs hbody hpairs =>
    have hmembers : pairs.map Prod.fst = (k.loop l).members := hbody
    rw [← hmembers, memberNames, List.map_map, List.map_map]
    refine List.map_congr_left fun p hp => ?_
    obtain ⟨r, nest⟩ := p
    cases hpairs (r, nest) hp with
    | instruction i => rfl
    | loop e members _ _ => rfl

/-- The kernel's loops stand alone iff the nests are apart. -/
theorem standsAlone_iff (h : k.Declares nests) :
    (∀ l ∈ k.loops, k.StandsAlone l) ↔ Apart nests := by
  have hapart : Apart nests ↔ k.loops.Pairwise fun d e =>
      List.Disjoint ((k.loop d).members.map k.name) ((k.loop e).members.map k.name) := by
    rw [Nest.Apart, ← List.pairwise_map (f := memberNames)
      (R := List.Disjoint), ← h.map_memberNames, List.pairwise_map]
  rw [hapart]
  constructor
  · intro halone
    refine h.distinct.nodup_loops.imp_of_mem fun {d e} hd he hne => ?_
    exact halone e he d hd hne
  · intro hpairwise l hl e he hne
    have : Std.Symm fun d e =>
        List.Disjoint ((k.loop d).members.map k.name) ((k.loop e).members.map k.name) :=
      ⟨fun _ _ hdisjoint => hdisjoint.symm⟩
    exact hpairwise.forall he hl hne

/-- The items are declared as the nests. -/
theorem declaredAs (h : k.Declares nests) : List.Forall₂ (DeclaredAs k nests) k.items nests := by
  rw [h.items_eq, List.forall₂_map_left_iff]
  refine ((List.forall₂_and_left _ _).mpr ⟨fun nest hnest => occurs_of_mem hnest,
    h.unfolds.flip⟩).flip.imp fun l nest hnest => ?_
  exact ⟨hnest.2, hnest.1⟩

/-- The bodies that nesting starts with are borrowed from declared loops. -/
theorem borrows_opening (h : k.Declares nests) : (opening k).Borrows k nests := by
  intro l nest hnest
  rcases body_opening h.distinct l with ⟨e, he, hname, hbody⟩ | hbody
  · have hitem : .loop e ∈ k.items := h.items_eq ▸ List.mem_map_of_mem he
    obtain ⟨nest', -, hnest'⟩ := exists_right_of_mem h.declaredAs hitem
    exact ⟨e, nest', hnest', hname, hbody⟩
  · exact ⟨l, nest, hnest, rfl, hbody⟩

/-- Compiling gives the lowered nests if these are apart and consistent. -/
theorem exists_compile (h : k.Declares nests) (hapart : Apart nests)
    (hconsistent : Consistent nests) :
    ∃ c k', (compile false).run k = .ok c k' ∧ c.tree = lowerAll nests := by
  obtain ⟨layer, hlayer, harrange⟩ := h.exists_arrange
  obtain ⟨top, s, hnest, hcases⟩ := exists_nest_opening h.distinct h.instructions h.inline layer
  rcases hcases with ⟨-, rfl, rfl⟩ | ⟨⟨l, hl, hshare⟩, -⟩
  · obtain ⟨pairs, fin, hattaches, hlower, -⟩ := exists_attaches_of_consistent hconsistent
      h.borrows_opening [] k.items h.declaredAs (List.forall_mem_nil _) (by simp [Deeper])
    rw [run_compile_false hlayer, scheduled, harrange _ _ hnest]
    simp only [hattaches.run]
    refine ⟨_, _, rfl, ?_⟩
    rw [lowerAll, lowerAll, lowerEach_eq, lowerEach_eq, List.map_map, ← hlower]
    rfl
  · exact absurd (h.standsAlone_iff.mpr hapart l hl) hshare

/-- If compiling gives the lowered nests, these are apart, and consistent unless an instruction is
itself a block. -/
theorem apart_of_compile (h : k.Declares nests) {c : Compilation} {k' : Kernel m n}
    (hrun : (compile false).run k = .ok c k') (htree : c.tree = lowerAll nests) :
    Apart nests ∧ ((∀ i args, (k.instruction i).body ≠ .form blockTag args) →
      Consistent nests) := by
  obtain ⟨layer, hlayer, harrange⟩ := h.exists_arrange
  obtain ⟨top, s, hnest, hcases⟩ := exists_nest_opening h.distinct h.instructions h.inline layer
  rw [run_compile_false hlayer, scheduled, harrange _ _ hnest] at hrun
  cases hattach : (s.attach k [] top).run [] with
  | error e fin =>
    simp only [hattach] at hrun
    cases hrun
  | ok pairs fin =>
    simp only [hattach] at hrun
    cases hrun
    have hattaches := attaches_of_run hattach
    obtain ⟨hledger, hmade⟩ := hattaches.ledger (.nil k)
    have hlower : pairs.map (fun p => p.2.lower) = nests.map lower := by
      simp only [lowerAll, lowerEach_eq, List.map_map, Expr.form.injEq, true_and] at htree
      exact htree
    refine ⟨h.standsAlone_iff.mp ?_, fun hplain => hledger.consistent hplain hmade hlower⟩
    rcases hcases with ⟨halone, -⟩ | ⟨-, hshort⟩
    · exact halone
    · -- every loop of the kernel has a nest, so none is missing at the top
      have hlength : pairs.length = nests.length := by simpa using congrArg List.length hlower
      have hloops := h.unfolds.length_eq
      have htop := hattaches.length_eq
      omega

end Declares
end Kernel
end LoopNest
