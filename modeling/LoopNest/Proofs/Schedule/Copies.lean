import LoopNest.Proofs.Schedule.Contains

/-!
# How often a loop stands in a schedule

A loop that is a member in several places is unfolded in each of them, and once more for every copy
of a loop around it.  The copies of a loop are counted by an equation: as many as it has places at
the top, and for each loop that holds it as many as there are copies of that loop, times its places
there (`Nester.Forest.copies_eq`).

So copies only multiply on the way down.  A loop stands once exactly if neither it nor a loop around
it has two places (`Nester.Forest.copies_le_one_iff`).

* `Nest.countP_visitsAll`: the copies of a loop in nests.
* `Nester.Forest.copies_le_one_iff`: when there is at most one.
-/

namespace LoopNest

/-! ## Counting in nests -/

/-- A sum over a list, taken by the keys of its entries. -/
theorem sum_map_eq_sum_countP_mul {α β : Type} [DecidableEq β] {keys : List β} (hkeys : keys.Nodup)
    {p : β → α → Bool} {f : α → Nat} {w : β → Nat} {l : List α}
    (hsome : ∀ a ∈ l, f a ≠ 0 → ∃ b ∈ keys, p b a = true)
    (hone : ∀ a ∈ l, ∀ b ∈ keys, ∀ c ∈ keys, p b a = true → p c a = true → c = b)
    (hvalue : ∀ a ∈ l, ∀ b ∈ keys, p b a = true → f a = w b) :
    (l.map f).sum = (keys.map fun b => l.countP (p b) * w b).sum := by
  induction l with
  | nil => simp
  | cons a l ih =>
    have ih := ih (fun c hc => hsome c (List.mem_cons_of_mem _ hc))
      (fun c hc => hone c (List.mem_cons_of_mem _ hc))
      (fun c hc => hvalue c (List.mem_cons_of_mem _ hc))
    have hfirst : (keys.map fun b => if p b a = true then w b else 0).sum = f a := by
      by_cases hkey : ∃ b ∈ keys, p b a = true
      · obtain ⟨b, hb, hp⟩ := hkey
        rw [List.sum_map_eq_nsmul_single b, List.count_eq_one_of_mem hkeys hb, if_pos hp, one_smul]
        · exact (hvalue a List.mem_cons_self b hb hp).symm
        · intro c hcb hc
          exact if_neg fun hpc => hcb (hone a List.mem_cons_self b hb c hc hp hpc)
      · have hzero : f a = 0 := by
          by_contra hne
          exact hkey (hsome a List.mem_cons_self hne)
        rw [hzero, List.sum_eq_zero_iff]
        intro x hx
        obtain ⟨b, hb, rfl⟩ := List.mem_map.mp hx
        exact if_neg fun hp => hkey ⟨b, hb, hp⟩
    have hsplit : ∀ b, (a :: l).countP (p b) * w b
        = (if p b a = true then w b else 0) + l.countP (p b) * w b := by
      intro b
      rw [List.countP_cons]
      split
      · ring
      · ring
    simp only [hsplit]
    rw [List.sum_map_add, hfirst, List.map_cons, List.sum_cons, ih]

namespace Nest

/-- The nest is a loop with the name. -/
def isLoop (x : String) : Nest → Bool
  | .instruction _ => false
  | .loop head _ => head.name = x

/-- The nests inside the root. -/
def members : Nest → List Nest
  | .instruction _ => []
  | .loop _ members => members

/-- How often a loop with the name stands in nests. -/
def copies (x : String) (nests : List Nest) : Nat :=
  (visitsAll [] nests).countP fun v => v.node.isLoop x

mutual

theorem countP_visits (x : String) (around : List LoopHead) : ∀ nest : Nest,
    (nest.visits around).countP (fun v => v.node.isLoop x)
      = (if nest.isLoop x = true then 1 else 0)
        + ((nest.visits around).map fun v => v.node.members.countP (isLoop x)).sum
  | .instruction i => by simp [visits, isLoop, members]
  | .loop head nests => by
    rw [visits, List.countP_cons, countP_visitsAll x (around ++ [head]) nests, List.map_cons,
      List.sum_cons, members]
    show _ + _ + (if (Nest.loop head nests).isLoop x = true then 1 else 0) = _
    omega

/-- The copies of a loop are those at the top and those right inside some place. -/
theorem countP_visitsAll (x : String) (around : List LoopHead) : ∀ nests : List Nest,
    (visitsAll around nests).countP (fun v => v.node.isLoop x)
      = nests.countP (isLoop x)
        + ((visitsAll around nests).map fun v => v.node.members.countP (isLoop x)).sum
  | [] => by simp [visitsAll]
  | nest :: nests => by
    rw [visitsAll, List.countP_append, countP_visits x around nest, countP_visitsAll x around nests,
      List.map_append, List.sum_append, List.countP_cons]
    omega

end

mutual

theorem sizeOf_le_of_mem_visits {around : List LoopHead} {v : Visit} :
    ∀ nest : Nest, v ∈ nest.visits around → sizeOf v.node ≤ sizeOf nest
  | .instruction i => by
    intro hv
    rw [visits, List.mem_singleton] at hv
    rw [hv]
  | .loop head nests => by
    intro hv
    rw [visits, List.mem_cons] at hv
    rcases hv with rfl | hv
    · exact Nat.le_refl _
    · have hle := sizeOf_le_of_mem_visitsAll nests hv
      rw [Nest.loop.sizeOf_spec]
      omega

/-- What stands in nests is no larger than they are. -/
theorem sizeOf_le_of_mem_visitsAll {around : List LoopHead} {v : Visit} :
    ∀ nests : List Nest, v ∈ visitsAll around nests → sizeOf v.node ≤ sizeOf nests
  | [] => by simp [visitsAll]
  | nest :: nests => by
    intro hv
    rw [visitsAll, List.mem_append] at hv
    rw [List.cons.sizeOf_spec]
    rcases hv with hv | hv
    · have hle := sizeOf_le_of_mem_visits nest hv
      omega
    · have hle := sizeOf_le_of_mem_visitsAll nests hv
      omega

end

end Nest

namespace Nester

open Nest

variable {m n : Nat} {s : Nester m n} {k : Kernel m n}

/-- An item unfolds to one nest only. -/
theorem Unfolds.functional {r : Ref m n} {nest : Nest} (h : s.Unfolds k r nest) :
    ∀ {other : Nest}, s.Unfolds k r other → nest = other := by
  induction h with
  | instruction i =>
    intro other h
    cases h
    rfl
  | loop l members hbody hmembers ih =>
    intro other h
    cases h with
    | loop l members' hbody' hmembers' =>
      congr 1
      -- the two lists have the same items, and each item the same nest
      have hfst : members.map Prod.fst = members'.map Prod.fst := hbody.trans hbody'.symm
      clear hbody hbody'
      induction members generalizing members' with
      | nil =>
        rw [List.map_nil] at hfst
        rw [List.map_eq_nil_iff.mp hfst.symm]
      | cons p members ihl =>
        cases members' with
        | nil => cases hfst
        | cons q members' =>
          rw [List.map_cons, List.map_cons, List.cons.injEq] at hfst
          rw [List.map_cons, List.map_cons, List.cons.injEq]
          refine ⟨ih p List.mem_cons_self ?_, ?_⟩
          · rw [hfst.1]
            exact hmembers' q List.mem_cons_self
          · exact ihl (fun p hp => hmembers p (List.mem_cons_of_mem _ hp))
              (fun p hp => ih p (List.mem_cons_of_mem _ hp)) members'
              (fun p hp => hmembers' p (List.mem_cons_of_mem _ hp)) hfst.2

/-- Nests that unfold from items, and the rows of the loops in them, which have different names. -/
structure Forest (s : Nester m n) (k : Kernel m n) (roots : List (Ref m n))
    (pairs : List (Ref m n × Nest)) (rows : List (Fin n)) : Prop where
  fst : pairs.map Prod.fst = roots
  unfolds : ∀ p ∈ pairs, s.Unfolds k p.1 p.2
  nodup : rows.Nodup
  mem : ∀ l, l ∈ rows ↔ ∃ r ∈ roots, s.Contains k r (.loop l)
  inj : ∀ l ∈ rows, ∀ e ∈ rows, (k.loop l).head.name = (k.loop e).head.name → l = e

namespace Forest

variable {roots : List (Ref m n)} {pairs : List (Ref m n × Nest)} {rows : List (Fin n)}
  (h : Forest s k roots pairs rows)

include h

theorem root_mem {l : Fin n} (hl : .loop l ∈ roots) : l ∈ rows := (h.mem l).mpr ⟨_, hl, .refl⟩

theorem inside_mem {e l : Fin n} (he : e ∈ rows) (hl : s.Contains k (.loop e) (.loop l)) :
    l ∈ rows := by
  obtain ⟨r, hr, hcontains⟩ := (h.mem e).mp he
  exact (h.mem l).mpr ⟨r, hr, hcontains.trans hl⟩

theorem member_mem {e l : Fin n} (he : e ∈ rows) (hl : .loop l ∈ s.body k e) : l ∈ rows :=
  h.inside_mem he (.of_mem hl)

/-- In nests of items, the loops with a row's name are those of the row. -/
theorem countP_isLoop {l : Fin n} (hl : l ∈ rows) {items : List (Ref m n × Nest)}
    (hitems : ∀ p ∈ items, s.Unfolds k p.1 p.2)
    (hrows : ∀ e, .loop e ∈ items.map Prod.fst → e ∈ rows) :
    (items.map Prod.snd).countP (isLoop (k.loop l).head.name)
      = (items.map Prod.fst).count (.loop l) := by
  rw [List.count, List.countP_map, List.countP_map]
  refine List.countP_congr fun p hp => ?_
  obtain ⟨r, nest⟩ := p
  have hunfolds : s.Unfolds k r nest := hitems _ hp
  cases hunfolds with
  | instruction i => simp [isLoop]
  | loop e members hbody hmembers =>
    have he : e ∈ rows := hrows e (List.mem_map_of_mem (f := Prod.fst) hp)
    have hname : (k.loop e).head.name = (k.loop l).head.name ↔ e = l :=
      ⟨h.inj e he l hl, fun heq => by rw [heq]⟩
    simp [isLoop, hname]

/-- A visited loop is the nest of a row. -/
theorem row_of_mem_visits {v : Visit} (hv : v ∈ visitsAll [] (pairs.map Prod.snd)) {x : String}
    (hx : v.node.isLoop x = true) :
    ∃ e ∈ rows, (k.loop e).head.name = x ∧ s.Unfolds k (.loop e) v.node := by
  obtain ⟨path, t, hway, -, hnode⟩ := way_of_mem_visits h.fst h.unfolds hv
  obtain ⟨around, node⟩ := v
  have hcontains := exists_way_iff.mp ⟨path, hway⟩
  cases hnode with
  | instruction i => cases hx
  | loop e members hbody hmembers =>
    exact ⟨e, (h.mem e).mpr hcontains, by simpa [isLoop] using hx, .loop e members hbody hmembers⟩

/-- Every row is visited. -/
theorem copies_pos {l : Fin n} (hl : l ∈ rows) :
    0 < copies (k.loop l).head.name (pairs.map Prod.snd) := by
  obtain ⟨path, hway⟩ := exists_way_iff.mpr ((h.mem l).mp hl)
  obtain ⟨v, hv, -, hnode⟩ := exists_visit_of_way h.fst h.unfolds hway
  refine List.countP_pos_iff.mpr ⟨v, hv, ?_⟩
  obtain ⟨around, node⟩ := v
  cases hnode
  simp [isLoop]

/-- **The copies of a loop**: its places at the top, and its places in each loop, once for every
copy of that one. -/
theorem copies_eq {l : Fin n} (hl : l ∈ rows) :
    copies (k.loop l).head.name (pairs.map Prod.snd) = roots.count (.loop l)
      + (rows.map fun e => copies (k.loop e).head.name (pairs.map Prod.snd)
          * (s.body k e).count (.loop l)).sum := by
  have htop : (pairs.map Prod.snd).countP (isLoop (k.loop l).head.name)
      = roots.count (.loop l) := by
    rw [← h.fst]
    exact h.countP_isLoop hl h.unfolds fun e he => h.root_mem (h.fst ▸ he)
  have hbody : ∀ e ∈ rows, ∀ node, s.Unfolds k (.loop e) node →
      node.members.countP (isLoop (k.loop l).head.name) = (s.body k e).count (.loop l) := by
    intro e he node hnode
    cases hnode with
    | loop e items hbody hitems =>
      rw [← hbody, members]
      exact h.countP_isLoop hl hitems fun d hd => h.member_mem he (hbody ▸ hd)
  rw [copies, countP_visitsAll, htop]
  refine congrArg (roots.count (.loop l) + ·) (sum_map_eq_sum_countP_mul h.nodup ?_ ?_ ?_)
  · intro v hv hne
    obtain ⟨around, node⟩ := v
    cases node with
    | instruction i => exact absurd rfl hne
    | loop head nests =>
      obtain ⟨e, he, hname, -⟩ := h.row_of_mem_visits hv (x := head.name) (by simp [isLoop])
      exact ⟨e, he, by simp [isLoop, hname]⟩
  · intro v hv b hb c hc hpb hpc
    obtain ⟨e, he, hname, hnode⟩ := h.row_of_mem_visits hv hpb
    obtain ⟨around, node⟩ := v
    cases hnode with
    | loop e members _ _ =>
      have hpc : (k.loop e).head.name = (k.loop c).head.name := by simpa [isLoop] using hpc
      exact h.inj c hc b hb (hpc.symm.trans hname)
  · intro v hv b hb hpb
    obtain ⟨e, he, hname, hnode⟩ := h.row_of_mem_visits hv hpb
    rw [h.inj e he b hb hname] at hnode
    exact hbody b hb v.node hnode

/-- A loop stands at least as often as a loop that holds it. -/
theorem copies_le_of_mem {e l : Fin n} (he : e ∈ rows) (hl : .loop l ∈ s.body k e) :
    copies (k.loop e).head.name (pairs.map Prod.snd)
      ≤ copies (k.loop l).head.name (pairs.map Prod.snd) := by
  have hterm := List.single_le_sum (l := rows.map fun e =>
    copies (k.loop e).head.name (pairs.map Prod.snd) * (s.body k e).count (.loop l))
    (fun _ _ => Nat.zero_le _) _ (List.mem_map_of_mem he)
  have hcount : 1 ≤ (s.body k e).count (.loop l) := List.count_pos_iff.mpr hl
  rw [h.copies_eq (h.member_mem he hl)]
  calc copies (k.loop e).head.name (pairs.map Prod.snd)
      ≤ copies (k.loop e).head.name (pairs.map Prod.snd) * (s.body k e).count (.loop l) :=
        Nat.le_mul_of_pos_right _ hcount
    _ ≤ _ := hterm
    _ ≤ _ := Nat.le_add_left _ _

theorem copies_le_of_contains {e l : Fin n} (he : e ∈ rows)
    (hcontains : s.Contains k (.loop e) (.loop l)) :
    copies (k.loop e).head.name (pairs.map Prod.snd)
      ≤ copies (k.loop l).head.name (pairs.map Prod.snd) := by
  rw [contains_loop_iff] at hcontains
  induction hcontains using Relation.ReflTransGen.head_induction_on with
  | refl => exact Nat.le_refl _
  | head hmem _ ih => exact (h.copies_le_of_mem he hmem).trans (ih (h.member_mem he hmem))

/-- A loop stands at least as often as it has places. -/
theorem count_le_copies {l : Fin n} (hl : l ∈ rows) :
    (roots ++ rows.flatMap (s.body k)).count (.loop l)
      ≤ copies (k.loop l).head.name (pairs.map Prod.snd) := by
  rw [h.copies_eq hl, List.count_append, List.count_flatMap]
  refine Nat.add_le_add_left (List.sum_le_sum fun e he => ?_) _
  exact Nat.le_mul_of_pos_left _ (h.copies_pos he)

/-- A loop that has one place stands as often as the loop around it, or once. -/
theorem exists_host {l : Fin n} (hl : l ∈ rows)
    (hcount : (roots ++ rows.flatMap (s.body k)).count (.loop l) ≤ 1)
    (hcopies : 1 < copies (k.loop l).head.name (pairs.map Prod.snd)) :
    ∃ e ∈ rows, .loop l ∈ s.body k e ∧ 1 < copies (k.loop e).head.name (pairs.map Prod.snd) := by
  by_contra hnone
  have hterm : ∀ e ∈ rows, copies (k.loop e).head.name (pairs.map Prod.snd)
      * (s.body k e).count (.loop l) ≤ (s.body k e).count (.loop l) := by
    intro e he
    by_cases hmem : .loop l ∈ s.body k e
    · have hone : copies (k.loop e).head.name (pairs.map Prod.snd) ≤ 1 := by
        by_contra hmore
        exact hnone ⟨e, he, hmem, by omega⟩
      calc copies (k.loop e).head.name (pairs.map Prod.snd) * (s.body k e).count (.loop l)
          ≤ 1 * (s.body k e).count (.loop l) := Nat.mul_le_mul_right _ hone
        _ = (s.body k e).count (.loop l) := Nat.one_mul _
    · rw [List.count_eq_zero.mpr hmem]
      omega
  rw [h.copies_eq hl] at hcopies
  rw [List.count_append, List.count_flatMap] at hcount
  have hsum := List.sum_le_sum hterm
  have hsame : (rows.map (List.count (.loop l) ∘ s.body k)).sum
      = (rows.map fun e => (s.body k e).count (.loop l)).sum := rfl
  omega

/-- The nests of the rows are no larger than all the nests together. -/
theorem exists_nest {l : Fin n} (hl : l ∈ rows) :
    ∃ nest, s.Unfolds k (.loop l) nest ∧ sizeOf nest ≤ sizeOf (pairs.map Prod.snd) := by
  obtain ⟨path, hway⟩ := exists_way_iff.mpr ((h.mem l).mp hl)
  obtain ⟨v, hv, -, hnode⟩ := exists_visit_of_way h.fst h.unfolds hway
  exact ⟨v.node, hnode, sizeOf_le_of_mem_visitsAll _ hv⟩

/-- A loop that is no row has no place. -/
theorem count_eq_zero {e : Fin n} (he : e ∉ rows) :
    (roots ++ rows.flatMap (s.body k)).count (.loop e) = 0 := by
  refine List.count_eq_zero.mpr fun hmem => ?_
  rcases List.mem_append.mp hmem with hmem | hmem
  · exact he (h.root_mem hmem)
  · obtain ⟨d, hd, hmem⟩ := List.mem_flatMap.mp hmem
    exact he (h.member_mem hd hmem)

/-- **A loop stands at most once** exactly if neither it nor a loop around it has two places. -/
theorem copies_le_one_iff {l : Fin n} (hl : l ∈ rows) :
    copies (k.loop l).head.name (pairs.map Prod.snd) ≤ 1 ↔
      ∀ e, s.Contains k (.loop e) (.loop l) →
        (roots ++ rows.flatMap (s.body k)).count (.loop e) ≤ 1 := by
  constructor
  · intro hone e hcontains
    by_cases he : e ∈ rows
    · exact (h.count_le_copies he).trans ((h.copies_le_of_contains he hcontains).trans hone)
    · rw [h.count_eq_zero he]
      exact Nat.zero_le _
  · intro hplaces
    obtain ⟨nest, hnest, hsize⟩ := h.exists_nest hl
    -- by how much larger a nest can be: the nest of a loop around is larger
    induction hgap : sizeOf (pairs.map Prod.snd) - sizeOf nest using Nat.strong_induction_on
      generalizing l nest with
    | _ gap ih =>
      by_contra hmore
      obtain ⟨e, he, hmem, hcopies⟩ := h.exists_host hl (hplaces l .refl) (by omega)
      obtain ⟨outer, houter, houterSize⟩ := h.exists_nest he
      have hlt : sizeOf nest < sizeOf outer := by
        cases houter with
        | loop e members hbody hmembers =>
          rw [← hbody] at hmem
          obtain ⟨p, hp, hpl⟩ := List.mem_map.mp hmem
          have hsame : nest = p.2 := hnest.functional (hpl ▸ hmembers p hp)
          have hinner : sizeOf p.2 < sizeOf (members.map Prod.snd) :=
            List.sizeOf_lt_of_mem (List.mem_map_of_mem hp)
          rw [hsame, Nest.loop.sizeOf_spec]
          omega
      have hone := ih _ (by omega) he (fun d hd => hplaces d (hd.tail ⟨e, rfl, hmem⟩)) outer houter
        houterSize rfl
      omega

end Forest
end Nester
end LoopNest
