import LoopNest.Proofs.Kernel.Inference
import LoopNest.Proofs.Schedule.Inside

/-!
# The steps of the nester

A nester goes through the flat order.  When it is a loop's turn, the loop meets every loop of the
kernel, one after the other.  Three things can happen: they have no common member and nothing is
done; the other loop comes earlier and both are only marked as overlapping; or the other loop comes
later and moves into this one.  Only the loop whose turn it is has its body rewritten.

The lemmas here say what each of these does to the bodies, the marks and the top of the schedule.

* `Nester.body_absorb`, `Nester.substitute_perm`: what a loop's body is after it has absorbed
  another.
* `Nester.meet_of_disjoint`, `Nester.meet_of_not_lt`, `Nester.meet_of_lt`: meeting another loop.
* `Nester.meet_cases`, `Nester.advance_keeps`: what a meeting does, and what a turn keeps.
-/

namespace LoopNest
namespace Nester

variable {m n : Nat} {k : Kernel m n} {s : Nester m n}

/-! ## Bodies -/

/-- At the start the body of a loop is its members in the layer. -/
theorem ofLayer_eq_ok {layer : Layer m n} {members : Fin n → List (Ref m n)}
    (h : ∀ l ∈ k.loops, layer.members.find? (k.loop l).head.name = some (members l)) :
    ofLayer k layer
      = .ok ⟨.ofList (k.loops.map fun l => ((k.loop l).head.name, members l)), 0⟩ := by
  rw [ofLayer]
  refine bind_eq_ok_iff.mpr ⟨_, mapM_eq_ok_iff.mpr ?_, rfl⟩
  rw [List.forall₂_map_right_iff, List.forall₂_same]
  intro l hl
  refine bind_eq_ok_iff.mpr ⟨members l, ?_, rfl⟩
  rw [Layer.membersOf, h l hl]

theorem body_ofList (hk : k.Distinct) {members : Fin n → List (Ref m n)} {merges : Nat} {l : Fin n}
    (hl : l ∈ k.loops) :
    body ⟨.ofList (k.loops.map fun l => ((k.loop l).head.name, members l)), merges⟩ k l
      = members l := by
  have hmem : ((k.loop l).head.name, members l)
      ∈ k.loops.map fun l => ((k.loop l).head.name, members l) :=
    List.mem_map_of_mem (f := fun l => ((k.loop l).head.name, members l)) hl
  rw [body, NameMap.find?_ofList (by rw [List.map_map]; exact hk.loops) hmem]
  rfl

/-- A loop whose name no loop of the kernel has keeps its members. -/
theorem body_ofList_of_ne {members : Fin n → List (Ref m n)} {merges : Nat} {l : Fin n}
    (hname : ∀ e ∈ k.loops, (k.loop e).head.name ≠ (k.loop l).head.name) :
    body ⟨.ofList (k.loops.map fun l => ((k.loop l).head.name, members l)), merges⟩ k l
      = (k.loop l).members := by
  have hnotMem : (k.loop l).head.name
      ∉ (k.loops.map fun l => ((k.loop l).head.name, members l)).map Prod.fst := by
    rw [List.map_map]
    intro hmem
    obtain ⟨e, he, heq⟩ := List.mem_map.mp hmem
    exact hname e he heq
  rw [body, NameMap.ofList, NameMap.find?_foldl_insert_of_notMem hnotMem]
  rfl

/-- Absorbing rewrites the body of the outer loop and of no other. -/
theorem body_absorb (outer inner : Fin n) (common : List String) (l : Fin n) :
    (s.absorb k outer inner common).body k l
      = if (k.loop l).head.name = (k.loop outer).head.name
        then substitute k (.loop inner) common (s.body k outer) else s.body k l := by
  rw [body, absorb, NameMap.find?_insert]
  split
  · rfl
  · rfl

theorem takeWhile_append_filter_dropWhile {α : Type} (p : α → Bool) (l : List α) :
    l.takeWhile p ++ (l.dropWhile p).filter p = l.filter p := by
  have hkept : (l.takeWhile p).filter p = l.takeWhile p :=
    List.filter_eq_self.mpr fun _ ha => List.mem_takeWhile_imp ha
  calc l.takeWhile p ++ (l.dropWhile p).filter p
      = (l.takeWhile p ++ l.dropWhile p).filter p := by rw [List.filter_append, hkept]
    _ = l.filter p := by rw [List.takeWhile_append_dropWhile]

/-- Putting a loop in the place of the common members keeps the others. -/
theorem substitute_perm (inner : Ref m n) (common : List String) (members : List (Ref m n)) :
    (substitute k inner common members).Perm
      (inner :: members.filter fun r => !common.contains (k.name r)) := by
  rw [substitute]
  refine List.perm_middle.trans (List.Perm.cons _ (List.Perm.of_eq ?_))
  exact takeWhile_append_filter_dropWhile _ members

/-- A body in the order of some key stays so if the loop has the least key of the common members. -/
theorem pairwise_substitute {key : Ref m n → Nat} {inner first : Ref m n} {common : List String}
    {members : List (Ref m n)} (hsorted : members.Pairwise fun r t => key r < key t)
    (hfirst : first ∈ members) (hcommon : k.name first ∈ common) (hkey : key inner = key first)
    (hleast : ∀ r ∈ members, k.name r ∈ common → key first ≤ key r) :
    (substitute k inner common members).Pairwise fun r t => key r < key t := by
  induction members with
  | nil => exact absurd hfirst List.not_mem_nil
  | cons r members ih =>
    rw [List.pairwise_cons] at hsorted
    by_cases hr : k.name r ∈ common
    · -- the first common member, and so the one with the least key
      have hsame : key first = key r := by
        rcases List.mem_cons.mp hfirst with rfl | hmem
        · rfl
        · exact Nat.le_antisymm (hleast r List.mem_cons_self hr) (hsorted.1 first hmem).le
      have hhere : substitute k inner common (r :: members)
          = inner :: members.filter fun t => !common.contains (k.name t) := by
        simp [substitute, hr]
      rw [hhere, List.pairwise_cons]
      refine ⟨fun t ht => ?_, hsorted.2.filter _⟩
      rw [hkey, hsame]
      exact hsorted.1 t (List.mem_of_mem_filter ht)
    · have hlater : first ∈ members := by
        rcases List.mem_cons.mp hfirst with rfl | hmem
        · exact absurd hcommon hr
        · exact hmem
      have hthere : substitute k inner common (r :: members)
          = r :: substitute k inner common members := by
        simp [substitute, hr]
      rw [hthere, List.pairwise_cons]
      refine ⟨fun t ht => ?_, ih hsorted.2 hlater fun t ht => hleast t (List.mem_cons_of_mem _ ht)⟩
      rcases List.mem_cons.mp ((substitute_perm inner common members).mem_iff.mp ht) with rfl | ht
      · rw [hkey]
        exact hsorted.1 first hlater
      · exact hsorted.1 t (List.mem_of_mem_filter ht)

section Names

variable {own : Ref m n → Prop} (hinj : ∀ r t, own r → own t → k.name r = k.name t → r = t)

include hinj

/-- In a collection whose names differ, the common members are common as items. -/
theorem mem_shared_of_inj {first second : List (Ref m n)} (hfirst : ∀ r ∈ first, own r)
    (hsecond : ∀ r ∈ second, own r) {r : Ref m n} :
    r ∈ shared k first second ↔ r ∈ first ∧ r ∈ second := by
  rw [shared, List.mem_filter, List.contains_iff_mem, List.mem_map]
  constructor
  · rintro ⟨hr, t, ht, hname⟩
    exact ⟨hr, hinj t r (hsecond t ht) (hfirst r hr) hname ▸ ht⟩
  · rintro ⟨hr, ht⟩
    exact ⟨hr, r, ht, rfl⟩

/-- In a collection whose names differ, the body keeps the members that are not common. -/
theorem mem_substitute_of_inj {inner : Ref m n} {common members : List (Ref m n)}
    (hcommon : ∀ r ∈ common, own r) (hmembers : ∀ r ∈ members, own r) {r : Ref m n} :
    r ∈ substitute k inner (common.map k.name) members ↔
      r = inner ∨ r ∈ members ∧ r ∉ common := by
  rw [(substitute_perm inner _ members).mem_iff, List.mem_cons, List.mem_filter]
  refine or_congr_right (and_congr_right fun hr => ?_)
  rw [Bool.not_eq_true', ← Bool.not_eq_true, List.contains_iff_mem, List.mem_map]
  refine not_congr ⟨?_, fun h => ⟨r, h, rfl⟩⟩
  rintro ⟨t, ht, hname⟩
  exact hinj t r (hcommon t ht) (hmembers r hr) hname ▸ ht

end Names

/-- Where names differ, the common members are common as items. -/
theorem mem_shared (hk : k.Distinct) {first second : List (Ref m n)}
    (hfirst : ∀ r ∈ first, r ∈ k.items) (hsecond : ∀ r ∈ second, r ∈ k.items) {r : Ref m n} :
    r ∈ shared k first second ↔ r ∈ first ∧ r ∈ second :=
  mem_shared_of_inj (fun _ _ => hk.inj) hfirst hsecond

/-- Where names differ, the body keeps the members that are not common. -/
theorem mem_substitute (hk : k.Distinct) {inner : Ref m n} {common members : List (Ref m n)}
    (hcommon : ∀ r ∈ common, r ∈ k.items) (hmembers : ∀ r ∈ members, r ∈ k.items) {r : Ref m n} :
    r ∈ substitute k inner (common.map k.name) members ↔
      r = inner ∨ r ∈ members ∧ r ∉ common :=
  mem_substitute_of_inj (fun _ _ => hk.inj) hcommon hmembers

/-! ## Positions -/

/-- Where names differ, the position of an item's name is the position of the item. -/
theorem position?_append {order before after : List (Ref m n)} {r : Ref m n}
    (hnames : (order.map k.name).Nodup) (horder : order = before ++ r :: after) :
    position? k order (k.name r) = some before.length := by
  subst horder
  rw [position?]
  have hafter : ∀ x ∈ (after.map k.name).reverse, (x == k.name r) = false := by
    intro x hx
    rw [List.mem_reverse] at hx
    rw [List.map_append, List.map_cons] at hnames
    refine beq_false_of_ne ?_
    rintro rfl
    exact (List.nodup_cons.mp hnames.of_append_right).1 hx
  have hfind : (((before ++ r :: after).map k.name).reverse.findIdx? (· == k.name r))
      = some after.length := by
    rw [List.map_append, List.map_cons, List.reverse_append, List.reverse_cons, List.append_assoc,
      List.findIdx?_append, List.findIdx?_eq_none_iff.mpr hafter]
    simp [List.findIdx?_cons]
  rw [hfind, Option.map_some, List.length_append, List.length_cons]
  congr 1
  omega

/-! ## Meeting another loop -/

variable {order : List (Ref m n)} {outer other : Fin n} {p : Progress m n}

theorem meet_self : meet k order outer p outer = .ok p := by
  rw [meet, if_pos rfl]
  rfl

/-- Loops without common members leave each other alone. -/
theorem meet_of_disjoint (h : shared k (p.nester.body k other) (p.nester.body k outer) = []) :
    meet k order outer p other = .ok p := by
  rw [meet]
  split
  · rfl
  · rw [h]
    rfl

/-- A later loop with common members moves into the loop whose turn it is. -/
theorem meet_of_lt {common : List (Ref m n)} (hne : other ≠ outer)
    (hshared : shared k (p.nester.body k other) (p.nester.body k outer) = common)
    (hcommon : common ≠ []) {here there : Nat}
    (hhere : position? k order (k.loop outer).head.name = some here)
    (hthere : position? k order (k.loop other).head.name = some there) (hlt : here < there) :
    meet k order outer p other = .ok
      { nester := p.nester.absorb k outer other (common.map k.name)
        overlapping := p.overlapping ++ [(k.loop other).head.name, (k.loop outer).head.name]
        top := if (p.nester.absorb k outer other (common.map k.name)).placed k (.loop outer) p.top
          then p.top else p.top ++ [.loop outer] } := by
  have hempty : ¬ common.isEmpty = true := fun h => hcommon (List.isEmpty_iff.mp h)
  rw [meet, if_neg hne, hshared]
  simp only [if_neg hempty, hhere, hthere, if_pos hlt]
  rfl

/-- An earlier loop with common members is only marked, with the loop whose turn it is. -/
theorem meet_of_not_lt (hne : other ≠ outer)
    (hcommon : shared k (p.nester.body k other) (p.nester.body k outer) ≠ []) {here there : Nat}
    (hhere : position? k order (k.loop outer).head.name = some here)
    (hthere : position? k order (k.loop other).head.name = some there) (hlt : ¬ here < there) :
    meet k order outer p other = .ok
      { p with overlapping := p.overlapping ++
        [(k.loop other).head.name, (k.loop outer).head.name] } := by
  have hempty : ¬ (shared k (p.nester.body k other) (p.nester.body k outer)).isEmpty = true :=
    fun h =>
    hcommon (List.isEmpty_iff.mp h)
  rw [meet, if_neg hne]
  simp only [if_neg hempty, hhere, hthere, if_neg hlt]
  rfl

/-- How a meeting ends.  Bodies change only if the other loop moves in, and only then can the loop
whose turn it is get to the top. -/
theorem meet_cases {p' : Progress m n} (h : meet k order outer p other = .ok p') :
    p'.nester = p.nester ∧ p'.top = p.top ∨
      other ≠ outer ∧ shared k (p.nester.body k other) (p.nester.body k outer) ≠ [] ∧
        p'.nester = p.nester.absorb k outer other
          ((shared k (p.nester.body k other) (p.nester.body k outer)).map k.name) ∧
        (p'.top = p.top ∨ p'.top = p.top ++ [.loop outer]) := by
  rw [meet] at h
  split at h
  · cases h
    exact .inl ⟨rfl, rfl⟩
  next hne =>
    simp only at h
    split at h
    · cases h
      exact .inl ⟨rfl, rfl⟩
    next hcommon =>
      split at h
      · cases h
      · cases h
      · split at h
        · cases h
          refine .inr ⟨hne, by simpa using hcommon, rfl, ?_⟩
          simp only
          split
          · exact .inl rfl
          · exact .inr rfl
        · cases h
          exact .inl ⟨rfl, rfl⟩

/-! ## One item of the order -/

section Keeps

variable {layer : Layer m n} {P : Nester m n → List (Ref m n) → Prop} {p' : Progress m n}

/-- **What a turn keeps**: whatever is kept when the item goes to the top and when another loop
moves into it. -/
theorem advance_keeps {r : Ref m n} (hpush : ∀ s top, P s top → P s (top ++ [r]))
    (habsorb : ∀ outer, r = .loop outer → ∀ inner ∈ k.loops, inner ≠ outer → ∀ s top,
      shared k (s.body k inner) (s.body k outer) ≠ [] → P s top →
        P (s.absorb k outer inner ((shared k (s.body k inner) (s.body k outer)).map k.name)) top)
    (hp : P p.nester p.top) (h : advance k layer order p r = .ok p') : P p'.nester p'.top := by
  cases r with
  | instruction i =>
    obtain ⟨deps, -, h⟩ := bind_eq_ok_iff.mp h
    cases h
    split
    · exact hpush _ _ hp
    · exact hp
  | loop l =>
    obtain ⟨q, hq, h⟩ := bind_eq_ok_iff.mp h
    have hturn : P q.nester q.top := by
      refine foldlM_keeps_of_mem (P := fun p => P p.nester p.top)
        (fun p e he t hs hmeet => ?_) hp hq
      rcases meet_cases hmeet with ⟨hnester, htop⟩ | ⟨hne, hcommon, hnester, htop⟩
      · rwa [hnester, htop]
      · have hmoved := habsorb l rfl e he hne _ _ hcommon hs
        rw [hnester]
        rcases htop with htop | htop
        · rwa [htop]
        · rw [htop]
          exact hpush _ _ hmoved
    cases h
    split
    · exact hturn
    · exact hpush _ _ hturn

theorem run_keeps {todo : List (Ref m n)} (hpush : ∀ r ∈ todo, ∀ s top, P s top → P s (top ++ [r]))
    (habsorb : ∀ outer, .loop outer ∈ todo → ∀ inner ∈ k.loops, inner ≠ outer → ∀ s top,
      shared k (s.body k inner) (s.body k outer) ≠ [] → P s top →
        P (s.absorb k outer inner ((shared k (s.body k inner) (s.body k outer)).map k.name)) top)
    (hp : P p.nester p.top) (h : todo.foldlM (advance k layer order) p = .ok p') :
    P p'.nester p'.top :=
  foldlM_keeps_of_mem (P := fun p => P p.nester p.top)
    (fun _ r hr _ hq => advance_keeps (hpush r hr) (fun outer ho => habsorb outer (ho ▸ hr)) hq)
    hp h

/-- The top only grows. -/
theorem run_top {todo : List (Ref m n)} (h : todo.foldlM (advance k layer order) p = .ok p') :
    p.top <+: p'.top :=
  run_keeps (P := fun _ top => p.top <+: top)
    (fun _ _ _ _ htop => htop.trans (List.prefix_append _ _))
    (fun _ _ _ _ _ _ _ _ htop => htop) List.prefix_rfl h

end Keeps

/-- An instruction runs at the top if it has no dependencies. -/
theorem advance_instruction {layer : Layer m n} {i : Fin m} {deps : List String}
    (h : layer.deps.find? (k.instruction i).name = some deps) :
    advance k layer order p (.instruction i)
      = .ok (if deps = [] then { p with top := p.top ++ [.instruction i] } else p) := by
  rw [advance, Layer.depsOf, h]
  cases deps <;> rfl

/-- A pass through instructions without dependencies puts them at the top in order. -/
theorem foldlM_advance_free {layer : Layer m n} {is : List (Fin m)}
    (h : ∀ i ∈ is, layer.deps.find? (k.instruction i).name = some []) :
    (is.map Ref.instruction).foldlM (advance k layer order) p
      = .ok { p with top := p.top ++ is.map .instruction } := by
  induction is generalizing p with
  | nil => rw [List.map_nil, List.append_nil]; rfl
  | cons i is ih =>
    rw [List.map_cons, List.foldlM_cons, advance_instruction (h i List.mem_cons_self), if_pos rfl]
    refine bind_eq_ok_iff.mpr ⟨_, rfl, ?_⟩
    rw [ih fun j hj => h j (List.mem_cons_of_mem _ hj), List.append_assoc, List.singleton_append]

end Nester
end LoopNest
