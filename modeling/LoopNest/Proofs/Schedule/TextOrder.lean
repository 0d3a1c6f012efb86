import LoopNest.Proofs.Schedule.Nesting

/-!
# The order of the text

A schedule is read from top to bottom, and a name can come up in several places.  What matters for a
dependency is which of two names comes up first (`Precedes`).

## Where two items part

In a hierarchical kernel an item comes up in one place, inside its chain.  Two items share the loops
of their chains up to the point where they part, and there each goes on with a loop of its own or
stands itself.  Which one comes first is decided at that point and nowhere else.

* A loop stands before what it holds (`precedes_of_mem_chain`).
* Outside all loops the loops stand as they were declared (`precedes_iff_rank_lt`).
* In the body of a loop the members stand in the order of their first instructions
  (`precedes_iff_lead_lt`): a loop that moves into another takes the place of the first instruction
  that it takes out.
-/

namespace LoopNest

/-! ## Which name comes first -/

/-- Before every place of the second name there is one of the first. -/
def Precedes (a b : String) (l : List String) : Prop :=
  ∀ before after, l = before ++ b :: after → a ∈ before

theorem precedes_of_notMem {a b : String} {l : List String} (h : b ∉ l) : Precedes a b l := by
  rintro before after rfl
  simp at h

theorem precedes_append_iff {a b : String} {l₁ l₂ : List String} :
    Precedes a b (l₁ ++ l₂) ↔ Precedes a b l₁ ∧ (a ∈ l₁ ∨ Precedes a b l₂) := by
  constructor
  · intro h
    refine ⟨?_, ?_⟩
    · rintro before after rfl
      exact h before (after ++ l₂) (by simp)
    · by_cases ha : a ∈ l₁
      · exact .inl ha
      · refine .inr ?_
        rintro before after rfl
        have hmem := h (l₁ ++ before) after (by simp)
        exact (List.mem_append.mp hmem).resolve_left ha
  · rintro ⟨h₁, h₂⟩ before after h
    rcases List.append_eq_append_iff.mp h with ⟨more, rfl, hmore⟩ | ⟨more, hl₁, hmore⟩
    · rcases h₂ with ha | h₂
      · exact List.mem_append_left _ ha
      · exact List.mem_append_right _ (h₂ more after hmore)
    · cases more with
      | nil =>
        rw [List.append_nil] at hl₁
        rw [List.nil_append] at hmore
        rcases h₂ with ha | h₂
        · exact hl₁ ▸ ha
        · exact absurd (h₂ [] after hmore.symm) List.not_mem_nil
      | cons x more =>
        rw [List.cons_append, List.cons.injEq] at hmore
        exact h₁ before more (by rw [hl₁, hmore.1])

theorem precedes_cons_iff {a b x : String} (ha : x ≠ a) (hb : x ≠ b) {l : List String} :
    Precedes a b (x :: l) ↔ Precedes a b l := by
  have hnotMem : b ∉ [x] := by simpa using hb.symm
  rw [← List.singleton_append, precedes_append_iff, and_iff_right (precedes_of_notMem hnotMem),
    or_iff_right (by simpa using ha.symm)]

namespace Nest

mutual

/-- The loops around a nest do not change the names in it. -/
theorem map_name_visits (around other : List LoopHead) : ∀ nest : Nest,
    (visits around nest).map (fun v => v.node.name) = (visits other nest).map fun v => v.node.name
  | .instruction i => by rw [visits, visits]; rfl
  | .loop head members => by
    rw [visits, visits, List.map_cons, List.map_cons,
      map_name_visitsAll (around ++ [head]) (other ++ [head]) members]

theorem map_name_visitsAll (around other : List LoopHead) : ∀ nests : List Nest,
    (visitsAll around nests).map (fun v => v.node.name)
      = (visitsAll other nests).map fun v => v.node.name
  | [] => by rw [visitsAll, visitsAll]
  | nest :: nests => by
    rw [visitsAll, visitsAll, List.map_append, List.map_append, map_name_visits around other nest,
      map_name_visitsAll around other nests]

end

/-- The names in nests, in the order of the text. -/
def names (nests : List Nest) : List String := (visitsAll [] nests).map fun v => v.node.name

@[simp] theorem names_nil : names [] = [] := rfl

theorem names_append (nests more : List Nest) :
    names (nests ++ more) = names nests ++ names more := by
  rw [names, visitsAll_eq, List.flatMap_append, List.map_append, ← visitsAll_eq, ← visitsAll_eq]
  rfl

theorem names_cons (nest : Nest) (nests : List Nest) :
    names (nest :: nests) = names [nest] ++ names nests := names_append [nest] nests

theorem mem_names_pairs_iff {α : Type} {x : String} {pairs : List (α × Nest)} :
    x ∈ names (pairs.map Prod.snd) ↔ ∃ p ∈ pairs, x ∈ names [p.2] := by
  induction pairs with
  | nil => simp
  | cons p pairs ih =>
    rw [List.map_cons, names_cons, List.mem_append, ih]
    simp only [List.mem_cons, exists_eq_or_imp]

/-- A name comes up where something of that name is visited. -/
theorem mem_names_iff {x : String} {nest : Nest} :
    x ∈ names [nest] ↔ visitsOf x (visits [] nest) ≠ [] := by
  rw [names, visitsAll, visitsAll, List.append_nil, visitsOf, ne_eq, List.filter_eq_nil_iff,
    List.mem_map]
  simp only [decide_eq_true_eq, not_forall, not_not, exists_prop]

theorem names_instruction (i : Instruction) : names [.instruction i] = [i.name] := rfl

theorem names_loop (head : LoopHead) (members : List Nest) :
    names [.loop head members] = head.name :: names members := by
  rw [names, visitsAll, visitsAll, List.append_nil, visits, List.map_cons,
    map_name_visitsAll _ [] members]
  rfl

end Nest

open Nest

/-- Where one name comes up only under one root and another only under another, the first precedes
the second exactly if its root does. -/
theorem precedes_pairs {α : Type} {a b : String} {x y : α} {pairs : List (α × Nest)}
    (ha : ∀ p ∈ pairs, a ∈ names [p.2] ↔ p.1 = x) (hb : ∀ p ∈ pairs, b ∈ names [p.2] ↔ p.1 = y)
    (hnodup : (pairs.map Prod.fst).Nodup) {before after : List α}
    (hsplit : pairs.map Prod.fst = before ++ y :: after) (hx : x ∈ before) :
    Precedes a b (names (pairs.map Prod.snd)) ∧ ¬ Precedes b a (names (pairs.map Prod.snd)) := by
  obtain ⟨left, right, rfl, rfl, hright⟩ := List.map_eq_append_iff.mp hsplit
  have hy : y ∉ left.map Prod.fst := by
    intro hmem
    rw [hsplit, List.nodup_append] at hnodup
    exact hnodup.2.2 y hmem y List.mem_cons_self rfl
  obtain ⟨p, hp, hpx⟩ := List.mem_map.mp hx
  have haLeft : a ∈ names (left.map Prod.snd) :=
    mem_names_pairs_iff.mpr ⟨p, hp, (ha p (List.mem_append_left _ hp)).mpr hpx⟩
  have hbLeft : b ∉ names (left.map Prod.snd) := by
    intro hmem
    obtain ⟨q, hq, hbq⟩ := mem_names_pairs_iff.mp hmem
    exact hy ((hb q (List.mem_append_left _ hq)).mp hbq ▸ List.mem_map_of_mem hq)
  rw [List.map_append, names_append, precedes_append_iff, precedes_append_iff]
  refine ⟨⟨precedes_of_notMem hbLeft, .inl haLeft⟩, fun h => ?_⟩
  obtain ⟨pre, post, heq⟩ := List.append_of_mem haLeft
  exact hbLeft (by rw [heq]; exact List.mem_append_left _ (h.1 pre post heq))

/-- Where the roots are in order, two names that come up only under one root each come up in the
order of their roots. -/
theorem precedes_pairs_iff {α : Type} {R : α → α → Prop} {a b : String} {x y : α}
    {pairs : List (α × Nest)} (hsorted : (pairs.map Prod.fst).Pairwise R)
    (hnodup : (pairs.map Prod.fst).Nodup) (hasymm : R x y → ¬ R y x) (hne : x ≠ y)
    (hx : x ∈ pairs.map Prod.fst) (hy : y ∈ pairs.map Prod.fst)
    (ha : ∀ p ∈ pairs, a ∈ names [p.2] ↔ p.1 = x) (hb : ∀ p ∈ pairs, b ∈ names [p.2] ↔ p.1 = y) :
    Precedes a b (names (pairs.map Prod.snd)) ↔ R x y := by
  obtain ⟨before, after, hsplit⟩ := List.append_of_mem hy
  rw [hsplit, List.pairwise_append, List.pairwise_cons] at hsorted
  obtain ⟨-, ⟨hafter, -⟩, hbefore⟩ := hsorted
  rw [hsplit, List.mem_append, List.mem_cons] at hx
  rcases hx with hx | rfl | hx
  · exact iff_of_true (precedes_pairs ha hb hnodup hsplit hx).1 (hbefore x hx y List.mem_cons_self)
  · exact absurd rfl hne
  · obtain ⟨between, rest, rfl⟩ := List.append_of_mem hx
    have hsplit' : pairs.map Prod.fst = (before ++ y :: between) ++ x :: rest := by
      rw [hsplit, List.append_assoc, List.cons_append]
    refine iff_of_false (precedes_pairs hb ha hnodup hsplit' (by simp)).2 fun hxy => ?_
    exact hasymm hxy (hafter x hx)

/-- Where two names come up only under one root, only that root counts. -/
theorem precedes_pairs_iff_of_mem {α : Type} {a b : String} {pairs : List (α × Nest)}
    {p : α × Nest} (hp : p ∈ pairs) (hnodup : (pairs.map Prod.fst).Nodup)
    (ha : ∀ q ∈ pairs, a ∈ names [q.2] → q.1 = p.1)
    (hb : ∀ q ∈ pairs, b ∈ names [q.2] → q.1 = p.1) :
    Precedes a b (names (pairs.map Prod.snd)) ↔ Precedes a b (names [p.2]) := by
  obtain ⟨left, right, rfl⟩ := List.append_of_mem hp
  rw [List.map_append, List.map_cons, List.nodup_append, List.nodup_cons] at hnodup
  obtain ⟨-, ⟨hright, -⟩, hleft⟩ := hnodup
  have hleftNames : ∀ x, (∀ q ∈ left ++ p :: right, x ∈ names [q.2] → q.1 = p.1) →
      x ∉ names (left.map Prod.snd) := by
    intro x hx hmem
    obtain ⟨q, hq, hxq⟩ := mem_names_pairs_iff.mp hmem
    exact hleft q.1 (List.mem_map_of_mem hq) p.1 List.mem_cons_self
      (hx q (List.mem_append_left _ hq) hxq)
  have hrightNames : b ∉ names (right.map Prod.snd) := by
    intro hmem
    obtain ⟨q, hq, hbq⟩ := mem_names_pairs_iff.mp hmem
    have heq : q.1 = p.1 := hb q (by simp [hq]) hbq
    exact hright (heq ▸ List.mem_map_of_mem hq)
  rw [List.map_append, List.map_cons, names_append, names_cons, precedes_append_iff,
    and_iff_right (precedes_of_notMem (hleftNames b hb)), or_iff_right (hleftNames a ha),
    precedes_append_iff, and_iff_left (.inr (precedes_of_notMem hrightNames))]

/-! ## Loops stand before what is inside them -/

namespace Nest

mutual

/-- The loops around a place are those at the start or stand before it. -/
theorem around_visits (around : List LoopHead) :
    ∀ (nest : Nest) {pre post : List Visit} {v : Visit}, visits around nest = pre ++ v :: post →
      ∀ head ∈ v.around, head ∈ around ∨ head.name ∈ pre.map fun v => v.node.name
  | .instruction i, pre, post, v, h => by
    rw [visits] at h
    obtain ⟨rfl, heq⟩ | ⟨more, -, heq⟩ := List.append_eq_cons_iff.mp h.symm
    · cases heq
      exact fun head hhead => .inl hhead
    · simp at heq
  | .loop outer members, pre, post, v, h => by
    rw [visits] at h
    obtain ⟨rfl, heq⟩ | ⟨more, rfl, heq⟩ := List.append_eq_cons_iff.mp h.symm
    · cases heq
      exact fun head hhead => .inl hhead
    · intro head hhead
      rcases around_visitsAll (around ++ [outer]) members heq head hhead with hin | hbefore
      · rcases List.mem_append.mp hin with hin | hin
        · exact .inl hin
        · rw [List.mem_singleton.mp hin]
          exact .inr List.mem_cons_self
      · exact .inr (List.mem_cons_of_mem _ hbefore)

theorem around_visitsAll (around : List LoopHead) :
    ∀ (nests : List Nest) {pre post : List Visit} {v : Visit},
      visitsAll around nests = pre ++ v :: post →
        ∀ head ∈ v.around, head ∈ around ∨ head.name ∈ pre.map fun v => v.node.name
  | [], pre, post, v, h => by
    rw [visitsAll] at h
    simp at h
  | nest :: nests, pre, post, v, h => by
    rw [visitsAll] at h
    rcases List.append_eq_append_iff.mp h with ⟨more, rfl, hrest⟩ | ⟨more, hnest, hrest⟩
    · intro head hhead
      rcases around_visitsAll around nests hrest head hhead with hin | hbefore
      · exact .inl hin
      · rw [List.map_append]
        exact .inr (List.mem_append_right _ hbefore)
    · cases more with
      | nil =>
        have hfront : visitsAll around nests = [] ++ v :: post := hrest.symm
        intro head hhead
        rcases around_visitsAll around nests hfront head hhead with hin | hbefore
        · exact .inl hin
        · exact absurd hbefore List.not_mem_nil
      | cons w more =>
        rw [List.cons_append, List.cons.injEq] at hrest
        rw [← hrest.1] at hnest
        exact around_visits around nest hnest

end

/-- A loop that is around every place of a name stands before every place of the name. -/
theorem precedes_of_around {head : LoopHead} {x : String} {nests : List Nest}
    (h : ∀ v ∈ visitsOf x (visitsAll [] nests), head ∈ v.around) :
    Precedes head.name x (names nests) := by
  intro before after hsplit
  rw [names] at hsplit
  obtain ⟨pre, rest, hvisits, rfl, hrest⟩ := List.map_eq_append_iff.mp hsplit
  obtain ⟨v, post, rfl, hv, rfl⟩ := List.map_eq_cons_iff.mp hrest
  have hmem : v ∈ visitsOf x (visitsAll [] nests) :=
    List.mem_filter.mpr ⟨by rw [hvisits]; simp, by simpa using hv⟩
  exact (around_visitsAll [] nests hvisits head (h v hmem)).resolve_left List.not_mem_nil

end Nest

/-! ## Where two items part -/

variable {m n : Nat}

/-- The start of the way through some loops to an item: the first loop, or the item itself. -/
def Ref.entry (r : Ref m n) : List (Fin n) → Ref m n
  | [] => r
  | l :: _ => .loop l

theorem Ref.entry_append (r : Ref m n) (path : List (Fin n)) (c : Fin n) (rest : List (Fin n)) :
    r.entry (path ++ c :: rest) = (Ref.loop c).entry path := by
  cases path <;> rfl

namespace Nester

variable {s : Nester m n} {k : Kernel m n}

namespace Hierarchy

variable {own : Ref m n → Prop} {chain : Ref m n → List (Fin n)} {target : Ref m n}

/-- The name of an item comes up in a nest exactly if the nest is on the way to the item. -/
theorem mem_names_iff (h : s.Hierarchy k own chain) (ht : own target) {r : Ref m n} {nest : Nest}
    (hnest : s.Unfolds k r nest) (hr : own r) :
    k.name target ∈ names [nest] ↔ ¬ Off chain target r := by
  rw [Nest.mem_names_iff]
  constructor
  · intro hvisited hoff
    exact hvisited (h.visitsOf_off ht hnest hr hoff [])
  · intro hon
    by_cases hrt : r = target
    · rw [hrt] at hnest
      rw [h.visitsOf_self ht hnest]
      exact List.cons_ne_nil _ _
    · obtain ⟨l, rfl, hl⟩ : ∃ l, r = .loop l ∧ l ∈ chain target := by
        by_contra hnone
        exact hon ⟨hrt, fun l hl hmem => hnone ⟨l, hl, hmem⟩⟩
      obtain ⟨outer, inner, hchain⟩ := List.append_of_mem hl
      obtain ⟨node, -, hvisits⟩ := h.visitsOf_through ht hchain hnest []
      rw [hvisits]
      exact List.cons_ne_nil _ _

/-- Outside all loops the name comes up only where the way through the chain starts. -/
theorem mem_names_root_iff (h : s.Hierarchy k own chain) (ht : own target) {r : Ref m n}
    {nest : Nest} (hnest : s.Unfolds k r nest) (hr : own r) (hroot : chain r = []) :
    k.name target ∈ names [nest] ↔ r = target.entry (chain target) := by
  rw [h.mem_names_iff ht hnest hr]
  cases hchain : chain target with
  | nil =>
    rw [Off, hchain]
    simp [Ref.entry]
  | cons d inner =>
    constructor
    · intro hon
      by_contra hne
      exact hon (h.off_of_root ht hchain hroot hne)
    · rintro heq ⟨-, hoff⟩
      exact hoff d heq (by rw [hchain]; exact List.mem_cons_self)

/-- In a body of the chain the name comes up only where the rest of the way starts. -/
theorem mem_names_member_iff (h : s.Hierarchy k own chain) (ht : own target) {l : Fin n}
    {rest : List (Fin n)} (hchain : chain target = chain (.loop l) ++ l :: rest) {r : Ref m n}
    {nest : Nest} (hnest : s.Unfolds k r nest) (hl : own (.loop l)) (hr : r ∈ s.body k l) :
    k.name target ∈ names [nest] ↔ r = target.entry rest := by
  rw [h.mem_names_iff ht hnest ((h.body l hl r).mp hr).1]
  constructor
  · intro hon
    rcases h.on_way ht hl hr hon with ⟨heq, hlast⟩ | ⟨e, inner, heq, hlonger⟩
    · rw [hchain, List.append_cancel_left_eq] at hlast
      cases hlast
      exact heq
    · rw [hchain, List.append_cancel_left_eq] at hlonger
      cases hlonger
      exact heq
  · rintro heq ⟨hne, hoff⟩
    cases rest with
    | nil => exact hne heq
    | cons e inner => exact hoff e heq (by rw [hchain]; simp)

/-- The rest of the way starts in the body. -/
theorem entry_mem_body (h : s.Hierarchy k own chain) (ht : own target) {l : Fin n}
    {rest : List (Fin n)} (hl : own (.loop l))
    (hchain : chain target = chain (.loop l) ++ l :: rest) : target.entry rest ∈ s.body k l := by
  rw [h.body l hl]
  cases rest with
  | nil => exact ⟨ht, hchain⟩
  | cons e inner =>
    have hsplit : chain target = (chain (.loop l) ++ [l]) ++ e :: inner := by
      rw [hchain, List.append_assoc, List.singleton_append]
    exact h.coherent target ht _ e inner hsplit

variable {a b : Ref m n} {c : Fin n} {restA restB : List (Fin n)}

/-- As long as two items share their ways, only the nest of the shared loop counts. -/
theorem precedes_descend (h : s.Hierarchy k own chain) (ha : own a) (hb : own b) :
    ∀ {path outer : List (Fin n)} {nest : Nest}, chain a = outer ++ (path ++ c :: restA) →
      chain b = outer ++ (path ++ c :: restB) → s.Unfolds k ((Ref.loop c).entry path) nest →
        ∃ inner, s.Unfolds k (.loop c) inner ∧
          (Precedes (k.name a) (k.name b) (names [nest]) ↔
            Precedes (k.name a) (k.name b) (names [inner])) := by
  intro path
  induction path with
  | nil =>
    intro outer nest _ _ hnest
    exact ⟨nest, hnest, .rfl⟩
  | cons l path ih =>
    intro outer nest hchainA hchainB hnest
    obtain ⟨hl, houter⟩ := h.coherent a ha outer l _ hchainA
    have hwayA : chain a = chain (.loop l) ++ l :: (path ++ c :: restA) := by
      rw [hchainA, houter, List.cons_append]
    have hwayB : chain b = chain (.loop l) ++ l :: (path ++ c :: restB) := by
      rw [hchainB, houter, List.cons_append]
    have hmem : (Ref.loop c).entry path ∈ s.body k l := by
      rw [← a.entry_append path c restA]
      exact h.entry_mem_body ha hl hwayA
    cases hnest with
    | loop l members hbody hmembers =>
      rw [← hbody] at hmem
      obtain ⟨p, hp, hpath⟩ := List.mem_map.mp hmem
      have hdeepA : chain a = (outer ++ [l]) ++ (path ++ c :: restA) := by rw [hchainA]; simp
      have hdeepB : chain b = (outer ++ [l]) ++ (path ++ c :: restB) := by rw [hchainB]; simp
      obtain ⟨inner, hinner, hiff⟩ := ih hdeepA hdeepB (hpath ▸ hmembers p hp)
      have hin : ∀ q ∈ members, q.1 ∈ s.body k l := fun q hq => hbody ▸ List.mem_map_of_mem hq
      refine ⟨inner, hinner, ?_⟩
      rw [names_loop, precedes_cons_iff (h.head_name_ne ha hchainA) (h.head_name_ne hb hchainB),
        precedes_pairs_iff_of_mem hp (hbody ▸ h.nodup l hl), hiff]
      · intro q hq hmemq
        rw [(h.mem_names_member_iff ha hwayA (hmembers q hq) hl (hin q hq)).mp hmemq, hpath,
          Ref.entry_append]
      · intro q hq hmemq
        rw [(h.mem_names_member_iff hb hwayB (hmembers q hq) hl (hin q hq)).mp hmemq, hpath,
          Ref.entry_append]

/-- Two items that part in a body come up in the order of the members that lead to them. -/
theorem precedes_part (h : s.Hierarchy k own chain) (ha : own a) (hb : own b)
    (hchainA : chain a = chain (.loop c) ++ c :: restA)
    (hchainB : chain b = chain (.loop c) ++ c :: restB) (hne : a.entry restA ≠ b.entry restB)
    {R : Ref m n → Ref m n → Prop} (hsorted : (s.body k c).Pairwise R)
    (hasymm : R (a.entry restA) (b.entry restB) → ¬ R (b.entry restB) (a.entry restA)) {nest : Nest}
    (hnest : s.Unfolds k (.loop c) nest) :
    Precedes (k.name a) (k.name b) (names [nest]) ↔ R (a.entry restA) (b.entry restB) := by
  obtain ⟨hc, -⟩ := h.coherent a ha _ c restA hchainA
  cases hnest with
  | loop c members hbody hmembers =>
    have hin : ∀ q ∈ members, q.1 ∈ s.body k c := fun q hq => hbody ▸ List.mem_map_of_mem hq
    rw [names_loop, precedes_cons_iff (h.head_name_ne ha hchainA) (h.head_name_ne hb hchainB)]
    refine precedes_pairs_iff (hbody ▸ hsorted) (hbody ▸ h.nodup c hc) hasymm hne ?_ ?_ ?_ ?_
    · rw [hbody]
      exact h.entry_mem_body ha hc hchainA
    · rw [hbody]
      exact h.entry_mem_body hb hc hchainB
    · exact fun q hq => h.mem_names_member_iff ha hchainA (hmembers q hq) hc (hin q hq)
    · exact fun q hq => h.mem_names_member_iff hb hchainB (hmembers q hq) hc (hin q hq)

end Hierarchy

/-! ## The order of a hierarchical kernel -/

/-- The loops among the roots stand as they were declared. -/
theorem pairwise_roots (hk : k.Distinct) (layer : Layer m n) :
    (roots k layer).Pairwise fun r t => ∀ d e, r = .loop d → t = .loop e → k.rank d < k.rank e := by
  rw [roots, List.pairwise_append, List.pairwise_map, List.pairwise_map]
  refine ⟨List.pairwise_of_forall fun i j => by simp, ?_, ?_⟩
  · refine ((Kernel.pairwise_idxOf hk.nodup_loops).filter _).imp ?_
    intro d e hlt x y hx hy
    cases hx
    cases hy
    exact hlt
  · intro r hr t ht d e hrd
    obtain ⟨i, -, rfl⟩ := List.mem_map.mp hr
    cases hrd

/-- A loop at which the way to an item starts is a root. -/
theorem loop_mem_roots_of_entry (hk : k.Hierarchical) {layer : Layer m n} {r : Ref m n}
    (hr : r ∈ k.items) {d : Fin n} (h : r.entry (k.chain r) = .loop d) :
    Ref.loop d ∈ roots k layer := by
  cases hchain : k.chain r with
  | nil =>
    rw [hchain] at h
    have hrd : r = .loop d := h
    rw [hrd] at hr hchain
    exact loop_mem_roots (Kernel.loop_mem_items.mp hr) hchain
  | cons x inner =>
    rw [hchain] at h
    cases h
    obtain ⟨hd, houter⟩ := hk.chain_coherent hr (hchain.trans (List.nil_append _).symm)
    exact loop_mem_roots hd houter

section Schedule

variable (hk : k.Hierarchical) {layer : Layer m n} (hlayer : Layer.analyze k = .ok layer)
  (hs : ∀ l ∈ k.loops, k.Nested l (k.behind l) (s.body k l)) {pairs : List (Ref m n × Nest)}
  (hfst : pairs.map Prod.fst = roots k layer) (hpairs : ∀ p ∈ pairs, s.Unfolds k p.1 p.2)
  {a b : Ref m n} (ha : a ∈ k.items) (hb : b ∈ k.items)

include hk hlayer hs hfst hpairs

include ha in
theorem mem_names_pair_iff {p : Ref m n × Nest} (hp : p ∈ pairs) :
    k.name a ∈ names [p.2] ↔ p.1 = a.entry (k.chain a) := by
  obtain ⟨hitem, hchain⟩ := root_of_mem hk hlayer (hfst ▸ List.mem_map_of_mem hp)
  exact (hierarchy_of_finished hk hs).mem_names_root_iff ha (hpairs p hp) hitem hchain

include hb in
/-- A loop of an item's chain stands before the item. -/
theorem precedes_of_mem_chain {l : Fin n} (hl : l ∈ k.chain b) :
    Precedes (k.loop l).head.name (k.name b) (names (pairs.map Prod.snd)) := by
  refine precedes_of_around fun v hv => ?_
  obtain ⟨node, -, hvisits⟩ := visitsOf_item hk hlayer hs hfst hpairs hb fun hchain =>
    absurd (hchain ▸ hl) List.not_mem_nil
  rw [hvisits, List.mem_singleton] at hv
  rw [hv]
  exact List.mem_map_of_mem (f := fun l => (k.loop l).head) hl

include ha hb in
/-- **Outside all loops** the schedule follows the declarations of the loops. -/
theorem precedes_iff_rank_lt {d e : Fin n} (hd : a.entry (k.chain a) = .loop d)
    (he : b.entry (k.chain b) = .loop e) (hne : d ≠ e) :
    Precedes (k.name a) (k.name b) (names (pairs.map Prod.snd)) ↔ k.rank d < k.rank e := by
  refine (precedes_pairs_iff (hfst ▸ pairwise_roots hk.distinct layer)
    (hfst ▸ nodup_roots hk.distinct) ?_ (fun h => hne (by cases h; rfl))
    (hfst ▸ loop_mem_roots_of_entry hk ha hd)
    (hfst ▸ loop_mem_roots_of_entry hk hb he) ?_ ?_).trans ?_
  · exact fun hlt hgt => absurd (hlt d e rfl rfl) (Nat.lt_asymm (hgt e d rfl rfl))
  · exact fun p hp => hd ▸ mem_names_pair_iff hk hlayer hs hfst hpairs ha hp
  · exact fun p hp => he ▸ mem_names_pair_iff hk hlayer hs hfst hpairs hb hp
  · constructor
    · exact fun h => h d e rfl rfl
    · intro hlt x y hx hy
      cases hx
      cases hy
      exact hlt

include ha hb in
/-- **In the body of a loop** the schedule follows the first instructions of the members. -/
theorem precedes_iff_lead_lt {outer restA restB : List (Fin n)} {c : Fin n}
    (hchainA : k.chain a = outer ++ c :: restA) (hchainB : k.chain b = outer ++ c :: restB)
    (hne : a.entry restA ≠ b.entry restB) :
    Precedes (k.name a) (k.name b) (names (pairs.map Prod.snd)) ↔
      k.lead (a.entry restA) < k.lead (b.entry restB) := by
  have hhierarchy := hierarchy_of_finished hk hs
  obtain ⟨hc, houter⟩ := hk.chain_coherent ha hchainA
  have hentryA : a.entry (k.chain a) = (Ref.loop c).entry outer := by
    rw [hchainA, Ref.entry_append]
  have hentryB : b.entry (k.chain b) = (Ref.loop c).entry outer := by
    rw [hchainB, Ref.entry_append]
  obtain ⟨d, hd⟩ : ∃ d, (Ref.loop c : Ref m n).entry outer = .loop d := by
    cases outer <;> exact ⟨_, rfl⟩
  obtain ⟨p, hp, hpd⟩ := List.mem_map.mp
    (hfst ▸ loop_mem_roots_of_entry hk ha (hentryA.trans hd) : Ref.loop d ∈ pairs.map Prod.fst)
  have hpath : p.1 = (Ref.loop c).entry outer := hpd.trans hd.symm
  rw [precedes_pairs_iff_of_mem hp (hfst ▸ nodup_roots hk.distinct)]
  · obtain ⟨inner, hinner, hiff⟩ := hhierarchy.precedes_descend ha hb
      (hchainA.trans (List.nil_append _).symm) (hchainB.trans (List.nil_append _).symm)
      (hpath ▸ hpairs p hp)
    rw [hiff]
    exact hhierarchy.precedes_part ha hb (houter ▸ hchainA) (houter ▸ hchainB) hne (hs c hc).sorted
      (fun hlt => Nat.lt_asymm hlt) hinner
  · intro q hq hmem
    rw [(mem_names_pair_iff hk hlayer hs hfst hpairs ha hq).mp hmem, hentryA, hpath]
  · intro q hq hmem
    rw [(mem_names_pair_iff hk hlayer hs hfst hpairs hb hq).mp hmem, hentryB, hpath]

end Schedule

end Nester

end LoopNest
