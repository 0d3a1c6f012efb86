import LoopNest.Proofs.Schedule.Contains
import LoopNest.Proofs.Schedule.FirstVisit

/-!
# The finished loops

Attaching builds one loop for each name and takes it wherever the name is met again.  Loops declared
inline may share a name, and then a nest is not what the bodies say: the loop that was met first
stands in for the others.  What the nests are made of can be read off the list of finished loops
instead.  Each of them has a name of its own, was assembled from nests that were made before, and is
in use.

So the finished loops, with the members they were built from, are bodies in their own right
(`Nester.built`), from which every nest unfolds.  No condition on names is needed for this.

* `Nester.Attaches.ledger`: the finished loops are assembled from each other.
* `Nester.Attaches.reached`: each of them is inside the items that were attached.
* `Nesting.Steps.standsIn_iff_places`: what stands in the schedule of any kernel.
-/

namespace LoopNest

variable {m n : Nat}

namespace Nester

open Nest

variable {s : Nester m n} {k : Kernel m n} {active : List String} {items : List (Ref m n)}
  {fin fin' : List (Finished m n)} {pairs : List (Ref m n × Nest)}

/-! ## Assembling -/

/-- The nest was made for the item: an instruction as it is, a loop as it was finished. -/
inductive Made (k : Kernel m n) (fin : List (Finished m n)) : Ref m n → Nest → Prop where
  | instruction (i : Fin m) : Made k fin (.instruction i) (.instruction (k.instruction i))
  | loop {f : Finished m n} (hf : f ∈ fin) : Made k fin (.loop f.loop) f.nest

theorem Made.mono (hsub : fin ⊆ fin') {r : Ref m n} {nest : Nest} (h : Made k fin r nest) :
    Made k fin' r nest := by
  cases h with
  | instruction i => exact .instruction i
  | loop hf => exact .loop (hsub hf)

/-- A finished loop with its own name, around the nests that were made for its members. -/
structure Finished.Assembled (k : Kernel m n) (fin : List (Finished m n)) (f : Finished m n) :
    Prop where
  name : f.name = (k.loop f.loop).head.name
  nest : ∃ pairs : List (Ref m n × Nest), pairs.map Prod.fst = f.members ∧
    f.nest = .loop (k.loop f.loop).head (pairs.map Prod.snd) ∧ ∀ p ∈ pairs, Made k fin p.1 p.2

theorem Finished.Assembled.mono (hsub : fin ⊆ fin') {f : Finished m n} (h : f.Assembled k fin) :
    f.Assembled k fin' := by
  obtain ⟨pairs, hfst, hnest, hpairs⟩ := h.nest
  exact ⟨h.name, pairs, hfst, hnest, fun p hp => (hpairs p hp).mono hsub⟩

/-- Finished loops of different names, each assembled from what was made. -/
structure Ledger (k : Kernel m n) (fin : List (Finished m n)) : Prop where
  names : (fin.map Finished.name).Nodup
  assembled : ∀ f ∈ fin, f.Assembled k fin

theorem Ledger.nil (k : Kernel m n) : Ledger k [] := ⟨List.nodup_nil, by simp⟩

theorem Ledger.eq_of_name (h : Ledger k fin) {f g : Finished m n} (hf : f ∈ fin) (hg : g ∈ fin)
    (hname : f.name = g.name) : f = g :=
  List.inj_on_of_nodup_map h.names hf hg hname

/-- Entering a loop of a new name that is made of what was made. -/
theorem Ledger.snoc (h : Ledger k fin) {l : Fin n} {members : List (Ref m n × Nest)}
    (hfresh : ∀ f ∈ fin, f.name ≠ (k.loop l).head.name)
    (hmembers : ∀ p ∈ members, Made k fin p.1 p.2) : Ledger k (fin ++ [finish k l members]) := by
  have hsub : fin ⊆ fin ++ [finish k l members] := List.subset_append_left _ _
  constructor
  · rw [List.map_append, List.nodup_append]
    refine ⟨h.names, List.nodup_singleton _, ?_⟩
    intro x hx y hy
    obtain ⟨f, hf, rfl⟩ := List.mem_map.mp hx
    rw [List.map_singleton, List.mem_singleton] at hy
    rw [hy]
    exact hfresh f hf
  · intro f hf
    rcases List.mem_append.mp hf with hf | hf
    · exact (h.assembled f hf).mono hsub
    · rw [List.mem_singleton] at hf
      subst hf
      exact ⟨rfl, members, rfl, rfl, fun p hp => (hmembers p hp).mono hsub⟩

theorem Attaches.subset (h : Attaches s k active items fin pairs fin') : fin ⊆ fin' := by
  induction h with
  | nil => exact List.Subset.refl _
  | instruction _ _ ih => exact ih
  | seen _ _ _ ih => exact ih
  | fresh _ _ _ _ ihbody ih => exact fun f hf => ih (List.mem_append_left _ (ihbody hf))

/-- A loop that is being built is not finished on the way. -/
theorem Attaches.name_notMem (h : Attaches s k active items fin pairs fin') :
    ∀ f ∈ fin', f ∈ fin ∨ f.name ∉ active := by
  induction h with
  | nil => exact fun f hf => .inl hf
  | instruction _ _ ih => exact ih
  | seen _ _ _ ih => exact ih
  | fresh hactive _ _ _ ihbody ih =>
    intro f hf
    rcases ih f hf with hf | hname
    · rcases List.mem_append.mp hf with hf | hf
      · rcases ihbody f hf with hf | hname
        · exact .inl hf
        · exact .inr fun hmem => hname (List.mem_append_left _ hmem)
      · rw [List.mem_singleton] at hf
        subst hf
        exact .inr hactive
    · exact .inr hname

theorem Attaches.ledger (h : Attaches s k active items fin pairs fin') (hfin : Ledger k fin) :
    Ledger k fin' ∧ ∀ p ∈ pairs, Made k fin' p.1 p.2 := by
  induction h with
  | nil => exact ⟨hfin, by simp⟩
  | instruction i _ ih =>
    obtain ⟨hledger, hpairs⟩ := ih hfin
    refine ⟨hledger, fun p hp => ?_⟩
    rcases List.mem_cons.mp hp with rfl | hp
    · exact .instruction i
    · exact hpairs p hp
  | seen _ hseen hrest ih =>
    obtain ⟨hledger, hpairs⟩ := ih hfin
    refine ⟨hledger, fun p hp => ?_⟩
    rcases List.mem_cons.mp hp with rfl | hp
    · exact .loop (hrest.subset (finished?_eq_some hseen).1)
    · exact hpairs p hp
  | @fresh _ _ fin members fin₁ _ _ l hactive hfresh hbody hrest ihbody ih =>
    obtain ⟨hledger₁, hmembers⟩ := ihbody hfin
    have hnew : ∀ f ∈ fin₁, f.name ≠ (k.loop l).head.name := by
      intro f hf hname
      rcases hbody.name_notMem f hf with hf | hnotMem
      · exact finished?_eq_none hfresh (hname ▸ List.mem_map_of_mem hf)
      · exact hnotMem (by simp [hname])
    obtain ⟨hledger, hpairs⟩ := ih (hledger₁.snoc hnew hmembers)
    refine ⟨hledger, fun p hp => ?_⟩
    rcases List.mem_cons.mp hp with rfl | hp
    · exact .loop (hrest.subset (List.mem_append_right _ List.mem_cons_self))
    · exact hpairs p hp

/-! ## Finished loops as bodies -/

/-- The bodies that the finished loops were built from. -/
def built (fin : List (Finished m n)) : Nester m n :=
  ⟨.ofList (fin.map fun f => (f.name, f.members)), 0⟩

theorem Ledger.body_built (h : Ledger k fin) {f : Finished m n} (hf : f ∈ fin) :
    (built fin).body k f.loop = f.members := by
  have hmem : ((k.loop f.loop).head.name, f.members) ∈ fin.map fun f => (f.name, f.members) := by
    rw [← (h.assembled f hf).name]
    exact List.mem_map_of_mem (f := fun f => (f.name, f.members)) hf
  rw [body, built, NameMap.find?_ofList (by rw [List.map_map]; exact h.names) hmem]
  rfl

/-- What was made is what the finished loops unfold to. -/
theorem Ledger.unfolds (h : Ledger k fin) {r : Ref m n} {nest : Nest} (hmade : Made k fin r nest) :
    (built fin).Unfolds k r nest := by
  -- by the size of the nest: a loop is larger than what it is made of
  induction hsize : sizeOf nest using Nat.strong_induction_on generalizing r nest with
  | _ size ih =>
    cases hmade with
    | instruction i => exact .instruction i
    | @loop f hf =>
      obtain ⟨pairs, hfst, hnest, hpairs⟩ := (h.assembled f hf).nest
      rw [hnest] at hsize ⊢
      refine .loop f.loop pairs (hfst.trans (h.body_built hf).symm) fun p hp => ?_
      refine ih (sizeOf p.2) ?_ (hpairs p hp) rfl
      have hlt : sizeOf p.2 < sizeOf (pairs.map Prod.snd) :=
        List.sizeOf_lt_of_mem (List.mem_map_of_mem hp)
      rw [← hsize, Nest.loop.sizeOf_spec]
      omega

/-- The finished loops are separated: there is one of each name, and they hold no others. -/
theorem Ledger.separated (h : Ledger k fin) :
    (built fin).Separated k fun l => ∃ f ∈ fin, f.loop = l where
  closed := by
    rintro _ ⟨f, hf, rfl⟩ e he
    rw [h.body_built hf] at he
    obtain ⟨pairs, hfst, -, hpairs⟩ := (h.assembled f hf).nest
    rw [← hfst] at he
    obtain ⟨⟨r, nest⟩, hp, rfl⟩ := List.mem_map.mp he
    cases hpairs _ hp with
    | @loop g hg => exact ⟨g, hg, rfl⟩
  inj := by
    rintro _ _ ⟨f, hf, rfl⟩ ⟨g, hg, rfl⟩ hname
    rw [← (h.assembled f hf).name, ← (h.assembled g hg).name] at hname
    rw [h.eq_of_name hf hg hname]

/-- The first item is a finished loop that was built from the second. -/
def FinishedWith (fin : List (Finished m n)) (r t : Ref m n) : Prop :=
  ∃ f ∈ fin, r = .loop f.loop ∧ t ∈ f.members

/-- A loop is finished only where it is inside the items that are attached. -/
theorem Attaches.reached (h : Attaches s k active items fin pairs fin') :
    ∀ f ∈ fin', f ∈ fin ∨
      ∃ p ∈ pairs, Relation.ReflTransGen (FinishedWith fin') p.1 (.loop f.loop) := by
  induction h with
  | nil => exact fun f hf => .inl hf
  | instruction i _ ih =>
    intro f hf
    rcases ih f hf with hf | ⟨p, hp, hreach⟩
    · exact .inl hf
    · exact .inr ⟨p, List.mem_cons_of_mem _ hp, hreach⟩
  | seen _ _ _ ih =>
    intro f hf
    rcases ih f hf with hf | ⟨p, hp, hreach⟩
    · exact .inl hf
    · exact .inr ⟨p, List.mem_cons_of_mem _ hp, hreach⟩
  | @fresh _ _ fin members fin₁ _ fin' l _ _ _ hrest ihbody ih =>
    have hsub : fin₁ ++ [finish k l members] ⊆ fin' := hrest.subset
    have hfinish : finish k l members ∈ fin' := hsub (by simp)
    intro f hf
    rcases ih f hf with hf | ⟨p, hp, hreach⟩
    · rcases List.mem_append.mp hf with hf | hf
      · rcases ihbody f hf with hf | ⟨p, hp, hreach⟩
        · exact .inl hf
        · -- from the loop to its member and on
          have hfirst : FinishedWith fin' (.loop l) p.1 :=
            ⟨_, hfinish, rfl, List.mem_map_of_mem hp⟩
          have hmono : ∀ r t, FinishedWith fin₁ r t → FinishedWith fin' r t := by
            rintro r t ⟨g, hg, hr, ht⟩
            exact ⟨g, hsub (List.mem_append_left _ hg), hr, ht⟩
          exact .inr ⟨_, List.mem_cons_self,
            (Relation.ReflTransGen.mono hmono _ _ hreach).head hfirst⟩
      · rw [List.mem_singleton] at hf
        subst hf
        exact .inr ⟨_, List.mem_cons_self, .refl⟩
    · exact .inr ⟨p, List.mem_cons_of_mem _ hp, hreach⟩

theorem Ledger.contains_of_finishedWith (h : Ledger k fin) {r t : Ref m n}
    (hreach : Relation.ReflTransGen (FinishedWith fin) r t) : (built fin).Contains k r t := by
  refine Relation.ReflTransGen.mono ?_ _ _ hreach
  rintro r t ⟨f, hf, rfl, ht⟩
  exact ⟨f.loop, rfl, (h.body_built hf).symm ▸ ht⟩

end Nester

/-! ## The whole way -/

namespace Nesting

variable {k : Kernel m n} {N : Nesting m n}

/-- The items at the top and in the finished loops. -/
def places (N : Nesting m n) : List (Ref m n) :=
  N.made.map Prod.fst ++ N.finished.flatMap Nester.Finished.members

/-- The bodies that the finished loops were built from. -/
def built (N : Nesting m n) : Nester m n := Nester.built N.finished

theorem Steps.ledger (hN : N.Steps k) : Nester.Ledger k N.finished :=
  (hN.attached.ledger (.nil k)).1

theorem Steps.unfolds (hN : N.Steps k) : ∀ p ∈ N.made, N.built.Unfolds k p.1 p.2 := fun p hp =>
  hN.ledger.unfolds ((hN.attached.ledger (.nil k)).2 p hp)

theorem Steps.made_of_mem_places (hN : N.Steps k) {r : Ref m n} (hr : r ∈ N.places) :
    ∃ nest, Nester.Made k N.finished r nest := by
  rcases List.mem_append.mp hr with hr | hr
  · obtain ⟨p, hp, rfl⟩ := List.mem_map.mp hr
    exact ⟨p.2, (hN.attached.ledger (.nil k)).2 p hp⟩
  · obtain ⟨f, hf, hr⟩ := List.mem_flatMap.mp hr
    obtain ⟨pairs, hfst, -, hpairs⟩ := (hN.ledger.assembled f hf).nest
    rw [← hfst] at hr
    obtain ⟨p, hp, rfl⟩ := List.mem_map.mp hr
    exact ⟨p.2, hpairs p hp⟩

/-- Every finished loop is inside the items at the top. -/
theorem Steps.contains_finished (hN : N.Steps k) {f : Nester.Finished m n} (hf : f ∈ N.finished) :
    ∃ r ∈ N.made.map Prod.fst, N.built.Contains k r (.loop f.loop) := by
  rcases hN.attached.reached f hf with hf | ⟨p, hp, hreach⟩
  · exact absurd hf List.not_mem_nil
  · exact ⟨p.1, List.mem_map_of_mem hp, hN.ledger.contains_of_finishedWith hreach⟩

/-- Inside the items at the top are these and what the finished loops were built from. -/
theorem Steps.contains_iff_mem_places (hN : N.Steps k) {t : Ref m n} :
    (∃ r ∈ N.made.map Prod.fst, N.built.Contains k r t) ↔ t ∈ N.places := by
  constructor
  · rintro ⟨r, hr, h⟩
    induction h with
    | refl => exact List.mem_append_left _ hr
    | tail _ hstep ih =>
      obtain ⟨l, rfl, hmem⟩ := hstep
      obtain ⟨nest, hmade⟩ := hN.made_of_mem_places ih
      cases hmade with
      | @loop f hf =>
        rw [built, hN.ledger.body_built hf] at hmem
        exact List.mem_append_right _ (List.mem_flatMap.mpr ⟨f, hf, hmem⟩)
  · intro ht
    rcases List.mem_append.mp ht with ht | ht
    · exact ⟨t, ht, .refl⟩
    · obtain ⟨f, hf, ht⟩ := List.mem_flatMap.mp ht
      obtain ⟨r, hr, hcontains⟩ := hN.contains_finished hf
      exact ⟨r, hr, hcontains.tail ⟨f.loop, rfl, (hN.ledger.body_built hf).symm ▸ ht⟩⟩

/-- **What stands in the schedule of any kernel** is what the finished loops were built from and
what is at the top. -/
theorem Steps.standsIn_iff_places (hN : N.Steps k) {r : Ref m n} :
    k.StandsIn (N.made.map Prod.snd) r ↔ ∃ t ∈ N.places, k.face t = k.face r := by
  rw [Nester.standsIn_iff rfl hN.unfolds]
  simp only [hN.contains_iff_mem_places]

end Nesting
end LoopNest
