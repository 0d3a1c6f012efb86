import LoopNest.Proofs.Schedule.Lasting

/-!
# Cyclic nests

Attaching walks down the bodies with the names of the loops around it at hand, and stops when it
comes to a loop that is around it already.  It also remembers finished loops and does not enter them
again.  So two things could go wrong: a remembered loop could hide a cycle below it, and a loop that
is shared by two others could be taken for one.

## Why neither happens

The loops around an item form a chain, each in the body of the one before (`attach_eq_error`).  If
the item is one of them, the part of the chain from there on closes, so what is reported is a way
round.  In the other direction, a run that succeeds gives every item a finite tree that its body
unfolds to, and a loop on a cycle has none (`Unfolds.not_cyclic`).  The memory takes part in neither
argument.

* `Nester.Reached`, `Nester.ClosedWalk`: what is inside the roots; a way from a loop back to itself.
* `Nester.attach_eq_error`: a run that fails has found a closed walk.
* `Nester.materialize_detects_cycles`: attaching fails on the cyclic nests and on no others.
-/

namespace LoopNest

/-- A computation fails in its first part, or behind it. -/
theorem run_bind_eq_error {ε σ α β : Type} {x : EStateM ε σ α} {f : α → EStateM ε σ β} {s t : σ}
    {e : ε} (h : (x >>= f).run s = .error e t) :
    x.run s = .error e t ∨ ∃ a u, x.run s = .ok a u ∧ (f a).run u = .error e t := by
  rw [EStateM.run_bind] at h
  cases hx : x.run s with
  | ok a u =>
    rw [hx] at h
    exact .inr ⟨a, u, rfl, h⟩
  | error e' u =>
    rw [hx] at h
    cases h
    exact .inl rfl

namespace Nester

variable {m n : Nat} {s : Nester m n} {k : Kernel m n} {roots : List (Ref m n)}

/-- The loop is one of the roots or inside one of them. -/
def Reached (s : Nester m n) (k : Kernel m n) (roots : List (Ref m n)) (l : Fin n) : Prop :=
  ∃ r ∈ roots, s.Contains k r (.loop l)

theorem Reached.root {l : Fin n} (h : .loop l ∈ roots) : s.Reached k roots l := ⟨_, h, .refl⟩

theorem Reached.member {l e : Fin n} (h : s.Reached k roots l) (he : .loop e ∈ s.body k l) :
    s.Reached k roots e := by
  obtain ⟨r, hr, hcontains⟩ := h
  exact ⟨r, hr, hcontains.tail ⟨l, rfl, he⟩⟩

/-- What holds of the roots, and passes from a loop to the loops in its body, holds of every loop
that is reached. -/
theorem Reached.induction {P : Fin n → Prop} (hroots : ∀ l, .loop l ∈ roots → P l)
    (hstep : ∀ l, P l → ∀ e, .loop e ∈ s.body k l → P e) {l : Fin n} (h : s.Reached k roots l) :
    P l := by
  obtain ⟨r, hr, hcontains⟩ := h
  generalize ht : Ref.loop l = t at hcontains
  induction hcontains generalizing l with
  | refl => exact hroots l (ht ▸ hr)
  | tail _ hlast ih =>
    obtain ⟨d, rfl, hmem⟩ := hlast
    exact hstep d (ih rfl) l (ht ▸ hmem)

/-- Loops, at least two, each in the body of the one before, and the last is the first. -/
structure ClosedWalk (s : Nester m n) (k : Kernel m n) (walk : List (Fin n)) : Prop where
  length : 2 ≤ walk.length
  closed : walk.getLast? = walk.head?
  chain : walk.IsChain fun d e => .loop e ∈ s.body k d

/-- A closed walk leads from its first loop back to it. -/
theorem ClosedWalk.transGen {walk : List (Fin n)} (h : s.ClosedWalk k walk) :
    ∃ l ∈ walk, Relation.TransGen (s.Holds k) (.loop l) (.loop l) := by
  obtain ⟨hlength, hclosed, hchain⟩ := h
  match walk with
  | l :: e :: rest =>
    rw [List.isChain_cons_cons] at hchain
    rw [List.getLast?_cons_cons, List.head?_cons,
      List.getLast?_eq_some_getLast (List.cons_ne_nil _ _), Option.some.injEq] at hclosed
    have hback : s.Contains k (.loop e) (.loop l) :=
      contains_loop_iff.mpr (List.relationReflTransGen_of_exists_isChain_cons rest hchain.2 hclosed)
    exact ⟨l, List.mem_cons_self, .head' ⟨l, rfl, hchain.1⟩ hback⟩

/-! ## A run that fails -/

/-- **A run that fails has found a closed walk.**  The loops around the items are a chain that every
loop among the items continues. -/
theorem attach_eq_error {own : Fin n → Prop} (hs : s.Separated k own) {active : List String}
    {items : List (Ref m n)} {fin fin' : List (Finished m n)} {e : CompileError}
    {path : List (Fin n)} (hactive : active = path.map fun l => (k.loop l).head.name)
    (hpath : ∀ l ∈ path, own l) (hitems : ∀ l, .loop l ∈ items → own l ∧
    (path ++ [l]).IsChain fun d e => .loop e ∈ s.body k d)
    (h : (s.attach k active items).run fin = .error e fin') :
    ∃ walk, s.ClosedWalk k walk ∧ (∀ l ∈ walk, own l) ∧
      e = .cyclic (walk.map fun l => (k.loop l).head.name) := by
  induction active, items using attach.induct s k generalizing fin fin' path with
  | case1 active =>
    rw [attach] at h
    cases h
  | case2 active i items ih =>
    rw [attach] at h
    rcases run_bind_eq_error h with h | ⟨_, _, -, h⟩
    · exact ih hactive hpath (fun l hl => hitems l (List.mem_cons_of_mem _ hl)) h
    · cases h
  | case3 active l items hmem =>
    obtain ⟨hl, hchain⟩ := hitems l List.mem_cons_self
    rw [attach, dif_pos hmem] at h
    cases h
    subst hactive
    -- a loop with this name around the items is this loop
    have hname : ∀ d ∈ path, (k.loop d).head.name = (k.loop l).head.name ↔ d = l :=
      fun d hd => ⟨hs.inj d l (hpath d hd) hl, fun h => h ▸ rfl⟩
    have hlpath : l ∈ path := by
      obtain ⟨d, hd, hdname⟩ := List.mem_map.mp (List.contains_iff_mem.mp hmem)
      exact (hname d hd).mp hdname ▸ hd
    obtain ⟨before, after, rfl, hbefore⟩ := List.eq_append_cons_of_mem hlpath
    refine ⟨l :: after ++ [l], ⟨by simp, by rw [List.getLast?_concat]; rfl, ?_⟩, ?_, ?_⟩
    · rw [List.append_assoc] at hchain
      exact hchain.right_of_append
    · intro d hd
      rcases List.mem_append.mp hd with hd | hd
      · exact hpath d (List.mem_append_right _ hd)
      · rwa [List.mem_singleton.mp hd]
    · have hskip : ∀ x ∈ before.map fun d => (k.loop d).head.name,
          decide (x ≠ (k.loop l).head.name) = true := by
        intro x hx
        obtain ⟨d, hd, rfl⟩ := List.mem_map.mp hx
        have hne : d ≠ l := fun h => hbefore (h ▸ hd)
        simpa [hname d (List.mem_append_left _ hd)] using hne
      rw [List.map_append, List.dropWhile_append_of_pos hskip]
      simp
  | case4 active l items hmem ih ihbody =>
    obtain ⟨hl, hchain⟩ := hitems l List.mem_cons_self
    have hrest : ∀ l, .loop l ∈ items → own l ∧
        (path ++ [l]).IsChain fun d e => .loop e ∈ s.body k d :=
      fun l hl => hitems l (List.mem_cons_of_mem _ hl)
    rw [attach, dif_neg hmem, run_get_bind] at h
    cases hseen : finished? fin (k.loop l).head.name with
    | some f =>
      rw [finished?] at hseen
      rw [hseen] at h
      rcases run_bind_eq_error h with h | ⟨_, _, -, h⟩
      · cases h
      rcases run_bind_eq_error h with h | ⟨_, _, -, h⟩
      · exact ih hactive hpath hrest h
      · cases h
    | none =>
      rw [finished?] at hseen
      rw [hseen] at h
      rcases run_bind_eq_error h with h | ⟨_, _, -, h⟩
      · have hpath' : ∀ d ∈ path ++ [l], own d := by
          intro d hd
          rcases List.mem_append.mp hd with hd | hd
          · exact hpath d hd
          · rwa [List.mem_singleton.mp hd]
        have hactive' : active ++ [(k.loop l).head.name]
            = (path ++ [l]).map fun l => (k.loop l).head.name := by
          rw [hactive, List.map_append]
          rfl
        refine ihbody hactive' hpath' (fun d hd => ?_) h
        refine ⟨hs.closed l hl d hd, List.isChain_append.mpr ⟨hchain, List.isChain_singleton d, ?_⟩⟩
        simpa using hd
      rcases run_bind_eq_error h with h | ⟨_, _, hmodify, h⟩
      · cases h
      rcases run_bind_eq_error h with h | ⟨_, _, hpure, h⟩
      · cases h
      rcases run_bind_eq_error h with h | ⟨_, _, -, h⟩
      · exact ih hactive hpath hrest h
      · cases h

/-! ## A run that succeeds -/

/-- What unfolds to a tree is on no cycle: a cycle through a loop would be one through a member. -/
theorem Unfolds.not_cyclic {r : Ref m n} {nest : Nest} (h : s.Unfolds k r nest) :
    ¬ Relation.TransGen (s.Holds k) r r := by
  induction h with
  | instruction i =>
    intro hcycle
    obtain ⟨_, ⟨l, hl, -⟩, -⟩ := Relation.TransGen.head'_iff.mp hcycle
    cases hl
  | loop l members hbody _ ih =>
    intro hcycle
    obtain ⟨t, ⟨l', hl', ht⟩, hback⟩ := Relation.TransGen.head'_iff.mp hcycle
    cases hl'
    rw [← hbody] at ht
    obtain ⟨p, hp, rfl⟩ := List.mem_map.mp ht
    refine ih p hp (.tail' hback ⟨l, rfl, ?_⟩)
    rw [← hbody]
    exact List.mem_map_of_mem hp

variable {fin : List (Finished m n)}

/-- What was built for an item; for a loop that was not finished, the loop without members. -/
def resultIn (k : Kernel m n) (fin : List (Finished m n)) : Ref m n → Nest
  | .instruction i => .instruction (k.instruction i)
  | .loop l => ((fin.find? (·.loop = l)).map Finished.nest).getD (.loop (k.loop l).head [])

/-- There is one finished loop for each row, so what was made for an item is its result. -/
theorem Ledger.resultIn_eq (h : Ledger k fin) {r : Ref m n} {nest : Nest}
    (hmade : Made k fin r nest) :
    resultIn k fin r = nest := by
  cases hmade with
  | instruction i => rfl
  | @loop f hf =>
    obtain ⟨g, hg⟩ : ∃ g, fin.find? (·.loop = f.loop) = some g := by
      rw [← Option.isSome_iff_exists, List.find?_isSome]
      exact ⟨f, hf, by simp⟩
    have hloop : g.loop = f.loop := by simpa using List.find?_some hg
    have hgmem := List.mem_of_find?_eq_some hg
    have hgf : g = f := by
      refine h.eq_of_name hgmem hf ?_
      rw [(h.assembled g hgmem).name, (h.assembled f hf).name, hloop]
    rw [resultIn, hg, hgf]
    rfl

/-- One loop was finished for each that is reached, with its body for members, and the result of the
loop is what was finished. -/
structure BuiltOnce (s : Nester m n) (k : Kernel m n) (roots : List (Ref m n))
    (result : Ref m n → Nest) (fin : List (Finished m n)) : Prop where
  nodup : (fin.map Finished.loop).Nodup
  mem_iff : ∀ l, l ∈ fin.map Finished.loop ↔ s.Reached k roots l
  members : ∀ f ∈ fin, f.members = s.body k f.loop
  nest : ∀ f ∈ fin, f.nest = result (.loop f.loop)

section Succeeds

variable {pairs : List (Ref m n × Nest)} (hs : s.Separated k (s.Reached k roots))
  (h : Attaches s k [] roots [] pairs fin)

include hs h

theorem Attaches.sealed :
    Attached roots [] pairs fin ∧ Sealed s k (s.Reached k roots) fin := by
  have hends := attach_sealed hs [] roots (fun l => Reached.root) (.nil s k _)
  rw [h.run] at hends
  cases hends with
  | ok hattached hsealed => exact ⟨hattached, hsealed⟩

/-- A run that succeeds reaches no loop that is on a cycle. -/
theorem Attaches.not_cyclic {l : Fin n} (hl : s.Reached k roots l) :
    ¬ Relation.TransGen (s.Holds k) (.loop l) (.loop l) := by
  obtain ⟨hfst, hunfolds, -⟩ := h.unfolds hs (fun l => Reached.root) (by simp)
  have hall : ∃ nest, s.Unfolds k (.loop l) nest := by
    refine hl.induction (P := fun l => ∃ nest, s.Unfolds k (.loop l) nest) ?_ ?_
    · intro l hl
      rw [← hfst] at hl
      obtain ⟨p, hp, hpl⟩ := List.mem_map.mp hl
      exact ⟨p.2, hpl ▸ hunfolds p hp⟩
    · rintro l ⟨nest, hnest⟩ e he
      cases hnest with
      | loop l members hbody hmembers =>
        rw [← hbody] at he
        obtain ⟨p, hp, hpe⟩ := List.mem_map.mp he
        exact ⟨p.2, hpe ▸ hmembers p hp⟩
  obtain ⟨nest, hnest⟩ := hall
  exact hnest.not_cyclic

theorem Attaches.builtOnce : BuiltOnce s k roots (resultIn k fin) fin := by
  obtain ⟨hattached, hsealed⟩ := h.sealed hs
  obtain ⟨hledger, -⟩ := h.ledger (.nil k)
  refine ⟨?_, fun l => ⟨?_, fun hl => ?_⟩, hsealed.members, ?_⟩
  · have hnames : fin.map Finished.name
        = (fin.map Finished.loop).map fun l => (k.loop l).head.name := by
      rw [List.map_map]
      exact List.map_congr_left hsealed.name
    exact .of_map _ (hnames ▸ hledger.names)
  · intro hl
    obtain ⟨f, hf, rfl⟩ := List.mem_map.mp hl
    exact hsealed.own f hf
  · refine hl.induction (P := (· ∈ fin.map Finished.loop)) ?_ ?_
    · intro l hl
      obtain ⟨f, hf, hloop⟩ := hattached.done l hl
      exact List.mem_map.mpr ⟨f, hf, hloop⟩
    · intro l hl e he
      obtain ⟨f, hf, rfl⟩ := List.mem_map.mp hl
      obtain ⟨g, hg, hloop⟩ := hsealed.closed f hf e he
      exact List.mem_map.mpr ⟨g, hg, hloop⟩
  · intro f hf
    exact (hledger.resultIn_eq (.loop hf)).symm

/-- The items get their results. -/
theorem Attaches.pairs_eq : pairs = roots.map fun r => (r, resultIn k fin r) := by
  obtain ⟨hattached, -⟩ := h.sealed hs
  obtain ⟨hledger, hpairs⟩ := h.ledger (.nil k)
  rw [← hattached.fst, List.map_map]
  conv_lhs => rw [← List.map_id pairs]
  refine List.map_congr_left fun p hp => ?_
  show p = (p.1, resultIn k fin p.1)
  rw [hledger.resultIn_eq (hpairs p hp)]

/-- The result of a loop has the results of its body. -/
theorem Attaches.resultIn_loop {l : Fin n} (hl : s.Reached k roots l) :
    resultIn k fin (.loop l) = .loop (k.loop l).head ((s.body k l).map (resultIn k fin)) := by
  have hbuilt := h.builtOnce hs
  obtain ⟨hledger, -⟩ := h.ledger (.nil k)
  obtain ⟨f, hf, rfl⟩ := List.mem_map.mp ((hbuilt.mem_iff l).mpr hl)
  obtain ⟨members, hfst, hnest, hmade⟩ := (hledger.assembled f hf).nest
  rw [← hbuilt.nest f hf, hnest, ← hbuilt.members f hf, ← hfst, List.map_map]
  congr 1
  exact List.map_congr_left fun p hp => (hledger.resultIn_eq (hmade p hp)).symm

end Succeeds

/-- **Attaching fails on the cyclic nests and on no others.**  What it reports is a closed walk.
Where it succeeds, there is one result for each item: the result of a loop has the results of its
body for members, in their order; each loop that is reached was built once; and in place it is the
loop's own list that now has the body. -/
theorem materialize_detects_cycles
    (hdistinct : ∀ l e, s.Reached k roots l → s.Reached k roots e →
      (k.loop l).head.name = (k.loop e).head.name → l = e) (inPlace : Bool) :
    ((∃ e, (s.materialize k roots inPlace).2 = .error e) ↔
      ∃ l, s.Reached k roots l ∧ Relation.TransGen (s.Holds k) (.loop l) (.loop l)) ∧
    (∀ e, (s.materialize k roots inPlace).2 = .error e →
      ∃ walk, s.ClosedWalk k walk ∧ (∀ l ∈ walk, s.Reached k roots l) ∧
        e = .cyclic (walk.map fun l => (k.loop l).head.name)) ∧
    (∀ pairs, (s.materialize k roots inPlace).2 = .ok pairs →
      ∃ (result : Ref m n → Nest) (fin : List (Finished m n)),
        pairs = roots.map (fun r => (r, result r)) ∧
        (∀ i, result (.instruction i) = .instruction (k.instruction i)) ∧
        (∀ l, s.Reached k roots l →
          result (.loop l) = .loop (k.loop l).head ((s.body k l).map result)) ∧
        (s.attach k [] roots).run [] = .ok pairs fin ∧ BuiltOnce s k roots result fin ∧
        ∀ l, ((s.materialize k roots inPlace).1.loop l).members
          = if inPlace ∧ l ∈ fin.map Finished.loop then s.body k l else (k.loop l).members) := by
  have hs : s.Separated k (s.Reached k roots) := ⟨fun _ hl _ => hl.member, hdistinct⟩
  have hroots : ∀ l, .loop l ∈ roots → s.Reached k roots l ∧
      ([] ++ [l]).IsChain fun d e => Ref.loop e ∈ s.body k d :=
    fun l hl => ⟨.root hl, List.isChain_singleton l⟩
  cases hrun : (s.attach k [] roots).run [] with
  | error e fin =>
    have hfails : (s.materialize k roots inPlace).2 = .error e := by rw [materialize, hrun]
    have hnone : ∀ d ∈ ([] : List (Fin n)), s.Reached k roots d := by simp
    obtain ⟨walk, hwalk, hreached, he⟩ := attach_eq_error hs rfl hnone hroots hrun
    obtain ⟨l, hl, hcycle⟩ := hwalk.transGen
    refine ⟨⟨fun _ => ⟨l, hreached l hl, hcycle⟩, fun _ => ⟨e, hfails⟩⟩, ?_, ?_⟩
    · intro e' he'
      cases hfails.symm.trans he'
      exact ⟨walk, hwalk, hreached, he⟩
    · intro pairs hpairs
      cases hfails.symm.trans hpairs
  | ok pairs fin =>
    have hattach : Attaches s k [] roots [] pairs fin := attaches_of_run hrun
    have hok : (s.materialize k roots inPlace).2 = .ok pairs := by rw [materialize, hrun]
    have hkernel : (s.materialize k roots inPlace).1 = if inPlace then k.adopt fin else k := by
      rw [materialize, hrun]
    refine ⟨⟨?_, ?_⟩, ?_, ?_⟩
    · rintro ⟨e, he⟩
      cases hok.symm.trans he
    · rintro ⟨l, hl, hcycle⟩
      exact absurd hcycle (hattach.not_cyclic hs hl)
    · intro e he
      cases hok.symm.trans he
    · intro pairs' hpairs'
      cases hok.symm.trans hpairs'
      refine ⟨resultIn k fin, fin, hattach.pairs_eq hs, fun _ => rfl,
        fun l => hattach.resultIn_loop hs, rfl, hattach.builtOnce hs, fun l => ?_⟩
      rw [hkernel]
      cases inPlace with
      | false => simp
      | true => simpa using (hattach.sealed hs).2.members_adopt l

/-- A loop around two others, one of which holds the other as well, and two loops that hold each
other. -/
def knotted : Kernel 1 5 where
  instructionTable := #v[⟨"x", .assign (.name "x") (.name "v"), []⟩]
  loopTable := #v[
    ⟨⟨"p", .literal (.int 0), .literal (.int 9), defaultStep "p", []⟩, []⟩,
    ⟨⟨"q", .literal (.int 0), .literal (.int 9), defaultStep "q", []⟩, [.loop (row 2)]⟩,
    ⟨⟨"t", .literal (.int 0), .literal (.int 9), defaultStep "t", []⟩, [.instruction (row 0)]⟩,
    ⟨⟨"u", .literal (.int 0), .literal (.int 9), defaultStep "u", []⟩, [.loop (row 4)]⟩,
    ⟨⟨"v", .literal (.int 0), .literal (.int 9), defaultStep "v", []⟩,
      [.instruction (row 0), .loop (row 3)]⟩]
  instructions := []
  loops := [row 0]

/-- The body of the loop around the two others. -/
def knottedBodies : Nester 1 5 := ⟨.ofList [("p", [.loop (row 1), .loop (row 2)])], 0⟩

/-- The shared loop is no cycle, and the knot is found behind it. -/
theorem materialize_knotted :
    (∃ result : Ref 1 5 → Nest,
      (knottedBodies.materialize knotted [.loop 0] true).2
        = .ok [(.loop 0, result (.loop 0))]) ∧
    ∃ walk, knottedBodies.ClosedWalk knotted walk ∧
      walk.map (fun l => (knotted.loop l).head.name) = ["u", "v", "u"] ∧
      (knottedBodies.materialize knotted ((List.finRange 5).map .loop) false).2
        = .error (.cyclic ["u", "v", "u"]) := by
  have hnames : ∀ l e : Fin 5, (knotted.loop l).head.name = (knotted.loop e).head.name →
      l = e := by decide
  constructor
  · obtain ⟨pairs, hok⟩ : ∃ pairs,
        (knottedBodies.materialize knotted [.loop 0] true).2 = .ok pairs :=
      ⟨_, by cbv⟩
    obtain ⟨result, fin, hpairs, -⟩ :=
      (materialize_detects_cycles (fun l e _ _ => hnames l e) true).2.2 pairs hok
    refine ⟨result, ?_⟩
    rw [hok, hpairs]
    rfl
  · have hknot : (knottedBodies.materialize knotted ((List.finRange 5).map .loop) false).2
        = .error (.cyclic ["u", "v", "u"]) := by cbv
    obtain ⟨walk, hwalk, -, he⟩ :=
      (materialize_detects_cycles (fun l e _ _ => hnames l e) false).2.1 _ hknot
    exact ⟨walk, hwalk, (CompileError.cyclic.inj he).symm, hknot⟩

end Nester
end LoopNest
