import LoopNest.Proofs.Schedule.FlatOrder

/-!
# Items that become ready together

Items with the same latest dependency join the queue together, and among them the lower row comes
first.  Rows are given when the graph is built, and there the first item that is ready is placed: so
an item that was declared before another has the lower row *if it was ready in time*, and otherwise
the other overtakes it.

## Overtaking

What was declared later overtakes iff it was placed before some dependency of the earlier item.
This happens although both wait for the same item at the end: the earlier item may have a second
dependency that is placed late and read early (`Graph.overtaking`).

* `Graph.Places`: the placement loop, over the items alone.
* `Graph.rowOf_lt_of_ready`: what was ready in time has the lower row.
* `Graph.ready_together_iff`: the order of two items that become ready together.
-/

namespace LoopNest

/-- In a list that is sorted by a rank, what has a lower rank than an entry stands before it. -/
theorem mem_left_of_rank_lt {α : Type} {rank : α → Nat} {before after : List α} {a b : α}
    (hsorted : (before ++ b :: after).Pairwise fun a b => rank a < rank b)
    (ha : a ∈ before ++ b :: after) (hab : rank a < rank b) : a ∈ before := by
  rcases List.mem_append.mp ha with ha | ha
  · exact ha
  · rcases List.mem_cons.mp ha with rfl | ha
    · exact absurd hab (Nat.lt_irrefl _)
    · have hlt := (List.pairwise_cons.mp (List.pairwise_append.mp hsorted).2.1).1 a ha
      exact absurd hab hlt.asymm

/-- In a list that is sorted by a key, positions compare as the keys do. -/
theorem idxOf_lt_iff_of_pairwise {α β : Type} [DecidableEq α] [LinearOrder β] {key : α → β}
    {l : List α} (h : l.Pairwise fun a b => key a < key b) {a b : α} (ha : a ∈ l) (hb : b ∈ l) :
    l.idxOf a < l.idxOf b ↔ key a < key b := by
  have hlt : ∀ {a b}, a ∈ l → b ∈ l → l.idxOf a < l.idxOf b → key a < key b := by
    intro a b ha hb hab
    have hkey := List.pairwise_iff_getElem.mp h _ _ (List.idxOf_lt_length_of_mem ha)
      (List.idxOf_lt_length_of_mem hb) hab
    rwa [List.getElem_idxOf, List.getElem_idxOf] at hkey
  refine ⟨hlt ha hb, fun hkey => ?_⟩
  rcases Nat.lt_trichotomy (l.idxOf a) (l.idxOf b) with hab | hab | hab
  · exact hab
  · rw [(List.idxOf_inj ha).mp hab] at hkey
    exact absurd hkey (lt_irrefl _)
  · exact absurd hkey (hlt hb ha hab).asymm

namespace Graph

variable {m n : Nat} {k : Kernel m n} {layer : Layer m n} {g : Graph (Ref m n)}

/-! ## The placement loop -/

/-- The placement loop over the items: what was placed before, what is left, what is placed next.
The item that is taken is ready, and none that stands before it is. -/
inductive Places (k : Kernel m n) (layer : Layer m n) :
    List (Ref m n) → List (Ref m n) → List (Ref m n) → Prop where
  | done (placed : List (Ref m n)) : Places k layer placed [] []
  | take {placed before behind more : List (Ref m n)} {r : Ref m n}
      (ready : ∀ d ∈ k.needs layer r, d ∈ placed.map k.name)
      (wait : ∀ q ∈ before, ∃ d ∈ k.needs layer q, d ∉ placed.map k.name)
      (rest : Places k layer (placed ++ [r]) (before ++ behind) more) :
      Places k layer placed (before ++ r :: behind) (r :: more)

/-- **The program runs through the loop.** -/
theorem exists_places {rs placed : List (Ref m n)} (hbound : ∀ r ∈ rs, k.needs layer r ≠ [])
    (h : placeAll (ofPlaced k layer placed) (rs.map (k.pending layer)) = .ok g) :
    ∃ more, Places k layer placed rs more ∧ ofPlaced k layer (placed ++ more) = g := by
  -- the induction is on the number of items that are left
  induction hlen : rs.length generalizing rs placed with
  | zero =>
    obtain rfl := List.length_eq_zero_iff.mp hlen
    rw [List.map_nil, placeAll] at h
    cases h
    exact ⟨[], .done placed, by rw [List.append_nil]⟩
  | succ len ih =>
    obtain ⟨first, others, hrs⟩ := List.exists_cons_of_length_eq_add_one hlen
    have hcons : rs.map (k.pending layer)
        = k.pending layer first :: others.map (k.pending layer) := by rw [hrs, List.map_cons]
    rw [hcons, placeAll, ← hcons] at h
    split at h
    · cases h
    · rename_i ready rest hsome
      obtain ⟨before', behind', hsplit, rfl, hready, hwait⟩ := takeReady?_eq_some hsome
      obtain ⟨before, tail, rfl, rfl, htail⟩ := List.map_eq_append_iff.mp hsplit
      obtain ⟨r, behind, rfl, rfl, rfl⟩ := List.map_eq_cons_iff.mp htail
      rw [add_ofPlaced (hbound r (by simp)), ← List.map_append] at h
      have hsub : ∀ q ∈ before ++ behind, k.needs layer q ≠ [] := fun q hq =>
        hbound q (((List.sublist_cons_self r behind).append_left before).subset hq)
      have hcount : (before ++ behind).length = len := by
        simp only [List.length_append, List.length_cons] at hlen ⊢
        omega
      obtain ⟨more, hmore, hg⟩ := ih hsub h hcount
      refine ⟨r :: more, .take (isReady_ofPlaced.mp hready)
        (fun q hq => ?_) hmore, by rw [← hg]; simp⟩
      have hnot : ¬ ∀ d ∈ k.needs layer q, d ∈ placed.map k.name := by
        rw [← isReady_ofPlaced, hwait _ (List.mem_map_of_mem hq)]
        decide
      push Not at hnot
      exact hnot

namespace Places

variable {placed rs more : List (Ref m n)}

theorem perm (h : Places k layer placed rs more) : more.Perm rs := by
  induction h with
  | done placed => exact List.Perm.refl []
  | take _ _ _ ih => exact (ih.cons _).trans List.perm_middle.symm

/-- Placing the items with dependencies behind the others lists all items. -/
theorem perm_items (h : Places k layer (k.items.filter fun r => (k.needs layer r).isEmpty)
      (k.items.filter fun r => !(k.needs layer r).isEmpty) more) :
    ((k.items.filter fun r => (k.needs layer r).isEmpty) ++ more).Perm k.items :=
  (h.perm.append_left _).trans (List.filter_append_perm _ _)

theorem nodup_map (h : Places k layer (k.items.filter fun r => (k.needs layer r).isEmpty)
      (k.items.filter fun r => !(k.needs layer r).isEmpty) more) (hk : k.Distinct) :
    (((k.items.filter fun r => (k.needs layer r).isEmpty) ++ more).map k.name).Nodup :=
  (h.perm_items.map k.name).nodup_iff.mpr hk

theorem inOrder (h : Places k layer placed rs more)
    (hplaced : InOrder k.name (k.needs layer) placed) :
    InOrder k.name (k.needs layer) (placed ++ more) := by
  induction h with
  | done placed => rwa [List.append_nil]
  | @take placed before behind more r ready _ _ ih =>
    have hmore := ih (hplaced.snoc ready)
    rwa [List.append_assoc, List.singleton_append] at hmore

/-- **Nothing overtakes what is ready**: of two items that are left, the one that is listed first is
placed first if its dependencies are placed before the other. -/
theorem mem_of_ready {rank : Ref m n → Nat} (h : Places k layer placed rs more)
    (hsorted : rs.Pairwise fun a b => rank a < rank b) {a b : Ref m n} (ha : a ∈ rs)
    (hab : rank a < rank b) {pre post : List (Ref m n)} (hsplit : more = pre ++ b :: post)
    (hready : ∀ d ∈ k.needs layer a, d ∈ (placed ++ pre).map k.name) : a ∈ pre := by
  induction h generalizing pre with
  | done placed => exact absurd ha List.not_mem_nil
  | @take placed before behind more r _ wait rest ih =>
    cases pre with
    | nil =>
      rw [List.nil_append, List.cons.injEq] at hsplit
      obtain ⟨rfl, -⟩ := hsplit
      -- the other is taken now, so what stands before it is not ready
      obtain ⟨d, hd, hmiss⟩ := wait a (mem_left_of_rank_lt hsorted ha hab)
      rw [List.append_nil] at hready
      exact absurd (hready d hd) hmiss
    | cons p pre =>
      rw [List.cons_append, List.cons.injEq] at hsplit
      obtain ⟨rfl, hsplit⟩ := hsplit
      by_cases har : a = r
      · exact List.mem_cons.mpr (.inl har)
      · have hmem : a ∈ before ++ behind := by
          have := ha
          simp only [List.mem_append, List.mem_cons, har, false_or] at this
          exact List.mem_append.mpr this
        have hrest := hsorted.sublist ((List.sublist_cons_self r behind).append_left before)
        refine List.mem_cons_of_mem _ (ih hrest hmem hsplit ?_)
        rwa [List.append_assoc, List.singleton_append]

end Places

/-- **A graph that was built** has first the items without dependencies, as they were declared, then
the others as the loop takes them. -/
theorem exists_places_of_build (h : build k layer = .ok g) :
    ∃ more, Places k layer (k.items.filter fun r => (k.needs layer r).isEmpty)
        (k.items.filter fun r => !(k.needs layer r).isEmpty) more ∧
      InOrder k.name (k.needs layer) ((k.items.filter fun r => (k.needs layer r).isEmpty) ++ more) ∧
      ofPlaced k layer ((k.items.filter fun r => (k.needs layer r).isEmpty) ++ more) = g := by
  obtain ⟨items, hitems, -⟩ := bind_eq_ok_iff.mp h
  have hlists := (pendingItems_eq_ok_iff.mp hitems).1
  obtain ⟨placed, stuck, hplace, ⟨rest, rfl⟩, -⟩ := build_placement hlists
  have hbound : ∀ r ∈ k.items.filter fun r => !(k.needs layer r).isEmpty, k.needs layer r ≠ [] :=
    fun r hr => by simpa using (List.mem_filter.mp hr).2
  rw [build_eq_placeAll hlists] at h
  obtain ⟨more, hmore, hg⟩ := exists_places hbound h
  exact ⟨more, hmore, hmore.inOrder hplace.inOrder.of_append, hg⟩

/-! ## Rows -/

section Rows

variable {placed : List (Ref m n)} (hnodup : (placed.map k.name).Nodup)
  (hin : InOrder k.name (k.needs layer) placed)

include hnodup hin in
/-- Rows count the items that are placed. -/
theorem rowOf_eq_idxOf {x : String} (hx : x ∈ placed.map k.name) :
    (ofPlaced k layer placed).rowOf x = (placed.map k.name).idxOf x + 1 := by
  have hlt := List.idxOf_lt_length_of_mem hx
  have hget : (placed.map k.name)[(placed.map k.name).idxOf x]? = some x := by
    rw [List.getElem?_eq_getElem hlt, List.getElem_idxOf]
  rw [List.getElem?_map] at hget
  obtain ⟨r, hr, hname⟩ := Option.map_eq_some_iff.mp hget
  exact (hasName_rowOf hin hx).row_eq hnodup ⟨_, r, rfl, hr, hname⟩

include hnodup hin in
/-- Lower rows are what is placed before. -/
theorem rowOf_lt_iff {pre post : List (Ref m n)} {b : Ref m n} (hsplit : placed = pre ++ b :: post)
    {x : String} (hx : x ∈ placed.map k.name) :
    (ofPlaced k layer placed).rowOf x < (ofPlaced k layer placed).rowOf (k.name b) ↔
      x ∈ pre.map k.name := by
  have hb : k.name b ∈ placed.map k.name := List.mem_map_of_mem (by rw [hsplit]; simp)
  have hnames : placed.map k.name = pre.map k.name ++ k.name b :: post.map k.name := by
    rw [hsplit, List.map_append, List.map_cons]
  have hidx : (placed.map k.name).idxOf (k.name b) = (pre.map k.name).length := by
    rw [hnames] at hnodup ⊢
    exact idxOf_of_nodup hnodup
  have hinit : pre.map k.name <+: placed.map k.name := ⟨_, hnames.symm⟩
  rw [rowOf_eq_idxOf hnodup hin hx, rowOf_eq_idxOf hnodup hin hb, hidx, Nat.add_lt_add_iff_right,
    hinit.mem_iff_idxOf_lt_length]

end Rows

section Built

variable (hk : k.Distinct) (h : build k layer = .ok g)

include hk h

/-- A dependency has a lower row. -/
theorem rowOf_lt_of_depends {r : Ref m n} (hr : r ∈ k.items) {d : String}
    (hd : layer.Depends (k.name r) d) : g.rowOf d < g.rowOf (k.name r) := by
  obtain ⟨placed, rfl, hperm, hin⟩ := exists_ofPlaced_of_build h
  have hnodup : (placed.map k.name).Nodup := (hperm.map k.name).nodup_iff.mpr hk
  have hmem : k.name r ∈ placed.map k.name := List.mem_map_of_mem (hperm.mem_iff.mpr hr)
  obtain ⟨hdmem, hlt⟩ := hin.mem_and_idxOf_lt hnodup hmem hd
  rw [rowOf_eq_idxOf hnodup hin hdmem, rowOf_eq_idxOf hnodup hin hmem]
  exact Nat.succ_lt_succ hlt

/-- Items without dependencies have lower rows than the others. -/
theorem rowOf_lt_of_free {q b : Ref m n} (hq : q ∈ k.items) (hfree : k.needs layer q = [])
    (hb : b ∈ k.items) (hbound : k.needs layer b ≠ []) :
    g.rowOf (k.name q) < g.rowOf (k.name b) := by
  obtain ⟨more, hmore, hin, rfl⟩ := exists_places_of_build h
  have hnodup := hmore.nodup_map hk
  have hbmore : b ∈ more := hmore.perm.mem_iff.mpr (List.mem_filter.mpr ⟨hb, by simpa using hbound⟩)
  have hqfree : q ∈ k.items.filter fun r => (k.needs layer r).isEmpty :=
    List.mem_filter.mpr ⟨hq, List.isEmpty_iff.mpr hfree⟩
  obtain ⟨pre, post, rfl⟩ := List.append_of_mem hbmore
  rw [rowOf_lt_iff hnodup hin (List.append_assoc _ pre (b :: post)).symm
    (List.mem_map_of_mem (List.mem_append_left _ hqfree))]
  exact List.mem_map_of_mem (List.mem_append_left _ hqfree)

/-- **What was ready in time has the lower row**: of two items of one kind the one that was declared
first, if all its dependencies have lower rows than the other. -/
theorem rowOf_lt_of_ready {a b : Ref m n} (hb : b ∈ k.items)
    (hab : k.items.idxOf a < k.items.idxOf b) (hkind : k.needs layer a = [] ↔ k.needs layer b = [])
    (hready : ∀ d, layer.Depends (k.name a) d → g.rowOf d < g.rowOf (k.name b)) :
    g.rowOf (k.name a) < g.rowOf (k.name b) := by
  obtain ⟨more, hmore, hin, rfl⟩ := exists_places_of_build h
  have hnodup := hmore.nodup_map hk
  have ha : a ∈ k.items := List.idxOf_lt_length_iff.mp (hab.trans (List.idxOf_lt_length_of_mem hb))
  have hsorted : k.items.Pairwise fun a b => k.items.idxOf a < k.items.idxOf b :=
    Kernel.pairwise_idxOf (hk.of_map _)
  have hlisted : ∀ r ∈ k.items, r ∈ (k.items.filter fun r => (k.needs layer r).isEmpty) ++ more :=
    fun r hr => hmore.perm_items.mem_iff.mpr hr
  by_cases hfree : k.needs layer b = []
  · -- both stand among the items without dependencies, as they were declared
    have hmem : ∀ r ∈ k.items, k.needs layer r = [] →
        r ∈ k.items.filter fun r => (k.needs layer r).isEmpty :=
      fun r hr hr' => List.mem_filter.mpr ⟨hr, List.isEmpty_iff.mpr hr'⟩
    obtain ⟨pre, post, hsplit⟩ := List.append_of_mem (hmem b hb hfree)
    have hdeclared : (pre ++ b :: post).Pairwise fun a b => k.items.idxOf a < k.items.idxOf b :=
      hsplit ▸ hsorted.filter _
    have hpre : a ∈ pre :=
      mem_left_of_rank_lt hdeclared (hsplit ▸ hmem a ha (hkind.mpr hfree)) hab
    rw [rowOf_lt_iff hnodup hin (by rw [hsplit, List.append_assoc, List.cons_append])
      (List.mem_map_of_mem (hlisted a ha))]
    exact List.mem_map_of_mem hpre
  · have hmem : ∀ r ∈ k.items, k.needs layer r ≠ [] →
        r ∈ k.items.filter fun r => !(k.needs layer r).isEmpty :=
      fun r hr hr' => List.mem_filter.mpr ⟨hr, by simpa using hr'⟩
    obtain ⟨pre, post, rfl⟩ := List.append_of_mem (hmore.perm.mem_iff.mpr (hmem b hb hfree))
    have hsplit := (List.append_assoc (k.items.filter fun r => (k.needs layer r).isEmpty) pre
      (b :: post)).symm
    rw [rowOf_lt_iff hnodup hin hsplit (List.mem_map_of_mem (hlisted a ha))]
    refine List.mem_map_of_mem (List.mem_append_right _ ?_)
    refine hmore.mem_of_ready (hsorted.filter _) (hmem a ha (hfree ∘ hkind.mp)) hab rfl fun d hd =>
      ?_
    rw [Kernel.mem_needs_iff] at hd
    have hdmem := (hin.mem_and_idxOf_lt hnodup (List.mem_map_of_mem (hlisted a ha)) hd).1
    exact (rowOf_lt_iff hnodup hin hsplit hdmem).mp (hready d hd)

end Built

/-! ## Two items that become ready together -/

/-- **Items that become ready together.**  Of two items whose latest dependency is the same, the one
that was declared first is read first iff every dependency of it was placed before the other; so it
is if its dependencies are among those of the other or have none themselves. -/
theorem ready_together_iff (hk : k.Distinct) (h : build k layer = .ok g) {a b : Ref m n}
    (hb : b ∈ k.items) (hab : k.items.idxOf a < k.items.idxOf b)
    (hturn : layer.latestIn (g.drain.1.map k.name) (k.name a)
      = layer.latestIn (g.drain.1.map k.name) (k.name b)) :
    (g.drain.1.idxOf a < g.drain.1.idxOf b ↔
      ∀ d, layer.Depends (k.name a) d → g.rowOf d < g.rowOf (k.name b)) ∧
    ((∀ d, layer.Depends (k.name a) d → layer.Depends (k.name b) d ∨ ∀ e, ¬ layer.Depends d e) →
      g.drain.1.idxOf a < g.drain.1.idxOf b) := by
  obtain ⟨hperm, -, -⟩ := drain_order h
  have ha : a ∈ k.items := List.idxOf_lt_length_iff.mp (hab.trans (List.idxOf_lt_length_of_mem hb))
  have hneeds : ∀ r, k.needs layer r = [] ↔
      layer.latestIn (g.drain.1.map k.name) (k.name r) = -1 := by
    intro r
    simp only [Layer.latestIn_eq_neg_one_iff, List.eq_nil_iff_forall_not_mem, Kernel.mem_needs_iff]
  have hkind : k.needs layer a = [] ↔ k.needs layer b = [] := by rw [hneeds, hneeds, hturn]
  have hrows : g.drain.1.idxOf a < g.drain.1.idxOf b ↔ g.rowOf (k.name a) < g.rowOf (k.name b) := by
    rw [idxOf_lt_iff_of_pairwise (pairwise_turnOf hk h) (hperm.mem_iff.mpr ha)
      (hperm.mem_iff.mpr hb), turnOf, turnOf, Prod.Lex.toLex_lt_toLex, hturn]
    simp
  have hready := rowOf_lt_of_ready hk h hb hab hkind
  rw [hrows]
  refine ⟨⟨fun hlt d hd => (rowOf_lt_of_depends hk h ha hd).trans hlt, hready⟩, fun hdeps => ?_⟩
  refine hready fun d hd => ?_
  rcases hdeps d hd with hd' | hfree
  · exact rowOf_lt_of_depends hk h hb hd'
  · -- a dependency without dependencies; the other item has one
    have hmem : k.name a ∈ g.drain.1.map k.name := List.mem_map_of_mem (hperm.mem_iff.mpr ha)
    obtain ⟨q, hq, rfl⟩ := List.mem_map.mp (mem_and_idxOf_lt hk h hmem hd).1
    have hbound : k.needs layer b ≠ [] := fun hnil => by
      rw [← hkind, List.eq_nil_iff_forall_not_mem] at hnil
      exact hnil _ (Kernel.mem_needs_iff.mpr hd)
    refine rowOf_lt_of_free hk h (hperm.mem_iff.mp hq) ?_ hb hbound
    exact List.eq_nil_iff_forall_not_mem.mpr fun e he => hfree e (Kernel.mem_needs_iff.mp he)

/-- The sides of the diamond wait for its top alone, and are read as they were declared. -/
theorem drain_diamond_sides :
    diamond.Distinct ∧ ∃ g, build diamond (Layer.declared diamond) = .ok g ∧
      g.drain.1.idxOf (.instruction 1) < g.drain.1.idxOf (.instruction 2) := by
  have hdistinct : diamond.Distinct := by rw [Kernel.Distinct]; decide
  obtain ⟨g, hg⟩ : ∃ g, build diamond (Layer.declared diamond) = .ok g := ⟨_, by cbv⟩
  have hnames : (build diamond (Layer.declared diamond)).map (fun g => g.drain.1.map diamond.name)
      = .ok ["a", "i", "b", "c", "d"] := by cbv
  rw [hg] at hnames
  have hread : g.drain.1.map diamond.name = ["a", "i", "b", "c", "d"] := Except.ok.inj hnames
  refine ⟨hdistinct, g, hg, (ready_together_iff hdistinct hg (by decide) (by decide) ?_).2 ?_⟩
  · rw [hread]
    decide
  · intro d hd
    exact .inl hd

/-- Two statements that wait for the same one at the end.  The one that is declared first has a
second dependency, which is placed behind the other statement and read before the common
dependency. -/
def overtaking : Kernel 6 0 where
  instructionTable :=
    #v[stub "f" [], stub "g" [], stub "p" ["g"], stub "x" ["p", "q"], stub "y" ["p"],
    stub "q" ["f"]]
  loopTable := #v[]
  instructions := List.finRange 6
  loops := []

/-- The later statement overtakes: both become ready with the statement at place three, and the one
that was declared first is read last. -/
theorem drain_overtaking :
    ∃ g, build overtaking (Layer.declared overtaking) = .ok g ∧
      overtaking.items.map overtaking.name = ["f", "g", "p", "x", "y", "q"] ∧
      (Layer.declared overtaking).latestIn (g.drain.1.map overtaking.name) "x" = 3 ∧
      (Layer.declared overtaking).latestIn (g.drain.1.map overtaking.name) "y" = 3 ∧
      g.drain.1.map overtaking.name = ["f", "g", "q", "p", "y", "x"] := by
  obtain ⟨g, hg⟩ : ∃ g, build overtaking (Layer.declared overtaking) = .ok g := ⟨_, by cbv⟩
  have hnames : (build overtaking (Layer.declared overtaking)).map
      (fun g => g.drain.1.map overtaking.name) = .ok ["f", "g", "q", "p", "y", "x"] := by cbv
  rw [hg] at hnames
  have hread : g.drain.1.map overtaking.name = ["f", "g", "q", "p", "y", "x"] :=
    Except.ok.inj hnames
  refine ⟨g, hg, by decide, ?_, ?_, hread⟩
  · rw [hread]
    decide
  · rw [hread]
    decide

end Graph
end LoopNest
