import LoopNest.Kernel.Draft
import LoopNest.Proofs.Kernel.Inference

/-!
# Kernels that were built

A draft is refused if two of its own items share a name.  What is left to see is that the names
survive the building: rows are only ever added to the tables, so the row that an item was given
keeps its instruction or loop, and the kernel finds the item's name there.

An own item that only names another is refused too.  Its name is its own, so looking it up leads
back to itself and to no row.

* `Draft.name?_place`, `Draft.map_name?_placeAll`: rows keep their names.
* `DraftTables.Resolves`: the kernel has the rows of the tables.
* `DraftTables.distinct_of_assemble`: what is assembled from rows of different names has them.
* `AnyKernel.exists_ofDrafts_iff`: so the type of accepted kernels refuses nothing more.
-/

namespace LoopNest

/-! ## Rows and their names -/

/-- The name that a row has in the tables; a named member has the name it asks for. -/
def DraftRef.name? (t : DraftTables) : DraftRef → Option String
  | .instruction i => (t.instructions[i]?).map Instruction.name
  | .loop l => (t.loops[l]?).map fun loop => loop.1.name
  | .named x => some x

/-- The second tables are the first with some rows added. -/
structure DraftTables.Grow (t u : DraftTables) : Prop where
  instructions : t.instructions <+: u.instructions
  loops : t.loops <+: u.loops

namespace DraftTables.Grow

variable {t u v : DraftTables}

theorem refl (t : DraftTables) : t.Grow t := ⟨List.prefix_rfl, List.prefix_rfl⟩

theorem trans (h : t.Grow u) (h' : u.Grow v) : t.Grow v :=
  ⟨h.instructions.trans h'.instructions, h.loops.trans h'.loops⟩

/-- A row that has a name keeps it. -/
theorem name?_eq_some (h : t.Grow u) {ref : DraftRef} {x : String} (hx : ref.name? t = some x) :
    ref.name? u = some x := by
  cases ref with
  | instruction i =>
    obtain ⟨row, hrow, rfl⟩ := Option.map_eq_some_iff.mp hx
    obtain ⟨hi, hget⟩ := List.getElem?_eq_some_iff.mp hrow
    refine Option.map_eq_some_iff.mpr ⟨row, ?_, rfl⟩
    rw [List.prefix_iff_getElem?.mp h.instructions i hi, hget]
  | loop l =>
    obtain ⟨row, hrow, rfl⟩ := Option.map_eq_some_iff.mp hx
    obtain ⟨hl, hget⟩ := List.getElem?_eq_some_iff.mp hrow
    refine Option.map_eq_some_iff.mpr ⟨row, ?_, rfl⟩
    rw [List.prefix_iff_getElem?.mp h.loops l hl, hget]
  | named y => exact hx

end DraftTables.Grow

namespace Draft

mutual

/-- A draft is given a row with its name, and the rows before stay. -/
theorem name?_place (t : DraftTables) : ∀ d : Draft,
    (place t d).1.name? (place t d).2 = some d.name ∧ t.Grow (place t d).2
  | .instruction i => by
    refine ⟨?_, List.prefix_append _ _, List.prefix_rfl⟩
    simp [place, DraftRef.name?, name]
  | .loop head members => by
    obtain ⟨-, hgrow⟩ := map_name?_placeAll t members
    refine ⟨?_, hgrow.trans ⟨List.prefix_rfl, List.prefix_append _ _⟩⟩
    simp [place, DraftRef.name?, name]
  | .named x => ⟨rfl, .refl t⟩

theorem map_name?_placeAll (t : DraftTables) : ∀ ds : List Draft,
    (placeAll t ds).1.map (DraftRef.name? (placeAll t ds).2) = ds.map (fun d => some d.name) ∧
      t.Grow (placeAll t ds).2
  | [] => ⟨rfl, .refl t⟩
  | d :: ds => by
    obtain ⟨hname, hgrow⟩ := name?_place t d
    obtain ⟨hnames, hmore⟩ := map_name?_placeAll (place t d).2 ds
    refine ⟨?_, hgrow.trans hmore⟩
    rw [placeAll, List.map_cons, List.map_cons]
    exact congrArg₂ List.cons (hmore.name?_eq_some hname) hnames

end

end Draft

/-! ## Names that differ -/

theorem nodup_of_firstDuplicate? {seen names : List String}
    (h : firstDuplicate? seen names = none) :
    names.Nodup ∧ ∀ x ∈ names, x ∉ seen := by
  induction names generalizing seen with
  | nil => simp
  | cons x names ih =>
    rw [firstDuplicate?] at h
    split at h
    · cases h
    · rename_i hx
      obtain ⟨hnodup, hout⟩ := ih h
      have hfresh : x ∉ names := fun hmem => hout x hmem List.mem_cons_self
      refine ⟨List.nodup_cons.mpr ⟨hfresh, hnodup⟩, ?_⟩
      intro y hy
      rcases List.mem_cons.mp hy with rfl | hy
      · simpa using hx
      · exact fun hmem => hout y hy (List.mem_cons_of_mem _ hmem)

/-- Where names differ, looking a name up finds what stands next to it. -/
theorem lookup_zip {α : Type} {names : List String} {values : List α} (hnames : names.Nodup)
    (hlength : names.length ≤ values.length) {x : String} {value : α}
    (h : (x, value) ∈ names.zip values) :
    (names.zip values).lookup x = some value := by
  obtain ⟨before, after, hsplit⟩ := List.append_of_mem h
  refine List.lookup_eq_some_iff.mpr ⟨before, after, hsplit, fun p hp => ?_⟩
  have hkeys : ((names.zip values).map Prod.fst).Nodup := by rwa [List.map_fst_zip hlength]
  rw [hsplit, List.map_append, List.nodup_append] at hkeys
  have hne : p.1 ≠ x := hkeys.2.2 p.1 (List.mem_map_of_mem hp) x (by simp)
  simpa using hne.symm

/-- A vector that was made entry by entry has at each place what was made from that place. -/
theorem get_of_mapM_eq_ok {ε α β : Type} {size : Nat} {f : α → Except ε β}
    {source : Vector α size} {made : Vector β size} (h : source.mapM f = .ok made) (i : Fin size) :
    f (source.get i) = .ok (made.get i) := by
  have harray : source.toArray.mapM f = .ok made.toArray := by
    rw [← Vector.toArray_mapM, h]
    rfl
  have hlist : source.toList.mapM f = .ok made.toList := by
    rw [← Vector.toList_toArray, ← Array.toList_mapM, harray]
    rfl
  have hget := List.Forall₂.get (mapM_eq_ok_iff.mp hlist) (i := i) (by simp) (by simp)
  simp only [List.get_eq_getElem, Vector.getElem_toList] at hget
  exact hget

/-! ## The kernel -/

/-- Items taken apart into instructions and loops are the same items. -/
theorem perm_filterMap {m n : Nat} {instruction? : Ref m n → Option (Fin m)}
    {loop? : Ref m n → Option (Fin n)}
    (hinstruction : ∀ i, instruction? (.instruction i) = some i ∧ loop? (.instruction i) = none)
    (hloop : ∀ l, instruction? (.loop l) = none ∧ loop? (.loop l) = some l)
    (items : List (Ref m n)) :
    ((items.filterMap instruction?).map Ref.instruction
      ++ (items.filterMap loop?).map Ref.loop).Perm items := by
  induction items with
  | nil => exact .refl _
  | cons r items ih =>
    cases r with
    | instruction i =>
      rw [List.filterMap_cons_some (hinstruction i).1, List.filterMap_cons_none (hinstruction i).2]
      exact ih.cons _
    | loop l =>
      rw [List.filterMap_cons_none (hloop l).1, List.filterMap_cons_some (hloop l).2]
      exact List.perm_middle.trans (ih.cons _)

/-- Where no item is an instruction, the items are the loops. -/
theorem eq_map_loop {m n : Nat} {instruction? : Ref m n → Option (Fin m)}
    {loop? : Ref m n → Option (Fin n)} (hinstruction : ∀ i, instruction? (.instruction i) = some i)
    (hloop : ∀ l, loop? (.loop l) = some l) {items : List (Ref m n)}
    (h : items.filterMap instruction? = []) : items = (items.filterMap loop?).map .loop := by
  induction items with
  | nil => rfl
  | cons r items ih =>
    rw [List.filterMap_eq_nil_iff] at h
    cases r with
    | instruction i =>
      have := h (.instruction i) List.mem_cons_self
      rw [hinstruction] at this
      cases this
    | loop l =>
      have hrest := List.filterMap_eq_nil_iff.mpr fun r hr => h r (List.mem_cons_of_mem _ hr)
      rw [List.filterMap_cons_some (hloop l), List.map_cons, ← ih hrest]

/-- Where names differ, each row with a name can be looked up under it. -/
theorem DraftRef.lookup_own {t : DraftTables} {names : List String} {refs : List DraftRef}
    (hnames : names.Nodup) (h : refs.map (DraftRef.name? t) = names.map some) {ref : DraftRef}
    (href : ref ∈ refs) :
    ∃ x, ref.name? t = some x ∧ (names.zip refs).lookup x = some ref := by
  have hlength : refs.length = names.length := by simpa using congrArg List.length h
  obtain ⟨j, hj, rfl⟩ := List.getElem_of_mem href
  have hj' : j < names.length := hlength ▸ hj
  have hname : refs[j].name? t = some names[j] := by
    have hget := congrArg (·[j]?) h
    simpa [hj, hj'] using hget
  refine ⟨names[j], hname, lookup_zip hnames hlength.ge ?_⟩
  exact List.mem_iff_getElem.mpr ⟨j, by simp [hj, hj'], List.getElem_zip⟩

/-- The kernel has the rows of the tables, with the members that they resolve to. -/
structure DraftTables.Resolves (t : DraftTables) (own : List (String × DraftRef))
    (k : Kernel t.instructions.length t.loops.length) : Prop where
  instruction : ∀ i, k.instruction i = t.instructions.get i
  head : ∀ l, (k.loop l).head = (t.loops.get l).1
  members : ∀ l, (t.loops.get l).2.mapM (DraftRef.resolve _ _ own) = .ok (k.loop l).members

/-- What is assembled has the rows of the tables, and its items are what its own rows resolve to. -/
theorem DraftTables.resolves_of_assemble {t : DraftTables} {names : List String}
    {refs : List DraftRef} {k : Kernel t.instructions.length t.loops.length}
    (h : t.assemble names refs = .ok k) :
    t.Resolves (names.zip refs) k ∧
      ∃ items, refs.mapM (DraftRef.resolve _ _ (names.zip refs)) = .ok items ∧
        k.items.Perm items ∧ (k.instructions = [] → items = k.loops.map .loop) := by
  obtain ⟨table, htable, h⟩ := bind_eq_ok_iff.mp h
  obtain ⟨items, hitems, h⟩ := bind_eq_ok_iff.mp h
  cases h
  refine ⟨⟨fun _ => rfl, fun l => ?_, fun l => ?_⟩, items, hitems,
    perm_filterMap (fun _ => ⟨rfl, rfl⟩) (fun _ => ⟨rfl, rfl⟩) items,
    eq_map_loop (fun _ => rfl) fun _ => rfl⟩
  · obtain ⟨members, -, hmade⟩ := bind_eq_ok_iff.mp (get_of_mapM_eq_ok htable l)
    exact (congrArg Loop.head (Except.ok.inj hmade)).symm
  · obtain ⟨members, hmembers, hmade⟩ := bind_eq_ok_iff.mp (get_of_mapM_eq_ok htable l)
    exact hmembers.trans (congrArg (fun loop => Except.ok loop.members) (Except.ok.inj hmade))

section Resolves

variable {t : DraftTables} {own : List (String × DraftRef)}
  {k : Kernel t.instructions.length t.loops.length}

/-- A row that resolves gives an item with the row's name, unless it leads to something else. -/
theorem DraftRef.name_of_resolve (hk : t.Resolves own k) {ref : DraftRef}
    {r : Ref t.instructions.length t.loops.length} {x : String} (hname : ref.name? t = some x)
    (hown : own.lookup x = some ref) (hresolve : ref.resolve _ _ own = .ok r) :
    ref.name? t = some (k.name r) := by
  cases ref with
  | instruction i =>
    rw [resolve] at hresolve
    split at hresolve
    · rename_i hi
      cases hresolve
      rw [name?, List.getElem?_eq_getElem hi, Kernel.name, hk.instruction]
      rfl
    · cases hresolve
  | loop l =>
    rw [resolve] at hresolve
    split at hresolve
    · rename_i hl
      cases hresolve
      rw [name?, List.getElem?_eq_getElem hl, Kernel.name, hk.head]
      rfl
    · cases hresolve
  | named y =>
    -- the name is its own, so it leads back here
    cases hname
    rw [resolve, hown] at hresolve
    cases hresolve

/-- Where names differ, the rows of own items resolve to items with these names. -/
theorem DraftRef.map_name_of_mapM_resolve {names : List String} {refs : List DraftRef}
    {items : List (Ref t.instructions.length t.loops.length)} (hk : t.Resolves (names.zip refs) k)
    (hnames : names.Nodup) (h : refs.map (DraftRef.name? t) = names.map some)
    (hitems : refs.mapM (DraftRef.resolve _ _ (names.zip refs)) = .ok items) :
    items.map k.name = names := by
  have hall : List.Forall₂ (fun ref r => ref.name? t = some (k.name r)) refs items := by
    refine ((List.forall₂_and_left _ _).mpr
      ⟨fun ref href => lookup_own hnames h href, mapM_eq_ok_iff.mp hitems⟩).imp ?_
    rintro ref r ⟨⟨x, hname, hown⟩, hresolve⟩
    exact name_of_resolve hk hname hown hresolve
  have heq : refs.map (DraftRef.name? t) = items.map fun r => some (k.name r) :=
    List.forall₂_eq_eq_eq ▸ List.forall₂_map_left_iff.mpr (List.forall₂_map_right_iff.mpr hall)
  refine List.map_injective_iff.mpr (Option.some_injective String) ?_
  rw [← h, heq, List.map_map]
  rfl

/-- What is assembled from rows whose names differ has items whose names differ. -/
theorem DraftTables.distinct_of_assemble {names : List String} {refs : List DraftRef}
    (hnames : names.Nodup) (hrefs : refs.map (DraftRef.name? t) = names.map some)
    (h : t.assemble names refs = .ok k) : k.Distinct := by
  obtain ⟨hk, items, hitems, hperm, -⟩ := resolves_of_assemble h
  rw [Kernel.Distinct, (hperm.map k.name).nodup_iff,
    DraftRef.map_name_of_mapM_resolve hk hnames hrefs hitems]
  exact hnames

end Resolves

namespace AnyKernel

variable {instructions loops : List Draft} {refs : List DraftRef} {t : DraftTables}
  (hplaced : Draft.placeAll ⟨[], []⟩ (instructions ++ loops) = (refs, t))

include hplaced

theorem ofDrafts_eq_ok_iff {k : AnyKernel} :
    ofDrafts instructions loops = .ok k ↔
      firstDuplicate? [] ((instructions ++ loops).map Draft.name) = none ∧
        ∃ kernel, t.assemble ((instructions ++ loops).map Draft.name) refs = .ok kernel ∧
          ∃ hdistinct, k = ⟨kernel, hdistinct⟩ := by
  rw [ofDrafts, hplaced]
  dsimp only
  cases hnames : firstDuplicate? [] ((instructions ++ loops).map Draft.name) with
  | some x => exact iff_of_false (by rintro ⟨⟩) (by rintro ⟨⟨⟩, -⟩)
  | none =>
    refine bind_eq_ok_iff.trans ((exists_congr fun kernel => and_congr_right fun _ => ?_).trans
      (and_iff_right rfl).symm)
    by_cases hdistinct : kernel.Distinct
    · rw [dif_pos hdistinct]
      exact ⟨fun h => ⟨hdistinct, (Except.ok.inj h).symm⟩, fun h => congrArg Except.ok h.2.symm⟩
    · rw [dif_neg hdistinct]
      exact iff_of_false (by rintro ⟨⟩) fun h => hdistinct h.1

/-- **The type of accepted kernels refuses nothing more**: a draft whose own names differ is
accepted wherever its rows can be assembled. -/
theorem exists_ofDrafts_iff :
    (∃ k, ofDrafts instructions loops = .ok k) ↔
      firstDuplicate? [] ((instructions ++ loops).map Draft.name) = none ∧
        ∃ kernel, t.assemble ((instructions ++ loops).map Draft.name) refs = .ok kernel := by
  simp only [ofDrafts_eq_ok_iff hplaced]
  constructor
  · rintro ⟨k, hnames, kernel, hkernel, -⟩
    exact ⟨hnames, kernel, hkernel⟩
  · rintro ⟨hnames, kernel, hkernel⟩
    obtain ⟨hrefs, -⟩ := Draft.map_name?_placeAll ⟨[], []⟩ (instructions ++ loops)
    rw [hplaced, ← Function.comp_def some Draft.name, ← List.map_map] at hrefs
    have hdistinct :=
      DraftTables.distinct_of_assemble (nodup_of_firstDuplicate? hnames).1 hrefs hkernel
    exact ⟨⟨kernel, hdistinct⟩, hnames, kernel, hkernel, hdistinct, rfl⟩

end AnyKernel
end LoopNest
