import LoopNest.Proofs.Kernel.Draft
import LoopNest.Proofs.Schedule.Declared

/-!
# Nests that were written inline

Loops that list their members inline, and name no item of the kernel, write nests.  Building the
kernel gives each instruction and loop a row of its own, members before their loop.  So the kernel
declares these nests: its loops unfold to them, and no loop of its own is a member, since the
members of a row stand before it and are new.

Compiling such a kernel gives back the nests, unless names get in the way.

* `DraftTables.Adds`: the rows that drafts add, with `Draft.adds_placeAll`.
* `Draft.unfolds_placeAll`: what the rows unfold to.
* `AnyKernel.WrittenInline.declares`: the kernel declares the nests.
* `compile_inline_iff`: compiling gives back what was written.
-/

namespace LoopNest

/-! ## Rows -/

/-- The row is not before the first and before the second; a named member has no row. -/
def DraftRef.Within (low high : Nat) : DraftRef → Prop
  | .instruction _ => True
  | .loop l => low ≤ l ∧ l < high
  | .named _ => False

theorem DraftRef.Within.mono {low low' high high' : Nat} {ref : DraftRef} (h : ref.Within low high)
    (hlow : low' ≤ low) (hhigh : high ≤ high') : ref.Within low' high' := by
  cases ref with
  | instruction i => trivial
  | loop l => exact ⟨hlow.trans h.1, h.2.trans_le hhigh⟩
  | named x => exact h

/-- Rows were added for some drafts.  The members of a new row are new rows before it, and no new
row has a row of these drafts as a member. -/
structure DraftTables.Adds (t u : DraftTables) (refs : List DraftRef) : Prop where
  grow : t.Grow u
  within : ∀ ref ∈ refs, ref.Within t.loops.length u.loops.length
  members : ∀ e row, u.loops[e]? = some row → t.loops.length ≤ e →
    ∀ ref ∈ row.2, ref.Within t.loops.length e
  outermost : ∀ e row, u.loops[e]? = some row → t.loops.length ≤ e →
    ∀ l, DraftRef.loop l ∈ refs → DraftRef.loop l ∉ row.2

namespace DraftTables.Adds

variable {t u v : DraftTables} {refs : List DraftRef} {ref : DraftRef}

theorem nil (t : DraftTables) : t.Adds t [] where
  grow := .refl t
  within := by simp
  members e row hrow he := absurd (List.getElem?_eq_some_iff.mp hrow).1 (by omega)
  outermost := by simp

/-- An instruction adds no row for a loop. -/
theorem instruction (t : DraftTables) (i : Instruction) (row : Nat) :
    t.Adds { t with instructions := t.instructions ++ [i] } [.instruction row] where
  grow := ⟨List.prefix_append _ _, List.prefix_rfl⟩
  within ref href := by
    rw [List.mem_singleton.mp href]
    trivial
  members e row hrow he := absurd (List.getElem?_eq_some_iff.mp hrow).1 (by simpa using he)
  outermost := by simp

/-- A loop gets its row after its members. -/
theorem loop (h : t.Adds u refs) (head : LoopHead) :
    t.Adds { u with loops := u.loops ++ [(head, refs)] } [.loop u.loops.length] := by
  have hmembers : ∀ e row, (u.loops ++ [(head, refs)])[e]? = some row → t.loops.length ≤ e →
      ∀ ref ∈ row.2, ref.Within t.loops.length e := by
    intro e row hrow he
    rcases Nat.lt_trichotomy e u.loops.length with hlt | rfl | hgt
    · rw [List.getElem?_append_left hlt] at hrow
      exact h.members e row hrow he
    · rw [List.getElem?_concat_length, Option.some.injEq] at hrow
      exact hrow ▸ h.within
    · rw [List.getElem?_eq_none (by simpa using hgt)] at hrow
      cases hrow
  refine ⟨h.grow.trans ⟨List.prefix_rfl, List.prefix_append _ _⟩, ?_, hmembers, ?_⟩
  · intro ref href
    rw [List.mem_singleton.mp href, List.length_append, List.length_singleton]
    exact ⟨h.grow.loops.length_le, Nat.lt_succ_self _⟩
  · -- members come before their row, and the row of the loop is the last one
    intro e row hrow he l hl hmem
    cases List.mem_singleton.mp hl
    have hlt := (List.getElem?_eq_some_iff.mp hrow).1
    rw [List.length_append, List.length_singleton] at hlt
    have := (hmembers e row hrow he _ hmem).2
    omega

/-- Rows that are added later have nothing to do with the earlier ones. -/
theorem cons (h : t.Adds u [ref]) (h' : u.Adds v refs) : t.Adds v (ref :: refs) := by
  have htu := h.grow.loops.length_le
  have huv := h'.grow.loops.length_le
  have hcases : ∀ e row, v.loops[e]? = some row →
      u.loops[e]? = some row ∧ e < u.loops.length ∨ u.loops.length ≤ e := by
    intro e row hrow
    rcases Nat.lt_or_ge e u.loops.length with hlt | hge
    · refine .inl ⟨?_, hlt⟩
      rw [← hrow, List.prefix_iff_getElem?.mp h'.grow.loops e hlt, List.getElem?_eq_getElem hlt]
    · exact .inr hge
  refine ⟨h.grow.trans h'.grow, ?_, ?_, ?_⟩
  · intro r hr
    rcases List.mem_cons.mp hr with rfl | hr
    · exact (h.within r List.mem_cons_self).mono le_rfl huv
    · exact (h'.within r hr).mono htu le_rfl
  · intro e row hrow he r hr
    rcases hcases e row hrow with ⟨hrow', -⟩ | hge
    · exact h.members e row hrow' he r hr
    · exact (h'.members e row hrow hge r hr).mono htu le_rfl
  · intro e row hrow he l hl hmem
    rcases hcases e row hrow with ⟨hrow', hlt⟩ | hge <;> rcases List.mem_cons.mp hl with rfl | hl
    · exact h.outermost e row hrow' he l List.mem_cons_self hmem
    · have := (h'.within _ hl).1
      have := (h.members e row hrow' he _ hmem).2
      omega
    · have := (h.within _ List.mem_cons_self).2
      have := (h'.members e row hrow hge _ hmem).1
      omega
    · exact h'.outermost e row hrow hge l hl hmem

end DraftTables.Adds

namespace Draft

theorem toNests?_cons {d : Draft} {ds : List Draft} {nests : List Nest}
    (h : toNests? (d :: ds) = some nests) :
    ∃ nest rest, toNest? d = some nest ∧ toNests? ds = some rest ∧ nests = nest :: rest := by
  obtain ⟨nest, hnest, hrest⟩ := Option.bind_eq_some_iff.mp h
  obtain ⟨rest, hrest, heq⟩ := Option.bind_eq_some_iff.mp hrest
  exact ⟨nest, rest, hnest, hrest, (Option.some.inj heq).symm⟩

mutual

/-- A draft that writes a nest adds its own rows. -/
theorem adds_place (t : DraftTables) : ∀ (d : Draft) {nest : Nest}, toNest? d = some nest →
    t.Adds (place t d).2 [(place t d).1]
  | .instruction i, _, _ => .instruction t i _
  | .loop head members, _, h => by
    obtain ⟨nests, hnests, -⟩ := Option.map_eq_some_iff.mp h
    exact (adds_placeAll t members hnests).loop head
  | .named x, _, h => by cases h

theorem adds_placeAll (t : DraftTables) : ∀ (ds : List Draft) {nests : List Nest},
    toNests? ds = some nests → t.Adds (placeAll t ds).2 (placeAll t ds).1
  | [], _, _ => .nil t
  | d :: ds, _, h => by
    obtain ⟨nest, rest, hnest, hrest, -⟩ := toNests?_cons h
    exact (adds_place t d hnest).cons (adds_placeAll _ ds hrest)

end

end Draft

/-! ## The kernel behind the rows -/

/-- A loop unfolds to the nests of its members. -/
theorem Nester.unfolds_loop {m n : Nat} {s : Nester m n} {k : Kernel m n} {l : Fin n}
    {nests : List Nest} (h : List.Forall₂ (s.Unfolds k) (s.body k l) nests) :
    s.Unfolds k (.loop l) (.loop (k.loop l).head nests) := by
  have hlength := h.length_eq
  have hunfolds := Unfolds.loop (s := s) (k := k) l ((s.body k l).zip nests)
    (List.map_fst_zip hlength.le) fun p hp => List.forall₂_zip h hp
  rwa [List.map_snd_zip hlength.ge] at hunfolds

section Resolves

variable {t : DraftTables} {own : List (String × DraftRef)}
  {k : Kernel t.instructions.length t.loops.length} (hk : t.Resolves own k)

theorem DraftRef.resolve_instruction {m n i : Nat} {own : List (String × DraftRef)} {r : Ref m n}
    (h : resolve m n own (.instruction i) = .ok r) : ∃ hi : i < m, r = .instruction ⟨i, hi⟩ := by
  rw [resolve] at h
  split at h
  · rename_i hi
    exact ⟨hi, (Except.ok.inj h).symm⟩
  · cases h

theorem DraftRef.resolve_loop {m n l : Nat} {own : List (String × DraftRef)} {r : Ref m n}
    (h : resolve m n own (.loop l) = .ok r) : ∃ hl : l < n, r = .loop ⟨l, hl⟩ := by
  rw [resolve] at h
  split at h
  · rename_i hl
    exact ⟨hl, (Except.ok.inj h).symm⟩
  · cases h

mutual

/-- The item behind the row of a draft unfolds to the nest that the draft writes. -/
theorem Draft.unfolds_place (hk : t.Resolves own k) : ∀ (d : Draft) (u : DraftTables) {nest : Nest}
    {r : Ref t.instructions.length t.loops.length}, toNest? d = some nest →
      (place u d).2.Grow t → (place u d).1.resolve _ _ own = .ok r →
        Nester.declared.Unfolds k r nest
  | .instruction i, u, nest, r, hnest, hgrow, hr => by
    obtain ⟨hi, rfl⟩ := DraftRef.resolve_instruction hr
    cases hnest
    have hrow : t.instructions[u.instructions.length] = i := by
      have hget :=
        List.prefix_iff_getElem?.mp hgrow.instructions u.instructions.length (by simp [place])
      simpa [place, hi] using hget
    have hinstruction := hk.instruction ⟨_, hi⟩
    rw [List.get_eq_getElem, hrow] at hinstruction
    exact hinstruction ▸ .instruction _
  | .loop head members, u, nest, r, hnest, hgrow, hr => by
    obtain ⟨hl, rfl⟩ := DraftRef.resolve_loop hr
    obtain ⟨nests, hnests, rfl⟩ := Option.map_eq_some_iff.mp hnest
    have hrow : t.loops[(placeAll u members).2.loops.length] = (head, (placeAll u members).1) := by
      have hget := List.prefix_iff_getElem?.mp hgrow.loops (placeAll u members).2.loops.length
        (by simp [place])
      simpa [place, hl] using hget
    have hhead : (k.loop ⟨_, hl⟩).head = head := by rw [hk.head, List.get_eq_getElem, hrow]
    have hmembers := hk.members ⟨_, hl⟩
    rw [List.get_eq_getElem, hrow] at hmembers
    have hlast : (placeAll u members).2.Grow (place u (.loop head members)).2 :=
      ⟨List.prefix_rfl, List.prefix_append _ _⟩
    have hinside := unfolds_placeAll hk members u hnests (hlast.trans hgrow) hmembers
    exact hhead ▸ Nester.unfolds_loop hinside
  | .named x, u, nest, r, hnest, hgrow, hr => by cases hnest

theorem Draft.unfolds_placeAll (hk : t.Resolves own k) : ∀ (ds : List Draft) (u : DraftTables)
    {nests : List Nest} {items : List (Ref t.instructions.length t.loops.length)},
      toNests? ds = some nests → (placeAll u ds).2.Grow t →
        (placeAll u ds).1.mapM (DraftRef.resolve _ _ own) = .ok items →
          List.Forall₂ (Nester.declared.Unfolds k) items nests
  | [], u, nests, items, hnests, hgrow, hitems => by
    cases hnests
    cases hitems
    exact .nil
  | d :: ds, u, nests, items, hnests, hgrow, hitems => by
    obtain ⟨nest, rest, hnest, hrest, rfl⟩ := toNests?_cons hnests
    cases mapM_eq_ok_iff.mp hitems with
    | cons hr hitems' =>
      have hfirst : (place u d).2.Grow t := (map_name?_placeAll (place u d).2 ds).2.trans hgrow
      exact .cons (unfolds_place hk d u hnest hfirst hr)
        (unfolds_placeAll hk ds (place u d).2 hrest hgrow (mapM_eq_ok_iff.mpr hitems'))

end

/-- A loop that was looked up from rows has one of them. -/
theorem DraftRef.mem_of_mapM_resolve {m n low high : Nat} {refs : List DraftRef}
    {items : List (Ref m n)} (hitems : refs.mapM (resolve m n own) = .ok items)
    (hwithin : ∀ ref ∈ refs, ref.Within low high) {l : Fin n} (hl : .loop l ∈ items) :
    DraftRef.loop l ∈ refs := by
  obtain ⟨ref, href, hresolve⟩ := exists_right_of_mem (mapM_eq_ok_iff.mp hitems).flip hl
  cases ref with
  | instruction i =>
    obtain ⟨_, heq⟩ := resolve_instruction hresolve
    cases heq
  | loop e =>
    obtain ⟨_, heq⟩ := resolve_loop hresolve
    cases heq
    exact href
  | named x => exact absurd (hwithin _ href) id

/-- The outermost loops are nobody's members. -/
theorem DraftTables.Adds.notMem_members (hk : t.Resolves own k) {refs : List DraftRef}
    (h : DraftTables.Adds ⟨[], []⟩ t refs)
    {items : List (Ref t.instructions.length t.loops.length)}
    (hitems : refs.mapM (DraftRef.resolve _ _ own) = .ok items) {l : Fin t.loops.length}
    (hl : .loop l ∈ items) (e : Fin t.loops.length) : .loop l ∉ (k.loop e).members := by
  intro hmem
  have hrow : t.loops[e.val]? = some (t.loops.get e) := List.getElem?_eq_getElem e.isLt
  exact h.outermost e _ hrow (Nat.zero_le _) l (DraftRef.mem_of_mapM_resolve hitems h.within hl)
    (DraftRef.mem_of_mapM_resolve (hk.members e) (h.members e _ hrow (Nat.zero_le _)) hmem)

end Resolves

/-! ## The kernel of some drafts -/

/-- The kernel was built from loops that write the nests inline.  They declare no dependencies, and
no head mentions a later loop. -/
structure AnyKernel.WrittenInline (loops : List Draft) (nests : List Nest) (k : AnyKernel) :
    Prop where
  built : ofDrafts [] loops = .ok k
  nests : Draft.toNests? loops = some nests
  instructions : k.kernel.instructions = []
  deps : ∀ l ∈ k.kernel.loops, (k.kernel.loop l).head.deps = []
  heads : k.kernel.loops.Pairwise fun d e =>
    (k.kernel.loop d).head.mentions (k.kernel.loop e).head.name = false

/-- **A kernel that was written inline declares the nests.** -/
theorem AnyKernel.WrittenInline.declares {loops : List Draft} {nests : List Nest} {k : AnyKernel}
    (h : WrittenInline loops nests k) : k.kernel.Declares nests := by
  obtain ⟨-, kernel, hkernel, hdistinct, rfl⟩ := (ofDrafts_eq_ok_iff rfl).mp h.built
  obtain ⟨hresolves, items, hitems, -, hloops⟩ := DraftTables.resolves_of_assemble hkernel
  have hunfolds := Draft.unfolds_placeAll hresolves loops ⟨[], []⟩ h.nests (.refl _) hitems
  rw [hloops h.instructions] at hunfolds hitems
  refine ⟨hdistinct, h.instructions, h.deps, h.heads, fun e l hl => ?_,
    List.forall₂_map_left_iff.mp hunfolds⟩
  exact (Draft.adds_placeAll ⟨[], []⟩ loops h.nests).notMem_members hresolves hitems
    (List.mem_map_of_mem hl) e

/-! ## What compiling gives back -/

/-- Compiling succeeds with the tree. -/
def Kernel.CompilesTo {m n : Nat} (k : Kernel m n) (inPlace : Bool) (tree : Expr) : Prop :=
  ∃ c k', (compile inPlace).run k = .ok c k' ∧ c.tree = tree

/-- **Compiling gives back what was written inline iff names are apart and consistent**, in place or
not.  Names that are all different are both.  In the converse an instruction that is itself a block
could pass for a lowered loop. -/
theorem compile_inline_iff {loops : List Draft} {nests : List Nest} {k : AnyKernel}
    (h : AnyKernel.WrittenInline loops nests k) (inPlace : Bool) :
    ((Nest.names nests).Nodup → k.kernel.CompilesTo inPlace (Nest.lowerAll nests)) ∧
      (Nest.Apart nests ∧ Nest.Consistent nests →
        k.kernel.CompilesTo inPlace (Nest.lowerAll nests)) ∧
      (k.kernel.CompilesTo inPlace (Nest.lowerAll nests) → Nest.Apart nests ∧
        ((∀ i args, (k.kernel.instruction i).body ≠ .form blockTag args) →
          Nest.Consistent nests)) := by
  have hdeclares := h.declares
  have hsame := Kernel.exists_compile_tree_iff hdeclares.distinct inPlace (Nest.lowerAll nests)
  have hback : Nest.Apart nests ∧ Nest.Consistent nests →
      k.kernel.CompilesTo inPlace (Nest.lowerAll nests) := fun hnames =>
    hsame.mpr (hdeclares.exists_compile hnames.1 hnames.2)
  refine ⟨fun hnodup => ?_, hback, fun hcompiles => ?_⟩
  · exact hback ⟨Nest.apart_of_nodup_names hnodup, Nest.consistent_of_nodup_names hnodup⟩
  · obtain ⟨c, k', hrun, htree⟩ := hsame.mp hcompiles
    exact hdeclares.apart_of_compile hrun htree

/-- From zero to three. -/
def LoopHead.toThree (x : String) : LoopHead :=
  ⟨x, .literal (.int 0), .literal (.int 3), defaultStep x, []⟩

/-- A variable is assigned the value of another. -/
def Instruction.copy (x target source : String) : Instruction :=
  ⟨x, .assign (.name target) (.name source), []⟩

/-- One and the same loop, written in two places. -/
def Draft.echoes : List Draft :=
  [.loop (.toThree "i") [.loop (.toThree "k") [.instruction (.copy "a" "x" "k")]],
   .loop (.toThree "j")
    [.loop (.toThree "l") [.loop (.toThree "k") [.instruction (.copy "a" "x" "k")]]]]

/-- The nests of the two places. -/
def Nest.echoes : List Nest :=
  [.loop (.toThree "i") [.loop (.toThree "k") [.instruction (.copy "a" "x" "k")]],
   .loop (.toThree "j")
    [.loop (.toThree "l") [.loop (.toThree "k") [.instruction (.copy "a" "x" "k")]]]]

/-- The kernel of the two places. -/
def echoing : Kernel 2 5 where
  instructionTable := #v[.copy "a" "x" "k", .copy "a" "x" "k"]
  loopTable := #v[
    ⟨.toThree "k", [.instruction (row 0)]⟩,
    ⟨.toThree "i", [.loop (row 0)]⟩,
    ⟨.toThree "k", [.instruction (row 1)]⟩,
    ⟨.toThree "l", [.loop (row 2)]⟩,
    ⟨.toThree "j", [.loop (row 3)]⟩]
  instructions := []
  loops := [row 1, row 4]

theorem distinct_echoing : echoing.Distinct := by decide

/-- A name may come up again where it stands for the same. -/
theorem compile_inline_echoes :
    AnyKernel.WrittenInline Draft.echoes Nest.echoes ⟨echoing, distinct_echoing⟩ ∧
      ¬ (Nest.names Nest.echoes).Nodup ∧ Nest.Apart Nest.echoes ∧ Nest.Consistent Nest.echoes ∧
      echoing.CompilesTo true (Nest.lowerAll Nest.echoes) := by
  have hinline : AnyKernel.WrittenInline Draft.echoes Nest.echoes ⟨echoing, distinct_echoing⟩ :=
    ⟨by cbv, rfl, rfl, by decide, by decide⟩
  have hapart : Nest.Apart Nest.echoes := by
    simp [Nest.echoes, Nest.Apart, Nest.memberNames, Nest.name, LoopHead.toThree]
  have hconsistent : Nest.Consistent Nest.echoes := by
    refine Nest.consistent_of_forall_visits ?_
    simp [Nest.echoes, Nest.visitsAll, Nest.visits, Nest.name, LoopHead.toThree, Instruction.copy]
  exact ⟨hinline, by decide, hapart, hconsistent,
    (compile_inline_iff hinline true).2.1 ⟨hapart, hconsistent⟩⟩

/-- Two loops of one name, around different instructions. -/
def Draft.namesakes : List Draft :=
  [.loop (.toThree "i") [
    .loop (.toThree "k") [.instruction (.copy "a" "x" "k")],
    .loop (.toThree "k") [.instruction (.copy "b" "y" "k")]]]

/-- The nests of the two loops. -/
def Nest.namesakes : List Nest :=
  [.loop (.toThree "i") [
    .loop (.toThree "k") [.instruction (.copy "a" "x" "k")],
    .loop (.toThree "k") [.instruction (.copy "b" "y" "k")]]]

/-- The kernel of the two loops. -/
def paralleled : Kernel 2 3 where
  instructionTable := #v[.copy "a" "x" "k", .copy "b" "y" "k"]
  loopTable := #v[
    ⟨.toThree "k", [.instruction (row 0)]⟩,
    ⟨.toThree "k", [.instruction (row 1)]⟩,
    ⟨.toThree "i", [.loop (row 0), .loop (row 1)]⟩]
  instructions := []
  loops := [row 2]

theorem distinct_paralleled : paralleled.Distinct := by decide

/-- The first of the two loops is compiled twice, and the second is lost. -/
theorem compile_inline_namesakes :
    AnyKernel.WrittenInline Draft.namesakes Nest.namesakes ⟨paralleled, distinct_paralleled⟩ ∧
      ∃ c, (Kernel.compile false).run paralleled = .ok c paralleled ∧
        c.tree = Nest.lowerAll [.loop (.toThree "i") [
          .loop (.toThree "k") [.instruction (.copy "a" "x" "k")],
          .loop (.toThree "k") [.instruction (.copy "a" "x" "k")]]] ∧
        c.tree ≠ Nest.lowerAll Nest.namesakes := by
  refine ⟨⟨by cbv, rfl, rfl, by decide, by decide⟩, _, by cbv, by cbv, ?_⟩
  cbv
  simp

end LoopNest
