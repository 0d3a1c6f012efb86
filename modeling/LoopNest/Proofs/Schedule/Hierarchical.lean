import LoopNest.Proofs.Schedule.Steps

/-!
# Hierarchical kernels

In a hierarchical kernel the loops declare nothing but their bounds, and of two loops the later one
is mentioned by no instruction of the earlier one, or only by such instructions.  So the
instructions that mention a loop lie inside those that mention an earlier, overlapping one, and the
loops can be nested in declaration order.

## The chain of an item

An instruction touches the loops that it mentions, and a loop touches the earlier loops with which
it shares an instruction.  The touched loops in declaration order are the item's chain: the loops
that should stand around it.  A chain is made of chains (`Hierarchical.touches_congr`): what lies
before a touched loop is touched by the item exactly if it is touched by that loop.

## A half-rewritten body

When it is a loop's turn, it meets the later loops in declaration order.  After some of them its
body holds what touches it and none of the loops it has met, where of the loops only those it has
met count (`Nested`).  In the end each item is in the body of the last loop of its chain.  A loop
that is taken into a body replaces the first of its instructions there, so a body stays in the order
of the instructions that its entries start with (`lead`).

* `Kernel.Hierarchical`, `Kernel.chain`.
* `Kernel.Nested.absorbed`: meeting one more loop.
-/

namespace LoopNest

variable {m n : Nat}

namespace Kernel

/-- Some instruction mentions both loops. -/
def overlap (k : Kernel m n) (d e : Fin n) : Bool :=
  k.instructions.any fun i => k.mentions i d && k.mentions i e

/-- The instructions that mention a loop. -/
def mentioners (k : Kernel m n) (l : Fin n) : List (Ref m n) :=
  (k.instructions.filter (k.mentions · l)).map .instruction

/-- Loops that declare neither members nor dependencies, whose heads mention no later loop, and of
which a later one is mentioned by no instruction of an earlier one or by such instructions only.
The names are different in every accepted kernel (`AnyKernel.distinct`). -/
structure Hierarchical (k : Kernel m n) : Prop where
  distinct : k.Distinct
  bare : ∀ l ∈ k.loops, (k.loop l).members = [] ∧ (k.loop l).head.deps = []
  heads : k.loops.Pairwise fun d e => (k.loop d).head.mentions (k.loop e).head.name = false
  nested : k.loops.Pairwise fun d e =>
    (∀ i ∈ k.instructions, ¬ (k.mentions i d = true ∧ k.mentions i e = true)) ∨
      ∀ i ∈ k.instructions, k.mentions i e = true → k.mentions i d = true

/-- The place of a loop in the declaration order. -/
def rank (k : Kernel m n) (l : Fin n) : Nat := k.loops.idxOf l

/-- The item mentions the loop, or is a later loop that overlaps with it. -/
def touches (k : Kernel m n) : Ref m n → Fin n → Bool
  | .instruction i, c => k.mentions i c
  | .loop e, c => k.rank c < k.rank e && k.overlap c e

/-- The place of the first instruction that an item stands for. -/
def lead (k : Kernel m n) : Ref m n → Nat
  | .instruction i => k.instructions.idxOf i
  | .loop l => k.instructions.findIdx (k.mentions · l)

/-- The loops that should stand around an item, from the outermost in. -/
def chain (k : Kernel m n) (r : Ref m n) : List (Fin n) := k.loops.filter (k.touches r)

variable {k : Kernel m n}

theorem overlap_iff {d e : Fin n} :
    k.overlap d e = true ↔ ∃ i ∈ k.instructions, k.mentions i d = true ∧ k.mentions i e = true := by
  rw [overlap, List.any_eq_true]
  simp only [Bool.and_eq_true]

theorem touches_loop_iff {e c : Fin n} :
    k.touches (.loop e) c = true ↔ k.rank c < k.rank e ∧ k.overlap c e = true := by
  rw [touches, Bool.and_eq_true, decide_eq_true_iff]

theorem mem_mentioners_iff {l : Fin n} {r : Ref m n} :
    r ∈ k.mentioners l ↔ ∃ i ∈ k.instructions, r = .instruction i ∧ k.mentions i l = true := by
  rw [mentioners, List.mem_map]
  constructor
  · rintro ⟨i, hi, rfl⟩
    rw [List.mem_filter] at hi
    exact ⟨i, hi.1, rfl, hi.2⟩
  · rintro ⟨i, hi, rfl, hmentions⟩
    exact ⟨i, List.mem_filter.mpr ⟨hi, hmentions⟩, rfl⟩

theorem instruction_mem_items {i : Fin m} : Ref.instruction i ∈ k.items ↔ i ∈ k.instructions := by
  simp [items]

theorem loop_mem_items {l : Fin n} : Ref.loop l ∈ k.items ↔ l ∈ k.loops := by
  simp [items]

theorem loop_name_inj (hk : k.Distinct) {l e : Fin n} (hl : l ∈ k.loops) (he : e ∈ k.loops) :
    (k.loop l).head.name = (k.loop e).head.name ↔ l = e := by
  constructor
  · intro h
    have hrefs : Ref.loop l = Ref.loop e := hk.inj (loop_mem_items.mpr hl) (loop_mem_items.mpr he) h
    cases hrefs
    rfl
  · rintro rfl
    rfl

/-- What holds of each loop and every later one holds of loops of lower and higher rank. -/
theorem of_rank_lt {R : Fin n → Fin n → Prop} (h : k.loops.Pairwise R) {d e : Fin n}
    (he : e ∈ k.loops) (hlt : k.rank d < k.rank e) : R d e := by
  have heLength : k.rank e < k.loops.length := List.idxOf_lt_length_of_mem he
  have hdLength : k.rank d < k.loops.length := hlt.trans heLength
  have hpair := List.pairwise_iff_getElem.mp h _ _ hdLength heLength hlt
  have hd : k.loops[k.rank d] = d := List.getElem_idxOf hdLength
  have he : k.loops[k.rank e] = e := List.getElem_idxOf heLength
  rwa [hd, he] at hpair

/-! ## The first instruction -/

/-- No instruction that mentions a loop stands before the loop's first. -/
theorem lead_loop_le {l : Fin n} {i : Fin m} (hmentions : k.mentions i l = true) :
    k.lead (.loop l) ≤ k.lead (.instruction i) := by
  refine List.findIdx_le_findIdx fun j _ hj => ?_
  rwa [eq_of_beq hj]

/-- A loop that is mentioned starts with one of the instructions that mention it. -/
theorem exists_lead (hk : k.Distinct) {l : Fin n}
    (h : ∃ i ∈ k.instructions, k.mentions i l = true) :
    ∃ i ∈ k.instructions, k.mentions i l = true ∧ k.lead (.instruction i) = k.lead (.loop l) := by
  have hlength : k.lead (.loop l) < k.instructions.length := List.findIdx_lt_length.mpr h
  refine ⟨k.instructions[k.lead (.loop l)], List.getElem_mem hlength, ?_, ?_⟩
  · exact List.findIdx_getElem (w := hlength)
  · have hnodup : k.instructions.Nodup := hk.instructions.of_map _
    exact hnodup.idxOf_getElem _ hlength

namespace Hierarchical

/-- Where an earlier loop overlaps with a later one, the later one lies inside it. -/
theorem covers (hk : k.Hierarchical) {d e : Fin n} (he : e ∈ k.loops) (hlt : k.rank d < k.rank e)
    (hoverlap : k.overlap d e = true) {i : Fin m} (hi : i ∈ k.instructions)
    (hmentions : k.mentions i e = true) : k.mentions i d = true := by
  rcases of_rank_lt hk.nested he hlt with hdisjoint | hsub
  · obtain ⟨j, hj, hboth⟩ := overlap_iff.mp hoverlap
    exact absurd hboth (hdisjoint j hj)
  · exact hsub i hi hmentions

/-- **A chain is made of chains.**  What lies before a loop that an item touches is touched by the
item exactly if it is touched by the loop. -/
theorem touches_congr (hk : k.Hierarchical) {r : Ref m n} (hr : r ∈ k.items) {c l : Fin n}
    (hl : l ∈ k.loops) (hlt : k.rank c < k.rank l) (htouch : k.touches r l = true) :
    k.touches r c = true ↔ k.touches (.loop l) c = true := by
  rw [touches_loop_iff, and_iff_right hlt]
  cases r with
  | instruction i =>
    have hi : i ∈ k.instructions := instruction_mem_items.mp hr
    constructor
    · intro hc
      exact overlap_iff.mpr ⟨i, hi, hc, htouch⟩
    · intro hc
      exact hk.covers hl hlt hc hi htouch
  | loop e =>
    have he : e ∈ k.loops := loop_mem_items.mp hr
    obtain ⟨hle, hoverlap⟩ := touches_loop_iff.mp htouch
    rw [touches_loop_iff, and_iff_right (hlt.trans hle)]
    constructor
    · intro hc
      obtain ⟨i, hi, hic, hie⟩ := overlap_iff.mp hc
      exact overlap_iff.mpr ⟨i, hi, hic, hk.covers he hle hoverlap hi hie⟩
    · intro hc
      obtain ⟨i, hi, hil, hie⟩ := overlap_iff.mp hoverlap
      exact overlap_iff.mpr ⟨i, hi, hk.covers hl hlt hc hi hil, hie⟩

end Hierarchical

/-! ## Half-rewritten bodies -/

/-- The item belongs into the body of a loop that has met some later loops. -/
structure Belongs (k : Kernel m n) (d : Fin n) (met : List (Fin n)) (r : Ref m n) : Prop where
  item : r ∈ k.items
  loop : ∀ e, r = .loop e → e ∈ met
  touches : k.touches r d = true
  free : ∀ c ∈ met, k.touches r c = false

/-- Meeting one more loop lets that loop in and takes out what touches it. -/
theorem belongs_snoc_iff {d e : Fin n} {met : List (Fin n)} (he : e ∈ k.loops) {r : Ref m n} :
    k.Belongs d (met ++ [e]) r ↔
      (r = .loop e ∧ k.touches (.loop e) d = true ∧ ∀ c ∈ met, k.touches (.loop e) c = false) ∨
        (k.Belongs d met r ∧ k.touches r e = false) := by
  constructor
  · intro h
    have hfree : ∀ c ∈ met, k.touches r c = false :=
      fun c hc => h.free c (List.mem_append_left _ hc)
    by_cases hr : r = .loop e
    · subst hr
      exact .inl ⟨rfl, h.touches, hfree⟩
    · refine .inr ⟨⟨h.item, ?_, h.touches, hfree⟩, h.free e (by simp)⟩
      rintro x rfl
      rcases List.mem_append.mp (h.loop x rfl) with hx | hx
      · exact hx
      · exact absurd (by rw [List.mem_singleton.mp hx]) hr
  · rintro (⟨rfl, htouches, hfree⟩ | ⟨h, hre⟩)
    · refine ⟨loop_mem_items.mpr he, ?_, htouches, ?_⟩
      · intro x hx
        cases hx
        simp
      · intro c hc
        rcases List.mem_append.mp hc with hc | hc
        · exact hfree c hc
        · rw [List.mem_singleton.mp hc, Bool.eq_false_iff]
          exact fun hself => absurd (touches_loop_iff.mp hself).1 (Nat.lt_irrefl _)
    · refine ⟨h.item, fun x hx => List.mem_append_left _ (h.loop x hx), h.touches, ?_⟩
      intro c hc
      rcases List.mem_append.mp hc with hc | hc
      · exact h.free c hc
      · rw [List.mem_singleton.mp hc]
        exact hre

/-- A body of a loop that has met some later loops: what belongs into it, in the order of the first
instructions. -/
structure Nested (k : Kernel m n) (d : Fin n) (met : List (Fin n)) (body : List (Ref m n)) :
    Prop where
  mem : ∀ r, r ∈ body ↔ k.Belongs d met r
  sorted : body.Pairwise fun r t => k.lead r < k.lead t

/-- The body of a loop after it has met one more loop whose body is still untouched. -/
def absorbed (k : Kernel m n) (body : List (Ref m n)) (e : Fin n) : List (Ref m n) :=
  let common := Nester.shared k (k.mentioners e) body
  if common = [] then body else Nester.substitute k (.loop e) (common.map k.name) body

theorem mem_items_of_mem_mentioners {l : Fin n} {r : Ref m n} (h : r ∈ k.mentioners l) :
    r ∈ k.items := by
  obtain ⟨i, hi, rfl, -⟩ := mem_mentioners_iff.mp h
  exact instruction_mem_items.mpr hi

namespace Nested

variable {d e : Fin n} {met : List (Fin n)} {body : List (Ref m n)}

theorem nodup (h : k.Nested d met body) : body.Nodup :=
  h.sorted.imp fun hlt heq => absurd (congrArg k.lead heq) (Nat.ne_of_lt hlt)

theorem start (hk : k.Distinct) (d : Fin n) : k.Nested d [] (k.mentioners d) := by
  constructor
  · intro r
    rw [mem_mentioners_iff]
    constructor
    · rintro ⟨i, hi, rfl, hmentions⟩
      exact ⟨instruction_mem_items.mpr hi, by simp, hmentions, by simp⟩
    · rintro ⟨hr, hloop, htouch, -⟩
      cases r with
      | instruction i => exact ⟨i, instruction_mem_items.mp hr, rfl, htouch⟩
      | loop e => exact absurd (hloop e rfl) List.not_mem_nil
  · exact List.pairwise_map.mpr ((pairwise_idxOf (hk.instructions.of_map _)).filter _)

/-- What the body has in common with a later loop is what touches that loop. -/
theorem mem_shared_iff (hk : k.Distinct) (h : k.Nested d met body)
    (hmet : ∀ c ∈ met, k.rank c < k.rank e) {r : Ref m n} :
    r ∈ Nester.shared k (k.mentioners e) body ↔ r ∈ body ∧ k.touches r e = true := by
  rw [Nester.mem_shared hk (fun r hr => mem_items_of_mem_mentioners hr)
    fun r hr => ((h.mem r).mp hr).item, and_comm, and_congr_right_iff]
  intro hr
  obtain ⟨hitem, hloop, -, -⟩ := (h.mem r).mp hr
  rw [mem_mentioners_iff]
  cases r with
  | instruction i =>
    constructor
    · rintro ⟨j, -, hij, hmentions⟩
      cases hij
      exact hmentions
    · intro hmentions
      exact ⟨i, instruction_mem_items.mp hitem, rfl, hmentions⟩
  | loop x =>
    -- a loop in the body was met before, so it does not touch a later one
    have hlt : k.rank x < k.rank e := hmet x (hloop x rfl)
    constructor
    · rintro ⟨j, -, hij, -⟩
      cases hij
    · intro htouch
      exact absurd (touches_loop_iff.mp htouch).1 (Nat.lt_asymm hlt)

/-- Where a later loop belongs into the body, the instructions that mention it are still there. -/
theorem instruction_mem (hk : k.Hierarchical) (h : k.Nested d met body) (he : e ∈ k.loops)
    (hmet : ∀ c ∈ met, k.rank c < k.rank e) (htouch : k.touches (.loop e) d = true)
    (hnone : ∀ c ∈ met, k.touches (.loop e) c = false) {i : Fin m} (hi : i ∈ k.instructions)
    (hie : k.mentions i e = true) : Ref.instruction i ∈ body := by
  obtain ⟨hlt, hoverlap⟩ := touches_loop_iff.mp htouch
  refine (h.mem _).mpr ⟨instruction_mem_items.mpr hi, by simp, hk.covers he hlt hoverlap hi hie, ?_⟩
  intro c hc
  rw [Bool.eq_false_iff]
  intro hic
  have hce : k.touches (.loop e) c = true :=
    touches_loop_iff.mpr ⟨hmet c hc, overlap_iff.mpr ⟨i, hi, hic, hie⟩⟩
  rw [hnone c hc] at hce
  cases hce

/-- The body has something in common with a later loop where that loop belongs into it. -/
theorem shared_ne_nil_iff (hk : k.Hierarchical) (h : k.Nested d met body) (he : e ∈ k.loops)
    (hd : k.rank d < k.rank e) (hmet : ∀ c ∈ met, k.rank c < k.rank e) :
    Nester.shared k (k.mentioners e) body ≠ [] ↔
      k.touches (.loop e) d = true ∧ ∀ c ∈ met, k.touches (.loop e) c = false := by
  constructor
  · intro hne
    obtain ⟨r, hr⟩ := List.exists_mem_of_ne_nil _ hne
    obtain ⟨i, hi, rfl, hie⟩ :=
      mem_mentioners_iff.mp (List.mem_of_mem_filter hr)
    obtain ⟨hbody, -⟩ := (h.mem_shared_iff hk.distinct hmet).mp hr
    obtain ⟨-, -, hid, hnone⟩ := (h.mem _).mp hbody
    refine ⟨touches_loop_iff.mpr ⟨hd, overlap_iff.mpr ⟨i, hi, hid, hie⟩⟩, ?_⟩
    intro c hc
    rw [Bool.eq_false_iff]
    intro htouch
    have hic : k.mentions i c = true :=
      hk.covers he (hmet c hc) (touches_loop_iff.mp htouch).2 hi hie
    have hnot : k.mentions i c = false := hnone c hc
    rw [hnot] at hic
    cases hic
  · rintro ⟨htouch, hnone⟩
    obtain ⟨i, hi, -, hie⟩ := overlap_iff.mp (touches_loop_iff.mp htouch).2
    have hbody : Ref.instruction i ∈ body := h.instruction_mem hk he hmet htouch hnone hi hie
    exact List.ne_nil_of_mem ((h.mem_shared_iff hk.distinct hmet).mpr ⟨hbody, hie⟩)

/-- **Meeting one more loop.**  A loop that shares an instruction with the body takes the place of
what touches it, and one that does not leaves the body as it is. -/
theorem absorbed (hk : k.Hierarchical) (h : k.Nested d met body) (he : e ∈ k.loops)
    (hd : k.rank d < k.rank e) (hmet : ∀ c ∈ met, k.rank c < k.rank e) :
    k.Nested d (met ++ [e]) (k.absorbed body e) := by
  have hshared : ∀ r, r ∈ Nester.shared k (k.mentioners e) body ↔ r ∈ body ∧ k.touches r e = true :=
    fun r => h.mem_shared_iff hk.distinct hmet
  have hbelongs := h.shared_ne_nil_iff hk he hd hmet
  rw [Kernel.absorbed]
  by_cases hcommon : Nester.shared k (k.mentioners e) body = []
  · rw [if_pos hcommon]
    refine ⟨fun r => ?_, h.sorted⟩
    have houtside : ¬ (k.touches (.loop e) d = true ∧ ∀ c ∈ met, k.touches (.loop e) c = false) :=
      fun hin => hbelongs.mpr hin hcommon
    have hfree : r ∈ body → k.touches r e = false := by
      intro hr
      rw [Bool.eq_false_iff]
      intro hre
      exact List.ne_nil_of_mem ((hshared r).mpr ⟨hr, hre⟩) hcommon
    rw [belongs_snoc_iff he, ← h.mem]
    constructor
    · exact fun hr => .inr ⟨hr, hfree hr⟩
    · rintro (⟨-, hin⟩ | ⟨hr, -⟩)
      · exact absurd hin houtside
      · exact hr
  · rw [if_neg hcommon]
    have hitems : ∀ r ∈ body, r ∈ k.items := fun r hr => ((h.mem r).mp hr).item
    have hcommonItems : ∀ r ∈ Nester.shared k (k.mentioners e) body, r ∈ k.items :=
      fun r hr => hitems r ((hshared r).mp hr).1
    constructor
    · intro r
      rw [Nester.mem_substitute hk.distinct hcommonItems hitems, belongs_snoc_iff he, hshared,
        ← h.mem]
      refine or_congr ⟨fun hr => ⟨hr, hbelongs.mp hcommon⟩, fun hr => hr.1⟩ ?_
      refine and_congr_right fun hr => ?_
      rw [and_iff_right hr, Bool.not_eq_true]
    · obtain ⟨htouch, hnone⟩ := hbelongs.mp hcommon
      obtain ⟨j, hj, -, hje⟩ := overlap_iff.mp (touches_loop_iff.mp htouch).2
      obtain ⟨i, hi, hie, hlead⟩ := exists_lead hk.distinct ⟨j, hj, hje⟩
      have hbody : Ref.instruction i ∈ body := h.instruction_mem hk he hmet htouch hnone hi hie
      refine Nester.pairwise_substitute h.sorted hbody ?_ hlead.symm ?_
      · exact List.mem_map_of_mem ((hshared _).mpr ⟨hbody, hie⟩)
      · intro r hr hname
        obtain ⟨t, ht, hrt⟩ := List.mem_map.mp hname
        rw [← hk.distinct.inj (hcommonItems t ht) (hitems r hr) hrt, hlead]
        obtain ⟨x, -, rfl, hxe⟩ := mem_mentioners_iff.mp (List.mem_of_mem_filter ht)
        exact lead_loop_le hxe

end Nested

/-! ## Chains -/

theorem rank_eq_length (hloops : k.loops.Nodup) {before after : List (Fin n)} {l : Fin n}
    (h : k.loops = before ++ l :: after) : k.rank l = before.length := by
  have hl : l ∉ before := by
    intro hmem
    rw [h, List.nodup_append] at hloops
    exact hloops.2.2 l hmem l List.mem_cons_self rfl
  rw [rank, h, List.idxOf_append_of_notMem hl, List.idxOf_cons_self, Nat.add_zero]

theorem rank_of_split (hloops : k.loops.Nodup) {before after : List (Fin n)} {l : Fin n}
    (h : k.loops = before ++ l :: after) :
    (∀ c ∈ before, k.rank c < k.rank l) ∧ ∀ c ∈ after, k.rank l < k.rank c := by
  rw [rank_eq_length hloops h]
  rw [h, List.nodup_append, List.nodup_cons] at hloops
  obtain ⟨-, ⟨hlafter, -⟩, hdisjoint⟩ := hloops
  constructor
  · intro c hc
    rw [rank, h, List.idxOf_append_of_mem hc]
    exact List.idxOf_lt_length_of_mem hc
  · intro c hc
    have hcbefore : c ∉ before := fun hmem => hdisjoint c hmem c (List.mem_cons_of_mem _ hc) rfl
    have hcl : l ≠ c := fun heq => hlafter (heq ▸ hc)
    rw [rank, h, List.idxOf_append_of_notMem hcbefore, List.idxOf_cons_ne _ hcl]
    omega

/-- The loops behind a loop. -/
def behind (k : Kernel m n) (l : Fin n) : List (Fin n) :=
  k.loops.filter fun c => k.rank l < k.rank c

theorem mem_behind_iff {l c : Fin n} : c ∈ k.behind l ↔ c ∈ k.loops ∧ k.rank l < k.rank c := by
  rw [behind, List.mem_filter, decide_eq_true_iff]

/-- The loops behind a loop are those that stand behind it. -/
theorem behind_eq_of_split (hloops : k.loops.Nodup) {before after : List (Fin n)} {l : Fin n}
    (hsplit : k.loops = before ++ l :: after) : k.behind l = after := by
  obtain ⟨hbefore, hafter⟩ := rank_of_split hloops hsplit
  have hsmaller : before.filter (fun c => decide (k.rank l < k.rank c)) = [] := by
    rw [List.filter_eq_nil_iff]
    intro c hc
    have hlt := hbefore c hc
    simp only [decide_eq_true_eq]
    omega
  have hlarger : after.filter (fun c => decide (k.rank l < k.rank c)) = after := by
    rw [List.filter_eq_self]
    intro c hc
    exact decide_eq_true (hafter c hc)
  have hfilter : k.behind l
      = (before ++ l :: after).filter (fun c => decide (k.rank l < k.rank c)) := by
    rw [behind]
    exact congrArg _ hsplit
  rw [hfilter, List.filter_append, List.filter_cons_of_neg (by simp), hsmaller, hlarger,
    List.nil_append]

theorem mem_chain_iff {r : Ref m n} {l : Fin n} :
    l ∈ k.chain r ↔ l ∈ k.loops ∧ k.touches r l = true := List.mem_filter

theorem Distinct.nodup_loops (hk : k.Distinct) : k.loops.Nodup := hk.loops.of_map _

namespace Hierarchical

/-- The chain of an item up to a loop that it touches is the chain of the loop. -/
theorem chain_split (hk : k.Hierarchical) {r : Ref m n} (hr : r ∈ k.items) {l : Fin n}
    {before after : List (Fin n)} (h : k.loops = before ++ l :: after)
    (htouch : k.touches r l = true) :
    k.chain r = k.chain (.loop l) ++ l :: after.filter (k.touches r) := by
  obtain ⟨hbefore, hafter⟩ := rank_of_split hk.distinct.nodup_loops h
  have hl : l ∈ k.loops := by rw [h]; simp
  have hchain : k.chain (.loop l) = before.filter (k.touches (.loop l)) := by
    have hnone : ∀ c ∈ l :: after, ¬ k.touches (.loop l) c = true := by
      intro c hc htouches
      have hlt := (touches_loop_iff.mp htouches).1
      rcases List.mem_cons.mp hc with rfl | hc
      · exact absurd hlt (Nat.lt_irrefl _)
      · exact absurd hlt (Nat.lt_asymm (hafter c hc))
    rw [chain, h, List.filter_append, List.filter_eq_nil_iff.mpr hnone, List.append_nil]
  have hcongr : before.filter (k.touches r) = before.filter (k.touches (.loop l)) := by
    refine List.filter_congr fun c hc => ?_
    rw [Bool.eq_iff_iff]
    exact hk.touches_congr hr hl (hbefore c hc) htouch
  rw [hchain, ← hcongr, chain, h, List.filter_append, List.filter_cons_of_pos htouch]

/-- Each part of a chain from the outside in is the chain of the next loop. -/
theorem chain_coherent (hk : k.Hierarchical) {r : Ref m n} (hr : r ∈ k.items) {l : Fin n}
    {outer inner : List (Fin n)} (h : k.chain r = outer ++ l :: inner) :
    l ∈ k.loops ∧ k.chain (.loop l) = outer := by
  have hmem : l ∈ k.chain r := by rw [h]; simp
  obtain ⟨hl, htouch⟩ := mem_chain_iff.mp hmem
  obtain ⟨before, after, hsplit⟩ := List.append_of_mem hl
  have hchain := hk.chain_split hr hsplit htouch
  have hnodup : (k.chain r).Nodup := hk.distinct.nodup_loops.filter _
  refine ⟨hl, ?_⟩
  -- a loop stands once in a chain, so the two ways to split the chain at it agree
  have hinner : l ∉ after.filter (k.touches r) := by
    rw [hchain] at hnodup
    exact (List.nodup_cons.mp hnodup.of_append_right).1
  have houter : l ∉ k.chain (.loop l) := by
    intro hself
    exact absurd (touches_loop_iff.mp (mem_chain_iff.mp hself).2).1 (Nat.lt_irrefl _)
  rw [h] at hchain
  exact ((List.append_cons_inj_of_notMem houter hinner).mp hchain.symm).1

/-- What belongs into the final body of a loop is what has the loop last in its chain. -/
theorem belongs_behind_iff (hk : k.Hierarchical) {l : Fin n} (hl : l ∈ k.loops) {r : Ref m n} :
    k.Belongs l (k.behind l) r ↔ r ∈ k.items ∧ k.chain r = k.chain (.loop l) ++ [l] := by
  obtain ⟨before, after, hsplit⟩ := List.append_of_mem hl
  have hbehind : k.behind l = after := behind_eq_of_split hk.distinct.nodup_loops hsplit
  constructor
  · intro h
    have hnone : after.filter (k.touches r) = [] := by
      rw [List.filter_eq_nil_iff]
      intro c hc
      rw [h.free c (hbehind ▸ hc)]
      exact Bool.false_ne_true
    refine ⟨h.item, ?_⟩
    rw [hk.chain_split h.item hsplit h.touches, hnone]
  · rintro ⟨hr, hchain⟩
    have hmem : l ∈ k.chain r := by rw [hchain]; simp
    have htouch : k.touches r l = true := (mem_chain_iff.mp hmem).2
    have hlast := hk.chain_split hr hsplit htouch
    rw [hchain, List.append_cancel_left_eq, List.cons.injEq] at hlast
    refine ⟨hr, ?_, htouch, ?_⟩
    · rintro e rfl
      exact mem_behind_iff.mpr ⟨loop_mem_items.mp hr, (touches_loop_iff.mp htouch).1⟩
    · intro c hc
      rw [Bool.eq_false_iff]
      intro htouches
      have hfilter : c ∈ after.filter (k.touches r) :=
        List.mem_filter.mpr ⟨hbehind ▸ hc, htouches⟩
      rw [← hlast.2] at hfilter
      exact absurd hfilter List.not_mem_nil

/-- A loop with loops around it belongs into the body of an earlier one. -/
theorem exists_parent (hk : k.Hierarchical) {e : Fin n} (he : e ∈ k.loops)
    (hchain : k.chain (.loop e) ≠ []) :
    ∃ c ∈ k.loops, k.rank c < k.rank e ∧ k.Belongs c (k.behind c) (.loop e) := by
  obtain ⟨outer, c, h⟩ := (List.eq_nil_or_concat (k.chain (.loop e))).resolve_left hchain
  rw [List.concat_eq_append] at h
  have hitem : Ref.loop e ∈ k.items := loop_mem_items.mpr he
  obtain ⟨hc, houter⟩ := hk.chain_coherent hitem h
  have hbelongs : k.Belongs c (k.behind c) (.loop e) :=
    (hk.belongs_behind_iff hc).mpr ⟨hitem, by rw [h, houter]⟩
  exact ⟨c, hc, (touches_loop_iff.mp hbelongs.touches).1, hbelongs⟩

end Hierarchical

end Kernel
end LoopNest
