import LoopNest.Proofs.Kernel.Unwritten
import LoopNest.StagePlan

/-!
# When a plan runs

The order of a plan is found by counting.  Each stage has a counter of the requirements that are
still to run, and the stages whose counter is at zero stand in a queue.  A stage that leaves the
queue lowers the counters of all stages that require it, and those that come to zero join the queue.

## What stays behind

At every moment the counters say how many requirements have not run, and the stages that ran or wait
in the queue are just those without an open requirement (`Counted`).  So a stage that is left over
when the queue is empty has a requirement that is left over, too.  If all requirements are
registered, the stages that are left over therefore go round in a circle, and the length of the list
alone tells whether there are any.

* `Runnable`: each registered stage once, after all that it requires.
* `Counted.step`, `Counted.sortFrom`: one turn of the queue, and all of them.
* `order_of_not_registered`, `order_of_acyclic`, `order_of_not_acyclic`: the outcomes of the search
  for an order.
* `run_iff_registered_and_acyclic`: a plan runs completely iff all requirements are registered and
  acyclic, and otherwise nothing runs.
-/

namespace LoopNest
namespace StagePlan

variable {κ : Type}

/-- The stage under the first key requires the one under the second. -/
def Requires (stages : List (Stage κ)) (x y : κ) : Prop := ∃ s ∈ stages, s.key = x ∧ y ∈ s.requires

/-- Every required stage is registered. -/
def Registered (stages : List (Stage κ)) : Prop :=
  ∀ s ∈ stages, ∀ y ∈ s.requires, y ∈ stages.map Stage.key

/-- No stage requires itself, directly or through others. -/
def Acyclic (stages : List (Stage κ)) : Prop := ∀ x, ¬ Relation.TransGen (Requires stages) x x

/-- Every stage in the list stands after all that it requires. -/
def Ordered (stages : List (Stage κ)) (xs : List κ) : Prop :=
  ∀ pre x post, xs = pre ++ x :: post → ∀ y, Requires stages x y → y ∈ pre

/-- Each registered stage is listed once, after all that it requires. -/
structure Runnable (stages : List (Stage κ)) (xs : List κ) : Prop where
  perm : xs.Perm (stages.map Stage.key)
  ordered : Ordered stages xs

theorem Ordered.snoc {stages : List (Stage κ)} {xs : List κ} (h : Ordered stages xs) {x : κ}
    (hx : ∀ y, Requires stages x y → y ∈ xs) : Ordered stages (xs ++ [x]) := by
  intro pre z post hsplit
  rcases List.eq_nil_or_concat post with rfl | ⟨post, last, rfl⟩
  · obtain ⟨rfl, hz⟩ := List.append_inj' hsplit rfl
    cases hz
    exact hx
  · have hsplit : xs ++ [x] = (pre ++ z :: post) ++ [last] := by simpa using hsplit
    exact h pre z post (List.append_inj' hsplit rfl).1

variable [DecidableEq κ]

/-! ## Counters -/

/-- How many of the requirements have not run. -/
def remaining (requires done : List κ) : Nat := requires.eraseDups.countP fun y => !done.contains y

theorem remaining_eq_zero_iff {requires done : List κ} :
    remaining requires done = 0 ↔ ∀ y ∈ requires, y ∈ done := by
  simp [remaining, List.countP_eq_zero]

theorem remaining_nil (requires : List κ) : remaining requires [] = requires.eraseDups.length := by
  simp [remaining]

theorem countP_snoc {l done : List κ} {x : κ} (hl : l.Nodup) (hx : x ∉ done) :
    l.countP (fun y => !done.contains y)
      = l.countP (fun y => !(done ++ [x]).contains y) + if x ∈ l then 1 else 0 := by
  induction l with
  | nil => rfl
  | cons y l ih =>
    rw [List.nodup_cons] at hl
    rw [List.countP_cons, List.countP_cons, ih hl.2]
    by_cases hyx : y = x
    · subst hyx
      simp [hl.1, hx]
    · have hxy : x ≠ y := fun h => hyx h.symm
      simp [hyx, hxy]
      omega

/-- One requirement less is open when it has run. -/
theorem remaining_snoc {requires done : List κ} {x : κ} (hx : x ∉ done) :
    remaining requires done = remaining requires (done ++ [x]) + if x ∈ requires then 1 else 0 := by
  rw [remaining, countP_snoc (Graph.nodup_eraseDups requires) hx]
  simp only [List.mem_eraseDups]
  rfl

theorem lookup_lower (x y : κ) (waiting : Open κ) :
    (lower x waiting).2.lookup y
      = if y = x then (waiting.lookup x).map (· - 1) else waiting.lookup y := by
  induction waiting with
  | nil => simp [lower]
  | cons entry rest ih =>
    obtain ⟨z, count⟩ := entry
    unfold lower
    by_cases hzx : z = x
    · subst hzx
      rw [if_pos rfl]
      by_cases hyz : y = z
      · subst hyz
        rcases count with _ | _ | count <;> simp
      · have hbeq : (y == z) = false := beq_false_of_ne hyz
        rcases count with _ | _ | count <;> simp [List.lookup_cons, hbeq, hyz]
    · rw [if_neg hzx]
      have hbeq : (x == z) = false := beq_false_of_ne fun h => hzx h.symm
      simp only [List.lookup_cons, ih, hbeq]
      by_cases hyx : y = x
      · subst hyx
        simp [hbeq]
      · simp [hyx]

theorem lower_last_iff (x : κ) (waiting : Open κ) :
    (lower x waiting).1 = true ↔ waiting.lookup x = some 1 := by
  induction waiting with
  | nil => simp [lower]
  | cons entry rest ih =>
    obtain ⟨z, count⟩ := entry
    unfold lower
    by_cases hzx : z = x
    · subst hzx
      rcases count with _ | _ | count <;> simp
    · have hbeq : (x == z) = false := beq_false_of_ne fun h => hzx h.symm
      simp [hzx, List.lookup_cons, hbeq, ih]

/-! ## One stage settled -/

theorem lookup_settle_of_notMem (x : κ) {y : κ} {stages : List (Stage κ)}
    (hy : y ∉ stages.map Stage.key) (waiting : Open κ) :
    (settle x stages waiting).2.lookup y = waiting.lookup y := by
  induction stages generalizing waiting with
  | nil => rfl
  | cons s stages ih =>
    rw [List.map_cons, List.mem_cons, not_or] at hy
    unfold settle
    split
    · dsimp only
      rw [ih hy.2, lookup_lower, if_neg hy.1]
    · exact ih hy.2 waiting

/-- The counter of each stage goes down by one if the stage requires the settled one. -/
theorem lookup_settle (x : κ) {stages : List (Stage κ)} (hkeys : (stages.map Stage.key).Nodup)
    {s : Stage κ} (hs : s ∈ stages) (waiting : Open κ) :
    (settle x stages waiting).2.lookup s.key
      = (waiting.lookup s.key).map (· - if x ∈ s.requires then 1 else 0) := by
  induction stages generalizing waiting with
  | nil => exact absurd hs List.not_mem_nil
  | cons t stages ih =>
    rw [List.map_cons, List.nodup_cons] at hkeys
    unfold settle
    rcases List.mem_cons.mp hs with rfl | hs
    · split
      · next hx =>
        rw [List.contains_iff_mem] at hx
        dsimp only
        rw [lookup_settle_of_notMem x hkeys.1, lookup_lower, if_pos rfl, if_pos hx]
      · next hx =>
        rw [List.contains_iff_mem] at hx
        rw [lookup_settle_of_notMem x hkeys.1, if_neg hx]
        simp
    · have hne : s.key ≠ t.key := fun h => hkeys.1 (h ▸ List.mem_map_of_mem hs)
      split
      · dsimp only
        rw [ih hkeys.2 hs, lookup_lower, if_neg hne]
      · exact ih hkeys.2 hs waiting

/-- The stages that are freed had the settled one as their last open requirement. -/
theorem mem_settle_iff (x : κ) {y : κ} {stages : List (Stage κ)}
    (hkeys : (stages.map Stage.key).Nodup) (waiting : Open κ) :
    y ∈ (settle x stages waiting).1 ↔
      ∃ s ∈ stages, s.key = y ∧ x ∈ s.requires ∧ waiting.lookup y = some 1 := by
  induction stages generalizing waiting with
  | nil => simp [settle]
  | cons t stages ih =>
    rw [List.map_cons, List.nodup_cons] at hkeys
    unfold settle
    split
    · next hx =>
      rw [List.contains_iff_mem] at hx
      -- lowering the counter of `t` is not seen by the stages behind it, which have other keys
      have hrest : (∃ s ∈ stages, s.key = y ∧ x ∈ s.requires ∧
          (lower t.key waiting).2.lookup y = some 1)
          ↔ ∃ s ∈ stages, s.key = y ∧ x ∈ s.requires ∧ waiting.lookup y = some 1 := by
        refine exists_congr fun s => and_congr_right fun hs => and_congr_right ?_
        rintro rfl
        have hne : s.key ≠ t.key := fun h => hkeys.1 (h ▸ List.mem_map_of_mem hs)
        rw [lookup_lower, if_neg hne]
      have hmem : y ∈ (settle x stages (lower t.key waiting).2).1 ↔ _ := (ih hkeys.2 _).trans hrest
      simp only [List.mem_cons, or_and_right, exists_or, exists_eq_left, ← hmem]
      split
      · next hlast =>
        rw [lower_last_iff] at hlast
        rw [List.mem_cons]
        refine or_congr_left ⟨?_, fun h => h.1.symm⟩
        rintro rfl
        exact ⟨rfl, hx, hlast⟩
      · next hlast =>
        rw [lower_last_iff] at hlast
        refine (or_iff_right ?_).symm
        rintro ⟨rfl, -, hone⟩
        exact hlast hone
    · next hx =>
      rw [List.contains_iff_mem] at hx
      simp only [ih hkeys.2, List.mem_cons, or_and_right, exists_or, exists_eq_left]
      exact (or_iff_right fun h => hx h.2.1).symm

theorem settle_sublist (x : κ) (stages : List (Stage κ)) (waiting : Open κ) :
    (settle x stages waiting).1.Sublist (stages.map Stage.key) := by
  induction stages generalizing waiting with
  | nil => exact .slnil
  | cons s stages ih =>
    unfold settle
    split
    · dsimp only
      split
      · exact (ih _).cons_cons s.key
      · exact (ih _).cons s.key
    · exact (ih waiting).cons s.key

/-! ## The queue -/

/-- The counters are right, and the stages that ran or are queued are those without open
requirements. -/
structure Counted (stages : List (Stage κ)) (done queue : List κ) (waiting : Open κ) : Prop where
  count : ∀ s ∈ stages, waiting.lookup s.key = some (remaining s.requires done)
  ready : ∀ s ∈ stages, s.key ∈ done ++ queue ↔ remaining s.requires done = 0
  nodup : (done ++ queue).Nodup
  known : ∀ x ∈ done ++ queue, x ∈ stages.map Stage.key
  ordered : Ordered stages done

namespace Counted

variable {stages : List (Stage κ)} {done queue : List κ} {waiting : Open κ}

/-- What is queued has all its requirements behind it. -/
theorem requires_done (h : Counted stages done queue waiting) {x y : κ} (hx : x ∈ done ++ queue)
    (hxy : Requires stages x y) : y ∈ done := by
  obtain ⟨s, hs, rfl, hy⟩ := hxy
  exact remaining_eq_zero_iff.mp ((h.ready s hs).mp hx) y hy

/-- One turn of the queue. -/
theorem step (hkeys : (stages.map Stage.key).Nodup) {x : κ}
    (h : Counted stages done (x :: queue) waiting) :
    Counted stages (done ++ [x]) (queue ++ (settle x stages waiting).1)
      (settle x stages waiting).2 := by
  have hx : x ∉ done := fun hx => (List.disjoint_of_nodup_append h.nodup) hx List.mem_cons_self
  have hcount : ∀ s ∈ stages, remaining s.requires done = _ := fun s _ => remaining_snoc hx
  have hfreed : ∀ y, y ∈ (settle x stages waiting).1 ↔
      ∃ s ∈ stages, s.key = y ∧ x ∈ s.requires ∧ remaining s.requires done = 1 := by
    intro y
    rw [mem_settle_iff x hkeys]
    refine exists_congr fun s => and_congr_right fun hs => and_congr_right ?_
    rintro rfl
    rw [h.count s hs, Option.some_inj]
  have hlist : done ++ [x] ++ (queue ++ (settle x stages waiting).1)
      = done ++ x :: queue ++ (settle x stages waiting).1 := by simp
  refine ⟨?_, ?_, ?_, ?_, ?_⟩
  · intro s hs
    rw [lookup_settle x hkeys hs, h.count s hs, hcount s hs, Option.map_some, Nat.add_sub_cancel]
  · intro s hs
    rw [hlist, List.mem_append, h.ready s hs, hfreed, hcount s hs]
    constructor
    · rintro (hzero | ⟨t, ht, hkey, hxt, hone⟩)
      · omega
      · obtain rfl : t = s := List.inj_on_of_nodup_map hkeys ht hs hkey
        rw [hcount t ht, if_pos hxt] at hone
        omega
    · intro hzero
      by_cases hxs : x ∈ s.requires
      · exact .inr ⟨s, hs, rfl, hxs, by rw [hcount s hs, hzero, if_pos hxs]⟩
      · exact .inl (by rw [hzero, if_neg hxs])
  · rw [hlist, List.nodup_append']
    refine ⟨h.nodup, hkeys.sublist (settle_sublist x stages waiting), ?_⟩
    intro y hy hfree
    obtain ⟨s, hs, rfl, -, hone⟩ := (hfreed y).mp hfree
    rw [(h.ready s hs).mp hy] at hone
    cases hone
  · intro y hy
    rw [hlist, List.mem_append] at hy
    rcases hy with hy | hy
    · exact h.known y hy
    · exact (settle_sublist x stages waiting).subset hy
  · exact h.ordered.snoc fun y hxy => h.requires_done (by simp) hxy

/-- All turns of the queue. -/
theorem sortFrom (hkeys : (stages.map Stage.key).Nodup) (h : Counted stages done queue waiting) :
    ∃ waiting', Counted stages (done ++ StagePlan.sortFrom stages queue waiting) [] waiting' := by
  fun_induction StagePlan.sortFrom stages queue waiting generalizing done with
  | case1 waiting =>
    rw [List.append_nil]
    exact ⟨waiting, h⟩
  | case2 waiting x queue settled =>
    rename_i ih
    obtain ⟨waiting', h'⟩ := ih (h.step hkeys)
    rw [List.append_assoc] at h'
    exact ⟨waiting', h'⟩

end Counted

/-! ## The start -/

theorem openAtStart_eq {stages : List (Stage κ)} (hkeys : (stages.map Stage.key).Nodup) :
    openAtStart stages = stages.map fun s => (s.key, remaining s.requires []) := by
  induction stages with
  | nil => rfl
  | cons s stages ih =>
    rw [List.map_cons, List.nodup_cons] at hkeys
    rw [openAtStart, ih hkeys.2, List.map_cons, remaining_nil, List.filter_eq_self.mpr]
    intro entry hentry
    obtain ⟨t, ht, rfl⟩ := List.mem_map.mp hentry
    have hne : t.key ≠ s.key := fun h => hkeys.1 (h ▸ List.mem_map_of_mem ht)
    simpa using hne

theorem lookup_map_of_nodup {stages : List (Stage κ)} (hkeys : (stages.map Stage.key).Nodup)
    (count : Stage κ → Nat) {s : Stage κ} (hs : s ∈ stages) :
    (stages.map fun s => (s.key, count s)).lookup s.key = some (count s) := by
  induction stages with
  | nil => exact absurd hs List.not_mem_nil
  | cons t stages ih =>
    rw [List.map_cons, List.nodup_cons] at hkeys
    rw [List.map_cons, List.lookup_cons]
    rcases List.mem_cons.mp hs with rfl | hs
    · simp
    · have hne : s.key ≠ t.key := fun h => hkeys.1 (h ▸ List.mem_map_of_mem hs)
      rw [beq_false_of_ne hne]
      exact ih hkeys.2 hs

/-- The stages that are free from the start. -/
def free (stages : List (Stage κ)) : List κ :=
  ((openAtStart stages).filter fun entry => entry.2 = 0).map Prod.fst

theorem free_eq {stages : List (Stage κ)} (hkeys : (stages.map Stage.key).Nodup) :
    free stages = (stages.filter fun s => remaining s.requires [] = 0).map Stage.key := by
  rw [free, openAtStart_eq hkeys, List.filter_map, List.map_map]
  rfl

theorem counted_start {stages : List (Stage κ)} (hkeys : (stages.map Stage.key).Nodup) :
    Counted stages [] (free stages) (openAtStart stages) := by
  have hsublist : (free stages).Sublist (stages.map Stage.key) := by
    rw [free_eq hkeys]
    exact List.filter_sublist.map Stage.key
  refine ⟨?_, ?_, hkeys.sublist hsublist, fun x hx => hsublist.subset hx, ?_⟩
  · intro s hs
    rw [openAtStart_eq hkeys, lookup_map_of_nodup hkeys _ hs]
  · intro s hs
    rw [List.nil_append, free_eq hkeys, List.mem_map]
    constructor
    · rintro ⟨t, ht, hkey⟩
      obtain rfl : t = s := List.inj_on_of_nodup_map hkeys (List.mem_of_mem_filter ht) hs hkey
      exact of_decide_eq_true (List.mem_filter.mp ht).2
    · intro hzero
      exact ⟨s, List.mem_filter.mpr ⟨hs, decide_eq_true hzero⟩, rfl⟩
  · intro pre x post hsplit
    exact absurd hsplit (by simp)

/-- The stages in the order in which they leave the queue. -/
def sorted (stages : List (Stage κ)) : List κ := sortFrom stages (free stages) (openAtStart stages)

/-- What is sorted is closed: it has just the stages all of whose requirements it has. -/
theorem counted_sorted {stages : List (Stage κ)} (hkeys : (stages.map Stage.key).Nodup) :
    ∃ waiting, Counted stages (sorted stages) [] waiting :=
  (counted_start hkeys).sortFrom hkeys

/-! ## Circles -/

omit [DecidableEq κ] in
/-- There is no circle if every requirement ranks below the stage that requires it. -/
theorem acyclic_of_rank {stages : List (Stage κ)} (rank : κ → Nat)
    (hrank : ∀ s ∈ stages, ∀ y ∈ s.requires, rank y < rank s.key) : Acyclic stages := by
  have hbelow : ∀ x y, Relation.TransGen (Requires stages) x y → rank y < rank x := by
    intro x y hxy
    induction hxy with
    | single hxy =>
      obtain ⟨s, hs, rfl, hy⟩ := hxy
      exact hrank s hs _ hy
    | tail _ hyz ih =>
      obtain ⟨s, hs, rfl, hz⟩ := hyz
      exact (hrank s hs _ hz).trans ih
  exact fun x hx => lt_irrefl _ (hbelow x x hx)

/-- Requirements lead back in an order in which the stages can run. -/
theorem Runnable.acyclic {stages : List (Stage κ)} {xs : List κ} (h : Runnable stages xs)
    (hkeys : (stages.map Stage.key).Nodup) : Acyclic stages := by
  refine acyclic_of_rank xs.idxOf fun s hs y hy => ?_
  obtain ⟨pre, post, hsplit⟩ := List.append_of_mem (h.perm.mem_iff.mpr (List.mem_map_of_mem hs))
  have hy : y ∈ pre := h.ordered pre s.key post hsplit y ⟨s, hs, rfl, hy⟩
  have hnodup : (pre ++ s.key :: post).Nodup := hsplit ▸ h.perm.nodup_iff.mpr hkeys
  have hpre : s.key ∉ pre :=
    fun hpre => List.disjoint_of_nodup_append hnodup hpre List.mem_cons_self
  rw [hsplit, List.idxOf_append_of_mem hy, List.idxOf_append_of_notMem hpre, List.idxOf_cons_self,
    Nat.add_zero]
  exact List.idxOf_lt_length_iff.mpr hy

omit [DecidableEq κ] in
theorem Runnable.registered {stages : List (Stage κ)} {xs : List κ} (h : Runnable stages xs) :
    Registered stages := by
  intro s hs y hy
  obtain ⟨pre, post, hsplit⟩ := List.append_of_mem (h.perm.mem_iff.mpr (List.mem_map_of_mem hs))
  refine h.perm.mem_iff.mp ?_
  rw [hsplit]
  exact List.mem_append_left _ (h.ordered pre s.key post hsplit y ⟨s, hs, rfl, hy⟩)

omit [DecidableEq κ] in
/-- Without circles, stages that are closed under "all that is required is there" are all stages. -/
theorem mem_of_acyclic {stages : List (Stage κ)} (hregistered : Registered stages)
    (hacyclic : Acyclic stages) {xs : List κ}
    (hclosed : ∀ s ∈ stages, (∀ y ∈ s.requires, y ∈ xs) → s.key ∈ xs) :
    ∀ x ∈ stages.map Stage.key, x ∈ xs := by
  -- the registered stages are finitely many, so that going along requirements ends
  let Below (x y : { x // x ∈ stages.map Stage.key }) : Prop :=
    Relation.TransGen (Requires stages) y.1 x.1
  have : IsTrans _ Below := ⟨fun _ _ _ hxy hyz => hyz.trans hxy⟩
  have : Std.Irrefl Below := ⟨fun x hx => hacyclic x.1 hx⟩
  have : Finite { x // x ∈ stages.map Stage.key } := (List.finite_toSet _).to_subtype
  have hwf : WellFounded Below := Finite.wellFounded_of_trans_of_irrefl _
  intro x hx
  induction hx' : (⟨x, hx⟩ : { x // x ∈ stages.map Stage.key }) using hwf.induction
    generalizing x with
  | _ z ih =>
    obtain ⟨s, hs, rfl⟩ := List.mem_map.mp hx
    refine hclosed s hs fun y hy => ?_
    refine ih ⟨y, hregistered s hs y hy⟩ ?_ y _ rfl
    subst hx'
    exact .single ⟨s, hs, rfl, hy⟩

/-! ## Orders -/

theorem mem_missing_iff {shown : κ → String} {stages : List (Stage κ)} {name : String} :
    name ∈ missing shown stages ↔
      ∃ s ∈ stages, ∃ y ∈ s.requires, y ∉ stages.map Stage.key ∧ shown y = name := by
  rw [missing, Text.mem_sortedNames, List.mem_map]
  simp only [List.mem_filter, List.mem_flatMap, Bool.not_eq_true', ← Bool.not_eq_true,
    List.contains_iff_mem]
  constructor
  · rintro ⟨y, ⟨⟨s, hs, hy⟩, hkey⟩, hname⟩
    exact ⟨s, hs, y, hy, hkey, hname⟩
  · rintro ⟨s, hs, y, hy, hkey, hname⟩
    exact ⟨y, ⟨⟨s, hs, hy⟩, hkey⟩, hname⟩

theorem missing_eq_nil_iff (shown : κ → String) {stages : List (Stage κ)} :
    missing shown stages = [] ↔ Registered stages := by
  rw [List.eq_nil_iff_forall_not_mem]
  constructor
  · intro h s hs y hy
    by_contra hkey
    exact h (shown y) (mem_missing_iff.mpr ⟨s, hs, y, hy, hkey, rfl⟩)
  · intro h name hname
    obtain ⟨s, hs, y, hy, hkey, -⟩ := mem_missing_iff.mp hname
    exact hkey (h s hs y hy)

theorem order_of_not_registered {shown : κ → String} {stages : List (Stage κ)}
    (h : ¬ Registered stages) :
    order shown stages = .error (.missing (missing shown stages)) := by
  rw [← missing_eq_nil_iff shown] at h
  unfold order
  split
  · next hnil => exact absurd hnil h
  · rfl

theorem order_of_registered {shown : κ → String} {stages : List (Stage κ)} (h : Registered stages) :
    order shown stages
      = if (sorted stages).length = stages.length then .ok (sorted stages)
        else .error .circular := by
  unfold order
  rw [(missing_eq_nil_iff shown).mpr h]
  rfl

/-- If every stage was sorted, the stages can run in this order. -/
theorem runnable_sorted {stages : List (Stage κ)} (hkeys : (stages.map Stage.key).Nodup)
    (hlength : (sorted stages).length = stages.length) : Runnable stages (sorted stages) := by
  obtain ⟨waiting, h⟩ := counted_sorted hkeys
  have hnodup := h.nodup
  have hknown := h.known
  rw [List.append_nil] at hnodup hknown
  refine ⟨(hnodup.subperm hknown).perm_of_length_le ?_, h.ordered⟩
  rw [List.length_map, hlength]

/-- Without circles every stage is sorted. -/
theorem length_sorted {stages : List (Stage κ)} (hkeys : (stages.map Stage.key).Nodup)
    (hregistered : Registered stages) (hacyclic : Acyclic stages) :
    (sorted stages).length = stages.length := by
  obtain ⟨waiting, h⟩ := counted_sorted hkeys
  have hnodup := h.nodup
  have hknown := h.known
  have hready := h.ready
  rw [List.append_nil] at hnodup hknown hready
  have hall : ∀ x ∈ stages.map Stage.key, x ∈ sorted stages := mem_of_acyclic hregistered hacyclic
    fun s hs hrequires => (hready s hs).mpr (remaining_eq_zero_iff.mpr hrequires)
  have hperm : (sorted stages).Perm (stages.map Stage.key) :=
    (List.perm_ext_iff_of_nodup hnodup hkeys).mpr fun x => ⟨hknown x, hall x⟩
  rw [hperm.length_eq, List.length_map]

theorem order_of_acyclic (shown : κ → String) {stages : List (Stage κ)}
    (hkeys : (stages.map Stage.key).Nodup) (hregistered : Registered stages)
    (hacyclic : Acyclic stages) :
    ∃ xs, order shown stages = .ok xs ∧ Runnable stages xs := by
  have hlength := length_sorted hkeys hregistered hacyclic
  refine ⟨sorted stages, ?_, runnable_sorted hkeys hlength⟩
  rw [order_of_registered hregistered, if_pos hlength]

theorem order_of_not_acyclic (shown : κ → String) {stages : List (Stage κ)}
    (hkeys : (stages.map Stage.key).Nodup) (hregistered : Registered stages)
    (hacyclic : ¬ Acyclic stages) :
    order shown stages = .error .circular := by
  rw [order_of_registered hregistered, if_neg]
  exact fun hlength => hacyclic ((runnable_sorted hkeys hlength).acyclic hkeys)

/-! ## Runs -/

variable {ε σ : Type}

section Each

variable {work : κ → EStateM ε σ Unit} {x : κ} {s s' : σ}

omit [DecidableEq κ]

theorem runEach_cons_of_ok (h : (work x).run s = .ok () s') (xs : List κ) :
    (runEach work (x :: xs)).run s = (runEach work xs).run s' :=
  run_bind_of_ok _ (run_adaptExcept_of_ok RunError.stage h)

theorem runEach_cons_of_error {e : ε} (h : (work x).run s = .error e s') (xs : List κ) :
    (runEach work (x :: xs)).run s = .error (.stage e) s' :=
  run_bind_of_error _ (run_adaptExcept_of_error RunError.stage h)

end Each

/-- The work of a stage, with the stage put on record. -/
def recording (work : κ → EStateM ε σ Unit) (x : κ) : EStateM ε (List κ × σ) Unit := fun s =>
  match (work x).run s.2 with
  | .ok _ s' => .ok () (s.1 ++ [x], s')
  | .error e s' => .error e (s.1 ++ [x], s')

/-- The work of every stage comes to its end. -/
def Returns (work : κ → EStateM ε σ Unit) : Prop := ∀ x s, ∃ s', (work x).run s = .ok () s'

omit [DecidableEq κ] in
theorem runEach_recording {work : κ → EStateM ε σ Unit} (hwork : Returns work) (xs log : List κ)
    (s : σ) :
    ∃ s', (runEach (recording work) xs).run (log, s) = .ok () (log ++ xs, s') := by
  induction xs generalizing log s with
  | nil => exact ⟨s, by rw [List.append_nil]; rfl⟩
  | cons x xs ih =>
    obtain ⟨s₁, h₁⟩ := hwork x s
    obtain ⟨s', h'⟩ := ih (log ++ [x]) s₁
    refine ⟨s', ?_⟩
    have hfirst : (recording work x).run (log, s) = .ok () (log ++ [x], s₁) := by
      simp only [EStateM.run, recording] at h₁ ⊢
      rw [h₁]
    rw [runEach_cons_of_ok hfirst, h', List.append_assoc]
    rfl

/-- The plan runs the listed stages one after the other.  If they all return, then just these are on
record afterwards. -/
structure RunsAs (shown : κ → String) (stages : List (Stage κ)) (xs : List κ) : Prop where
  each : ∀ {ε σ : Type} (work : κ → EStateM ε σ Unit), run shown stages work = runEach work xs
  record : ∀ {ε σ : Type} (work : κ → EStateM ε σ Unit) (s : σ), Returns work →
    ∃ s', (run shown stages (recording work)).run ([], s) = .ok () (xs, s')

/-- The plan stops with an error before any stage runs, and leaves everything as it was. -/
def Refuses (shown : κ → String) (stages : List (Stage κ)) (e : PlanError) : Prop :=
  ∀ (ε σ : Type) (work : κ → EStateM ε σ Unit) (s : σ),
    (run shown stages (recording work)).run ([], s) = .error (.plan e) ([], s)

theorem runsAs_of_order {shown : κ → String} {stages : List (Stage κ)} {xs : List κ}
    (h : order shown stages = .ok xs) : RunsAs shown stages xs := by
  have heach : ∀ {ε σ : Type} (work : κ → EStateM ε σ Unit),
      run shown stages work = runEach work xs := by
    intro ε σ work
    rw [run, h]
  refine ⟨heach, fun work s hwork => ?_⟩
  rw [heach]
  exact runEach_recording hwork xs [] s

theorem refuses_of_order {shown : κ → String} {stages : List (Stage κ)} {e : PlanError}
    (h : order shown stages = .error e) : Refuses shown stages e := by
  intro ε σ work s
  rw [run, h]
  rfl

/-- **A plan runs each stage once, after all that it requires, iff all requirements are registered
and none goes round in a circle.**  Otherwise nothing runs: the names of the requirements that are
not registered are told, or, if there are none, that there is a circle. -/
theorem run_iff_registered_and_acyclic (shown : κ → String) {stages : List (Stage κ)}
    (hkeys : (stages.map Stage.key).Nodup) :
    ((∃ xs, Runnable stages xs ∧ RunsAs shown stages xs) ↔ Registered stages ∧ Acyclic stages) ∧
      (¬ Registered stages → ∃ names : List String, names.Pairwise (· < ·) ∧
        (∀ name, name ∈ names ↔
          ∃ s ∈ stages, ∃ y ∈ s.requires, y ∉ stages.map Stage.key ∧ shown y = name) ∧
        Refuses shown stages (.missing names)) ∧
      (Registered stages → ¬ Acyclic stages → Refuses shown stages .circular) := by
  refine ⟨⟨?_, ?_⟩, ?_, ?_⟩
  · rintro ⟨xs, hrunnable, -⟩
    exact ⟨hrunnable.registered, hrunnable.acyclic hkeys⟩
  · rintro ⟨hregistered, hacyclic⟩
    obtain ⟨xs, horder, hrunnable⟩ := order_of_acyclic shown hkeys hregistered hacyclic
    exact ⟨xs, hrunnable, runsAs_of_order horder⟩
  · intro hregistered
    exact ⟨missing shown stages, Text.pairwise_sortedNames _, fun name => mem_missing_iff,
      refuses_of_order (order_of_not_registered hregistered)⟩
  · intro hregistered hacyclic
    exact refuses_of_order (order_of_not_acyclic shown hkeys hregistered hacyclic)

/-- Four stages, of which each was registered before those it requires. -/
def backwards : List (Stage String) :=
  [⟨"third", ["first", "second"]⟩, ⟨"second", ["first"]⟩, ⟨"first", ["trace"]⟩, ⟨"trace", []⟩]

/-- A stage that requires itself. -/
def knot : Stage String := ⟨"knot", ["knot"]⟩

/-- The four stages run.  A stage that requires itself does not, and next to it a requirement that
is not registered is told first. -/
theorem run_backwards :
    (∃ xs, Runnable backwards xs ∧ RunsAs id backwards xs) ∧ Refuses id [knot] .circular ∧
      Refuses id [knot, ⟨"loose", ["knot", "lost", "lost"]⟩] (.missing ["lost"]) := by
  have hbackwards :=
    run_iff_registered_and_acyclic id (show (backwards.map Stage.key).Nodup by decide)
  have hknot := run_iff_registered_and_acyclic id (show ([knot].map Stage.key).Nodup by decide)
  have hloose := run_iff_registered_and_acyclic id
    (show ([knot, ⟨"loose", ["knot", "lost", "lost"]⟩].map Stage.key).Nodup by decide)
  refine ⟨hbackwards.1.mpr ⟨by unfold Registered; decide, ?_⟩,
    hknot.2.2 (by unfold Registered; decide) ?_, ?_⟩
  · exact acyclic_of_rank (["trace", "first", "second", "third"].idxOf ·) (by decide)
  · exact fun h => h "knot" (.single ⟨knot, List.mem_singleton.mpr rfl, rfl,
      List.mem_singleton.mpr rfl⟩)
  · obtain ⟨names, hascending, hmem, hrefuses⟩ := hloose.2.1 (by unfold Registered; decide)
    have hlost : ∀ name, name ∈ names ↔ name ∈ ["lost"] := by
      intro name
      rw [hmem, List.mem_singleton]
      refine ⟨?_, ?_⟩
      · rintro ⟨s, hs, y, hy, hmissing, rfl⟩
        revert s y
        decide
      · rintro rfl
        decide
    have hnodup : names.Nodup := hascending.imp fun h => ne_of_lt h
    obtain rfl : names = ["lost"] :=
      List.perm_singleton.mp ((List.perm_ext_iff_of_nodup hnodup (List.nodup_singleton _)).mpr
        hlost)
    exact hrefuses

end StagePlan
end LoopNest
