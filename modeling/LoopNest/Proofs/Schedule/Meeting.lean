import LoopNest.Proofs.Schedule.Contains

/-!
# Rewritten bodies in closed form

A loop's body is rewritten in its own turn only, and then the loops that come later in the order
have not had theirs.  So the rewritten body does not depend on what else the nester does: it is what
becomes of the body at the start when the loop meets the later loops, in declaration order, with the
bodies that these have at the start.  At each meeting the common members give way to the other loop,
which becomes a guest.

## Nothing falls out

A member that gives way is in the body of the guest that replaces it.  The guest may give way to a
later guest, but then it is in the body of that one.  So whatever was in a body at the start is
contained in something that is there in the end (`Apart.covered`).

A loop can still be lost: one that takes no guests and is nobody's guest, and shares a member with
the rewritten body of an earlier loop, is marked as overlapping and placed nowhere (`Stranded`).
The member that it shares is then itself a guest of the earlier loop, declared later than the lost
one (`Apart.exists_guest_of_stranded`): when the two met, it was not there yet.

* `Nester.rewritten`, `Nester.guestsOf`: the closed form.
* `Nester.Apart.instruction_mem_meetAll`, `Nester.Apart.mem_meetAll`: what is in a rewritten body.
* `Nester.Apart.covered`, `Nester.Apart.guest_covered`: nothing falls out.
-/

namespace LoopNest

variable {m n : Nat}

namespace Nester

/-- A body after its loop has met another one: what the two have in common gives way to the
other. -/
def meeting (s : Nester m n) (k : Kernel m n) (members : List (Ref m n)) (e : Fin n) :
    List (Ref m n) :=
  let common := shared k (s.body k e) members
  if common = [] then members else substitute k (.loop e) (common.map k.name) members

/-- A body after its loop has met others, one by one. -/
def meetAll (s : Nester m n) (k : Kernel m n) (members : List (Ref m n)) (others : List (Fin n)) :
    List (Ref m n) :=
  others.foldl (s.meeting k) members

/-- The loops that move into a body while its loop meets others. -/
def guests (s : Nester m n) (k : Kernel m n) : List (Ref m n) → List (Fin n) → List (Fin n)
  | _, [] => []
  | members, e :: others =>
      (if shared k (s.body k e) members = [] then [] else [e])
        ++ guests s k (s.meeting k members e) others

/-- One loop comes before another in an order. -/
def comesLater (order : List (Ref m n)) (l e : Fin n) : Bool :=
  order.idxOf (.loop l) < order.idxOf (.loop e)

/-- The kernel's loops that come later in an order, as they were declared. -/
def later (k : Kernel m n) (order : List (Ref m n)) (l : Fin n) : List (Fin n) :=
  k.loops.filter (comesLater order l)

/-- The body of a loop after its turn. -/
def rewritten (s : Nester m n) (k : Kernel m n) (order : List (Ref m n)) (l : Fin n) :
    List (Ref m n) :=
  s.meetAll k (s.body k l) (later k order l)

/-- The loops that move into a loop in its turn. -/
def guestsOf (s : Nester m n) (k : Kernel m n) (order : List (Ref m n)) (l : Fin n) :
    List (Fin n) :=
  s.guests k (s.body k l) (later k order l)

/-- A loop without guests that is nobody's guest, and shares a member with the rewritten body of an
earlier loop. -/
def Stranded (s : Nester m n) (k : Kernel m n) (order : List (Ref m n)) (l : Fin n) : Prop :=
  s.guestsOf k order l = [] ∧ (∀ d ∈ k.loops, l ∉ s.guestsOf k order d) ∧
    ∃ d ∈ k.loops, comesLater order d l = true ∧
      shared k (s.rewritten k order d) (s.body k l) ≠ []

instance (s : Nester m n) (k : Kernel m n) (order : List (Ref m n)) (l : Fin n) :
    Decidable (s.Stranded k order l) :=
  inferInstanceAs (Decidable (_ = [] ∧ (∀ d ∈ k.loops, _) ∧ ∃ d ∈ k.loops, _ ∧ _))

variable {s s' : Nester m n} {k : Kernel m n} {members : List (Ref m n)} {others : List (Fin n)}
  {e : Fin n}

theorem comesLater_iff {order : List (Ref m n)} {l e : Fin n} :
    comesLater order l e = true ↔ order.idxOf (.loop l) < order.idxOf (.loop e) := by
  rw [comesLater, decide_eq_true_iff]

theorem comesLater_trans {order : List (Ref m n)} {d l e : Fin n} (hd : comesLater order d l = true)
    (hl : comesLater order l e = true) : comesLater order d e = true := by
  rw [comesLater_iff] at hd hl ⊢
  omega

theorem mem_later {order : List (Ref m n)} {l e : Fin n} :
    e ∈ later k order l ↔ e ∈ k.loops ∧ comesLater order l e = true := by
  rw [later, List.mem_filter]

theorem loop_mem_order {order : List (Ref m n)} (hperm : order.Perm k.items) {l : Fin n} :
    .loop l ∈ order ↔ l ∈ k.loops :=
  hperm.mem_iff.trans Kernel.loop_mem_items

/-- Of two loops, one comes later. -/
theorem comesLater_or {order : List (Ref m n)} (hperm : order.Perm k.items) {l e : Fin n}
    (hl : l ∈ k.loops) (hne : e ≠ l) :
    comesLater order l e = true ∨ comesLater order e l = true := by
  rw [comesLater_iff, comesLater_iff]
  refine Nat.lt_or_gt_of_ne fun heq => hne ?_
  have hsame : Ref.loop l = Ref.loop e := (List.idxOf_inj ((loop_mem_order hperm).mpr hl)).mp heq
  cases hsame
  rfl

theorem idxOf_eq_length {order before after : List (Ref m n)} {r : Ref m n} (hnodup : order.Nodup)
    (hsplit : order = before ++ r :: after) : order.idxOf r = before.length := by
  rw [hsplit, List.nodup_append] at hnodup
  have hr : r ∉ before := fun hmem => hnodup.2.2 r hmem r List.mem_cons_self rfl
  rw [hsplit, List.idxOf_append_of_notMem hr, List.idxOf_cons_self, Nat.add_zero]

/-- What stands before a loop in the order is what it comes later than. -/
theorem mem_before_iff {order before after : List (Ref m n)} {l d : Fin n} (hnodup : order.Nodup)
    (hsplit : order = before ++ .loop l :: after) :
    .loop d ∈ before ↔ comesLater order d l = true := by
  rw [comesLater_iff, idxOf_eq_length hnodup hsplit, hsplit]
  constructor
  · intro hd
    rw [List.idxOf_append_of_mem hd]
    exact List.idxOf_lt_length_of_mem hd
  · intro hlt
    by_contra hd
    rw [List.idxOf_append_of_notMem hd] at hlt
    omega

/-- A loop is found in an order of the items where it stands. -/
theorem position?_eq {order : List (Ref m n)} (hk : k.Distinct) (hperm : order.Perm k.items)
    {l : Fin n} (hl : l ∈ k.loops) :
    position? k order (k.loop l).head.name = some (order.idxOf (.loop l)) := by
  obtain ⟨before, after, hsplit⟩ := List.append_of_mem ((loop_mem_order hperm).mpr hl)
  have hnames : (order.map k.name).Nodup := (hperm.map k.name).nodup_iff.mpr hk
  rw [idxOf_eq_length (hnames.of_map _) hsplit]
  exact position?_append hnames hsplit

/-- Later loops are met as they were declared. -/
theorem rank_of_later (hloops : k.loops.Nodup) {order : List (Ref m n)} {l e : Fin n}
    {before after : List (Fin n)} (hsplit : later k order l = before ++ e :: after) :
    (∀ x ∈ before, k.rank x < k.rank e) ∧ ∀ x ∈ after, k.rank e < k.rank x := by
  have hranks : (later k order l).Pairwise fun a b => k.rank a < k.rank b :=
    (Kernel.pairwise_idxOf hloops).filter _
  rw [hsplit, List.pairwise_append, List.pairwise_cons] at hranks
  exact ⟨fun x hx => hranks.2.2 x hx e List.mem_cons_self, hranks.2.1.1⟩

theorem meetAll_cons : s.meetAll k members (e :: others)
    = s.meetAll k (s.meeting k members e) others := rfl

theorem meetAll_append {others' : List (Fin n)} : s.meetAll k members (others ++ others')
    = s.meetAll k (s.meetAll k members others) others' :=
  List.foldl_append

theorem guests_append {others' : List (Fin n)} : s.guests k members (others ++ others')
    = s.guests k members others ++ s.guests k (s.meetAll k members others) others' := by
  induction others generalizing members with
  | nil => rfl
  | cons d others ih => rw [List.cons_append, guests, ih, guests, List.append_assoc, meetAll_cons]

theorem meetAll_snoc : s.meetAll k members (others ++ [e])
    = s.meeting k (s.meetAll k members others) e :=
  meetAll_append

theorem guests_snoc : s.guests k members (others ++ [e]) = s.guests k members others
    ++ if shared k (s.body k e) (s.meetAll k members others) = [] then [] else [e] := by
  rw [guests_append, guests, guests, List.append_nil]

theorem guests_sublist : ∀ {members : List (Ref m n)} {others : List (Fin n)},
    (s.guests k members others).Sublist others
  | _, [] => .slnil
  | members, e :: others => by
    rw [guests]
    split
    · exact guests_sublist.cons e
    · exact guests_sublist.cons_cons e

/-- A loop without guests keeps its body. -/
theorem meetAll_of_guests_eq_nil (h : s.guests k members others = []) :
    s.meetAll k members others = members := by
  induction others generalizing members with
  | nil => rfl
  | cons e others ih =>
    rw [guests, List.append_eq_nil_iff] at h
    have hcommon : shared k (s.body k e) members = [] := by
      by_contra hne
      rw [if_neg hne] at h
      cases h.1
    rw [meetAll_cons, ih h.2, meeting, if_pos hcommon]

theorem later_of_mem_guestsOf {order : List (Ref m n)} {l : Fin n}
    (h : e ∈ s.guestsOf k order l) : e ∈ k.loops ∧ comesLater order l e = true :=
  mem_later.mp (guests_sublist.subset h)

/-! ## What is in a rewritten body -/

/-- Bodies of a kernel with different names all over that hold only what the kernel is made of. -/
structure Apart (s : Nester m n) (k : Kernel m n) : Prop where
  separate : k.Separate
  within : s.Within k (· ∈ k.reachable)

namespace Apart

theorem inj (hs : s.Apart k) : ∀ r t, r ∈ k.reachable → t ∈ k.reachable → k.name r = k.name t →
    r = t := fun r t hr ht => hs.separate r hr t ht

theorem separated (hs : s.Apart k) : s.Separated k fun l => .loop l ∈ k.reachable where
  closed l hl _ he := hs.within l hl _ he
  inj l e hl he h := by
    cases hs.inj (.loop l) (.loop e) hl he h
    rfl

theorem shared_eq_nil_iff (hs : s.Apart k) (hmembers : ∀ r ∈ members, r ∈ k.reachable)
    (he : .loop e ∈ k.reachable) :
    shared k (s.body k e) members = [] ↔ ∀ t ∈ members, t ∉ s.body k e := by
  rw [List.eq_nil_iff_forall_not_mem]
  simp only [mem_shared_of_inj hs.inj (hs.within e he) hmembers]
  constructor
  · exact fun h t ht hbody => h t ⟨hbody, ht⟩
  · exact fun h t ht => h t ht.2 ht.1

/-- After a meeting a body holds what was there and is not common, and the other loop if something
was. -/
theorem mem_meeting (hs : s.Apart k) (hmembers : ∀ r ∈ members, r ∈ k.reachable)
    (he : .loop e ∈ k.reachable) {r : Ref m n} :
    r ∈ s.meeting k members e ↔
      (r ∈ members ∧ r ∉ s.body k e) ∨ (r = .loop e ∧ ∃ t ∈ members, t ∈ s.body k e) := by
  have hdisjoint := hs.shared_eq_nil_iff hmembers he
  by_cases hcommon : shared k (s.body k e) members = []
  · have hnone : ¬ ∃ t ∈ members, t ∈ s.body k e := by
      rintro ⟨t, ht, hbody⟩
      exact hdisjoint.mp hcommon t ht hbody
    rw [meeting, if_pos hcommon, and_iff_left_of_imp fun hr => hdisjoint.mp hcommon r hr]
    exact ⟨.inl, fun h => h.resolve_right fun h => hnone h.2⟩
  · have hsome : ∃ t ∈ members, t ∈ s.body k e := by
      by_contra hnone
      exact hcommon (hdisjoint.mpr fun t ht hbody => hnone ⟨t, ht, hbody⟩)
    have hshared : ∀ r, r ∈ shared k (s.body k e) members ↔ r ∈ s.body k e ∧ r ∈ members := fun r =>
      mem_shared_of_inj hs.inj (hs.within e he) hmembers
    rw [meeting, if_neg hcommon, mem_substitute_of_inj hs.inj
      (fun r hr => hmembers r ((hshared r).mp hr).2) hmembers, hshared, and_iff_left hsome, or_comm]
    refine or_congr_left (and_congr_right fun hr => ?_)
    rw [and_iff_left hr]

theorem mem_reachable_of_mem_meeting (hs : s.Apart k) (hmembers : ∀ r ∈ members, r ∈ k.reachable)
    (he : .loop e ∈ k.reachable) : ∀ r ∈ s.meeting k members e, r ∈ k.reachable := by
  intro r hr
  rcases (hs.mem_meeting hmembers he).mp hr with ⟨hr, -⟩ | ⟨rfl, -⟩
  · exact hmembers r hr
  · exact he

section MeetAll

variable (hs : s.Apart k) (hothers : ∀ e ∈ others, .loop e ∈ k.reachable)
  (hmembers : ∀ r ∈ members, r ∈ k.reachable)

include hs hothers hmembers

theorem mem_reachable_of_mem_meetAll : ∀ r ∈ s.meetAll k members others, r ∈ k.reachable := by
  induction others generalizing members with
  | nil => exact hmembers
  | cons e others ih =>
    have he := hothers e List.mem_cons_self
    exact ih (fun d hd => hothers d (List.mem_cons_of_mem _ hd))
      (hs.mem_reachable_of_mem_meeting hmembers he)

/-- An instruction stays in a body as long as no loop that is met has it. -/
theorem instruction_mem_meetAll {i : Fin m} :
    .instruction i ∈ s.meetAll k members others ↔
      .instruction i ∈ members ∧ ∀ e ∈ others, .instruction i ∉ s.body k e := by
  induction others generalizing members with
  | nil => simp [meetAll]
  | cons e others ih =>
    have he := hothers e List.mem_cons_self
    rw [meetAll_cons, ih (fun d hd => hothers d (List.mem_cons_of_mem _ hd))
      (hs.mem_reachable_of_mem_meeting hmembers he), hs.mem_meeting hmembers he,
      List.forall_mem_cons]
    simp only [reduceCtorEq, false_and, or_false, and_assoc]

/-- What is in a body after the meetings was there before or is a guest. -/
theorem mem_meetAll {r : Ref m n} (hr : r ∈ s.meetAll k members others) :
    r ∈ members ∨ ∃ e ∈ s.guests k members others, r = .loop e := by
  induction others generalizing members with
  | nil => exact .inl hr
  | cons e others ih =>
    have he := hothers e List.mem_cons_self
    rcases ih (fun d hd => hothers d (List.mem_cons_of_mem _ hd))
      (hs.mem_reachable_of_mem_meeting hmembers he) hr with hr | ⟨d, hd, hr⟩
    · rcases (hs.mem_meeting hmembers he).mp hr with ⟨hr, -⟩ | ⟨hr, t, ht, hbody⟩
      · exact .inl hr
      · have hcommon : shared k (s.body k e) members ≠ [] := fun hnil =>
          (hs.shared_eq_nil_iff hmembers he).mp hnil t ht hbody
        refine .inr ⟨e, ?_, hr⟩
        rw [guests, if_neg hcommon]
        exact List.mem_append_left _ List.mem_cons_self
    · refine .inr ⟨d, ?_, hr⟩
      rw [guests]
      exact List.mem_append_right _ hd

/-- **Nothing falls out** of a body while its loop meets others: what was there is inside something
that is there in the end, if the others keep what they have. -/
theorem covered (hkept : ∀ e ∈ others, ∀ t ∈ s.body k e, s'.Contains k (.loop e) t) :
    ∀ t ∈ members, ∃ u ∈ s.meetAll k members others, s'.Contains k u t := by
  induction others generalizing members with
  | nil => exact fun t ht => ⟨t, ht, .refl⟩
  | cons e others ih =>
    have he := hothers e List.mem_cons_self
    have ih := ih (fun d hd => hothers d (List.mem_cons_of_mem _ hd))
      (hs.mem_reachable_of_mem_meeting hmembers he)
      (fun d hd => hkept d (List.mem_cons_of_mem _ hd))
    intro t ht
    by_cases hbody : t ∈ s.body k e
    · -- the member gives way to the loop that has it
      obtain ⟨u, hu, hcontains⟩ :=
        ih (.loop e) ((hs.mem_meeting hmembers he).mpr (.inr ⟨rfl, t, ht, hbody⟩))
      exact ⟨u, hu, hcontains.trans (hkept e List.mem_cons_self t hbody)⟩
    · exact ih t ((hs.mem_meeting hmembers he).mpr (.inl ⟨ht, hbody⟩))

/-- A guest that gives way to a later one is inside it. -/
theorem guest_covered (hkept : ∀ e ∈ others, ∀ t ∈ s.body k e, s'.Contains k (.loop e) t) :
    ∀ e ∈ s.guests k members others,
      ∃ u ∈ s.meetAll k members others, s'.Contains k u (.loop e) := by
  induction others generalizing members with
  | nil => simp [guests]
  | cons e others ih =>
    have he := hothers e List.mem_cons_self
    have hrest : ∀ d ∈ others, .loop d ∈ k.reachable := fun d hd =>
      hothers d (List.mem_cons_of_mem _ hd)
    have hnext := hs.mem_reachable_of_mem_meeting hmembers he
    have hkept' : ∀ d ∈ others, ∀ t ∈ s.body k d, s'.Contains k (.loop d) t := fun d hd =>
      hkept d (List.mem_cons_of_mem _ hd)
    intro d hd
    rw [guests] at hd
    rcases List.mem_append.mp hd with hd | hd
    · by_cases hcommon : shared k (s.body k e) members = []
      · rw [if_pos hcommon] at hd
        exact absurd hd List.not_mem_nil
      · rw [if_neg hcommon, List.mem_singleton] at hd
        subst hd
        have hsome : ∃ t ∈ members, t ∈ s.body k d := by
          by_contra hnone
          exact hcommon ((hs.shared_eq_nil_iff hmembers he).mpr fun t ht hbody =>
            hnone ⟨t, ht, hbody⟩)
        exact hs.covered hrest hnext hkept' _ ((hs.mem_meeting hmembers he).mpr (.inr ⟨rfl, hsome⟩))
    · exact ih hrest hnext hkept' d hd

end MeetAll

/-! ## Rewritten bodies -/

variable {order : List (Ref m n)} {l : Fin n}

theorem reachable_of_mem_later (h : e ∈ later k order l) : .loop e ∈ k.reachable :=
  Kernel.mem_reachable_of_mem_items (Kernel.loop_mem_items.mpr (mem_later.mp h).1)

theorem mem_reachable_of_mem_rewritten (hs : s.Apart k) (hl : .loop l ∈ k.reachable) :
    ∀ r ∈ s.rewritten k order l, r ∈ k.reachable :=
  hs.mem_reachable_of_mem_meetAll (fun _ => reachable_of_mem_later) (hs.within l hl)

/-- An instruction is in a rewritten body if it was there and in no later one. -/
theorem instruction_mem_rewritten (hs : s.Apart k) (hl : .loop l ∈ k.reachable) {i : Fin m} :
    .instruction i ∈ s.rewritten k order l ↔
      .instruction i ∈ s.body k l ∧ ∀ e ∈ later k order l, .instruction i ∉ s.body k e :=
  hs.instruction_mem_meetAll (fun _ => reachable_of_mem_later) (hs.within l hl)

/-- What is in a rewritten body was there or is a guest. -/
theorem mem_rewritten (hs : s.Apart k) (hl : .loop l ∈ k.reachable) {r : Ref m n}
    (hr : r ∈ s.rewritten k order l) :
    r ∈ s.body k l ∨ ∃ e ∈ s.guestsOf k order l, r = .loop e :=
  hs.mem_meetAll (fun _ => reachable_of_mem_later) (hs.within l hl) hr

/-- Of the members that a loop shares with the rewritten body of another one that met it and did not
take it in, all are guests that this one took in later. -/
theorem exists_guest_of_shared (hs : s.Apart k) (hl : .loop l ∈ k.reachable)
    (he : .loop e ∈ k.reachable) {before after : List (Fin n)}
    (hsplit : later k order l = before ++ e :: after) (hguest : e ∉ s.guestsOf k order l)
    {t : Ref m n} (ht : t ∈ s.rewritten k order l) (hbody : t ∈ s.body k e) :
    ∃ g ∈ s.guestsOf k order l, g ∈ after ∧ t = .loop g := by
  rw [guestsOf, hsplit, guests_append, guests] at hguest ⊢
  rw [rewritten, hsplit, meetAll_append, meetAll_cons] at ht
  have hothers : ∀ d ∈ before ++ e :: after, .loop d ∈ k.reachable := fun d hd =>
    reachable_of_mem_later (hsplit ▸ hd)
  have hsofar := hs.mem_reachable_of_mem_meetAll
    (fun d hd => hothers d (List.mem_append_left _ hd)) (hs.within l hl)
  have hdisjoint : shared k (s.body k e) (s.meetAll k (s.body k l) before) = [] := by
    by_contra hcommon
    rw [if_neg hcommon] at hguest
    simp at hguest
  have hmeeting : s.meeting k (s.meetAll k (s.body k l) before) e
      = s.meetAll k (s.body k l) before := if_pos hdisjoint
  rw [hmeeting] at ht ⊢
  rcases hs.mem_meetAll (fun d hd => hothers d (by simp [hd])) hsofar ht with ht | ⟨g, hg, rfl⟩
  · -- a member that was there at the meeting would be common
    exact absurd hbody ((hs.shared_eq_nil_iff hsofar he).mp hdisjoint t ht)
  · exact ⟨g, by simp [hg], guests_sublist.subset hg, rfl⟩

/-- A stranded loop has a member that was declared later and is the guest of an earlier loop. -/
theorem exists_guest_of_stranded (hs : s.Apart k) (hloops : k.loops.Nodup) (hl : l ∈ k.loops)
    (hstranded : s.Stranded k order l) :
    ∃ d ∈ k.loops, ∃ g ∈ s.guestsOf k order d, k.rank l < k.rank g ∧ .loop g ∈ s.body k l := by
  have hreachable : ∀ e ∈ k.loops, .loop e ∈ k.reachable := fun e he =>
    Kernel.mem_reachable_of_mem_items (Kernel.loop_mem_items.mpr he)
  obtain ⟨-, hguest, d, hd, hearlier, hcommon⟩ := hstranded
  obtain ⟨t, ht⟩ := List.exists_mem_of_ne_nil _ hcommon
  obtain ⟨htd, htl⟩ := (mem_shared_of_inj hs.inj
    (hs.mem_reachable_of_mem_rewritten (hreachable d hd)) (hs.within l (hreachable l hl))).mp ht
  obtain ⟨before, after, hsplit⟩ := List.append_of_mem (mem_later.mpr ⟨hl, hearlier⟩)
  obtain ⟨g, hg, hafter, rfl⟩ :=
    hs.exists_guest_of_shared (hreachable d hd) (hreachable l hl) hsplit
    (hguest d hd) htd htl
  exact ⟨d, hd, g, hg, (rank_of_later hloops hsplit).2 g hafter, htl⟩

end Apart
end Nester
end LoopNest
