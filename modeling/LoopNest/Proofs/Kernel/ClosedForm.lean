import LoopNest.Proofs.Kernel.Analysis

/-!
# The analysis in closed form

An analysis interleaves three nested passes over tables that are kept by name.  Where the kernel's
items have different names, the result can be written down without any pass.  Each list starts with
what the kernel declares; behind that, an instruction has the instructions before it, if it must
stay behind them, and then the loops that it mentions; a loop has the earlier loops whose heads
mention it; and the members of a loop are the instructions that mention it and then the later loops
that its own head mentions (`Layer.Analyzed`).

The lists and the names of the tables leave nothing open, so a layer of this form is *the* layer of
the kernel.

## What an instruction writes

An instruction writes into a variable: the one that is left when targets of assignments and first
parts of forms are followed down to a name (`Expr.WritesTo`).  An analysis fails at the first
instruction behind the first one that is no call and writes into no variable, and nowhere else.

* `Expr.Ordered`: a call, or a statement that reads what it writes.
* `Layer.infer_induction`: what single entries keep, inference keeps.
* `Layer.analyze_closedForm`: how an analysis ends, in closed form.
-/

namespace LoopNest

namespace Expr

/-! ## What a statement writes -/

/-- The expression is a location in a variable: the variable itself, or an assignment or a form
whose first part is such a location. -/
inductive Locates : Expr → String → Prop where
  | name (x : String) : Locates (.name x) x
  | assign {target value : Expr} {x : String} (h : Locates target x) :
      Locates (.assign target value) x
  | form {tag : String} {first : Expr} {rest : List Expr} {x : String} (h : Locates first x) :
      Locates (.form tag (first :: rest)) x

/-- The statement writes into a variable: the target of an assignment, or the first part of a form,
is a location in it. -/
inductive WritesTo : Expr → String → Prop where
  | assign {target value : Expr} {x : String} (h : Locates target x) :
      WritesTo (.assign target value) x
  | form {tag : String} {first : Expr} {rest : List Expr} {x : String} (h : Locates first x) :
      WritesTo (.form tag (first :: rest)) x

/-- No call, and no statement that writes into a variable. -/
def Targetless (body : Expr) : Prop := (∀ f args, body ≠ .call f args) ∧ ∀ x, ¬ body.WritesTo x

/-- What a statement computes: the value of an assignment, and all of anything else. -/
def computed : Expr → Expr
  | .assign _ value => value
  | e => e

/-- A call, or a statement that reads the variable it writes into. -/
def Ordered (body : Expr) : Prop :=
  (∃ f args, body = .call f args) ∨ ∃ x, body.WritesTo x ∧ body.computed.occurs x = true

theorem location_eq_ok_iff : ∀ (e : Expr) {x : String}, location e = .ok x ↔ e.Locates x
  | .name y, x => by
    rw [location]
    constructor
    · rintro ⟨⟩
      exact .name y
    · rintro ⟨⟩
      rfl
  | .literal v, x => ⟨fun h => (by cases h), fun h => (by cases h)⟩
  | .call f args, x => ⟨fun h => (by cases h), fun h => (by cases h)⟩
  | .assign target value, x => by
    rw [location, location_eq_ok_iff target]
    constructor
    · exact .assign
    · rintro ⟨⟩
      assumption
  | .form tag [], x => ⟨fun h => (by cases h), fun h => (by cases h)⟩
  | .form tag (first :: rest), x => by
    rw [location, locationOfFirst, Option.getD_some, location_eq_ok_iff first]
    constructor
    · exact .form
    · rintro ⟨⟩
      assumption

theorem written_eq_ok_iff {e : Expr} {x : String} : written e = .ok x ↔ e.WritesTo x := by
  have hlocates : (∀ y, e ≠ .name y) → (e.Locates x ↔ e.WritesTo x) := by
    intro hname
    constructor
    · rintro (_ | h | h)
      · exact absurd rfl (hname x)
      · exact .assign h
      · exact .form h
    · rintro (h | h)
      · exact .assign h
      · exact .form h
  cases e with
  | name y => exact ⟨fun h => (by cases h), fun h => (by cases h)⟩
  | literal v => exact (location_eq_ok_iff _).trans (hlocates (by simp))
  | call f args => exact (location_eq_ok_iff _).trans (hlocates (by simp))
  | assign target value => exact (location_eq_ok_iff _).trans (hlocates (by simp))
  | form tag args => exact (location_eq_ok_iff _).trans (hlocates (by simp))

/-- Behind other instructions, a statement that is no call is asked what it writes into and whether
it computes with it. -/
theorem readsOwnTarget_eq {body : Expr} (h : ∀ f args, body ≠ .call f args) :
    body.readsOwnTarget = body.written.map fun x => body.computed.occurs x := by
  cases body with
  | call f args => exact absurd rfl (h f args)
  | _ => rfl

theorem readsOwnTarget_eq_error_iff {body part : Expr} :
    body.readsOwnTarget = .error part ↔ body.Targetless ∧ body.written = .error part := by
  by_cases hcall : ∃ f args, body = .call f args
  · obtain ⟨f, args, rfl⟩ := hcall
    exact ⟨fun h => (by cases h), fun h => absurd rfl (h.1.1 f args)⟩
  · have hne : ∀ f args, body ≠ .call f args := fun f args h => hcall ⟨f, args, h⟩
    rw [readsOwnTarget_eq hne]
    cases hwritten : body.written with
    | ok x =>
      have hwrites : body.WritesTo x := written_eq_ok_iff.mp hwritten
      exact ⟨fun h => (by cases h), fun h => absurd hwrites (h.1.2 x)⟩
    | error e =>
      have hnone : ∀ x, ¬ body.WritesTo x := by
        intro x hx
        rw [← written_eq_ok_iff, hwritten] at hx
        cases hx
      constructor
      · rintro ⟨⟩
        exact ⟨⟨hne, hnone⟩, rfl⟩
      · rintro ⟨-, ⟨⟩⟩
        rfl

theorem readsOwnTarget_eq_ok_true_iff {body : Expr} :
    body.readsOwnTarget = .ok true ↔ body.Ordered := by
  by_cases hcall : ∃ f args, body = .call f args
  · obtain ⟨f, args, rfl⟩ := hcall
    exact ⟨fun _ => .inl ⟨f, args, rfl⟩, fun _ => rfl⟩
  · have hne : ∀ f args, body ≠ .call f args := fun f args h => hcall ⟨f, args, h⟩
    rw [readsOwnTarget_eq hne, Ordered, or_iff_right hcall]
    simp only [← written_eq_ok_iff]
    cases body.written with
    | ok x => simp [Except.map]
    | error e => simp [Except.map]

instance (body : Expr) : Decidable body.Ordered :=
  decidable_of_iff (body.readsOwnTarget.toOption = some true) <| by
    rw [← readsOwnTarget_eq_ok_true_iff]
    cases body.readsOwnTarget <;> simp [Except.toOption]

end Expr

namespace NameMap

/-- Writing under an old name changes a sum over the table by what changes there. -/
theorem sum_insert {α : Type} {table : NameMap α} (hnames : table.names.Nodup) (f : α → Nat)
    {x : String} {old : α} (h : table.find? x = some old) (value : α) :
    ((table.insert x value).entries.map fun entry => f entry.2).sum + f old
      = (table.entries.map fun entry => f entry.2).sum + f value := by
  have hcontains : table.contains x = true := contains_eq_true_iff.mpr ⟨old, h⟩
  rw [insert, if_pos hcontains]
  obtain ⟨entries⟩ := table
  unfold find? at h
  unfold names at hnames
  dsimp only at h hnames ⊢
  clear hcontains
  induction entries with
  | nil => cases h
  | cons first entries ih =>
    rw [List.map_cons, List.nodup_cons] at hnames
    by_cases hx : first.1 = x
    · subst hx
      rw [List.lookup_cons, beq_self_eq_true] at h
      have hold : first.2 = old := Option.some_inj.mp h
      have hrest : entries.map (fun entry => if entry.1 = first.1 then (first.1, value) else entry)
          = entries := by
        refine (List.map_congr_left fun entry hentry => ?_).trans (List.map_id entries)
        rw [if_neg]
        · rfl
        · exact fun heq => hnames.1 (heq ▸ List.mem_map_of_mem hentry)
      rw [List.map_cons, if_pos rfl, hrest, List.map_cons, List.map_cons, List.sum_cons,
        List.sum_cons, hold]
      dsimp only
      omega
    · have hne : (x == first.1) = false := beq_false_of_ne fun heq => hx heq.symm
      rw [List.lookup_cons, hne] at h
      have := ih hnames.2 h
      rw [List.map_cons, if_neg hx, List.map_cons, List.map_cons, List.sum_cons, List.sum_cons]
      omega

end NameMap

variable {m n : Nat} {k : Kernel m n}

namespace Layer

theorem isOrdered_iff {i : Fin m} : isOrdered k i = true ↔ (k.instruction i).body.Ordered := by
  rw [isOrdered, ← Expr.readsOwnTarget_eq_ok_true_iff]
  cases (k.instruction i).body.readsOwnTarget <;> simp

/-! ## Names and numbers of entries -/

/-- What a step keeps, whenever it succeeds. -/
def Keeps (P : Layer m n → Prop) (f : LayerStep m n Unit) : Prop :=
  ∀ a b, f.run a = .ok () b → P a → P b

namespace Keeps

variable {P : Layer m n → Prop} {f g : LayerStep m n Unit}

theorem nothing : Keeps P (pure ()) := by
  intro a b h ha
  cases h
  exact ha

theorem andThen (hf : Keeps P f) (hg : Keeps P g) : Keeps P (do f; g) := by
  intro a b h ha
  obtain ⟨⟨⟩, u, hu, h⟩ := run_bind_eq_ok_iff.mp h
  exact hg u b h (hf a u hu ha)

theorem forM {α : Type} {step : α → LayerStep m n Unit} (h : ∀ e, Keeps P (step e)) (l : List α) :
    Keeps P (l.forM step) := by
  induction l with
  | nil => exact nothing
  | cons e l ih => exact (h e).andThen ih

end Keeps

/-- **Inference is made of single entries**: what each of them keeps, inference keeps. -/
theorem infer_induction {P : Layer m n → Prop} (hdep : ∀ x dep, Keeps P (addDep x dep))
    (hmember : ∀ x r, Keeps P (addMember x r)) : Keeps P (infer k) := by
  have hwhen : ∀ (cond : Bool) x dep y r,
      Keeps P (do if cond then addDep x dep; addMember y r) := by
    intro cond x dep y r
    cases cond with
    | false => exact .nothing
    | true => exact (hdep x dep).andThen (hmember y r)
  have horder : ∀ earlier is, Keeps P (addOrder k earlier is) := by
    intro earlier is
    induction is generalizing earlier with
    | nil => exact .nothing
    | cons i rest ih =>
      rw [addOrder]
      split
      · exact ih _
      · split
        · intro a b h
          cases h
        · split
          · exact (Keeps.forM (hdep _) earlier).andThen (ih _)
          · exact ih _
  have hinners : ∀ ls, Keeps P (addInners k ls) := by
    intro ls
    induction ls with
    | nil => exact .nothing
    | cons outer rest ih => exact (Keeps.forM (fun _ => hwhen _ _ _ _ _) rest).andThen ih
  exact (horder [] k.instructions).andThen
    ((Keeps.forM (fun _ => .forM (fun _ => hwhen _ _ _ _ _) k.loops) k.instructions).andThen
      (hinners k.loops))

/-- The tables have the names of the kernel's items and loops, in order, and the lists of
dependencies are longer than the declared ones by as many entries as were inferred. -/
structure Tallied (k : Kernel m n) (layer : Layer m n) : Prop where
  depNames : layer.deps.names = k.items.map k.name
  memberNames : layer.members.names = k.loops.map fun l => (k.loop l).head.name
  total : (layer.deps.entries.map fun entry => entry.2.length).sum
    = (k.items.map fun r => (k.deps r).length).sum + layer.inferred

theorem tallied_declared (hk : k.Distinct) : Tallied k (declared k) := by
  have hdeps : (declared k).deps = ⟨k.items.map fun r => (k.name r, k.deps r)⟩ :=
    NameMap.ofList_eq (by rw [List.map_map]; exact hk)
  have hmembers : (declared k).members
      = ⟨k.loops.map fun l => ((k.loop l).head.name, (k.loop l).members)⟩ :=
    NameMap.ofList_eq (by rw [List.map_map]; exact hk.loops)
  refine ⟨?_, ?_, ?_⟩
  · rw [hdeps, NameMap.names, List.map_map]
    rfl
  · rw [hmembers, NameMap.names, List.map_map]
    rfl
  · rw [hdeps, List.map_map]
    rfl

theorem keeps_addDep (hk : k.Distinct) (x dep : String) : Keeps (Tallied k) (addDep x dep) := by
  intro a b h ha
  obtain ⟨_, _, hget, h⟩ := run_bind_eq_ok_iff.mp h
  cases hget
  rw [depsOf] at h
  cases hx : a.deps.find? x with
  | none => rw [hx] at h; cases h
  | some deps =>
    rw [hx] at h
    cases h
    have hcontains : a.deps.contains x = true := NameMap.contains_eq_true_iff.mpr ⟨deps, hx⟩
    have hnodup : a.deps.names.Nodup := ha.depNames ▸ hk
    refine ⟨?_, ha.memberNames, ?_⟩
    · rw [← ha.depNames]
      exact NameMap.names_insert_of_contains hcontains _
    · have hsum := NameMap.sum_insert hnodup List.length hx (deps ++ [dep])
      have htotal := ha.total
      rw [List.length_append, List.length_singleton] at hsum
      dsimp only at htotal ⊢
      omega

theorem keeps_addMember (x : String) (r : Ref m n) : Keeps (Tallied k) (addMember x r) := by
  intro a b h ha
  obtain ⟨_, _, hget, h⟩ := run_bind_eq_ok_iff.mp h
  cases hget
  rw [membersOf] at h
  cases hx : a.members.find? x with
  | none => rw [hx] at h; cases h
  | some members =>
    rw [hx] at h
    cases h
    have hcontains : a.members.contains x = true := NameMap.contains_eq_true_iff.mpr ⟨members, hx⟩
    refine ⟨ha.depNames, ?_, ha.total⟩
    rw [← ha.memberNames]
    exact NameMap.names_insert_of_contains hcontains _

theorem tallied_analyze (hk : k.Distinct) {layer : Layer m n} (h : analyze k = .ok layer) :
    Tallied k layer := by
  rw [analyze] at h
  split at h
  · rename_i layer' hrun
    cases h
    exact infer_induction (keeps_addDep hk) keeps_addMember _ _ hrun (tallied_declared hk)
  · cases h

/-! ## The closed form -/

/-- The layer of a kernel in closed form. -/
structure Analyzed (k : Kernel m n) (layer : Layer m n) : Prop extends Tallied k layer where
  /-- what an instruction declares, the instructions before it if it must stay behind them, the
  loops it mentions -/
  instruction : ∀ before i after, k.instructions = before ++ i :: after →
    layer.deps.find? (k.instruction i).name = some ((k.instruction i).deps
      ++ (if (k.instruction i).body.Ordered then before.map fun j => (k.instruction j).name else [])
      ++ (k.loops.filter (k.mentions i)).map fun l => (k.loop l).head.name)
  /-- what a loop declares, the earlier loops whose heads mention it -/
  loop : ∀ earlier l later, k.loops = earlier ++ l :: later →
    layer.deps.find? (k.loop l).head.name = some ((k.loop l).head.deps
      ++ (earlier.filter (headMentions k · l)).map fun e => (k.loop e).head.name)
  /-- the members that a loop declares, the instructions that mention it, the later loops that its
  head mentions -/
  members : ∀ earlier l later, k.loops = earlier ++ l :: later →
    layer.members.find? (k.loop l).head.name = some ((k.loop l).members
      ++ (k.instructions.filter (k.mentions · l)).map .instruction
      ++ (later.filter (headMentions k l)).map .loop)

theorem analyzed_of_analyze (hk : k.Distinct) {layer : Layer m n} (h : analyze k = .ok layer) :
    Analyzed k layer where
  toTallied := tallied_analyze hk h
  instruction before i after hi := by
    have hmem : i ∈ k.instructions := by rw [hi]; simp
    have horder := orderDeps_eq (k := k) (hi ▸ hk.instructions) []
    rw [← hi, List.nil_append] at horder
    rw [deps_infer_instruction hk h hmem, horder, List.append_assoc]
    simp only [isOrdered_iff]
  loop earlier l later hl := deps_infer_loop hk h hl
  members earlier l later hl := by
    rw [members_infer hk h hl, List.append_assoc]

/-- The closed form leaves nothing open. -/
theorem Analyzed.eq (hk : k.Distinct) {layer layer' : Layer m n} (h : Analyzed k layer)
    (h' : Analyzed k layer') :
    layer = layer' := by
  have hdeps : layer.deps = layer'.deps := by
    refine NameMap.eq_of_find? (h.depNames ▸ hk) (h.depNames.trans h'.depNames.symm) fun x hx => ?_
    rw [h.depNames] at hx
    obtain ⟨r, hr, rfl⟩ := List.mem_map.mp hx
    rcases List.mem_append.mp hr with hr | hr
    · obtain ⟨i, hi, rfl⟩ := List.mem_map.mp hr
      obtain ⟨before, after, hsplit⟩ := List.append_of_mem hi
      exact (h.instruction before i after hsplit).trans (h'.instruction before i after hsplit).symm
    · obtain ⟨l, hl, rfl⟩ := List.mem_map.mp hr
      obtain ⟨earlier, later, hsplit⟩ := List.append_of_mem hl
      exact (h.loop earlier l later hsplit).trans (h'.loop earlier l later hsplit).symm
  have hmembers : layer.members = layer'.members := by
    refine NameMap.eq_of_find? (h.memberNames ▸ hk.loops)
      (h.memberNames.trans h'.memberNames.symm) fun x hx => ?_
    rw [h.memberNames] at hx
    obtain ⟨l, hl, rfl⟩ := List.mem_map.mp hx
    obtain ⟨earlier, later, hsplit⟩ := List.append_of_mem hl
    exact (h.members earlier l later hsplit).trans (h'.members earlier l later hsplit).symm
  have hinferred : layer.inferred = layer'.inferred := by
    have htotal :=
      h.total.symm.trans ((congrArg (fun deps => (deps.entries.map fun entry => entry.2.length).sum)
      hdeps).trans h'.total)
    omega
  cases layer
  cases layer'
  cases hdeps
  cases hmembers
  cases hinferred
  rfl

theorem unwritten?_eq_some_iff {i : Fin m} {e : CompileError} :
    k.unwritten? i = some e ↔ (k.instruction i).body.Targetless ∧
      ∃ part, (k.instruction i).body.written = .error part ∧
        e = .unwritten part (some (k.instruction i).name) := by
  have herror : ∀ part, (k.instruction i).body.readsOwnTarget = .error part ↔
      (k.instruction i).body.Targetless ∧
      (k.instruction i).body.written = .error part := fun _ => Expr.readsOwnTarget_eq_error_iff
  rw [Kernel.unwritten?]
  cases hreads : (k.instruction i).body.readsOwnTarget with
  | ok reads =>
    refine ⟨fun h => (by cases h), ?_⟩
    rintro ⟨hbody, part, hpart, -⟩
    cases hreads.symm.trans ((herror part).mpr ⟨hbody, hpart⟩)
  | error part =>
    obtain ⟨hbody, hpart⟩ := (herror part).mp hreads
    constructor
    · rintro ⟨⟩
      exact ⟨hbody, part, hpart, rfl⟩
    · rintro ⟨-, part', hpart', rfl⟩
      cases hpart.symm.trans hpart'
      rfl

theorem unwritten?_eq_none_iff {i : Fin m} :
    k.unwritten? i = none ↔ ¬ (k.instruction i).body.Targetless := by
  rw [Kernel.unwritten?]
  cases hreads : (k.instruction i).body.readsOwnTarget with
  | ok reads =>
    refine ⟨fun _ hbody => ?_, fun _ => rfl⟩
    cases hwritten : (k.instruction i).body.written with
    | ok x => exact hbody.2 x (Expr.written_eq_ok_iff.mp hwritten)
    | error part => cases hreads.symm.trans (Expr.readsOwnTarget_eq_error_iff.mpr ⟨hbody, hwritten⟩)
  | error part =>
    exact ⟨fun h => (by cases h), fun h => absurd (Expr.readsOwnTarget_eq_error_iff.mp hreads).1 h⟩

theorem analyze_eq_error_iff {e : CompileError} : analyze k = .error e ↔ k.malformed? = some e := by
  refine ⟨fun h => ?_, analyze_eq_error⟩
  cases hmalformed : k.malformed? with
  | none =>
    obtain ⟨layer, hlayer⟩ := exists_analyze_eq_ok hmalformed
    cases hlayer.symm.trans h
  | some e' =>
    cases (analyze_eq_error hmalformed).symm.trans h
    rfl

theorem malformed?_eq_some_iff {e : CompileError} :
    k.malformed? = some e ↔ ∃ first before i after, k.instructions = first :: before ++ i :: after ∧
      (k.instruction i).body.Targetless ∧ (∀ j ∈ before, ¬ (k.instruction j).body.Targetless) ∧
      ∃ part, (k.instruction i).body.written = .error part ∧
        e = .unwritten part (some (k.instruction i).name) := by
  rw [Kernel.malformed?, List.findSome?_eq_some_iff]
  simp only [unwritten?_eq_some_iff, unwritten?_eq_none_iff]
  constructor
  · rintro ⟨before, i, after, htail, ⟨hbody, hpart⟩, hbefore⟩
    cases hinstructions : k.instructions with
    | nil => rw [hinstructions] at htail; simp at htail
    | cons first rest =>
      rw [hinstructions, List.tail_cons] at htail
      exact ⟨first, before, i, after, by rw [htail]; rfl, hbody, hbefore, hpart⟩
  · rintro ⟨first, before, i, after, hinstructions, hbody, hbefore, hpart⟩
    exact ⟨before, i, after, by rw [hinstructions]; rfl, ⟨hbody, hpart⟩, hbefore⟩

/-- **An analysis in closed form.**  It fails exactly where some instruction behind the first is no
call and writes into no variable, and names the first such instruction.  Otherwise its layer is the
one in closed form. -/
theorem analyze_closedForm (hk : k.Distinct) :
    (∀ e, analyze k = .error e ↔ ∃ first before i after, k.instructions
      = first :: before ++ i :: after ∧
      (k.instruction i).body.Targetless ∧ (∀ j ∈ before, ¬ (k.instruction j).body.Targetless) ∧
      ∃ part, (k.instruction i).body.written = .error part ∧
        e = .unwritten part (some (k.instruction i).name)) ∧
    ∀ layer, analyze k = .ok layer ↔
      (∀ i ∈ k.instructions.tail, ¬ (k.instruction i).body.Targetless) ∧ Analyzed k layer := by
  have hnone : k.malformed? = none ↔ ∀ i ∈ k.instructions.tail,
      ¬ (k.instruction i).body.Targetless := by
    rw [Kernel.malformed?, List.findSome?_eq_none_iff]
    simp only [unwritten?_eq_none_iff]
  refine ⟨fun e => analyze_eq_error_iff.trans malformed?_eq_some_iff,
    fun layer => ⟨fun h => ?_, ?_⟩⟩
  · exact ⟨hnone.mp (analyze_eq_ok h).1, analyzed_of_analyze hk h⟩
  · rintro ⟨hwritten, hlayer⟩
    obtain ⟨layer', hlayer'⟩ := exists_analyze_eq_ok (hnone.mpr hwritten)
    rw [hlayer', hlayer.eq hk (analyzed_of_analyze hk hlayer')]

/-- A sum over a table of products: the second instruction only writes what it does not read, the
third reads what it writes, and the head of the outer loop mentions the inner one. -/
def gathered : Kernel 3 2 where
  instructionTable := #v[
    ⟨"init", .assign (.name "s") (.literal (.int 0)), []⟩,
    ⟨"scale", .assign (.form refTag [.name "out", .name "i"]) (.call "*" [.name "i", .name "j"]),
      ["j"]⟩,
    ⟨"sum", .form "+=" [.name "s", .form refTag [.name "out", .name "i"]], []⟩]
  loopTable := #v[
    ⟨⟨"i", .literal (.int 0), .name "j", defaultStep "i", []⟩, []⟩,
    ⟨⟨"j", .literal (.int 1), .literal (.int 9), defaultStep "j", []⟩, []⟩]
  instructions := List.finRange 3
  loops := List.finRange 2

/-- The lists of `gathered`: "scale" is not ordered behind "init", and "sum" is behind both. -/
theorem analyze_gathered :
    gathered.Distinct ∧ ∃ layer, analyze gathered = .ok layer ∧ Analyzed gathered layer ∧
      layer.deps.find? "scale" = some ["j", "i", "j"] ∧
        layer.deps.find? "sum" = some ["init", "scale", "i"] ∧
      layer.deps.find? "j" = some ["i"] ∧ layer.members.find? "i"
        = some [.instruction 1, .instruction 2, .loop 1] := by
  have hk : gathered.Distinct := by
    rw [Kernel.Distinct]
    decide
  obtain ⟨layer, hlayer⟩ := exists_analyze_eq_ok (k := gathered) rfl
  obtain ⟨-, h⟩ := ((analyze_closedForm hk).2 layer).mp hlayer
  have hscale := h.instruction [0] 1 [2] (by decide)
  have hsum := h.instruction [0, 1] 2 [] (by decide)
  have hinner := h.loop [0] 1 [] (by decide)
  have houter := h.members [] 0 [1] (by decide)
  refine ⟨hk, layer, hlayer, h, hscale.trans ?_, hsum.trans ?_, hinner.trans ?_, houter.trans ?_⟩
  · decide
  · decide
  · decide
  · decide

end Layer
end LoopNest
