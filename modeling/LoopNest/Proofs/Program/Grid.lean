import LoopNest.Proofs.Program.Execution
import LoopNest.Schedule.Nest
import Mathlib.Tactic.Linarith
import Mathlib.Tactic.Ring

/-!
# Nested loops over integers

A loop with integer bounds and a positive step goes through the points of an axis: the lower bound,
then one step further each time, up to the upper bound.  Loops inside one another go through the
grid of their axes, the outermost axis first.

The loop variable is assigned anew whenever a loop is entered, so nothing has to be known of it
before.  What a loop keeps is everything but the variables of its own axis and of the axes inside it
(`Store.Agree`); so the variables of the axes around it still have the values of the round.

* `Axis.points`, `Axis.tuples`: the points of an axis and of a grid.
* `Axis.mem_tuples_iff`, `Axis.pairwise_tuples`: all tuples of the grid, in lexicographic order.
* `Axis.runs_around`: nested loops around a call run through the grid.
-/

namespace LoopNest

/-- An integer range that a loop goes through. -/
structure Axis where
  name : String
  lower : Int
  upper : Int
  step : Int
  step_pos : 1 ≤ step

namespace Axis

/-- The loop over the axis. -/
def head (a : Axis) : LoopHead where
  name := a.name
  lower := .literal (.int a.lower)
  upper := .literal (.int a.upper)
  step := .form "+=" [.name a.name, .literal (.int a.step)]
  deps := []

/-! ## The points -/

/-- The points from a value on. -/
def pointsFrom (a : Axis) (v : Int) : List Int :=
  if v ≤ a.upper then v :: a.pointsFrom (v + a.step) else []
termination_by (a.upper + 1 - v).toNat
decreasing_by
  have hstep := a.step_pos
  omega

/-- The points of the axis. -/
def points (a : Axis) : List Int := a.pointsFrom a.lower

/-- The tuples of the grid, the first axis outermost. -/
def tuples : List Axis → List (List Int)
  | [] => [[]]
  | a :: axes => a.points.flatMap fun v => (tuples axes).map (v :: ·)

/-- The rounds that the loops of the grid make altogether. -/
def rounds : List Axis → Nat
  | [] => 0
  | a :: axes => a.points.length * (rounds axes + 1)

/-- The value is some steps from the lower bound and at most the upper bound. -/
def Meets (a : Axis) (v : Int) : Prop := ∃ i : Nat, v = a.lower + i * a.step ∧ v ≤ a.upper

theorem steps_nonneg (a : Axis) (i : Nat) : 0 ≤ (i : Int) * a.step := by
  have hstep := a.step_pos
  exact Int.mul_nonneg (Int.natCast_nonneg i) (by omega)

theorem mem_pointsFrom_iff (a : Axis) (v x : Int) :
    x ∈ a.pointsFrom v ↔ ∃ i : Nat, x = v + i * a.step ∧ x ≤ a.upper := by
  fun_induction pointsFrom a v with
  | case1 v hle ih =>
    rw [List.mem_cons, ih]
    constructor
    · rintro (rfl | ⟨i, rfl, hx⟩)
      · exact ⟨0, by simp, hle⟩
      · exact ⟨i + 1, by push_cast; ring, hx⟩
    · rintro ⟨i, rfl, hx⟩
      cases i with
      | zero => exact .inl (by simp)
      | succ i => exact .inr ⟨i, by push_cast; ring, hx⟩
  | case2 v hlt =>
    simp only [List.not_mem_nil, false_iff]
    rintro ⟨i, rfl, hx⟩
    have hsteps := a.steps_nonneg i
    omega

theorem pairwise_pointsFrom (a : Axis) (v : Int) : (a.pointsFrom v).Pairwise (· < ·) := by
  fun_induction pointsFrom a v with
  | case1 v hle ih =>
    refine List.pairwise_cons.mpr ⟨fun x hx => ?_, ih⟩
    obtain ⟨i, rfl, -⟩ := (mem_pointsFrom_iff a _ x).mp hx
    have hstep := a.step_pos
    have hsteps := a.steps_nonneg i
    omega
  | case2 v hlt => exact List.Pairwise.nil

/-- The tuples are those whose values meet their axes. -/
theorem mem_tuples_iff {axes : List Axis} {vs : List Int} :
    vs ∈ tuples axes ↔ List.Forall₂ Meets axes vs := by
  induction axes generalizing vs with
  | nil => rw [tuples, List.mem_singleton, List.forall₂_nil_left_iff]
  | cons a axes ih =>
    rw [tuples, List.mem_flatMap, List.forall₂_cons_left_iff]
    constructor
    · rintro ⟨v, hv, hvs⟩
      obtain ⟨us, hus, rfl⟩ := List.mem_map.mp hvs
      exact ⟨v, us, (mem_pointsFrom_iff a _ v).mp hv, ih.mp hus, rfl⟩
    · rintro ⟨v, us, hv, hus, rfl⟩
      exact ⟨v, (mem_pointsFrom_iff a _ v).mpr hv, List.mem_map_of_mem (ih.mpr hus)⟩

/-- The tuples stand in lexicographic order. -/
theorem pairwise_tuples (axes : List Axis) : (tuples axes).Pairwise (· < ·) := by
  induction axes with
  | nil => exact List.pairwise_singleton _ _
  | cons a axes ih =>
    rw [tuples, List.pairwise_flatMap]
    constructor
    · intro v _
      rw [List.pairwise_map]
      exact ih.imp fun hlt => List.cons_lt_cons_iff.mpr (.inr ⟨rfl, hlt⟩)
    · refine (pairwise_pointsFrom a _).imp fun hlt us hus ts hts => ?_
      obtain ⟨us, -, rfl⟩ := List.mem_map.mp hus
      obtain ⟨ts, -, rfl⟩ := List.mem_map.mp hts
      exact List.cons_lt_cons_iff.mpr (.inl hlt)

/-! ## Running the loops -/

/-- A statement inside loops over the axes, the first one outermost. -/
def around (axes : List Axis) (body : Expr) : Expr :=
  axes.foldr (fun a inner => Nest.lowerLoop a.head [inner]) body

end Axis

/-- The stores agree on all variables but the given ones. -/
def Store.Agree (names : List String) (σ τ : Store) : Prop := ∀ y ∉ names, τ y = σ y

namespace Store.Agree

variable {names : List String} {σ τ υ : Store}

theorem refl (names : List String) (σ : Store) : Agree names σ σ := fun _ _ => rfl

theorem trans (h : Agree names σ τ) (h' : Agree names τ υ) : Agree names σ υ :=
  fun y hy => (h' y hy).trans (h y hy)

theorem update (σ : Store) {x : String} (hx : x ∈ names) (v : Option Int) :
    Agree names σ (Function.update σ x v) := by
  intro y hy
  refine Function.update_of_ne ?_ _ _
  rintro rfl
  exact hy hx

theorem mono {more : List String} (h : Agree names σ τ) (hsub : names ⊆ more) : Agree more σ τ :=
  fun y hy => h y fun hmem => hy (hsub hmem)

end Store.Agree

/-- Two statements in sequence. -/
theorem Runs.pair {σ τ υ : Store} {e e' : Expr} {r r' : Nat} {log log' : List Call}
    (h : Runs σ e r log τ) (h' : Runs τ e' r' log' υ) :
    Runs σ (.form blockTag [e, e']) (r + r') (log ++ log') υ := by
  have hblock := Runs.cons h (Runs.cons h' .nil)
  rwa [List.append_nil, Nat.add_zero] at hblock

namespace Axis

variable {a : Axis} {body : Expr} {r : Nat} {log : Int → List Call} {inner : List String}
  {σ : Store}

/-- The condition and the body of the loop over an axis. -/
theorem lowerLoop_head (a : Axis) (body : Expr) :
    Nest.lowerLoop a.head [body] = .form blockTag
      [.assign (.name a.name) (.literal (.int a.lower)),
        .form whileTag [.call "<=" [.name a.name, .literal (.int a.upper)],
          .form blockTag [body, .form "+=" [.name a.name, .literal (.int a.step)]]]] := rfl

/-- **The loop over an axis**, from a value on.  Each round runs the body for one point and keeps
the loop variable, up to the step. -/
theorem runs_while (ha : a.name ∉ inner)
    (hbody : ∀ τ v, Store.Agree (a.name :: inner) σ τ → τ a.name = some v →
      ∃ τ', Runs τ body r (log v) τ' ∧ Store.Agree inner τ τ')
    (v : Int) {τ : Store} (hagree : Store.Agree (a.name :: inner) σ τ) (hv : τ a.name = some v) :
    ∃ τ', Runs τ (.form whileTag [.call "<=" [.name a.name, .literal (.int a.upper)],
        .form blockTag [body, .form "+=" [.name a.name, .literal (.int a.step)]]])
        ((a.pointsFrom v).length * (r + 1)) ((a.pointsFrom v).flatMap log) τ' ∧
      Store.Agree (a.name :: inner) σ τ' := by
  fun_induction pointsFrom a v generalizing τ with
  | case1 v hle ih =>
    obtain ⟨υ, hrun, hkept⟩ := hbody τ v hagree hv
    have hυ : υ a.name = some v := (hkept a.name ha).trans hv
    have hstep := Runs.add (e := .literal (.int a.step)) hυ rfl
    have hagreeStep : Store.Agree (a.name :: inner) σ
        (Function.update υ a.name (some (v + a.step))) :=
      (hagree.trans (hkept.mono (List.subset_cons_self _ _))).trans
        (.update υ List.mem_cons_self _)
    obtain ⟨τ', hrest, hlast⟩ := ih hagreeStep (Function.update_self _ _ _)
    refine ⟨τ', ?_, hlast⟩
    have hround := Runs.again (a := .name a.name) (b := .literal (.int a.upper)) hv rfl hle
      (hrun.pair hstep) hrest
    rw [List.append_nil, Nat.add_zero] at hround
    rw [List.length_cons, List.flatMap_cons]
    convert hround using 1
    ring
  | case2 v hlt =>
    refine ⟨τ, ?_, hagree⟩
    rw [List.length_nil, Nat.zero_mul, List.flatMap_nil]
    exact Runs.stop hv rfl (Int.not_le.mp hlt)

/-- The loop over an axis runs its body once for each point. -/
theorem runs_lowerLoop (ha : a.name ∉ inner)
    (hbody : ∀ τ v, Store.Agree (a.name :: inner) σ τ → τ a.name = some v →
      ∃ τ', Runs τ body r (log v) τ' ∧ Store.Agree inner τ τ') :
    ∃ σ', Runs σ (Nest.lowerLoop a.head [body]) (a.points.length * (r + 1))
      (a.points.flatMap log) σ' ∧ Store.Agree (a.name :: inner) σ σ' := by
  have hassign : Runs σ (.assign (.name a.name) (.literal (.int a.lower))) 0 []
      (Function.update σ a.name (some a.lower)) := Runs.assign rfl
  obtain ⟨σ', hwhile, hagree⟩ := runs_while ha hbody a.lower
    (.update σ List.mem_cons_self _) (Function.update_self _ _ _)
  refine ⟨σ', ?_, hagree⟩
  have hboth := hassign.pair hwhile
  rwa [Nat.zero_add, List.nil_append] at hboth

/-- **Nested loops around a call** run through the grid.  The call also has the variables of some
axes around the loops as its first arguments. -/
theorem runs_around (f : String) (axes : List Axis) {outer : List String} {given : List Int}
    {σ : Store} (hnames : (outer ++ axes.map name).Nodup) (hgiven : outer.map σ = given.map some) :
    ∃ σ', Runs σ (around axes (.call f ((outer ++ axes.map name).map .name))) (rounds axes)
        ((tuples axes).map fun vs => ⟨f, given ++ vs⟩) σ' ∧
      Store.Agree (axes.map name) σ σ' := by
  induction axes generalizing outer given σ with
  | nil =>
    refine ⟨σ, ?_, .refl _ σ⟩
    have hargs : ((outer ++ []).map Expr.name).map (Expr.operand? σ) = (given ++ []).map some := by
      rw [List.append_nil, List.append_nil, List.map_map, ← hgiven]
      rfl
    exact Runs.call hargs
  | cons a axes ih =>
    have hmoved : outer ++ (a :: axes).map name = (outer ++ [a.name]) ++ axes.map name := by simp
    rw [hmoved] at hnames ⊢
    have ha : a.name ∉ axes.map name := by
      intro hmem
      exact (List.nodup_append.mp hnames).2.2 a.name (by simp) a.name hmem rfl
    have houter : ∀ y ∈ outer, y ∉ a.name :: axes.map name := by
      intro y hy hmem
      rw [List.append_assoc] at hnames
      exact (List.nodup_append.mp hnames).2.2 y hy y hmem rfl
    have hbody : ∀ τ v, Store.Agree (a.name :: axes.map name) σ τ → τ a.name = some v →
        ∃ τ', Runs τ (around axes (.call f (((outer ++ [a.name]) ++ axes.map name).map .name)))
            (rounds axes) ((tuples axes).map fun vs => ⟨f, (given ++ [v]) ++ vs⟩) τ' ∧
          Store.Agree (axes.map name) τ τ' := by
      intro τ v hagree hv
      refine ih hnames ?_
      have hkept : outer.map τ = outer.map σ :=
        List.map_congr_left fun y hy => hagree y (houter y hy)
      rw [List.map_append, List.map_append, hkept, hgiven, List.map_singleton, hv]
      rfl
    obtain ⟨σ', hrun, hagree⟩ := runs_lowerLoop ha hbody
    refine ⟨σ', ?_, hagree⟩
    have hlog : (a.points.flatMap fun v => (tuples axes).map fun vs =>
      (⟨f, (given ++ [v]) ++ vs⟩ : Call))
        = (tuples (a :: axes)).map fun vs => ⟨f, given ++ vs⟩ := by
      simp [tuples, List.map_flatMap, Function.comp_def]
    rw [← hlog]
    exact hrun

/-- The calls of the whole grid. -/
theorem runs_grid (f : String) {axes : List Axis} (hnames : (axes.map name).Nodup) (σ : Store) :
    ∃ σ', Runs σ (.form blockTag [around axes (.call f ((axes.map name).map .name))]) (rounds axes)
      ((tuples axes).map (Call.mk f)) σ' := by
  have hgiven : ([] : List String).map σ = ([] : List Int).map some := rfl
  obtain ⟨σ', hrun, -⟩ := runs_around f axes hnames hgiven
  have hblock := Runs.cons hrun .nil
  rw [List.append_nil, Nat.add_zero] at hblock
  exact ⟨σ', hblock⟩

/-- The loop over an axis assigns its variable and what the body assigns. -/
theorem mem_assigned_lowerLoop {x : String} :
    x ∈ (Nest.lowerLoop a.head [body]).assigned ↔ x = a.name ∨ x ∈ body.assigned := by
  have hassigned : (Nest.lowerLoop a.head [body]).assigned =
      a.name :: (body.assigned ++ [a.name]) := by
    simp [lowerLoop_head, Expr.assigned, Expr.assignedAll, blockTag, whileTag, Arithmetic.ofUpdate?]
  rw [hassigned, List.mem_cons, List.mem_append, List.mem_singleton, or_comm (b := x = a.name),
    or_self_left]

/-- The loops around a call assign the variables of their axes. -/
theorem mem_assigned_around {axes : List Axis} {f : String} {args : List Expr} {x : String} :
    x ∈ (around axes (.call f args)).assigned ↔ x ∈ axes.map name := by
  induction axes with
  | nil => simp [around, Expr.assigned]
  | cons a axes ih =>
    rw [around, List.foldr_cons, ← around, mem_assigned_lowerLoop, ih, List.map_cons, List.mem_cons]

theorem mem_assigned_grid {axes : List Axis} {f : String} {args : List Expr} {x : String} :
    x ∈ (Expr.form blockTag [around axes (.call f args)]).assigned ↔ x ∈ axes.map name := by
  have hblock : (Expr.form blockTag [around axes (.call f args)]).assigned
      = (around axes (.call f args)).assigned := by
    simp [Expr.assigned, Expr.assignedAll]
  rw [hblock, mem_assigned_around]

end Axis
end LoopNest
