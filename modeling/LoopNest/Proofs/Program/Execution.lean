import LoopNest.Program.Run
import LoopNest.Proofs.NameMap
import LoopNest.Proofs.Outcome
import Mathlib.Data.List.Basic
import Mathlib.Data.Option.Basic

/-!
# Execution on integers

The usual meaning of the statements that loops are lowered to, where all values are integers: an
assignment, an addition to a variable, a call, a block, and a loop that goes on while one integer is
at most another.  What a function does is left open; a run keeps a log of the calls.

`Runs` is a relation, so a statement that does not terminate has no run.  The evaluator of programs
ends a loop after a fixed number of rounds; up to that limit it does what a run does
(`Runs.execute`).

* `Runs`: how a statement runs, in so many rounds of its loops.
* `Runs.unique`: a statement has one run.
* `Runs.execute`: the evaluator does it too.
-/

namespace LoopNest

/-- What the variables stand for, as far as they have a value. -/
abbrev Store := String → Option Int

/-- A call of a function. -/
structure Call where
  callee : String
  arguments : List Int
  deriving DecidableEq

/-- The value of a variable or of an integer. -/
def Expr.operand? (σ : Store) : Expr → Option Int
  | .name x => σ x
  | .literal (.int z) => some z
  | _ => none

/-- `Runs σ e rounds log σ'`: from the store `σ` the statement `e` ends with the store `σ'` after so
many rounds of its loops, and makes the calls in the log. -/
inductive Runs : Store → Expr → Nat → List Call → Store → Prop where
  | assign {σ : Store} {x : String} {e : Expr} {z : Int} (he : e.operand? σ = some z) :
      Runs σ (.assign (.name x) e) 0 [] (Function.update σ x (some z))
  | add {σ : Store} {x : String} {e : Expr} {y z : Int} (hx : σ x = some y)
      (he : e.operand? σ = some z) :
      Runs σ (.form "+=" [.name x, e]) 0 [] (Function.update σ x (some (y + z)))
  | call {σ : Store} {f : String} {args : List Expr} {zs : List Int}
      (hargs : args.map (Expr.operand? σ) = zs.map some) : Runs σ (.call f args) 0 [⟨f, zs⟩] σ
  | nil {σ : Store} : Runs σ (.form blockTag []) 0 [] σ
  | cons {σ σ' σ'' : Store} {e : Expr} {es : List Expr} {rounds rounds' : Nat}
      {log log' : List Call}
      (hfirst : Runs σ e rounds log σ') (hrest : Runs σ' (.form blockTag es) rounds' log' σ'') :
      Runs σ (.form blockTag (e :: es)) (rounds + rounds') (log ++ log') σ''
  | stop {σ : Store} {a b body : Expr} {y z : Int} (ha : a.operand? σ = some y)
      (hb : b.operand? σ = some z) (hlt : z < y) :
      Runs σ (.form whileTag [.call "<=" [a, b], body]) 0 [] σ
  | again {σ σ' σ'' : Store} {a b body : Expr} {y z : Int} {rounds rounds' : Nat}
      {log log' : List Call} (ha : a.operand? σ = some y) (hb : b.operand? σ = some z) (hle : y ≤ z)
      (hbody : Runs σ body rounds log σ')
      (hrest : Runs σ' (.form whileTag [.call "<=" [a, b], body]) rounds' log' σ'') :
      Runs σ (.form whileTag [.call "<=" [a, b], body]) (rounds + rounds' + 1) (log ++ log') σ''

namespace Runs

variable {σ σ' σ'' : Store} {rounds rounds' : Nat} {log log' : List Call}

/-! ## How a statement ran

Tags are strings, so the statement is generalised before its run is split: what is left of the other
cases is an equation between different tags. -/

theorem of_assign {x : String} {e : Expr} (h : Runs σ (.assign (.name x) e) rounds log σ') :
    ∃ z, e.operand? σ = some z ∧ rounds = 0 ∧ log = [] ∧ σ' = Function.update σ x (some z) := by
  cases h with
  | assign he => exact ⟨_, he, rfl, rfl, rfl⟩

theorem of_call {f : String} {args : List Expr} (h : Runs σ (.call f args) rounds log σ') :
    ∃ zs, args.map (Expr.operand? σ) = zs.map some ∧ rounds = 0 ∧ log = [⟨f, zs⟩] ∧ σ' = σ := by
  cases h with
  | call hargs => exact ⟨_, hargs, rfl, rfl, rfl⟩

theorem of_add {x : String} {e : Expr} (h : Runs σ (.form "+=" [.name x, e]) rounds log σ') :
    ∃ y z, σ x = some y ∧ e.operand? σ = some z ∧ rounds = 0 ∧ log = [] ∧
      σ' = Function.update σ x (some (y + z)) := by
  generalize hs : Expr.form "+=" [.name x, e] = s at h
  cases h with
  | add hx he =>
    cases hs
    exact ⟨_, _, hx, he, rfl, rfl, rfl⟩
  | _ => simp [blockTag, whileTag] at hs

theorem of_nil (h : Runs σ (.form blockTag []) rounds log σ') : rounds = 0 ∧ log = [] ∧ σ' = σ := by
  generalize hs : Expr.form blockTag [] = s at h
  cases h with
  | nil => exact ⟨rfl, rfl, rfl⟩
  | _ => simp at hs

theorem of_cons {e : Expr} {es : List Expr} (h : Runs σ (.form blockTag (e :: es)) rounds log σ') :
    ∃ τ n n' l l', Runs σ e n l τ ∧ Runs τ (.form blockTag es) n' l' σ' ∧ rounds = n + n' ∧
      log = l ++ l' := by
  generalize hs : Expr.form blockTag (e :: es) = s at h
  cases h with
  | cons hfirst hrest =>
    cases hs
    exact ⟨_, _, _, _, _, hfirst, hrest, rfl, rfl⟩
  | _ => simp [blockTag, whileTag] at hs

/-- A loop ended, or made a round and went on. -/
theorem of_while {a b body : Expr}
    (h : Runs σ (.form whileTag [.call "<=" [a, b], body]) rounds log σ') :
    ∃ y z, a.operand? σ = some y ∧ b.operand? σ = some z ∧
      ((z < y ∧ rounds = 0 ∧ log = [] ∧ σ' = σ) ∨
        y ≤ z ∧ ∃ τ n n' l l', Runs σ body n l τ ∧
          Runs τ (.form whileTag [.call "<=" [a, b], body]) n' l' σ' ∧ rounds = n + n' + 1 ∧
          log = l ++ l') := by
  generalize hs : Expr.form whileTag [.call "<=" [a, b], body] = s at h
  cases h with
  | stop ha hb hlt =>
    cases hs
    exact ⟨_, _, ha, hb, .inl ⟨hlt, rfl, rfl, rfl⟩⟩
  | again ha hb hle hbody hrest =>
    cases hs
    exact ⟨_, _, ha, hb, .inr ⟨hle, _, _, _, _, _, hbody, hrest, rfl, rfl⟩⟩
  | _ => simp [blockTag, whileTag] at hs

/-- **A statement has one run.** -/
theorem unique {e : Expr} (h : Runs σ e rounds log σ') (h' : Runs σ e rounds' log' σ'') :
    rounds = rounds' ∧ log = log' ∧ σ' = σ'' := by
  induction h generalizing rounds' log' σ'' with
  | assign he =>
    obtain ⟨z, hz, rfl, rfl, rfl⟩ := h'.of_assign
    cases he.symm.trans hz
    exact ⟨rfl, rfl, rfl⟩
  | add hx he =>
    obtain ⟨y, z, hy, hz, rfl, rfl, rfl⟩ := h'.of_add
    cases hx.symm.trans hy
    cases he.symm.trans hz
    exact ⟨rfl, rfl, rfl⟩
  | call hargs =>
    obtain ⟨zs, hzs, rfl, rfl, rfl⟩ := h'.of_call
    have hsame := List.map_injective_iff.mpr (Option.some_injective Int) (hargs.symm.trans hzs)
    rw [hsame]
    exact ⟨rfl, rfl, rfl⟩
  | nil =>
    obtain ⟨rfl, rfl, rfl⟩ := h'.of_nil
    exact ⟨rfl, rfl, rfl⟩
  | cons hfirst hrest ihfirst ihrest =>
    obtain ⟨τ, n, n', l, l', hfirst', hrest', rfl, rfl⟩ := h'.of_cons
    obtain ⟨rfl, rfl, rfl⟩ := ihfirst hfirst'
    obtain ⟨rfl, rfl, rfl⟩ := ihrest hrest'
    exact ⟨rfl, rfl, rfl⟩
  | stop ha hb hlt =>
    obtain ⟨y, z, hy, hz, hcase⟩ := h'.of_while
    cases ha.symm.trans hy
    cases hb.symm.trans hz
    rcases hcase with ⟨-, rfl, rfl, rfl⟩ | ⟨hle, -⟩
    · exact ⟨rfl, rfl, rfl⟩
    · exact absurd hlt (Int.not_lt.mpr hle)
  | again ha hb hle hbody hrest ihbody ihrest =>
    obtain ⟨y, z, hy, hz, hcase⟩ := h'.of_while
    cases ha.symm.trans hy
    cases hb.symm.trans hz
    rcases hcase with ⟨hlt, -⟩ | ⟨-, τ, n, n', l, l', hbody', hrest', rfl, rfl⟩
    · exact absurd hlt (Int.not_lt.mpr hle)
    · obtain ⟨rfl, rfl, rfl⟩ := ihbody hbody'
      obtain ⟨rfl, rfl, rfl⟩ := ihrest hrest'
      exact ⟨rfl, rfl, rfl⟩

end Runs

/-! ## The evaluator -/

/-- An integer as a value. -/
def Value.ofInt (z : Int) : Value := .number .plain (.int z)

theorem Value.run_comparison_le (y z : Int) (w : World) :
    (Value.comparison .le (.ofInt y) (.ofInt z)).run w = .ok (.ofBool (decide (y ≤ z))) w := by
  have horder : Scalar.plainOrder (.int y) (.int z) = some (compare y z) := rfl
  have hle : (compare y z).isLE = decide (y ≤ z) := by
    rw [Bool.eq_iff_iff, Std.isLE_compare, decide_eq_true_iff]
  rw [Value.comparison, run_get_bind, Value.ofInt, Value.ofInt, Value.comparisonTo, horder, ← hle]
  rfl

theorem Value.run_update_add (y z : Int) (w : World) :
    (Value.update .add (.ofInt y) (.ofInt z)).run w = .ok (.ofInt (y + z)) w := rfl

/-- The name can be given a value in the scope. -/
def Scope.Assignable (scope : Scope) (x : String) : Prop :=
  x ≠ Program.fixedName ∧ scope.locals.contains x = true

/-- The world has the values of the store, under names that can have one. -/
def World.Holds (w : World) (scope : Scope) (σ : Store) : Prop :=
  ∀ x z, σ x = some z → scope.Assignable x ∧ w.locals.find? x = some (.ofInt z)

/-- The scope has a function for the call, which does nothing but put an entry into the log. -/
structure Scope.Records (scope : Scope) (entry : Call → Datum) (c : Call) : Prop where
  plain : Operator.isCall c.callee c.arguments.length = false
  foreign : c.callee ≠ Program.fixedName ∧ scope.locals.contains c.callee = false
  function : ∃ g, scope.functions.resolve? c.callee = some g ∧ ∀ w : World, ∃ v,
    (g (c.arguments.map Value.ofInt)).run w = .ok v { w with log := w.log ++ [entry c] }

theorem Datum.toldAll_ints {zs : List Int} (h : ∀ z ∈ zs, z.natAbs < Nat.pow 10 Number.digitLimit) :
    Datum.toldAll (zs.map fun z => .number (.int z)) = .ok (zs.map fun z => .number (.int z)) := by
  induction zs with
  | nil => rw [List.map_nil, Datum.toldAll]
  | cons z zs ih =>
    have hz : Datum.toldScalar (.int z) = .ok (.int z) := by
      rw [Datum.toldScalar, if_pos (h z List.mem_cons_self)]
    have hrest := ih fun y hy => h y (List.mem_cons_of_mem _ hy)
    rw [List.map_cons, Datum.toldAll, Datum.told, hz, hrest]
    rfl

/-- A recorder takes down all integers that can be handed out. -/
theorem Scope.records_of_recorder {scope : Scope} {f : String} {zs : List Int}
    (hplain : Operator.isCall f zs.length = false)
    (hforeign : f ≠ Program.fixedName ∧ scope.locals.contains f = false)
    (hf : scope.functions.resolve? f = some Recorder.record.callable)
    (hdigits : ∀ z ∈ zs, z.natAbs < Nat.pow 10 Number.digitLimit) :
    scope.Records (fun c => .list (c.arguments.map fun z => .number (.int z))) ⟨f, zs⟩ := by
  refine ⟨hplain, hforeign, _, hf, fun w => ⟨.nothing, ?_⟩⟩
  have hsnapshot : (zs.map Value.ofInt).map w.memory.snapshot
      = zs.map fun z => .number (.int z) := by
    simp [Memory.snapshot, Memory.snapshotTo, Value.ofInt]
  have htold : Datum.told (.list ((zs.map Value.ofInt).map w.memory.snapshot))
      = .ok (.list (zs.map fun z => .number (.int z))) := by
    rw [hsnapshot, Datum.told, Datum.toldAll_ints hdigits]
    rfl
  rw [Recorder.callable, Recorder.note, bind_assoc, run_get_bind, htold]
  rfl

/-- The world holds the store and has more entries in its log. -/
structure World.After (w w' : World) (scope : Scope) (σ : Store) (entries : List Datum) : Prop where
  holds : w'.Holds scope σ
  log : w'.log = w.log ++ entries
  memory : w'.memory = w.memory

section Evaluator

variable {scope : Scope} {entry : Call → Datum} {w w' w'' : World} {σ σ' : Store}

theorem World.Holds.after (hw : w.Holds scope σ) : w.After w scope σ [] :=
  ⟨hw, (List.append_nil _).symm, rfl⟩

theorem World.After.trans {entries entries' : List Datum} (h : w.After w' scope σ entries)
    (h' : w'.After w'' scope σ' entries') : w.After w'' scope σ' (entries ++ entries') :=
  ⟨h'.holds, by rw [h'.log, h.log, List.append_assoc], h'.memory.trans h.memory⟩

/-- A variable gets a value. -/
theorem World.Holds.assign (hw : w.Holds scope σ) {x : String} (hx : scope.Assignable x) (z : Int) :
    ∃ w', (World.assign x (.ofInt z)).run w = .ok () w' ∧
      w.After w' scope (Function.update σ x (some z)) [] := by
  refine ⟨{ w with locals := w.locals.insert x (.ofInt z) }, rfl, ?_, (List.append_nil _).symm, rfl⟩
  intro y v hy
  by_cases hyx : y = x
  · subst hyx
    rw [Function.update_self] at hy
    cases hy
    exact ⟨hx, by simp⟩
  · rw [Function.update_of_ne hyx] at hy
    obtain ⟨hassignable, hfind⟩ := hw y v hy
    exact ⟨hassignable, by simp [hyx, hfind]⟩

namespace Expr

theorem run_evaluate_name (hw : w.Holds scope σ) {x : String} {z : Int} (hx : σ x = some z) :
    (scope.lookup x).run w = .ok (.ofInt z) w := by
  obtain ⟨⟨hfixed, hlocal⟩, hfind⟩ := hw x z hx
  rw [Scope.lookup, if_neg hfixed, if_pos hlocal, run_get_bind, hfind]
  rfl

theorem run_evaluate (hw : w.Holds scope σ) {e : Expr} {z : Int} (he : e.operand? σ = some z) :
    (e.evaluate scope).run w = .ok (.ofInt z) w := by
  cases e with
  | name x => rw [evaluate]; exact run_evaluate_name hw he
  | literal v =>
    cases v with
    | int n =>
      cases he
      rw [evaluate]
      rfl
    | _ => cases he
  | _ => cases he

theorem run_evaluateAll (hw : w.Holds scope σ) {es : List Expr} {zs : List Int}
    (h : es.map (operand? σ) = zs.map some) :
    (evaluateAll scope es).run w = .ok (zs.map .ofInt) w := by
  induction es generalizing zs with
  | nil =>
    cases zs with
    | nil => rw [evaluateAll]; rfl
    | cons z zs => cases h
  | cons e es ih =>
    cases zs with
    | nil => cases h
    | cons z zs =>
      rw [List.map_cons, List.map_cons, List.cons.injEq] at h
      rw [evaluateAll, run_bind_of_ok _ (run_evaluate hw h.1), run_bind_of_ok _ (ih h.2)]
      rfl

/-- The condition of a loop. -/
theorem run_condition (hw : w.Holds scope σ) {a b : Expr} {y z : Int} (ha : a.operand? σ = some y)
    (hb : b.operand? σ = some z) :
    (do (← evaluate scope (.call "<=" [a, b])).truth : Step Bool).run w
      = .ok (decide (y ≤ z)) w := by
  have hboth : [a, b].map (operand? σ) = [y, z].map some := by simp [ha, hb]
  have hcall : (evaluate scope (.call "<=" [a, b])).run w = .ok (.ofBool (decide (y ≤ z))) w := by
    have hoperator : Operator.isCall "<=" [a, b].length = true := rfl
    rw [evaluate, if_pos hoperator, run_bind_of_ok _ (run_evaluateAll hw hboth)]
    exact Value.run_comparison_le y z w
  rw [run_bind_of_ok _ hcall]
  rfl

/-- A call that is recorded. -/
theorem run_call (hw : w.Holds scope σ) {f : String} {args : List Expr} {zs : List Int}
    (hargs : args.map (operand? σ) = zs.map some) (hrecords : scope.Records entry ⟨f, zs⟩) :
    ∃ w', (execute scope (.call f args)).run w = .ok () w' ∧
      w.After w' scope σ [entry ⟨f, zs⟩] := by
  obtain ⟨hplain, ⟨hfixed, hlocal⟩, g, hg, hrun⟩ := hrecords
  obtain ⟨v, hv⟩ := hrun w
  have hlength : args.length = zs.length := by simpa using congrArg List.length hargs
  have hlookup : (scope.lookup f).run w = .ok (.function f) w := by
    rw [Scope.lookup, if_neg hfixed, if_neg (by rw [hlocal]; exact Bool.false_ne_true), hg]
    rfl
  have hcall : (scope.call (.function f) (zs.map .ofInt)).run w
      = .ok v { w with log := w.log ++ [entry ⟨f, zs⟩] } := by
    rw [Scope.call, hg]
    exact hv
  refine ⟨{ w with log := w.log ++ [entry ⟨f, zs⟩] }, ?_, ⟨hw, rfl, rfl⟩⟩
  rw [← hlength] at hplain
  have heval : (evaluate scope (.call f args)).run w
      = .ok v { w with log := w.log ++ [entry ⟨f, zs⟩] } := by
    rw [evaluate, if_neg (by rw [hplain]; exact Bool.false_ne_true), run_bind_of_ok _ hlookup,
      run_bind_of_ok _ (run_evaluateAll hw hargs), hcall]
  simp only [execute]
  exact run_bind_of_ok _ heval

theorem assigned_cons (e : Expr) (es : List Expr) :
    (Expr.form blockTag (e :: es)).assigned = e.assigned ++ (Expr.form blockTag es).assigned := by
  simp [assigned, assignedAll]

/-- The effect of a statement, where the loop that it may be has so many rounds left. -/
def executeWithin (scope : Scope) (fuel : Nat) : Expr → Step Unit
  | .form tag [condition, body] =>
      if tag = whileTag then
        iterate fuel (do (← evaluate scope condition).truth) (execute scope body)
      else execute scope (.form tag [condition, body])
  | e => execute scope e

theorem executeWithin_limit (e : Expr) : e.executeWithin scope scope.limit = e.execute scope := by
  unfold executeWithin
  split
  · rename_i tag condition body
    split
    · rename_i htag
      rw [execute, htag, if_neg (by decide), if_pos rfl]
    · rfl
  · rfl

theorem executeWithin_block (fuel : Nat) (es : List Expr) :
    (Expr.form blockTag es).executeWithin scope fuel = executeAll scope es := by
  have hblock : execute scope (.form blockTag es) = executeAll scope es := by
    unfold execute
    exact if_pos rfl
  unfold executeWithin
  split
  · rename_i heq
    cases heq
    rw [if_neg (by decide), hblock]
  · exact hblock

theorem executeWithin_while (fuel : Nat) (condition body : Expr) :
    (Expr.form whileTag [condition, body]).executeWithin scope fuel
      = iterate fuel (do (← evaluate scope condition).truth) (execute scope body) := by
  rw [executeWithin, if_pos rfl]

end Expr

/-- **The evaluator** does what a statement does on integers, as long as its loops make fewer rounds
than the limit and its calls are recorded. -/
theorem Runs.execute {e : Expr} {rounds : Nat} {log : List Call} (h : Runs σ e rounds log σ')
    (hassigned : ∀ x ∈ e.assigned, scope.Assignable x) (hlog : ∀ c ∈ log, scope.Records entry c)
    (hrounds : rounds < scope.limit) (hw : w.Holds scope σ) :
    ∃ w', (e.execute scope).run w = .ok () w' ∧ w.After w' scope σ' (log.map entry) := by
  -- the rounds that a loop has left shrink along its run, so they are kept apart from the limit
  suffices hfuel : ∀ fuel, rounds < fuel → fuel ≤ scope.limit →
      ∃ w', (e.executeWithin scope fuel).run w = .ok () w' ∧
        w.After w' scope σ' (log.map entry) by
    rw [← Expr.executeWithin_limit]
    exact hfuel scope.limit hrounds (Nat.le_refl _)
  clear hrounds
  induction h generalizing w with
  | @assign σ x e z he =>
    intro fuel _ _
    obtain ⟨w', hassign, hafter⟩ := hw.assign (hassigned x (by simp [Expr.assigned])) z
    refine ⟨w', ?_, hafter⟩
    rw [Expr.executeWithin, Expr.execute, run_bind_of_ok _ (Expr.run_evaluate hw he)]
    · exact hassign
    · simp
  | @add σ x e y z hx he =>
    intro fuel _ _
    have hmem : x ∈ (Expr.form "+=" [.name x, e]).assigned := by
      simp [Expr.assigned, blockTag, whileTag, Arithmetic.ofUpdate?]
    obtain ⟨w', hassign, hafter⟩ := hw.assign (hassigned x hmem) (y + z)
    refine ⟨w', ?_, hafter⟩
    have hexecute : (Expr.form "+=" [.name x, e]).executeWithin scope fuel
        = Expr.updateAt scope .add (.name x) e := by
      rw [Expr.executeWithin, if_neg (by decide), Expr.execute, if_neg (by decide),
        if_neg (by decide)]
      rfl
    rw [hexecute, Expr.updateAt, run_bind_of_ok _ (Expr.run_evaluate_name hw hx),
      run_bind_of_ok _ (Expr.run_evaluate hw he), run_bind_of_ok _ (Value.run_update_add y z w)]
    exact hassign
  | call hargs =>
    intro fuel _ _
    exact Expr.run_call hw hargs (hlog _ List.mem_cons_self)
  | nil =>
    intro fuel _ _
    exact ⟨w, rfl, hw.after⟩
  | @cons σ σ' σ'' e es rounds rounds' log log' hfirst hrest ihfirst ihrest =>
    intro fuel hlt hle
    rw [Expr.assigned_cons, List.forall_mem_append] at hassigned
    obtain ⟨hlogFirst, hlogRest⟩ := List.forall_mem_append.mp hlog
    obtain ⟨u, hu, hafter⟩ :=
      ihfirst hassigned.1 hlogFirst hw scope.limit (by omega) (Nat.le_refl _)
    obtain ⟨w', hw', hafter'⟩ := ihrest hassigned.2 hlogRest hafter.holds fuel (by omega) hle
    rw [Expr.executeWithin_limit] at hu
    rw [Expr.executeWithin_block] at hw'
    refine ⟨w', ?_, ?_⟩
    · rw [Expr.executeWithin_block, Expr.executeAll, run_bind_of_ok _ hu]
      exact hw'
    · rw [List.map_append]
      exact hafter.trans hafter'
  | @stop σ a b body y z ha hb hlt =>
    intro fuel hpos _
    obtain ⟨fuel, rfl⟩ := Nat.exists_eq_succ_of_ne_zero (Nat.ne_of_gt hpos)
    have hcondition := Expr.run_condition hw ha hb
    rw [decide_eq_false (Int.not_le.mpr hlt)] at hcondition
    refine ⟨w, ?_, hw.after⟩
    rw [Expr.executeWithin_while, iterate, run_bind_of_ok _ hcondition]
    rfl
  | @again σ σ' σ'' a b body y z rounds rounds' log log' ha hb hle hbody hrest ihbody ihrest =>
    intro fuel hlt hlimit
    obtain ⟨fuel, rfl⟩ := Nat.exists_eq_succ_of_ne_zero (Nat.ne_of_gt (Nat.zero_lt_of_lt hlt))
    have hcondition := Expr.run_condition hw ha hb
    rw [decide_eq_true hle] at hcondition
    have hassignedBody : ∀ x ∈ body.assigned, scope.Assignable x := fun x hx =>
      hassigned x (by simp [Expr.assigned, Expr.assignedAll, hx])
    obtain ⟨hlogBody, hlogRest⟩ := List.forall_mem_append.mp hlog
    obtain ⟨u, hu, hafter⟩ :=
      ihbody hassignedBody hlogBody hw scope.limit (by omega) (Nat.le_refl _)
    obtain ⟨w', hw', hafter'⟩ := ihrest hassigned hlogRest hafter.holds fuel (by omega) (by omega)
    rw [Expr.executeWithin_limit] at hu
    rw [Expr.executeWithin_while] at hw'
    refine ⟨w', ?_, ?_⟩
    · rw [Expr.executeWithin_while, iterate, run_bind_of_ok _ hcondition, if_pos rfl,
        run_bind_of_ok _ hu]
      exact hw'
    · rw [List.map_append]
      exact hafter.trans hafter'

end Evaluator
end LoopNest
