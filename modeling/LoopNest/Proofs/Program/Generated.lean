import LoopNest.Proofs.Program.Meaning
import LoopNest.Proofs.Program.Quiet

/-!
# What a generated function does

A generated function does what the tree does that it was generated from, and then one thing more:
where the last statement stores something, its target is evaluated a second time, for the result.
So a call in the index of a last assignment is made twice.  A last statement that is only an
expression is evaluated once, and a loop or a block in the last place returns nothing.

## Calls

The functions are the caller's and may do anything to the world, also differently the next time.
`recorded` makes every function write down its name and its arguments before it does what it does,
so that the log shows the calls in order.

* `Functions.recorded`: functions that write down their calls.
* `Source.again`: what is evaluated a second time.
* `Program.run_once`, `Program.run_again`: a generated function is its tree, or its tree and one
  evaluation more.
* `Program.run_recorded`: the calls of a generated function against those of its tree.
-/

namespace LoopNest

/-! ## Calls on record -/

/-- The function under a name, which first writes down that it is called and with what. -/
def Callable.recording (x : String) (f : Callable) : Callable := fun args => do
  modify fun w => { w with log := w.log ++ [.list (.text x :: args.map w.memory.snapshot)] }
  f args

/-- All functions of a program, each of which writes down its calls. -/
def Functions.recorded (given : Functions) : Functions :=
  ⟨(given.entries ++ standard.entries).map fun entry =>
    (entry.1, Callable.recording entry.1 entry.2)⟩

/-- The world with the inputs of a run. -/
def World.given (w : World) (inputs : NameMap Value) : World := { w with locals := inputs }

namespace Source

/-- Where a statement stores something, unless it is a loop, a block or an expression. -/
def storedIn : Expr → Option Expr
  | .assign t _ => some t
  | .form tag args => if updateTags.contains tag then args.head? else none
  | _ => none

/-- What is evaluated once more for the result: where the last statement stores something. -/
def again (es : List Expr) : Option Expr := es.getLast?.bind storedIn

/-! ## The statements of a tree -/

theorem execute_flatten (scope : Scope) (body : Expr) :
    Expr.executeAll scope (flatten body) = Expr.execute scope body := by
  unfold flatten
  split
  · split
    · next htag => rw [htag, Program.execute_block]
    · exact Program.executeAll_single scope _
  · exact Program.executeAll_single scope _

theorem assigned_flatten (body : Expr) : Expr.assignedAll (flatten body) = body.assigned := by
  have hsingle : ∀ e : Expr, Expr.assignedAll [e] = e.assigned := fun e => by
    simp [Expr.assignedAll]
  unfold flatten
  split
  · split
    · next htag => rw [htag, Program.assigned_block]
    · exact hsingle _
  · exact hsingle _

theorem areFaithful_flatten {body : Expr} (h : Program.isFaithful body = true) :
    Program.areFaithful (flatten body) = true := by
  have hsingle : ∀ {e : Expr}, Program.isFaithful e = true → Program.areFaithful [e] = true :=
    fun he =>
    Program.areFaithful_cons.mpr ⟨he, rfl⟩
  unfold flatten
  split
  · split
    · exact h
    · exact hsingle h
  · exact hsingle h

/-- The tag of an expression is none of a statement. -/
theorem tag_of_not_stands {tag : String} {args : List Expr} (h : stands (.form tag args) = false) :
    updateTags.contains tag = false ∧ tag ≠ blockTag ∧ tag ≠ whileTag := by
  simp only [stands, Bool.or_eq_false_iff, decide_eq_false_iff_not] at h
  exact ⟨h.1.1, h.1.2, h.2⟩

theorem ofUpdate?_of_not_contains {tag : String} (h : updateTags.contains tag = false) :
    Arithmetic.ofUpdate? tag = none := by
  unfold Arithmetic.ofUpdate?
  split
  all_goals first | rfl | exact absurd h (by decide)

theorem returnedFor_of_not_stands {e : Expr} (h : stands e = false) : returnedFor e = some e := by
  cases e with
  | assign t value => cases h
  | form tag args =>
    obtain ⟨hupdate, hblock, hwhile⟩ := tag_of_not_stands h
    unfold returnedFor
    dsimp only
    rw [hupdate, if_neg (by decide), if_neg (by simp [hblock, hwhile])]
  | _ => rfl

theorem storedIn_of_not_stands {e : Expr} (h : stands e = false) : storedIn e = none := by
  cases e with
  | assign t value => cases h
  | form tag args =>
    rw [storedIn, (tag_of_not_stands h).1, if_neg (by decide)]
  | _ => rfl

theorem storedIn_of_stands {e : Expr} (h : stands e = true) : storedIn e = returnedFor e := by
  cases e with
  | assign t value => rfl
  | form tag args =>
    simp only [stands, Bool.or_assoc, Bool.or_eq_true] at h
    unfold storedIn returnedFor
    dsimp only
    cases hupdate : updateTags.contains tag with
    | true => rfl
    | false =>
      have hloop := h.resolve_left (by rw [hupdate]; decide)
      rw [if_pos (Bool.or_eq_true_iff.mpr hloop)]
  | _ => cases h

/-- All statements stand in front of the last line, or all but the last, which then is an
expression. -/
theorem standing_cases (es : List Expr) :
    (standing es = es ∧ again es = returned es) ∨
      ∃ e, stands e = false ∧ es = standing es ++ [e] ∧ returned es = some e ∧ again es = none := by
  induction es with
  | nil => exact .inl ⟨rfl, rfl⟩
  | cons e es ih =>
    cases es with
    | nil =>
      cases hstands : stands e with
      | true => exact .inl ⟨by simp [standing, hstands], storedIn_of_stands hstands⟩
      | false =>
        exact .inr ⟨e, hstands, by simp [standing, hstands], returnedFor_of_not_stands hstands,
          storedIn_of_not_stands hstands⟩
    | cons e' es =>
      have hagain : again (e :: e' :: es) = again (e' :: es) := by simp [again]
      have hreturned : returned (e :: e' :: es) = returned (e' :: es) := by simp [returned]
      have hstanding : standing (e :: e' :: es) = e :: standing (e' :: es) := by simp [standing]
      rw [hagain, hreturned, hstanding]
      rcases ih with ⟨hes, hlast⟩ | ⟨last, hlast, hes, hrest⟩
      · exact .inl ⟨by rw [hes], hlast⟩
      · exact .inr ⟨last, hlast, by rw [List.cons_append, ← hes], hrest⟩

theorem execute_of_not_stands (scope : Scope) {e : Expr} (h : stands e = false) :
    Expr.execute scope e = discard (Expr.evaluate scope e) := by
  cases e with
  | assign t value => cases h
  | form tag args =>
    obtain ⟨hupdate, hblock, hwhile⟩ := tag_of_not_stands h
    unfold Expr.execute
    rw [if_neg hblock, if_neg hwhile, ofUpdate?_of_not_contains hupdate]
  | _ => rfl

theorem assigned_of_not_stands {e : Expr} (h : stands e = false) : e.assigned = [] := by
  cases e with
  | assign t value => cases h
  | form tag args =>
    obtain ⟨hupdate, hblock, hwhile⟩ := tag_of_not_stands h
    unfold Expr.assigned
    rw [if_neg (by simp [hblock, hwhile]), ofUpdate?_of_not_contains hupdate]
  | _ => rfl

theorem assigned_standing (es : List Expr) :
    Expr.assignedAll (standing es) = Expr.assignedAll es := by
  rcases standing_cases es with ⟨hstanding, -⟩ | ⟨e, hstands, hes, -⟩
  · rw [hstanding]
  · have hassigned : Expr.assignedAll [e] = [] := by
      rw [Expr.assignedAll, assigned_of_not_stands hstands]
      rfl
    conv_rhs => rw [hes, Program.assignedAll_append, hassigned, List.append_nil]

end Source

namespace Program

theorem areFaithful_iff {es : List Expr} :
    areFaithful es = true ↔ ∀ e ∈ es, isFaithful e = true := by
  induction es with
  | nil => simp [areFaithful]
  | cons e es ih => rw [areFaithful_cons, List.forall_mem_cons, ih]

/-- What is returned is a part of the last statement. -/
theorem isFaithful_returned {es : List Expr} (h : areFaithful es = true) {e : Expr}
    (he : Source.returned es = some e) :
    isFaithful e = true := by
  obtain ⟨last, hlast, he⟩ := Option.bind_eq_some_iff.mp he
  have hfaithful := areFaithful_iff.mp h last (List.mem_of_getLast? hlast)
  cases last with
  | assign t value =>
    cases he
    exact (Bool.and_eq_true_iff.mp hfaithful).1
  | form tag args =>
    unfold Source.returnedFor at he
    dsimp only at he
    split at he
    · exact areFaithful_iff.mp hfaithful e (List.mem_of_head? he)
    · split at he
      · cases he
      · cases he
        exact hfaithful
  | _ =>
    cases he
    exact hfaithful

theorem areFaithful_standing {es : List Expr} (h : areFaithful es = true) :
    areFaithful (Source.standing es) = true := by
  rcases Source.standing_cases es with ⟨hstanding, -⟩ | ⟨e, -, hes, -⟩
  · rwa [hstanding]
  · rw [areFaithful_iff] at h ⊢
    intro e' he'
    exact h e' (by rw [hes]; exact List.mem_append_left _ he')

/-! ## Runs -/

/-- The inputs are given for just the parameters. -/
def fits (params : List String) (inputs : NameMap Value) : Bool :=
  params.all inputs.contains && inputs.names.all params.contains

/-- The value that is returned: nothing, or that of an expression. -/
def resultOf (scope : Scope) : Option Expr → Step Value
  | none => return .nothing
  | some e => e.evaluate scope

theorem evaluate_rereadResult (scope : Scope) {result : Option Expr}
    (h : ∀ e, result = some e → isFaithful e = true) :
    (rereadResult result).evaluate scope = resultOf scope result := by
  cases result with
  | none => rfl
  | some e => exact evaluate_closed scope (h e rfl)

theorem discard_eq {α : Type} (s : Step α) : discard s = (s >>= fun _ => pure ()) := by
  simp [Functor.discard, map_const]

theorem discard_bind {α β : Type} (s : Step α) (f : α → Step β) :
    discard (s >>= f) = s >>= fun a => discard (f a) := by
  simp only [discard_eq, bind_assoc]

theorem run_of_discard_error {α : Type} {s : Step α} {w w₁ : World} {fault : Fault}
    (h : (discard s).run w = .error fault w₁) : s.run w = .error fault w₁ := by
  rw [discard_eq, EStateM.run_bind] at h
  cases hrun : s.run w with
  | ok a w' =>
    rw [hrun] at h
    cases h
  | error fault' w' =>
    rw [hrun] at h
    cases h
    rfl

theorem run_of_discard_ok {α : Type} {s : Step α} {w w₁ : World}
    (h : (discard s).run w = .ok () w₁) :
    ∃ a, s.run w = .ok a w₁ := by
  rw [discard_eq] at h
  obtain ⟨a, w', hrun, h⟩ := run_bind_eq_ok_iff.mp h
  cases h
  exact ⟨a, hrun⟩

variable {name : String} {params : List String} {body : Expr} {source : String} {program : Program}

/-- A generated function runs the statements in front of its last line, and then answers what that
line returns. -/
theorem run_eq (hsource : Source.function name params body = .ok source)
    (hread : read? source = some program) (hparams : ∀ x ∈ params, nameOf x = x)
    (hfaithful : isFaithful body = true) (functions : Functions) (limit : Nat)
    {inputs : NameMap Value} (hinputs : fits params inputs = true) :
    program.runWithin limit functions inputs = (do
      modify fun w => w.given inputs
      Expr.executeAll ⟨params ++ body.assigned, functions, limit⟩
        (Source.standing (Source.flatten body))
      resultOf ⟨params ++ body.assigned, functions, limit⟩
        (Source.returned (Source.flatten body))) := by
  obtain ⟨hparameters, hbody, hresult⟩ := read?_function hsource hread
  have hstatements := Source.areFaithful_flatten hfaithful
  have hsame := same_outlineAll _ (areFaithful_standing hstatements) hbody
  have hnames : params.map nameOf = params :=
    (List.map_congr_left hparams).trans (List.map_id' params)
  have hscope : program.scope functions limit = ⟨params ++ body.assigned, functions, limit⟩ := by
    rw [Program.scope, hparameters, hnames, hsame.names, assigned_block, Source.assigned_standing,
      Source.assigned_flatten]
  have heffect := hsame.effect ⟨params ++ body.assigned, functions, limit⟩
  rw [execute_block] at heffect
  unfold fits at hinputs
  rw [runWithin, hparameters, hnames, if_pos hinputs, hscope, hresult]
  dsimp only
  rw [heffect, evaluate_rereadResult _ fun e he => isFaithful_returned hstatements he]
  rfl

/-- A last statement that is an expression is evaluated once, and a loop or a block in the last
place is run once. -/
theorem run_once (hsource : Source.function name params body = .ok source)
    (hread : read? source = some program) (hparams : ∀ x ∈ params, nameOf x = x)
    (hfaithful : isFaithful body = true) (functions : Functions) (limit : Nat)
    {inputs : NameMap Value} (hinputs : fits params inputs = true)
    (hagain : Source.again (Source.flatten body) = none) :
    discard (program.runWithin limit functions inputs) = (do
      modify fun w => w.given inputs
      body.execute ⟨params ++ body.assigned, functions, limit⟩) := by
  rw [run_eq hsource hread hparams hfaithful functions limit hinputs, ← Source.execute_flatten]
  rcases Source.standing_cases (Source.flatten body) with ⟨hstanding, hreturned⟩
    | ⟨e, hstands, hes, hreturned, -⟩
  · rw [hstanding, ← hreturned, hagain, discard_bind]
    refine congrArg (modify _ >>= ·) (funext fun _ => ?_)
    rw [discard_bind]
    exact bind_pure _
  · conv_rhs => rw [hes]
    rw [executeAll_append, executeAll_single, Source.execute_of_not_stands _ hstands, hreturned,
      discard_bind]
    refine congrArg (modify _ >>= ·) (funext fun _ => ?_)
    exact discard_bind _ _

/-- What a last statement stores into is evaluated once more, after all the statements. -/
theorem run_again (hsource : Source.function name params body = .ok source)
    (hread : read? source = some program) (hparams : ∀ x ∈ params, nameOf x = x)
    (hfaithful : isFaithful body = true) (functions : Functions) (limit : Nat)
    {inputs : NameMap Value} (hinputs : fits params inputs = true) {t : Expr}
    (hagain : Source.again (Source.flatten body) = some t) :
    program.runWithin limit functions inputs = (do
      modify fun w => w.given inputs
      body.execute ⟨params ++ body.assigned, functions, limit⟩
      t.evaluate ⟨params ++ body.assigned, functions, limit⟩) := by
  rw [run_eq hsource hread hparams hfaithful functions limit hinputs, ← Source.execute_flatten]
  rcases Source.standing_cases (Source.flatten body) with ⟨hstanding, hreturned⟩
    | ⟨e, -, -, -, hnone⟩
  · rw [hstanding, ← hreturned, hagain]
    rfl
  · cases hnone.symm.trans hagain

/-- **The calls of a generated function**, of which every function keeps a record.  Where the tree
stops at a fault, the function stops at the same fault and leaves the same world.  Where the tree
runs to its end, the function goes on from the world that the tree leaves: it returns, unless the
last statement stores something.  Then it evaluates once more where that is stored, which makes no
call if no call is written there. -/
theorem run_recorded (hsource : Source.function name params body = .ok source)
    (hread : read? source = some program) (hparams : ∀ x ∈ params, nameOf x = x)
    (hfaithful : isFaithful body = true) (functions : Functions) (limit : Nat)
    {inputs : NameMap Value} (hinputs : fits params inputs = true) (w : World) :
    (∀ fault w₁,
        (body.execute ⟨params ++ body.assigned, functions.recorded, limit⟩).run (w.given inputs)
          = .error fault w₁ →
        (program.runWithin limit functions.recorded inputs).run w = .error fault w₁) ∧
      ∀ w₁,
        (body.execute ⟨params ++ body.assigned, functions.recorded, limit⟩).run (w.given inputs)
          = .ok () w₁ →
        (Source.again (Source.flatten body) = none →
          ∃ value, (program.runWithin limit functions.recorded inputs).run w = .ok value w₁) ∧
        ∀ t, Source.again (Source.flatten body) = some t →
          (program.runWithin limit functions.recorded inputs).run w =
            (t.evaluate ⟨params ++ body.assigned, functions.recorded, limit⟩).run w₁ ∧
          (t.isCallFree = true →
            (World.ended ((program.runWithin limit functions.recorded inputs).run w)).log
              = w₁.log) := by
  -- the two forms of the last statement, each as an equation between the function and its tree
  have hnone : Source.again (Source.flatten body) = none →
      (discard (program.runWithin limit functions.recorded inputs)).run w = (body.execute
        ⟨params ++ body.assigned, functions.recorded, limit⟩).run (w.given inputs) := fun h =>
    congrArg (fun s : Step Unit => s.run w)
      (run_once hsource hread hparams hfaithful functions.recorded limit hinputs h)
  have hsome : ∀ t, Source.again (Source.flatten body) = some t →
      (program.runWithin limit functions.recorded inputs).run w = (do
        body.execute ⟨params ++ body.assigned, functions.recorded, limit⟩
        t.evaluate ⟨params ++ body.assigned, functions.recorded, limit⟩ : Step Value).run
          (w.given inputs) := fun t h =>
    congrArg (fun s : Step Value => s.run w)
      (run_again hsource hread hparams hfaithful functions.recorded limit hinputs h)
  refine ⟨fun fault w₁ htree => ?_, fun w₁ htree => ⟨fun hagain => ?_, fun t hagain => ?_⟩⟩
  · cases hagain : Source.again (Source.flatten body) with
    | none => exact run_of_discard_error ((hnone hagain).trans htree)
    | some t => exact (hsome t hagain).trans (run_bind_of_error _ htree)
  · exact run_of_discard_ok ((hnone hagain).trans htree)
  · have hrun : (program.runWithin limit functions.recorded inputs).run w =
        (t.evaluate ⟨params ++ body.assigned, functions.recorded, limit⟩).run w₁ :=
      (hsome t hagain).trans (run_bind_of_ok _ htree)
    refine ⟨hrun, fun hfree => ?_⟩
    rw [hrun]
    exact Expr.quiet_evaluate _ t hfree w₁

/-- A loop that fills a list with what `g` answers, and an update of an element. -/
def filling : Expr :=
  .form blockTag [
    .assign (.name "i") (.literal (.int 0)),
    .form whileTag [
      .call "<" [.name "i", .literal (.int 2)],
      .form blockTag [
        .assign (.form refTag [.name "a", .name "i"]) (.call "g" [.name "i"]),
        .form "+=" [.name "i", .literal (.int 1)]]],
    .form "-=" [.form refTag [.name "a", .literal (.int 1)], .literal (.int 3)]]

/-- A list of two numbers in the memory, and nothing in the log. -/
def pair : World := ⟨#[.list #[.number .plain (.int 1), .number .plain (.int 2)]], .empty, []⟩

/-- The filled list is given as `a`, and `g` adds a hundred: it is called for each element, in
order, and the element that is returned costs no further call. -/
theorem run_recorded_filling :
    ∃ source program w₁, Source.function "k" ["a"] filling = .ok source ∧
      read? source = some program ∧
      (filling.execute ⟨["a"] ++ filling.assigned,
        Functions.recorded ⟨[("g", Recorder.addHundred.callable)]⟩, iterationLimit⟩).run
          (pair.given ⟨[("a", .list 0)]⟩) = .ok () w₁ ∧
      w₁.log = [.list [.text "g", .number (.int 0)], .list [.text "g", .number (.int 1)]] ∧
      (World.ended ((program.run (Functions.recorded ⟨[("g", Recorder.addHundred.callable)]⟩)
        ⟨[("a", .list 0)]⟩).run pair)).log
        = [.list [.text "g", .number (.int 0)], .list [.text "g", .number (.int 1)]] := by
  have hsource : Source.function "k" ["a"] filling = .ok _ := rfl
  obtain ⟨program, hread⟩ := Option.isSome_iff_exists.mp
    (show ((Source.function "k" ["a"] filling).toOption.bind read?).isSome = true by decide +kernel)
  have hinputs : fits ["a"] ⟨[("a", .list 0)]⟩ = true := rfl
  have hrun := run_recorded hsource hread (by decide +kernel) (by decide +kernel)
    ⟨[("g", Recorder.addHundred.callable)]⟩ iterationLimit hinputs pair
  refine ⟨_, program, _, hsource, hread, rfl, rfl, ?_⟩
  exact ((hrun.2 _ rfl).2 _ rfl).2 rfl

/-- The last statement stores into an element, and a call tells which. -/
def marking : Expr :=
  .assign (.form refTag [.name "a", .call "g" [.literal (.int 0)]]) (.literal (.int 5))

/-- The integer that an entry of the log is. -/
def entry? : Datum → Option Int
  | .number (.int n) => some n
  | _ => none

/-- The entries of the log after a computation that returns, if they all are integers. -/
def entries? {α : Type} : EStateM.Result Fault World α → Option (List Int)
  | .ok _ w => w.log.mapM entry?
  | .error _ _ => none

/-- The call in the index of a last assignment is made twice: here `g` writes down what it is
given. -/
theorem run_marking :
    ∃ source program, Source.function "k" ["a"] marking = .ok source ∧ read? source = some program ∧
      entries? ((marking.execute
        ⟨["a"] ++ marking.assigned, ⟨[("g", Recorder.echo.callable)]⟩, iterationLimit⟩).run
          (pair.given ⟨[("a", .list 0)]⟩)) = some [0] ∧
      entries? ((program.run ⟨[("g", Recorder.echo.callable)]⟩ ⟨[("a", .list 0)]⟩).run pair)
        = some [0, 0] := by
  have hsource : Source.function "k" ["a"] marking = .ok _ := rfl
  obtain ⟨program, hread⟩ := Option.isSome_iff_exists.mp
    (show ((Source.function "k" ["a"] marking).toOption.bind read?).isSome = true by decide +kernel)
  have hinputs : fits ["a"] ⟨[("a", .list 0)]⟩ = true := rfl
  refine ⟨_, program, hsource, hread, by decide +kernel, ?_⟩
  rw [run, run_again hsource hread (by decide +kernel) (by decide +kernel) _ _ hinputs rfl]
  decide +kernel

end Program
end LoopNest
