import LoopNest.Program.Run
import LoopNest.Proofs.Outcome
import Mathlib.Tactic.Common

/-!
# Computations that leave the log alone

Only the functions of a caller write into the log.  Names, constants, operators and elements read
the world, and at most add cells to the memory, so an expression without a call leaves the log as it
was, also where it stops at a fault.

* `Step.Quiet`: a computation that leaves the log as it is.
* `Expr.isCallFree`: an expression that calls no function.
* `Expr.quiet_evaluate`: such an expression leaves the log as it is.
-/

namespace LoopNest

/-- The world that a computation leaves behind. -/
def World.ended {α : Type} : EStateM.Result Fault World α → World
  | .ok _ w => w
  | .error _ w => w

namespace Step

variable {α β : Type}

/-- The computation leaves the log as it is, whether it returns or not. -/
def Quiet (s : Step α) : Prop := ∀ w, (World.ended (s.run w)).log = w.log

namespace Quiet

theorem pure (a : α) : Quiet (Pure.pure a) := fun _ => rfl

theorem throw (fault : Fault) : Quiet (MonadExcept.throw fault : Step α) := fun _ => rfl

theorem get : Quiet (MonadState.get : Step World) := fun _ => rfl

theorem bind {s : Step α} {f : α → Step β} (hs : Quiet s) (hf : ∀ a, Quiet (f a)) :
    Quiet (s >>= f) := by
  intro w
  have hw := hs w
  cases hrun : s.run w with
  | ok a w' =>
    rw [hrun] at hw
    rw [run_bind_of_ok f hrun, hf a w']
    exact hw
  | error fault w' =>
    rw [hrun] at hw
    rw [run_bind_of_error f hrun]
    exact hw

theorem ofExcept (x : Except Fault α) : Quiet (Step.ofExcept x) := by
  cases x
  · exact .throw _
  · exact .pure _

theorem ite {c : Prop} [Decidable c] {s t : Step α} (hs : Quiet s) (ht : Quiet t) :
    Quiet (if c then s else t) := by
  split
  · exact hs
  · exact ht

end Quiet
end Step

namespace Value

open Step

/-! ## Cells and elements -/

theorem quiet_itemsOf (cell : Nat) : Quiet (itemsOf cell) := by
  refine .bind .get fun w => ?_
  split
  · exact .pure _
  · exact .throw _

theorem quiet_elementsOf (cell : Nat) : Quiet (elementsOf cell) := by
  refine .bind .get fun w => ?_
  split
  · exact .pure _
  · exact .throw _

theorem quiet_newCell (cell : Cell) : Quiet (newCell cell) := fun _ => rfl

theorem quiet_newList (items : Array Value) : Quiet (newList items) :=
  .bind (quiet_newCell _) fun _ => .pure _

theorem quiet_ofTensor (t : Tensor) : Quiet (ofTensor t) := by
  unfold ofTensor
  split
  · exact .pure _
  · exact .bind (quiet_newCell _) fun _ => .pure _

theorem quiet_gathered (value : Value) : Quiet value.gathered :=
  .bind .get fun _ => .ofExcept _

theorem quiet_tensor (value : Value) : Quiet value.tensor :=
  .bind (quiet_gathered value) fun _ => .bind .get fun _ => .bind (.ofExcept _) fun _ => .pure _

theorem quiet_operand (value : Value) : Quiet value.operand := by
  unfold operand
  split
  · exact .pure _
  · exact .bind (quiet_tensor _) fun _ => .pure _

theorem quiet_truth (value : Value) : Quiet value.truth := by
  unfold truth
  split
  · exact .pure _
  · exact .pure _
  · exact .pure _
  · exact .pure _
  · exact .bind (quiet_itemsOf _) fun _ => .pure _
  · split
    · exact .bind (.throw _) fun _ => .bind (quiet_elementsOf _) fun _ => .pure _
    · exact .bind (quiet_elementsOf _) fun _ => .pure _

theorem quiet_select (offset : Nat) (shape : List Nat) (indices : List Value) :
    Quiet (select offset shape indices) := by
  unfold select
  split
  · exact .bind (quiet_tensor _) fun _ => .ofExcept _
  · exact .bind (quiet_tensor _) fun _ => .ofExcept _
  · exact .ofExcept _

theorem quiet_load (base : Value) (indices : List Value) : Quiet (base.load indices) := by
  unfold load
  split
  · exact .bind (quiet_itemsOf _) fun _ => .bind (.ofExcept _) fun _ => .pure _
  · exact .bind (.ofExcept _) fun _ => .pure _
  · refine .bind (quiet_select _ _ _) fun part => ?_
    split
    · exact .pure _
    · exact quiet_ofTensor _
    · exact quiet_ofTensor _
  · refine .bind (quiet_elementsOf _) fun _ => .bind (quiet_select _ _ _) fun part => ?_
    split
    · exact .pure _
    · exact .pure _
    · exact .bind (quiet_newCell _) fun _ => .pure _
  · exact .throw _

/-! ## Operators -/

theorem quiet_tensorArithmetic (op : Arithmetic) (a b : Value) : Quiet (tensorArithmetic op a b) :=
  .bind (quiet_operand a) fun _ => .bind (quiet_operand b) fun _ => .bind (.ofExcept _) fun _ =>
    quiet_ofTensor _

theorem quiet_repeatSequence (sequence count : Value) : Quiet (repeatSequence sequence count) := by
  unfold repeatSequence
  split
  · exact .bind (.ofExcept _) fun _ => .pure _
  · exact .bind (quiet_itemsOf _) fun _ => .bind (.ofExcept _) fun _ => quiet_newList _
  · exact .throw _

theorem quiet_fill (template : String) (value : Value) : Quiet (fill template value) :=
  .bind .get fun _ => .bind (.ofExcept _) fun _ => .pure _

theorem quiet_arithmetic (op : Arithmetic) (a b : Value) : Quiet (arithmetic op a b) := by
  unfold arithmetic
  split
  · exact .bind (.ofExcept _) fun _ => .pure _
  · exact .pure _
  · exact .bind (quiet_itemsOf _) fun _ => .bind (quiet_itemsOf _) fun _ => quiet_newList _
  · exact quiet_fill _ _
  · exact .ite (quiet_repeatSequence _ _)
      (.ite (quiet_repeatSequence _ _) (.ite (quiet_tensorArithmetic _ _ _) (.throw _)))

theorem quiet_tensorComparison (op : Comparison) (a b : Value) :
    Quiet (tensorComparison op a b) := by
  unfold tensorComparison
  exact .ite (.ite (.bind (quiet_tensor _) fun _ => quiet_ofTensor _) (.throw _))
    (.bind (quiet_operand a) fun _ => .bind (quiet_operand b) fun _ => .bind (.ofExcept _) fun _ =>
      quiet_ofTensor _)

theorem quiet_firstDifference {equal : Value → Value → Step Bool} (h : ∀ x y, Quiet (equal x y))
    (xs ys : List Value) :
    Quiet (firstDifference equal xs ys) := by
  fun_induction firstDifference equal xs ys with
  | case1 x xs y ys ih => exact .bind (h x y) fun _ => .ite ih (.pure _)
  | case2 xs ys hne => exact .pure _

theorem quiet_comparisonTo (depth : Nat) (op : Comparison) (a b : Value) :
    Quiet (comparisonTo depth op a b) := by
  induction depth using Nat.strongRecOn generalizing op a b with
  | ind depth ih =>
    unfold comparisonTo
    refine .ite (quiet_tensorComparison _ _ _) ?_
    split
    · exact .ite (.bind (.throw _) fun _ => .pure _) (.pure _)
    · exact .pure _
    · refine .bind (quiet_itemsOf _) fun _ => .bind (quiet_itemsOf _) fun _ => .ite (.pure _) ?_
      cases depth with
      | zero => exact .throw _
      | succ depth =>
        have hdeeper := ih depth (Nat.lt_succ_self depth)
        have hequal : ∀ x y, Quiet (do (← comparisonTo depth .eq x y).truth) := fun x y =>
          .bind (hdeeper _ _ _) fun _ => quiet_truth _
        dsimp only
        refine .ite (.bind (.pure _) fun difference => ?_)
          (.bind (quiet_firstDifference hequal _ _) fun difference => ?_)
        all_goals
          split
          · exact .pure _
          · exact .ite (.pure _) (hdeeper _ _ _)
    · exact .ite (.pure _) (.throw _)

theorem quiet_comparison (op : Comparison) (a b : Value) : Quiet (comparison op a b) :=
  .bind .get fun _ => quiet_comparisonTo _ op a b

theorem quiet_binary (op : Operator) (a b : Value) : Quiet (binary op a b) := by
  cases op with
  | arithmetic op => exact quiet_arithmetic op a b
  | comparison op => exact quiet_comparison op a b

theorem quiet_sign (minus : Bool) (value : Value) : Quiet (sign minus value) := by
  unfold sign
  cases value with
  | number w s => exact .bind (.ofExcept _) fun _ => .pure _
  | array cell offset shape =>
    have hsigned : ∀ x : Except Fault Tensor, Quiet (do ofTensor (← Step.ofExcept x)) := fun x =>
      .bind (.ofExcept x) fun _ => quiet_ofTensor _
    exact .bind (quiet_tensor _) fun _ => .ite (.bind (.throw _) fun _ => hsigned _) (hsigned _)
  | _ => exact .throw _

end Value

/-! ## Expressions -/

theorem Scope.quiet_lookup (scope : Scope) (x : String) : (scope.lookup x).Quiet := by
  unfold Scope.lookup
  refine .ite (.pure _) (.ite (.bind .get fun w => ?_) ?_)
  · split
    · exact .pure _
    · exact .throw _
  · split
    · exact .pure _
    · exact .throw _

theorem Literal.quiet_toValue (v : Literal) : v.toValue.Quiet := by
  cases v with
  | machine m => cases m <;> exact .pure _
  | list items => exact .throw _
  | _ => exact .pure _

theorem Operator.quiet_ofCall? (callee : String) (args : List Value) :
    ((Operator.ofCall? callee args).getD (throw .kind)).Quiet := by
  unfold Operator.ofCall?
  split
  · cases Operator.ofCallee? callee with
    | none => exact .throw _
    | some op => exact Value.quiet_binary op _ _
  · split
    · exact Value.quiet_sign true _
    · split
      · exact Value.quiet_sign false _
      · exact .throw _
  · exact .throw _

namespace Expr

mutual

/-- The expression calls no function.  An operator is no call. -/
def isCallFree : Expr → Bool
  | .name _ | .literal _ => true
  | .call f args => Operator.isCall f args.length && areCallFree args
  | .assign t value => isCallFree t && isCallFree value
  | .form _ args => areCallFree args

/-- The expressions call no function. -/
def areCallFree : List Expr → Bool
  | [] => true
  | e :: es => isCallFree e && areCallFree es

end

mutual

/-- **An expression without a call leaves the log as it is.** -/
theorem quiet_evaluate (scope : Scope) : ∀ e : Expr, isCallFree e = true → (evaluate scope e).Quiet
  | .name x, _ => scope.quiet_lookup x
  | .literal v, _ => v.quiet_toValue
  | .call f args, h => by
    obtain ⟨hcall, hargs⟩ := Bool.and_eq_true_iff.mp h
    rw [evaluate, if_pos hcall]
    exact .bind (quiet_evaluateAll scope args hargs) fun _ => Operator.quiet_ofCall? f _
  | .assign t value, _ => .throw _
  | .form tag [], _ => .throw _
  | .form tag (base :: indices), h => by
    obtain ⟨hbase, hindices⟩ := Bool.and_eq_true_iff.mp h
    rw [evaluate]
    exact .ite (.bind (quiet_evaluate scope base hbase) fun _ =>
      .bind (quiet_evaluateAll scope indices hindices) fun _ => Value.quiet_load _ _) (.throw _)

theorem quiet_evaluateAll (scope : Scope) :
    ∀ es : List Expr, areCallFree es = true → (evaluateAll scope es).Quiet
  | [], _ => .pure _
  | e :: es, h => by
    obtain ⟨he, hes⟩ := Bool.and_eq_true_iff.mp h
    exact .bind (quiet_evaluate scope e he) fun _ => .bind (quiet_evaluateAll scope es hes) fun _ =>
      .pure _

end

end Expr
end LoopNest
