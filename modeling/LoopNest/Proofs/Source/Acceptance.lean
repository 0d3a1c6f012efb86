import LoopNest.Proofs.Source.Reparse
import Mathlib.Data.List.Perm.Basic

/-!
# Which functions have a source text

The last statement of a function has a rule of its own, which writes it and returns its value.  The
two rules tell the kinds of statement apart in different orders, and refuse an unknown form with
different errors.  They still accept the same trees, so whether a function has a source text does
not depend on the order of its statements.

* `Source.exists_lastStatement_iff`: the rule for the last statement accepts what the other rule
  accepts.
* `Source.exists_function_iff`: a function has a source text where its names are identifiers and
  each statement is accepted.
* `Source.function_order_free`: the order of the statements does not matter.
-/

namespace LoopNest
namespace Source

/-! ## The last statement -/

theorem ne_of_update {tag : String} (h : updateTags.contains tag = true) :
    tag ≠ blockTag ∧ tag ≠ whileTag := by
  constructor <;> rintro rfl <;> exact absurd h (by decide)

/-- An accepted update has a target and a value, and no other argument. -/
theorem update_eq_ok {tag : String} (htag : updateTags.contains tag = true) {depth : Nat}
    {args : List Expr} {lines : List String} (h : statement depth (.form tag args) = .ok lines) :
    ∃ t value, args = [t, value] ∧ ∃ text, target t = .ok text := by
  unfold statement at h
  rw [if_neg (ne_of_update htag).1, if_neg (ne_of_update htag).2, if_pos htag] at h
  rcases args with _ | ⟨t, _ | ⟨value, _ | _⟩⟩
  · cases h
  · cases h
  · obtain ⟨text, htext, -⟩ := bind_eq_ok_iff.mp h
    exact ⟨t, value, rfl, text, htext⟩
  · cases h

/-- **One acceptance.**  The rule for the last statement accepts what the rule for the other
statements accepts. -/
theorem exists_lastStatement_iff (depth : Nat) (e : Expr) :
    (∃ lines, lastStatement depth e = .ok lines) ↔ ∃ lines, statement depth e = .ok lines := by
  cases e with
  | name _ | literal _ | call _ _ => exact exists_bind_pure_iff.trans exists_bind_pure_iff.symm
  | assign t value =>
    refine exists_bind_eq_ok_iff.trans
      (exists_congr fun first => and_iff_left_of_imp fun hfirst => ?_)
    obtain ⟨text, htext, -⟩ := bind_eq_ok_iff.mp hfirst
    exact exists_bind_pure_iff.mpr ⟨text, htext⟩
  | form tag args =>
    unfold lastStatement
    dsimp only
    by_cases hupdate : updateTags.contains tag = true
    · rw [if_pos hupdate]
      refine exists_bind_eq_ok_iff.trans
        (exists_congr fun first => and_iff_left_of_imp fun hfirst => ?_)
      obtain ⟨t, value, rfl, htext⟩ := update_eq_ok hupdate hfirst
      exact exists_bind_pure_iff.mpr htext
    · rw [if_neg hupdate]
      by_cases htag : (tag = blockTag || tag = whileTag) = true
      · rw [if_pos htag]
        exact exists_bind_pure_iff
      · -- what is left is an indexed value, or a form that neither rule knows
        rw [if_neg htag, exists_bind_pure_iff]
        simp only [Bool.or_eq_true, decide_eq_true_eq, not_or] at htag
        unfold statement
        rw [if_neg htag.1, if_neg htag.2, if_neg hupdate]
        by_cases href : tag = refTag
        · rw [if_pos href]
          exact exists_bind_pure_iff.symm
        · rw [if_neg href]
          cases args <;> simp [term, href]

/-! ## Integers that are too long -/

/-- An integer of the tree has too many digits to be written. -/
def Overlong (e : Expr) : Prop := ∃ z, e.HasLiteral (.int z) ∧ 10 ^ Number.digitLimit ≤ z.natAbs

/-- The outcome is a refusal for length only if an integer of the tree is too long. -/
def Blames {α : Type} (outcome : Except SourceError α) (e : Expr) : Prop :=
  outcome = .error .overlong → Overlong e

section Blames

variable {α β : Type} {x : Except SourceError α} {e c : Expr}

theorem blames_ok (a : α) : Blames (.ok a) e := fun h => by cases h

theorem blames_error {err : SourceError} (h : err ≠ .overlong) :
    Blames (.error err : Except SourceError α) e :=
  fun herr => absurd (Except.error.inj herr) h

theorem Blames.bind {f : α → Except SourceError β} (hx : Blames x e) (hf : ∀ a, Blames (f a) e) :
    Blames (x >>= f) e := by
  intro h
  rcases bind_eq_error h with h | ⟨a, -, h⟩
  · exact hx h
  · exact hf a h

theorem Blames.finish (hx : Blames x e) (f : α → β) : Blames (x >>= fun a => .ok (f a)) e :=
  hx.bind fun a => blames_ok (f a)

theorem Blames.part (hx : Blames x c) (hc : c ∈ e.children) : Blames x e := by
  intro h
  obtain ⟨z, hz, hlong⟩ := hx h
  exact ⟨z, .part hc hz, hlong⟩

theorem blames_identifier (x : String) : Blames (identifier x) e := by
  unfold identifier
  split
  · exact blames_ok x
  · exact blames_error (by simp)

theorem blames_literal (v : Literal) : Blames (literal v) (.literal v) := by
  intro h
  cases v with
  | int z =>
    refine ⟨z, .literal, not_lt.mp fun hshort => ?_⟩
    rw [literal_int_eq_ok_iff.mpr ⟨hshort, rfl⟩] at h
    cases h
  | _ => cases h

theorem blames_application (f : String) (args : List String) : Blames (application f args) e := by
  unfold application
  split
  · exact blames_ok _
  · exact blames_ok _
  · exact (blames_identifier f).finish _

end Blames

mutual

theorem blames_term : ∀ e : Expr, Blames (term e) e
  | .name x => blames_identifier x
  | .literal v => blames_literal v
  | .call f args =>
    (blames_terms (e := .call f args) args fun _ ha => ha).bind (blames_application f)
  | .assign _ _ => blames_error (by simp)
  | .form _ [] => blames_error (by simp)
  | .form tag (base :: indices) => by
    rw [term]
    split
    · exact ((blames_term base).part List.mem_cons_self).bind fun _ =>
        (blames_terms (e := .form tag _) indices fun _ ha => List.mem_cons_of_mem _ ha).finish _
    · exact blames_error (by simp)

theorem blames_terms {e : Expr} : ∀ es : List Expr, (∀ a ∈ es, a ∈ e.children) → Blames (terms es) e
  | [], _ => blames_ok []
  | a :: es, h => ((blames_term a).part (h a List.mem_cons_self)).bind fun _ =>
      (blames_terms es fun b hb => h b (List.mem_cons_of_mem _ hb)).finish _

end

theorem blames_target (e : Expr) : Blames (target e) e := by
  unfold target
  split
  · exact blames_term _
  · split
    · exact blames_term _
    · exact blames_error (by simp)
  · exact blames_error (by simp)

mutual

theorem blames_statement (depth : Nat) : ∀ e : Expr, Blames (statement depth e) e
  | .assign t value => ((blames_target t).part (by simp [Expr.children])).bind fun _ =>
      ((blames_term value).part (by simp [Expr.children])).finish _
  | .form tag args => by
    unfold statement
    split
    · exact (blames_statements (e := .form tag args) depth args fun _ ha => ha).finish _
    split
    · split
      · next condition body =>
        exact ((blames_term condition).part (by simp [Expr.children])).bind fun _ =>
          ((blames_statement (depth + 1) body).part (by simp [Expr.children])).finish _
      · exact blames_error (by simp)
    split
    · split
      · next t value =>
        exact ((blames_target t).part (by simp [Expr.children])).bind fun _ =>
          ((blames_term value).part (by simp [Expr.children])).finish _
      · exact blames_error (by simp)
    split
    · exact (blames_term _).finish _
    · exact blames_error (by simp)
  | .name x => (blames_term (.name x)).finish _
  | .literal v => (blames_term (.literal v)).finish _
  | .call f args => (blames_term (.call f args)).finish _

theorem blames_statements {e : Expr} (depth : Nat) :
    ∀ es : List Expr, (∀ a ∈ es, a ∈ e.children) → Blames (statements depth es) e
  | [], _ => blames_ok []
  | a :: es, h => ((blames_statement depth a).part (h a List.mem_cons_self)).bind fun _ =>
      (blames_statements depth es fun b hb => h b (List.mem_cons_of_mem _ hb)).finish _

end

theorem blames_lastStatement (depth : Nat) (e : Expr) : Blames (lastStatement depth e) e := by
  unfold lastStatement
  split
  · exact (blames_statement depth _).bind fun _ =>
      ((blames_target _).part (by simp [Expr.children])).finish _
  · next tag args =>
    split
    · refine (blames_statement depth _).bind fun _ => ?_
      split
      · exact ((blames_target _).part (by simp [Expr.children])).finish _
      · exact blames_error (by simp)
    split
    · exact (blames_statement depth _).finish _
    · exact (blames_term _).finish _
  · exact (blames_term e).finish _

/-! ## Whole functions -/

/-- Statements have lines where each of them is accepted, at whichever place it stands. -/
theorem exists_bodyLines_iff : ∀ {es : List Expr},
    (∃ lines, bodyLines es = .ok lines) ↔ ∀ e ∈ es, ∃ lines, statement 1 e = .ok lines
  | [] => by simp [bodyLines]
  | [e] => by
    rw [List.forall_mem_singleton]
    exact exists_lastStatement_iff 1 e
  | e :: e' :: es => by
    rw [List.forall_mem_cons, ← exists_bodyLines_iff, ← exists_and_right]
    exact exists_bind_eq_ok_iff.trans
      (exists_congr fun _ => and_congr_right fun _ => exists_bind_pure_iff)

/-- A function has a source text where its names are identifiers and each of its statements is
accepted. -/
theorem exists_function_iff {name : String} {parameters : List String} {es : List Expr} :
    (∃ text, function name parameters (.form blockTag es) = .ok text) ↔
      (∃ x, identifier name = .ok x) ∧ (∃ xs, parameters.mapM identifier = .ok xs) ∧
        ∀ e ∈ es, ∃ lines, statement 1 e = .ok lines := by
  rw [← exists_bodyLines_iff, ← exists_and_right, ← exists_and_right]
  refine exists_bind_eq_ok_iff.trans (exists_congr fun _ => and_congr_right fun _ => ?_)
  exact exists_bind_eq_ok_iff.trans
    (exists_congr fun _ => and_congr_right fun _ => exists_bind_pure_iff)

/-- Statements are refused with the error of one of them. -/
theorem bodyLines_eq_error {err : SourceError} : ∀ {es : List Expr}, bodyLines es = .error err →
    ∃ e ∈ es, statement 1 e = .error err ∨ lastStatement 1 e = .error err
  | [], h => by cases h
  | [e], h => ⟨e, List.mem_singleton_self e, .inr h⟩
  | e :: e' :: es, h => by
    rcases bind_eq_error h with h | ⟨first, -, h⟩
    · exact ⟨e, List.mem_cons_self, .inl h⟩
    · rcases bind_eq_error h with h | ⟨rest, -, h⟩
      · obtain ⟨s, hs, herr⟩ := bodyLines_eq_error h
        exact ⟨s, List.mem_cons_of_mem _ hs, herr⟩
      · cases h

/-- A function is refused with the error of one of its names or of one of its statements. -/
theorem function_eq_error {name : String} {parameters : List String} {es : List Expr}
    {err : SourceError} (h : function name parameters (.form blockTag es) = .error err) :
    (∃ x ∈ name :: parameters, identifier x = .error err) ∨
      ∃ e ∈ es, statement 1 e = .error err ∨ lastStatement 1 e = .error err := by
  rcases bind_eq_error h with h | ⟨_, -, h⟩
  · exact .inl ⟨name, List.mem_cons_self, h⟩
  rcases bind_eq_error h with h | ⟨_, -, h⟩
  · obtain ⟨x, hx, herr⟩ := mapM_eq_error h
    exact .inl ⟨x, List.mem_cons_of_mem _ hx, herr⟩
  rcases bind_eq_error h with h | ⟨_, -, h⟩
  · exact .inr (bodyLines_eq_error h)
  · cases h

/-- **The order of the statements does not matter.**  A function has a source text where it has one
with its statements in any other order.  Every refusal is that of one of its names or statements,
and an error of code generation unless an integer is too long.  The rule for the last statement
accepts exactly what the other rule accepts; where it writes an update, the update has a target to
return. -/
theorem function_order_free (name : String) (parameters : List String) {es es' : List Expr}
    (h : es.Perm es') :
    ((∃ text, function name parameters (.form blockTag es) = .ok text) ↔
      ∃ text, function name parameters (.form blockTag es') = .ok text) ∧
    (∀ err, function name parameters (.form blockTag es) = .error err →
      ((∃ report, err.report? = some report ∧ report.kind = .codegen) ∨
        err = .overlong ∧ ∃ e ∈ es, ∃ z, e.HasLiteral (.int z) ∧
          10 ^ Number.digitLimit ≤ z.natAbs) ∧
      ((∃ x ∈ name :: parameters, identifier x = .error err) ∨
        ∃ e ∈ es, statement 1 e = .error err ∨ lastStatement 1 e = .error err)) ∧
    (∀ depth e, (∃ lines, lastStatement depth e = .ok lines) ↔
      ∃ lines, statement depth e = .ok lines) ∧
    ∀ depth tag args lines, updateTags.contains tag = true →
      statement depth (.form tag args) = .ok lines → ∃ t value, args = [t, value] := by
  refine ⟨?_, fun err herr => ⟨?_, function_eq_error herr⟩, exists_lastStatement_iff, ?_⟩
  · simp only [exists_function_iff, h.mem_iff]
  · by_cases hlong : err = .overlong
    · subst hlong
      refine .inr ⟨rfl, ?_⟩
      rcases function_eq_error herr with ⟨x, -, hx⟩ | ⟨e, he, hstatement | hlast⟩
      · unfold identifier at hx
        split at hx <;> cases hx
      · exact ⟨e, he, blames_statement 1 e hstatement⟩
      · exact ⟨e, he, blames_lastStatement 1 e hlast⟩
    · cases err with
      | overlong => exact absurd rfl hlong
      | _ => exact .inl ⟨_, rfl, rfl⟩
  · intro depth tag args lines htag hlines
    obtain ⟨t, value, hargs, -⟩ := update_eq_ok htag hlines
    exact ⟨t, value, hargs⟩

/-- `x += 1` and `x`, in either order. -/
theorem function_order_free_update :
    ([.form "+=" [.name "x", .literal (.int 1)], .name "x"] : List Expr).Perm
        [.name "x", .form "+=" [.name "x", .literal (.int 1)]] ∧
      ∃ text,
        function "f" ["x"] (.form blockTag [.name "x", .form "+=" [.name "x", .literal (.int 1)]])
          = .ok text :=
  ⟨.swap _ _ _, (function_order_free "f" ["x"] (.swap _ _ _)).1.mp ⟨_, rfl⟩⟩

end Source
end LoopNest
