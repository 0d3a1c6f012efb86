import LoopNest.Proofs.Outcome
import LoopNest.Source
import Mathlib.Data.List.Basic

/-!
# Statements and their lines

The lines of a tree do not show its blocks: a block adds no level, and what is left of it is the
sequence of its statements.  So a tree is first taken apart into the statements that have lines,
each a line of its own or a loop with the statements that it owns, and the lines are those of these
statements.

* `Outline`: statements by lines and loops, with the lines that they take up.
* `Expr.outline`: the statements of a tree, blocks spliced in place.
* `Source.spellAll`: the texts of statements.
* `Source.statement_eq`: the lines of a tree are those of its outline.
-/

namespace LoopNest

/-- A statement by its layout: a line of its own, or a loop with its condition and the statements
that it owns. -/
inductive Outline (α : Type) where
  | line (a : α)
  | loop (condition : α) (body : List (Outline α))

namespace Outline

mutual

/-- The lines of a statement with their levels.  What a loop owns is one level deeper. -/
def lines (level : Nat) : Outline String → List (Nat × String)
  | .line text => [(level, text)]
  | .loop condition body => (level, "while " ++ condition ++ ":") :: linesAll (level + 1) body

/-- The lines of statements in sequence. -/
def linesAll (level : Nat) : List (Outline String) → List (Nat × String)
  | [] => []
  | s :: rest => lines level s ++ linesAll level rest

end

end Outline

/-! ## The outline of a tree -/

namespace Expr

mutual

/-- The statements of a tree.  Blocks are spliced in place, and an empty block is a statement that
does nothing. -/
def outline : Expr → List (Outline Expr)
  | .form tag args =>
      if tag = blockTag then
        match args with
        | [] => [.line (.form tag [])]
        | first :: rest => outline first ++ outlineAll rest
      else if tag = whileTag then
        match args with
        | [condition, body] => [.loop condition (outline body)]
        | _ => [.line (.form tag args)]
      else [.line (.form tag args)]
  | e => [.line e]

/-- The statements of trees in sequence. -/
def outlineAll : List Expr → List (Outline Expr)
  | [] => []
  | e :: es => outline e ++ outlineAll es

end

end Expr

namespace Source

/-- The text of a statement on a line of its own. -/
def lineText : Expr → Except SourceError String
  | .assign t value => do
      let t ← target t
      let value ← term value
      return t ++ " = " ++ value
  | .form tag args =>
      if tag = blockTag then .ok "pass"
      else if tag = whileTag then .error (.whileParts args.length)
      else if updateTags.contains tag then
        match args with
        | [t, value] => do
            let t ← target t
            let value ← term value
            return t ++ " " ++ tag ++ " " ++ value
        | _ => .error (.updateParts tag)
      else if tag = refTag then term (.form tag args)
      else .error (.unknownStatement tag)
  | e => term e

mutual

/-- The statement with the texts of its lines and conditions. -/
def spell : Outline Expr → Except SourceError (Outline String)
  | .line e => do return .line (← lineText e)
  | .loop condition body => do
      let condition ← term condition
      let body ← spellAll body
      return .loop condition body

/-- The statements with the texts of their lines and conditions. -/
def spellAll : List (Outline Expr) → Except SourceError (List (Outline String))
  | [] => .ok []
  | s :: rest => do
      let first ← spell s
      let rest ← spellAll rest
      return first :: rest

end

/-- The line of a text at a level. -/
def leveledLine (line : Nat × String) : String := indent line.1 ++ line.2

/-! ## The lines of a tree are those of its outline -/

theorem spellAll_append (a b : List (Outline Expr)) :
    spellAll (a ++ b) = do
      let first ← spellAll a
      let rest ← spellAll b
      return first ++ rest := by
  induction a with
  | nil =>
    simp only [List.nil_append, spellAll, bind_ok]
    cases spellAll b <;> rfl
  | cons s a ih =>
    rw [List.cons_append, spellAll, spellAll, ih]
    cases spell s <;> cases spellAll a <;> cases spellAll b <;> rfl

theorem spellAll_single (s : Outline Expr) : spellAll [s] = do return [← spell s] := by
  rw [spellAll]
  cases spell s <;> rfl

end Source

theorem Outline.linesAll_append (level : Nat) (a b : List (Outline String)) :
    linesAll level (a ++ b) = linesAll level a ++ linesAll level b := by
  induction a with
  | nil => rfl
  | cons s a ih => rw [List.cons_append, linesAll, linesAll, ih, List.append_assoc]

theorem Outline.lines_ne_nil (level : Nat) (s : Outline String) : lines level s ≠ [] := by
  cases s <;> simp [lines]

theorem Outline.linesAll_ne_nil (level : Nat) {items : List (Outline String)} (h : items ≠ []) :
    linesAll level items ≠ [] := by
  obtain ⟨s, rest, rfl⟩ := List.exists_cons_of_ne_nil h
  rw [linesAll]
  exact List.append_ne_nil_of_left_ne_nil (lines_ne_nil level s) _

theorem Expr.outline_block (args : List Expr) :
    outline (.form blockTag args) = if args = [] then [.line (.form blockTag [])]
      else outlineAll args := by
  cases args with
  | nil => rfl
  | cons first rest =>
    rw [outline, if_pos rfl, if_neg (List.cons_ne_nil _ _), outlineAll]

theorem Expr.outline_while (condition body : Expr) :
    outline (.form whileTag [condition, body]) = [.loop condition (outline body)] := by
  rw [outline, if_neg (by decide), if_pos rfl]

/-- A form that is no block is a loop with two parts, or a line of its own. -/
theorem Expr.outline_form {tag : String} (hblock : tag ≠ blockTag) {args : List Expr}
    (hwhile : ¬(tag = whileTag ∧ ∃ condition body, args = [condition, body])) :
    outline (.form tag args) = [.line (.form tag args)] := by
  unfold outline
  rw [if_neg hblock]
  split
  next htag =>
    split
    next condition body => exact absurd ⟨htag, condition, body, rfl⟩ hwhile
    next => rfl
  next => rfl

theorem Expr.outline_ne_nil : ∀ e : Expr, outline e ≠ []
  | .form tag args => by
    unfold outline
    split
    · cases args with
      | nil => exact List.cons_ne_nil _ _
      | cons first rest => exact List.append_ne_nil_of_left_ne_nil (outline_ne_nil first) _
    · split
      · split <;> exact List.cons_ne_nil _ _
      · exact List.cons_ne_nil _ _
  | .name _ | .literal _ | .call _ _ | .assign _ _ => by
    simp [outline]

namespace Source

theorem spellAll_ne_nil {items : List (Outline Expr)} (h : items ≠ [])
    {spelled : List (Outline String)} (hspelled : spellAll items = .ok spelled) : spelled ≠ [] := by
  obtain ⟨s, rest, rfl⟩ := List.exists_cons_of_ne_nil h
  obtain ⟨first, -, h⟩ := bind_eq_ok_iff.mp hspelled
  obtain ⟨more, -, h⟩ := bind_eq_ok_iff.mp h
  cases h
  exact List.cons_ne_nil _ _

/-- The lines of a single statement on a line of its own. -/
theorem spellAll_line (depth : Nat) (e : Expr) :
    (do return (Outline.linesAll depth (← spellAll [.line e])).map leveledLine) =
      do return [indent depth ++ (← lineText e)] := by
  rw [spellAll_single, spell]
  cases lineText e <;> rfl

theorem statement_form {tag : String} (hblock : tag ≠ blockTag) {args : List Expr}
    (hwhile : tag = whileTag → ∀ condition body, args ≠ [condition, body]) (depth : Nat) :
    statement depth (.form tag args)
      = do return [indent depth ++ (← lineText (.form tag args))] := by
  unfold statement lineText
  dsimp only
  rw [if_neg hblock, if_neg hblock]
  by_cases htag : tag = whileTag
  · rw [if_pos htag, if_pos htag]
    split
    next condition body => exact absurd rfl (hwhile htag condition body)
    next => rfl
  · rw [if_neg htag, if_neg htag]
    by_cases hupdate : updateTags.contains tag = true
    · rw [if_pos hupdate, if_pos hupdate]
      rcases args with _ | ⟨t, _ | ⟨value, _ | _⟩⟩
      · rfl
      · rfl
      · simp only [bind_assoc, pure_bind, String.append_assoc]
      · rfl
    · rw [if_neg hupdate, if_neg hupdate]
      split <;> rfl

mutual

/-- **The lines of a tree are those of its outline.** -/
theorem statement_eq (depth : Nat) : ∀ e : Expr,
    statement depth e = do return (Outline.linesAll depth (← spellAll e.outline)).map leveledLine
  | .form tag args => by
    by_cases hblock : tag = blockTag
    · subst hblock
      cases args with
      | nil => rfl
      | cons first rest =>
        have hall := statements_eq depth (first :: rest)
        have hne := fun items =>
          @spellAll_ne_nil _ (Expr.outline_ne_nil (.form blockTag (first :: rest))) items
        rw [Expr.outline_block, if_neg (List.cons_ne_nil _ _)] at hne ⊢
        unfold statement
        rw [if_pos rfl, hall]
        cases hspelled : spellAll (Expr.outlineAll (first :: rest)) with
        | error err => rfl
        | ok items =>
          have hlines := Outline.linesAll_ne_nil depth (hne items hspelled)
          simp [hlines]
    · by_cases hwhile : tag = whileTag ∧ ∃ condition body, args = [condition, body]
      · obtain ⟨rfl, condition, body, rfl⟩ := hwhile
        have hbody := statement_eq (depth + 1) body
        unfold statement
        rw [if_neg hblock, if_pos rfl, Expr.outline_while, spellAll_single, spell]
        simp only [bind_assoc, pure_bind, hbody, Outline.linesAll, Outline.lines, List.append_nil,
          List.map_cons, leveledLine, String.append_assoc]
      · rw [Expr.outline_form hblock hwhile, spellAll_line]
        exact statement_form hblock (fun htag c b hargs => hwhile ⟨htag, c, b, hargs⟩) depth
  | .name x => (spellAll_line depth (.name x)).symm
  | .literal v => (spellAll_line depth (.literal v)).symm
  | .call f args => (spellAll_line depth (.call f args)).symm
  | .assign t value => by
    rw [Expr.outline, spellAll_line, statement, lineText]
    · simp only [bind_assoc, pure_bind, String.append_assoc]
    · simp

theorem statements_eq (depth : Nat) : ∀ es : List Expr,
    statements depth es = do
      return (Outline.linesAll depth (← spellAll (Expr.outlineAll es))).map leveledLine
  | [] => rfl
  | e :: es => by
    rw [statements, statement_eq depth e, statements_eq depth es, Expr.outlineAll, spellAll_append]
    cases spellAll e.outline with
    | error err => rfl
    | ok first =>
      cases spellAll (Expr.outlineAll es) with
      | error err => rfl
      | ok rest => simp [bind_ok, Outline.linesAll_append]
end

end Source
end LoopNest
