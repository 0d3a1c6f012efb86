import LoopNest.Proofs.Expr.Accepts

/-!
# The expressions that text can hold

An expression is more than text can say: a callee may be any string, a form may have any tag, and an
assignment may stand anywhere.  What is read from text is of the few shapes that the grammar has,
with the names and numbers that lexemes can be.

* `Expr.Readable`, `Expr.ReadableStatement`: the shapes of operands and of whole texts.
* `Derivation.readable_value`: the value of a derivation has them.
* `Expr.readableStatement_of_parse`: what is read is a readable statement.
-/

namespace LoopNest

/-- The operators that stand between two operands. -/
def Terminal.binaries : List Terminal := comparisons ++ sums ++ products ++ [.caret]

namespace Expr

/-- An expression that text can write as an operand. -/
inductive Readable : Expr → Prop where
  | name {x : String} (hx : IsName x) : Readable (.name x)
  | number (n : Number.Numeral) (hn : n.IsWhole → n.whole.length ≤ Number.digitLimit) :
      Readable (.literal n.literal)
  | truth (b : Bool) : Readable (.literal (.bool b))
  | binary {t : Terminal} (ht : t ∈ Terminal.binaries) {left right : Expr} (hleft : Readable left)
      (hright : Readable right) : Readable (.call t.spelling [left, right])
  | negate {e : Expr} (he : Readable e) : Readable (.call "-" [e])
  | call {f : String} (hf : IsName f) {args : List Expr} (hargs : ∀ a ∈ args, Readable a) :
      Readable (.call f args)
  | index {base : Expr} (hbase : Readable base) {indices : List Expr} (hne : indices ≠ [])
      (hindices : ∀ i ∈ indices, Readable i) : Readable (.form refTag (base :: indices))

/-- An assignment by an operator; the compound ones are forms. -/
def assignment (op : Terminal) (target value : Expr) : Expr :=
  if op = .equal then .assign target value else .form op.spelling [target, value]

theorem children_assignment (op : Terminal) (target value : Expr) :
    (assignment op target value).children = [target, value] := by
  unfold assignment
  split <;> rfl

/-- An expression that a whole text can write: an operand, or an assignment of one to another. -/
inductive ReadableStatement : Expr → Prop where
  | bare {e : Expr} (he : Readable e) : ReadableStatement e
  | assign {op : Terminal} (hop : op ∈ Terminal.assignments) {target value : Expr}
      (ht : Readable target) (hv : Readable value) : ReadableStatement (assignment op target value)

end Expr

/-- What the values of a category are: statements, one or more operands, or an operand. -/
def Category.Readable : (c : Category) → c.Value → Prop
  | .start, e | .statement, e => e.ReadableStatement
  | .arguments, es => es ≠ [] ∧ ∀ e ∈ es, e.Readable
  | .expr, e | .comparison, e | .sum, e | .product, e | .unary, e | .power, e | .primary, e | .atom,
      e => e.Readable

/-- The lexeme has a meaning: a name is one, and an integer is not too long. -/
def Lexeme.Meant : Lexeme → Prop
  | .mark _ => True
  | .word x => IsName x
  | .number n => n.IsWhole → n.whole.length ≤ Number.digitLimit

namespace Derivation

/-- **The value of a derivation is readable**, if its lexemes have a meaning. -/
theorem readable_value {c : Category} (d : Derivation c) (h : ∀ l ∈ d.yield, l.Meant) :
    c.Readable d.value := by
  -- a step to a tighter category keeps the value
  induction d with
  | start d ih => exact ih h
  | bare d ih => exact .bare (ih h)
  | assign op hop target value iht ihv =>
    simp only [yield, List.forall_mem_append, List.forall_mem_cons] at h
    exact .assign hop (iht h.1) (ihv h.2.2)
  | expr d ih => exact ih h
  | alone d ih => exact ih h
  | compare op hop left right ihl ihr =>
    simp only [yield, List.forall_mem_append, List.forall_mem_cons] at h
    exact .binary (by simp [Terminal.binaries, hop]) (ihl h.1) (ihr h.2.2)
  | term d ih => exact ih h
  | add op hop left right ihl ihr =>
    simp only [yield, List.forall_mem_append, List.forall_mem_cons] at h
    exact .binary (by simp [Terminal.binaries, hop]) (ihl h.1) (ihr h.2.2)
  | factor d ih => exact ih h
  | multiply op hop left right ihl ihr =>
    simp only [yield, List.forall_mem_append, List.forall_mem_cons] at h
    exact .binary (by simp [Terminal.binaries, hop]) (ihl h.1) (ihr h.2.2)
  | unsigned d ih => exact ih h
  | negate d ih =>
    simp only [yield, List.forall_mem_cons] at h
    exact .negate (ih h.2)
  | base d ih => exact ih h
  | raise b exponent ihb ihe =>
    simp only [yield, List.forall_mem_append, List.forall_mem_cons] at h
    exact @Expr.Readable.binary .caret (by decide) _ _ (ihb h.1) (ihe h.2.2)
  | atom d ih => exact ih h
  | index b args ihb iha =>
    simp only [yield, List.forall_mem_append, List.forall_mem_cons] at h
    obtain ⟨hne, hall⟩ := iha h.2.2.1
    exact .index (ihb h.1) hne hall
  | call callee args ih =>
    simp only [yield, List.forall_mem_append, List.forall_mem_cons] at h
    exact .call h.1 (ih h.2.2.1).2
  | callEmpty callee => exact .call (h _ List.mem_cons_self) (by simp)
  | name x => exact .name (h _ List.mem_cons_self)
  | number n => exact .number n (h _ List.mem_cons_self)
  | yes => exact .truth true
  | no => exact .truth false
  | group d ih =>
    simp only [yield, List.forall_mem_append, List.forall_mem_cons] at h
    exact ih h.2.1
  | single d ih => exact ⟨List.cons_ne_nil _ _, List.forall_mem_singleton.mpr (ih h)⟩
  | snoc args d iha ihd =>
    simp only [yield, List.forall_mem_append, List.forall_mem_cons] at h
    have hargs := (iha h.1).2
    have hlast := ihd h.2.2
    refine ⟨by simp [Derivation.value], ?_⟩
    simp only [Derivation.value, List.forall_mem_append, List.forall_mem_singleton]
    exact ⟨hargs, hlast⟩

end Derivation

theorem Splits.proper {text : List Char} {lexemes : List Lexeme} (h : Splits text lexemes) :
    ∀ l ∈ lexemes, l.Proper := by
  induction h with
  | nil => simp
  | gap _ _ ih => exact ih
  | lexeme hlongest _ ih => exact List.forall_mem_cons.mpr ⟨hlongest.proper, ih⟩

/-- **What is read is a readable statement.** -/
theorem Expr.readableStatement_of_parse {source : String} {e : Expr} (h : parse source = .ok e) :
    e.ReadableStatement := by
  obtain ⟨d, hsplits, hlimit, rfl⟩ := exists_derivation_of_parse h
  refine d.readable_value fun l hl => ?_
  cases l with
  | mark t => trivial
  | word x => exact hsplits.proper _ hl
  | number n => exact hlimit n hl

end LoopNest
