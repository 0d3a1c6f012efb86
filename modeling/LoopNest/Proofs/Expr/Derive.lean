import LoopNest.Proofs.Expr.Grammar

/-!
# Building derivations

Lexemes are read from the left, with open productions on a stack that are closed by precedence.
These are the steps of the reader of expressions, taken with derivations in place of expressions.
Each step adds its lexeme to the yield of what is open, so whatever is built derives the lexemes
that were read.

* `Derivation.Partial`, `Derivation.Partial.step`: derivations still open, and one lexeme.
* `Derivation.derive`: the derivation of a whole sequence.
* `Derivation.yield_step`, `Derivation.yield_run`, `Derivation.yield_finish`: what is built derives
  what was read.
-/

namespace LoopNest
namespace Derivation

/-! ## Open derivations -/

/-- A production whose left part has been read. -/
inductive Node where
  | negate
  | power (base : Derivation .primary)
  | product (op : Terminal) (h : op ∈ Terminal.products) (left : Derivation .product)
  | sum (op : Terminal) (h : op ∈ Terminal.sums) (left : Derivation .sum)
  | compare (op : Terminal) (h : op ∈ Terminal.comparisons) (left : Derivation .sum)
  | group
  | call (callee : String) (args : Option (Derivation .arguments))
  | index (base : Derivation .primary) (args : Option (Derivation .arguments))
  | assign (op : Terminal) (h : op ∈ Terminal.assignments) (target : Derivation .expr)

/-- What stands last: something that wants an operand, a callee with its opening parenthesis, a
name, or any other primary. -/
inductive Tip where
  | operand
  | argument (callee : String)
  | named (x : String)
  | value (d : Derivation .primary)

/-- The open productions, innermost first, and what stands last. -/
structure Partial where
  nodes : List Node
  tip : Tip

/-- One more argument. -/
def extend : Option (Derivation .arguments) → Derivation .expr → Derivation .arguments
  | none, d => .single d
  | some args, d => .snoc args d

/-- A primary with nothing around it. -/
def ofPrimary (d : Derivation .primary) : Derivation .unary := .unsigned (.base d)

/-- Closes signs and powers. -/
def closeUnary : List Node → Derivation .unary → List Node × Derivation .unary
  | .negate :: nodes, d => closeUnary nodes (.negate d)
  | .power b :: nodes, d => closeUnary nodes (.unsigned (.raise b d))
  | nodes, d => (nodes, d)

/-- Closes up to a product. -/
def closeProduct (nodes : List Node) (d : Derivation .unary) : List Node × Derivation .product :=
  match closeUnary nodes d with
  | (.product op h left :: nodes, d) => (nodes, .multiply op h left d)
  | (nodes, d) => (nodes, .factor d)

/-- Closes up to a sum. -/
def closeSum (nodes : List Node) (d : Derivation .unary) : List Node × Derivation .sum :=
  match closeProduct nodes d with
  | (.sum op h left :: nodes, d) => (nodes, .add op h left d)
  | (nodes, d) => (nodes, .term d)

/-- Closes up to an expression. -/
def closeAll (nodes : List Node) (d : Derivation .unary) : List Node × Derivation .expr :=
  match closeSum nodes d with
  | (.compare op h left :: nodes, d) => (nodes, .expr (.compare op h left d))
  | (nodes, d) => (nodes, .expr (.alone d))

/-- A lexeme where an operand must stand. -/
def stepOperand (nodes : List Node) : Lexeme → Option Partial
  | .word x => some ⟨nodes, .named x⟩
  | .number n => some ⟨nodes, .value (.atom (.number n))⟩
  | .mark .yes => some ⟨nodes, .value (.atom .yes)⟩
  | .mark .no => some ⟨nodes, .value (.atom .no)⟩
  | .mark .leftParen => some ⟨.group :: nodes, .operand⟩
  | .mark .minus => some ⟨.negate :: nodes, .operand⟩
  | .mark _ => none

/-- A closing bracket or a comma behind an expression. -/
def stepBracket (t : Terminal) : List Node × Derivation .expr → Option Partial
  | (.group :: nodes, d) =>
      match t with
      | .rightParen => some ⟨nodes, .value (.atom (.group d))⟩
      | _ => none
  | (.call callee args :: nodes, d) =>
      match t with
      | .rightParen => some ⟨nodes, .value (.call callee (extend args d))⟩
      | .comma => some ⟨.call callee (some (extend args d)) :: nodes, .operand⟩
      | _ => none
  | (.index b args :: nodes, d) =>
      match t with
      | .rightBracket => some ⟨nodes, .value (.index b (extend args d))⟩
      | .comma => some ⟨.index b (some (extend args d)) :: nodes, .operand⟩
      | _ => none
  | _ => none

/-- A comparison behind a sum; it does not stand behind another comparison. -/
def stepCompare (t : Terminal) (h : t ∈ Terminal.comparisons) : List Node × Derivation .sum →
    Option Partial
  | (.compare _ _ _ :: _, _) => none
  | (nodes, d) => some ⟨.compare t h d :: nodes, .operand⟩

/-- An assignment behind an expression; it stands outside of everything else. -/
def stepAssign (t : Terminal) (h : t ∈ Terminal.assignments) : List Node × Derivation .expr →
    Option Partial
  | ([], d) => some ⟨[.assign t h d], .operand⟩
  | (_ :: _, _) => none

/-- An operator or a bracket behind a primary. -/
def stepValue (nodes : List Node) (d : Derivation .primary) (t : Terminal) : Option Partial :=
  if t = .caret then some ⟨.power d :: nodes, .operand⟩
  else if t = .leftBracket then some ⟨.index d none :: nodes, .operand⟩
  else if h : t ∈ Terminal.products then
    some ⟨.product t h (closeProduct nodes (ofPrimary d)).2 :: (closeProduct nodes (ofPrimary d)).1,
      .operand⟩
  else if h : t ∈ Terminal.sums then
    some ⟨.sum t h (closeSum nodes (ofPrimary d)).2 :: (closeSum nodes (ofPrimary d)).1, .operand⟩
  else if h : t ∈ Terminal.comparisons then stepCompare t h (closeSum nodes (ofPrimary d))
  else if h : t ∈ Terminal.assignments then stepAssign t h (closeAll nodes (ofPrimary d))
  else stepBracket t (closeAll nodes (ofPrimary d))

namespace Partial

/-- One lexeme. -/
def step (p : Partial) (l : Lexeme) : Option Partial :=
  match p.tip with
  | .operand => stepOperand p.nodes l
  | .argument x =>
      match l with
      | .mark .rightParen => some ⟨p.nodes, .value (.callEmpty x)⟩
      | _ => stepOperand (.call x none :: p.nodes) l
  | .named x =>
      match l with
      | .mark .leftParen => some ⟨p.nodes, .argument x⟩
      | .mark t => stepValue p.nodes (.atom (.name x)) t
      | _ => none
  | .value d =>
      match l with
      | .mark t => stepValue p.nodes d t
      | _ => none

/-- Lexemes one after the other. -/
def run : Partial → List Lexeme → Option Partial
  | p, [] => some p
  | p, l :: lexemes => (p.step l).bind (run · lexemes)

/-- The derivation that the end of the lexemes completes. -/
def complete : List Node × Derivation .expr → Option (Derivation .start)
  | ([], d) => some (.start (.bare d))
  | ([.assign op h target], d) => some (.start (.assign op h target d))
  | _ => none

/-- The end of the lexemes. -/
def finish (p : Partial) : Option (Derivation .start) :=
  match p.tip with
  | .operand => none
  | .argument _ => none
  | .named x => complete (closeAll p.nodes (ofPrimary (.atom (.name x))))
  | .value d => complete (closeAll p.nodes (ofPrimary d))

/-- Nothing has been read. -/
def initial : Partial := ⟨[], .operand⟩

end Partial

/-- The derivation of a sequence of lexemes. -/
def derive (lexemes : List Lexeme) : Option (Derivation .start) :=
  (Partial.initial.run lexemes).bind Partial.finish

/-! ## What is built derives what was read -/

/-- The lexemes of the left part of a production. -/
def Node.yield : Node → List Lexeme
  | .negate => [.mark .minus]
  | .power b => b.yield ++ [.mark .caret]
  | .product op _ left => left.yield ++ [.mark op]
  | .sum op _ left => left.yield ++ [.mark op]
  | .compare op _ left => left.yield ++ [.mark op]
  | .group => [.mark .leftParen]
  | .call callee args =>
      .word callee :: .mark .leftParen :: args.elim [] fun args => args.yield ++ [.mark .comma]
  | .index b args =>
    b.yield ++ .mark .leftBracket :: args.elim [] fun args => args.yield ++ [.mark .comma]
  | .assign op _ target => target.yield ++ [.mark op]

/-- The lexemes of all open productions. -/
def yieldAll (nodes : List Node) : List Lexeme := nodes.reverse.flatMap Node.yield

/-- The lexemes of what stands last. -/
def Tip.yield : Tip → List Lexeme
  | .operand => []
  | .argument x => [.word x, .mark .leftParen]
  | .named x => [.word x]
  | .value d => d.yield

/-- The lexemes that have been read. -/
def Partial.yield (p : Partial) : List Lexeme := yieldAll p.nodes ++ p.tip.yield

@[simp]
theorem yieldAll_nil : yieldAll [] = [] := rfl

@[simp]
theorem yieldAll_cons (node : Node) (nodes : List Node) :
    yieldAll (node :: nodes) = yieldAll nodes ++ node.yield := by
  simp [yieldAll]

@[simp]
theorem yield_extend (args : Option (Derivation .arguments)) (d : Derivation .expr) :
    (extend args d).yield = (args.elim [] fun args => args.yield ++ [.mark .comma]) ++ d.yield := by
  cases args <;> simp [extend, yield]

theorem yield_closeUnary (nodes : List Node) (d : Derivation .unary) :
    yieldAll (closeUnary nodes d).1 ++ (closeUnary nodes d).2.yield
      = yieldAll nodes ++ d.yield := by
  fun_induction closeUnary nodes d with
  | case1 nodes d ih => simpa [Node.yield, yield] using ih
  | case2 b nodes d ih => simpa [Node.yield, yield] using ih
  | case3 nodes d => rfl

theorem yield_closeProduct (nodes : List Node) (d : Derivation .unary) :
    yieldAll (closeProduct nodes d).1 ++ (closeProduct nodes d).2.yield
      = yieldAll nodes ++ d.yield := by
  rw [← yield_closeUnary]
  unfold closeProduct
  split
  · next h => simp [h, Node.yield, yield]
  · next h => simp [h, yield]

theorem yield_closeSum (nodes : List Node) (d : Derivation .unary) :
    yieldAll (closeSum nodes d).1 ++ (closeSum nodes d).2.yield = yieldAll nodes ++ d.yield := by
  rw [← yield_closeProduct]
  unfold closeSum
  split
  · next h => simp [h, Node.yield, yield]
  · next h => simp [h, yield]

theorem yield_closeAll (nodes : List Node) (d : Derivation .unary) :
    yieldAll (closeAll nodes d).1 ++ (closeAll nodes d).2.yield = yieldAll nodes ++ d.yield := by
  rw [← yield_closeSum]
  unfold closeAll
  split
  · next h => simp [h, Node.yield, yield]
  · next h => simp [h, yield]

theorem yield_stepOperand {nodes : List Node} {l : Lexeme} {p : Partial}
    (h : stepOperand nodes l = some p) :
    p.yield = yieldAll nodes ++ [l] := by
  unfold stepOperand at h
  split at h <;> cases h <;> simp [Partial.yield, Tip.yield, yield, Node.yield]

theorem yield_stepBracket {t : Terminal} {closed : List Node × Derivation .expr} {p : Partial}
    (h : stepBracket t closed = some p) :
    p.yield = yieldAll closed.1 ++ closed.2.yield ++ [.mark t] := by
  unfold stepBracket at h
  split at h
  all_goals first
    | cases h
    | split at h <;> cases h <;> simp [Partial.yield, Tip.yield, yield, Node.yield]

theorem yield_stepCompare {t : Terminal} {ht : t ∈ Terminal.comparisons}
    {closed : List Node × Derivation .sum} {p : Partial} (h : stepCompare t ht closed = some p) :
    p.yield = yieldAll closed.1 ++ closed.2.yield ++ [.mark t] := by
  unfold stepCompare at h
  split at h <;> cases h
  simp [Partial.yield, Tip.yield, Node.yield]

theorem yield_stepAssign {t : Terminal} {ht : t ∈ Terminal.assignments}
    {closed : List Node × Derivation .expr} {p : Partial} (h : stepAssign t ht closed = some p) :
    p.yield = yieldAll closed.1 ++ closed.2.yield ++ [.mark t] := by
  unfold stepAssign at h
  split at h <;> cases h
  simp [Partial.yield, Tip.yield, Node.yield]

theorem yield_stepValue {nodes : List Node} {d : Derivation .primary} {t : Terminal} {p : Partial}
    (h : stepValue nodes d t = some p) : p.yield = yieldAll nodes ++ d.yield ++ [.mark t] := by
  have hd : (ofPrimary d).yield = d.yield := rfl
  unfold stepValue at h
  split_ifs at h with h₁ h₂ h₃ h₄ h₅ h₆
  · cases h
    simp [Partial.yield, Tip.yield, Node.yield, h₁]
  · cases h
    simp [Partial.yield, Tip.yield, Node.yield, h₂]
  · cases h
    rw [← hd, ← yield_closeProduct]
    simp [Partial.yield, Tip.yield, Node.yield]
  · cases h
    rw [← hd, ← yield_closeSum]
    simp [Partial.yield, Tip.yield, Node.yield]
  · rw [← hd, ← yield_closeSum, yield_stepCompare h]
  · rw [← hd, ← yield_closeAll, yield_stepAssign h]
  · rw [← hd, ← yield_closeAll, yield_stepBracket h]

/-- **A step adds its lexeme to the yield.** -/
theorem yield_step {p q : Partial} {l : Lexeme} (h : p.step l = some q) :
    q.yield = p.yield ++ [l] := by
  unfold Partial.step at h
  split at h
  · next htip =>
    rw [yield_stepOperand h]
    simp [Partial.yield, htip, Tip.yield]
  · next x htip =>
    split at h
    · cases h
      simp [Partial.yield, htip, Tip.yield, yield]
    · rw [yield_stepOperand h]
      simp [Partial.yield, htip, Tip.yield, Node.yield]
  · next x htip =>
    split at h
    · cases h
      simp [Partial.yield, htip, Tip.yield]
    · rw [yield_stepValue h]
      simp [Partial.yield, htip, Tip.yield, yield]
    · cases h
  · next d htip =>
    split at h
    · rw [yield_stepValue h]
      simp [Partial.yield, htip, Tip.yield]
    · cases h

theorem yield_run {p q : Partial} {lexemes : List Lexeme} (h : p.run lexemes = some q) :
    q.yield = p.yield ++ lexemes := by
  induction lexemes generalizing p with
  | nil =>
    cases h
    rw [List.append_nil]
  | cons l lexemes ih =>
    obtain ⟨r, hstep, hrun⟩ := Option.bind_eq_some_iff.mp h
    rw [ih hrun, yield_step hstep, List.append_assoc, List.singleton_append]

theorem yield_complete {closed : List Node × Derivation .expr} {d : Derivation .start}
    (h : Partial.complete closed = some d) : d.yield = yieldAll closed.1 ++ closed.2.yield := by
  unfold Partial.complete at h
  split at h <;> cases h <;> simp [yield, Node.yield]

theorem yield_finish {p : Partial} {d : Derivation .start} (h : p.finish = some d) :
    d.yield = p.yield := by
  unfold Partial.finish at h
  split at h
  · cases h
  · cases h
  · next x htip =>
    rw [yield_complete h, yield_closeAll, Partial.yield, htip]
    rfl
  · next e htip =>
    rw [yield_complete h, yield_closeAll, Partial.yield, htip]
    rfl

end Derivation
end LoopNest
