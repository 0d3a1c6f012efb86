import LoopNest.Expr.Parser
import LoopNest.Proofs.Expr.Derive

/-!
# The reader takes the steps of a derivation

The reader of expressions keeps the values of what a derivation keeps.  Each of its steps is the
step on derivations with the values taken afterwards: it fails where that step fails, and gives the
values of what that step gives.  So the reader accepts a sequence of lexemes exactly if it has a
derivation, and then gives the value of the derivation.

* `Derivation.Partial.reading`: what the reader keeps of an open derivation.
* `Derivation.reading_step`, `Derivation.reading_finish`: one lexeme, and the end.
* `Reading.run_eq_ok_iff`: a whole run.
-/

namespace LoopNest

/-! ## Values of numbers -/

namespace Number

theorem Numeral.all_isDigit_chars (n : Numeral) :
    n.chars.all Char.isDigit = (n.fraction.isNone && n.power.isNone) := by
  have hwhole : n.whole.all Char.isDigit = true := List.all_eq_true.mpr n.whole_digits
  have hpoint : n.point.all Char.isDigit = n.fraction.isNone := by
    unfold Numeral.point
    cases n.fraction <;> simp
  have htail : n.tail.all Char.isDigit = n.power.isNone := by
    unfold Numeral.tail
    cases n.power with
    | none => rfl
    | some p => rcases p.letter_eq with h | h <;> simp [Power.chars, h]
  rw [Numeral.chars, List.all_append, List.all_append, hwhole, hpoint, htail, Bool.true_and]

theorem Numeral.chars_of_isNone {n : Numeral} (h : (n.fraction.isNone && n.power.isNone) = true) :
    n.chars = n.whole := by
  rw [Bool.and_eq_true, Option.isNone_iff_eq_none, Option.isNone_iff_eq_none] at h
  rw [Numeral.chars, Numeral.point, Numeral.tail, h.1, h.2]
  simp

end Number

theorem Reading.numberValue_chars (n : Number.Numeral) :
    Reading.numberValue n.chars = n.literal := by
  unfold Reading.numberValue Number.Numeral.literal
  rw [n.all_isDigit_chars]
  split
  · next h =>
    rw [Number.Numeral.chars_of_isNone h]
    exact congrArg (fun k : Nat => Literal.int k) (Number.ofDigits_digitValues n.whole)
  · have hread : Number.readFloat? n.chars = some (n.read false) := Number.readFloat?_signed n false
    rw [hread, Option.getD_some]

namespace Derivation

/-! ## What the reader keeps -/

/-- The values of the arguments so far, last first. -/
def heldArguments (args : Option (Derivation .arguments)) : List Expr :=
  args.elim [] fun args => List.reverse args.value

/-- An open production as the reader keeps it. -/
def Node.frame : Node → Frame
  | .negate => .negate
  | .power b => .power b.value
  | .product op _ left => .product op.spelling left.value
  | .sum op _ left => .sum op.spelling left.value
  | .compare op _ left => .compare op.spelling left.value
  | .group => .group
  | .call callee args => .call callee (heldArguments args)
  | .index b args => .index b.value (heldArguments args)
  | .assign op _ target => .assign op.spelling target.value

/-- The state of the reader at an open derivation. -/
def Partial.reading (p : Partial) : Reading :=
  match p.tip with
  | .operand => ⟨p.nodes.map Node.frame, .operand⟩
  | .argument x => ⟨.call x [] :: p.nodes.map Node.frame, .argument⟩
  | .named x => ⟨p.nodes.map Node.frame, .named x⟩
  | .value d => ⟨p.nodes.map Node.frame, .value d.value⟩

/-- A closed derivation as the reader keeps it. -/
def closing {c : Category} (closed : List Node × Derivation c) : List Frame × c.Value :=
  (closed.1.map Node.frame, closed.2.value)

theorem value_extend (args : Option (Derivation .arguments)) (d : Derivation .expr) :
    (extend args d).value = (d.value :: heldArguments args).reverse := by
  cases args <;> simp [extend, value, heldArguments]

theorem heldArguments_extend (args : Option (Derivation .arguments)) (d : Derivation .expr) :
    heldArguments (some (extend args d)) = d.value :: heldArguments args := by
  rw [heldArguments, Option.elim_some, value_extend, List.reverse_reverse]

/-! ## Closing -/

theorem closeUnary_value (nodes : List Node) (d : Derivation .unary) :
    Reading.closeUnary (nodes.map Node.frame) d.value = closing (closeUnary nodes d) := by
  fun_induction closeUnary nodes d with
  | case1 nodes d ih => exact ih
  | case2 b nodes d ih => exact ih
  | case3 nodes d hnegate hpower =>
    cases nodes with
    | nil => rfl
    | cons node nodes =>
      cases node with
      | negate => exact absurd rfl (hnegate nodes)
      | power b => exact absurd rfl (hpower b nodes)
      | _ => rfl

theorem closeProduct_value (nodes : List Node) (d : Derivation .unary) :
    Reading.closeProduct (nodes.map Node.frame) d.value = closing (closeProduct nodes d) := by
  unfold Reading.closeProduct closeProduct
  rw [closeUnary_value]
  obtain ⟨nodes', d'⟩ := closeUnary nodes d
  cases nodes' with
  | nil => rfl
  | cons node nodes' => cases node <;> rfl

theorem closeSum_value (nodes : List Node) (d : Derivation .unary) :
    Reading.closeSum (nodes.map Node.frame) d.value = closing (closeSum nodes d) := by
  unfold Reading.closeSum closeSum
  rw [closeProduct_value]
  obtain ⟨nodes', d'⟩ := closeProduct nodes d
  cases nodes' with
  | nil => rfl
  | cons node nodes' => cases node <;> rfl

theorem closeAll_value (nodes : List Node) (d : Derivation .unary) :
    Reading.closeAll (nodes.map Node.frame) d.value = closing (closeAll nodes d) := by
  unfold Reading.closeAll closeAll
  rw [closeSum_value]
  obtain ⟨nodes', d'⟩ := closeSum nodes d
  cases nodes' with
  | nil => rfl
  | cons node nodes' => cases node <;> rfl

/-! ## One lexeme -/

end Derivation

/-- The lexeme as a token at a place. -/
def Lexeme.token (l : Lexeme) (place : Place) : Token := ⟨l.terminal, l.chars, place⟩

namespace Derivation

theorem reading_stepOperand {l : Lexeme} (hl : l.Proper) (nodes : List Node)
    (expected : List Terminal) (place : Place) :
    (Reading.stepOperand (nodes.map Node.frame) expected (l.token place)).toOption =
      (stepOperand nodes l).map Partial.reading := by
  cases l with
  | word x =>
    show some (Reading.mk (nodes.map Node.frame) (.named (String.ofList x.toList))) = _
    rw [String.ofList_toList]
    rfl
  | number n =>
    show some (Reading.mk (nodes.map Node.frame) (.value (.literal (Reading.numberValue n.chars))))
        = _
    rw [Reading.numberValue_chars]
    rfl
  | mark t =>
    cases t with
    | word => exact absurd rfl hl
    | number => exact absurd rfl hl
    | _ => rfl

theorem reading_stepBracket (t : Terminal) (place : Place) (closed : List Node × Derivation .expr) :
    (Reading.stepBracket ((Lexeme.mark t).token place) (closing closed)).toOption =
      (stepBracket t closed).map Partial.reading := by
  obtain ⟨nodes, d⟩ := closed
  cases nodes with
  | nil => rfl
  | cons node nodes =>
    cases node with
    | group => cases t <;> rfl
    | call callee args =>
      have hvalue := value_extend args d
      have hheld := heldArguments_extend args d
      cases t <;>
        simp [Reading.stepBracket, stepBracket, closing, Node.frame, Lexeme.token, Lexeme.terminal,
          Except.toOption, Partial.reading, value, hvalue, hheld]
    | index b args =>
      have hvalue := value_extend args d
      have hheld := heldArguments_extend args d
      cases t <;>
        simp [Reading.stepBracket, stepBracket, closing, Node.frame, Lexeme.token, Lexeme.terminal,
          Except.toOption, Partial.reading, value, hvalue, hheld]
    | _ => rfl

theorem stepBracket_eq_none {t : Terminal} (ht : t ∉ Terminal.afterArgument)
    (closed : List Node × Derivation .expr) :
    stepBracket t closed = none := by
  obtain ⟨nodes, d⟩ := closed
  cases nodes with
  | nil => rfl
  | cons node nodes =>
    cases node with
    | group | call _ _ | index _ _ =>
      cases t with
      | rightParen | rightBracket | comma => exact absurd (by decide) ht
      | _ => rfl
    | _ => rfl

theorem reading_stepValue (nodes : List Node) (d : Derivation .primary) (follow : List Terminal)
    (t : Terminal) (place : Place) :
    (Reading.stepValue (nodes.map Node.frame) d.value follow ((Lexeme.mark t).token place)).toOption
      = (stepValue nodes d t).map Partial.reading := by
  have hproduct : Reading.closeProduct (nodes.map Node.frame) d.value
      = closing (closeProduct nodes (ofPrimary d)) :=
    closeProduct_value nodes (ofPrimary d)
  have hsum : Reading.closeSum (nodes.map Node.frame) d.value
      = closing (closeSum nodes (ofPrimary d)) :=
    closeSum_value nodes (ofPrimary d)
  have hall : Reading.closeAll (nodes.map Node.frame) d.value
      = closing (closeAll nodes (ofPrimary d)) :=
    closeAll_value nodes (ofPrimary d)
  have hnone : t ∉ Terminal.afterArgument → stepBracket t (closeAll nodes (ofPrimary d)) = none :=
    fun ht => stepBracket_eq_none ht _
  unfold Reading.stepValue
  cases t with
  | star | slash | percent =>
    simp only [Lexeme.token, Lexeme.terminal, hproduct]
    rfl
  | plus | minus =>
    simp only [Lexeme.token, Lexeme.terminal, hsum]
    rfl
  | less | lessEqual | greater | greaterEqual | equalEqual | notEqual =>
    simp only [Lexeme.token, Lexeme.terminal, hsum]
    show _ = (stepCompare _ (by decide) (closeSum nodes (ofPrimary d))).map Partial.reading
    obtain ⟨nodes', d'⟩ := closeSum nodes (ofPrimary d)
    cases nodes' with
    | nil => rfl
    | cons node nodes' => cases node <;> rfl
  | equal | plusEqual | minusEqual | starEqual | slashEqual =>
    simp only [Lexeme.token, Lexeme.terminal, hall]
    show _ = (stepAssign _ (by decide) (closeAll nodes (ofPrimary d))).map Partial.reading
    obtain ⟨nodes', d'⟩ := closeAll nodes (ofPrimary d)
    cases nodes' <;> rfl
  | rightParen | rightBracket | comma =>
    simp only [Lexeme.token, Lexeme.terminal, hall]
    exact reading_stepBracket _ place (closeAll nodes (ofPrimary d))
  | caret | leftBracket => rfl
  | finish | leftParen | yes | no | word | number =>
    exact (congrArg (Option.map Partial.reading) (hnone (by decide))).symm

/-- **The reader's step on a lexeme is the derivation's step**, with the values taken afterwards. -/
theorem reading_step {l : Lexeme} (hl : l.Proper) (p : Partial) (place : Place) :
    (p.reading.step (l.token place)).toOption = (p.step l).map Partial.reading := by
  obtain ⟨nodes, tip⟩ := p
  cases tip with
  | operand => exact reading_stepOperand hl nodes Terminal.operands place
  | argument x =>
    have hoperand :=
      reading_stepOperand hl (.call x none :: nodes) (.rightParen :: Terminal.operands) place
    cases l with
    | word y => exact hoperand
    | number n => exact hoperand
    | mark t =>
      cases t with
      | rightParen => rfl
      | _ => exact hoperand
  | named x =>
    cases l with
    | word y => rfl
    | number n => rfl
    | mark t =>
      have hvalue :=
        reading_stepValue nodes (.atom (.name x)) (.leftParen :: Terminal.followers) t place
      cases t with
      | leftParen => rfl
      | _ => exact hvalue
  | value d =>
    cases l with
    | word y => rfl
    | number n => rfl
    | mark t => exact reading_stepValue nodes d Terminal.followers t place

theorem reading_complete (closed : List Node × Derivation .expr) :
    (Reading.complete (closing closed)).toOption = (Partial.complete closed).map value := by
  obtain ⟨nodes, d⟩ := closed
  cases nodes with
  | nil => rfl
  | cons node nodes =>
    cases nodes with
    | nil =>
      cases node with
      | assign op h target =>
        simp only [Terminal.assignments, List.mem_cons, List.not_mem_nil, or_false] at h
        rcases h with rfl | rfl | rfl | rfl | rfl <;> rfl
      | _ => rfl
    | cons node' nodes => cases node <;> rfl

/-- **The reader ends where the derivation does**, with its value. -/
theorem reading_finish (p : Partial) : p.reading.finish.toOption = p.finish.map value := by
  obtain ⟨nodes, tip⟩ := p
  cases tip with
  | operand => rfl
  | argument x => rfl
  | named x =>
    have hall := closeAll_value nodes (ofPrimary (.atom (.name x)))
    show (Reading.complete (Reading.closeAll (nodes.map Node.frame) (.name x))).toOption = _
    exact (congrArg (fun closed => (Reading.complete closed).toOption) hall).trans
      (reading_complete _)
  | value d =>
    have hall := closeAll_value nodes (ofPrimary d)
    show (Reading.complete (Reading.closeAll (nodes.map Node.frame) d.value)).toOption = _
    exact (congrArg (fun closed => (Reading.complete closed).toOption) hall).trans
      (reading_complete _)

end Derivation

/-! ## Whole runs -/

/-- The token is the lexeme, at some place. -/
def Token.Stands (t : Token) (l : Lexeme) : Prop := l.Proper ∧ t = l.token t.place

open LoopNest.Derivation

/-- **A run of the reader over lexemes gives the value of their derivation**, and fails if they have
none. -/
theorem Reading.run_eq_ok_iff {tokens : List Token} {lexemes : List Lexeme}
    (h : List.Forall₂ Token.Stands tokens lexemes) (p : Partial) (last : Place) {e : Expr} :
    Reading.run none p.reading last tokens = .ok e ↔
      ∃ d, (p.run lexemes).bind Partial.finish = some d ∧ d.value = e := by
  induction h generalizing p last with
  | nil =>
    have hfinish := reading_finish p
    rw [Reading.run]
    cases hr : p.reading.finish with
    | error fault =>
      rw [hr] at hfinish
      have hnone : p.finish = none := Option.map_eq_none_iff.mp hfinish.symm
      simp [Except.mapError, Partial.run, hnone]
    | ok e' =>
      rw [hr] at hfinish
      obtain ⟨d, hd, hvalue⟩ := Option.map_eq_some_iff.mp hfinish.symm
      simp [Except.mapError, Partial.run, hd, hvalue]
  | @cons t l tokens lexemes hstands _ ih =>
    obtain ⟨hproper, htoken⟩ := hstands
    have hstep := reading_step hproper p t.place
    rw [← htoken] at hstep
    rw [Reading.run]
    cases hr : p.reading.step t with
    | error fault =>
      rw [hr] at hstep
      have hnone : p.step l = none := Option.map_eq_none_iff.mp hstep.symm
      simp [Partial.run, hnone]
    | ok r =>
      rw [hr] at hstep
      obtain ⟨q, hq, rfl⟩ := Option.map_eq_some_iff.mp hstep.symm
      rw [Partial.run, hq, Option.bind_some]
      exact ih q t.place

end LoopNest
