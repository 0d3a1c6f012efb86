import LoopNest.Expr.Parser
import LoopNest.Proofs.Expr.Derive

/-!
# The grammar is unambiguous

Reading the yield of a derivation builds that derivation.  As whatever is built derives what was
read, a sequence of lexemes has at most one derivation, and it has one exactly if it can be built.

## Why closing is compared and not what is open

Behind the same lexemes the reader may have many operators open, as after `-a^-b`.  Which ones does
not matter: what follows looks at them only through closing.  So a derivation of a unary counts as
read when closing signs and powers over the last primary gives what closing them over the derivation
gives, and the looser categories have their own way of closing.

* `Derivation.Built`, `Derivation.built`: reading a yield builds the derivation, category by
  category.
* `Derivation.derive_eq_some_iff`: a sequence is built into a derivation exactly if it is its yield.
-/

namespace LoopNest
namespace Derivation

/-! ## Closing -/

/-- How tight an open production binds. -/
def Node.binding : Node → Nat
  | .negate | .power _ => 4
  | .product _ _ _ => 3
  | .sum _ _ _ => 2
  | .compare _ _ _ => 1
  | _ => 0

/-- Closing down to a level leaves these productions open. -/
def Looser (level : Nat) (nodes : List Node) : Prop := ∀ node ∈ nodes.head?, node.binding < level

theorem looser_cons {level : Nat} {node : Node} {nodes : List Node} (h : node.binding < level) :
    Looser level (node :: nodes) := by
  simpa [Looser] using h

theorem Looser.mono {level level' : Nat} {nodes : List Node} (h : Looser level nodes)
    (hle : level ≤ level') :
    Looser level' nodes :=
  fun node hnode => (h node hnode).trans_le hle

theorem closeUnary_eq_self {nodes : List Node} (h : Looser 4 nodes) (d : Derivation .unary) :
    closeUnary nodes d = (nodes, d) := by
  unfold closeUnary
  split
  · exact absurd (h _ rfl) (by decide)
  · exact absurd (h _ rfl) (by simp [Node.binding])
  · rfl

theorem closeProduct_of_factor {nodes nodes' : List Node} {d d' : Derivation .unary}
    (hnodes : Looser 3 nodes) (h : closeUnary nodes' d' = closeUnary nodes d) :
    closeProduct nodes' d' = (nodes, .factor d) := by
  rw [closeUnary_eq_self (hnodes.mono (by decide))] at h
  unfold closeProduct
  rw [h]
  split
  · next heq =>
    cases heq
    exact absurd (hnodes _ rfl) (by simp [Node.binding])
  · next heq =>
    cases heq
    rfl

theorem closeProduct_of_multiply {nodes nodes' : List Node} {op : Terminal}
    {hop : op ∈ Terminal.products} {left : Derivation .product} {d d' : Derivation .unary}
    (h : closeUnary nodes' d' = closeUnary (.product op hop left :: nodes) d) :
    closeProduct nodes' d' = (nodes, .multiply op hop left d) := by
  rw [closeUnary_eq_self (looser_cons (by simp [Node.binding]))] at h
  unfold closeProduct
  rw [h]

theorem closeSum_of_term {nodes nodes' : List Node} {d : Derivation .product}
    {d' : Derivation .unary} (hnodes : Looser 2 nodes) (h : closeProduct nodes' d' = (nodes, d)) :
    closeSum nodes' d' = (nodes, .term d) := by
  unfold closeSum
  rw [h]
  split
  · next heq =>
    cases heq
    exact absurd (hnodes _ rfl) (by simp [Node.binding])
  · next heq =>
    cases heq
    rfl

theorem closeSum_of_add {nodes nodes' : List Node} {op : Terminal} {hop : op ∈ Terminal.sums}
    {left : Derivation .sum} {d : Derivation .product} {d' : Derivation .unary}
    (h : closeProduct nodes' d' = (.sum op hop left :: nodes, d)) :
    closeSum nodes' d' = (nodes, .add op hop left d) := by
  unfold closeSum
  rw [h]

theorem closeAll_of_alone {nodes nodes' : List Node} {d : Derivation .sum} {d' : Derivation .unary}
    (hnodes : Looser 1 nodes) (h : closeSum nodes' d' = (nodes, d)) :
    closeAll nodes' d' = (nodes, .expr (.alone d)) := by
  unfold closeAll
  rw [h]
  split
  · next heq =>
    cases heq
    exact absurd (hnodes _ rfl) (by simp [Node.binding])
  · next heq =>
    cases heq
    rfl

theorem closeAll_of_compare {nodes nodes' : List Node} {op : Terminal}
    {hop : op ∈ Terminal.comparisons} {left d : Derivation .sum} {d' : Derivation .unary}
    (h : closeSum nodes' d' = (.compare op hop left :: nodes, d)) :
    closeAll nodes' d' = (nodes, .expr (.compare op hop left d)) := by
  unfold closeAll
  rw [h]

/-! ## Steps -/

/-- The primary that stands last. -/
def Tip.primary? : Tip → Option (Derivation .primary)
  | .operand => none
  | .argument _ => none
  | .named x => some (.atom (.name x))
  | .value d => some d

/-- Behind a primary, every lexeme but an opening parenthesis is taken alike. -/
theorem step_mark {nodes : List Node} {tip : Tip} {d : Derivation .primary}
    (h : tip.primary? = some d) {t : Terminal} (ht : t ≠ .leftParen) :
    Partial.step ⟨nodes, tip⟩ (.mark t) = stepValue nodes d t := by
  cases tip with
  | operand => cases h
  | argument x => cases h
  | named x =>
    cases h
    unfold Partial.step
    dsimp only
    split
    · next heq =>
      cases heq
      exact absurd rfl ht
    · next heq =>
      cases heq
      rfl
    · next heq => exact absurd rfl (heq t)
  | value d' =>
    cases h
    rfl

/-- The lexemes of an operand have been read on top of the open productions: the last of them is a
primary. -/
def ReadsTo (nodes : List Node) (lexemes : List Lexeme) (nodes' : List Node)
    (d : Derivation .primary) : Prop :=
  ∃ tip, Partial.run ⟨nodes, .operand⟩ lexemes = some ⟨nodes', tip⟩ ∧ tip.primary? = some d

theorem run_append (p : Partial) (lexemes more : List Lexeme) :
    p.run (lexemes ++ more) = (p.run lexemes).bind (·.run more) := by
  induction lexemes generalizing p with
  | nil => rfl
  | cons l lexemes ih =>
    rw [List.cons_append, Partial.run, Partial.run, Option.bind_assoc]
    exact congrArg _ (funext fun q => ih q)

/-- An operator goes on with the next operand. -/
theorem ReadsTo.then {nodes nodes' nodes'' nodes₃ : List Node} {lexemes more : List Lexeme}
    {d d' : Derivation .primary} {t : Terminal} (h : ReadsTo nodes lexemes nodes' d)
    (ht : t ≠ .leftParen) (hstep : stepValue nodes' d t = some ⟨nodes'', .operand⟩)
    (hmore : ReadsTo nodes'' more nodes₃ d') :
    ReadsTo nodes (lexemes ++ .mark t :: more) nodes₃ d' := by
  obtain ⟨tip, hrun, htip⟩ := h
  obtain ⟨tip', hrun', htip'⟩ := hmore
  refine ⟨tip', ?_, htip'⟩
  rw [run_append, hrun, Option.bind_some, Partial.run, step_mark htip ht, hstep, Option.bind_some,
    hrun']

/-- A closing bracket makes a primary. -/
theorem ReadsTo.close {nodes nodes' nodes'' : List Node} {lexemes : List Lexeme}
    {d d' : Derivation .primary} {t : Terminal} (h : ReadsTo nodes lexemes nodes' d)
    (ht : t ≠ .leftParen) (hstep : stepValue nodes' d t = some ⟨nodes'', .value d'⟩) :
    ReadsTo nodes (lexemes ++ [.mark t]) nodes'' d' := by
  obtain ⟨tip, hrun, htip⟩ := h
  refine ⟨.value d', ?_, rfl⟩
  rw [run_append, hrun, Option.bind_some, Partial.run, step_mark htip ht, hstep]
  rfl

theorem stepValue_product {nodes nodes' : List Node} {d : Derivation .primary}
    {left : Derivation .product} {t : Terminal} (ht : t ∈ Terminal.products)
    (h : closeProduct nodes (ofPrimary d) = (nodes', left)) :
    stepValue nodes d t = some ⟨.product t ht left :: nodes', .operand⟩ := by
  unfold stepValue
  rw [if_neg (ne_of_mem_of_not_mem ht (by decide)), if_neg (ne_of_mem_of_not_mem ht (by decide)),
    dif_pos ht, h]

theorem stepValue_sum {nodes nodes' : List Node} {d : Derivation .primary} {left : Derivation .sum}
    {t : Terminal} (ht : t ∈ Terminal.sums) (h : closeSum nodes (ofPrimary d) = (nodes', left)) :
    stepValue nodes d t = some ⟨.sum t ht left :: nodes', .operand⟩ := by
  have hproducts : ∀ t ∈ Terminal.sums, t ∉ Terminal.products := by decide
  unfold stepValue
  rw [if_neg (ne_of_mem_of_not_mem ht (by decide)), if_neg (ne_of_mem_of_not_mem ht (by decide)),
    dif_neg (hproducts t ht), dif_pos ht, h]

theorem stepValue_compare {nodes nodes' : List Node} {d : Derivation .primary}
    {left : Derivation .sum} {t : Terminal} (ht : t ∈ Terminal.comparisons)
    (hnodes : Looser 1 nodes') (h : closeSum nodes (ofPrimary d) = (nodes', left)) :
    stepValue nodes d t = some ⟨.compare t ht left :: nodes', .operand⟩ := by
  have hothers : ∀ t ∈ Terminal.comparisons, t ∉ Terminal.products ∧ t ∉ Terminal.sums := by decide
  unfold stepValue
  rw [if_neg (ne_of_mem_of_not_mem ht (by decide)), if_neg (ne_of_mem_of_not_mem ht (by decide)),
    dif_neg (hothers t ht).1, dif_neg (hothers t ht).2, dif_pos ht, h]
  unfold stepCompare
  split
  · next heq =>
    cases heq
    exact absurd (hnodes _ rfl) (by simp [Node.binding])
  · next heq =>
    cases heq
    rfl

theorem stepValue_assign {nodes : List Node} {d : Derivation .primary} {target : Derivation .expr}
    {t : Terminal} (ht : t ∈ Terminal.assignments)
    (h : closeAll nodes (ofPrimary d) = ([], target)) :
    stepValue nodes d t = some ⟨[.assign t ht target], .operand⟩ := by
  have hothers : ∀ t ∈ Terminal.assignments,
      t ∉ Terminal.products ∧ t ∉ Terminal.sums ∧ t ∉ Terminal.comparisons := by decide
  unfold stepValue
  rw [if_neg (ne_of_mem_of_not_mem ht (by decide)), if_neg (ne_of_mem_of_not_mem ht (by decide)),
    dif_neg (hothers t ht).1, dif_neg (hothers t ht).2.1, dif_neg (hothers t ht).2.2, dif_pos ht, h]
  rfl

theorem stepValue_bracket {t : Terminal} (ht : t ∈ Terminal.afterArgument) (nodes : List Node)
    (d : Derivation .primary) :
    stepValue nodes d t = stepBracket t (closeAll nodes (ofPrimary d)) := by
  have hothers : ∀ t ∈ Terminal.afterArgument, t ∉ Terminal.products ∧ t ∉ Terminal.sums ∧
      t ∉ Terminal.comparisons ∧ t ∉ Terminal.assignments := by decide
  unfold stepValue
  rw [if_neg (ne_of_mem_of_not_mem ht (by decide)), if_neg (ne_of_mem_of_not_mem ht (by decide)),
    dif_neg (hothers t ht).1, dif_neg (hothers t ht).2.1, dif_neg (hothers t ht).2.2.1,
    dif_neg (hothers t ht).2.2.2]

/-- An opening lexeme in front of an operand. -/
theorem ReadsTo.after {nodes nodes' nodes'' : List Node} {l : Lexeme} {lexemes : List Lexeme}
    {d : Derivation .primary} (hstep : stepOperand nodes l = some ⟨nodes', .operand⟩)
    (h : ReadsTo nodes' lexemes nodes'' d) : ReadsTo nodes (l :: lexemes) nodes'' d := by
  obtain ⟨tip, hrun, htip⟩ := h
  refine ⟨tip, ?_, htip⟩
  show (stepOperand nodes l).bind (·.run lexemes) = _
  rw [hstep, Option.bind_some, hrun]

/-- Arguments are read alike behind the opening parenthesis of a call and behind any other. -/
theorem ReadsTo.argument {callee : String} {nodes nodes' : List Node} {lexemes : List Lexeme}
    {d : Derivation .primary} (h : ReadsTo (.call callee none :: nodes) lexemes nodes' d) :
    ∃ tip, Partial.run ⟨nodes, .argument callee⟩ lexemes = some ⟨nodes', tip⟩ ∧
      tip.primary? = some d := by
  obtain ⟨tip, hrun, htip⟩ := h
  refine ⟨tip, ?_, htip⟩
  cases lexemes with
  | nil =>
    cases hrun
    cases htip
  | cons l lexemes =>
    obtain ⟨p, hstep, hrun'⟩ := Option.bind_eq_some_iff.mp hrun
    have hne : l ≠ .mark .rightParen := by
      rintro rfl
      cases hstep
    have hargument : Partial.step ⟨nodes, .argument callee⟩ l = some p := by
      rw [← hstep]
      unfold Partial.step
      dsimp only
      split
      · exact absurd rfl hne
      · rfl
    rw [Partial.run, hargument, Option.bind_some, hrun']

/-! ## Productions -/

/-- Reading the yield of a derivation builds the derivation. -/
def Built : {c : Category} → Derivation c → Prop
  | .start, d => ∃ p, Partial.initial.run d.yield = some p ∧ p.finish = some d
  | .statement, d => ∃ p, Partial.initial.run d.yield = some p ∧ p.finish = some (.start d)
  | .expr, d => ∀ nodes, Looser 1 nodes → ∃ nodes' e,
      ReadsTo nodes d.yield nodes' e ∧ closeAll nodes' (ofPrimary e) = (nodes, d)
  | .comparison, d => ∀ nodes, Looser 1 nodes → ∃ nodes' e,
      ReadsTo nodes d.yield nodes' e ∧ closeAll nodes' (ofPrimary e) = (nodes, .expr d)
  | .sum, d => ∀ nodes, Looser 2 nodes → ∃ nodes' e,
      ReadsTo nodes d.yield nodes' e ∧ closeSum nodes' (ofPrimary e) = (nodes, d)
  | .product, d => ∀ nodes, Looser 3 nodes → ∃ nodes' e,
      ReadsTo nodes d.yield nodes' e ∧ closeProduct nodes' (ofPrimary e) = (nodes, d)
  | .unary, d => ∀ nodes, ∃ nodes' e,
      ReadsTo nodes d.yield nodes' e ∧ closeUnary nodes' (ofPrimary e) = closeUnary nodes d
  | .power, d => ∀ nodes, ∃ nodes' e,
      ReadsTo nodes d.yield nodes' e ∧ closeUnary nodes' (ofPrimary e)
        = closeUnary nodes (.unsigned d)
  | .primary, d => ∀ nodes, ReadsTo nodes d.yield nodes d
  | .atom, d => ∀ nodes, ReadsTo nodes d.yield nodes (.atom d)
  -- the list may stand in a call or in an indexing
  | .arguments, d =>
    ∀ nodes (node : Option (Derivation .arguments) → Node), (∀ args, (node args).binding = 0) →
      (∀ args last, stepBracket .comma (node args :: nodes, last) =
        some ⟨node (some (extend args last)) :: nodes, .operand⟩) →
      ∃ nodes' e args last, ReadsTo (node none :: nodes) d.yield nodes' e ∧
        closeAll nodes' (ofPrimary e) = (node args :: nodes, last) ∧ extend args last = d

section built

variable {target : Derivation .expr} {args : Derivation .arguments}

theorem built_multiply {op : Terminal} (hop : op ∈ Terminal.products) {left : Derivation .product}
    {right : Derivation .unary} (hleft : Built left) (hright : Built right) :
    Built (.multiply op hop left right) := by
  intro nodes hnodes
  obtain ⟨nodes₁, e₁, hread₁, hclose₁⟩ := hleft nodes hnodes
  obtain ⟨nodes₂, e₂, hread₂, hclose₂⟩ := hright (.product op hop left :: nodes)
  exact ⟨nodes₂, e₂, hread₁.then (ne_of_mem_of_not_mem hop (by decide))
    (stepValue_product hop hclose₁) hread₂, closeProduct_of_multiply hclose₂⟩

theorem built_add {op : Terminal} (hop : op ∈ Terminal.sums) {left : Derivation .sum}
    {right : Derivation .product} (hleft : Built left) (hright : Built right) :
    Built (.add op hop left right) := by
  intro nodes hnodes
  obtain ⟨nodes₁, e₁, hread₁, hclose₁⟩ := hleft nodes hnodes
  obtain ⟨nodes₂, e₂, hread₂, hclose₂⟩ :=
    hright (.sum op hop left :: nodes) (looser_cons (by simp [Node.binding]))
  exact ⟨nodes₂, e₂, hread₁.then (ne_of_mem_of_not_mem hop (by decide))
    (stepValue_sum hop hclose₁) hread₂, closeSum_of_add hclose₂⟩

theorem built_compare {op : Terminal} (hop : op ∈ Terminal.comparisons)
    {left right : Derivation .sum} (hleft : Built left) (hright : Built right) :
    Built (.compare op hop left right) := by
  intro nodes hnodes
  obtain ⟨nodes₁, e₁, hread₁, hclose₁⟩ := hleft nodes (hnodes.mono (by decide))
  obtain ⟨nodes₂, e₂, hread₂, hclose₂⟩ := hright (.compare op hop left :: nodes)
    (looser_cons (by simp [Node.binding]))
  exact ⟨nodes₂, e₂,
    hread₁.then (ne_of_mem_of_not_mem hop (by decide))
      (stepValue_compare hop hnodes hclose₁) hread₂,
    closeAll_of_compare hclose₂⟩

theorem built_negate {d : Derivation .unary} (h : Built d) : Built (.negate d) := by
  intro nodes
  obtain ⟨nodes', e, hread, hclose⟩ := h (.negate :: nodes)
  exact ⟨nodes', e, hread.after rfl, hclose⟩

theorem built_raise {b : Derivation .primary} {exponent : Derivation .unary} (hb : Built b)
    (hexponent : Built exponent) : Built (.raise b exponent) := by
  intro nodes
  obtain ⟨nodes', e, hread, hclose⟩ := hexponent (.power b :: nodes)
  exact ⟨nodes', e, (hb nodes).then (by decide) rfl hread, hclose⟩

theorem built_group {d : Derivation .expr} (h : Built d) : Built (.group d) := by
  intro nodes
  obtain ⟨nodes', e, hread, hclose⟩ := h (.group :: nodes) (looser_cons (by decide))
  refine (hread.close (by decide) ?_).after rfl
  rw [stepValue_bracket (by decide), hclose]
  rfl

theorem built_index {b : Derivation .primary} (hb : Built b) (hargs : Built args) :
    Built (.index b args) := by
  intro nodes
  obtain ⟨nodes', e, before, last, hread, hclose, rfl⟩ :=
    hargs nodes (.index b) (fun _ => rfl) (fun _ _ => rfl)
  have hclosing : ReadsTo (.index b none :: nodes)
      ((extend before last).yield ++ [.mark .rightBracket]) nodes
      (.index b (extend before last)) := by
    refine hread.close (by decide) ?_
    rw [stepValue_bracket (by decide), hclose]
    rfl
  exact (hb nodes).then (by decide) rfl hclosing

theorem built_call (callee : String) (hargs : Built args) : Built (.call callee args) := by
  intro nodes
  obtain ⟨nodes', e, before, last, hread, hclose, rfl⟩ :=
    hargs nodes (.call callee) (fun _ => rfl) (fun _ _ => rfl)
  obtain ⟨tip, hrun, htip⟩ := hread.argument
  have hstep : stepValue nodes' e .rightParen
      = some ⟨nodes, .value (.call callee (extend before last))⟩ := by
    rw [stepValue_bracket (by decide), hclose]
    rfl
  refine ⟨.value (.call callee (extend before last)), ?_, rfl⟩
  show Partial.run ⟨nodes, .argument callee⟩ ((extend before last).yield ++ [.mark .rightParen]) = _
  rw [run_append, hrun, Option.bind_some, Partial.run, step_mark htip (by decide), hstep]
  rfl

theorem built_single {d : Derivation .expr} (h : Built d) : Built (.single d) := by
  intro nodes node hbinding _
  obtain ⟨nodes', e, hread, hclose⟩ := h (node none :: nodes) (looser_cons (by simp [hbinding]))
  exact ⟨nodes', e, none, d, hread, hclose, rfl⟩

theorem built_snoc {d : Derivation .expr} (hargs : Built args) (h : Built d) :
    Built (.snoc args d) := by
  intro nodes node hbinding hcomma
  obtain ⟨nodes₁, e₁, before, last, hread₁, hclose₁, hargs'⟩ := hargs nodes node hbinding hcomma
  obtain ⟨nodes₂, e₂, hread₂, hclose₂⟩ :=
    h (node (some args) :: nodes) (looser_cons (by simp [hbinding]))
  refine ⟨nodes₂, e₂, some args, d, hread₁.then (by decide) ?_ hread₂, hclose₂, rfl⟩
  rw [stepValue_bracket (by decide), hclose₁, hcomma, hargs']

theorem finish_of_readsTo {nodes nodes' : List Node} {lexemes : List Lexeme}
    {e : Derivation .primary} {d : Derivation .expr} (hread : ReadsTo [] lexemes nodes' e)
    (hclose : closeAll nodes' (ofPrimary e) = (nodes, d)) :
    ∃ p, Partial.initial.run lexemes = some p ∧ p.finish = Partial.complete (nodes, d) := by
  obtain ⟨tip, hrun, htip⟩ := hread
  refine ⟨⟨nodes', tip⟩, hrun, ?_⟩
  cases tip with
  | operand => cases htip
  | argument x => cases htip
  | named x =>
    cases htip
    rw [← hclose]
    rfl
  | value d' =>
    cases htip
    rw [← hclose]
    rfl

theorem built_bare {d : Derivation .expr} (h : Built d) : Built (.bare d) := by
  obtain ⟨nodes', e, hread, hclose⟩ := h [] (by simp [Looser])
  exact finish_of_readsTo hread hclose

theorem built_assign {op : Terminal} (hop : op ∈ Terminal.assignments) {value : Derivation .expr}
    (htarget : Built target) (hvalue : Built value) : Built (.assign op hop target value) := by
  obtain ⟨nodes₁, e₁, hread₁, hclose₁⟩ := htarget [] (by simp [Looser])
  obtain ⟨nodes₂, e₂, hread₂, hclose₂⟩ :=
    hvalue [.assign op hop target] (looser_cons (by simp [Node.binding]))
  exact finish_of_readsTo
    (hread₁.then (ne_of_mem_of_not_mem hop (by decide)) (stepValue_assign hop hclose₁) hread₂)
      hclose₂

end built

/-- **Reading the yield of a derivation builds it**, whatever its category. -/
theorem built {c : Category} (d : Derivation c) : Built d := by
  induction d with
  | start d ih => exact ih
  | bare d ih => exact built_bare ih
  | assign op h target value ihTarget ihValue => exact built_assign h ihTarget ihValue
  | expr d ih => exact ih
  | alone d ih =>
    intro nodes hnodes
    obtain ⟨nodes', e, hread, hclose⟩ := ih nodes (hnodes.mono (by decide))
    exact ⟨nodes', e, hread, closeAll_of_alone hnodes hclose⟩
  | compare op h left right ihLeft ihRight => exact built_compare h ihLeft ihRight
  | term d ih =>
    intro nodes hnodes
    obtain ⟨nodes', e, hread, hclose⟩ := ih nodes (hnodes.mono (by decide))
    exact ⟨nodes', e, hread, closeSum_of_term hnodes hclose⟩
  | add op h left right ihLeft ihRight => exact built_add h ihLeft ihRight
  | factor d ih =>
    intro nodes hnodes
    obtain ⟨nodes', e, hread, hclose⟩ := ih nodes
    exact ⟨nodes', e, hread, closeProduct_of_factor hnodes hclose⟩
  | multiply op h left right ihLeft ihRight => exact built_multiply h ihLeft ihRight
  | unsigned d ih => exact ih
  | negate d ih => exact built_negate ih
  | base d ih => exact fun nodes => ⟨nodes, d, ih nodes, rfl⟩
  | raise b exponent ihBase ihExponent => exact built_raise ihBase ihExponent
  | atom d ih => exact ih
  | index b args ihBase ihArgs => exact built_index ihBase ihArgs
  | call callee args ih => exact built_call callee ih
  | callEmpty callee => exact fun nodes => ⟨.value (.callEmpty callee), rfl, rfl⟩
  | name x => exact fun nodes => ⟨.named x, rfl, rfl⟩
  | number n => exact fun nodes => ⟨.value (.atom (.number n)), rfl, rfl⟩
  | yes => exact fun nodes => ⟨.value (.atom .yes), rfl, rfl⟩
  | no => exact fun nodes => ⟨.value (.atom .no), rfl, rfl⟩
  | group d ih => exact built_group ih
  | single d ih => exact built_single ih
  | snoc args d ihArgs ih => exact built_snoc ihArgs ih

/-- **A sequence of lexemes is built into a derivation exactly if it is its yield.** -/
theorem derive_eq_some_iff {lexemes : List Lexeme} {d : Derivation .start} :
    derive lexemes = some d ↔ d.yield = lexemes := by
  constructor
  · intro h
    obtain ⟨p, hrun, hfinish⟩ := Option.bind_eq_some_iff.mp h
    rw [yield_finish hfinish, yield_run hrun]
    rfl
  · rintro rfl
    obtain ⟨p, hrun, hfinish⟩ := built d
    rw [derive, hrun, Option.bind_some, hfinish]

end Derivation
end LoopNest
