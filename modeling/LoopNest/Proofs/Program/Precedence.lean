import LoopNest.Proofs.Program.Statements

/-!
# Arithmetic text and its grammar

Every operation is written in parentheses, so nothing outside can take its operands away.  The one
thing that is written bare in front of an operand is the minus of a negative integer, and a power
binds tighter than a minus on its left: the square of minus two is written as the opposite of a
square.

## The two sides

The value of a tree is taken node by node (`Expr.integerValue?`).  The value of a text is that of
the tree which the grammar makes of it.  The grammar is stated on its own, rule by rule (`Derives`),
with no limit on open brackets.

A reading goes from left to right, and the lexeme behind an operand decides whether the operand goes
on.  So two readings of the same kind that start together also end together, and a text is one tree
at most.

* `Program.Derives`: the grammar of sums, products, signs, powers and parentheses.
* `Program.Derives.unique`: a text has one reading.
* `Program.spells_of_isArithmetic`: what the text of an arithmetic tree is read as.
* `Program.integerValue?_closed`: what is read is worth as much as the tree, if negative integers
  have odd exponents.
* `Program.arithmetic_keeps_values_iff`: and only then, if every part of the tree is looked at.
-/

namespace LoopNest
namespace Program

/-! ## The grammar -/

/-- The operators that group from the left: sums bind looser than products. -/
inductive Level where
  | sum
  | product

/-- The signs of a level. -/
def Level.operators : Level → List String
  | .sum => ["+", "-"]
  | .product => ["*", "/", "%"]

/-- What lexemes can be read as.  Behind a first operand, more operators of its level may follow. -/
inductive Goal where
  | level (l : Level)
  | more (l : Level) (left : Expr)
  | factor
  | power
  | atom

/-- The operands of a level. -/
def Level.operand : Level → Goal
  | .sum => .level .product
  | .product => .factor

/-- The grammar of arithmetic text, one rule for each production.  A power binds tighter than a sign
on its left, and looser than a sign on its right. -/
inductive Derives : Goal → List Lexeme → Expr → Prop where
  | operands {l : Level} {ls ms : List Lexeme} {a e : Expr} (first : Derives l.operand ls a)
      (rest : Derives (.more l a) ms e) : Derives (.level l) (ls ++ ms) e
  | done {l : Level} {a : Expr} : Derives (.more l a) [] a
  | operator {l : Level} {op : String} (hop : op ∈ l.operators) {ls ms : List Lexeme} {a b e : Expr}
      (next : Derives l.operand ls b) (rest : Derives (.more l (.call op [a, b])) ms e) :
      Derives (.more l a) (.sign op :: (ls ++ ms)) e
  | sign {op : String} (hop : op ∈ ["-", "+"]) {ls : List Lexeme} {e : Expr}
      (d : Derives .factor ls e) :
      Derives .factor (.sign op :: ls) (.call op [e])
  | unsigned {ls : List Lexeme} {e : Expr} (d : Derives .power ls e) : Derives .factor ls e
  | raise {ls ms : List Lexeme} {a b : Expr} (base : Derives .atom ls a)
      (exponent : Derives .factor ms b) :
      Derives .power (ls ++ .sign "**" :: ms) (.call "^" [a, b])
  | base {ls : List Lexeme} {e : Expr} (d : Derives .atom ls e) : Derives .power ls e
  | name {x : String} (hx : Text.isIdentifier x = true) : Derives .atom [.word x] (.name (nameOf x))
  | constant (v : Literal) : Derives .atom [.constant v] (.literal v)
  | group {ls : List Lexeme} {e : Expr} (d : Derives (.level .sum) ls e) :
      Derives .atom (.sign "(" :: (ls ++ [.sign ")"])) e

/-! ## One reading only -/

/-- The signs that bind at least as tight as those of a level. -/
def Level.signs : Level → List String
  | .sum => ["**", "*", "/", "%", "+", "-"]
  | .product => ["**", "*", "/", "%"]

/-- The signs that would go on with a reading. -/
def Goal.signs : Goal → List String
  | .level l => l.signs
  | .more l _ => l.signs
  | .factor => ["**"]
  | .power => ["**"]
  | .atom => []

/-- The rest of a text does not go on with a reading. -/
def Goal.Stops (g : Goal) (rest : List Lexeme) : Prop := ∀ s ∈ g.signs, rest.head? ≠ some (.sign s)

theorem Goal.Stops.operand {l : Level} {rest : List Lexeme} (h : (Goal.level l).Stops rest) :
    l.operand.Stops rest := by
  have hsigns : ∀ s ∈ l.operand.signs, s ∈ (Goal.level l).signs := by
    cases l <;> decide
  exact fun s hs => h s (hsigns s hs)

theorem stops_operator {l : Level} {op : String} (hop : op ∈ l.operators) (rest : List Lexeme) :
    l.operand.Stops (.sign op :: rest) := by
  have hsigns : ∀ op ∈ l.operators, op ∉ l.operand.signs := by
    cases l <;> decide
  intro s hs heq
  cases heq
  exact hsigns _ hop hs

theorem mem_signs {l : Level} {op : String} (hop : op ∈ l.operators) : op ∈ l.signs := by
  revert op
  cases l <;> decide

theorem stops_atom (rest : List Lexeme) : Goal.atom.Stops rest := by
  simp [Goal.Stops, Goal.signs]

theorem stops_close (rest : List Lexeme) : (Goal.level .sum).Stops (.sign ")" :: rest) := by
  intro s hs heq
  cases heq
  exact absurd hs (by decide)

/-- What follows the first operand of a level does not go on with that operand. -/
theorem Derives.stops_more {l : Level} {a e : Expr} {ms rest : List Lexeme}
    (h : Derives (.more l a) ms e) (hrest : (Goal.level l).Stops rest) :
    l.operand.Stops (ms ++ rest) := by
  cases h with
  | done => exact hrest.operand
  | operator hop => exact stops_operator hop _

theorem Derives.head_atom {ls : List Lexeme} {e : Expr} (h : Derives .atom ls e) :
    ∃ l more, ls = l :: more ∧ ∀ op ∈ ["-", "+"], l ≠ .sign op := by
  cases h with
  | name hx => exact ⟨_, _, rfl, by simp⟩
  | constant v => exact ⟨_, _, rfl, by simp⟩
  | group d => exact ⟨_, _, rfl, by simp⟩

theorem Derives.head_power {ls : List Lexeme} {e : Expr} (h : Derives .power ls e) :
    ∃ l more, ls = l :: more ∧ ∀ op ∈ ["-", "+"], l ≠ .sign op := by
  cases h with
  | base d => exact d.head_atom
  | raise base exponent =>
    obtain ⟨l, more, rfl, hl⟩ := base.head_atom
    exact ⟨l, _, rfl, hl⟩

/-- **A text can be read in one way only**, from its first lexeme up to where it stops. -/
theorem Derives.unique {g : Goal} {ls ls' : List Lexeme} {e e' : Expr} (h : Derives g ls e)
    (h' : Derives g ls' e') {rest rest' : List Lexeme} (heq : ls ++ rest = ls' ++ rest')
    (hrest : g.Stops rest) (hrest' : g.Stops rest') :
    ls = ls' ∧ e = e' := by
  -- the induction is on the first reading; the second is taken apart at its last rule
  induction h generalizing ls' e' rest rest' with
  | operands first more ihFirst ihMore =>
    cases h' with
    | operands first' more' =>
      rw [List.append_assoc, List.append_assoc] at heq
      obtain ⟨rfl, rfl⟩ := ihFirst first' heq (more.stops_more hrest) (more'.stops_more hrest')
      obtain ⟨rfl, rfl⟩ := ihMore more' (List.append_cancel_left heq) hrest hrest'
      exact ⟨rfl, rfl⟩
  | done =>
    cases h' with
    | done => exact ⟨rfl, rfl⟩
    | operator hop next more =>
      rw [List.nil_append, List.cons_append] at heq
      exact absurd (congrArg List.head? heq) (hrest _ (mem_signs hop))
  | operator hop next more ihNext ihMore =>
    cases h' with
    | done =>
      rw [List.nil_append, List.cons_append] at heq
      exact absurd (congrArg List.head? heq.symm) (hrest' _ (mem_signs hop))
    | operator hop' next' more' =>
      rw [List.cons_append, List.cons_append, List.append_assoc, List.append_assoc] at heq
      obtain ⟨hhead, htail⟩ := List.cons.inj heq
      cases hhead
      obtain ⟨rfl, rfl⟩ := ihNext next' htail (more.stops_more hrest) (more'.stops_more hrest')
      obtain ⟨rfl, rfl⟩ := ihMore more' (List.append_cancel_left htail) hrest hrest'
      exact ⟨rfl, rfl⟩
  | sign hop d ih =>
    cases h' with
    | sign hop' d' =>
      obtain ⟨hhead, htail⟩ := List.cons.inj heq
      cases hhead
      obtain ⟨rfl, rfl⟩ := ih d' htail hrest hrest'
      exact ⟨rfl, rfl⟩
    | unsigned d' =>
      obtain ⟨l, more, rfl, hl⟩ := d'.head_power
      exact absurd (List.cons.inj heq).1.symm (hl _ hop)
  | unsigned d ih =>
    cases h' with
    | sign hop' d' =>
      obtain ⟨l, more, rfl, hl⟩ := d.head_power
      exact absurd (List.cons.inj heq).1 (hl _ hop')
    | unsigned d' => exact ih d' heq hrest hrest'
  | raise base exponent ihBase ihExponent =>
    cases h' with
    | raise base' exponent' =>
      rw [List.append_assoc, List.append_assoc] at heq
      obtain ⟨rfl, rfl⟩ := ihBase base' heq (stops_atom _) (stops_atom _)
      obtain ⟨rfl, rfl⟩ :=
        ihExponent exponent' (List.cons.inj (List.append_cancel_left heq)).2 hrest hrest'
      exact ⟨rfl, rfl⟩
    | base d' =>
      rw [List.append_assoc] at heq
      obtain ⟨rfl, -⟩ := ihBase d' heq (stops_atom _) (stops_atom _)
      exact absurd (congrArg List.head? (List.append_cancel_left heq)).symm
        (hrest' _ List.mem_cons_self)
  | base d ih =>
    cases h' with
    | raise base' exponent' =>
      rw [List.append_assoc] at heq
      obtain ⟨rfl, -⟩ := ih base' heq (stops_atom _) (stops_atom _)
      exact absurd (congrArg List.head? (List.append_cancel_left heq)) (hrest _ List.mem_cons_self)
    | base d' => exact ih d' heq (stops_atom _) (stops_atom _)
  | name hx =>
    cases h' with
    | name hx' =>
      cases heq
      exact ⟨rfl, rfl⟩
    | constant v => cases heq
    | group d => cases heq
  | constant v =>
    cases h' with
    | name hx => cases heq
    | constant v' =>
      cases heq
      exact ⟨rfl, rfl⟩
    | group d => cases heq
  | group d ih =>
    cases h' with
    | name hx => cases heq
    | constant v => cases heq
    | group d' =>
      rw [List.cons_append, List.cons_append, List.append_assoc, List.append_assoc] at heq
      obtain ⟨rfl, rfl⟩ := ih d' (List.cons.inj heq).2 (stops_close _) (stops_close _)
      exact ⟨rfl, rfl⟩

theorem Goal.stops_nil (g : Goal) : g.Stops [] := by
  simp [Goal.Stops]

theorem Derives.eq_of_same {g : Goal} {ls : List Lexeme} {e e' : Expr} (h : Derives g ls e)
    (h' : Derives g ls e') :
    e = e' :=
  (h.unique h' (@rfl _ (ls ++ [])) g.stops_nil g.stops_nil).2

/-! ## The readings of operands -/

/-- A minus in front of an operand, or nothing. -/
def minusSign (minus : Bool) : List Lexeme := if minus then [.sign "-"] else []

namespace Derives

variable {ls ms : List Lexeme} {a b e : Expr}

theorem product_of_factor (h : Derives .factor ls e) : Derives (.level .product) ls e := by
  simpa using @operands .product _ _ _ _ h done

theorem sum_of_product (h : Derives (.level .product) ls e) : Derives (.level .sum) ls e := by
  simpa using @operands .sum _ _ _ _ h done

/-- A minus in front of a power is in front of the whole power. -/
theorem behindMinus (h : Derives .power ls e) (minus : Bool) :
    Derives .factor (minusSign minus ++ ls) (signed minus e) := by
  cases minus with
  | false => exact .unsigned h
  | true => exact .sign (by decide) (.unsigned h)

/-- One operator between two operands. -/
theorem operation {l : Level} {op : String} (hop : op ∈ l.operators) (ha : Derives .factor ls a)
    (hb : Derives .factor ms b) :
    Derives (.level .sum) (ls ++ .sign op :: ms) (.call op [a, b]) := by
  cases l with
  | sum =>
    simpa using @operands .sum _ _ _ _ ha.product_of_factor
      (.operator hop hb.product_of_factor .done)
  | product => simpa using (@operands .product _ _ _ _ ha (.operator hop hb .done)).sum_of_product

end Derives

/-- The text is cut into an atom that is read as the tree, perhaps behind a minus. -/
def Spells (text : List Char) (minus : Bool) (e : Expr) : Prop :=
  ∃ ls, Piece text (minusSign minus ++ ls) ∧ Derives .atom ls e

namespace Spells

variable {a b : List Char} {m m' : Bool} {x y : Expr}

theorem name {x : String} (hx : Text.isIdentifier x = true) :
    Spells x.toList false (.name (nameOf x)) :=
  ⟨_, piece_word hx, .name hx⟩

theorem numeral (n : Number.Numeral) (negative : Bool) :
    Spells (n.signed negative) negative (.literal n.literal) := by
  refine ⟨_, ?_, .constant n.literal⟩
  cases negative with
  | false => exact piece_numeral n
  | true => exact (piece_numeral n).afterSign (s := "-") rfl (.inl rfl)

/-- Parentheses around what is read as a sum. -/
theorem inParens {ls : List Lexeme} (htext : Stretch a ls) (h : Derives (.level .sum) ls x) :
    Spells ('(' :: (a ++ [')'])) false x :=
  ⟨_, .inParens htext, .group h⟩

theorem binary (hx : Spells a m x) (hy : Spells b m' y) {l : Level} {op : String}
    (hop : op ∈ l.operators) :
    Spells ('(' :: ((a ++ ' ' :: (op.toList ++ ' ' :: b)) ++ [')'])) false
    (.call op [signed m x, signed m' y]) := by
  obtain ⟨ls, hls, hx⟩ := hx
  obtain ⟨ms, hms, hy⟩ := hy
  have hspaced : op ∈ spacedSigns ∧ isAssignment (.sign op) = false := by
    revert op
    cases l <;> decide
  exact inParens (hls.toStretch.between hms.toStretch hspaced.1 hspaced.2)
    (.operation hop (hx.base.behindMinus m) (hy.base.behindMinus m'))

/-- A power takes the minus of its base out. -/
theorem power (hx : Spells a m x) (hy : Spells b m' y) :
    Spells ('(' :: ((a ++ ' ' :: ("**".toList ++ ' ' :: b)) ++ [')'])) false
      (signed m (.call "^" [x, signed m' y])) := by
  obtain ⟨ls, hls, hx⟩ := hx
  obtain ⟨ms, hms, hy⟩ := hy
  refine inParens (hls.toStretch.between hms.toStretch (by decide) rfl) ?_
  rw [List.append_assoc]
  exact ((hx.raise (hy.base.behindMinus m')).behindMinus m).product_of_factor.sum_of_product

theorem negate (hx : Spells a m x) :
    Spells ('(' :: (("-".toList ++ a) ++ [')'])) false (.call "-" [signed m x]) := by
  obtain ⟨ls, hls, hx⟩ := hx
  refine inParens (hls.afterSign (s := "-") rfl (.inl rfl)).toStretch ?_
  exact (Derives.sign (by decide) (hx.base.behindMinus m)).product_of_factor.sum_of_product

/-- The whole text has one reading: the tree behind its minus. -/
theorem derives_iff (h : Spells a m x) : ∃ ls, lexemes? a = some ls ∧
    ∀ t, Derives (.level .sum) ls t ↔ t = signed m x := by
  obtain ⟨ls, hls, hx⟩ := h
  have hread := (hx.base.behindMinus m).product_of_factor.sum_of_product
  refine ⟨_, hls.yields.lexemes?_eq, fun t => ⟨fun ht => ?_, fun ht => ht ▸ hread⟩⟩
  exact ht.eq_of_same hread

end Spells

end Program

/-! ## Arithmetic trees -/

namespace Expr

/-- A tree of names, integers of any sign, the operators of sums, products and powers, and minus
signs. -/
inductive IsArithmetic : Expr → Prop where
  | name (x : String) : IsArithmetic (.name x)
  | integer (z : Int) : IsArithmetic (.literal (.int z))
  | binary {op : String} (hop : op ∈ ["+", "-", "*", "^"]) {a b : Expr} (ha : IsArithmetic a)
      (hb : IsArithmetic b) :
      IsArithmetic (.call op [a, b])
  | negate {a : Expr} (ha : IsArithmetic a) : IsArithmetic (.call "-" [a])

/-- An operator on integers.  A power has a value for an exponent that is not negative. -/
def applied? : String → Int → Int → Option Int
  | "+", m, n => some (m + n)
  | "-", m, n => some (m - n)
  | "*", m, n => some (m * n)
  | "^", m, n => if 0 ≤ n then some (m ^ n.toNat) else none
  | _, _, _ => none

/-- The value of an arithmetic tree, node by node, if every exponent in it has a value that is not
negative. -/
def integerValue? (env : String → Int) : Expr → Option Int
  | .name x => some (env x)
  | .literal (.int z) => some z
  | .call op [a, b] => do applied? op (← integerValue? env a) (← integerValue? env b)
  | .call op [a] => if op = "-" then (integerValue? env a).map (- ·) else none
  | _ => none

/-- The tree itself, or a tree inside it. -/
inductive IsPartOf (p : Expr) : Expr → Prop where
  | self : IsPartOf p p
  | inside {e c : Expr} (hc : c ∈ e.children) (h : IsPartOf p c) : IsPartOf p e

theorem isPartOf_iff {p e : Expr} : p.IsPartOf e ↔ p = e ∨ ∃ c ∈ e.children, p.IsPartOf c := by
  constructor
  · intro h
    cases h with
    | self => exact .inl rfl
    | inside hc h => exact .inr ⟨_, hc, h⟩
  · rintro (rfl | ⟨c, hc, h⟩)
    · exact .self
    · exact .inside hc h

@[simp] theorem isPartOf_name {p : Expr} {x : String} : p.IsPartOf (.name x) ↔ p = .name x := by
  rw [isPartOf_iff]
  simp [children]

@[simp] theorem isPartOf_literal {p : Expr} {v : Literal} :
    p.IsPartOf (.literal v) ↔ p = .literal v := by
  rw [isPartOf_iff]
  simp [children]

@[simp] theorem isPartOf_call {p : Expr} {f : String} {args : List Expr} :
    p.IsPartOf (.call f args) ↔ p = .call f args ∨ ∃ a ∈ args, p.IsPartOf a :=
  isPartOf_iff

theorem IsPartOf.trans {p q e : Expr} (hpq : p.IsPartOf q) (hqe : q.IsPartOf e) : p.IsPartOf e := by
  induction hqe with
  | self => exact hpq
  | inside hc _ ih => exact .inside hc ih

/-- Every negative integer of the tree that is raised to a power is raised to an odd one. -/
def HasOddPowers (env : String → Int) (e : Expr) : Prop :=
  ∀ c b n, IsPartOf (.call "^" [.literal (.int c), b]) e → c < 0 → integerValue? env b = some n →
    Odd n

section Parts

variable {env : String → Int} {e : Expr}

theorem IsArithmetic.child (he : e.IsArithmetic) {c : Expr} (hc : c ∈ e.children) :
    c.IsArithmetic := by
  cases he with
  | name x => cases hc
  | integer z => cases hc
  | binary hop ha hb =>
    simp only [children, List.mem_cons, List.not_mem_nil, or_false] at hc
    rcases hc with rfl | rfl
    · exact ha
    · exact hb
  | negate ha =>
    cases List.mem_singleton.mp hc
    exact ha

theorem integerValue?_binary {op : String} {a b : Expr} {z : Int} :
    integerValue? env (.call op [a, b]) = some z ↔
      ∃ m n, integerValue? env a = some m ∧ integerValue? env b = some n ∧
        applied? op m n = some z := by
  simp [integerValue?, Option.bind_eq_some_iff]

theorem integerValue?_negate {a : Expr} :
    integerValue? env (.call "-" [a]) = (integerValue? env a).map (- ·) := by
  simp [integerValue?]

/-- A tree has a value only if its parts have. -/
theorem exists_integerValue?_child (he : e.IsArithmetic) {z : Int}
    (hz : integerValue? env e = some z) {c : Expr} (hc : c ∈ e.children) :
    ∃ n, integerValue? env c = some n := by
  cases he with
  | name x => cases hc
  | integer z => cases hc
  | binary hop ha hb =>
    obtain ⟨m, n, hm, hn, -⟩ := integerValue?_binary.mp hz
    simp only [children, List.mem_cons, List.not_mem_nil, or_false] at hc
    rcases hc with rfl | rfl
    · exact ⟨m, hm⟩
    · exact ⟨n, hn⟩
  | negate ha =>
    cases List.mem_singleton.mp hc
    rw [integerValue?_negate] at hz
    obtain ⟨n, hn, -⟩ := Option.map_eq_some_iff.mp hz
    exact ⟨n, hn⟩

/-- The parts of an arithmetic tree with a value are arithmetic trees with values. -/
theorem IsPartOf.exists_integerValue? {p : Expr} (hp : p.IsPartOf e) (he : e.IsArithmetic) {z : Int}
    (hz : integerValue? env e = some z) : p.IsArithmetic ∧ ∃ n, integerValue? env p = some n := by
  induction hp generalizing z with
  | self => exact ⟨he, z, hz⟩
  | inside hc _ ih =>
    obtain ⟨n, hn⟩ := exists_integerValue?_child he hz hc
    exact ih (he.child hc) hn

end Parts

end Expr

namespace Program

/-! ### What is read -/

theorem closed_integer (z : Int) :
    closed (.literal (.int z)) = signed (decide (z < 0)) (.literal (.int z.natAbs)) := rfl

theorem closed_binary {op : String} (hop : op ∈ ["+", "-", "*"]) (a b : Expr) :
    closed (.call op [a, b]) = .call op [closed a, closed b] := by
  have hcallee : op ≠ "^" ∧ calleeOf op 2 = op := by
    revert op
    decide
  rw [closed, core, if_neg hcallee.1, hcallee.2]
  rfl

theorem closed_power (a b : Expr) :
    closed (.call "^" [a, b]) = signed (minus a) (.call "^" [core a, closed b]) := by
  rw [closed, core, if_pos rfl]
  rfl

theorem closed_negate (a : Expr) : closed (.call "-" [a]) = .call "-" [closed a] := by
  rw [closed, core_call_of_length (by simp)]
  rfl

/-- Of arithmetic trees, only the negative integers have a minus in front of their text. -/
theorem minus_eq_true {e : Expr} (he : e.IsArithmetic) (h : minus e = true) :
    ∃ c < 0, e = .literal (.int c) := by
  cases he with
  | name x => cases h
  | integer z => exact ⟨z, of_decide_eq_true h, rfl⟩
  | binary hop ha hb => cases h
  | negate ha => cases h

/-- The operators are powers, and those that are spelled as they are. -/
theorem operator_cases {op : String} (hop : op ∈ ["+", "-", "*", "^"]) :
    (∃ l : Level, op ∈ l.operators ∧ op ∈ ["+", "-", "*"] ∧ Source.binary? op = some op) ∨
      op = "^" := by
  simp only [List.mem_cons, List.not_mem_nil, or_false] at hop
  rcases hop with rfl | rfl | rfl | rfl
  · exact .inl ⟨.sum, by decide⟩
  · exact .inl ⟨.sum, by decide⟩
  · exact .inl ⟨.product, by decide⟩
  · exact .inr rfl

theorem term_binary_eq_ok_iff {op : String} {a b : Expr} {text : String} :
    Source.term (.call op [a, b]) = .ok text ↔ ∃ first second, Source.term a = .ok first ∧
      Source.term b = .ok second ∧ Source.application op [first, second] = .ok text := by
  simp [Source.term_call_eq_ok_iff, List.forall₂_cons_left_iff, and_assoc]

theorem term_negate_eq_ok_iff {a : Expr} {text : String} :
    Source.term (.call "-" [a]) = .ok text ↔
      ∃ inner, Source.term a = .ok inner ∧ "(" ++ "-" ++ inner ++ ")" = text := by
  simp [Source.term_call_eq_ok_iff, List.forall₂_cons_left_iff, Source.application, Source.binary?,
    Source.sign?]

/-- **The text of an arithmetic tree spells what the tree is read as.** -/
theorem spells_of_isArithmetic {e : Expr} (he : e.IsArithmetic) {text : String}
    (h : Source.term e = .ok text) :
    Spells text.toList (minus e) (core e) := by
  induction he generalizing text with
  | name x =>
    obtain ⟨rfl, hx⟩ := identifier_eq_ok_iff.mp h
    exact .name hx
  | integer z =>
    rw [(Source.literal_int_eq_ok_iff.mp h).2]
    have hspells := Spells.numeral (.ofNat z.natAbs) (decide (z < 0))
    rw [Number.Numeral.literal_ofNat, ← Number.toList_toString_int] at hspells
    exact hspells
  | @binary op hop a b ha hb iha ihb =>
    obtain ⟨first, second, hfirst, hsecond, happly⟩ := term_binary_eq_ok_iff.mp h
    have hx := iha hfirst
    have hy := ihb hsecond
    rcases operator_cases hop with ⟨l, hl, hop, hspelling⟩ | rfl
    · rw [Source.application_binary hspelling] at happly
      cases happly
      show Spells _ false (closed (.call op [a, b]))
      rw [closed_binary hop]
      simpa [closed] using hx.binary hy hl
    · rw [Source.application_binary rfl] at happly
      cases happly
      show Spells _ false (closed (.call "^" [a, b]))
      rw [closed_power]
      simpa [closed] using hx.power hy
  | @negate a ha ih =>
    obtain ⟨inner, hinner, rfl⟩ := term_negate_eq_ok_iff.mp h
    show Spells _ false (closed (.call "-" [a]))
    rw [closed_negate]
    simpa [closed] using (ih hinner).negate

/-- An arithmetic tree has a text where its names can be written and its integers have few enough
digits. -/
theorem exists_term_iff {e : Expr} (he : e.IsArithmetic) :
    (∃ text, Source.term e = .ok text) ↔ (∀ x ∈ e.identifiers, Text.isIdentifier x = true) ∧
      ∀ z, e.HasLiteral (.int z) → z.natAbs < 10 ^ Number.digitLimit := by
  induction he with
  | name x => simp [Source.term, identifier_eq_ok_iff, Expr.identifiers]
  | integer z => simp [Source.term, Source.literal_int_eq_ok_iff, Expr.identifiers]
  | @binary op hop a b ha hb iha ihb =>
    have happly : ∀ first second, ∃ text, Source.application op [first, second] = .ok text := by
      rcases operator_cases hop with ⟨l, -, -, hspelling⟩ | rfl
      · exact fun first second => ⟨_, Source.application_binary hspelling first second⟩
      · exact fun first second => ⟨_, Source.application_binary rfl first second⟩
    have hparts : (∃ text, Source.term (.call op [a, b]) = .ok text) ↔
        (∃ text, Source.term a = .ok text) ∧ ∃ text, Source.term b = .ok text := by
      constructor
      · rintro ⟨text, h⟩
        obtain ⟨first, second, hfirst, hsecond, -⟩ := term_binary_eq_ok_iff.mp h
        exact ⟨⟨first, hfirst⟩, second, hsecond⟩
      · rintro ⟨⟨first, hfirst⟩, second, hsecond⟩
        obtain ⟨text, htext⟩ := happly first second
        exact ⟨text, term_binary_eq_ok_iff.mpr ⟨first, second, hfirst, hsecond, htext⟩⟩
    rw [hparts, iha, ihb]
    simp only [Expr.identifiers, Expr.identifiersAll, List.append_nil, List.forall_mem_append,
      Expr.hasLiteral_call, List.mem_cons, List.not_mem_nil, or_false, exists_eq_or_imp,
      exists_eq_left, or_imp, forall_and]
    exact and_and_and_comm
  | @negate a ha ih =>
    have hpart : (∃ text, Source.term (.call "-" [a]) = .ok text) ↔
        ∃ text, Source.term a = .ok text := by
      simp only [term_negate_eq_ok_iff]
      constructor
      · rintro ⟨-, inner, h, -⟩
        exact ⟨inner, h⟩
      · rintro ⟨inner, h⟩
        exact ⟨_, inner, h, rfl⟩
    rw [hpart, ih]
    simp [Expr.identifiers, Expr.identifiersAll]

/-! ### What it is worth -/

section Values

variable {env : String → Int}

theorem integerValue?_signed (minus : Bool) (e : Expr) :
    (signed minus e).integerValue? env = if minus then (e.integerValue? env).map (- ·)
      else e.integerValue? env := by
  cases minus with
  | false => rfl
  | true => exact Expr.integerValue?_negate

/-- Taking the minus out of a power keeps its value exactly if the exponent is odd. -/
theorem neg_natAbs_pow_eq_iff {c n : Int} (hc : c < 0) (hn : 0 ≤ n) :
    -((c.natAbs : Int) ^ n.toNat) = c ^ n.toNat ↔ Odd n := by
  obtain ⟨k, rfl⟩ := Int.eq_ofNat_of_zero_le hn
  have hneg : c = -(c.natAbs : Int) := by omega
  have hpos : (0 : Int) < (c.natAbs : Int) ^ k := Int.pow_pos (by omega)
  rw [Int.toNat_natCast, Int.odd_coe_nat]
  constructor
  · intro h
    by_contra hodd
    rw [hneg, Int.natAbs_neg, Int.natAbs_natCast, (Nat.not_odd_iff_even.mp hodd).neg_pow] at h
    omega
  · intro hodd
    conv_rhs => rw [hneg]
    rw [hodd.neg_pow]

theorem applied?_power {m n z : Int} :
    Expr.applied? "^" m n = some z ↔ 0 ≤ n ∧ m ^ n.toNat = z := by
  simp [Expr.applied?]

/-- The value of what a power of a negative integer is read as. -/
theorem integerValue?_closed_power {c : Int} (hc : c < 0) {b : Expr} {n : Int} (hn : 0 ≤ n)
    (hb : (closed b).integerValue? env = some n) :
    (closed (.call "^" [.literal (.int c), b])).integerValue? env
      = some (-((c.natAbs : Int) ^ n.toNat)) := by
  have hminus : minus (.literal (.int c)) = true := decide_eq_true hc
  have hpower : Expr.integerValue? env (.call "^" [core (.literal (.int c)), closed b]) =
      some ((c.natAbs : Int) ^ n.toNat) :=
    Expr.integerValue?_binary.mpr ⟨c.natAbs, n, rfl, hb, applied?_power.mpr ⟨hn, rfl⟩⟩
  rw [closed_power, hminus, integerValue?_signed, if_pos rfl, hpower]
  rfl

/-- **What is read is worth as much as the tree**, if negative integers are raised to odd powers
only. -/
theorem integerValue?_closed {e : Expr} (he : e.IsArithmetic) {z : Int}
    (hz : e.integerValue? (env ∘ nameOf) = some z) (hodd : e.HasOddPowers (env ∘ nameOf)) :
    (closed e).integerValue? env = some z := by
  induction he generalizing z with
  | name x => exact hz
  | integer c =>
    cases hz
    rw [closed_integer, integerValue?_signed]
    by_cases hc : c < 0
    · rw [if_pos (decide_eq_true hc)]
      show some (-(c.natAbs : Int)) = some c
      rw [Int.ofNat_natAbs_of_nonpos hc.le, neg_neg]
    · rw [if_neg (by simpa using hc)]
      show some (c.natAbs : Int) = some c
      rw [Int.natAbs_of_nonneg (not_lt.mp hc)]
  | @binary op hop a b ha hb iha ihb =>
    obtain ⟨m, n, hm, hn, hmn⟩ := Expr.integerValue?_binary.mp hz
    have hleft :=
      iha hm fun c b n hpart => hodd c b n (hpart.trans (.inside (by simp [Expr.children]) .self))
    have hright :=
      ihb hn fun c b n hpart => hodd c b n (hpart.trans (.inside (by simp [Expr.children]) .self))
    rcases operator_cases hop with ⟨l, -, hop, -⟩ | rfl
    · rw [closed_binary hop]
      exact Expr.integerValue?_binary.mpr ⟨m, n, hleft, hright, hmn⟩
    · cases hminus : minus a with
      | false =>
        rw [closed_power, hminus]
        rw [closed, hminus] at hleft
        exact Expr.integerValue?_binary.mpr ⟨m, n, hleft, hright, hmn⟩
      | true =>
        obtain ⟨c, hc, rfl⟩ := minus_eq_true ha hminus
        obtain rfl : c = m := Option.some.inj hm
        obtain ⟨hnonneg, rfl⟩ := applied?_power.mp hmn
        rw [integerValue?_closed_power hc hnonneg hright]
        exact congrArg some ((neg_natAbs_pow_eq_iff hc hnonneg).mpr (hodd c b n .self hc hn))
  | @negate a ha ih =>
    rw [Expr.integerValue?_negate] at hz
    obtain ⟨n, hn, rfl⟩ := Option.map_eq_some_iff.mp hz
    have hinner :=
      ih hn fun c b n hpart => hodd c b n (hpart.trans (.inside (by simp [Expr.children]) .self))
    rw [closed_negate, Expr.integerValue?_negate, hinner]
    rfl

/-- Conversely, a power of a negative integer that is worth what it is read as has an odd
exponent. -/
theorem hasOddPowers_of_closed {e : Expr} (he : e.IsArithmetic) {z : Int}
    (hz : e.integerValue? (env ∘ nameOf) = some z)
    (h : ∀ p, p.IsPartOf e → (closed p).integerValue? env = p.integerValue? (env ∘ nameOf)) :
    e.HasOddPowers (env ∘ nameOf) := by
  intro c b n hpart hc hn
  obtain ⟨-, w, hw⟩ := hpart.exists_integerValue? he hz
  obtain ⟨m, n', hm, hn', hpower⟩ := Expr.integerValue?_binary.mp hw
  obtain rfl : c = m := Option.some.inj hm
  obtain rfl : n = n' := Option.some.inj (hn.symm.trans hn')
  obtain ⟨hnonneg, rfl⟩ := applied?_power.mp hpower
  have hexponent : (closed b).integerValue? env = some n :=
    (h b (.trans (.inside (by simp [Expr.children]) .self) hpart)).trans hn
  have hread := integerValue?_closed_power hc hnonneg hexponent
  rw [h _ hpart, hw] at hread
  exact (neg_natAbs_pow_eq_iff hc hnonneg).mp (Option.some.inj hread).symm

end Values

/-- **Arithmetic text and the values it stands for.**  An arithmetic tree has a text where its names
can be written and its integers have few enough digits, and by the grammar the text is one tree:
that of `closed`.  Where all exponents have values, the parts of the tree are worth what their texts
are worth exactly if every negative integer among the bases of powers has an odd exponent. -/
theorem arithmetic_keeps_values_iff {e : Expr} (he : e.IsArithmetic) :
    ((∃ text, Source.term e = .ok text) ↔ (∀ x ∈ e.identifiers, Text.isIdentifier x = true) ∧
      ∀ z, e.HasLiteral (.int z) → z.natAbs < 10 ^ Number.digitLimit) ∧
    ∀ text, Source.term e = .ok text → ∃ ls, lexemes? text.toList = some ls ∧
      (∀ t, Derives (.level .sum) ls t ↔ t = closed e) ∧ (∀ t, term? ls = some t → t = closed e) ∧
      ∀ (env : String → Int) (z : Int), e.integerValue? (env ∘ nameOf) = some z →
        ((∀ p, p.IsPartOf e → (closed p).integerValue? env = p.integerValue? (env ∘ nameOf)) ↔
          e.HasOddPowers (env ∘ nameOf)) := by
  refine ⟨exists_term_iff he, fun text hterm => ?_⟩
  obtain ⟨ls, hls, hderives⟩ := (spells_of_isArithmetic he hterm).derives_iff
  refine ⟨ls, hls, hderives, fun t ht => ?_, fun env z hz => ⟨hasOddPowers_of_closed he hz, ?_⟩⟩
  · obtain ⟨ls', hpiece, hparses⟩ := term_operand e hterm
    cases hls.symm.trans hpiece.yields.lexemes?_eq
    exact hparses.eq_of_term? ht
  · intro hodd p hp
    obtain ⟨hp', n, hn⟩ := hp.exists_integerValue? he hz
    rw [hn]
    exact integerValue?_closed hp' hn fun c b n hpart => hodd c b n (hpart.trans hp)

/-- `x - -3 * (-2)^y`: a negative integer as a factor, and one as the base of a power. -/
def weighed : Expr :=
  .call "-" [.name "x", .call "*"
    [.literal (.int (-3)), .call "^" [.literal (.int (-2)), .name "y"]]]

theorem arithmetic_keeps_values_weighed :
    weighed.IsArithmetic ∧ (∀ x ∈ weighed.identifiers, Text.isIdentifier x = true) ∧
      Source.term weighed = .ok "(x - (-3 * (-2 ** y)))" ∧
      ∀ p, p.IsPartOf weighed → (closed p).integerValue? (fun _ => 5)
        = p.integerValue? (fun _ => 5) := by
  have he : weighed.IsArithmetic :=
    .binary (by decide) (.name "x")
      (.binary (by decide) (.integer _) (.binary (by decide) (.integer _) (.name "y")))
  have hnames : ∀ x ∈ weighed.identifiers, Text.isIdentifier x = true := by
    simp only [weighed, Expr.identifiers, Expr.identifiersAll, List.nil_append, List.append_nil,
      List.singleton_append, List.forall_mem_cons]
    decide
  have hodd : weighed.HasOddPowers (fun _ => 5) := by
    intro c b n hpart _ hn
    obtain ⟨rfl, rfl⟩ : c = -2 ∧ b = .name "y" := by
      simpa [weighed] using hpart
    cases hn
    decide
  have hterm : Source.term weighed = .ok "(x - (-3 * (-2 ** y)))" := rfl
  obtain ⟨ls, -, -, -, hvalues⟩ := (arithmetic_keeps_values_iff he).2 _ hterm
  exact ⟨he, hnames, hterm, (hvalues (fun _ => 5) (-91) (by decide)).mpr hodd⟩

/-- The square of minus two is written as the opposite of a square. -/
theorem arithmetic_of_square :
    Source.term (.call "^" [.literal (.int (-2)), .literal (.int 2)]) = .ok "(-2 ** 2)" ∧
      (∃ ls, lexemes? "(-2 ** 2)".toList = some ls ∧ ∀ t, Derives (.level .sum) ls t ↔
        t = .call "-" [.call "^" [.literal (.int 2), .literal (.int 2)]]) ∧
      ∀ env, Expr.integerValue? env (.call "^" [.literal (.int (-2)), .literal (.int 2)]) = some 4 ∧
        Expr.integerValue? env (.call "-" [.call "^" [.literal (.int 2), .literal (.int 2)]])
          = some (-4) := by
  have he : Expr.IsArithmetic (.call "^" [.literal (.int (-2)), .literal (.int 2)]) :=
    .binary (by decide) (.integer _) (.integer _)
  have hterm : Source.term (.call "^" [.literal (.int (-2)), .literal (.int 2)])
      = .ok "(-2 ** 2)" := rfl
  exact ⟨hterm, (spells_of_isArithmetic he hterm).derives_iff, fun env => ⟨rfl, rfl⟩⟩

end Program
end LoopNest
