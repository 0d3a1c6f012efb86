import LoopNest.Proofs.Outcome
import LoopNest.Proofs.Source.Constant
import LoopNest.Proofs.Source.Productions

/-!
# Generated statements read back

The line that is generated for a statement means the statement: spelled with carets for powers, it
is read as the tree that it was generated from.

## What has to be left out

Generated code has its own words for the truth values and for infinity, and expression text reads
these words as names.  Numbers are written anew, `2.50` as `2.5`, so the line is not the text that
the tree was read from.  The tree is the same because a double is read back from its text, and
because every operator has parentheses of its own: no precedence is left to decide how the line is
grouped.

* `Expr.HasLiteral`: a literal of a tree.
* `term_derives`: the text of an operand derives the operand.
* `statement_derives`: the text of a statement is one line and derives the statement.
* `statement_reparses`: the line is read as the statement.
-/

namespace LoopNest

open LoopNest.Derivation

namespace Expr

/-- The literal stands in the tree. -/
inductive HasLiteral (v : Literal) : Expr → Prop where
  | literal : HasLiteral v (.literal v)
  | part {e c : Expr} (hc : c ∈ e.children) (h : HasLiteral v c) : HasLiteral v e

@[simp] theorem hasLiteral_name {v : Literal} {x : String} : ¬HasLiteral v (.name x) := by
  rintro (_ | ⟨hc, -⟩)
  cases hc

@[simp] theorem hasLiteral_literal {v w : Literal} : HasLiteral v (.literal w) ↔ v = w := by
  constructor
  · rintro (_ | ⟨hc, -⟩)
    · rfl
    · cases hc
  · rintro rfl
    exact .literal

@[simp] theorem hasLiteral_call {v : Literal} {f : String} {args : List Expr} :
    HasLiteral v (.call f args) ↔ ∃ a ∈ args, HasLiteral v a := by
  constructor
  · rintro (_ | ⟨hc, h⟩)
    exact ⟨_, hc, h⟩
  · rintro ⟨a, ha, h⟩
    exact .part ha h

@[simp] theorem hasLiteral_form {v : Literal} {tag : String} {args : List Expr} :
    HasLiteral v (.form tag args) ↔ ∃ a ∈ args, HasLiteral v a := by
  constructor
  · rintro (_ | ⟨hc, h⟩)
    exact ⟨_, hc, h⟩
  · rintro ⟨a, ha, h⟩
    exact .part ha h

/-- No truth value and no infinite number stands in the tree. -/
structure Spellable (e : Expr) : Prop where
  no_truth : ∀ b, ¬e.HasLiteral (.bool b)
  finite : ∀ x negative, e.HasLiteral (.float x) → Number.parts x ≠ .infinite negative

theorem Spellable.part {e c : Expr} (h : e.Spellable) (hc : c ∈ e.children) : c.Spellable :=
  ⟨fun b hb => h.no_truth b (.part hc hb), fun x negative hx => h.finite x negative (.part hc hx)⟩

end Expr

namespace Source

/-! ## Terms -/

/-- A number is written as a numeral of the same value, though perhaps another one than it was read
from. -/
theorem derives_literal {n : Number.Numeral} (hn : n.IsWhole → n.whole.length ≤ Number.digitLimit)
    (hfinite : ∀ x negative, n.literal = .float x → Number.parts x ≠ .infinite negative)
    {text : String} (h : literal n.literal = .ok text) :
    Derives .primary text.toList (.literal n.literal) := by
  by_cases hwhole : n.IsWhole
  · rw [Number.Numeral.literal_of_isWhole hwhole] at h ⊢
    cases (literal_int_eq_ok_iff.mp h).2
    have hlt := Number.ofDigitChars_lt n.whole_digits 0
    rw [Nat.zero_add, Nat.one_mul] at hlt
    exact derives_int (hlt.trans_le (Nat.pow_le_pow_right (by decide) (hn hwhole)))
  · rw [Number.Numeral.literal_of_not_isWhole hwhole] at h hfinite ⊢
    cases h
    obtain ⟨m, exponent, hparts⟩ := (n.parts_read false).resolve_right (hfinite _ _ rfl)
    exact derives_float hparts

theorem terms_eq_mapM (es : List Expr) : terms es = es.mapM term := by
  induction es with
  | nil => rfl
  | cons e es ih =>
    rw [terms, ih, List.mapM_cons]

theorem term_call_eq_ok_iff {f : String} {args : List Expr} {text : String} :
    term (.call f args) = .ok text ↔
      ∃ texts, List.Forall₂ (fun e text => term e = .ok text) args texts ∧
        application f texts = .ok text := by
  simp only [term, bind_eq_ok_iff, terms_eq_mapM, mapM_eq_ok_iff]

theorem term_ref_eq_ok_iff {base : Expr} {indices : List Expr} {text : String} :
    term (.form refTag (base :: indices)) = .ok text ↔ ∃ first texts, term base = .ok first ∧
      List.Forall₂ (fun e text => term e = .ok text) indices texts ∧
      first ++ "[" ++ ", ".intercalate texts ++ "]" = text := by
  rw [term, if_pos rfl]
  simp only [bind_eq_ok_iff, terms_eq_mapM, mapM_eq_ok_iff]
  constructor
  · rintro ⟨first, hfirst, texts, htexts, h⟩
    exact ⟨first, texts, hfirst, htexts, Except.ok.inj h⟩
  · rintro ⟨first, texts, hfirst, htexts, h⟩
    exact ⟨first, hfirst, texts, htexts, congrArg Except.ok h⟩

theorem binary?_spelling {t : Terminal} (ht : t ∈ Terminal.binaries) :
    binary? t.spelling = some (if t = .caret then "**" else t.spelling) := by
  revert t
  decide

/-- The text of a binary operator, and what becomes of it in front of a blank. -/
theorem exists_binary? {t : Terminal} (ht : t ∈ Terminal.binaries) :
    ∃ op, binary? t.spelling = some op ∧
      Respells (op.toList ++ [' ']) (t.spelling.toList ++ [' ']) := by
  refine ⟨_, binary?_spelling ht, ?_⟩
  split
  next hcaret =>
    rw [hcaret]
    exact fun _ => rfl
  next => exact respells_spelling t

/-- An operator does not start like a name. -/
theorem not_isName_of_head {x : String} {c : Char} {rest : List Char} (hx : x.toList = c :: rest)
    (hc : Token.startsWord c = false) : ¬IsName x := by
  rintro ⟨⟨d, rest', hchars, hstart, -⟩, -, -⟩
  rw [hx] at hchars
  cases hchars
  exact Bool.false_ne_true (hc.symm.trans hstart)

theorem binary?_of_isName {f : String} (hf : IsName f) : binary? f = none := by
  unfold binary?
  split
  all_goals first | rfl | exact absurd hf (not_isName_of_head rfl rfl)

theorem sign?_of_isName {f : String} (hf : IsName f) : sign? f = none := by
  unfold sign?
  split
  all_goals first | rfl | exact absurd hf (not_isName_of_head rfl rfl)

theorem application_binary {f op : String} (h : binary? f = some op) (a b : String) :
    application f [a, b] = .ok ("(" ++ a ++ " " ++ op ++ " " ++ b ++ ")") := by
  simp only [application, h]

theorem identifier_eq_ok {x text : String} (h : identifier x = .ok text) : text = x := by
  unfold identifier at h
  split at h <;> cases h
  rfl

theorem application_name {f : String} (hf : IsName f) {args : List String} {text : String}
    (h : application f args = .ok text) : text = f ++ "(" ++ ", ".intercalate args ++ ")" := by
  rw [application] at h
  · cases hx : identifier f with
    | error e =>
      rw [hx] at h
      cases h
    | ok x =>
      rw [hx] at h
      cases h
      rw [identifier_eq_ok hx]
  · intro a b op _ hop
    rw [binary?_of_isName hf] at hop
    cases hop
  · intro a op _ hop
    rw [sign?_of_isName hf] at hop
    cases hop

theorem forall₂_derives {es : List Expr}
    (hes : ∀ e ∈ es, ∀ text, term e = .ok text → Derives .primary text.toList e)
    {texts : List String} (h : List.Forall₂ (fun e text => term e = .ok text) es texts) :
    List.Forall₂ (fun e (text : String) => Derives .primary text.toList e) es texts := by
  induction h with
  | nil => exact .nil
  | cons htext _ ih =>
    exact .cons (hes _ List.mem_cons_self _ htext)
      (ih fun e he => hes e (List.mem_cons_of_mem _ he))

/-- **The text of an operand derives the operand.** -/
theorem term_derives {e : Expr} (he : e.Readable) (hplain : e.Spellable) {text : String}
    (h : term e = .ok text) :
    Derives .primary text.toList e := by
  -- every part is laid out as a primary by induction, so each layout only has to be a primary again
  induction he generalizing text with
  | name hx =>
    rw [identifier_eq_ok h]
    exact derives_name hx
  | number n hn =>
    exact derives_literal hn (fun x negative hx => hplain.finite x negative (hx ▸ .literal)) h
  | truth b => exact absurd .literal (hplain.no_truth b)
  | @binary t ht left right _ _ ihl ihr =>
    obtain ⟨texts, hterms, happly⟩ := term_call_eq_ok_iff.mp h
    obtain ⟨op, hop, hspell⟩ := exists_binary? ht
    cases hterms with
    | cons hleft hrest =>
      cases hrest with
      | cons hright hnil =>
        cases hnil
        rw [application_binary hop] at happly
        cases happly
        have hl := ihl (hplain.part (by simp [Expr.children])) hleft
        have hr := ihr (hplain.part (by simp [Expr.children])) hright
        simpa using (Derives.binary ht hspell hl hr).group
  | negate _ ih =>
    obtain ⟨texts, hterms, happly⟩ := term_call_eq_ok_iff.mp h
    cases hterms with
    | cons htext hnil =>
      cases hnil
      cases happly
      have hoperand := ih (hplain.part (by simp [Expr.children])) htext
      simpa using hoperand.negate.group
  | @call f hf args _ ih =>
    obtain ⟨texts, hterms, happly⟩ := term_call_eq_ok_iff.mp h
    rw [application_name hf happly]
    -- a call without arguments is a production of its own
    cases args with
    | nil =>
      cases hterms
      simpa using derives_callEmpty hf
    | cons a args =>
      have hargs :=
        forall₂_derives (fun e hmem text htext => ih e hmem (hplain.part hmem) htext) hterms
      simpa using derives_call hf (derives_arguments (by simp) hargs)
  | @index base _ indices hne _ ihb ihi =>
    obtain ⟨first, texts, hfirst, hterms, rfl⟩ := term_ref_eq_ok_iff.mp h
    have hb := ihb (hplain.part List.mem_cons_self) hfirst
    have hi := forall₂_derives
      (fun e hmem text htext => ihi e hmem (hplain.part (List.mem_cons_of_mem _ hmem)) htext) hterms
    simpa using hb.index (derives_arguments hne hi)

/-! ## Statements -/

theorem term_of_target {e : Expr} {text : String} (h : target e = .ok text) :
    term e = .ok text := by
  unfold target at h
  split at h
  · exact h
  · split at h
    · exact h
    · cases h
  · cases h

/-- An operand is a statement of one line. -/
theorem statement_of_readable {e : Expr} (he : e.Readable) (depth : Nat) :
    statement depth e = do return [indent depth ++ (← term e)] := by
  cases he with
  | index hbase hne hindices =>
    unfold statement
    rw [if_neg (by decide), if_neg (by decide), if_neg (by decide), if_pos rfl]
  | name hx => rfl
  | number n hn => rfl
  | truth b => rfl
  | binary ht hleft hright => rfl
  | negate he => rfl
  | call hf hargs => rfl

/-- An assignment is a statement of one line, with its operator between target and value. -/
theorem statement_assignment {op : Terminal} (hop : op ∈ Terminal.assignments) (depth : Nat)
    (t value : Expr) :
    statement depth (.assignment op t value) = do
      let t ← target t
      let value ← term value
      return [indent depth ++ (t ++ " " ++ op.spelling ++ " " ++ value)] := by
  by_cases hequal : op = .equal
  · subst hequal
    have hspelling : " = " = " " ++ (Terminal.equal.spelling ++ " ") := rfl
    simp only [Expr.assignment, if_pos, statement, hspelling, String.append_assoc]
  · have htags : op.spelling ≠ blockTag ∧ op.spelling ≠ whileTag ∧
        updateTags.contains op.spelling = true := by
      revert op
      decide
    rw [Expr.assignment, if_neg hequal, statement, if_neg htags.1, if_neg htags.2.1,
      if_pos htags.2.2]
    simp only [String.append_assoc]

/-- The text of a readable statement is one line, and derives the statement. -/
theorem statement_derives {e : Expr} (he : e.ReadableStatement) (hplain : e.Spellable) {depth : Nat}
    {lines : List String} (h : statement depth e = .ok lines) :
    ∃ text : String, lines = [indent depth ++ text] ∧ Derives .statement text.toList e := by
  cases he with
  | bare he =>
    rw [statement_of_readable he] at h
    obtain ⟨text, htext, h⟩ := bind_eq_ok_iff.mp h
    cases h
    exact ⟨text, rfl, (term_derives he hplain htext).bare⟩
  | @assign op hop t value ht hv =>
    rw [statement_assignment hop] at h
    obtain ⟨first, hfirst, h⟩ := bind_eq_ok_iff.mp h
    obtain ⟨second, hsecond, h⟩ := bind_eq_ok_iff.mp h
    cases h
    have hchildren := Expr.children_assignment op t value
    have hleft := term_derives ht (hplain.part (by simp [hchildren])) (term_of_target hfirst)
    have hright := term_derives hv (hplain.part (by simp [hchildren])) hsecond
    refine ⟨_, rfl, ?_⟩
    simpa using hleft.assign hop hright

/-- A line with every pair of stars spelled as a caret. -/
def respelled (line : String) : String := String.ofList (spellCaret line.toList)

theorem parse_respelled {text : String} {e : Expr} (h : Derives .statement text.toList e)
    (depth : Nat) :
    Expr.parse (respelled (indent depth ++ text)) = .ok e := by
  obtain ⟨d, rfl, hlimit, c, -, tail, hspells, hreads⟩ := h
  -- the blanks of the depth hold no stars, and are skipped in front of the first lexeme
  have hblank : ∀ x ∈ (indent depth).toList, x = ' ' := by
    rw [indent, String.toList_ofList]
    exact fun x hx => (List.mem_replicate.mp hx).2
  have himage : spellCaret (indent depth ++ text).toList = (indent depth).toList ++ c :: tail := by
    rw [String.toList_append, respells_self fun x hx => by rw [hblank x hx]; decide,
      hspells.spellCaret_eq]
  have hsplits : Splits (respelled (indent depth ++ text)).toList (start d).yield := by
    rw [respelled, String.toList_ofList, himage]
    refine Splits.after_gaps (fun x hx => by rw [hblank x hx]; rfl) ?_
    have hall := hreads [] [] (by simp) .nil
    rwa [List.append_nil, List.append_nil] at hall
  exact (Expr.parse_of_splits hsplits).1 hlimit

/-- **A generated statement reads back.**  The statement of a tree that was read, with no truth
value and no infinite number in it, is a single line at every depth, and with powers spelled by
carets the line is read as the same tree. -/
theorem statement_reparses {source : String} {e : Expr} (hparse : Expr.parse source = .ok e)
    (hbool : ∀ b, ¬e.HasLiteral (.bool b))
    (hfinite : ∀ x negative, e.HasLiteral (.float x) → Number.parts x ≠ .infinite negative)
    {depth : Nat} {lines : List String} (h : statement depth e = .ok lines) :
    ∃ line, lines = [line] ∧ Expr.parse (respelled line) = .ok e := by
  obtain ⟨text, hlines, hderives⟩ :=
    statement_derives (Expr.readableStatement_of_parse hparse) ⟨hbool, hfinite⟩ h
  exact ⟨indent depth ++ text, hlines, parse_respelled hderives depth⟩

/-- Two and a half, written with a zero at its end. -/
def twoAndHalf : Number.Numeral where
  whole := ['2']
  fraction := some ['5', '0']
  power := none
  whole_digits := by simp [Number.AllDigits]
  fraction_digits := by simp [Number.AllDigits]
  digits_ne := by simp

theorem parts_twoAndHalf :
    Number.parts (twoAndHalf.read false) = .finite false 5629499534213120 (-51) := by
  have hread : twoAndHalf.read false = Number.ofQuotient false 250 100 := rfl
  have hnearest : Number.double.nearest? 250 100 = some (5629499534213120, -51) := by decide
  rw [hread, Number.ofQuotient, Number.ofQuotient?, hnearest]
  exact Number.parts_ofBits_bitsOf false
    (Number.double.canonical_of_nearest? (by decide) (by decide) hnearest)

/-- The derivation of `y[i] *= -2.50^x`. -/
def scaled : Derivation .start :=
  let operand (d : Derivation .primary) : Derivation .expr :=
    .expr (.alone (.term (.factor (ofPrimary d))))
  let name (x : String) : Derivation .primary := .atom (.name x)
  let power : Derivation .power := .raise (.atom (.number twoAndHalf)) (ofPrimary (name "x"))
  .start (.assign .starEqual (by decide)
    (operand (.index (name "y") (.single (operand (name "i")))))
    (.expr (.alone (.term (.factor (.negate (.unsigned power)))))))

theorem splits_scaled : Splits "y[i] *= -2.50^x".toList scaled.yield :=
  @splits_spacedText
    [(.word "y", []), (.mark .leftBracket, []), (.word "i", []), (.mark .rightBracket, [' ']),
      (.mark .starEqual, [' ']), (.mark .minus, []), (.number twoAndHalf, []), (.mark .caret, []),
      (.word "x", [])] (by decide)

/-- What the derivation means. -/
def scaledTree : Expr :=
  .form "*=" [.form refTag [.name "y", .name "i"],
    .call "-" [.call "^" [.literal (.float (twoAndHalf.read false)), .name "x"]]]

theorem statement_scaled : statement 0 scaledTree = .ok ["y[i] *= (-(2.5 ** x))"] := by
  have htext : Number.floatText (twoAndHalf.read false) = "2.5" := by
    rw [Number.floatText, parts_twoAndHalf]
    decide
  have hnumber : term (.literal (.float (twoAndHalf.read false))) = .ok "2.5" :=
    congrArg Except.ok htext
  have hpower : term (.call "^" [.literal (.float (twoAndHalf.read false)), .name "x"])
      = .ok "(2.5 ** x)" :=
    term_call_eq_ok_iff.mpr ⟨["2.5", "x"], .cons hnumber (.cons rfl .nil), rfl⟩
  have hvalue :=
    term_call_eq_ok_iff.mpr ⟨["(2.5 ** x)"], .cons hpower .nil,
      @rfl _ (application "-" ["(2.5 ** x)"])⟩
  refine (@statement_assignment .starEqual (by decide) 0 _ _).trans ?_
  rw [hvalue]
  rfl

theorem statement_reparses_scaled :
    Expr.parse "y[i] *= -2.50^x" = .ok scaledTree ∧
      statement 0 scaledTree = .ok ["y[i] *= (-(2.5 ** x))"] ∧
      Expr.parse "y[i] *= (-(2.5 ^ x))" = .ok scaledTree := by
  have hparse : Expr.parse "y[i] *= -2.50^x" = .ok scaledTree :=
    (Expr.parse_of_splits splits_scaled).1 (withinLimit_of_short (by decide))
  have hbool : ∀ b, ¬scaledTree.HasLiteral (.bool b) := by
    simp [scaledTree]
  have hfinite : ∀ x negative, scaledTree.HasLiteral (.float x) →
      Number.parts x ≠ .infinite negative := by
    intro x negative hx
    have heq : x = twoAndHalf.read false := by
      simpa [scaledTree] using hx
    rw [heq, parts_twoAndHalf]
    exact Number.Parts.noConfusion
  obtain ⟨line, hline, hreparse⟩ := statement_reparses hparse hbool hfinite statement_scaled
  cases hline
  have hspelled : respelled "y[i] *= (-(2.5 ** x))" = "y[i] *= (-(2.5 ^ x))" := by decide
  exact ⟨hparse, statement_scaled, hspelled ▸ hreparse⟩

end Source
end LoopNest
