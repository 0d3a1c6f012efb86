import LoopNest.Proofs.Expr.Readable
import LoopNest.Proofs.SExpr.ReadBack
import LoopNest.Proofs.Source.Spelling

/-!
# Productions as generated text

Each production of the grammar has a layout in generated code: parentheses around an operator and
its operands, a comma and a blank between arguments, brackets behind what is indexed.  Such a text
is a derivation again once powers are spelled with carets.  An operand is always laid out as a
primary, so it can stand at every place where the grammar wants one, whatever operator is around it.

* `Derives`: the text, respelled, is derived as a value of a category.
* `Derives.group`, `Derives.binary`, `Derives.negate`, `Derives.index`, `derives_call`: one lemma
  for each layout.
* `derives_int`, `derives_float`: a number is derived from its own text.
* `derives_arguments`: arguments with commas between them.
-/

namespace LoopNest

open LoopNest.Derivation

section WithinLimit

variable (t : Terminal) (x : String) (ls ms : List Lexeme)

@[simp] theorem withinLimit_nil : WithinLimit [] := by
  simp [WithinLimit]

@[simp] theorem withinLimit_mark : WithinLimit (.mark t :: ls) ↔ WithinLimit ls := by
  simp [WithinLimit]

@[simp] theorem withinLimit_word : WithinLimit (.word x :: ls) ↔ WithinLimit ls := by
  simp [WithinLimit]

@[simp] theorem withinLimit_append : WithinLimit (ls ++ ms) ↔ WithinLimit ls ∧ WithinLimit ms := by
  simp [WithinLimit, or_imp, forall_and]

end WithinLimit

theorem Number.Numeral.literal_of_isWhole {n : Number.Numeral} (h : n.IsWhole) :
    n.literal = .int (Nat.ofDigitChars 10 n.whole 0 : Nat) := by
  rw [Number.Numeral.literal, h.1, h.2]
  rfl

theorem Number.Numeral.literal_of_not_isWhole {n : Number.Numeral} (h : ¬n.IsWhole) :
    n.literal = .float (n.read false) := by
  rw [Number.Numeral.literal, if_neg]
  simpa [Number.Numeral.IsWhole] using h

theorem Number.Numeral.literal_ofNat (k : Nat) : (Number.Numeral.ofNat k).literal = .int k := by
  rw [Number.Numeral.literal_of_isWhole ⟨rfl, rfl⟩]
  exact congrArg (fun k : Nat => Literal.int k) (Number.ofDigitChars_toString k)

namespace Source

/-! ## Operators, brackets and assignments -/

/-- With powers spelled by carets, the text is derived as a value of the category. -/
def Derives (k : Category) (text : List Char) (v : k.Value) : Prop :=
  ∃ d : Derivation k, d.value = v ∧ WithinLimit d.yield ∧ ∃ c, c ≠ '=' ∧ Spelled c text d.yield

theorem proper_of_mem_operators {t : Terminal}
    (ht : t ∈ Terminal.assignments ++ Terminal.binaries) :
    (Lexeme.mark t).Proper ∧ t ≠ .yes ∧ t ≠ .no := by
  revert t
  decide

/-- A binary operator between two primaries, at whatever level of precedence it has. -/
theorem exists_binary {t : Terminal} (ht : t ∈ Terminal.binaries)
    (left right : Derivation .primary) :
    ∃ d : Derivation .expr, d.value = Expr.call t.spelling [left.value, right.value] ∧
      d.yield = left.yield ++ .mark t :: right.yield := by
  simp only [Terminal.binaries, List.mem_append, List.mem_singleton] at ht
  rcases ht with ((ht | ht) | ht) | rfl
  · exact ⟨.expr (.compare t ht (.term (.factor (ofPrimary left)))
      (.term (.factor (ofPrimary right)))), rfl, rfl⟩
  · exact ⟨.expr (.alone (.add t ht (.term (.factor (ofPrimary left)))
      (.factor (ofPrimary right)))), rfl, rfl⟩
  · exact ⟨.expr (.alone (.term (.multiply t ht (.factor (ofPrimary left)) (ofPrimary right)))),
      rfl, rfl⟩
  · exact ⟨.expr (.alone (.term (.factor (.unsigned (.raise left (ofPrimary right)))))), rfl, rfl⟩

namespace Derives

variable {a b : List Char} {e x y : Expr} {es : List Expr}

theorem expr (h : Derives .primary a e) : Derives .expr a e := by
  obtain ⟨d, hvalue, hlimit, hwritten⟩ := h
  exact ⟨.expr (.alone (.term (.factor (ofPrimary d)))), hvalue, hlimit, hwritten⟩

theorem group (h : Derives .expr a e) : Derives .primary ('(' :: (a ++ [')'])) e := by
  obtain ⟨d, hvalue, hlimit, c, hc, hwritten⟩ := h
  refine ⟨.atom (.group d), hvalue, by simpa [yield] using hlimit, '(', by decide, ?_⟩
  exact hwritten.inParens hc

theorem binary {t : Terminal} (ht : t ∈ Terminal.binaries) {op : List Char}
    (hop : Respells (op ++ [' ']) (t.spelling.toList ++ [' '])) (hx : Derives .primary a x)
    (hy : Derives .primary b y) :
    Derives .expr (a ++ ' ' :: (op ++ ' ' :: b)) (.call t.spelling [x, y]) := by
  obtain ⟨left, rfl, hlimit, c, hc, hwritten⟩ := hx
  obtain ⟨right, rfl, hlimit', c', -, hwritten'⟩ := hy
  obtain ⟨hproper, hyes, hno⟩ := proper_of_mem_operators (List.mem_append_right _ ht)
  obtain ⟨d, hvalue, hyield⟩ := exists_binary ht left right
  refine ⟨d, hvalue, by simp [hyield, hlimit, hlimit'], c, hc, ?_⟩
  rw [hyield]
  exact hwritten.between hwritten' hproper hyes hno hop

theorem negate (h : Derives .primary a e) : Derives .expr ('-' :: a) (.call "-" [e]) := by
  obtain ⟨d, rfl, hlimit, c, hc, hwritten⟩ := h
  refine ⟨.expr (.alone (.term (.factor (.negate (ofPrimary d))))),
    rfl, by simpa [yield, ofPrimary] using hlimit, '-', by decide, ?_⟩
  exact .after rfl (by decide) hwritten hc

theorem single (h : Derives .primary a e) : Derives .arguments a [e] := by
  obtain ⟨d, rfl, hlimit, hwritten⟩ := h.expr
  exact ⟨.single d, rfl, hlimit, hwritten⟩

theorem snoc (hes : Derives .arguments a es) (he : Derives .primary b e) :
    Derives .arguments (a ++ ',' :: ' ' :: b) (es ++ [e]) := by
  obtain ⟨args, rfl, hlimit, c, hc, hwritten⟩ := hes
  obtain ⟨d, rfl, hlimit', c', -, hwritten'⟩ := he.expr
  refine ⟨.snoc args d, rfl, by simp [yield, hlimit, hlimit'], c, hc, ?_⟩
  exact hwritten.append (.after rfl (by decide) hwritten'.blank (by decide)) (by decide)

theorem index (he : Derives .primary a e) (hes : Derives .arguments b es) :
    Derives .primary (a ++ '[' :: (b ++ [']'])) (.form refTag (e :: es)) := by
  obtain ⟨d, rfl, hlimit, c, hc, hwritten⟩ := he
  obtain ⟨args, rfl, hlimit', c', hc', hwritten'⟩ := hes
  refine ⟨.index d args, rfl, by simp [yield, hlimit, hlimit'], c, hc, ?_⟩
  exact hwritten.append (.after rfl (by decide) (hwritten'.closed rfl (by decide) (by decide)) hc')
    (by decide)

theorem bare (h : Derives .primary a e) : Derives .statement a e := by
  obtain ⟨d, hvalue, hlimit, hwritten⟩ := h.expr
  exact ⟨.bare d, hvalue, hlimit, hwritten⟩

/-- An assignment between two primaries. -/
theorem assign {op : Terminal} (hop : op ∈ Terminal.assignments) (hx : Derives .primary a x)
    (hy : Derives .primary b y) :
    Derives .statement (a ++ ' ' :: (op.spelling.toList ++ ' ' :: b)) (.assignment op x y) := by
  obtain ⟨left, rfl, hlimit, c, hc, hwritten⟩ := hx.expr
  obtain ⟨right, rfl, hlimit', c', -, hwritten'⟩ := hy.expr
  obtain ⟨hproper, hyes, hno⟩ := proper_of_mem_operators (List.mem_append_left _ hop)
  refine ⟨.assign op hop left right, rfl, by simp [yield, hlimit, hlimit'], c, hc, ?_⟩
  exact hwritten.between hwritten' hproper hyes hno (respells_spelling op)

end Derives

/-! ## Names, calls and numbers -/

/-- A lexeme without stars and equals signs, as names and numbers are, is written as it is. -/
theorem exists_written {l : Lexeme} (hl : l.Proper) (h : ∀ c ∈ l.chars, c ≠ '*' ∧ c ≠ '=') :
    ∃ c, c ≠ '=' ∧ Spelled c l.chars [l] := by
  obtain ⟨c, tail, hchars⟩ := hl.exists_chars
  refine ⟨c, (h c ?_).2, spelled_lexeme hl hchars fun d hd => (h d hd).1⟩
  rw [hchars]
  exact List.mem_cons_self

theorem spelled_name {x : String} (hx : IsName x) :
    ∃ c, c ≠ '=' ∧ Spelled c x.toList [.word x] := by
  refine @exists_written (.word x) hx fun c hc => ?_
  obtain ⟨d, rest, hchars, hstart, hall⟩ := hx.shape
  have hword : Token.startsWord c = true ∨ Text.isWord c = true := by
    rw [Lexeme.chars, hchars] at hc
    rcases List.mem_cons.mp hc with rfl | hc
    · exact .inl hstart
    · exact .inr (hall c hc)
  constructor <;> rintro rfl <;> revert hword <;> decide

theorem spelled_number (n : Number.Numeral) : ∃ c, c ≠ '=' ∧ Spelled c n.chars [.number n] := by
  refine @exists_written (.number n) trivial fun c hc => ?_
  have hchar := n.isChar_of_mem hc
  constructor <;> rintro rfl <;> revert hchar <;> decide

theorem derives_name {x : String} (hx : IsName x) : Derives .primary x.toList (.name x) :=
  ⟨.atom (.name x), rfl, by simp [yield], spelled_name hx⟩

theorem derives_call {f : String} (hf : IsName f) {b : List Char} {es : List Expr}
    (h : Derives .arguments b es) :
    Derives .primary (f.toList ++ '(' :: (b ++ [')'])) (.call f es) := by
  obtain ⟨c, hc, hwritten⟩ := spelled_name hf
  obtain ⟨args, rfl, hlimit, c', hc', hwritten'⟩ := h
  refine ⟨.call f args, rfl, by simp [yield, hlimit], c, hc, ?_⟩
  exact hwritten.append (hwritten'.inParens hc') (by decide)

theorem derives_callEmpty {f : String} (hf : IsName f) :
    Derives .primary (f.toList ++ ['(', ')']) (.call f []) := by
  obtain ⟨c, hc, hwritten⟩ := spelled_name hf
  refine ⟨.callEmpty f, rfl, by simp [yield], c, hc, ?_⟩
  have hclose : Spelled ')' [')'] [.mark .rightParen] :=
    @spelled_lexeme (.mark .rightParen)
      (by decide) _ _ rfl (by simp [Lexeme.chars, Terminal.spelling])
  exact hwritten.append (.after rfl (by decide) hclose (by decide)) (by decide)

theorem derives_number {n : Number.Numeral} (hn : n.IsWhole → n.whole.length ≤ Number.digitLimit) :
    Derives .primary n.chars (.literal n.literal) := by
  refine ⟨.atom (.number n), rfl, ?_, spelled_number n⟩
  simpa [yield, WithinLimit] using hn

theorem derives_int {m : Nat} (hm : m < 10 ^ Number.digitLimit) :
    Derives .primary (toString (m : Int)).toList (.literal (.int m)) := by
  have hlength : (toString m).toList.length ≤ Number.digitLimit := by
    rw [String.length_toList]
    exact (Number.length_toString_le_iff (by decide)).mpr hm
  have hchars : (toString (m : Int)).toList = (Number.Numeral.ofNat m).chars :=
    (Number.Numeral.chars_ofWhole _ _).symm
  rw [hchars, ← Number.Numeral.literal_ofNat m]
  exact derives_number fun _ => hlength

theorem derives_float {x : Float} {m : Nat} {exponent : Int}
    (h : Number.parts x = .finite false m exponent) :
    Derives .primary (Number.floatText x).toList (.literal (.float x)) := by
  obtain ⟨n, htext, hwhole, hread⟩ := Number.exists_numeral_floatText h
  have hchars : n.signed false = n.chars := rfl
  rw [htext, hchars, ← hread, ← Number.Numeral.literal_of_not_isWhole hwhole]
  exact derives_number fun h => absurd h hwhole

/-! ## Arguments -/

/-- More arguments, each behind a comma and a blank. -/
theorem Derives.spread {a : List Char} {es more : List Expr} (ha : Derives .arguments a es)
    {texts : List String}
    (h : List.Forall₂ (fun e (text : String) => Derives .primary text.toList e) more texts) :
    Derives .arguments (a ++ SExpr.spread [',', ' '] (texts.map String.toList)) (es ++ more) := by
  -- arguments group to the left, so what has been derived so far grows at its end
  induction h generalizing a es with
  | nil => simpa [SExpr.spread] using ha
  | @cons e text more texts he _ ih =>
    have hmore := ih (ha.snoc he)
    simpa [SExpr.spread] using hmore

theorem derives_arguments {es : List Expr} (hne : es ≠ []) {texts : List String}
    (h : List.Forall₂ (fun e (text : String) => Derives .primary text.toList e) es texts) :
    Derives .arguments (", ".intercalate texts).toList es := by
  cases h with
  | nil => exact absurd rfl hne
  | cons he hmore =>
    rw [String.toList_intercalate, List.map_cons, SExpr.intercalate_eq_spread]
    exact (he.single).spread hmore

end Source
end LoopNest
