import LoopNest.Proofs.Expr.LoadBack
import LoopNest.Proofs.Expr.Readable
import LoopNest.Proofs.Source.Productions

/-!
# What a parsed expression loads as

An expression that was read from text has three words that read as numbers when it is written:
`inf`, `infinity` and `nan`, in letters of either case, are names in an expression and numbers in a
written one.

* `Number.NamesNumber`: the words that name a number.
* `SExpr.ofAtom_eq_symbol_iff`: a name is read as a symbol unless it names a number.
* `Expr.load_of_parse`: an expression that was read comes back if it has none of the three words.
-/

namespace LoopNest

/-! ## Names and numbers -/

namespace Number

/-- The word names infinity, or what is not a number, in letters of either case. -/
def NamesNumber (x : String) : Prop :=
  String.ofList (x.toList.map Char.toLower) ∈ ["inf", "infinity", "nan"]

instance (x : String) : Decidable (NamesNumber x) :=
  inferInstanceAs (Decidable (_ ∈ _))

/-- No blank is a letter, a digit or the underscore. -/
theorem isNumberBlank_of_isWord {c : Char} (h : Text.isWord c = true) :
    Text.isNumberBlank c = false := by
  have htable : (Text.blankRanges.all fun range =>
      (List.range' range.1 (range.2 + 1 - range.1)).all
        fun p => !Text.isWord (Char.ofNat p)) = true := by
    decide +kernel
  have hblank : Text.isBlank c = false := by
    by_contra hblank
    obtain ⟨range, hrange, hc⟩ := List.any_eq_true.mp (Bool.eq_true_of_not_eq_false hblank)
    rw [Bool.and_eq_true, decide_eq_true_eq, decide_eq_true_eq] at hc
    have hmem : c.toNat ∈ List.range' range.1 (range.2 + 1 - range.1) := by
      rw [List.mem_range'_1]
      omega
    have hword := List.all_eq_true.mp (List.all_eq_true.mp htable range hrange) c.toNat hmem
    rw [Char.ofNat_toNat, h] at hword
    exact Bool.false_ne_true hword
  rw [Text.isNumberBlank, hblank, Bool.false_and]

theorem isWord_of_startsWord {c : Char} (h : Token.startsWord c = true) : Text.isWord c = true := by
  rw [Token.startsWord, Bool.or_eq_true] at h
  rcases h with h | h <;> simp [Text.isWord, Char.isAlphanum, h]

theorem digitValue?_of_startsWord {c : Char} (h : Token.startsWord c = true) :
    Text.digitValue? c = none := by
  have hcode : 65 ≤ c.toNat ∧ c.toNat < 128 := by
    simp only [Token.startsWord, Char.isAlpha, Char.isUpper, Char.isLower, Bool.or_eq_true,
      Bool.and_eq_true, decide_eq_true_eq, UInt32.le_iff_toNat_le, ge_iff_le] at h
    rcases h with (⟨hlow, hhigh⟩ | ⟨hlow, hhigh⟩) | rfl
    · exact ⟨hlow, lt_of_le_of_lt hhigh (by decide)⟩
    · exact ⟨le_trans (by decide) hlow, lt_of_le_of_lt hhigh (by decide)⟩
    · decide
  have hdigit : c.isDigit = false := by
    by_contra hdigit
    have := toNat_of_isDigit (Bool.eq_true_of_not_eq_false hdigit)
    omega
  rw [Text.digitValue?, hdigit, if_neg Bool.false_ne_true, if_pos hcode.2]

section Names

variable {x : String} (hx : IsName x)
include hx

theorem takeSign_of_isName :
    takeSign (Text.strip Text.isNumberBlank x.toList) = (false, x.toList) := by
  obtain ⟨c, rest, hchars, hstart, hrest⟩ := hx.shape
  have hblank : ∀ d ∈ x.toList, Text.isNumberBlank d = false := by
    rw [hchars]
    refine List.forall_mem_cons.mpr ⟨?_, fun d hd => isNumberBlank_of_isWord (hrest d hd)⟩
    exact isNumberBlank_of_isWord (isWord_of_startsWord hstart)
  rw [strip_eq_self hblank, hchars]
  refine Numeral.takeSign_eq_self ?_ ?_ <;> rintro rfl <;> exact absurd hstart (by decide)

theorem takeDigits_of_isName : takeDigits Text.digitValue? x.toList = ([], x.toList) := by
  obtain ⟨c, rest, hchars, hstart, -⟩ := hx.shape
  rw [hchars, takeDigits, digitValue?_of_startsWord hstart]

theorem readInt?_of_isName : readInt? x.toList = none := by
  simp only [readInt?, takeSign_of_isName hx, takeDigits_of_isName hx]

theorem readUnsigned?_of_isName (negative : Bool) : readUnsigned? negative x.toList = none := by
  obtain ⟨c, rest, hchars, hstart, -⟩ := hx.shape
  have hpoint : c ≠ '.' := by
    rintro rfl
    exact absurd hstart (by decide)
  rw [readUnsigned?, takeDigits_of_isName hx, hchars]
  simp [hpoint]

/-- **A name reads as a number exactly if it is one of the words for numbers.** -/
theorem readFloat?_of_isName : readFloat? x.toList = none ↔ ¬NamesNumber x := by
  unfold readFloat? NamesNumber
  simp only [takeSign_of_isName hx]
  split
  · next h => simp [h]
  · next h => simp [h]
  · next h => simp [h]
  · next hinf hinfinity hnan => simpa [readUnsigned?_of_isName hx] using ⟨hinf, hinfinity, hnan⟩

end Names

end Number

/-! ## Names as atoms -/

namespace SExpr

theorem legibleSymbol_of_isName {x : String} (hx : IsName x) : LegibleSymbol x := by
  obtain ⟨c, rest, hchars, hstart, hrest⟩ := hx.shape
  refine ⟨?_, ?_⟩
  · rintro rfl
    cases hchars
  · rw [hchars]
    exact List.forall_mem_cons.mpr ⟨.inl (Number.isWord_of_startsWord hstart),
      fun d hd => .inl (hrest d hd)⟩

/-- A name is read as a symbol unless it names a number. -/
theorem ofAtom_eq_symbol_iff {x : String} (hx : IsName x) :
    ofAtom x.toList = .symbol x ↔ ¬Number.NamesNumber x := by
  rw [← Number.readFloat?_of_isName hx, ofAtom, Number.readInt?_of_isName hx]
  cases Number.readFloat? x.toList <;> simp

end SExpr

/-! ## Expressions that were read -/

namespace Expr

open SExpr (PlainSymbol ofAtom)

theorem plain_literal {n : Number.Numeral} (hn : n.IsWhole → n.whole.length ≤ Number.digitLimit) :
    n.literal.Plain := by
  by_cases hwhole : n.IsWhole
  · rw [Number.Numeral.literal_of_isWhole hwhole]
    refine .int ?_
    calc Nat.ofDigitChars 10 n.whole 0 < (0 + 1) * 10 ^ n.whole.length :=
      Number.ofDigitChars_lt n.whole_digits 0
      _ = 10 ^ n.whole.length := by rw [Nat.zero_add, Nat.one_mul]
      _ ≤ 10 ^ Number.digitLimit := Nat.pow_le_pow_right (by decide) (hn hwhole)
  · rw [Number.Numeral.literal_of_not_isWhole hwhole]
    refine .float ?_
    rcases n.parts_read false with ⟨m, e, hparts⟩ | hparts <;> simp [hparts]

/-- The operators are symbols, and no words for numbers. -/
theorem plainSymbol_spelling {t : Terminal} (ht : t ∈ Terminal.binaries ++ Terminal.assignments) :
    PlainSymbol t.spelling ∧ ¬Number.NamesNumber t.spelling := by
  revert t
  decide

theorem Readable.legible {e : Expr} (h : e.Readable) : e.Legible := by
  have hminus : PlainSymbol "-" := by decide
  have href : PlainSymbol refTag := by decide
  induction h with
  | name hx => exact .name (SExpr.legibleSymbol_of_isName hx)
  | number n hn => exact .literal (plain_literal hn)
  | truth b => exact .literal (.bool b)
  | binary ht _ _ ihl ihr =>
    have hspelling := (plainSymbol_spelling (List.mem_append_left _ ht)).1.legible
    exact .call hspelling (List.forall_mem_cons.mpr ⟨ihl, List.forall_mem_singleton.mpr ihr⟩)
  | negate _ ih => exact .call hminus.legible (List.forall_mem_singleton.mpr ih)
  | call hf _ ih => exact .call (SExpr.legibleSymbol_of_isName hf) ih
  | index _ _ _ ihb ihi => exact .form href (List.forall_mem_cons.mpr ⟨ihb, ihi⟩)

theorem ReadableStatement.legible {e : Expr} (h : e.ReadableStatement) : e.Legible := by
  cases h with
  | bare h => exact h.legible
  | assign hop ht hv =>
    unfold assignment
    split
    · exact .assign ht.legible hv.legible
    · refine .form (plainSymbol_spelling (List.mem_append_right _ hop)).1 ?_
      exact List.forall_mem_cons.mpr ⟨ht.legible, List.forall_mem_singleton.mpr hv.legible⟩

/-- A word that an operand uses is read as a symbol exactly if it names no number: it is a name or
an operator. -/
theorem Readable.ofAtom_iff {e : Expr} (h : e.Readable) {x : String} (hx : e.occurs x = true) :
    ofAtom x.toList = .symbol x ↔ ¬Number.NamesNumber x := by
  have hplain : ∀ {s : String}, PlainSymbol s ∧ ¬Number.NamesNumber s →
      (ofAtom s.toList = .symbol s ↔ ¬Number.NamesNumber s) :=
        fun hs => iff_of_true hs.1.ofAtom_eq hs.2
  induction h with
  | name hname =>
    cases beq_iff_eq.mp hx
    exact SExpr.ofAtom_eq_symbol_iff hname
  | number n hn => cases hx
  | truth b => cases hx
  | binary ht _ _ ihl ihr =>
    simp only [occurs, occursAny, Bool.or_eq_true, Bool.or_false, beq_iff_eq] at hx
    rcases hx with rfl | hx | hx
    · exact hplain (plainSymbol_spelling (List.mem_append_left _ ht))
    · exact ihl hx
    · exact ihr hx
  | negate _ ih =>
    simp only [occurs, occursAny, Bool.or_eq_true, Bool.or_false, beq_iff_eq] at hx
    rcases hx with rfl | hx
    · exact hplain (by decide)
    · exact ih hx
  | call hf _ ih =>
    simp only [occurs, Bool.or_eq_true, beq_iff_eq, occursAny_eq_true_iff] at hx
    rcases hx with rfl | ⟨a, ha, hx⟩
    · exact SExpr.ofAtom_eq_symbol_iff hf
    · exact ih a ha hx
  | index _ _ _ ihb ihi =>
    simp only [occurs, occursAny, Bool.or_eq_true, occursAny_eq_true_iff] at hx
    rcases hx with hx | ⟨i, hi, hx⟩
    · exact ihb hx
    · exact ihi i hi hx

theorem ReadableStatement.ofAtom_iff {e : Expr} (h : e.ReadableStatement) {x : String}
    (hx : e.occurs x = true) :
    ofAtom x.toList = .symbol x ↔ ¬Number.NamesNumber x := by
  cases h with
  | bare h => exact h.ofAtom_iff hx
  | @assign op _ target value ht hv =>
    have hsides : target.occurs x = true ∨ value.occurs x = true := by
      unfold assignment at hx
      split at hx <;> simpa [occurs, occursAny] using hx
    rcases hsides with hx | hx
    · exact ht.ofAtom_iff hx
    · exact hv.ofAtom_iff hx

/-- **An expression that was read and written loads as itself exactly if no name in it is one of the
words for numbers.**  In any case its text loads: all that changes is that such a word, as a
variable or as a callee, is the number that it names. -/
theorem load_of_parse {source : String} {e : Expr} (h : parse source = .ok e) :
    (Form.load e.pretty = .ok e.reloaded ∧ Form.load e.flat = .ok e.reloaded) ∧
    (load e.pretty = .ok e ↔ ∀ x, e.occurs x = true → ¬Number.NamesNumber x) ∧
    (load e.flat = .ok e ↔ ∀ x, e.occurs x = true → ¬Number.NamesNumber x) := by
  have hreadable := readableStatement_of_parse h
  have hpretty : Form.load e.pretty = .ok e.reloaded :=
    load_render_eq hreadable.legible SExpr.lineWidth
  have hflat : Form.load e.flat = .ok e.reloaded := load_render_eq hreadable.legible SExpr.noLimit
  have hwords : e.reloaded.toExpr? = some e ↔ ∀ x, e.occurs x = true → ¬Number.NamesNumber x :=
    (toExpr?_reloaded e).trans (forall₂_congr fun _ hx => hreadable.ofAtom_iff hx)
  exact ⟨⟨hpretty, hflat⟩, (load_eq_ok_iff hpretty).trans hwords,
    (load_eq_ok_iff hflat).trans hwords⟩

/-- The derivation of `nano[e5] = infer(nil, 2)`: every name is nearly a number or a head. -/
def nearMisses : Derivation .start :=
  let operand (d : Derivation .primary) : Derivation .expr :=
    .expr (.alone (.term (.factor (Derivation.ofPrimary d))))
  let name (x : String) : Derivation .primary := .atom (.name x)
  let two : Derivation .primary := .atom (.number (.ofNat 2))
  .start (.assign .equal (by decide)
    (operand (.index (name "nano") (.single (operand (name "e5")))))
    (operand (.call "infer" (.snoc (.single (operand (name "nil"))) (operand two)))))

theorem splits_nearMisses : Splits "nano[e5] = infer(nil, 2)".toList nearMisses.yield :=
  @splits_spacedText
    [(.word "nano", []), (.mark .leftBracket, []), (.word "e5", []), (.mark .rightBracket, [' ']),
      (.mark .equal, [' ']), (.word "infer", []), (.mark .leftParen, []), (.word "nil", []),
      (.mark .comma, [' ']), (.number (.ofNat 2), []), (.mark .rightParen, [])] (by decide)

/-- What the derivation means. -/
def nearMissesTree : Expr :=
  .assign (.form refTag [.name "nano", .name "e5"]) (.call "infer" [.name "nil", .literal (.int 2)])

theorem load_nearMisses :
    parse "nano[e5] = infer(nil, 2)" = .ok nearMissesTree ∧
      load nearMissesTree.pretty = .ok nearMissesTree ∧
      load nearMissesTree.flat = .ok nearMissesTree := by
  have hparse : parse "nano[e5] = infer(nil, 2)" = .ok nearMissesTree :=
    (parse_of_splits splits_nearMisses).1 (withinLimit_of_short (by decide))
  have hwords : ∀ x, nearMissesTree.occurs x = true → ¬Number.NamesNumber x := by
    intro x hx
    simp only [nearMissesTree, occurs, occursAny, Bool.or_eq_true, Bool.or_false, beq_iff_eq] at hx
    rcases hx with (rfl | rfl) | rfl | rfl <;> decide
  obtain ⟨-, hpretty, hflat⟩ := load_of_parse hparse
  exact ⟨hparse, hpretty.mpr hwords, hflat.mpr hwords⟩

/-- The derivation of `y = inf`. -/
def limitless : Derivation .start :=
  let name (x : String) : Derivation .expr :=
    .expr (.alone (.term (.factor (Derivation.ofPrimary (.atom (.name x))))))
  .start (.assign .equal (by decide) (name "y") (name "inf"))

theorem splits_limitless : Splits "y = inf".toList limitless.yield :=
  @splits_spacedText [(.word "y", [' ']), (.mark .equal, [' ']), (.word "inf", [])] (by decide)

/-- A variable that is named like infinity loads as infinity. -/
theorem load_limitless :
    parse "y = inf" = .ok (.assign (.name "y") (.name "inf")) ∧
      load (assign (.name "y") (.name "inf")).pretty =
        .ok (.assign (.name "y") (.literal (.float Number.infinity))) := by
  have hparse : parse "y = inf" = .ok (.assign (.name "y") (.name "inf")) :=
    (parse_of_splits splits_limitless).1 (withinLimit_of_short (by decide))
  have hlegible := (readableStatement_of_parse hparse).legible
  exact ⟨hparse, (load_eq_ok_iff (load_render_eq hlegible SExpr.lineWidth)).mpr rfl⟩

end Expr
end LoopNest
