import LoopNest.Proofs.Expr.LexemeEnds
import LoopNest.Proofs.Expr.Scanning
import LoopNest.Proofs.Expr.Unambiguous

/-!
# Reading accepts exactly the grammar

A text is read as an expression exactly if it splits into the yield of a derivation, and then the
expression is the value of the derivation.  The derivation is the only one.  Every other text is
refused with a report.  The one thing beside the grammar is the limit on digits: a derived text with
a longer integer is refused without a report, because its value is never computed.

* `WithinLimit`: no integer among the lexemes has too many digits.
* `Expr.parse_of_splits`: a derived text is read as the value of its derivation.
* `Expr.exists_derivation_of_run`: what is read to the end is derived.
* `Expr.parse_iff_derivation`: the texts that are read are those that are derived.
-/

namespace LoopNest

open LoopNest.Derivation

/-- No integer among the lexemes has more digits than can be read. -/
def WithinLimit (lexemes : List Lexeme) : Prop :=
  ∀ n : Number.Numeral, .number n ∈ lexemes → n.IsWhole → n.whole.length ≤ Number.digitLimit

theorem withinLimit_of_short {lexemes : List Lexeme}
    (h : ∀ l ∈ lexemes, l.chars.length ≤ Number.digitLimit) :
    WithinLimit lexemes := by
  intro n hn _
  have hlength : n.whole.length ≤ n.chars.length := by
    rw [Number.Numeral.chars, List.length_append]
    exact Nat.le_add_right _ _
  exact hlength.trans (h _ hn)

/-- A token is an overlong integer exactly if its lexeme is. -/
theorem Token.Stands.isOverlong_iff {t : Token} {l : Lexeme} (h : t.Stands l) :
    t.isOverlong = true ↔ ∃ n : Number.Numeral, l = .number n ∧ n.IsWhole ∧
      Number.digitLimit < n.whole.length := by
  obtain ⟨hl, ht⟩ := h
  have hwhole : ∀ n : Number.Numeral, (n.fraction.isNone && n.power.isNone) = true ↔ n.IsWhole := by
    intro n
    rw [Bool.and_eq_true, Option.isNone_iff_eq_none, Option.isNone_iff_eq_none,
      Number.Numeral.IsWhole]
  rw [ht]
  cases l with
  | mark u =>
    have hne : u ≠ .number := by
      rintro rfl
      exact hl rfl
    simp [Token.isOverlong, Lexeme.token, Lexeme.terminal, hne]
  | word x => simp [Token.isOverlong, Lexeme.token, Lexeme.terminal]
  | number n =>
    have hover : ((Lexeme.number n).token t.place).isOverlong =
        (n.chars.all Char.isDigit && decide (Number.digitLimit < n.chars.length)) := rfl
    rw [hover, n.all_isDigit_chars, Bool.and_eq_true, decide_eq_true_eq]
    constructor
    · rintro ⟨hn, hlength⟩
      rw [Number.Numeral.chars_of_isNone hn] at hlength
      exact ⟨n, rfl, (hwhole n).mp hn, hlength⟩
    · rintro ⟨m, heq, hn, hlength⟩
      cases heq
      have hnone := (hwhole n).mpr hn
      rw [Number.Numeral.chars_of_isNone hnone]
      exact ⟨hnone, hlength⟩

theorem any_isOverlong_iff {tokens : List Token} {lexemes : List Lexeme}
    (h : List.Forall₂ Token.Stands tokens lexemes) :
    tokens.any Token.isOverlong = true ↔ ¬WithinLimit lexemes := by
  induction h with
  | nil => simp [WithinLimit]
  | @cons t l tokens lexemes hstands _ ih =>
    rw [List.any_cons, Bool.or_eq_true, ih, hstands.isOverlong_iff]
    constructor
    · rintro (⟨n, rfl, hn, hlength⟩ | hrest) hlimit
      · exact absurd (hlimit n List.mem_cons_self hn) (not_le.mpr hlength)
      · exact hrest fun n hmem => hlimit n (List.mem_cons_of_mem _ hmem)
    · intro hlimit
      by_contra hneither
      rw [not_or, not_not] at hneither
      refine hlimit fun n hmem hn => ?_
      rcases List.mem_cons.mp hmem with heq | hmem
      · by_contra hlength
        exact hneither.1 ⟨n, heq.symm, hn, not_le.mp hlength⟩
      · exact hneither.2 n hmem hn

namespace Expr

/-- A text that splits into the yield of a derivation is scanned to its end, and read as the
value. -/
theorem run_of_splits {source : String} {d : Derivation .start} (h : Splits source.toList d.yield) :
    List.Forall₂ Token.Stands (scan source).tokens d.yield ∧
      Reading.run (scan source).stray .initial .start (scan source).tokens = .ok d.value := by
  have hderive : (Partial.initial.run d.yield).bind Partial.finish = some d :=
    derive_eq_some_iff.mpr rfl
  obtain ⟨tokens, hcut, htokens⟩ := Scan.cut_of_splits h hderive .start
  have hscan : scan source = ⟨tokens, none⟩ := hcut
  rw [hscan]
  exact ⟨htokens, (Reading.run_eq_ok_iff htokens Partial.initial .start).mpr ⟨d, hderive, rfl⟩⟩

/-- What is read to the end is derived. -/
theorem exists_derivation_of_run {source : String} {e : Expr}
    (h : Reading.run (scan source).stray .initial .start (scan source).tokens = .ok e) :
    ∃ d : Derivation .start, Splits source.toList d.yield ∧ d.value = e := by
  obtain ⟨hstray, lexemes, hsplits, htokens⟩ :=
    Scan.splits_of_run (show Partial.initial.wantsOperand = true from rfl) h
  have hrun : Reading.run none Partial.initial.reading .start (scan source).tokens = .ok e := by
    rw [← show (scan source).stray = none from hstray]
    exact h
  obtain ⟨d, hderive, hvalue⟩ := (Reading.run_eq_ok_iff htokens Partial.initial .start).mp hrun
  have hyield : d.yield = lexemes := derive_eq_some_iff.mp hderive
  exact ⟨d, hyield ▸ hsplits, hvalue⟩

/-- **A derived text is read as the value of its derivation**, unless an integer in it has too many
digits. -/
theorem parse_of_splits {source : String} {d : Derivation .start}
    (h : Splits source.toList d.yield) :
    (WithinLimit d.yield → parse source = .ok d.value) ∧
    (¬WithinLimit d.yield → parse source = .error .overlong) := by
  obtain ⟨htokens, hrun⟩ := run_of_splits h
  have hany := any_isOverlong_iff htokens
  unfold parse parseFrom
  simp only [hrun]
  constructor
  · intro hlimit
    rw [if_neg fun hover => hany.mp hover hlimit]
  · intro hlimit
    rw [if_pos (hany.mpr hlimit)]

/-- **A text that is not derived is refused with a report.** -/
theorem exists_report_of_not_splits {source : String}
    (h : ¬∃ d : Derivation .start, Splits source.toList d.yield) :
    ∃ report, parse source = .error (.rejected report) := by
  unfold parse parseFrom
  dsimp only
  cases hrun : Reading.run (scan source).stray .initial .start (scan source).tokens with
  | error fault => exact ⟨_, rfl⟩
  | ok e =>
    obtain ⟨d, hsplits, -⟩ := exists_derivation_of_run hrun
    exact absurd ⟨d, hsplits⟩ h

/-- A text has at most one derivation. -/
theorem derivation_unique {source : String} {d d' : Derivation .start}
    (h : Splits source.toList d.yield) (h' : Splits source.toList d'.yield) : d = d' := by
  have hyield : derive d.yield = some d' := derive_eq_some_iff.mpr (h'.unique h)
  rw [derive_eq_some_iff.mpr rfl] at hyield
  exact Option.some.inj hyield

/-- What is read is the value of a derivation of the text. -/
theorem exists_derivation_of_parse {source : String} {e : Expr} (h : parse source = .ok e) :
    ∃ d : Derivation .start, Splits source.toList d.yield ∧ WithinLimit d.yield ∧ d.value = e := by
  by_cases hd : ∃ d : Derivation .start, Splits source.toList d.yield
  · obtain ⟨d, hsplits⟩ := hd
    obtain ⟨hwithin, hbeyond⟩ := parse_of_splits hsplits
    by_cases hlimit : WithinLimit d.yield
    · exact ⟨d, hsplits, hlimit, Except.ok.inj ((hwithin hlimit).symm.trans h)⟩
    · cases (hbeyond hlimit).symm.trans h
  · obtain ⟨report, hreport⟩ := exists_report_of_not_splits hd
    cases hreport.symm.trans h

/-- **Reading accepts exactly the grammar.**  A text is read as an expression exactly if it splits,
by the longest match, into the yield of a derivation of that value with no overlong integer in it; a
text has one derivation at most; and the texts that have none are those that are refused with a
report. -/
theorem parse_iff_derivation (source : String) :
    (∀ e, parse source = .ok e ↔
      ∃ d : Derivation .start, Splits source.toList d.yield ∧ WithinLimit d.yield ∧ d.value = e) ∧
    {d : Derivation .start | Splits source.toList d.yield}.Subsingleton ∧
    ((∃ report, parse source = .error (.rejected report)) ↔
      ¬∃ d : Derivation .start, Splits source.toList d.yield) := by
  refine ⟨fun e => ⟨exists_derivation_of_parse, ?_⟩, fun d h d' h' => derivation_unique h h',
    ⟨?_, ?_⟩⟩
  · rintro ⟨d, hsplits, hlimit, rfl⟩
    exact (parse_of_splits hsplits).1 hlimit
  · rintro ⟨report, hreport⟩ ⟨d, hsplits⟩
    obtain ⟨hwithin, hbeyond⟩ := parse_of_splits hsplits
    by_cases hlimit : WithinLimit d.yield
    · cases (hwithin hlimit).symm.trans hreport
    · cases (hbeyond hlimit).symm.trans hreport
  · exact exists_report_of_not_splits

/-- The derivation of `-a^-2 <= b[i]`: the power is inside the first sign and has a sign of its own
inside. -/
def signedPower : Derivation .start :=
  let name (x : String) : Derivation .primary := .atom (.name x)
  let two : Derivation .primary := .atom (.number (.ofNat 2))
  let left : Derivation .unary := .negate (.unsigned (.raise (name "a") (.negate (ofPrimary two))))
  let subscript : Derivation .expr := .expr (.alone (.term (.factor (ofPrimary (name "i")))))
  let right : Derivation .unary := ofPrimary (.index (name "b") (.single subscript))
  .start (.bare
    (.expr (.compare .lessEqual (by decide) (.term (.factor left)) (.term (.factor right)))))

theorem splits_signedPower : Splits "-a^-2 <= b[i]".toList signedPower.yield :=
  @splits_spacedText
    [(.mark .minus, []), (.word "a", []), (.mark .caret, []), (.mark .minus, []),
      (.number (.ofNat 2), [' ']), (.mark .lessEqual, [' ']), (.word "b", []),
      (.mark .leftBracket, []), (.word "i", []), (.mark .rightBracket, [])] (by decide)

/-- Comparisons do not chain. -/
theorem splits_chained :
    Splits "a<b<c".toList [.word "a", .mark .less, .word "b", .mark .less, .word "c"] :=
  @splits_spacedText
    [(.word "a", []), (.mark .less, []), (.word "b", []), (.mark .less, []),
      (.word "c", [])] (by decide)

theorem parse_signedPower :
    parse "-a^-2 <= b[i]"
      = .ok (.call "<=" [.call "-" [.call "^" [.name "a", .call "-" [.literal (.int 2)]]],
        .form refTag [.name "b", .name "i"]]) ∧
    ∃ report, parse "a<b<c" = .error (.rejected report) := by
  constructor
  · refine ((parse_iff_derivation _).1 _).mpr ⟨signedPower, splits_signedPower, ?_, rfl⟩
    exact withinLimit_of_short (by decide)
  · refine (parse_iff_derivation _).2.2.mpr ?_
    rintro ⟨d, hd⟩
    have hderive := derive_eq_some_iff.mpr (hd.unique splits_chained)
    cases hderive

end Expr
end LoopNest
