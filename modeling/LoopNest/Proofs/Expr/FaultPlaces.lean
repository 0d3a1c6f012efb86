import LoopNest.Proofs.Diagnostic
import LoopNest.Proofs.Expr.Scanning
import LoopNest.Proofs.Kernel.Unwritten

/-!
# Where a rejected text is wrong

A text is rejected at a token that cannot stand where it stands, at a character that starts no
token, or at its end.  The report names the token or the character and points at its place; the end
of the text has no place of its own and borrows that of the last token.

The scanner moves its place along with the text, over blanks and tokens alike, so each token and the
character that stopped it have the place that is found by counting (`Scan.Located`).  The reader
passes the places on: a fault at a token has the token's place, and names its text
(`Reading.run_eq_error`).  Tokens have no line feeds in them, so what is named stands in one line.

* `Scan.located_cut`: tokens stand at their places.
* `Scan.Reports`: the three ways to be rejected.
* `Expr.parseFrom_rejected`: the place of a report, what stands there, and the caret below it.
-/

namespace LoopNest

open Token

/-! ## Tokens stand at their places -/

/-- No lexeme has a line feed in it. -/
theorem Lexeme.Proper.newline_notMem {l : Lexeme} (h : l.Proper) : '\n' ∉ l.chars := by
  cases l with
  | mark t =>
    rw [chars]
    cases t <;> decide
  | word x =>
    obtain ⟨⟨c, rest, hchars, hstart, hall⟩, -, -⟩ := h
    rw [chars, hchars, List.mem_cons, not_or]
    refine ⟨fun hc => ?_, fun hmem => ?_⟩
    · rw [← hc] at hstart
      exact absurd hstart (by decide)
    · exact absurd (hall _ hmem) (by decide)
  | number n => exact fun hmem => absurd (n.isChar_of_mem hmem) (by decide)

/-- What the scanner takes is a lexeme at the head of the text. -/
theorem Token.exists_proper_of_first? {operand : Bool} {text : List Char} {t : Terminal}
    {s : List Char} (h : first? operand text = some (t, s)) :
    ∃ l : Lexeme, l.Proper ∧ l.terminal = t ∧ l.chars = s ∧ l.chars <+: text := by
  have hlongest : first? false text = some (t, s) →
      ∃ l : Lexeme, l.Proper ∧ l.terminal = t ∧ l.chars = s ∧ l.chars <+: text := by
    intro h
    obtain ⟨l, hl, hterminal, hchars⟩ := exists_longest_of_first? h
    exact ⟨l, hl.proper, hterminal, hchars, hl.head⟩
  cases operand with
  | false => exact hlongest h
  | true =>
    by_cases hminus : ∃ more, text = '-' :: '=' :: more
    · obtain ⟨more, rfl⟩ := hminus
      cases h
      exact ⟨.mark .minus, Lexeme.proper_mark (by decide), rfl, rfl, ⟨'=' :: more, rfl⟩⟩
    · rw [first?_true fun more hmore => hminus ⟨more, hmore⟩] at h
      exact hlongest h

namespace Scan

/-- The tokens of a text, and the character that stopped the scanner, stand in the text at their
places, counted on from the place of the text. -/
structure Located (place : Place) (text : List Char) (s : Scan) : Prop where
  tokens : ∀ t ∈ s.tokens, t.text ≠ [] ∧ '\n' ∉ t.text ∧
    ∃ before rest, text = before ++ (t.text ++ rest) ∧ t.place = place.afterAll before
  stray : ∀ c p, s.stray = some (c, p) → c ≠ '\n' ∧
    ∃ before rest, text = before ++ c :: rest ∧ p = place.afterAll before

/-- What is located behind a run of characters is located in the whole text. -/
theorem Located.behind {place : Place} {run text : List Char} {s : Scan}
    (h : Located (place.afterAll run) text s) : Located place (run ++ text) s := by
  refine ⟨fun t ht => ?_, fun c p hstray => ?_⟩
  · obtain ⟨hne, hfeed, before, rest, rfl, hplace⟩ := h.tokens t ht
    exact ⟨hne, hfeed, run ++ before, rest, by simp, by rw [hplace, Place.afterAll_append]⟩
  · obtain ⟨hfeed, before, rest, rfl, hplace⟩ := h.stray c p hstray
    exact ⟨hfeed, run ++ before, rest, by simp, by rw [hplace, Place.afterAll_append]⟩

/-- **Cutting locates the tokens.** -/
theorem located_cut (operand : Bool) (place : Place) (text : List Char) :
    Located place text (cut operand place text) := by
  induction hlength : text.length using Nat.strong_induction_on generalizing operand place text with
  | _ length ih =>
    cases text with
    | nil =>
      rw [cut_nil]
      exact ⟨fun t ht => absurd ht List.not_mem_nil, fun c p h => by cases h⟩
    | cons c rest =>
      cases hc : isGap c with
      | true =>
        rw [cut_gap hc]
        have hgap : Located (place.afterAll [c]) rest (cut operand (place.after c) rest) :=
          ih rest.length (by simp [← hlength]) operand (place.after c) rest rfl
        exact hgap.behind
      | false =>
        cases hfirst : first? operand (c :: rest) with
        | none =>
          rw [cut_none hc place hfirst]
          refine ⟨fun t ht => absurd ht List.not_mem_nil, fun d p h => ?_⟩
          cases h
          exact ⟨fun hfeed => by rw [hfeed] at hc; exact absurd hc (by decide), [], rest, rfl, rfl⟩
        | some found =>
          obtain ⟨t, s⟩ := found
          obtain ⟨l, hl, rfl, rfl, more, hmore⟩ := exists_proper_of_first? hfirst
          have hne : l.chars ≠ [] := by
            obtain ⟨d, chars, hchars⟩ := hl.exists_chars
            simp [hchars]
          have hshorter : more.length < length := by
            have := List.length_pos_of_ne_nil hne
            rw [← hlength, ← hmore, List.length_append]
            omega
          rw [← hmore] at hfirst ⊢
          rw [cut_lexeme hl place hfirst]
          have hrest := (ih more.length hshorter (wantsOperand l.terminal) (place.afterAll l.chars)
            more rfl).behind
          refine ⟨fun t ht => ?_, hrest.stray⟩
          rcases List.mem_cons.mp ht with rfl | ht
          · exact ⟨hne, hl.newline_notMem, [], more, rfl, rfl⟩
          · exact hrest.tokens t ht

end Scan

/-! ## Faults -/

namespace Reading

theorem stepOperand_eq_error {frames : List Frame} {expected : List Terminal} {t : Token}
    {fault : ParseFault} (h : stepOperand frames expected t = .error fault) :
    ∃ expected, fault = .token (String.ofList t.text) expected := by
  unfold stepOperand at h
  split at h <;> cases h
  exact ⟨expected, rfl⟩

theorem stepBracket_eq_error {t : Token} {closed : List Frame × Expr} {fault : ParseFault}
    (h : stepBracket t closed = .error fault) :
    ∃ expected, fault = .token (String.ofList t.text) expected := by
  unfold stepBracket at h
  split at h
  · split at h
    · cases h
    · exact ⟨_, (Except.error.inj h).symm⟩
  · split at h
    · cases h
    · cases h
    · exact ⟨_, (Except.error.inj h).symm⟩
  · split at h
    · cases h
    · cases h
    · exact ⟨_, (Except.error.inj h).symm⟩
  · exact ⟨_, (Except.error.inj h).symm⟩

theorem stepValue_eq_error {frames : List Frame} {e : Expr} {follow : List Terminal} {t : Token}
    {fault : ParseFault} (h : stepValue frames e follow t = .error fault) :
    ∃ expected, fault = .token (String.ofList t.text) expected := by
  cases hterminal : t.terminal <;> simp only [stepValue, hterminal] at h
  -- a comparison or an assignment may be refused for what is open
  case less | lessEqual | greater | greaterEqual | equalEqual | notEqual
      | equal | plusEqual | minusEqual | starEqual | slashEqual =>
    split at h <;> cases h
    exact ⟨_, rfl⟩
  case rightParen | rightBracket | comma => exact stepBracket_eq_error h
  -- what starts an operand cannot stand behind one, nor can the end
  case finish | leftParen | yes | no | word | number =>
    cases h
    exact ⟨_, rfl⟩
  all_goals cases h

/-- A fault at a token names the token. -/
theorem step_eq_error {r : Reading} {t : Token} {fault : ParseFault} (h : r.step t = .error fault) :
    ∃ expected, fault = .token (String.ofList t.text) expected := by
  unfold step at h
  split at h
  · exact stepOperand_eq_error h
  · split at h
    · cases h
    · exact stepOperand_eq_error h
  · split at h
    · cases h
    · exact stepValue_eq_error h
  · exact stepValue_eq_error h

theorem complete_eq_error {closed : List Frame × Expr} {fault : ParseFault}
    (h : complete closed = .error fault) : ∃ expected, fault = .token "" expected := by
  unfold complete at h
  split at h
  · cases h
  · cases h
  · exact ⟨_, (Except.error.inj h).symm⟩

/-- A fault at the end of the text names nothing. -/
theorem finish_eq_error {r : Reading} {fault : ParseFault} (h : r.finish = .error fault) :
    ∃ expected, fault = .token "" expected := by
  unfold finish at h
  split at h
  · exact ⟨_, (Except.error.inj h).symm⟩
  · exact ⟨_, (Except.error.inj h).symm⟩
  · exact complete_eq_error h
  · exact complete_eq_error h

/-- **A run that fails** does so at a token, at the character that stopped the scanner, or at the
end, which has the place of the last token. -/
theorem run_eq_error {stray : Option (Char × Place)} {r : Reading} {last : Place}
    {tokens : List Token} {fault : ParseFault} {place : Place}
    (h : run stray r last tokens = .error (fault, place)) :
    (∃ t ∈ tokens, t.place = place ∧ ∃ expected, fault = .token (String.ofList t.text) expected) ∨
    (∃ c, stray = some (c, place) ∧ fault = .stray c) ∨
    stray = none ∧ place = (tokens.getLast?.map Token.place).getD last ∧
      ∃ expected, fault = .token "" expected := by
  induction tokens generalizing r last with
  | nil =>
    cases stray with
    | some found =>
      obtain ⟨c, p⟩ := found
      rw [run] at h
      cases h
      exact .inr (.inl ⟨c, rfl, rfl⟩)
    | none =>
      rw [run] at h
      cases hfinish : r.finish with
      | ok e =>
        rw [hfinish] at h
        cases h
      | error fault' =>
        rw [hfinish] at h
        cases h
        exact .inr (.inr ⟨rfl, rfl, finish_eq_error hfinish⟩)
  | cons t tokens ih =>
    rw [run] at h
    cases hstep : r.step t with
    | error fault' =>
      rw [hstep] at h
      cases h
      exact .inl ⟨t, List.mem_cons_self, rfl, step_eq_error hstep⟩
    | ok r' =>
      rw [hstep] at h
      rcases ih h with ⟨t', ht', hfault⟩ | hstray | ⟨hnone, hplace, hfault⟩
      · exact .inl ⟨t', List.mem_cons_of_mem _ ht', hfault⟩
      · exact .inr (.inl hstray)
      · refine .inr (.inr ⟨hnone, ?_, hfault⟩)
        rw [hplace, List.getLast?_cons]
        cases tokens.getLast? <;> rfl

end Reading

/-! ## Labels -/

theorem notMem_append {c : Char} {a b : String} (ha : c ∉ a.toList) (hb : c ∉ b.toList) :
    c ∉ (a ++ b).toList := by
  rw [String.toList_append, List.mem_append, not_or]
  exact ⟨ha, hb⟩

theorem notMem_intercalate {c : Char} {sep : String} (hsep : c ∉ sep.toList) {texts : List String}
    (h : ∀ text ∈ texts, c ∉ text.toList) : c ∉ (sep.intercalate texts).toList := by
  induction texts with
  | nil => simp
  | cons text texts ih =>
    have htext := h text List.mem_cons_self
    have hrest := ih fun text ht => h text (List.mem_cons_of_mem _ ht)
    cases texts with
    | nil => rwa [String.intercalate_singleton]
    | cons next texts =>
      rw [String.intercalate_cons_cons]
      exact notMem_append (notMem_append htext hsep) hrest

namespace ParseFault

/-- The names of the kinds of token have neither line feeds nor carets in them, nor has their
list. -/
theorem notMem_expectation {c : Char} (hc : c = '\n' ∨ c = '^') {expected : List Terminal}
    {text : String} (h : expectation expected = some text) : c ∉ text.toList := by
  have hlabel : ∀ t : Terminal, c ∉ t.label.toList := by
    rcases hc with rfl | rfl <;> intro t <;> cases t <;> decide
  have hmarks : ∀ marks ∈ ["expected one of ", ", ", ", ...", ""], c ∉ marks.toList := by
    rcases hc with rfl | rfl <;> decide
  rw [expectation] at h
  split at h
  · cases h
  · rename_i names hnames
    cases h
    refine notMem_append (notMem_append (hmarks _ (by simp)) ?_) ?_
    · refine notMem_intercalate (hmarks _ (by simp)) fun x hx => ?_
      obtain ⟨t, -, rfl⟩ := List.mem_map.mp (Text.mem_sortedNames.mp (List.mem_of_mem_take hx))
      exact hlabel t
    · split
      · exact hmarks _ (by simp)
      · exact hmarks _ (by simp)

theorem notMem_label {fault : ParseFault} {text : String} (h : fault.label = some text) :
    '\n' ∉ text.toList ∧ '^' ∉ text.toList := by
  cases fault with
  | token text' expected => exact ⟨notMem_expectation (.inl rfl) h, notMem_expectation (.inr rfl) h⟩
  | stray c => cases h
  | ending =>
    cases h
    decide
  | other => cases h

end ParseFault

/-! ## The place of a report -/

/-- The three ways in which a scanned text is rejected at a place in a line: at a character that
starts no token, at a token, or at the end of the text, which borrows the place of the last
token. -/
inductive Scan.Reports (s : Scan) (line : String) (place : Place) : ParseFault → Prop where
  | stray {c : Char} (stopped : s.stray = some (c, place))
      (stands : line.toList[place.column - 1]? = some c) : Reports s line place (.stray c)
  | token {t : Token} {expected : List Terminal} (mem : t ∈ s.tokens) (at_place : t.place = place)
      (nonempty : t.text ≠ []) (stands : t.text <+: line.toList.drop (place.column - 1)) :
      Reports s line place (.token (String.ofList t.text) expected)
  | finish {expected : List Terminal} (ended : s.stray = none)
      (borrowed : place = (s.tokens.getLast?.map Token.place).getD .start) :
      Reports s line place (.token "" expected)

/-- **A reader that fails** does so at a place in the text, and what it names stands there. -/
theorem Scan.exists_reports {source : String} {r : Reading} {fault : ParseFault} {place : Place}
    (h : Reading.run (scan source).stray r .start (scan source).tokens = .error (fault, place)) :
    ∃ line, place.LiesIn source line ∧ (scan source).Reports line place fault := by
  have hlocated : Located .start source.toList (scan source) :=
    located_cut true .start source.toList
  have htoken : ∀ t ∈ (scan source).tokens, ∃ line, t.place.LiesIn source line ∧
      t.text <+: line.toList.drop (t.place.column - 1) := by
    intro t ht
    obtain ⟨-, hfeed, before, rest, hsource, hplace⟩ := hlocated.tokens t ht
    obtain ⟨line, hlies, hdrop⟩ := Place.exists_liesIn hsource hplace
    have hall : ∀ c ∈ t.text, decide (c ≠ '\n') = true := fun c hc =>
      decide_eq_true fun heq => hfeed (heq ▸ hc)
    refine ⟨line, hlies, ?_⟩
    rw [hdrop, List.takeWhile_append_of_pos hall]
    exact List.prefix_append _ _
  rcases Reading.run_eq_error h with
    ⟨t, ht, rfl, expected, rfl⟩ | ⟨c, hstray, rfl⟩ | ⟨hnone, hplace, expected, rfl⟩
  · obtain ⟨line, hlies, hstands⟩ := htoken t ht
    exact ⟨line, hlies, .token ht rfl (hlocated.tokens t ht).1 hstands⟩
  · obtain ⟨hfeed, before, rest, hsource, hplace⟩ := hlocated.stray c place hstray
    obtain ⟨line, hlies, hdrop⟩ := Place.exists_liesIn hsource hplace
    refine ⟨line, hlies, .stray hstray ?_⟩
    rw [← List.head?_drop, hdrop, List.takeWhile_cons, if_pos (decide_eq_true hfeed)]
    rfl
  · cases hlast : (scan source).tokens.getLast? with
    | none =>
      have hstart : place = Place.start.afterAll [] := by rw [hplace, hlast]; rfl
      have hsource : source.toList = [] ++ source.toList := rfl
      obtain ⟨line, hlies, -⟩ := Place.exists_liesIn hsource hstart
      exact ⟨line, hlies, .finish hnone hplace⟩
    | some t =>
      obtain ⟨line, hlies, -⟩ := htoken t (List.mem_of_getLast? hlast)
      refine ⟨line, ?_, .finish hnone hplace⟩
      rw [hplace, hlast]
      exact hlies

namespace Expr

/-- **A rejected text is wrong where the report points.**  The report has a message and a place in
the text, given by line and column.  The character or token that it names stands in that line from
that column on; only the end of the text is named by an empty token, at the place of the last token.
And the last two lines of the uncoloured diagnostic are this line, behind a gutter, and a line with
one caret, just below the column. -/
theorem parseFrom_rejected {file source : String} {report : ParseReport}
    (h : parseFrom file source = .error (.rejected report)) :
    ∃ (fault : ParseFault) (place : Place) (line : String),
      report.message = fault.message ∧
      report.location = some ⟨file, place.line, place.column, 0⟩ ∧
      (1 ≤ place.line ∧ place.line ≤ (textLines source).length) ∧
      (textLines source)[place.line - 1]? = some line ∧
      (1 ≤ place.column ∧ place.column ≤ line.length + 1) ∧
      (scan source).Reports line place fault ∧
      ∃ (above : List String) (gutter caret : String),
        textLines (report.text false) = above ++ [gutter ++ line, caret] ∧
        ∀ j, caret.toList[j]? = some '^' ↔ j = gutter.length + (place.column - 1) := by
  cases hrun : Reading.run (scan source).stray .initial .start (scan source).tokens with
  | error found =>
    obtain ⟨fault, place⟩ := found
    simp only [parseFrom, hrun] at h
    cases h
    obtain ⟨line, hlies, hreports⟩ := Scan.exists_reports hrun
    have hlength : place.line ≤ (textLines source).length := by
      have hlt := (List.getElem?_eq_some_iff.mp hlies.line_eq).1
      have hpos := hlies.line_pos
      omega
    exact ⟨fault, place, line, rfl, rfl, ⟨hlies.line_pos, hlength⟩, hlies.line_eq,
      ⟨hlies.column_pos, hlies.column_le⟩, hreports,
      Diagnostic.exists_caret hlies fun text htext => ParseFault.notMem_label htext⟩
  | ok e =>
    simp only [parseFrom, hrun] at h
    split at h <;> cases h

/-- A character in the second line that starts no token: the caret stands below it. -/
theorem parseFrom_second_line :
    ∃ report, parseFrom "k" "1 +\n  2 $ 3" = .error (.rejected report) ∧
      report.message = "unexpected character `$`" ∧ report.location = some ⟨"k", 2, 5, 0⟩ ∧
      ∃ (above : List String) (gutter caret : String),
        textLines (report.text false) = above ++ [gutter ++ "  2 $ 3", caret] ∧
        ∀ j, caret.toList[j]? = some '^' ↔ j = gutter.length + 4 := by
  have hscan : scan "1 +\n  2 $ 3" = ⟨[⟨.number, ['1'], ⟨1, 1⟩⟩, ⟨.plus, ['+'], ⟨1, 3⟩⟩,
      ⟨.number, ['2'], ⟨2, 3⟩⟩], some ('$', ⟨2, 5⟩)⟩ := by cbv
  have hparse : parseFrom "k" "1 +\n  2 $ 3"
      = .error (.rejected (.ofFault "k" "1 +\n  2 $ 3" (.stray '$') ⟨2, 5⟩)) := by
    rw [parseFrom, hscan]
    rfl
  refine ⟨_, hparse, rfl, rfl, ?_⟩
  obtain ⟨fault, place, line, -, hlocation, -, hline, -, -, above, gutter, caret, htext, hcaret⟩ :=
    parseFrom_rejected hparse
  have hplace : place = ⟨2, 5⟩ := by
    obtain ⟨number, column⟩ := place
    simp only [ParseReport.ofFault, Option.some.injEq, Location.mk.injEq] at hlocation
    simp only [Place.mk.injEq]
    omega
  have hshown : line = "  2 $ 3" := by
    rw [hplace] at hline
    exact (Option.some.inj hline).symm
  rw [hplace] at hcaret
  rw [hshown] at htext
  exact ⟨above, gutter, caret, htext, hcaret⟩

end Expr
end LoopNest
