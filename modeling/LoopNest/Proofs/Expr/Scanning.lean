import LoopNest.Proofs.Expr.Lexing
import LoopNest.Proofs.Expr.ReaderSteps

/-!
# Scanning for the reader

The scanner takes the longest lexeme except for one thing: where an operand must stand, it does not
draw a minus and an equals sign together.  The reader makes no use of it.  An operand does not start
with an equals sign, so a text in which the exception is made is refused at the next token, as the
text is that the longest match would have made of it.  On the texts that are read to the end, the
scanner splits by the longest match.

* `Derivation.Partial.wantsOperand`, `Derivation.wantsOperand_step`: the scanner knows where an
  operand must stand.
* `Scan.splits_of_run`: a text that is read to the end has been split by the longest match.
* `Scan.cut_of_splits`: a split text with a derivation is cut into the lexemes of the split.
-/

namespace LoopNest

open LoopNest.Derivation

/-! ## Where an operand must stand -/

namespace Derivation

/-- An operand must stand next. -/
def Partial.wantsOperand (p : Partial) : Bool :=
  match p.tip with
  | .operand | .argument _ => true
  | .named _ | .value _ => false

theorem wantsOperand_stepOperand {nodes : List Node} {l : Lexeme} {p : Partial}
    (h : stepOperand nodes l = some p) :
    p.wantsOperand = Token.wantsOperand l.terminal := by
  unfold stepOperand at h
  split at h <;> cases h <;> rfl

theorem wantsOperand_stepBracket {t : Terminal} {closed : List Node × Derivation .expr}
    {p : Partial} (h : stepBracket t closed = some p) : p.wantsOperand = Token.wantsOperand t := by
  unfold stepBracket at h
  split at h
  all_goals first
    | cases h
    | split at h <;> cases h <;> rfl

theorem wantsOperand_stepValue {nodes : List Node} {d : Derivation .primary} {t : Terminal}
    {p : Partial} (h : stepValue nodes d t = some p) : p.wantsOperand = Token.wantsOperand t := by
  have hall : ∀ t ∈ Terminal.products ++ Terminal.sums ++ Terminal.comparisons ++
      Terminal.assignments, true = Token.wantsOperand t := by decide
  unfold stepValue at h
  split_ifs at h with h₁ h₂ h₃ h₄ h₅ h₆
  · cases h
    rw [h₁]
    rfl
  · cases h
    rw [h₂]
    rfl
  · cases h
    exact hall t (by simp [h₃])
  · cases h
    exact hall t (by simp [h₄])
  · unfold stepCompare at h
    split at h <;> cases h
    exact hall t (by simp [h₅])
  · unfold stepAssign at h
    split at h <;> cases h
    exact hall t (by simp [h₆])
  · exact wantsOperand_stepBracket h

/-- **What was read last tells whether an operand must stand next.** -/
theorem wantsOperand_step {p q : Partial} {l : Lexeme} (h : p.step l = some q) :
    q.wantsOperand = Token.wantsOperand l.terminal := by
  unfold Partial.step at h
  split at h
  · exact wantsOperand_stepOperand h
  · split at h
    · cases h
      rfl
    · exact wantsOperand_stepOperand h
  · split at h
    · cases h
      rfl
    · exact wantsOperand_stepValue h
    · cases h
  · split at h
    · exact wantsOperand_stepValue h
    · cases h

/-- No operand starts with these marks. -/
theorem step_eq_none {p : Partial} (h : p.wantsOperand = true) {t : Terminal}
    (ht : t = .minusEqual ∨ t = .equal ∨ t = .equalEqual) : p.step (.mark t) = none := by
  obtain ⟨nodes, tip⟩ := p
  cases tip with
  | operand => rcases ht with rfl | rfl | rfl <;> rfl
  | argument x => rcases ht with rfl | rfl | rfl <;> rfl
  | named x => cases h
  | value d => cases h

end Derivation

/-! ## The exception -/

namespace Token

theorem signAt_true {c : Char} {rest : List Char} (h : ∀ more, c :: rest ≠ '-' :: '=' :: more) :
    signAt true (c :: rest) = signAt false (c :: rest) := by
  cases rest with
  | nil => rfl
  | cons d more =>
    rw [signAt, signAt]
    cases hpair : pairTerminal? c d with
    | none => rfl
    | some t =>
      have hne : t ≠ .minusEqual := by
        rintro rfl
        have hchars : ['-', '='] = [c, d] := spelling_of_pairTerminal? hpair
        cases hchars
        exact h more rfl
      simp [hne]

/-- What is taken where an operand must stand is the longest lexeme, unless a minus and an equals
sign stand there. -/
theorem first?_true {text : List Char} (h : ∀ more, text ≠ '-' :: '=' :: more) :
    first? true text = first? false text := by
  cases text with
  | nil => rfl
  | cons c rest =>
    rw [first?, first?]
    split
    · rfl
    · split
      · exact signAt_true h
      · rfl

end Token

/-! ## Cutting -/

namespace Scan

open Token

theorem cut_nil (operand : Bool) (place : Place) : cut operand place [] = ⟨[], none⟩ := by
  rw [cut]

theorem cut_gap {c : Char} (hc : isGap c = true) (operand : Bool) (place : Place)
    (rest : List Char) :
    cut operand place (c :: rest) = cut operand (place.after c) rest := by
  rw [cut, if_pos hc]

theorem cut_none {c : Char} {rest : List Char} (hc : isGap c = false) {operand : Bool}
    (place : Place) (h : first? operand (c :: rest) = none) :
    cut operand place (c :: rest) = ⟨[], some (c, place)⟩ := by
  rw [cut, hc, if_neg Bool.false_ne_true, h]

theorem cut_lexeme {l : Lexeme} (hl : l.Proper) {rest : List Char} {operand : Bool} (place : Place)
    (h : first? operand (l.chars ++ rest) = some (l.terminal, l.chars)) :
    cut operand place (l.chars ++ rest) =
      (cut (wantsOperand l.terminal) (place.afterAll l.chars) rest).push (l.token place) := by
  obtain ⟨c, chars, hchars⟩ := hl.exists_chars
  have hc : isGap c = false := isGap_of_proper hl hchars
  rw [Lexeme.token]
  rw [hchars, List.cons_append] at h ⊢
  rw [cut, hc, if_neg Bool.false_ne_true, h]
  simp

/-- A run goes on behind a lexeme where the derivation does. -/
theorem exists_step_of_run {l : Lexeme} (hl : l.Proper) {p : Partial}
    {stray : Option (Char × Place)} {place last : Place}
    {tokens : List Token} {e : Expr}
    (h : Reading.run stray p.reading last (l.token place :: tokens) = .ok e) :
    ∃ q, p.step l = some q ∧ Reading.run stray q.reading place tokens = .ok e := by
  have hstep := reading_step hl p place
  rw [Reading.run] at h
  cases hr : p.reading.step (l.token place) with
  | error fault =>
    rw [hr] at h
    cases h
  | ok r =>
    rw [hr] at h hstep
    obtain ⟨q, hq, rfl⟩ := Option.map_eq_some_iff.mp hstep.symm
    exact ⟨q, hq, h⟩

theorem first?_equal (more : List Char) :
    ∃ t rest, first? true ('=' :: more) = some (t, t.spelling.toList) ∧
      '=' :: more = t.spelling.toList ++ rest ∧ (t = .equal ∨ t = .equalEqual) := by
  by_cases h : more.head? = some '='
  · obtain ⟨rest, rfl⟩ := List.head?_eq_some_iff.mp h
    exact ⟨.equalEqual, rest, rfl, rfl, .inr rfl⟩
  · refine ⟨.equal, more, ?_, rfl, .inl rfl⟩
    cases more with
    | nil => rfl
    | cons d rest =>
      have hd : d ≠ '=' := by simpa using h
      have hpair : pairTerminal? '=' d = none := by simp [pairTerminal?, hd]
      show signAt true ('=' :: d :: rest) = _
      rw [signAt, hpair]
      rfl

/-- A minus in front of an equals sign is refused where an operand must stand. -/
theorem run_minus_equal (p : Partial) (place last : Place) (more : List Char) {e : Expr} :
    Reading.run (cut true place ('-' :: '=' :: more)).stray p.reading last
        (cut true place ('-' :: '=' :: more)).tokens ≠
      .ok e := by
  intro h
  have hminus : cut true place ('-' :: '=' :: more) =
      (cut true (place.afterAll ['-']) ('=' :: more)).push ((Lexeme.mark .minus).token place) :=
    @cut_lexeme (.mark .minus) (Lexeme.proper_mark (by decide)) ('=' :: more) true place rfl
  rw [hminus] at h
  obtain ⟨q, hq, hrun⟩ := exists_step_of_run (Lexeme.proper_mark (by decide)) h
  obtain ⟨t, rest, hfirst, htext, ht⟩ := first?_equal more
  have hproper : (Lexeme.mark t).Proper := by
    rcases ht with rfl | rfl <;> exact Lexeme.proper_mark (by decide)
  rw [htext] at hfirst hrun
  rw [show cut true _ (t.spelling.toList ++ rest) = _ from cut_lexeme hproper _ hfirst] at hrun
  obtain ⟨r, hr, -⟩ := exists_step_of_run hproper hrun
  rw [step_eq_none (wantsOperand_step hq) (.inr ht)] at hr
  cases hr

/-- **A text that is read to the end has been split by the longest match.** -/
theorem splits_of_run {operand : Bool} {place : Place} {text : List Char} {p : Partial}
    {last : Place} {e : Expr} (hp : p.wantsOperand = operand)
    (h : Reading.run (cut operand place text).stray p.reading last (cut operand place text).tokens
      = .ok e) :
    (cut operand place text).stray = none ∧
      ∃ lexemes, Splits text lexemes ∧
        List.Forall₂ Token.Stands (cut operand place text).tokens lexemes := by
  induction hlength : text.length using Nat.strong_induction_on
    generalizing operand place text p last with
  | _ length ih =>
    cases text with
    | nil =>
      rw [cut_nil]
      exact ⟨rfl, [], .nil, .nil⟩
    | cons c rest =>
      cases hc : isGap c with
      | true =>
        rw [cut_gap hc] at h ⊢
        obtain ⟨hstray, lexemes, hsplits, htokens⟩ := ih rest.length (by simp [← hlength]) hp h rfl
        exact ⟨hstray, lexemes, .gap hc hsplits, htokens⟩
      | false =>
        -- the exception is refused, so the longest lexeme has been taken
        have hlongest : first? operand (c :: rest) = first? false (c :: rest) := by
          cases operand with
          | false => rfl
          | true =>
            refine first?_true fun more hmore => ?_
            rw [hmore] at h
            exact run_minus_equal p place last more h
        cases hfirst : first? false (c :: rest) with
        | none =>
          rw [cut_none hc place (hlongest.trans hfirst)] at h
          cases h
        | some found =>
          obtain ⟨t, s⟩ := found
          obtain ⟨l, hl, rfl, rfl⟩ := exists_longest_of_first? hfirst
          obtain ⟨more, hmore⟩ := hl.head
          rw [← hmore] at h hl hlongest hfirst hlength ⊢
          rw [cut_lexeme hl.proper place (hlongest.trans hfirst)] at h ⊢
          obtain ⟨q, hq, hrun⟩ := exists_step_of_run hl.proper h
          have hshorter : more.length < length := by
            obtain ⟨d, chars, hchars⟩ := hl.proper.exists_chars
            rw [← hlength, hchars, List.length_append, List.length_cons]
            omega
          obtain ⟨hstray, lexemes, hsplits, htokens⟩ :=
            ih more.length hshorter (wantsOperand_step hq) hrun rfl
          exact ⟨hstray, l :: lexemes, .lexeme hl hsplits, .cons ⟨hl.proper, rfl⟩ htokens⟩

/-- **A split text with a derivation is cut into the lexemes of the split.** -/
theorem cut_of_splits {text : List Char} {lexemes : List Lexeme} (h : Splits text lexemes)
    {p : Partial} {d : Derivation .start} (hrun : (p.run lexemes).bind Partial.finish = some d)
    (place : Place) :
    ∃ tokens, cut p.wantsOperand place text = ⟨tokens, none⟩ ∧
      List.Forall₂ Token.Stands tokens lexemes := by
  induction h generalizing p place with
  | nil => exact ⟨[], cut_nil _ place, .nil⟩
  | gap hc _ ih =>
    rw [cut_gap hc]
    exact ih hrun _
  | @lexeme l rest lexemes hl _ ih =>
    rw [Partial.run] at hrun
    cases hq : p.step l with
    | none =>
      rw [hq] at hrun
      cases hrun
    | some q =>
      rw [hq, Option.bind_some] at hrun
      obtain ⟨tokens, hcut, htokens⟩ := ih hrun (place.afterAll l.chars)
      have hlongest : first? p.wantsOperand (l.chars ++ rest) = some (l.terminal, l.chars) := by
        have hfirst := first?_of_longest hl
        cases hp : p.wantsOperand with
        | false => exact hfirst
        | true =>
          rw [← hfirst]
          refine first?_true fun more hmore => ?_
          -- no operand starts with the lexeme that the two characters make
          rw [hmore] at hfirst
          have hterminal : Terminal.minusEqual = l.terminal :=
            (Prod.mk.inj (Option.some.inj hfirst)).1
          cases l with
          | mark t =>
            have hnone : p.step (.mark t) = none := step_eq_none hp (.inl hterminal.symm)
            rw [hnone] at hq
            cases hq
          | word x => cases hterminal
          | number n => cases hterminal
      refine ⟨l.token place :: tokens, ?_, .cons ⟨hl.proper, rfl⟩ htokens⟩
      rw [cut_lexeme hl.proper place hlongest, ← wantsOperand_step hq, hcut]
      rfl

end Scan
end LoopNest
