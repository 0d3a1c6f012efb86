import LoopNest.Proofs.Source.Constant
import LoopNest.Proofs.Source.Lines
import LoopNest.Proofs.Source.Reparse

/-!
# The outline of generated code

Generated code has no brackets around its blocks: which statements a loop owns is told by the blanks
in front of the lines alone.  A line with `4 * k` blanks is at level `k`, and the head of a loop
owns the run of deeper lines behind it.  Read by this rule, the lines of a tree give back its
statements: blocks are spliced into the sequence around them, an empty block is the line `pass`, and
a loop owns what its body node says.

## Why the texts of lines matter

The rule looks at the text of a line twice: a line must not start with a blank of its own, which
would move it to another level, and a line that is no head of a loop must not look like one.  So the
texts are kept open at their end, in `Opens`, until it is known what stands behind a name.

* `Outline.read?`: lines read by the rule.
* `Source.opens_lineText`: how the text of a line starts.
* `Outline.read?_linesAll`: the lines of statements are read as the statements.
* `Source.statement_read`: the lines of a tree are read as its outline.
-/

namespace LoopNest
namespace Outline

/-! ## Reading lines -/

/-- The level of a line and its text: four blanks for each level. -/
def leveled? (line : String) : Option (Nat × String) :=
  let blanks := (line.toList.takeWhile (· = ' ')).length
  if blanks % 4 = 0 then some (blanks / 4, String.ofList (line.toList.dropWhile (· = ' ')))
    else none

/-- The first word of the line is the one of a loop. -/
def isHead (text : String) : Bool := text.toList.takeWhile Text.isInner = whileTag.toList

/-- The condition in the head of a loop, which ends with a colon. -/
def condition? (text : String) : Option String :=
  match text.toList with
  | 'w' :: 'h' :: 'i' :: 'l' :: 'e' :: ' ' :: rest =>
      if rest.getLast? = some ':' then some (String.ofList rest.dropLast) else none
  | _ => none

/-- The statements of a block at a level.  The head of a loop owns the run of deeper lines behind
it, of which there must be some; they are a block at the level of the first. -/
def block? (level : Nat) (lines : List (Nat × String)) : Option (List (Outline String)) :=
  match lines with
  | [] => some []
  | (l, text) :: rest =>
      if l ≠ level then none
      else if isHead text then
        match rest with
        | [] => none
        | (inner, first) :: more =>
            if level < inner then do
              let condition ← condition? text
              let body ←
                block? inner (((inner, first) :: more).takeWhile fun line => level < line.1)
              let behind ←
                block? level (((inner, first) :: more).dropWhile fun line => level < line.1)
              return .loop condition body :: behind
            else none
      else (block? level rest).map (.line text :: ·)
termination_by lines.length
decreasing_by
  all_goals simp only [List.length_cons]
  · exact Nat.lt_succ_of_le (List.takeWhile_sublist _).length_le
  · exact Nat.lt_succ_of_le (List.dropWhile_sublist _).length_le
  · exact Nat.lt_succ_self _

/-- The level of the first line, and the statements of the block that the lines are at this
level. -/
def read? (lines : List String) : Option (Nat × List (Outline String)) := do
  match ← lines.mapM leveled? with
  | [] => none
  | (level, text) :: rest => return (level, ← block? level ((level, text) :: rest))

mutual

/-- Every loop owns a statement. -/
def isFilled {α : Type} : Outline α → Bool
  | .line _ => true
  | .loop _ body => !body.isEmpty && areFilled body

/-- Every loop of the statements owns a statement. -/
def areFilled {α : Type} : List (Outline α) → Bool
  | [] => true
  | s :: rest => isFilled s && areFilled rest

end

end Outline

namespace Source

/-! ## How a text starts -/

/-- The text starts a line: not with a blank, and not with the word of a loop, whatever follows the
text. -/
inductive Opens : List Char → Prop where
  | mark {c : Char} {rest : List Char} (hblank : c ≠ ' ') (hword : c ≠ 'w') : Opens (c :: rest)
  | name {x : String} (hx : Text.isIdentifier x = true) {rest : List Char}
      (hrest : ∀ c ∈ rest.head?, Text.isInner c = false) : Opens (x.toList ++ rest)

theorem Opens.append {a b : List Char} (ha : Opens a) (hb : ∀ c ∈ b.head?, Text.isInner c = false) :
    Opens (a ++ b) := by
  cases ha with
  | mark hblank hword => exact .mark hblank hword
  | @name x hx rest hrest =>
    rw [List.append_assoc]
    refine .name hx fun c hc => ?_
    cases rest with
    | nil => exact hb c hc
    | cons d rest => exact hrest c hc

theorem isIdentifier_shape {x : String} (h : Text.isIdentifier x = true) :
    ∃ c rest, x.toList = c :: rest ∧ Text.isInitial c = true ∧ (∀ d ∈ rest, Text.isInner d = true) ∧
      x ∉ Text.reservedWords := by
  rw [Text.isIdentifier, Bool.and_eq_true, Bool.not_eq_true', Text.hasIdentifierShape] at h
  obtain ⟨hshape, hreserved⟩ := h
  cases hchars : x.toList with
  | nil =>
    rw [hchars] at hshape
    cases hshape
  | cons c rest =>
    rw [hchars, Bool.and_eq_true, List.all_eq_true] at hshape
    exact ⟨c, rest, rfl, hshape.1, hshape.2, by simpa using hreserved⟩

theorem isInner_of_isIdentifier {x : String} (h : Text.isIdentifier x = true) :
    ∀ c ∈ x.toList, Text.isInner c = true := by
  obtain ⟨c, rest, hchars, hinitial, hinner, -⟩ := isIdentifier_shape h
  rw [hchars]
  intro d hd
  rcases List.mem_cons.mp hd with rfl | hd
  · rw [Text.isInner, hinitial]
    rfl
  · exact hinner d hd

theorem Opens.exists_head {text : List Char} (h : Opens text) :
    ∃ c rest, text = c :: rest ∧ c ≠ ' ' := by
  cases h with
  | mark hblank _ => exact ⟨_, _, rfl, hblank⟩
  | name hx =>
    obtain ⟨c, rest, hchars, hinitial, -⟩ := isIdentifier_shape hx
    refine ⟨c, rest ++ _, by rw [hchars]; rfl, ?_⟩
    rintro rfl
    revert hinitial
    decide

/-- A text that starts a line is no head of a loop. -/
theorem Opens.isHead_eq_false {text : String} (h : Opens text.toList) :
    Outline.isHead text = false := by
  rw [Outline.isHead, decide_eq_false_iff_not]
  generalize text.toList = chars at h
  cases h with
  | @mark c rest hblank hword =>
    intro hwhile
    have hhead := congrArg List.head? hwhile
    rw [List.takeWhile_cons] at hhead
    split at hhead
    · exact hword (Option.some_inj.mp hhead)
    · cases hhead
  | @name x hx rest hrest =>
    obtain ⟨-, -, -, -, -, hreserved⟩ := isIdentifier_shape hx
    rw [Number.takeWhile_append_of_stop (isInner_of_isIdentifier hx) hrest]
    intro hwhile
    rw [String.toList_injective hwhile] at hreserved
    exact hreserved (by decide)

theorem opens_signed (n : Number.Numeral) (negative : Bool) : Opens (n.signed negative) := by
  cases negative with
  | true => exact .mark (by decide) (by decide)
  | false =>
    obtain ⟨c, rest, hchars, hc⟩ := n.exists_chars_eq_cons
    have hne : c ≠ ' ' ∧ c ≠ 'w' := by
      constructor <;> rintro rfl <;> revert hc <;> decide
    have hsigned : n.signed false = c :: rest := hchars
    rw [hsigned]
    exact .mark hne.1 hne.2

theorem opens_constant {v : Literal} {text : List Char} (h : Constant v text) : Opens text := by
  cases h with
  | truth b => cases b <;> exact .mark (by decide) (by decide)
  | text s =>
    rcases Text.markFor_eq s.toList with h | h
      <;> rw [Text.quoteChars, h] <;> exact .mark (by decide) (by decide)
  | int z => exact opens_signed _ _
  | float _ _ _ => exact opens_signed _ _
  | @infinite x negative hx => cases negative <;> exact .mark (by decide) (by decide)
  | nan _ => exact .mark (by decide) (by decide)

theorem opens_identifier {x text : String} (h : identifier x = .ok text) : Opens text.toList := by
  unfold identifier at h
  split at h
  · cases h
    simpa using @Opens.name x ‹_› [] (by simp)
  · cases h

theorem opens_application {f : String} {args : List String} {text : String}
    (h : application f args = .ok text) :
    Opens text.toList := by
  unfold application at h
  split at h
  · cases h
    simpa using Opens.mark (by decide) (by decide)
  · cases h
    simpa using Opens.mark (by decide) (by decide)
  · cases hf : identifier f with
    | error err =>
      rw [hf] at h
      cases h
    | ok x =>
      rw [hf] at h
      cases h
      have hparen : Text.isInner '(' = false := by decide
      dsimp only
      rw [String.append_assoc, String.append_assoc, String.toList_append]
      exact (opens_identifier hf).append (by simp [hparen])

/-- **The text of a value starts a line.** -/
theorem opens_term : ∀ (e : Expr) {text : String}, term e = .ok text → Opens text.toList
  | .name x, text, h => opens_identifier h
  | .literal v, text, h => opens_constant (constant_of_literal h)
  | .call f args, text, h => by
    obtain ⟨texts, -, h⟩ := term_call_eq_ok_iff.mp h
    exact opens_application h
  | .assign t value, text, h => by cases h
  | .form tag [], text, h => by cases h
  | .form tag (base :: indices), text, h => by
    by_cases htag : tag = refTag
    · subst htag
      obtain ⟨first, texts, hfirst, -, rfl⟩ := term_ref_eq_ok_iff.mp h
      have hbracket : Text.isInner '[' = false := by decide
      rw [String.append_assoc, String.append_assoc, String.toList_append]
      exact (opens_term base hfirst).append (by simp [hbracket])
    · rw [term, if_neg htag] at h
      cases h

/-- The text of a line starts it. -/
theorem opens_lineText {e : Expr} {text : String} (h : lineText e = .ok text) :
    Opens text.toList := by
  have hblank : Text.isInner ' ' = false := by decide
  cases e with
  | assign t value =>
    obtain ⟨left, hleft, h⟩ := bind_eq_ok_iff.mp h
    obtain ⟨right, -, h⟩ := bind_eq_ok_iff.mp h
    cases h
    rw [String.append_assoc, String.toList_append]
    exact (opens_term t (term_of_target hleft)).append (by simp [hblank])
  | form tag args =>
    unfold lineText at h
    dsimp only at h
    split at h
    · cases h
      exact .mark (by decide) (by decide)
    · split at h
      · cases h
      · split at h
        · split at h
          next t value =>
            obtain ⟨left, hleft, h⟩ := bind_eq_ok_iff.mp h
            obtain ⟨right, -, h⟩ := bind_eq_ok_iff.mp h
            cases h
            rw [String.append_assoc, String.append_assoc, String.append_assoc, String.toList_append]
            exact (opens_term t (term_of_target hleft)).append (by simp [hblank])
          next => cases h
        · split at h
          · exact opens_term _ h
          · cases h
  | name x => exact opens_term _ h
  | literal v => exact opens_term _ h
  | call f args => exact opens_term _ h

end Source

/-! ## Reading an outline back -/

namespace Outline

mutual

/-- The texts can stand on lines of their own, and every loop owns a statement. -/
def IsLegible : Outline String → Prop
  | .line text => Source.Opens text.toList
  | .loop _ body => body ≠ [] ∧ AreLegible body

/-- The statements are legible. -/
def AreLegible : List (Outline String) → Prop
  | [] => True
  | s :: rest => IsLegible s ∧ AreLegible rest

end

theorem takeWhile_blanks {text : List Char} (h : ∃ c rest, text = c :: rest ∧ c ≠ ' ') (n : Nat) :
    (List.replicate n ' ' ++ text).takeWhile (· = ' ') = List.replicate n ' ' ∧
      (List.replicate n ' ' ++ text).dropWhile (· = ' ') = text := by
  obtain ⟨c, rest, rfl, hc⟩ := h
  have hall : ∀ d ∈ List.replicate n ' ', decide (d = ' ') = true := by
    intro d hd
    rw [(List.mem_replicate.mp hd).2]
    rfl
  have hstop : ∀ d ∈ (c :: rest).head?, decide (d = ' ') = false := by
    rintro d ⟨⟩
    exact decide_eq_false hc
  exact ⟨Number.takeWhile_append_of_stop hall hstop, Number.dropWhile_append_of_stop hall hstop⟩

theorem leveled?_leveledLine {text : String} (h : ∃ c rest, text.toList = c :: rest ∧ c ≠ ' ')
    (level : Nat) :
    leveled? (Source.leveledLine (level, text)) = some (level, text) := by
  obtain ⟨htake, hdrop⟩ := takeWhile_blanks h (4 * level)
  have hchars : (Source.leveledLine (level, text)).toList = List.replicate (4 * level) ' ' ++
      text.toList := by
    rw [Source.leveledLine, Source.indent, String.toList_append, String.toList_ofList]
  rw [leveled?, hchars, htake, hdrop, List.length_replicate]
  simp

theorem condition?_head (condition : String) :
    condition? ("while " ++ condition ++ ":") = some condition := by
  have hchars : ("while " ++ condition ++ ":").toList =
      'w' :: 'h' :: 'i' :: 'l' :: 'e' :: ' ' :: (condition.toList ++ [':']) := by
    simp
  rw [condition?, hchars]
  simp

theorem isHead_head (condition : String) : isHead ("while " ++ condition ++ ":") = true := by
  have hchars : ("while " ++ condition ++ ":").toList = whileTag.toList ++ ' ' ::
      (condition.toList ++ [':']) := by
    simp [whileTag]
  have hstop : ∀ c ∈ (' ' :: (condition.toList ++ [':'])).head?, Text.isInner c = false := by
    rintro c ⟨⟩
    decide
  rw [isHead, hchars, Number.takeWhile_append_of_stop (List.all_eq_true.mp (by decide)) hstop]
  exact decide_eq_true rfl

mutual

theorem le_of_mem_lines (level : Nat) :
    ∀ (s : Outline String), ∀ entry ∈ lines level s, level ≤ entry.1
  | .line text, entry, hentry => by
    rw [List.mem_singleton.mp hentry]
  | .loop condition body, entry, hentry => by
    rcases List.mem_cons.mp hentry with rfl | hentry
    · exact le_rfl
    · exact (Nat.le_succ level).trans (le_of_mem_linesAll (level + 1) body entry hentry)

/-- No line of a block is at a lower level than the block. -/
theorem le_of_mem_linesAll (level : Nat) :
    ∀ (items : List (Outline String)), ∀ entry ∈ linesAll level items, level ≤ entry.1
  | [], _, hentry => by cases hentry
  | s :: rest, entry, hentry => by
    rcases List.mem_append.mp hentry with hentry | hentry
    · exact le_of_mem_lines level s entry hentry
    · exact le_of_mem_linesAll level rest entry hentry

end

/-- A statement starts at its level. -/
theorem exists_lines_eq_cons (level : Nat) (s : Outline String) :
    ∃ text rest, lines level s = (level, text) :: rest := by
  cases s <;> exact ⟨_, _, rfl⟩

theorem block?_nil (level : Nat) : block? level [] = some [] := by
  rw [block?]

theorem block?_cons_line {text : String} (h : isHead text = false) (level : Nat)
    (rest : List (Nat × String)) :
    block? level ((level, text) :: rest) = (block? level rest).map (.line text :: ·) := by
  rw [block?.eq_def]
  simp [h]

/-- The head of a loop owns the lines of its body and nothing that is behind them. -/
theorem block?_loop {level : Nat} {items : List (Outline String)} {first : Nat × String}
    {more : List (Nat × String)} (hlines : linesAll (level + 1) items = first :: more)
    {rest : List (Nat × String)} (hrest : ∀ entry ∈ rest.head?, entry.1 ≤ level)
    (condition : String) :
    block? level
        ((level, "while " ++ condition ++ ":") :: (linesAll (level + 1) items ++ rest)) = do
      let body ← block? first.1 (linesAll (level + 1) items)
      let behind ← block? level rest
      return .loop condition body :: behind := by
  have hdeeper : ∀ entry ∈ linesAll (level + 1) items, decide (level < entry.1) = true :=
    fun entry hentry => decide_eq_true (le_of_mem_linesAll (level + 1) items entry hentry)
  have hstop : ∀ entry ∈ rest.head?, decide (level < entry.1) = false :=
    fun entry hentry => decide_eq_false (not_lt.mpr (hrest entry hentry))
  have hfirst : level < first.1 :=
    le_of_mem_linesAll (level + 1) items first (hlines ▸ List.mem_cons_self)
  have htake := Number.takeWhile_append_of_stop hdeeper hstop
  have hdrop := Number.dropWhile_append_of_stop hdeeper hstop
  rw [hlines, List.cons_append] at htake hdrop ⊢
  rw [block?.eq_def]
  dsimp only
  rw [if_neg (by simp), if_pos (isHead_head condition), if_pos hfirst, htake, hdrop,
    condition?_head]
  rfl

mutual

/-- A statement is read from its lines, and what is behind them is read on. -/
theorem block?_lines (level : Nat) :
    ∀ (s : Outline String), IsLegible s → ∀ {rest : List (Nat × String)},
    (∀ entry ∈ rest.head?, entry.1 ≤ level) →
    block? level (lines level s ++ rest) = (block? level rest).map (s :: ·)
  | .line text, hs, rest, hrest => by
    have htext : isHead text = false := Source.Opens.isHead_eq_false hs
    rw [lines, List.cons_append, List.nil_append, block?_cons_line htext]
  | .loop condition body, hs, rest, hrest => by
    obtain ⟨s, more, hbody⟩ := List.exists_cons_of_ne_nil hs.1
    obtain ⟨text, tail, hlines⟩ := exists_lines_eq_cons (level + 1) s
    have hread := @block?_linesAll (level + 1) body hs.2 [] (by simp)
    have hfirst : linesAll (level + 1) body = (level + 1, text) ::
        (tail ++ linesAll (level + 1) more) := by
      rw [hbody, linesAll, hlines, List.cons_append]
    rw [lines, List.cons_append, block?_loop hfirst hrest]
    rw [List.append_nil, block?_nil, Option.map_some, List.append_nil] at hread
    rw [hread]
    cases block? level rest <;> rfl

/-- **Lines are read as the outline that they were written for.** -/
theorem block?_linesAll (level : Nat) : ∀ (items : List (Outline String)), AreLegible items →
    ∀ {rest : List (Nat × String)}, (∀ entry ∈ rest.head?, entry.1 ≤ level) →
    block? level (linesAll level items ++ rest) = (block? level rest).map (items ++ ·)
  | [], _, rest, _ => by
    simp [linesAll]
  | s :: more, hs, rest, hrest => by
    have hhead : ∀ entry ∈ (linesAll level more ++ rest).head?, entry.1 ≤ level := by
      cases more with
      | nil => exact hrest
      | cons s' more =>
        obtain ⟨text, tail, hlines⟩ := exists_lines_eq_cons level s'
        rw [linesAll, hlines]
        rintro entry ⟨⟩
        exact le_rfl
    rw [linesAll, List.append_assoc, block?_lines level s hs.1 hhead,
      block?_linesAll level more hs.2 hrest]
    cases block? level rest <;> rfl

end

mutual

theorem exists_head_of_mem_lines (level : Nat) :
    ∀ (s : Outline String), IsLegible s → ∀ entry ∈ lines level s,
    ∃ c rest, entry.2.toList = c :: rest ∧ c ≠ ' '
  | .line text, h, entry, hentry => by
    rw [List.mem_singleton.mp hentry]
    exact Source.Opens.exists_head h
  | .loop condition body, h, entry, hentry => by
    rcases List.mem_cons.mp hentry with rfl | hentry
    · exact ⟨'w', "hile ".toList ++ (condition.toList ++ [':']), by simp, by decide⟩
    · exact exists_head_of_mem_linesAll (level + 1) body h.2 entry hentry

/-- No line has a blank in front but those of its level. -/
theorem exists_head_of_mem_linesAll (level : Nat) :
    ∀ (items : List (Outline String)), AreLegible items →
    ∀ entry ∈ linesAll level items, ∃ c rest, entry.2.toList = c :: rest ∧ c ≠ ' '
  | [], _, _, hentry => by cases hentry
  | s :: rest, h, entry, hentry => by
    rcases List.mem_append.mp hentry with hentry | hentry
    · exact exists_head_of_mem_lines level s h.1 entry hentry
    · exact exists_head_of_mem_linesAll level rest h.2 entry hentry

end

theorem mapM_leveled? {entries : List (Nat × String)}
    (h : ∀ entry ∈ entries, ∃ c rest, entry.2.toList = c :: rest ∧ c ≠ ' ') :
    (entries.map Source.leveledLine).mapM leveled? = some entries := by
  induction entries with
  | nil => rfl
  | cons entry entries ih =>
    rw [List.map_cons, List.mapM_cons, leveled?_leveledLine (h entry List.mem_cons_self),
      ih fun other hother => h other (List.mem_cons_of_mem _ hother)]
    rfl

/-- The lines of legible statements are read as the statements. -/
theorem read?_linesAll (level : Nat) {items : List (Outline String)} (h : AreLegible items)
    (hne : items ≠ []) :
    read? ((linesAll level items).map Source.leveledLine) = some (level, items) := by
  have hblock := @block?_linesAll level items h [] (by simp)
  rw [List.append_nil, block?_nil, Option.map_some, List.append_nil] at hblock
  have hlines : ∃ text more, linesAll level items = (level, text) :: more := by
    obtain ⟨s, rest, rfl⟩ := List.exists_cons_of_ne_nil hne
    obtain ⟨text, more, hlines⟩ := exists_lines_eq_cons level s
    exact ⟨text, more ++ linesAll level rest, by rw [linesAll, hlines, List.cons_append]⟩
  obtain ⟨text, more, hlines⟩ := hlines
  rw [read?, mapM_leveled? (exists_head_of_mem_linesAll level items h)]
  rw [hlines] at hblock ⊢
  simp [hblock]

theorem AreLegible.append {a b : List (Outline String)} (ha : AreLegible a) (hb : AreLegible b) :
    AreLegible (a ++ b) := by
  induction a with
  | nil => exact hb
  | cons s a ih => exact ⟨ha.1, ih ha.2⟩

mutual

theorem isFilled_of_isLegible : ∀ s : Outline String, IsLegible s → isFilled s = true
  | .line _, _ => rfl
  | .loop _ body, h => by
    have hne : body.isEmpty = false := List.isEmpty_eq_false_iff.mpr h.1
    rw [isFilled, hne, areFilled_of_areLegible body h.2]
    rfl

theorem areFilled_of_areLegible :
    ∀ items : List (Outline String), AreLegible items → areFilled items = true
  | [], _ => rfl
  | s :: rest, h => by
    rw [areFilled, isFilled_of_isLegible s h.1, areFilled_of_areLegible rest h.2]
    rfl

end

end Outline

/-! ## Generated statements -/

namespace Source

theorem areLegible_line {e : Expr} {spelled : List (Outline String)}
    (h : spellAll [.line e] = .ok spelled) :
    Outline.AreLegible spelled := by
  rw [spellAll_single] at h
  obtain ⟨s, hs, h⟩ := bind_eq_ok_iff.mp h
  obtain ⟨text, htext, hs⟩ := bind_eq_ok_iff.mp hs
  cases hs
  cases h
  exact ⟨opens_lineText htext, trivial⟩

mutual

/-- The statements of a tree are legible: a loop owns a statement because every tree has one. -/
theorem areLegible_outline :
    ∀ (e : Expr) {spelled : List (Outline String)}, spellAll e.outline = .ok spelled →
    Outline.AreLegible spelled
  | .form tag args, spelled, h => by
    by_cases hblock : tag = blockTag
    · subst hblock
      rw [Expr.outline_block] at h
      split at h
      · exact areLegible_line h
      · exact areLegible_outlineAll args h
    · unfold Expr.outline at h
      rw [if_neg hblock] at h
      split at h
      · split at h
        next condition body =>
          rw [spellAll_single] at h
          obtain ⟨s, hs, h⟩ := bind_eq_ok_iff.mp h
          obtain ⟨text, -, hs⟩ := bind_eq_ok_iff.mp hs
          obtain ⟨inner, hinner, hs⟩ := bind_eq_ok_iff.mp hs
          cases hs
          cases h
          exact ⟨⟨spellAll_ne_nil body.outline_ne_nil hinner, areLegible_outline body hinner⟩,
            trivial⟩
        next => exact areLegible_line h
      · exact areLegible_line h
  | .name _, _, h | .literal _, _, h | .call _ _, _, h | .assign _ _, _, h => areLegible_line h

theorem areLegible_outlineAll : ∀ (es : List Expr) {spelled : List (Outline String)},
    spellAll (Expr.outlineAll es) = .ok spelled → Outline.AreLegible spelled
  | [], spelled, h => by
    cases h
    exact trivial
  | e :: es, spelled, h => by
    rw [Expr.outlineAll, spellAll_append] at h
    obtain ⟨first, hfirst, h⟩ := bind_eq_ok_iff.mp h
    obtain ⟨rest, hrest, h⟩ := bind_eq_ok_iff.mp h
    cases h
    exact (areLegible_outline e hfirst).append (areLegible_outlineAll es hrest)

end

/-- **Generated lines have the block structure of the tree.**  Where a tree has lines at a depth,
the first of them is at this level, and read by their indentation the lines are the statements of
the tree: blocks are spliced in place, an empty block is `pass`, and every loop owns at least one
statement and just those of its body. -/
theorem statement_read {e : Expr} {depth : Nat} {lines : List String}
    (h : statement depth e = .ok lines) :
    ∃ items, spellAll e.outline = .ok items ∧ Outline.read? lines = some (depth, items) ∧
      Outline.areFilled items = true := by
  rw [statement_eq] at h
  obtain ⟨items, hitems, h⟩ := bind_eq_ok_iff.mp h
  cases h
  have hlegible := areLegible_outline e hitems
  have hne := spellAll_ne_nil e.outline_ne_nil hitems
  exact ⟨items, hitems, Outline.read?_linesAll depth hlegible hne,
    Outline.areFilled_of_areLegible items hlegible⟩

/-- Two loops, the inner one with nothing to do, and an empty block between two calls. -/
def nestedLoops : Expr :=
  .form blockTag
    [.assign (.name "i") (.literal (.int 0)),
      .form whileTag [.call "<=" [.name "i", .name "n"],
        .form blockTag
          [.form blockTag [.call "f" [.name "i"], .form blockTag [], .call "g" []],
            .form whileTag [.call "h" [.name "i"], .form blockTag []],
            .form "+=" [.name "i", .literal (.int 1)]]],
      .call "f" [.name "n"]]

theorem statement_read_nestedLoops :
    Outline.read? ["    i = 0", "    while (i <= n):", "        f(i)", "        pass",
        "        g()", "        while h(i):", "            pass", "        i += 1", "    f(n)"] =
      some (1, [.line "i = 0",
        .loop "(i <= n)" [.line "f(i)", .line "pass", .line "g()", .loop "h(i)" [.line "pass"],
          .line "i += 1"],
        .line "f(n)"]) := by
  have hlines : statement 1 nestedLoops
      = .ok ["    i = 0", "    while (i <= n):", "        f(i)", "        pass", "        g()",
        "        while h(i):", "            pass", "        i += 1", "    f(n)"] := by
    rfl
  have hspelled : spellAll nestedLoops.outline = .ok [.line "i = 0",
      .loop "(i <= n)" [.line "f(i)", .line "pass", .line "g()", .loop "h(i)" [.line "pass"],
        .line "i += 1"],
      .line "f(n)"] := by
    rfl
  obtain ⟨items, hitems, hread, -⟩ := statement_read hlines
  rw [hspelled] at hitems
  cases hitems
  exact hread

end Source
end LoopNest
