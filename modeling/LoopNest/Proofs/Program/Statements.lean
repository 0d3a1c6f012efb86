import LoopNest.Proofs.Program.Operands

/-!
# Statements read back

A line is read as its statement with every operand read back, a `while` line with what it owns as a
loop around a block.  A target that starts with a negative number is refused, because the sign in
front of it makes it no target.

Lines are put together from the last one on.  The invariant is that no level deeper than the line in
front is left open: `onto` says how the statements of one level join those that follow them.

* `Program.Tells`: the text of a line, and what it is read as.
* `Program.rereadAll?`: what statements are read as.
* `Program.foldrM_linesAll`: the lines of statements are read as these.
-/

namespace LoopNest
namespace Program

/-! ## Lines -/

theorem Parses.eq_of_term? {ls : List Lexeme} {m : Bool} {e e' : Expr} (h : Parses ls m e)
    (hterm : term? ls = some e') :
    e' = signed m e := by
  obtain ⟨front, hfront, hleads⟩ := h []
  unfold term? at hterm
  obtain ⟨state, hstate, hterm⟩ := Option.bind_eq_some_iff.mp hterm
  have heq := hleads [] state (by rwa [List.append_nil])
  obtain rfl : (waiting m ++ [], front) = state := by
    simpa using heq
  cases hfront <;> cases m <;> exact (Option.some_inj.mp hterm).symm

/-- The text of a line, which is read as the line if it is read at all. -/
structure Tells (text : List Char) (line : Option Line) : Prop where
  oneLine : '\n' ∉ text
  head : ∃ c tail, text = c :: tail ∧ c ≠ ' '
  read : ∀ ls l, lexemes? text = some ls → line? ls = some l → line = some l

theorem Yields.lexemes?_eq {text : List Char} {ls : List Lexeme} (h : Yields text ls) :
    lexemes? text = some ls := by
  simpa using h [] stops_nil

/-- A text that is cut into lexemes tells what they tell. -/
theorem Yields.tells {text : List Char} {ls : List Lexeme} (h : Yields text ls)
    (honeLine : '\n' ∉ text) (hhead : ∃ c tail, text = c :: tail ∧ c ≠ ' ') {line : Option Line}
    (hline : ∀ l, line? ls = some l → line = some l) : Tells text line := by
  refine ⟨honeLine, hhead, fun ls' l hls hl => ?_⟩
  rw [h.lexemes?_eq, Option.some_inj] at hls
  subst hls
  exact hline l hl

/-- A line that starts like an operand is a statement. -/
theorem line?_of_start {ls : List Lexeme} (h : ∃ l more, ls = l :: more ∧ l.isStart = true) :
    line? ls = (statement? ls).map .statement := by
  obtain ⟨l, more, rfl, hl⟩ := h
  unfold line?
  split
  · next h =>
    cases h
    cases hl
  · next h =>
    cases h
    cases hl
  · next h =>
    cases h
    cases hl
  · rfl

theorem span_of_plain {ls : List Lexeme} (h : ∀ l ∈ ls, isAssignment l = false) {op : String}
    (hop : isAssignment (.sign op) = true) (more : List Lexeme) :
    (ls ++ .sign op :: more).span (fun l => !isAssignment l) = (ls, .sign op :: more) := by
  rw [List.span_eq_takeWhile_dropWhile, Number.takeWhile_append_of_stop (by simpa using h)
    (by simp [hop]), Number.dropWhile_append_of_stop (by simpa using h) (by simp [hop])]

theorem span_plain {ls : List Lexeme} (h : ∀ l ∈ ls, isAssignment l = false) :
    ls.span (fun l => !isAssignment l) = (ls, []) := by
  have hall : ∀ l ∈ ls, (!isAssignment l) = true := by simpa using h
  rw [List.span_eq_takeWhile_dropWhile, List.takeWhile_eq_self_iff.mpr hall,
    List.dropWhile_eq_nil_iff.mpr hall]

/-- An operand on a line of its own. -/
theorem Operand.tells {text : List Char} {m : Bool} {e : Expr} (h : Operand text m e) :
    Tells text (some (.statement (signed m e))) := by
  obtain ⟨ls, hpiece, hparses⟩ := h
  obtain ⟨c, tail, htext, -, hblank⟩ := hpiece.head
  refine hpiece.yields.tells hpiece.oneLine ⟨c, tail, htext, hblank⟩ fun l hl => ?_
  rw [line?_of_start hpiece.start, Option.map_eq_some_iff] at hl
  obtain ⟨e', he', rfl⟩ := hl
  unfold statement? at he'
  rw [span_plain hpiece.plain] at he'
  rw [hparses.eq_of_term? he']

/-- An assignment or an update. -/
theorem tells_assignment {a b : List Char} {m m' : Bool} {x y : Expr} (hx : Operand a m x)
    (hy : Operand b m' y) {op : String} (hop : op = "=" ∨ op ∈ updateTags) :
    Tells (a ++ ' ' :: (op.toList ++ ' ' :: b))
      (if isTarget (signed m x) then
        some (.statement (Reading.assignment op (signed m x) (signed m' y))) else none) := by
  obtain ⟨ls, hls, hx⟩ := hx
  obtain ⟨ms, hms, hy⟩ := hy
  obtain ⟨c, tail, htext, -, hblank⟩ := hls.head
  have hsign : op ∈ spacedSigns ∧ isAssignment (.sign op) = true ∧ '\n' ∉ op.toList := by
    simp only [updateTags, List.mem_cons, List.not_mem_nil, or_false] at hop
    rcases hop with rfl | rfl | rfl | rfl | rfl <;> decide
  obtain ⟨hspaced, hassign, hline⟩ := hsign
  refine (hls.yields.between hms.yields hspaced).tells (by simp [hls.oneLine, hms.oneLine, hline])
    ⟨c, _, by rw [htext]; rfl, hblank⟩ fun l hl => ?_
  have hstart : ∃ first more, ls ++ .sign op :: ms = first :: more ∧ first.isStart = true := by
    obtain ⟨first, more, rfl, hfirst⟩ := hls.start
    exact ⟨first, _, rfl, hfirst⟩
  rw [line?_of_start hstart, Option.map_eq_some_iff] at hl
  obtain ⟨e', he', rfl⟩ := hl
  unfold statement? at he'
  rw [span_of_plain hls.plain hassign] at he'
  obtain ⟨target, htarget, he'⟩ := Option.bind_eq_some_iff.mp he'
  obtain ⟨value, hvalue, he'⟩ := Option.bind_eq_some_iff.mp he'
  rw [hx.eq_of_term? htarget, hy.eq_of_term? hvalue] at he'
  split at he'
  · next htarget' => rw [if_pos htarget', Option.some_inj.mp he']
  · cases he'

/-- A word of a statement in front of an operand. -/
theorem yields_keyword {a : List Char} {ls : List Lexeme} (word : String) (ha : Yields a ls)
    {c : Char} {rest : List Char} (hword : word.toList = c :: rest)
    (hinitial : Text.isInitial c = true) (hinner : ∀ d ∈ rest, Text.isInner d = true) :
    Yields (word.toList ++ ' ' :: a) (.word word :: ls) := by
  have hyields := yields_word hinitial hinner
  rw [← hword, String.ofList_toList] at hyields
  exact hyields.append ha.blank rfl (by decide)

/-- The line of a loop. -/
theorem Operand.tells_loop {a : List Char} {m : Bool} {x : Expr} (h : Operand a m x) :
    Tells ("while ".toList ++ (a ++ [':'])) (some (.loop (signed m x))) := by
  obtain ⟨ls, hpiece, hparses⟩ := h
  have hcolon : Yields [':'] [.sign ":"] := .bracket rfl (by decide)
  have hyields :=
    yields_keyword "while" (hpiece.yields.append hcolon rfl (by decide)) rfl (by decide)
    (List.all_eq_true.mp (by decide))
  refine hyields.tells (by simp [hpiece.oneLine]) ⟨'w', _, rfl, by decide⟩ fun l hl => ?_
  have hline : line? (.word "while" :: (ls ++ [.sign ":"])) = (term? ls).map .loop := by
    simp [line?]
  rw [hline, Option.map_eq_some_iff] at hl
  obtain ⟨e, he, rfl⟩ := hl
  rw [hparses.eq_of_term? he]

/-- The last line. -/
theorem Operand.tells_result {a : List Char} {m : Bool} {x : Expr} (h : Operand a m x) :
    Tells ("return ".toList ++ a) (some (.result (signed m x))) := by
  obtain ⟨ls, hpiece, hparses⟩ := h
  have hyields :=
    yields_keyword "return" hpiece.yields rfl (by decide) (List.all_eq_true.mp (by decide))
  refine hyields.tells (by simp [hpiece.oneLine]) ⟨'r', _, rfl, by decide⟩ fun l hl => ?_
  have hline : line? (.word "return" :: ls) = (term? ls).map .result := by
    simp [line?]
  rw [hline, Option.map_eq_some_iff] at hl
  obtain ⟨e, he, rfl⟩ := hl
  rw [hparses.eq_of_term? he]

theorem tells_pass : Tells "pass".toList (some (.statement (.form blockTag []))) := by
  have hyields : Yields "pass".toList [.word "pass"] :=
    yields_word rfl (List.all_eq_true.mp (by decide))
  exact hyields.tells (by decide) ⟨'p', _, rfl, by decide⟩ fun l hl => hl

/-- What a statement on a line of its own is read as, if its target is read as a target. -/
def rereadLine? : Expr → Option Expr
  | .assign t value =>
    if isTarget (closed t) then some (.assign (closed t) (closed value)) else none
  | .form tag args =>
      if tag = blockTag then some (.form blockTag [])
      else if updateTags.contains tag then
        match args with
        | [t, value] =>
          if isTarget (closed t) then some (.form tag [closed t, closed value]) else none
        | _ => none
      else if tag = refTag then some (closed (.form tag args))
      else none
  | e => some (closed e)

theorem tells_term {e : Expr} {text : String} (h : Source.term e = .ok text) :
    Tells text.toList (some (.statement (closed e))) :=
  (term_operand e h).tells

theorem tells_assigned {t value : Expr} {a b : String} (ha : Source.target t = .ok a)
    (hb : Source.term value = .ok b) {op : String} (hop : op = "=" ∨ op ∈ updateTags) :
    Tells (a ++ " " ++ op ++ " " ++ b).toList ((if isTarget (closed t) then
      some (Reading.assignment op (closed t) (closed value)) else none).map .statement) := by
  have htext : (a ++ " " ++ op ++ " " ++ b).toList = a.toList ++ ' ' ::
      (op.toList ++ ' ' :: b.toList) := by
    simp
  have htells : Tells _ (if isTarget (closed t) then
      some (Line.statement (Reading.assignment op (closed t) (closed value))) else none) :=
    tells_assignment (term_operand t (Source.term_of_target ha)) (term_operand value hb) hop
  rw [htext]
  by_cases htarget : isTarget (closed t) = true
  · rwa [if_pos htarget] at htells ⊢
  · rwa [if_neg htarget] at htells ⊢

/-- **The text of a statement is read as the statement**, with every operand read back. -/
theorem tells_lineText : ∀ {e : Expr} {text : String}, Source.lineText e = .ok text →
    Tells text.toList ((rereadLine? e).map .statement)
  | .name x, text, h => tells_term h
  | .literal v, text, h => tells_term h
  | .call f args, text, h => tells_term h
  | .assign t value, text, h => by
    obtain ⟨a, ha, h⟩ := bind_eq_ok_iff.mp h
    obtain ⟨b, hb, h⟩ := bind_eq_ok_iff.mp h
    cases h
    have htells := tells_assigned ha hb (.inl rfl)
    simpa [rereadLine?, Reading.assignment] using htells
  | .form tag args, text, h => by
    unfold Source.lineText at h
    unfold rereadLine?
    dsimp only at h ⊢
    split at h
    · next hblock =>
      cases h
      rw [if_pos hblock]
      exact tells_pass
    · next hblock =>
      rw [if_neg hblock]
      split at h
      · cases h
      · split at h
        · next hupdate =>
          rw [if_pos hupdate]
          split at h
          · next t value =>
            obtain ⟨a, ha, h⟩ := bind_eq_ok_iff.mp h
            obtain ⟨b, hb, h⟩ := bind_eq_ok_iff.mp h
            cases h
            have hne : tag ≠ "=" := by
              rintro rfl
              exact absurd hupdate (by decide)
            have htells := tells_assigned ha hb (.inr (List.contains_iff_mem.mp hupdate))
            rwa [Reading.assignment, if_neg hne] at htells
          · cases h
        · next hupdate =>
          rw [if_neg hupdate]
          split at h
          · next href =>
            rw [if_pos href]
            exact tells_term h
          · cases h

/-! ## Levels -/

/-- The line of a text at a level, put in front of the lines read so far. -/
def addText? (line : Nat × String) (levels : Levels) : Option Levels := do
  addLine? (← leveledLine? (Source.leveledLine line).toList) levels

theorem lexemes?_replicate (n : Nat) (text : List Char) :
    lexemes? (List.replicate n ' ' ++ text) = lexemes? text := by
  induction n with
  | zero => rfl
  | succ n ih => rw [List.replicate_succ, List.cons_append, lexemes?_blank, ih]

theorem Tells.leveledLine?_eq {text : String} {line : Option Line} (h : Tells text.toList line)
    {level : Nat} {read : Nat × Line}
    (hread : leveledLine? (Source.leveledLine (level, text)).toList = some read) :
    read.1 = level ∧ line = some read.2 := by
  obtain ⟨htake, -⟩ := Outline.takeWhile_blanks h.head (4 * level)
  have hchars : (Source.leveledLine (level, text)).toList = List.replicate (4 * level) ' ' ++
      text.toList := by
    rw [Source.leveledLine, Source.indent, String.toList_append, String.toList_ofList]
  rw [leveledLine?, hchars, htake, List.length_replicate, lexemes?_replicate] at hread
  obtain ⟨ls, hls, hread⟩ := Option.bind_eq_some_iff.mp hread
  obtain ⟨l, hl, hread⟩ := Option.bind_eq_some_iff.mp hread
  rw [if_pos (Nat.mul_mod_right 4 level), Nat.mul_div_cancel_left level (by decide)] at hread
  cases hread
  exact ⟨rfl, h.read ls l hls hl⟩

/-- Statements of a level in front of what follows them. -/
def onto (level : Nat) : List Expr → Levels → Levels
  | [], levels => levels
  | es, [] => [(level, es)]
  | es, (l, fs) :: levels =>
    if l = level then (l, es ++ fs) :: levels else (level, es) :: (l, fs) :: levels

/-- No level deeper than this one is open. -/
def Below (level : Nat) (levels : Levels) : Prop := ∀ top ∈ levels.head?, top.1 ≤ level

theorem addStatement?_eq {level : Nat} {e : Expr} {levels result : Levels}
    (h : addStatement? level e levels = some result) : result = onto level [e] levels := by
  unfold addStatement? at h
  split at h
  · exact (Option.some_inj.mp h).symm
  · split at h
    · next hlevel =>
      rw [onto, if_pos hlevel]
      · exact (Option.some_inj.mp h).symm
      · simp
    · next hlevel =>
      split at h
      · rw [onto, if_neg hlevel]
        · exact (Option.some_inj.mp h).symm
        · simp
      · cases h

theorem onto_cons {level : Nat} (e : Expr) (es : List Expr) {levels : Levels}
    (h : Below level levels) :
    onto level [e] (onto level es levels) = onto level (e :: es) levels := by
  cases es with
  | nil => rfl
  | cons f es =>
    cases levels with
    | nil => simp [onto]
    | cons top levels =>
      by_cases hlevel : top.1 = level <;> simp [onto, hlevel]

theorem below_onto {level : Nat} (es : List Expr) {levels : Levels} (h : Below level levels) :
    Below level (onto level es levels) := by
  cases es with
  | nil => exact h
  | cons f es =>
    cases levels with
    | nil => simp [onto, Below]
    | cons top levels =>
      by_cases hlevel : top.1 = level <;> simp [onto, Below, hlevel]

/-- The tree is an operand, not an assignment, an update, a block or a loop. -/
def isValue : Expr → Bool
  | .assign _ _ => false
  | .form tag _ => tag = refTag
  | _ => true

theorem isValue_of_term {e : Expr} {text : String} (h : Source.term e = .ok text) :
    isValue e = true := by
  match e, h with
  | .name x, _ => rfl
  | .literal v, _ => rfl
  | .call f args, _ => rfl
  | .form tag (base :: indices), h =>
    rw [Source.term] at h
    split at h
    · next htag => simp [isValue, htag]
    · cases h

mutual

/-- What a statement is read as.  The condition of a loop is an operand. -/
def reread? : Outline Expr → Option Expr
  | .line e => rereadLine? e
  | .loop condition body => do
      let body ← rereadAll? body
      if isValue condition then some (.form whileTag [closed condition, .form blockTag body])
        else none

/-- What statements are read as. -/
def rereadAll? : List (Outline Expr) → Option (List Expr)
  | [] => some []
  | s :: rest => do
      let first ← reread? s
      let rest ← rereadAll? rest
      return first :: rest

end

/-- Statements one level deeper open that level. -/
theorem onto_deeper {level : Nat} {es : List Expr} (hne : es ≠ []) {levels : Levels}
    (h : Below level levels) :
    onto (level + 1) es levels = (level + 1, es) :: levels := by
  obtain ⟨e, es, rfl⟩ := List.exists_cons_of_ne_nil hne
  cases levels with
  | nil => rfl
  | cons top levels =>
    have htop : top.1 ≤ level := h top rfl
    rw [onto, if_neg (by omega)]
    simp

/-- A loop owns the statements one level deeper, and there are some. -/
theorem addLine?_loop {level : Nat} {condition : Expr} {es : List Expr} {levels result : Levels}
    (hbelow : Below level levels)
    (h : addLine? (level, .loop condition) (onto (level + 1) es levels) = some result) :
    result = onto level [.form whileTag [condition, .form blockTag es]] levels := by
  by_cases hne : es = []
  · subst hne
    rw [onto] at h
    cases levels with
    | nil => cases h
    | cons top levels =>
      have htop : top.1 ≤ level := hbelow top rfl
      rw [addLine?, if_neg (by simp; omega)] at h
      cases h
  · rw [onto_deeper hne hbelow, addLine?] at h
    split at h
    · exact addStatement?_eq h
    · cases h

mutual

/-- The lines of one statement are read as the statement. -/
theorem foldrM_lines :
    ∀ (s : Outline Expr) {spelled : Outline String}, Source.spell s = .ok spelled →
    ∀ {level : Nat} {levels result : Levels}, Below level levels →
    (Outline.lines level spelled).foldrM addText? levels = some result →
    ∃ e, reread? s = some e ∧ result = onto level [e] levels
  | .line e, spelled, h, level, levels, result, hbelow, hresult => by
    obtain ⟨text, htext, h⟩ := bind_eq_ok_iff.mp h
    cases h
    rw [Outline.lines, List.foldrM_cons, List.foldrM_nil, pure_bind] at hresult
    obtain ⟨read, hread, hadd⟩ := Option.bind_eq_some_iff.mp hresult
    obtain ⟨hlevel, hline⟩ := (tells_lineText htext).leveledLine?_eq hread
    obtain ⟨e', he', hline⟩ := Option.map_eq_some_iff.mp hline
    obtain ⟨l, line⟩ := read
    cases hlevel
    cases hline
    exact ⟨e', he', addStatement?_eq hadd⟩
  | .loop condition body, spelled, h, level, levels, result, hbelow, hresult => by
    obtain ⟨text, htext, h⟩ := bind_eq_ok_iff.mp h
    obtain ⟨inner, hinner, h⟩ := bind_eq_ok_iff.mp h
    cases h
    rw [Outline.lines, List.foldrM_cons] at hresult
    obtain ⟨open', hopen, hresult⟩ := Option.bind_eq_some_iff.mp hresult
    have hbelow' : Below (level + 1) levels :=
      fun top htop => (hbelow top htop).trans (Nat.le_succ level)
    obtain ⟨es, hes, rfl⟩ := foldrM_linesAll body hinner hbelow' hopen
    obtain ⟨read, hread, hadd⟩ := Option.bind_eq_some_iff.mp hresult
    have htells : Tells ("while " ++ text ++ ":").toList (some (.loop (closed condition))) := by
      simpa [closed] using (term_operand condition htext).tells_loop
    obtain ⟨hlevel, hline⟩ := htells.leveledLine?_eq hread
    obtain ⟨l, line⟩ := read
    cases hlevel
    cases hline
    refine ⟨_, ?_, addLine?_loop hbelow hadd⟩
    rw [reread?, hes]
    exact if_pos (isValue_of_term htext)

/-- **The lines of statements are read as the statements**, in front of what follows them. -/
theorem foldrM_linesAll : ∀ (items : List (Outline Expr)) {spelled : List (Outline String)},
    Source.spellAll items = .ok spelled → ∀ {level : Nat} {levels result : Levels},
    Below level levels → (Outline.linesAll level spelled).foldrM addText? levels = some result →
    ∃ es, rereadAll? items = some es ∧ result = onto level es levels
  | [], spelled, h, level, levels, result, hbelow, hresult => by
    cases h
    exact ⟨[], rfl, (Option.some_inj.mp hresult).symm⟩
  | s :: rest, spelled, h, level, levels, result, hbelow, hresult => by
    obtain ⟨first, hfirst, h⟩ := bind_eq_ok_iff.mp h
    obtain ⟨more, hmore, h⟩ := bind_eq_ok_iff.mp h
    cases h
    rw [Outline.linesAll, List.foldrM_append] at hresult
    obtain ⟨between, hbetween, hresult⟩ := Option.bind_eq_some_iff.mp hresult
    obtain ⟨es, hes, rfl⟩ := foldrM_linesAll rest hmore hbelow hbetween
    obtain ⟨e, he, rfl⟩ := foldrM_lines s hfirst (below_onto es hbelow) hresult
    refine ⟨e :: es, ?_, onto_cons e es hbelow⟩
    rw [rereadAll?, he, hes]
    rfl

end

end Program
end LoopNest
