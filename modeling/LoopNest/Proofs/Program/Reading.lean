import LoopNest.Proofs.Program.Statements

/-!
# Functions read back

The text of a function is read as a program: its parameters in their normal spelling, the statements
in front of the last line read back, and what the last line returns.

The last statement is written twice where it stores something, once as the statement and once, by
its target, in the line that returns.  A last statement that is only an expression is written in the
line that returns and nowhere else.  A block and a loop return nothing.

* `Source.standing`, `Source.returned`: the statements in front of the last line, and what it
  returns.
* `Source.bodyLines_eq_ok`: the lines of a body are the lines of these.
* `Program.read?_function`: what the text of a function is read as.
-/

namespace LoopNest

/-! ## The lines of a body -/

namespace Source

/-- The statement stands in front of the last line when it is the last statement. -/
def stands : Expr → Bool
  | .assign _ _ => true
  | .form tag _ => updateTags.contains tag || tag = blockTag || tag = whileTag
  | _ => false

/-- The statements in front of the line that returns. -/
def standing : List Expr → List Expr
  | [] => []
  | [e] => if stands e then [e] else []
  | e :: es => e :: standing es

/-- What is returned for a last statement: its target, its value, or nothing. -/
def returnedFor : Expr → Option Expr
  | .assign t _ => some t
  | .form tag args =>
      if updateTags.contains tag then args.head?
      else if tag = blockTag || tag = whileTag then none
      else some (.form tag args)
  | e => some e

/-- What statements return. -/
def returned (es : List Expr) : Option Expr := es.getLast?.bind returnedFor

/-- The text of what is returned. -/
def returnedText : Option Expr → Except SourceError String
  | none => .ok "None"
  | some e => term e

/-- The lines of statements with a last line that returns a text. -/
def linesOf (items : List (Outline String)) (text : String) : List String :=
  (Outline.linesAll 1 items ++ [(1, "return " ++ text)]).map leveledLine

/-- The lines are those of the statements and of what is returned. -/
def Writes (es : List Expr) (result : Option Expr) (lines : List String) : Prop :=
  ∃ items text, spellAll (Expr.outlineAll es) = .ok items ∧ returnedText result = .ok text ∧
    lines = linesOf items text

theorem writes_nil {result : Option Expr} {text : String} (h : returnedText result = .ok text) :
    Writes [] result [indent 1 ++ "return " ++ text] :=
  ⟨[], text, rfl, h, by simp [linesOf, Outline.linesAll, leveledLine, String.append_assoc]⟩

theorem writes_none : Writes [] none [indent 1 ++ "return None"] := by
  have hwrites := writes_nil (show returnedText none = .ok "None" from rfl)
  rwa [String.append_assoc] at hwrites

theorem writes_value {e : Expr} {lines : List String}
    (h : (do return [indent 1 ++ "return " ++ (← term e)]) = .ok lines) :
    Writes [] (some e) lines := by
  obtain ⟨text, htext, h⟩ := bind_eq_ok_iff.mp h
  cases h
  exact writes_nil htext

theorem writes_target {t : Expr} {text : String} (h : target t = .ok text) :
    Writes [] (some t) [indent 1 ++ "return " ++ text] :=
  writes_nil (show returnedText (some t) = .ok text from term_of_target h)

/-- One more statement in front. -/
theorem Writes.cons {e : Expr} {first : List String} (hfirst : statement 1 e = .ok first)
    {es : List Expr} {result : Option Expr} {rest : List String} (h : Writes es result rest) :
    Writes (e :: es) result (first ++ rest) := by
  rw [statement_eq] at hfirst
  obtain ⟨items, hitems, hfirst⟩ := bind_eq_ok_iff.mp hfirst
  cases hfirst
  obtain ⟨more, text, hmore, htext, rfl⟩ := h
  refine ⟨items ++ more, text, ?_, htext, ?_⟩
  · rw [Expr.outlineAll, spellAll_append, hitems, hmore]
    rfl
  · rw [linesOf, linesOf, Outline.linesAll_append, List.append_assoc, ← List.map_append]

theorem writes_lastStatement : ∀ {e : Expr} {lines : List String}, lastStatement 1 e = .ok lines →
    Writes (standing [e]) (returnedFor e) lines
  | .name x, lines, h => writes_value h
  | .literal v, lines, h => writes_value h
  | .call f args, lines, h => writes_value h
  | .assign t value, lines, h => by
    obtain ⟨first, hfirst, h⟩ := bind_eq_ok_iff.mp h
    obtain ⟨text, htext, h⟩ := bind_eq_ok_iff.mp h
    cases h
    exact (writes_target htext).cons hfirst
  | .form tag args, lines, h => by
    unfold lastStatement at h
    unfold standing stands returnedFor
    dsimp only at h ⊢
    by_cases hupdate : updateTags.contains tag = true
    · rw [if_pos hupdate] at h
      obtain ⟨first, hfirst, h⟩ := bind_eq_ok_iff.mp h
      rw [if_pos hupdate, if_pos (by rw [hupdate]; rfl)]
      cases args with
      | nil => cases h
      | cons t args =>
        obtain ⟨text, htext, h⟩ := bind_eq_ok_iff.mp h
        cases h
        exact (writes_target htext).cons hfirst
    · rw [if_neg hupdate] at h
      rw [if_neg hupdate]
      split at h
      · next htag =>
        obtain ⟨first, hfirst, h⟩ := bind_eq_ok_iff.mp h
        cases h
        rw [if_pos htag, if_pos (by rw [Bool.or_assoc, htag, Bool.or_true])]
        exact writes_none.cons hfirst
      · next htag =>
        rw [if_neg htag, if_neg (by rwa [Bool.not_eq_true _ |>.mp hupdate, Bool.false_or])]
        exact writes_value h

/-- **The lines of a body**: the statements in front of the last line, and the line that returns. -/
theorem bodyLines_eq_ok : ∀ {es : List Expr} {lines : List String}, bodyLines es = .ok lines →
    Writes (standing es) (returned es) lines
  | [], lines, h => by
    cases h
    exact writes_none
  | [e], lines, h => writes_lastStatement h
  | e :: e' :: es, lines, h => by
    obtain ⟨first, hfirst, h⟩ := bind_eq_ok_iff.mp h
    obtain ⟨rest, hrest, h⟩ := bind_eq_ok_iff.mp h
    cases h
    have hreturned : returned (e :: e' :: es) = returned (e' :: es) := by
      simp [returned]
    rw [hreturned, standing]
    · exact (bodyLines_eq_ok hrest).cons hfirst
    · simp

end Source

namespace Program

/-! ## Lines split from a text -/

theorem splitOn_lines {lines : List (List Char)} (h : ∀ line ∈ lines, '\n' ∉ line) :
    (lines.flatMap (· ++ ['\n'])).splitOn '\n' = lines ++ [[]] := by
  induction lines with
  | nil => rfl
  | cons line lines ih =>
    have hline := h line List.mem_cons_self
    rw [List.flatMap_cons, List.append_assoc, List.singleton_append,
      List.splitOn_append_cons_self_of_not_mem hline, ih fun l hl =>
        h l (List.mem_cons_of_mem _ hl), List.cons_append]

/-- The lines that a text is read as. -/
theorem filter_splitOn {lines : List String}
    (h : ∀ line ∈ lines, '\n' ∉ line.toList ∧ line.toList ≠ []) :
    ((String.join (lines.map (· ++ "\n"))).toList.splitOn '\n').filter (fun line => !line.isEmpty) =
      lines.map String.toList := by
  have hchars : (String.join (lines.map (· ++ "\n"))).toList
      = (lines.map String.toList).flatMap (· ++ ['\n']) := by
    simp [List.flatMap_map]
  rw [hchars, splitOn_lines, List.filter_append, List.filter_eq_self.mpr]
  · simp
  · simpa using fun line hline => (h line hline).2
  · simpa using fun line hline => (h line hline).1

/-! ## The first line -/

theorem yields_def {a : List Char} {ls : List Lexeme} (ha : Yields a ls) :
    Yields ("def ".toList ++ a) (.word "def" :: ls) :=
  yields_keyword "def" ha rfl (by decide) (List.all_eq_true.mp (by decide))

theorem parameters?_commas (x : String) (rest : List String) :
    parameters? (.word x ::
        (rest.flatMap (fun y => [.sign ",", .word y]) ++ [.sign ")", .sign ":"])) =
      some ((x :: rest).map nameOf) := by
  induction rest generalizing x with
  | nil => rfl
  | cons y rest ih =>
    rw [List.flatMap_cons, List.append_assoc, List.cons_append, List.cons_append, List.nil_append,
      parameters?, ih]
    rfl

/-- Names with commas between them. -/
theorem stretch_names (x : String) {rest : List String}
    (h : ∀ y ∈ x :: rest, Text.isIdentifier y = true) :
    Stretch (", ".intercalate (x :: rest)).toList
      (.word x :: rest.flatMap fun y => [.sign ",", .word y]) := by
  have hpieces : List.Forall₂ (fun (text : String) (r : Read) => Piece text.toList r.1) (x :: rest)
      ((x :: rest).map fun y => ([.word y], false, .name y)) :=
    List.forall₂_map_right_iff.mpr (List.forall₂_same.mpr fun y hy => piece_word (h y hy))
  simpa [commas, List.flatMap_map] using stretch_commas hpieces

/-- The star in front of the parameters. -/
theorem Yields.afterStar {a : List Char} {ls : List Lexeme} (ha : Yields a ls) :
    Yields ('*' :: ',' :: a) (.sign "*" :: .sign "," :: ls) := by
  intro rest hrest
  have hcomma : Yields (',' :: a) (.sign "," :: ls) := ha.afterBracket rfl (by decide)
  have hstar : lexemes? ('*' :: (',' :: a ++ rest))
      = (lexemes? (',' :: a ++ rest)).map (.sign "*" :: ·) :=
    lexemes?_single rfl (by decide) (by simp [pairSigns])
  rw [List.cons_append, hstar, hcomma rest hrest, Option.map_map]
  rfl

/-- What the first line is read as. -/
theorem signature?_signature {name : String} (hname : Text.isIdentifier name = true)
    {params : List String} (hparams : ∀ x ∈ params, Text.isIdentifier x = true) :
    '\n' ∉ (Source.signature name params).toList ∧
      ∃ ls, lexemes? (Source.signature name params).toList = some ls ∧
        signature? ls = some (nameOf name, params.map nameOf) := by
  have hword := (piece_word hname).toStretch
  have hclose : Stretch [')', ':'] [.sign ")", .sign ":"] :=
    .append (.bracket rfl (by decide)) (.bracket rfl (by decide)) rfl (by decide)
  cases params with
  | nil =>
    have hopen : Yields ('(' :: [')', ':']) (.sign "(" :: [.sign ")", .sign ":"]) :=
      hclose.yields.afterBracket rfl (by decide)
    have htext : (Source.signature name []).toList = "def ".toList ++
        (name.toList ++ '(' :: [')', ':']) := by
      simp [Source.signature]
    rw [htext]
    refine ⟨by simp [hword.oneLine], _,
      (yields_def (hword.yields.append hopen rfl (by decide))).lexemes?_eq, ?_⟩
    rfl
  | cons x rest =>
    have hnames := stretch_names x hparams
    have hopen : Yields ('(' :: '*' :: ',' :: ' ' ::
        ((", ".intercalate (x :: rest)).toList ++ [')', ':']))
        (.sign "(" :: .sign "*" :: .sign "," :: _) :=
      (hnames.append hclose rfl (by decide)).blank.yields.afterStar.afterBracket rfl (by decide)
    have htext : (Source.signature name (x :: rest)).toList = "def ".toList ++ (name.toList ++
        '(' :: '*' :: ',' :: ' ' :: ((", ".intercalate (x :: rest)).toList ++ [')', ':'])) := by
      simp [Source.signature]
    rw [htext]
    refine ⟨?_, _, (yields_def (hword.yields.append hopen rfl (by decide))).lexemes?_eq, ?_⟩
    · simpa [hword.oneLine] using hnames.oneLine
    · rw [List.cons_append, List.nil_append, signature?, List.cons_append, parameters?_commas]
      rfl

/-! ## The whole text -/

/-- What is read for what is returned. -/
def rereadResult : Option Expr → Expr
  | none => .literal .nothing
  | some e => closed e

theorem tells_returned {result : Option Expr} {text : String}
    (h : Source.returnedText result = .ok text) :
    Tells ("return " ++ text).toList (some (.result (rereadResult result))) := by
  cases result with
  | none =>
    cases h
    have hnone : Operand "None".toList false (.literal .nothing) :=
      operand_single (yields_word rfl (List.all_eq_true.mp (by decide))) (by decide)
        ⟨_, _, rfl, by decide⟩
        ⟨by decide, rfl⟩ fun _ => rfl
    exact hnone.tells_result
  | some e => simpa [rereadResult, closed] using (term_operand e h).tells_result

theorem foldrM_of_mapM {α β σ : Type} {f : α → Option β} {g : β → σ → Option σ} {l : List α}
    {l' : List β} (h : l.mapM f = some l') (s : σ) :
    l'.foldrM g s = l.foldrM (fun a s => (f a).bind (g · s)) s := by
  induction l generalizing l' with
  | nil =>
    cases h
    rfl
  | cons a l ih =>
    rw [List.mapM_cons] at h
    obtain ⟨b, hb, h⟩ := Option.bind_eq_some_iff.mp h
    obtain ⟨bs, hbs, h⟩ := Option.bind_eq_some_iff.mp h
    cases h
    rw [List.foldrM_cons, List.foldrM_cons, ih hbs, hb]
    rfl

mutual

/-- The lines of a statement that is spelled stand each on a line. -/
theorem tells_lines :
    ∀ (s : Outline Expr) {spelled : Outline String}, Source.spell s = .ok spelled →
    ∀ level, ∀ line ∈ Outline.lines level spelled, ∃ read, Tells line.2.toList read
  | .line e, spelled, h, level, entry, hentry => by
    obtain ⟨text, htext, h⟩ := bind_eq_ok_iff.mp h
    cases h
    rw [List.mem_singleton.mp hentry]
    exact ⟨_, tells_lineText htext⟩
  | .loop condition body, spelled, h, level, entry, hentry => by
    obtain ⟨text, htext, h⟩ := bind_eq_ok_iff.mp h
    obtain ⟨inner, hinner, h⟩ := bind_eq_ok_iff.mp h
    cases h
    rcases List.mem_cons.mp hentry with rfl | hentry
    · exact ⟨_, by simpa using (term_operand condition htext).tells_loop⟩
    · exact tells_linesAll body hinner (level + 1) entry hentry

theorem tells_linesAll : ∀ (items : List (Outline Expr)) {spelled : List (Outline String)},
    Source.spellAll items = .ok spelled →
    ∀ level, ∀ line ∈ Outline.linesAll level spelled, ∃ read, Tells line.2.toList read
  | [], spelled, h, level, entry, hentry => by
    cases h
    cases hentry
  | s :: rest, spelled, h, level, entry, hentry => by
    obtain ⟨first, hfirst, h⟩ := bind_eq_ok_iff.mp h
    obtain ⟨more, hmore, h⟩ := bind_eq_ok_iff.mp h
    cases h
    rcases List.mem_append.mp hentry with hentry | hentry
    · exact tells_lines s hfirst level entry hentry
    · exact tells_linesAll rest hmore level entry hentry

end

theorem Tells.leveledLine_oneLine {line : Nat × String} {read : Option Line}
    (h : Tells line.2.toList read) :
    '\n' ∉ (Source.leveledLine line).toList ∧ (Source.leveledLine line).toList ≠ [] := by
  obtain ⟨c, tail, htext, -⟩ := h.head
  have hline := h.oneLine
  rw [Source.leveledLine, Source.indent, String.toList_append, String.toList_ofList]
  refine ⟨by simpa using hline, by simp [htext]⟩

/-- The lines that are read: those of the statements, and the last one. -/
theorem mapM_linesOf {items : List (Outline String)} {text : String} {read : List (Nat × Line)}
    (h : ((Source.linesOf items text).map String.toList).mapM leveledLine? = some read) :
    ∃ front last, read = front ++ [last] ∧
      (Outline.linesAll 1 items).mapM (fun line => leveledLine? (Source.leveledLine line).toList)
        = some front ∧
      leveledLine? (Source.leveledLine (1, "return " ++ text)).toList = some last := by
  rw [Source.linesOf, List.map_map, List.mapM_map, List.mapM_append] at h
  obtain ⟨front, hfront, h⟩ := Option.bind_eq_some_iff.mp h
  obtain ⟨lasts, hlasts, h⟩ := Option.bind_eq_some_iff.mp h
  rw [List.mapM_cons, List.mapM_nil] at hlasts
  obtain ⟨last, hlast, hlasts⟩ := Option.bind_eq_some_iff.mp hlasts
  cases hlasts
  cases h
  exact ⟨front, last, rfl, hfront, hlast⟩

/-- The block of the lines of statements. -/
theorem rereadAll?_of_block? {items : List (Outline Expr)} {spelled : List (Outline String)}
    (hitems : Source.spellAll items = .ok spelled) {front : List (Nat × Line)}
    (hfront : (Outline.linesAll 1 spelled).mapM
      (fun line => leveledLine? (Source.leveledLine line).toList) = some front)
    {es : List Expr} (h : block? 1 front = some es) : rereadAll? items = some es := by
  obtain ⟨levels, hlevels, h⟩ := Option.bind_eq_some_iff.mp h
  rw [foldrM_of_mapM hfront] at hlevels
  obtain ⟨es', hes', rfl⟩ := foldrM_linesAll items hitems (by simp [Below]) hlevels
  rw [hes']
  cases es' with
  | nil => exact h
  | cons e es' => simpa [onto] using h

theorem signature_ne_nil (name : String) (params : List String) :
    (Source.signature name params).toList ≠ [] := by
  unfold Source.signature
  split <;> simp

theorem mapM_identifier {params names : List String}
    (h : params.mapM Source.identifier = .ok names) :
    names = params ∧ ∀ x ∈ params, Text.isIdentifier x = true := by
  have hall := mapM_eq_ok_iff.mp h
  clear h
  induction hall with
  | nil => simp
  | cons hx _ ih =>
    obtain ⟨rfl, hidentifier⟩ := identifier_eq_ok_iff.mp hx
    exact ⟨by rw [ih.1], List.forall_mem_cons.mpr ⟨hidentifier, ih.2⟩⟩

/-- **The text of a function is read as its parameters, its statements and what it returns**, if it
is read at all. -/
theorem read?_function {name : String} {params : List String} {body : Expr} {source : String}
    {program : Program} (hsource : Source.function name params body = .ok source)
    (hread : read? source = some program) :
    program.parameters = params.map nameOf ∧
      rereadAll? (Expr.outlineAll (Source.standing (Source.flatten body))) = some program.body ∧
      program.result = rereadResult (Source.returned (Source.flatten body)) := by
  obtain ⟨name', hname, hsource⟩ := bind_eq_ok_iff.mp hsource
  obtain ⟨names, hnames, hsource⟩ := bind_eq_ok_iff.mp hsource
  obtain ⟨lines, hlines, hsource⟩ := bind_eq_ok_iff.mp hsource
  cases hsource
  obtain ⟨rfl, hidentifier⟩ := identifier_eq_ok_iff.mp hname
  obtain ⟨rfl, hparams⟩ := mapM_identifier hnames
  obtain ⟨items, text, hitems, htext, rfl⟩ := Source.bodyLines_eq_ok hlines
  obtain ⟨hline, ls, hls, hsignature⟩ := signature?_signature hidentifier hparams
  have hall : ∀ line ∈ Source.signature name names :: Source.linesOf items text,
      '\n' ∉ line.toList ∧ line.toList ≠ [] := by
    refine List.forall_mem_cons.mpr ⟨⟨hline, signature_ne_nil name names⟩, ?_⟩
    rw [Source.linesOf, List.forall_mem_map, List.forall_mem_append]
    refine ⟨fun entry hentry => ?_, fun entry hentry => ?_⟩
    · obtain ⟨read, htells⟩ := tells_linesAll _ hitems 1 entry hentry
      exact htells.leveledLine_oneLine
    · rw [List.mem_singleton.mp hentry]
      exact (tells_returned htext).leveledLine_oneLine
  unfold read? at hread
  rw [filter_splitOn hall, List.map_cons] at hread
  obtain ⟨ls', hls', hread⟩ := Option.bind_eq_some_iff.mp hread
  obtain rfl : ls = ls' := Option.some_inj.mp (hls.symm.trans hls')
  obtain ⟨signature, hsignature', hread⟩ := Option.bind_eq_some_iff.mp hread
  obtain rfl : (nameOf name, names.map nameOf) = signature :=
    Option.some_inj.mp (hsignature.symm.trans hsignature')
  obtain ⟨read, hlines', hread⟩ := Option.bind_eq_some_iff.mp hread
  obtain ⟨front, last, rfl, hfront, hlast⟩ := mapM_linesOf hlines'
  obtain ⟨hlevel, hresult⟩ := (tells_returned htext).leveledLine?_eq hlast
  obtain ⟨level, line⟩ := last
  cases hlevel
  cases hresult
  rw [List.getLast?_concat, List.dropLast_concat] at hread
  obtain ⟨body', hbody, hread⟩ := Option.bind_eq_some_iff.mp hread
  split at hread
  · cases hread
    exact ⟨rfl, rereadAll?_of_block? hitems hfront hbody, rfl⟩
  · cases hread

end Program
end LoopNest
