import LoopNest.Proofs.Number.Negation
import LoopNest.Proofs.Program.Lexemes
import LoopNest.Proofs.Program.Parsing
import LoopNest.Proofs.Source.Outline
import LoopNest.Proofs.Source.Reparse

/-!
# Operands read back

The text of an operand is read as the operand again, but for three things.  A name is read in its
normal spelling.  A number with a sign is read as a sign in front of a number, which a power of the
number takes out.  A number that is not finite is read as a name.

* `Program.Operand`: the text of an operand, cut and read.
* `Program.core`, `Program.minus`: what an operand is read as.
* `Program.term_operand`: the text of a term is read as its core.
-/

namespace LoopNest
namespace Program

/-! ## Texts of operands -/

/-- A text on one line that is cut into lexemes, of which none is an assignment. -/
structure Stretch (text : List Char) (ls : List Lexeme) : Prop where
  yields : Yields text ls
  oneLine : '\n' ∉ text
  plain : ∀ l ∈ ls, isAssignment l = false

theorem isAssignment_bracket {s : String} {c : Char} (hs : s.toList = [c])
    (hc : c ∈ ['(', ')', '[', ']', ',', ':']) :
    isAssignment (.sign s) = false ∧ '\n' ≠ c := by
  have hofList : s = String.ofList [c] := by
    rw [← hs, String.ofList_toList]
  subst hofList
  simp only [List.mem_cons, List.not_mem_nil, or_false] at hc
  rcases hc with rfl | rfl | rfl | rfl | rfl | rfl <;> decide

namespace Stretch

variable {a b : List Char} {ls ms : List Lexeme}

theorem append (ha : Stretch a ls) (hb : Stretch b ms) {c : Char} (hhead : b.head? = some c)
    (hc : c ∈ enders) :
    Stretch (a ++ b) (ls ++ ms) where
  yields := ha.yields.append hb.yields hhead hc
  oneLine := by simp [ha.oneLine, hb.oneLine]
  plain := List.forall_mem_append.mpr ⟨ha.plain, hb.plain⟩

theorem blank (ha : Stretch a ls) : Stretch (' ' :: a) ls where
  yields := ha.yields.blank
  oneLine := by simp [ha.oneLine]
  plain := ha.plain

theorem bracket {s : String} {c : Char} (hs : s.toList = [c])
    (hc : c ∈ ['(', ')', '[', ']', ',', ':']) :
    Stretch [c] [.sign s] where
  yields := .bracket hs hc
  oneLine := by simp [(isAssignment_bracket hs hc).2]
  plain := by simp [(isAssignment_bracket hs hc).1]

theorem afterBracket (ha : Stretch a ls) {s : String} {c : Char} (hs : s.toList = [c])
    (hc : c ∈ ['(', ')', '[', ']', ',', ':']) : Stretch (c :: a) (.sign s :: ls) where
  yields := ha.yields.afterBracket hs hc
  oneLine := by simp [ha.oneLine, (isAssignment_bracket hs hc).2]
  plain := List.forall_mem_cons.mpr ⟨(isAssignment_bracket hs hc).1, ha.plain⟩

/-- An operator between two operands. -/
theorem between (ha : Stretch a ls) (hb : Stretch b ms) {s : String} (hs : s ∈ spacedSigns)
    (hplain : isAssignment (.sign s) = false) :
    Stretch (a ++ ' ' :: (s.toList ++ ' ' :: b)) (ls ++ .sign s :: ms) where
  yields := ha.yields.between hb.yields hs
  oneLine := by
    have hall : spacedSigns.all fun s => !s.toList.contains '\n' := by decide
    have hsign : '\n' ∉ s.toList := by
      simpa using List.all_eq_true.mp hall s hs
    simp [ha.oneLine, hb.oneLine, hsign]
  plain := List.forall_mem_append.mpr ⟨ha.plain, List.forall_mem_cons.mpr ⟨hplain, hb.plain⟩⟩

end Stretch

/-- The lexeme may start an operand, and is no word of a statement. -/
def Lexeme.isStart : Lexeme → Bool
  | .sign s => s ≠ ")"
  | .word x => x ≠ "pass" && x ≠ "return" && x ≠ "while"
  | .constant _ => true

/-- A text that starts like an operand. -/
structure Piece (text : List Char) (ls : List Lexeme) : Prop extends Stretch text ls where
  head : ∃ c tail, text = c :: tail ∧ c ≠ '=' ∧ c ≠ ' '
  start : ∃ l more, ls = l :: more ∧ l.isStart = true

namespace Piece

variable {a b : List Char} {ls ms : List Lexeme}

/-- What stands behind an operand, from a character that ends it. -/
theorem append (ha : Piece a ls) (hb : Stretch b ms) {c : Char} (hhead : b.head? = some c)
    (hc : c ∈ enders) :
    Piece (a ++ b) (ls ++ ms) := by
  obtain ⟨d, tail, rfl, hd⟩ := ha.head
  obtain ⟨l, more, rfl, hl⟩ := ha.start
  exact ⟨ha.toStretch.append hb hhead hc, ⟨d, tail ++ b, rfl, hd⟩, ⟨l, more ++ ms, rfl, hl⟩⟩

/-- Parentheses around a text. -/
theorem inParens (ha : Stretch a ls) :
    Piece ('(' :: (a ++ [')'])) (.sign "(" :: (ls ++ [.sign ")"])) := by
  have hclose : Stretch [')'] [.sign ")"] := .bracket rfl (by decide)
  exact ⟨(ha.append hclose rfl (by decide)).afterBracket rfl (by decide), ⟨'(', _, rfl, by decide⟩,
    ⟨_, _, rfl, rfl⟩⟩

/-- A plus or a minus in front of an operand. -/
theorem afterSign (ha : Piece a ls) {s : String} {c : Char} (hs : s.toList = [c])
    (hc : c = '-' ∨ c = '+') :
    Piece (c :: a) (.sign s :: ls) := by
  obtain ⟨d, tail, htext, hd, -⟩ := ha.head
  have hofList : s = String.ofList [c] := by
    rw [← hs, String.ofList_toList]
  have hsign : isAssignment (.sign s) = false ∧ '\n' ≠ c ∧ c ≠ '=' ∧ c ≠ ' ' ∧
      Lexeme.isStart (.sign s) = true := by
    subst hofList
    rcases hc with rfl | rfl <;> decide
  obtain ⟨hplain, hline, hequals, hblank, hstart⟩ := hsign
  exact ⟨⟨ha.yields.afterSign ⟨d, tail, htext, hd⟩ hs hc, by simp [ha.oneLine, hline],
    List.forall_mem_cons.mpr ⟨hplain, ha.plain⟩⟩, ⟨c, a, rfl, hequals, hblank⟩, ⟨_, _, rfl, hstart⟩⟩

end Piece

/-- The text is cut and read as the tree, perhaps behind a minus that waits. -/
def Operand (text : List Char) (minus : Bool) (e : Expr) : Prop :=
  ∃ ls, Piece text ls ∧ Parses ls minus e

namespace Operand

variable {a b : List Char} {m m' : Bool} {x y : Expr}

/-- An operator is cut out of the text as one sign, which is no assignment. -/
theorem spaced_of_rank? {s callee : String} {rank : Nat} (h : rank? s = some (rank, callee)) :
    s ∈ spacedSigns ∧ isAssignment (.sign s) = false := by
  unfold rank? at h
  split at h <;> cases h <;> exact ⟨by decide, by decide⟩

theorem binary (hx : Operand a m x) (hy : Operand b m' y) {s callee : String} {rank : Nat}
    (hrank : rank? s = some (rank, callee)) :
    Operand ('(' :: ((a ++ ' ' :: (s.toList ++ ' ' :: b)) ++ [')'])) false
      (.call callee [signed m x, signed m' y]) := by
  obtain ⟨ls, hls, hx⟩ := hx
  obtain ⟨ms, hms, hy⟩ := hy
  obtain ⟨hspaced, hassign⟩ := spaced_of_rank? hrank
  refine ⟨_, .inParens (hls.toStretch.between hms.toStretch hspaced hassign), ?_⟩
  simpa using hx.binary hy hrank

theorem power (hx : Operand a m x) (hy : Operand b m' y) :
    Operand ('(' :: ((a ++ ' ' :: ("**".toList ++ ' ' :: b)) ++ [')'])) false
      (signed m (.call "^" [x, signed m' y])) := by
  obtain ⟨ls, hls, hx⟩ := hx
  obtain ⟨ms, hms, hy⟩ := hy
  refine ⟨_, .inParens (hls.toStretch.between hms.toStretch (by decide) rfl), ?_⟩
  simpa using hx.power hy

theorem sign (hx : Operand a m x) {s : String} (hs : s = "-" ∨ s = "+") :
    Operand ('(' :: ((s.toList ++ a) ++ [')'])) false (.call s [signed m x]) := by
  obtain ⟨ls, hls, hx⟩ := hx
  have hsigned : Piece (s.toList ++ a) (.sign s :: ls) := by
    rcases hs with rfl | rfl
    · exact hls.afterSign rfl (.inl rfl)
    · exact hls.afterSign rfl (.inr rfl)
  refine ⟨_, .inParens hsigned.toStretch, ?_⟩
  simpa using hx.sign hs

/-- A minus in front of an operand without one. -/
theorem withMinus (hx : Operand a false x) : Operand ('-' :: a) true x := by
  obtain ⟨ls, hls, hx⟩ := hx
  refine ⟨_, hls.afterSign (s := "-") rfl (.inl rfl), fun holes => ?_⟩
  obtain ⟨front, hfront, hread⟩ := hx (.sign "-" :: holes)
  exact ⟨front, hfront, (leads_sign (.inl rfl) holes).trans hread⟩

end Operand

/-! ## Names, calls and indices -/

theorem piece_word {x : String} (hx : Text.isIdentifier x = true) : Piece x.toList [.word x] := by
  obtain ⟨c, rest, hchars, hinitial, hinner, hreserved⟩ := Source.isIdentifier_shape hx
  have hword := yields_word hinitial hinner
  rw [← hchars, String.ofList_toList] at hword
  refine ⟨⟨hword, fun hline => ?_, by simp [isAssignment]⟩, ⟨c, rest, hchars, ?_⟩, ⟨_, _, rfl, ?_⟩⟩
  · exact absurd (Source.isInner_of_isIdentifier hx '\n' hline) (by decide)
  · constructor <;> rintro rfl <;> exact absurd hinitial (by decide)
  · simp only [Lexeme.isStart, Bool.and_eq_true, decide_eq_true_eq]
    refine ⟨⟨?_, ?_⟩, ?_⟩ <;> rintro rfl <;> exact absurd (by decide) hreserved

theorem operand_name {x : String} (hx : Text.isIdentifier x = true) :
    Operand x.toList false (.name (nameOf x)) :=
  ⟨_, piece_word hx, parses_name hx⟩

/-- Operands by their texts. -/
def Operands (texts : List String) (reads : List (Bool × Expr)) : Prop :=
  List.Forall₂ (fun (text : String) r => Operand text.toList r.1 r.2) texts reads

theorem Stretch.spread {a : List Char} {ls : List Lexeme} (ha : Stretch a ls) {texts : List String}
    {reads : List Read} (h : List.Forall₂ (fun (text : String) (r : Read) => Piece text.toList r.1)
      texts reads) :
    Stretch (a ++ SExpr.spread [',', ' '] (texts.map String.toList))
      (ls ++ reads.flatMap (.sign "," :: ·.1)) := by
  induction h generalizing a ls with
  | nil => simpa [SExpr.spread] using ha
  | @cons text r texts reads htext _ ih =>
    have hnext : Stretch (a ++ ',' :: ' ' :: text.toList) (ls ++ .sign "," :: r.1) :=
      ha.append (htext.toStretch.blank.afterBracket rfl (by decide)) rfl (by decide)
    simpa [SExpr.spread] using ih hnext

/-- Operands with commas between them. -/
theorem stretch_commas {texts : List String} {reads : List Read}
    (h : List.Forall₂ (fun (text : String) (r : Read) => Piece text.toList r.1) texts reads) :
    Stretch (", ".intercalate texts).toList (commas (reads.map Prod.fst)) := by
  cases h with
  | nil =>
    refine ⟨fun rest _ => ?_, by simp, by simp [commas]⟩
    cases hrest : lexemes? rest <;> simp [commas, hrest]
  | cons htext hrest =>
    rw [String.toList_intercalate, List.map_cons, SExpr.intercalate_eq_spread, List.map_cons,
      commas, List.flatMap_map]
    exact htext.toStretch.spread hrest

/-- Operands taken apart: their lexemes, and what each is read as. -/
theorem Operands.exists_reads {texts : List String} {operands : List (Bool × Expr)}
    (h : Operands texts operands) :
    ∃ reads : List Read, (∀ r ∈ reads, r.Parses) ∧
      reads.map Read.tree = operands.map (fun r => signed r.1 r.2) ∧
      (∀ r ∈ reads, ∃ l more, r.1 = l :: more ∧ l ≠ .sign ")") ∧
      List.Forall₂ (fun (text : String) (r : Read) => Piece text.toList r.1) texts reads := by
  induction h with
  | nil => exact ⟨[], by simp, rfl, by simp, .nil⟩
  | @cons text r texts operands hoperand _ ih =>
    obtain ⟨ls, hpiece, hparses⟩ := hoperand
    obtain ⟨reads, hreads, htrees, hfirst, hpieces⟩ := ih
    obtain ⟨l, more, hmore, hstart⟩ := hpiece.start
    have hne : l ≠ .sign ")" := by
      rintro rfl
      exact absurd hstart (by decide)
    refine ⟨(ls, r) :: reads, List.forall_mem_cons.mpr ⟨hparses, hreads⟩,
      by rw [List.map_cons, htrees]; rfl,
      List.forall_mem_cons.mpr ⟨⟨l, more, hmore, hne⟩, hfirst⟩, .cons hpiece hpieces⟩

theorem operand_call {f : String} (hf : Text.isIdentifier f = true) {texts : List String}
    {operands : List (Bool × Expr)} (h : Operands texts operands) :
    Operand (f.toList ++ '(' :: ((", ".intercalate texts).toList ++ [')'])) false
      (.call (nameOf f) (operands.map fun r => signed r.1 r.2)) := by
  obtain ⟨reads, hreads, htrees, hfirst, hpieces⟩ := h.exists_reads
  have hargs := Piece.inParens (stretch_commas hpieces)
  rw [← htrees]
  exact ⟨_, (piece_word hf).append hargs.toStretch rfl (by decide), parses_call hf hreads hfirst⟩

theorem Operand.index {a : List Char} {m : Bool} {base : Expr} (hbase : Operand a m base)
    {texts : List String} {operands : List (Bool × Expr)} (h : Operands texts operands) :
    Operand (a ++ '[' :: ((", ".intercalate texts).toList ++ [']'])) m
      (.form refTag (base :: operands.map fun r => signed r.1 r.2)) := by
  obtain ⟨ls, hpiece, hparses⟩ := hbase
  obtain ⟨reads, hreads, htrees, -, hpieces⟩ := h.exists_reads
  have hclose : Stretch [']'] [.sign "]"] := .bracket rfl (by decide)
  have hindices :=
    ((stretch_commas hpieces).append hclose rfl (by decide)).afterBracket (s := "[") rfl (by decide)
  rw [← htrees]
  exact ⟨_, hpiece.append hindices rfl (by decide), hparses.index hreads⟩

/-! ## What operands are read as -/

/-- A minus is written in front of the constant. -/
def minusOf : Literal → Bool
  | .int z => z < 0
  | .float x =>
      match Number.parts x with
      | .finite negative _ _ => negative
      | .infinite negative => negative
      | .nan => false
  | _ => false

/-- What the constant is read as, but for a minus in front of it.  Numbers that are not finite are
read as names. -/
def unsigned : Literal → Expr
  | .int z => .literal (.int z.natAbs)
  | .float x =>
      match Number.parts x with
      | .finite negative _ _ => .literal (.float (if negative then -x else x))
      | .infinite _ => .name (nameOf "inf")
      | .nan => .name (nameOf "nan")
  | v => .literal v

/-- A minus waits in front of the operand when it has been read. -/
def minus : Expr → Bool
  | .literal v => minusOf v.plain
  | .form _ (base :: _) => minus base
  | _ => false

/-- The callee that is read back: an operator, or the name in its normal spelling. -/
def calleeOf (f : String) (count : Nat) : String := if Operator.isCall f count then f else nameOf f

mutual

/-- What an operand is read as, but for a minus in front of it.  A power takes the minus of its base
out, because it binds tighter. -/
def core : Expr → Expr
  | .name x => .name (nameOf x)
  | .literal v => unsigned v.plain
  | .call f [a, b] =>
      if f = "^" then signed (minus a) (.call f [core a, signed (minus b) (core b)])
      else .call (calleeOf f 2) [signed (minus a) (core a), signed (minus b) (core b)]
  | .call f args => .call (calleeOf f args.length) (closedAll args)
  | .form tag (base :: indices) => .form tag (core base :: closedAll indices)
  | e => e

/-- What operands are read as. -/
def closedAll : List Expr → List Expr
  | [] => []
  | e :: es => signed (minus e) (core e) :: closedAll es

end

/-- What an operand is read as. -/
def closed (e : Expr) : Expr := signed (minus e) (core e)

theorem closedAll_eq_map (es : List Expr) : closedAll es = es.map closed := by
  induction es with
  | nil => rfl
  | cons e es ih => rw [closedAll, ih, List.map_cons, closed]

theorem map_signed_map (es : List Expr) :
    (es.map fun e => (minus e, core e)).map (fun r => signed r.1 r.2) = es.map closed := by
  rw [List.map_map]
  rfl

/-- An operand of one lexeme that is read as a value at once. -/
theorem operand_single {text : List Char} {l : Lexeme} {e : Expr} (hyields : Yields text [l])
    (hline : '\n' ∉ text) (hhead : ∃ c tail, text = c :: tail ∧ c ≠ '=' ∧ c ≠ ' ')
    (hl : l.isStart = true ∧ isAssignment l = false)
    (hstep : ∀ holes, stepOperand? holes l = some (holes, .value e)) : Operand text false e :=
  ⟨[l], ⟨⟨hyields, hline, by simp [hl.2]⟩, hhead, ⟨_, _, rfl, hl.1⟩⟩,
    fun holes => ⟨_, .value e, leads_of_eq (hstep holes)⟩⟩

theorem piece_numeral (n : Number.Numeral) : Piece n.chars [.constant n.literal] := by
  obtain ⟨c, tail, hchars, hc⟩ := n.exists_chars_eq_cons
  have hne : c ≠ '=' ∧ c ≠ ' ' := by
    constructor <;> rintro rfl <;> revert hc <;> decide
  have hline : '\n' ∉ n.chars := fun h => absurd (n.isChar_of_mem h) (by decide)
  exact ⟨⟨yields_number n, hline, by simp [isAssignment]⟩, ⟨c, tail, hchars, hne⟩, ⟨_, _, rfl, rfl⟩⟩

theorem operand_numeral (n : Number.Numeral) (negative : Bool) :
    Operand (n.signed negative) negative (.literal n.literal) := by
  have hplain : Operand n.chars false (.literal n.literal) :=
    ⟨_, piece_numeral n, fun holes =>
      ⟨_, .value _, leads_of_eq (t := (holes, .value (.literal n.literal))) rfl⟩⟩
  cases negative with
  | false => exact hplain
  | true => exact hplain.withMinus

/-- **The text of a constant is read as the constant**, or as a name where the number is not
finite. -/
theorem operand_constant {v : Literal} {text : List Char} (h : Source.Constant v text) :
    Operand text (minusOf v) (unsigned v) := by
  cases h with
  | truth b =>
    cases b
    · exact operand_single (yields_word rfl (List.all_eq_true.mp (by decide))) (by decide)
        ⟨_, _, rfl, by decide⟩ ⟨by decide, rfl⟩ fun _ => rfl
    · exact operand_single (yields_word rfl (List.all_eq_true.mp (by decide))) (by decide)
        ⟨_, _, rfl, by decide⟩ ⟨by decide, rfl⟩ fun _ => rfl
  | text s =>
    obtain ⟨mark, inside, hmark, hquote, -⟩ := Text.unquote?_quoteChars s.toList []
    have hne : mark ≠ '=' ∧ mark ≠ ' ' := by
      rcases hmark with rfl | rfl <;> decide
    exact operand_single (yields_quoted s) (Text.not_mem_quoteChars _) ⟨mark, _, hquote, hne⟩
      ⟨rfl, rfl⟩ fun _ => rfl
  | int z =>
    have hread := operand_numeral (.ofNat z.natAbs) (z < 0)
    rwa [Number.Numeral.literal_ofNat] at hread
  | @float x n negative m e hx hwhole hread =>
    have hvalue : n.literal = .float (if negative then -x else x) := by
      rw [Number.Numeral.literal_of_not_isWhole hwhole, ← hread]
      cases negative with
      | false => rfl
      | true =>
        rw [← hread] at hx
        have hnot := Number.Numeral.read_not hx
        rw [Bool.not_true] at hnot
        rw [if_pos rfl, hnot]
    have hnumeral := operand_numeral n negative
    rw [hvalue] at hnumeral
    simpa only [minusOf, unsigned, hx] using hnumeral
  | @infinite x negative hx =>
    have hname : Operand "inf".toList false (.name (nameOf "inf")) := operand_name (by decide)
    simp only [minusOf, unsigned, hx]
    cases negative with
    | false => exact hname
    | true => exact hname.withMinus
  | @nan x hx =>
    simp only [minusOf, unsigned, hx]
    exact operand_name (by decide)

/-! ## Calls and terms -/

theorem identifier_eq_ok_iff {x text : String} :
    Source.identifier x = .ok text ↔ x = text ∧ Text.isIdentifier x = true := by
  unfold Source.identifier
  split <;> simp [*]

/-- The sign of a binary operator: that of powers, or one with a rank. -/
theorem rank?_of_binary? {f op : String} (h : Source.binary? f = some op) :
    (f = "^" ∧ op = "**") ∨ f ≠ "^" ∧ ∃ rank, rank? op = some (rank, f) := by
  unfold Source.binary? at h
  split at h <;> cases h
  case h_6 => exact .inl ⟨rfl, rfl⟩
  all_goals exact .inr ⟨by decide, _, rfl⟩

theorem isCall_two (f : String) : Operator.isCall f 2 = (Source.binary? f).isSome := by
  show (Operator.ofCallee? f).isSome = _
  unfold Operator.ofCallee? Source.binary?
  split <;> simp [*]

theorem isCall_one (f : String) : Operator.isCall f 1 = (Source.sign? f).isSome := by
  show (decide (f = "-") || decide (f = "+")) = _
  unfold Source.sign?
  split
  · rfl
  · rfl
  · next hminus hplus => simpa using ⟨hminus, hplus⟩

theorem core_call_of_length {f : String} {args : List Expr} (h : args.length ≠ 2) :
    core (.call f args) = .call (calleeOf f args.length) (args.map closed) := by
  rw [← closedAll_eq_map]
  match args, h with
  | [], _ => rw [core]; simp
  | [a], _ => rw [core]; simp
  | a :: b :: c :: rest, _ => rw [core]; simp

/-- The three layouts of a call: an operator between its operands, a sign in front of one, a name
with arguments. -/
theorem application_cases {f : String} {texts : List String} {text : String}
    (h : Source.application f texts = .ok text) :
    (∃ a b op, texts = [a, b] ∧ Source.binary? f = some op ∧
      text = "(" ++ a ++ " " ++ op ++ " " ++ b ++ ")") ∨
      (∃ a, texts = [a] ∧ (f = "-" ∨ f = "+") ∧ text = "(" ++ f ++ a ++ ")") ∨
      (Operator.isCall f texts.length = false ∧ Text.isIdentifier f = true ∧
        text = f ++ "(" ++ ", ".intercalate texts ++ ")") := by
  unfold Source.application at h
  split at h
  · next a b op hop => exact .inl ⟨a, b, op, rfl, hop, (Except.ok.inj h).symm⟩
  · next a op hop =>
    unfold Source.sign? at hop
    split at hop <;> cases hop
    · exact .inr (.inl ⟨a, rfl, .inl rfl, (Except.ok.inj h).symm⟩)
    · exact .inr (.inl ⟨a, rfl, .inr rfl, (Except.ok.inj h).symm⟩)
  · next texts _ _ _ hbinary hsign =>
    refine .inr (.inr ⟨?_, ?_⟩)
    · match texts with
      | [] => rfl
      | [a] =>
        rw [List.length_singleton, isCall_one]
        cases hop : Source.sign? f with
        | none => rfl
        | some op => exact (hsign a op rfl hop).elim
      | [a, b] =>
        show Operator.isCall f 2 = false
        rw [isCall_two]
        cases hop : Source.binary? f with
        | none => rfl
        | some op => exact (hbinary a b op rfl hop).elim
      | a :: b :: c :: rest => rfl
    · cases hname : Source.identifier f with
      | error e =>
        rw [hname] at h
        cases h
      | ok x =>
        rw [hname] at h
        cases h
        obtain ⟨rfl, hf⟩ := identifier_eq_ok_iff.mp hname
        exact ⟨hf, rfl⟩

theorem operand_application {f : String} {args : List Expr} {texts : List String}
    (hargs : Operands texts (args.map fun e => (minus e, core e))) {text : String}
    (h : Source.application f texts = .ok text) :
    Operand text.toList false (core (.call f args)) := by
  rcases application_cases h with ⟨a, b, op, rfl, hop, rfl⟩ | ⟨a, rfl, hf, rfl⟩ | ⟨hcall, hf, rfl⟩
  · obtain ⟨x, y, rfl, hx, hy⟩ : ∃ x y, args = [x, y] ∧ Operand a.toList (minus x) (core x) ∧
        Operand b.toList (minus y) (core y) := by
      match args, hargs with
      | [x, y], .cons hx (.cons hy .nil) => exact ⟨x, y, rfl, hx, hy⟩
    rw [core]
    rcases rank?_of_binary? hop with ⟨rfl, rfl⟩ | ⟨hf, rank, hrank⟩
    · simpa using hx.power hy
    · have hcallee : calleeOf f 2 = f := by
        rw [calleeOf, isCall_two, hop]
        rfl
      rw [if_neg hf, hcallee]
      simpa using hx.binary hy hrank
  · obtain ⟨x, rfl, hx⟩ : ∃ x, args = [x] ∧ Operand a.toList (minus x) (core x) := by
      match args, hargs with
      | [x], .cons hx .nil => exact ⟨x, rfl, hx⟩
    have hcallee : calleeOf f 1 = f := by
      rcases hf with rfl | rfl <;> rfl
    rw [core_call_of_length (by simp), List.length_singleton, hcallee]
    simpa [closed] using hx.sign hf
  · have hlength : texts.length = args.length := by
      simpa using hargs.length_eq
    have hcore : core (.call f args) = .call (nameOf f) (args.map closed) := by
      rw [hlength] at hcall
      by_cases htwo : args.length = 2
      · obtain ⟨x, y, rfl⟩ := List.length_eq_two.mp htwo
        have hpower : f ≠ "^" := by
          rintro rfl
          cases hcall
        rw [core, if_neg hpower, calleeOf, if_neg (by simpa using hcall)]
        rfl
      · rw [core_call_of_length htwo, calleeOf, if_neg (by simpa using hcall)]
    have hread := operand_call hf hargs
    rw [map_signed_map] at hread
    rw [hcore]
    simpa using hread

mutual

/-- **The text of a term is read as its core**, behind a minus that waits in front of a negative
number. -/
theorem term_operand : ∀ (e : Expr) {text : String}, Source.term e = .ok text →
    Operand text.toList (minus e) (core e)
  | .name x, text, h => by
    obtain ⟨rfl, hx⟩ := identifier_eq_ok_iff.mp h
    exact operand_name hx
  | .literal v, text, h => operand_constant (Source.constant_of_literal h)
  | .call f args, text, h => by
    obtain ⟨texts, htexts, h⟩ := bind_eq_ok_iff.mp h
    exact operand_application (terms_operands args htexts) h
  | .assign t value, text, h => by cases h
  | .form tag [], text, h => by cases h
  | .form tag (base :: indices), text, h => by
    rw [Source.term] at h
    split at h
    · next htag =>
      obtain ⟨first, hfirst, h⟩ := bind_eq_ok_iff.mp h
      obtain ⟨texts, htexts, h⟩ := bind_eq_ok_iff.mp h
      cases h
      have hindex := (term_operand base hfirst).index (terms_operands indices htexts)
      rw [map_signed_map] at hindex
      rw [core, minus, closedAll_eq_map, htag]
      simpa using hindex
    · cases h

theorem terms_operands : ∀ (es : List Expr) {texts : List String}, Source.terms es = .ok texts →
    Operands texts (es.map fun e => (minus e, core e))
  | [], texts, h => by
    cases h
    exact .nil
  | e :: es, texts, h => by
    obtain ⟨first, hfirst, h⟩ := bind_eq_ok_iff.mp h
    obtain ⟨rest, hrest, h⟩ := bind_eq_ok_iff.mp h
    cases h
    exact .cons (term_operand e hfirst) (terms_operands es hrest)

end

end Program
end LoopNest
