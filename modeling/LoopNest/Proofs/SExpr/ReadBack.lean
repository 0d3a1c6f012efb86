import LoopNest.Proofs.Number.FloatText
import LoopNest.SExpr.Reader
import LoopNest.Text.Word

/-!
# S-expressions read back from their text

A value made of symbols, integers, numbers, texts and lists of these is read back from its text,
however wide the lines may be.  Only a symbol that reads as a number comes back as that number.

## Why the text of a value is followed through the cutting

A text is read in two passes, and neither knows where the text of one value ends: the cutting sees
characters, the assembling sees pieces.  `Reads` says what a text does to both passes in the middle
of a larger one: it adds pieces that put one more value on the innermost open list.  An unquoted
value only ends where something else starts, so a text reads as a value in front of a gap, a closing
bracket or the end.

The two layouts of a list differ only in the gaps between its parts.  Both are a bracket, the parts
with gaps between them, gaps again, and a bracket, which is all that reading them needs.

* `SExpr.reread`: a value with its symbols read again.
* `SExpr.Reads`: a text stands for a value wherever it occurs.
* `SExpr.Legible.reads`: the text of a value reads as the value with its symbols read again.
-/

namespace LoopNest
namespace SExpr

/-- The marks that a symbol may hold beside letters, digits and the underscore. -/
def symbolMarks : List Char := ['+', '-', '*', '/', '%', '^', '<', '>', '=', '!']

/-- A symbol that is written as it is: letters, digits and marks that do not make a number. -/
structure PlainSymbol (s : String) : Prop where
  ne : s ≠ ""
  chars : ∀ c ∈ s.toList, Text.isWord c = true ∨ c ∈ symbolMarks
  not_int : Number.readInt? s.toList = none
  not_float : Number.readFloat? s.toList = none

instance (s : String) : Decidable (PlainSymbol s) :=
  decidable_of_iff ((s ≠ "" && s.toList.all (fun c => Text.isWord c || c ∈ symbolMarks) &&
      (Number.readInt? s.toList).isNone && (Number.readFloat? s.toList).isNone) = true) <| by
    simp only [Bool.and_eq_true, decide_eq_true_eq, List.all_eq_true, Bool.or_eq_true,
      Option.isNone_iff_eq_none]
    constructor
    · rintro ⟨⟨⟨hne, hchars⟩, hint⟩, hfloat⟩
      exact ⟨hne, hchars, hint, hfloat⟩
    · rintro ⟨hne, hchars, hint, hfloat⟩
      exact ⟨⟨⟨hne, hchars⟩, hint⟩, hfloat⟩

/-- A symbol that stands in a text as it is: letters, digits and marks.  It may read as a number. -/
structure LegibleSymbol (s : String) : Prop where
  ne : s ≠ ""
  chars : ∀ c ∈ s.toList, Text.isWord c = true ∨ c ∈ symbolMarks

theorem PlainSymbol.legible {s : String} (h : PlainSymbol s) : LegibleSymbol s := ⟨h.ne, h.chars⟩

/-- The values whose texts can be read at all. -/
inductive Legible : SExpr → Prop
  | symbol {s : String} : LegibleSymbol s → Legible (.symbol s)
  | int {n : Int} : n.natAbs < 10 ^ Number.digitLimit → Legible (.int n)
  | float {x : Float} : Number.parts x ≠ .nan → Legible (.float x)
  | text (s : String) : Legible (.text s)
  | list {items : List SExpr} : (∀ item ∈ items, Legible item) → Legible (.list items)

mutual

/-- What the text of a value reads as: its symbols may be numbers. -/
def reread : SExpr → SExpr
  | .symbol s => ofAtom s.toList
  | .list items => .list (rereadAll items)
  | value => value

/-- What the texts of values read as. -/
def rereadAll : List SExpr → List SExpr
  | [] => []
  | item :: items => reread item :: rereadAll items

end

theorem rereadAll_eq (items : List SExpr) : rereadAll items = items.map reread := by
  induction items with
  | nil => rfl
  | cons item items ih => rw [rereadAll, ih, List.map_cons]

/-! ## Cutting -/

/-- An unquoted value ends in front of this. -/
def EndsValue (rest : List Char) : Prop := ∀ c ∈ rest.head?, endsAtom c = true

theorem endsValue_nil : EndsValue [] := by
  simp [EndsValue]

theorem endsValue_cons {c : Char} {rest : List Char} (h : endsAtom c = true) :
    EndsValue (c :: rest) := by
  simpa [EndsValue] using h

theorem endsAtom_of_isGap {c : Char} (h : isGap c = true) : endsAtom c = true := by
  simp [endsAtom, h]

/-- The character can stand in an unquoted value as it is. -/
def isPlainChar (c : Char) : Bool := !endsAtom c && c ≠ '\\' && c ≠ '\x27'

theorem push_push (p q : List Piece) (c : Cut) : (c.push q).push p = c.push (p ++ q) := by
  simp [Cut.push]

theorem push_nil (c : Cut) : c.push [] = c := rfl

theorem cut_nothing (position : Nat) (c : Char) (rest : List Char) :
    cut position .nothing (c :: rest) =
      (cut (position + 1) (startAt position c rest).2 rest).push (startAt position c rest).1 := by
  rw [cut]

theorem cut_gaps {gaps : List Char} (h : ∀ c ∈ gaps, isGap c = true) (position : Nat)
    (rest : List Char) :
    cut position .nothing (gaps ++ rest) = cut (position + gaps.length) .nothing rest := by
  induction gaps generalizing position with
  | nil => rfl
  | cons c gaps ih =>
    have hstart : startAt position c (gaps ++ rest) = ([], .nothing) :=
      if_pos (h c List.mem_cons_self)
    rw [List.cons_append, cut_nothing, hstart, push_nil,
      ih (fun d hd => h d (List.mem_cons_of_mem _ hd)), List.length_cons, Nat.add_assoc,
      Nat.add_comm 1]

/-- The end of an unquoted value makes the value and starts afresh. -/
theorem cut_atom_end (position : Nat) (read : List Char) {rest : List Char} (h : EndsValue rest) :
    cut position (.atom read) rest = (cut position .nothing rest).push [atomPiece read] := by
  cases rest with
  | nil => rfl
  | cons c rest =>
    rw [cut_nothing, push_push, cut, if_pos (h c rfl)]
    rfl

theorem cut_atom {chars : List Char} (h : ∀ c ∈ chars, isPlainChar c = true) (position : Nat)
    (read : List Char) {rest : List Char} (hrest : EndsValue rest) :
    cut position (.atom read) (chars ++ rest) =
      (cut (position + chars.length) .nothing rest).push [atomPiece (chars.reverse ++ read)] := by
  induction chars generalizing position read with
  | nil => exact cut_atom_end position read hrest
  | cons c chars ih =>
    have hc := h c List.mem_cons_self
    simp only [isPlainChar, Bool.and_eq_true, Bool.not_eq_true', decide_eq_true_eq] at hc
    rw [List.cons_append, cut, hc.1.1, if_neg Bool.false_ne_true, if_neg hc.1.2,
      ih (fun d hd => h d (List.mem_cons_of_mem _ hd)), List.length_cons, List.reverse_cons,
      List.append_assoc, List.singleton_append, Nat.add_assoc, Nat.add_comm 1]

/-- A run of plain characters is one value. -/
theorem cut_plain {chars : List Char} (h : ∀ c ∈ chars, isPlainChar c = true) (hne : chars ≠ [])
    (position : Nat) {rest : List Char} (hrest : EndsValue rest) :
    cut position .nothing (chars ++ rest) =
      (cut (position + chars.length) .nothing rest).push [.value (ofAtom chars)] := by
  obtain ⟨c, chars, rfl⟩ := List.exists_cons_of_ne_nil hne
  have hc := h c List.mem_cons_self
  have hstart : startAt position c (chars ++ rest) = ([], .atom [c]) := by
    simp only [isPlainChar, endsAtom, Bool.and_eq_true, Bool.not_eq_true', decide_eq_true_eq,
      Bool.or_eq_false_iff, decide_eq_false_iff_not] at hc
    unfold startAt
    rw [if_neg (by simp [hc])]
    split <;> simp_all
  rw [List.cons_append, cut_nothing, hstart, push_nil,
    cut_atom (fun d hd => h d (List.mem_cons_of_mem _ hd)) _ _ hrest, atomPiece,
      List.reverse_append,
    List.reverse_reverse, List.length_cons, Nat.add_assoc, Nat.add_comm 1]
  rfl

/-- The characters that a character is written as between quotes. -/
def escaped (c : Char) : List Char := if c = '\\' || c = '\x22' then ['\\', c] else [c]

theorem toList_enclose (s : String) :
    (enclose s).toList = '\x22' :: (s.toList.flatMap escaped ++ ['\x22']) :=
  String.toList_ofList

/-- Between quotes, the written form of a character is read as the character. -/
theorem cut_escaped (position : Nat) (read : List Char) (c : Char) (rest : List Char) :
    cut position (.text read) (escaped c ++ rest) =
      cut (position + (escaped c).length) (.text (c :: read)) rest := by
  unfold escaped
  split
  · next h =>
    rw [Bool.or_eq_true, decide_eq_true_eq, decide_eq_true_eq] at h
    rcases h with rfl | rfl <;> rfl
  · next h =>
    rw [Bool.or_eq_true, decide_eq_true_eq, decide_eq_true_eq, not_or] at h
    rw [List.singleton_append, cut, if_neg h.2, if_neg h.1]
    rfl

theorem cut_text (chars : List Char) (position : Nat) (read rest : List Char) :
    cut position (.text read) (chars.flatMap escaped ++ '\x22' :: rest) =
      (cut (position + ((chars.flatMap escaped).length + 1)) .nothing rest).push
        [.value (.text (String.ofList (read.reverse ++ chars)))] := by
  induction chars generalizing position read with
  | nil =>
    rw [List.flatMap_nil, List.nil_append, cut, if_pos rfl, List.append_nil]
    rfl
  | cons c chars ih =>
    rw [List.flatMap_cons, List.append_assoc, cut_escaped, ih, List.reverse_cons, List.append_assoc,
      List.singleton_append, List.length_append, Nat.add_assoc, Nat.add_assoc]

theorem cut_enclose (s : String) (position : Nat) (rest : List Char) :
    cut position .nothing ((enclose s).toList ++ rest) =
      (cut (position + (enclose s).toList.length) .nothing rest).push [.value (.text s)] := by
  have htext := cut_text s.toList (position + 1) [] rest
  rw [List.reverse_nil, List.nil_append, String.ofList_toList] at htext
  rw [toList_enclose, List.cons_append, List.append_assoc, List.singleton_append, cut_nothing]
  refine htext.trans ?_
  rw [List.length_cons, List.length_append, List.length_singleton, Nat.add_assoc, Nat.add_comm 1]

/-! ## Reading in place -/

/-- Wherever it is followed by a gap, a closing bracket or the end, the text puts the values on the
innermost open list, last first. -/
def ReadsAll (values : List SExpr) (text : List Char) : Prop :=
  ∀ (position : Nat) (rest : List Char), EndsValue rest → ∃ pieces,
    cut position .nothing (text ++ rest)
        = (cut (position + text.length) .nothing rest).push pieces ∧
      ∀ fault levels items more,
      assemble fault levels items (pieces ++ more)
        = assemble fault levels (values.reverse ++ items) more

/-- The text stands for the value wherever it occurs. -/
def Reads (value : SExpr) (text : List Char) : Prop := ReadsAll [value] text

theorem reads_of_cut {value : SExpr} {text : List Char}
    (h : ∀ position rest, EndsValue rest → cut position .nothing (text ++ rest) =
      (cut (position + text.length) .nothing rest).push [.value value]) : Reads value text :=
  fun position rest hrest => ⟨[.value value], h position rest hrest, fun _ _ _ _ => rfl⟩

theorem readsAll_nil {gaps : List Char} (h : ∀ c ∈ gaps, isGap c = true) : ReadsAll [] gaps :=
  fun position rest _ => ⟨[], cut_gaps h position rest, fun _ _ _ _ => rfl⟩

/-- Texts one after the other, where the first ends in front of the second. -/
theorem ReadsAll.append {xs ys : List SExpr} {text more : List Char} (hxs : ReadsAll xs text)
    (hys : ReadsAll ys more) (hmore : ∀ rest, EndsValue rest → EndsValue (more ++ rest)) :
    ReadsAll (xs ++ ys) (text ++ more) := by
  intro position rest hrest
  obtain ⟨p, hp, happly⟩ := hxs position (more ++ rest) (hmore rest hrest)
  obtain ⟨q, hq, happly'⟩ := hys (position + text.length) rest hrest
  refine ⟨p ++ q, ?_, ?_⟩
  · rw [List.append_assoc, hp, hq, push_push, List.length_append, Nat.add_assoc]
  · intro fault levels items rest'
    rw [List.append_assoc, happly, happly', List.reverse_append, List.append_assoc]

theorem endsValue_append_of_gaps {gaps rest : List Char} (h : ∀ c ∈ gaps, isGap c = true)
    (hrest : EndsValue rest) : EndsValue (gaps ++ rest) := by
  cases gaps with
  | nil => exact hrest
  | cons c gaps => exact endsValue_cons (endsAtom_of_isGap (h c List.mem_cons_self))

/-- The parts of a list behind the first, each after a gap. -/
def spread (gap : List Char) (parts : List (List Char)) : List Char := parts.flatMap (gap ++ ·)

theorem endsValue_spread {gap : List Char} (hgap : ∀ c ∈ gap, isGap c = true) (hne : gap ≠ [])
    (parts : List (List Char)) {rest : List Char} (hrest : EndsValue rest) :
    EndsValue (spread gap parts ++ rest) := by
  cases parts with
  | nil => exact hrest
  | cons part parts =>
    obtain ⟨c, gap, rfl⟩ := List.exists_cons_of_ne_nil hne
    exact endsValue_cons (endsAtom_of_isGap (hgap c List.mem_cons_self))

theorem ReadsAll.after_gaps {gaps : List Char} (hgaps : ∀ c ∈ gaps, isGap c = true)
    {values : List SExpr} {text : List Char} (h : ReadsAll values text) :
    ReadsAll values (gaps ++ text) := by
  intro position rest hrest
  obtain ⟨pieces, hcut, happly⟩ := h (position + gaps.length) rest hrest
  refine ⟨pieces, ?_, happly⟩
  rw [List.append_assoc, cut_gaps hgaps, hcut, List.length_append, Nat.add_assoc]

theorem readsAll_spread {gap : List Char} (hgap : ∀ c ∈ gap, isGap c = true) (hne : gap ≠ [])
    {values : List SExpr} {parts : List (List Char)} (h : List.Forall₂ Reads values parts) :
    ReadsAll values (spread gap parts) := by
  induction h with
  | nil => exact readsAll_nil (by simp [spread])
  | cons hpart _ ih =>
    exact (hpart.after_gaps hgap).append ih fun _ => endsValue_spread hgap hne _

/-- What stands between two brackets reads as a list. -/
theorem reads_list {values : List SExpr} {body : List Char} (h : ReadsAll values body) :
    Reads (.list values) ('(' :: (body ++ [')'])) := by
  intro position rest _
  obtain ⟨pieces, hcut, happly⟩ := h (position + 1) (')' :: rest) (endsValue_cons rfl)
  refine ⟨.opening false :: (pieces ++ [.closing ')' (')' :: rest)]), ?_, ?_⟩
  · rw [List.cons_append, List.append_assoc, List.singleton_append, cut_nothing]
    refine (congrArg (Cut.push _) hcut).trans ?_
    rw [cut_nothing, push_push, push_push, List.length_cons, List.length_append,
      List.length_singleton, Nat.add_right_comm, Nat.add_assoc position, ← Nat.add_assoc]
    rfl
  · intro fault levels items more
    rw [List.cons_append, List.append_assoc, List.singleton_append, assemble, happly,
      List.append_nil, assemble]
    -- the innermost open list is the one that the bracket opened
    show assemble fault levels (closeList false values.reverse :: items) more = _
    rw [closeList, if_neg Bool.false_ne_true, List.reverse_reverse]
    rfl

/-! ## The layout of a list -/

theorem intercalate_eq_spread (gap first : List Char) (parts : List (List Char)) :
    gap.intercalate (first :: parts) = first ++ spread gap parts := by
  induction parts generalizing first with
  | nil => simp [spread]
  | cons part parts ih => simp [ih, spread]

theorem isGap_of_mem_margin {depth : Nat} {c : Char} (h : c ∈ (margin depth).toList) :
    isGap c = true := by
  rw [margin, String.toList_ofList] at h
  rw [(List.mem_replicate.mp h).2]
  rfl

/-- In one line or in many, the parts of a list stand between brackets with gaps between them. -/
theorem exists_layout (width depth : Nat) (first : String) (rest : List String) :
    ∃ gap close : List Char, (∀ c ∈ gap, isGap c = true) ∧ gap ≠ [] ∧
      (∀ c ∈ close, isGap c = true) ∧
      (joinParts width depth (first :: rest)).toList =
        '(' :: ((first.toList ++ (spread gap (rest.map String.toList) ++ close)) ++ [')']) := by
  unfold joinParts
  dsimp only
  split
  · refine ⟨[' '], [], List.forall_mem_singleton.mpr rfl, by decide, List.forall_mem_nil _, ?_⟩
    rw [String.toList_append, String.toList_append, String.toList_intercalate, List.map_cons,
      intercalate_eq_spread, List.append_nil]
    rfl
  · refine ⟨'\n' :: (margin (depth + 1)).toList, '\n' :: (margin depth).toList, ?_, by simp, ?_, ?_⟩
    · exact List.forall_mem_cons.mpr ⟨rfl, fun _ => isGap_of_mem_margin⟩
    · exact List.forall_mem_cons.mpr ⟨rfl, fun _ => isGap_of_mem_margin⟩
    · simp [String.toList_join, spread, List.flatMap_map]

theorem reads_joinParts {values : List SExpr} {parts : List String} (width depth : Nat)
    (h : List.Forall₂ Reads values (parts.map String.toList)) :
    Reads (.list values) (joinParts width depth parts).toList := by
  cases parts with
  | nil =>
    cases h
    have hempty : (joinParts width depth []).toList = '(' :: ([] ++ [')']) := by
      rw [joinParts]
      rfl
    rw [hempty]
    exact reads_list (readsAll_nil (by simp))
  | cons first rest =>
    obtain ⟨gap, close, hgap, hne, hclose, hlayout⟩ := exists_layout width depth first rest
    rw [List.map_cons] at h
    cases h with
    | cons hfirst hrest =>
      have hbehind := (readsAll_spread hgap hne hrest).append (readsAll_nil hclose)
        fun _ => endsValue_append_of_gaps hclose
      rw [List.append_nil] at hbehind
      rw [hlayout]
      refine reads_list (hfirst.append hbehind ?_)
      intro tail htail
      rw [List.append_assoc]
      exact endsValue_spread hgap hne _ (endsValue_append_of_gaps hclose htail)

/-! ## Values -/

theorem isPlainChar_of_isWord {c : Char} (h : Text.isWord c = true) : isPlainChar c = true := by
  have hother : ∀ d : Char, Text.isWord d = false → c ≠ d := by
    rintro d hd rfl
    exact Bool.false_ne_true (hd.symm.trans h)
  simp only [isPlainChar, endsAtom, isGap, Bool.and_eq_true, Bool.not_eq_true',
    Bool.or_eq_false_iff, decide_eq_false_iff_not, decide_not]
  constructorm* _ ∧ _ <;> exact hother _ (by decide)

theorem isPlainChar_of_mark {c : Char} (h : c ∈ symbolMarks) : isPlainChar c = true :=
  List.all_eq_true.mp (show symbolMarks.all isPlainChar = true by decide) c h

theorem isPlainChar_of_numeral {c : Char} (h : Number.Numeral.isChar c = true) :
    isPlainChar c = true := by
  simp only [Number.Numeral.isChar, Bool.or_eq_true, decide_eq_true_eq] at h
  rcases h with ((((h | rfl) | rfl) | rfl) | rfl) | rfl
  · exact isPlainChar_of_isWord (by simp [Text.isWord, Char.isAlphanum, h])
  all_goals decide

theorem isPlainChar_of_mem_signed {n : Number.Numeral} {negative : Bool} {c : Char}
    (h : c ∈ n.signed negative) :
    isPlainChar c = true := by
  unfold Number.Numeral.signed at h
  split at h
  · rcases List.mem_cons.mp h with rfl | h
    · decide
    · exact isPlainChar_of_numeral (n.isChar_of_mem h)
  · exact isPlainChar_of_numeral (n.isChar_of_mem h)

theorem signed_ne (n : Number.Numeral) (negative : Bool) : n.signed negative ≠ [] := by
  obtain ⟨c, rest, hchars, -⟩ := n.exists_chars_eq_cons
  cases negative <;> simp [Number.Numeral.signed, hchars]

/-- An unquoted value of plain characters reads as what it stands for. -/
theorem reads_atom {value : SExpr} {text : List Char} (hplain : ∀ c ∈ text, isPlainChar c = true)
    (hne : text ≠ []) (hatom : ofAtom text = value) : Reads value text :=
  reads_of_cut fun position _ hrest => hatom ▸ cut_plain hplain hne position hrest

/-- A bare word reads as what it stands for, which may be a number. -/
theorem reads_word {s : String} (h : LegibleSymbol s) : Reads (ofAtom s.toList) s.toList := by
  refine reads_atom (fun c hc => ?_) (fun hnil => h.ne (String.toList_eq_nil_iff.mp hnil)) rfl
  rcases h.chars c hc with hword | hmark
  · exact isPlainChar_of_isWord hword
  · exact isPlainChar_of_mark hmark

theorem PlainSymbol.ofAtom_eq {s : String} (h : PlainSymbol s) : ofAtom s.toList = .symbol s := by
  rw [ofAtom, h.not_int, h.not_float, String.ofList_toList]

theorem reads_int {n : Int} (h : n.natAbs < 10 ^ Number.digitLimit) :
    Reads (.int n) (toString n).toList := by
  have hread := Number.readInt?_toString h
  rw [Number.toList_toString_int] at hread ⊢
  refine reads_atom (fun _ => isPlainChar_of_mem_signed) (signed_ne _ _) ?_
  rw [ofAtom, hread]

theorem reads_float {x : Float} (h : Number.parts x ≠ .nan) :
    Reads (.float x) (Number.floatText x).toList := by
  obtain ⟨hint, hfloat⟩ := Number.readFloat?_floatText h
  have hatom : ofAtom (Number.floatText x).toList = .float x := by
    rw [ofAtom, hint, hfloat]
  cases hparts : Number.parts x with
  | nan => exact absurd hparts h
  | infinite negative =>
    have htext : (Number.floatText x).toList = (if negative then "-inf" else "inf").toList := by
      rw [Number.floatText, hparts]
      rfl
    rw [htext] at hatom ⊢
    cases negative <;> exact reads_atom (List.all_eq_true.mp (by decide)) (by decide) hatom
  | finite negative m e =>
    obtain ⟨n, htext, -, -⟩ := Number.exists_numeral_floatText hparts
    rw [htext] at hatom ⊢
    exact reads_atom (fun _ => isPlainChar_of_mem_signed) (signed_ne n negative) hatom

theorem renderAll_eq (width depth : Nat) (items : List SExpr) :
    renderAll width depth items = items.map (render width depth) := by
  induction items with
  | nil => rfl
  | cons item items ih => rw [renderAll, ih, List.map_cons]

/-- **The text of a legible value reads as the value with its symbols read again**, wherever it
stands. -/
theorem Legible.reads {s : SExpr} (h : s.Legible) (width depth : Nat) :
    Reads s.reread (s.render width depth).toList := by
  induction h generalizing depth with
  | symbol h => exact reads_word h
  | int h => exact reads_int h
  | float h => exact reads_float h
  | text s => exact reads_of_cut fun position rest _ => cut_enclose s position rest
  | @list items _ ih =>
    rw [render, renderAll_eq, reread, rereadAll_eq]
    refine reads_joinParts width depth ?_
    rw [List.map_map, List.forall₂_map_left_iff, List.forall₂_map_right_iff, List.forall₂_same]
    exact fun item hitem => ih item hitem (depth + 1)

theorem read_of_reads {s : SExpr} {text : String} (h : Reads s text.toList) :
    read text = .ok s := by
  obtain ⟨pieces, hcut, happly⟩ := h 0 [] endsValue_nil
  rw [List.append_nil] at hcut
  have hall : readAll text = .ok [s] := by
    rw [readAll, hcut]
    exact happly none [] [] []
  rw [read, hall]
  rfl

end SExpr
end LoopNest
