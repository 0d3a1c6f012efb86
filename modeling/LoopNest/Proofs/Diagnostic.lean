import LoopNest.Expr.Parser
import LoopNest.Proofs.Number.Numeral
import Mathlib

/-!
# Places and carets

A place in a text counts lines and columns from one, and moves on with every character.  A
diagnostic shows the line of its place and marks the column with a caret in the line below.

## The line of a place

The place behind some characters is found by counting their line feeds and what stands behind the
last of them.  So the line with this number starts with just these characters, and goes on with what
stands behind the place (`Place.exists_line`).  Everything that is said about a place follows: it
lies in the text, and what stands there in the line is what stands behind the place in the text.

## The caret

The line number is written in front of the shown line, and as many blanks in front of the carets.
No part of either line has a line feed in it, so they are the last two lines of the diagnostic
(`Diagnostic.exists_caret`).
-/

namespace LoopNest

/-! ## Lines -/

theorem textLines_append (a b : String) :
    textLines (a ++ "\n" ++ b) = textLines a ++ textLines b := by
  have hchars : (a ++ "\n" ++ b).toList = a.toList ++ '\n' :: b.toList := by simp
  rw [textLines, hchars, List.splitOn_append_cons_self, List.map_append, textLines, textLines]

theorem textLines_eq_singleton {a : String} (h : '\n' ∉ a.toList) : textLines a = [a] := by
  rw [textLines, List.splitOn_eq_singleton h, List.map_singleton, String.ofList_toList]

/-- No line has a line feed in it. -/
theorem notMem_of_mem_splitOn {text line : List Char} (h : line ∈ text.splitOn '\n') :
    '\n' ∉ line := by
  induction text generalizing line with
  | nil =>
    rw [List.splitOn_nil, List.mem_singleton] at h
    rw [h]
    exact List.not_mem_nil
  | cons c text ih =>
    rw [List.splitOn_cons_eq_if_modifyHead] at h
    split at h
    · rcases List.mem_cons.mp h with rfl | h
      · exact List.not_mem_nil
      · exact ih h
    · rename_i hc
      obtain ⟨first, lines, hlines⟩ := List.exists_cons_of_ne_nil (List.splitOn_ne_nil '\n' text)
      rw [hlines] at h ih
      rcases List.mem_cons.mp h with rfl | h
      · have hne : ¬ '\n' = c := fun heq => hc (by rw [← heq]; rfl)
        rw [List.mem_cons, not_or]
        exact ⟨hne, ih List.mem_cons_self⟩
      · exact ih (List.mem_cons_of_mem _ h)

theorem notMem_of_mem_textLines {text line : String} (h : line ∈ textLines text) :
    '\n' ∉ line.toList := by
  obtain ⟨chars, hchars, rfl⟩ := List.mem_map.mp h
  rw [String.toList_ofList]
  exact notMem_of_mem_splitOn hchars

/-- The first line goes up to the first line feed. -/
theorem head?_splitOn (text : List Char) :
    (text.splitOn '\n').head? = some (text.takeWhile (· ≠ '\n')) := by
  by_cases h : '\n' ∈ text
  · obtain ⟨before, after, rfl, hbefore⟩ := List.eq_append_cons_of_mem h
    have hall : ∀ c ∈ before, decide (c ≠ '\n') = true := fun c hc =>
      decide_eq_true fun heq => hbefore (heq ▸ hc)
    rw [List.splitOn_append_cons_self_of_not_mem hbefore, List.takeWhile_append_of_pos hall]
    simp
  · have hall : ∀ c ∈ text, decide (c ≠ '\n') = true := fun c hc =>
      decide_eq_true fun heq => h (heq ▸ hc)
    rw [List.splitOn_eq_singleton h, List.takeWhile_eq_self_iff.mpr hall]
    rfl

namespace Place

theorem afterAll_cons (p : Place) (c : Char) (text : List Char) :
    p.afterAll (c :: text) = (p.after c).afterAll text := rfl

theorem afterAll_append (p : Place) (a b : List Char) :
    p.afterAll (a ++ b) = (p.afterAll a).afterAll b := List.foldl_append

/-- **The line of a place.**  Behind some characters, of which the first stand in one line, the line
starts with what stands before the place and goes on with what stands behind it. -/
theorem exists_line {front : List Char} (hfront : '\n' ∉ front) (line : Nat)
    (before rest : List Char) :
    ∃ i start, ((⟨line, front.length + 1⟩ : Place).afterAll before) = ⟨line + i, start.length + 1⟩ ∧
      ((front ++ before ++ rest).splitOn '\n')[i]? = some (start ++ rest.takeWhile (· ≠ '\n')) := by
  induction before generalizing front line with
  | nil =>
    have hall : ∀ c ∈ front, decide (c ≠ '\n') = true := fun c hc =>
      decide_eq_true fun heq => hfront (heq ▸ hc)
    refine ⟨0, front, rfl, ?_⟩
    rw [← List.head?_eq_getElem?, List.append_nil, head?_splitOn, List.takeWhile_append_of_pos hall]
  | cons c before ih =>
    rw [afterAll_cons, after]
    by_cases hc : c = '\n'
    · rw [if_pos hc, hc, List.append_assoc, List.cons_append,
        List.splitOn_append_cons_self_of_not_mem hfront]
      obtain ⟨i, start, hplace, hline⟩ := ih List.not_mem_nil (line + 1)
      refine ⟨i + 1, start, ?_, ?_⟩
      · rw [show (⟨line + 1, 1⟩ : Place) = ⟨line + 1, ([] : List Char).length + 1⟩ from rfl, hplace,
          Nat.add_assoc, Nat.add_comm 1 i]
      · rwa [List.getElem?_cons_succ]
    · have hfront' : '\n' ∉ front ++ [c] := by
        simp [hfront, Ne.symm hc]
      obtain ⟨i, start, hplace, hline⟩ := ih hfront' line
      rw [if_neg hc]
      refine ⟨i, start, ?_, ?_⟩
      · rwa [List.length_append, List.length_singleton] at hplace
      · rwa [List.append_assoc front, List.singleton_append] at hline

/-- The place lies in the text: its line is the given one, and its column is in the line or just
behind. -/
structure LiesIn (place : Place) (source line : String) : Prop where
  line_pos : 1 ≤ place.line
  line_eq : (textLines source)[place.line - 1]? = some line
  column_pos : 1 ≤ place.column
  column_le : place.column ≤ line.length + 1

/-- The place behind some characters of a text lies in the text, in front of the others. -/
theorem exists_liesIn {source : String} {place : Place} {before rest : List Char}
    (hsource : source.toList = before ++ rest) (hplace : place = start.afterAll before) :
    ∃ line, place.LiesIn source line ∧
      line.toList.drop (place.column - 1) = rest.takeWhile (· ≠ '\n') := by
  obtain ⟨i, front, hcount, hline⟩ := exists_line (List.not_mem_nil (a := '\n')) 1 before rest
  obtain rfl : place = ⟨1 + i, front.length + 1⟩ := hplace.trans hcount
  rw [List.nil_append] at hline
  refine ⟨String.ofList (front ++ rest.takeWhile (· ≠ '\n')), ⟨?_, ?_, ?_, ?_⟩, ?_⟩
  · exact Nat.le_add_right 1 i
  · rw [textLines, hsource, List.getElem?_map, Nat.add_sub_cancel_left, hline]
    rfl
  · exact Nat.le_add_left 1 front.length
  · rw [String.length_ofList, List.length_append]
    exact Nat.succ_le_succ (Nat.le_add_right _ _)
  · rw [String.toList_ofList, Nat.add_sub_cancel, List.drop_left]

end Place

/-! ## The caret -/

@[simp] theorem toList_blanks (n : Nat) : (blanks n).toList = List.replicate n ' ' :=
  String.toList_ofList

theorem getElem?_eq_some_iff_of_notMem {α : Type} {before rest : List α} {a : α}
    (hbefore : a ∉ before) (hrest : a ∉ rest) (j : Nat) :
    (before ++ a :: rest)[j]? = some a ↔ j = before.length := by
  constructor
  · intro h
    rcases Nat.lt_trichotomy j before.length with hj | hj | hj
    · rw [List.getElem?_append_left hj] at h
      exact absurd (List.mem_of_getElem? h) hbefore
    · exact hj
    · obtain ⟨i, rfl⟩ : ∃ i, j = before.length + (i + 1) := ⟨j - before.length - 1, by omega⟩
      rw [List.getElem?_append_right (by omega), Nat.add_sub_cancel_left, List.getElem?_cons_succ]
        at h
      exact absurd (List.mem_of_getElem? h) hrest
  · rintro rfl
    simp

namespace Diagnostic

theorem lineAt_eq {place : Place} {source line : String} (h : place.LiesIn source line) :
    lineAt source place.line = line := by
  have hpos := h.line_pos
  have hle : (1 : Int) ≤ place.line := by omega
  have hnumber : ((place.line : Int) - 1).toNat = place.line - 1 := by omega
  rw [lineAt, if_pos hle, hnumber, h.line_eq]
  rfl

/-- What stands behind the caret. -/
def tail (label : Option String) : String :=
  match present label with
  | some label => " " ++ label
  | none => ""

theorem carets_eq {file : String} {line : Int} {column : Nat} (hpos : 1 ≤ column)
    (label : Option String) :
    carets ⟨file, line, column, 0⟩ label = blanks (column - 1) ++ "^" ++ tail label := by
  have hspan : ¬ (column : Int) < 0 := by omega
  have hcolumn : (max (column : Int) 1 - 1).toNat = column - 1 := by omega
  rw [carets, if_neg hspan, hcolumn]
  rfl

theorem notMem_tail {label : Option String} {c : Char} (hblank : c ≠ ' ')
    (h : ∀ text, label = some text → c ∉ text.toList) : c ∉ (tail label).toList := by
  rw [tail]
  cases hlabel : present label with
  | none => simp
  | some text =>
    have htext : label = some text := (Option.filter_eq_some_iff.mp hlabel).1
    simp [hblank, h text htext]

/-- The last line of an uncoloured diagnostic without help, for a place of a text. -/
def caretLine (place : Place) (label : Option String) : String :=
  blanks ((toString (place.line : Int)).length + 1) ++ "| "
    ++ (blanks (place.column - 1) ++ "^" ++ tail label)

theorem toList_caretLine (place : Place) (label : Option String) :
    (caretLine place label).toList =
      List.replicate ((toString (place.line : Int)).length + 1) ' ' ++ ['|', ' ']
        ++ List.replicate (place.column - 1) ' ' ++ '^' :: (tail label).toList := by
  simp [caretLine]

section Render

variable {message file source line : String} {code label : Option String} {place : Place}
  (hplace : place.LiesIn source line)

include hplace

theorem exists_render_eq :
    ∃ above, render ⟨message, some ⟨file, place.line, place.column, 0⟩, code, none, label⟩
        [(file, source)] false
      = above ++ "\n" ++ (toString (place.line : Int) ++ " | " ++ line) ++ "\n"
        ++ caretLine place label := by
  have hlookup : [(file, source)].lookup file = some source := by simp
  refine ⟨headline ⟨message, none, code, none, none⟩ false ++ "\n"
    ++ (blanks (toString (place.line : Int)).length ++ "--> "
      ++ Location.text ⟨file, place.line, place.column, 0⟩) ++ "\n"
    ++ (blanks ((toString (place.line : Int)).length + 1) ++ "|"), ?_⟩
  rw [render]
  simp only [hlookup, excerpt, lineAt_eq hplace, carets_eq hplace.column_pos]
  rfl

/-- **The caret stands below the place**: the last two lines of an uncoloured diagnostic without
help are the line of its place behind the line number, and a line with one caret, in the column of
the place. -/
theorem exists_caret
    (hlabel : ∀ text, label = some text → '\n' ∉ text.toList ∧ '^' ∉ text.toList) :
    ∃ (above : List String) (gutter caret : String),
      textLines (render ⟨message, some ⟨file, place.line, place.column, 0⟩, code, none, label⟩
        [(file, source)] false) = above ++ [gutter ++ line, caret] ∧
      ∀ j, caret.toList[j]? = some '^' ↔ j = gutter.length + (place.column - 1) := by
  have hshown : '\n' ∉ (toString (place.line : Int) ++ " | " ++ line).toList := by
    have hdigits : '\n' ∉ (toString (place.line : Int)).toList := fun h =>
      absurd (Number.allDigits_toString place.line _ h) (by decide)
    simp only [String.toList_append, List.mem_append, not_or]
    exact ⟨⟨hdigits, by decide⟩, notMem_of_mem_textLines (List.mem_of_getElem? hplace.line_eq)⟩
  have hcaret : '\n' ∉ (caretLine place label).toList := by
    rw [toList_caretLine]
    simp [notMem_tail (by decide) fun text htext => (hlabel text htext).1]
  obtain ⟨above, hrender⟩ := exists_render_eq hplace
  refine ⟨textLines above, toString (place.line : Int) ++ " | ", caretLine place label, ?_,
    fun j => ?_⟩
  · rw [hrender, textLines_append, textLines_append, textLines_eq_singleton hshown,
      textLines_eq_singleton hcaret, List.append_assoc]
    rfl
  · have htail : '^' ∉ (tail label).toList :=
      notMem_tail (by decide) fun text htext => (hlabel text htext).2
    have hbar : " | ".length = 3 := rfl
    rw [toList_caretLine, getElem?_eq_some_iff_of_notMem (by simp) htail]
    simp only [List.length_append, List.length_replicate, List.length_cons, List.length_nil,
      String.length_append]
    omega

end Render

end Diagnostic

end LoopNest
