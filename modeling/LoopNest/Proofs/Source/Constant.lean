import LoopNest.Proofs.Number.FloatText
import LoopNest.Source

/-!
# The texts of constants

A constant is written as a word, as a quoted text, or as a numeral with a sign in front of it.  The
numbers that are not finite have no numeral: they are written by words of their own, which look like
names.

* `Source.Constant`: a constant with the characters that write it.
* `Source.constant_of_literal`: what is written for a constant is one of these.
* `Text.unquote?_quoteChars`: a quoted text reads back, whatever stands behind it.
* `Text.not_mem_quoteChars`: a quoted text stands on one line.
-/

namespace LoopNest

/-- The constant that stands for a machine number in generated code. -/
def Literal.plain : Literal → Literal
  | .machine m => m.widen
  | v => v

namespace Source

/-- `Constant v text`: the characters write the constant. -/
inductive Constant : Literal → List Char → Prop where
  | truth (b : Bool) : Constant (.bool b) (boolText b).toList
  | text (s : String) : Constant (.text s) (Text.quoteChars s.toList)
  | int (z : Int) : Constant (.int z) ((Number.Numeral.ofNat z.natAbs).signed (z < 0))
  | float {x : Float} {n : Number.Numeral} {negative : Bool} {m : Nat} {e : Int}
      (hx : Number.parts x = .finite negative m e) (hwhole : ¬n.IsWhole)
        (hread : n.read negative = x) :
      Constant (.float x) (n.signed negative)
  | infinite {x : Float} {negative : Bool} (hx : Number.parts x = .infinite negative) :
      Constant (.float x) (if negative then "-inf" else "inf").toList
  | nan {x : Float} (hx : Number.parts x = .nan) : Constant (.float x) "nan".toList

theorem constant_float (x : Float) : Constant (.float x) (Number.floatText x).toList := by
  cases hx : Number.parts x with
  | nan =>
    rw [Number.floatText, hx]
    exact .nan hx
  | infinite negative =>
    rw [Number.floatText, hx]
    exact .infinite hx
  | finite negative m e =>
    obtain ⟨n, htext, hwhole, hread⟩ := Number.exists_numeral_floatText hx
    rw [htext]
    exact .float hx hwhole hread

theorem constant_int (z : Int) : Constant (.int z) (toString z).toList := by
  rw [Number.toList_toString_int]
  exact .int z

theorem literal_int_eq_ok_iff {z : Int} {text : String} :
    literal (.int z) = .ok text ↔ z.natAbs < 10 ^ Number.digitLimit ∧ text = toString z := by
  rw [← Number.overlong_eq_false_iff, literal]
  cases Number.overlong z with
  | true => simp
  | false => simp [eq_comm]

/-- **What is written for a constant writes it**, as the plain number that stands for a machine
number. -/
theorem constant_of_literal {v : Literal} {text : String} (h : literal v = .ok text) :
    Constant v.plain text.toList := by
  cases v with
  | int z =>
    rw [(literal_int_eq_ok_iff.mp h).2]
    exact constant_int z
  | float x =>
    cases h
    exact constant_float x
  | bool b =>
    cases h
    exact .truth b
  | text s =>
    cases h
    rw [Literal.shown, Text.quote, String.toList_ofList]
    exact .text s
  | machine m =>
    cases h
    cases m with
    | int64 z => exact constant_int z
    | float64 x => exact constant_float x
    | float32 x => exact constant_float x.toFloat
    | bool b => exact .truth b
  | list items => cases h
  | nothing => cases h

end Source

/-! ## Quoted texts -/

namespace Text

theorem hexValue?_hexDigit {n : Nat} (h : n < 16) : hexValue? (hexDigit n) = some n := by
  revert n
  decide

theorem hexNumber?_append_digit (digits : List Char) {n : Nat} (h : n < 16) :
    hexNumber? (digits ++ [hexDigit n]) = (hexNumber? digits).map (16 * · + n) := by
  rw [hexNumber?, List.foldl_append, List.foldl_cons, List.foldl_nil, hexValue?_hexDigit h]
  cases hd : hexNumber? digits <;> rw [hexNumber?] at hd <;> rw [hd] <;> rfl

/-- The last digits of a number write the number, where they are enough. -/
theorem hexNumber?_hex {width n : Nat} (h : n < 16 ^ width) :
    hexNumber? (hex width n) = some n := by
  induction width generalizing n with
  | zero =>
    have hzero : n = 0 := by
      simpa using h
    rw [hzero]
    rfl
  | succ width ih =>
    have hdiv : n / 16 < 16 ^ width := by
      rw [Nat.pow_succ] at h
      omega
    rw [hex, hexNumber?_append_digit _ (Nat.mod_lt n (by decide)), ih hdiv, Option.map_some]
    congr 1
    omega

/-- A code point written by its number reads back. -/
theorem unquote?_escapePoint (mark c : Char) (rest : List Char) :
    unquote? mark (escapePoint c.toNat ++ rest) = (unquote? mark rest).map fun p =>
    (c :: p.1, p.2) := by
  have hlt : c.toNat < 16 ^ 8 := by
    have := c.val.toNat_lt
    exact this
  have hchar := Char.ofNat_toNat c
  unfold escapePoint
  split
  · next h =>
    have hread : hexNumber? (hex 2 c.toNat) = some c.toNat := hexNumber?_hex (by omega)
    simp only [hex, List.nil_append, List.cons_append] at hread ⊢
    rw [unquote?, hread]
    cases unquote? mark rest <;> simp [hchar]
  · split
    · next h =>
      have hread : hexNumber? (hex 4 c.toNat) = some c.toNat := hexNumber?_hex (by omega)
      simp only [hex, List.nil_append, List.cons_append] at hread ⊢
      rw [unquote?, hread]
      cases unquote? mark rest <;> simp [hchar]
    · have hread : hexNumber? (hex 8 c.toNat) = some c.toNat := hexNumber?_hex hlt
      simp only [hex, List.nil_append, List.cons_append] at hread ⊢
      rw [unquote?, hread]
      cases unquote? mark rest <;> simp [hchar]

/-- A character behind a backslash that is no letter of an escape stands for itself. -/
theorem unquote?_backslash (mark : Char) {c : Char} (h : c ∉ ['x', 'u', 'U', 't', 'n', 'r'])
    (rest : List Char) :
    unquote? mark ('\\' :: c :: rest) = (unquote? mark rest).map fun p => (c :: p.1, p.2) := by
  have hne : ∀ letter ∈ ['x', 'u', 'U', 't', 'n', 'r'], c = letter → False := by
    rintro letter hmem rfl
    exact h hmem
  rw [unquote?]
  · cases unquote? mark rest <;> rfl
  · exact fun _ _ _ hc _ => hne _ (by simp) hc
  · exact fun _ _ _ _ _ hc _ => hne _ (by simp) hc
  · exact fun _ _ _ _ _ _ _ _ _ hc _ => hne _ (by simp) hc
  · exact hne _ (by simp)
  · exact hne _ (by simp)
  · exact hne _ (by simp)

theorem unquote?_plain {mark c : Char} (hmark : c ≠ mark) (hback : c ≠ '\\') (rest : List Char) :
    unquote? mark (c :: rest) = (unquote? mark rest).map fun p => (c :: p.1, p.2) := by
  rw [unquote?, if_neg hmark]
  · cases unquote? mark rest <;> rfl
  all_goals
    intros
    contradiction

theorem unquote?_escapeChar {mark : Char} (hmark : mark = singleMark ∨ mark = doubleMark) (c : Char)
    (rest : List Char) :
    unquote? mark (escapeChar mark c ++ rest) = (unquote? mark rest).map fun p =>
    (c :: p.1, p.2) := by
  unfold escapeChar
  split
  next h =>
    refine unquote?_backslash mark ?_ rest
    rw [Bool.or_eq_true, decide_eq_true_eq, decide_eq_true_eq] at h
    rcases h with rfl | rfl
    · rcases hmark with rfl | rfl <;> decide
    · decide
  next h =>
    rw [Bool.or_eq_true, decide_eq_true_eq, decide_eq_true_eq, not_or] at h
    -- the three characters with letters of their own, those that are printable, and all others
    split
    · next htab =>
      subst htab
      rw [List.cons_append, List.cons_append, List.nil_append, unquote?]
      cases unquote? mark rest <;> rfl
    · split
      · next hline =>
        subst hline
        rw [List.cons_append, List.cons_append, List.nil_append, unquote?]
        cases unquote? mark rest <;> rfl
      · split
        · next hreturn =>
          subst hreturn
          rw [List.cons_append, List.cons_append, List.nil_append, unquote?]
          cases unquote? mark rest <;> rfl
        · split
          · exact unquote?_plain h.1 h.2 rest
          · exact unquote?_escapePoint mark c rest

theorem unquote?_flatMap {mark : Char} (hmark : mark = singleMark ∨ mark = doubleMark)
    (text rest : List Char) :
    unquote? mark (text.flatMap (escapeChar mark) ++ mark :: rest) = some (text, rest) := by
  induction text with
  | nil =>
    have hback : mark ≠ '\\' := by
      rcases hmark with rfl | rfl <;> decide
    rw [List.flatMap_nil, List.nil_append, unquote?, if_pos rfl]
    all_goals
      intros
      contradiction
  | cons c text ih =>
    rw [List.flatMap_cons, List.append_assoc, unquote?_escapeChar hmark, ih, Option.map_some]

theorem markFor_eq (text : List Char) : markFor text = singleMark ∨ markFor text = doubleMark := by
  unfold markFor
  split
  · exact .inr rfl
  · exact .inl rfl

/-- **A quoted text reads back** behind its opening quote, whatever stands behind it. -/
theorem unquote?_quoteChars (text rest : List Char) :
    ∃ mark inside, (mark = singleMark ∨ mark = doubleMark) ∧ quoteChars text = mark :: inside ∧
      unquote? mark (inside ++ rest) = some (text, rest) := by
  refine ⟨_, _, markFor_eq text, rfl, ?_⟩
  rw [List.append_assoc]
  exact unquote?_flatMap (markFor_eq text) text rest

/-! ## Quoted texts stand on one line -/

theorem not_mem_hex (width n : Nat) : '\n' ∉ hex width n := by
  induction width generalizing n with
  | zero => simp [hex]
  | succ width ih =>
    have hdigit : ∀ k < 16, '\n' ≠ hexDigit k := by decide
    simp [hex, ih, hdigit _ (Nat.mod_lt n (by decide))]

theorem not_mem_escapeChar {mark : Char} (hmark : mark ≠ '\n') (c : Char) :
    '\n' ∉ escapeChar mark c := by
  unfold escapeChar
  split
  · next h =>
    have hc : '\n' ≠ c := by
      rintro rfl
      simp [hmark.symm] at h
    simp [hc]
  · split
    · decide
    · split
      · decide
      · next hline =>
        split
        · decide
        · split
          · simpa using Ne.symm hline
          · unfold escapePoint
            split
            · simp [not_mem_hex]
            · split <;> simp [not_mem_hex]

theorem not_mem_quoteChars (text : List Char) : '\n' ∉ quoteChars text := by
  have hmark : markFor text ≠ '\n' := by
    rcases markFor_eq text with h | h <;> rw [h] <;> decide
  simp [quoteChars, hmark.symm, not_mem_escapeChar hmark]

end Text
end LoopNest
