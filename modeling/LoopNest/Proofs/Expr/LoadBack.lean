import LoopNest.Expr.Form
import LoopNest.Proofs.SExpr.ReadBack

/-!
# Expressions load back from their text

The written value of an expression tells its kind by its head.  A tag that is the head of another
kind stands behind the head `generic`, so no form is taken for a call, an assignment or a truth
value, and a name is never a list.  A name is written as a bare word, and a bare word is a number if
it reads as one.

## Why the changed value is followed

A word that reads as a number is lost wherever it stands, as a variable and as a callee, at any
depth, and nothing else is.  So what the text loads as is said for every expression, not only for
those that come back: `SExpr.reread` changes the words of a value, and `Expr.reloaded` is the form
that is left when the heads are undone.  That an expression comes back is then a question about its
words alone.

* `Expr.Plain`: the expressions that can be written and read.
* `Expr.load_render_eq`: the text of an expression loads as the changed form.
* `Expr.toExpr?_reloaded`: the changed form is the expression if no word was changed.
* `Expr.load_pretty_flat`: both texts of a plain expression load as the expression.
-/

namespace LoopNest

/-- Truth values, texts, integers of at most `Number.digitLimit` digits, and doubles that are
numbers. -/
inductive Literal.Plain : Literal → Prop
  | bool (b : Bool) : Plain (.bool b)
  | int {n : Int} : n.natAbs < 10 ^ Number.digitLimit → Plain (.int n)
  | float {x : Float} : Number.parts x ≠ .nan → Plain (.float x)
  | text (s : String) : Plain (.text s)

namespace Expr

open SExpr (LegibleSymbol PlainSymbol ofAtom)

/-- The expressions that can be written and read: names, callees and tags are plain symbols. -/
inductive Plain : Expr → Prop
  | name {x : String} : PlainSymbol x → Plain (.name x)
  | literal {v : Literal} : v.Plain → Plain (.literal v)
  | call {callee : String} {args : List Expr} :
      PlainSymbol callee → (∀ e ∈ args, Plain e) → Plain (.call callee args)
  | assign {target value : Expr} : Plain target → Plain value → Plain (.assign target value)
  | form {tag : String} {args : List Expr} :
      PlainSymbol tag → (∀ e ∈ args, Plain e) → Plain (.form tag args)

/-- The expressions whose texts load: names and callees may read as numbers, tags may not. -/
inductive Legible : Expr → Prop
  | name {x : String} : LegibleSymbol x → Legible (.name x)
  | literal {v : Literal} : v.Plain → Legible (.literal v)
  | call {callee : String} {args : List Expr} :
      LegibleSymbol callee → (∀ e ∈ args, Legible e) → Legible (.call callee args)
  | assign {target value : Expr} : Legible target → Legible value → Legible (.assign target value)
  | form {tag : String} {args : List Expr} :
      PlainSymbol tag → (∀ e ∈ args, Legible e) → Legible (.form tag args)

mutual

/-- What the text of an expression loads as: a name or callee that reads as a number is that
number. -/
def reloaded : Expr → Form
  | .name x =>
      match ofAtom x.toList with
      | .int n => .literal (.int n)
      | .float v => .literal (.float v)
      | _ => .name x
  | .literal v => .literal v
  | .call callee args => .call (ofAtom callee.toList) (reloadedAll args)
  | .assign target value => .assign (reloaded target) (reloaded value)
  | .form tag args => .tagged (.symbol tag) (reloadedAll args)

/-- What the texts of expressions load as. -/
def reloadedAll : List Expr → List Form
  | [] => []
  | e :: es => reloaded e :: reloadedAll es

end

/-! ## Writing -/

theorem toSExprAll_eq (es : List Expr) : toSExprAll es = es.map toSExpr := by
  induction es with
  | nil => rfl
  | cons e es ih => rw [toSExprAll, ih, List.map_cons]

/-- The heads with a meaning of their own are plain symbols themselves. -/
theorem plainSymbol_of_mem_reservedHeads {s : String} (h : s ∈ reservedHeads) : PlainSymbol s := by
  revert s
  decide

theorem legible_reserved {s : String} (h : s ∈ reservedHeads) : (SExpr.symbol s).Legible :=
  .symbol (plainSymbol_of_mem_reservedHeads h).legible

theorem legible_toSExpr_literal {v : Literal} (h : v.Plain) : v.toSExpr.Legible := by
  cases h with
  | bool b =>
    have hword : PlainSymbol (if b then "true" else "false") := by
      cases b <;> decide
    refine .list (List.forall_mem_cons.mpr ⟨legible_reserved (by decide), ?_⟩)
    exact List.forall_mem_singleton.mpr (.symbol hword.legible)
  | int h => exact .int h
  | float h => exact .float h
  | text s => exact .text s

theorem legible_tagHead {tag : String} (h : PlainSymbol tag) : ∀ s ∈ tagHead tag, s.Legible := by
  unfold tagHead
  split
  · refine List.forall_mem_cons.mpr ⟨legible_reserved (by decide), ?_⟩
    exact List.forall_mem_singleton.mpr (.symbol h.legible)
  · exact List.forall_mem_singleton.mpr (.symbol h.legible)

theorem legible_toSExpr {e : Expr} (h : e.Legible) : e.toSExpr.Legible := by
  induction h with
  | name h => exact .symbol h
  | literal h => exact legible_toSExpr_literal h
  | call hcallee _ ih =>
    rw [toSExpr, toSExprAll_eq]
    refine .list (List.forall_mem_cons.mpr ⟨legible_reserved (by decide), ?_⟩)
    exact List.forall_mem_cons.mpr ⟨.symbol hcallee, List.forall_mem_map.mpr ih⟩
  | assign _ _ ihTarget ihValue =>
    rw [toSExpr]
    refine .list (List.forall_mem_cons.mpr ⟨legible_reserved (by decide), ?_⟩)
    exact List.forall_mem_cons.mpr ⟨ihTarget, List.forall_mem_singleton.mpr ihValue⟩
  | form htag _ ih =>
    rw [toSExpr, toSExprAll_eq]
    exact .list (List.forall_mem_append.mpr ⟨legible_tagHead htag, List.forall_mem_map.mpr ih⟩)

/-! ## Undoing the heads -/

theorem headOf_tag {tag : String} (h : tag ∉ reservedHeads) :
    SExpr.headOf (.symbol tag) = .tag tag := by
  simp only [reservedHeads, List.mem_cons, List.not_mem_nil, or_false, not_or] at h
  unfold SExpr.headOf SExpr.spelling?
  dsimp only
  split <;> simp_all

theorem toForm_tagged (tag : String) {ss : List SExpr} {forms : List Form}
    (h : SExpr.toForms ss = .ok forms) :
    (SExpr.list (tagHead tag ++ ss)).toForm = .ok (.tagged (.symbol tag) forms) := by
  unfold tagHead
  split
  · show (SExpr.toForms ss).map (Form.tagged (.symbol tag)) = _
    rw [h]
    rfl
  · next hfree =>
    have hhead := headOf_tag (by simpa using hfree)
    rw [List.singleton_append]
    unfold SExpr.toForm
    simp only [hhead, h]
    rfl

theorem toForm_call (callee : SExpr) {ss : List SExpr} {forms : List Form}
    (h : SExpr.toForms ss = .ok forms) :
    (SExpr.list (.symbol "call" :: callee :: ss)).toForm = .ok (.call callee forms) := by
  show (SExpr.toForms ss).map (Form.call callee) = _
  rw [h]
  rfl

theorem toForm_assign {s t : SExpr} {target value : Form} (hs : s.toForm = .ok target)
    (ht : t.toForm = .ok value) :
    (SExpr.list [.symbol "=", s, t]).toForm = .ok (.assign target value) := by
  show (s.toForm >>= fun target => t.toForm >>= fun value => pure (Form.assign target value)) = _
  rw [hs, ht]
  rfl

theorem reread_symbol {s : String} (h : PlainSymbol s) :
    (SExpr.symbol s).reread = .symbol s := h.ofAtom_eq

theorem reread_tagHead {tag : String} (h : PlainSymbol tag) :
    (tagHead tag).map SExpr.reread = tagHead tag := by
  have hgeneric : PlainSymbol "generic" := plainSymbol_of_mem_reservedHeads (by decide)
  unfold tagHead
  split <;> simp [reread_symbol h, reread_symbol hgeneric]

theorem toForm_ofAtom (x : String) : (ofAtom x.toList).toForm = .ok (reloaded (.name x)) := by
  rw [reloaded, ofAtom]
  cases Number.readInt? x.toList with
  | some n => rfl
  | none =>
    cases Number.readFloat? x.toList with
    | some v => rfl
    | none =>
      rw [String.ofList_toList]
      rfl

theorem toForm_reread_literal {v : Literal} (h : v.Plain) :
    v.toSExpr.reread.toForm = .ok (.literal v) := by
  have hliteral : PlainSymbol "literal" := plainSymbol_of_mem_reservedHeads (by decide)
  cases h with
  | bool b =>
    have hword : PlainSymbol (if b then "true" else "false") := by
      cases b <;> decide
    rw [Literal.toSExpr, SExpr.reread, SExpr.rereadAll_eq]
    simp only [List.map_cons, List.map_nil, reread_symbol hliteral, reread_symbol hword]
    cases b <;> rfl
  | int _ => rfl
  | float _ => rfl
  | text s => rfl

theorem toForms_reread {es : List Expr} (h : ∀ e ∈ es, e.toSExpr.reread.toForm = .ok e.reloaded) :
    SExpr.toForms ((toSExprAll es).map SExpr.reread) = .ok (reloadedAll es) := by
  induction es with
  | nil => rfl
  | cons e es ih =>
    rw [List.forall_mem_cons] at h
    rw [toSExprAll, List.map_cons, SExpr.toForms, h.1, ih h.2]
    rfl

/-- The written value, read again, writes the form that the expression loads as. -/
theorem toForm_reread {e : Expr} (h : e.Legible) : e.toSExpr.reread.toForm = .ok e.reloaded := by
  have hreserved : ∀ {s : String}, s ∈ reservedHeads → (SExpr.symbol s).reread = .symbol s :=
    fun hs => reread_symbol (plainSymbol_of_mem_reservedHeads hs)
  induction h with
  | @name x _ => exact toForm_ofAtom x
  | literal h => exact toForm_reread_literal h
  | @call callee args _ _ ih =>
    have hcall : (SExpr.symbol "call").reread = .symbol "call" := hreserved (by decide)
    rw [toSExpr, SExpr.reread, SExpr.rereadAll_eq, List.map_cons, List.map_cons, hcall]
    exact toForm_call _ (toForms_reread ih)
  | assign _ _ ihTarget ihValue =>
    have hequal : (SExpr.symbol "=").reread = .symbol "=" := hreserved (by decide)
    rw [toSExpr, SExpr.reread, SExpr.rereadAll_eq, List.map_cons, List.map_cons, List.map_cons,
      List.map_nil, hequal]
    exact toForm_assign ihTarget ihValue
  | @form tag args htag _ ih =>
    rw [toSExpr, SExpr.reread, SExpr.rereadAll_eq, List.map_append, reread_tagHead htag]
    exact toForm_tagged tag (toForms_reread ih)

theorem formLoad_of_read {text : String} {s : SExpr} (hread : SExpr.read text = .ok s) {form : Form}
    (hform : s.toForm = .ok form) : Form.load text = .ok form := by
  rw [Form.load, hread]
  show s.toForm.mapError LoadError.malformed = _
  rw [hform]
  rfl

/-- **The text of a legible expression loads as the expression with its names read again**, for any
limit on the lines. -/
theorem load_render_eq {e : Expr} (h : e.Legible) (width : Nat) :
    Form.load (e.toSExpr.render width 0) = .ok e.reloaded :=
  formLoad_of_read (SExpr.read_of_reads ((legible_toSExpr h).reads width 0)) (toForm_reread h)

/-! ## Which expressions come back -/

theorem spelling?_ofAtom {x : String} :
    (ofAtom x.toList).spelling? = some x ↔ ofAtom x.toList = .symbol x := by
  rw [ofAtom]
  cases Number.readInt? x.toList with
  | some n => simp [SExpr.spelling?]
  | none => cases Number.readFloat? x.toList <;> simp [SExpr.spelling?]

theorem toExpr?_reloaded_name {x : String} :
    (reloaded (.name x)).toExpr? = some (.name x) ↔ ofAtom x.toList = .symbol x := by
  rw [reloaded, ofAtom]
  cases Number.readInt? x.toList with
  | some n => simp [Form.toExpr?]
  | none => cases Number.readFloat? x.toList <;> simp [Form.toExpr?]

mutual

/-- **The form is the expression exactly if every name and callee in it is read as a symbol.** -/
theorem toExpr?_reloaded : ∀ e : Expr,
    e.reloaded.toExpr? = some e ↔ ∀ x, e.occurs x = true → ofAtom x.toList = .symbol x
  | .name x => by
    rw [toExpr?_reloaded_name]
    simp [occurs]
  | .literal v => by
    simp [reloaded, Form.toExpr?, occurs]
  | .call callee args => by
    have hargs := toExprs?_reloadedAll args
    simp [reloaded, Form.toExpr?, Option.bind_eq_some_iff, spelling?_ofAtom, occurs, or_imp,
      forall_and, ← hargs]
  | .assign target value => by
    have htarget := toExpr?_reloaded target
    have hvalue := toExpr?_reloaded value
    simp [reloaded, Form.toExpr?, Option.bind_eq_some_iff, occurs, or_imp,
      forall_and, ← htarget, ← hvalue]
  | .form tag args => by
    have hargs := toExprs?_reloadedAll args
    simp [reloaded, Form.toExpr?, SExpr.spelling?, Option.bind_eq_some_iff, occurs, ← hargs]

theorem toExprs?_reloadedAll : ∀ es : List Expr,
    Form.toExprs? (reloadedAll es) = some es ↔ ∀ x, occursAny x es = true →
      ofAtom x.toList = .symbol x
  | [] => by
    simp [reloadedAll, Form.toExprs?, occursAny]
  | e :: es => by
    have he := toExpr?_reloaded e
    have hes := toExprs?_reloadedAll es
    simp [reloadedAll, Form.toExprs?, Option.bind_eq_some_iff, occursAny, or_imp,
      forall_and, ← he, ← hes]

end

/-- A text that writes a form loads as the form's expression, if it has one. -/
theorem load_eq_ok_iff {text : String} {form : Form} (h : Form.load text = .ok form) {e : Expr} :
    load text = .ok e ↔ form.toExpr? = some e := by
  rw [load, h]
  simp only [bind, Except.bind]
  cases form.toExpr? <;> simp

/-! ## Plain expressions -/

theorem occursAny_eq_true_iff {x : String} {es : List Expr} :
    occursAny x es = true ↔ ∃ e ∈ es, e.occurs x = true := by
  induction es with
  | nil => simp [occursAny]
  | cons e es ih => simp [occursAny, ih]

theorem Plain.legible {e : Expr} (h : e.Plain) : e.Legible := by
  induction h with
  | name h => exact .name h.legible
  | literal h => exact .literal h
  | call hcallee _ ih => exact .call hcallee.legible ih
  | assign _ _ ihTarget ihValue => exact .assign ihTarget ihValue
  | form htag _ ih => exact .form htag ih

/-- Names and callees of a plain expression are plain symbols. -/
theorem Plain.plainSymbol {e : Expr} (h : e.Plain) {x : String} (hx : e.occurs x = true) :
    PlainSymbol x := by
  induction h with
  | name h => exact beq_iff_eq.mp hx ▸ h
  | literal => cases hx
  | call hcallee _ ih =>
    rw [occurs, Bool.or_eq_true, beq_iff_eq, occursAny_eq_true_iff] at hx
    rcases hx with rfl | ⟨a, ha, hx⟩
    · exact hcallee
    · exact ih a ha hx
  | assign _ _ ihTarget ihValue =>
    rw [occurs, Bool.or_eq_true] at hx
    exact hx.elim ihTarget ihValue
  | form _ _ ih =>
    obtain ⟨a, ha, hx⟩ := occursAny_eq_true_iff.mp hx
    exact ih a ha hx

/-- **Both texts of a plain expression load as the expression**: the one with lines of limited
width, and the one with no limit. -/
theorem load_pretty_flat {e : Expr} (h : e.Plain) :
    load e.pretty = .ok e ∧ load e.flat = .ok e := by
  have hwords : e.reloaded.toExpr? = some e :=
    (toExpr?_reloaded e).mpr fun _ hx => (h.plainSymbol hx).ofAtom_eq
  have hload (width : Nat) : load (e.toSExpr.render width 0) = .ok e :=
    (load_eq_ok_iff (load_render_eq h.legible width)).mpr hwords
  exact ⟨hload SExpr.lineWidth, hload SExpr.noLimit⟩

/-- A form whose tag is the head of calls, over a text with quotes, a backslash and a line break,
the double nearest to a tenth, a negative integer, a truth value, and an assignment without
arguments on one side. -/
def disguised : Expr :=
  .form "call" [.literal (.text "say \x22no\x22 \\ \n"),
    .literal (.float (Float.ofBits 0x3FB999999999999A)), .assign (.name "x_1") (.call "<=" []),
    .literal (.int (-12)), .literal (.bool true)]

theorem load_disguised :
    disguised.Plain ∧ load disguised.pretty = .ok disguised ∧
      load disguised.flat = .ok disguised := by
  have hsymbol : ∀ s ∈ ["call", "x_1", "<="], PlainSymbol s := by decide
  have hint : (-12 : Int).natAbs < 10 ^ Number.digitLimit :=
    calc (-12 : Int).natAbs < 10 ^ 2 := by decide
      _ ≤ 10 ^ Number.digitLimit := Nat.pow_le_pow_right (by decide) (by decide)
  have hplain : disguised.Plain := by
    refine .form (hsymbol _ (by decide)) ?_
    simp only [List.forall_mem_cons, List.not_mem_nil, false_implies, implies_true, and_true]
    refine ⟨.literal (.text _), .literal (.float (by decide)), ?_, .literal (.int hint),
      .literal (.bool true)⟩
    exact .assign (.name (hsymbol _ (by decide))) (.call (hsymbol _ (by decide)) (by simp))
  exact ⟨hplain, load_pretty_flat hplain⟩

end Expr
end LoopNest
