import LoopNest.Proofs.Program.Reading

/-!
# The meaning of what is read back

What is read back means the same as what was written: the two are one computation, in every scope
and on every world.  Three things are excluded, because the text says something else.  A name that
is not in its normal spelling is read as another name.  A number that is not finite is read as a
name.  A negative number that is raised to a power is read as the opposite of a power.

A negative number in front of an index is read in the same way, but there the sign makes no
difference: an index of a number is a fault, before the sign is reached.

* `Program.isFaithful`: the text says what the tree says.
* `Program.evaluate_closed`: an operand that is read back has the same value.
* `Program.same_outline`: statements that are read back have the same effect and assign the same
  names.
-/

namespace LoopNest

/-! ## Computations that never return -/

/-- The computation stops at a fault on every world. -/
def Step.Fails {α : Type} (s : Step α) : Prop := ∀ w, ∃ fault w', s.run w = .error fault w'

namespace Step.Fails

variable {α β : Type} {s : Step α}

/-- What follows a computation that never returns does not count. -/
theorem bind_eq (h : s.Fails) (f : α → Step α) : s >>= f = s := by
  funext w
  obtain ⟨fault, w', hw⟩ := h w
  exact (run_bind_of_error f hw).trans hw.symm

theorem bind (h : s.Fails) (f : α → Step β) : (s >>= f).Fails := by
  intro w
  obtain ⟨fault, w', hw⟩ := h w
  exact ⟨fault, w', run_bind_of_error f hw⟩

theorem of_bind {f : α → Step β} (h : ∀ a, (f a).Fails) : (s >>= f).Fails := by
  intro w
  cases hs : s.run w with
  | error fault w' => exact ⟨fault, w', run_bind_of_error f hs⟩
  | ok a w' =>
    obtain ⟨fault, w'', hf⟩ := h a w'
    exact ⟨fault, w'', (run_bind_of_ok f hs).trans hf⟩

theorem throw (fault : Fault) : (MonadExcept.throw fault : Step α).Fails :=
  fun w => ⟨fault, w, rfl⟩

end Step.Fails

namespace Program

/-! ## Texts that say what the tree says -/

/-- The constant is no float, or a finite one. -/
def isFinite : Literal → Bool
  | .float x =>
      match Number.parts x with
      | .finite _ _ _ => true
      | _ => false
  | _ => true

theorem exists_parts_of_isFinite {x : Float} (h : isFinite (.float x) = true) :
    ∃ negative m e, Number.parts x = .finite negative m e := by
  unfold isFinite at h
  dsimp only at h
  split at h
  · next negative m e hx => exact ⟨negative, m, e, hx⟩
  · cases h

/-- The first of two operands is a negative number. -/
def hasNegativeBase : List Expr → Bool
  | [.literal v, _] => minusOf v.plain
  | _ => false

mutual

/-- The text of the tree says what the tree says: names are in their normal spelling, numbers are
finite, and no negative number is raised to a power. -/
def isFaithful : Expr → Bool
  | .name x => nameOf x = x
  | .literal v => isFinite v.plain
  | .call f args =>
      (Operator.isCall f args.length || nameOf f = f) && !(f = "^" && hasNegativeBase args) &&
        areFaithful args
  | .assign t value => isFaithful t && isFaithful value
  | .form _ args => areFaithful args

/-- The texts of the trees say what the trees say. -/
def areFaithful : List Expr → Bool
  | [] => true
  | e :: es => isFaithful e && areFaithful es

end

theorem areFaithful_cons {e : Expr} {es : List Expr} :
    areFaithful (e :: es) = true ↔ isFaithful e = true ∧ areFaithful es = true := by
  rw [areFaithful, Bool.and_eq_true]

theorem isFaithful_call {f : String} {args : List Expr} :
    isFaithful (.call f args) = true ↔ (Operator.isCall f args.length = true ∨ nameOf f = f) ∧
      (f = "^" → hasNegativeBase args = false) ∧ areFaithful args = true := by
  simp [isFaithful, and_assoc, imp_iff_not_or]

/-! ## Constants -/

theorem evaluate_sign (scope : Scope) (e : Expr) :
    Expr.evaluate scope (.call "-" [e]) = Expr.evaluate scope e >>= Value.sign true := by
  have hcall : Operator.isCall "-" [e].length = true := rfl
  rw [Expr.evaluate, if_pos hcall, Expr.evaluateAll, Expr.evaluateAll]
  simp [Operator.ofCall?]

theorem neg_neg_of_finite {x : Float} {negative : Bool} {m : Nat} {e : Int}
    (h : Number.parts x = .finite negative m e) :
    - -x = x := by
  refine Number.eq_of_parts (Number.parts_neg (Number.parts_neg h)) ?_
  rwa [Bool.not_not]

/-- A finite constant that is read back has the same value. -/
theorem evaluate_constant (scope : Scope) {v : Literal} (h : isFinite v = true) :
    Expr.evaluate scope (signed (minusOf v) (unsigned v)) = v.toValue := by
  cases v with
  | int z =>
    rw [minusOf, unsigned, signed]
    by_cases hz : z < 0
    · have hnegate : -(z.natAbs : Int) = z := by omega
      rw [if_pos (by simpa using hz), evaluate_sign, Expr.evaluate]
      show (pure (.number .plain (.int (-(z.natAbs : Int)))) : Step Value) = _
      rw [hnegate]
      rfl
    · have hnat : (z.natAbs : Int) = z := by omega
      rw [if_neg (by simpa using hz), Expr.evaluate, hnat]
  | float x =>
    obtain ⟨negative, m, e, hx⟩ := exists_parts_of_isFinite h
    rw [minusOf, unsigned, hx]
    cases negative with
    | false => rfl
    | true =>
      dsimp only
      rw [signed, if_pos rfl, if_pos rfl, evaluate_sign, Expr.evaluate]
      show (pure (.number .plain (.float (- -x))) : Step Value) = _
      rw [neg_neg_of_finite hx]
      rfl
  | _ => rfl

theorem toValue_plain (v : Literal) : v.plain.toValue = v.toValue := by
  cases v with
  | machine m => cases m <;> rfl
  | _ => rfl

/-! ## Operands -/

/-- A constant with a minus is a plain number, and so is the constant without it. -/
theorem exists_number (scope : Scope) {v : Literal} (h : isFinite v = true)
    (hminus : minusOf v = true) :
    ∃ s s', Expr.evaluate scope (unsigned v) = pure (.number .plain s) ∧
      v.toValue = pure (.number .plain s') := by
  cases v with
  | int z => exact ⟨_, _, by rw [unsigned, Expr.evaluate]; rfl, rfl⟩
  | float x =>
    obtain ⟨negative, m, e, hx⟩ := exists_parts_of_isFinite h
    rw [unsigned, hx]
    exact ⟨_, _, by rw [Expr.evaluate]; rfl, rfl⟩
  | _ => cases hminus

/-- An operand that a minus waits in front of is a constant, or an element of a number, which there
is not. -/
theorem fails_of_minus (scope : Scope) :
    ∀ (e : Expr), isFaithful e = true → minus e = true → (∀ v, e ≠ .literal v) →
    (Expr.evaluate scope e).Fails
  | .form tag (base :: indices), h, hminus, _ => by
    have hbase := (areFaithful_cons.mp h).1
    rw [Expr.evaluate]
    split
    · by_cases hliteral : ∃ v, base = .literal v
      · obtain ⟨v, rfl⟩ := hliteral
        obtain ⟨s, s', -, hvalue⟩ := exists_number scope hbase hminus
        rw [Expr.evaluate, ← toValue_plain, hvalue, pure_bind]
        exact .of_bind fun _ => .throw _
      · exact (fails_of_minus scope base hbase hminus fun v hv => hliteral ⟨v, hv⟩).bind _
    · exact .throw _
  | .literal v, _, _, hne => absurd rfl (hne v)
  | .name x, _, hminus, _ => by cases hminus
  | .call f args, _, hminus, _ => by cases hminus
  | .assign t value, _, hminus, _ => by cases hminus
  | .form tag [], _, hminus, _ => by cases hminus

/-- The minus in front of an operand that is read back makes the operand what it was. -/
theorem evaluate_closed_of_core {scope : Scope} {e : Expr} (h : isFaithful e = true)
    (hcore : (∀ v, e ≠ .literal v) → Expr.evaluate scope (core e) = Expr.evaluate scope e) :
    Expr.evaluate scope (closed e) = Expr.evaluate scope e := by
  by_cases hliteral : ∃ v, e = .literal v
  · obtain ⟨v, rfl⟩ := hliteral
    rw [closed, minus, core, evaluate_constant scope h, toValue_plain, Expr.evaluate]
  · have hne : ∀ v, e ≠ .literal v := fun v hv => hliteral ⟨v, hv⟩
    cases hminus : minus e with
    | false => rw [closed, hminus, signed_false, hcore hne]
    | true =>
      rw [closed, hminus, signed, if_pos rfl, evaluate_sign, hcore hne]
      exact (fails_of_minus scope e h hminus hne).bind_eq _

theorem length_closedAll (es : List Expr) : (closedAll es).length = es.length := by
  rw [closedAll_eq_map, List.length_map]

/-- A call that is no power is read as the call. -/
theorem core_call {f : String} {args : List Expr} (h : isFaithful (.call f args) = true)
    (hpower : ¬(f = "^" ∧ args.length = 2)) : core (.call f args) = .call f (closedAll args) := by
  have hcallee : calleeOf f args.length = f := by
    rw [calleeOf]
    split
    · rfl
    · next hcall => exact (isFaithful_call.mp h).1.resolve_left hcall
  by_cases htwo : args.length = 2
  · obtain ⟨a, b, rfl⟩ := List.length_eq_two.mp htwo
    have hf : f ≠ "^" := fun hf => hpower ⟨hf, htwo⟩
    rw [List.length_cons, List.length_singleton] at hcallee
    rw [core, if_neg hf, hcallee]
    rfl
  · rw [core_call_of_length htwo, hcallee, closedAll_eq_map]

theorem evaluateAll_two (scope : Scope) (a b : Expr) :
    Expr.evaluateAll scope [a, b] = do
      let x ← Expr.evaluate scope a
      let y ← Expr.evaluate scope b
      return [x, y] := by
  simp [Expr.evaluateAll]

theorem evaluate_power (scope : Scope) (a b : Expr) :
    Expr.evaluate scope (.call "^" [a, b]) = (do
      let x ← Expr.evaluate scope a
      let y ← Expr.evaluate scope b
      Value.binary (.arithmetic .pow) x y) := by
  have hcall : Operator.isCall "^" [a, b].length = true := rfl
  rw [Expr.evaluate, if_pos hcall, evaluateAll_two]
  simp [Operator.ofCall?, Operator.ofCallee?]

/-- The base of an index that is read back: a minus in front of it does not count. -/
theorem evaluate_index {scope : Scope} {base : Expr} (h : isFaithful base = true)
    (hcore : (∀ v, base ≠ .literal v) → Expr.evaluate scope (core base) = Expr.evaluate scope base)
    (indices : Step (List Value)) :
    (do (← Expr.evaluate scope (core base)).load (← indices))
      = (do (← Expr.evaluate scope base).load (← indices)) := by
  by_cases hliteral : ∃ v, base = .literal v
  · obtain ⟨v, rfl⟩ := hliteral
    cases hminus : minusOf v.plain with
    | false =>
      have hconstant := evaluate_constant scope h
      rw [hminus, signed_false] at hconstant
      rw [core, hconstant, toValue_plain, Expr.evaluate]
    | true =>
      obtain ⟨s, s', hcore', hvalue⟩ := exists_number scope h hminus
      rw [core, hcore', Expr.evaluate, ← toValue_plain, hvalue, pure_bind, pure_bind]
      rfl
  · rw [hcore fun v hv => hliteral ⟨v, hv⟩]

/-- A power that is read back: the base is no negative number, and where a minus waits in front of
it the base is a fault. -/
theorem evaluate_core_power {scope : Scope} {a b : Expr} (ha : isFaithful a = true)
    (hcore : (∀ v, a ≠ .literal v) → Expr.evaluate scope (core a) = Expr.evaluate scope a)
    (hb : Expr.evaluate scope (closed b) = Expr.evaluate scope b)
    (hbase : hasNegativeBase [a, b] = false) :
    Expr.evaluate scope (core (.call "^" [a, b])) = Expr.evaluate scope (.call "^" [a, b]) := by
  have hcall : Expr.evaluate scope (.call "^" [core a, closed b])
      = Expr.evaluate scope (.call "^" [a, b]) := by
    rw [evaluate_power, evaluate_power, hb]
    by_cases hliteral : ∃ v, a = .literal v
    · obtain ⟨v, rfl⟩ := hliteral
      have hconstant := evaluate_constant scope ha
      rw [show minusOf v.plain = false from hbase, signed_false] at hconstant
      rw [core, hconstant, toValue_plain, Expr.evaluate]
    · rw [hcore fun v hv => hliteral ⟨v, hv⟩]
  rw [core, if_pos rfl]
  cases hminus : minus a with
  | false => rw [signed_false]; exact hcall
  | true =>
    have hne : ∀ v, a ≠ .literal v := by
      rintro v rfl
      exact Bool.false_ne_true (hbase.symm.trans hminus)
    have hfails : (Expr.evaluate scope (.call "^" [a, b])).Fails := by
      rw [evaluate_power]
      exact (fails_of_minus scope a ha hminus hne).bind _
    rw [signed, if_pos rfl, evaluate_sign]
    exact (congrArg (· >>= Value.sign true) hcall).trans (hfails.bind_eq _)

mutual

theorem evaluate_core (scope : Scope) : ∀ (e : Expr), isFaithful e = true → (∀ v, e ≠ .literal v) →
    Expr.evaluate scope (core e) = Expr.evaluate scope e
  | .name x, h, _ => by
    have hx : nameOf x = x := by simpa [isFaithful] using h
    rw [core, hx]
  | .literal v, _, hne => absurd rfl (hne v)
  | .assign t value, _, _ => rfl
  | .form tag [], _, _ => rfl
  | .form tag (base :: indices), h, _ => by
    obtain ⟨hbase, hindices⟩ := areFaithful_cons.mp h
    have hall := evaluateAll_closedAll scope indices hindices
    rw [core, Expr.evaluate, Expr.evaluate, hall]
    split
    · exact evaluate_index hbase (evaluate_core scope base hbase) _
    · rfl
  | .call f args, h, _ => by
    obtain ⟨-, hnegative, hargs⟩ := isFaithful_call.mp h
    by_cases hpower : f = "^" ∧ args.length = 2
    · obtain ⟨rfl, htwo⟩ := hpower
      match args, htwo with
      | [a, b], _ =>
        obtain ⟨ha, hrest⟩ := areFaithful_cons.mp hargs
        have hb := (areFaithful_cons.mp hrest).1
        exact evaluate_core_power ha (evaluate_core scope a ha)
          (evaluate_closed_of_core hb (evaluate_core scope b hb)) (hnegative rfl)
    · rw [core_call h hpower, Expr.evaluate, Expr.evaluate, length_closedAll,
        evaluateAll_closedAll scope args hargs]

/-- Operands that are read back have the same values. -/
theorem evaluateAll_closedAll (scope : Scope) : ∀ (es : List Expr), areFaithful es = true →
    Expr.evaluateAll scope (closedAll es) = Expr.evaluateAll scope es
  | [], _ => rfl
  | e :: es, h => by
    obtain ⟨he, hes⟩ := areFaithful_cons.mp h
    have hclosed : Expr.evaluate scope (signed (minus e) (core e)) = Expr.evaluate scope e :=
      evaluate_closed_of_core he (evaluate_core scope e he)
    rw [closedAll, Expr.evaluateAll, Expr.evaluateAll, hclosed, evaluateAll_closedAll scope es hes]

end

/-- **An operand that is read back has the same value**: the two are one computation. -/
theorem evaluate_closed (scope : Scope) {e : Expr} (h : isFaithful e = true) :
    Expr.evaluate scope (closed e) = Expr.evaluate scope e :=
  evaluate_closed_of_core h (evaluate_core scope e h)

-- a negative base is excluded: the power of it is read as the opposite of a power
example : closed (.call "^" [.literal (.int (-2)), .literal (.int 2)]) =
    .call "-" [.call "^" [.literal (.int 2), .literal (.int 2)]] := rfl

/-! ## Targets -/

theorem isTarget_constant {v : Literal} (h : isFinite v = true) :
    isTarget (signed (minusOf v) (unsigned v)) = false := by
  cases v with
  | int z =>
    rw [minusOf, unsigned, signed]
    split <;> rfl
  | float x =>
    obtain ⟨negative, m, e, hx⟩ := exists_parts_of_isFinite h
    rw [minusOf, unsigned, hx]
    cases negative <;> rfl
  | _ => rfl

theorem exists_core_call (f : String) (args : List Expr) :
    ∃ g es, core (.call f args) = .call g es := by
  by_cases htwo : args.length = 2
  · obtain ⟨a, b, rfl⟩ := List.length_eq_two.mp htwo
    rw [core]
    split
    · cases minus a
      · exact ⟨_, _, rfl⟩
      · exact ⟨_, _, rfl⟩
    · exact ⟨_, _, rfl⟩
  · exact ⟨_, _, core_call_of_length htwo⟩

/-- A target that is read as a target: a name, or an element without a minus in front of it. -/
theorem target_cases {t : Expr} (h : isFaithful t = true) (htarget : isTarget (closed t) = true) :
    (∃ x, t = .name x ∧ closed t = .name x) ∨ t = .form refTag [] ∧ closed t = t ∨
      ∃ base indices, t = .form refTag (base :: indices) ∧ minus base = false ∧
        closed t = .form refTag (core base :: closedAll indices) := by
  match t with
  | .name x =>
    have hx : nameOf x = x := by simpa [isFaithful] using h
    have hclosed : closed (.name x) = .name (nameOf x) := rfl
    exact .inl ⟨x, rfl, by rw [hclosed, hx]⟩
  | .literal v => exact absurd ((isTarget_constant h).symm.trans htarget) Bool.false_ne_true
  | .call f args =>
    obtain ⟨g, es, hcore⟩ := exists_core_call f args
    rw [closed, hcore] at htarget
    cases htarget
  | .assign t value => cases htarget
  | .form tag [] =>
    obtain rfl : tag = refTag := of_decide_eq_true htarget
    exact .inr (.inl ⟨rfl, rfl⟩)
  | .form tag (base :: indices) =>
    rw [closed, minus, core] at htarget ⊢
    cases hminus : minus base with
    | true =>
      rw [hminus] at htarget
      cases htarget
    | false =>
      rw [hminus] at htarget
      obtain rfl : tag = refTag := by simpa [isTarget] using htarget
      exact .inr (.inr ⟨base, indices, rfl, hminus, rfl⟩)

theorem evaluate_core_of_minus (scope : Scope) {e : Expr} (h : isFaithful e = true)
    (hminus : minus e = false) :
    Expr.evaluate scope (core e) = Expr.evaluate scope e := by
  have hclosed := evaluate_closed scope h
  rwa [closed, hminus, signed_false] at hclosed

theorem assignTo_closed (scope : Scope) {t : Expr} (h : isFaithful t = true)
    (htarget : isTarget (closed t) = true) (value : Value) :
    Expr.assignTo scope (closed t) value = Expr.assignTo scope t value := by
  rcases target_cases h htarget with ⟨x, rfl, hx⟩ | ⟨rfl, hx⟩ | ⟨base, indices, rfl, hminus, hx⟩
  · rw [hx]
  · rw [hx]
  · obtain ⟨hbase, hindices⟩ := areFaithful_cons.mp h
    rw [hx, Expr.assignTo, Expr.assignTo, evaluate_core_of_minus scope hbase hminus,
      evaluateAll_closedAll scope indices hindices]

theorem updateAt_closed (scope : Scope) (op : Arithmetic) {t value : Expr} (h : isFaithful t = true)
    (hvalue : isFaithful value = true) (htarget : isTarget (closed t) = true) :
    Expr.updateAt scope op (closed t) (closed value) = Expr.updateAt scope op t value := by
  rcases target_cases h htarget with ⟨x, rfl, hx⟩ | ⟨rfl, hx⟩ | ⟨base, indices, rfl, hminus, hx⟩
  · rw [hx, Expr.updateAt, Expr.updateAt, evaluate_closed scope hvalue]
  · rw [hx]
    rfl
  · obtain ⟨hbase, hindices⟩ := areFaithful_cons.mp h
    rw [hx, Expr.updateAt, Expr.updateAt, evaluate_core_of_minus scope hbase hminus,
      evaluateAll_closedAll scope indices hindices, evaluate_closed scope hvalue]

/-! ## Statements -/

/-- The statements have the effect of the tree, in every scope, and assign the names that it
assigns. -/
structure Same (es : List Expr) (e : Expr) : Prop where
  effect : ∀ scope, Expr.executeAll scope es = Expr.execute scope e
  names : Expr.assignedAll es = e.assigned

theorem executeAll_single (scope : Scope) (e : Expr) :
    Expr.executeAll scope [e] = Expr.execute scope e := by
  simp [Expr.executeAll]

theorem Same.single {e e' : Expr} (heffect : ∀ scope, Expr.execute scope e' = Expr.execute scope e)
    (hnames : e'.assigned = e.assigned) : Same [e'] e where
  effect scope := by rw [executeAll_single, heffect]
  names := by rw [Expr.assignedAll, Expr.assignedAll, hnames, List.append_nil]

/-! ### Operands as statements -/

theorem execute_of_isValue (scope : Scope) {e : Expr} (h : isValue e = true) :
    Expr.execute scope e = discard (Expr.evaluate scope e) := by
  cases e with
  | assign t value => cases h
  | form tag args =>
    obtain rfl : tag = refTag := of_decide_eq_true h
    unfold Expr.execute
    rw [if_neg (by decide), if_neg (by decide)]
    rfl
  | _ => rfl

theorem assigned_of_isValue {e : Expr} (h : isValue e = true) : e.assigned = [] := by
  cases e with
  | assign t value => cases h
  | form tag args =>
    obtain rfl : tag = refTag := of_decide_eq_true h
    unfold Expr.assigned
    rfl
  | _ => rfl

theorem isValue_signed (m : Bool) {e : Expr} (h : isValue e = true) :
    isValue (signed m e) = true := by
  cases m
  · exact h
  · rfl

theorem isValue_unsigned (v : Literal) : isValue (unsigned v) = true := by
  cases v with
  | float x =>
    unfold unsigned
    dsimp only
    cases Number.parts x <;> rfl
  | _ => rfl

theorem isValue_closed {e : Expr} (h : isValue e = true) : isValue (closed e) = true := by
  refine isValue_signed _ ?_
  match e with
  | .name x => rfl
  | .literal v => exact isValue_unsigned v.plain
  | .call f args =>
    obtain ⟨g, es, hcore⟩ := exists_core_call f args
    rw [hcore]
    rfl
  | .form tag [] => exact h
  | .form tag (base :: indices) => exact h

theorem same_closed {e : Expr} (hfaithful : isFaithful e = true) (h : isValue e = true) :
    Same [closed e] e := by
  refine .single (fun scope => ?_) ?_
  · rw [execute_of_isValue scope h, execute_of_isValue scope (isValue_closed h),
      evaluate_closed scope hfaithful]
  · rw [assigned_of_isValue h, assigned_of_isValue (isValue_closed h)]

/-! ### Assignments and updates -/

theorem assigned_target {t : Expr} (h : isFaithful t = true) (htarget : isTarget (closed t) = true)
    (value value' : Expr) :
    (Expr.assign (closed t) value').assigned = (Expr.assign t value).assigned := by
  rcases target_cases h htarget with ⟨x, rfl, hx⟩ | ⟨rfl, hx⟩ | ⟨base, indices, rfl, -, hx⟩
    <;> rw [hx] <;> rfl

theorem same_assign {t value : Expr} (ht : isFaithful t = true) (hvalue : isFaithful value = true)
    (htarget : isTarget (closed t) = true) :
    Same [.assign (closed t) (closed value)] (.assign t value) := by
  refine .single (fun scope => ?_) (assigned_target ht htarget value (closed value))
  rw [Expr.execute, Expr.execute, evaluate_closed scope hvalue]
  congr 1
  funext v
  exact assignTo_closed scope ht htarget v

theorem execute_update (scope : Scope) {tag : String} (h : tag ∈ updateTags) :
    ∃ op, ∀ t value, Expr.execute scope (.form tag [t, value])
      = Expr.updateAt scope op t value := by
  simp only [updateTags, List.mem_cons, List.not_mem_nil, or_false] at h
  rcases h with rfl | rfl | rfl | rfl
  all_goals exact ⟨_, fun t value => rfl⟩

/-- An update assigns the name that an assignment to its target assigns. -/
theorem assigned_update {tag : String} (h : tag ∈ updateTags) (t value : Expr) :
    (Expr.form tag [t, value]).assigned = (Expr.assign t value).assigned := by
  simp only [updateTags, List.mem_cons, List.not_mem_nil, or_false] at h
  rcases h with rfl | rfl | rfl | rfl
  all_goals cases t <;> rfl

theorem same_update {tag : String} (htag : tag ∈ updateTags) {t value : Expr}
    (ht : isFaithful t = true) (hvalue : isFaithful value = true)
    (htarget : isTarget (closed t) = true) :
    Same [.form tag [closed t, closed value]] (.form tag [t, value]) := by
  refine .single (fun scope => ?_) ?_
  · obtain ⟨op, hop⟩ := execute_update scope htag
    rw [hop, hop, updateAt_closed scope op ht hvalue htarget]
  · rw [assigned_update htag, assigned_update htag, assigned_target ht htarget]

/-- A statement on a line of its own that is read back. -/
theorem same_line {e e' : Expr} (h : isFaithful e = true) (hread : rereadLine? e = some e')
    (hblock : ∀ args, e = .form blockTag args → args = []) : Same [e'] e := by
  cases e with
  | name x =>
    cases hread
    exact same_closed h rfl
  | literal v =>
    cases hread
    exact same_closed h rfl
  | call f args =>
    cases hread
    exact same_closed h rfl
  | assign t value =>
    obtain ⟨ht, hvalue⟩ := Bool.and_eq_true_iff.mp h
    rw [rereadLine?] at hread
    split at hread
    · next htarget =>
      cases hread
      exact same_assign ht hvalue htarget
    · cases hread
  | form tag args =>
    unfold rereadLine? at hread
    dsimp only at hread
    split at hread
    · next htag =>
      subst htag
      cases hread
      rw [hblock args rfl]
      exact .single (fun _ => rfl) rfl
    · split at hread
      · next hupdate =>
        split at hread
        · next t value =>
          obtain ⟨ht, hrest⟩ := areFaithful_cons.mp h
          have hvalue := (areFaithful_cons.mp hrest).1
          split at hread
          · next htarget =>
            cases hread
            exact same_update (List.contains_iff_mem.mp hupdate) ht hvalue htarget
          · cases hread
        · cases hread
      · split at hread
        · next href =>
          cases hread
          exact same_closed h (by simp [isValue, href])
        · cases hread

/-! ### Blocks and loops -/

theorem executeAll_append (scope : Scope) (a b : List Expr) :
    Expr.executeAll scope (a ++ b) = (do Expr.executeAll scope a; Expr.executeAll scope b) := by
  induction a with
  | nil => simp [Expr.executeAll]
  | cons e a ih => rw [List.cons_append, Expr.executeAll, Expr.executeAll, ih, bind_assoc]

theorem assignedAll_append (a b : List Expr) :
    Expr.assignedAll (a ++ b) = Expr.assignedAll a ++ Expr.assignedAll b := by
  induction a with
  | nil => rfl
  | cons e a ih => rw [List.cons_append, Expr.assignedAll, Expr.assignedAll, ih, List.append_assoc]

theorem execute_block (scope : Scope) (es : List Expr) :
    Expr.execute scope (.form blockTag es) = Expr.executeAll scope es := by
  unfold Expr.execute
  rw [if_pos rfl]

theorem assigned_block (es : List Expr) :
    (Expr.form blockTag es).assigned = Expr.assignedAll es := by
  unfold Expr.assigned
  rw [if_pos (by decide)]

theorem execute_while (scope : Scope) (condition body : Expr) :
    Expr.execute scope (.form whileTag [condition, body]) =
      iterate scope.limit (do (← Expr.evaluate scope condition).truth)
        (Expr.execute scope body) := by
  rw [Expr.execute, if_neg (by decide), if_pos rfl]

theorem same_while {condition body : Expr} {es : List Expr}
    (hcondition : isFaithful condition = true) (hvalue : isValue condition = true)
    (hbody : Same es body) :
    Same [.form whileTag [closed condition, .form blockTag es]]
    (.form whileTag [condition, body]) := by
  refine .single (fun scope => ?_) ?_
  · rw [execute_while, execute_while, execute_block, evaluate_closed scope hcondition, hbody.effect]
  · have hassigned : ∀ c b, (Expr.form whileTag [c, b]).assigned = c.assigned ++ b.assigned :=
      fun c b => by
      simp [Expr.assigned, Expr.assignedAll]
    rw [hassigned, hassigned, assigned_block, hbody.names, assigned_of_isValue hvalue,
      assigned_of_isValue (isValue_closed hvalue)]

/-- One more statement in front. -/
theorem Same.cons {e : Expr} {es rest more : List Expr} (he : Same es e)
    (hrest : Same more (.form blockTag rest)) :
    Same (es ++ more) (.form blockTag (e :: rest)) where
  effect scope := by
    have heffect := hrest.effect scope
    rw [execute_block] at heffect
    rw [executeAll_append, he.effect, heffect, execute_block, Expr.executeAll]
  names := by
    have hnames := hrest.names
    rw [assigned_block] at hnames
    rw [assignedAll_append, he.names, hnames, assigned_block, Expr.assignedAll]

theorem rereadAll?_append {a b : List (Outline Expr)} {es : List Expr}
    (h : rereadAll? (a ++ b) = some es) :
    ∃ es' es'', rereadAll? a = some es' ∧ rereadAll? b = some es'' ∧ es = es' ++ es'' := by
  induction a generalizing es with
  | nil => exact ⟨[], es, rfl, h, rfl⟩
  | cons s a ih =>
    rw [List.cons_append, rereadAll?] at h
    obtain ⟨e, he, h⟩ := Option.bind_eq_some_iff.mp h
    obtain ⟨rest, hrest, h⟩ := Option.bind_eq_some_iff.mp h
    cases h
    obtain ⟨es', es'', hes', hes'', rfl⟩ := ih hrest
    refine ⟨e :: es', es'', ?_, hes'', rfl⟩
    rw [rereadAll?, he, hes']
    rfl

theorem same_of_rereadLine? {e : Expr} (h : isFaithful e = true) {es : List Expr}
    (hread : rereadAll? [.line e] = some es)
    (hblock : ∀ args, e = .form blockTag args → args = []) : Same es e := by
  obtain ⟨e', he', hread⟩ := Option.bind_eq_some_iff.mp hread
  cases hread
  exact same_line h he' hblock

mutual

/-- **Statements that are read back do what they did.** -/
theorem same_outline : ∀ (e : Expr), isFaithful e = true →
    ∀ {es : List Expr}, rereadAll? e.outline = some es → Same es e
  | .name x, h, es, hread => same_of_rereadLine? h hread (by simp)
  | .literal v, h, es, hread => same_of_rereadLine? h hread (by simp)
  | .call f args, h, es, hread => same_of_rereadLine? h hread (by simp)
  | .assign t value, h, es, hread => same_of_rereadLine? h hread (by simp)
  | .form tag args, h, es, hread => by
    by_cases hblock : tag = blockTag
    · subst hblock
      rw [Expr.outline_block] at hread
      split at hread
      · next hempty =>
        subst hempty
        exact same_of_rereadLine? h hread (by simp)
      · exact same_outlineAll args h hread
    · by_cases hwhile : tag = whileTag ∧ ∃ condition body, args = [condition, body]
      · obtain ⟨rfl, condition, body, rfl⟩ := hwhile
        obtain ⟨hcondition, hrest⟩ := areFaithful_cons.mp h
        have hbody := (areFaithful_cons.mp hrest).1
        rw [Expr.outline_while] at hread
        obtain ⟨loop, hloop, hread⟩ := Option.bind_eq_some_iff.mp hread
        cases hread
        obtain ⟨inner, hinner, hloop⟩ := Option.bind_eq_some_iff.mp hloop
        split at hloop
        · next hvalue =>
          cases hloop
          exact same_while hcondition hvalue (same_outline body hbody hinner)
        · cases hloop
      · rw [Expr.outline_form hblock hwhile] at hread
        refine same_of_rereadLine? h hread ?_
        rintro args' heq
        cases heq
        exact absurd rfl hblock

/-- The same of several statements. -/
theorem same_outlineAll : ∀ (es : List Expr), areFaithful es = true → ∀ {es' : List Expr},
    rereadAll? (Expr.outlineAll es) = some es' → Same es' (.form blockTag es)
  | [], _, es', hread => by
    cases hread
    exact ⟨fun _ => rfl, rfl⟩
  | e :: es, h, es', hread => by
    obtain ⟨he, hes⟩ := areFaithful_cons.mp h
    obtain ⟨first, rest, hfirst, hrest, rfl⟩ := rereadAll?_append hread
    exact (same_outline e he hfirst).cons (same_outlineAll es hes hrest)

end

end Program
end LoopNest
