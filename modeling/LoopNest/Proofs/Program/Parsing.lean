import LoopNest.Program.Run

/-!
# Lexemes of operands

What reading makes of the lexemes of an operand, wherever the operand may stand.

## Why a reading may stop

Reading refuses a text with too many open brackets, and how many are open is not known inside an
operand.  So nothing is said about whether reading goes on: `Leads` says where it stands if it goes
on at all.

A number with a sign is read as a sign in front of a number, and the sign waits there for what else
may bind tighter.  So an operand is a tree, perhaps behind a minus that waits.

* `Program.Leads`: where a reading stands behind some lexemes.
* `Program.Parses`: the lexemes of an operand are read as its tree.
* `Program.Parses.binary`, `Program.Parses.power`, `Program.Parses.sign`, `Program.parses_call`,
  `Program.Parses.index`: operands by their layout.
-/

namespace LoopNest
namespace Program

/-! ## Readings that go on -/

/-- If a reading goes on over the lexemes, it goes on from the second state. -/
def Leads (s : List Hole × Front) (ls : List Lexeme) (t : List Hole × Front) : Prop :=
  ∀ more u, (ls ++ more).foldlM stepTerm? s = some u → more.foldlM stepTerm? t = some u

theorem Leads.trans {s t u : List Hole × Front} {ls ms : List Lexeme} (h : Leads s ls t)
    (h' : Leads t ms u) :
    Leads s (ls ++ ms) u := by
  intro more v hv
  rw [List.append_assoc] at hv
  exact h' more v (h (ms ++ more) v hv)

/-- One lexeme leads where its step leads. -/
theorem leads_of_step {s t : List Hole × Front} {l : Lexeme}
    (h : ∀ u, stepTerm? s l = some u → u = t) :
    Leads s [l] t := by
  intro more v hv
  rw [List.cons_append, List.nil_append, List.foldlM_cons] at hv
  cases hstep : stepTerm? s l with
  | none =>
    rw [hstep] at hv
    cases hv
  | some u =>
    rw [hstep, h u hstep] at hv
    exact hv

theorem leads_of_eq {s t : List Hole × Front} {l : Lexeme} (h : stepTerm? s l = some t) :
    Leads s [l] t :=
  leads_of_step fun _ hu => Option.some_inj.mp (hu.symm.trans h)

theorem eq_of_openBracket? {hole : Hole} {holes : List Hole} {front : Front} {t : List Hole × Front}
    (h : openBracket? hole holes front = some t) : t = (hole :: holes, front) := by
  unfold openBracket? at h
  split at h
  · exact (Option.some_inj.mp h).symm
  · cases h

/-! ## Finished operands -/

/-- The tree, with a minus in front of it or not. -/
def signed (minus : Bool) (e : Expr) : Expr := if minus then .call "-" [e] else e

/-- A minus that waits in front of an operand, or nothing. -/
def waiting (minus : Bool) : List Hole := if minus then [.sign "-"] else []

@[simp] theorem signed_false (e : Expr) : signed false e = e := rfl

@[simp] theorem waiting_false : waiting false = [] := rfl

/-- Behind an operand that is a tree. -/
inductive Stands : Front → Expr → Prop where
  | named (x : String) : Stands (.named x) (.name x)
  | value (e : Expr) : Stands (.value e) e

/-- Wherever an operand may stand, the lexemes are read as the tree, perhaps behind a minus that
waits. -/
def Parses (ls : List Lexeme) (minus : Bool) (e : Expr) : Prop :=
  ∀ holes, ∃ front, Stands front e ∧ Leads (holes, .operand) ls (waiting minus ++ holes, front)

/-- Behind an operand, every lexeme but an opening parenthesis is read in the same way. -/
theorem stepTerm?_of_stands {front : Front} {e : Expr} (h : Stands front e) (holes : List Hole)
    {s : String} (hs : s ≠ "(") :
    stepTerm? (holes, front) (.sign s) = stepValue? holes e (.sign s) := by
  cases h with
  | named x =>
    unfold stepTerm?
    dsimp only
    split
    · next h => exact absurd (Lexeme.sign.inj h) hs
    · rfl
  | value e => rfl

/-! ## Steps behind an operand -/

section Steps

variable {front : Front} {e : Expr} (h : Stands front e) (minus : Bool) (holes : List Hole)

include h

/-- An operator behind the first operand in parentheses. -/
theorem leads_operator {s callee : String} {rank : Nat} (hrank : rank? s = some (rank, callee)) :
    Leads (waiting minus ++ .group :: holes, front) [.sign s]
      (.binary rank callee (signed minus e) :: .group :: holes, .operand) := by
  have hstep : s ≠ "(" ∧ stepValue? (waiting minus ++ .group :: holes) e (.sign s) =
      some (.binary rank callee (signed minus e) :: .group :: holes, .operand) := by
    unfold rank? at hrank
    split at hrank <;> cases hrank <;> exact ⟨by decide, by cases minus <;> rfl⟩
  exact leads_of_eq ((stepTerm?_of_stands h _ hstep.1).trans hstep.2)

/-- The sign of a power leaves a minus waiting: the power binds tighter. -/
theorem leads_power :
    Leads (waiting minus ++ holes, front) [.sign "**"]
      (.power e :: (waiting minus ++ holes), .operand) :=
  leads_of_eq (stepTerm?_of_stands h _ (by decide))

/-- A closing parenthesis behind the second operand of an operator. -/
theorem leads_closeBinary {rank : Nat} {callee : String} {left : Expr} :
    Leads (waiting minus ++ .binary rank callee left :: .group :: holes, front) [.sign ")"]
      (holes, .value (.call callee [left, signed minus e])) := by
  refine leads_of_eq ((stepTerm?_of_stands h _ (by decide)).trans ?_)
  cases minus <;> simp [stepValue?, waiting, close, signed]

/-- A closing parenthesis behind the exponent of a power. -/
theorem leads_closePower {base : Expr} {before : Bool} :
    Leads (waiting minus ++ .power base :: (waiting before ++ .group :: holes), front) [.sign ")"]
      (holes, .value (signed before (.call "^" [base, signed minus e]))) := by
  refine leads_of_eq ((stepTerm?_of_stands h _ (by decide)).trans ?_)
  cases minus <;> cases before <;> simp [stepValue?, waiting, close, signed]

/-- A closing parenthesis behind an operand with a sign. -/
theorem leads_closeSign {op : String} :
    Leads (waiting minus ++ .sign op :: .group :: holes, front) [.sign ")"]
      (holes, .value (.call op [signed minus e])) := by
  refine leads_of_eq ((stepTerm?_of_stands h _ (by decide)).trans ?_)
  cases minus <;> simp [stepValue?, waiting, close, signed]

/-- An opening bracket behind what is indexed. -/
theorem leads_openIndex :
    Leads (waiting minus ++ holes, front) [.sign "["]
      (.index e [] :: (waiting minus ++ holes), .operand) :=
  leads_of_step fun _ hu => eq_of_openBracket? ((stepTerm?_of_stands h _ (by decide)).symm.trans hu)

end Steps

theorem leads_group (holes : List Hole) :
    Leads (holes, .operand) [.sign "("] (.group :: holes, .operand) :=
  leads_of_step fun _ hu => eq_of_openBracket? hu

theorem leads_sign {op : String} (hop : op = "-" ∨ op = "+") (holes : List Hole) :
    Leads (holes, .operand) [.sign op] (.sign op :: holes, .operand) := by
  rcases hop with rfl | rfl <;> exact leads_of_eq rfl

/-! ## Operands by their layout -/

namespace Parses

variable {ls ms : List Lexeme} {m m' : Bool} {a b : Expr}

theorem binary (ha : Parses ls m a) (hb : Parses ms m' b) {s callee : String} {rank : Nat}
    (hrank : rank? s = some (rank, callee)) :
    Parses (.sign "(" :: (ls ++ .sign s :: (ms ++ [.sign ")"]))) false
      (.call callee [signed m a, signed m' b]) := by
  intro holes
  obtain ⟨front, hfront, hleft⟩ := ha (.group :: holes)
  obtain ⟨front', hfront', hright⟩ := hb (.binary rank callee (signed m a) :: .group :: holes)
  refine ⟨_, .value _, ?_⟩
  have hall := (leads_group holes).trans (hleft.trans ((leads_operator hfront m holes hrank).trans
    (hright.trans (leads_closeBinary hfront' m' holes))))
  simpa using hall

theorem power (ha : Parses ls m a) (hb : Parses ms m' b) :
    Parses (.sign "(" :: (ls ++ .sign "**" :: (ms ++ [.sign ")"]))) false
      (signed m (.call "^" [a, signed m' b])) := by
  intro holes
  obtain ⟨front, hfront, hleft⟩ := ha (.group :: holes)
  obtain ⟨front', hfront', hright⟩ := hb (.power a :: (waiting m ++ .group :: holes))
  refine ⟨_, .value _, ?_⟩
  have hall :=
    (leads_group holes).trans (hleft.trans ((leads_power hfront m (.group :: holes)).trans
    (hright.trans (leads_closePower hfront' m' holes))))
  simpa using hall

theorem sign (ha : Parses ls m a) {op : String} (hop : op = "-" ∨ op = "+") :
    Parses (.sign "(" :: .sign op :: (ls ++ [.sign ")"])) false (.call op [signed m a]) := by
  intro holes
  obtain ⟨front, hfront, hoperand⟩ := ha (.sign op :: .group :: holes)
  refine ⟨_, .value _, ?_⟩
  have hall := (leads_group holes).trans ((leads_sign hop (.group :: holes)).trans
    (hoperand.trans (leads_closeSign hfront m holes)))
  simpa using hall

end Parses

/-! ## Arguments and indices -/

/-- The lexemes of several operands with commas between them. -/
def commas : List (List Lexeme) → List Lexeme
  | [] => []
  | ls :: rest => ls ++ rest.flatMap (.sign "," :: ·)

/-- A bracket that collects operands: what a comma and what its end make of it. -/
structure Collects (bracket : List Expr → Hole) (stop : String) (result : List Expr → Expr) :
    Prop where
  stop_ne : stop ≠ "("
  comma : ∀ minus done holes e, stepValue? (waiting minus ++ bracket done :: holes) e (.sign ",") =
    some (bracket (signed minus e :: done) :: holes, .operand)
  close : ∀ minus done holes e, stepValue? (waiting minus ++ bracket done :: holes) e (.sign stop) =
    some (holes, .value (result (signed minus e :: done).reverse))

theorem collects_call (callee : String) : Collects (.call callee) ")" (.call callee) where
  stop_ne := by decide
  comma minus done holes e := by cases minus <;> rfl
  close minus done holes e := by cases minus <;> rfl

theorem collects_index (base : Expr) :
    Collects (.index base) "]" fun es => .form refTag (base :: es) where
  stop_ne := by decide
  comma minus done holes e := by cases minus <;> rfl
  close minus done holes e := by cases minus <;> rfl

/-- The trees of operands that have been read. -/
abbrev Read := List Lexeme × Bool × Expr

/-- The lexemes of an operand are read as its tree. -/
def Read.Parses (r : Read) : Prop := Program.Parses r.1 r.2.1 r.2.2

/-- The tree with its sign. -/
def Read.tree (r : Read) : Expr := signed r.2.1 r.2.2

/-- Behind one operand in a bracket, commas and operands up to the end of the bracket. -/
theorem Collects.leads_rest {bracket : List Expr → Hole} {stop : String} {result : List Expr → Expr}
    (hbracket : Collects bracket stop result) (holes : List Hole) {rest : List Read}
    (hrest : ∀ r ∈ rest, r.Parses) {front : Front} {e : Expr} (hfront : Stands front e)
    (minus : Bool) (done : List Expr) :
    Leads (waiting minus ++ bracket done :: holes, front)
      (rest.flatMap (fun r => .sign "," :: r.1) ++ [.sign stop])
      (holes, .value (result (done.reverse ++ signed minus e :: rest.map Read.tree))) := by
  induction rest generalizing front e minus done with
  | nil =>
    have hclose :=
      (stepTerm?_of_stands hfront _ hbracket.stop_ne).trans (hbracket.close minus done holes e)
    simpa using leads_of_eq hclose
  | cons r rest ih =>
    have hcomma :=
      (stepTerm?_of_stands hfront _ (by decide)).trans (hbracket.comma minus done holes e)
    obtain ⟨front', hfront', hread⟩ :=
      hrest r List.mem_cons_self (bracket (signed minus e :: done) :: holes)
    have hmore :=
      ih (fun r' hr' => hrest r' (List.mem_cons_of_mem _ hr')) hfront' r.2.1
        (signed minus e :: done)
    have hall := (leads_of_eq hcomma).trans (hread.trans hmore)
    simpa [Read.tree] using hall

/-- One or more operands up to the end of the bracket. -/
theorem Collects.leads {bracket : List Expr → Hole} {stop : String} {result : List Expr → Expr}
    (hbracket : Collects bracket stop result) (holes : List Hole) {reads : List Read}
    (hne : reads ≠ []) (hreads : ∀ r ∈ reads, r.Parses) :
    Leads (bracket [] :: holes, .operand) (commas (reads.map Prod.fst) ++ [.sign stop])
      (holes, .value (result (reads.map Read.tree))) := by
  obtain ⟨r, rest, rfl⟩ := List.exists_cons_of_ne_nil hne
  obtain ⟨front, hfront, hread⟩ := hreads r List.mem_cons_self (bracket [] :: holes)
  have hmore :=
    hbracket.leads_rest holes (fun r' hr' => hreads r' (List.mem_cons_of_mem _ hr')) hfront r.2.1 []
  have hall := hread.trans hmore
  simpa [commas, Read.tree, List.flatMap_map] using hall

/-- In front of anything but the end of an empty bracket, an argument is an operand. -/
theorem Leads.ofArgument {holes : List Hole} {l : Lexeme} {ls : List Lexeme} {t : List Hole × Front}
    (h : Leads (holes, .operand) (l :: ls) t) (hl : l ≠ .sign ")") :
    Leads (holes, .argument) (l :: ls) t := by
  have hstep : stepTerm? (holes, .argument) l = stepTerm? (holes, .operand) l := by
    unfold stepTerm?
    dsimp only
    split
    · exact absurd rfl hl
    · rfl
  intro more u hu
  refine h more u ?_
  rw [List.cons_append, List.foldlM_cons] at hu ⊢
  rwa [← hstep]

/-- A word that is an identifier is read as a name. -/
theorem leads_word {x : String} (hx : Text.isIdentifier x = true) (holes : List Hole) :
    Leads (holes, .operand) [.word x] (holes, .named (nameOf x)) := by
  have hreserved : x ∉ Text.reservedWords := by
    rw [Text.isIdentifier, Bool.and_eq_true, Bool.not_eq_true'] at hx
    simpa using hx.2
  refine leads_of_eq ?_
  show stepOperand? holes (.word x) = _
  unfold stepOperand?
  split
  · next h => exact absurd (Lexeme.word.inj h ▸ by decide) hreserved
  · next h => exact absurd (Lexeme.word.inj h ▸ by decide) hreserved
  · next h => exact absurd (Lexeme.word.inj h ▸ by decide) hreserved
  · next h =>
    rw [← Lexeme.word.inj h, if_pos hx]
  all_goals
    next h => cases h

theorem parses_name {x : String} (hx : Text.isIdentifier x = true) :
    Parses [.word x] false (.name (nameOf x)) :=
  fun holes => ⟨_, .named _, leads_word hx holes⟩

theorem parses_call {f : String} (hf : Text.isIdentifier f = true) {reads : List Read}
    (hreads : ∀ r ∈ reads, r.Parses)
    (hfirst : ∀ r ∈ reads, ∃ l more, r.1 = l :: more ∧ l ≠ .sign ")") :
    Parses (.word f :: .sign "(" :: (commas (reads.map Prod.fst) ++ [.sign ")"])) false
      (.call (nameOf f) (reads.map Read.tree)) := by
  intro holes
  have hopen : Leads (holes, .named (nameOf f)) [.sign "("]
      (.call (nameOf f) [] :: holes, .argument) :=
    leads_of_step fun _ hu => eq_of_openBracket? hu
  have hbegin := (leads_word hf holes).trans hopen
  refine ⟨_, .value _, ?_⟩
  cases reads with
  | nil =>
    have hempty : Leads (.call (nameOf f) [] :: holes, .argument) [.sign ")"]
      (holes, .value (.call (nameOf f) [])) := leads_of_eq rfl
    simpa [commas] using hbegin.trans hempty
  | cons r rest =>
    have hargs := (collects_call (nameOf f)).leads holes (List.cons_ne_nil r rest) hreads
    obtain ⟨l, more, hl, hne⟩ := hfirst r List.mem_cons_self
    rw [List.map_cons, commas, hl, List.cons_append, List.cons_append] at hargs
    have hall := hbegin.trans (hargs.ofArgument hne)
    simpa [commas, hl] using hall

/-- Indices.  Without any, reading does not go on. -/
theorem Parses.index {ls : List Lexeme} {m : Bool} {base : Expr} (hbase : Parses ls m base)
    {reads : List Read} (hreads : ∀ r ∈ reads, r.Parses) :
    Parses (ls ++ .sign "[" :: (commas (reads.map Prod.fst) ++ [.sign "]"])) m
      (.form refTag (base :: reads.map Read.tree)) := by
  intro holes
  obtain ⟨front, hfront, hread⟩ := hbase holes
  have hindices : Leads (.index base [] :: (waiting m ++ holes), .operand)
      (commas (reads.map Prod.fst) ++ [.sign "]"])
      (waiting m ++ holes, .value (.form refTag (base :: reads.map Read.tree))) := by
    by_cases hne : reads = []
    · subst hne
      exact leads_of_step fun u hu => by cases hu
    · exact (collects_index base).leads (waiting m ++ holes) hne hreads
  refine ⟨_, .value _, ?_⟩
  have hall := hread.trans ((leads_openIndex hfront m holes).trans hindices)
  simpa using hall

end Program
end LoopNest
