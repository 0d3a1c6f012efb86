import Mathlib.Data.List.Forall2

/-!
# Taking computations apart

A computation made of two succeeds where both succeed, one after the other.  These lemmas take a
successful computation apart into its steps, so that no proof has to open the way they are joined.
-/

namespace LoopNest

section Except

variable {ε α β : Type}

theorem bind_eq_ok_iff {x : Except ε α} {f : α → Except ε β} {b : β} :
    (x >>= f) = .ok b ↔ ∃ a, x = .ok a ∧ f a = .ok b := by
  cases x with
  | error e =>
    constructor
    · intro h; cases h
    · rintro ⟨a, h, -⟩; cases h
  | ok a =>
    constructor
    · intro h; exact ⟨a, rfl, h⟩
    · rintro ⟨a', h, h'⟩; cases h; exact h'

theorem bind_ok (a : α) (f : α → Except ε β) : (.ok a >>= f) = f a := rfl

/-- The second computation starts where the first one succeeds. -/
theorem exists_bind_eq_ok_iff {x : Except ε α} {f : α → Except ε β} :
    (∃ b, (x >>= f) = .ok b) ↔ ∃ a, x = .ok a ∧ ∃ b, f a = .ok b := by
  simp only [bind_eq_ok_iff]
  exact exists_comm.trans (exists_congr fun _ => exists_and_left)

theorem exists_bind_pure_iff {x : Except ε α} {f : α → β} :
    (∃ b, (do return f (← x)) = .ok b) ↔ ∃ a, x = .ok a :=
  exists_bind_eq_ok_iff.trans (exists_congr fun a => and_iff_left ⟨f a, rfl⟩)

theorem bind_eq_error {x : Except ε α} {f : α → Except ε β} {e : ε} (h : (x >>= f) = .error e) :
    x = .error e ∨ ∃ a, x = .ok a ∧ f a = .error e := by
  cases x with
  | error e' =>
    cases h
    exact .inl rfl
  | ok a => exact .inr ⟨a, rfl, h⟩

/-- Going through a list succeeds where it succeeds on every entry. -/
theorem mapM_eq_ok_iff {f : α → Except ε β} {l : List α} {bs : List β} :
    l.mapM f = .ok bs ↔ List.Forall₂ (fun a b => f a = .ok b) l bs := by
  induction l generalizing bs with
  | nil =>
    rw [List.mapM_nil, List.forall₂_nil_left_iff]
    constructor
    · intro h; cases h; rfl
    · rintro rfl; rfl
  | cons a l ih =>
    rw [List.mapM_cons, bind_eq_ok_iff, List.forall₂_cons_left_iff]
    constructor
    · rintro ⟨b, hb, h⟩
      obtain ⟨bs', hbs, h⟩ := bind_eq_ok_iff.mp h
      cases h
      exact ⟨b, bs', hb, ih.mp hbs, rfl⟩
    · rintro ⟨b, bs', hb, hbs, rfl⟩
      exact ⟨b, hb, bind_eq_ok_iff.mpr ⟨bs', ih.mpr hbs, rfl⟩⟩

/-- Going through a list fails with the error of an entry. -/
theorem mapM_eq_error {f : α → Except ε β} {e : ε} {l : List α} (h : l.mapM f = .error e) :
    ∃ a ∈ l, f a = .error e := by
  induction l with
  | nil => cases h
  | cons a l ih =>
    rw [List.mapM_cons] at h
    rcases bind_eq_error h with ha | ⟨b, -, h⟩
    · exact ⟨a, List.mem_cons_self, ha⟩
    · rcases bind_eq_error h with hl | ⟨bs, -, h⟩
      · obtain ⟨c, hc, herr⟩ := ih hl
        exact ⟨c, List.mem_cons_of_mem _ hc, herr⟩
      · cases h

/-- What each step of a fold keeps, for the entries that the fold goes through, the fold keeps. -/
theorem foldlM_keeps_of_mem {σ : Type} {f : σ → α → Except ε σ} {P : σ → Prop} {l : List α}
    (hkeep : ∀ s, ∀ a ∈ l, ∀ t, P s → f s a = .ok t → P t) {s t : σ} (hs : P s)
    (h : l.foldlM f s = .ok t) : P t := by
  induction l generalizing s with
  | nil =>
    cases h
    exact hs
  | cons a l ih =>
    rw [List.foldlM_cons] at h
    obtain ⟨u, hu, h⟩ := bind_eq_ok_iff.mp h
    exact ih (fun s b hb => hkeep s b (List.mem_cons_of_mem _ hb))
      (hkeep s a List.mem_cons_self u hs hu) h

end Except

section EStateM

variable {ε σ α β : Type}

theorem run_bind_eq_ok_iff {x : EStateM ε σ α} {f : α → EStateM ε σ β} {s t : σ} {b : β} :
    (x >>= f).run s = .ok b t ↔ ∃ a u, x.run s = .ok a u ∧ (f a).run u = .ok b t := by
  rw [EStateM.run_bind]
  cases x.run s with
  | ok a u =>
    constructor
    · intro h; exact ⟨a, u, rfl, h⟩
    · rintro ⟨a', u', h, h'⟩; cases h; exact h'
  | error e u =>
    constructor
    · intro h; cases h
    · rintro ⟨a, u, h, -⟩; cases h

theorem run_get_bind (f : σ → EStateM ε σ β) (s : σ) : (get >>= f).run s = (f s).run s := rfl

/-- A computation fails where its first part does. -/
theorem run_bind_of_error {x : EStateM ε σ α} (f : α → EStateM ε σ β) {s t : σ} {e : ε}
    (h : x.run s = .error e t) : (x >>= f).run s = .error e t := by
  rw [EStateM.run_bind, h]

/-- A computation goes on where its first part stops. -/
theorem run_bind_of_ok {x : EStateM ε σ α} (f : α → EStateM ε σ β) {s t : σ} {a : α}
    (h : x.run s = .ok a t) : (x >>= f).run s = (f a).run t := by
  rw [EStateM.run_bind, h]

theorem run_adaptExcept_of_ok {δ : Type} (f : ε → δ) {x : EStateM ε σ α} {s t : σ} {a : α}
    (h : x.run s = .ok a t) : (x.adaptExcept f).run s = .ok a t := by
  simp only [EStateM.run, EStateM.adaptExcept] at h ⊢
  rw [h]

theorem run_adaptExcept_of_error {δ : Type} (f : ε → δ) {x : EStateM ε σ α} {s t : σ} {e : ε}
    (h : x.run s = .error e t) : (x.adaptExcept f).run s = .error (f e) t := by
  simp only [EStateM.run, EStateM.adaptExcept] at h ⊢
  rw [h]

/-- The result of a computation, for whichever state it ends in. -/
theorem run'_eq_some_iff {x : EStateM ε σ α} {s : σ} {a : α} :
    x.run' s = some a ↔ ∃ t, x.run s = .ok a t := by
  unfold EStateM.run'
  constructor
  · intro h
    split at h
    · next hx => cases h; exact ⟨_, hx⟩
    · cases h
  · rintro ⟨t, ht⟩
    split
    · next hx => cases hx.symm.trans ht; rfl
    · next hx => cases hx.symm.trans ht

end EStateM

end LoopNest
