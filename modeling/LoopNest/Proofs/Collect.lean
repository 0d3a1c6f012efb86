import Mathlib.Data.List.Nodup

/-!
# Collecting

Many passes go through a list and collect a few things for each entry.  Where the entries have
different keys, what is collected for one key comes from one entry.

* `flatMap_eq_of_unique`: one entry contributes everything.
* `flatMap_under`: the case of contributions that are filed under names.
-/

namespace LoopNest

variable {α β γ : Type}

/-- Where keys differ and only entries with one key contribute, one entry contributes everything. -/
theorem flatMap_eq_of_unique {key : α → γ} {values : α → List β} {l : List α}
    (hkeys : (l.map key).Nodup) {a : α} (ha : a ∈ l)
    (hother : ∀ b ∈ l, key b ≠ key a → values b = []) : l.flatMap values = values a := by
  induction l with
  | nil => exact absurd ha List.not_mem_nil
  | cons b l ih =>
    rw [List.map_cons, List.nodup_cons] at hkeys
    rw [List.flatMap_cons]
    rcases List.mem_cons.mp ha with rfl | ha
    · have hrest : l.flatMap values = [] := by
        refine List.flatMap_eq_nil_iff.mpr fun b hb => hother b (List.mem_cons_of_mem _ hb) ?_
        intro h
        exact hkeys.1 (h ▸ List.mem_map_of_mem hb)
      rw [hrest, List.append_nil]
    · have hne : key b ≠ key a := by
        intro h
        exact hkeys.1 (h ▸ List.mem_map_of_mem ha)
      rw [hother b List.mem_cons_self hne, List.nil_append]
      exact ih hkeys.2 ha fun c hc => hother c (List.mem_cons_of_mem _ hc)

/-- A list under one name and nothing under the others. -/
def under (x : String) (values : List α) (y : String) : List α :=
  if y = x then values else []

@[simp] theorem under_self (x : String) (values : List α) : under x values x = values :=
  if_pos rfl

theorem under_of_ne {x y : String} (h : y ≠ x) (values : List α) : under x values y = [] :=
  if_neg h

/-- Where names differ, what is collected under a name comes from the entry with that name. -/
theorem flatMap_under (name : α → String) (values : α → List β) {l : List α}
    (hnames : (l.map name).Nodup) {a : α} (ha : a ∈ l) :
    (l.flatMap fun b => under (name b) (values b) (name a)) = values a := by
  rw [flatMap_eq_of_unique hnames ha fun b _ hne => under_of_ne hne.symm _, under_self]

/-- Collecting one thing for each entry that meets a condition. -/
theorem flatMap_if (p : α → Bool) (f : α → β) (l : List α) :
    (l.flatMap fun a => if p a then [f a] else []) = (l.filter p).map f := by
  induction l with
  | nil => rfl
  | cons a l ih =>
    rw [List.flatMap_cons, List.filter_cons, ih]
    split <;> simp

end LoopNest
