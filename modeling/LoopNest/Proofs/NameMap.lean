import LoopNest.NameMap
import Mathlib.Data.List.Nodup
import Mathlib.Tactic.Tauto

/-!
# Looking up what was entered

A table is known by its look-ups.  Entering a value changes the look-up of its own name and of no
other, and a table made from a list whose names differ gives every name the value it has in the
list.

* `find?_insert`: the look-up after an entry.
* `contains_iff_mem_names`: the names of a table.
* `find?_ofList`: the look-up in a table made from a list.
* `contains_ofList`: the names of a table made from a list.
* `eq_of_find?`: a table is its names and its look-ups.
-/

namespace LoopNest
namespace NameMap

variable {α : Type}

@[simp] theorem find?_empty (x : String) : (empty : NameMap α).find? x = none := rfl

theorem contains_eq_true_iff {table : NameMap α} {x : String} :
    table.contains x = true ↔ ∃ value, table.find? x = some value := by
  rw [contains, Option.isSome_iff_exists]

theorem lookup_replace (entries : List (String × α)) (x y : String) (value : α) :
    (entries.map fun entry => if entry.1 = x then (x, value) else entry).lookup y
      = if y = x then (entries.lookup x).map fun _ => value else entries.lookup y := by
  induction entries with
  | nil => simp
  | cons entry entries ih =>
    obtain ⟨z, old⟩ := entry
    rw [List.map_cons, List.lookup_cons, List.lookup_cons, ih]
    by_cases hzx : z = x
    · subst hzx
      by_cases hyz : y = z
      · subst hyz; simp
      · have hbeq : (y == z) = false := beq_false_of_ne hyz
        simp [hyz, hbeq, List.lookup_cons]
    · by_cases hyx : y = x
      · subst hyx
        have hbeq : (y == z) = false := beq_false_of_ne fun h => hzx h.symm
        simp [hzx, hbeq]
      · simp [hzx, hyx, List.lookup_cons]

/-- Entering a value changes the look-up of its own name only. -/
@[simp] theorem find?_insert (table : NameMap α) (x y : String) (value : α) :
    (table.insert x value).find? y = if y = x then some value else table.find? y := by
  unfold insert
  split
  · rename_i hx
    obtain ⟨old, hold⟩ := contains_eq_true_iff.mp hx
    rw [find?, lookup_replace]
    rw [find?] at hold
    rw [hold]
    rfl
  · rename_i hx
    have hnone : table.entries.lookup x = none := by
      rw [contains, find?, Bool.not_eq_true, Option.isSome_eq_false_iff] at hx
      exact Option.isNone_iff_eq_none.mp hx
    rw [find?, List.lookup_append, List.lookup_cons, List.lookup_nil]
    by_cases hyx : y = x
    · subst hyx
      rw [hnone]
      simp
    · have hbeq : (y == x) = false := beq_false_of_ne hyx
      rw [hbeq, if_neg hyx, Option.or_none]
      rfl

@[simp] theorem contains_insert (table : NameMap α) (x y : String) (value : α) :
    (table.insert x value).contains y = (y == x || table.contains y) := by
  rw [contains, find?_insert, contains]
  by_cases hyx : y = x
  · simp [hyx]
  · simp [hyx]

theorem contains_iff_mem_names {table : NameMap α} {x : String} :
    table.contains x = true ↔ x ∈ table.names := by
  obtain ⟨entries⟩ := table
  unfold contains find? names
  induction entries with
  | nil => simp
  | cons entry entries ih =>
    rw [List.lookup_cons, List.map_cons, List.mem_cons, ← ih]
    cases hx : x == entry.1 with
    | true => simp [beq_iff_eq.mp hx]
    | false => simp [beq_eq_false_iff_ne.mp hx]

/-- A new name goes to the end. -/
theorem names_insert_of_not_contains {table : NameMap α} {x : String}
    (hx : table.contains x = false) (value : α) :
    (table.insert x value).names = table.names ++ [x] := by
  rw [insert, hx, if_neg (by decide), names, List.map_append]
  rfl

/-- An old name stays where it is. -/
theorem names_insert_of_contains {table : NameMap α} {x : String} (hx : table.contains x = true)
    (value : α) :
    (table.insert x value).names = table.names := by
  rw [insert, if_pos hx, names, names, List.map_map]
  refine List.map_congr_left fun entry _ => ?_
  by_cases h : entry.1 = x
  · simp [h]
  · simp [h]

/-! ## Tables made from lists -/

theorem find?_foldl_insert_of_notMem {entries : List (String × α)} {x : String}
    (hx : x ∉ entries.map Prod.fst) (table : NameMap α) :
    (entries.foldl (fun table entry => table.insert entry.1 entry.2) table).find? x
      = table.find? x := by
  induction entries generalizing table with
  | nil => rfl
  | cons entry entries ih =>
    rw [List.map_cons, List.mem_cons, not_or] at hx
    rw [List.foldl_cons, ih hx.2, find?_insert, if_neg hx.1]

theorem find?_foldl_insert {entries : List (String × α)} (hnames : (entries.map Prod.fst).Nodup)
    {x : String} {value : α} (hmem : (x, value) ∈ entries) (table : NameMap α) :
    (entries.foldl (fun table entry => table.insert entry.1 entry.2) table).find? x
      = some value := by
  induction entries generalizing table with
  | nil => exact absurd hmem List.not_mem_nil
  | cons entry entries ih =>
    rw [List.map_cons, List.nodup_cons] at hnames
    rw [List.foldl_cons]
    rcases List.mem_cons.mp hmem with rfl | hmem
    · rw [find?_foldl_insert_of_notMem hnames.1, find?_insert, if_pos rfl]
    · exact ih hnames.2 hmem _

/-- A table made from a list whose names differ gives each name its value in the list. -/
theorem find?_ofList {entries : List (String × α)} (hnames : (entries.map Prod.fst).Nodup)
    {x : String} {value : α} (hmem : (x, value) ∈ entries) :
    (ofList entries).find? x = some value :=
  find?_foldl_insert hnames hmem empty

theorem contains_foldl_insert (entries : List (String × α)) (table : NameMap α) (x : String) :
    (entries.foldl (fun table entry => table.insert entry.1 entry.2) table).contains x = true ↔
      x ∈ entries.map Prod.fst ∨ table.contains x = true := by
  induction entries generalizing table with
  | nil => simp
  | cons entry entries ih =>
    rw [List.foldl_cons, ih, contains_insert, List.map_cons, List.mem_cons, Bool.or_eq_true,
      beq_iff_eq]
    tauto

/-- A table made from a list has the names of the list. -/
theorem contains_ofList {entries : List (String × α)} {x : String} :
    (ofList entries).contains x = true ↔ x ∈ entries.map Prod.fst := by
  rw [ofList, contains_foldl_insert]
  exact or_iff_left (by simp [contains])

theorem foldl_insert_eq {entries : List (String × α)} (hnames : (entries.map Prod.fst).Nodup)
    {table : NameMap α} (hnew : ∀ x ∈ entries.map Prod.fst, x ∉ table.names) :
    entries.foldl (fun table entry => table.insert entry.1 entry.2) table
      = ⟨table.entries ++ entries⟩ := by
  induction entries generalizing table with
  | nil => rw [List.foldl_nil, List.append_nil]
  | cons entry entries ih =>
    rw [List.map_cons, List.nodup_cons] at hnames
    rw [List.map_cons, List.forall_mem_cons] at hnew
    have hinserted : table.insert entry.1 entry.2 = ⟨table.entries ++ [entry]⟩ :=
      if_neg (contains_iff_mem_names.not.mpr hnew.1)
    have hrest : ∀ x ∈ entries.map Prod.fst, x ∉ (table.insert entry.1 entry.2).names := by
      intro x hx hmem
      rw [hinserted, names, List.map_append, List.mem_append, List.map_singleton,
        List.mem_singleton] at hmem
      rcases hmem with hmem | rfl
      · exact hnew.2 x hx hmem
      · exact hnames.1 hx
    rw [List.foldl_cons, ih hnames.2 hrest, hinserted, List.append_assoc, List.singleton_append]

/-- A table made from a list whose names differ is that list. -/
theorem ofList_eq {entries : List (String × α)} (hnames : (entries.map Prod.fst).Nodup) :
    ofList entries = ⟨entries⟩ := by
  have hfresh : ∀ x ∈ entries.map Prod.fst, x ∉ (empty : NameMap α).names :=
    fun _ _ => List.not_mem_nil
  exact foldl_insert_eq hnames hfresh

/-! ## Tables with different names -/

/-- The entries of a table whose names differ are its look-ups. -/
theorem find?_of_mem_entries {table : NameMap α} (hnames : table.names.Nodup) {entry : String × α}
    (h : entry ∈ table.entries) : table.find? entry.1 = some entry.2 := by
  obtain ⟨entries⟩ := table
  unfold find?
  unfold names at hnames
  dsimp only at h hnames ⊢
  induction entries with
  | nil => exact absurd h List.not_mem_nil
  | cons first entries ih =>
    rw [List.map_cons, List.nodup_cons] at hnames
    rcases List.mem_cons.mp h with rfl | h
    · rw [List.lookup_cons, beq_self_eq_true]
    · have hne : entry.1 ≠ first.1 := fun heq => hnames.1 (heq ▸ List.mem_map_of_mem h)
      rw [List.lookup_cons, beq_false_of_ne hne]
      exact ih hnames.2 h

/-- **Two tables with the same names and the same look-ups are the same**, if names differ. -/
theorem eq_of_find? {a b : NameMap α} (hnodup : a.names.Nodup) (hnames : a.names = b.names)
    (hfind : ∀ x ∈ a.names, a.find? x = b.find? x) : a = b := by
  have hentries : a.entries = b.entries := by
    refine List.ext_getElem (by simpa [names] using congrArg List.length hnames) fun i hi hi' => ?_
    have hname : a.entries[i].1 = b.entries[i].1 := by
      have hat := List.getElem_of_eq hnames (i := i) (by simpa [names] using hi)
      simpa [names] using hat
    have ha := find?_of_mem_entries hnodup (List.getElem_mem hi)
    have hb := find?_of_mem_entries (hnames ▸ hnodup) (List.getElem_mem hi')
    rw [← hname, ← hfind _ (List.mem_map_of_mem (List.getElem_mem hi)), ha] at hb
    exact Prod.ext hname (Option.some_inj.mp hb)
  cases a
  cases b
  cases hentries
  rfl

end NameMap
end LoopNest
