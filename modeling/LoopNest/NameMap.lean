/-!
# Tables keyed by names

A table keeps its entries in the order in which their names were first given.  Writing under a name
that is present replaces the value where it stands.
-/

namespace LoopNest

/-- A table keyed by names, in order of first entry. -/
structure NameMap (α : Type) where
  entries : List (String × α)
  deriving Repr

namespace NameMap

variable {α β : Type}

/-- The table without entries. -/
def empty : NameMap α := ⟨[]⟩

instance : Inhabited (NameMap α) := ⟨empty⟩

/-- The value under a name. -/
def find? (table : NameMap α) (name : String) : Option α :=
  table.entries.lookup name

/-- The name has a value. -/
def contains (table : NameMap α) (name : String) : Bool :=
  (table.find? name).isSome

/-- The names of the table, in order. -/
def names (table : NameMap α) : List String :=
  table.entries.map Prod.fst

/-- Puts a value under a name, at the end if the name is new. -/
def insert (table : NameMap α) (name : String) (value : α) : NameMap α :=
  if table.contains name then
    ⟨table.entries.map fun entry => if entry.1 = name then (name, value) else entry⟩
  else ⟨table.entries ++ [(name, value)]⟩

/-- A table with the given entries, a later one overriding an earlier one. -/
def ofList (entries : List (String × α)) : NameMap α :=
  entries.foldl (fun table entry => table.insert entry.1 entry.2) empty

/-- The same names with other values. -/
def mapValues (f : α → β) (table : NameMap α) : NameMap β :=
  ⟨table.entries.map fun entry => (entry.1, f entry.2)⟩

end NameMap
end LoopNest
