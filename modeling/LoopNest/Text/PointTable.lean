import LoopNest.Text.Ranges

/-!
# Tables of code points

The larger tables of a standard are kept as text.  A word of the text stands for one code point, or
for a run of them, and what belongs to it: `C0:41.300` gives the two points `41` and `300` to the
point `C0`, and `FF21+1A:41` gives each of the `1A` points from `FF21` on the point in the same
place from `41` on.  All numbers are hexadecimal.
-/

namespace LoopNest
namespace Text

/-- An entry: the first code point, how many of them, and the points that belong to the first. -/
structure PointRun where
  first : Nat
  count : Nat
  values : List Nat

/-- A table, in ascending order. -/
abbrev PointTable := List PointRun

/-- The entry that a word writes. -/
def PointRun.ofWord (word : String) : PointRun :=
  let (points, values) := match word.splitOn ":" with
    | [points, values] => (points, (values.splitOn ".").map ofHex)
    | _ => (word, [])
  match points.splitOn "+" with
  | [first, count] => ⟨ofHex first, ofHex count, values⟩
  | _ => ⟨ofHex points, 1, values⟩

namespace PointTable

/-- The table that lines of words write. -/
def ofLines (lines : List String) : PointTable :=
  lines.flatMap fun line => (line.splitOn " ").map PointRun.ofWord

/-- The entry that a code point lies in. -/
def find? (table : PointTable) (point : Nat) : Option PointRun :=
  List.find? (fun run => run.first ≤ point && point < run.first + run.count) table

/-- The points that belong to a code point: those of its run, moved by its place in the run. -/
def values? (table : PointTable) (point : Nat) : Option (List Nat) :=
  (table.find? point).map fun run => run.values.map (· + (point - run.first))

end PointTable
end Text
end LoopNest
