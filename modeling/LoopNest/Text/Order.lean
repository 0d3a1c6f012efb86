/-!
# Sets of names in order

A set of names is shown sorted by code points, each name once.
-/

namespace LoopNest
namespace Text

/-- The names in ascending order, each once. -/
def sortedNames (names : List String) : List String :=
  names.eraseDups.mergeSort fun a b => decide (a ≤ b)

end Text
end LoopNest
