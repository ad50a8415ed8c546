/-!
# Lists of names

A set is shown by the names of its elements, joined by bars.
-/

namespace TrapKernel

/-- The names of the elements that are present, joined by bars. -/
def joinNames : List String → String
  | [] => "(empty)"
  | names => " | ".intercalate names

end TrapKernel
