/-!
The integers that have a place in 64 bits.
-/

namespace Codemod.Text

/-- The integer has a place in 64 bits, one of them for the sign. -/
def fits64 (n : Int) : Bool :=
  -9223372036854775808 ≤ n && n ≤ 9223372036854775807

end Codemod.Text
