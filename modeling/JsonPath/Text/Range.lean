/-
  JsonPath.Text.Range — classes of code points given by ranges.

  A class is a list of ranges, both ends included, in ascending order.
-/

import JsonPath.Text

namespace JsonPath

abbrev RangeList := List (Nat × Nat)

def RangeList.contains (ranges : RangeList) (c : CodePoint) : Bool :=
  ranges.any fun (first, last) => first ≤ c.val && c.val ≤ last

end JsonPath
