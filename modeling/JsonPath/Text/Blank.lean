/-
  JsonPath.Text.Blank — the code points that count as space around a setting or a number.

  They are wider than what separates tokens: the spaces of every script, the line and
  paragraph separators, and the controls from U+0009 to U+000D and from U+001C to U+001F.
-/

import JsonPath.Text.Range

namespace JsonPath

def blankRanges : RangeList :=
  [
    (0x9, 0xd), (0x1c, 0x20), (0x85, 0x85), (0xa0, 0xa0), (0x1680, 0x1680), (0x2000, 0x200a),
    (0x2028, 0x2029), (0x202f, 0x202f), (0x205f, 0x205f), (0x3000, 0x3000)]

def CodePoint.isBlank (c : CodePoint) : Bool := blankRanges.contains c

/-- The text without the blanks around it. -/
def Text.trim (t : Text) : Text :=
  ((t.dropWhile CodePoint.isBlank).reverse.dropWhile CodePoint.isBlank).reverse

end JsonPath
