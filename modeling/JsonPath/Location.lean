/-
  JsonPath.Location — lines and columns.

  Lines and columns count from 1, and only a line feed ends a line: a carriage
  return is one more column. A location is told in two ways. `Location.after` moves
  along with the reader, one code point at a time; `Location.ofOffset` looks back
  from an offset, at the line feeds before it and at how far the last one is.

  The second also answers for an offset outside the text. One past the end lies on the
  last line, as many columns on as it is past the end. A negative one has the line of
  the position that it names from the end, but its column is told from the offset
  itself, and so is not above zero.
-/

import JsonPath.Position
import JsonPath.Text

namespace JsonPath

structure Location where
  line : Nat
  column : Int
  deriving DecidableEq

namespace Location

def first : Location := ⟨1, 1⟩

/-- The location of what follows `c`, where `c` stands at `l`. -/
def after (l : Location) (c : CodePoint) : Location :=
  if c = '\n' then ⟨l.line + 1, 1⟩ else ⟨l.line, l.column + 1⟩

/-- The offset at which the last line of `before` starts. -/
def lineStart (before : Text) : Nat :=
  before.length - (before.reverse.takeWhile fun c => c ≠ .ofChar '\n').length

def ofOffset (source : Text) (offset : Int) : Location :=
  let before := source.take (countBefore source offset)
  ⟨before.count (.ofChar '\n') + 1, offset - lineStart before + 1⟩

end Location

end JsonPath
