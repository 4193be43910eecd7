/-
  JsonPath.Comparison — the comparison signs reserved for filter expressions.

  `all` lists each sign before any sign whose spelling begins its own, `>=` before
  `>` for one, so the first of `all` that a text starts with is the longest.
-/

import JsonPath.Text

namespace JsonPath

inductive ComparisonSign where
  | equal
  | notEqual
  | regex
  | atLeast
  | greater
  | atMost
  | less
  | isIn
  | notIn
  | size
  | noneOf
  | anyOf
  | subsetOf
  deriving DecidableEq

namespace ComparisonSign

def all : List ComparisonSign :=
  [equal, notEqual, regex, atLeast, greater, atMost, less, isIn, notIn, size, noneOf, anyOf, subsetOf]

def spelling : ComparisonSign → Text
  | equal => "=="
  | notEqual => "!="
  | regex => "~="
  | atLeast => ">="
  | greater => ">"
  | atMost => "<="
  | less => "<"
  | isIn => "in"
  | notIn => "nin"
  | size => "size"
  | noneOf => "noneOf"
  | anyOf => "anyOf"
  | subsetOf => "subsetOf"

/-- The name that reports give a sign. -/
def name : ComparisonSign → Text
  | equal => "EQ"
  | notEqual => "NE"
  | regex => "REGEX"
  | atLeast => "GE"
  | greater => "GT"
  | atMost => "LE"
  | less => "LT"
  | isIn => "IN"
  | notIn => "NIN"
  | size => "SIZE"
  | noneOf => "NONE_OF"
  | anyOf => "ANY_OF"
  | subsetOf => "SUBSET_OF"

def ofSpelling? (t : Text) : Option ComparisonSign := all.find? (·.spelling = t)

theorem mem_all (g : ComparisonSign) : g ∈ all := by cases g <;> decide

theorem ofSpelling?_spelling (g : ComparisonSign) : ofSpelling? g.spelling = some g := by
  cases g <;> decide

end ComparisonSign

end JsonPath
