/-
  JsonPath.SyntaxError — why a source is no expression.

  The error names the furthest offset that reading reached and the terminals that
  would have been accepted there. Where nothing was missed yet, it names the offset
  that the reader is at, and no terminal. The message lists the terminals by their
  spellings, in the order of their code points.
-/

import JsonPath.Decimal
import JsonPath.Furthest
import JsonPath.Location
import JsonPath.Text.Literal

namespace JsonPath

structure SyntaxError where
  source : Text
  offset : Int
  expected : TerminalSet
  deriving DecidableEq

/-- The order of dictionaries, by code points. -/
def Text.precedes : Text → Text → Bool
  | [], _ => true
  | _ :: _, [] => false
  | a :: s, b :: t => a.val < b.val || (a.val = b.val && precedes s t)

namespace SyntaxError

/-- The error of a reader at `offset` that got as far as `f` says. -/
def ofFurthest (source : Text) (offset : Int) (f : Furthest) : SyntaxError :=
  if f.offset < 0 then ⟨source, offset, ∅⟩ else ⟨source, f.offset, f.expected⟩

def location (e : SyntaxError) : Location := .ofOffset e.source e.offset

/-- What stands at the offset, or nothing at the end of the input. -/
def found (e : SyntaxError) : Text := slice e.source e.offset (e.offset + 1)

def expectation (e : SyntaxError) : Text :=
  match (e.expected.toList.map Terminal.spelling).mergeSort Text.precedes with
  | [] => "nothing"
  | [spelling] => spelling
  | spellings => "one of " ++ Text.join ", " spellings

def message (e : SyntaxError) : Text :=
  let found : Text := if e.found = [] then ("end of input" : Text) else e.found.literal
  "Unexpected " ++ found ++ ", expected " ++ e.expectation ++
    " at line " ++ Decimal.numeral e.location.line ++ ", col " ++ Decimal.signed e.location.column

end SyntaxError

end JsonPath
