/-
  JsonPath.Path.Canonical — the canonical text of a path.

  There are no spaces between selectors, a wildcard is `[*]`, a bare key has a dot
  before it and a quoted key has none, except that `..` stays. A nested path follows
  its `@` with nothing to close it, so where it ends is not written.

  The text is put together by a walk over the paths that are still open, the innermost
  first; the recursive reading of it is `Selector.text` of a nested path. Of several
  selectors that have no text, the first in the order of writing is the error.
-/

import JsonPath.Key.Quoted
import JsonPath.Lexeme
import JsonPath.Path
import JsonPath.Text.Literal

namespace JsonPath

inductive TextError where
  | invalidBareKey (name : Text)
  | unknownKey (shown : Text)
  | unknownSelector (shown : Text)
  deriving DecidableEq

def TextError.message : TextError → Text
  | .invalidBareKey name => "Not a valid bare key: " ++ name.literal
  | .unknownKey shown => "Unknown key: " ++ shown
  | .unknownSelector shown => "Unknown selector: " ++ shown

def Key.isBareName (name : Text) : Bool := !name.isEmpty && name.all Lexeme.isKeyChar

/-- A key behind its lead, which is `.` for fields and `..` for descents. -/
def Key.text (lead : Text) : Key → Except TextError Text
  | .bare name => if isBareName name then .ok (lead ++ name) else .error (.invalidBareKey name)
  | .quoted name =>
    let lead : Text := if lead = Text.ofString "." then [] else lead
    .ok (lead ++ "[" ++ Quoted.encode name ++ "]")
  | .unknown shown => .error (.unknownKey shown)

/-- What a selector writes before any path that it holds. -/
def Selector.head : Selector → Except TextError Text
  | .root => .ok "$"
  | .descent key => key.text ".."
  | .wildcard => .ok "[*]"
  | .current _ => .ok "@"
  | .field key => key.text "."
  | .index position => .ok ("[" ++ Decimal.text position ++ "]")
  | .unknown shown => .error (.unknownSelector shown)

/-- The text of what is left of each open path, innermost first. -/
def Path.walk : List Path → Except TextError Text
  | [] => .ok []
  | [] :: outer => walk outer
  | (s :: p) :: outer => do
    let head ← s.head
    let rest ← walk (s.inner :: p :: outer)
    return head ++ rest
termination_by pending => (Path.size pending.flatten, pending.length)
decreasing_by
  · simp [Prod.lex_def]
  · simp [Path.size, Path.size_append, Selector.size_eq, Prod.lex_def]

def Path.text (p : Path) : Except TextError Text := walk [p]

def Selector.text (s : Selector) : Except TextError Text := do
  let head ← s.head
  let inner ← s.inner.text
  return head ++ inner

end JsonPath
