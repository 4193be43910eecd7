/-
  JsonPath.Engine — the engine that parsers driven by a grammar run on.

  All backends but `rd` leave the reading to an engine. What it does with a source is its
  own matter: it answers with a tree, or with what it did not expect. It also draws the
  outline of a tree, whichever backend read it.

  What is not expected is told in the engine's words. `Unexpected.error` puts it into those
  of this library: an engine that came to the end of the source, or that names no offset,
  stopped at the end, and of the names that it gives those of terminals count.
-/

import JsonPath.Settings
import JsonPath.SyntaxError
import JsonPath.Tree

namespace JsonPath

/-- What a whole source may be. -/
inductive Goal where
  | path
  | sign
  | number
  deriving DecidableEq

/-- What an engine came upon. -/
inductive Obstacle where
  /-- Code points that no terminal begins with. -/
  | characters
  | terminal (name : Text)
  | endOfInput

structure Unexpected where
  obstacle : Obstacle
  offset? : Option Int
  /-- The names of what would have been accepted. -/
  accepted : List Text

/-- Whether the source ends there: a grammar has a name for its end, too. -/
def Obstacle.isEnd : Obstacle → Bool
  | characters => false
  | terminal name => name = Text.ofString "$END"
  | endOfInput => true

namespace Unexpected

/-- Where the engine stopped in that source. -/
def offset (source : Text) (u : Unexpected) : Int :=
  if u.obstacle.isEnd then source.length
  else
    match u.offset? with
    | some n => if n < 0 then source.length else n
    | none => source.length

def expected (u : Unexpected) : TerminalSet := .ofList (u.accepted.filterMap Terminal.ofGrammarName?)

def error (source : Text) (u : Unexpected) : SyntaxError := ⟨source, u.offset source, u.expected⟩

end Unexpected

structure Engine where
  parse : ParserKind → Goal → Text → Except Unexpected (Tree Token)
  outline : Tree Token → Text

end JsonPath
