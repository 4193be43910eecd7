/-
  JsonPath.Settings — which backend reads, and whether to debug.

  A backend that is asked for by name must be the name of one, exactly. Without one,
  the environment decides, where case and surrounding blanks do not matter and an empty
  name is none; without that too it is `rd`. Debugging is on for three values of its
  variable, in any case but without blanks.
-/

import JsonPath.Text.Blank
import JsonPath.Text.Literal
import JsonPath.Text.Lowercase

namespace JsonPath

/-- The kinds of parsers that a grammar drives. -/
inductive ParserKind where
  | lalr
  | earley
  deriving DecidableEq

/-- `rd` reads by rules in order; every other backend is a parser that a grammar drives. -/
inductive Backend where
  | rd
  | driven (kind : ParserKind)
  deriving DecidableEq

/-- The two variables that matter, where they are set. -/
structure Environment where
  backend : Option Text
  debug : Option Text

inductive BackendError where
  | unknownBackend (name : Text)
  | unknownKind (name : Text)
  /-- A backend was asked for with no name at all. -/
  | nameless
  deriving DecidableEq

namespace ParserKind

def all : List ParserKind := [lalr, earley]

def name : ParserKind → Text
  | lalr => "lalr"
  | earley => "earley"

end ParserKind

namespace Backend

def all : List Backend := rd :: ParserKind.all.map driven

def name : Backend → Text
  | rd => "rd"
  | driven kind => kind.name

end Backend

def BackendError.message : BackendError → Text
  | .unknownBackend name =>
    "Unknown parser backend " ++ name.literal ++ ", expected one of " ++ Text.join ", " (Backend.all.map Backend.name)
  | .nameless =>
    "Unknown parser backend [], expected one of " ++ Text.join ", " (Backend.all.map Backend.name)
  | .unknownKind name =>
    "Unknown parser kind " ++ name.literal ++ ", expected one of " ++
      Text.join ", " (ParserKind.all.map ParserKind.name)

namespace Backend

def ofName (name : Text) : Except BackendError Backend :=
  match all.find? (·.name = name) with
  | some b => .ok b
  | none => .error (.unknownBackend name)

def ofKind (name : Text) : Except BackendError Backend :=
  match ParserKind.all.find? (·.name = name) with
  | some kind => .ok (driven kind)
  | none => .error (.unknownKind name)

end Backend

namespace Environment

/-- The name of the backend, where none is asked for. -/
def backendName (env : Environment) : Text :=
  match (env.backend.getD []).trim.lower with
  | [] => Backend.rd.name
  | name => name

def resolveBackend (env : Environment) (asked : Option Text) : Except BackendError Backend :=
  Backend.ofName (asked.getD env.backendName)

def debugEnabled (env : Environment) : Bool :=
  (env.debug.getD []).lower ∈ [Text.ofString "1", Text.ofString "true", Text.ofString "yes"]

end Environment

end JsonPath
