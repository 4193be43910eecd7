/-
  JsonPath.Reading — sources read as a whole.

  `Rule.read` runs a rule on a source from its start; where the rule has no value, the
  furthest misses make the error. That is how the backend `rd` reads. The others are
  parsers of an engine, and what reads with any backend takes the engine, too.

  `Engine.ofRules` is the engine where no other is given. It goes by the rules as well, so
  it reads the same language into the same trees and stops at the same offset. It reports
  as one does that a grammar drives: the end of the input is not among what it would have
  accepted.
-/

import JsonPath.Engine
import JsonPath.Meaning
import JsonPath.Rule.Chain

namespace JsonPath

def Rule.read {α : Type} (r : Rule Cursor α) (source : Text) : Except SyntaxError α :=
  let reply := r (.start source)
  match reply.value with
  | some a => .ok a
  | none => .error (.ofFurthest source reply.stop.offset (Furthest.ofMisses reply.misses))

def Goal.rule : Goal → Rule Cursor (Tree Token)
  | path => Rule.path
  | sign => Rule.anchored Rule.sign
  | number => Rule.anchored Rule.number

/-! ## Backends -/

/-- What an engine says that goes by the rules and came upon that error. -/
def Unexpected.ofError (e : SyntaxError) : Unexpected where
  obstacle := if e.offset = e.source.length then .endOfInput else .characters
  offset? := some e.offset
  accepted := (e.expected.erase .endOfInput).toList.map Terminal.grammarName

def Engine.ofRules : Engine where
  parse _ goal source := (goal.rule.read source).mapError .ofError
  outline t := t.unplaced.outline

def Backend.read (b : Backend) (goal : Goal) (source : Text) (engine : Engine := .ofRules) :
    Except SyntaxError (Tree Token) :=
  match b with
  | rd => goal.rule.read source
  | driven kind => (engine.parse kind goal source).mapError (·.error source)

/-! ## Expressions -/

inductive ReadError where
  | backend (e : BackendError)
  | malformed (e : SyntaxError)
  | meaningless (e : MeaningError)
  deriving DecidableEq

namespace ReadError

def message : ReadError → Text
  | backend e => e.message
  | malformed e => e.message
  | meaningless e => e.message

end ReadError

/-- Reads the tree of a path with the backend that is asked for or set. -/
def readTree (env : Environment) (asked : Option Text) (source : Text) (engine : Engine := .ofRules) :
    Except ReadError (Tree Token) := do
  let backend ← (env.resolveBackend asked).mapError .backend
  (backend.read .path source engine).mapError .malformed

/-- The path that a tree means. -/
def Tree.path (t : Tree Token) : Except ReadError Path :=
  match t.unplaced.expression with
  | .ok (.path p) => .ok p
  | .ok _ => .error (.meaningless (.notExpression t.label?))
  | .error e => .error (.meaningless e)

def readPath (env : Environment) (asked : Option Text) (source : Text) (engine : Engine := .ofRules) :
    Except ReadError Path := do
  let tree ← readTree env asked source engine
  tree.path

/-- Whether the source is a path. Only that it is malformed makes it none. -/
def isValidPath (env : Environment) (asked : Option Text) (source : Text) (engine : Engine := .ofRules) :
    Except ReadError Bool :=
  match readPath env asked source engine with
  | .ok _ => .ok true
  | .error (.malformed _) => .ok false
  | .error e => .error e

/-- Reads what the goal says and tells what it means. -/
def readExpression (goal : Goal) (source : Text) : Except ReadError Expression := do
  let tree ← (goal.rule.read source).mapError .malformed
  tree.unplaced.expression.mapError .meaningless

end JsonPath
