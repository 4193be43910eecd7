/-
  JsonPath.Session — reading step by step.

  A session is a source, an offset in it and the furthest misses so far. Each operation
  moves the offset and adds its misses; nothing takes a miss back. The operations are
  the probes and rules that reading is made of, called at the offset, and a few that
  only look or move.

  The offset may be anything. Past the end of the source nothing matches, and `advance`
  comes back to the end. Before the start of the source, reading is as
  `JsonPath.Place.Wrapped` says, and a call ends at its first blind miss: that is an
  error, and the session stays where it happened.
-/

import JsonPath.Place.Wrapped
import JsonPath.Reading

namespace JsonPath

structure Session where
  source : Text
  offset : Int
  furthest : Furthest
  deriving DecidableEq

/-- The rules that a session can call by name. -/
inductive RuleName where
  | chain
  | selector
  | root
  | descent
  | wildcard
  | field
  | index
  | bareKey
  | bracketKey
  | sign
  | number
  deriving DecidableEq

/-- What a session can call at its offset. -/
inductive Call where
  | blanks
  /-- Takes the terminal right at the offset. -/
  | probe (t : Terminal)
  /-- As `probe`, for a terminal that must be a mark. -/
  | probeMark (t : Terminal)
  /-- Takes the terminal behind any blanks. -/
  | take (t : Terminal)
  /-- As `take`, for a terminal that must be a mark. -/
  | takeMark (t : Terminal)
  /-- Probes for the end behind any blanks, and stays behind them in either case. -/
  | skipToEnd
  | run (r : RuleName)
  | attempt (r : RuleName)
  | anchored (r : RuleName)
  /-- Reads a whole path. -/
  | path
  deriving DecidableEq

inductive Operation where
  | seek (offset : Int)
  | position
  | peek (ahead : Int)
  | advance (count : Int)
  /-- Whether nothing remains, without a miss if something does. -/
  | isAtEnd
  /-- Counts the terminal as missed at the offset. -/
  | miss (t : Terminal)
  /-- The error as of now. -/
  | error
  | call (c : Call)
  deriving DecidableEq

/-- Whether an operation reads something up to the end of the input. -/
def Operation.readsWhole : Operation → Bool
  | .call (.anchored _) | .call .path => true
  | _ => false

/-- Why an operation has no result. -/
inductive OperationError where
  | malformed (e : SyntaxError)
  | negativeAdvance (count : Int)
  | position (e : PositionError)
  | notAMark
  deriving DecidableEq

def OperationError.message : OperationError → Text
  | .malformed e => e.message
  | .negativeAdvance count =>
    match Decimal.textInt count with
    | .ok digits => "advance() requires n >= 0, got " ++ digits
    | .error tooLong => tooLong.message
  | .position e => e.message "string"
  | .notAMark => "only a mark has a spelling"

inductive Outcome where
  | nothing
  | truth (b : Bool)
  | position (offset : Int)
  | text (t : Text)
  | token (t : Token)
  | tree (t : Tree Token)
  | trees (ts : List (Tree Token))
  | error (e : OperationError)
  deriving DecidableEq

/-! ## Rules by name -/

section Rules

variable {γ : Type} [Place γ]

def RuleName.rule : RuleName → Rule γ Outcome
  | chain => Outcome.trees <$> Rule.chain
  | selector => Outcome.tree <$> Rule.selector
  | root => Outcome.tree <$> Rule.root
  | descent => Outcome.tree <$> Rule.descent
  | wildcard => Outcome.tree <$> Rule.wildcard
  | field => Outcome.tree <$> Rule.field
  | index => Outcome.tree <$> Rule.index
  | bareKey => Outcome.tree <$> Rule.bareKey
  | bracketKey => Outcome.tree <$> Rule.bracketKey
  | sign => Outcome.tree <$> Rule.sign
  | number => Outcome.tree <$> Rule.number

def Call.rule : Call → Rule γ Outcome
  | blanks => Outcome.truth <$> Rule.blanks
  | probe .endOfInput => Outcome.truth <$> Rule.test (Rule.probe .endOfInput)
  | probe t => Outcome.token <$> Rule.probe t
  | probeMark (.mark m) => Outcome.token <$> Rule.probe m
  | probeMark _ => return .error .notAMark
  | take .endOfInput => Outcome.truth <$> Rule.test Rule.endOfInput
  | take t => Outcome.token <$> Rule.spaced (Rule.probe t)
  | takeMark (.mark m) => Outcome.token <$> Rule.mark m
  | takeMark _ => do
    let _ ← Rule.blanks
    return .error .notAMark
  | skipToEnd => do
    let _ ← Rule.blanks
    Outcome.truth <$> Rule.test (Rule.probe .endOfInput)
  | run r => r.rule
  | attempt r => Rule.attempt r.rule
  | anchored r => Rule.anchored r.rule
  | path => Outcome.tree <$> Rule.path

end Rules

namespace Session

def start (source : Text) : Session := ⟨source, 0, .start⟩

def error (s : Session) : SyntaxError := .ofFurthest s.source s.offset s.furthest

/-- The code point so far ahead of the offset, as a text, which is empty past the end. -/
def peek (s : Session) (ahead : Int) : Outcome :=
  if s.source.length ≤ s.offset + ahead then .text []
  else
    match elementAt s.source (s.offset + ahead) with
    | .ok c => .text [c]
    | .error e => .error (.position e)

/-! ## Operations -/

/-- A reply up to its first blind miss, if there is one: that one counts for nothing but the end. -/
def upToBlind (source : Text) (reply : Reply Int Outcome) : Reply Int Outcome :=
  match reply.misses.dropWhile (fun m => !m.isBlind source) with
  | [] => reply
  | m :: _ =>
    match elementAt source m.offset with
    | .ok _ => reply
    | .error e =>
      ⟨some (.error (.position e)), m.offset, reply.misses.takeWhile (fun m => !m.isBlind source)⟩

/-- What a call at the offset replies. -/
def call (s : Session) (c : Call) : Reply Int Outcome :=
  if 0 ≤ s.offset then (c.rule (Cursor.seek s.source s.offset.toNat)).atOffset
  else upToBlind s.source (c.rule (WrappedCursor.mk s.source s.offset)).atOffset

/-- What an operation replies. Without a value it has failed. -/
def reply (s : Session) : Operation → Reply Int Outcome
  | .seek offset => ⟨some .nothing, offset, []⟩
  | .position => ⟨some (.position s.offset), s.offset, []⟩
  | .peek ahead => ⟨some (s.peek ahead), s.offset, []⟩
  | .advance (.ofNat count) =>
    ⟨some (.text (slice s.source s.offset (s.offset + count))), min (s.offset + count) s.source.length, []⟩
  | .advance (.negSucc n) => ⟨some (.error (.negativeAdvance (.negSucc n))), s.offset, []⟩
  | .isAtEnd => ⟨some (.truth (s.source.length ≤ s.offset)), s.offset, []⟩
  | .miss t => ⟨some .nothing, s.offset, [⟨s.offset, t⟩]⟩
  | .error => ⟨some (.error (.malformed s.error)), s.offset, []⟩
  | .call c => s.call c

/-- The session that a reply leaves behind. -/
def after (s : Session) (reply : Reply Int Outcome) : Session :=
  { s with offset := reply.stop, furthest := s.furthest.noteAll reply.misses }

/-- Performs an operation. One that reads something whole ends with an error if it
    fails; any other comes to nothing. -/
def perform (s : Session) (op : Operation) : Outcome × Session :=
  let reply := s.reply op
  let next := s.after reply
  match reply.value with
  | some o => (o, next)
  | none => (if op.readsWhole then .error (.malformed next.error) else .nothing, next)

/-- Performs operations in turn. -/
def performAll (s : Session) : List Operation → List (Outcome × Session)
  | [] => []
  | op :: ops =>
    let (o, next) := s.perform op
    (o, next) :: next.performAll ops

end Session

end JsonPath
