/-
  JsonPath.Meaning — what a parse tree means.

  A whole tree means an expression: a path, a comparison sign or a number literal. Its
  parts mean selectors, keys and texts. `Tree.meaning` goes from the leaves up and from
  left to right: the parts of a node are told before the node itself, so the first
  fault in that order is the error, whichever faults there are elsewhere. A node is
  told from its label and its parts by `Label.combine`, which is where all faults but
  the label of the whole tree arise.

  Reading puts every part where its sort belongs; a tree built by hand may not. A label
  fixes how many parts its node has, not of which sort they are. What stands for a
  selector or a key and is none becomes an unknown one, which has what the part shows
  as. What stands for a text and is none is written out: a path as its canonical text,
  a sign and a number as they are spelled, all else as it shows. A node of a label that
  means nothing only shows, and a leaf whose kind is the name of a label means what a
  node of that label with nothing but the leaf would.

  What walks a tree has operations of its own beside those for the labels. A label or a
  kind that is the name of one of these would call it, which is not told here. No label
  that reading uses is such a name, nor is the name of a terminal.
-/

import JsonPath.Number
import JsonPath.Path.Canonical
import JsonPath.Path.Display
import JsonPath.Tree

namespace JsonPath

inductive Expression where
  | path (p : Path)
  | sign (g : ComparisonSign)
  | number (n : NumberLiteral)
  deriving DecidableEq

inductive Meaning where
  | expression (e : Expression)
  | selector (s : Selector)
  | key (k : Key)
  | leaf (l : Leaf)
  /-- Nothing but what it shows as. -/
  | other (shown : Text)
  deriving DecidableEq

/-- A label and how many parts its node has, where it ought to have another number of them. -/
structure Miscount where
  label : Label
  given : Nat
  deriving DecidableEq

inductive MeaningError where
  /-- The whole tree has this label, or is a leaf. -/
  | notExpression (label : Option Label)
  | partCount (m : Miscount)
  | notUnsigned (text : Text)
  | notSign (text : Text)
  | badLiteral (e : Key.Quoted.DecodeError)
  /-- A path stands for a text and has none. -/
  | noText (e : TextError)
  deriving DecidableEq

def Key.Quoted.DecodeError.message : DecodeError → Text
  | .notQuoted literal => "Not a quoted string literal: " ++ literal.literal
  | .unknownEscape letter => "Invalid escape sequence \\" ++ [letter]

/-- What the one part of a node of that label is called, if it has one. -/
def Label.partName? : Label → Option Text
  | descent | field => some "key"
  | index => some "value"
  | bareKey => some "name"
  | quotedKey => some "literal"
  | sign | number => some "tok"
  | _ => none

/-- The parts are told as arguments of a call, and what is called is one of them itself. -/
def Miscount.message (m : Miscount) : Text :=
  let call := "Lower." ++ m.label.name ++ "()"
  let given := " but " ++ Decimal.numeral (m.given + 1) ++ " were given"
  match m.label.partName?, m.given with
  | none, _ => call ++ " takes 1 positional argument" ++ given
  | some part, 0 => call ++ " missing 1 required positional argument: '" ++ part ++ "'"
  | some _, _ => call ++ " takes 2 positional arguments" ++ given

namespace MeaningError

/-- What stands for the label of a tree that has none, or an empty one. -/
def shownLabel : Option Label → Text
  | none => "Token"
  | some label => if label.name = [] then "Tree" else label.name

def message : MeaningError → Text
  | notExpression label => "Cannot lower " ++ (shownLabel label).literal ++ ", expected one of path, sign, number"
  | partCount m => m.message
  | notUnsigned text => "Not an unsigned integer: " ++ text.literal
  | notSign text => text.literal ++ " is not a valid ComparisonSign"
  | badLiteral e => e.message
  | noText e => e.message

end MeaningError

/-! ## Parts that stand for others -/

def Leaf.display (l : Leaf) : Text := "Token(" ++ l.kind.literal ++ ", " ++ l.text.literal ++ ")"

def Expression.display : Expression → Text
  | path p => p.display
  | sign g => "<ComparisonSign." ++ g.name ++ ": " ++ g.spelling.literal ++ ">"
  | number n => "NumberLiteral(text=" ++ n.text.literal ++ ")"

namespace Meaning

def display : Meaning → Text
  | expression e => e.display
  | selector s => s.display
  | key k => k.display
  | leaf l => l.display
  | other shown => shown

def toText : Meaning → Except MeaningError Text
  | leaf l => .ok l.text
  | expression (.path p) => p.text.mapError .noText
  | expression (.sign g) => .ok g.spelling
  | expression (.number n) => .ok n.text
  | m => .ok m.display

def toSelector : Meaning → Selector
  | selector s => s
  | m => .unknown m.display

def toKey : Meaning → Key
  | key k => k
  | m => .unknown m.display

end Meaning

/-! ## Nodes -/

def Decimal.value? (t : Text) : Option Nat := if isUnsigned t then some (value t) else none

/-- What a node means, given what its parts mean. -/
def Label.combine (label : Label) (parts : List Meaning) : Except MeaningError Meaning :=
  match label, parts with
  | path, parts => .ok (.expression (.path (parts.map Meaning.toSelector)))
  | current, parts => .ok (.selector (.current (parts.map Meaning.toSelector)))
  | root, [] => .ok (.selector .root)
  | wildcard, [] => .ok (.selector .wildcard)
  | descent, [m] => .ok (.selector (.descent m.toKey))
  | field, [m] => .ok (.selector (.field m.toKey))
  | index, [m] => do
    let t ← m.toText
    match Decimal.value? t with
    | some n => return .selector (.index n)
    | none => throw (.notUnsigned t)
  | bareKey, [m] => do
    let name ← m.toText
    return .key (.bare name)
  | quotedKey, [m] => do
    let name ← (Key.Quoted.decode (← m.toText)).mapError .badLiteral
    return .key (.quoted name)
  | sign, [m] => do
    let t ← m.toText
    match ComparisonSign.ofSpelling? t with
    | some g => return .expression (.sign g)
    | none => throw (.notSign t)
  | number, [m] => do
    let t ← m.toText
    return .expression (.number ⟨t⟩)
  | other name, parts =>
    .ok (.other ("Tree(" ++ name.literal ++ ", [" ++ Text.join ", " (parts.map Meaning.display) ++ "])"))
  | _, _ => .error (.partCount ⟨label, parts.length⟩)

/-! ## Trees -/

def Leaf.meaning (l : Leaf) : Except MeaningError Meaning :=
  match Label.ofName l.kind with
  | .other _ => .ok (.leaf l)
  | label => label.combine [.leaf l]

namespace Tree

mutual

def meaning : Tree Leaf → Except MeaningError Meaning
  | node label children => do
    let parts ← meanings children
    label.combine parts
  | leaf l => l.meaning

def meanings : List (Tree Leaf) → Except MeaningError (List Meaning)
  | [] => .ok []
  | t :: ts => do
    let m ← meaning t
    let ms ← meanings ts
    return m :: ms

end

/-- Whether a tree of that label is a whole expression. -/
def isWhole (label : Option Label) : Bool :=
  label = some .path || label = some .sign || label = some .number

def expression (t : Tree Leaf) : Except MeaningError Expression :=
  if isWhole t.label? then
    match t.meaning with
    | .ok (.expression e) => .ok e
    | .ok _ => .error (.notExpression t.label?)
    | .error e => .error e
  else .error (.notExpression t.label?)

end Tree

end JsonPath
