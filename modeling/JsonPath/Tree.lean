/-
  JsonPath.Tree — parse trees.

  A node has a label and children, a leaf holds something else. Reading makes trees
  over `Token`, which say where each leaf stood. What a tree means does not depend on
  that, so it is told for trees over `Leaf`, a token without its place.

  The labels that reading uses have constructors of their own. A tree built by hand
  may have any label, and leaves of any kind; `Label.ofName` turns a name into the
  label that it names.
-/

import JsonPath.Location
import JsonPath.Terminal

namespace JsonPath

/-- A lexeme at its place: the span from `start` up to `stop`, and the location of `start`. -/
structure Token where
  terminal : Terminal
  text : Text
  start : Int
  stop : Int
  location : Location
  deriving DecidableEq

/-- A text, and the name of what it is a lexeme of. -/
structure Leaf where
  kind : Text
  text : Text
  deriving DecidableEq

def Token.leaf (t : Token) : Leaf := ⟨t.terminal.grammarName, t.text⟩

inductive Label where
  | path
  | root
  | descent
  | wildcard
  | current
  | field
  | index
  | bareKey
  | quotedKey
  | sign
  | number
  | other (name : Text)
  deriving DecidableEq

namespace Label

def name : Label → Text
  | path => "path"
  | root => "root"
  | descent => "descent"
  | wildcard => "wildcard"
  | current => "current"
  | field => "field"
  | index => "index"
  | bareKey => "bare_key"
  | quotedKey => "quoted_key"
  | sign => "sign"
  | number => "number"
  | other name => name

def known : List Label :=
  [path, root, descent, wildcard, current, field, index, bareKey, quotedKey, sign, number]

def ofName (name : Text) : Label := (known.find? (·.name = name)).getD (other name)

theorem name_ofName (n : Text) : (ofName n).name = n := by
  unfold ofName
  cases h : known.find? (·.name = n) with
  | none => rfl
  | some l => simpa using List.find?_some h

end Label

inductive Tree (α : Type) where
  | node (label : Label) (children : List (Tree α))
  | leaf (token : α)

namespace Tree

variable {α β : Type}

def label? : Tree α → Option Label
  | node label _ => some label
  | leaf _ => none

def isLeaf : Tree α → Bool
  | node .. => false
  | leaf _ => true

def children : Tree α → List (Tree α)
  | node _ children => children
  | leaf _ => []

mutual

def map (f : α → β) : Tree α → Tree β
  | node label children => node label (mapList f children)
  | leaf token => leaf (f token)

def mapList (f : α → β) : List (Tree α) → List (Tree β)
  | [] => []
  | t :: ts => map f t :: mapList f ts

end

mutual

/-- The leaves, left to right. -/
def leaves : Tree α → List α
  | node _ children => leavesList children
  | leaf token => [token]

def leavesList : List (Tree α) → List α
  | [] => []
  | t :: ts => leaves t ++ leavesList ts

end

theorem mapList_eq_map (f : α → β) (ts : List (Tree α)) : mapList f ts = ts.map (map f) := by
  induction ts with
  | nil => rfl
  | cons t ts ih => simp [mapList, ih]

theorem leavesList_eq_flatMap (ts : List (Tree α)) : leavesList ts = ts.flatMap leaves := by
  induction ts with
  | nil => rfl
  | cons t ts ih => simp [leavesList, ih]

/-- A tree over tokens without their places. -/
def unplaced (t : Tree Token) : Tree Leaf := t.map Token.leaf

end Tree

/-! ## Equality -/

namespace Tree

variable {α : Type} [DecidableEq α]

mutual

def same : Tree α → Tree α → Bool
  | node l ts, node m us => l = m && sameList ts us
  | leaf a, leaf b => a = b
  | _, _ => false

def sameList : List (Tree α) → List (Tree α) → Bool
  | [], [] => true
  | t :: ts, u :: us => same t u && sameList ts us
  | _, _ => false

end

mutual

theorem same_iff : ∀ t u : Tree α, same t u = true ↔ t = u
  | node l ts, node m us => by simp [same, sameList_iff ts us]
  | leaf a, leaf b => by simp [same]
  | node .., leaf _ => by simp [same]
  | leaf _, node .. => by simp [same]

theorem sameList_iff : ∀ ts us : List (Tree α), sameList ts us = true ↔ ts = us
  | [], [] => by simp [sameList]
  | t :: ts, u :: us => by simp [sameList, same_iff t u, sameList_iff ts us]
  | [], _ :: _ => by simp [sameList]
  | _ :: _, [] => by simp [sameList]

end

instance : DecidableEq (Tree α) := fun t u => decidable_of_iff _ (same_iff t u)

end Tree

/-! ## Outline -/

namespace Tree

def indent (depth : Nat) : Text := (List.replicate depth (Text.ofString "  ")).flatten

mutual

/-- The outline of a tree with `after` behind it: a line a node, its label two spaces
    further in than its parent's. A leaf that is an only child stands on its parent's
    line, behind a tab. -/
def outlineAt (depth : Nat) (after : Text) : Tree Leaf → Text
  | node label [leaf l] => indent depth ++ label.name ++ "\t" ++ l.text ++ "\n" ++ after
  | node label children => indent depth ++ label.name ++ "\n" ++ outlineList (depth + 1) after children
  | leaf l => indent depth ++ l.text ++ "\n" ++ after

def outlineList (depth : Nat) (after : Text) : List (Tree Leaf) → Text
  | [] => after
  | t :: ts => outlineAt depth (outlineList depth after ts) t

end

def outline (t : Tree Leaf) : Text := outlineAt 0 [] t

end Tree

end JsonPath
