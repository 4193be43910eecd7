/-
  JsonPath.Rule.Selector — the rules for one selector.

  An alternative is a kind of selector that stands by itself; the selector `@` needs
  the rest of its chain and is read with it (`JsonPath.Rule.Chain`). The alternatives
  are tried in the order of `Alternative.standard`, and the first that has a value is
  the selector. Each goes back when it fails, so the order decides what is missed on
  the way and nothing else.

  A bracket may have a dot before it, except that of an index; `..` takes either kind
  of key.
-/

import JsonPath.Rule

namespace JsonPath

namespace Rule

variable {γ : Type} [Place γ]

def bareKey : Rule γ (Tree Token) := do
  let name ← atom .key
  return .node .bareKey [.leaf name]

def bracketKey : Rule γ (Tree Token) := do
  let _ ← mark .leftBracket
  let literal ← atom .quoted
  let _ ← mark .rightBracket
  return .node .quotedKey [.leaf literal]

def root : Rule γ (Tree Token) := do
  let _ ← mark .dollar
  return .node .root []

def descent : Rule γ (Tree Token) := do
  let _ ← mark .dotDot
  let key ← attempt bareKey <|> attempt bracketKey
  return .node .descent [key]

def bracketWildcard : Rule γ (Tree Token) := do
  let _ ← optional (mark .dot)
  let _ ← mark .leftBracket
  let _ ← mark .star
  let _ ← mark .rightBracket
  return .node .wildcard []

def dotWildcard : Rule γ (Tree Token) := do
  let _ ← mark .dot
  let _ ← mark .star
  return .node .wildcard []

def wildcard : Rule γ (Tree Token) := bracketWildcard <|> dotWildcard

def bracketField : Rule γ (Tree Token) := do
  let _ ← optional (mark .dot)
  let key ← bracketKey
  return .node .field [key]

def dotField : Rule γ (Tree Token) := do
  let _ ← mark .dot
  let key ← bareKey
  return .node .field [key]

def field : Rule γ (Tree Token) := bracketField <|> dotField

def index : Rule γ (Tree Token) := do
  let _ ← mark .leftBracket
  let position ← atom .unsigned
  let _ ← mark .rightBracket
  return .node .index [.leaf position]

/-! ## Reserved for filter expressions -/

def sign : Rule γ (Tree Token) := do
  let spelling ← atom .sign
  return .node .sign [.leaf spelling]

def number : Rule γ (Tree Token) := do
  let literal ← atom .number
  return .node .number [.leaf literal]

end Rule

/-! ## Alternatives -/

inductive Alternative where
  | root
  | descent
  | wildcard
  | field
  | index
  deriving DecidableEq

namespace Alternative

def standard : List Alternative := [root, descent, wildcard, field, index]

def rule {γ : Type} [Place γ] : Alternative → Rule γ (Tree Token)
  | root => Rule.root
  | descent => Rule.descent
  | wildcard => Rule.wildcard
  | field => Rule.field
  | index => Rule.index

end Alternative

/-- Any selector but `@`, the alternatives tried in the order given. -/
def Rule.selectorOf {γ : Type} [Place γ] (order : List Alternative) : Rule γ (Tree Token) := firstOf (order.map Alternative.rule)

def Rule.selector {γ : Type} [Place γ] : Rule γ (Tree Token) := selectorOf Alternative.standard

/-! ## Every selector moves on -/

namespace Rule

variable {γ : Type} [Place γ]

theorem forward_bareKey : Forward (bareKey : Rule γ (Tree Token)) := forward_bind (forward_atom _) fun _ => forward_pure _

theorem forward_bracketKey : Forward (bracketKey : Rule γ (Tree Token)) :=
  forward_bind (forward_mark _) fun _ => forward_bind (forward_atom _) fun _ =>
    forward_bind (forward_mark _) fun _ => forward_pure _

theorem advances_bracketKey : Advances (bracketKey : Rule γ (Tree Token)) :=
  advances_bind (advances_mark _) fun _ => forward_bind (forward_atom _) fun _ =>
    forward_bind (forward_mark _) fun _ => forward_pure _

theorem advances_root : Advances (root : Rule γ (Tree Token)) := advances_bind (advances_mark _) fun _ => forward_pure _

theorem advances_descent : Advances (descent : Rule γ (Tree Token)) :=
  advances_bind (advances_mark _) fun _ =>
    forward_bind (forward_orElse (forward_attempt forward_bareKey) (forward_attempt forward_bracketKey)) fun _ =>
      forward_pure _

theorem advances_bracketWildcard : Advances (bracketWildcard : Rule γ (Tree Token)) :=
  advances_bind_right (forward_optional (forward_mark _)) fun _ =>
    advances_bind (advances_mark _) fun _ => forward_bind (forward_mark _) fun _ =>
      forward_bind (forward_mark _) fun _ => forward_pure _

theorem advances_dotWildcard : Advances (dotWildcard : Rule γ (Tree Token)) :=
  advances_bind (advances_mark _) fun _ => forward_bind (forward_mark _) fun _ => forward_pure _

theorem advances_wildcard : Advances (wildcard : Rule γ (Tree Token)) := advances_orElse advances_bracketWildcard advances_dotWildcard

theorem advances_bracketField : Advances (bracketField : Rule γ (Tree Token)) :=
  advances_bind_right (forward_optional (forward_mark _)) fun _ =>
    advances_bind advances_bracketKey fun _ => forward_pure _

theorem advances_dotField : Advances (dotField : Rule γ (Tree Token)) :=
  advances_bind (advances_mark _) fun _ => forward_bind forward_bareKey fun _ => forward_pure _

theorem advances_field : Advances (field : Rule γ (Tree Token)) := advances_orElse advances_bracketField advances_dotField

theorem advances_index : Advances (index : Rule γ (Tree Token)) :=
  advances_bind (advances_mark _) fun _ => forward_bind (forward_atom _) fun _ =>
    forward_bind (forward_mark _) fun _ => forward_pure _

theorem advances_alternative (a : Alternative) : Advances (a.rule : Rule γ (Tree Token)) := by
  cases a
  · exact advances_root
  · exact advances_descent
  · exact advances_wildcard
  · exact advances_field
  · exact advances_index

theorem advances_selectorOf (order : List Alternative) : Advances (selectorOf order : Rule γ (Tree Token)) := by
  refine advances_firstOf fun r hr => ?_
  obtain ⟨a, _, rfl⟩ := List.mem_map.mp hr
  exact advances_alternative a

end Rule

end JsonPath
