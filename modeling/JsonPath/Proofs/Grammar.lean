/-
  JsonPath.Proofs.Grammar — the grammar of the path language and its derivations.

  The grammar is data: a nonterminal has a body, and a body is a phrase. A derivation of
  a phrase says which way was taken wherever the phrase leaves one, down to the tokens
  that stand for its terminals. It has a word, its tokens from left to right, and trees.
  A nonterminal with a label makes a node of what its body makes. One without leaves it
  to the node around, and a mark leaves nothing.

  A derivation says nothing about where the tokens come from: that a source holds them,
  with blanks around them, is `JsonPath.Proofs.Spelling`.

  A chain has three shapes, and each is a smaller chain with something in front or a
  single step: `Derivation.chain_induction` is what all that is said of chains goes by.
  A step has ten shapes, told apart by `Derivation.step_cases`.
-/

import JsonPath.Tree

namespace JsonPath.Grammar

inductive Nonterminal where
  | path
  | chain
  | step
  | root
  | descent
  | wildcard
  | current
  | field
  | index
  | bracketKey
  | bareKey
  | quotedKey
  | sign
  | number
  deriving DecidableEq

/-- The label of the node that a nonterminal makes, if it makes one. -/
def Nonterminal.label? : Nonterminal → Option Label
  | path => some .path
  | chain => none
  | step => none
  | root => some .root
  | descent => some .descent
  | wildcard => some .wildcard
  | current => some .current
  | field => some .field
  | index => some .index
  | bracketKey => none
  | bareKey => some .bareKey
  | quotedKey => some .quotedKey
  | sign => some .sign
  | number => some .number

inductive Phrase where
  | terminal (t : Terminal)
  | rule (n : Nonterminal)
  | both (p q : Phrase)
  | either (p q : Phrase)
  | optional (p : Phrase)
  /-- One or more. -/
  | many (p : Phrase)

abbrev mark (m : Mark) : Phrase := .terminal (.mark m)

abbrev atom (a : Atom) : Phrase := .terminal (.atom a)

abbrev Nonterminal.body : Nonterminal → Phrase
  | path => .rule chain
  | chain => .either (.both (.many (.rule step)) (.optional (.rule current))) (.rule current)
  | step =>
    .either (.rule root) <| .either (.rule descent) <| .either (.rule wildcard) <| .either (.rule field) (.rule index)
  | root => mark .dollar
  | descent => .both (mark .dotDot) (.either (.rule bareKey) (.rule bracketKey))
  | wildcard =>
    .either (.both (.optional (mark .dot)) <| .both (mark .leftBracket) <| .both (mark .star) (mark .rightBracket))
      (.both (mark .dot) (mark .star))
  | current => .both (mark .at) (.rule chain)
  | field => .either (.both (.optional (mark .dot)) (.rule bracketKey)) (.both (mark .dot) (.rule bareKey))
  | index => .both (mark .leftBracket) <| .both (atom .unsigned) (mark .rightBracket)
  | bracketKey => .both (mark .leftBracket) <| .both (.rule quotedKey) (mark .rightBracket)
  | bareKey => atom .key
  | quotedKey => atom .quoted
  | sign => atom .sign
  | number => atom .number

/-! ## Derivations -/

inductive Derivation : Phrase → Type where
  | token {t : Terminal} (token : Token) (h : token.terminal = t) : Derivation (.terminal t)
  | rule {n : Nonterminal} (d : Derivation n.body) : Derivation (.rule n)
  | both {p q : Phrase} (d : Derivation p) (e : Derivation q) : Derivation (.both p q)
  | left {p q : Phrase} (d : Derivation p) : Derivation (.either p q)
  | right {p q : Phrase} (d : Derivation q) : Derivation (.either p q)
  | absent {p : Phrase} : Derivation (.optional p)
  | present {p : Phrase} (d : Derivation p) : Derivation (.optional p)
  | last {p : Phrase} (d : Derivation p) : Derivation (.many p)
  | more {p : Phrase} (d : Derivation p) (ds : Derivation (.many p)) : Derivation (.many p)

/-- Whether a terminal is kept in trees. -/
def isKept : Terminal → Bool
  | .mark _ => false
  | _ => true

namespace Derivation

def word {p : Phrase} : Derivation p → List Token
  | token t _ => [t]
  | rule d => d.word
  | both d e => d.word ++ e.word
  | left d => d.word
  | right d => d.word
  | absent => []
  | present d => d.word
  | last d => d.word
  | more d ds => d.word ++ ds.word

def trees {p : Phrase} : Derivation p → List (Tree Token)
  | token t _ => if isKept t.terminal then [.leaf t] else []
  | rule (n := n) d =>
    match n.label? with
    | some label => [.node label d.trees]
    | none => d.trees
  | both d e => d.trees ++ e.trees
  | left d => d.trees
  | right d => d.trees
  | absent => []
  | present d => d.trees
  | last d => d.trees
  | more d ds => d.trees ++ ds.trees

end Derivation

abbrev Step := Derivation (.rule .step)

abbrev Chain := Derivation (.rule .chain)

namespace Derivation

theorem path_surjective : ∀ d : Derivation (.rule .path), ∃ c : Chain, d = .rule c
  | .rule c => ⟨c, rfl⟩

/-! ## Trees, constructor by constructor -/

theorem trees_token {t : Terminal} (a : Token) (h : a.terminal = t) :
    (token a h).trees = if isKept t then [.leaf a] else [] := by
  subst h
  rfl

theorem trees_rule {n : Nonterminal} (d : Derivation n.body) :
    (rule d).trees = match n.label? with
      | some label => [.node label d.trees]
      | none => d.trees := rfl

theorem trees_both {p q : Phrase} (d : Derivation p) (e : Derivation q) : (both d e).trees = d.trees ++ e.trees := rfl

theorem trees_present {p : Phrase} (d : Derivation p) : (present d).trees = d.trees := rfl

theorem trees_more {p : Phrase} (d : Derivation p) (ds : Derivation (.many p)) : (more d ds).trees = d.trees ++ ds.trees :=
  rfl

@[simp] theorem trees_absent {p : Phrase} : (absent : Derivation (.optional p)).trees = [] := rfl

@[simp] theorem trees_left {p q : Phrase} (d : Derivation p) : (left d : Derivation (.either p q)).trees = d.trees := rfl

@[simp] theorem trees_right {p q : Phrase} (d : Derivation q) : (right d : Derivation (.either p q)).trees = d.trees := rfl

/-! ## Steps -/

def root (a : Token) (h : a.terminal = .mark .dollar) : Step := .rule (.left (.rule (.token a h)))

def bareKey (a : Token) (h : a.terminal = .atom .key) : Derivation (.rule .bareKey) := .rule (.token a h)

def bracketKey (a b c : Token) (ha : a.terminal = .mark .leftBracket) (hb : b.terminal = .atom .quoted)
    (hc : c.terminal = .mark .rightBracket) : Derivation (.rule .bracketKey) :=
  .rule (.both (.token a ha) (.both (.rule (.token b hb)) (.token c hc)))

def dot (a : Token) (h : a.terminal = .mark .dot) : Derivation (.optional (Grammar.mark .dot)) := .present (.token a h)

def descent (a : Token) (h : a.terminal = .mark .dotDot)
    (k : Derivation (.either (.rule .bareKey) (.rule .bracketKey))) : Step :=
  .rule (.right (.left (.rule (.both (.token a h) k))))

def bracketWildcard (o : Derivation (.optional (Grammar.mark .dot))) (a b c : Token)
    (ha : a.terminal = .mark .leftBracket) (hb : b.terminal = .mark .star) (hc : c.terminal = .mark .rightBracket) :
    Step :=
  .rule (.right (.right (.left (.rule (.left (.both o (.both (.token a ha) (.both (.token b hb) (.token c hc)))))))))

def dotWildcard (a b : Token) (ha : a.terminal = .mark .dot) (hb : b.terminal = .mark .star) : Step :=
  .rule (.right (.right (.left (.rule (.right (.both (.token a ha) (.token b hb)))))))

def bracketField (o : Derivation (.optional (Grammar.mark .dot))) (k : Derivation (.rule .bracketKey)) : Step :=
  .rule (.right (.right (.right (.left (.rule (.left (.both o k)))))))

def bareField (a : Token) (h : a.terminal = .mark .dot) (k : Derivation (.rule .bareKey)) : Step :=
  .rule (.right (.right (.right (.left (.rule (.right (.both (.token a h) k)))))))

def index (a b c : Token) (ha : a.terminal = .mark .leftBracket) (hb : b.terminal = .atom .unsigned)
    (hc : c.terminal = .mark .rightBracket) : Step :=
  .rule (.right (.right (.right (.right (.rule (.both (.token a ha) (.both (.token b hb) (.token c hc))))))))

@[simp] theorem trees_root (a : Token) (h : a.terminal = .mark .dollar) : (root a h).trees = [.node .root []] := by
  simp [root, trees_rule, trees_token, Nonterminal.label?, isKept]

@[simp] theorem trees_bareKey (a : Token) (h : a.terminal = .atom .key) :
    (bareKey a h).trees = [.node .bareKey [.leaf a]] := by
  simp [bareKey, trees_rule, trees_token, Nonterminal.label?, isKept]

@[simp] theorem trees_bracketKey (a b c : Token) (ha : a.terminal = .mark .leftBracket)
    (hb : b.terminal = .atom .quoted) (hc : c.terminal = .mark .rightBracket) :
    (bracketKey a b c ha hb hc).trees = [.node .quotedKey [.leaf b]] := by
  simp [bracketKey, trees_rule, trees_both, trees_token, Nonterminal.label?, isKept]

@[simp] theorem trees_dot (a : Token) (h : a.terminal = .mark .dot) : (dot a h).trees = [] := by
  simp [dot, trees_present, trees_token, isKept]

@[simp] theorem trees_descent (a : Token) (h : a.terminal = .mark .dotDot)
    (k : Derivation (.either (.rule .bareKey) (.rule .bracketKey))) :
    (descent a h k).trees = [.node .descent k.trees] := by
  simp [descent, trees_rule, trees_both, trees_token, Nonterminal.label?, isKept]

@[simp] theorem trees_bracketWildcard (o : Derivation (.optional (Grammar.mark .dot))) (a b c : Token)
    (ha : a.terminal = .mark .leftBracket) (hb : b.terminal = .mark .star) (hc : c.terminal = .mark .rightBracket) :
    (bracketWildcard o a b c ha hb hc).trees = [.node .wildcard o.trees] := by
  simp [bracketWildcard, trees_rule, trees_both, trees_token, Nonterminal.label?, isKept]

@[simp] theorem trees_dotWildcard (a b : Token) (ha : a.terminal = .mark .dot) (hb : b.terminal = .mark .star) :
    (dotWildcard a b ha hb).trees = [.node .wildcard []] := by
  simp [dotWildcard, trees_rule, trees_both, trees_token, Nonterminal.label?, isKept]

@[simp] theorem trees_bracketField (o : Derivation (.optional (Grammar.mark .dot))) (k : Derivation (.rule .bracketKey)) :
    (bracketField o k).trees = [.node .field (o.trees ++ k.trees)] := rfl

@[simp] theorem trees_bareField (a : Token) (h : a.terminal = .mark .dot) (k : Derivation (.rule .bareKey)) :
    (bareField a h k).trees = [.node .field k.trees] := by
  simp [bareField, trees_rule, trees_both, trees_token, Nonterminal.label?, isKept]

@[simp] theorem trees_index (a b c : Token) (ha : a.terminal = .mark .leftBracket) (hb : b.terminal = .atom .unsigned)
    (hc : c.terminal = .mark .rightBracket) : (index a b c ha hb hc).trees = [.node .index [.leaf b]] := by
  simp [index, trees_rule, trees_both, trees_token, Nonterminal.label?, isKept]

/-- The shapes of a step. -/
theorem step_cases {motive : Step → Prop} (root : ∀ a h, motive (root a h))
    (bareDescent : ∀ a h b hb, motive (descent a h (.left (bareKey b hb))))
    (bracketDescent : ∀ a h b c d hb hc hd, motive (descent a h (.right (bracketKey b c d hb hc hd))))
    (bracketWildcard : ∀ a b c ha hb hc, motive (bracketWildcard .absent a b c ha hb hc))
    (dotBracketWildcard : ∀ o ho a b c ha hb hc, motive (.bracketWildcard (dot o ho) a b c ha hb hc))
    (dotWildcard : ∀ a b ha hb, motive (dotWildcard a b ha hb))
    (bracketField : ∀ a b c ha hb hc, motive (bracketField .absent (bracketKey a b c ha hb hc)))
    (dotBracketField : ∀ o ho a b c ha hb hc, motive (.bracketField (dot o ho) (bracketKey a b c ha hb hc)))
    (bareField : ∀ a h b hb, motive (bareField a h (bareKey b hb)))
    (index : ∀ a b c ha hb hc, motive (index a b c ha hb hc)) : ∀ s, motive s
  | .rule (.left (.rule (.token a h))) => root a h
  | .rule (.right (.left (.rule (.both (.token a h) (.left (.rule (.token b hb))))))) => bareDescent a h b hb
  | .rule (.right (.left (.rule (.both (.token a h)
      (.right (.rule (.both (.token b hb) (.both (.rule (.token c hc)) (.token d hd))))))))) =>
    bracketDescent a h b c d hb hc hd
  | .rule (.right (.right (.left (.rule (.left (.both .absent
      (.both (.token a ha) (.both (.token b hb) (.token c hc))))))))) => bracketWildcard a b c ha hb hc
  | .rule (.right (.right (.left (.rule (.left (.both (.present (.token o ho))
      (.both (.token a ha) (.both (.token b hb) (.token c hc))))))))) => dotBracketWildcard o ho a b c ha hb hc
  | .rule (.right (.right (.left (.rule (.right (.both (.token a ha) (.token b hb))))))) => dotWildcard a b ha hb
  | .rule (.right (.right (.right (.left (.rule (.left (.both .absent
      (.rule (.both (.token a ha) (.both (.rule (.token b hb)) (.token c hc)))))))))))  =>
    bracketField a b c ha hb hc
  | .rule (.right (.right (.right (.left (.rule (.left (.both (.present (.token o ho))
      (.rule (.both (.token a ha) (.both (.rule (.token b hb)) (.token c hc)))))))))))  =>
    dotBracketField o ho a b c ha hb hc
  | .rule (.right (.right (.right (.left (.rule (.right (.both (.token a h) (.rule (.token b hb))))))))) =>
    bareField a h b hb
  | .rule (.right (.right (.right (.right (.rule (.both (.token a ha)
      (.both (.token b hb) (.token c hc)))))))) => index a b c ha hb hc

/-! ## Chains -/

def single (s : Step) : Chain := .rule (.left (.both (.last s) .absent))

def cons (s : Step) : Chain → Chain
  | .rule (.left (.both ds c)) => .rule (.left (.both (.more s ds) c))
  | .rule (.right c) => .rule (.left (.both (.last s) (.present c)))

def nest (a : Token) (h : a.terminal = .mark .at) (d : Chain) : Chain := .rule (.right (.rule (.both (.token a h) d)))

theorem chain_induction {motive : Chain → Prop} (single : ∀ s, motive (single s))
    (cons : ∀ s d, motive d → motive (cons s d)) (nest : ∀ a h d, motive d → motive (nest a h d)) :
    ∀ d, motive d
  | .rule (.left (.both (.last s) .absent)) => single s
  | .rule (.left (.both (.last s) (.present (.rule (.both (.token a h) d))))) =>
    cons s _ (nest a h d (chain_induction single cons nest d))
  | .rule (.left (.both (.more s ds) c)) =>
    cons s _ (chain_induction single cons nest (.rule (.left (.both ds c))))
  | .rule (.right (.rule (.both (.token a h) d))) => nest a h d (chain_induction single cons nest d)

@[simp] theorem word_single (s : Step) : (single s).word = s.word := List.append_nil _

@[simp] theorem word_cons (s : Step) : ∀ d : Chain, (cons s d).word = s.word ++ d.word
  | .rule (.left (.both _ _)) => List.append_assoc ..
  | .rule (.right _) => rfl

@[simp] theorem word_nest (a : Token) (h : a.terminal = .mark .at) (d : Chain) : (nest a h d).word = a :: d.word := rfl

@[simp] theorem trees_single (s : Step) : (single s).trees = s.trees := List.append_nil _

@[simp] theorem trees_cons (s : Step) : ∀ d : Chain, (cons s d).trees = s.trees ++ d.trees
  | .rule (.left (.both _ _)) => List.append_assoc ..
  | .rule (.right _) => rfl

@[simp] theorem trees_nest (a : Token) (h : a.terminal = .mark .at) (d : Chain) :
    (nest a h d).trees = [.node .current d.trees] := by
  simp [nest, trees_rule, trees_both, trees_token, Nonterminal.label?, isKept]

end Derivation

/-- Whether the terminals, in this order, make a path. -/
def Derivable (ts : List Terminal) : Prop := ∃ d : Derivation (.rule .path), d.word.map Token.terminal = ts

/-- Whether the terminals begin a path. -/
def Viable (ts : List Terminal) : Prop := ∃ more, Derivable (ts ++ more)

end JsonPath.Grammar
