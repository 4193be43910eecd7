/-
  JsonPath.Terminal — the terminals of the path language.

  A terminal is a mark, an atom or the end of the input. Marks are punctuation: they
  have one spelling each and leave nothing in a tree. Atoms are the classes of
  literals that become tokens; `sign` and `number` are reserved for filter
  expressions and start no selector.

  A terminal has three names. `name` is the one that reports list, `grammarName` is
  how a grammar writes it (a leading underscore for what a tree leaves out), and
  `spelling` is what a message tells a person. `ofGrammarName?` reads the second
  kind, with any number of leading underscores, and also takes `$END` for the end of
  the input.
-/

import JsonPath.Text

namespace JsonPath

inductive Mark where
  | dollar
  | dotDot
  | dot
  | leftBracket
  | rightBracket
  | star
  | at
  deriving DecidableEq

inductive Atom where
  | key
  | unsigned
  | quoted
  | sign
  | number
  deriving DecidableEq

inductive Terminal where
  | mark (m : Mark)
  | atom (a : Atom)
  | endOfInput
  deriving DecidableEq

instance : Coe Mark Terminal := ⟨.mark⟩

instance : Coe Atom Terminal := ⟨.atom⟩

/-- What a mark looks like in a source. -/
def Mark.lexeme : Mark → Text
  | .dollar => "$"
  | .dotDot => ".."
  | .dot => "."
  | .leftBracket => "["
  | .rightBracket => "]"
  | .star => "*"
  | .at => "@"

namespace Terminal

def all : List Terminal :=
  [.mark .dollar, .mark .dotDot, .mark .dot, .mark .leftBracket, .mark .rightBracket, .mark .star, .mark .at,
    .atom .key, .atom .unsigned, .atom .quoted, .atom .sign, .atom .number, .endOfInput]

theorem mem_all (t : Terminal) : t ∈ all := by
  cases t with
  | mark m => cases m <;> decide
  | atom a => cases a <;> decide
  | endOfInput => decide

def name : Terminal → Text
  | .mark .dollar => "DOLLAR"
  | .mark .dotDot => "DOTDOT"
  | .mark .dot => "DOT"
  | .mark .leftBracket => "LSQB"
  | .mark .rightBracket => "RSQB"
  | .mark .star => "STAR"
  | .mark .at => "AT"
  | .atom .key => "KEY_LIM"
  | .atom .unsigned => "UNSIGNED"
  | .atom .quoted => "STRING_QT"
  | .atom .sign => "SIGN"
  | .atom .number => "NUMBER"
  | .endOfInput => "EOF"

def grammarName : Terminal → Text
  | .mark m => "_" ++ name (.mark m)
  | t => t.name

def spelling : Terminal → Text
  | .mark m => "'" ++ m.lexeme ++ "'"
  | .atom .key => "key"
  | .atom .unsigned => "unsigned integer"
  | .atom .quoted => "quoted string"
  | .atom .sign => "comparison sign"
  | .atom .number => "number"
  | .endOfInput => "end of input"

def ofName? (name : Text) : Option Terminal := all.find? (·.name = name)

def ofGrammarName? (name : Text) : Option Terminal :=
  if name = Text.ofString "$END" then some .endOfInput
  else ofName? (name.dropWhile (· = .ofChar '_'))

end Terminal

/-! ## Sets of terminals -/

/-- A terminal's place in `Terminal.all`. -/
def Terminal.index (t : Terminal) : Nat := Terminal.all.idxOf t

/-- A set of terminals, one bit each. -/
structure TerminalSet where
  bits : BitVec 13
  deriving DecidableEq

namespace TerminalSet

instance : EmptyCollection TerminalSet := ⟨⟨0⟩⟩

def contains (s : TerminalSet) (t : Terminal) : Bool := s.bits.getLsbD t.index

instance : Membership Terminal TerminalSet := ⟨fun s t => s.contains t = true⟩

instance (t : Terminal) (s : TerminalSet) : Decidable (t ∈ s) := inferInstanceAs (Decidable (_ = true))

def insert (t : Terminal) (s : TerminalSet) : TerminalSet := ⟨s.bits ||| BitVec.twoPow 13 t.index⟩

def erase (t : Terminal) (s : TerminalSet) : TerminalSet := ⟨s.bits &&& ~~~BitVec.twoPow 13 t.index⟩

def ofList (ts : List Terminal) : TerminalSet := ts.foldr insert ∅

/-- The members, in the order of `Terminal.all`. -/
def toList (s : TerminalSet) : List Terminal := Terminal.all.filter s.contains

theorem index_lt (t : Terminal) : t.index < 13 := by
  cases t with
  | mark m => cases m <;> decide
  | atom a => cases a <;> decide
  | endOfInput => decide

theorem index_inj {t u : Terminal} (h : t.index = u.index) : t = u := by
  have ht := List.getElem_idxOf (List.idxOf_lt_length_of_mem (Terminal.mem_all t))
  have hu := List.getElem_idxOf (List.idxOf_lt_length_of_mem (Terminal.mem_all u))
  rw [← ht, ← hu]
  simp only [Terminal.index] at h
  simp only [h]

theorem getLsbD_index (t u : Terminal) : (BitVec.twoPow 13 u.index).getLsbD t.index = decide (t = u) := by
  have : t.index = u.index ↔ t = u := ⟨index_inj, fun h => by rw [h]⟩
  simp [index_lt, this]

@[simp] theorem not_mem_empty (t : Terminal) : t ∉ (∅ : TerminalSet) := by
  show ¬ (BitVec.getLsbD 0 t.index = true)
  simp

@[simp] theorem mem_insert {t u : Terminal} {s : TerminalSet} : t ∈ insert u s ↔ t = u ∨ t ∈ s := by
  show (BitVec.getLsbD (s.bits ||| BitVec.twoPow 13 u.index) t.index = true) ↔ _ ∨ (s.bits.getLsbD t.index = true)
  rw [BitVec.getLsbD_or, getLsbD_index, Bool.or_eq_true, decide_eq_true_eq, or_comm]

@[simp] theorem mem_erase {t u : Terminal} {s : TerminalSet} : t ∈ erase u s ↔ t ≠ u ∧ t ∈ s := by
  show (BitVec.getLsbD (s.bits &&& ~~~BitVec.twoPow 13 u.index) t.index = true) ↔ _ ∧ (s.bits.getLsbD t.index = true)
  rw [BitVec.getLsbD_and, BitVec.getLsbD_not, getLsbD_index]
  simp [index_lt, and_comm]

@[ext] theorem ext {s r : TerminalSet} (h : ∀ t, t ∈ s ↔ t ∈ r) : s = r := by
  have hindex : ∀ i : Fin 13, ∃ t : Terminal, t.index = i.val :=
    fun i => ⟨Terminal.all[i], by revert i; decide⟩
  cases s with | mk a =>
  cases r with | mk b =>
  congr 1
  apply BitVec.eq_of_getLsbD_eq
  intro i hi
  obtain ⟨t, ht⟩ := hindex ⟨i, hi⟩
  simp only at ht
  rw [← ht]
  exact Bool.eq_iff_iff.mpr (h t)

theorem mem_ofList {t : Terminal} {ts : List Terminal} : t ∈ ofList ts ↔ t ∈ ts := by
  induction ts with
  | nil => simp [ofList]
  | cons u ts ih => simp only [ofList, List.foldr_cons, mem_insert, List.mem_cons] at ih ⊢; rw [ih]

theorem mem_toList {t : Terminal} {s : TerminalSet} : t ∈ s.toList ↔ t ∈ s := by
  rw [toList, List.mem_filter]
  exact ⟨fun h => h.2, fun h => ⟨Terminal.mem_all t, h⟩⟩

end TerminalSet

end JsonPath
