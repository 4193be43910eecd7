/-
  JsonPath.Proofs.Lexicon — the regular languages of the terminals.

  `Terminal.language` says, as the grammar of the path language does, which texts spell
  a terminal, and `blank∗` which texts may stand between two. Classes of code points are
  ranges here, and shown equal to the tests that reading makes.

  Proved:
  - `blanks_mem`, `blanks_append`: what is passed between terminals is a run of blanks,
    and whatever run of blanks a text begins with is passed.
  - `Terminal.starts_of_mem`, `Terminal.not_startsBlank`: the code points that a word may
    begin with. No blank is among them, so blanks end where a word begins.
-/

import JsonPath.Lexeme
import Mathlib.Computability.Language

namespace JsonPath

open scoped Computability

/-! ## Languages -/

namespace Lexicon

def inRanges (ranges : List (Char × Char)) (c : CodePoint) : Bool := ranges.any fun r => c.between r.1 r.2

/-- The ranges that hold one character each. -/
def each (cs : List Char) : List (Char × Char) := cs.map fun c => (c, c)

/-- One code point that satisfies `p`. -/
def one (p : CodePoint → Bool) : Language CodePoint := {w | ∃ c, p c = true ∧ w = [c]}

def word (t : Text) : Language CodePoint := {t}

def optional (l : Language CodePoint) : Language CodePoint := 1 + l

def oneOrMore (l : Language CodePoint) : Language CodePoint := l * l∗

/-- What separates terminals. -/
def blank : Language CodePoint := word " " + word "\t" + word "\r\n" + word "\n"

def isDecimal : CodePoint → Bool := inRanges [('0', '9')]

def isHexadecimal : CodePoint → Bool := inRanges [('0', '9'), ('a', 'f'), ('A', 'F')]

def isBare : CodePoint → Bool := inRanges ([('A', 'Z'), ('a', 'z'), ('0', '9')] ++ each ['_', '-', '/', '\\', '#'])

def isPlain (c : CodePoint) : Bool := !inRanges (each ['"', '\'', '\\']) c

def isEscaped : CodePoint → Bool := inRanges (each ['"', '\'', '\\', '/', 'b', 'f', 'n', 'r', 't'])

/-- What stands for one code point, or one code unit, in a quoted literal. -/
def quotedUnit : Language CodePoint :=
  one isPlain + word "\\" * one isEscaped +
    word "\\u" * (one isHexadecimal * (one isHexadecimal * (one isHexadecimal * one isHexadecimal)))

def unsigned : Language CodePoint := word "0" + one (inRanges [('1', '9')]) * (one isDecimal)∗

def fraction : Language CodePoint := word "." * oneOrMore (one isDecimal)

def exponent : Language CodePoint :=
  one (inRanges (each ['e', 'E'])) * (optional (one (inRanges (each ['+', '-']))) * oneOrMore (one isDecimal))

end Lexicon

open Lexicon

def Atom.language : Atom → Language CodePoint
  | .key => oneOrMore (one isBare)
  | .unsigned => Lexicon.unsigned
  | .quoted => word "'" * (quotedUnit∗ * word "'")
  | .sign =>
    word "==" + word "!=" + word "~=" + word ">=" + word ">" + word "<=" + word "<" + word "in" + word "nin" +
      word "size" + word "noneOf" + word "anyOf" + word "subsetOf"
  | .number => optional (word "-") * (Lexicon.unsigned * (optional Lexicon.fraction * optional Lexicon.exponent))

/-- The texts that spell a terminal. The end of the input has no spelling. -/
def Terminal.language : Terminal → Language CodePoint
  | .mark m => word m.lexeme
  | .atom a => a.language
  | .endOfInput => 0

/-! ## Membership -/

namespace Lexicon

@[simp] theorem mem_one_iff {p : CodePoint → Bool} {w : Text} : w ∈ one p ↔ ∃ c, p c = true ∧ w = [c] := Iff.rfl

@[simp] theorem mem_word_iff {t w : Text} : w ∈ word t ↔ w = t := Iff.rfl

theorem append_mem_star {l : Language CodePoint} {a b : Text} (ha : a ∈ l) (hb : b ∈ l∗) : a ++ b ∈ l∗ := by
  obtain ⟨ws, rfl, hws⟩ := Language.mem_kstar.mp hb
  exact Language.mem_kstar.mpr ⟨a :: ws, rfl, List.forall_mem_cons.mpr ⟨ha, hws⟩⟩

theorem star_append_mem_star {l : Language CodePoint} {a b : Text} (ha : a ∈ l∗) (hb : b ∈ l∗) : a ++ b ∈ l∗ :=
  kstar_mul_kstar l ▸ Language.append_mem_mul ha hb

theorem star_induction {l : Language CodePoint} {p : Text → Prop} (nil : p [])
    (append : ∀ a ∈ l, ∀ b, p b → p (a ++ b)) {w : Text} (h : w ∈ l∗) : p w := by
  obtain ⟨ws, rfl, hws⟩ := Language.mem_kstar.mp h
  clear h
  induction ws with
  | nil => exact nil
  | cons a ws ih =>
    rw [List.forall_mem_cons] at hws
    exact append a hws.1 _ (ih hws.2)

theorem mem_star_one {p : CodePoint → Bool} {w : Text} : w ∈ (one p)∗ ↔ ∀ c ∈ w, p c = true := by
  constructor
  · refine star_induction (p := fun w => ∀ c ∈ w, p c = true) (by simp) ?_
    rintro _ ⟨c, hc, rfl⟩ b hb
    exact List.forall_mem_cons.mpr ⟨hc, hb⟩
  · intro h
    induction w with
    | nil => exact Language.nil_mem_kstar _
    | cons c w ih =>
      rw [List.forall_mem_cons] at h
      exact append_mem_star (a := [c]) ⟨c, h.1, rfl⟩ (ih h.2)

theorem mem_oneOrMore_one {p : CodePoint → Bool} {w : Text} :
    w ∈ oneOrMore (one p) ↔ w ≠ [] ∧ ∀ c ∈ w, p c = true := by
  constructor
  · intro h
    obtain ⟨_, ⟨c, hc, rfl⟩, b, hb, rfl⟩ := Language.mem_mul.mp h
    exact ⟨by simp, List.forall_mem_cons.mpr ⟨hc, mem_star_one.mp hb⟩⟩
  · rintro ⟨hne, h⟩
    obtain ⟨c, b, rfl⟩ := List.exists_cons_of_ne_nil hne
    rw [List.forall_mem_cons] at h
    exact Language.append_mem_mul (a := [c]) ⟨c, h.1, rfl⟩ (mem_star_one.mpr h.2)

/-! ## Classes -/

theorem between_self {a : Char} {c : CodePoint} : c.between a a = true ↔ c = .ofChar a := by
  rw [CodePoint.between, Bool.and_eq_true, decide_eq_true_eq, decide_eq_true_eq]
  constructor
  · rintro ⟨h₁, h₂⟩
    exact CodePoint.ext (Nat.le_antisymm h₂ h₁)
  · rintro rfl
    exact ⟨Nat.le_refl _, Nat.le_refl _⟩

theorem inRanges_each {cs : List Char} {c : CodePoint} : inRanges (each cs) c = true ↔ ∃ a ∈ cs, c = .ofChar a := by
  simp only [inRanges, each, List.any_eq_true, List.mem_map]
  constructor
  · rintro ⟨_, ⟨a, ha, rfl⟩, hc⟩
    exact ⟨a, ha, between_self.mp hc⟩
  · rintro ⟨a, ha, rfl⟩
    exact ⟨_, ⟨a, ha, rfl⟩, between_self.mpr rfl⟩

theorem eq_false_of_each {cs : List Char} {p : CodePoint → Bool} (hp : cs.all (fun a => !p (.ofChar a)) = true)
    {c : CodePoint} (h : inRanges (each cs) c = true) : p c = false := by
  obtain ⟨a, ha, rfl⟩ := inRanges_each.mp h
  rw [← Bool.not_eq_true']
  exact List.all_eq_true.mp hp a ha

theorem isDigit_eq (c : CodePoint) : c.isDigit = isDecimal c := by
  simp [CodePoint.isDigit, isDecimal, inRanges]

theorem isHexDigit_eq (c : CodePoint) : c.isHexDigit = isHexadecimal c := by
  simp [CodePoint.isHexDigit, CodePoint.isDigit, isHexadecimal, inRanges, Bool.or_assoc]

theorem isKeyChar_eq (c : CodePoint) : Lexeme.isKeyChar c = isBare c := by
  rw [Bool.eq_iff_iff]
  simp only [Lexeme.isKeyChar, CodePoint.isLetter, CodePoint.isDigit, isBare, inRanges, each, List.any_append,
    List.any_cons, List.any_nil, List.map_cons, List.map_nil, Bool.or_eq_true, Bool.or_false, decide_eq_true_eq,
    between_self]
  tauto

theorem mem_simpleEscapes {e : CodePoint} : e ∈ Lexeme.simpleEscapes ↔ isEscaped e = true := by
  rw [isEscaped, inRanges_each]
  simp [Lexeme.simpleEscapes, Text.ofString]

end Lexicon

/-! ## Blanks -/

namespace Lexicon

/-- The code points that a run of blanks may begin with. -/
def startsBlank : CodePoint → Bool := inRanges (each [' ', '\t', '\r', '\n'])

theorem blanks_mem (s : Text) : Lexeme.blanks s ∈ blank∗ := by
  fun_induction Lexeme.blanks s with
  | case2 c rest hc ih =>
    refine append_mem_star (a := [c]) ?_ ih
    rcases hc with rfl | rfl | rfl
    · exact .inl (.inl (.inl rfl))
    · exact .inl (.inl (.inr rfl))
    · exact .inr rfl
  | case3 more _ ih => exact append_mem_star (a := ['\r', '\n']) (.inl (.inr rfl)) ih
  | _ => exact Language.nil_mem_kstar _

theorem blanks_cons {c : CodePoint} (h : c = ' ' ∨ c = '\t' ∨ c = '\n') (rest : Text) :
    Lexeme.blanks (c :: rest) = c :: Lexeme.blanks rest := by
  rw [Lexeme.blanks.eq_def]
  exact if_pos h

theorem blanks_append {u : Text} (hu : u ∈ blank∗) (s : Text) : Lexeme.blanks (u ++ s) = u ++ Lexeme.blanks s := by
  refine star_induction (p := fun u => Lexeme.blanks (u ++ s) = u ++ Lexeme.blanks s) rfl ?_ hu
  rintro a (((rfl | rfl) | rfl) | rfl) b hb
  all_goals rw [List.append_assoc, List.append_assoc, ← hb]
  · exact blanks_cons (.inl rfl) _
  · exact blanks_cons (.inr (.inl rfl)) _
  · rfl
  · exact blanks_cons (.inr (.inr rfl)) _

theorem blanks_eq_nil {c : CodePoint} (h : startsBlank c = false) (rest : Text) : Lexeme.blanks (c :: rest) = [] := by
  have hne : ∀ a ∈ [' ', '\t', '\r', '\n'], c ≠ .ofChar a := by
    rintro a ha rfl
    rw [startsBlank, inRanges_each.mpr ⟨a, ha, rfl⟩] at h
    cases h
  simp only [List.mem_cons, List.not_mem_nil, or_false, forall_eq_or_imp, forall_eq] at hne
  rw [Lexeme.blanks.eq_def]
  simp [hne]

/-- A blank stands where the text begins. -/
def BlankAhead (s : Text) : Prop := ∃ w ∈ blank, w <+: s

theorem blankAhead_of_mem {u : Text} (hu : u ∈ blank∗) (r : Text) {i : Nat} (hi : i < u.length) :
    BlankAhead ((u ++ r).drop i) := by
  revert i
  refine star_induction (p := fun u => ∀ {i}, i < u.length → BlankAhead ((u ++ r).drop i)) ?_ ?_ hu
  · intro i hi
    exact absurd hi (Nat.not_lt_zero i)
  · intro w hw v ih i hi
    rw [List.append_assoc]
    rcases Nat.lt_or_ge i w.length with hlt | hge
    · rcases hw with ((rfl | rfl) | rfl) | rfl
      · obtain rfl : i = 0 := Nat.lt_one_iff.mp hlt
        exact ⟨" ", .inl (.inl (.inl rfl)), List.prefix_append ..⟩
      · obtain rfl : i = 0 := Nat.lt_one_iff.mp hlt
        exact ⟨"\t", .inl (.inl (.inr rfl)), List.prefix_append ..⟩
      · -- A line feed is blank with the carriage return in front of it and without.
        obtain rfl | rfl : i = 0 ∨ i = 1 := by
          have : i < 2 := hlt
          omega
        · exact ⟨"\r\n", .inl (.inr rfl), List.prefix_append ..⟩
        · exact ⟨"\n", .inr rfl, List.prefix_append ..⟩
      · obtain rfl : i = 0 := Nat.lt_one_iff.mp hlt
        exact ⟨"\n", .inr rfl, List.prefix_append ..⟩
    · rw [List.drop_append, List.drop_eq_nil_of_le hge, List.nil_append]
      rw [List.length_append] at hi
      exact ih (by omega)

theorem not_blankAhead {s : Text} (h : Lexeme.blanks s = []) : ¬ BlankAhead s := by
  rintro ⟨w, hw, r, rfl⟩
  have hrun := blanks_append (append_mem_star hw (Language.nil_mem_kstar _)) r
  rw [List.append_nil, h] at hrun
  obtain ⟨rfl, -⟩ := List.append_eq_nil_iff.mp hrun.symm
  rcases hw with ((hw | hw) | hw) | hw
  all_goals cases hw

end Lexicon

/-! ## What a word begins with -/

def Terminal.starts (t : Terminal) (c : CodePoint) : Bool :=
  match t with
  | .mark m => m.lexeme.head? = some c
  | .atom .key => isBare c
  | .atom .unsigned => isDecimal c
  | .atom .quoted => c = '\''
  | .atom .sign => inRanges (each ['=', '!', '~', '>', '<', 'i', 'n', 's', 'a']) c
  | .atom .number => c = '-' || isDecimal c
  | .endOfInput => false

namespace Lexicon

theorem isDecimal_of_nonzero {c : CodePoint} (h : inRanges [('1', '9')] c = true) : isDecimal c = true := by
  simp only [isDecimal, inRanges, CodePoint.between, List.any_cons, List.any_nil, Bool.or_false, Bool.and_eq_true,
    decide_eq_true_eq] at h ⊢
  exact ⟨Nat.le_trans (by decide) h.1, h.2⟩

theorem isDecimal_of_mem_unsigned {w : Text} (h : w ∈ Lexicon.unsigned) : ∀ c ∈ w, isDecimal c = true := by
  rcases h with rfl | h
  · exact List.forall_mem_singleton.mpr (by decide)
  · obtain ⟨_, ⟨c, hc, rfl⟩, b, hb, rfl⟩ := Language.mem_mul.mp h
    exact List.forall_mem_cons.mpr ⟨isDecimal_of_nonzero hc, mem_star_one.mp hb⟩

theorem starts_of_mem_unsigned {w : Text} (h : w ∈ Lexicon.unsigned) : ∃ c rest, w = c :: rest ∧ isDecimal c = true := by
  rcases h with rfl | h
  · exact ⟨_, _, rfl, by decide⟩
  · obtain ⟨_, ⟨c, hc, rfl⟩, b, _, rfl⟩ := Language.mem_mul.mp h
    exact ⟨c, b, rfl, isDecimal_of_nonzero hc⟩

theorem mem_oneOrMore_of_unsigned {w : Text} (h : w ∈ Lexicon.unsigned) : w ∈ oneOrMore (one isDecimal) := by
  obtain ⟨c, rest, rfl, -⟩ := starts_of_mem_unsigned h
  exact mem_oneOrMore_one.mpr ⟨List.cons_ne_nil c rest, isDecimal_of_mem_unsigned h⟩

end Lexicon

theorem Atom.starts_of_mem {a : Atom} {w : Text} (h : w ∈ a.language) :
    ∃ c rest, w = c :: rest ∧ (Terminal.atom a).starts c = true := by
  cases a with
  | key =>
    obtain ⟨_, ⟨c, hc, rfl⟩, b, _, rfl⟩ := Language.mem_mul.mp h
    exact ⟨c, b, rfl, hc⟩
  | unsigned => exact starts_of_mem_unsigned h
  | quoted =>
    obtain ⟨_, rfl, b, _, rfl⟩ := Language.mem_mul.mp h
    exact ⟨_, b, rfl, by decide⟩
  | sign =>
    rcases h with (((((((((((rfl | rfl) | rfl) | rfl) | rfl) | rfl) | rfl) | rfl) | rfl) | rfl) | rfl) | rfl) | rfl
    all_goals exact ⟨_, _, rfl, by decide⟩
  | number =>
    obtain ⟨m, hm, b, hb, rfl⟩ := Language.mem_mul.mp h
    obtain ⟨i, hi, b, _, rfl⟩ := Language.mem_mul.mp hb
    obtain ⟨c, rest, rfl, hc⟩ := starts_of_mem_unsigned hi
    rcases hm with rfl | rfl
    · exact ⟨c, rest ++ b, rfl, by simp [Terminal.starts, hc]⟩
    · exact ⟨_, _, rfl, by decide⟩

theorem Terminal.starts_of_mem {t : Terminal} {w : Text} (h : w ∈ t.language) :
    ∃ c rest, w = c :: rest ∧ t.starts c = true := by
  cases t with
  | mark m =>
    obtain rfl : w = m.lexeme := h
    cases m
    all_goals exact ⟨_, _, rfl, by decide⟩
  | atom a => exact Atom.starts_of_mem h
  | endOfInput => exact h.elim

theorem Terminal.not_startsBlank {t : Terminal} {c : CodePoint} (h : t.starts c = true) : startsBlank c = false := by
  rw [Bool.eq_false_iff]
  intro hb
  obtain ⟨a, ha, rfl⟩ := inRanges_each.mp hb
  simp only [List.mem_cons, List.not_mem_nil, or_false] at ha
  revert h
  rcases ha with rfl | rfl | rfl | rfl
  all_goals
    cases t with
    | mark m => cases m <;> decide
    | atom a => cases a <;> decide
    | endOfInput => decide

end JsonPath
