/-
  JsonPath.Proofs.Reserved — signs and numbers, which are sources of their own.

  Comparison signs and numbers are reserved for filter expressions, and no path holds one.
  A source is a sign or a number if it is one word with blanks around it, and the word is
  all that it says.

  The word is taken as long as it gets, and no shorter one is tried if something is left
  behind it: of `1.5e+` the number `1.5` is taken, and the error is at the `e`. No source is
  lost by that, since no word has a blank in it. A word longer than one that blanks and the
  end of the source follow would have to reach into the blanks.

  Proved:
  - `Reserved.lexeme?_append`: a word with blanks behind it is taken to its end, no further.
  - `Reserved.read_word`, `Reserved.read_rejected`: what is read, and what is the error.
  - `reserved_exact`, from both.
-/

import JsonPath.Proofs.OneLine
import JsonPath.Proofs.Rejection

namespace JsonPath

open scoped Computability
open Lexicon

/-! ## Errors of a single miss -/

theorem Rule.read_of_miss {α : Type} {r : Rule Cursor α} {s : Text} {stop : Cursor} {k : Nat} {t : Terminal}
    (h : r (.start s) = ⟨none, stop, [⟨k, t⟩]⟩) : r.read s = .error ⟨s, k, .ofList [t]⟩ := by
  have hfurthest : Furthest.ofMisses [⟨k, t⟩] = ⟨k, .ofList [t]⟩ := by
    have hlt : (-1 : Int) < k := by omega
    simp [Furthest.ofMisses, Furthest.noteAll, Furthest.note, Furthest.start, hlt, TerminalSet.ofList]
  have hoffset : 0 ≤ (Furthest.ofMisses [⟨k, t⟩]).offset := by rw [hfurthest]; exact Int.natCast_nonneg k
  simp only [Rule.read, h]
  rw [SyntaxError.ofFurthest_of_nonneg hoffset, hfurthest]

/-! ## What is reserved -/

/-- What is reserved for filter expressions: a word that is a whole source. -/
inductive Reserved where
  | sign
  | number

namespace Reserved

def goal : Reserved → Goal
  | sign => .sign
  | number => .number

def atom : Reserved → Atom
  | sign => .sign
  | number => .number

def label : Reserved → Label
  | sign => .sign
  | number => .number

/-- What a word says: which sign it spells, or that it is that number. -/
inductive Says : Reserved → Text → Expression → Prop where
  | sign (g : ComparisonSign) : Says .sign g.spelling (.sign g)
  | number (m : Text) : Says .number m (.number ⟨m⟩)

variable {r : Reserved} {u m v rest : Text}

theorem exists_says (hm : m ∈ r.atom.language) : ∃ x, r.Says m x := by
  cases r with
  | sign =>
    obtain ⟨g, rfl⟩ := mem_sign hm
    exact ⟨_, .sign g⟩
  | number => exact ⟨_, .number m⟩

/-! ## Words -/

theorem isOutside_of_mem (hm : m ∈ r.atom.language) : ∀ c ∈ m, isOutside c = true :=
  Terminal.isOutside_of_mem (t := .atom r.atom) (by cases r <;> nofun) hm

/-- The word that blanks follow is the longest. -/
theorem lexeme?_append (hm : m ∈ r.atom.language) (hv : v ∈ blank∗) : r.atom.lexeme? (m ++ v) = some m := by
  obtain ⟨x, hx, hp, -⟩ := Terminal.lexeme?_append (t := .atom r.atom) hm v
  cases x with
  | nil => rwa [List.append_nil] at hx
  | cons c x =>
    have hlongest := r.atom.longest (m ++ v)
    rw [show r.atom.lexeme? (m ++ v) = some (m ++ c :: x) from hx] at hlongest
    -- a longer word would have the first of the blanks in it
    have houtside := isOutside_of_mem hlongest.1 c (by simp)
    obtain ⟨y, rfl⟩ := hp
    have hblank := eq_false_of_each (p := isOutside) (by decide) (startsBlank_of_mem hv)
    rw [houtside] at hblank
    cases hblank

/-! ## Reading -/

/-- The rule for one word, which both rules are. -/
def word (r : Reserved) : Rule Cursor (Tree Token) := do
  let w ← Rule.atom r.atom
  return .node r.label [.leaf w]

theorem rule_goal (r : Reserved) : r.goal.rule = Rule.anchored r.word := by cases r <;> rfl

theorem word_of_take {c stop : Cursor} {a : Token} (h : c.take (.atom r.atom) = .ok (a, stop)) :
    r.word c = ⟨some (.node r.label [.leaf a]), stop, []⟩ := Rule.take_bind_ok h _

theorem word_of_miss {c : Cursor} {n : Miss} (h : c.take (.atom r.atom) = .error n) : r.word c = ⟨none, c, [n]⟩ :=
  Rule.take_bind_error h _

/-- A word with blanks around it is read. -/
theorem read_word (hu : u ∈ blank∗) (hm : m ∈ r.atom.language) (hv : v ∈ blank∗) :
    r.goal.rule.read (u ++ (m ++ v)) = .ok (.node r.label [.leaf (.behind u (.atom r.atom) m)]) := by
  have htake : (Cursor.start (u ++ (m ++ v))).take (.atom r.atom) =
      .ok (.behind u (.atom r.atom) m, .behind (u ++ m) v) :=
    Cursor.take_behind (t := .atom r.atom) (b := []) hu (Cursor.blanks_word (t := .atom r.atom) hm v)
      (lexeme?_append hm hv) rfl
  have hend : (Cursor.behind (u ++ m) (v ++ [])).take .endOfInput =
      .ok (.behind (u ++ m ++ v) .endOfInput [], .behind (u ++ m ++ v ++ []) []) :=
    Cursor.take_behind hv rfl rfl rfl
  rw [List.append_nil] at hend
  rw [Rule.read_eq_ok_iff, rule_goal, Rule.anchored_some (word_of_take htake), hend]

/-- Where a source is none, and what was expected there: its word, where none begins, or the
    end of the input behind its longest word. -/
inductive Rejected (r : Reserved) : Text → Nat → Terminal → Prop where
  | noWord {u rest : Text} : Longest blank∗ (u ++ rest) (some u) → Longest r.atom.language rest none →
    Rejected r (u ++ rest) u.length (.atom r.atom)
  | notEnd {u m v rest : Text} : Longest blank∗ (u ++ (m ++ (v ++ rest))) (some u) →
    Longest r.atom.language (m ++ (v ++ rest)) (some m) → Longest blank∗ (v ++ rest) (some v) → rest ≠ [] →
    Rejected r (u ++ (m ++ (v ++ rest))) (u ++ m ++ v).length .endOfInput

theorem blanks_eq_nil_of_longest (h : Longest blank∗ (u ++ rest) (some u)) : Lexeme.blanks rest = [] := by
  have heq := Option.some.inj ((longest_blanks (u ++ rest)).unique h)
  rw [blanks_append h.1] at heq
  exact List.append_right_eq_self.mp heq

theorem read_rejected {s : Text} {k : Nat} {t : Terminal} (h : r.Rejected s k t) :
    r.goal.rule.read s = .error ⟨s, k, .ofList [t]⟩ := by
  rw [rule_goal]
  cases h with
  | @noWord u rest hu hm =>
    have htake := Cursor.take_behind_none (t := .atom r.atom) (b := []) hu.1 (blanks_eq_nil_of_longest hu)
      ((r.atom.longest rest).unique hm)
    exact Rule.read_of_miss (Rule.anchored_none (word_of_miss htake))
  | @notEnd u m v rest hu hm hv hrest =>
    have htake := Cursor.take_behind (t := .atom r.atom) (b := []) hu.1 (blanks_eq_nil_of_longest hu)
      ((r.atom.longest _).unique hm) rfl
    have hend := Cursor.take_behind_none (t := .endOfInput) (b := u ++ m) hv.1 (blanks_eq_nil_of_longest hv)
      (if_neg hrest)
    have hanchored := Rule.anchored_some (word_of_take htake)
    rw [List.nil_append, hend] at hanchored
    exact Rule.read_of_miss hanchored

/-- There is no third case. -/
theorem word_or_rejected (r : Reserved) (s : Text) :
    (∃ u ∈ blank∗, ∃ m ∈ r.atom.language, ∃ v ∈ blank∗, s = u ++ (m ++ v)) ∨ ∃ k t, r.Rejected s k t := by
  obtain ⟨rest, hs⟩ := Lexeme.blanks_isPrefix s
  have hu := longest_blanks s
  generalize Lexeme.blanks s = u at hs hu
  subst hs
  have hm := r.atom.longest rest
  cases hlexeme : r.atom.lexeme? rest with
  | none =>
    rw [hlexeme] at hm
    exact .inr ⟨_, _, .noWord hu hm⟩
  | some m =>
    rw [hlexeme] at hm
    obtain ⟨rest, rfl⟩ := hm.2.1
    obtain ⟨last, hrest⟩ := Lexeme.blanks_isPrefix rest
    have hv := longest_blanks rest
    generalize Lexeme.blanks rest = v at hrest hv
    subst hrest
    by_cases hlast : last = []
    · subst hlast
      exact .inl ⟨u, hu.1, m, hm.1, v, hv.1, by rw [List.append_nil]⟩
    · exact .inr ⟨_, _, .notEnd hu hm hv hlast⟩

/-! ## Meaning -/

theorem readExpression_word {x : Expression} (hu : u ∈ blank∗) (hm : m ∈ r.atom.language) (hv : v ∈ blank∗)
    (hx : r.Says m x) : readExpression r.goal (u ++ (m ++ v)) = .ok x := by
  have hmeans : (Tree.node r.label [.leaf (.behind u (.atom r.atom) m)]).unplaced.expression = .ok x := by
    cases hx with
    | sign g => exact (Means.sign rfl rfl).expression rfl
    | number m => exact (Means.number rfl).expression rfl
  simp only [readExpression, read_word hu hm hv, hmeans, Bind.bind, Except.bind, Except.mapError]

theorem readExpression_rejected {s : Text} {k : Nat} {t : Terminal} (h : r.Rejected s k t) :
    readExpression r.goal s = .error (.malformed ⟨s, k, .ofList [t]⟩) := by
  simp only [readExpression, read_rejected h, Bind.bind, Except.bind, Except.mapError]

/-- What was read is what a word says. -/
theorem says_of_readExpression {s : Text} {x : Expression} (h : readExpression r.goal s = .ok x) :
    ∃ u ∈ blank∗, ∃ m ∈ r.atom.language, ∃ v ∈ blank∗, s = u ++ (m ++ v) ∧ r.Says m x := by
  rcases r.word_or_rejected s with ⟨u, hu, m, hm, v, hv, rfl⟩ | ⟨k, t, hrejected⟩
  · obtain ⟨y, hy⟩ := exists_says hm
    rw [readExpression_word hu hm hv hy] at h
    obtain rfl := Except.ok.inj h
    exact ⟨u, hu, m, hm, v, hv, rfl, hy⟩
  · rw [readExpression_rejected hrejected] at h
    cases h

end Reserved

/-- A source is read as a sign or a number if it is such a word with blanks around it, and
    then as what the word says, with or without the blanks. All else is malformed where
    `Reserved.Rejected` says. -/
theorem reserved_exact (r : Reserved) (s : Text) :
    ((∃ x, readExpression r.goal s = .ok x) ↔ s ∈ blank∗ * (r.atom.language * blank∗)) ∧
    (∀ u ∈ blank∗, ∀ m ∈ r.atom.language, ∀ v ∈ blank∗, s = u ++ (m ++ v) →
      ∃ x, r.Says m x ∧ readExpression r.goal s = .ok x ∧ readExpression r.goal m = .ok x) ∧
    ∀ e, readExpression r.goal s = .error e ↔ ∃ k t, r.Rejected s k t ∧ e = .malformed ⟨s, k, .ofList [t]⟩ := by
  have hword : ∀ u ∈ blank∗, ∀ m ∈ r.atom.language, ∀ v ∈ blank∗, s = u ++ (m ++ v) →
      ∃ x, r.Says m x ∧ readExpression r.goal s = .ok x ∧ readExpression r.goal m = .ok x := by
    rintro u hu m hm v hv rfl
    obtain ⟨x, hx⟩ := Reserved.exists_says hm
    have hnil : [] ∈ blank∗ := Language.nil_mem_kstar _
    have halone := Reserved.readExpression_word hnil hm hnil hx
    rw [List.nil_append, List.append_nil] at halone
    exact ⟨x, hx, Reserved.readExpression_word hu hm hv hx, halone⟩
  refine ⟨⟨fun ⟨x, hx⟩ => ?_, fun hs => ?_⟩, hword, fun e => ⟨fun he => ?_, ?_⟩⟩
  · obtain ⟨u, hu, m, hm, v, hv, rfl, -⟩ := Reserved.says_of_readExpression hx
    exact Language.append_mem_mul hu (Language.append_mem_mul hm hv)
  · obtain ⟨u, hu, _, htail, rfl⟩ := Language.mem_mul.mp hs
    obtain ⟨m, hm, v, hv, rfl⟩ := Language.mem_mul.mp htail
    obtain ⟨x, -, hx, -⟩ := hword u hu m hm v hv rfl
    exact ⟨x, hx⟩
  · rcases r.word_or_rejected s with ⟨u, hu, m, hm, v, hv, heq⟩ | ⟨k, t, h⟩
    · obtain ⟨x, -, hx, -⟩ := hword u hu m hm v hv heq
      rw [hx] at he
      cases he
    · rw [Reserved.readExpression_rejected h] at he
      exact ⟨k, t, h, (Except.error.inj he).symm⟩
  · rintro ⟨k, t, h, rfl⟩
    exact Reserved.readExpression_rejected h

theorem reserved_exact_of_exponent :
    (∃ x, Reserved.sign.Says ">=" x ∧ readExpression .sign "\t>=\r\n" = .ok x ∧ readExpression .sign ">=" = .ok x) ∧
      Reserved.number.Rejected " -1.5e+ " 5 .endOfInput := by
  obtain ⟨-, sign, -⟩ := reserved_exact .sign "\t>=\r\n"
  obtain ⟨-, -, number⟩ := reserved_exact .number " -1.5e+ "
  have hmalformed : readExpression .number " -1.5e+ " =
      .error (.malformed ⟨" -1.5e+ ", 5, .ofList [.endOfInput]⟩) := by decide +kernel
  obtain ⟨k, t, hrejected, heq⟩ := (number _).mp hmalformed
  injection heq with heq
  injection heq with _ hoffset hexpected
  obtain rfl : 5 = k := Int.ofNat_inj.mp hoffset
  have ht : Terminal.endOfInput ∈ TerminalSet.ofList [t] := by rw [← hexpected]; decide
  obtain rfl := List.mem_singleton.mp (TerminalSet.mem_ofList.mp ht)
  refine ⟨sign "\t" ?_ ">=" (spelling_mem_sign .atLeast) "\r\n" ?_ rfl, hrejected⟩
  · exact append_mem_star (a := "\t") (.inl (.inl (.inr rfl))) (Language.nil_mem_kstar _)
  · exact append_mem_star (a := "\r\n") (.inl (.inr rfl)) (Language.nil_mem_kstar _)

end JsonPath
