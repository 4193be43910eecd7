/-
  JsonPath.Lexeme — what each terminal takes from the front of a text.

  `Terminal.lexeme?` answers the longest prefix of the text that the terminal
  matches, or `none` where no prefix does. A mark takes its own spelling, the end of
  the input takes nothing and only from nothing, and the atoms take

  - key: a run of letters, digits and `_ - / \ #`;
  - unsigned: `0`, or a run of digits that does not begin with `0`;
  - quoted: from a single quote to the next one that no backslash hides, without a
    double quote, and with known escapes only;
  - number: an optional minus, an unsigned, and a fraction and an exponent where
    digits follow their mark;
  - sign: the longest comparison sign.

  Blanks are no terminal: `blanks` is the longest run of spaces, tabs, line feeds and
  carriage returns with a line feed behind them. A lone carriage return is not blank.
-/

import JsonPath.Comparison
import JsonPath.Terminal

namespace JsonPath

namespace Lexeme

def isKeyChar (c : CodePoint) : Bool :=
  c.isLetter || c.isDigit || c = '_' || c = '-' || c = '/' || c = '\\' || c = '#'

def blanks : Text → Text
  | [] => []
  | c :: rest =>
    if c = ' ' ∨ c = '\t' ∨ c = '\n' then c :: blanks rest
    else if c = '\r' then
      match rest with
      | d :: more => if d = '\n' then c :: d :: blanks more else []
      | [] => []
    else []

def digits (s : Text) : Text := s.takeWhile CodePoint.isDigit

def key? (s : Text) : Option Text :=
  match s.takeWhile isKeyChar with
  | [] => none
  | c :: run => some (c :: run)

def unsigned? : Text → Option Text
  | [] => none
  | c :: rest =>
    if c = '0' then some [c]
    else if c.isDigit then some (c :: digits rest)
    else none

/-- The letters that make an escape with a backslash in front and nothing behind. -/
def simpleEscapes : Text := "\"'\\/bfnrt"

/-- The rest of a quoted literal behind its opening quote. -/
def quotedTail? : Text → Option Text
  | [] => none
  | c :: rest =>
    if c = '\'' then some [c]
    else if c = '"' then none
    else if c = '\\' then
      match rest with
      | [] => none
      | e :: more =>
        if e ∈ simpleEscapes then (quotedTail? more).map fun w => c :: e :: w
        else if e = 'u' then
          match more with
          | h₁ :: h₂ :: h₃ :: h₄ :: more =>
            if h₁.isHexDigit ∧ h₂.isHexDigit ∧ h₃.isHexDigit ∧ h₄.isHexDigit then
              (quotedTail? more).map fun w => c :: e :: h₁ :: h₂ :: h₃ :: h₄ :: w
            else none
          | _ => none
        else none
    else (quotedTail? rest).map (c :: ·)

def quoted? : Text → Option Text
  | [] => none
  | c :: rest => if c = '\'' then (quotedTail? rest).map (c :: ·) else none

/-- The code points of `set`, at most one, that `s` starts with. -/
def oneOf (set s : Text) : Text :=
  match s with
  | [] => []
  | c :: _ => if c ∈ set then [c] else []

/-- A point and the digits behind it, or nothing. -/
def fraction (s : Text) : Text :=
  let point := oneOf "." s
  match digits (s.drop point.length) with
  | [] => []
  | ds => if point = [] then [] else point ++ ds

/-- An exponent mark, its sign and its digits, or nothing. -/
def exponent (s : Text) : Text :=
  let mark := oneOf "eE" s
  let sign := oneOf "+-" (s.drop mark.length)
  match digits (s.drop (mark ++ sign).length) with
  | [] => []
  | ds => if mark = [] then [] else mark ++ sign ++ ds

def number? (s : Text) : Option Text :=
  let minus := oneOf "-" s
  (unsigned? (s.drop minus.length)).map fun whole =>
    let integer := minus ++ whole
    let decimal := integer ++ fraction (s.drop integer.length)
    decimal ++ exponent (s.drop decimal.length)

def sign? (s : Text) : Option Text :=
  (ComparisonSign.all.find? (·.spelling.isPrefixOf s)).map (·.spelling)

end Lexeme

def Atom.lexeme? : Atom → Text → Option Text
  | .key => Lexeme.key?
  | .unsigned => Lexeme.unsigned?
  | .quoted => Lexeme.quoted?
  | .sign => Lexeme.sign?
  | .number => Lexeme.number?

def Terminal.lexeme? (t : Terminal) (s : Text) : Option Text :=
  match t with
  | .mark m => if m.lexeme.isPrefixOf s then some m.lexeme else none
  | .atom a => a.lexeme? s
  | .endOfInput => if s = [] then some [] else none

/-! ## A lexeme is a prefix, and is not empty -/

namespace Lexeme

theorem append_drop_isPrefix {a b s : Text} (ha : a <+: s) (hb : b <+: s.drop a.length) : a ++ b <+: s := by
  obtain ⟨r, rfl⟩ := ha
  rw [List.drop_left] at hb
  exact (List.prefix_append_right_inj a).mpr hb

theorem blanks_isPrefix (s : Text) : blanks s <+: s := by
  fun_induction blanks s <;> simp_all

theorem digits_isPrefix (s : Text) : digits s <+: s := List.takeWhile_prefix _

theorem key?_isPrefix {s w : Text} (h : key? s = some w) : w <+: s ∧ w ≠ [] := by
  unfold key? at h
  split at h
  · cases h
  · rename_i c run hr
    cases h
    exact ⟨hr ▸ List.takeWhile_prefix _, List.cons_ne_nil _ _⟩

theorem unsigned?_isPrefix {s w : Text} (h : unsigned? s = some w) : w <+: s ∧ w ≠ [] := by
  unfold unsigned? at h
  split at h
  · cases h
  · split at h
    · cases h; simp
    · split at h
      · cases h; simp [digits_isPrefix]
      · cases h

theorem quotedTail?_isPrefix {s w : Text} (h : quotedTail? s = some w) : w <+: s := by
  fun_induction quotedTail? s generalizing w <;> simp_all
  all_goals
    obtain ⟨v, hv, rfl⟩ := h
    simp_all

theorem quoted?_isPrefix {s w : Text} (h : quoted? s = some w) : w <+: s ∧ w ≠ [] := by
  unfold quoted? at h
  split at h
  · cases h
  · split at h
    · obtain ⟨v, hv, rfl⟩ := Option.map_eq_some_iff.mp h
      simp [quotedTail?_isPrefix hv]
    · cases h

theorem oneOf_isPrefix (set s : Text) : oneOf set s <+: s := by
  unfold oneOf
  split
  · exact List.nil_prefix
  · split <;> simp

theorem fraction_isPrefix (s : Text) : fraction s <+: s := by
  unfold fraction
  dsimp only
  split
  · exact List.nil_prefix
  · split
    · exact List.nil_prefix
    · exact append_drop_isPrefix (oneOf_isPrefix _ _) (digits_isPrefix _)

theorem exponent_isPrefix (s : Text) : exponent s <+: s := by
  unfold exponent
  dsimp only
  split
  · exact List.nil_prefix
  · split
    · exact List.nil_prefix
    · exact append_drop_isPrefix (append_drop_isPrefix (oneOf_isPrefix _ _) (oneOf_isPrefix _ _)) (digits_isPrefix _)

theorem number?_isPrefix {s w : Text} (h : number? s = some w) : w <+: s ∧ w ≠ [] := by
  unfold number? at h
  obtain ⟨whole, hw, rfl⟩ := Option.map_eq_some_iff.mp h
  obtain ⟨hp, hne⟩ := unsigned?_isPrefix hw
  have hi := append_drop_isPrefix (oneOf_isPrefix _ _) hp
  exact ⟨append_drop_isPrefix (append_drop_isPrefix hi (fraction_isPrefix _)) (exponent_isPrefix _), by simp [hne]⟩

theorem sign?_isPrefix {s w : Text} (h : sign? s = some w) : w <+: s ∧ w ≠ [] := by
  obtain ⟨g, hg, rfl⟩ := Option.map_eq_some_iff.mp h
  have hp := List.find?_some hg
  exact ⟨List.isPrefixOf_iff_prefix.mp hp, by cases g <;> decide⟩

end Lexeme

theorem Terminal.lexeme?_isPrefix {t : Terminal} {s w : Text} (h : t.lexeme? s = some w) : w <+: s := by
  cases t with
  | mark m =>
    simp only [lexeme?] at h
    split at h
    · cases h; rename_i hp; exact List.isPrefixOf_iff_prefix.mp hp
    · cases h
  | atom a =>
    cases a
    · exact (Lexeme.key?_isPrefix h).1
    · exact (Lexeme.unsigned?_isPrefix h).1
    · exact (Lexeme.quoted?_isPrefix h).1
    · exact (Lexeme.sign?_isPrefix h).1
    · exact (Lexeme.number?_isPrefix h).1
  | endOfInput =>
    simp only [lexeme?] at h
    split at h
    · cases h; exact List.nil_prefix
    · cases h

theorem Terminal.lexeme?_ne_nil {t : Terminal} {s w : Text} (ht : t ≠ .endOfInput) (h : t.lexeme? s = some w) :
    w ≠ [] := by
  cases t with
  | mark m =>
    simp only [lexeme?] at h
    split at h
    · cases h; cases m <;> decide
    · cases h
  | atom a =>
    cases a
    · exact (Lexeme.key?_isPrefix h).2
    · exact (Lexeme.unsigned?_isPrefix h).2
    · exact (Lexeme.quoted?_isPrefix h).2
    · exact (Lexeme.sign?_isPrefix h).2
    · exact (Lexeme.number?_isPrefix h).2
  | endOfInput => exact absurd rfl ht

end JsonPath
