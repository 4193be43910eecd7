/-
  JsonPath.Number — number literals and what they are worth.

  A literal keeps its text. Its value is a double if the text has a point or an
  exponent mark, and an integer if it has neither. What counts as a number is wider
  than what an expression may hold, since a literal can be built by hand: there may be
  space around it and a plus before it, the digits may be those of any script, leading
  zeros are allowed, and single underscores may stand between digits.

  An integer is converted in one piece, so its digits are limited. They are counted as
  soon as their run ends: too many digits are the error even where something else is
  wrong behind them.
-/

import JsonPath.Decimal
import JsonPath.Lexeme
import JsonPath.Number.Binary64
import JsonPath.Text.Blank
import JsonPath.Text.DecimalDigit
import JsonPath.Text.Literal

namespace JsonPath

structure NumberLiteral where
  text : Text
  deriving DecidableEq

inductive NumberValue where
  | integer (n : Int)
  | double (d : Binary64)
  deriving DecidableEq

inductive NumberError where
  | tooLong (e : Decimal.TooLong)
  | notInteger (text : Text)
  | notDouble (text : Text)
  deriving DecidableEq

/-- An integer that cannot be read is shown up to this length. -/
def NumberError.shownLength : Nat := 200

def NumberError.message : NumberError → Text
  | .tooLong e => e.message
  | .notInteger text => "invalid literal for int() with base 10: " ++ text.literal.take shownLength
  | .notDouble text => "could not convert string to float: " ++ text.literal

namespace NumberLiteral

/-! ## Spelling -/

/-- Digits and spaces of every script as those of ASCII; all else beyond ASCII is no part of a number. -/
def plain (c : CodePoint) : CodePoint :=
  if c.isAscii then c
  else if c.isBlank then ' '
  else match c.decimalDigit? with
    | some d => .digit d
    | none => '?'

def isSpace (c : CodePoint) : Bool := c = ' ' || c.between '\t' '\r'

def trim (t : Text) : Text := ((t.dropWhile isSpace).reverse.dropWhile isSpace).reverse

/-- Removes the underscores of a text, each of which must stand between two digits. -/
def ungroup? (behindDigit : Bool) : Text → Option Text
  | [] => some []
  | c :: rest =>
    if c = '_' then
      if behindDigit && rest.head?.any CodePoint.isDigit then ungroup? false rest else none
    else (ungroup? c.isDigit rest).map (c :: ·)

/-- Splits off a sign and says whether it is a minus. -/
def splitSign (t : Text) : Bool × Text :=
  match Lexeme.oneOf "+-" t with
  | [] => (false, t)
  | sign => (sign = Text.ofString "-", t.drop 1)

/-! ## Values -/

/-- The integer that a plain text spells, or `none`. -/
def integer? (t : Text) : Except Decimal.TooLong (Option Int) :=
  let (negative, t) := splitSign (t.dropWhile isSpace)
  let inRun (c : CodePoint) : Bool := c.isDigit || c = '_'
  match ungroup? false (t.takeWhile inRun) with
  | none | some [] => .ok none
  | some digits =>
    if Decimal.digitLimit < digits.length then .error (.numeral digits.length)
    else if (t.dropWhile inRun).all isSpace then
      .ok (some (if negative then -(Decimal.ofDigits digits : Int) else Decimal.ofDigits digits))
    else .ok none

/-- The exponent that a text spells, mark and all; an empty text spells none, which is zero. -/
def exponent? (t : Text) : Option Int :=
  match Lexeme.oneOf "eE" t with
  | [] => if t = [] then some 0 else none
  | mark =>
    let (negative, digits) := splitSign (t.drop mark.length)
    if Decimal.isUnsigned digits then
      some (if negative then -(Decimal.value digits : Int) else Decimal.value digits)
    else none

/-- The double that a plain text spells, without space around it. -/
def double? (t : Text) : Option Binary64 := do
  let (negative, t) := splitSign (← ungroup? false t)
  let whole := Lexeme.digits t
  let t := t.drop whole.length
  let point := Lexeme.oneOf "." t
  let fraction := if point = [] then [] else Lexeme.digits (t.drop point.length)
  if whole ++ fraction = [] then none
  else
    let exponent ← exponent? (t.drop (point ++ fraction).length)
    return .ofDecimal negative (Decimal.value (whole ++ fraction)) (exponent - fraction.length)

/-- Whether the text has a point or an exponent mark. -/
def isDouble (n : NumberLiteral) : Bool := n.text.any fun c => c = '.' || c = 'e' || c = 'E'

def value (n : NumberLiteral) : Except NumberError NumberValue :=
  if n.isDouble then
    match double? (trim (n.text.map plain)) with
    | some d => .ok (.double d)
    | none => .error (.notDouble n.text)
  else
    match integer? (n.text.map plain) with
    | .ok (some i) => .ok (.integer i)
    | .ok none => .error (.notInteger n.text)
    | .error e => .error (.tooLong e)

end NumberLiteral

end JsonPath
