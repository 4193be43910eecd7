/-
  JsonPath.Text — text as a sequence of Unicode code points.

  Expressions, keys and messages are sequences of code points rather than of
  characters: a surrogate may stand alone in a source and in a decoded key, and two
  surrogates that meet are never joined unless an escape says so. An offset counts
  code points.

  The classes below are the ASCII ones that the path language is written in. They
  are `false` of every other code point, so a digit of another script is no digit
  here.
-/

namespace JsonPath

structure CodePoint where
  val : Nat
  valid : val < 0x110000
  deriving DecidableEq

abbrev Text := List CodePoint

namespace CodePoint

def ofChar (c : Char) : CodePoint :=
  ⟨c.toNat, by rcases c.valid with h | h <;> (show c.val.toNat < _; omega)⟩

instance : Coe Char CodePoint := ⟨ofChar⟩

instance : Inhabited CodePoint := ⟨'?'⟩

/-- The code point of that number, or `?` where no code point has it. -/
def ofNat (n : Nat) : CodePoint := if h : n < 0x110000 then ⟨n, h⟩ else '?'

@[ext] theorem ext {a b : CodePoint} (h : a.val = b.val) : a = b := by
  cases a; cases b; cases h; rfl

theorem val_ofNat {n : Nat} (h : n < 0x110000) : (ofNat n).val = n := by simp [ofNat, h]

def between (lo hi : Char) (c : CodePoint) : Bool := lo.toNat ≤ c.val && c.val ≤ hi.toNat

def isDigit (c : CodePoint) : Bool := c.between '0' '9'

def isHexDigit (c : CodePoint) : Bool := c.isDigit || c.between 'a' 'f' || c.between 'A' 'F'

def isLetter (c : CodePoint) : Bool := c.between 'a' 'z' || c.between 'A' 'Z'

/-- The value of a decimal or hexadecimal digit; `0` of anything else. -/
def digitValue (c : CodePoint) : Nat :=
  if c.isDigit then c.val - '0'.toNat
  else if c.between 'a' 'f' then c.val - 'a'.toNat + 10
  else if c.between 'A' 'F' then c.val - 'A'.toNat + 10
  else 0

/-- The digit that stands for `n`, in lower case from ten on. -/
def digit (n : Nat) : CodePoint :=
  if n < 10 then ofNat ('0'.toNat + n) else ofNat ('a'.toNat + (n - 10))

def isHighSurrogate (c : CodePoint) : Bool := 0xD800 ≤ c.val && c.val < 0xDC00

def isLowSurrogate (c : CodePoint) : Bool := 0xDC00 ≤ c.val && c.val < 0xE000

def isAscii (c : CodePoint) : Bool := c.val < 0x80

end CodePoint

namespace Text

def ofString (s : String) : Text := s.toList.map .ofChar

instance : Coe String Text := ⟨ofString⟩

/-- The texts with `separator` between each and the next. -/
def join (separator : Text) : List Text → Text
  | [] => []
  | [t] => t
  | t :: ts => t ++ separator ++ join separator ts

/-- `n` in base sixteen, with at least `width` digits. -/
def hex (width n : Nat) : Text :=
  match width with
  | 0 => []
  | w + 1 => hex w (n / 16) ++ [.digit (n % 16)]

end Text

end JsonPath
