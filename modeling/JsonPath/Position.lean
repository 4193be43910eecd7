/-
  JsonPath.Position — positions in a sequence, from either end.

  A position from zero on counts from the start of a sequence, a negative one from its
  end, so `-1` is the last element. `elementAt` answers the element at a position that
  lies in the sequence. `slice` answers what lies between two positions, and takes any:
  one that lies outside is moved to the end of the sequence that it lies beyond.

  A position of an element must fit a signed word of 64 bits. One that does not is an
  error of its own, however long the sequence.
-/

import JsonPath.Text

namespace JsonPath

variable {α : Type}

/-! ## Elements -/

inductive PositionError where
  | outOfRange
  | tooWide
  deriving DecidableEq

/-- The message, where `sequence` says what was looked into. -/
def PositionError.message (sequence : Text) : PositionError → Text
  | outOfRange => sequence ++ " index out of range"
  | tooWide => "cannot fit 'int' into an index-sized integer"

def positionLimit : Int := 0x8000000000000000

def elementAt (xs : List α) (i : Int) : Except PositionError α :=
  if i < -positionLimit ∨ positionLimit ≤ i then .error .tooWide
  else
    match (if i < 0 then xs.reverse[(-1 - i).toNat]? else xs[i.toNat]?) with
    | some x => .ok x
    | none => .error .outOfRange

/-! ## Slices -/

/-- How many elements lie before a position. -/
def countBefore (xs : List α) (i : Int) : Nat := if i < 0 then (xs.length + i).toNat else i.toNat

def slice (xs : List α) (i j : Int) : List α :=
  (xs.drop (countBefore xs i)).take (countBefore xs j - countBefore xs i)

@[simp] theorem countBefore_ofNat (xs : List α) (n : Nat) : countBefore xs n = n := by
  rw [countBefore, if_neg (Int.not_lt.mpr (Int.natCast_nonneg n)), Int.toNat_natCast]

theorem slice_ofNat (xs : List α) (m n : Nat) : slice xs m n = (xs.drop m).take (n - m) := by
  rw [slice, countBefore_ofNat, countBefore_ofNat]

end JsonPath
