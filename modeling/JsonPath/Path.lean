/-
  JsonPath.Path — paths.

  A path is a list of selectors. The selector `@` holds a path of its own, so paths
  nest. Reading makes paths of a particular shape, but any path can be built by hand:
  with bare keys that no source could hold, with a nested path that is empty or has
  more selectors behind it, or with something `unknown` in the place of a key or of a
  selector. Of that there is only what it shows as.
-/

import JsonPath.Decimal
import JsonPath.Position

namespace JsonPath

inductive Key where
  | bare (name : Text)
  | quoted (name : Text)
  | unknown (shown : Text)
  deriving DecidableEq

inductive Selector where
  | root
  | descent (key : Key)
  | wildcard
  | current (path : List Selector)
  | field (key : Key)
  | index (position : Nat)
  | unknown (shown : Text)

abbrev Path := List Selector

/-! ## Equality -/

mutual

def Selector.same : Selector → Selector → Bool
  | .root, .root => true
  | .descent k, .descent l => k = l
  | .wildcard, .wildcard => true
  | .current p, .current q => Path.same p q
  | .field k, .field l => k = l
  | .index m, .index n => m = n
  | .unknown a, .unknown b => a = b
  | _, _ => false

def Path.same : List Selector → List Selector → Bool
  | [], [] => true
  | s :: p, t :: q => s.same t && Path.same p q
  | _, _ => false

end

mutual

theorem Selector.same_iff : ∀ s t : Selector, s.same t = true ↔ s = t
  | .current p, t => by cases t <;> simp [Selector.same, Path.same_iff p]
  | .root, t => by cases t <;> simp [Selector.same]
  | .descent k, t => by cases t <;> simp [Selector.same]
  | .wildcard, t => by cases t <;> simp [Selector.same]
  | .field k, t => by cases t <;> simp [Selector.same]
  | .index n, t => by cases t <;> simp [Selector.same]
  | .unknown a, t => by cases t <;> simp [Selector.same]

theorem Path.same_iff : ∀ p q : List Selector, Path.same p q = true ↔ p = q
  | [], [] => by simp [Path.same]
  | s :: p, t :: q => by simp [Path.same, Selector.same_iff s t, Path.same_iff p q]
  | [], _ :: _ => by simp [Path.same]
  | _ :: _, [] => by simp [Path.same]

end

instance : DecidableEq Selector := fun s t => decidable_of_iff _ (Selector.same_iff s t)

/-! ## Indices -/

inductive IndexError where
  | negative (n : Int)
  deriving DecidableEq

def IndexError.message : IndexError → Text
  | .negative n =>
    match Decimal.textInt n with
    | .ok digits => "Index must be non-negative, got " ++ digits
    | .error tooLong => tooLong.message

def Selector.ofInt : Int → Except IndexError Selector
  | .ofNat n => .ok (.index n)
  | .negSucc n => .error (.negative (.negSucc n))

/-! ## Nesting -/

/-- The path that a selector holds. -/
def Selector.inner : Selector → Path
  | .current path => path
  | _ => []

mutual

/-- The number of selectors, those of nested paths among them. -/
def Selector.size : Selector → Nat
  | .current path => Path.size path + 1
  | _ => 1

def Path.size : List Selector → Nat
  | [] => 0
  | s :: p => s.size + Path.size p

end

theorem Selector.size_eq (s : Selector) : s.size = Path.size s.inner + 1 := by
  cases s <;> simp [Selector.size, Selector.inner, Path.size]

theorem Path.size_append (p q : Path) : Path.size (p ++ q) = Path.size p + Path.size q := by
  induction p with
  | nil => simp [Path.size]
  | cons s p ih => simp only [List.cons_append, Path.size, ih, Nat.add_assoc]

/-! ## Access -/

namespace Path

/-- A path is absolute if it starts at the root. -/
def isAbsolute (p : Path) : Bool := p.head? = some .root

def get (p : Path) (position : Int) : Except PositionError Selector := elementAt p position

end Path

end JsonPath
