/-
  JsonPath.Path.Display — a path shown by what it is made of.

  Each part shows as its name and its named fields, the selectors of a path in
  parentheses. A comma follows the only selector of a path.
-/

import JsonPath.Path
import JsonPath.Text.Literal

namespace JsonPath

def Key.display : Key → Text
  | .bare name => "BareKey(name=" ++ name.literal ++ ")"
  | .quoted name => "QuotedKey(name=" ++ name.literal ++ ")"
  | .unknown shown => shown

mutual

/-- The display of a selector with `after` behind it. -/
def Selector.displayOnto (after : Text) : Selector → Text
  | .root => "Root()" ++ after
  | .descent key => "Descent(key=" ++ key.display ++ ")" ++ after
  | .wildcard => "Wildcard()" ++ after
  | .current path => "Current(path=PathExpression(selectors=(" ++ Path.displayOnto (")))" ++ after) path
  | .field key => "Field(key=" ++ key.display ++ ")" ++ after
  | .index position => "Index(value=" ++ Decimal.text position ++ ")" ++ after
  | .unknown shown => shown ++ after

/-- The selectors of a path as they stand between its parentheses. -/
def Path.displayOnto (after : Text) : List Selector → Text
  | [] => after
  | [s] => s.displayOnto ("," ++ after)
  | s :: p => s.displayOnto (Path.displayMore after p)

def Path.displayMore (after : Text) : List Selector → Text
  | [] => after
  | s :: p => ", " ++ s.displayOnto (Path.displayMore after p)

end

def Selector.display (s : Selector) : Text := s.displayOnto []

def Path.display (p : Path) : Text := "PathExpression(selectors=(" ++ Path.displayOnto "))" p

end JsonPath
