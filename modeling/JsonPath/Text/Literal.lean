/-
  JsonPath.Text.Literal — texts between quotes, as messages and displays show them.

  The quotes are single ones, unless the text holds a single quote and no double one.
  The quote in use and backslashes stand behind a backslash, tabs, line feeds and
  carriage returns are written as letters, and whatever else is not printable as its
  number in hexadecimal: two digits behind `\x`, four behind `\u` or eight behind
  `\U`, the shortest that fits.
-/

import JsonPath.Text.Printable

namespace JsonPath.Text

def literalQuote (t : Text) : CodePoint :=
  if t.contains (.ofChar '\'') && !t.contains (.ofChar '"') then '"' else '\''

def literalOne (quote c : CodePoint) : Text :=
  if c = quote ∨ c = '\\' then ['\\', c]
  else if c = '\t' then "\\t"
  else if c = '\n' then "\\n"
  else if c = '\r' then "\\r"
  else if c.isPrintable then [c]
  else if c.val < 0x100 then "\\x" ++ hex 2 c.val
  else if c.val < 0x10000 then "\\u" ++ hex 4 c.val
  else "\\U" ++ hex 8 c.val

def literal (t : Text) : Text :=
  let quote := t.literalQuote
  [quote] ++ t.flatMap (literalOne quote) ++ [quote]

end JsonPath.Text
