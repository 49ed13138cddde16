import ExprLang.Text.Printable

namespace ExprLang.Text

def singleQuote : CodePoint := 0x27

def doubleQuote : CodePoint := 0x22

-- How a code point is written between quotes.
def escape (quote c : CodePoint) : Text :=
  if c = quote || c = 0x5C then [0x5C, c]
  else if c = 0x09 then "\\t"
  else if c = 0x0A then "\\n"
  else if c = 0x0D then "\\r"
  else if c.isPrintable then [c]
  else if c.val < 0x100 then "\\x" ++ hex 2 c.val
  else if c.val < 0x10000 then "\\u" ++ hex 4 c.val
  else "\\U" ++ hex 8 c.val

-- A text between single quotes, or between double quotes if that saves escapes.
def quoted (t : Text) : Text :=
  let quote := if singleQuote ∈ t && doubleQuote ∉ t then doubleQuote else singleQuote
  quote :: t.flatMap (escape quote) ++ [quote]

end ExprLang.Text
