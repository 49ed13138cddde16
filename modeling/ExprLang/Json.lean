import ExprLang.Text.Quoted

namespace ExprLang

inductive Json
  | null
  | bool (b : Bool)
  | int (n : Int)
  | str (t : Text)
  | arr (items : List Json)
  | obj (fields : List (String × Json))
  deriving BEq

namespace Json

-- How a code point is written in a string. All but ASCII is escaped, in two parts if it takes more
-- than sixteen bits.
def escape (c : CodePoint) : Text :=
  if c = 0x22 || c = 0x5C then [0x5C, c]
  else if c = 0x0A then "\\n"
  else if c = 0x0D then "\\r"
  else if c = 0x09 then "\\t"
  else if c = 0x0C then "\\f"
  else if c = 0x08 then "\\b"
  else if 0x20 ≤ c.val && c.val < 0x7F then [c]
  else if c.val < 0x10000 then "\\u" ++ Text.hex 4 c.val
  else
    let v := c.val - 0x10000
    "\\u" ++ Text.hex 4 (0xD800 + v / 0x400) ++ "\\u" ++ Text.hex 4 (0xDC00 + v % 0x400)

def quoted (t : Text) : Text :=
  [0x22] ++ t.flatMap escape ++ [0x22]

-- Text that is written in front of other text.
abbrev Writer := Text → Text

-- Begins a line that is indented by a number of levels.
def newLine (indent : Nat) : Writer :=
  fun rest => 0x0A :: .replicate (2 * indent) 0x20 ++ rest

-- Writes every item on a line of its own, one level further in than the brackets around them.
def layout (indent : Nat) (left right : Text) : List Writer → Writer
  | [] => fun rest => left ++ right ++ rest
  | first :: items => fun rest =>
    let tail := newLine indent (right ++ rest)
    let others := items.foldr (fun w rest => "," ++ newLine (indent + 1) (w rest)) tail
    left ++ newLine (indent + 1) (first others)

mutual

-- Writes a value whose lines are indented by `indent` levels. The fields of an object are in the
-- order of their keys.
def write (indent : Nat) : Json → Writer
  | .null => fun rest => "null" ++ rest
  | .bool true => fun rest => "true" ++ rest
  | .bool false => fun rest => "false" ++ rest
  | .int n => fun rest => toString n ++ rest
  | .str t => fun rest => quoted t ++ rest
  | .arr items => layout indent "[" "]" (writeItems (indent + 1) items)
  | .obj fields =>
    layout indent "\x7b" "\x7d" $
      (writeFields (indent + 1) fields).mergeSort (fun f g => f.fst ≤ g.fst) |>.map fun f rest =>
        quoted f.fst ++ ": " ++ f.snd rest

def writeItems (indent : Nat) : List Json → List Writer
  | [] => []
  | j :: js => j.write indent :: writeItems indent js

def writeFields (indent : Nat) : List (String × Json) → List (String × Writer)
  | [] => []
  | (key, j) :: fs => (key, j.write indent) :: writeFields indent fs

end

def render (j : Json) : Text :=
  j.write 0 []

end Json
end ExprLang
