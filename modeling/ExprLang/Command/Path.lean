import ExprLang.Text.Utf8

namespace ExprLang.Command

-- Where a path starts: in the working directory, or at the root. Exactly two slashes are a root of
-- their own, while more of them count as one.
inductive Path.Root
  | relative
  | single
  | double
  deriving DecidableEq

-- A path without empty parts and parts that lead nowhere.
structure Path where
  root : Path.Root
  parts : List Text
  deriving DecidableEq

namespace Path

def slash : CodePoint := 0x2F

-- A single point stands for the directory that it is in.
def here : Text := [0x2E]

-- Two points stand for the directory around that.
def above : Text := [0x2E, 0x2E]

namespace Root

def ofText (t : Text) : Root :=
  match (t.takeWhile (· = slash)).length with
  | 0 => .relative
  | 2 => .double
  | _ => .single

def toText : Root → Text
  | .relative => []
  | .single => [slash]
  | .double => [slash, slash]

end Root

def ofText (t : Text) : Path where
  root := .ofText t
  parts := (t.split slash).filter fun part => part ≠ [] && part ≠ here

def toText (p : Path) : Text :=
  p.root.toText ++ Text.join [slash] p.parts

def absolute (p : Path) : Bool :=
  p.root ≠ .relative

def child (p : Path) (name : Text) : Path :=
  { p with parts := p.parts ++ [name] }

-- The path from the root without steps upward, for a path that starts in the directory `cwd`.
def resolve (cwd p : Path) : Path where
  root := .single
  parts := p.parts.foldl (fun parts part => if part = above then parts.dropLast else parts ++ [part])
    (if p.absolute then [] else cwd.parts)

end Path
end ExprLang.Command
