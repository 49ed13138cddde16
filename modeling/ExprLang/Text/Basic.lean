/-!
Texts as sequences of code points.

A command line can hand over surrogates that belong to no pair, so a text is a list of code points
and not a `String`. Fixed words of the library are `String`s and are read as texts where needed.
-/
namespace ExprLang

-- A Unicode code point, surrogates included.
abbrev CodePoint := Fin 0x110000

-- Code points can be written as numerals.
instance CodePoint.neZero : @NeZero Nat Zero.ofOfNat0 0x110000 := ⟨by decide⟩

abbrev Text := List CodePoint

abbrev Bytes := List UInt8

namespace CodePoint

def ofChar (c : Char) : CodePoint where
  val := c.toNat
  isLt := by
    have h : c.toNat.isValidChar := c.valid
    simp only [Nat.isValidChar] at h
    omega

def isSurrogate (c : CodePoint) : Bool :=
  0xD800 ≤ c.val && c.val ≤ 0xDFFF

-- A byte below `0x80` is the code point it encodes.
def ofByte (b : UInt8) : CodePoint where
  val := b.toNat
  isLt := Nat.lt_trans b.toNat_lt (by decide)

end CodePoint

namespace Text

def ofString (s : String) : Text :=
  s.toList.map .ofChar

instance : Coe String Text where
  coe := ofString

def ofAscii (bs : Bytes) : Text :=
  bs.map .ofByte

-- The text as a string, unless it holds a surrogate.
def toString? (t : Text) : Option String :=
  if t.any (·.isSurrogate) then none else some $ .ofList $ t.map fun c => .ofNat c.val

def join (sep : Text) (ts : List Text) : Text :=
  ts.intersperse sep |>.flatten

-- The parts of a text before, between and behind the places where `sep` stands.
def split (sep : CodePoint) (t : Text) : List Text :=
  t.foldr (fun c parts =>
    if c = sep then [] :: parts
    else (c :: parts.headD []) :: parts.tail) [[]]

-- The text between the first and the last code point that `p` does not accept.
def trim (p : CodePoint → Bool) (t : Text) : Text :=
  (t.dropWhile p).reverse.dropWhile p |>.reverse

-- Pads with blanks on the left.
def padLeft (width : Nat) (t : Text) : Text :=
  .replicate (width - t.length) 32 ++ t

-- Pads with blanks on the right.
def padRight (width : Nat) (t : Text) : Text :=
  t ++ .replicate (width - t.length) 32

-- A number in base 16 with at least `width` digits.
def hex (width n : Nat) : Text :=
  let ds := ofString $ .ofList $ Nat.toDigits 16 n
  .replicate (width - ds.length) 48 ++ ds

theorem ofString_append (s₁ s₂ : String) : ofString (s₁ ++ s₂) = ofString s₁ ++ ofString s₂ := by
  simp [ofString]

end Text
end ExprLang
