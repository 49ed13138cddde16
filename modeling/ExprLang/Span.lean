import ExprLang.Text.Numeral
import ExprLang.Text.Utf8

namespace ExprLang

-- The bytes of a source from `lo` up to but not including `hi`.
@[ext]
structure Span where
  lo : Nat
  hi : Nat
  le : lo ≤ hi
  deriving DecidableEq

namespace Span

-- The bounds that were refused as a span.
structure Invalid where
  lo : Int
  hi : Int
  deriving DecidableEq

def Invalid.message (i : Invalid) : String :=
  s!"invalid span range: {i.lo}..{i.hi}"

def ofBounds (lo hi : Int) : Except Invalid Span :=
  if h : 0 ≤ lo ∧ lo ≤ hi then
    .ok ⟨lo.toNat, hi.toNat, Int.toNat_le_toNat h.right⟩
  else
    .error ⟨lo, hi⟩

-- The empty span at the start of the source.
def dummy : Span where
  lo := 0
  hi := 0
  le := Nat.le_refl 0

-- The smallest span that covers both.
def merge (s t : Span) : Span where
  lo := min s.lo t.lo
  hi := max s.hi t.hi
  le := by have := s.le; omega

@[simp]
theorem lo_merge (s t : Span) : (s.merge t).lo = min s.lo t.lo :=
  rfl

@[simp]
theorem hi_merge (s t : Span) : (s.merge t).hi = max s.hi t.hi :=
  rfl

theorem merge_comm (s t : Span) : s.merge t = t.merge s := by
  simp only [merge, Span.mk.injEq]
  omega

def slice (s : Span) (bs : Bytes) : Bytes :=
  bs.drop s.lo |>.take (s.hi - s.lo)

theorem length_slice (s : Span) (bs : Bytes) :
    (s.slice bs).length = min (s.hi - s.lo) (bs.length - s.lo) := by
  simp [slice]

-- The part of a source that the span covers. Its ends may cut a code point.
def text (s : Span) (src : Text) : Except DecodeFault Text :=
  Utf8.decode .allowed (s.slice src.encode)

def format (s : Span) : String :=
  s!"{s.lo}..{s.hi}"

def isWritable (s : Span) : Bool :=
  Text.isWritable s.lo && Text.isWritable s.hi

end Span

-- A place in a source: a byte offset with its line and its column in that line, both from one.
structure Position where
  offset : Nat
  line : Nat
  column : Nat
  deriving DecidableEq

namespace Position

-- The byte that ends a line.
def newline : UInt8 := 10

-- The start of the last line.
def lastLine (bs : Bytes) : Nat :=
  bs.length - (bs.reverse.takeWhile (· != newline)).length

-- The place of an offset, which is moved into the source if it lies outside.
def ofOffset (src : Text) (offset : Int) : Position :=
  let bs := src.encode
  let offset := min offset.toNat bs.length
  let head := bs.take offset
  { offset, line := head.count newline + 1, column := offset - lastLine head + 1 }

end Position
end ExprLang
