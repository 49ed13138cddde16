import ExprLang.Text.Basic

/-!
UTF-8, with surrogates as three-byte sequences where they are allowed.
-/
namespace ExprLang

namespace CodePoint

-- The bytes of a code point. A surrogate takes three bytes like its neighbours.
def encode (c : CodePoint) : Bytes :=
  let tail (n : Nat) : UInt8 := .ofNat (0x80 + n % 0x40)
  if c.val < 0x80 then
    [.ofNat c.val]
  else if c.val < 0x800 then
    [.ofNat (0xC0 + c.val / 0x40), tail c.val]
  else if c.val < 0x10000 then
    [.ofNat (0xE0 + c.val / 0x1000), tail (c.val / 0x40), tail c.val]
  else
    [.ofNat (0xF0 + c.val / 0x40000), tail (c.val / 0x1000), tail (c.val / 0x40), tail c.val]

-- The code point of a sequence, from the bits that its first byte carries and the bytes after
-- it.
def ofSequence (bits : Nat) (tail : Bytes) : CodePoint :=
  .ofNat 0x110000 $ tail.foldl (fun n b => n * 0x40 + b.toNat % 0x40) bits

end CodePoint

-- Why a text has no strict encoding: the code points from `first` to `last` are surrogates, and
-- `code` is the first of them.
structure EncodeFault where
  code : CodePoint
  first : Nat
  last : Nat
  deriving DecidableEq

def EncodeFault.message (f : EncodeFault) : Text :=
  let position : String :=
    if f.first = f.last then s!" in position {f.first}" else s!"s in position {f.first}-{f.last}"
  let code : Text := if f.first = f.last then " '\\u" ++ Text.hex 4 f.code.val ++ "'" else []
  "'utf-8' codec can't encode character" ++ code ++ position ++ ": surrogates not allowed"

inductive DecodeFault.Reason
  | start
  | ending
  | continuation
  deriving DecidableEq

-- Why bytes cannot be decoded: the `width` bytes from `offset` on, the first of which is `byte`,
-- do not make up a sequence.
structure DecodeFault where
  offset : Nat
  width : Nat
  byte : UInt8
  reason : DecodeFault.Reason
  deriving DecidableEq

def DecodeFault.Reason.describe : Reason → String
  | .start => "invalid start byte"
  | .ending => "unexpected end of data"
  | .continuation => "invalid continuation byte"

def DecodeFault.message (f : DecodeFault) : Text :=
  let bytes : Text :=
    if f.width = 1 then " 0x" ++ Text.hex 2 f.byte.toNat ++ s!" in position {f.offset}"
    else s!"s in position {f.offset}-{f.offset + f.width - 1}"
  "'utf-8' codec can't decode byte" ++ bytes ++ s!": {f.reason.describe}"

namespace Text

-- The bytes of a text, surrogates included.
def encode (t : Text) : Bytes :=
  t.flatMap (·.encode)

-- The first run of surrogates in a text that starts at index `i`.
def surrogatesFrom (i : Nat) : Text → Option EncodeFault
  | [] => none
  | c :: t =>
    if c.isSurrogate then some ⟨c, i, i + (t.takeWhile (·.isSurrogate)).length⟩
    else surrogatesFrom (i + 1) t

-- The bytes of a text without surrogates.
def encodeStrict (t : Text) : Except EncodeFault Bytes :=
  match t.surrogatesFrom 0 with
  | some fault => .error fault
  | none => .ok t.encode

end Text

namespace Utf8

inductive Surrogates
  | allowed
  | refused
  deriving DecidableEq

def isTail (b : UInt8) : Bool :=
  0x80 ≤ b && b ≤ 0xBF

-- Whether `b` may follow `a` as the second byte of a sequence. Longer than needed encodings,
-- code points that do not exist and refused surrogates are ruled out here.
def isSecond (s : Surrogates) (a b : UInt8) : Bool :=
  isTail b
    && (a != 0xE0 || 0xA0 ≤ b)
    && (a != 0xED || b ≤ 0x9F || s = .allowed)
    && (a != 0xF0 || 0x90 ≤ b)
    && (a != 0xF4 || b ≤ 0x8F)

-- Decodes bytes, the first of which stands at offset `i`. A fault covers the bytes that could
-- still have become a sequence, and at least one.
def decodeFrom (s : Surrogates) (i : Nat) : Bytes → Except DecodeFault Text
  | [] => .ok []
  | a :: r =>
    let fault (width : Nat) (reason : DecodeFault.Reason) := .error ⟨i, width, a, reason⟩
    if a < 0x80 then
      (.ofByte a :: ·) <$> decodeFrom s (i + 1) r
    else if a < 0xC2 || 0xF4 < a then
      fault 1 .start
    else
      match r with
      | [] => fault 1 .ending
      | b :: r =>
        if !isSecond s a b then
          fault 1 .continuation
        else if a < 0xE0 then
          (.ofSequence (a.toNat - 0xC0) [b] :: ·) <$> decodeFrom s (i + 2) r
        else
          match r with
          | [] => if a = 0xED && 0xA0 ≤ b then fault 1 .continuation else fault 2 .ending
          | c :: r =>
            if !isTail c then
              if a = 0xED && 0xA0 ≤ b then fault 1 .continuation else fault 2 .continuation
            else if a < 0xF0 then
              (.ofSequence (a.toNat - 0xE0) [b, c] :: ·) <$> decodeFrom s (i + 3) r
            else
              match r with
              | [] => fault 3 .ending
              | d :: r =>
                if !isTail d then fault 3 .continuation
                else (.ofSequence (a.toNat - 0xF0) [b, c, d] :: ·) <$> decodeFrom s (i + 4) r

def decode (s : Surrogates) (bs : Bytes) : Except DecodeFault Text :=
  decodeFrom s 0 bs

end Utf8
end ExprLang
