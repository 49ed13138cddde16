import ExprLang.Text.Quoted

namespace ExprLang

namespace CodePoint

-- The zeros of the decimal digits, each of which is followed by the other nine.
def zeros : List Nat :=
  [0x0030, 0x0660, 0x06F0, 0x07C0, 0x0966, 0x09E6, 0x0A66, 0x0AE6, 0x0B66, 0x0BE6, 0x0C66, 0x0CE6,
    0x0D66, 0x0DE6, 0x0E50, 0x0ED0, 0x0F20, 0x1040, 0x1090, 0x17E0, 0x1810, 0x1946, 0x19D0, 0x1A80,
    0x1A90, 0x1B50, 0x1BB0, 0x1C40, 0x1C50, 0xA620, 0xA8D0, 0xA900, 0xA9D0, 0xA9F0, 0xAA50, 0xABF0,
    0xFF10, 0x104A0, 0x10D30, 0x11066, 0x110F0, 0x11136, 0x111D0, 0x112F0, 0x11450, 0x114D0,
    0x11650, 0x116C0, 0x11730, 0x118E0, 0x11950, 0x11C50, 0x11D50, 0x11DA0, 0x16A60, 0x16AC0,
    0x16B50, 0x1D7CE, 0x1D7D8, 0x1D7E2, 0x1D7EC, 0x1D7F6, 0x1E140, 0x1E2F0, 0x1E950, 0x1FBF0]

-- The value of a decimal digit of any script.
def digit? (c : CodePoint) : Option Nat :=
  zeros.find? (fun z => z ≤ c.val && c.val < z + 10) |>.map (c.val - ·)

-- Blanks of any script.
def isSpace (c : CodePoint) : Bool :=
  c.val ∈ [0x20, 0x85, 0xA0, 0x1680, 0x2028, 0x2029, 0x202F, 0x205F, 0x3000]
    || (0x09 ≤ c.val && c.val ≤ 0x0D)
    || (0x1C ≤ c.val && c.val ≤ 0x1F)
    || (0x2000 ≤ c.val && c.val ≤ 0x200A)

end CodePoint

namespace Text

-- The longest numeral that is read or written.
def maxDigits : Nat := 4300

-- Whether a number has at most so many digits.
@[irreducible]
def hasDigits (digits : Nat) (n : Int) : Bool :=
  n.natAbs < Nat.pow 10 digits

theorem hasDigits_iff {digits : Nat} {n : Int} :
    hasDigits digits n ↔ n.natAbs < Nat.pow 10 digits := by
  rw [hasDigits, decide_eq_true_iff]

-- Whether a number is short enough to be written.
def isWritable (n : Int) : Bool :=
  hasDigits maxDigits n

-- Numbers of 64 bits are short enough.
theorem isWritable_of_natAbs_lt {n : Int} (h : n.natAbs < Nat.pow 10 20) : isWritable n := by
  have hp {digits : Nat} (hd : 20 ≤ digits) : hasDigits digits n :=
    hasDigits_iff.mpr (Nat.lt_of_lt_of_le h (Nat.pow_le_pow_right (by decide) hd))
  exact hp (by decide)

-- What is said of a number that is too long to be written.
def unwritable : String :=
  s!"Exceeds the limit ({maxDigits} digits) for integer string conversion; " ++
    "use sys.set_int_max_str_digits() to increase the limit"

-- Why a text is not read as a number.
inductive NumeralFault
  | malformed
  | tooLong (digits : Nat)
  deriving DecidableEq

def NumeralFault.message (f : NumeralFault) (t : Text) : Text :=
  match f with
  | .malformed => "invalid literal for int() with base 10: " ++ t.quoted
  | .tooLong digits =>
    s!"Exceeds the limit ({maxDigits} digits) for integer string conversion: value has {digits} " ++
      "digits; use sys.set_int_max_str_digits() to increase the limit"

-- The digits of a numeral, between any two of which one underscore may stand.
def digits? : Text → Option (List Nat)
  | [] => none
  | [c] => c.digit?.map ([·])
  | c :: d :: t => do
    let n ← c.digit?
    let rest ← if d.val = 0x5F then digits? t else digits? (d :: t)
    return n :: rest

-- The number that digits stand for, most significant first.
def ofDigits (ds : List Nat) : Nat :=
  ds.foldl (fun n d => n * 10 + d) 0

-- Reads an unsigned numeral.
def numeral? (t : Text) : Except NumeralFault Nat :=
  match t.digits? with
  | none => .error .malformed
  | some ds => if ds.length ≤ maxDigits then .ok (ofDigits ds) else .error (.tooLong ds.length)

-- Reads a number with an optional sign and blanks around it. The four separators below the ASCII
-- blank are no blanks here.
def integer? (t : Text) : Except NumeralFault Int :=
  let t := t.trim fun c => c.isSpace && !(0x1C ≤ c.val && c.val ≤ 0x1F)
  match t with
  | 0x2B :: t => (↑·) <$> numeral? t
  | 0x2D :: t => (-↑·) <$> numeral? t
  | t => (↑·) <$> numeral? t

end Text
end ExprLang
