import ExprLang.Diagnostic
import ExprLang.Text.Quoted
import ExprLang.Token.Basic

namespace ExprLang

inductive SyntaxError.Cause
  | strayByte (b : UInt8)
  | unexpected (expected : String) (found : Token.Kind)
  | unimplemented (keyword : Token.Kind)
  | tooLarge (digits : Text)
  | tooDeep (limit : Int)
  deriving DecidableEq

structure SyntaxError where
  span : Span
  cause : SyntaxError.Cause
  deriving DecidableEq

namespace SyntaxError

-- The largest number that can be written.
def maxLiteral : Nat := 0x7FFFFFFF

-- A printable byte is shown quoted and any other by its value.
def showByte (b : UInt8) : Text :=
  if 0x20 ≤ b && b < 0x7F then Text.quoted [.ofByte b]
  else "0x" ++ Text.hex 2 b.toNat

-- Whether the message can be written, for which a number in it must not be too long.
def isWritable (e : SyntaxError) : Bool :=
  match e.cause with
  | .tooDeep limit => Text.isWritable limit
  | _ => true

def diagnostic (e : SyntaxError) : Diagnostic :=
  match e.cause with
  | .strayByte b =>
    { kind := .unexpectedByte
      span := e.span
      message := "unexpected character " ++ showByte b
      hint := some "only ASCII operators, digits and identifiers are allowed" }
  | .unexpected expected found =>
    { kind := .expectedButFound
      span := e.span
      message := s!"expected {expected}, found {found.describe}"
      expected := some expected
      found := some found.describe }
  | .unimplemented keyword =>
    { kind := .unimplementedFeature
      span := e.span
      message := s!"'{keyword.spelling}' is not yet implemented"
      feature := some keyword.spelling }
  | .tooLarge digits =>
    { kind := .invalidNumber
      span := e.span
      message := "number literal " ++ digits ++ " does not fit in a 32-bit signed integer"
      hint := some s!"the largest literal is {maxLiteral}" }
  | .tooDeep limit =>
    { kind := .nestingTooDeep
      span := e.span
      message := s!"expression nested more than {limit} levels deep" }

end SyntaxError
end ExprLang
