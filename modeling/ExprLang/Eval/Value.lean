import ExprLang.Diagnostic
import ExprLang.Text.Numeral
import ExprLang.Tree.Category

namespace ExprLang

inductive Value
  | num (n : Int)
  | bool (b : Bool)
  deriving DecidableEq

-- The types of values.
inductive Ty
  | number
  | bool
  deriving DecidableEq

def Ty.name : Ty → String
  | .number => "number"
  | .bool => "bool"

namespace Value

def ty : Value → Ty
  | .num _ => .number
  | .bool _ => .bool

def format : Value → String
  | .num n => toString n
  | .bool b => toString b

end Value

inductive EvalError.Cause
  | notNegatable (found : Ty)
  | notComparable (op : BinOp) (left right : Ty)
  | notNumeric (op : BinOp) (found : Ty)
  | notCondition (found : Ty)
  | divisionByZero
  | overflow (result : Int)
  | unimplementedBlock
  | tooDeep (limit : Int)
  deriving DecidableEq

structure EvalError where
  span : Span
  cause : EvalError.Cause
  deriving DecidableEq

namespace EvalError

-- Results of arithmetic lie between these two.
def minResult : Int := -0x80000000

def maxResult : Int := 0x7FFFFFFF

-- Whether the message can be written, for which a number in it must not be too long.
def isWritable (e : EvalError) : Bool :=
  match e.cause with
  | .overflow n | .tooDeep n => Text.isWritable n
  | _ => true

def diagnostic (e : EvalError) : Diagnostic :=
  let mismatch (expected found : Ty) (message : String) : Diagnostic :=
    { kind := .typeMismatch
      span := e.span
      message := message
      expected := some expected.name
      found := some found.name }
  match e.cause with
  | .notNegatable found => mismatch .number found "can negate only numbers"
  | .notComparable op left right =>
    mismatch left right s!"cannot compare {left.name} with {right.name} using '{op.spelling}'"
  | .notNumeric op found =>
    mismatch .number found s!"operator '{op.spelling}' expects numbers, found {found.name}"
  | .notCondition found => mismatch .bool found "condition of 'if' must be a bool"
  | .divisionByZero =>
    { kind := .divisionByZero
      span := e.span
      message := "division by zero" }
  | .overflow result =>
    { kind := .integerOverflow
      span := e.span
      message := s!"result {result} overflows a 32-bit signed integer" }
  | .unimplementedBlock =>
    { kind := .unimplementedFeature
      span := e.span
      message := "block expressions are not yet implemented"
      feature := some "block expressions" }
  | .tooDeep limit =>
    { kind := .nestingTooDeep
      span := e.span
      message := s!"expression nested more than {limit} levels deep" }

end EvalError
end ExprLang
