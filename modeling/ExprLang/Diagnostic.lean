import ExprLang.Span

namespace ExprLang

inductive Diagnostic.Kind
  | unexpectedByte
  | expectedButFound
  | unimplementedFeature
  | typeMismatch
  | divisionByZero
  | invalidNumber
  | integerOverflow
  | nestingTooDeep
  deriving DecidableEq

-- A fault of a program as it is reported to its author.
structure Diagnostic where
  kind : Diagnostic.Kind
  span : Span
  message : Text
  hint : Option Text := none
  expected : Option Text := none
  found : Option Text := none
  feature : Option Text := none
  deriving DecidableEq

namespace Diagnostic

-- The code by which reports refer to a kind of fault.
def Kind.code : Kind → String
  | .unexpectedByte => "unexpected-byte"
  | .expectedButFound => "expected-but-found"
  | .unimplementedFeature => "unimplemented-feature"
  | .typeMismatch => "type-mismatch"
  | .divisionByZero => "division-by-zero"
  | .invalidNumber => "invalid-number"
  | .integerOverflow => "integer-overflow"
  | .nestingTooDeep => "nesting-too-deep"

-- The hint on a line of its own; an empty hint is left out.
def hintLine (d : Diagnostic) : Text :=
  match d.hint with
  | none | some [] => []
  | some hint => "\nhint: " ++ hint

-- The report without regard to a source.
def summary (d : Diagnostic) : Text :=
  (d.span.format ++ ": " : String) ++ d.message ++ d.hintLine

-- The report at a line and a column of a source with a name.
def locate (d : Diagnostic) (src file : Text) : Text :=
  let p := Position.ofOffset src d.span.lo
  file ++ s!":{p.line}:{p.column}: " ++ d.message ++ d.hintLine

end Diagnostic
end ExprLang
