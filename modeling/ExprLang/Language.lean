import ExprLang.Eval.Basic
import ExprLang.Parser.Grammar

namespace ExprLang

-- Why a source has no value.
inductive RunFailure
  | parsing (f : Parser.Failure)
  | evaluation (f : EvalFailure Empty)
  deriving DecidableEq

-- Parses and evaluates a source with limits on its nesting.
def runWithin (src : Text) (parseDepth evalDepth : Int) : Except RunFailure Value := do
  let e ← (parse src .empty parseDepth).fst.mapError .parsing
  (evaluate e evalDepth).mapError .evaluation

def run (src : Text) : Except RunFailure Value :=
  runWithin src defaultParseDepth defaultEvalDepth

end ExprLang
