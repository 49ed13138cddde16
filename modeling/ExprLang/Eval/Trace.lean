import ExprLang.Eval.Basic

namespace ExprLang

variable {δ : Type}

-- A conditional whose test was evaluated, and the branch that was taken.
structure Branch where
  span : Span
  taken : Bool
  deriving DecidableEq

namespace Eval

-- The branches that evaluating an expression takes, in order and up to the first fault.
def trace [Provenance δ] (limit : Int) : (levels : Nat) → Expr δ → List Branch
  | 0, _ => []
  | n + 1, .unary _ _ e => trace limit n e
  | n + 1, .grouping _ e => trace limit n e
  | n + 1, .binary span op l r =>
    let (first, links) := spine (.binary span op l r) []
    let step (acc : EvalM δ Value × List Branch) (k : Link δ) : EvalM δ Value × List Branch :=
      match acc.fst with
      | .error e => (.error e, acc.snd)
      | .ok v => (do k.apply v (← within limit n k.right), acc.snd ++ trace limit n k.right)
    (links.foldl step (within limit n first, trace limit n first)).snd
  | n + 1, .cond span c t e =>
    trace limit n c ++
      match within limit n c, logSpan (δ := δ) span with
      | .ok (.bool b), .ok () => ⟨span, b⟩ :: trace limit n (if b then t else e)
      | _, _ => []
  | _ + 1, _ => []

end Eval

def branches [Provenance δ] (e : Expr δ) (maxDepth : Int) : List Branch :=
  Eval.trace maxDepth maxDepth.toNat e

end ExprLang
