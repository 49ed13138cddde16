import ExprLang.Corpus.Chance
import ExprLang.Eval.Value

namespace ExprLang.Corpus

-- What evaluating a generated source leads to: a value or a fault of some kind.
abbrev Verdict := Except Diagnostic.Kind Value

-- The forms of generated sources, each of which needs parentheses in more places.
inductive Form
  | primary
  | unary
  | compound
  deriving DecidableEq

def Form.rank : Form → Nat
  | .primary => 0
  | .unary => 1
  | .compound => 2

structure Fragment where
  source : Text
  form : Form
  verdict : Verdict

structure Case where
  source : Text
  expected : Verdict

namespace Fragment

def group (f : Fragment) : Fragment where
  source := "(" ++ f.source ++ ")"
  form := .primary
  verdict := f.verdict

-- Puts a fragment into parentheses unless its form is allowed.
def wrap (allowed : Form) (f : Fragment) : Fragment :=
  if allowed.rank < f.form.rank then f.group else f

end Fragment

def checked (n : Int) : Verdict :=
  if EvalError.minResult ≤ n ∧ n ≤ EvalError.maxResult then .ok (.num n)
  else .error .integerOverflow

def negate : Value → Verdict
  | .num n => checked (-n)
  | .bool _ => .error .typeMismatch

def apply (op : BinOp) (l r : Value) : Verdict :=
  match op, l, r with
  | .eq, .num a, .num b => .ok (.bool (a == b))
  | .eq, .bool a, .bool b => .ok (.bool (a == b))
  | .ne, .num a, .num b => .ok (.bool (a != b))
  | .ne, .bool a, .bool b => .ok (.bool (a != b))
  | .ge, .num a, .num b => .ok (.bool (a ≥ b))
  | .gt, .num a, .num b => .ok (.bool (a > b))
  | .le, .num a, .num b => .ok (.bool (a ≤ b))
  | .lt, .num a, .num b => .ok (.bool (a < b))
  | .add, .num a, .num b => checked (a + b)
  | .sub, .num a, .num b => checked (a - b)
  | .mul, .num a, .num b => checked (a * b)
  | .div, .num a, .num b => if b = 0 then .error .divisionByZero else checked (a.tdiv b)
  | _, _, _ => .error .typeMismatch

def equalities : List BinOp := [.eq, .ne]

def comparisons : List BinOp := [.ge, .gt, .le, .lt]

-- The operators of each precedence.
def tiers : List {ops : List BinOp // ops ≠ []} :=
  [⟨equalities, by decide⟩, ⟨comparisons, by decide⟩, ⟨[.add, .sub], by decide⟩,
    ⟨[.mul, .div], by decide⟩]

variable {σ : Type} [Chance σ]

open Chance

-- Numbers are mostly small; some are zero and some near the upper end of their range.
def literal : StateM σ Fragment := do
  let k ← uniform
  if k < 0.2 then
    let b : Bool := (← uniform) < 0.5
    return ⟨toString b, .primary, .ok (.bool b)⟩
  else
    let n ←
      if k < 0.25 then between 0x3FFFFFFF 0x40000000
      else if k < 0.35 then pure 0
      else between 1 19
    return ⟨toString n, .primary, .ok (.num n)⟩

def negation (f : Fragment) : Fragment :=
  let f := f.wrap .primary
  { source := "-" ++ f.source
    form := .unary
    verdict := do negate (← f.verdict) }

-- Adds an operator and its right operand.
def extend (f : Fragment) (op : BinOp) (g : Fragment) : Fragment where
  source := f.source ++ s!" {op.spelling} " ++ g.source
  form := .compound
  verdict := do
    let l ← f.verdict
    let r ← g.verdict
    apply op l r

-- Between two and four operands with operators of one precedence between them.
def chain (operand : StateM σ Fragment) : StateM σ Fragment := do
  let ops ← pick tiers (by decide)
  let count ← between 1 2
  let first ← operand
  let rest ← (List.range count).mapM fun _ => operand
  let chosen ← (List.range count).mapM fun _ => pick ops.val ops.property
  return (chosen.zip rest).foldl (fun f (op, g) => extend f op g) first

-- A condition, which is a comparison more often than not.
def condition (part : StateM σ Fragment) : StateM σ Fragment := do
  if (← uniform) < 0.85 then
    let f := (← part).wrap .unary
    let g := (← part).wrap .unary
    let op ← pick (equalities ++ comparisons) (by decide)
    return extend f op g
  else
    part

def conditional (part : StateM σ Fragment) : StateM σ Fragment := do
  let test ← condition part
  let yes ← part
  let no ← part
  return {
    source :=
      "if " ++ test.source ++ " \x7b " ++ yes.source ++ " \x7d else \x7b " ++ no.source ++ " \x7d"
    form := .compound
    verdict := do
      match ← test.verdict with
      | .bool b => if b then yes.verdict else no.verdict
      | .num _ => .error .typeMismatch }

-- An expression whose parts are nested at most `depth` deep.
def expr : (depth : Nat) → StateM σ Fragment
  | 0 => literal
  | depth + 1 => do
    let k ← uniform
    if k < 0.15 then literal
    else if k < 0.25 then return negation (← expr depth)
    else if k < 0.35 then conditional (expr depth)
    else if k < 0.45 then return (← expr depth).group
    else chain (return (← expr depth).wrap .unary)

def case (depth : Nat) : StateM σ Case := do
  let f ← expr depth
  return ⟨f.source, f.verdict⟩

def cases (count depth : Nat) : StateM σ (List Case) :=
  (List.range count).mapM fun _ => case depth

def sources (count depth : Nat) : StateM σ (List Text) :=
  return (← cases count depth).map (·.source)

end ExprLang.Corpus
