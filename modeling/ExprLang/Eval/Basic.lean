import ExprLang.Eval.Value

namespace ExprLang

variable {δ : Type}

-- Why a tree has no value: it is faulty, or something is in the wrong place, which only happens to
-- drafts.
inductive EvalFailure (δ : Type)
  | fault (e : EvalError)
  -- A fault whose message cannot be written, so that there is no report of it.
  | unwritten (e : EvalError)
  -- A span that cannot be written into the log.
  | unlogged (ok : δ) (span : Span)
  | misplaced (ok : δ) (m : Misplaced)
  | spanless (ok : δ) (a : Atom)
  deriving DecidableEq

-- What becomes of a fault.
def EvalFailure.ofFault (e : EvalError) : EvalFailure δ :=
  if e.isWritable then .fault e else .unwritten e

abbrev EvalM (δ : Type) := Except (EvalFailure δ)

def Literal.value : Literal δ → Value
  | .num n => .num n
  | .bool b => .bool b
  | .loose _ label value =>
    if label = ("bool" : Text) then
      match value with
      | .inl n => .bool (n != 0)
      | .inr b => .bool b
    else
      match value with
      | .inl n => .num n
      | .inr b => .num b.toNat

namespace Eval

def fail (span : Span) (cause : EvalError.Cause) : EvalM δ α :=
  .error (.ofFault ⟨span, cause⟩)

-- Makes the text of a span for the log, whether there is a log or not.
def logSpan [Provenance δ] (span : Span) : EvalM δ Unit :=
  match (Provenance.byHand? : Option δ) with
  | none => .ok ()
  | some ok => if span.isWritable then .ok () else .error (.unlogged ok span)

-- A result of arithmetic, if it is in range.
def checked (span : Span) (n : Int) : EvalM δ Value :=
  if EvalError.minResult ≤ n ∧ n ≤ EvalError.maxResult then .ok (.num n)
  else fail span (.overflow n)

-- An operator of a chain with its operands.
structure Link (δ : Type) where
  span : Span
  op : BinOp
  left : Expr δ
  right : Expr δ

-- The operand at the start of a chain of operators, which continues with `links`, and all operators
-- of the chain from the first to the last.
def spine : Expr δ → List (Link δ) → Expr δ × List (Link δ)
  | .binary span op l r, links => spine l (⟨span, op, l, r⟩ :: links)
  | e, links => (e, links)

namespace Link

def equate (k : Link δ) (negate : Bool) (l r : Value) : EvalM δ Value :=
  match l, r with
  | .num a, .num b => .ok (.bool ((a == b) != negate))
  | .bool a, .bool b => .ok (.bool ((a == b) != negate))
  | _, _ => fail k.right.span (.notComparable k.op l.ty r.ty)

def numbers (k : Link δ) (l r : Value) : EvalM δ (Int × Int) :=
  match l, r with
  | .num a, .num b => .ok (a, b)
  | .num _, .bool _ => fail k.right.span (.notNumeric k.op r.ty)
  | .bool _, _ => fail k.left.span (.notNumeric k.op l.ty)

-- Applies an operator. Quotients are rounded toward zero.
def apply (k : Link δ) (l r : Value) : EvalM δ Value :=
  match k.op with
  | .eq => k.equate false l r
  | .ne => k.equate true l r
  | .gt => do let (a, b) ← k.numbers l r; return .bool (a > b)
  | .ge => do let (a, b) ← k.numbers l r; return .bool (a ≥ b)
  | .lt => do let (a, b) ← k.numbers l r; return .bool (a < b)
  | .le => do let (a, b) ← k.numbers l r; return .bool (a ≤ b)
  | .add => do let (a, b) ← k.numbers l r; checked k.span (a + b)
  | .sub => do let (a, b) ← k.numbers l r; checked k.span (a - b)
  | .mul => do let (a, b) ← k.numbers l r; checked k.span (a * b)
  | .div => do
    let (a, b) ← k.numbers l r
    if b = 0 then fail k.span .divisionByZero else checked k.span (a.tdiv b)

end Link

-- The value of an expression that may be nested `levels` deep. The operands of a chain are all on
-- the same level, however long it is.
def within [Provenance δ] (limit : Int) : (levels : Nat) → Expr δ → EvalM δ Value
  | 0, .strayAtom ok a => .error (.spanless ok a)
  | 0, e => fail e.span (.tooDeep limit)
  | _ + 1, .literal _ v => .ok v.value
  | n + 1, .unary span .neg e => do
    match ← within limit n e with
    | .num k => checked span (-k)
    | .bool b => fail e.span (.notNegatable (Value.bool b).ty)
  | n + 1, .binary span op l r => do
    let (first, links) := spine (.binary span op l r) []
    let start ← within limit n first
    links.foldlM (fun acc k => do k.apply acc (← within limit n k.right)) start
  | n + 1, .grouping _ e => within limit n e
  | n + 1, .cond span c t e => do
    match ← within limit n c with
    | .bool b => do
      logSpan span
      within limit n (if b then t else e)
    | .num k => fail c.span (.notCondition (Value.num k).ty)
  | _ + 1, .block span _ | _ + 1, .strayBody _ span _ => fail span .unimplementedBlock
  | _ + 1, .strayStmt ok s => .error (.misplaced ok ⟨.expression, s.category⟩)
  | _ + 1, .strayBlock ok _ => .error (.misplaced ok ⟨.expression, .block⟩)
  | _ + 1, .strayAtom ok a => .error (.misplaced ok ⟨.expression, .atom a⟩)

end Eval

def evaluate [Provenance δ] (e : Expr δ) (maxDepth : Int) : EvalM δ Value := do
  let v ← Eval.within maxDepth maxDepth.toNat e
  Eval.logSpan e.span
  return v

-- The limit of the evaluator unless another is given.
def defaultEvalDepth : Int := 256

end ExprLang
