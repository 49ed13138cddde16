import ExprLang.Parser.Basic
import ExprLang.Tree.Basic

namespace ExprLang

namespace Parser

-- The tokens that open a level.
inductive Opening
  | minus
  | paren
  | brace
  | cond
  deriving DecidableEq

-- Parsers for what follows an opening token, which has just been consumed.
abbrev Inner := Opening → ParseM Program

def equalityOp? : Token.Kind → Option BinOp
  | .bangEq => some .ne
  | .eqEq => some .eq
  | _ => none

def comparisonOp? : Token.Kind → Option BinOp
  | .gtEq => some .ge
  | .gt => some .gt
  | .ltEq => some .le
  | .lt => some .lt
  | _ => none

def additionOp? : Token.Kind → Option BinOp
  | .plus => some .add
  | .minus => some .sub
  | _ => none

def multiplicationOp? : Token.Kind → Option BinOp
  | .star => some .mul
  | .slash => some .div
  | _ => none

-- Reads the number that was consumed last.
def number : ParseM Program := do
  let span ← prevSpan
  let text ← prevText
  match text.numeral? with
  | .error f => throw (.numeral f text)
  | .ok n =>
    if SyntaxError.maxLiteral < n then fail ⟨span, .tooLarge text⟩
    else return .literal span (.num n)

-- Extends `left` by at most `n` operators with their right operands.
def chain (op? : Token.Kind → Option BinOp) (operand : ParseM Program) :
    (n : Nat) → (left : Program) → ParseM Program
  | 0, left => return left
  | n + 1, left => do
    match op? (← peek) with
    | none => return left
    | some op =>
      advance
      let right ← operand
      chain op? operand n (.binary (left.span.merge right.span) op left right)

-- Operands joined by operators of one tier, which associate to the left. Each operator is a token,
-- so the tokens that are left bound their number.
def tier (op? : Token.Kind → Option BinOp) (operand : ParseM Program) : ParseM Program := do
  let left ← operand
  chain op? operand (← get).unread left

section

variable (inner : Inner)

def primary : ParseM Program := do
  if ← eat .number then number
  else if ← eat .kwTrue then return .literal (← prevSpan) (.bool true)
  else if ← eat .kwFalse then return .literal (← prevSpan) (.bool false)
  else if ← eat .lparen then inner .paren
  else if ← eat .lbrace then inner .brace
  else failExpecting "expression"

def unary : ParseM Program := do
  if ← eat .minus then inner .minus
  else primary inner

def multiplication : ParseM Program :=
  tier multiplicationOp? (unary inner)

def addition : ParseM Program :=
  tier additionOp? (multiplication inner)

def comparison : ParseM Program :=
  tier comparisonOp? (addition inner)

def equality : ParseM Program :=
  tier equalityOp? (comparison inner)

def expr : ParseM Program := do
  if ← eat .kwIf then inner .cond
  else equality inner

def bracedExpr : ParseM Program := do
  let _ ← expect .lbrace "'\x7b'"
  let e ← expr inner
  let _ ← expect .rbrace "'\x7d'"
  return e

-- A declaration after its keyword.
def declaration : ParseM (Stmt Empty) := do
  let lo ← prevSpan
  let name ← ident
  let type ← if ← eat .colon then some <$> ident else pure none
  let init ← if ← eat .eq then some <$> expr inner else pure none
  let _ ← expect .semi "';'"
  return .declare (lo.merge (← prevSpan)) name type init

-- An assignment after its first word.
def assignment : ParseM (Stmt Empty) := do
  let lo ← prevSpan
  let name ← internPrev
  let _ ← expect .eq "'='"
  let value ← expr inner
  let _ ← expect .semi "';'"
  return .assign (lo.merge (← prevSpan)) name value

def stmt : ParseM (Stmt Empty) := do
  if ← eat .kwLet then declaration inner
  else if ← eat .ident then assignment inner
  else
    let token := (← get).token
    if token.kind = .kwFn || token.kind = .kwReturn then
      fail ⟨token.span, .unimplemented token.kind⟩
    else
      let e ← expr inner
      if ← eat .semi then return .discard (e.span.merge (← prevSpan)) e
      else if ← check .rbrace then return .result e.span e
      else failExpecting "';' or '\x7d'"

-- At most `n` statements and the closing brace.
def stmtsWithin : (n : Nat) → ParseM (List (Stmt Empty))
  | 0 => failExpecting "'\x7d'"
  | n + 1 => do
    if ← eat .rbrace then return []
    else if ← check .eof then failExpecting "'\x7d'"
    else
      match ← stmt inner with
      | .result span e =>
        let _ ← expect .rbrace "'\x7d'"
        return [.result span e]
      | s => return s :: (← stmtsWithin n)

-- Statements up to and including the closing brace. Each takes a token, so the tokens that are left
-- bound their number.
def stmts : ParseM (List (Stmt Empty)) := do
  stmtsWithin inner (← get).unread

-- What an opening token starts, with `inner` for the level below.
def enclosed : Inner
  | .minus => do
    let lo ← prevSpan
    let e ← primary inner
    return .unary (lo.merge e.span) .neg e
  | .paren => do
    let lo ← prevSpan
    let e ← expr inner
    let _ ← expect .rparen "')'"
    return .grouping (lo.merge (← prevSpan)) e
  | .brace => do
    let lo ← prevSpan
    let ss ← stmts inner
    let span := lo.merge (← prevSpan)
    return .block span (.mk span ss)
  | .cond => do
    let lo ← prevSpan
    let test ← expr inner
    let yes ← bracedExpr inner
    let _ ← expect .kwElse "'else'"
    let no ← bracedExpr inner
    return .cond (lo.merge (← prevSpan)) test yes no

-- One expression up to the end of the input.
def entire : ParseM Program := do
  let e ← expr inner
  if ← check .eof then return e
  else failExpecting "end of input"

end

-- What an opening token starts if at most `n` levels may be opened, its own included.
def nested : (n : Nat) → Inner
  | 0, _ => failTooDeep
  | n + 1, o => deeper (enclosed (nested n) o)

-- Gives a parser as many levels as the limit leaves.
def leveled (m : Inner → ParseM α) : ParseM α := do
  m (nested (← get).levels)

-- One expression that makes up the whole input.
def whole : ParseM Program :=
  leveled entire

end Parser

-- Parses a source with a limit on its nesting. Words are added to the interner, also if the parser
-- fails after them.
def parse (src : Text) (interner : Interner) (maxDepth : Int) :
    Except Parser.Failure Program × Interner :=
  match Parser.start src interner maxDepth with
  | .error e => (.error (.fault e), interner)
  | .ok p =>
    let (r, q) := Parser.whole.run p
    (r, q.interner)

-- The limit of the parser unless another is given.
def defaultParseDepth : Int := 64

end ExprLang
