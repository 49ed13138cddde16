import ExprLang.Parser.Grammar

namespace ExprLang.Parser

-- What a parser can be asked to do at any time. Some methods go on from the token that was consumed
-- last, whatever it is.
inductive Method
  | whole
  | expr
  | conditional
  | bracedExpr
  | equality
  | comparison
  | addition
  | multiplication
  | unary
  | primary
  | number
  | stmts
  | stmt
  | declaration
  | assignment
  | ident
  | eat (kind : Token.Kind)
  | check (kind : Token.Kind)
  | expect (kind : Token.Kind) (what : String)
  | unexpected (what : String)
  | advance
  deriving DecidableEq

-- What a method comes back with.
inductive Answer
  | none
  | expr (e : Program)
  | stmts (ss : List (Stmt Empty))
  | stmt (s : Stmt Empty)
  | symbol (s : Symbol)
  | bool (b : Bool)
  | token (t : Token)
  | complaint (e : SyntaxError)

-- What a method does, with `inner` for what follows an opening token.
def Method.runWith (inner : Inner) : Method → ParseM Answer
  | .whole => .expr <$> entire inner
  | .expr => .expr <$> Parser.expr inner
  | .conditional => .expr <$> inner .cond
  | .bracedExpr => .expr <$> Parser.bracedExpr inner
  | .equality => .expr <$> Parser.equality inner
  | .comparison => .expr <$> Parser.comparison inner
  | .addition => .expr <$> Parser.addition inner
  | .multiplication => .expr <$> Parser.multiplication inner
  | .unary => .expr <$> Parser.unary inner
  | .primary => .expr <$> Parser.primary inner
  | .number => .expr <$> Parser.number
  | .stmts => .stmts <$> Parser.stmts inner
  | .stmt => .stmt <$> Parser.stmt inner
  | .declaration => .stmt <$> Parser.declaration inner
  | .assignment => .stmt <$> Parser.assignment inner
  | .ident => .symbol <$> Parser.ident
  | .eat kind => .bool <$> Parser.eat kind
  | .check kind => .bool <$> Parser.check kind
  | .expect kind what => .token <$> Parser.expect kind what
  | .unexpected what => return .complaint ((← get).unexpected what)
  | .advance => do
    Parser.advance
    return .none

def Method.run (m : Method) : ParseM Answer :=
  leveled m.runWith

-- The state after a method, whether it succeeds or not.
def step (p : Parser) (m : Method) : Parser :=
  (m.run.run p).snd

end ExprLang.Parser
