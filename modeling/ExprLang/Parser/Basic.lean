import ExprLang.Symbol.Interner
import ExprLang.Text.Numeral
import ExprLang.Token.Lexer

namespace ExprLang

-- Reads the tokens of a source one by one: `prev` was consumed last and `token` is next.
structure Parser where
  lexer : Lexer
  interner : Interner
  maxDepth : Int
  depth : Nat
  prev : Token
  token : Token

namespace Parser

-- Why a parser stops: for a fault of the source, or for the text of a token that cannot be used.
inductive Failure
  | fault (e : SyntaxError)
  -- A fault whose message cannot be written, so that there is no report of it.
  | unwritten (e : SyntaxError)
  | numeral (f : Text.NumeralFault) (text : Text)
  | undecodable (f : DecodeFault)
  | unencodable (f : EncodeFault)
  deriving DecidableEq

-- What becomes of a fault.
def Failure.ofFault (e : SyntaxError) : Failure :=
  if e.isWritable then .fault e else .unwritten e

abbrev ParseM := ExceptT Failure (StateM Parser)

def start (src : Text) (interner : Interner) (maxDepth : Int) : Except SyntaxError Parser :=
  let (token, lexer) := (Lexer.ofText src).next
  token.map fun token => { lexer, interner, maxDepth, depth := 0, prev := .dummy, token }

-- The number of levels that may still be opened.
def levels (p : Parser) : Nat :=
  (p.maxDepth - p.depth).toNat

-- A bound on the number of tokens that are left, not counting the end of the input.
def unread (p : Parser) : Nat :=
  p.lexer.unread + if p.token.kind = .eof then 0 else 1

-- The text of the token that was consumed last.
def lexeme (p : Parser) : Except DecodeFault Text :=
  p.lexer.lexeme p.prev.span

def unexpected (p : Parser) (what : String) : SyntaxError where
  span := p.token.span
  cause := .unexpected what p.token.kind

def prevSpan : ParseM Span :=
  return (← get).prev.span

def prevText : ParseM Text := do
  match (← get).lexeme with
  | .ok text => return text
  | .error f => throw (.undecodable f)

def peek : ParseM Token.Kind :=
  return (← get).token.kind

def fail (e : SyntaxError) : ParseM α :=
  throw (.fault e)

def failExpecting (what : String) : ParseM α := do
  fail ((← get).unexpected what)

-- Consumes a token. If there is no next one the tokens stay, while the lexer has moved.
def advance : ParseM Unit := do
  let p ← get
  match p.lexer.next with
  | (.ok token, lexer) => set { p with lexer, token, prev := p.token }
  | (.error e, lexer) =>
    set { p with lexer }
    fail e

def check (kind : Token.Kind) : ParseM Bool :=
  return (← peek) = kind

def eat (kind : Token.Kind) : ParseM Bool := do
  if ← check kind then
    advance
    return true
  else
    return false

def expect (kind : Token.Kind) (what : String) : ParseM Token := do
  if ← eat kind then return (← get).prev
  else failExpecting what

-- The handle of the word that was consumed last.
def internPrev : ParseM Symbol := do
  let text ← prevText
  let p ← get
  let (symbol, interner) := p.interner.intern text
  set { p with interner }
  match symbol with
  | .ok symbol => return symbol
  | .error f => throw (.unencodable f)

def ident : ParseM Symbol := do
  let _ ← expect .ident "identifier"
  internPrev

-- Runs a parser one level further in.
def deeper (m : ParseM α) : ParseM α := fun p =>
  let (r, q) := m.run { p with depth := p.depth + 1 }
  (r, { q with depth := q.depth - 1 })

def failTooDeep : ParseM α := do
  let p ← get
  throw (.ofFault ⟨p.prev.span, .tooDeep p.maxDepth⟩)

end Parser
end ExprLang
