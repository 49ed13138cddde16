import ExprLang.Span

namespace ExprLang

inductive Token.Kind
  | ident
  | number
  | plus
  | minus
  | arrow
  | star
  | slash
  | eq
  | eqEq
  | bang
  | bangEq
  | gt
  | gtEq
  | lt
  | ltEq
  | amp
  | ampAmp
  | pipe
  | pipePipe
  | lparen
  | rparen
  | lbrace
  | rbrace
  | colon
  | semi
  | kwIf
  | kwElse
  | kwTrue
  | kwFalse
  | kwLet
  | kwFn
  | kwReturn
  | eof
  deriving DecidableEq

structure Token where
  kind : Token.Kind
  span : Span
  deriving DecidableEq

namespace Token
namespace Kind

def all : List Kind :=
  [.ident, .number, .plus, .minus, .arrow, .star, .slash, .eq, .eqEq, .bang, .bangEq, .gt, .gtEq,
    .lt, .ltEq, .amp, .ampAmp, .pipe, .pipePipe, .lparen, .rparen, .lbrace, .rbrace, .colon, .semi,
    .kwIf, .kwElse, .kwTrue, .kwFalse, .kwLet, .kwFn, .kwReturn, .eof]

theorem mem_all (k : Kind) : k ∈ all := by
  cases k <;> decide

-- The name under which token listings show a kind.
def name : Kind → String
  | .ident => "IDENT"
  | .number => "NUMBER"
  | .plus => "PLUS"
  | .minus => "MINUS"
  | .arrow => "ARROW"
  | .star => "STAR"
  | .slash => "SLASH"
  | .eq => "EQ"
  | .eqEq => "EQ_EQ"
  | .bang => "BANG"
  | .bangEq => "BANG_EQ"
  | .gt => "GT"
  | .gtEq => "GT_EQ"
  | .lt => "LT"
  | .ltEq => "LT_EQ"
  | .amp => "AMP"
  | .ampAmp => "AMP_AMP"
  | .pipe => "PIPE"
  | .pipePipe => "PIPE_PIPE"
  | .lparen => "LPAREN"
  | .rparen => "RPAREN"
  | .lbrace => "LBRACE"
  | .rbrace => "RBRACE"
  | .colon => "COLON"
  | .semi => "SEMI"
  | .kwIf => "IF"
  | .kwElse => "ELSE"
  | .kwTrue => "TRUE"
  | .kwFalse => "FALSE"
  | .kwLet => "LET"
  | .kwFn => "FN"
  | .kwReturn => "RETURN"
  | .eof => "EOF"

-- How a token is written. Identifiers, numbers and the end of the input have no fixed spelling
-- and are given their names.
def spelling : Kind → String
  | .plus => "+"
  | .minus => "-"
  | .arrow => "->"
  | .star => "*"
  | .slash => "/"
  | .eq => "="
  | .eqEq => "=="
  | .bang => "!"
  | .bangEq => "!="
  | .gt => ">"
  | .gtEq => ">="
  | .lt => "<"
  | .ltEq => "<="
  | .amp => "&"
  | .ampAmp => "&&"
  | .pipe => "|"
  | .pipePipe => "||"
  | .lparen => "("
  | .rparen => ")"
  | .lbrace => "\x7b"
  | .rbrace => "\x7d"
  | .colon => ":"
  | .semi => ";"
  | .kwIf => "if"
  | .kwElse => "else"
  | .kwTrue => "true"
  | .kwFalse => "false"
  | .kwLet => "let"
  | .kwFn => "fn"
  | .kwReturn => "return"
  | k => k.name

def describe : Kind → String
  | .eof => "end of input"
  | .ident => "identifier"
  | .number => "number"
  | k => s!"'{k.spelling}'"

def keywords : List Kind :=
  [.kwIf, .kwElse, .kwTrue, .kwFalse, .kwLet, .kwFn, .kwReturn]

def isKeyword (k : Kind) : Bool :=
  k ∈ keywords

-- Reads a keyword, or any other word as an identifier.
def ofWord (word : Bytes) : Kind :=
  keywords.find? (fun k => (k.spelling : Text).encode == word) |>.getD .ident

end Kind

-- Stands for the token before the first one.
def dummy : Token where
  kind := .eof
  span := .dummy

def format (t : Token) : String :=
  s!"Token({t.kind.name}, {t.span.format})"

end Token
end ExprLang
