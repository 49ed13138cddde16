import ExprLang.Command.Arguments
import ExprLang.Token.Lexer

namespace ExprLang.Command.Tokens

-- A line with the number, the kind, the span and the text of a token.
def line (l : Lexer) (i : Nat) (t : Token) : Text :=
  Text.padLeft 3 (toString i) ++ ": " ++ Text.padRight 10 t.kind.name ++ " " ++
    Text.padRight 8 t.span.format ++ " " ++ (Text.ofAscii (l.slice t.span)).quoted ++ "\n"

-- Lists the tokens of the first argument, or else of the standard input, and breaks off at a fault.
def run (args : List Text) (stdin : Text) : Text × Option SyntaxError :=
  let l := Lexer.ofText (args.headD stdin)
  let s := l.scan
  ((s.tokens.mapIdx (line l)).flatten, s.fault)

end ExprLang.Command.Tokens
