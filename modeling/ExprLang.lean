import ExprLang.Command.Arguments
import ExprLang.Command.Evaluate
import ExprLang.Command.Files
import ExprLang.Command.Generate
import ExprLang.Command.Path
import ExprLang.Command.Tokens
import ExprLang.Corpus.Chance
import ExprLang.Corpus.Generate
import ExprLang.Corpus.Twister
import ExprLang.Diagnostic
import ExprLang.Eval.Basic
import ExprLang.Eval.Trace
import ExprLang.Eval.Value
import ExprLang.Json
import ExprLang.Language
import ExprLang.Main
import ExprLang.Parser.Basic
import ExprLang.Parser.Grammar
import ExprLang.Parser.Method
import ExprLang.Span
import ExprLang.Symbol.Interner
import ExprLang.SyntaxError
import ExprLang.Text.Basic
import ExprLang.Text.Numeral
import ExprLang.Text.Printable
import ExprLang.Text.Quoted
import ExprLang.Text.Utf8
import ExprLang.Token.Basic
import ExprLang.Token.Lexer
import ExprLang.Tree.Basic
import ExprLang.Tree.Category
import ExprLang.Tree.Dump
import ExprLang.Tree.Encode
import ExprLang.Tree.Format
import ExprLang.Proofs.Token.Scan
import ExprLang.Proofs.Grammar.Derivation
import ExprLang.Proofs.Symbol.Interner
import ExprLang.Proofs.Grammar.Unambiguous
import ExprLang.Proofs.Parser.Reading
import ExprLang.Proofs.Parser.Soundness
import ExprLang.Proofs.Parser.Completeness
import ExprLang.Proofs.Parser.Acceptance
import ExprLang.Proofs.Token.Spelling
import ExprLang.Proofs.Tree.Writing
import ExprLang.Proofs.Tree.Words
import ExprLang.Proofs.Grammar.Writing
import ExprLang.Proofs.Parser.RoundTrip
import ExprLang.Proofs.Eval.Depth
import ExprLang.Proofs.Token.Lexeme
import ExprLang.Proofs.Token.Cover
import ExprLang.Proofs.Tree.Groups
import ExprLang.Proofs.Parser.Layout
import ExprLang.Proofs.Eval.Height
import ExprLang.Proofs.Eval.Nesting
import ExprLang.Proofs.Corpus.Verdict
import ExprLang.Proofs.Corpus.Generate
import ExprLang.Proofs.Text.Utf8
import ExprLang.Proofs.Symbol.History
import ExprLang.Proofs.Parser.Refusal
import ExprLang.Proofs.Parser.Trace
import ExprLang.Proofs.Token.Placement
import ExprLang.Proofs.Parser.Failures
import ExprLang.Proofs.Parser.Viable
import ExprLang.Proofs.Parser.Lookahead
import ExprLang.Proofs.Parser.Misplaced
import ExprLang.Proofs.Grammar.Located
import ExprLang.Proofs.Grammar.Relocated
import ExprLang.Proofs.Parser.Locating
import ExprLang.Proofs.Parser.Slices
import ExprLang.Proofs.Symbol.Growth
import ExprLang.Proofs.Parser.Pair
import ExprLang.Proofs.Parser.Abreast
import ExprLang.Proofs.Tree.Rendering
import ExprLang.Proofs.Parser.Naming
import ExprLang.Proofs.Parser.Independence
import ExprLang.Proofs.Eval.Chain
import ExprLang.Proofs.Parser.Respacing
import ExprLang.Proofs.Eval.Exact
import ExprLang.Proofs.Eval.Overflow
import ExprLang.Proofs.Grammar.Levels
import ExprLang.Proofs.Parser.Cutoff
import ExprLang.Proofs.Parser.Steady
import ExprLang.Proofs.Tree.Listing
import ExprLang.Proofs.Command.Report
import ExprLang.Proofs.Parser.Spans
import ExprLang.Proofs.Text.Position
import ExprLang.Proofs.Parser.Reports
import ExprLang.Proofs.Eval.Ungrouping
import ExprLang.Proofs.Tree.Depths
import ExprLang.Proofs.Tree.Brackets
import ExprLang.Proofs.Parser.Parentheses
import ExprLang.Proofs.Token.Legality
import ExprLang.Proofs.Parser.Scanning
import ExprLang.Proofs.Token.Spacing
import ExprLang.Proofs.Tree.Preorder
import ExprLang.Proofs.Tree.Rows
import ExprLang.Proofs.Tree.Lines
import ExprLang.Proofs.Tree.Recovery
import ExprLang.Proofs.Parser.Unlisting
import ExprLang.Proofs.Symbol.Membership
import ExprLang.Proofs.Symbol.Storage
import ExprLang.Proofs.Tree.Conversion
import ExprLang.Proofs.Tree.Filling
import ExprLang.Proofs.Tree.Comparison
import ExprLang.Proofs.Parser.Unencoding
import ExprLang.Proofs.Parser.Routine
import ExprLang.Proofs.Parser.Recursion
import ExprLang.Proofs.Tree.Assembly
import ExprLang.Proofs.Text.Coordinates
