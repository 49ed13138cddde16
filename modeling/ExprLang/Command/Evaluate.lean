import ExprLang.Command.Arguments
import ExprLang.Command.Files
import ExprLang.Eval.Trace
import ExprLang.Parser.Grammar
import ExprLang.Tree.Dump
import ExprLang.Tree.Encode

namespace ExprLang.Command

namespace Evaluate

-- Why the command breaks off without a report.
inductive Crash
  | unencodable (f : EncodeFault)
  | undecodable (f : DecodeFault)
  | numeral (f : Text.NumeralFault) (t : Text)
  | unwritable
  | rendering (e : RenderError)
  | nullByte
  | noLimit
  deriving DecidableEq

inductive Setting
  | help
  | file
  | json
  | noAst
  | maxDepth
  | verbose
  deriving DecidableEq

def defaultSource : Text := "1 * 2 * 3 - 4 / 5"

def usage : Text :=
  "usage: pyret [-h] [-f FILE] [--json] [--no-ast] [--max-depth MAX_DEPTH] [-v]\n" ++
    "             [source]\n"

def help : Text :=
  "\nParse and evaluate a pyret expression\n" ++
  "\npositional arguments:\n" ++
  "  source                Expression to evaluate (default: '1 * 2 * 3 - 4 / 5')\n" ++
  "\noptions:\n" ++
  "  -h, --help            show this help message and exit\n" ++
  "  -f FILE, --file FILE  Read the expression from a file\n" ++
  "  --json                Print the parsed AST as JSON\n" ++
  "  --no-ast              Only print the result\n" ++
  "  --max-depth MAX_DEPTH\n" ++
  "                        Maximum expression nesting depth accepted by the\n" ++
  "                        parser\n" ++
  "  -v, --verbose         Increase log verbosity (repeatable)\n"

def spec : Spec Setting where
  program := "pyret"
  usage := usage
  help := help
  flags := [
    ⟨.help, some "-h", "--help", .help⟩,
    ⟨.file, some "-f", "--file", .text⟩,
    ⟨.json, none, "--json", .nothing⟩,
    ⟨.noAst, none, "--no-ast", .nothing⟩,
    ⟨.maxDepth, none, "--max-depth", .number⟩,
    ⟨.verbose, some "-v", "--verbose", .nothing⟩]
  operand := true

structure Settings where
  source : Option Text := none
  file : Option Text := none
  json : Bool := false
  noAst : Bool := false
  maxDepth : Option Int := some defaultParseDepth
  verbosity : Nat := 0

def Settings.apply (s : Settings) : Event Setting → Settings
  | .operand source => { s with source := some source }
  | .text _ file => { s with file := file.filter (· ≠ []) }
  | .number _ maxDepth => { s with maxDepth }
  | .flag .json => { s with json := true }
  | .flag .noAst => { s with noAst := true }
  | .flag .verbose => { s with verbosity := s.verbosity + 1 }
  | .flag _ => s

-- A run so far: it prints, and goes on unless it has come to its end.
abbrev RunM := ExceptT (Except Crash Nat) (StateM (Text × Text))

def out (t : Text) : RunM Unit :=
  modify fun (stdout, stderr) => (stdout ++ t ++ "\n", stderr)

def err (t : Text) : RunM Unit :=
  modify fun (stdout, stderr) => (stdout, stderr ++ t ++ "\n")

def exit (status : Nat) : RunM α :=
  throw (.ok status)

def crash (c : Crash) : RunM α :=
  throw (.error c)

-- Prints a diagnostic and ends the run.
def refuse (src file : Text) (d : Diagnostic) : RunM α := do
  err (d.locate src file)
  exit 1

def rendered (r : Except RenderError α) : RunM α :=
  match r with
  | .ok a => return a
  | .error e => crash (.rendering e)

-- The source to evaluate and what it is called.
def source (read : Text → Except ReadError Bytes) (s : Settings) : RunM (Text × Text) := do
  match s.file, s.source with
  | none, none => return (defaultSource, "<default>")
  | none, some src => return (src, "<argv>")
  | some file, _ =>
    match read file >>= textOfFile with
    | .ok src => return (src, file)
    | .error (.file e) =>
      err (file ++ s!": {e.message}")
      exit 1
    | .error (.undecodable f) =>
      err (file ++ s!": not valid UTF-8 ({f.reason.describe} at byte {f.offset})")
      exit 1
    | .error (.unnameable f) => crash (.unencodable f)
    | .error .nullByte => crash .nullByte

-- Parses a source. Without a limit the run breaks off where a limit would first matter.
def tree (s : Settings) (src file : Text) : RunM (Program × Interner) := do
  let (r, interner) := parse src .empty (s.maxDepth.getD 0)
  match r, s.maxDepth with
  | .ok e, _ => return (e, interner)
  | .error (.fault ⟨_, .tooDeep _⟩), none => crash .noLimit
  | .error (.fault e), _ => refuse src file e.diagnostic
  | .error (.unwritten _), _ => crash .unwritable
  | .error (.numeral f t), _ => crash (.numeral f t)
  | .error (.undecodable f), _ => crash (.undecodable f)
  | .error (.unencodable f), _ => crash (.unencodable f)

-- Prints a tree as the settings ask for it.
def display (s : Settings) (e : Program) (interner : Interner) : RunM Unit := do
  if s.json then
    out ((← rendered (e.encode ⟨some interner, true⟩)).render)
  else if !s.noAst then
    out (← rendered (e.dump (some interner)))

def value (s : Settings) (e : Program) (src file : Text) : RunM Value := do
  if 2 ≤ s.verbosity then
    for b in branches e defaultEvalDepth do
      let branch := if b.taken then "then" else "else"
      err s!"DEBUG pyret.eval: if at {b.span.format} took the {branch} branch"
  match evaluate e defaultEvalDepth with
  | .ok v => return v
  | .error (.fault fault) => refuse src file fault.diagnostic
  | .error (.unwritten _) => crash .unwritable

-- Evaluates the source that the settings name and prints its tree and its value.
def body (read : Text → Except ReadError Bytes) (s : Settings) : RunM Unit := do
  let (src, file) ← source read s
  match src.encodeStrict with
  | .error f => crash (.unencodable f)
  | .ok bytes =>
    if 1 ≤ s.verbosity then err ("INFO pyret.cli: evaluating " ++ file ++ s!" ({bytes.length} bytes)")
    let (e, interner) ← tree s src file
    if 2 ≤ s.verbosity then err s!"DEBUG pyret.parser: parsed expression spanning {e.span.format}"
    display s e interner
    let v ← value s e src file
    if 2 ≤ s.verbosity then err s!"DEBUG pyret.api: evaluated {e.span.format} to {v.format}"
    out (src.trim (·.isSpace) ++ s!" = {v.format}")

-- What a command line asks for.
def settings (args : List Text) : Except Stop Settings := do
  let s := (← spec.read args).foldl Settings.apply {}
  if s.file.isSome && s.source.isSome then throw (.usage "give either SOURCE or --file, not both")
  else return s

-- Runs the command on a command line. Files are read by `read`.
def run (read : Text → Except ReadError Bytes) (args : List Text) : Outcome Crash :=
  match settings args with
  | .error stop => spec.stop stop
  | .ok s =>
    let (r, stdout, stderr) := (body read s).run.run ([], [])
    { stdout, stderr, status := match r with
      | .ok () => .ok 0
      | .error status => status }

-- The file that the command reads.
def file? (args : List Text) : Option Text :=
  (settings args).toOption.bind (·.file)

end Evaluate
end ExprLang.Command
