import ExprLang.Command.Arguments
import ExprLang.Command.Path
import ExprLang.Corpus.Generate
import ExprLang.Corpus.Twister
import ExprLang.Json

namespace ExprLang.Command.Generate

inductive Setting
  | help
  | seed
  | count
  | maxDepth
  | out
  deriving DecidableEq

def usage : Text :=
  "usage: generate_corpus [-h] [--seed SEED] [--count COUNT]\n" ++
    "                       [--max-depth MAX_DEPTH] [--out OUT]\n"

def help : Text :=
  "\noptions:\n" ++
  "  -h, --help            show this help message and exit\n" ++
  "  --seed SEED\n" ++
  "  --count COUNT\n" ++
  "  --max-depth MAX_DEPTH\n" ++
  "  --out OUT\n"

def spec : Spec Setting where
  program := "generate_corpus"
  usage := usage
  help := help
  flags := [
    ⟨.help, some "-h", "--help", .help⟩,
    ⟨.seed, none, "--seed", .number⟩,
    ⟨.count, none, "--count", .number⟩,
    ⟨.maxDepth, none, "--max-depth", .number⟩,
    ⟨.out, none, "--out", .text⟩]
  operand := false

-- The settings of a run. One whose value is missing is noticed where the value is first needed.
structure Settings where
  seed : Option Int := some 1
  count : Option Int := some 1000
  maxDepth : Option Int := some 4
  out : Option Text := some "tests/fixtures/generated_corpus"

def Settings.apply (s : Settings) : Event Setting → Settings
  | .number .seed seed => { s with seed }
  | .number .count count => { s with count }
  | .number .maxDepth maxDepth => { s with maxDepth }
  | .text .out out => { s with out }
  | _ => s

structure File where
  path : Path
  contents : Text

def caseName (i : Nat) : Text :=
  let digits : Text := toString i
  "case_" ++ .replicate (6 - digits.length) 0x30 ++ digits ++ ".pyret"

def verdictText : Corpus.Verdict → Text
  | .ok v => v.format
  | .error kind => kind.code

-- The directory for a corpus with a seed and a count.
def directory (out : Path) (seed count : Int) : Path :=
  out.child s!"seed_{seed}_count_{count}"

-- A file for each case, and one that tells what is expected of them.
def files (dir : Path) (cases : List Corpus.Case) : List File :=
  let sources := cases.mapIdx fun i c => File.mk (dir.child (caseName i)) (c.source ++ "\n")
  let expected := Json.obj $ cases.mapIdx fun i c =>
    ((caseName i).toString?.getD "", .str (verdictText c.expected))
  sources ++ [⟨dir.child "expected.json", expected.render ++ "\n"⟩]

-- A corpus in a directory.
structure Product where
  directory : Path
  files : List File

-- Why the command breaks off without a report.
inductive Crash
  | missing (s : Setting)
  | nullByte
  deriving DecidableEq

-- The first setting that has no value is to blame. Without any cases to generate, their depth is of
-- no interest.
def generate (cwd : Path) (s : Settings) : Except Crash Product := do
  let out ← need .out s.out
  if out.contains 0 then throw .nullByte
  let seed ← need .seed s.seed
  let count ← need .count s.count
  let maxDepth ← if count ≤ 0 then pure 0 else need .maxDepth s.maxDepth
  let m : StateM Twister (List Corpus.Case) := Corpus.cases count.toNat maxDepth.toNat
  let dir := directory (cwd.resolve (.ofText out)) seed count
  return ⟨dir, files dir (m.run (.ofSeed seed)).fst⟩
where
  need {α : Type} (setting : Setting) (value : Option α) : Except Crash α :=
    value.elim (.error (.missing setting)) .ok

-- What the command prints, and the files that it writes.
def run (cwd : Path) (args : List Text) : Outcome Crash × List File :=
  match spec.read args with
  | .error stop => (spec.stop stop, [])
  | .ok events =>
    match generate cwd (events.foldl Settings.apply {}) with
    | .ok p => (⟨p.directory.toText ++ "\n", [], .ok 0⟩, p.files)
    | .error crash => (⟨[], [], .error crash⟩, [])

end ExprLang.Command.Generate
