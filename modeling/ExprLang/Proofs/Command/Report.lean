import ExprLang.Command.Evaluate
import ExprLang.Language
import ExprLang.Proofs.Eval.Exact
import ExprLang.Proofs.Parser.Failures
import ExprLang.Proofs.Parser.Respacing
import ExprLang.Proofs.Tree.Listing

/-!
What the command does with a source on its command line. It prints a value, or reports the fault of the
source, unless there are surrogates in it, with which it breaks off before anything is parsed.
-/
namespace ExprLang.Command.Evaluate

-- Options that only change what is printed.
inductive Switch
  | json
  | noAst
  deriving DecidableEq

namespace Switch

def text : Switch → Text
  | .json => "--json"
  | .noAst => "--no-ast"

def setting : Switch → Setting
  | .json => .json
  | .noAst => .noAst

end Switch

-- Options, and a source behind a separator.
def commandLine (switches : List Switch) (src : Text) : List Text :=
  switches.map Switch.text ++ [separator, src]

-- An option as it is written.
def Switch.use (s : Switch) : Use Setting where
  flag := ⟨s.setting, none, s.text, .nothing⟩
  name := s.text
  value := none

theorem classify_switch (s : Switch) : spec.classify s.text = .ok (.use s.use) := by
  cases s <;> rfl

theorem classifyAll_commandLine (switches : List Switch) (src : Text) :
    spec.classifyAll (commandLine switches src) =
      .ok (switches.map (fun s => (s.text, .use s.use)) ++ [(separator, .separator), (src, .operand)]) := by
  induction switches with
  | nil => rfl
  | cons s switches ih =>
    have hs : s.text ≠ separator := by cases s <;> decide
    have ih : spec.classifyAll (switches.map Switch.text ++ [separator, src]) = _ := ih
    simp only [commandLine, List.map_cons, List.cons_append, Spec.classifyAll, hs, if_false, ih,
      classify_switch]
    rfl

theorem say_say (r : Reading Setting) (es es' : List (Event Setting)) :
    (r.say es).say es' = r.say (es ++ es') := by
  simp [Reading.say]

theorem run_switch (s : Switch) (r : Reading Setting) (rest : List (Text × Mark Setting)) :
    Reading.run spec r ((s.text, .use s.use) :: rest) =
      Reading.run spec (r.say [.flag s.setting]) rest := by
  rw [Reading.run]
  cases s <;> rfl

theorem run_switches (switches : List Switch) (r : Reading Setting)
    (rest : List (Text × Mark Setting)) :
    Reading.run spec r (switches.map (fun s => (s.text, .use s.use)) ++ rest) =
      Reading.run spec (r.say (switches.map fun s => .flag s.setting)) rest := by
  induction switches generalizing r with
  | nil => simp [Reading.say]
  | cons s switches ih =>
    rw [List.map_cons, List.cons_append, run_switch, ih, say_say]
    rfl

-- What a command line of this form says.
def said (switches : List Switch) (src : Text) : List (Event Setting) :=
  switches.map (fun s => .flag s.setting) ++ [.operand src]

theorem read_commandLine (switches : List Switch) (src : Text) :
    spec.read (commandLine switches src) = .ok (said switches src) := by
  rw [Spec.read, classifyAll_commandLine]
  show Reading.run spec _ _ >>= _ = _
  rw [run_switches]
  rfl

theorem foldl_switches (switches : List Switch) (s : Settings) :
    (switches.map fun s => Event.flag s.setting).foldl Settings.apply s =
      { s with json := s.json || .json ∈ switches, noAst := s.noAst || .noAst ∈ switches } := by
  induction switches generalizing s with
  | nil => simp
  | cons switch switches ih =>
    rw [List.map_cons, List.foldl_cons, ih]
    cases switch <;> simp [Settings.apply, Switch.setting]

-- The settings for a source on the command line.
def chosen (switches : List Switch) (src : Text) : Settings where
  source := some src
  json := .json ∈ switches
  noAst := .noAst ∈ switches

theorem settings_commandLine (switches : List Switch) (src : Text) :
    settings (commandLine switches src) = .ok (chosen switches src) := by
  have hs : (said switches src).foldl Settings.apply {} = chosen switches src := by
    rw [said, List.foldl_append, foldl_switches]
    simp [Settings.apply, chosen]
  rw [settings, read_commandLine]
  show (if _ then _ else _) = _
  rw [hs]
  rfl

variable {p q r : Text × Text}

section

variable {α β : Type}

-- From what was printed before, a step comes back with a result.
def Goes (m : RunM α) (p : Text × Text) (a : α) (q : Text × Text) : Prop :=
  m.run.run p = (.ok a, q)

-- A step ends the run.
def Ends (m : RunM α) (p : Text × Text) (status : Except Crash Nat) (q : Text × Text) : Prop :=
  m.run.run p = (.error status, q)

variable {m : RunM α} {f : α → RunM β} {a : α} {b : β} {status : Except Crash Nat}

theorem Goes.bind (h : Goes m p a q) (hf : Goes (f a) q b r) : Goes (m >>= f) p b r := by
  show ExceptT.bindCont f (m p).fst (m p).snd = _
  rw [show m p = _ from h]
  exact hf

theorem Goes.bind_ends (h : Goes m p a q) (hf : Ends (f a) q status r) :
    Ends (m >>= f) p status r := by
  show ExceptT.bindCont f (m p).fst (m p).snd = _
  rw [show m p = _ from h]
  exact hf

theorem Ends.bind (h : Ends m p status q) : Ends (m >>= f) p status q := by
  show ExceptT.bindCont f (m p).fst (m p).snd = _
  rw [show m p = _ from h]
  rfl

end

variable {read : Text → Except ReadError Bytes} {switches : List Switch} {src file : Text}

theorem body_chosen : body read (chosen switches src) = (do
    match src.encodeStrict with
    | .error f => crash (.unencodable f)
    | .ok _ =>
      let (e, interner) ← tree (chosen switches src) src "<argv>"
      display (chosen switches src) e interner
      let v ← value (chosen switches src) e src "<argv>"
      out (src.trim (·.isSpace) ++ s!" = {v.format}")) :=
  rfl

-- A report and the end of the run.
theorem refuse_ends {α : Type} (d : Diagnostic) :
    Ends (refuse src file d : RunM α) p (.ok 1) (p.fst, p.snd ++ d.locate src file ++ "\n") :=
  rfl

theorem tree_fault {e : SyntaxError} {j : Interner}
    (h : parse src .empty defaultParseDepth = (.error (.fault e), j)) :
    tree (chosen switches src) src file = refuse src file e.diagnostic := by
  have hd : parse src .empty ((chosen switches src).maxDepth.getD 0) = (.error (.fault e), j) := h
  rw [tree, hd]
  obtain ⟨span, cause⟩ := e
  cases cause <;> rfl

theorem tree_ok {e : Program} {j : Interner}
    (h : parse src .empty defaultParseDepth = (.ok e, j)) :
    tree (chosen switches src) src file = pure (e, j) := by
  have hd : parse src .empty ((chosen switches src).maxDepth.getD 0) = (.ok e, j) := h
  rw [tree, hd]

-- A tree that was parsed can be printed.
theorem display_ok {e : Program} {j : Interner}
    (h : parse src .empty defaultParseDepth = (.ok e, j)) (s : Settings) :
    ∃ stdout, Goes (display s e j) p () (stdout, p.snd) := by
  have hk := Parser.knows_of_parse .empty h
  have ⟨json, hj⟩ := hk.encode_ok true
  have ⟨lines, hl⟩ := hk.dump_ok (Parser.isWritable_of_parse .empty h)
  rw [display]
  split
  case isTrue =>
    rw [hj]
    exact ⟨_, rfl⟩
  case isFalse =>
    split
    case isTrue =>
      rw [hl]
      exact ⟨_, rfl⟩
    case isFalse => exact ⟨_, rfl⟩

theorem value_ok {e : Program} {v : Value} (h : evaluate e defaultEvalDepth = .ok v) :
    value (chosen switches src) e src file = pure v := by
  rw [value, h]
  rfl

theorem value_fault {e : Program} {fault : EvalError}
    (h : evaluate e defaultEvalDepth = .error (.fault fault)) :
    value (chosen switches src) e src file = refuse src file fault.diagnostic := by
  rw [value, h]
  rfl

theorem Goes.run_eq {stdout stderr : Text}
    (h : Goes (body read (chosen switches src)) ([], []) () (stdout, stderr)) :
    run read (commandLine switches src) = ⟨stdout, stderr, .ok 0⟩ := by
  simp only [run, settings_commandLine, show _ = (_, _) from h]

theorem Ends.run_eq {status : Except Crash Nat} {stdout stderr : Text}
    (h : Ends (body read (chosen switches src)) ([], []) status (stdout, stderr)) :
    run read (commandLine switches src) = ⟨stdout, stderr, status⟩ := by
  simp only [run, settings_commandLine, show _ = (_, _) from h]

section

variable {e : Program} {j : Interner} (read : Text → Except ReadError Bytes) (switches : List Switch)

-- A source with a surrogate is not looked at any further.
theorem run_unencodable {f : EncodeFault} (h : src.encodeStrict = .error f) :
    run read (commandLine switches src) = ⟨[], [], .error (.unencodable f)⟩ := by
  refine Ends.run_eq ?_
  rw [body_chosen, h]
  rfl

theorem run_syntaxFault {fault : SyntaxError} (hs : src.encodeStrict = .ok src.encode)
    (hp : parse src .empty defaultParseDepth = (.error (.fault fault), j)) :
    run read (commandLine switches src) =
      ⟨[], fault.diagnostic.locate src "<argv>" ++ "\n", .ok 1⟩ := by
  refine Ends.run_eq ?_
  rw [body_chosen, hs, tree_fault hp]
  exact (refuse_ends _).bind

theorem body_parsed (hs : src.encodeStrict = .ok src.encode)
    (hp : parse src .empty defaultParseDepth = (.ok e, j)) :
    body read (chosen switches src) = (do
      display (chosen switches src) e j
      let v ← value (chosen switches src) e src "<argv>"
      out (src.trim (·.isSpace) ++ s!" = {v.format}")) := by
  rw [body_chosen, hs, tree_ok hp]
  rfl

theorem run_evalFault {fault : EvalError} (hs : src.encodeStrict = .ok src.encode)
    (hp : parse src .empty defaultParseDepth = (.ok e, j))
    (hv : evaluate e defaultEvalDepth = .error (.fault fault)) :
    ∃ stdout, run read (commandLine switches src) =
      ⟨stdout, fault.diagnostic.locate src "<argv>" ++ "\n", .ok 1⟩ := by
  have ⟨stdout, hd⟩ := display_ok (p := ([], [])) hp (chosen switches src)
  refine ⟨stdout, Ends.run_eq ?_⟩
  rw [body_parsed read switches hs hp, value_fault hv]
  exact hd.bind_ends (refuse_ends _).bind

-- The line that is printed for a value.
def answer (src : Text) (v : Value) : Text :=
  src.trim (·.isSpace) ++ s!" = {v.format}" ++ "\n"

theorem run_value {v : Value} (hs : src.encodeStrict = .ok src.encode)
    (hp : parse src .empty defaultParseDepth = (.ok e, j))
    (hv : evaluate e defaultEvalDepth = .ok v) :
    ∃ stdout, run read (commandLine switches src) = ⟨stdout ++ answer src v, [], .ok 0⟩ := by
  have ⟨stdout, hd⟩ := display_ok (p := ([], [])) hp (chosen switches src)
  refine ⟨stdout, Goes.run_eq ?_⟩
  rw [body_parsed read switches hs hp, value_ok hv]
  refine hd.bind ?_
  rw [answer, ←List.append_assoc]
  rfl

end

-- A run tells what comes of a source: its value, or what is wrong with it.
inductive Tells (src : Text) (o : Outcome Crash) : Prop
  | value (hr : ExprLang.run src = .ok v) (hs : o.status = .ok 0) (ho : answer src v <:+ o.stdout)
    (he : o.stderr = [])
  | fault (hr : ExprLang.run src = .error f) (hd : f.diagnostic? = some d) (hs : o.status = .ok 1)
    (he : o.stderr = d.locate src "<argv>" ++ "\n")

-- By what comes of parsing and then of evaluation.
theorem tells_of_encodeStrict (read : Text → Except ReadError Bytes) (switches : List Switch)
    {src : Text} (hs : src.encodeStrict = .ok src.encode)
    (hp : (∃ e, (parse src .empty defaultParseDepth).fst = .ok e) ∨
      ∃ e, (parse src .empty defaultParseDepth).fst = .error (.fault e)) :
    Tells src (run read (commandLine switches src)) := by
  cases hj : parse src .empty defaultParseDepth with
  | mk x j =>
    rw [hj] at hp
    obtain ⟨e, rfl⟩ | ⟨fault, rfl⟩ := hp
    case inl =>
      have hr : ExprLang.run src = _ := runWithin_of_parse hj
      cases hv : evaluate e defaultEvalDepth with
      | ok v =>
        have ⟨stdout, h⟩ := run_value read switches hs hj hv
        rw [h]
        exact .value (by rw [hr, hv]; rfl) rfl (List.suffix_append _ _) rfl
      | error failure =>
        cases failure with
        | unlogged ok | misplaced ok | spanless ok => cases ok
        | unwritten =>
          have hw : Text.isWritable defaultEvalDepth := Text.isWritable_of_natAbs_lt (by decide)
          exact absurd hv (evaluate_ne_unwritten (literalsFit_of_parse .empty hj) hw _)
        | fault =>
          have ⟨stdout, h⟩ := run_evalFault read switches hs hj hv
          rw [h]
          exact .fault (by rw [hr, hv]; rfl) rfl rfl rfl
    case inr =>
      rw [run_syntaxFault read switches hs hj]
      exact .fault (by rw [ExprLang.run, runWithin, hj]; rfl) rfl rfl rfl

-- Of a source that has a tree or a fault, the command tells what comes of it, with status 0 or 1,
-- unless there is a surrogate in it. Such a source has a fault, and the run breaks off without a word.
theorem run_reports (read : Text → Except ReadError Bytes) (switches : List Switch) (src : Text)
    (hp : (∃ e, (parse src .empty defaultParseDepth).fst = .ok e) ∨
      ∃ e, (parse src .empty defaultParseDepth).fst = .error (.fault e)) :
    (src.isEncodable → Tells src (run read (commandLine switches src))) ∧
    (¬src.isEncodable → (∃ e, (parse src .empty defaultParseDepth).fst = .error (.fault e)) ∧
      ∃ f, run read (commandLine switches src) = ⟨[], [], .error (.unencodable f)⟩) := by
  constructor
  case left =>
    intro he
    refine tells_of_encodeStrict read switches ?_ hp
    rw [Text.encodeStrict, Text.surrogatesFrom_eq_none_iff.mpr he]
  case right =>
    intro he
    constructor
    case left =>
      refine hp.resolve_left fun ⟨e, h⟩ => he ?_
      have ha := Parser.isAscii_of_parse .empty (Prod.ext h rfl)
      exact Text.isEncodable_of_isAscii ha
    case right =>
      rw [←Text.surrogatesFrom_eq_none_iff (i := 0)] at he
      have ⟨f, hf⟩ := Option.ne_none_iff_exists'.mp he
      exact ⟨f, run_unencodable read switches (by rw [Text.encodeStrict, hf])⟩

-- A division by zero, with its tree.
theorem run_reports_division :
    Tells "1/0" (run (fun _ => .error .nullByte) (commandLine [.json] "1/0")) :=
  (run_reports _ [.json] "1/0" (.inl ⟨_, by cbv⟩)).left (by decide)

-- A lone surrogate is a stray byte to the parser, but the command does not say so.
theorem run_surrogate_breaks_off :
    (parse [0xD800] .empty defaultParseDepth).fst =
        .error (.fault ⟨⟨0, 1, by decide⟩, .strayByte 0xED⟩) ∧
      run (fun _ => .error .nullByte) (commandLine [] [0xD800]) =
        ⟨[], [], .error (.unencodable ⟨0xD800, 0, 0⟩)⟩ :=
  ⟨by cbv, run_unencodable _ _ rfl⟩

end ExprLang.Command.Evaluate
