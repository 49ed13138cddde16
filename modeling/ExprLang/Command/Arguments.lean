import ExprLang.Text.Numeral

/-!
Command lines: options with long and short names, and at most one operand.
-/
namespace ExprLang.Command

-- What an option stands for.
inductive Takes
  | help
  | nothing
  | text
  | number
  deriving DecidableEq

-- Whether an option comes with a value.
def Takes.value : Takes → Bool
  | .help | .nothing => false
  | .text | .number => true

structure Flag (ι : Type) where
  id : ι
  short : Option Text
  long : Text
  takes : Takes

structure Spec (ι : Type) where
  program : Text
  usage : Text
  help : Text
  flags : List (Flag ι)
  operand : Bool

-- What a command line says. The value of an option can be missing if it was given as two dashes.
inductive Event (ι : Type)
  | flag (id : ι)
  | text (id : ι) (value : Option Text)
  | number (id : ι) (value : Option Int)
  | operand (value : Text)

-- Why a command line says nothing: help was asked for, or it is wrong.
inductive Stop
  | help
  | usage (message : Text)

-- A flag under one of its names, maybe with a value attached.
structure Use (ι : Type) where
  flag : Flag ι
  name : Text
  value : Option Text

-- What an argument is when looked at on its own.
inductive Mark (ι : Type)
  | operand
  | separator
  | use (u : Use ι)
  | unknown

variable {ι : Type}

def dash : CodePoint := 0x2D

def equals : CodePoint := 0x3D

def separator : Text := [dash, dash]

namespace Flag

def names (f : Flag ι) : List Text :=
  f.short.toList ++ [f.long]

def complain (f : Flag ι) (message : Text) : Except Stop α :=
  .error (.usage ("argument " ++ Text.join "/" f.names ++ ": " ++ message))

end Flag

-- The parts of a text before and after the first equals sign.
def splitValue (arg : Text) : Text × Option Text :=
  match arg.span (· != equals) with
  | (name, []) => (name, none)
  | (name, _ :: value) => (name, some value)

-- A whole number or a decimal fraction behind a minus sign. A line may end behind it.
def isNegativeNumber (arg : Text) : Bool :=
  let arg := if arg.getLast? = some 0x0A then arg.dropLast else arg
  match arg with
  | 0x2D :: body =>
    let isDigit (c : CodePoint) := c.digit?.isSome
    match body.span isDigit with
    | (digits, []) => !digits.isEmpty
    | (_, 0x2E :: fraction) => !fraction.isEmpty && fraction.all isDigit
    | _ => false
  | _ => false

namespace Spec

def uses (s : Spec ι) : List (Use ι) :=
  s.flags.flatMap fun f => f.names.map fun name => ⟨f, name, none⟩

def find? (s : Spec ι) (name : Text) : Option (Use ι) :=
  s.uses.find? (·.name = name)

-- The options that an argument may be short for: those that its name is the start of, or one of a
-- single letter with something behind it.
def candidates (s : Spec ι) (arg : Text) : List (Use ι) :=
  if separator.isPrefixOf arg then
    let (name, value) := splitValue arg
    s.uses.filter (fun u => name.isPrefixOf u.name) |>.map ({ · with value })
  else
    s.uses.filter (fun u => u.name = arg.take 2) |>.map ({ · with value := some (arg.drop 2) })

def classify (s : Spec ι) (arg : Text) : Except Stop (Mark ι) :=
  if arg.head? ≠ some dash then .ok .operand
  else if let some u := s.find? arg then .ok (.use u)
  else if arg.length = 1 then .ok .operand
  else
    match splitValue arg with
    | (name, some value) =>
      if let some u := s.find? name then .ok (.use { u with value := some value }) else guess arg
    | (_, none) => guess arg
where
  guess (arg : Text) : Except Stop (Mark ι) :=
    match s.candidates arg with
    | [u] => .ok (.use u)
    | [] =>
      if isNegativeNumber arg || arg.contains 0x20 then .ok .operand else .ok .unknown
    | us =>
      let names := Text.join ", " (us.map (·.name))
      .error (.usage ("ambiguous option: " ++ arg ++ " could match " ++ names))

-- Everything behind a separator is an operand.
def classifyAll (s : Spec ι) : List Text → Except Stop (List (Text × Mark ι))
  | [] => .ok []
  | arg :: args =>
    if arg = separator then .ok ((arg, .separator) :: args.map (·, .operand))
    else do
      let mark ← s.classify arg
      return (arg, mark) :: (← s.classifyAll args)

-- Splits flags that are joined behind one dash. None but the last can have a value of its own, and
-- `joined` is what stands behind the first.
def unjoin (s : Spec ι) (u : Use ι) : Text → Except Stop (List (Use ι))
  | [] => .ok [{ u with value := none }]
  | c :: joined =>
    if u.flag.takes.value then .ok [{ u with value := some (c :: joined) }]
    else
      match s.find? [dash, c] with
      | none => u.flag.complain ("ignored explicit argument " ++ Text.quoted (c :: joined))
      | some v => do return { u with value := none } :: (← s.unjoin v joined)

-- The flags that an argument uses.
def expand (s : Spec ι) (u : Use ι) : Except Stop (List (Use ι)) :=
  match u.value with
  | none => .ok [u]
  | some value =>
    if u.flag.takes.value then .ok [u]
    else if separator.isPrefixOf u.name || value.isEmpty then
      u.flag.complain ("ignored explicit argument " ++ value.quoted)
    else
      s.unjoin u value

end Spec

namespace Use

-- Whether the value of a flag has to be the next argument.
def isHungry (u : Use ι) : Bool :=
  u.flag.takes.value && u.value.isNone

-- What a flag says if `next` is the next argument.
def event (u : Use ι) (next : Option Text) : Except Stop (Event ι) :=
  let value := (u.value.or next).filter (· ≠ separator)
  match u.flag.takes, value with
  | .help, _ => .error .help
  | .nothing, _ => .ok (.flag u.flag.id)
  | .text, value => .ok (.text u.flag.id value)
  | .number, none => .ok (.number u.flag.id none)
  | .number, some t =>
    match t.integer? with
    | .ok n => .ok (.number u.flag.id (some n))
    | .error _ => u.flag.complain ("invalid int value: " ++ t.quoted)

end Use

-- What a command line said so far, what of it was not understood, and whether an operand may come.
structure Reading (ι : Type) where
  operand : Bool
  events : List (Event ι)
  extras : List Text

namespace Reading

def say (r : Reading ι) (es : List (Event ι)) : Reading ι :=
  { r with events := r.events ++ es }

def extra (r : Reading ι) (args : List Text) : Reading ι :=
  { r with extras := r.extras ++ args }

-- Reads arguments from left to right. The first operand is the one that counts, and a separator on
-- either side of it belongs to it.
def run (s : Spec ι) (r : Reading ι) : List (Text × Mark ι) → Except Stop (Reading ι)
  | [] => .ok r
  | (arg, .unknown) :: rest => run s (r.extra [arg]) rest
  | (arg, .operand) :: rest =>
    if r.operand then
      let r := { r.say [.operand arg] with operand := false }
      match rest with
      | (_, .separator) :: rest => run s r rest
      | rest => run s r rest
    else
      run s (r.extra [arg]) rest
  | (arg, .separator) :: rest =>
    if r.operand then
      match rest with
      | (arg, .operand) :: rest => run s { r.say [.operand arg] with operand := false } rest
      | rest => run s { r with operand := false } rest
    else
      run s (r.extra [arg]) rest
  | (_, .use u) :: rest => do
    let us ← s.expand u
    match us.find? (·.isHungry) with
    | none => run s (r.say (← us.mapM (·.event none))) rest
    | some hungry =>
      match rest with
      | (value, .operand) :: rest => run s (r.say (← us.mapM (·.event (some value)))) rest
      | _ => hungry.flag.complain "expected one argument"

end Reading

-- What a command line says, unless there is something in it that was not understood.
def Spec.read (s : Spec ι) (args : List Text) : Except Stop (List (Event ι)) := do
  let r ← Reading.run s ⟨s.operand, [], []⟩ (← s.classifyAll args)
  if r.extras.isEmpty then return r.events
  else throw (.usage ("unrecognized arguments: " ++ Text.join " " r.extras))

-- What a run of a command printed, and its exit status unless it broke off.
structure Outcome (ε : Type) where
  stdout : Text
  stderr : Text
  status : Except ε Nat

-- What a run comes to whose command line says nothing.
def Spec.stop (s : Spec ι) : Stop → Outcome ε
  | .help => ⟨s.usage ++ s.help, [], .ok 0⟩
  | .usage message => ⟨[], s.usage ++ s.program ++ ": error: " ++ message ++ "\n", .ok 2⟩

end ExprLang.Command
